import SurfaceOS.Fat.Steps

/-! The loops of `read_at` and `write_at`, and the calls as a whole, over the steps: what a call does
to the chains in every case, and to the file's bytes when nothing runs out. -/
namespace SurfaceOS.Fat
open Lib Lib.Memory List Nat

variable {sb : Super} {aside : Nat → Prop} {f len off : Nat} {s t : Io} {chains after : Nat → List Nat}

def Grants (v : Vol) : Prop := ∀ i, v.refusals i = none

theorem chunk_bounds (pos : 0 < sb.clusterSize) (off : Nat) (some : len ≠ 0) :
    0 < min (sb.clusterSize - off % sb.clusterSize) len ∧
      off % sb.clusterSize + min (sb.clusterSize - off % sb.clusterSize) len ≤ sb.clusterSize ∧
      off / sb.clusterSize * sb.clusterSize + off % sb.clusterSize = off := by
  have small := mod_lt off pos
  have split := div_add_mod off sb.clusterSize
  rw [Nat.mul_comm] at split
  exact ⟨by omega,by omega,split⟩

theorem index_small (limit : off ≤ sizeLimit) : off / sb.clusterSize % 2^32 = off / sb.clusterSize := by
  have := div_le_self off sb.clusterSize
  unfold sizeLimit at limit
  exact mod_eq_of_lt (by omega)

theorem cluster_exists (pos : 0 < sb.clusterSize) {cells : List Nat} (some : len ≠ 0)
    (fits : off + len ≤ cells.length * sb.clusterSize) : off / sb.clusterSize < cells.length :=
  (div_lt_iff_lt_mul pos).mpr (by omega)

structure Wrote (sb : Super) (aside : Nat → Prop) (f fuel : Nat) (s : Io) (chains : Nat → List Nat) (off : Nat) (src : List UInt8)
    (done : Nat) (r : Except Errno Unit) (total : Nat) (t : Io) : Prop extends Kept sb aside f s chains t chains where
  size : t.node.size = s.node.size
  dirty : t.node.dirty = s.node.dirty
  granted : Grants s.vol → src.length ≤ fuel → off + src.length ≤ sizeLimit →
    off + src.length ≤ (chains f).length * sb.clusterSize →
    r = .ok () ∧ total = done + src.length ∧
      Fat.image sb t.vol.disk (chains f) = patch (Fat.image sb s.vol.disk (chains f)) off src

theorem Live.writesLoop (geometry : Geometry sb) (live : Live sb aside f s chains) (fuel off : Nat)
    (src : List UInt8) (done : Nat) : ∃ r total t, writeLoop sb fuel s off src done = (r,total,t) ∧
      Wrote sb aside f fuel s chains off src done r total t := by
  have pos := geometry.clusterSize_pos
  induction fuel generalizing s off src done with
  | zero =>
    refine ⟨.ok (),done,s,rfl,live.kept,rfl,rfl,fun _ enough _ _ => ?_⟩
    obtain rfl : src = [] := eq_nil_of_length_eq_zero (by omega)
    exact ⟨rfl,rfl,(patch_nil ..).symm⟩
  | succ fuel ih =>
    unfold writeLoop
    split
    · next none =>
      refine ⟨.ok (),done,s,rfl,live.kept,rfl,rfl,fun _ _ _ _ => ?_⟩
      obtain rfl : src = [] := eq_nil_of_length_eq_zero none
      exact ⟨rfl,rfl,(patch_nil ..).symm⟩
    rename_i some
    obtain ⟨positive,fits,place⟩ := chunk_bounds pos off some
    dsimp only
    rw [Chain.at geometry (live.alloc.chain f) live.on]
    cases here : (chains f)[off / sb.clusterSize % 2^32]? with
    | none =>
      refine ⟨.error .enxio,done,s,rfl,live.kept,rfl,rfl,fun _ _ limit long => ?_⟩
      rw [index_small (by omega),getElem?_eq_none_iff] at here
      exact absurd (cluster_exists pos some long) (by omega)
    | some c =>
      generalize size : min (sb.clusterSize - off % sb.clusterSize) src.length = chunk at *
      have length : (src.take chunk).length = chunk := by rw [length_take]; omega
      obtain ⟨r,w,ran,rewritten⟩ := live.writesChunk geometry here
        (show off % sb.clusterSize + (src.take chunk).length ≤ sb.clusterSize by omega)
      dsimp only
      rw [ran]
      have kept := rewritten.kept _ (live.on.moved here)
      cases r with
      | error e =>
        refine ⟨.error e,done,_,rfl,kept,rfl,rfl,fun all _ _ _ => ?_⟩
        exact absurd (rewritten.granted all) nofun
      | ok _ =>
        obtain ⟨r,total,t,rest,wrote⟩ := ih kept.live (off + chunk) (src.drop chunk) (done + chunk)
        refine ⟨r,total,t,rest,kept.trans wrote.toKept,wrote.size,wrote.dirty,fun all enough limit long => ?_⟩
        have remaining : (src.drop chunk).length = src.length - chunk := length_drop
        obtain ⟨finished,sum,looks⟩ := wrote.granted (kept.grants all) (by omega) (by omega) (by omega)
        refine ⟨finished,by omega,?_⟩
        have first := rewritten.done rfl
        rw [index_small (by omega),place] at first
        rw [looks,first]
        have joined := patch_append (Fat.image sb s.vol.disk (chains f)) off (src.take chunk) (src.drop chunk)
        rw [length,take_append_drop] at joined
        exact joined

structure ReadOut (sb : Super) (aside : Nat → Prop) (f fuel : Nat) (s : Io) (chains : Nat → List Nat) (off len : Nat)
    (front : List UInt8) (out : Transfer) : Prop extends Kept sb aside f s chains out.io chains where
  size : out.io.node.size = s.node.size
  dirty : out.io.node.dirty = s.node.dirty
  disk : out.io.vol.disk = s.vol.disk
  granted : Grants s.vol → len ≤ fuel → off + len ≤ sizeLimit → off + len ≤ (chains f).length * sb.clusterSize →
    out.error = none ∧ out.bytes = front ++ slice (Fat.image sb s.vol.disk (chains f)) off len

theorem Live.readsLoop (geometry : Geometry sb) (live : Live sb aside f s chains) (fuel off len : Nat)
    (bytes : List UInt8) : ReadOut sb aside f fuel s chains off len bytes (readLoop sb fuel s off len bytes) := by
  have pos := geometry.clusterSize_pos
  induction fuel generalizing s off len bytes with
  | zero =>
    refine ⟨live.kept,rfl,rfl,rfl,fun _ enough _ _ => ⟨rfl,?_⟩⟩
    obtain rfl : len = 0 := by omega
    exact (append_nil _).symm
  | succ fuel ih =>
    unfold readLoop
    split
    · next none =>
      subst none
      exact ⟨live.kept,rfl,rfl,rfl,fun _ _ _ _ => ⟨rfl,(append_nil _).symm⟩⟩
    rename_i some
    obtain ⟨positive,fits,place⟩ := chunk_bounds pos off some
    dsimp only
    rw [Chain.at geometry (live.alloc.chain f) live.on]
    cases here : (chains f)[off / sb.clusterSize % 2^32]? with
    | none =>
      refine ⟨live.kept,rfl,rfl,rfl,fun _ _ limit long => ?_⟩
      rw [index_small (by omega),getElem?_eq_none_iff] at here
      exact absurd (cluster_exists pos some long) (by omega)
    | some c =>
      dsimp only
      rw [live.reads geometry here]
      have asked := live.asks (live.on.moved here)
      cases refused : s.vol.refusals 0 with
      | some e =>
        refine ⟨asked,rfl,rfl,rfl,fun all _ _ _ => ?_⟩
        rw [all 0] at refused
        cases refused
      | none =>
        generalize size : min (sb.clusterSize - off % sb.clusterSize) len = chunk at *
        have rest := ih asked.live (off + chunk) (len - chunk) (bytes ++ ((slice
          (Fat.image sb s.vol.disk (chains f)) (off / sb.clusterSize % 2^32 * sb.clusterSize)
          sb.clusterSize).drop (off % sb.clusterSize)).take chunk)
        refine ⟨asked.trans rest.toKept,rest.size,rest.dirty,rest.disk,fun all enough limit long => ?_⟩
        obtain ⟨none,read⟩ := rest.granted (asked.grants all) (by omega) (by omega) (by omega)
        refine ⟨none,?_⟩
        rw [read,index_small (by omega),slice_drop _ _ _ _ (by omega),slice_take _ _ _ _ (by omega),place,
          append_assoc]
        congr 1
        have joined := slice_add (Fat.image sb s.vol.disk (chains f)) off chunk (len - chunk)
        rw [Nat.add_sub_cancel' (show chunk ≤ len by omega)] at joined
        exact joined.symm

end SurfaceOS.Fat
