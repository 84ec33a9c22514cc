import Mathlib.Data.List.TakeWhile
import Mathlib.Data.Prod.Basic
import SurfaceOS.Dev.Buffers

/-! The calls of the sector cache keep its invariant, with one exception: an error exit of
`get_range` lets go of buffers that are bound to their sectors and were never filled. -/
namespace SurfaceOS.Bcache
open Lib Function List Nat Lib.Memory

variable {D : Type}

section
variable {c : Setup D} {pending : Nat → Prop} {s : State D}

theorem blockRead_cases (c : Setup D) (s : State D) (d lba n : Nat) : (∃ e, (blockRead c s d lba n).1 = .error e ∧
      ((blockRead c s d lba n).2 = s ∨ (blockRead c s d lba n).2 = s.tick)) ∨
    (n ≠ 0 ∧ blockRead c s d lba n =
      (.ok (slice (s.disk (c.devs d).disk) (place c d lba) n),s.tick)) := by
  unfold blockRead
  split
  · exact .inl ⟨_,rfl,.inl rfl⟩
  split
  · exact .inl ⟨_,rfl,.inl rfl⟩
  split
  · exact .inl ⟨_,rfl,.inr rfl⟩
  · exact .inr ⟨by omega,rfl⟩

theorem getElem?_snoc {α : Type} {xs : List α} {x y : α} {k : Nat} (found : (xs ++ [x])[k]? = some y) :
    xs[k]? = some y ∨ k = xs.length ∧ y = x := by
  by_cases before : k < xs.length
  · exact .inl (by rwa [getElem?_append_left before] at found)
  rw [getElem?_append_right (by omega)] at found
  obtain ⟨bound,same⟩ := List.getElem?_eq_some_iff.mp found
  simp only [length_singleton] at bound
  refine .inr ⟨by omega,?_⟩
  simpa using same.symm

theorem holds_inj {b : Buf D} {d l m : Nat} (first : holds b d l) (second : holds b d m) : l = m :=
  ((holds_iff _ _ _).mp first).2.2.symm.trans ((holds_iff _ _ _).mp second).2.2

theorem setData_holds (s : State D) (i j : Nat) (x : D) (d lba : Nat) :
    holds ((s.setData i x).bufs j) d lba = holds (s.bufs j) d lba := by
  by_cases ji : j = i
  · subst ji
    simp [State.setData,holds]
  · rw [State.setData,setBuf_other s i j _ ji]

theorem missRun_getElem? (entries : List (Nat × Bool)) (n k i : Nat)
    (found : (((entries.takeWhile Prod.snd).map Prod.fst).take n)[k]? = some i) :
    k < n ∧ entries[k]? = some (i,true) := by
  rw [getElem?_take] at found
  split at found
  · rename_i small
    rw [getElem?_map] at found
    obtain ⟨e,inRun,rfl⟩ := Option.map_eq_some_iff.mp found
    obtain ⟨bound,same⟩ := List.getElem?_eq_some_iff.mp inRun
    have missing : e.2 := mem_takeWhile_imp (same ▸ getElem_mem bound)
    have front := takeWhile_prefix Prod.snd (l := entries)
    refine ⟨small,List.getElem?_eq_some_iff.mpr ⟨lt_of_lt_of_le bound front.length_le,?_⟩⟩
    rw [← front.getElem bound,same,← missing]
  · cases found

section
variable (inv : Inv c pending s)
include inv

theorem Inv.congr {pending' : Nat → Prop}
    (same : ∀ j, pending' j ↔ pending j) : Inv c pending' s := by
  have : pending' = pending := funext fun j => propext (same j)
  rwa [this]

theorem Inv.setData (i : Nat) (waits : pending i) (x : D)
    (read : x = sector c s (s.bufs i).dev (s.bufs i).lba) : Inv c (fun j => pending j ∧ j ≠ i) (s.setData i x) := by
  obtain ⟨inRange,locked,clean,untouched⟩ := inv.bound i waits
  have valid := inv.locked i inRange locked
  have ok := inv.ok i inRange valid
  refine inv.rework i inRange valid _ (by simp [holds,valid]) _ (fun j other => by simp [other]) ?_
    (inv.held i inRange) (fun still => absurd rfl still.2)
  exact ⟨ok.inside,fun _ _ _ _ => read,fun dirty => absurd (clean.symm.trans dirty) (by decide),ok.kept⟩

theorem Inv.unbind (i : Nat) (waits : pending i) :
    Inv c (fun j => pending j ∧ j ≠ i) (s.setBuf i {s.bufs i with valid := false, refcnt := 0}) := by
  obtain ⟨inRange,locked,clean,untouched⟩ := inv.bound i waits
  refine inv.setBuf i inRange _ _ (fun j other => by simp [other]) (fun valid => Bool.noConfusion valid)
    (fun valid => Bool.noConfusion valid) (fun held => absurd held (by simp)) ?_
    (fun still => absurd rfl still.2) ?_
  · intro touched
    exact absurd (untouched.symm.trans touched) (by decide)
  · intro healthy valid _
    exact (inv.ok i inRange valid).kept healthy clean untouched

theorem Inv.read_failed {t : State D} (after : t = s ∨ t = s.tick) :
    Inv c pending t ∧ t.bufs = s.bufs := by
  rcases after with rfl | rfl
  · exact ⟨inv,rfl⟩
  · exact ⟨inv.tick,rfl⟩

theorem Inv.evict (i : Nat) (picked : pickVictim c s = some i) (writes : Bool)
    (needed : Healthy c s → (s.bufs i).valid → (s.bufs i).dirty → writes)
    (valid : writes → (s.bufs i).valid) : let out := if writes then writeback c s i else (.ok (),s)
    Inv c pending out.2 ∧ Cleaned s out.2 ∧
      (out.1 = .ok () → Healthy c out.2 → (out.2.bufs i).valid → (out.2.bufs i).dirty = false) := by
  obtain ⟨inRange,_⟩ := pickVictim_free picked
  cases writes with
  | false =>
    refine ⟨inv,.refl s,fun _ healthy isValid => ?_⟩
    by_contra dirty
    exact absurd (needed healthy isValid (by simpa using dirty)) (by decide)
  | true =>
    obtain ⟨after,cleaned,done⟩ := inv.writesBack i inRange (valid rfl)
    exact ⟨after,cleaned,fun ok _ _ => done ok⟩

theorem Inv.scatter (d lba : Nat) (run : List Nat) (xs : List D)
    (ready : ∀ k i, run[k]? = some i → holds (s.bufs i) d (lba + k) ∧ pending i)
    (size : xs.length = run.length) (read : ∀ k x, xs[k]? = some x → x = sector c s d (lba + k)) :
    Inv c (fun j => pending j ∧ j ∉ run) (s.scatter run xs) ∧
    ∀ j e l, holds ((s.scatter run xs).bufs j) e l = holds (s.bufs j) e l := by
  induction run generalizing pending s lba xs with
  | nil => exact ⟨inv.congr (by simp),fun _ _ _ => rfl⟩
  | cons i run ih =>
    cases xs with
    | nil => simp at size
    | cons x xs =>
      obtain ⟨hit,waits⟩ := ready 0 i rfl
      obtain ⟨_,dev,block⟩ := (holds_iff _ _ _).mp hit
      have filled := inv.setData i waits x (by rw [dev,block]; exact read 0 x rfl)
      obtain ⟨after,keys⟩ := ih filled (lba + 1) xs
        (by
          intro k j found
          obtain ⟨jHit,jWaits⟩ := ready (k + 1) j (by simpa using found)
          have ji : j ≠ i := by
            rintro rfl
            have := holds_inj hit jHit
            omega
          rw [setData_holds,Nat.add_assoc,Nat.add_comm 1 k]
          exact ⟨jHit,jWaits,ji⟩)
        (by simpa using size)
        (by
          intro k y found
          have := read (k + 1) y (by simpa using found)
          rwa [Nat.add_assoc,Nat.add_comm 1 k])
      refine ⟨after.congr fun j => ?_,fun j e l => (keys j e l).trans (setData_holds s i j x e l)⟩
      rw [mem_cons,not_or,and_assoc]

theorem Inv.fillsChunks (d chunk fuel lba : Nat) (run : List Nat) (enough : run.length ≤ fuel)
    (fits : lba + run.length ≤ (c.devs d).sectorCount)
    (ready : ∀ k i, run[k]? = some i → holds (s.bufs i) d (lba + k) ∧ pending i)
    (ok : (fillChunks c d chunk fuel lba run s).1 = .ok ()) :
    Inv c (fun j => pending j ∧ j ∉ run) (fillChunks c d chunk fuel lba run s).2 ∧
    ∀ j e l, holds ((fillChunks c d chunk fuel lba run s).2.bufs j) e l = holds (s.bufs j) e l := by
  induction fuel generalizing pending s lba run with
  | zero =>
    obtain rfl := eq_nil_of_length_eq_zero (le_zero.mp enough)
    exact ⟨inv.congr (by simp),fun _ _ _ => rfl⟩
  | succ fuel ih =>
    cases run with
    | nil => exact ⟨inv.congr (by simp),fun _ _ _ => rfl⟩
    | cons i rest =>
      have step : ∃ n, n = if chunk < (i :: rest).length then chunk else (i :: rest).length := ⟨_,rfl⟩
      obtain ⟨n,size⟩ := step
      unfold fillChunks at ok ⊢
      simp only [← size] at ok ⊢
      rcases blockRead_cases c s d lba n with ⟨e,failed,_⟩ | ⟨positive,read⟩
      · rw [Prod.fst_eq_iff.mp failed] at ok
        cases ok
      rw [place_eq c (by omega)] at read
      rw [read] at ok ⊢
      have short : n ≤ (i :: rest).length := by split at size <;> omega
      obtain ⟨filled,keys⟩ := inv.tick.scatter d lba ((i :: rest).take n)
        (Memory.slice (s.disk (c.devs d).disk) ((c.devs d).offset + lba) n)
        (by
          intro k j found
          rw [getElem?_take] at found
          split at found
          · exact ready k j found
          · cases found)
        (by rw [Memory.slice_length,length_take_of_le short])
        (by
          intro k x found
          obtain ⟨bound,rfl⟩ := List.getElem?_eq_some_iff.mp found
          simp [Memory.slice,sector,State.tick,Nat.add_assoc])
      obtain ⟨after,keys'⟩ := ih filled (lba + n) ((i :: rest).drop n)
        (by rw [length_drop]; simp only [length_cons] at enough ⊢; omega)
        (by rw [length_drop]; omega)
        (by
          intro k j found
          rw [getElem?_drop] at found
          obtain ⟨hit,waits⟩ := ready (n + k) j found
          refine ⟨by rw [keys,Nat.add_assoc]; exact hit,waits,fun member => ?_⟩
          obtain ⟨m,bound,same⟩ := getElem_of_mem member
          simp only [length_take] at bound
          rw [getElem_take] at same
          have hit' := (ready m j (List.getElem?_eq_some_iff.mpr ⟨by omega,same⟩)).1
          have := holds_inj hit hit'
          omega)
        ok
      refine ⟨after.congr fun j => ?_,fun j e l => (keys' j e l).trans (keys j e l)⟩
      rw [and_assoc,← not_or,← mem_append,take_append_drop]

theorem Inv.fillsRun (d lba : Nat) (run : List Nat) (fits : lba + run.length ≤ (c.devs d).sectorCount)
    (ready : ∀ k i, run[k]? = some i → holds (s.bufs i) d (lba + k) ∧ pending i)
    (ok : (fillRun c d lba run s).1 = .ok ()) : Inv c (fun j => pending j ∧ j ∉ run) (fillRun c d lba run s).2 ∧
    ∀ j e l, holds ((fillRun c d lba run s).2.bufs j) e l = holds (s.bufs j) e l := by
  unfold fillRun at ok ⊢
  dsimp only at ok
  split at ok
  · cases ok
  · rename_i memory
    rw [if_neg memory]
    exact inv.tick.fillsChunks d _ run.length lba run (le_refl _) fits ready ok

theorem Inv.fillsMisses (d fuel lba : Nat) (entries : List (Nat × Bool))
    (enough : entries.length ≤ fuel) (fits : lba + entries.length ≤ (c.devs d).sectorCount)
    (only : ∀ j, pending j → (j,true) ∈ entries)
    (ready : ∀ k e, entries[k]? = some e → holds (s.bufs e.1) d (lba + k) ∧ (e.2 → pending e.1))
    (ok : (fillMisses c d fuel lba entries s).1 = .ok ()) :
    Inv c (fun _ => False) (fillMisses c d fuel lba entries s).2 ∧
    ∀ j e l, holds ((fillMisses c d fuel lba entries s).2.bufs j) e l = holds (s.bufs j) e l := by
  induction fuel generalizing pending s lba entries with
  | zero =>
    obtain rfl := eq_nil_of_length_eq_zero (le_zero.mp enough)
    exact ⟨inv.congr fun j => ⟨False.elim,fun waits => by simpa using only j waits⟩,fun _ _ _ => rfl⟩
  | succ fuel ih =>
    match entries with
    | [] =>
      exact ⟨inv.congr fun j => ⟨False.elim,fun waits => by simpa using only j waits⟩,fun _ _ _ => rfl⟩
    | (i,false) :: rest =>
      refine ih inv (lba + 1) rest (by simpa using enough) (by simp only [length_cons] at fits; omega) ?_ ?_ ok
      · intro j waits
        simpa using only j waits
      · intro k e found
        rw [Nat.add_assoc,Nat.add_comm 1 k]
        exact ready (k + 1) e (by simpa using found)
    | (i,true) :: rest =>
      have run : ∃ run, run = (((i,true) :: rest).takeWhile Prod.snd).map Prod.fst := ⟨_,rfl⟩
      obtain ⟨run,isRun⟩ := run
      have size : ∃ n, n = if maxRangeChunk < run.length then maxRangeChunk else run.length := ⟨_,rfl⟩
      obtain ⟨n,isSize⟩ := size
      have nonempty : 0 < run.length := by simp [isRun]
      have bounds : 0 < n ∧ n ≤ run.length := by
        have positive : 0 < maxRangeChunk := by decide
        split at isSize <;> omega
      have length : (run.take n).length = n := length_take_of_le bounds.2
      have entry : ∀ k j, (run.take n)[k]? = some j → k < n ∧ ((i,true) :: rest)[k]? = some (j,true) := by
        intro k j found
        exact missRun_getElem? _ n k j (isRun ▸ found)
      unfold fillMisses at ok ⊢
      simp only [← isRun,← isSize] at ok ⊢
      rcases result : fillRun c d lba (run.take n) s with ⟨e | done,t⟩ <;> rw [result] at ok
      · cases ok
      have whole : run.length ≤ ((i,true) :: rest).length := by
        rw [isRun,length_map]
        exact ( takeWhile_prefix Prod.snd).length_le
      obtain ⟨filled,keys⟩ := inv.fillsRun d lba (run.take n) (by omega)
        (fun k j found =>
          have here := ready k _ (entry k j found).2
          ⟨here.1,here.2 rfl⟩)
        (by rw [result])
      rw [result] at filled keys
      have next := ih filled (lba + n) (((i,true) :: rest).drop n) ?_ (by rw [length_drop]; omega) ?_ ?_ ok
      · exact ⟨next.1,fun j e l => (next.2 j e l).trans (keys j e l)⟩
      · simp only [length_drop] at enough ⊢
        omega
      · rintro j ⟨waits,notIn⟩
        have member := only j waits
        rw [← take_append_drop n ((i,true) :: rest),mem_append] at member
        refine member.resolve_left fun inFront => notIn ?_
        obtain ⟨k,bound,same⟩ := getElem_of_mem inFront
        simp only [length_take] at bound
        have small : k < (run.take n).length := by omega
        have there := (entry k _ (getElem?_eq_getElem small)).2
        rw [getElem_take] at same
        have equal := (List.getElem?_eq_some_iff.mpr ⟨by omega,same⟩).symm.trans there
        simp only [Option.some.injEq,Prod.mk.injEq] at equal
        exact equal.1 ▸ getElem_mem small
      · intro k e found
        rw [getElem?_drop] at found
        obtain ⟨hit,waits⟩ := ready (n + k) e found
        refine ⟨by rw [keys,Nat.add_assoc]; exact hit,fun missing => ⟨waits missing,fun inFront => ?_⟩⟩
        obtain ⟨m,bound,same⟩ := getElem_of_mem inFront
        have there := entry m e.1 (List.getElem?_eq_some_iff.mpr ⟨bound,same⟩)
        have := holds_inj hit (ready m _ there.2).1
        omega

theorem Inv.setLast (i d lba : Nat) (inRange : i < c.nbuf)
    (hit : holds (s.bufs i) d lba) (dirty : (s.bufs i).dirty) (touched : (s.bufs i).touched)
    (x : D) : Inv c pending {s with last := update s.last d (update (s.last d) lba x)} := by
  have other : ∀ e l, holds (s.bufs i) e l = false →
      update s.last d (update (s.last d) lba x) e l = s.last e l := by
    intro e l apart
    by_cases sameDev : e = d
    · subst sameDev
      have sameLba : l ≠ lba := by
        rintro rfl
        rw [hit] at apart
        cases apart
      rw [update_self,update_of_ne sameLba]
    · rw [update_of_ne sameDev]
  refine ⟨inv.apart,inv.unique,?_,inv.locked,inv.held,inv.bound,?_⟩
  · intro j jRange jValid
    have ok := inv.ok j jRange jValid
    by_cases ji : j = i
    · subst ji
      exact ⟨ok.inside,ok.clean,fun _ untouched => absurd (touched.symm.trans untouched) (by decide),
        fun _ clean => absurd (dirty.symm.trans clean) (by decide)⟩
    · have same := other (s.bufs j).dev (s.bufs j).lba (inv.alone j jRange jValid i inRange (Ne.symm ji))
      exact ⟨ok.inside,ok.clean,fun isDirty untouched => (ok.dirty isDirty untouched).trans same.symm,
        fun healthy clean untouched => (ok.kept healthy clean untouched).trans same.symm⟩
  · intro healthy e l clear inside free
    exact (inv.settled healthy e l clear inside free).trans (other e l (free i inRange)).symm

end

/-- Inside `get_range`: the buffers locked so far have the sectors from `lba` on, those of
missing sectors wait for their data, and a buffer another holder is changing has that
holder's reference besides ours. -/
structure Locking (c : Setup D) (d lba : Nat) (out : List (Nat × Bool)) (s : State D) : Prop where
  inv : Inv c (fun j => (j,true) ∈ out) s
  listed : ∀ k e, out[k]? = some e → e.1 < c.nbuf ∧ holds (s.bufs e.1) d (lba + k) ∧
    0 < (s.bufs e.1).refcnt
  others : ∀ j, j < c.nbuf → (s.bufs j).touched → (out.map Prod.fst).count j < (s.bufs j).refcnt
  used : s.used d

section
variable {d lba : Nat} {out : List (Nat × Bool)} (locking : Locking c d lba out s)
include locking

theorem Locking.lock (i : Nat) (inRange : i < c.nbuf) (hit : holds (s.bufs i) d (lba + out.length)) :
    Locking c d lba (out ++ [(i,false)]) (s.lock i) := by
  have self : (s.lock i).bufs i = {s.bufs i with refcnt := (s.bufs i).refcnt + 1, lastUse := s.clock + 1} :=
    setBuf_self s i _
  have other : ∀ j, j ≠ i → (s.lock i).bufs j = s.bufs j := fun j ji => setBuf_other s i j _ ji
  have more : ∀ j, (∀ e l, holds ((s.lock i).bufs j) e l = holds (s.bufs j) e l) ∧
      (s.bufs j).refcnt ≤ ((s.lock i).bufs j).refcnt := by
    intro j
    by_cases ji : j = i
    · subst ji
      rw [self]
      exact ⟨fun _ _ => rfl,le_succ _⟩
    · rw [other j ji]
      exact ⟨fun _ _ => rfl,le_refl _⟩
  refine ⟨?_,?_,?_,locking.used⟩
  · exact (locking.inv.lock i inRange ((holds_iff _ _ _).mp hit).1).congr (by simp)
  · intro k e found
    rcases getElem?_snoc found with before | ⟨rfl,rfl⟩
    · obtain ⟨bound,has,locked⟩ := locking.listed k e before
      exact ⟨bound,by rw [(more e.1).1]; exact has,lt_of_lt_of_le locked (more e.1).2⟩
    · exact ⟨inRange,by rw [(more i).1]; exact hit,by rw [self]; exact succ_pos _⟩
  intro j jRange touched
  rw [map_append,count_append]
  by_cases ji : j = i
  · subst ji
    rw [self] at touched ⊢
    have := locking.others j jRange touched
    simp only [map_cons,map_nil,count_singleton_self]
    omega
  · rw [other j ji] at touched ⊢
    have := locking.others j jRange touched
    simpa [Ne.symm ji] using this

theorem Locking.fits (start : lba ≤ (c.devs d).sectorCount) : lba + out.length ≤ (c.devs d).sectorCount := by
  by_contra beyond
  have last : out.length - 1 < out.length := by omega
  obtain ⟨inRange,hit,-⟩ := locking.listed _ _ (getElem?_eq_getElem last)
  obtain ⟨valid,dev,block⟩ := (holds_iff _ _ _).mp hit
  have inside := (locking.inv.ok _ inRange valid).inside.1
  rw [dev,block] at inside
  omega

theorem Locking.cleaned {t : State D} (inv : Inv c (fun j => (j,true) ∈ out) t) (cleaned : Cleaned s t) :
    Locking c d lba out t := by
  refine ⟨inv,?_,?_,by rw [cleaned.used]; exact locking.used⟩
  · intro k e found
    rw [(cleaned.fields e.1).2.1,(cleaned.fields e.1).2.2.2.2]
    exact locking.listed k e found
  · intro j jRange
    rw [(cleaned.fields j).2.1,(cleaned.fields j).2.2.1]
    exact locking.others j jRange

theorem Locking.claim (i : Nat) (inRange : i < c.nbuf) (free : (s.bufs i).refcnt = 0)
    (inside : lba + out.length < (c.devs d).sectorCount)
    (missing : ∀ j, j < c.nbuf → holds (s.bufs j) d (lba + out.length) = false)
    (safe : Healthy c s → (s.bufs i).valid → (s.bufs i).dirty = false) :
    Locking c d lba (out ++ [(i,true)]) (s.claim i d (lba + out.length)) := by
  have other : ∀ j, j ≠ i → (s.claim i d (lba + out.length)).bufs j = s.bufs j :=
    fun j ji => setBuf_other s i j _ ji
  have claimed := locking.inv.claim i d (lba + out.length) inRange free locking.used inside missing safe
  refine ⟨claimed.congr (by simp),?_,?_,locking.used⟩
  · intro k e found
    rcases getElem?_snoc found with before | ⟨rfl,rfl⟩
    · obtain ⟨bound,has,locked⟩ := locking.listed k e before
      have ei : e.1 ≠ i := by
        intro same
        rw [same] at locked
        omega
      rw [other e.1 ei]
      exact ⟨bound,has,locked⟩
    · simp [State.claim,holds,inRange]
  · intro j jRange touched
    have ji : j ≠ i := by
      intro same
      have := (claimed.bound i (.inr rfl)).2.2.2
      rw [same,this] at touched
      cases touched
    rw [other j ji] at touched ⊢
    have := locking.others j jRange touched
    simpa [Ne.symm ji] using this

end

theorem lockRange_spec (c : Setup D) (d lba count : Nat) (out : List (Nat × Bool)) (s : State D)
    (locking : Locking c d lba out s) (fits : lba + out.length + count ≤ (c.devs d).sectorCount) :
    Locking c d lba (lockRange c d lba count out s).2.1 (lockRange c d lba count out s).2.2 := by
  induction count generalizing out s with
  | zero => exact locking
  | succ count ih =>
    have whole := (c.devs d).inside
    unfold lockRange
    rw [mod_eq_of_lt (show lba + out.length < 2^64 by omega)]
    split
    · rename_i i found
      obtain ⟨inRange,hit⟩ := findBuffer_some found
      exact ih _ _ (locking.lock i inRange hit) (by simp only [length_append,length_singleton]; omega)
    rename_i missing
    split
    · exact locking
    rename_i i picked
    obtain ⟨inRange,free⟩ := pickVictim_free picked
    obtain ⟨evicted,cleaned,safe⟩ := locking.inv.evict i picked ((s.bufs i).valid && (s.bufs i).dirty)
      (fun healthy valid dirty => by simp [valid,dirty]) (fun writes => by simp_all)
    split
    · rename_i e t failed
      rw [failed] at evicted cleaned
      exact locking.cleaned evicted cleaned
    rename_i t wrote
    rw [wrote] at evicted cleaned safe
    refine ih _ _ ((locking.cleaned evicted cleaned).claim i inRange ?_ (by omega) ?_ (safe rfl))
      (by simp only [length_append,length_singleton]; omega)
    · rw [(cleaned.fields i).2.1]
      exact free
    · intro j jRange
      rw [(cleaned.fields j).2.2.2.2]
      exact findBuffer_none missing j jRange

/-- How phase 1 of `get_range` leads to an error exit with a bound buffer: it fails itself and
had bound one, or phase 2 fails. -/
def Breaks (c : Setup D) (d lba : Nat) : Option Errno × List (Nat × Bool) × State D → Prop
  | (some _,out,_) => ∃ i, (i,true) ∈ out
  | (none,out,t) => ∃ e, (fillMisses c d out.length lba out t).1 = .error e

/-- An error exit of `get_range` is taken after it bound a buffer to a missing sector. -/
def Abandons (c : Setup D) (s : State D) (d lba count : Nat) : Prop :=
  count ≠ 0 ∧ count ≤ maxRangeCount ∧ lba + count ≤ (c.devs d).sectorCount ∧
  (c.events s.ticks).memory ∧ Breaks c d lba (lockRange c d lba count [] s.tick)

section
variable (inv : Inv c (fun _ => False) s)
include inv

theorem Inv.gets (d lba : Nat) (used : s.used d) :
    Inv c (fun _ => False) (get c s d lba).2 ∧
    ∀ i, (get c s d lba).1 = .ok i → i < c.nbuf ∧ holds ((get c s d lba).2.bufs i) d lba := by
  unfold get
  split
  · exact ⟨inv,fun i failed => by cases failed⟩
  have inside : lba < (c.devs d).sectorCount := by omega
  split
  · rename_i i found
    obtain ⟨inRange,hit⟩ := findBuffer_some found
    obtain ⟨valid,dev,block⟩ := (holds_iff _ _ _).mp hit
    refine ⟨inv.lock i inRange valid,fun j got => ?_⟩
    obtain rfl := Except.ok.inj got
    exact ⟨inRange,by simpa [State.lock,holds] using hit⟩
  rename_i missing
  split
  · exact ⟨inv,fun i failed => by cases failed⟩
  rename_i i picked
  obtain ⟨inRange,free⟩ := pickVictim_free picked
  obtain ⟨evicted,cleaned,safe⟩ := inv.evict i picked
    ((s.bufs i).valid && (s.bufs i).dirty && !isGone c s (s.bufs i).dev)
    (fun healthy valid dirty => by simp [valid,dirty,isGone,healthy.2])
    (fun writes => by simp_all)
  dsimp only
  split
  · rename_i e t failed
    rw [failed] at evicted
    exact ⟨evicted,fun i failed => by cases failed⟩
  rename_i t wrote
  rw [wrote] at evicted cleaned safe
  have claimed := evicted.claim i d lba inRange (by rw [(cleaned.fields i).2.1]; exact free)
    (by rw [cleaned.used]; exact used) inside
    (fun j jRange => by rw [(cleaned.fields j).2.2.2.2]; exact findBuffer_none missing j jRange) (safe rfl)
  have bufI : ((t.claim i d lba).bufs i).dev = d ∧ ((t.claim i d lba).bufs i).lba = lba ∧
      ((t.claim i d lba).bufs i).valid := by
    simp [State.claim]
  have nothing : ∀ j, False ↔ (False ∨ j = i) ∧ j ≠ i := by simp
  rcases blockRead_cases c (t.claim i d lba) d lba 1 with ⟨e,failed,after⟩ | ⟨_,read⟩
  · obtain ⟨inv',same⟩ := claimed.read_failed after
    rw [Prod.fst_eq_iff.mp failed]
    exact ⟨(inv'.unbind i (.inr rfl)).congr nothing,fun i failed => by cases failed⟩
  · rw [read,place_eq c (le_of_lt inside)]
    refine ⟨(claimed.tick.setData i (.inr rfl) _ ?_).congr nothing,fun j got => ?_⟩
    · simp [sector,State.claim,State.tick]
    · obtain rfl := Except.ok.inj got
      refine ⟨inRange,(holds_iff _ _ _).mpr ?_⟩
      simp [slice,State.scatter,State.setData,bufI]

theorem Inv.put_clean (i : Nat) (inRange : i < c.nbuf) (valid : (s.bufs i).valid)
    (shared : (s.bufs i).touched → 1 < (s.bufs i).refcnt) : Inv c (fun _ => False) (s.put i false) := by
  have ok := inv.ok i inRange valid
  apply Inv.timed
  refine inv.rework i inRange valid _ (by simp [holds,valid]) _ (fun _ _ => Iff.rfl) ?_ ?_ False.elim
  · simp only [Bool.or_false,Bool.not_false,Bool.and_true]
    exact ⟨ok.inside,ok.clean,ok.dirty,ok.kept⟩
  intro touched
  have := shared (by simpa using touched)
  show 0 < (s.bufs i).refcnt - 1
  omega

theorem Inv.put_dirty (i : Nat) (inRange : i < c.nbuf)
    (locked : 0 < (s.bufs i).refcnt) : Inv c (fun _ => False) (s.put i true) := by
  have valid := inv.locked i inRange locked
  have ok := inv.ok i inRange valid
  -- in three moves: the buffer is dirty and still being changed, then its data is the one
  -- put last, then its holder is done
  have marked := inv.rework i inRange valid {s.bufs i with dirty := true, touched := true}
    (by simp [holds,valid]) (fun _ => False) (fun _ _ => Iff.rfl)
    ⟨ok.inside,fun clean => Bool.noConfusion clean,fun _ untouched => Bool.noConfusion untouched,
      fun _ clean => Bool.noConfusion clean⟩ (fun _ => locked) False.elim
  have recorded := marked.setLast i (s.bufs i).dev (s.bufs i).lba inRange (by simp [holds,valid])
    (by simp) (by simp) (s.bufs i).data
  let after : Buf D := {s.bufs i with
    dirty := true, refcnt := (s.bufs i).refcnt - 1, lastUse := s.clock + 1, touched := false}
  have finished := recorded.rework i inRange (by simp [valid]) after (by simp [holds,after,valid])
    (fun _ => False) (fun _ _ => Iff.rfl)
    ⟨ok.inside,fun clean => Bool.noConfusion clean,fun _ _ => by simp [after],
      fun _ clean => Bool.noConfusion clean⟩ (fun touched => Bool.noConfusion touched) False.elim
  have same : s.put i true = {State.setBuf {s.setBuf i {s.bufs i with dirty := true, touched := true} with
      last := update s.last (s.bufs i).dev
        (update (s.last (s.bufs i).dev) (s.bufs i).lba (s.bufs i).data)} i after with
      clock := s.clock + 1} := by
    simp [State.put,State.setBuf,after]
  rw [same]
  exact finished.timed (s.clock + 1) _

theorem Inv.putAll (ours : List Nat)
    (inRange : ∀ i ∈ ours, i < c.nbuf ∧ (s.bufs i).valid)
    (others : ∀ j, j < c.nbuf → (s.bufs j).touched → ours.count j < (s.bufs j).refcnt) :
    Inv c (fun _ => False) (s.putAll ours) := by
  induction ours generalizing s with
  | nil => exact inv
  | cons i rest ih =>
    obtain ⟨bound,valid⟩ := inRange i (by simp)
    have self : (s.put i false).bufs i = {s.bufs i with
        dirty := (s.bufs i).dirty, refcnt := (s.bufs i).refcnt - 1, lastUse := s.clock + 1} := by
      simp [State.put]
    have away : ∀ j, j ≠ i → (s.put i false).bufs j = s.bufs j := fun j ji => setBuf_other s i j _ ji
    refine ih (inv.put_clean i bound valid fun touched => ?_) ?_ ?_
    · have := others i bound touched
      rw [count_cons_self] at this
      omega
    · intro j member
      obtain ⟨jRange,jValid⟩ := inRange j (by simp [member])
      refine ⟨jRange,?_⟩
      by_cases ji : j = i
      · rw [ji,self]
        exact valid
      · rw [away j ji]
        exact jValid
    · intro j jRange touched
      by_cases ji : j = i
      · subst ji
        rw [self] at touched ⊢
        have := others j jRange touched
        rw [count_cons_self] at this
        dsimp only
        omega
      · rw [away j ji] at touched ⊢
        have := others j jRange touched
        rwa [count_cons_of_ne (Ne.symm ji)] at this

theorem Locking.start (d lba : Nat) (used : s.used d) : Locking c d lba [] s :=
  ⟨inv.congr (by simp),fun k e found => by simp at found,
    fun j jRange touched => by simpa using inv.held j jRange touched,used⟩

theorem Inv.getsRange (d lba count : Nat) (used : s.used d) (short : lba + count < 2^64)
    (keeps : ¬ Abandons c s d lba count) : Inv c (fun _ => False) (getRange c s d lba count).2 ∧
    ∀ out, (getRange c s d lba count).1 = .ok out → ∀ k i, out[k]? = some i →
      i < c.nbuf ∧ holds ((getRange c s d lba count).2.bufs i) d (lba + k) := by
  unfold getRange
  rw [mod_eq_of_lt short]
  split
  · refine ⟨inv,fun out got k i found => ?_⟩
    obtain rfl := Except.ok.inj got
    simp at found
  rename_i positive
  split
  · exact ⟨inv,fun out failed => by cases failed⟩
  split
  · exact ⟨inv,fun out failed => by cases failed⟩
  split
  · exact ⟨inv.tick,fun out failed => by cases failed⟩
  rename_i memory
  have locking := lockRange_spec c d lba count [] s.tick (.start inv.tick d lba used) (by simp; omega)
  have whole : ¬ Breaks c d lba (lockRange c d lba count [] s.tick) :=
    fun broke => keeps ⟨positive,by omega,by omega,by simpa using memory,broke⟩
  cases result : lockRange c d lba count [] s.tick with
  | mk err rest =>
    obtain ⟨out,t⟩ := rest
    rw [result] at locking whole
    cases err with
    | some e =>
      have nobody : ∀ j, False ↔ (j,true) ∈ out := fun j => ⟨False.elim,fun waits => whole ⟨j,waits⟩⟩
      refine ⟨(locking.inv.congr nobody).putAll _ ?_ locking.others,fun out failed => by cases failed⟩
      intro i member
      obtain ⟨e,inOut,rfl⟩ := mem_map.mp member
      obtain ⟨k,bound,same⟩ := getElem_of_mem inOut
      have listed := locking.listed k e (List.getElem?_eq_some_iff.mpr ⟨bound,same⟩)
      exact ⟨listed.1,((holds_iff _ _ _).mp listed.2.1).1⟩
    | none =>
      rcases filled : fillMisses c d out.length lba out t with ⟨e | done,u⟩
      · exact absurd ⟨e,by rw [filled]⟩ whole
      have after := locking.inv.fillsMisses d out.length lba out (le_refl _) (locking.fits (by omega)) (fun j waits => waits)
        (fun k e found => ⟨(locking.listed k e found).2.1,
          fun missing => missing ▸ mem_of_getElem? found⟩)
        (by rw [filled])
      rw [filled] at after
      dsimp only
      rw [filled]
      refine ⟨after.1,fun got same k i found => ?_⟩
      obtain rfl := Except.ok.inj same
      rw [getElem?_map] at found
      obtain ⟨e,inOut,rfl⟩ := Option.map_eq_some_iff.mp found
      obtain ⟨inRange,hit,_⟩ := locking.listed k e inOut
      exact ⟨inRange,by rw [after.2]; exact hit⟩

end

end

end SurfaceOS.Bcache
