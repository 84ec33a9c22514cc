import SurfaceOS.Dev.CacheRuns

/-! What one write-back puts on the disk. In every state of the cache a sector has one buffer at most,
and then the run that goes out with a dirty buffer is one piece of the device around it. -/
namespace SurfaceOS.Bcache
open Lib Function Nat Lib.Memory

variable {D : Type} {c : Setup D} {s t u : State D} {i d lba : Nat}

def Buf.marked (b : Buf D) : Prop := b.dirty ∨ b.refcnt ≠ 0

structure Bound (c : Setup D) (s : State D) : Prop where
  keyed : Keyed c s
  valid : ∀ i, i < c.nbuf → (s.bufs i).marked → (s.bufs i).valid
  words : Words c s

structure Shed (s t : State D) : Prop where
  keys : ∀ j, (t.bufs j).valid →
    (s.bufs j).valid ∧ (t.bufs j).dev = (s.bufs j).dev ∧ (t.bufs j).lba = (s.bufs j).lba
  marks : ∀ j, ((s.bufs j).marked → (s.bufs j).valid) → (t.bufs j).marked → (t.bufs j).valid

def Buf.Sheds (b a : Buf D) : Prop :=
  (a.valid → b.valid ∧ a.dev = b.dev ∧ a.lba = b.lba) ∧ ((b.marked → b.valid) → a.marked → a.valid)

theorem Buf.Sheds.refl (b : Buf D) : b.Sheds b := ⟨fun valid => ⟨valid,rfl,rfl⟩,fun sound => sound⟩

theorem Buf.Sheds.clean (b : Buf D) : b.Sheds {b with dirty := false} :=
  ⟨fun valid => ⟨valid,rfl,rfl⟩,fun sound marked => sound (.inr (marked.resolve_left (by simp)))⟩

theorem Shed.each (sheds : ∀ j, (s.bufs j).Sheds (t.bufs j)) : Shed s t :=
  ⟨fun j => (sheds j).1,fun j => (sheds j).2⟩

theorem Shed.same (bufs : t.bufs = s.bufs) : Shed s t := by
  refine .each fun j => ?_
  rw [bufs]
  exact .refl _

theorem Shed.trans (first : Shed s t) (second : Shed t u) : Shed s u := by
  refine ⟨fun j valid => ?_,fun j sound => second.marks j (first.marks j sound)⟩
  obtain ⟨there,dev,lba⟩ := second.keys j valid
  obtain ⟨before,was,at_⟩ := first.keys j there
  exact ⟨before,dev.trans was,lba.trans at_⟩

theorem Shed.setBuf (i : Nat) (b : Buf D) (sheds : (s.bufs i).Sheds b) : Shed s (s.setBuf i b) := by
  refine .each fun j => ?_
  by_cases here : j = i
  · subst here
    rw [setBuf_self]
    exact sheds
  · rw [setBuf_other s i j b here]
    exact .refl _

theorem Bound.shed (bound : Bound c s) (shed : Shed s t) : Bound c t := by
  refine ⟨fun i j iRange jRange iValid jValid dev lba => ?_,fun i inRange => shed.marks i (bound.valid i inRange),
    fun i inRange valid => ?_⟩
  · obtain ⟨iWas,iDev,iLba⟩ := shed.keys i iValid
    obtain ⟨jWas,jDev,jLba⟩ := shed.keys j jValid
    exact bound.keyed i j iRange jRange iWas jWas (by rw [← iDev,← jDev,dev]) (by rw [← iLba,← jLba,lba])
  · obtain ⟨was,-,same⟩ := shed.keys i valid
    exact same ▸ bound.words i inRange was

theorem findBuffer_valid (found : findBuffer c s d lba = some i) : (s.bufs i).valid :=
  ((holds_iff _ _ _).mp (findBuffer_some found).2).1

theorem Shed.missing (shed : Shed s t) (missing : findBuffer c s d lba = none) (j : Nat)
    (inRange : j < c.nbuf) : holds (t.bufs j) d lba = false := by
  by_contra there
  obtain ⟨valid,dev,block⟩ := (holds_iff _ _ _).mp (by simpa using there)
  obtain ⟨was,device,sector⟩ := shed.keys j valid
  have none := findBuffer_none missing j inRange
  rw [(holds_iff _ _ _).mpr ⟨was,by rw [← device,dev],by rw [← sector,block]⟩] at none
  cases none

def runWrite (c : Setup D) (s : State D) (i : Nat) : Except Errno Unit × State D :=
  blockWrite c s (s.bufs i).dev (s.bufs (firstOfRun c s (s.bufs i).dev (maxRun c (s.bufs i).dev - 1) i)).lba
    ((runOf c s i).map fun p => (s.bufs p).data)

theorem Initial.bound (initial : Initial c s) : Bound c s := by
  refine ⟨fun i j _ _ valid => ?_,fun i _ marked => ?_,fun i _ valid => ?_⟩
  · rw [(initial.1 i).1] at valid
    cases valid
  rotate_left
  · rw [(initial.1 i).1] at valid
    cases valid
  obtain ⟨-,clean,free,-⟩ := initial.1 i
  rcases marked with dirty | held
  · rw [clean] at dirty
    cases dirty
  · exact absurd free held

theorem maxRun_pos (c : Setup D) (d : Nat) : 0 < maxRun c d := by
  unfold maxRun
  dsimp only
  split
  · next fits => exact div_pos fits.2 (Nat.pos_of_ne_zero fits.1)
  · exact Nat.one_pos

theorem maxRun_le (c : Setup D) (d : Nat) : maxRun c d ≤ stageBytes := by
  unfold maxRun
  dsimp only
  split
  · exact div_le_self ..
  · decide

/-- What writing buffer `i` back may do to the state `s`: one request for the dirty buffers of the sectors
from `first` on, which lie one after the other on the disk. Of a request that fails any part may have arrived, and nothing else changes. -/
structure Exact (c : Setup D) (s : State D) (i first : Nat) (run : List Nat) (rc : Except Errno Unit)
    (t : State D) : Prop where
  around : i ∈ run
  once : run.Nodup
  limit : run.length ≤ maxRun c (s.bufs i).dev
  dirty : ∀ k p, run[k]? = some p → DirtyAt c s (s.bufs i).dev ((first + k) % 2^64) p
  request : (rc,t.disk) = ((blockWrite c s (s.bufs i).dev first (run.map fun p => (s.bufs p).data)).1,
    (blockWrite c s (s.bufs i).dev first (run.map fun p => (s.bufs p).data)).2.disk)
  written : rc = .ok () → ∀ k p, run[k]? = some p →
    t.disk (c.devs (s.bufs i).dev).disk (place c (s.bufs i).dev first + k) = (s.bufs p).data
  frame : ∀ disk x, t.disk disk x ≠ s.disk disk x → disk = (c.devs (s.bufs i).dev).disk ∧
    ∃ k, k < run.length ∧ x = place c (s.bufs i).dev first + k
  cleaned : rc = .ok () → ∀ j, t.bufs j = if j ∈ run then {s.bufs j with dirty := false} else s.bufs j
  kept : rc ≠ .ok () → t.bufs = s.bufs

theorem blockWrite_written {c : Setup D} {s t : State D} {xs : List D}
    (wrote : blockWrite c s d lba xs = (.ok (),t)) (k : Nat) (x : D) (stored : xs[k]? = some x) :
    t.disk (c.devs d).disk (place c d lba + k) = x := by
  rcases blockWrite_cases c s d lba xs with ⟨e,refused⟩ | ⟨e,ys,-,-,failed⟩ | done
  · rw [refused] at wrote
    cases wrote
  · rw [failed] at wrote
    cases wrote
  · rw [done] at wrote
    cases wrote
    obtain ⟨bound,rfl⟩ := List.getElem?_eq_some_iff.mp stored
    simp only [State.patchDisk,update_self]
    exact Memory.patch_inside _ _ _ _ bound

section
variable (s)

theorem Shed.lock (i : Nat) (valid : (s.bufs i).valid) : Shed s (s.lock i) :=
  (Shed.setBuf i {s.bufs i with refcnt := (s.bufs i).refcnt + 1, lastUse := s.clock + 1}
    ⟨fun valid => ⟨valid,rfl,rfl⟩,fun _ _ => valid⟩).trans (.same rfl)

theorem Shed.put (i : Nat) (dirty : Bool) (held : dirty → (s.bufs i).refcnt ≠ 0) :
    Shed s (s.put i dirty) := by
  let after : Buf D := {s.bufs i with dirty := (s.bufs i).dirty || dirty, refcnt := (s.bufs i).refcnt - 1}
  let put : Buf D := {after with lastUse := s.clock + 1, touched := (s.bufs i).touched && !dirty}
  refine (Shed.setBuf i put ⟨fun valid => ⟨valid,rfl,rfl⟩,fun sound marked => sound ?_⟩).trans (.same rfl)
  rcases marked with changed | still
  · rcases Bool.or_eq_true_iff.mp changed with before | now
    · exact .inl before
    · exact .inr (held now)
  · exact .inr fun free => still (by simp [put,after,free])

theorem Shed.putAll (ours : List Nat) : Shed s (s.putAll ours) := by
  induction ours generalizing s with
  | nil => exact .same rfl
  | cons i rest ih => exact (Shed.put s i false (by simp)).trans (ih _)

theorem Shed.scatter (run : List Nat) (xs : List D) : Shed s (s.scatter run xs) := by
  induction run generalizing s xs with
  | nil => exact .same rfl
  | cons i run ih =>
    cases xs with
    | nil => exact .same rfl
    | cons x xs =>
      have filled : Shed s (s.setData i x) := Shed.setBuf i _ (.refl (s.bufs i))
      exact filled.trans (ih _ _)

theorem patchDisk_frame (disk lba : Nat) (xs : List D) (k x : Nat)
    (changed : (s.patchDisk disk lba xs).disk k x ≠ s.disk k x) : k = disk ∧ ∃ j, j < xs.length ∧ x = lba + j := by
  by_cases here : k = disk
  · subst here
    refine ⟨rfl,x - lba,?_⟩
    rw [show (s.patchDisk k lba xs).disk k = patch (s.disk k) lba xs from update_self ..] at changed
    have above : lba ≤ x := by
      by_contra below
      exact changed (patch_before _ _ _ _ (by omega))
    have inside : x < lba + xs.length := by
      by_contra after
      exact changed (patch_after _ _ _ _ (by omega))
    omega
  · exact absurd (congrFun (update_of_ne here _ s.disk) x) changed

end

theorem Bound.claim (bound : Bound c s) (small : lba < 2^64)
    (missing : ∀ j, j < c.nbuf → holds (s.bufs j) d lba = false) : Bound c (s.claim i d lba) := by
  have self := claim_self s i d lba
  have other := claim_other s i d lba
  have clash {j : Nat} (inRange : j < c.nbuf) (valid : (s.bufs j).valid) (dev : (s.bufs j).dev = d)
      (block : (s.bufs j).lba = lba) : False := by
    have none := missing j inRange
    rw [(holds_iff _ _ _).mpr ⟨valid,dev,block⟩] at none
    cases none
  refine ⟨fun j k jRange kRange jValid kValid dev block => ?_,fun j inRange marked => ?_,fun j inRange valid => ?_⟩
  rotate_left 2
  · by_cases here : j = i
    · rw [here,self]
      exact small
    · rw [other j here] at valid ⊢
      exact bound.words j inRange valid
  · by_cases first : j = i
    · by_cases second : k = i
      · rw [first,second]
      · rw [first,self,other k second] at dev block
        rw [other k second] at kValid
        exact (clash kRange kValid dev.symm block.symm).elim
    by_cases second : k = i
    · rw [second,self,other j first] at dev block
      rw [other j first] at jValid
      exact (clash jRange jValid dev block).elim
    rw [other j first,other k second] at dev block
    rw [other j first] at jValid
    rw [other k second] at kValid
    exact bound.keyed j k jRange kRange jValid kValid dev block
  · by_cases here : j = i
    · rw [here,self]
    · rw [other j here] at marked ⊢
      exact bound.valid j inRange marked

section
variable (c) (s)

theorem blockWrite_bufs (d lba : Nat) (xs : List D) :
    (blockWrite c s d lba xs).2.bufs = s.bufs := by
  rcases blockWrite_cases c s d lba xs with ⟨e,refused⟩ | ⟨e,ys,-,-,failed⟩ | wrote
  · rw [refused]
  · rw [failed]
    rfl
  · rw [wrote]
    rfl

theorem Shed.writeback (i : Nat) : Shed s (writeback c s i).2 := by
  have kept : (runWrite c s i).2.bufs = s.bufs := blockWrite_bufs c s _ _ _
  unfold runWrite at kept
  unfold Bcache.writeback
  dsimp only
  split
  · exact .same rfl
  split
  · exact Shed.setBuf i _ (.clean _)
  split
  · next failed =>
    rw [failed] at kept
    exact .same kept
  rename_i v t wrote
  rw [wrote] at kept
  refine .each fun j => ?_
  by_cases inRun : j ∈ runOf c s i
  · rw [clean_member _ _ _ inRun,kept]
    exact .clean _
  · rw [clean_other _ _ _ inRun,kept]
    exact .refl _

theorem Shed.evict (i : Nat) (writes : Bool) :
    Shed s (if writes then Bcache.writeback c s i else (.ok (),s)).2 := by
  cases writes with
  | false => exact .same rfl
  | true => exact Shed.writeback c s i

theorem blockRead_bufs (d lba n : Nat) : (blockRead c s d lba n).2.bufs = s.bufs := by
  rcases blockRead_cases c s d lba n with ⟨e,-,same | same⟩ | ⟨-,same⟩
  · rw [same]
  · rw [same]
    rfl
  · rw [same]
    rfl

theorem Shed.discard (which : Nat → Bool) : Shed s (discard c s which) := by
  refine .each fun j => ?_
  unfold Bcache.discard
  dsimp only
  split
  · next leaves => exact ⟨fun _ => ⟨leaves.2.1,rfl,rfl⟩,fun _ marked => by simpa using marked.resolve_left (by simp)⟩
  · exact .refl _

theorem restOfRun_length (d n lba : Nat) : (restOfRun c s d n lba).length ≤ n := by
  induction n generalizing lba with
  | zero => exact le_refl 0
  | succ n ih =>
    unfold restOfRun
    split
    · exact succ_le_succ (ih (lba + 1))
    · exact zero_le _

theorem blockWrite_frame (d lba : Nat) (xs : List D) (k x : Nat)
    (changed : (blockWrite c s d lba xs).2.disk k x ≠ s.disk k x) :
    k = (c.devs d).disk ∧ ∃ j, j < xs.length ∧ x = place c d lba + j := by
  rcases blockWrite_cases c s d lba xs with ⟨e,refused⟩ | ⟨e,ys,size,-,failed⟩ | wrote
  · rw [refused] at changed
    exact absurd rfl changed
  · rw [failed] at changed
    obtain ⟨here,j,inside,at_⟩ := patchDisk_frame s.tick _ _ _ k x changed
    exact ⟨here,j,size ▸ inside,at_⟩
  · rw [wrote] at changed
    exact patchDisk_frame s.tick _ _ _ k x changed

end

theorem Bound.get (bound : Bound c s) (d lba : Nat) : Bound c (get c s d lba).2 := by
  unfold Bcache.get
  split
  · exact bound
  rename_i inside
  have small : lba < 2^64 := by
    have whole := (c.devs d).inside
    omega
  split
  · next i found => exact bound.shed (Shed.lock s i (findBuffer_valid found))
  rename_i missing
  split
  · exact bound
  rename_i i picked
  have evicted := Shed.evict c s i ((s.bufs i).valid && (s.bufs i).dirty && !isGone c s (s.bufs i).dev)
  dsimp only
  split
  · next failed =>
    rw [failed] at evicted
    exact bound.shed evicted
  rename_i v t wrote
  rw [wrote] at evicted
  have claimed : Bound c (t.claim i d lba) := (bound.shed evicted).claim small (evicted.missing missing)
  have read := blockRead_bufs c (t.claim i d lba) d lba 1
  split
  · next e u failed =>
    rw [failed] at read
    refine claimed.shed ((Shed.same read).trans (Shed.setBuf i _ ⟨by simp,fun _ marked => ?_⟩))
    have clean : (u.bufs i).dirty = false := by rw [read,claim_self]
    rcases marked with dirty | held
    · rw [clean] at dirty
      cases dirty
    · exact absurd rfl held
  · next xs u done =>
    rw [done] at read
    exact claimed.shed ((Shed.same read).trans (Shed.scatter u [i] xs))

theorem Bound.lockRange (bound : Bound c s) (d lba count : Nat) (out : List (Nat × Bool)) :
    Bound c (lockRange c d lba count out s).2.2 := by
  induction count generalizing out s with
  | zero => exact bound
  | succ count ih =>
    unfold Bcache.lockRange
    split
    · next i found => exact ih (bound.shed (Shed.lock s i (findBuffer_valid found))) _
    rename_i missing
    split
    · exact bound
    rename_i i picked
    have evicted := Shed.evict c s i ((s.bufs i).valid && (s.bufs i).dirty)
    split
    · next failed =>
      rw [failed] at evicted
      exact bound.shed evicted
    · next v t wrote =>
      rw [wrote] at evicted
      exact ih ((bound.shed evicted).claim (mod_lt _ (by decide)) (evicted.missing missing)) _

theorem Shed.fillChunks (c : Setup D) (d chunk fuel lba : Nat) (run : List Nat) (s : State D) :
    Shed s (fillChunks c d chunk fuel lba run s).2 := by
  induction fuel generalizing lba run s with
  | zero => exact .same rfl
  | succ fuel ih =>
    cases run with
    | nil => exact .same rfl
    | cons i rest =>
      have read := blockRead_bufs c s d lba (if chunk < (i :: rest).length then chunk else (i :: rest).length)
      unfold Bcache.fillChunks
      dsimp only
      split
      · next failed =>
        rw [failed] at read
        exact .same read
      · next xs t done =>
        rw [done] at read
        exact ((Shed.same read).trans (Shed.scatter t _ xs)).trans (ih _ _ _)

theorem Shed.fillRun (c : Setup D) (d lba : Nat) (run : List Nat) (s : State D) : Shed s (fillRun c d lba run s).2 := by
  unfold Bcache.fillRun
  dsimp only
  split
  · exact .same rfl
  · have started : Shed s s.tick := .same rfl
    exact started.trans (Shed.fillChunks c d _ _ lba run s.tick)

theorem Shed.fillMisses (c : Setup D) (d fuel lba : Nat) (entries : List (Nat × Bool)) (s : State D) :
    Shed s (fillMisses c d fuel lba entries s).2 := by
  induction fuel generalizing lba entries s with
  | zero => exact .same rfl
  | succ fuel ih =>
    match entries with
    | [] => exact .same rfl
    | (i,false) :: rest => exact ih (lba + 1) rest s
    | (i,true) :: rest =>
      unfold Bcache.fillMisses
      dsimp only
      split
      · next e t failed =>
        have filled := congrArg Prod.snd failed ▸ Shed.fillRun c d lba _ s
        exact filled
      · next v t done =>
        have filled := congrArg Prod.snd done ▸ Shed.fillRun c d lba _ s
        exact filled.trans (ih _ _ _)

theorem Bound.getRange (bound : Bound c s) (d lba count : Nat) : Bound c (getRange c s d lba count).2 := by
  unfold Bcache.getRange
  split
  · exact bound
  split
  · exact bound
  split
  · exact bound
  split
  · exact bound.shed (.same rfl)
  have started : Bound c s.tick := bound.shed (.same rfl)
  have locked := started.lockRange d lba count []
  split
  · next e out t failed =>
    rw [failed] at locked
    exact locked.shed (Shed.putAll t _)
  rename_i out t done
  rw [done] at locked
  have filled := Shed.fillMisses c d out.length lba out t
  split
  · next e u failed =>
    rw [failed] at filled
    exact locked.shed (filled.trans (Shed.putAll u _))
  · next v u all =>
    rw [all] at filled
    exact locked.shed filled

theorem Shed.flushLoop (c : Setup D) (dev : Option Nat) (list : List Nat) (err : Option Errno) (s : State D) :
    Shed s (flushLoop c dev list err s).2 := by
  induction list generalizing err s with
  | nil => exact .same rfl
  | cons i rest ih =>
    have wrote := Shed.writeback c s i
    unfold Bcache.flushLoop
    dsimp only
    split
    · split
      · next done =>
        rw [done] at wrote
        exact wrote.trans (ih _ _)
      · next failed =>
        rw [failed] at wrote
        exact wrote.trans (ih _ _)
    · exact ih _ _

theorem writeback_failed (dirty : (s.bufs i).dirty) (plugged : isGone c s (s.bufs i).dev = false) {e : Errno}
    (request : runWrite c s i = (.error e,t)) : writeback c s i = (.error e,t) := by
  unfold runWrite at request
  unfold writeback
  simp [dirty,plugged,request]

theorem writeback_wrote (dirty : (s.bufs i).dirty) (plugged : isGone c s (s.bufs i).dev = false)
    (request : runWrite c s i = (.ok (),t)) : writeback c s i = (.ok (),t.clean (runOf c s i)) := by
  unfold runWrite at request
  unfold writeback
  simp [dirty,plugged,request]

theorem Bound.writeback (bound : Bound c s) (inRange : i < c.nbuf) (dirty : (s.bufs i).dirty)
    (plugged : isGone c s (s.bufs i).dev = false) :
    ∃ first run, Exact c s i first run (writeback c s i).1 (writeback c s i).2 := by
  obtain ⟨around,low,run⟩ := bound.keyed.runOf_spec bound.words i inRange (bound.valid i inRange (.inl dirty)) dirty
  let first := (s.bufs (firstOfRun c s (s.bufs i).dev (maxRun c (s.bufs i).dev - 1) i)).lba
  let data := (runOf c s i).map fun p => (s.bufs p).data
  have limit : (runOf c s i).length ≤ maxRun c (s.bufs i).dev := by
    have rest := restOfRun_length c s (s.bufs i).dev (maxRun c (s.bufs i).dev - 1) (first + 1)
    have room := maxRun_pos c (s.bufs i).dev
    change (restOfRun c s (s.bufs i).dev (maxRun c (s.bufs i).dev - 1) (first + 1)).length + 1 ≤ _
    omega
  have once : (runOf c s i).Nodup := by
    apply List.pairwise_iff_getElem.mpr
    intro j k jInside kInside less same
    obtain ⟨-,-,earlier⟩ := (holds_iff _ _ _).mp (run j _ (List.getElem?_eq_getElem jInside)).2.1
    obtain ⟨-,-,later⟩ := (holds_iff _ _ _).mp (run k _ (List.getElem?_eq_getElem kInside)).2.1
    rw [same] at earlier
    have few := maxRun_le c (s.bufs i).dev
    unfold stageBytes at few
    omega
  have bufs : (runWrite c s i).2.bufs = s.bufs := blockWrite_bufs c s (s.bufs i).dev first data
  have frame : ∀ disk x, (runWrite c s i).2.disk disk x ≠ s.disk disk x → disk = (c.devs (s.bufs i).dev).disk ∧
      ∃ k, k < (runOf c s i).length ∧ x = place c (s.bufs i).dev first + k := by
    intro disk x changed
    obtain ⟨here,k,inside,at_⟩ := blockWrite_frame c s (s.bufs i).dev first data disk x changed
    exact ⟨here,k,by simpa [data] using inside,at_⟩
  refine ⟨first,runOf c s i,?_⟩
  rcases request : runWrite c s i with ⟨e | v,t⟩ <;> rw [request] at bufs frame
  · rw [writeback_failed dirty plugged request]
    exact ⟨around,once,limit,run,by rw [← runWrite,request],fun done => (by cases done),frame,
      fun done => (by cases done),fun _ => bufs⟩
  rw [writeback_wrote dirty plugged request]
  refine ⟨around,once,limit,run,by rw [← runWrite,request]; rfl,fun _ k p found => ?_,frame,fun _ j => ?_,
    fun failed => absurd rfl failed⟩
  · exact blockWrite_written request k _ (by simp [found])
  · by_cases inRun : j ∈ runOf c s i
    · rw [if_pos inRun,clean_member _ _ _ inRun,bufs]
    · rw [if_neg inRun,clean_other _ _ _ inRun,bufs]

section
variable (c) (s)

theorem Shed.flush (dev : Option Nat) : Shed s (flush c s dev).2 := by
  have looped := Shed.flushLoop c dev (List.range c.nbuf) none s
  unfold Bcache.flush
  split
  next err t done =>
  rw [done] at looped
  obtain ⟨n,synced⟩ := syncLoop_spec c (disksOf c t dev) err t
  exact looped.trans (.same (by rw [synced]))

theorem Shed.release (dev : Option Nat) : Shed s (release c s dev).2 := by
  have flushed := Shed.flush c s dev
  unfold Bcache.release
  split
  next rc t done =>
  rw [done] at flushed
  refine flushed.trans (.each fun j => ?_)
  dsimp only
  split
  · next leaves => exact ⟨nofun,fun _ marked => (marked.resolve_left (by simp) leaves.2.2).elim⟩
  · exact .refl _

end

theorem Bound.step {a : Action D} (bound : Bound c s) (stepped : Step c s a t) : Bound c t := by
  unfold Step Bcache.step at stepped
  obtain ⟨admitted,stepped⟩ := Option.ite_none_right_eq_some.mp stepped
  obtain rfl := Option.some.inj stepped
  cases a with
  | get d lba => exact Bound.get (s := s.use d) (bound.shed (.same rfl)) d lba
  | getRange d lba count => exact Bound.getRange (s := s.use d) (bound.shed (.same rfl)) d lba count
  | modify i x => exact bound.shed (Shed.setBuf i _ (.refl (s.bufs i)))
  | put i dirty =>
    refine bound.shed (Shed.put s i dirty fun _ free => ?_)
    simp [admits,free] at admitted
  | flush dev =>
    have used : Shed s (s.useSome dev) := by cases dev <;> exact .same rfl
    exact bound.shed (used.trans (Shed.flush c _ dev))
  | release dev =>
    have used : Shed s (s.useSome dev) := by cases dev <;> exact .same rfl
    exact bound.shed (used.trans (Shed.release c _ dev))
  | discard d => exact bound.shed (Shed.discard c s (· == d))
  | unplug disk =>
    have gone : Shed s {s with gone := update s.gone disk true} := .same rfl
    exact bound.shed (gone.trans (Shed.discard c _ fun d => (c.devs d).disk == disk))

/-- Every operation keeps the buffers bound, between two calls and inside of each, and wherever they are
a write-back is exact. -/
theorem writeback_exact (c : Setup D) : (∀ s, Reach (Initial c) (fun _ _ => True) (Step c) s → Bound c s) ∧
    ∀ s, Bound c s → ∀ i, i < c.nbuf → (s.bufs i).dirty → isGone c s (s.bufs i).dev = false →
      ∃ first run, Exact c s i first run (writeback c s i).1 (writeback c s i).2 := by
  refine ⟨fun s reached => ?_,fun s bound i inRange dirty plugged => bound.writeback inRange dirty plugged⟩
  apply Reach.invariant (Bound c) _ _ s reached
  · intro s initial
    exact initial.bound
  · intro s a t bound _ stepped
    exact bound.step stepped

theorem writeback_exact_changed : let c := smallSetup allWell
    (changedSector.bufs 0).dirty ∧ ∃ first run, Exact c changedSector 0 first run (writeback c changedSector 0).1
      (writeback c changedSector 0).2 := by
  intro c
  have reached : Reach (Initial c) (fun _ _ => True) (Step c) changedSector :=
    .next _ _ (.put 0 true) (.next _ _ (.modify 0 7) (.next _ _ (.get 0 1) (.start _ (smallState_initial allWell))
      trivial (step_perform rfl)) trivial (step_perform rfl)) trivial (step_perform rfl)
  exact ⟨by decide,(writeback_exact c).2 changedSector ((writeback_exact c).1 _ reached) 0 (by decide) (by decide) rfl⟩

end SurfaceOS.Bcache
