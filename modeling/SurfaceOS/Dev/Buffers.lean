import SurfaceOS.Dev.Bcache

/-! What the sector cache keeps true about its buffers: one buffer for a sector, clean ones
that agree with the disk, dirty ones that hold what was put last. Inside `get` and
`get_range` some buffers are bound to a sector and not filled yet; the invariant carries
them as `pending`. -/
namespace SurfaceOS.Bcache
open Lib Function List Option Nat Lib.Memory

variable {D : Type} {e p : Nat}

def Apart (c : Setup D) (d e : Nat) : Prop :=
  (c.devs d).disk ≠ (c.devs e).disk ∨
  (c.devs d).offset + (c.devs d).sectorCount ≤ (c.devs e).offset ∨
  (c.devs e).offset + (c.devs e).sectorCount ≤ (c.devs d).offset

variable {run : List Nat} {d i lba : Nat}

theorem Apart.symm {c : Setup D} (apart : Apart c d e) : Apart c e d := by
  rcases apart with other | below | above
  · exact .inl other.symm
  · exact .inr (.inr below)
  · exact .inr (.inl above)

def Healthy (c : Setup D) (s : State D) : Prop :=
  (∀ t, (c.events t).fails = false) ∧ ∀ k, s.gone k = false

structure Ok (c : Setup D) (s : State D) (pending : Prop) (b : Buf D) : Prop where
  inside : b.lba < (c.devs b.dev).sectorCount ∧ s.used b.dev
  clean : b.dirty = false → b.touched = false → ¬ pending → isGone c s b.dev = false →
    b.data = sector c s b.dev b.lba
  dirty : b.dirty → b.touched = false → b.data = s.last b.dev b.lba
  kept : Healthy c s → b.dirty = false → b.touched = false →
    sector c s b.dev b.lba = s.last b.dev b.lba

def Clear (c : Setup D) (s : State D) (d : Nat) : Prop := ∀ e, s.used e → e ≠ d → Apart c e d

structure Inv (c : Setup D) (pending : Nat → Prop) (s : State D) : Prop where
  apart : ∀ d, s.used d → Clear c s d
  unique : ∀ i j, i < c.nbuf → j < c.nbuf → (s.bufs i).valid → (s.bufs j).valid →
    (s.bufs i).dev = (s.bufs j).dev → (s.bufs i).lba = (s.bufs j).lba → i = j
  ok : ∀ i, i < c.nbuf → (s.bufs i).valid → Ok c s (pending i) (s.bufs i)
  locked : ∀ i, i < c.nbuf → 0 < (s.bufs i).refcnt → (s.bufs i).valid
  held : ∀ i, i < c.nbuf → (s.bufs i).touched → 0 < (s.bufs i).refcnt
  bound : ∀ i, pending i → i < c.nbuf ∧ 0 < (s.bufs i).refcnt ∧ (s.bufs i).dirty = false ∧
    (s.bufs i).touched = false
  settled : Healthy c s → ∀ d lba, Clear c s d → lba < (c.devs d).sectorCount →
    (∀ i, i < c.nbuf → holds (s.bufs i) d lba = false) → sector c s d lba = s.last d lba

def Keyed (c : Setup D) (s : State D) : Prop :=
  ∀ i j, i < c.nbuf → j < c.nbuf → (s.bufs i).valid → (s.bufs j).valid →
    (s.bufs i).dev = (s.bufs j).dev → (s.bufs i).lba = (s.bufs j).lba → i = j

theorem Inv.keyed {c : Setup D} {pending : Nat → Prop} {s : State D} (inv : Inv c pending s) : Keyed c s := inv.unique

@[simp] theorem tick_bufs (s : State D) : s.tick.bufs = s.bufs := rfl
@[simp] theorem setBuf_self (s : State D) (i : Nat) (b : Buf D) : (s.setBuf i b).bufs i = b := by
  simp [State.setBuf]

theorem setBuf_other (s : State D) (i j : Nat) (b : Buf D) (other : j ≠ i) : (s.setBuf i b).bufs j = s.bufs j := by
  simp [State.setBuf,other]

theorem holds_iff (b : Buf D) (d lba : Nat) : holds b d lba ↔ b.valid ∧ b.dev = d ∧ b.lba = lba := by
  simp [holds,and_assoc]

section
variable {c : Setup D} {pending : Nat → Prop} {s : State D}

section
variable (inv : Inv c pending s)
include inv

theorem Inv.timed (clock ticks : Nat) : Inv c pending {s with clock := clock, ticks := ticks} :=
  ⟨inv.apart,inv.unique,fun i bound valid =>
    ⟨(inv.ok i bound valid).inside,(inv.ok i bound valid).clean,(inv.ok i bound valid).dirty,
      (inv.ok i bound valid).kept⟩,
    inv.locked,inv.held,inv.bound,inv.settled⟩

theorem Inv.tick : Inv c pending s.tick := inv.timed ..

/-- One buffer changes. The others keep what they had; the new one has to be right itself, and alone with its sector. -/
theorem Inv.setBuf (i : Nat) (inRange : i < c.nbuf) (b : Buf D)
    (pending' : Nat → Prop) (others : ∀ j, j ≠ i → (pending' j ↔ pending j))
    (alone : b.valid → ∀ j, j < c.nbuf → j ≠ i → holds (s.bufs j) b.dev b.lba = false)
    (ok : b.valid → Ok c s (pending' i) b) (locked : 0 < b.refcnt → b.valid)
    (held : b.touched → 0 < b.refcnt)
    (bound : pending' i → 0 < b.refcnt ∧ b.dirty = false ∧ b.touched = false)
    (left : Healthy c s → (s.bufs i).valid →
      holds b (s.bufs i).dev (s.bufs i).lba = false →
      sector c s (s.bufs i).dev (s.bufs i).lba = s.last (s.bufs i).dev (s.bufs i).lba) :
    Inv c pending' (s.setBuf i b) where
  apart := inv.apart
  unique := by
    intro j k jRange kRange jValid kValid sameDev sameLba
    by_cases ji : j = i
    · by_cases ki : k = i
      · rw [ji,ki]
      subst ji
      rw [setBuf_self] at jValid sameDev sameLba
      rw [setBuf_other s j k b ki] at kValid sameDev sameLba
      have clash := alone jValid k kRange ki
      rw [sameDev,sameLba] at clash
      simp [holds,kValid] at clash
    · by_cases ki : k = i
      · subst ki
        rw [setBuf_self] at kValid sameDev sameLba
        rw [setBuf_other s k j b ji] at jValid sameDev sameLba
        have clash := alone kValid j jRange ji
        rw [← sameDev,← sameLba] at clash
        simp [holds,jValid] at clash
      · rw [setBuf_other s i j b ji] at jValid sameDev sameLba
        rw [setBuf_other s i k b ki] at kValid sameDev sameLba
        exact inv.unique j k jRange kRange jValid kValid sameDev sameLba
  ok := by
    intro j jRange valid
    by_cases ji : j = i
    · subst ji
      rw [setBuf_self] at valid ⊢
      have ok := ok valid
      exact ⟨ok.inside,ok.clean,ok.dirty,ok.kept⟩
    rw [setBuf_other s i j b ji] at valid ⊢
    have ok := inv.ok j jRange valid
    exact ⟨ok.inside,fun clean untouched notPending => ok.clean clean untouched
      (fun was => notPending ((others j ji).mpr was)),ok.dirty,ok.kept⟩
  locked := by
    intro j jRange
    by_cases ji : j = i
    · subst ji
      rwa [setBuf_self]
    · rw [setBuf_other s i j b ji]
      exact inv.locked j jRange
  held := by
    intro j jRange
    by_cases ji : j = i
    · subst ji
      rwa [setBuf_self]
    · rw [setBuf_other s i j b ji]
      exact inv.held j jRange
  bound := by
    intro j waits
    by_cases ji : j = i
    · subst ji
      rw [setBuf_self]
      exact ⟨inRange,bound waits⟩
    · rw [setBuf_other s i j b ji]
      exact inv.bound j ((others j ji).mp waits)
  settled := by
    intro healthy d lba clear inside free
    by_cases was : holds (s.bufs i) d lba = true
    · obtain ⟨valid,rfl,rfl⟩ := (holds_iff _ _ _).mp was
      have gone := free i inRange
      rw [setBuf_self] at gone
      exact left healthy valid gone
    refine inv.settled healthy d lba clear inside fun j jRange => ?_
    by_cases ji : j = i
    · subst ji
      simpa using was
    · have := free j jRange
      rwa [setBuf_other s i j b ji] at this

theorem Inv.alone (i : Nat) (inRange : i < c.nbuf) (valid : (s.bufs i).valid) (j : Nat)
    (jRange : j < c.nbuf) (other : j ≠ i) : holds (s.bufs j) (s.bufs i).dev (s.bufs i).lba = false := by
  by_contra clash
  obtain ⟨jValid,dev,lba⟩ := (holds_iff _ _ _).mp (by simpa using clash)
  exact other (inv.unique j i jRange inRange jValid valid dev lba)

/-- A buffer that keeps its sector stays the only one with it. -/
theorem Inv.rework (i : Nat) (inRange : i < c.nbuf) (valid : (s.bufs i).valid) (b : Buf D)
    (keeps : holds b (s.bufs i).dev (s.bufs i).lba) (pending' : Nat → Prop)
    (others : ∀ j, j ≠ i → (pending' j ↔ pending j)) (ok : Ok c s (pending' i) b) (held : b.touched → 0 < b.refcnt)
    (bound : pending' i → 0 < b.refcnt ∧ b.dirty = false ∧ b.touched = false) : Inv c pending' (s.setBuf i b) := by
  obtain ⟨bValid,dev,lba⟩ := (holds_iff _ _ _).mp keeps
  refine inv.setBuf i inRange b pending' others ?_ (fun _ => ok) (fun _ => bValid) held bound ?_
  · intro _ j jRange other
    rw [dev,lba]
    exact inv.alone i inRange valid j jRange other
  · intro _ _ left
    rw [keeps] at left
    cases left

/-- Taking a reference changes nothing that the invariant speaks of but the count. -/
theorem Inv.lock (i : Nat) (inRange : i < c.nbuf)
    (valid : (s.bufs i).valid) : Inv c pending (s.lock i) := by
  have ok := inv.ok i inRange valid
  apply Inv.timed
  refine inv.rework i inRange valid _ (by simp [holds,valid]) pending (fun _ _ => Iff.rfl)
    ⟨ok.inside,ok.clean,ok.dirty,ok.kept⟩ (fun _ => succ_pos _) ?_
  intro waits
  exact ⟨succ_pos _,(inv.bound i waits).2.2⟩

/-- A victim is bound to a sector that no buffer has. It is pending until it is filled. -/
theorem Inv.claim (i d lba : Nat) (inRange : i < c.nbuf) (free : (s.bufs i).refcnt = 0)
    (used : s.used d) (inside : lba < (c.devs d).sectorCount)
    (missing : ∀ j, j < c.nbuf → holds (s.bufs j) d lba = false)
    (safe : Healthy c s → (s.bufs i).valid → (s.bufs i).dirty = false) :
    Inv c (fun j => pending j ∨ j = i) (s.claim i d lba) := by
  have untouched : (s.bufs i).touched = false := by
    by_contra touched
    have := inv.held i inRange (by simpa using touched)
    omega
  apply Inv.timed
  refine inv.setBuf i inRange _ _ ?_ ?_ ?_ (fun _ => rfl) ?_ ?_ ?_
  · intro j other
    simp [other]
  · intro _ j jRange _
    exact missing j jRange
  · intro _
    refine ⟨⟨inside,used⟩,fun _ _ notPending => absurd (.inr rfl) notPending,fun dirty => ?_,?_⟩
    · cases dirty
    · intro healthy _ _
      exact inv.settled healthy d lba (inv.apart d used) inside missing
  · intro touched
    exact absurd touched (by simp [untouched])
  · intro _
    exact ⟨Nat.one_pos,rfl,untouched⟩
  · intro healthy valid _
    exact (inv.ok i inRange valid).kept healthy (safe healthy valid) untouched

end

theorem findBuffer_some (found : findBuffer c s d lba = some i) : i < c.nbuf ∧ holds (s.bufs i) d lba := by
  have member := mem_of_find?_eq_some found
  have hit := find?_some found
  exact ⟨mem_range.mp member,hit⟩

theorem findBuffer_none (missing : findBuffer c s d lba = none) (j : Nat)
    (jRange : j < c.nbuf) : holds (s.bufs j) d lba = false := by
  have := find?_eq_none.mp missing j (mem_range.mpr jRange)
  simpa using this

/-- A sector's buffer is unique, so the search finds it wherever it starts. -/
theorem Keyed.findBuffer_eq (keyed : Keyed c s) (inRange : i < c.nbuf)
    (hit : holds (s.bufs i) d lba) : findBuffer c s d lba = some i := by
  cases found : findBuffer c s d lba with
  | none =>
    have := findBuffer_none found i inRange
    rw [hit] at this
    cases this
  | some j =>
    obtain ⟨jRange,other⟩ := findBuffer_some found
    obtain ⟨valid,dev,block⟩ := (holds_iff _ _ _).mp hit
    obtain ⟨jValid,jDev,jBlock⟩ := (holds_iff _ _ _).mp other
    rw [keyed j i jRange inRange jValid valid (by rw [jDev,dev]) (by rw [jBlock,block])]

def DirtyAt (c : Setup D) (s : State D) (d lba p : Nat) : Prop :=
  p < c.nbuf ∧ holds (s.bufs p) d lba ∧ (s.bufs p).dirty

theorem dirtyAt_some (found : dirtyAt c s d lba = some p) : DirtyAt c s d lba p := by
  obtain ⟨hit,dirty⟩ := filter_eq_some_iff.mp found
  obtain ⟨inRange,has⟩ := findBuffer_some hit
  exact ⟨inRange,has,dirty⟩

theorem Keyed.dirtyAt_eq (keyed : Keyed c s) (dirty : DirtyAt c s d lba p) :
    dirtyAt c s d lba = some p := by
  obtain ⟨inRange,hit,isDirty⟩ := dirty
  unfold dirtyAt
  rw [keyed.findBuffer_eq inRange hit]
  simp [isDirty]

/-- The run goes on as long as the next sector has a dirty buffer. -/
theorem Keyed.restOfRun_covers (keyed : Keyed c s) (d n lba m p : Nat) (room : m < n)
    (dirty : ∀ k, k ≤ m → ∃ q, DirtyAt c s d ((lba + k) % 2^64) q) (target : DirtyAt c s d ((lba + m) % 2^64) p) :
    p ∈ restOfRun c s d n lba := by
  induction n generalizing lba m with
  | zero => omega
  | succ n ih =>
    obtain ⟨q,first⟩ := dirty 0 (zero_le m)
    unfold restOfRun
    rw [keyed.dirtyAt_eq (by simpa using first)]
    cases m with
    | zero =>
      have same := (keyed.dirtyAt_eq target).symm.trans (keyed.dirtyAt_eq first)
      exact mem_cons.mpr (.inl (some.inj same))
    | succ m =>
      refine mem_cons_of_mem q (ih (lba + 1) m (by omega) ?_ ?_)
      · intro k small
        have := dirty (k + 1) (by omega)
        rwa [Nat.add_assoc,Nat.add_comm 1 k]
      · rwa [Nat.add_assoc,Nat.add_comm 1 m]

structure Run (c : Setup D) (s : State D) (d lba : Nat) (run : List Nat) : Prop where
  used : s.used d
  fits : lba + run.length ≤ (c.devs d).sectorCount
  dirty : ∀ k p, run[k]? = some p → DirtyAt c s d (lba + k) p

/-- Sectors of no buffer in the run lie outside the disk area that it writes. -/
theorem Run.outside (ready : Run c s d lba run) (e l : Nat) (other : ∀ p ∈ run, holds (s.bufs p) e l = false)
    (same : e = d) : l < lba ∨ lba + run.length ≤ l := by
  by_contra within
  have bound : l - lba < run.length := by omega
  have dirty := ready.dirty (l - lba) _ (getElem?_eq_getElem bound)
  have here : lba + (l - lba) = l := by omega
  rw [here,← same] at dirty
  have := other _ (getElem_mem bound)
  rw [dirty.2.1] at this
  cases this

structure Cleaned (s t : State D) : Prop where
  used : t.used = s.used
  gone : t.gone = s.gone
  last : t.last = s.last
  bufs : ∀ j, t.bufs j = s.bufs j ∨ t.bufs j = {s.bufs j with dirty := false}

theorem Cleaned.trans {s t u : State D} (first : Cleaned s t) (second : Cleaned t u) : Cleaned s u := by
  refine ⟨second.used.trans first.used,second.gone.trans first.gone,second.last.trans first.last,?_⟩
  intro j
  rcases first.bufs j with a | a <;> rcases second.bufs j with b | b <;> rw [b,a]
  · exact .inl rfl
  · exact .inr rfl
  · exact .inr rfl
  · exact .inr rfl

/-- Writing back at most clears a buffer's dirty flag. -/
theorem Cleaned.fields {s t : State D} (cleaned : Cleaned s t) (j : Nat) :
    (t.bufs j).valid = (s.bufs j).valid ∧ (t.bufs j).refcnt = (s.bufs j).refcnt ∧
    (t.bufs j).touched = (s.bufs j).touched ∧ ((s.bufs j).dirty = false → (t.bufs j).dirty = false) ∧
    ∀ d lba, holds (t.bufs j) d lba = holds (s.bufs j) d lba := by
  rcases cleaned.bufs j with same | same <;> rw [same]
  · exact ⟨rfl,rfl,rfl,id,fun _ _ => rfl⟩
  · exact ⟨rfl,rfl,rfl,fun _ => rfl,fun _ _ => rfl⟩

theorem place_eq (c : Setup D) (inside : lba ≤ (c.devs d).sectorCount) : place c d lba = (c.devs d).offset + lba := by
  have whole := (c.devs d).inside
  exact mod_eq_of_lt (by omega)

/-- A write is refused with nothing changed, or it fails and leaves anything in its sectors, or it is done. -/
theorem blockWrite_cases (c : Setup D) (s : State D) (d lba : Nat) (xs : List D) :
    (∃ e, blockWrite c s d lba xs = (.error e,s)) ∨
    (∃ e ys, ys.length = xs.length ∧ ¬ Healthy c s ∧ blockWrite c s d lba xs =
      (.error e,s.tick.patchDisk (c.devs d).disk (place c d lba) ys)) ∨
    blockWrite c s d lba xs = (.ok (),s.tick.patchDisk (c.devs d).disk (place c d lba) xs) := by
  unfold blockWrite
  split
  · exact .inl ⟨_,rfl⟩
  split
  · exact .inl ⟨_,rfl⟩
  split
  · rename_i failed
    refine .inr (.inl ⟨_,_,slice_length _ _ _,?_,rfl⟩)
    intro healthy
    rw [healthy.1] at failed
    cases failed
  · exact .inr (.inr rfl)

section
variable (s)

theorem older_mem (best : Option Nat) (i j : Nat) (chosen : older s best i = some j) :
    j = i ∨ best = some j := by
  unfold older at chosen
  split at chosen
  · exact .inl (some.inj chosen).symm
  · split at chosen
    · exact .inl (some.inj chosen).symm
    · exact .inr chosen

/-- Whatever the loop prefers, it picks an unlocked buffer. -/
theorem pickLoop_free (list : List Nat) (bestClean bestDirty : Option Nat)
    (free : ∀ j, bestClean = some j ∨ bestDirty = some j → j < c.nbuf ∧ (s.bufs j).refcnt = 0)
    (inRange : ∀ j ∈ list, j < c.nbuf) (i : Nat) (picked : pickLoop s list bestClean bestDirty = some i) :
    i < c.nbuf ∧ (s.bufs i).refcnt = 0 := by
  induction list generalizing bestClean bestDirty with
  | nil =>
    rcases or_eq_some_iff.mp picked with clean | ⟨_,dirty⟩
    · exact free i (.inl clean)
    · exact free i (.inr dirty)
  | cons k rest ih =>
    have kRange := inRange k (by simp)
    have inRest : ∀ j ∈ rest, j < c.nbuf := fun j member => inRange j (by simp [member])
    unfold pickLoop at picked
    split at picked
    · exact ih bestClean bestDirty free inRest picked
    rename_i unlocked
    have unlocked : (s.bufs k).refcnt = 0 := by simpa using unlocked
    split at picked
    · exact some.inj picked ▸ ⟨kRange,unlocked⟩
    split at picked
    · refine ih _ _ ?_ inRest picked
      rintro j (clean | dirty)
      · exact free j (.inl clean)
      · obtain rfl | before := older_mem s bestDirty k j dirty
        · exact ⟨kRange,unlocked⟩
        · exact free j (.inr before)
    refine ih _ _ ?_ inRest picked
    rintro j (clean | dirty)
    · obtain rfl | before := older_mem s bestClean k j clean
      · exact ⟨kRange,unlocked⟩
      · exact free j (.inl before)
    · exact free j (.inr dirty)

/-- Going back from `i`, every sector has a dirty buffer, and the run is not longer than asked. -/
theorem firstOfRun_spec (d n i : Nat) (dirty : DirtyAt c s d (s.bufs i).lba i) :
    ∃ back, back ≤ n ∧ DirtyAt c s d (s.bufs (firstOfRun c s d n i)).lba (firstOfRun c s d n i) ∧
      (s.bufs (firstOfRun c s d n i)).lba + back = (s.bufs i).lba ∧
      ∀ k, k ≤ back → ∃ p, DirtyAt c s d ((s.bufs (firstOfRun c s d n i)).lba + k) p := by
  induction n generalizing i with
  | zero =>
    refine ⟨0,Nat.le_refl 0,dirty,rfl,fun k small => ⟨i,?_⟩⟩
    obtain rfl := le_zero.mp small
    exact dirty
  | succ n ih =>
    have stay : ∃ back, back ≤ n + 1 ∧ DirtyAt c s d (s.bufs i).lba i ∧
        (s.bufs i).lba + back = (s.bufs i).lba ∧
        ∀ k, k ≤ back → ∃ p, DirtyAt c s d ((s.bufs i).lba + k) p := by
      refine ⟨0,zero_le _,dirty,rfl,fun k small => ⟨i,?_⟩⟩
      obtain rfl := le_zero.mp small
      exact dirty
    unfold firstOfRun
    split
    · exact stay
    split
    · rename_i p before
      have pDirty := dirtyAt_some before
      obtain ⟨_,_,pLba⟩ := (holds_iff _ _ _).mp pDirty.2.1
      obtain ⟨back,near,first,sum,gapless⟩ := ih p (by rw [pLba]; exact pDirty)
      refine ⟨back + 1,by omega,first,by omega,fun k small => ?_⟩
      by_cases last : k ≤ back
      · exact gapless k last
      · have here : (s.bufs (firstOfRun c s d n p)).lba + k = (s.bufs i).lba := by omega
        exact ⟨i,by rw [here]; exact dirty⟩
    · exact stay

/-- All that follows in the run is dirty and in the order of the sectors. -/
theorem restOfRun_dirty (d n lba k p : Nat)
    (member : (restOfRun c s d n lba)[k]? = some p) : DirtyAt c s d ((lba + k) % 2^64) p := by
  induction n generalizing lba k with
  | zero => simp [restOfRun] at member
  | succ n ih =>
    unfold restOfRun at member
    split at member
    · rename_i q found
      cases k with
      | zero =>
        obtain rfl : q = p := by simpa using member
        exact dirtyAt_some found
      | succ k =>
        have deeper := ih (lba + 1) k (by simpa using member)
        rwa [Nat.add_assoc,Nat.add_comm 1 k] at deeper
    · simp at member

/-- What is written for one device does not show in another sector that is not in its range. -/
theorem sector_patch_outside (d e lba l : Nat) (xs : List D)
    (apart : d ≠ e → Apart c d e) (fits : lba + xs.length ≤ (c.devs d).sectorCount)
    (inside : l < (c.devs e).sectorCount) (outside : e = d → l < lba ∨ lba + xs.length ≤ l) :
    sector c (s.patchDisk (c.devs d).disk ((c.devs d).offset + lba) xs) e l = sector c s e l := by
  simp only [sector,State.patchDisk]
  by_cases same : (c.devs e).disk = (c.devs d).disk
  · simp only [same,update_self]
    have away : (c.devs e).offset + l < (c.devs d).offset + lba ∨
        (c.devs d).offset + lba + xs.length ≤ (c.devs e).offset + l := by
      by_cases device : e = d
      · rcases outside device with before | after
        · exact .inl (by rw [device]; omega)
        · exact .inr (by rw [device]; omega)
      rcases apart (Ne.symm device) with other | below | above
      · exact absurd same.symm other
      · exact .inr (by omega)
      · exact .inl (by omega)
    exact patch_apart _ _ _ _ away
  · rw [update_of_ne same]

theorem sector_patch_inside (d lba k : Nat) (xs : List D) (x : D) (stored : xs[k]? = some x) :
    sector c (s.patchDisk (c.devs d).disk ((c.devs d).offset + lba) xs) d (lba + k) = x := by
  obtain ⟨bound,rfl⟩ := List.getElem?_eq_some_iff.mp stored
  simp only [sector,State.patchDisk]
  rw [update_self,← Nat.add_assoc]
  exact Memory.patch_inside _ _ _ _ bound

theorem clean_member (run : List Nat) (j : Nat) (member : j ∈ run) :
    (s.clean run).bufs j = {s.bufs j with dirty := false} := by
  simp [State.clean,member]

theorem clean_other (run : List Nat) (j : Nat) (notIn : j ∉ run) : (s.clean run).bufs j = s.bufs j := by
  simp [State.clean,notIn]

theorem Cleaned.refl : Cleaned s s := ⟨rfl,rfl,rfl,fun _ => .inl rfl⟩

end

theorem pickVictim_free (picked : pickVictim c s = some i) : i < c.nbuf ∧ (s.bufs i).refcnt = 0 :=
  pickLoop_free s _ none none (by simp) (fun j member => mem_range.mp member) i picked

def Words (c : Setup D) (s : State D) : Prop := ∀ i, i < c.nbuf → (s.bufs i).valid → (s.bufs i).lba < 2^64

/-- The run that is written with buffer `i`: dirty buffers of sectors in a row, `i` among them. -/
theorem Keyed.runOf_spec (keyed : Keyed c s) (words : Words c s) (i : Nat) (inRange : i < c.nbuf)
    (valid : (s.bufs i).valid) (dirty : (s.bufs i).dirty) : let d := (s.bufs i).dev
    let lba := (s.bufs (firstOfRun c s d (maxRun c d - 1) i)).lba
    i ∈ runOf c s i ∧ lba < 2^64 ∧ ∀ k p, (runOf c s i)[k]? = some p → DirtyAt c s d ((lba + k) % 2^64) p := by
  have self : DirtyAt c s (s.bufs i).dev (s.bufs i).lba i := ⟨inRange,by simp [holds,valid],dirty⟩
  obtain ⟨back,near,first,sum,gapless⟩ :=
    firstOfRun_spec s (s.bufs i).dev (maxRun c (s.bufs i).dev - 1) i self
  have small := words i inRange valid
  intro d lba
  have low : lba < 2^64 := words _ first.1 ((holds_iff _ _ _).mp first.2.1).1
  refine ⟨?_,low,?_⟩
  · cases back with
    | zero =>
      have here : DirtyAt c s d (s.bufs i).lba (firstOfRun c s d (maxRun c d - 1) i) := by
        rw [← sum]
        exact first
      have same := (keyed.dirtyAt_eq self).symm.trans (keyed.dirtyAt_eq here)
      exact mem_cons.mpr (.inl (some.inj same))
    | succ back =>
      refine mem_cons_of_mem _ (keyed.restOfRun_covers d _ _ back i (by omega) ?_ ?_)
      · intro k small
        have := gapless (k + 1) (by omega)
        rwa [Nat.add_assoc,Nat.add_comm 1 k,mod_eq_of_lt (by omega)]
      · rw [Nat.add_assoc,Nat.add_comm 1 back,sum,mod_eq_of_lt small]
        exact self
  · intro k p member
    cases k with
    | zero =>
      obtain rfl : _ = p := by simpa [runOf] using member
      rw [Nat.add_zero,mod_eq_of_lt low]
      exact first
    | succ k =>
      have := restOfRun_dirty s d _ _ k p (by simpa [runOf] using member)
      rwa [Nat.add_assoc,Nat.add_comm 1 k] at this

theorem Inv.words (inv : Inv c pending s) : Words c s := by
  intro i inRange valid
  have small := (inv.ok i inRange valid).inside.1
  have whole := (c.devs (s.bufs i).dev).inside
  omega

/-- Where every sector is inside its device, the run does not wrap. -/
theorem Inv.gathers (inv : Inv c pending s) (i : Nat) (inRange : i < c.nbuf) (valid : (s.bufs i).valid)
    (dirty : (s.bufs i).dirty) : i ∈ runOf c s i ∧ Run c s (s.bufs i).dev
      (s.bufs (firstOfRun c s (s.bufs i).dev (maxRun c (s.bufs i).dev - 1) i)).lba (runOf c s i) := by
  obtain ⟨member,low,run⟩ := inv.keyed.runOf_spec inv.words i inRange valid dirty
  have used := (inv.ok i inRange valid).inside.2
  revert low run used
  generalize (s.bufs (firstOfRun c s (s.bufs i).dev (maxRun c (s.bufs i).dev - 1) i)).lba = lba
  generalize (s.bufs i).dev = d
  intro low run used
  have whole := (c.devs d).inside
  have inner : ∀ k, k < (runOf c s i).length → lba + k < (c.devs d).sectorCount := by
    intro k some
    -- every sector up to this one is inside the device, so the number of the next does not wrap
    have short : lba + k < 2^64 := by
      induction k with
      | zero => exact low
      | succ k ih =>
        have before := ih (by omega)
        obtain ⟨jRange,hit,-⟩ := run k _ (getElem?_eq_getElem (by omega))
        obtain ⟨jValid,dev,block⟩ := (holds_iff _ _ _).mp hit
        have inside := (inv.ok _ jRange jValid).inside.1
        rw [dev,block,mod_eq_of_lt before] at inside
        omega
    obtain ⟨jRange,hit,-⟩ := run k _ (getElem?_eq_getElem some)
    obtain ⟨jValid,dev,block⟩ := (holds_iff _ _ _).mp hit
    have inside := (inv.ok _ jRange jValid).inside.1
    rwa [dev,block,mod_eq_of_lt short] at inside
  refine ⟨member,used,?_,fun k p found => ?_⟩
  · have some := length_pos_of_mem member
    have last := inner ((runOf c s i).length - 1) (by omega)
    omega
  · have small := inner k (List.getElem?_eq_some_iff.mp found).1
    have here := run k p found
    rwa [mod_eq_of_lt (by omega)] at here

/-- A sector that no buffer of the run has shows what it showed before, on whatever device. -/
theorem Run.sector_written (ready : Run c s d lba run) (xs : List D) (size : xs.length = run.length) (e l : Nat)
    (clear : Clear c s e) (inside : l < (c.devs e).sectorCount) (other : ∀ p ∈ run, holds (s.bufs p) e l = false) :
    sector c (s.patchDisk (c.devs d).disk ((c.devs d).offset + lba) xs) e l = sector c s e l := by
  refine sector_patch_outside s d e lba l xs ?_ (by rw [size]; exact ready.fits) inside ?_
  · exact clear d ready.used
  · rw [size]
    exact ready.outside e l other

section
variable (inv : Inv c pending s) (ready : Run c s d lba run)
include inv ready

theorem Inv.other_buffer
    (j : Nat) (jRange : j < c.nbuf) (valid : (s.bufs j).valid)
    (notIn : j ∉ run) : ∀ p ∈ run, holds (s.bufs p) (s.bufs j).dev (s.bufs j).lba = false := by
  intro p member
  obtain ⟨k,bound,rfl⟩ := getElem_of_mem member
  have inRange := (ready.dirty k _ (getElem?_eq_getElem bound)).1
  exact inv.alone j jRange valid _ inRange (fun same => notIn (same ▸ member))

/-- A failed write may leave anything in the run's sectors: their buffers are still dirty. -/
theorem Inv.torn (xs : List D) (size : xs.length = run.length)
    (unhealthy : ¬ Healthy c s) : Inv c pending (s.patchDisk (c.devs d).disk ((c.devs d).offset + lba) xs) where
  apart := inv.apart
  unique := inv.unique
  ok := by
    intro j jRange valid
    have ok := inv.ok j jRange valid
    refine ⟨ok.inside,?_,ok.dirty,fun healthy => absurd healthy unhealthy⟩
    intro clean untouched notPending plugged
    have notIn : j ∉ run := by
      intro member
      obtain ⟨k,bound,rfl⟩ := getElem_of_mem member
      have dirty := (ready.dirty k _ (getElem?_eq_getElem bound)).2.2
      exact absurd (clean.symm.trans dirty) (by decide)
    exact (ok.clean clean untouched notPending plugged).trans
      (ready.sector_written xs size _ _ (inv.apart _ ok.inside.2) ok.inside.1
        (inv.other_buffer ready j jRange valid notIn)).symm
  locked := inv.locked
  held := inv.held
  bound := inv.bound
  settled := fun healthy => absurd healthy unhealthy

/-- A write that succeeds: the run's buffers are clean and agree with the disk. -/
theorem Inv.written :
    Inv c pending ((s.patchDisk (c.devs d).disk ((c.devs d).offset + lba)
      (run.map fun p => (s.bufs p).data)).clean run) := by
  have size : (run.map fun p => (s.bufs p).data).length = run.length := length_map _
  let t := s.patchDisk (c.devs d).disk ((c.devs d).offset + lba) (run.map fun p => (s.bufs p).data)
  have bufs : ∀ j, (t.clean run).bufs j = if j ∈ run then {s.bufs j with dirty := false} else s.bufs j :=
    fun _ => rfl
  have same : ∀ j, ((t.clean run).bufs j).dev = (s.bufs j).dev ∧
      ((t.clean run).bufs j).lba = (s.bufs j).lba ∧ ((t.clean run).bufs j).valid = (s.bufs j).valid ∧
      ((t.clean run).bufs j).refcnt = (s.bufs j).refcnt ∧
      ((t.clean run).bufs j).touched = (s.bufs j).touched := by
    intro j
    rw [bufs]
    split <;> exact ⟨rfl,rfl,rfl,rfl,rfl⟩
  have keys : ∀ j e l, holds ((t.clean run).bufs j) e l = holds (s.bufs j) e l := by
    intro j e l
    simp only [holds,(same j).1,(same j).2.1,(same j).2.2.1]
  refine ⟨inv.apart,?_,?_,?_,?_,?_,?_⟩
  · intro i j iRange jRange iValid jValid
    rw [(same i).1,(same i).2.1,(same j).1,(same j).2.1]
    rw [(same i).2.2.1] at iValid
    rw [(same j).2.2.1] at jValid
    exact inv.unique i j iRange jRange iValid jValid
  · intro j jRange valid
    rw [(same j).2.2.1] at valid
    have ok := inv.ok j jRange valid
    by_cases member : j ∈ run
    · -- the sector now holds the buffer's data, which was dirty
      obtain ⟨k,bound,rfl⟩ := getElem_of_mem member
      have dirty := ready.dirty k _ (getElem?_eq_getElem bound)
      obtain ⟨_,dev,block⟩ := (holds_iff _ _ _).mp dirty.2.1
      have stored : sector c t (s.bufs run[k]).dev (s.bufs run[k]).lba = (s.bufs run[k]).data := by
        rw [dev,block]
        exact sector_patch_inside s d lba k _ _ (by simp [bound])
      rw [bufs,if_pos member]
      exact ⟨ok.inside,fun _ _ _ _ => stored.symm,fun isDirty => Bool.noConfusion isDirty,
        fun _ _ untouched => stored.trans (ok.dirty dirty.2.2 untouched)⟩
    · have unchanged : sector c t (s.bufs j).dev (s.bufs j).lba = sector c s (s.bufs j).dev (s.bufs j).lba :=
        ready.sector_written _ size _ _ (inv.apart _ ok.inside.2) ok.inside.1
          (inv.other_buffer ready j jRange valid member)
      rw [bufs,if_neg member]
      exact ⟨ok.inside,fun clean untouched notPending plugged =>
          (ok.clean clean untouched notPending plugged).trans unchanged.symm,
        ok.dirty,fun healthy clean untouched => unchanged.trans (ok.kept healthy clean untouched)⟩
  · intro j jRange
    rw [(same j).2.2.1,(same j).2.2.2.1]
    exact inv.locked j jRange
  · intro j jRange
    rw [(same j).2.2.2.1,(same j).2.2.2.2]
    exact inv.held j jRange
  · intro j waits
    obtain ⟨jRange,locked,clean,untouched⟩ := inv.bound j waits
    rw [(same j).2.2.2.1,(same j).2.2.2.2]
    refine ⟨jRange,locked,?_,untouched⟩
    rw [bufs]
    split
    · rfl
    · exact clean
  · intro healthy e l clear inside free
    have missing : ∀ j, j < c.nbuf → holds (s.bufs j) e l = false :=
      fun j jRange => keys j e l ▸ free j jRange
    refine (ready.sector_written _ size e l clear inside ?_).trans
      (inv.settled healthy e l clear inside missing)
    intro p member
    obtain ⟨k,bound,rfl⟩ := getElem_of_mem member
    exact missing _ (ready.dirty k _ (getElem?_eq_getElem bound)).1

end

/-- `writeback` keeps the invariant, whatever the device does. -/
theorem Inv.writesBack (inv : Inv c pending s) (i : Nat) (inRange : i < c.nbuf) (valid : (s.bufs i).valid) :
    Inv c pending (writeback c s i).2 ∧ Cleaned s (writeback c s i).2 ∧
    ((writeback c s i).1 = .ok () → ((writeback c s i).2.bufs i).dirty = false) := by
  unfold writeback
  dsimp only
  split
  · rename_i clean
    exact ⟨inv,.refl s,fun _ => by simpa using clean⟩
  rename_i dirty
  have dirty : (s.bufs i).dirty := by simpa using dirty
  have ok := inv.ok i inRange valid
  split
  · -- the disk is gone: the data is dropped, and nothing is claimed about the buffer
    rename_i gone
    refine ⟨?_,⟨rfl,rfl,rfl,fun j => ?_⟩,fun failed => by cases failed⟩
    · refine inv.rework i inRange valid _ (by simp [holds,valid]) pending (fun _ _ => Iff.rfl) ?_
        (inv.held i inRange) ?_
      · refine ⟨ok.inside,fun _ _ _ plugged => ?_,fun isDirty => Bool.noConfusion isDirty,fun healthy => ?_⟩
        · exact absurd (plugged.symm.trans gone) (by decide)
        · exact absurd ((healthy.2 _).symm.trans gone) (by decide)
      · intro waits
        exact absurd ((inv.bound i waits).2.2.1.symm.trans dirty) (by decide)
    · by_cases ji : j = i
      · subst ji
        exact .inr (setBuf_self s j _)
      · exact .inl (setBuf_other s i j _ ji)
  · obtain ⟨member,ready⟩ := inv.gathers i inRange valid dirty
    have start := place_eq c (Nat.le_trans (Nat.le_add_right ..) ready.fits)
    rcases blockWrite_cases c s (s.bufs i).dev
        (s.bufs (firstOfRun c s (s.bufs i).dev (maxRun c (s.bufs i).dev - 1) i)).lba
        ((runOf c s i).map fun p => (s.bufs p).data) with
      ⟨e,refused⟩ | ⟨e,ys,size,unhealthy,failed⟩ | wrote
    · rw [refused]
      exact ⟨inv,.refl s,fun failed => by cases failed⟩
    · rw [failed,start]
      refine ⟨?_,⟨rfl,rfl,rfl,fun _ => .inl rfl⟩,fun done => by cases done⟩
      exact (inv.torn ready ys (by simpa using size) unhealthy).tick
    rw [wrote,start]
    refine ⟨(inv.written ready).tick,⟨rfl,rfl,rfl,fun j => ?_⟩,fun _ => ?_⟩
    · by_cases inRun : j ∈ runOf c s i
      · exact .inr (clean_member _ _ j inRun)
      · exact .inl (clean_other _ _ j inRun)
    · rw [clean_member _ _ i member]

end

end SurfaceOS.Bcache
