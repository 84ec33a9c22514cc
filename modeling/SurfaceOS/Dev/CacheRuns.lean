import Mathlib.Data.List.Perm.Subperm
import SurfaceOS.Dev.Coherence

/-! Whole runs of the sector cache: what holds in every state, and that the cache over its
disks is one flat array for its users. -/
namespace SurfaceOS.Bcache
open Lib Function List Option

variable {D : Type}

section
variable {c : Setup D} {pending : Nat → Prop} {s : State D}

theorem Inv.writeback_ok (inv : Inv c pending s) (works : (c.events s.ticks).fails = false) (i : Nat)
    (plugged : isGone c s (s.bufs i).dev = false) (inRange : i < c.nbuf) (valid : (s.bufs i).valid) :
    (writeback c s i).1 = .ok () := by
  unfold writeback
  dsimp only
  split
  · rfl
  rename_i dirty
  obtain ⟨member,ready⟩ := inv.gathers i inRange valid (by simpa using dirty)
  have positive : 0 < (runOf c s i).length := length_pos_of_mem member
  have inside := ready.fits
  have whole := (c.devs (s.bufs i).dev).inside
  have fits : ¬ (((runOf c s i).map fun p => (s.bufs p).data).length = 0 ∨
      (c.devs (s.bufs i).dev).sectorCount <
        ((s.bufs (firstOfRun c s (s.bufs i).dev (maxRun c (s.bufs i).dev - 1) i)).lba +
          ((runOf c s i).map fun p => (s.bufs p).data).length) % 2^64) := by
    rw [length_map,Nat.mod_eq_of_lt (by omega)]
    omega
  simp only [blockWrite,fits,plugged,works,if_false,Bool.false_eq_true]

theorem Inv.flushesLoop (inv : Inv c pending s) (dev : Option Nat) (list : List Nat)
    (inRange : ∀ i ∈ list, i < c.nbuf) (err : Option Errno) :
    Inv c pending (flushLoop c dev list err s).2 ∧ Cleaned s (flushLoop c dev list err s).2 ∧
    (Healthy c s → ∀ i ∈ list, (s.bufs i).valid → concerns dev (s.bufs i).dev →
      ((flushLoop c dev list err s).2.bufs i).dirty = false) := by
  induction list generalizing s err with
  | nil => exact ⟨inv,.refl s,fun _ i member => by simp at member⟩
  | cons i rest ih =>
    have inRest : ∀ j ∈ rest, j < c.nbuf := fun j member => inRange j (by simp [member])
    unfold flushLoop
    dsimp only
    split
    · rename_i chosen
      simp only [Bool.and_eq_true] at chosen
      obtain ⟨written,cleaned,done⟩ := inv.writesBack i (inRange i (by simp)) chosen.1.1
      have out : ∀ err', let t := (writeback c s i).2
          Inv c pending (flushLoop c dev rest err' t).2 ∧
          Cleaned s (flushLoop c dev rest err' t).2 ∧
          (Healthy c s → ∀ j ∈ i :: rest, (s.bufs j).valid → concerns dev (s.bufs j).dev →
            ((flushLoop c dev rest err' t).2.bufs j).dirty = false) := by
        intro err' t
        obtain ⟨after,cleaned',clean⟩ := ih written inRest err'
        refine ⟨after,cleaned.trans cleaned',fun healthy j member valid ours => ?_⟩
        have healthy' : Healthy c t := ⟨healthy.1,fun k => by rw [cleaned.gone]; exact healthy.2 k⟩
        rcases mem_cons.mp member with rfl | inside
        · have first := done (inv.writeback_ok (healthy.1 _) j (healthy.2 _) (inRange j (by simp)) valid)
          exact (cleaned'.fields j).2.2.2.1 first
        · refine clean healthy' j inside (by rw [(cleaned.fields j).1]; exact valid) ?_
          rcases cleaned.bufs j with same | same <;> rw [same] <;> exact ours
      cases result : writeback c s i with
      | mk rc t =>
        rw [result] at out
        cases rc with
        | ok _ => exact out _
        | error e => exact out _
    · rename_i skipped
      obtain ⟨after,cleaned,clean⟩ := ih inv inRest err
      refine ⟨after,cleaned,fun healthy j member valid ours => ?_⟩
      rcases mem_cons.mp member with rfl | inside
      · have : (s.bufs j).dirty = false := by simpa [valid,ours] using skipped
        exact (cleaned.fields j).2.2.2.1 this
      · exact clean healthy j inside valid ours

theorem syncLoop_spec (c : Setup D) (disks : List Nat) (err : Option Errno) (s : State D) :
    ∃ n, (syncLoop c disks err s).2 = {s with ticks := n} := by
  induction disks generalizing err s with
  | nil => exact ⟨s.ticks,rfl⟩
  | cons k rest ih =>
    unfold syncLoop
    split
    · exact ih _ _
    split
    · obtain ⟨n,same⟩ := ih (err.or (some .eio)) s.tick
      exact ⟨n,same⟩
    · obtain ⟨n,same⟩ := ih err s.tick
      exact ⟨n,same⟩

section
variable (inv : Inv c pending s)
include inv

theorem Inv.flushes (dev : Option Nat) : Inv c pending (flush c s dev).2 ∧ Cleaned s (flush c s dev).2 ∧
    (Healthy c s → ∀ i, i < c.nbuf → (s.bufs i).valid → concerns dev (s.bufs i).dev →
      ((flush c s dev).2.bufs i).dirty = false) := by
  obtain ⟨after,cleaned,clean⟩ :=
    inv.flushesLoop dev (List.range c.nbuf) (fun i member => mem_range.mp member) none
  unfold flush
  obtain ⟨n,same⟩ := syncLoop_spec c (disksOf c (flushLoop c dev (List.range c.nbuf) none s).2 dev)
    (flushLoop c dev (List.range c.nbuf) none s).1 (flushLoop c dev (List.range c.nbuf) none s).2
  rw [same]
  exact ⟨after.timed _ n,⟨cleaned.used,cleaned.gone,cleaned.last,cleaned.bufs⟩,
    fun healthy i inRange => clean healthy i (mem_range.mpr inRange)⟩

theorem Inv.shed (bufs : Nat → Buf D)
    (each : ∀ i, bufs i = s.bufs i ∨
      (bufs i = {s.bufs i with valid := false, dirty := false} ∧ (s.bufs i).refcnt = 0 ∧
        (Healthy c s → (s.bufs i).valid → (s.bufs i).dirty = false)) ∨
      (bufs i = {s.bufs i with dirty := false} ∧ isGone c s (s.bufs i).dev)) :
    Inv c pending {s with bufs := bufs} := by
  have fields : ∀ i, (bufs i).dev = (s.bufs i).dev ∧ (bufs i).lba = (s.bufs i).lba ∧
      (bufs i).refcnt = (s.bufs i).refcnt ∧ (bufs i).touched = (s.bufs i).touched ∧
      ((bufs i).valid → (s.bufs i).valid) ∧
      ((s.bufs i).dirty = false → (bufs i).dirty = false) := by
    intro i
    rcases each i with same | ⟨same,_⟩ | ⟨same,_⟩ <;> rw [same] <;> simp
  refine ⟨inv.apart,?_,?_,?_,?_,?_,?_⟩
  · intro i j iRange jRange iValid jValid
    simp only [(fields i).1,(fields i).2.1,(fields j).1,(fields j).2.1]
    exact inv.unique i j iRange jRange ((fields i).2.2.2.2.1 iValid) ((fields j).2.2.2.2.1 jValid)
  · intro i inRange valid
    have ok := inv.ok i inRange ((fields i).2.2.2.2.1 valid)
    rcases each i with same | ⟨same,_⟩ | ⟨same,gone⟩
    · simp only [same]
      exact ⟨ok.inside,ok.clean,ok.dirty,ok.kept⟩
    · simp only [same] at valid
      cases valid
    simp only [same]
    refine ⟨ok.inside,fun _ _ _ plugged => ?_,fun dirty => Bool.noConfusion dirty,fun healthy => ?_⟩
    · exact absurd (plugged.symm.trans gone) (by decide)
    · exact absurd ((healthy.2 _).symm.trans gone) (by decide)
  · intro i inRange locked
    have locked : 0 < (s.bufs i).refcnt := by rw [← (fields i).2.2.1]; exact locked
    rcases each i with same | ⟨_,free,_⟩ | ⟨same,_⟩
    · simp only [same]
      exact inv.locked i inRange locked
    · omega
    · simp only [same]
      exact inv.locked i inRange locked
  · intro i inRange
    simp only [(fields i).2.2.1,(fields i).2.2.2.1]
    exact inv.held i inRange
  · intro i waits
    obtain ⟨inRange,locked,clean,untouched⟩ := inv.bound i waits
    simp only [(fields i).2.2.1,(fields i).2.2.2.1]
    exact ⟨inRange,locked,(fields i).2.2.2.2.2 clean,untouched⟩
  · intro healthy d lba clear inside free
    by_cases held : ∃ i, i < c.nbuf ∧ holds (s.bufs i) d lba = true
    · -- the sector's buffer was dropped: it was clean, so the disk has what was put last
      obtain ⟨i,inRange,hit⟩ := held
      obtain ⟨valid,dev,block⟩ := (holds_iff _ _ _).mp hit
      have dropped : (bufs i).valid = false := by
        by_contra still
        have : holds (bufs i) d lba :=
          (holds_iff _ _ _).mpr ⟨by simpa using still,(fields i).1.trans dev,(fields i).2.1.trans block⟩
        rw [free i inRange] at this
        cases this
      rcases each i with same | ⟨_,unlocked,clean⟩ | ⟨same,_⟩
      · rw [same,valid] at dropped
        cases dropped
      · have untouched : (s.bufs i).touched = false := by
          by_contra touched
          have := inv.held i inRange (by simpa using touched)
          omega
        have := (inv.ok i inRange valid).kept healthy (clean healthy valid) untouched
        rwa [dev,block] at this
      · rw [same] at dropped
        exact absurd (valid.symm.trans dropped) (by decide)
    · refine inv.settled healthy d lba clear inside fun i inRange => ?_
      by_contra hit
      exact held ⟨i,inRange,by simpa using hit⟩

theorem Inv.releases (dev : Option Nat) : Inv c pending (release c s dev).2 := by
  obtain ⟨after,cleaned,clean⟩ := inv.flushes dev
  refine after.shed _ fun i => ?_
  by_cases chosen : i < c.nbuf ∧ ((((flush c s dev).2.bufs i).valid &&
      concerns dev ((flush c s dev).2.bufs i).dev)) ∧ ((flush c s dev).2.bufs i).refcnt = 0
  · refine .inr (.inl ⟨if_pos chosen,chosen.2.2,fun healthy valid => ?_⟩)
    simp only [Bool.and_eq_true] at chosen
    have healthy' : Healthy c s := ⟨healthy.1,fun k => by rw [← cleaned.gone]; exact healthy.2 k⟩
    refine clean healthy' i chosen.1 (by rw [← (cleaned.fields i).1]; exact valid) ?_
    rcases cleaned.bufs i with same | same <;> rw [same] at chosen <;> exact chosen.2.1.2
  · exact .inl (if_neg chosen)

theorem Inv.discards (which : Nat → Bool) (gone : ∀ d, which d → isGone c s d) : Inv c pending (discard c s which) := by
  refine inv.shed _ fun i => ?_
  dsimp only
  split
  · rename_i chosen
    have lost := gone _ chosen.2.2
    by_cases free : (s.bufs i).refcnt = 0
    · refine .inr (.inl ⟨by simp [free],free,fun healthy => ?_⟩)
      exact absurd ((healthy.2 _).symm.trans lost) (by decide)
    · exact .inr (.inr ⟨by simp [free,chosen.2.1],lost⟩)
  · exact .inl rfl

theorem Inv.unplug (disk : Nat) : Inv c pending {s with gone := update s.gone disk true} := by
  have unhealthy : ¬ Healthy c {s with gone := update s.gone disk true} := by
    intro healthy
    have := healthy.2 disk
    simp at this
  refine ⟨inv.apart,inv.unique,?_,inv.locked,inv.held,inv.bound,fun healthy => absurd healthy unhealthy⟩
  intro i inRange valid
  have ok := inv.ok i inRange valid
  refine ⟨ok.inside,fun clean untouched notPending plugged => ok.clean clean untouched notPending ?_,
    ok.dirty,fun healthy => absurd healthy unhealthy⟩
  by_cases same : (c.devs (s.bufs i).dev).disk = disk
  · simp [isGone,same] at plugged
  · simpa [isGone,same] using plugged

theorem Inv.use (d : Nat) (clear : Clear c s d) : Inv c pending (s.use d) := by
  have more : ∀ e, s.used e → (s.use d).used e := by
    intro e used
    by_cases same : e = d
    · simp [State.use,same]
    · simpa [State.use,same] using used
  refine ⟨?_,inv.unique,?_,inv.locked,inv.held,inv.bound,?_⟩
  · intro e used f usedToo other
    simp only [State.use] at used usedToo
    by_cases ed : e = d
    · subst ed
      exact clear f (by simpa [other] using usedToo) other
    have before : s.used e := by simpa [ed] using used
    by_cases fd : f = d
    · subst fd
      exact (clear e before ed).symm
    · exact inv.apart e before f (by simpa [fd] using usedToo) other
  · intro i inRange valid
    have ok := inv.ok i inRange valid
    exact ⟨⟨ok.inside.1,more _ ok.inside.2⟩,ok.clean,ok.dirty,ok.kept⟩
  · intro healthy e lba clearE inside free
    exact inv.settled healthy e lba (fun f used => clearE f (more f used)) inside free

end

theorem Initial.inv (initial : Initial c s) : Inv c (fun _ => False) s := by
  obtain ⟨blank,fresh,unused⟩ := initial
  have none : ∀ i, (s.bufs i).valid ≠ true := fun i => by simp [(blank i).1]
  exact ⟨fun d used => absurd used (by simp [unused]),fun i _ _ _ valid => absurd valid (none i),
    fun i _ valid => absurd valid (none i),fun i _ locked => by simp [(blank i).2.2.1] at locked,
    fun i _ touched => by simp [(blank i).2.2.2] at touched,fun _ => False.elim,
    fun _ d lba _ _ _ => (fresh d lba).symm⟩

end

def unlocked (c : Setup D) (s : State D) : List Nat := (range c.nbuf).filter fun i => (s.bufs i).refcnt = 0

/-- What a range of `count` sectors may need: a buffer for each, no disk gone that it writes or reads, and memory and
no error from every event it can come to. -/
structure Ample (c : Setup D) (s : State D) (d count : Nat) : Prop where
  buffers : count ≤ (unlocked c s).length
  plugged : isGone c s d = false
  evicts : ∀ i, i < c.nbuf → (s.bufs i).valid → (s.bufs i).dirty → isGone c s (s.bufs i).dev = false
  works : ∀ k, s.ticks ≤ k → k ≤ s.ticks + 3 * count → (c.events k).fails = false ∧ (c.events k).memory

/-- What keeps `get_range` from failing once it has bound a buffer: it is refused at once, finds every sector cached,
or has all that it may need. -/
structure Secure (c : Setup D) (s : State D) (d lba count : Nat) : Prop where
  short : lba + count < 2^64
  way : (maxRangeCount < count ∨ (c.devs d).sectorCount < lba + count ∨ (c.events s.ticks).memory = false) ∨
    (∀ k, k < count → ∃ i, i < c.nbuf ∧ holds (s.bufs i) d (lba + k)) ∨ Ample c s d count

/-- The cache is called only for devices that share no sector with another one it was called
for, and for ranges that are secure. -/
def Guarded (c : Setup D) (s : State D) : Action D → Prop
  | .get d _ => Clear c s d
  | .getRange d lba count => Clear c s d ∧ Secure c s d lba count
  | .flush (some d) => Clear c s d
  | .release (some d) => Clear c s d
  | _ => True

section
variable {c : Setup D} {s t : State D} {d i lba : Nat}

theorem claim_self (s : State D) (i d lba : Nat) : (s.claim i d lba).bufs i =
    ⟨d,lba,true,false,1,s.clock + 1,(s.bufs i).data,(s.bufs i).touched⟩ := setBuf_self s i _

theorem claim_other (s : State D) (i d lba j : Nat) (other : j ≠ i) : (s.claim i d lba).bufs j = s.bufs j :=
  setBuf_other s i j _ other

theorem unlocked_less (i : Nat) (same : ∀ j, j ≠ i → (t.bufs j).refcnt = (s.bufs j).refcnt) :
    (unlocked c s).length ≤ (unlocked c t).length + 1 := by
  have covered : unlocked c s ⊆ i :: unlocked c t := by
    intro j free
    obtain ⟨inRange,zero⟩ := mem_filter.mp free
    by_cases here : j = i
    · exact mem_cons.mpr (.inl here)
    · exact mem_cons_of_mem i (mem_filter.mpr ⟨inRange,by rwa [same j here]⟩)
  have distinct : (unlocked c s).Nodup := nodup_range.filter _
  exact (distinct.subperm covered).length_le

theorem pickLoop_none (list : List Nat) (bestClean bestDirty : Option Nat)
    (none : pickLoop s list bestClean bestDirty = none) :
    (bestClean = .none ∧ bestDirty = .none) ∧ ∀ j ∈ list, (s.bufs j).refcnt ≠ 0 := by
  have some (best : Option Nat) (k : Nat) : older s best k ≠ .none := by
    unfold older
    split
    · exact nofun
    · split <;> exact nofun
  induction list generalizing bestClean bestDirty with
  | nil => exact ⟨or_eq_none_iff.mp none,by simp⟩
  | cons k rest ih =>
    unfold pickLoop at none
    split at none
    · next locked =>
      obtain ⟨empty,all⟩ := ih bestClean bestDirty none
      exact ⟨empty,fun j member => (mem_cons.mp member).elim (fun same => same ▸ locked) (all j)⟩
    split at none
    · cases none
    split at none
    · exact absurd (ih _ _ none).1.2 (some _ _)
    · exact absurd (ih _ _ none).1.1 (some _ _)

theorem pickVictim_some (free : 0 < (unlocked c s).length) : ∃ i, pickVictim c s = some i := by
  cases picked : pickVictim c s with
  | some i => exact ⟨i,rfl⟩
  | none =>
    obtain ⟨j,member⟩ := exists_mem_of_length_pos free
    obtain ⟨inRange,zero⟩ := mem_filter.mp member
    exact absurd (by simpa using zero) ((pickLoop_none _ _ _ picked).2 j inRange)

theorem writeback_ticks (c : Setup D) (s : State D) (i : Nat) :
    s.ticks ≤ (writeback c s i).2.ticks ∧ (writeback c s i).2.ticks ≤ s.ticks + 1 := by
  have one : s.ticks ≤ s.tick.ticks ∧ s.tick.ticks ≤ s.ticks + 1 := ⟨Nat.le_succ _,Nat.le_refl _⟩
  unfold writeback
  dsimp only
  split
  · exact ⟨Nat.le_refl _,Nat.le_succ _⟩
  split
  · exact ⟨Nat.le_refl _,Nat.le_succ _⟩
  rcases blockWrite_cases c s (s.bufs i).dev (s.bufs (firstOfRun c s (s.bufs i).dev (maxRun c (s.bufs i).dev - 1) i)).lba
    ((runOf c s i).map fun p => (s.bufs p).data) with ⟨e,refused⟩ | ⟨e,ys,-,-,failed⟩ | wrote
  · rw [refused]
    exact ⟨Nat.le_refl _,Nat.le_succ _⟩
  · rw [failed]
    exact one
  · rw [wrote]
    exact one

theorem scatter_timed (s : State D) (run : List Nat) (xs : List D) :
    (s.scatter run xs).ticks = s.ticks ∧ (s.scatter run xs).gone = s.gone := by
  induction run generalizing s xs with
  | nil => exact ⟨rfl,rfl⟩
  | cons i run ih =>
    cases xs with
    | nil => exact ⟨rfl,rfl⟩
    | cons x xs => exact ih (s.setData i x) xs

/-- Phase 1 with a buffer for every sector: it locks them all, with a request for each at most. -/
theorem lockRange_ample (count : Nat) (out : List (Nat × Bool)) (s : State D)
    (locking : Locking c d lba out s) (fits : lba + out.length + count ≤ (c.devs d).sectorCount)
    (room : count ≤ (unlocked c s).length)
    (evicts : ∀ i, i < c.nbuf → (s.bufs i).valid → (s.bufs i).dirty → isGone c s (s.bufs i).dev = false)
    (works : ∀ k, s.ticks ≤ k → k < s.ticks + count → (c.events k).fails = false) :
    let r := lockRange c d lba count out s
    r.1 = none ∧ r.2.1.length = out.length + count ∧ r.2.2.gone = s.gone ∧ s.ticks ≤ r.2.2.ticks ∧
      r.2.2.ticks ≤ s.ticks + count := by
  induction count generalizing out s with
  | zero => exact ⟨rfl,rfl,rfl,Nat.le_refl _,Nat.le_refl _⟩
  | succ count ih =>
    have whole := (c.devs d).inside
    unfold lockRange
    rw [Nat.mod_eq_of_lt (show lba + out.length < 2^64 by omega)]
    have longer (e : Nat × Bool) : (out ++ [e]).length = out.length + 1 := length_append
    split
    · next i found =>
      obtain ⟨inRange,hit⟩ := findBuffer_some found
      have other : ∀ j, j ≠ i → (s.lock i).bufs j = s.bufs j := fun j ji => setBuf_other s i j _ ji
      have self : (s.lock i).bufs i = {s.bufs i with refcnt := (s.bufs i).refcnt + 1, lastUse := s.clock + 1} :=
        setBuf_self s i _
      have fewer := unlocked_less (c := c) (s := s) (t := s.lock i) i fun j ji => by rw [other j ji]
      obtain ⟨done,length,gone,low,high⟩ := ih (out ++ [(i,false)]) (s.lock i) (locking.lock i inRange hit)
        (by rw [longer]; omega) (by omega)
        (fun j jRange valid dirty => by
          by_cases ji : j = i
          · rw [ji,self] at valid dirty ⊢
            exact evicts i inRange valid dirty
          · rw [other j ji] at valid dirty ⊢
            exact evicts j jRange valid dirty)
        (fun k low high => works k low (by change k < s.ticks + count at high; omega))
      rw [longer] at length
      change _ ≤ s.ticks + count at high
      exact ⟨done,by omega,gone,low,by omega⟩
    rename_i missing
    obtain ⟨i,picked⟩ := pickVictim_some (c := c) (s := s) (by omega)
    rw [picked]
    obtain ⟨inRange,free⟩ := pickVictim_free picked
    obtain ⟨evicted,cleaned,safe⟩ := locking.inv.evict i picked ((s.bufs i).valid && (s.bufs i).dirty)
      (fun healthy valid dirty => by simp [valid,dirty]) (fun writes => by simp_all)
    have ok : (if (s.bufs i).valid && (s.bufs i).dirty then writeback c s i else (.ok (),s)).1 = .ok () := by
      split
      · next chosen =>
        obtain ⟨valid,dirty⟩ := Bool.and_eq_true_iff.mp chosen
        exact locking.inv.writeback_ok (works _ (Nat.le_refl _) (by omega)) i (evicts i inRange valid dirty) inRange valid
      · rfl
    have time : s.ticks ≤ (if (s.bufs i).valid && (s.bufs i).dirty then writeback c s i else (.ok (),s)).2.ticks ∧
        (if (s.bufs i).valid && (s.bufs i).dirty then writeback c s i else (.ok (),s)).2.ticks ≤ s.ticks + 1 := by
      split
      · exact writeback_ticks c s i
      · exact ⟨Nat.le_refl _,Nat.le_succ _⟩
    dsimp only
    split
    · next failed =>
      rw [failed] at ok
      cases ok
    next t wrote =>
    rw [wrote] at evicted cleaned safe time
    dsimp only at time
    have other := claim_other t i d (lba + out.length)
    have fewer := unlocked_less (c := c) (s := s) (t := t.claim i d (lba + out.length)) i fun j ji => by
      rw [other j ji]
      exact (cleaned.fields j).2.1
    obtain ⟨done,length,gone,low,high⟩ := ih (out ++ [(i,true)]) (t.claim i d (lba + out.length))
      ((locking.cleaned evicted cleaned).claim i inRange (by rw [(cleaned.fields i).2.1]; exact free) (by omega)
        (fun j jRange => by rw [(cleaned.fields j).2.2.2.2]; exact findBuffer_none missing j jRange) (safe rfl))
      (by rw [longer]; omega) (by omega)
      (fun j jRange valid dirty => by
        by_cases ji : j = i
        · rw [ji,claim_self] at dirty
          cases dirty
        · rw [other j ji] at valid dirty ⊢
          show t.gone _ = false
          rw [cleaned.gone]
          rcases cleaned.bufs j with same | same
          · rw [same] at valid dirty ⊢
            exact evicts j jRange valid dirty
          · rw [same] at dirty
            cases dirty)
      (fun k low high => works k (Nat.le_trans time.1 low) (by change k < t.ticks + count at high; omega))
    rw [longer] at length
    change t.ticks ≤ _ at low
    change _ ≤ t.ticks + count at high
    exact ⟨done,by omega,gone.trans cleaned.gone,by omega,by omega⟩

theorem fillRun_ok (lba : Nat) (run : List Nat) (s : State D) (some : run ≠ []) (few : run.length ≤ maxRangeChunk)
    (fits : lba + run.length ≤ (c.devs d).sectorCount) (plugged : isGone c s d = false)
    (memory : (c.events s.ticks).memory) (works : (c.events (s.ticks + 1)).fails = false) :
    (fillRun c d lba run s).1 = .ok () ∧ (fillRun c d lba run s).2.ticks = s.ticks + 2 ∧
      (fillRun c d lba run s).2.gone = s.gone := by
  have whole := (c.devs d).inside
  have positive := length_pos_iff.mpr some
  have read : blockRead c s.tick d lba run.length =
      (.ok (Memory.slice (s.disk (c.devs d).disk) (place c d lba) run.length),s.tick.tick) := by
    unfold blockRead
    have there : isGone c s.tick d = false := plugged
    have good : (c.events s.tick.ticks).fails = false := works
    rw [if_neg (by rw [Nat.mod_eq_of_lt (by omega)]; omega),there,good]
    rfl
  obtain ⟨i,rest,rfl⟩ := exists_cons_of_ne_nil some
  have timed := scatter_timed s.tick.tick (i :: rest) (Memory.slice (s.disk (c.devs d).disk) (place c d lba) (i :: rest).length)
  have filled : fillRun c d lba (i :: rest) s = (.ok (),s.tick.tick.scatter (i :: rest)
      (Memory.slice (s.disk (c.devs d).disk) (place c d lba) (i :: rest).length)) := by
    unfold fillRun
    rw [memory,if_neg (show ¬ maxRangeChunk < (i :: rest).length by omega)]
    dsimp only
    rw [if_neg (by simp),length_cons,fillChunks]
    · rw [← length_cons,if_neg (Nat.lt_irrefl _),read]
      dsimp only
      rw [drop_length,take_length]
      cases rest.length <;> rfl
    · exact nofun
  rw [filled]
  exact ⟨rfl,timed⟩

/-- Phase 2 where every event is a good one. -/
theorem fillMisses_ample (fuel lba : Nat) (entries : List (Nat × Bool)) (s : State D)
    (fits : lba + entries.length ≤ (c.devs d).sectorCount) (plugged : isGone c s d = false)
    (works : ∀ k, s.ticks ≤ k → k < s.ticks + 2 * entries.length → (c.events k).fails = false ∧ (c.events k).memory) :
    (fillMisses c d fuel lba entries s).1 = .ok () := by
  induction fuel generalizing lba entries s with
  | zero => rfl
  | succ fuel ih =>
    match entries with
    | [] => rfl
    | (i,false) :: rest =>
      simp only [length_cons] at fits works
      exact ih (lba + 1) rest s (by omega) plugged fun k low high => works k low (by omega)
    | (i,true) :: rest =>
      generalize isRun : (((i,true) :: rest).takeWhile Prod.snd).map Prod.fst = run
      generalize isSize : (if maxRangeChunk < run.length then maxRangeChunk else run.length) = n
      have nonempty : 0 < run.length := by simp [← isRun]
      have bounds : 0 < n ∧ n ≤ run.length ∧ n ≤ maxRangeChunk := by
        have positive : 0 < maxRangeChunk := by decide
        split at isSize <;> omega
      have whole : run.length ≤ ((i,true) :: rest).length := by
        rw [← isRun,length_map]
        exact ( takeWhile_prefix Prod.snd).length_le
      have length : (run.take n).length = n := length_take_of_le bounds.2.1
      obtain ⟨ok,ticks,gone⟩ := fillRun_ok lba (run.take n) s (length_pos_iff.mp (by omega)) (by omega) (by omega) plugged
        (works _ (Nat.le_refl _) (by omega)).2 (works (s.ticks + 1) (by omega) (by omega)).1
      unfold fillMisses
      simp only [isRun,isSize]
      rw [Prod.fst_eq_iff.mp ok]
      refine ih (lba + n) (((i,true) :: rest).drop n) _ (by rw [length_drop]; omega) ?_ fun k low high => ?_
      · exact (congrFun gone _).trans plugged
      · rw [ticks] at low high
        rw [length_drop] at high
        exact works k (by omega) (by omega)

theorem lockRange_cached (count : Nat) (out : List (Nat × Bool)) (s : State D)
    (short : lba + out.length + count < 2^64) (hits : ∀ e ∈ out, e.2 = false)
    (cached : ∀ k, k < count → ∃ i, i < c.nbuf ∧ holds (s.bufs i) d (lba + out.length + k)) :
    (lockRange c d lba count out s).1 = none ∧ ∀ e ∈ (lockRange c d lba count out s).2.1, e.2 = false := by
  induction count generalizing out s with
  | zero => exact ⟨rfl,hits⟩
  | succ count ih =>
    unfold lockRange
    rw [Nat.mod_eq_of_lt (show lba + out.length < 2^64 by omega)]
    have longer (e : Nat × Bool) : (out ++ [e]).length = out.length + 1 := length_append
    split
    · next i found =>
      refine ih (out ++ [(i,false)]) (s.lock i) (by rw [longer]; omega) (fun e member => ?_) fun k small => ?_
      · rcases mem_append.mp member with before | now
        · exact hits e before
        · rw [mem_singleton.mp now]
      · obtain ⟨j,jRange,hit⟩ := cached (k + 1) (by omega)
        refine ⟨j,jRange,?_⟩
        rw [longer,show lba + (out.length + 1) + k = lba + out.length + (k + 1) by omega]
        by_cases ji : j = i
        · subst ji
          simpa [State.lock,holds] using hit
        · rw [show (s.lock i).bufs j = s.bufs j from setBuf_other s i j _ ji]
          exact hit
    · next missing =>
      obtain ⟨j,jRange,hit⟩ := cached 0 (by omega)
      rw [Nat.add_zero,findBuffer_none missing j jRange] at hit
      cases hit

theorem fillMisses_cached (fuel lba : Nat) (entries : List (Nat × Bool)) (s : State D)
    (hits : ∀ e ∈ entries, e.2 = false) : (fillMisses c d fuel lba entries s).1 = .ok () := by
  induction fuel generalizing lba entries with
  | zero => rfl
  | succ fuel ih =>
    match entries with
    | [] => rfl
    | (i,false) :: rest => exact ih (lba + 1) rest fun e member => hits e (mem_cons_of_mem _ member)
    | (i,true) :: rest => exact absurd (hits _ (mem_cons_self ..)) (by simp)

theorem Inv.secures (inv : Inv c (fun _ => False) s) (used : s.used d) (count : Nat) (secure : Secure c s d lba count) :
    ¬ Abandons c s d lba count := by
  rintro ⟨positive,few,fits,memory,broke⟩
  rcases secure.way with (many | beyond | none) | cached | ample
  · omega
  · omega
  · rw [none] at memory
    cases memory
  · obtain ⟨done,hits⟩ := lockRange_cached count [] s.tick (by simpa using secure.short) (by simp) (by simpa using cached)
    revert broke
    rcases result : lockRange c d lba count [] s.tick with ⟨err,out,t⟩
    rw [result] at done hits
    obtain rfl : err = .none := done
    rintro ⟨e,failed⟩
    rw [fillMisses_cached _ _ _ _ hits] at failed
    cases failed
  · have start : Locking c d lba [] s.tick := .start inv.tick d lba used
    have calm (k : Nat) (low : s.tick.ticks ≤ k) (high : k < s.ticks + 1 + 3 * count) :
        (c.events k).fails = false ∧ (c.events k).memory := ample.works k (by change s.ticks + 1 ≤ k at low; omega) (by omega)
    obtain ⟨done,length,gone,low,high⟩ := lockRange_ample count [] s.tick start (by simpa using fits) ample.buffers
      ample.evicts fun k low high => (calm k low (by change k < s.ticks + 1 + count at high; omega)).1
    revert broke
    rcases result : lockRange c d lba count [] s.tick with ⟨err,out,t⟩
    rw [result] at done length gone low high
    obtain rfl : err = .none := done
    change _ ≤ s.ticks + 1 + count at high
    replace length : out.length = count := by simpa using length
    rintro ⟨e,failed⟩
    rw [fillMisses_ample out.length lba out t (by omega) ((congrFun gone _).trans ample.plugged)
      fun k low' high' => calm k (Nat.le_trans low low') (by dsimp only at high; omega)] at failed
    cases failed

end

theorem use_used (s : State D) (d : Nat) : (s.use d).used d := by simp [State.use]

theorem step_inv (c : Setup D) (s : State D) (a : Action D) (t : State D) (inv : Inv c (fun _ => False) s)
    (guarded : Guarded c s a) (taken : Step c s a t) : Inv c (fun _ => False) t := by
  simp only [Step,step,ite_none_right_eq_some,some.injEq] at taken
  obtain ⟨admitted,rfl⟩ := taken
  cases a with
  | get d lba => exact ((inv.use d guarded).gets d lba (use_used s d)).1
  | getRange d lba count =>
    have used := inv.use d guarded.1
    have secure : Secure c (s.use d) d lba count := ⟨guarded.2.short,guarded.2.way.imp_right fun way =>
      way.imp_right fun ample => ⟨ample.buffers,ample.plugged,ample.evicts,ample.works⟩⟩
    exact (used.getsRange d lba count (use_used s d) secure.short (used.secures (use_used s d) count secure)).1
  | modify i x =>
    simp only [admits,Bool.and_eq_true,decide_eq_true_eq] at admitted
    obtain ⟨inRange,locked⟩ := admitted
    have valid := inv.locked i inRange locked
    have ok := inv.ok i inRange valid
    exact inv.rework i inRange valid _ (by simp [holds,valid]) _ (fun _ _ => Iff.rfl)
      ⟨ok.inside,fun _ untouched => Bool.noConfusion untouched,fun _ untouched => Bool.noConfusion untouched,
        fun _ _ untouched => Bool.noConfusion untouched⟩ (fun _ => locked) False.elim
  | put i dirty =>
    simp only [admits,Bool.and_eq_true,decide_eq_true_eq] at admitted
    obtain ⟨⟨inRange,locked⟩,last⟩ := admitted
    cases dirty with
    | true => exact inv.put_dirty i inRange locked
    | false =>
      refine inv.put_clean i inRange (inv.locked i inRange locked) fun touched => ?_
      simpa [touched] using last
  | flush dev =>
    cases dev with
    | none => exact (inv.flushes none).1
    | some d => exact ((inv.use d guarded).flushes (some d)).1
  | release dev =>
    cases dev with
    | none => exact inv.releases none
    | some d => exact (inv.use d guarded).releases (some d)
  | discard d =>
    refine inv.discards (· == d) fun e same => ?_
    rw [beq_iff_eq.mp same]
    exact admitted
  | unplug disk =>
    refine (inv.unplug disk).discards (fun d => (c.devs d).disk == disk) fun e same => ?_
    simp [isGone,beq_iff_eq.mp same]

/-- One buffer for a sector; a clean one agrees with its disk while that is plugged in, a
dirty one has what was put last, both unless a holder is changing it right now. -/
structure Coherent (c : Setup D) (s : State D) : Prop where
  single : ∀ i j, i < c.nbuf → j < c.nbuf → (s.bufs i).valid → (s.bufs j).valid →
    (s.bufs i).dev = (s.bufs j).dev → (s.bufs i).lba = (s.bufs j).lba → i = j
  clean : ∀ i, i < c.nbuf → (s.bufs i).valid → (s.bufs i).dirty = false →
    isGone c s (s.bufs i).dev = false → (s.bufs i).touched = false →
    (s.bufs i).data = sector c s (s.bufs i).dev (s.bufs i).lba
  dirty : ∀ i, i < c.nbuf → (s.bufs i).valid → (s.bufs i).dirty →
    (s.bufs i).touched = false → (s.bufs i).data = s.last (s.bufs i).dev (s.bufs i).lba

theorem runs_inv (c : Setup D) (s : State D) (reached : Reach (Initial c) (Guarded c) (Step c) s) :
    Inv c (fun _ => False) s :=
  Reach.invariant (Inv c fun _ => False) (fun _ initial => initial.inv) (step_inv c) s reached

theorem runs_coherent (c : Setup D) (s : State D) (reached : Reach (Initial c) (Guarded c) (Step c) s) :
    Coherent c s := by
  have inv := runs_inv c s reached
  refine ⟨inv.unique,?_,?_⟩
  · intro i inRange valid clean plugged untouched
    exact (inv.ok i inRange valid).clean clean untouched id plugged
  · intro i inRange valid dirty untouched
    exact (inv.ok i inRange valid).dirty dirty untouched

def smallSetup (events : Nat → Event Nat) : Setup Nat := ⟨2,fun _ => ⟨0,0,4,512,by decide⟩,[0],events⟩

def smallState : State Nat :=
  ⟨fun _ => ⟨0,0,false,false,0,0,0,false⟩,0,fun _ _ => 5,fun _ => false,0,fun _ _ => 5,fun _ => false⟩

theorem smallState_initial (events : Nat → Event Nat) : Initial (smallSetup events) smallState :=
  ⟨fun _ => ⟨rfl,rfl,rfl,rfl⟩,fun _ _ => rfl,fun _ => rfl⟩

def allWell : Nat → Event Nat := fun _ => ⟨false,fun _ => 0,true⟩

theorem step_perform {c : Setup D} {s : State D} {a : Action D} (admitted : admits c s a) :
    Step c s a (perform c s a) := by
  simp [Step,step,admitted]

theorem smallSetup_clear (events : Nat → Event Nat) (s : State Nat)
    (only : (s.used = fun _ => false) ∨ s.used = update (fun _ => false) 0 true) : Clear (smallSetup events) s 0 := by
  intro e used other
  rcases only with same | same
  · simp [same] at used
  · simp [same,other] at used

def changedSector : State Nat :=
  let c := smallSetup allWell
  perform c (perform c (perform c smallState (.get 0 1)) (.modify 0 7)) (.put 0 true)

theorem runs_coherent_range : let c := smallSetup allWell
    let s := perform c changedSector (.getRange 0 0 2)
    Reach (Initial c) (Guarded c) (Step c) s ∧ (s.bufs 0).data = 7 ∧ (s.bufs 0).dirty ∧
      (s.bufs 1).data = 5 ∧ Coherent c s := by
  intro c s
  have put : Reach (Initial c) (Guarded c) (Step c) changedSector := by
    refine .next _ _ (.put 0 true) (.next _ _ (.modify 0 7) (.next _ _ (.get 0 1)
      (.start _ (smallState_initial allWell)) ?_ (step_perform rfl))
      trivial (step_perform rfl)) trivial (step_perform rfl)
    exact smallSetup_clear _ _ (.inl rfl)
  have range : Reach (Initial c) (Guarded c) (Step c) s := by
    refine .next _ _ (.getRange 0 0 2) put ⟨smallSetup_clear _ _ (.inr rfl),by decide,.inr (.inr ?_)⟩ (step_perform rfl)
    exact ⟨by decide,rfl,fun _ _ _ _ => rfl,fun _ _ _ => ⟨rfl,rfl⟩⟩
  exact ⟨range,by decide,by decide,by decide,runs_coherent c s range⟩

def readFails : Nat → Event Nat := fun t => ⟨t == 2,fun _ => 0,true⟩

/-- The buffers of the range stay bound to their sectors and were never filled. -/
theorem failed_range_incoherent :
    ¬ ∀ (c : Setup Nat) (s : State Nat), Reach (Initial c) (fun _ _ => True) (Step c) s → Coherent c s := by
  intro always
  have reached : Reach (Initial (smallSetup readFails)) (fun _ _ => True) (Step (smallSetup readFails))
      (perform (smallSetup readFails) smallState (.getRange 0 0 2)) :=
    .next _ _ (.getRange 0 0 2) (.start _ (smallState_initial readFails)) trivial (step_perform rfl)
  have clean := (always _ _ reached).clean 0 (by decide) (by decide) (by decide) (by decide) (by decide)
  exact absurd clean (by decide)

structure Quiet (s t : State D) : Prop where
  used : t.used = s.used
  gone : t.gone = s.gone
  last : t.last = s.last

theorem Quiet.trans {s t u : State D} (first : Quiet s t) (second : Quiet t u) : Quiet s u :=
  ⟨second.used.trans first.used,second.gone.trans first.gone,second.last.trans first.last⟩

theorem Quiet.ofEq {R : Type} {s t : State D} {result : R × State D} {r : R} (same : result = (r,t))
    (quiet : Quiet s result.2) : Quiet s t := by
  rwa [same] at quiet

section
variable (c : Setup D) (s : State D)
include c s

theorem writeback_quiet (i : Nat) : Quiet s (writeback c s i).2 := by
  unfold writeback
  dsimp only
  split
  · exact ⟨rfl,rfl,rfl⟩
  split
  · exact ⟨rfl,rfl,rfl⟩
  rcases blockWrite_cases c s (s.bufs i).dev
      (s.bufs (firstOfRun c s (s.bufs i).dev (maxRun c (s.bufs i).dev - 1) i)).lba
      ((runOf c s i).map fun p => (s.bufs p).data) with
    ⟨e,refused⟩ | ⟨e,ys,_,_,failed⟩ | wrote
  · rw [refused]
    exact ⟨rfl,rfl,rfl⟩
  · rw [failed]
    exact ⟨rfl,rfl,rfl⟩
  · rw [wrote]
    exact ⟨rfl,rfl,rfl⟩

theorem evict_quiet (i : Nat) (writes : Bool) : Quiet s (if writes then writeback c s i else (.ok (),s)).2 := by
  cases writes
  · exact ⟨rfl,rfl,rfl⟩
  · exact writeback_quiet c s i

theorem blockRead_quiet (d lba n : Nat) : Quiet s (blockRead c s d lba n).2 := by
  rcases blockRead_cases c s d lba n with ⟨e,_,same | same⟩ | ⟨_,same⟩ <;> rw [same] <;>
    exact ⟨rfl,rfl,rfl⟩

end

theorem scatter_quiet (s : State D) (run : List Nat) (xs : List D) : Quiet s (s.scatter run xs) := by
  induction run generalizing s xs with
  | nil => exact ⟨rfl,rfl,rfl⟩
  | cons i run ih =>
    cases xs with
    | nil => exact ⟨rfl,rfl,rfl⟩
    | cons x xs =>
      have rest := ih (s.setData i x) xs
      exact ⟨rest.used,rest.gone,rest.last⟩

theorem putAll_quiet (s : State D) (ours : List Nat) : Quiet s (s.putAll ours) := by
  induction ours generalizing s with
  | nil => exact ⟨rfl,rfl,rfl⟩
  | cons i rest ih =>
    have after := ih (s.put i false)
    exact ⟨after.used,after.gone,after.last⟩

section
variable (c : Setup D)
include c

theorem get_quiet (s : State D) (d lba : Nat) : Quiet s (get c s d lba).2 := by
  unfold get
  split
  · exact ⟨rfl,rfl,rfl⟩
  split
  · exact ⟨rfl,rfl,rfl⟩
  split
  · exact ⟨rfl,rfl,rfl⟩
  rename_i i _
  have evicted := evict_quiet c s i ((s.bufs i).valid && (s.bufs i).dirty && !isGone c s (s.bufs i).dev)
  dsimp only
  split
  · rename_i failed
    rw [failed] at evicted
    exact evicted
  rename_i t wrote
  rw [wrote] at evicted
  have read := blockRead_quiet c (t.claim i d lba) d lba 1
  have bound : Quiet s (t.claim i d lba) := evicted.trans ⟨rfl,rfl,rfl⟩
  split
  · rename_i failed
    rw [failed] at read
    exact (bound.trans read).trans ⟨rfl,rfl,rfl⟩
  · rename_i done
    rw [done] at read
    exact (bound.trans read).trans (scatter_quiet _ _ _)

theorem lockRange_quiet (d lba count : Nat) (out : List (Nat × Bool)) (s : State D) :
    Quiet s (lockRange c d lba count out s).2.2 := by
  fun_induction lockRange c d lba count out s with
  | case1 | case3 => exact ⟨rfl,rfl,rfl⟩
  | case2 count out s i _ ih => exact (⟨rfl,rfl,rfl⟩ : Quiet s (s.lock i)).trans ih
  | case4 count out s _ i _ e t failed => exact .ofEq failed (evict_quiet c s i _)
  | case5 count out s _ i _ _ t wrote ih =>
    have evicted : Quiet s t := .ofEq wrote (evict_quiet c s i _)
    have bound : Quiet s (t.claim i d ((lba + out.length) % 2^64)) := evicted.trans ⟨rfl,rfl,rfl⟩
    exact bound.trans ih

theorem fillChunks_quiet (d chunk fuel lba : Nat) (run : List Nat) (s : State D) :
    Quiet s (fillChunks c d chunk fuel lba run s).2 := by
  fun_induction fillChunks c d chunk fuel lba run s with
  | case1 | case2 => exact ⟨rfl,rfl,rfl⟩
  | case3 fuel lba run s _ part e t failed => exact .ofEq failed (blockRead_quiet c s d lba _)
  | case4 fuel lba run s _ part xs t done ih =>
    have read : Quiet s t := .ofEq done (blockRead_quiet c s d lba _)
    exact (read.trans (scatter_quiet t _ xs)).trans ih

theorem fillRun_quiet (d lba : Nat) (run : List Nat) (s : State D) : Quiet s (fillRun c d lba run s).2 := by
  unfold fillRun
  dsimp only
  split
  · exact ⟨rfl,rfl,rfl⟩
  · have rest := fillChunks_quiet c d
      (if maxRangeChunk < run.length then maxRangeChunk else run.length) run.length lba run s.tick
    exact ⟨rest.used,rest.gone,rest.last⟩

theorem fillMisses_quiet (d fuel lba : Nat) (entries : List (Nat × Bool)) (s : State D) :
    Quiet s (fillMisses c d fuel lba entries s).2 := by
  induction fuel generalizing lba entries s with
  | zero => exact ⟨rfl,rfl,rfl⟩
  | succ fuel ih =>
    match entries with
    | [] => exact ⟨rfl,rfl,rfl⟩
    | (i,false) :: rest => exact ih (lba + 1) rest s
    | (i,true) :: rest =>
      unfold fillMisses
      dsimp only
      split
      · rename_i failed
        exact .ofEq failed (fillRun_quiet c d lba _ s)
      · rename_i t done
        have filled : Quiet s t := .ofEq done (fillRun_quiet c d lba _ s)
        exact filled.trans (ih _ _ _)

theorem getRange_quiet (s : State D) (d lba count : Nat) : Quiet s (getRange c s d lba count).2 := by
  unfold getRange
  split
  · exact ⟨rfl,rfl,rfl⟩
  split
  · exact ⟨rfl,rfl,rfl⟩
  split
  · exact ⟨rfl,rfl,rfl⟩
  split
  · exact ⟨rfl,rfl,rfl⟩
  have locked := lockRange_quiet c d lba count [] s.tick
  have started : Quiet s s.tick := ⟨rfl,rfl,rfl⟩
  split
  · rename_i failed
    rw [failed] at locked
    exact (started.trans locked).trans (putAll_quiet _ _)
  rename_i out t done
  rw [done] at locked
  have filled := fillMisses_quiet c d out.length lba out t
  split
  · rename_i failed
    rw [failed] at filled
    exact ((started.trans locked).trans filled).trans (putAll_quiet _ _)
  · rename_i filledAll
    rw [filledAll] at filled
    exact (started.trans locked).trans filled

end

theorem getRange_keeps {c : Setup D} {s t : State D} {d lba count : Nat} {out : List Nat}
    (got : getRange c s d lba count = (.ok out,t)) : ¬ Abandons c s d lba count := by
  rintro ⟨positive,-,-,-,broke⟩
  revert got
  fun_cases getRange c s d lba count with
  | case1 zero => exact absurd zero positive
  | case7 _ _ _ _ _ _ locked _ _ filled =>
    rw [locked] at broke
    obtain ⟨e,failed⟩ := broke
    rw [filled] at failed
    cases failed
  | _ => nofun

/-- The cache as a flat array with the values `last`: what a get or a range shows is what was
put last, and after a flush it is on the disk, unless a holder is changing the sector. -/
structure Lossless (c : Setup D) (s : State D) : Prop where
  seen : ∀ d lba i t, Clear c s d → get c (s.use d) d lba = (.ok i,t) → (t.bufs i).touched = false →
    (t.bufs i).data = s.last d lba
  seenRange : ∀ d lba count out t, Clear c s d → lba + count < 2^64 → getRange c (s.use d) d lba count = (.ok out,t) →
    ∀ k i, out[k]? = some i → (t.bufs i).touched = false → (t.bufs i).data = s.last d (lba + k)
  flushed : ∀ dev t, (∀ d, dev = some d → Clear c s d) → flush c (s.useSome dev) dev = (none,t) →
    ∀ d lba, concerns dev d → (s.useSome dev).used d → lba < (c.devs d).sectorCount →
    (∀ i, i < c.nbuf → holds (t.bufs i) d lba → (t.bufs i).touched = false) →
    sector c t d lba = s.last d lba

theorem Inv.shows {c : Setup D} {s : State D} (inv : Inv c (fun _ => False) s) (healthy : Healthy c s)
    {d lba i : Nat} (inRange : i < c.nbuf) (hit : holds (s.bufs i) d lba)
    (untouched : (s.bufs i).touched = false) : (s.bufs i).data = s.last d lba := by
  obtain ⟨valid,rfl,rfl⟩ := (holds_iff _ _ _).mp hit
  have ok := inv.ok i inRange valid
  cases dirty : (s.bufs i).dirty with
  | true => exact ok.dirty dirty untouched
  | false => exact (ok.clean dirty untouched id (healthy.2 _)).trans (ok.kept healthy dirty untouched)

theorem Inv.useSome {c : Setup D} {pending : Nat → Prop} {s : State D} (inv : Inv c pending s)
    (dev : Option Nat) (clear : ∀ d, dev = some d → Clear c s d) : Inv c pending (s.useSome dev) := by
  cases dev with
  | none => exact inv
  | some d => exact inv.use d (clear d rfl)

theorem useSome_quiet (s : State D) (dev : Option Nat) :
    (s.useSome dev).gone = s.gone ∧ (s.useSome dev).last = s.last := by
  cases dev <;> exact ⟨rfl,rfl⟩

theorem Inv.lossless {c : Setup D} {s : State D} (inv : Inv c (fun _ => False) s)
    (healthy : Healthy c s) : Lossless c s where
  seen := by
    intro d lba i t clear got untouched
    have after := (inv.use d clear).gets d lba (use_used s d)
    have quiet := get_quiet c (s.use d) d lba
    rw [got] at after quiet
    obtain ⟨inRange,hit⟩ := after.2 i rfl
    have same := after.1.shows ⟨healthy.1,fun k => by rw [quiet.gone]; exact healthy.2 k⟩ inRange hit untouched
    rwa [quiet.last] at same
  seenRange := by
    intro d lba count out t clear short got k i found untouched
    have after := (inv.use d clear).getsRange d lba count (use_used s d) short (getRange_keeps got)
    have quiet := getRange_quiet c (s.use d) d lba count
    rw [got] at after quiet
    obtain ⟨inRange,hit⟩ := after.2 out rfl k i found
    have same := after.1.shows ⟨healthy.1,fun k => by rw [quiet.gone]; exact healthy.2 k⟩ inRange hit untouched
    rwa [quiet.last] at same
  flushed := by
    intro dev t clear done d lba ours used inside untouched
    have healthy' : Healthy c (s.useSome dev) :=
      ⟨healthy.1,fun k => by rw [(useSome_quiet s dev).1]; exact healthy.2 k⟩
    obtain ⟨after,cleaned,clean⟩ := (inv.useSome dev clear).flushes dev
    rw [done] at after cleaned clean
    have healthyAfter : Healthy c t := ⟨healthy.1,fun k => by rw [cleaned.gone]; exact healthy'.2 k⟩
    have last : t.last = s.last := cleaned.last.trans (useSome_quiet s dev).2
    rw [← last]
    by_cases held : ∃ i, i < c.nbuf ∧ holds (t.bufs i) d lba = true
    · obtain ⟨i,inRange,hit⟩ := held
      have before : holds ((s.useSome dev).bufs i) d lba := by
        rw [← (cleaned.fields i).2.2.2.2]
        exact hit
      obtain ⟨wasValid,wasDev,_⟩ := (holds_iff _ _ _).mp before
      have isClean := clean healthy' i inRange wasValid (by rw [wasDev]; exact ours)
      obtain ⟨valid,rfl,rfl⟩ := (holds_iff _ _ _).mp hit
      exact (after.ok i inRange valid).kept healthyAfter isClean (untouched i inRange hit)
    · refine after.settled healthyAfter d lba (after.apart d ?_) inside fun i inRange => ?_
      · rw [cleaned.used]
        exact used
      · by_contra hit
        exact held ⟨i,inRange,by simpa using hit⟩

def Plugged (c : Setup D) (s : State D) : Prop := Initial c s ∧ ∀ k, s.gone k = false

def Calm (c : Setup D) (s : State D) (a : Action D) : Prop := Guarded c s a ∧ ∀ k, a ≠ .unplug k

theorem perform_gone (c : Setup D) (s : State D) (a : Action D) (inv : Inv c (fun _ => False) s)
    (calm : Calm c s a) : (perform c s a).gone = s.gone := by
  obtain ⟨guarded,plugged⟩ := calm
  cases a with
  | get d lba => exact (get_quiet c (s.use d) d lba).gone
  | getRange d lba count => exact (getRange_quiet c (s.use d) d lba count).gone
  | modify i x => rfl
  | put i dirty => rfl
  | flush dev =>
    have clear : ∀ d, dev = some d → Clear c s d := by
      rintro d rfl
      exact guarded
    exact ((inv.useSome dev clear).flushes dev).2.1.gone.trans (useSome_quiet s dev).1
  | release dev =>
    have clear : ∀ d, dev = some d → Clear c s d := by
      rintro d rfl
      exact guarded
    exact ((inv.useSome dev clear).flushes dev).2.1.gone.trans (useSome_quiet s dev).1
  | discard d => rfl
  | unplug k => exact absurd rfl (plugged k)

theorem runs_lossless (c : Setup D) (works : ∀ t, (c.events t).fails = false) (s : State D)
    (reached : Reach (Plugged c) (Calm c) (Step c) s) : Lossless c s := by
  have both : Inv c (fun _ => False) s ∧ ∀ k, s.gone k = false := by
    refine Reach.invariant (fun s => Inv c (fun _ => False) s ∧ ∀ k, s.gone k = false) ?_ ?_ s reached
    · rintro s ⟨initial,plugged⟩
      exact ⟨initial.inv,plugged⟩
    rintro s a t ⟨inv,plugged⟩ calm taken
    refine ⟨step_inv c s a t inv calm.1 taken,fun k => ?_⟩
    simp only [Step,step,ite_none_right_eq_some,some.injEq] at taken
    obtain ⟨_,rfl⟩ := taken
    rw [perform_gone c s a inv calm]
    exact plugged k
  exact both.1.lossless ⟨works,both.2⟩

theorem runs_lossless_put : let c := smallSetup allWell
    Reach (Plugged c) (Calm c) (Step c) changedSector ∧ changedSector.last 0 1 = 7 ∧
      ((get c (changedSector.use 0) 0 1).2.bufs 0).data = 7 ∧ Lossless c changedSector := by
  intro c
  have reached : Reach (Plugged c) (Calm c) (Step c) changedSector := by
    refine .next _ _ (.put 0 true) (.next _ _ (.modify 0 7) (.next _ _ (.get 0 1)
      (.start _ ⟨smallState_initial allWell,fun _ => rfl⟩) ⟨?_,?_⟩ (step_perform rfl))
      ⟨trivial,?_⟩ (step_perform rfl)) ⟨trivial,?_⟩ (step_perform rfl)
    · exact smallSetup_clear _ _ (.inl rfl)
    all_goals
      intro k other
      cases other
  exact ⟨reached,by decide,by decide,runs_lossless c (fun _ => rfl) _ reached⟩

def scratchFails : Nat → Event Nat := fun t => ⟨false,fun _ => 0,t != 1⟩

/-- No disk fails, and still the sectors of a range that was not handed out are lost to the
next get. -/
theorem failed_range_loses : ¬ ∀ (c : Setup Nat), (∀ t, (c.events t).fails = false) → ∀ s,
      Reach (Plugged c) (fun _ a => ∀ k, a ≠ .unplug k) (Step c) s → Lossless c s := by
  intro always
  have reached : Reach (Plugged (smallSetup scratchFails)) (fun _ a => ∀ k, a ≠ .unplug k)
      (Step (smallSetup scratchFails))
      (perform (smallSetup scratchFails) smallState (.getRange 0 0 2)) := by
    refine .next _ _ (.getRange 0 0 2) (.start _ ⟨smallState_initial scratchFails,fun _ => rfl⟩) ?_
      (step_perform rfl)
    intro k other
    cases other
  have seen := (always _ (fun _ => rfl) _ reached).seen 0 0 0 _ (smallSetup_clear _ _ (.inr rfl)) rfl (by decide)
  exact absurd seen (by decide)

end SurfaceOS.Bcache
