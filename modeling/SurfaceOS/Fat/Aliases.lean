import SurfaceOS.Fat.DirFrame

/-! The short names of a directory while records are created, removed and rewritten. A long name gets
the first numbered alias that no record has; the search stops early only at a free one. -/
namespace SurfaceOS.Fat
open Lib Lib.Memory Function List Nat

variable {k perCluster count i more n need room slot start : Nat} {e : Errno} {short : Short} {after dir : Dir}
  {name : Name} {s t : Slot} {grown slots : List Slot}

/-! The search for a number. -/

theorem decimals_length {fuel v k : Nat} (small : v < 10^k) (after : List UInt8) :
    (decimals fuel v after).length ≤ after.length + k := by
  induction fuel generalizing v k after with
  | zero => exact Nat.le_add_right ..
  | succ fuel ih =>
    rw [decimals]
    split
    · exact Nat.le_add_right ..
    cases k with
    | zero => omega
    | succ k =>
      have shorter := @ih (v / 10) k (by rw [pow_succ] at small; omega) (UInt8.ofNat (48 + v % 10) :: after)
      rw [length_cons] at shorter
      omega

theorem suffix_length (small : n < 10^6) : (suffix n).length ≤ 7 := by
  have digits := @decimals_length 7 n 6 small []
  rw [suffix,length_cons]
  rw [length_nil] at digits
  omega

structure FirstFree (slots : List Slot) (alias11 : List UInt8) (first n : Nat) : Prop where
  low : first ≤ n
  free : existsShort slots (numbered alias11 n) = false
  taken : ∀ m, first ≤ m → m < n → existsShort slots (numbered alias11 m)

section
variable {slots : List Slot} {alias11 : List UInt8} {left n : Nat}

theorem numberLoop_first {name11 : List UInt8} (chosen : numberLoop slots alias11 left n = .ok name11) :
    ∃ m, m < n + left ∧ FirstFree slots alias11 n m ∧ name11 = numbered alias11 m := by
  fun_induction numberLoop slots alias11 left n with
  | case1 | case2 => cases chosen
  | case3 left n _ here ih =>
    obtain ⟨m,high,first,same⟩ := ih chosen
    refine ⟨m,by omega,⟨by have := first.low; omega,first.free,fun k low below => ?_⟩,same⟩
    by_cases start : k = n
    · exact start ▸ here
    · exact first.taken k (by omega) below
  | case4 left n _ free =>
    refine ⟨n,by omega,⟨le_refl n,Bool.not_eq_true _ ▸ free,fun k low below => by omega⟩,?_⟩
    exact (Except.ok.inj chosen).symm

theorem numberLoop_failed (fits : n + left ≤ 10^6) (failed : numberLoop slots alias11 left n = .error e) :
    ∀ m, n ≤ m → m < n + left → existsShort slots (numbered alias11 m) := by
  induction left generalizing n with
  | zero => exact fun m low high => by omega
  | succ left ih =>
    intro m low high
    rw [numberLoop,if_neg (not_lt.mpr (suffix_length (show n < 10^6 by omega)))] at failed
    split at failed
    · next here =>
      by_cases start : m = n
      · exact start ▸ here
      · exact ih (by omega) failed m (by omega) (by omega)
    · cases failed

end

theorem chooseShort_fresh {name11 : List UInt8}
    (chosen : chooseShort slots short = .ok name11) : existsShort slots name11 = false := by
  unfold chooseShort at chosen
  split at chosen
  · obtain ⟨m,_,first,rfl⟩ := numberLoop_first chosen
    exact first.free
  · split at chosen
    · cases chosen
    · next free => exact Except.ok.inj chosen ▸ Bool.not_eq_true _ ▸ free

theorem chooseShort_long {short : Short} (long : short.needsLfn) :
    (∀ name11, chooseShort slots short = .ok name11 →
      ∃ n ≤ 999999, FirstFree slots short.name11 1 n ∧ name11 = numbered short.name11 n) ∧
    ∀ e, chooseShort slots short = .error e →
      ∀ n, 1 ≤ n → n ≤ 999999 → existsShort slots (numbered short.name11 n) := by
  unfold chooseShort
  rw [if_pos long]
  refine ⟨fun name11 chosen => ?_,fun e failed n low high => ?_⟩
  · obtain ⟨n,high,first,same⟩ := numberLoop_first chosen
    exact ⟨n,by omega,first,same⟩
  · exact numberLoop_failed (by decide) failed n low (by omega)

theorem slotsFor_units (name : Name) : slotsFor (utf8ToUcs2 nameMax name).length ≤ maxLfnEntries := by
  have units : ∀ outmax (bytes : List UInt8), (utf8ToUcs2 outmax bytes).length ≤ outmax := by
    intro outmax
    induction outmax with
    | zero => exact fun bytes => by rw [utf8ToUcs2]; exact le_refl 0
    | succ outmax ih =>
      intro bytes
      cases bytes with
      | nil => exact zero_le _
      | cons b p => exact succ_le_succ (ih _)
  have few := units nameMax name
  generalize (utf8ToUcs2 nameMax name).length = count at few
  unfold nameMax at few
  unfold slotsFor maxLfnEntries
  split <;> omega

theorem reserveRun_failed
    (ran : reserveRun perCluster need room slots = (.error e,dir)) : e = .enospc ∧ dir.room = 0 := by
  fun_induction reserveRun perCluster need room slots with
  | case1 => cases ran
  | case2 =>
    cases ran
    exact ⟨rfl,rfl⟩
  | case3 _ _ _ ih => exact ih ran

theorem create_error {new : Fresh} (valid : validName name) (absent : find dir.slots name = none)
    (ran : create perCluster dir name new = (.error e,after)) :
    (e = .enospc ∧ after.room = 0) ∨ chooseShort dir.slots (makeShortName name) = .error e := by
  revert ran
  fun_cases create perCluster dir name new with
  | case1 invalid => simp [valid] at invalid
  | case2 _ found => simp [absent] at found
  | case3 _ _ _ _ chosen =>
    rintro ⟨⟩
    exact .inr chosen
  | case4 _ _ _ _ _ _ count long =>
    have few : count ≤ maxLfnEntries := by
      unfold count
      split
      · exact slotsFor_units name
      · exact zero_le _
    exact absurd long (not_lt.mpr few)
  | case5 _ _ _ _ _ _ _ _ _ _ reserved =>
    rintro ⟨⟩
    exact .inl (reserveRun_failed reserved)
  | case6 => rintro ⟨⟩

/-! Changes of a directory. -/

structure Written where
  size : Nat
  firstCluster : Nat
  date : Nat
  time : Nat
  accessed : Option Nat

def updateEntry (w : Written) (s : Slot) : Slot :=
  let s := patch s 28 (bytes32 w.size)
  let s := patch s 20 (bytes16 (w.firstCluster / 65536))
  let s := patch s 26 (bytes16 w.firstCluster)
  let s := patch s 24 (bytes16 w.date)
  let s := patch s 22 (bytes16 w.time)
  match w.accessed with
  | none => s
  | some date => patch s 18 (bytes16 date)

def setattr (writable : Bool) (s : Slot) : Slot :=
  update s 11 (if writable then s.attr &&& ~~~0x01 else s.attr ||| 0x01)

inductive Change
  | create (name : Name) (new : Fresh)
  | remove (name : Name)
  | update (index : Nat) (w : Written)
  | setattr (index : Nat) (writable : Bool)

/-- One change. The slot that is rewritten need not hold a record: an open file keeps the place of one. -/
def change (perCluster : Nat) (dir : Dir) : Change → Dir
  | .create name new => (create perCluster dir name new).2
  | .remove name => {dir with slots := removeName dir.slots name}
  | .update index w => {dir with slots := dir.slots.modify index (updateEntry w)}
  | .setattr index writable => {dir with slots := dir.slots.modify index (Fat.setattr writable)}

def Distinct (slots : List Slot) : Prop :=
  ∀ i j s t, Shown slots i s → Shown slots j t → s.name11 = t.name11 → i = j

def Ended (slots : List Slot) : Prop := Trailing (fun s => s.isFree) slots

theorem existsShort_shown (shown : Shown slots i s) : existsShort slots s.name11 := by
  unfold existsShort
  rw [any_eq_true]
  exact ⟨entryAt slots i s,mem_scanDir.mpr ⟨i,s,shown,rfl⟩,beq_self_eq_true s.name11⟩

theorem Created.name11_at {new : Fresh}
    {name11 : List UInt8} (made : Created dir name new slot after name11 count start more grown) :
    ∃ t, after.slots[slot]? = some t ∧ t.name11 = name11 := by
  exact ⟨_,made.shortSlot_at,shortSlot_name11 made.shape.1⟩

theorem create_distinct {new : Fresh} (distinct : Distinct dir.slots)
    (ended : Ended dir.slots) : Distinct (create perCluster dir name new).2.slots ∧
      Ended (create perCluster dir name new).2.slots := by
  rcases ran : create perCluster dir name new with ⟨e | slot,after⟩
  · have padded := create_failed ran
    refine ⟨fun i j s t first second same => ?_,padded.trailing (by decide) ended⟩
    exact distinct i j s t (padded.shown_iff.mp first) (padded.shown_iff.mp second) same
  obtain ⟨name11,count,start,more,grown,made⟩ := create_created ran
  have free : ∀ s : Slot, s.isFree → s.isFree := fun _ free => free
  refine ⟨fun i j s t first second same => ?_,made.trailing free (by decide) ended⟩
  obtain ⟨own,there,named⟩ := made.name11_at
  have fresh := chooseShort_fresh made.chosen
  -- an old record with the new one's short name would have been seen
  have new : ∀ k u v, Shown after.slots slot u → Shown dir.slots k v → u.name11 ≠ v.name11 := by
    intro k u v shown old same
    obtain rfl : own = u := Option.some.inj (there.symm.trans shown.here)
    have seen := existsShort_shown old
    rw [← same,named,fresh] at seen
    cases seen
  rcases made.shown free (by decide) ended first with rfl | before
  · rcases made.shown free (by decide) ended second with rfl | old
    · rfl
    · exact absurd same (new j s t first old)
  · rcases made.shown free (by decide) ended second with rfl | old
    · exact absurd same.symm (new i t s second before)
    · exact distinct i j s t before old same

theorem remove_distinct (distinct : Distinct slots) (ended : Ended slots) :
    Distinct (removeName slots name) ∧ Ended (removeName slots name) := by
  rcases removeName_cases slots name with same | ⟨e,s,start,_,shown,removed⟩
  · rw [same]
    exact ⟨distinct,ended⟩
  · have gone (k : Nat) (t : Slot) := removed.shown_iff (k := k) (t := t) shown
    refine ⟨fun i j t u first second same => ?_,removed.trailing shown.opened ended⟩
    exact distinct i j t u ((gone i t).mp first).2 ((gone j u).mp second).2 same

structure Rewrites (f : Slot → Slot) : Prop where
  name : ∀ s, ∀ k < 11, f s k = s k
  record : ∀ s, (f s).isRecord = s.isRecord

section
variable {f : Slot → Slot} {slots : List Slot} {index : Nat}
variable (rewrites : Rewrites f)
include rewrites

theorem Rewrites.name11 (s : Slot) : (f s).name11 = s.name11 := by
  unfold Slot.name11
  apply map_congr_left
  intro k inside
  exact rewrites.name s (0 + k) (by rw [mem_range] at inside; omega)

theorem Rewrites.first (s : Slot) : f s 0 = s 0 := rewrites.name s 0 (by decide)

theorem Rewrites.isEnd (s : Slot) : (f s).isEnd = s.isEnd := by
  unfold Slot.isEnd
  rw [rewrites.first]

theorem Rewrites.isFree (s : Slot) : (f s).isFree = s.isFree := by
  unfold Slot.isFree
  rw [rewrites.first]

theorem Rewrites.old (here : (slots.modify index f)[k]? = some s) :
    ∃ t, slots[k]? = some t ∧ t.name11 = s.name11 ∧ t.isRecord = s.isRecord ∧ t.isEnd = s.isEnd ∧
      t.isFree = s.isFree := by
  rw [getElem?_modify] at here
  obtain ⟨t,there,same⟩ := Option.map_eq_some_iff.mp here
  refine ⟨t,there,?_⟩
  split at same
  · exact same ▸ ⟨(rewrites.name11 t).symm,(rewrites.record t).symm,(rewrites.isEnd t).symm,(rewrites.isFree t).symm⟩
  · exact same ▸ ⟨rfl,rfl,rfl,rfl⟩

theorem Rewrites.new (there : slots[k]? = some t) :
    ∃ s, (slots.modify index f)[k]? = some s ∧ s.isEnd = t.isEnd := by
  rw [getElem?_modify,there]
  refine ⟨_,rfl,?_⟩
  split
  · exact rewrites.isEnd t
  · rfl

theorem Rewrites.shown (shown : Shown (slots.modify index f) k s) : ∃ t, Shown slots k t ∧ t.name11 = s.name11 := by
  obtain ⟨t,there,named,record,_,_⟩ := rewrites.old shown.here
  refine ⟨t,⟨there,record.trans shown.record,fun j low u found => ?_⟩,named⟩
  obtain ⟨v,here,same⟩ : ∃ v, (slots.modify index f)[j]? = some v ∧ v.isEnd = u.isEnd := rewrites.new found
  exact same.symm.trans (shown.opened j low v here)

theorem Rewrites.distinct (distinct : Distinct slots) (ended : Ended slots) :
    Distinct (slots.modify index f) ∧ Ended (slots.modify index f) := by
  refine ⟨fun i j s t first second same => ?_,fun i j s t behind here ends there => ?_⟩
  · obtain ⟨s',before,named⟩ := rewrites.shown first
    obtain ⟨t',old,called⟩ := rewrites.shown second
    exact distinct i j s' t' before old (named.trans (same.trans called.symm))
  · obtain ⟨s',before,_,_,mark,_⟩ := rewrites.old here
    obtain ⟨t',old,_,_,_,free⟩ := rewrites.old there
    exact free.symm.trans (ended i j s' t' behind before (mark.trans ends) old)

end

theorem Rewrites.of_attr {f : Slot → Slot} (name : ∀ s, ∀ k < 11, f s k = s k)
    (volume : ∀ s : Slot, (f s).isVolumeId = s.isVolumeId) : Rewrites f := by
  -- a long-name slot has the volume bit too
  have plain : ∀ s : Slot, s.isRecord = decide (s 0 ≠ 0xE5 ∧ s.isVolumeId = false) := by
    intro s
    have bits : s.isLfn → s.isVolumeId := by
      unfold Slot.isLfn Slot.isVolumeId
      rw [decide_eq_true_eq]
      intro all
      have part : s.attr &&& 0x08 = (s.attr &&& 0x0F) &&& 0x08 := by
        rw [UInt8.and_assoc]
        rfl
      rw [part,all]
      decide
    unfold Slot.isRecord
    cases volume : s.isVolumeId with
    | true => simp
    | false =>
      have short : s.isLfn = false := Bool.eq_false_iff.mpr fun long => Bool.false_ne_true (volume.symm.trans (bits long))
      simp [short]
  refine ⟨name,fun s => ?_⟩
  rw [plain,plain,volume,name s 0 (by decide)]

theorem updateEntry_rewrites (w : Written) : Rewrites (updateEntry w) := by
  have before : ∀ s : Slot, ∀ k < 18, updateEntry w s k = s k := by
    intro s k low
    unfold updateEntry
    cases w.accessed <;> simp only [patch_before _ _ _ k (show k < 28 by omega),patch_before _ _ _ k (show k < 20 by omega),
      patch_before _ _ _ k (show k < 26 by omega),patch_before _ _ _ k (show k < 24 by omega),
      patch_before _ _ _ k (show k < 22 by omega),patch_before _ _ _ k low]
  refine .of_attr (fun s k low => before s k (by omega)) fun s => ?_
  unfold Slot.isVolumeId Slot.attr
  rw [before s 11 (by decide)]

theorem setattr_rewrites (writable : Bool) : Rewrites (setattr writable) := by
  refine .of_attr (fun s k low => update_of_ne (by omega) ..) fun s => ?_
  have bit : (setattr writable s).attr &&& 0x08 = s.attr &&& 0x08 := by
    unfold setattr Slot.attr
    rw [update_self]
    cases writable with
    | true =>
      rw [if_pos rfl,UInt8.and_assoc]
      rfl
    | false =>
      rw [if_neg Bool.false_ne_true]
      apply UInt8.toBitVec_inj.mp
      rw [UInt8.toBitVec_and,UInt8.toBitVec_or,BitVec.and_or_distrib_right]
      exact BitVec.or_zero
  unfold Slot.isVolumeId
  rw [bit]

theorem change_distinct (perCluster : Nat) (distinct : Distinct dir.slots) (ended : Ended dir.slots)
    (c : Change) : Distinct (change perCluster dir c).slots ∧ Ended (change perCluster dir c).slots := by
  cases c with
  | create name new => exact create_distinct distinct ended
  | remove name => exact remove_distinct distinct ended
  | update index w => exact (updateEntry_rewrites w).distinct distinct ended
  | setattr index writable => exact (setattr_rewrites writable).distinct distinct ended

theorem changes_distinct (perCluster : Nat) (changes : List Change) (distinct : Distinct dir.slots)
    (ended : Ended dir.slots) : Distinct (changes.foldl (change perCluster) dir).slots := by
  induction changes generalizing dir with
  | nil => exact distinct
  | cons c rest ih =>
    obtain ⟨distinct,ended⟩ := change_distinct perCluster distinct ended c
    exact ih distinct ended

/-- Short names stay distinct where only free slots lie behind the end mark; and in every directory
a long name gets the first alias that is free, and fails when there is none or no space. -/
theorem shortNames_first_free (perCluster : Nat) (dir : Dir) : (Distinct dir.slots → Ended dir.slots →
      ∀ changes : List Change, Distinct (changes.foldl (change perCluster) dir).slots) ∧
    ∀ name new, validName name → find dir.slots name = none → (makeShortName name).needsLfn →
      (∀ slot after, create perCluster dir name new = (.ok slot,after) →
        ∃ n ≤ 999999, FirstFree dir.slots (makeShortName name).name11 1 n ∧
          ∃ t, after.slots[slot]? = some t ∧ t.name11 = numbered (makeShortName name).name11 n) ∧
      ∀ e after, create perCluster dir name new = (.error e,after) → (e = .enospc ∧ after.room = 0) ∨
        ∀ n, 1 ≤ n → n ≤ 999999 → existsShort dir.slots (numbered (makeShortName name).name11 n) := by
  refine ⟨fun distinct ended changes => changes_distinct perCluster changes distinct ended,?_⟩
  intro name new valid absent long
  obtain ⟨first,taken⟩ := @chooseShort_long dir.slots _ long
  refine ⟨fun slot after ran => ?_,fun e after ran => ?_⟩
  · obtain ⟨name11,count,start,more,grown,made⟩ := create_created ran
    obtain ⟨n,high,free,rfl⟩ := first name11 made.chosen
    exact ⟨n,high,free,made.name11_at⟩
  · exact (create_error valid absent ran).imp_right (taken e)

def crowd : List Change := [.create [65,32,98] ⟨false,0,0,0⟩,.create [65,32,66,50] ⟨false,0,0,0⟩]

theorem shortNames_first_free_crowd : Distinct (crowd.foldl (change 16) emptyDir).slots ∧
    (scanDir (crowd.foldl (change 16) emptyDir).slots).map (·.slot.name11.take 5) =
      [[65,95,66,126,49],[65,95,66,50,126]] := by
  have zero : ∀ (i : Nat) (s : Slot), emptyDir.slots[i]? = some s → s = fun _ => 0 := by
    intro i s here
    have member : s ∈ replicate 16 (fun _ => 0) := mem_of_getElem? here
    exact eq_of_mem_replicate member
  refine ⟨(shortNames_first_free 16 emptyDir).1 (fun i j s t shown => ?_) (fun i j s t _ _ _ there => ?_) crowd,
    by decide +kernel⟩
  · have opened := shown.opened i (le_refl i) s shown.here
    rw [zero i s shown.here] at opened
    cases opened
  · rw [zero j t there]
    rfl

def stale : Dir := ⟨[shortSlot (65 :: replicate 10 32) 0 ⟨false,0,0,0⟩,fun _ => 0,
  shortSlot (66 :: replicate 10 32) 0 ⟨false,0,0,0⟩],0⟩

/-- A new "b" takes the place of the mark, and the old one is seen again. -/
theorem stale_doubles : Distinct stale.slots ∧ ¬ Distinct (change 16 stale (.create [98] ⟨false,0,0,0⟩)).slots := by
  have before : (scanDir stale.slots).map (fun e => (e.index,e.slot.name11)) = [(0,65 :: replicate 10 32)] := by
    decide +kernel
  have after : (scanDir (change 16 stale (.create [98] ⟨false,0,0,0⟩)).slots).map (fun e => (e.index,e.slot.name11)) =
      [(0,65 :: replicate 10 32),(1,66 :: replicate 10 32),(2,66 :: replicate 10 32)] := by
    decide +kernel
  have listed : ∀ (slots : List Slot) (i : Nat) (name11 : List UInt8),
      (i,name11) ∈ (scanDir slots).map (fun e => (e.index,e.slot.name11)) ↔ ∃ s, Shown slots i s ∧ s.name11 = name11 := by
    intro slots i name11
    rw [mem_map]
    constructor
    · rintro ⟨e,member,same⟩
      obtain ⟨k,s,shown,rfl⟩ := mem_scanDir.mp member
      obtain ⟨rfl,rfl⟩ := Prod.mk.inj same
      exact ⟨s,shown,rfl⟩
    · rintro ⟨s,shown,rfl⟩
      exact ⟨entryAt slots i s,mem_scanDir.mpr ⟨i,s,shown,rfl⟩,rfl⟩
  constructor
  · intro i j s t first second _
    have one := (listed stale.slots i _).mpr ⟨s,first,rfl⟩
    have two := (listed stale.slots j _).mpr ⟨t,second,rfl⟩
    rw [before,mem_singleton] at one two
    exact (congrArg Prod.fst one).trans (congrArg Prod.fst two).symm
  intro distinct
  obtain ⟨s,first,named⟩ := (listed _ 1 (66 :: replicate 10 32)).mp (by rw [after]; simp)
  obtain ⟨t,second,called⟩ := (listed _ 2 (66 :: replicate 10 32)).mp (by rw [after]; simp)
  exact absurd (distinct 1 2 s t first second (named.trans called.symm)) (by decide)

end SurfaceOS.Fat
