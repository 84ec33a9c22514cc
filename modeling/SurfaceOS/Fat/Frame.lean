import SurfaceOS.Fat.DirDisk

/-! What `create` and `remove` leave alone. A record holds its slot and those of its long name right
before it; the two functions write into free slots, and free slots that no other record holds. -/
namespace SurfaceOS.Fat
open Lib Lib.Memory Nat

variable {k count more slot start : Nat} {sb : Super} {aside : Nat → Prop} {f : Nat} {e : Entry}

def Entry.first (e : Entry) : Nat := e.index - e.lfn.elim 0 Lfn.count

def Entry.Holds (e : Entry) (k : Nat) : Prop := e.first ≤ k ∧ k ≤ e.index

structure Lfn.Covers (sc : Lfn) (slots : List Slot) (i : Nat) : Prop where
  left : sc.expect ≤ sc.count
  room : sc.count - sc.expect ≤ i
  long : ∀ k, i - (sc.count - sc.expect) ≤ k → k < i → ∃ t, slots[k]? = some t ∧ Owned sc.checksum t
  complete : sc.valid → sc.expect = 0

section
variable {sc : Lfn} {slots : List Slot} {i : Nat} {s : Slot}

theorem Lfn.reset_covers (sc : Lfn) (slots : List Slot) (i : Nat) : sc.reset.Covers slots i :=
  ⟨le_refl 0,zero_le i,fun _ low high => absurd high (not_lt.mpr low),nofun⟩

theorem Lfn.Covers.take (covers : sc.Covers slots i) (here : slots[i]? = some s) (used : s 0 ≠ 0xE5)
    (long : s.isLfn) : (sc.take s).Covers slots (i + 1) := by
  rw [Lfn.take_eq]
  by_cases fits : 1 ≤ s.ord ∧ s.ord ≤ maxLfnEntries ∧ s.checksum = (sc.begin s).checksum ∧ s.ord = (sc.begin s).expect
  · rw [if_pos fits]
    obtain ⟨some,_,sum,next⟩ := fits
    have begun : (sc.begin s).Covers slots i := by
      unfold Lfn.begin
      split
      · exact ⟨le_refl _,by simp,fun k low high => by simp at low; omega,nofun⟩
      · exact covers
    have left := begun.left
    have room := begun.room
    refine ⟨by dsimp only; omega,by dsimp only; omega,fun k low high => ?_,fun valid => ?_⟩
    · dsimp only at low
      by_cases last : k = i
      · subst last
        exact ⟨s,here,long,used,sum⟩
      · exact begun.long k (by omega) (by omega)
    rcases Bool.or_eq_true _ _ ▸ valid with done | zero
    · have := begun.complete done
      omega
    · exact of_decide_eq_true zero
  · rw [if_neg fits]
    exact Lfn.reset_covers ..

theorem contextAt_covers (slots : List Slot) (i : Nat) (inside : i ≤ slots.length) :
    (contextAt slots i).Covers slots i := by
  induction i with
  | zero => exact ⟨le_refl 0,le_refl 0,fun k _ high => absurd high (not_lt_zero k),nofun⟩
  | succ i ih =>
    have here := List.getElem?_eq_getElem (show i < slots.length by omega)
    rw [contextAt_succ here,Lfn.pass]
    split
    · exact Lfn.reset_covers ..
    rename_i used
    split
    · next long => exact (ih (by omega)).take here used long
    · exact Lfn.reset_covers ..

end

section
variable {slots : List Slot} {e d : Entry}

theorem Entry.long (member : e ∈ scanDir slots) (low : e.first ≤ k) (high : k < e.index) :
    ∃ t, slots[k]? = some t ∧ Owned (shortChecksum e.slot.name11) t := by
  obtain ⟨i,s,shown,rfl⟩ := mem_scanDir.mp member
  have covers := contextAt_covers slots i (le_of_lt (List.getElem?_eq_some_iff.mp shown.here).1)
  unfold entryAt at low
  unfold entryAt at ⊢
  by_cases matched : (contextAt slots i).valid ∧ (contextAt slots i).count > 0 ∧
      (contextAt slots i).checksum = shortChecksum s.name11
  · rw [Lfn.matching,if_pos matched] at low
    have done := covers.complete matched.1
    rw [← matched.2.2]
    exact covers.long k (by rw [done]; exact low) high
  · rw [Lfn.matching,if_neg matched] at low
    exact absurd high (not_lt.mpr low)

theorem Entry.used (member : e ∈ scanDir slots) (holds : e.Holds k) :
    ∃ t, slots[k]? = some t ∧ t.isFree = false ∧ (k < e.index → t.isLfn) := by
  obtain ⟨i,s,shown,same⟩ := mem_scanDir.mp member
  have index : e.index = i := by rw [same]; rfl
  rcases lt_or_ge k e.index with before | last
  · obtain ⟨t,here,long,used,_⟩ := Entry.long member holds.1 before
    have opened := shown.opened k (by omega) t here
    refine ⟨t,here,?_,fun _ => long⟩
    unfold Slot.isEnd at opened
    unfold Slot.isFree
    rw [decide_eq_false_iff_not] at opened ⊢
    rintro (free | ended)
    · exact used free
    · exact opened ended
  · obtain rfl : k = i := by
      have := holds.2
      omega
    refine ⟨s,shown.here,not_free_of_record shown.record (shown.opened k (le_refl k) s shown.here),fun less => ?_⟩
    omega

end

def Zeroed (slots : List Slot) : Prop := Trailing (· = fun _ => 0) slots

theorem zero_isFree (s : Slot) (zero : s = fun _ => 0) : s.isFree := by
  rw [zero]
  rfl

section
variable {dir after : Dir} {name : Name} {new : Fresh} {slot count start more : Nat} {name11 : List UInt8}
  {grown : List Slot}

theorem Created.holds (made : Created dir name new slot after name11 count start more grown)
    (member : e ∈ scanDir dir.slots) (holds : e.Holds k) : after.slots[k]? = dir.slots[k]? := by
  obtain ⟨t,here,taken,_⟩ := Entry.used member holds
  have there := made.grown_getElem? here
  rw [made.result,if_neg (made.outside there taken),there,here]

end

theorem Padded.holds {slots grown : List Slot} (padded : Padded slots grown) (member : e ∈ scanDir slots)
    (holds : e.Holds k) : grown[k]? = slots[k]? := by
  obtain ⟨t,here,_⟩ := Entry.used member holds
  exact padded.old (List.getElem?_eq_some_iff.mp here).1

section
variable {slots after : List Slot} {i start : Nat} {s : Slot}

theorem Removed.apart (removed : Removed slots i s start after) (record : s.isRecord)
    (member : e ∈ scanDir slots) (other : e.index ≠ i) (holds : e.Holds k) : ¬ (start ≤ k ∧ k ≤ i) := by
  rintro ⟨low,high⟩
  rcases lt_or_gt_of_ne other with before | behind
  · -- the record itself would lie in the run that is freed
    obtain ⟨j,t,shown,same⟩ := mem_scanDir.mp member
    have index : e.index = j := by rw [same]; rfl
    exact removed.outside shown.here shown.record (by omega) ⟨by have := holds.2; omega,by omega⟩
  -- the freed record would lie in a long name
  have inside : e.Holds i := ⟨le_trans holds.1 high,le_of_lt behind⟩
  obtain ⟨t,here,_,long⟩ := Entry.used member inside
  obtain rfl : s = t := Option.some.inj (removed.here.symm.trans here)
  have short := (Slot.isRecord_iff.mp record).2.1
  rw [long behind] at short
  cases short

theorem Removed.reaches (removed : Removed slots i s start after) (shown : Shown slots i s) :
    start ≤ (entryAt slots i s).first := by
  by_contra short
  have member : entryAt slots i s ∈ scanDir slots := mem_scanDir.mpr ⟨i,s,shown,rfl⟩
  have low := removed.low
  obtain ⟨t,here,owned⟩ := Entry.long member (k := start - 1) (by omega) (by change start - 1 < i; omega)
  exact removed.stop (by omega) t here owned

end

def Laid (name : Name) (new : Fresh) (slot : Nat) (now : List Slot) : Prop :=
  ∃ count ≤ slot, ∃ name11 : List UInt8,
    count = (if (makeShortName name).needsLfn then slotsFor (utf8ToUcs2 nameMax name).length else 0) ∧
    (∀ j < count, now[slot - count + j]? =
      some (lfnSlot (utf8ToUcs2 nameMax name) (shortChecksum name11) count (count - j))) ∧
    ∃ flags, now[slot]? = some (shortSlot name11 flags new)

theorem Created.laid {dir after : Dir} {name : Name} {new : Fresh} {name11 : List UInt8}
    {grown : List Slot} (made : Created dir name new slot after name11 count start more grown) :
    Laid name new slot after.slots := by
  have index := made.index
  refine ⟨count,by omega,name11,made.slots,fun j inside => ?_,_,made.shortSlot_at⟩
  rw [made.result,if_pos (by omega),show slot - count + j - start = j by omega]
  exact newRun_long inside

/-- `create` and `remove` in any directory: the other records' slots stay, also those of other
directories; the new record lies in one run; a removed one frees its own slots, and before them at most
long-name slots with its checksum that no record holds; and what lies behind the end mark stays zero. -/
theorem create_remove_frame (slotted : Slotted sb) {s : Io} {chains : Nat → List Nat} {slots : List Slot}
    (dir : DirAt sb aside f s chains slots) :
    (∀ name new, ∃ after now, DirStep sb aside f s chains (Fatdir.create sb s name new).2 after now ∧
      (∀ e ∈ scanDir slots, ∀ k, e.Holds k → now[k]? = slots[k]?) ∧
      (∀ made, (Fatdir.create sb s name new).1 = .ok made →
        Laid name new made.index now ∧ made.spot = placeOf sb (after f) made.index) ∧
      (Zeroed slots → Zeroed now ∧ ∀ k t, Shown now k t →
        Shown slots k t ∨ ∃ made, (Fatdir.create sb s name new).1 = .ok made ∧ k = made.index)) ∧
    ∀ i t, Shown slots i t → ∃ now start, (Fatdir.remove sb s i).1 = .ok () ∧
      DirStep sb aside f s chains (Fatdir.remove sb s i).2 chains now ∧
      (∀ k : Nat, now[k]? = if start ≤ k ∧ k ≤ i then (slots[k]?).map Fatdir.freed else slots[k]?) ∧
      start ≤ (entryAt slots i t).first ∧
      (∀ k, start ≤ k → k < (entryAt slots i t).first →
        ∃ u, slots[k]? = some u ∧ Owned (shortChecksum t.name11) u) ∧
      (∀ e ∈ scanDir slots, e.index ≠ i → ∀ k, e.Holds k → ¬ (start ≤ k ∧ k ≤ i)) ∧
      (Zeroed slots → Zeroed now ∧ ∀ k u, Shown now k u → k ≠ i ∧ Shown slots k u) := by
  refine ⟨fun name new => ?_,fun i t shown => ?_⟩
  · obtain ⟨after,now,step,ok,failed⟩ := dir.creates slotted name new
    refine ⟨after,now,step,?_⟩
    cases ran : (Fatdir.create sb s name new).1 with
    | error e =>
      have padded := failed e ran
      refine ⟨fun e member k holds => padded.holds member holds,nofun,fun zeroed => ?_⟩
      exact ⟨padded.trailing rfl zeroed,fun k t shown => .inl (padded.shown_iff.mp shown)⟩
    | ok made =>
      obtain ⟨⟨room,created⟩,spot⟩ := ok made ran
      obtain ⟨name11,count,start,more,grown,created⟩ := create_created created
      refine ⟨fun e member k holds => created.holds member holds,fun other same => ?_,fun zeroed => ?_⟩
      · obtain rfl := Except.ok.inj same
        exact ⟨created.laid,spot⟩
      refine ⟨created.trailing zero_isFree rfl zeroed,fun k t shown => ?_⟩
      rcases created.shown zero_isFree rfl zeroed shown with own | old
      · exact .inr ⟨made,rfl,own⟩
      · exact .inl old
  · obtain ⟨result,step⟩ := dir.removes slotted i
    have taken := not_free_of_record shown.record (shown.opened i (le_refl i) t shown.here)
    cases ran : remove slots i with
    | mk r now =>
      have ok : r = .ok () := by
        unfold remove at ran
        rw [shown.here] at ran
        dsimp only at ran
        rw [if_neg (by rw [taken]; exact Bool.false_ne_true)] at ran
        exact (Prod.mk.inj ran).1.symm
      subst ok
      obtain ⟨u,start,removed⟩ := remove_removed ran
      obtain rfl : t = u := Option.some.inj (shown.here.symm.trans removed.here)
      rw [ran] at result step
      refine ⟨now,start,result,step,removed.result,removed.reaches shown,fun k low high => ?_,
        fun e member other k holds => removed.apart shown.record member other holds,fun zeroed => ?_⟩
      · exact removed.long k low (lt_of_lt_of_le high (sub_le ..))
      · exact ⟨removed.trailing shown.opened zeroed,fun k u now => (removed.shown_iff shown).mp now⟩

theorem create_remove_frame_blank : ∃ after now, DirStep smallVolume nothing 0 (blank.io 0) blankChains
    (Fatdir.create smallVolume (blank.io 0) [65,32,98] ⟨false,0,0,0⟩).2 after now ∧
      Laid [65,32,98] ⟨false,0,0,0⟩ 1 now := by
  obtain ⟨after,now,step,_,made,_⟩ :=
    (create_remove_frame ⟨smallVolume_geometry,by decide⟩ blank_dirAt).1 [65,32,98] ⟨false,0,0,0⟩
  have index : ((Fatdir.create smallVolume (blank.io 0) [65,32,98] ⟨false,0,0,0⟩).1.map Fatdir.Created.index) = .ok 1 := by
    decide +kernel
  refine ⟨after,now,step,?_⟩
  cases ran : (Fatdir.create smallVolume (blank.io 0) [65,32,98] ⟨false,0,0,0⟩).1 with
  | error e =>
    rw [ran] at index
    cases index
  | ok done =>
    rw [ran] at index
    have same : done.index = 1 := Except.ok.inj index
    exact same ▸ (made done ran).1

def orphaned : List Slot :=
  let slots := (create 16 emptyDir [65,32,98] ⟨false,0,0,0⟩).2.slots
  slots.take 1 ++ slots

/-- The record's first slot is slot 1, and slot 0 is freed with it. -/
theorem remove_frees_orphan : (scanDir orphaned).map (fun e => (e.first,e.index)) = [(1,2)] ∧
    (orphaned[0]?).map Slot.isFree = some false ∧ ((remove orphaned 2).2[0]?).map Slot.isFree = some true := by
  decide +kernel

end SurfaceOS.Fat
