import SurfaceOS.Fat.Aliases

/-! The slots of a directory that only `create` and `remove` fill and free (dir.cpp): a long name stands
right before its record, and a record begins where no long name is left over. So names that survive
the conversion are shown as they were given. -/
namespace SurfaceOS.Fat
open Option Nat

variable {dir after : Dir} {name : Name} {new : Fresh} {slot count start more i : Nat} {name11 : List UInt8}
  {grown slots : List Slot} {s : Slot}

def Slot.sum (s : Slot) : UInt8 := if s.isLfn then s.checksum else shortChecksum s.name11

def Closed (slots : List Slot) : Prop :=
  ∀ (k : Nat) (s : Slot), slots[k]? = some s → s.isFree = false → s.isLfn →
    ∃ t, slots[k + 1]? = some t ∧ t.isFree = false ∧ t.sum = s.checksum

theorem isFree_eq_false : s.isFree = false ↔ s 0 ≠ 0xE5 ∧ s 0 ≠ 0 := by
  unfold Slot.isFree
  simp

theorem lfnSlot_taken {units : List Nat} {sum : UInt8} {count s : Nat} (low : 1 ≤ s) (small : s ≤ 20) :
    (lfnSlot units sum count s).isFree = false := by
  have unmarked := @lfnSlot_unmarked units sum count s low small
  exact isFree_eq_false.mpr ⟨fun free => unmarked (.inl free),fun zero => unmarked (.inr zero)⟩

theorem Padded.closed (padded : Padded slots grown) (closed : Closed slots) :
    Closed grown := by
  intro k s here taken long
  rcases padded.getElem? here with old | ⟨_,rfl⟩
  · obtain ⟨t,next,rest⟩ := closed k s old taken long
    exact ⟨t,by rw [padded.old (List.getElem?_eq_some_iff.mp next).1]; exact next,rest⟩
  · cases taken

section
variable (made : Created dir name new slot after name11 count start more grown)
include made

theorem Created.long (some : 0 < count) : (makeShortName name).needsLfn := by
  by_contra short
  have slots := made.slots
  rw [if_neg short] at slots
  omega

theorem Created.closed (closed : Closed dir.slots) : Closed after.slots := by
  have index := made.index
  have fits : count ≤ 20 := made.fits
  intro k s here taken long
  rw [made.result] at here
  split at here
  · next inside =>
    obtain ⟨j,rfl⟩ := Nat.exists_eq_add_of_le inside.1
    rw [Nat.add_sub_cancel_left] at here
    rcases Nat.lt_or_ge j count with more | last
    · rw [newRun_long more] at here
      obtain rfl := some.inj here
      have next := made.result (start + j + 1)
      rw [if_pos ⟨by omega,by omega⟩,show start + j + 1 - start = j + 1 by omega] at next
      rcases Nat.lt_or_ge (j + 1) count with again | short
      · rw [newRun_long again] at next
        refine ⟨_,next,lfnSlot_taken (by omega) (by omega),?_⟩
        rw [Slot.sum,if_pos lfnSlot_isLfn]
        rfl
      obtain rfl : j + 1 = count := by omega
      rw [newRun_short] at next
      obtain ⟨n,_,_,_,c,rest,begins,unmarked⟩ := made.numbered (made.long (by omega))
      refine ⟨_,next,isFree_eq_false.mpr ?_,?_⟩
      · rw [shortSlot_first begins]
        exact ⟨fun free => unmarked (.inl free),fun zero => unmarked (.inr zero)⟩
      have plain := (made.breaks (if (makeShortName name).needsLfn then 0 else (makeShortName name).ntFlags))
      unfold Slot.Breaks at plain
      rw [shortSlot_first begins] at plain
      rw [Slot.sum,plain.resolve_left fun free => unmarked (.inl free),
        shortSlot_name11 made.shape.1]
      rfl
    · obtain rfl : j = count := by omega
      rw [newRun_short] at here
      obtain rfl := some.inj here
      have breaks := made.breaks (if (makeShortName name).needsLfn then 0 else (makeShortName name).ntFlags)
      rcases breaks with free | short
      · exact absurd free (isFree_eq_false.mp taken).1
      · rw [short] at long
        cases long
  · obtain ⟨t,next,used,same⟩ := made.padded.closed closed k s here taken long
    refine ⟨t,?_,used,same⟩
    rw [made.result,if_neg (made.outside next used)]
    exact next

end

theorem Removed.closed {slots after : List Slot} (removed : Removed slots i s start after)
    (record : s.isRecord) (closed : Closed slots) : Closed after := by
  intro k t here taken long
  rw [removed.result] at here
  split at here
  · obtain ⟨u,_,rfl⟩ := map_eq_some_iff.mp here
    cases taken
  obtain ⟨u,next,used,same⟩ := closed k t here taken long
  refine ⟨u,?_,used,same⟩
  rw [removed.result,if_neg]
  · exact next
  -- the slot before the freed ones would have been freed with them
  · rintro ⟨low,high⟩
    have above : k + 1 = start := by omega
    have sum : u.sum = shortChecksum s.name11 := by
      rcases lt_or_ge start i with more | last
      · obtain ⟨w,there,owned⟩ := removed.long start (le_refl start) more
        rw [above,there] at next
        obtain rfl := some.inj next
        rw [Slot.sum,if_pos owned.1]
        exact owned.2.2
      · rw [above,show start = i by omega,removed.here] at next
        obtain rfl := some.inj next
        rw [Slot.sum,(Slot.isRecord_iff.mp record).2.1,if_neg Bool.false_ne_true]
    refine removed.stop (by omega) t ?_ ⟨long,(isFree_eq_false.mp taken).1,same.symm.trans sum⟩
    rw [← above]
    exact here

/-! Names that are shown as they were given. -/

/-- An 8.3 name that does not begin with the mark of a free record or end in a dot, or another name that
its long-name slots spell. -/
def Faithful (name : Name) : Prop :=
  (∃ base ext, Halves base ext name ∧ name.head? ≠ some 0xE5 ∧ name.getLast? ≠ some 46) ∨
    (∀ base ext, ¬ Halves base ext name) ∧ ∃ cs, Spelled name cs

theorem entryAt_lfn (slots : List Slot) (i : Nat) (s : Slot) :
    (entryAt slots i s).lfn = (contextAt slots i).matching s.name11 := rfl

theorem matching_empty (name11 : List UInt8) : Lfn.empty.matching name11 = none :=
  if_neg fun ⟨valid,_⟩ => Bool.false_ne_true valid

theorem matching_reset (sc : Lfn) (name11 : List UInt8) : sc.reset.matching name11 = none :=
  if_neg fun ⟨valid,_⟩ => Bool.false_ne_true valid

section
variable (made : Created dir name new slot after name11 count start more grown)
include made

theorem Created.idle (closed : Closed dir.slots) (ended : Ended dir.slots) (short : List UInt8) :
    (contextAt dir.slots start).matching short = none := by
  have free : ∀ s : Slot, s.isFree → s.isFree := fun _ free => free
  have inside := made.inside
  cases start with
  | zero => exact matching_empty short
  | succ k =>
    obtain ⟨s,here⟩ : ∃ s, dir.slots[k]? = some s := ⟨_,List.getElem?_eq_getElem inside⟩
    have opened := made.opened free (by decide) ended (lt_succ_self k) (made.grown_getElem? here)
    have breaks : s.Breaks := by
      by_contra continues
      obtain ⟨used,long⟩ := not_or.mp continues
      have taken : s.isFree = false := isFree_eq_false.mpr ⟨used,of_decide_eq_false opened⟩
      obtain ⟨t,next,busy,_⟩ := closed k s here taken (Bool.not_eq_false _ ▸ long)
      have index := made.index
      exact made.outside (made.grown_getElem? next) busy ⟨le_refl _,by omega⟩
    rw [contextAt_succ here,breaks.pass]
    exact matching_reset ..

theorem Created.context : contextAt after.slots start = contextAt dir.slots start := by
  have inside := made.inside
  refine contextAt_congr fun j low => ?_
  rw [made.result,if_neg (by omega)]
  obtain ⟨t,here⟩ : ∃ t, dir.slots[j]? = some t := ⟨_,List.getElem?_eq_getElem (by omega)⟩
  rw [made.grown_getElem? here,here]

theorem Created.storable
    (closed : Closed dir.slots) (ended : Ended dir.slots) (faithful : Faithful name) : Storable dir.slots name := by
  have free : ∀ s : Slot, s.isFree → s.isFree := fun _ free => free
  rcases faithful with ⟨base,ext,halves,head,last⟩ | ⟨long,cs,spelled⟩
  · refine .inl ⟨base,ext,halves,head,?_⟩
    have none : count = 0 := by
      rw [made.slots,makeShortName_halves halves]
      rfl
    subst none
    have front : buffered dir.slots = contextAt dir.slots start := by
      unfold buffered contextAt
      rw [firstRun_one made.grew made.first]
    unfold ShortReturns
    rw [front,made.idle closed ended]
    exact last
  · refine .inr ⟨long,cs,spelled,?_⟩
    have needs : (makeShortName name).needsLfn := by
      by_contra short
      obtain ⟨base,ext,halves⟩ := halves_of_short (Bool.not_eq_true _ ▸ short)
      exact long base ext halves
    have slots := made.slots
    rw [if_pos needs,spelled.units made.small] at slots
    rw [← slots,roomBeforeEnd_iff made.grew (succ_pos _) made.first]
    intro s member
    obtain ⟨k,low,here⟩ := List.mem_take_iff_getElem.mp member
    have found : dir.slots[k]? = some s := List.getElem?_eq_some_iff.mpr ⟨by omega,here⟩
    exact made.opened free (by decide) ended (by omega) (made.grown_getElem? found)

end

end SurfaceOS.Fat
