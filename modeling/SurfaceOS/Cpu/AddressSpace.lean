import Mathlib.Data.UInt

/-! The user half of an address space (cpu/paging.cpp), page by page. The tables above an entry are
writable, never NX, and user-accessible as the entry is, so that the entry alone says what a
program may do with its page. -/
namespace SurfaceOS.Cpu.Paging
open Function Option

def pageSize : Nat := 4096

def userMin : UInt64 := 0x10000

def userLimit : UInt64 := 0x0000800000000000

structure Flags where
  write : Bool
  nx : Bool
  shared : Bool
  deriving DecidableEq

structure Page where
  flags : Flags
  bytes : Nat → UInt8

abbrev Space := Nat → Option Page

/-- `hasNx` is `cpu::has_nx`; `frames` says for which pages there are frames, for themselves and the
tables on the way to them, and `heap` which calls of `kmalloc` find memory. -/
structure Machine where
  hasNx : Bool
  frames : Nat → Bool
  heap : Nat → Bool

def pageOf (virt : UInt64) : Nat := virt.toNat / pageSize

def isUserRange (addr len : UInt64) : Bool :=
  if addr < userMin ∨ addr ≥ userLimit then false else len ≤ userLimit - addr

def Machine.fresh (m : Machine) (flags : Flags) : Flags := {flags with nx := flags.nx && m.hasNx}

def mapUserPage (m : Machine) (space : Space) (virt : UInt64) (bytes : Nat → UInt8) (flags : Flags) : Option Space :=
  if isUserRange virt (UInt64.ofNat pageSize) ∧ m.frames (pageOf virt) then
    some (update space (pageOf virt) (some ⟨m.fresh flags,bytes⟩))
  else none

def Flags.upgrade (old new : Flags) : Flags :=
  ⟨old.write || new.write,old.nx && new.nx,old.shared || new.shared⟩

def upgradePageFlags (space : Space) (virt : UInt64) (flags : Flags) : Space :=
  match space (pageOf virt) with
  | none => space
  | some page => update space (pageOf virt) (some {page with flags := page.flags.upgrade flags})

def mapZeroPage (m : Machine) (space : Space) (virt : UInt64) (flags : Flags) : Option Space :=
  if (space (pageOf virt)).isSome then some (upgradePageFlags space virt flags)
  else mapUserPage m space virt (fun _ => 0) flags

/-- `map_user_region`, and the loops of `sdkpage::install`, over `count` pages. -/
def mapRegion (m : Machine) (space : Space) (vaddr : UInt64) (count : Nat) (bytes : Nat → Nat → UInt8)
    (flags : Flags) : Option Space :=
  (List.range count).foldlM (fun space i =>
    mapUserPage m space (vaddr + UInt64.ofNat (i * pageSize)) (bytes i) flags) space

def rights (space : Space) (page : Nat) : Option Flags := (space page).map Page.flags

def Machine.join (m : Machine) (old : Option Flags) (new : Flags) : Flags :=
  match old with
  | none => m.fresh new
  | some flags => flags.upgrade new

variable {m : Machine} {space after : Space} {virt : UInt64} {flags : Flags} {page : Nat}

theorem mapUserPage_rights {bytes : Nat → UInt8} (mapped : mapUserPage m space virt bytes flags = some after) :
    rights after page = if page = pageOf virt then some (m.fresh flags) else rights space page := by
  obtain ⟨_,⟨⟩⟩ := ite_none_right_eq_some.mp mapped
  unfold rights
  rw [update_apply]
  split <;> rfl

theorem mapZeroPage_eq (mapped : mapZeroPage m space virt flags = some after) : ∃ p : Page,
    after = update space (pageOf virt) (some p) ∧ p.flags = m.join (rights space (pageOf virt)) flags ∧
      p.bytes = ((space (pageOf virt)).map Page.bytes).getD fun _ => 0 := by
  unfold mapZeroPage at mapped
  unfold rights
  split at mapped
  · next there =>
    obtain ⟨old,found⟩ := isSome_iff_exists.mp there
    cases mapped
    unfold upgradePageFlags
    rw [found]
    exact ⟨_,rfl,rfl,rfl⟩
  · next none =>
    obtain ⟨_,⟨⟩⟩ := ite_none_right_eq_some.mp mapped
    rw [not_isSome_iff_eq_none.mp none]
    exact ⟨_,rfl,rfl,rfl⟩

theorem mapZeroPage_rights (mapped : mapZeroPage m space virt flags = some after) :
    rights after page = if page = pageOf virt then some (m.join (rights space page) flags)
      else rights space page := by
  obtain ⟨p,rfl,joined,-⟩ := mapZeroPage_eq mapped
  rw [rights,update_apply]
  split
  · next same =>
    rw [same,← joined]
    rfl
  · rfl

theorem mapRegion_rights {vaddr : UInt64} {count : Nat} {bytes : Nat → Nat → UInt8}
    (mapped : mapRegion m space vaddr count bytes flags = some after)
    (aligned : vaddr.toNat % pageSize = 0) (small : vaddr.toNat + count * pageSize < 2^64) :
    rights after page = if pageOf vaddr ≤ page ∧ page < pageOf vaddr + count then some (m.fresh flags)
      else rights space page := by
  induction count generalizing after with
  | zero =>
    cases mapped
    rw [if_neg (by omega)]
  | succ count ih =>
    unfold mapRegion at mapped
    rw [List.range_succ,List.foldlM_append] at mapped
    obtain ⟨middle,before,last⟩ := bind_eq_some_iff.mp mapped
    obtain ⟨_,here,⟨⟩⟩ := bind_eq_some_iff.mp last
    have number : pageOf (vaddr + UInt64.ofNat (count * pageSize)) = pageOf vaddr + count := by
      unfold pageOf
      rw [UInt64.toNat_add,UInt64.toNat_ofNat']
      simp only [pageSize] at aligned small ⊢
      omega
    rw [mapUserPage_rights here,number,ih before (by rw [Nat.succ_mul] at small; omega)]
    by_cases last : page = pageOf vaddr + count
    · rw [if_pos last,if_pos (by omega)]
    rw [if_neg last]
    by_cases inside : pageOf vaddr ≤ page ∧ page < pageOf vaddr + count
    · rw [if_pos inside,if_pos (by omega)]
    · rw [if_neg inside,if_neg (by omega)]

end SurfaceOS.Cpu.Paging
