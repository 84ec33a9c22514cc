import SurfaceOS.Dev.Blkdev

/-! The registry of block devices (dev/blkdev.cpp): sixteen entries for disks and their partitions, which
leave it together once the disk is gone and nothing holds one of them. -/
namespace SurfaceOS.Block
open Usb.Msc Function List

def maxBlkdevs : Nat := 16

structure Device where
  name : List UInt8
  dev : Blkdev
  parent : Option Nat
  gone : Bool
  users : UInt32

abbrev Registry := Nat → Option Device

namespace Registry

def freeEntry (r : Registry) : Option Nat := (range maxBlkdevs).find? fun i => (r i).isNone

def find (r : Registry) (name : List UInt8) : Option Nat :=
  (range maxBlkdevs).find? fun i => (r i).any (·.name = name)

def registerDev (r : Registry) (name : List UInt8) (g : Geometry) : Option (Nat × Registry) :=
  r.freeEntry.map fun i => (i,update r i (some ⟨name,.disk g,none,false,0⟩))

def nameRoom : Nat := 15

def allocPartition (r : Registry) (parent : Nat) (name : List UInt8) (lbaOffset sectorCount : UInt64) :
    Option Registry :=
  match r parent,r.freeEntry with
  | some disk, some i => (Block.allocPartition disk.dev lbaOffset sectorCount).map fun child =>
      update r i (some ⟨name.take nameRoom,child,some parent,false,0⟩)
  | _, _ => none

def childOf (r : Registry) (disk i : Nat) : Bool := (r i).any (·.parent = some disk)

def collect (r : Registry) (disk : Nat) : Registry :=
  match r disk with
  | none => r
  | some d =>
    if !d.gone ∨ d.users ≠ 0 then r
    else if (range maxBlkdevs).any fun i => r.childOf disk i && (r i).any (·.users ≠ 0) then r
    else fun i => if i = disk ∨ r.childOf disk i then none else r i

def diskGone (r : Registry) (disk : Nat) : Registry :=
  collect (update r disk ((r disk).map fun d => {d with gone := true})) disk

def hold (r : Registry) (i : Nat) : Registry :=
  update r i ((r i).map fun d => {d with users := d.users + 1})

def diskOf (r : Registry) (i : Nat) : Nat := ((r i).bind (·.parent)).getD i

def drop (r : Registry) (i : Nat) : Registry :=
  collect (update r i ((r i).map fun d => {d with users := if d.users ≠ 0 then d.users - 1 else d.users}))
    (r.diskOf i)

variable {r : Registry} {i : Nat}

theorem freeEntry_spec (free : r.freeEntry = some i) : i < maxBlkdevs ∧ r i = none := by
  refine ⟨List.mem_range.mp (List.mem_of_find?_eq_some free),?_⟩
  simpa using List.find?_some free

theorem find_none {name : List UInt8} (missing : r.find name = none) (small : i < maxBlkdevs) {d : Device}
    (here : r i = some d) : d.name ≠ name := by
  have never := List.find?_eq_none.mp missing i (List.mem_range.mpr small)
  simpa [here] using never

theorem collect_spec (r : Registry) (disk : Nat) : r.collect disk = r ∨
    r.collect disk = fun i => if i = disk ∨ r.childOf disk i then none else r i := by
  unfold collect
  split
  · exact .inl rfl
  split
  · exact .inl rfl
  · split
    · exact .inl rfl
    · exact .inr rfl

end Registry
end SurfaceOS.Block
