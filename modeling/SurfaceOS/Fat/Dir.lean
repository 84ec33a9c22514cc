import SurfaceOS.Errno
import SurfaceOS.Fat.Unicode
import SurfaceOS.Lib.Memory

/-! Directories (fat32/dir.cpp) as the 32-byte slots of their chain, in order. One scan delivers the
records with the long names buffered before them; finding, listing, creating and removing are all
made from it. -/
namespace SurfaceOS.Fat
open Lib.Memory List

abbrev Slot := Nat → UInt8

def Slot.name11 (s : Slot) : List UInt8 := slice s 0 11
def Slot.attr (s : Slot) : UInt8 := s 11
def Slot.ntFlags (s : Slot) : UInt8 := s 12

def Slot.isEnd (s : Slot) : Bool := s 0 = 0x00
def Slot.isFree (s : Slot) : Bool := s 0 = 0xE5 ∨ s 0 = 0x00
def Slot.isLfn (s : Slot) : Bool := s.attr &&& 0x0F = 0x0F
def Slot.isVolumeId (s : Slot) : Bool := s.attr &&& 0x08 ≠ 0

/-- The same bytes as a `fat_lfn_entry`: ordinal, checksum, `name1`, `name2` and `name3`. -/
def Slot.ord (s : Slot) : Nat := (s 0).toNat % 64
def Slot.isLast (s : Slot) : Bool := (s 0).toNat / 64 % 2 = 1
def Slot.checksum (s : Slot) : UInt8 := s 13
def Slot.units (s : Slot) : List Nat :=
  (range 5).map (fun k => le16 s (1 + 2 * k)) ++ (range 6).map (fun k => le16 s (14 + 2 * k)) ++
    (range 2).map (fun k => le16 s (28 + 2 * k))

def maxLfnEntries : Nat := 20

/-- `scan_ctx`. -/
structure Lfn where
  chars : Nat → List Nat
  count : Nat
  expect : Nat
  valid : Bool
  checksum : UInt8

def Lfn.reset (sc : Lfn) : Lfn := {sc with count := 0, expect := 0, valid := false, checksum := 0}

def Lfn.empty : Lfn := ⟨fun _ => [],0,0,false,0⟩

def Lfn.take (sc : Lfn) (s : Slot) : Lfn :=
  let sc := if s.isLast then {sc.reset with checksum := s.checksum, expect := s.ord, count := s.ord} else sc
  if 1 ≤ s.ord ∧ s.ord ≤ maxLfnEntries ∧ s.checksum = sc.checksum ∧ s.ord = sc.expect then
    {sc with
      chars := Function.update sc.chars (s.ord - 1) s.units
      expect := s.ord - 1
      valid := sc.valid || s.ord - 1 = 0}
  else sc.reset

def Lfn.pass (sc : Lfn) (s : Slot) : Lfn :=
  if s 0 = 0xE5 then sc.reset
  else if s.isLfn then sc.take s
  else sc.reset

def Lfn.matching (sc : Lfn) (name11 : List UInt8) : Option Lfn :=
  if sc.valid ∧ sc.count > 0 ∧ sc.checksum = shortChecksum name11 then some sc else none

def Lfn.text (sc : Lfn) : Name :=
  ((range sc.count).flatMap fun s => ucs2ToUtf8 40 (sc.chars s) 0).take nameMax

structure Entry where
  index : Nat
  slot : Slot
  lfn : Option Lfn

def Slot.isRecord (s : Slot) : Bool := s 0 ≠ 0xE5 ∧ !s.isLfn ∧ !s.isVolumeId

/-- `scan_dir` from slot `i` on: the records its callback is called with, until it stops the scan. -/
def scanFrom : Lfn → Nat → List Slot → List Entry
  | _, _, [] => []
  | sc, i, s :: rest =>
    if s.isEnd then []
    else if s.isRecord then ⟨i,s,sc.matching s.name11⟩ :: scanFrom (sc.pass s) (i + 1) rest
    else scanFrom (sc.pass s) (i + 1) rest

def scanDir (slots : List Slot) : List Entry := scanFrom .empty 0 slots

def Entry.name (e : Entry) : Name :=
  match e.lfn with
  | some sc => sc.text
  | none => formatShort e.slot.name11 e.slot.ntFlags

/-- `find_cb`: a record with a long name also answers to its alias. -/
def Entry.answers (e : Entry) (name : Name) : Bool :=
  eqNocase e.name name || (e.lfn.isSome && eqNocase (formatShort e.slot.name11 e.slot.ntFlags) name)

def find (slots : List Slot) (name : Name) : Option Entry := (scanDir slots).find? (·.answers name)

def nextRecord (slots : List Slot) (cookie : Nat) : Option Entry := (scanDir slots).find? (cookie ≤ ·.index)

def listing (slots : List Slot) : Nat → Nat → List (Nat × Name)
  | 0, _ => []
  | fuel + 1, cookie => match nextRecord slots cookie with
    | none => []
    | some e => (e.index,e.name) :: listing slots fuel (e.index + 1)

def existsShort (slots : List Slot) (name11 : List UInt8) : Bool := (scanDir slots).any (·.slot.name11 == name11)

structure Dir where
  slots : List Slot
  room : Nat

/-- The walk of `reserve_run` with `run` free slots just passed, the first of them `start`. -/
def findRun (need : Nat) : List Slot → Nat → Nat → Nat → Option Nat
  | [], _, _, _ => none
  | s :: rest, slot, run, start =>
    if s.isFree then
      let start := if run = 0 then slot else start
      if run + 1 ≥ need then some start
      else findRun need rest (slot + 1) (run + 1) start
    else findRun need rest (slot + 1) 0 start

/-- `grow_dir`, as far as the slots show it. -/
def growDir (perCluster : Nat) (slots : List Slot) : List Slot := slots ++ replicate perCluster fun _ => 0

def reserveRun (perCluster need : Nat) : Nat → List Slot → Except Errno Nat × Dir
  | room, slots => match findRun need slots 0 0 0, room with
    | some start, room => (.ok start,⟨slots,room⟩)
    | none, 0 => (.error .enospc,⟨slots,0⟩)
    | none, room + 1 => reserveRun perCluster need room (growDir perCluster slots)

def numberLoop (slots : List Slot) (alias11 : List UInt8) : Nat → Nat → Except Errno (List UInt8)
  | 0, _ => .error .eexist
  | left + 1, n =>
    if (suffix n).length > 7 then .error .enametoolong
    else if existsShort slots (numbered alias11 n) then numberLoop slots alias11 left (n + 1)
    else .ok (numbered alias11 n)

def chooseShort (slots : List Slot) (short : Short) : Except Errno (List UInt8) :=
  if short.needsLfn then numberLoop slots short.name11 999999 1
  else if existsShort slots short.name11 then .error .eexist
  else .ok short.name11

def lfnSlot (units : List Nat) (sum : UInt8) (count s : Nat) : Slot :=
  let chars := slotUnits units s
  patch (fun _ => 0) 0 ([UInt8.ofNat (s + if s = count then 0x40 else 0)] ++ (chars.take 5).flatMap bytes16 ++
    [0x0F,0,sum] ++ ((chars.drop 5).take 6).flatMap bytes16 ++ [0,0] ++ (chars.drop 11).flatMap bytes16)

structure Fresh where
  isDir : Bool
  firstCluster : Nat
  date : Nat
  time : Nat

def shortSlot (name11 : List UInt8) (ntFlags : UInt8) (new : Fresh) : Slot :=
  patch (fun _ => 0) 0 (name11 ++ [0x20 ||| if new.isDir then 0x10 else 0,ntFlags,0] ++ bytes16 new.time ++
    bytes16 new.date ++ bytes16 new.date ++ bytes16 (new.firstCluster / 65536) ++ bytes16 new.time ++
    bytes16 new.date ++ bytes16 new.firstCluster ++ bytes32 0)

/-- The long name's slots, highest ordinal first, and the record behind them. -/
def recordRun (units : List Nat) (count : Nat) (name11 : List UInt8) (ntFlags : UInt8) (new : Fresh) : List Slot :=
  (range count).map (fun j => lfnSlot units (shortChecksum name11) count (count - j)) ++
    [shortSlot name11 ntFlags new]

def place (slots : List Slot) (start : Nat) (run : List Slot) : List Slot :=
  slots.take start ++ run ++ slots.drop (start + run.length)

def create (perCluster : Nat) (dir : Dir) (name : Name) (new : Fresh) : Except Errno Nat × Dir :=
  if !validName name then (.error .einval,dir)
  else if (find dir.slots name).isSome then (.error .eexist,dir)
  else
    let units := utf8ToUcs2 nameMax name
    let short := makeShortName name
    match chooseShort dir.slots short with
    | .error e => (.error e,dir)
    | .ok name11 =>
      let count := if short.needsLfn then slotsFor units.length else 0
      if count > maxLfnEntries then (.error .enametoolong,dir)
      else match reserveRun perCluster (count + 1) dir.room dir.slots with
        | (.error e,dir) => (.error e,dir)
        | (.ok start,dir) =>
          let flags := if short.needsLfn then 0 else short.ntFlags
          (.ok (start + count),{dir with slots := place dir.slots start (recordRun units count name11 flags new)})

end SurfaceOS.Fat
