import SurfaceOS.Fat.Dir
import SurfaceOS.Fat.File

/-! Directories on the disk (fat32/dir.cpp): a chain cut into 32-byte slots, and the functions of
`fatdir` as they read and write them there. The directory's node goes along, its position cache
moves. -/
namespace SurfaceOS.Fat.Fatdir
open Lib Lib.Memory List

variable (sb : Super)

def entriesPerCluster : Nat := sb.clusterSize / 32

def load (disk : Disk) (spot : Nat × Nat) : Slot := fun j => if j < 32 then disk spot.1 (spot.2 + j) else 0

def store (disk : Disk) (spot : Nat × Nat) (slot : Slot) : Disk :=
  Function.update disk spot.1 (patch (disk spot.1) spot.2 (slice slot 0 32))

def spot (cluster k : Nat) : Nat × Nat :=
  (clusterLba sb cluster + k * 32 / sb.bytesPerSector,k * 32 % sb.bytesPerSector)

def slotsOf (disk : Disk) (cells : List Nat) : List Slot :=
  cells.flatMap fun c => (range (entriesPerCluster sb)).map fun k => load disk (spot sb c k)

/-- The clusters from `c` to the end of the chain, and the error that ends the walk early. The kernel
follows a circle for ever; here it is left after as many clusters as the volume has. -/
def walk (v : Vol) : Nat → Nat → List Nat × Option Errno
  | 0, _ => ([],some .eio)
  | fuel + 1, c => match readEntry sb v c with
    | .error e => ([c],some e)
    | .ok next =>
      if next < 2 ∨ next ≥ clusterEoc then ([c],none)
      else (c :: (walk v fuel next).1,(walk v fuel next).2)

/-- The clusters and slots `scan_dir` passes, and what it returns when no record stops it. -/
structure Scan where
  cells : List Nat
  slots : List Slot
  rc : Option Errno

def scan (v : Vol) (first : Nat) : Scan :=
  if first < 2 then ⟨[],[],some .einval⟩
  else
    let reached := walk sb v (sb.totalClusters + 1) first
    let slots := slotsOf sb v.disk reached.1
    ⟨reached.1,slots,if slots.any Slot.isEnd then none else reached.2⟩

def Scan.spot (s : Scan) (index : Nat) : Nat × Nat :=
  Fatdir.spot sb (s.cells.getD (index / entriesPerCluster sb) 0) (index % entriesPerCluster sb)

def Scan.first (s : Scan) (stops : Entry → Bool) : Except Errno (Option Entry) :=
  match (scanDir s.slots).find? stops, s.rc with
  | some e, _ => .ok (some e)
  | none, some e => .error e
  | none, none => .ok none

def find (v : Vol) (dir : Nat) (name : Name) : Except Errno (Option Entry) :=
  (scan sb v dir).first (·.answers name)

def existsShort (v : Vol) (dir : Nat) (name11 : List UInt8) : Except Errno Bool :=
  ((scan sb v dir).first (·.slot.name11 == name11)).map Option.isSome

def slotLocation (io : Io) (index : Nat) : Except Errno ((Nat × Nat) × Io) :=
  match clusterAt sb io.vol io.node (index / entriesPerCluster sb) with
  | .error e => .error e
  | .ok (cluster,node) => .ok (spot sb cluster (index % entriesPerCluster sb),⟨io.vol,node⟩)

def put (io : Io) (spot : Nat × Nat) (slot : Slot) : Io :=
  {io with vol := {io.vol with disk := store io.vol.disk spot slot}}

def lastCluster (v : Vol) : Nat → Nat → Except Errno Nat
  | guard, c => match readEntry sb v c with
    | .error e => .error e
    | .ok next =>
      if next < 2 ∨ next ≥ clusterEoc then .ok c
      else match guard with
        | 0 => .error .eio
        | guard + 1 => lastCluster v guard next

/-- A cluster `grow_dir` could not use goes back without being counted. -/
def giveUp (v : Vol) (c : Nat) : Vol :=
  match writeEntry sb v c clusterFree with
  | .error _ => v
  | .ok v => v

def growDir (io : Io) : Except Errno Unit × Io :=
  match lastCluster sb io.vol (sb.totalClusters + 2) io.node.firstCluster with
  | .error e => (.error e,io)
  | .ok last => match allocCluster sb io.vol with
    | .error e => (.error e,io)
    | .ok (newc,vol) => match writeCluster sb vol newc (replicate sb.clusterSize 0) with
      | (.error e,vol) => (.error e,⟨giveUp sb vol newc,io.node⟩)
      | (.ok _,vol) => match writeEntry sb vol last newc with
        | .error e => (.error e,⟨giveUp sb vol newc,io.node⟩)
        | .ok vol => (.ok (),⟨vol,{io.node with lastIndex := 0xFFFFFFFF, lastCluster := 0}⟩)

/-- `reserve_run`. Every turn but the last takes a free cluster, so `fuel` is one more than there are. -/
def reserveRun (need : Nat) : Nat → Io → Except Errno Nat × Io
  | 0, io => (.error .enospc,io)
  | fuel + 1, io =>
    let reached := walk sb io.vol (sb.totalClusters + 1) io.node.firstCluster
    match findRun need (slotsOf sb io.vol.disk reached.1) 0 0 0, reached.2 with
    | some start, _ => (.ok start,io)
    | none, some e => (.error e,io)
    | none, none => match growDir sb io with
      | (.error e,io) => (.error e,io)
      | (.ok _,io) => reserveRun need fuel io

def numberLoop (v : Vol) (dir : Nat) (alias11 : List UInt8) : Nat → Nat → Except Errno (List UInt8)
  | 0, _ => .error .eexist
  | left + 1, n =>
    if (suffix n).length > 7 then .error .enametoolong
    else match existsShort sb v dir (numbered alias11 n) with
      | .error e => .error e
      | .ok true => numberLoop v dir alias11 left (n + 1)
      | .ok false => .ok (numbered alias11 n)

def chooseShort (v : Vol) (dir : Nat) (short : Short) : Except Errno (List UInt8) :=
  if short.needsLfn then numberLoop sb v dir short.name11 999999 1
  else match existsShort sb v dir short.name11 with
    | .error e => .error e
    | .ok true => .error .eexist
    | .ok false => .ok short.name11

/-- The slots of a new record in the order `create` writes them: the long name from its first
characters on, which lie last, and then the record. -/
def newSlots (units : List Nat) (count : Nat) (name11 : List UInt8) (ntFlags : UInt8) (new : Fresh) (start : Nat) :
    List (Nat × Slot) :=
  (range count).map (fun s =>
    (start + (count - (s + 1)),lfnSlot units (shortChecksum name11) count (s + 1))) ++
    [(start + count,shortSlot name11 ntFlags new)]

def storeAll : Io → List (Nat × Slot) → Nat × Nat → Except Errno (Nat × Nat) × Io
  | io, [], last => (.ok last,io)
  | io, (index,slot) :: rest, _ => match slotLocation sb io index with
    | .error e => (.error e,io)
    | .ok (spot,io) => storeAll (put io spot slot) rest spot

structure Created where
  index : Nat
  spot : Nat × Nat

def create (io : Io) (name : Name) (new : Fresh) : Except Errno Created × Io :=
  if !validName name then (.error .einval,io)
  else match find sb io.vol io.node.firstCluster name with
    | .error e => (.error e,io)
    | .ok (some _) => (.error .eexist,io)
    | .ok none =>
      let units := utf8ToUcs2 nameMax name
      let short := makeShortName name
      match chooseShort sb io.vol io.node.firstCluster short with
      | .error e => (.error e,io)
      | .ok name11 =>
        let count := if short.needsLfn then slotsFor units.length else 0
        if count > maxLfnEntries then (.error .enametoolong,io)
        else match reserveRun sb (count + 1) (sb.totalClusters + 1) io with
          | (.error e,io) => (.error e,io)
          | (.ok start,io) =>
            let flags := if short.needsLfn then 0 else short.ntFlags
            match storeAll sb io (newSlots units count name11 flags new start) (0,0) with
            | (.error e,io) => (.error e,io)
            | (.ok spot,io) => (.ok ⟨start + count,spot⟩,io)

def freed (slot : Slot) : Slot := Function.update slot 0 0xE5

/-- The slots of the long name before a removed record, from the last one back. -/
def removeLfn (sum : UInt8) : Nat → Io → Io
  | 0, io => io
  | index + 1, io => match slotLocation sb io index with
    | .error _ => io
    | .ok (spot,io) =>
      let raw := load io.vol.disk spot
      if raw.isLfn ∧ raw 0 ≠ 0xE5 ∧ raw.checksum = sum then removeLfn sum index (put io spot (freed raw))
      else io

def remove (io : Io) (index : Nat) : Except Errno Unit × Io :=
  match slotLocation sb io index with
  | .error e => (.error e,io)
  | .ok (spot,io) =>
    let e := load io.vol.disk spot
    if e.isFree then (.error .enoent,io)
    else (.ok (),removeLfn sb (shortChecksum e.name11) index (put io spot (freed e)))

end SurfaceOS.Fat.Fatdir
