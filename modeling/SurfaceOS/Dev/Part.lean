import Mathlib.Data.Nat.Digits.Defs
import SurfaceOS.Dev.Registry

/-! Partition tables (dev/part.cpp). Everything in them comes from the disk. The sizes of a GPT are
multiplied and rounded in 32 bits, its entries are then taken at 64-bit offsets. -/
namespace SurfaceOS.Part
open Lib Usb.Msc Block Lib.Memory

def maxPartsPerDisk : Nat := 8

def maxGptEntries : UInt32 := 128

def gptEntrySize : Nat := 128

def crc32Bit (crc : UInt32) : UInt32 := (crc >>> 1) ^^^ (0xEDB88320 &&& (0 - (crc &&& 1)))

def crc32 (data : List UInt8) : UInt32 :=
  data.foldl (fun crc byte => crc32Bit^[8] (crc ^^^ byte.toUInt32)) 0xFFFFFFFF ^^^ 0xFFFFFFFF

def digits (index : Nat) : List UInt8 :=
  if index = 0 then [48] else (Nat.digits 10 index).reverse.map fun d => UInt8.ofNat (48 + d)

def childName (disk : List UInt8) (index : Nat) : List UInt8 := (disk.take 10 ++ 112 :: digits index).take 15

def registerChild (r : Registry) (disk : Nat) (diskName : List UInt8) (index : Nat) (start size : UInt64) : Registry :=
  (r.allocPartition disk (childName diskName index) start size).getD r

structure GptHeader where
  signature : List UInt8
  headerSize : UInt32
  headerCrc : UInt32
  entriesLba : UInt64
  numEntries : UInt32
  entrySize : UInt32
  entriesCrc : UInt32

def word32 (m : Nat → UInt8) (a : Nat) : UInt32 := UInt32.ofNat (le32 m a)

def word64 (m : Nat → UInt8) (a : Nat) : UInt64 := UInt64.ofNat (le64 m a)

def GptHeader.read (m : Nat → UInt8) : GptHeader where
  signature := slice m 0 8
  headerSize := word32 m 12
  headerCrc := word32 m 16
  entriesLba := word64 m 72
  numEntries := word32 m 80
  entrySize := word32 m 84
  entriesCrc := word32 m 88

def gptEntry (m : Nat → UInt8) (a : Nat) : GptEntry where
  used := slice m a 16 ≠ List.replicate 16 0
  firstLba := word64 m (a + 32)
  lastLba := word64 m (a + 40)

/-- What the heap answers: whether each of the four buffers is there, and what lies behind the last. -/
structure Heap where
  sector0 : Bool
  sector1 : Bool
  header : Bool
  entries : Bool
  behind : Nat → UInt8

structure Medium where
  g : Geometry
  slot : Nat
  name : List UInt8
  gone : Bool
  env : Nat → Exchange

def Medium.read (m : Medium) (d : Driver) (lba : UInt64) (count : UInt32) : Except Errno (List UInt8) × Driver :=
  transfer .read (.disk m.g) m.gone m.env d lba count fun _ => 0

def Medium.sectorCount (m : Medium) : UInt64 := (Blkdev.disk m.g).sectorCount

/-- The entry array, read in pieces of `max_sectors_per_io`, from its sector `s` on. -/
def readEntries (m : Medium) (lba : UInt64) (sectors s : Nat) (out : List UInt8) (d : Driver) :
    Option (List UInt8) × Driver :=
  if s < sectors then
    match m.read d (lba + UInt64.ofNat s) (UInt32.ofNat (min (maxSectorsPerIo m.g).toNat (sectors - s))) with
    | (.error _,d) => (none,d)
    | (.ok bytes,d) => readEntries m lba sectors (s + (maxSectorsPerIo m.g).toNat) (out ++ bytes) d
  else (some out,d)
termination_by sectors - s
decreasing_by
  have positive := (maxSectorsPerIo_toNat m.g).2
  omega

/-- The loop over the entries: what it has registered, how many, and the entries it looked at. -/
structure Loop where
  registry : Registry
  registered : Nat
  seen : List Nat

def gptLoop (m : Medium) (table : Nat → UInt8) (esz : Nat) : Nat → Nat → Loop → Loop
  | 0, _, l => l
  | left + 1, i, l =>
    let e := gptEntry table (i * esz)
    let l := {l with seen := l.seen ++ [i]}
    if !e.used then gptLoop m table esz left (i + 1) l
    else if e.lastLba < e.firstLba ∨ e.lastLba ≥ m.sectorCount then gptLoop m table esz left (i + 1) l
    else if l.registered ≥ maxPartsPerDisk then l
    else
      gptLoop m table esz left (i + 1) {l with
        registry := registerChild l.registry m.slot m.name (i + 1) e.firstLba (e.lastLba - e.firstLba + 1)
        registered := l.registered + 1}

/-- What came of a GPT; `table` is there when its entries were looked at: the buffer, and which of them. -/
structure Parsed where
  registry : Registry
  driver : Driver
  table : Option (List UInt8 × List Nat)

def tableSectors (sectorSize num esz : UInt32) : UInt32 := (num * esz + sectorSize - 1) / sectorSize

def parseGpt (m : Medium) (heap : Heap) (h : GptHeader) (r : Registry) (d : Driver) : Parsed :=
  let esz := h.entrySize
  let num := h.numEntries
  if esz < UInt32.ofNat gptEntrySize ∨ num = 0 ∨ num > maxGptEntries then ⟨r,d,none⟩
  else
    let total := num * esz
    let sectors := tableSectors m.g.blockSize num esz
    -- `kmalloc` has nothing for a size of 0
    if !heap.entries ∨ sectors = 0 then ⟨r,d,none⟩
    else
      match readEntries m h.entriesLba sectors.toNat 0 [] d with
      | (none,d) => ⟨r,d,none⟩
      | (some bytes,d) =>
        let table := patch heap.behind 0 bytes
        if crc32 (slice table 0 total.toNat) ≠ h.entriesCrc then ⟨r,d,none⟩
        else
          let l := gptLoop m table esz.toNat num.toNat 0 ⟨r,0,[]⟩
          ⟨l.registry,d,some (bytes,l.seen)⟩

def mbrTypeIsFat (type : UInt8) : Bool := type ∈ [0x0B,0x0C,0x1B,0x1C,0x1E,0xEF]

structure MbrEntry where
  type : UInt8
  lbaStart : UInt32
  lbaSize : UInt32

def mbrEntry (m : Nat → UInt8) (i : Nat) : MbrEntry :=
  ⟨m (446 + i * 16 + 4),word32 m (446 + i * 16 + 8),word32 m (446 + i * 16 + 12)⟩

def mbrLoop (m : Medium) (sector : Nat → UInt8) : Nat → Nat → Nat → Registry → Registry
  | 0, _, _, r => r
  | left + 1, i, registered, r =>
    let e := mbrEntry sector i
    if e.type = 0 then mbrLoop m sector left (i + 1) registered r
    else if !mbrTypeIsFat e.type then mbrLoop m sector left (i + 1) registered r
    else if e.lbaSize = 0 ∨ e.lbaStart.toUInt64 + e.lbaSize.toUInt64 > m.sectorCount then
      mbrLoop m sector left (i + 1) registered r
    else
      let r := registerChild r m.slot m.name (i + 1) e.lbaStart.toUInt64 e.lbaSize.toUInt64
      if registered + 1 ≥ maxPartsPerDisk then r else mbrLoop m sector left (i + 1) (registered + 1) r

def parseMbr (m : Medium) (sector : Nat → UInt8) (r : Registry) : Registry := mbrLoop m sector 4 0 0 r

def buffer (bytes : List UInt8) : Nat → UInt8 := fun i => bytes.getD i 0

def mbrSignature (sector : Nat → UInt8) (sectorSize : UInt32) : Bool :=
  !(sectorSize < 512) && sector 510 = 0x55 && sector 511 = 0xAA

def efiPart : List UInt8 := [69,70,73,32,80,65,82,84]

/-- The header of a GPT is one, and it is whole; its check sum is over it with the sum's own bytes zero. -/
def headerOk (heap : Heap) (sectorSize : UInt32) (sector : Nat → UInt8) : Bool :=
  let h := GptHeader.read sector
  h.signature = efiPart && !(h.headerSize < 92) && !(h.headerSize > sectorSize) && heap.header &&
    crc32 (slice (patch sector 16 [0,0,0,0]) 0 h.headerSize.toNat) = h.headerCrc

/-- The header, when there is a GPT: a protective MBR and a header at sector 1 that is whole. -/
def findGpt (m : Medium) (heap : Heap) (sector0 : Nat → UInt8) (d : Driver) : Option GptHeader × Driver :=
  if (mbrEntry sector0 0).type = 0xEE ∧ m.sectorCount ≥ 2 ∧ heap.sector1 then
    match m.read d 1 1 with
    | (.error _,d) => (none,d)
    | (.ok bytes,d) => (if headerOk heap m.g.blockSize (buffer bytes) then some (.read (buffer bytes)) else none,d)
  else (none,d)

def anyFat (sector : Nat → UInt8) : Bool :=
  (List.range 4).any fun i => (mbrEntry sector i).type ≠ 0 && mbrTypeIsFat (mbrEntry sector i).type

/-- `scan` of a whole disk. A superfloppy, or anything else, has no partitions. -/
def scan (m : Medium) (heap : Heap) (r : Registry) (d : Driver) : Registry × Driver :=
  if !heap.sector0 then (r,d)
  else
    match m.read d 0 1 with
    | (.error _,d) => (r,d)
    | (.ok bytes,d) =>
      if !mbrSignature (buffer bytes) m.g.blockSize then (r,d)
      else
        match findGpt m heap (buffer bytes) d with
        | (some h,d) => ((parseGpt m heap h r d).registry,(parseGpt m heap h r d).driver)
        | (none,d) => if anyFat (buffer bytes) then (parseMbr m (buffer bytes) r,d) else (r,d)

end SurfaceOS.Part
