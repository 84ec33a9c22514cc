import SurfaceOS.Errno
import SurfaceOS.Lib.Memory
import SurfaceOS.Lib.Transition

/-! The sector cache (dev/bcache.cpp) over block devices (dev/blkdev.cpp). A device is a
window of a disk, a sector a value of any type. Each request to a disk and each `kmalloc`
takes the next of the events that the hardware and the heap have in store. All of the cache
runs under the disks' lock, so a call is one step. Sector numbers are 64 bits wide: sums of them wrap. -/
namespace SurfaceOS.Bcache
open Lib Function List Lib.Memory

/-- A window of a disk; `part_scan` registers none that leaves its disk. -/
structure Device where
  disk : Nat
  offset : Nat
  sectorCount : Nat
  sectorSize : Nat
  inside : offset + sectorCount < 2^64

/-- `torn` is what a failed write leaves in the sectors it was to write. -/
structure Event (D : Type) where
  fails : Bool
  torn : Nat → D
  memory : Bool

structure Setup (D : Type) where
  nbuf : Nat
  devs : Nat → Device
  disks : List Nat
  events : Nat → Event D

/-- A `buf`; `touched` says that a holder has changed the data and not put it yet. -/
structure Buf (D : Type) where
  dev : Nat
  lba : Nat
  valid : Bool
  dirty : Bool
  refcnt : Nat
  lastUse : Nat
  data : D
  touched : Bool

/-- `last` records what was put dirty last for a device's sector, and before that what the
disk held; `used` the devices the cache was called for. -/
structure State (D : Type) where
  bufs : Nat → Buf D
  clock : Nat
  disk : Nat → Nat → D
  gone : Nat → Bool
  ticks : Nat
  last : Nat → Nat → D
  used : Nat → Bool

variable {D : Type}

def State.setBuf (s : State D) (i : Nat) (b : Buf D) : State D :=
  {s with bufs := update s.bufs i b}

def State.tick (s : State D) : State D := {s with ticks := s.ticks + 1}

def State.patchDisk (s : State D) (disk lba : Nat) (xs : List D) : State D :=
  {s with disk := update s.disk disk (patch (s.disk disk) lba xs)}

def sector (c : Setup D) (s : State D) (d lba : Nat) : D :=
  s.disk (c.devs d).disk ((c.devs d).offset + lba)

def isGone (c : Setup D) (s : State D) (d : Nat) : Bool := s.gone (c.devs d).disk

/-- `resolve`: the disk's number of a device's sector. -/
def place (c : Setup D) (d lba : Nat) : Nat := ((c.devs d).offset + lba) % 2^64

def blockRead (c : Setup D) (s : State D) (d lba n : Nat) : Except Errno (List D) × State D :=
  if n = 0 ∨ (c.devs d).sectorCount < (lba + n) % 2^64 then (.error .einval,s)
  else if isGone c s d then (.error .eio,s)
  else if (c.events s.ticks).fails then (.error .eio,s.tick)
  else (.ok (slice (s.disk (c.devs d).disk) (place c d lba) n),s.tick)

/-- `block::write`; of a request that fails any part may have reached the disk. -/
def blockWrite (c : Setup D) (s : State D) (d lba : Nat) (xs : List D) : Except Errno Unit × State D :=
  if xs.length = 0 ∨ (c.devs d).sectorCount < (lba + xs.length) % 2^64 then (.error .einval,s)
  else if isGone c s d then (.error .eio,s)
  else
    let start := place c d lba
    if (c.events s.ticks).fails then
      (.error .eio,s.tick.patchDisk (c.devs d).disk start
        (slice (c.events s.ticks).torn start xs.length))
    else (.ok (),s.tick.patchDisk (c.devs d).disk start xs)

def holds (b : Buf D) (d lba : Nat) : Bool := b.valid && b.dev == d && b.lba == lba

def findBuffer (c : Setup D) (s : State D) (d lba : Nat) : Option Nat :=
  (range c.nbuf).find? fun i => holds (s.bufs i) d lba

def dirtyAt (c : Setup D) (s : State D) (d lba : Nat) : Option Nat :=
  (findBuffer c s d lba).filter fun i => (s.bufs i).dirty

def stageBytes : Nat := 64 * 1024

def maxRun (c : Setup D) (d : Nat) : Nat :=
  let ss := (c.devs d).sectorSize
  if ss ≠ 0 ∧ ss ≤ stageBytes then stageBytes / ss else 1

def firstOfRun (c : Setup D) (s : State D) (d : Nat) : Nat → Nat → Nat
  | 0, i => i
  | n + 1, i =>
    if (s.bufs i).lba = 0 then i
    else match dirtyAt c s d ((s.bufs i).lba - 1) with
      | some p => firstOfRun c s d n p
      | none => i

def restOfRun (c : Setup D) (s : State D) (d : Nat) : Nat → Nat → List Nat
  | 0, _ => []
  | n + 1, lba => match dirtyAt c s d (lba % 2^64) with
    | some p => p :: restOfRun c s d n (lba + 1)
    | none => []

def runOf (c : Setup D) (s : State D) (i : Nat) : List Nat :=
  let d := (s.bufs i).dev
  let first := firstOfRun c s d (maxRun c d - 1) i
  first :: restOfRun c s d (maxRun c d - 1) ((s.bufs first).lba + 1)

def State.clean (s : State D) (run : List Nat) : State D :=
  {s with bufs := fun j => if j ∈ run then {s.bufs j with dirty := false} else s.bufs j}

def writeback (c : Setup D) (s : State D) (i : Nat) : Except Errno Unit × State D :=
  let b := s.bufs i
  if !b.dirty then (.ok (),s)
  else if isGone c s b.dev then (.error .eio,s.setBuf i {b with dirty := false})
  else
    let run := runOf c s i
    let first := s.bufs (firstOfRun c s b.dev (maxRun c b.dev - 1) i)
    match blockWrite c s b.dev first.lba (run.map fun p => (s.bufs p).data) with
    | (.error e,t) => (.error e,t)
    | (.ok _,t) => (.ok (),t.clean run)

def older (s : State D) (best : Option Nat) (i : Nat) : Option Nat :=
  match best with
  | none => some i
  | some j => if (s.bufs i).lastUse < (s.bufs j).lastUse then some i else some j

def pickLoop (s : State D) : List Nat → Option Nat → Option Nat → Option Nat
  | [], bestClean, bestDirty => bestClean.or bestDirty
  | i :: rest, bestClean, bestDirty =>
    if (s.bufs i).refcnt ≠ 0 then pickLoop s rest bestClean bestDirty
    else if !(s.bufs i).valid then some i
    else if (s.bufs i).dirty then pickLoop s rest bestClean (older s bestDirty i)
    else pickLoop s rest (older s bestClean i) bestDirty

def pickVictim (c : Setup D) (s : State D) : Option Nat := pickLoop s (range c.nbuf) none none

def State.lock (s : State D) (i : Nat) : State D :=
  let b := s.bufs i
  {s.setBuf i {b with refcnt := b.refcnt + 1, lastUse := s.clock + 1} with clock := s.clock + 1}

def State.claim (s : State D) (i d lba : Nat) : State D :=
  let bound : Buf D := ⟨d,lba,true,false,1,s.clock + 1,(s.bufs i).data,(s.bufs i).touched⟩
  {s.setBuf i bound with clock := s.clock + 1}

def State.setData (s : State D) (i : Nat) (x : D) : State D := s.setBuf i {s.bufs i with data := x}

def State.scatter (s : State D) : List Nat → List D → State D
  | i :: run, x :: xs => (s.setData i x).scatter run xs
  | _, _ => s

def get (c : Setup D) (s : State D) (d lba : Nat) : Except Errno Nat × State D :=
  if (c.devs d).sectorCount ≤ lba then (.error .einval,s)
  else match findBuffer c s d lba with
    | some i => (.ok i,s.lock i)
    | none => match pickVictim c s with
      | none => (.error .ebusy,s)
      | some i =>
        let b := s.bufs i
        match if b.valid && b.dirty && !isGone c s b.dev then writeback c s i else (.ok (),s) with
        | (.error e,t) => (.error e,t)
        | (.ok _,t) => match blockRead c (t.claim i d lba) d lba 1 with
          | (.error e,u) => (.error e,u.setBuf i {u.bufs i with valid := false, refcnt := 0})
          | (.ok xs,u) => (.ok i,u.scatter [i] xs)

def maxRangeCount : Nat := 512

def maxRangeChunk : Nat := 64

def fillChunks (c : Setup D) (d chunk : Nat) : Nat → Nat → List Nat → State D →
    Except Errno Unit × State D
  | 0, _, _, s => (.ok (),s)
  | _, _, [], s => (.ok (),s)
  | fuel + 1, lba, run, s =>
    let n := if chunk < run.length then chunk else run.length
    match blockRead c s d lba n with
    | (.error e,t) => (.error e,t)
    | (.ok xs,t) => fillChunks c d chunk fuel (lba + n) (run.drop n) (t.scatter (run.take n) xs)

def fillRun (c : Setup D) (d lba : Nat) (run : List Nat) (s : State D) : Except Errno Unit × State D :=
  let chunk := if maxRangeChunk < run.length then maxRangeChunk else run.length
  if !(c.events s.ticks).memory then (.error .enomem,s.tick)
  else fillChunks c d chunk run.length lba run s.tick

/-- Phase 1 of `get_range`: `count` more buffers after those in `out`, each with whether its
sector was missing. -/
def lockRange (c : Setup D) (d lba : Nat) : Nat → List (Nat × Bool) → State D →
    Option Errno × List (Nat × Bool) × State D
  | 0, out, s => (none,out,s)
  | count + 1, out, s => match findBuffer c s d ((lba + out.length) % 2^64) with
    | some i => lockRange c d lba count (out ++ [(i,false)]) (s.lock i)
    | none => match pickVictim c s with
      | none => (some .ebusy,out,s)
      | some i =>
        match if (s.bufs i).valid && (s.bufs i).dirty then writeback c s i else (.ok (),s) with
        | (.error e,t) => (some e,out,t)
        | (.ok _,t) => lockRange c d lba count (out ++ [(i,true)]) (t.claim i d ((lba + out.length) % 2^64))

/-- Phase 2 of `get_range`: run after run of missing sectors, `maxRangeChunk` at a time. -/
def fillMisses (c : Setup D) (d : Nat) : Nat → Nat → List (Nat × Bool) → State D →
    Except Errno Unit × State D
  | 0, _, _, s => (.ok (),s)
  | _, _, [], s => (.ok (),s)
  | fuel + 1, lba, (_,false) :: rest, s => fillMisses c d fuel (lba + 1) rest s
  | fuel + 1, lba, (i,true) :: rest, s =>
    let run := (((i,true) :: rest).takeWhile Prod.snd).map Prod.fst
    let n := if maxRangeChunk < run.length then maxRangeChunk else run.length
    match fillRun c d lba (run.take n) s with
    | (.error e,t) => (.error e,t)
    | (.ok _,t) => fillMisses c d fuel (lba + n) (((i,true) :: rest).drop n) t

def State.put (s : State D) (i : Nat) (dirty : Bool) : State D :=
  let b := s.bufs i
  let after := {b with dirty := b.dirty || dirty, refcnt := b.refcnt - 1, lastUse := s.clock + 1}
  {s.setBuf i {after with touched := b.touched && !dirty} with
    clock := s.clock + 1
    last := if dirty then update s.last b.dev (update (s.last b.dev) b.lba b.data)
      else s.last}

def State.putAll (s : State D) : List Nat → State D
  | [] => s
  | i :: rest => (s.put i false).putAll rest

def getRange (c : Setup D) (s : State D) (d lba count : Nat) : Except Errno (List Nat) × State D :=
  if count = 0 then (.ok [],s)
  else if maxRangeCount < count then (.error .einval,s)
  else if (c.devs d).sectorCount < (lba + count) % 2^64 then (.error .einval,s)
  else if !(c.events s.ticks).memory then (.error .enomem,s.tick)
  else match lockRange c d lba count [] s.tick with
    | (some e,out,t) => (.error e,t.putAll (out.map Prod.fst))
    | (none,out,t) => match fillMisses c d out.length lba out t with
      | (.error e,u) => (.error e,u.putAll (out.map Prod.fst))
      | (.ok _,u) => (.ok (out.map Prod.fst),u)

def concerns (dev : Option Nat) (d : Nat) : Bool := dev.elim true (· == d)

/-- The write loop of `flush`, with the first error so far. -/
def flushLoop (c : Setup D) (dev : Option Nat) : List Nat → Option Errno → State D →
    Option Errno × State D
  | [], err, s => (err,s)
  | i :: rest, err, s =>
    let b := s.bufs i
    if b.valid && b.dirty && concerns dev b.dev then
      match writeback c s i with
      | (.ok _,t) => flushLoop c dev rest err t
      | (.error e,t) =>
        flushLoop c dev rest (if err.isNone && (dev.isSome || !isGone c s b.dev) then some e else err) t
    else flushLoop c dev rest err s

def syncLoop (c : Setup D) : List Nat → Option Errno → State D → Option Errno × State D
  | [], err, s => (err,s)
  | k :: rest, err, s =>
    if s.gone k then syncLoop c rest (err.or (some .eio)) s
    else if (c.events s.ticks).fails then syncLoop c rest (err.or (some .eio)) s.tick
    else syncLoop c rest err s.tick

def disksOf (c : Setup D) (s : State D) : Option Nat → List Nat
  | some d => [(c.devs d).disk]
  | none => c.disks.filter fun k => !s.gone k

def flush (c : Setup D) (s : State D) (dev : Option Nat) : Option Errno × State D :=
  match flushLoop c dev (range c.nbuf) none s with
  | (err,t) => syncLoop c (disksOf c t dev) err t

def release (c : Setup D) (s : State D) (dev : Option Nat) : Option Errno × State D :=
  match flush c s dev with
  | (rc,t) =>
    let ours (i : Nat) : Bool := (t.bufs i).valid && concerns dev (t.bufs i).dev
    let locked := (range c.nbuf).any fun i => ours i && (t.bufs i).refcnt != 0
    (if locked then rc.or (some .ebusy) else rc,
      {t with bufs := fun i =>
        if i < c.nbuf ∧ ours i ∧ (t.bufs i).refcnt = 0 then {t.bufs i with valid := false, dirty := false}
        else t.bufs i})

def discard (c : Setup D) (s : State D) (which : Nat → Bool) : State D :=
  {s with bufs := fun i =>
    let b := s.bufs i
    if i < c.nbuf ∧ b.valid ∧ which b.dev then {b with dirty := false, valid := b.refcnt != 0} else b}

/-- `modify` is a holder writing into the buffer; `unplug` is `disk_gone`, which discards the
disk and its partitions. -/
inductive Action (D : Type)
  | get (d lba : Nat)
  | getRange (d lba count : Nat)
  | modify (i : Nat) (x : D)
  | put (i : Nat) (dirty : Bool)
  | flush (dev : Option Nat)
  | release (dev : Option Nat)
  | discard (d : Nat)
  | unplug (disk : Nat)

def State.use (s : State D) (d : Nat) : State D := {s with used := update s.used d true}

def State.useSome (s : State D) : Option Nat → State D
  | some d => s.use d
  | none => s

/-- What the cache's users keep to (bcache.h): only a holder changes or puts a buffer, the
last holder of a changed one puts it dirty, and only devices of unplugged disks are
discarded. -/
def admits (c : Setup D) (s : State D) : Action D → Bool
  | .modify i _ => i < c.nbuf && 0 < (s.bufs i).refcnt
  | .put i dirty => i < c.nbuf && 0 < (s.bufs i).refcnt &&
      (dirty || !(s.bufs i).touched || 1 < (s.bufs i).refcnt)
  | .discard d => isGone c s d
  | _ => true

def perform (c : Setup D) (s : State D) : Action D → State D
  | .get d lba => (get c (s.use d) d lba).2
  | .getRange d lba count => (getRange c (s.use d) d lba count).2
  | .modify i x => s.setBuf i {s.bufs i with data := x, touched := true}
  | .put i dirty => s.put i dirty
  | .flush dev => (flush c (s.useSome dev) dev).2
  | .release dev => (release c (s.useSome dev) dev).2
  | .discard d => discard c s (· == d)
  | .unplug disk =>
    discard c {s with gone := update s.gone disk true} fun d => (c.devs d).disk == disk

def step (c : Setup D) (s : State D) (a : Action D) : Option (State D) :=
  if admits c s a then some (perform c s a) else none

def Step (c : Setup D) (s : State D) (a : Action D) (t : State D) : Prop := step c s a = some t

def Initial (c : Setup D) (s : State D) : Prop :=
  (∀ i, (s.bufs i).valid = false ∧ (s.bufs i).dirty = false ∧ (s.bufs i).refcnt = 0 ∧
    (s.bufs i).touched = false) ∧
  (∀ d lba, s.last d lba = sector c s d lba) ∧ ∀ d, s.used d = false

end SurfaceOS.Bcache
