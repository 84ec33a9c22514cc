import SurfaceOS.Fat.Fatdir

/-! The vnode layer of a mounted volume (fat32/vnode.cpp) over the vnode cache (vfs.cpp). A file is
known by the cluster of its directory and the slot of its record, a directory by its first cluster;
what is written through a vnode goes to the place its record had when the vnode was made. -/
namespace SurfaceOS.Fat
open Lib Lib.Memory Function Fatdir

def epochToFat (epoch : Nat) : Nat × Nat :=
  if epoch = 0 then (0,0)
  else
    let secs := epoch % 86400
    let z := epoch / 86400 + 719468
    let era := z / 146097
    let doe := z - era * 146097
    let yoe := (doe - doe / 1460 + doe / 36524 - doe / 146096) / 365
    let doy := doe - (365 * yoe + yoe / 4 - yoe / 100)
    let mp := (5 * doy + 2) / 153
    let d := doy - (153 * mp + 2) / 5 + 1
    let m := if mp < 10 then mp + 3 else mp - 9
    let y := yoe + era * 400 + if m ≤ 2 then 1 else 0
    if y < 1980 then (33,0)
    else (((min y 2107 - 1980) * 512 + m * 32 + d) % 2^16,
      (secs / 3600 * 2048 + secs / 60 % 60 * 32 + secs % 60 / 2) % 2^16)

def fatToEpoch (date time : Nat) : Nat :=
  if date = 0 then 0
  else
    let m := date / 32 % 16
    let d := date % 32
    if m < 1 ∨ m > 12 ∨ d < 1 then 0
    else
      let y := 1980 + date / 512 % 128 - if m ≤ 2 then 1 else 0
      let era := y / 400
      let yoe := y - era * 400
      let doy := (153 * (if m > 2 then m - 3 else m + 9) + 2) / 5 + d - 1
      let doe := yoe * 365 + yoe / 4 - yoe / 100 + doy
      (era * 146097 + doe - 719468) * 86400 + time / 2048 % 32 * 3600 + time / 32 % 64 * 60 + time % 32 * 2

def Slot.isDirectory (s : Slot) : Bool := s.attr &&& 0x10 ≠ 0
def Slot.fileSize (s : Slot) : Nat := le32 s 28
def Slot.cluster (s : Slot) : Nat := le16 s 20 * 65536 + le16 s 26

def dirMark : Nat := 0xFFFFFFFE
def rootMark : Nat := 0xFFFFFFFF

def fileKey (parentCluster slot : Nat) : Nat := parentCluster * 2^32 + slot
def dirKey (firstCluster : Nat) : Nat := firstCluster * 2^32 + dirMark
def rootKey (rootCluster : Nat) : Nat := rootCluster * 2^32 + rootMark

/-- A vnode with its `fat_node`; size and dirty flag are the node's. -/
structure Vnode where
  fsKey : Nat
  regular : Bool
  node : Node
  parentCluster : Nat
  entryIndex : Nat
  entry : Nat × Nat
  mtime : Nat
  atime : Nat
  unlinked : Bool
  refcnt : Nat
  deriving DecidableEq

/-- A mounted volume with the vnodes in memory, by number. The pool is the cache; the clock stands
at `now`, and `memory` is whether `kmalloc` has room for a vnode at present. -/
structure Mounted where
  vol : Vol
  vnodes : Nat → Option Vnode
  pool : List (Option Nat)
  fresh : Nat
  now : Nat
  memory : Bool := true

namespace Mounted
variable (sb : Super)

def alter (s : Mounted) (id : Nat) (change : Vnode → Vnode) : Mounted :=
  {s with vnodes := update s.vnodes id ((s.vnodes id).map change)}

def io (s : Mounted) (id : Nat) : Io :=
  ⟨s.vol,match s.vnodes id with
    | some v => v.node
    | none => ⟨0,0,0,0,false⟩⟩

def keep (s : Mounted) (id : Nat) (io : Io) : Mounted :=
  {s with vol := io.vol}.alter id fun v => {v with node := io.node}

def drop (s : Mounted) (id : Nat) : Mounted := {s with vnodes := update s.vnodes id none}

def stamp (v : Vnode) (now : Nat) (e : Slot) : Slot :=
  let words := epochToFat (if v.mtime ≠ 0 then v.mtime else now)
  let e := patch e 28 (bytes32 v.node.size)
  let e := patch e 20 (bytes16 (v.node.firstCluster / 65536))
  let e := patch e 26 (bytes16 v.node.firstCluster)
  let e := patch e 24 (bytes16 words.1)
  let e := patch e 22 (bytes16 words.2)
  if v.atime ≠ 0 then patch e 18 (bytes16 (epochToFat v.atime).1) else e

def edit (s : Mounted) (spot : Nat × Nat) (change : Slot → Slot) : Mounted :=
  {s with vol := {s.vol with disk := store s.vol.disk spot (change (load s.vol.disk spot))}}

def updateEntry (s : Mounted) (id : Nat) : Mounted :=
  match s.vnodes id with
  | none => s
  | some v =>
    if v.entryIndex = rootMark then s
    else (s.edit v.entry (stamp v s.now)).alter id fun v => {v with node := {v.node with dirty := false}}

/-- `fat_release`: a vnode whose name is gone takes its clusters along. -/
def release (s : Mounted) (id : Nat) : Mounted :=
  match s.vnodes id with
  | none => s
  | some v =>
    let s := if v.node.dirty ∧ v.regular ∧ v.entryIndex < dirMark ∧ !v.unlinked then s.updateEntry id else s
    if v.unlinked ∧ v.node.firstCluster ≥ 2 then {s with vol := (freeChain sb s.vol v.node.firstCluster).2} else s

def unpool (s : Mounted) (id : Nat) : Mounted :=
  {s with pool := s.pool.map fun place => if place = some id then none else place}

def ref (s : Mounted) (id : Nat) : Mounted := s.alter id fun v => {v with refcnt := v.refcnt + 1}

def deref (s : Mounted) (id : Nat) : Mounted := s.alter id fun v => {v with refcnt := v.refcnt - 1}

def refcnt (s : Mounted) (id : Nat) : Nat := ((s.vnodes id).map Vnode.refcnt).getD 0

def unref (s : Mounted) (id : Nat) : Mounted :=
  if s.refcnt id = 0 then s
  else if s.refcnt id - 1 > 0 then s.deref id
  else (((s.deref id).unpool id).release sb id).drop id

def invalidate (s : Mounted) (id : Nat) : Mounted :=
  if some id ∈ s.pool then
    let s := (s.unpool id).deref id
    if s.refcnt id = 0 then (s.release sb id).drop id else s
  else s

def hit (s : Mounted) (key : Nat) : Option Nat :=
  (s.pool.filterMap id).find? fun i => (s.vnodes i).any (·.fsKey = key)

def findCached (s : Mounted) (key : Nat) : Option Nat × Mounted :=
  match s.hit key with
  | some i => (some i,s.ref i)
  | none => (none,s)

def findEvictable (s : Mounted) : Option Nat :=
  (s.pool.filterMap id).find? fun i => (s.vnodes i).any fun v => v.refcnt = 1 ∧ !v.node.dirty

def enter (s : Mounted) (place : Nat) (v : Vnode) : Mounted :=
  {s with
    vnodes := update s.vnodes s.fresh (some {v with refcnt := 2})
    pool := s.pool.set place (some s.fresh)
    fresh := s.fresh + 1}

def evict (s : Mounted) (victim : Nat) : Mounted := ((s.release sb victim).drop victim).unpool victim

/-- `get_cached`; `v` is what becomes of a vnode that was not cached. The victim goes before the allocation. -/
def getCached (s : Mounted) (v : Vnode) : Except Errno Nat × Mounted :=
  match s.hit v.fsKey with
  | some i => (.ok i,s.ref i)
  | none => match s.pool.findIdx? Option.isNone, s.findEvictable with
    | some place, _ => if s.memory then (.ok s.fresh,s.enter place v) else (.error .enomem,s)
    | none, none => (.error .enfile,s)
    | none, some victim =>
      let t := s.evict sb victim
      if s.memory then (.ok t.fresh,t.enter (t.pool.idxOf none) v) else (.error .enomem,t)

def rekey (s : Mounted) (id key : Nat) : Mounted :=
  if (s.vnodes id).any (·.fsKey = key) then s
  else
    let others := {s with pool := s.pool.map fun place => if place = some id then none else place}
    let s := match if some id ∈ s.pool then others.hit key else none with
      | some other => s.invalidate sb other
      | none => s
    s.alter id fun v => {v with fsKey := key}

def touch (s : Mounted) (id : Nat) : Mounted :=
  s.alter id fun v => {v with node := {v.node with dirty := true}, mtime := s.now}

def dirNode (s : Mounted) (key firstCluster parentCluster mark : Nat) : Vnode where
  fsKey := key
  regular := false
  node := ⟨firstCluster,0,0,0,false⟩
  parentCluster := parentCluster
  entryIndex := mark
  entry := (0,0)
  mtime := s.now
  atime := 0
  unlinked := false
  refcnt := 2

def dirVnode (s : Mounted) (firstCluster : Nat) : Except Errno Nat × Mounted :=
  if firstCluster = sb.rootCluster ∨ firstCluster < 2 then
    s.getCached sb (s.dirNode (rootKey sb.rootCluster) sb.rootCluster sb.rootCluster rootMark)
  else s.getCached sb (s.dirNode (dirKey firstCluster) firstCluster 0 dirMark)

def vnodeFromRecord (s : Mounted) (e : Slot) (parentCluster slot : Nat) (spot : Nat × Nat) :
    Except Errno Nat × Mounted :=
  if e.isDirectory then s.dirVnode sb e.cluster
  else s.getCached sb {
    fsKey := fileKey parentCluster slot
    regular := true
    node := ⟨e.cluster,0,0,e.fileSize,false⟩
    parentCluster := parentCluster
    entryIndex := slot
    entry := spot
    mtime := fatToEpoch (le16 e 24) (le16 e 22)
    atime := fatToEpoch (le16 e 18) 0
    unlinked := false
    refcnt := 2}

def cluster (s : Mounted) (dir : Nat) : Nat := (s.io dir).node.firstCluster

def lookup (s : Mounted) (dir : Nat) (name : Name) : Except Errno Nat × Mounted :=
  match Fatdir.find sb s.vol (s.cluster dir) name with
  | .error e => (.error e,s)
  | .ok none => (.error .enoent,s)
  | .ok (some e) => s.vnodeFromRecord sb e.slot (s.cluster dir) e.index
      ((scan sb s.vol (s.cluster dir)).spot sb e.index)

def made (s : Mounted) (isDir : Bool) (firstCluster : Nat) : Fresh :=
  ⟨isDir,firstCluster,(epochToFat s.now).1,(epochToFat s.now).2⟩

def create (s : Mounted) (dir : Nat) (name : Name) : Except Errno Nat × Mounted :=
  match Fatdir.create sb (s.io dir) name (s.made false 0) with
  | (.error e,io) => (.error e,s.keep dir io)
  | (.ok new,io) =>
    match (s.keep dir io).getCached sb {
        fsKey := fileKey (s.cluster dir) new.index
        regular := true
        node := ⟨0,0,0,0,false⟩
        parentCluster := s.cluster dir
        entryIndex := new.index
        entry := new.spot
        mtime := s.now
        atime := s.now
        unlinked := false
        refcnt := 2} with
    | (.error e,s) => (.error e,s)
    | (.ok v,s) => (.ok v,s.touch dir)

def dotSlot (name : List UInt8) (firstCluster date time : Nat) : Slot :=
  patch (fun _ => 0) 0 (pad 11 name ++ [0x10,0,0] ++ bytes16 time ++ bytes16 date ++ bytes16 date ++
    bytes16 (firstCluster / 65536) ++ bytes16 time ++ bytes16 date ++ bytes16 firstCluster ++ bytes32 0)

def mkdir (s : Mounted) (dir : Nat) (name : Name) : Except Errno Unit × Mounted :=
  match allocCluster sb s.vol with
  | .error e => (.error e,s)
  | .ok (newc,vol) =>
    let words := epochToFat s.now
    let bytes := slice (dotSlot [46] newc words.1 words.2) 0 32 ++
      slice (dotSlot [46,46] (s.cluster dir) words.1 words.2) 0 32 ++ List.replicate (sb.clusterSize - 64) 0
    match writeCluster sb vol newc bytes with
    | (.error e,vol) => (.error e,{s with vol := (freeChain sb vol newc).2})
    | (.ok _,vol) =>
      let s := {s with vol := vol}
      match Fatdir.create sb (s.io dir) name (s.made true newc) with
      | (.error e,io) =>
        let s := s.keep dir io
        (.error e,{s with vol := (freeChain sb s.vol newc).2})
      | (.ok _,io) => (.ok (),(s.keep dir io).touch dir)

/-- The name of a cached vnode is gone; a directory's clusters go at once, so it is left without. -/
def orphan (s : Mounted) (id : Nat) (isDir : Bool) : Mounted :=
  let s := s.alter id fun v =>
    {v with unlinked := true, node := if isDir then {v.node with firstCluster := 0} else v.node}
  (s.invalidate sb id).unref sb id

def freeFile (s : Mounted) (firstCluster : Nat) : Except Errno Unit × Mounted :=
  if 2 ≤ firstCluster ∧ firstCluster < clusterEoc then
    ((freeChain sb s.vol firstCluster).1,{s with vol := (freeChain sb s.vol firstCluster).2})
  else (.ok (),s)

def removeRecord (s : Mounted) (dir slot : Nat) : Except Errno Unit × Mounted :=
  let result := Fatdir.remove sb (s.io dir) slot
  (result.1,s.keep dir result.2)

/-- A cached vnode keeps the clusters of a file that is removed; without one they are free. -/
def disown (s : Mounted) (key firstCluster : Nat) : Except Errno Unit × Mounted :=
  match s.findCached key with
  | (some v,s) => (.ok (),s.orphan sb v false)
  | (none,s) => s.freeFile sb firstCluster

def unlink (s : Mounted) (dir : Nat) (name : Name) : Except Errno Unit × Mounted :=
  match Fatdir.find sb s.vol (s.cluster dir) name with
  | .error e => (.error e,s)
  | .ok none => (.error .enoent,s)
  | .ok (some e) =>
    if e.slot.isDirectory then (.error .eisdir,s)
    else match s.disown sb (fileKey (s.cluster dir) e.index) e.slot.cluster with
      | (.error e,s) => (.error e,s)
      | (.ok _,s) => match s.removeRecord sb dir e.index with
        | (.error e,s) => (.error e,s)
        | (.ok _,s) => (.ok (),s.touch dir)

def emptyDir (s : Mounted) (firstCluster : Nat) : Except Errno Unit :=
  match (scan sb s.vol firstCluster).first fun e => e.name ≠ [46] && e.name ≠ [46,46] with
  | .error e => .error e
  | .ok (some _) => .error .enotempty
  | .ok none => .ok ()

def rmdir (s : Mounted) (dir : Nat) (name : Name) : Except Errno Unit × Mounted :=
  match Fatdir.find sb s.vol (s.cluster dir) name with
  | .error e => (.error e,s)
  | .ok none => (.error .enoent,s)
  | .ok (some e) =>
    let target := e.slot.cluster
    if !e.slot.isDirectory then (.error .enotdir,s)
    else if target < 2 then (.error .eio,s)
    else match s.emptyDir sb target with
      | .error e => (.error e,s)
      | .ok _ =>
        let s := match s.findCached (dirKey target) with
          | (some v,s) => s.orphan sb v true
          | (none,s) => s
        match s.removeRecord sb dir e.index with
        | (.error e,s) => (.error e,s)
        | (.ok _,s) => match freeChain sb s.vol target with
          | (.error e,vol) => (.error e,{s with vol := vol})
          | (.ok _,vol) => (.ok (),{s with vol := vol}.touch dir)

def dotdotCluster (v : Vol) (cluster : Nat) : Nat :=
  if cluster = sb.rootCluster then sb.rootCluster
  else
    let pc := (load v.disk (clusterLba sb cluster,32)).cluster
    if pc ≥ 2 then pc else sb.rootCluster

/-- The way up from `cur`; the guard runs down. -/
def dirContains (v : Vol) (ancestor : Nat) : Nat → Nat → Except Errno Bool
  | guard, cur =>
    if cur = ancestor then .ok true
    else if cur = sb.rootCluster then .ok false
    else if dotdotCluster sb v cur = cur then .ok false
    else match guard with
      | 0 => .error .eio
      | guard + 1 => dirContains v ancestor guard (dotdotCluster sb v cur)

def replace (s : Mounted) (newDir : Nat) (dst : Entry) : Except Errno Unit × Mounted :=
  let isDir := dst.slot.isDirectory
  let held := s.findCached (if isDir then dirKey dst.slot.cluster else fileKey (s.cluster newDir) dst.index)
  let s := match held with
    | (some dv,s) => s.orphan sb dv isDir
    | (none,s) => s
  match s.removeRecord sb newDir dst.index with
  | (.error e,s) => (.error e,s)
  | (.ok _,s) =>
    if isDir then ((freeChain sb s.vol dst.slot.cluster).1,{s with vol := (freeChain sb s.vol dst.slot.cluster).2})
    else if held.1.isNone then s.freeFile sb dst.slot.cluster
    else (.ok (),s)

def replaceable (s : Mounted) (noReplace : Bool) (src dst : Entry) : Except Errno Unit :=
  let isDir := dst.slot.isDirectory
  if noReplace then .error .eexist
  else if isDir ≠ src.slot.isDirectory then .error (if isDir then .eisdir else .enotdir)
  else if isDir then
    if dst.slot.cluster = sb.rootCluster then .error .einval else s.emptyDir sb dst.slot.cluster
  else .ok ()

def clear (s : Mounted) (noReplace : Bool) (src : Entry) (newDir : Nat) (target : Option Entry) :
    Except Errno Unit × Mounted :=
  match target with
  | none => (.ok (),s)
  | some dst => match s.replaceable sb noReplace src dst with
    | .error e => (.error e,s)
    | .ok _ => s.replace sb newDir dst

def carry (src e : Slot) : Slot := patch (patch e 28 (slice src 28 4)) 13 (slice src 13 5)

def reparent (firstCluster : Nat) (e : Slot) : Slot :=
  patch (patch e 20 (bytes16 (firstCluster / 65536))) 26 (bytes16 firstCluster)

def follow (s : Mounted) (src : Entry) (oldKey newCluster : Nat) (new : Fatdir.Created) : Mounted :=
  let isDir := src.slot.isDirectory
  match s.findCached (if isDir then dirKey src.slot.cluster else oldKey) with
  | (none,s) => s
  | (some v,s) =>
    let s := s.alter v fun fn => {fn with parentCluster := newCluster, entryIndex := new.index, entry := new.spot}
    (if isDir then s else s.rekey sb v (fileKey newCluster new.index)).unref sb v

def isDots (name : Name) : Bool := name = [46] || name = [46,46]

/-- `fat_rename` without `RENAME_EXCHANGE`, which it refuses. -/
def rename (s : Mounted) (oldDir : Nat) (oldName : Name) (newDir : Nat) (newName : Name) (noReplace : Bool) :
    Except Errno Unit × Mounted :=
  if isDots oldName || isDots newName then (.error .einval,s)
  else match Fatdir.find sb s.vol (s.cluster oldDir) oldName with
    | .error e => (.error e,s)
    | .ok none => (.error .enoent,s)
    | .ok (some src) =>
      let isDir := src.slot.isDirectory
      match if isDir then dirContains sb s.vol src.slot.cluster sb.totalClusters (s.cluster newDir) else .ok false with
      | .error e => (.error e,s)
      | .ok true => (.error .einval,s)
      | .ok false => match Fatdir.find sb s.vol (s.cluster newDir) newName with
        | .error e => (.error e,s)
        | .ok target => match s.clear sb noReplace src newDir target with
          | (.error e,s) => (.error e,s)
          | (.ok _,s) => match Fatdir.create sb (s.io newDir) newName (s.made isDir src.slot.cluster) with
            | (.error e,io) => (.error e,s.keep newDir io)
            | (.ok new,io) =>
              let s := s.keep newDir io
              let s := if !isDir && src.slot.fileSize ≠ 0 then s.edit new.spot (carry src.slot) else s
              let s := if isDir then s.edit (clusterLba sb src.slot.cluster,32) (reparent (s.cluster newDir)) else s
              match s.removeRecord sb oldDir src.index with
              | (.error e,s) => (.error e,s)
              | (.ok _,s) =>
                let s := s.follow sb src (fileKey (s.cluster oldDir) src.index) (s.cluster newDir) new
                (.ok (),(s.touch oldDir).touch newDir)

inductive Call
  | write (off : Nat) (src : List UInt8)
  | truncate (size : Nat)
  | fsync

def written (s : Mounted) (id : Nat) : Mounted :=
  if (s.vnodes id).any (·.entryIndex < dirMark) then s.updateEntry id else s

def regular (s : Mounted) (id : Nat) : Bool := (s.vnodes id).any (·.regular)

def call (s : Mounted) (id : Nat) : Call → Except Errno Nat × Mounted
  | .write off src =>
    if !s.regular id then (.error .eisdir,s)
    else match writeAt sb (s.io id) off src with
      | (.error e,_,io) => (.error e,s.keep id io)
      | (.ok _,done,io) => (.ok done,(s.keep id io).written id)
  | .truncate size =>
    if !s.regular id then (.error .eisdir,s)
    else match truncate sb (s.io id) size with
      | (.error e,io) => (.error e,s.keep id io)
      | (.ok _,io) => (.ok 0,(s.keep id io).written id)
  | .fsync => (.ok 0,if s.regular id && (s.io id).node.dirty then s.written id else s)

end Mounted
end SurfaceOS.Fat
