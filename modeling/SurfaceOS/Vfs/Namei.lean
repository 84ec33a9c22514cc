import SurfaceOS.Fat.Tree

/-! Path lookup over the mount table (fs/vfs.cpp): `step` takes one component, `walk` a whole
path, `lookup_parent` all but the last component. References are counted along, and any call
into a driver may fail. -/
namespace SurfaceOS.Vfs
open Fat

structure Vnode where
  mnt : Nat
  key : Key
  deriving DecidableEq

def Vnode.isDir (v : Vnode) : Bool := v.key.isDir

def maxMounts : Nat := 8

/-- The mount table by slot; the mount without a point is the root mount. -/
structure Mounts where
  active : Nat → Bool
  point : Nat → Option Vnode
  vol : Nat → Volume

def rootOf (i : Nat) : Vnode := ⟨i,.root⟩

def Mounts.mountOver (m : Mounts) (dir : Vnode) : Option Nat :=
  (List.range maxMounts).find? fun i => m.active i && m.point i == some dir

def Mounts.rootMount (m : Mounts) : Option Nat :=
  (List.range maxMounts).find? fun i => m.active i && m.point i == none

def Mounts.lookup (m : Mounts) (dir : Vnode) (name : Name) : Except Errno Vnode :=
  ((m.vol dir.mnt).lookup dir.key name).map (Vnode.mk dir.mnt)

def Mounts.getparent (m : Mounts) (v : Vnode) : Vnode := ⟨v.mnt,(m.vol v.mnt).getparent v.key⟩

abbrev Refs := Vnode → Int

def ref (refs : Refs) (v : Vnode) : Refs := Function.update refs v (refs v + 1)

def unref (refs : Refs) (v : Vnode) : Refs := Function.update refs v (refs v - 1)

def nameMax : Nat := 255

def pathMax : Nat := 4096

def slash : UInt8 := 47

def leaveMount (m : Mounts) (cur : Vnode) (refs : Refs) : Vnode × Refs :=
  match m.point cur.mnt with
  | some point => if cur = rootOf cur.mnt then (point,unref (ref refs point) cur) else (cur,refs)
  | none => (cur,refs)

def enterMount (m : Mounts) (child : Vnode) (refs : Refs) : Vnode × Refs :=
  if child.isDir then match m.mountOver child with
    | some i => (rootOf i,ref (unref refs child) (rootOf i))
    | none => (child,refs)
  else (child,refs)

/-- `fault` is the error the driver's call ends with, if any. -/
def step (m : Mounts) (fault : Option Errno) (cur : Vnode) (comp : Name) (refs : Refs) :
    Except Errno Vnode × Refs :=
  if comp.length > nameMax then (.error .enametoolong,refs)
  else if comp = dot then (.ok cur,refs)
  else if comp = dotdot then
    let (cur,refs) := leaveMount m cur refs
    match fault with
    | some e => (.error e,refs)
    | none =>
      let parent := m.getparent cur
      (.ok parent,unref (ref refs parent) cur)
  else if !cur.isDir then (.error .enotdir,refs)
  else match fault with
    | some e => (.error e,refs)
    | none => match m.lookup cur comp with
      | .error e => (.error e,refs)
      | .ok found =>
        let (child,refs) := enterMount m found (ref refs found)
        (.ok child,unref refs cur)

def emit (part : Name) : List Name := if part = [] then [] else [part]

/-- The components of the rest of a path whose current one starts with `part`. -/
def splitPath (part : Name) : List UInt8 → List Name
  | [] => emit part
  | b :: rest => if b = slash then emit part ++ splitPath [] rest else splitPath (part ++ [b]) rest

def components (path : List UInt8) : List Name := splitPath [] path

def depthAfter (comp : Name) (depth : Nat) : Nat :=
  if comp = dotdot then (depth + 2 ^ 32 - 1) % 2 ^ 32
  else if comp = dot then depth
  else (depth + 1) % 2 ^ 32

def walkLoop (m : Mounts) (faults : Nat → Option Errno) (beneath : Bool) :
    List Name → Nat → Vnode → Nat → Refs → Except Errno (Vnode × Nat) × Refs
  | [], _, cur, depth, refs => (.ok (cur,depth),refs)
  | comp :: rest, i, cur, depth, refs =>
    if beneath && comp = dotdot && depth = 0 then (.error .exdev,unref refs cur)
    else match step m (faults i) cur comp refs with
      | (.error e,refs) => (.error e,unref refs cur)
      | (.ok next,refs) => walkLoop m faults beneath rest (i + 1) next (depthAfter comp depth) refs

/-- What a lookup finds around it: whether `kmalloc` has memory, and the drivers' failures. -/
structure World where
  memory : Bool
  faults : Nat → Option Errno

def walk (m : Mounts) (w : World) (path : List UInt8) (cwd : Option Vnode) (mustBeDir : Bool)
    (beneath : Bool) (refs : Refs) : Except Errno (Vnode × Nat) × Refs :=
  if path = [] then (.error .enoent,refs)
  else if beneath && path.head? = some slash then (.error .exdev,refs)
  else if path.length ≥ pathMax then (.error .enametoolong,refs)
  else if !w.memory then (.error .enomem,refs)
  else
    match if path.head? = some slash then m.rootMount.map rootOf else cwd with
    | none => (.error .enoent,refs)
    | some cur =>
      let trailingSlash := path.length > 1 && path.getLast? = some slash
      match walkLoop m w.faults beneath (components path) 0 cur 0 (ref refs cur) with
      | (.error e,refs) => (.error e,refs)
      | (.ok (cur,depth),refs) =>
        if (mustBeDir || trailingSlash) && !cur.isDir then (.error .enotdir,unref refs cur)
        else (.ok (cur,depth),refs)

def lookup (m : Mounts) (w : World) (path : List UInt8) (cwd : Option Vnode) (mustBeDir : Bool)
    (beneath : Bool) (refs : Refs) : Except Errno Vnode × Refs :=
  ((walk m w path cwd mustBeDir beneath refs).1.map Prod.fst,
    (walk m w path cwd mustBeDir beneath refs).2)

def trimSlashes (path : List UInt8) : Nat → Nat
  | n + 2 => if path[n + 1]? = some slash then trimSlashes path (n + 1) else n + 2
  | n => n

def lastCut (path : List UInt8) : Nat → Nat
  | 0 => 0
  | n + 1 => if path[n]? = some slash then n + 1 else lastCut path n

def lookupParent (m : Mounts) (w : World) (path : List UInt8) (cwd : Option Vnode) (beneath : Bool)
    (refs : Refs) : Except Errno (Vnode × Name) × Refs :=
  if path = [] then (.error .enoent,refs)
  else if beneath && path.head? = some slash then (.error .exdev,refs)
  else if path.length ≥ pathMax then (.error .enametoolong,refs)
  else
    let stop := trimSlashes path path.length
    let cut := lastCut path stop
    let name := (path.take stop).drop cut
    if name = [] || name.length > nameMax then (.error .enametoolong,refs)
    else
      let plen := trimSlashes path cut
      -- the two early returns of the source: no slash at all, or only trailing ones
      if name.length = path.length || (plen = 0 && path.head? ≠ some slash) then
        if beneath && name = dotdot then (.error .exdev,refs)
        else match cwd with
          | none => (.error .enoent,refs)
          | some dir => (.ok (dir,name),ref refs dir)
      else if !w.memory then (.error .enomem,refs)
      else
        let parentPath := if plen = 0 then [slash] else path.take plen
        match walk m w parentPath cwd true beneath refs with
        | (.error e,refs) => (.error e,refs)
        | (.ok (dir,depth),refs) =>
          if beneath && name = dotdot && depth = 0 then (.error .exdev,unref refs dir)
          else (.ok (dir,name),refs)

end SurfaceOS.Vfs
