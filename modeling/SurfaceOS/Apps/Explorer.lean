import SurfaceOS.Apps.Tree

/-! Copying in the explorer (apps/explorer/ops.cpp). Whatever a file call or the
user answers comes from the job's `world`, one reply for each question; any call may fail. -/
namespace SurfaceOS.Apps
open Fat

def pathSize : Nat := 512

def bufferSize : Nat := 65536

def render (p : Path) : List UInt8 := if p = [] then [47] else p.flatMap (47 :: ·)

def compareNoCase (a b : Path) : Bool := (render a).map lower == (render b).map lower

def inside (path folder : Path) : Bool :=
  let f := render folder
  f.length == 1 || (f.isPrefixOf (render path) &&
    match (render path).drop f.length with
    | [] => true
    | c :: _ => c == 47)

def fits (folder : Path) (name : Name) : Bool := (render folder).length + name.length + 2 ≤ pathSize

/-- `folder` is what GetInfo leaves in a record that it does not fill; `slot` and `short` are for a new
record, `count` for a write that fails half way. -/
structure Reply where
  status : Option Status
  escape : Bool
  button : Nat
  folder : Bool
  slot : Nat
  short : Name
  count : Nat

/-- What happened to the items that To leads to, and `blind`: a listing or GetInfo failed unnoticed. -/
inductive Event
  | wrote (g : Place)
  | made (g : Place)
  | removed (g : Place)
  | blind
  deriving DecidableEq

structure Job where
  tree : Tree
  stop : Bool
  overwriteAll : Bool
  overwriteNone : Bool
  skipped : Nat
  world : Nat → Reply
  trace : List Event

inductive Kind
  | nothing
  | file
  | folder
  deriving DecidableEq

namespace Job

def reply (j : Job) : Reply := j.world 0

def next (j : Job) : Job := {j with world := fun n => j.world (n + 1)}

def begun (tree : Tree) (world : Nat → Reply) : Job := ⟨tree,false,false,false,0,world,[]⟩

/-- All of these return `!Stop` or something that says the same. -/
def problem (j : Job) : Job := {j.next with skipped := j.skipped + 1, stop := j.stop || j.reply.button != 0}

def checkStop (j : Job) : Job :=
  if j.stop then j else if j.reply.escape then {j.next with stop := true} else j.next

def mayOverwrite (j : Job) : Bool × Job :=
  if j.overwriteAll then (true,j)
  else if j.overwriteNone then (false,{j with skipped := j.skipped + 1})
  else
    match j.reply.button with
    | 0 => (true,j.next)
    | 1 => (true,{j.next with overwriteAll := true})
    | 2 => (false,{j.next with skipped := j.skipped + 1})
    | 3 => (false,{j.next with overwriteNone := true, skipped := j.skipped + 1})
    | _ => (false,{j.next with stop := true})

def opened (j : Job) (p : Path) : Option Place := if j.reply.status.isNone then j.tree.resolve p else none

def kind (j : Job) (p : Path) : Kind × Job :=
  match j.opened p with
  | none => (.nothing,j.next)
  | some g => (if j.next.reply.status.isNone && j.tree.isFolder g then .folder else .file,j.next.next)

def delete (j : Job) (p : Path) : Bool × Job :=
  match if j.reply.status.isNone then j.tree.remove p else none with
  | none => (false,j.next)
  | some t => (true,{j.next with tree := t})

def deleteTo (j : Job) (p : Path) : Job :=
  match j.delete p,j.tree.resolve p with
  | (true,k), some g => {k with trace := .removed g :: k.trace}
  | (_,k), _ => k

def openWrite (j : Job) (p : Path) : Option Place × Job :=
  if j.reply.status.isSome then (none,j.next)
  else
    match j.tree.resolve p with
    | some g =>
      if j.tree.isFolder g || j.tree.isReadOnly g then (none,j.next)
      else (some g,{j.next with tree := j.tree.fill g [], trace := .wrote g :: j.trace})
    | none =>
      match j.tree.make p (.file []) j.reply.slot j.reply.short with
      | none => (none,j.next)
      | some (t,g) => (some g,{j.next with tree := t, trace := .wrote g :: j.trace})

def createDirectory (j : Job) (p : Path) : Bool × Job :=
  match if j.reply.status.isNone then j.tree.make p .folder j.reply.slot j.reply.short else none with
  | none => (false,j.next)
  | some (t,g) => (true,{j.next with tree := t, trace := .made g :: j.trace})

/-- The loop of CopyFile; true: a call failed. -/
def copyBytes (src dst : Place) : Nat → Nat → Job → Option (Bool × Job)
  | 0, _, _ => none
  | n + 1, off, j =>
    let j := j.checkStop
    if j.stop then some (false,j)
    else if j.reply.status.isSome then some (true,j.next)
    else
      let piece := ((j.tree.bytes src).drop off).take bufferSize
      let j := j.next
      if piece = [] then some (false,j)
      else if j.reply.status.isSome then
        some (true,{j.next with tree := j.tree.fill dst (j.tree.bytes dst ++ piece.take j.reply.count)})
      else
        copyBytes src dst n (off + piece.length) {j.next with tree := j.tree.fill dst (j.tree.bytes dst ++ piece)}

/-- The end of CopyFile: half a file is worse than none. -/
def copied (dest : Path) (failed : Bool) (j : Job) : Job :=
  let j := if j.stop || failed then j.deleteTo dest else j
  if failed then j.problem else j

def copyInto (src : Place) (dest : Path) (j : Job) : Option Job :=
  match j.openWrite dest with
  | (none,j) => some j.problem
  | (some dst,j) =>
    match j.copyBytes src dst ((j.tree.bytes src).length + 1) 0 with
    | none => none
    | some (failed,j) => some (j.copied dest failed)

def copyFile (src : Place) (dest : Path) (j : Job) : Option Job :=
  match j.kind dest with
  | (.folder,j) => some j.problem
  | (.file,j) =>
    match j.mayOverwrite with
    | (true,j) => j.copyInto src dest
    | (false,j) => some j
  | (.nothing,j) => j.copyInto src dest

def copyEntries (copy : Path → Path → Job → Option Job) (source dest : Path) (d : Place) : Nat → Nat → Job → Option Job
  | 0, _, j => some j
  | n + 1, k, j =>
    if j.stop then some j
    else
      match j.tree.entry (d ++ [k]) with
      | none => copyEntries copy source dest d n (k + 1) j
      | some e =>
        if j.reply.status.isSome then some {j.next with trace := .blind :: j.trace}
        else
          match if fits source e.long && fits dest e.long then copy (source ++ [e.long]) (dest ++ [e.long]) j.next
            else some j.next.problem with
          | none => none
          | some j => copyEntries copy source dest d n (k + 1) j

def infoFolder (j : Job) (g : Place) : Bool := if j.reply.status.isNone then j.tree.isFolder g else j.reply.folder

def infoRead (j : Job) : Job := {j.next with trace := if j.reply.status.isNone then j.trace else .blind :: j.trace}

def enterFolder (j : Job) (dest : Path) : Bool × Job :=
  match j.createDirectory dest with
  | (true,j) => (true,j)
  | (false,j) => ((j.kind dest).1 == .folder,(j.kind dest).2)

/-- `rounds` bounds how deep the folders are. -/
def copyItem : Nat → Path → Path → Job → Option Job
  | 0, _, _, _ => none
  | rounds + 1, source, dest, j =>
    let j := j.checkStop
    if j.stop then some j
    else if compareNoCase source dest then some j.problem
    else
      match j.opened source with
      | none => some j.next.problem
      | some src =>
        let folder := j.next.infoFolder src
        let j := j.next.infoRead
        if !folder then copyFile src dest j
        else if inside dest source then some j.problem
        else
          match j.enterFolder dest with
          | (false,j) => some j.problem
          | (true,j) => copyEntries (copyItem rounds) source dest src j.tree.slots 0 j

end Job

end SurfaceOS.Apps
