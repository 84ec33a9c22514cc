import SurfaceOS.Vfs.Namei

/-! Opening a file by path: `do_openat` and `open_target` (fs/fileio.cpp), and `open_below`
(cpu/sffile.cpp), through which programs reach their roots. -/
namespace SurfaceOS.Vfs
open Fat

inductive Access
  | rdonly | wronly | rdwr
  deriving DecidableEq

structure Flags where
  access : Access
  creat : Bool
  excl : Bool
  trunc : Bool
  directory : Bool

/-- What an open meets on its way: the outcome of each call into the driver, and whether a
file and a handle are free. `create` has the slot and alias of the new record. -/
structure OpenWorld extends World where
  lookupFault : Option Errno
  create : Except Errno (Nat × Option Name)
  vnodeFault : Option Errno
  truncateFault : Option Errno
  fileFree : Bool
  handleFault : Option Errno
  copied : Bool

/-- The vnode behind the new handle, with the mounts and the references after the call. -/
structure Opened where
  result : Except Errno Vnode
  mounts : Mounts
  refs : Refs

def Mounts.readOnly (m : Mounts) (v : Vnode) : Bool :=
  match v.key with
  | .file parent slot => ((m.vol v.mnt).scan parent).any fun entry => entry.1 == slot && entry.2.readOnly
  | _ => false

def Mounts.create (m : Mounts) (dir : Vnode) (name : Name) (short : Option Name) (slot : Nat) :
    Vnode × Mounts :=
  let (key,vol) := (m.vol dir.mnt).create dir.key name short slot
  (⟨dir.mnt,key⟩,{m with vol := Function.update m.vol dir.mnt vol})

def openTarget (m : Mounts) (w : OpenWorld) (target : Vnode) (flags : Flags) (created : Bool)
    (refs : Refs) : Opened :=
  if target.isDir && flags.access ≠ .rdonly then ⟨.error .eisdir,m,unref refs target⟩
  else if flags.access ≠ .rdonly && !target.isDir && m.readOnly target then
    ⟨.error .eacces,m,unref refs target⟩
  else
    let truncates := flags.trunc && !created && !target.isDir && flags.access ≠ .rdonly
    match if truncates then w.truncateFault else none with
    | some e => ⟨.error e,m,unref refs target⟩
    | none =>
      if !w.fileFree then ⟨.error .enfile,m,unref refs target⟩
      else match w.handleFault with
        | some e => ⟨.error e,m,unref refs target⟩
        | none => ⟨.ok target,m,refs⟩

def openIn (m : Mounts) (w : OpenWorld) (parent : Vnode) (name : Name) (flags : Flags) (refs : Refs) :
    Opened :=
  match w.lookupFault.elim (m.lookup parent name) .error with
  | .ok target =>
    let refs := unref (ref refs target) parent
    if flags.excl then ⟨.error .eexist,m,unref refs target⟩
    else if flags.directory && !target.isDir then ⟨.error .enotdir,m,unref refs target⟩
    else openTarget m w target flags false refs
  | .error e =>
    if e ≠ .enoent then ⟨.error e,m,unref refs parent⟩
    else if !parent.isDir then ⟨.error .enotdir,m,unref refs parent⟩
    else match if validName name then w.create else .error .einval with
      | .error e => ⟨.error e,m,unref refs parent⟩
      | .ok (slot,short) =>
        let (target,m) := m.create parent name short slot
        match w.vnodeFault with
        | some e => ⟨.error e,m,unref refs parent⟩
        | none =>
          let refs := unref (ref refs target) parent
          if flags.directory && !target.isDir then ⟨.error .enotdir,m,unref refs target⟩
          else openTarget m w target flags true refs

def doOpenat (m : Mounts) (w : OpenWorld) (base : Vnode) (path : List UInt8) (flags : Flags)
    (beneath : Bool) (refs : Refs) : Opened :=
  if flags.creat then
    match lookupParent m w.toWorld path (some base) beneath refs with
    | (.error e,refs) => ⟨.error e,m,refs⟩
    | (.ok (parent,name),refs) =>
      if path.length > 1 && path.getLast? = some slash then ⟨.error .eisdir,m,unref refs parent⟩
      else openIn m w parent name flags refs
  else
    match lookup m w.toWorld path (some base) flags.directory beneath refs with
    | (.error e,refs) => ⟨.error e,m,refs⟩
    | (.ok target,refs) => openTarget m w target flags false refs

inductive SfStatus
  | notFound | alreadyExists | accessDenied | outOfResources | badHandle | endOfFile | aborted
  | inUse | invalidParameter | deviceError
  deriving DecidableEq

def status : Errno → SfStatus
  | .enoent | .enotdir => .notFound
  | .eexist => .alreadyExists
  | .exdev | .eacces | .eperm | .erofs => .accessDenied
  | .enomem | .emfile | .enfile | .enospc => .outOfResources
  | .ebadf => .badHandle
  | .epipe => .endOfFile
  | .eintr => .aborted
  | .enotempty | .ebusy => .inUse
  | .efault | .einval | .eisdir | .enametoolong => .invalidParameter
  | _ => .deviceError

/-- SF_FILE_READ, _WRITE, _CREATE, _CREATE_NEW and _TRUNCATE are the bits 0 to 4 of `mode`. -/
def openFlags (mode : Nat) : Option Flags :=
  if mode ≥ 32 then none
  else
    let rest (access : Access) : Flags :=
      ⟨access,mode.testBit 2 || mode.testBit 3,mode.testBit 3,mode.testBit 4,false⟩
    match mode.testBit 0, mode.testBit 1 with
    | true, true => some (rest .rdwr)
    | false, true => some (rest .wronly)
    | true, false => some (rest .rdonly)
    | false, false => none

/-- On success the program holds a handle on the vnode that is the result. -/
def openBelow (m : Mounts) (w : OpenWorld) (base : Vnode) (path : List UInt8) (mode : Nat)
    (forbid : Option Vnode) (refs : Refs) : Except SfStatus Vnode × Mounts × Refs :=
  match openFlags mode with
  | none => (.error .invalidParameter,m,refs)
  | some flags =>
    let opened := doOpenat m w base (if path = [] then dot else path) flags true refs
    match opened.result with
    | .error e => (.error (status e),opened.mounts,opened.refs)
    | .ok target =>
      if forbid = some target then (.error .accessDenied,opened.mounts,unref opened.refs target)
      else if !w.copied then (.error .invalidParameter,opened.mounts,unref opened.refs target)
      else (.ok target,opened.mounts,opened.refs)

end SurfaceOS.Vfs
