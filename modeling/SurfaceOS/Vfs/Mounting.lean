import SurfaceOS.Vfs.Namei

/-! Mounting and unmounting (mount_at, umount and umount_children of fs/vfs.cpp, fs/mounts.cpp). What
lookups, the driver and the disk answer is data of a call, so every pattern of failures is one. -/
namespace SurfaceOS.Vfs.Mounting
open Vfs Function Option

variable {fs : Except Errno Nat} {root : Nat}

structure Mount where
  active : Bool
  root : Option Nat
  point : Option Nat
  devname : List UInt8
  devId : Nat
  deriving DecidableEq

/-- `refs` counts the references to a vnode besides the cache's own, `mnt` is the slot of its mount
(none: there is no such vnode), `deferred` the references that the reaper has yet to drop. -/
structure State where
  refs : Nat → Nat
  mnt : Nat → Option Nat
  deferred : List Nat
  mounts : Nat → Mount
  mountCnt : Nat
  nextDevId : Nat

/-- What the rest of the kernel answers to one umount; the slots tell its mounts apart. -/
structure Teardown where
  canSleep : Bool
  busy : Nat → Bool
  umountFs : Nat → Option Errno
  flush : Nat → Option Errno

/-- What mount_device is told: by the lookup of /mount, of the point, by mkdir and the second lookup,
by mount_fs, and when the new directory has to go again, by the lookup of /mount and rmdir. -/
structure Setup where
  dir : Except Errno Nat
  found : Except Errno Nat
  hasMkdir : Bool
  mkdir : Option Errno
  again : Except Errno Nat
  mountFs : Except Errno Nat
  cleanup : Except Errno Nat
  rmdir : Option Errno

structure Farewell where
  inMountDir : Bool
  gone : Bool
  fsync : Option Errno
  down : Teardown
  dir : Except Errno Nat
  rmdir : Option Errno

variable {f : Farewell}

namespace State

def ref (s : State) (v : Nat) : State := {s with refs := update s.refs v (s.refs v + 1)}

def unref (s : State) (v : Nat) : State := {s with refs := update s.refs v (s.refs v - 1)}

def refPoint (s : State) : Option Nat → State
  | none => s
  | some v => s.ref v

def unrefPoint (s : State) : Option Nat → State
  | none => s
  | some v => s.unref v

def reap (s : State) : State := s.deferred.foldr (fun v s => s.unref v) {s with deferred := []}

def setMount (s : State) (i : Nat) (m : Mount) : State := {s with mounts := update s.mounts i m}

def freeMount (s : State) : Option Nat := (List.range maxMounts).find? fun i => !(s.mounts i).active

def mountAt (s : State) (point : Option Nat) (devname : List UInt8) (mountFs : Except Errno Nat) :
    State × Option Errno :=
  if maxMounts ≤ s.mountCnt then (s,some .enfile)
  else match s.freeMount with
    | none => (s,some .enfile)
    | some i =>
      let filled : Mount := ⟨true,none,point,devname.take 15,s.nextDevId⟩
      let t := {s with nextDevId := (s.nextDevId + 1) % 2 ^ 32}.refPoint point
      match mountFs with
      | .error e => ((t.setMount i {filled with active := false}).unrefPoint point,some e)
      | .ok root =>
        -- the driver's dir_vnode made the root and left its reference to the mount
        let t := {t with refs := update t.refs root 1, mnt := update t.mnt root (some i),
                         mountCnt := t.mountCnt + 1}
        (t.setMount i {filled with root := some root},none)

def sweep (s : State) (i : Nat) : State :=
  {s with refs := fun v => if s.mnt v = some i then 0 else s.refs v,
          mnt := fun v => if s.mnt v = some i then none else s.mnt v}

def childOf (s : State) (i j : Nat) : Bool :=
  (s.mounts j).active && j != i && match (s.mounts j).point with
    | some p => s.mnt p == some i
    | none => false

/-- One pass of umount_children: it ends early, with true, when a mount went away. -/
def pass (down : State → Nat → Option (State × Option Errno)) (i : Nat) :
    List Nat → State → Option Errno → Option (State × Option Errno × Bool)
  | [], s, first => some (s,first,false)
  | j :: rest, s, first =>
    if s.childOf i j then
      match down s j with
      | none => none
      | some (t,rc) => if (t.mounts j).active then pass down i rest t (first.or rc) else some (t,first.or rc,true)
    else pass down i rest s first

def umountChildren (down : State → Nat → Option (State × Option Errno)) (i : Nat) :
    Nat → State → Option Errno → Option (State × Option Errno)
  | 0, _, _ => none
  | passes + 1, s, first =>
    match pass down i (List.range maxMounts) s first with
    | none => none
    | some (t,first,true) => umountChildren down i passes t first
    | some (t,first,false) => some (t,first)

def letGo (w : Teardown) (s : State) (i : Nat) : State × Option Errno :=
  let t := s.sweep i
  let t := {t.setMount i {t.mounts i with active := false, root := none, point := none} with
            mountCnt := t.mountCnt - 1}
  (t.unrefPoint (s.mounts i).point,(w.umountFs i).or (w.flush i))

/-- vfs::umount, `depth` mounts deep at most: a mount on a mount is one level more. -/
def umount (w : Teardown) (force : Bool) : Nat → State → Nat → Option (State × Option Errno)
  | 0, _, _ => none
  | depth + 1, s, i =>
    let s := if w.canSleep then s.reap else s
    if (s.mounts i).active then
      match umountChildren (umount w force depth) i (maxMounts + 1) s none with
      | none => none
      | some (t,first) =>
        if first.isSome && !force then some (t,first)
        else if w.busy i && !force then some (t,some .ebusy)
        else some (letGo w t i)
    else some (s,some .einval)

def removeMountDir (s : State) (dir : Except Errno Nat) (rmdir : Option Errno) : State × Option Errno :=
  match dir with
  | .error e => (s,some e)
  | .ok d => ((s.ref d).unref d,rmdir)

def mountPoint (s : State) (o : Setup) : State × Except Errno (Nat × Bool) :=
  match o.found with
  | .ok p => (s.ref p,.ok (p,false))
  | .error e =>
    if e = .enoent ∧ o.hasMkdir then
      match o.mkdir with
      | some e => (s,.error e)
      | none => match o.again with
        | .ok p => (s.ref p,.ok (p,true))
        | .error e => (s,.error e)
    else (s,.error e)

def mountDevice (s : State) (name : List UInt8) (o : Setup) : State × Option Errno :=
  match o.dir with
  | .error e => (s,some e)
  | .ok dir =>
    match (s.ref dir).mountPoint o with
    | (t,.error e) => (t.unref dir,some e)
    | (t,.ok (p,made)) =>
      match (t.unref dir).mountAt (some p) name o.mountFs with
      | (u,some e) => (if made then (u.removeMountDir o.cleanup o.rmdir).1 else u,some e)
      | (u,none) => (u,none)

def unmount (s : State) (i : Nat) (o : Farewell) : Option (State × Option Errno) :=
  match (s.mounts i).point, (if o.gone then none else o.fsync) with
  | none, _ => some (s,some .eperm)
  | some _, some e => some (s,some e)
  | some _, none =>
    match umount o.down false maxMounts s i with
    | none => none
    | some (t,some e) => some (t,some e)
    | some (t,none) => some (if o.inMountDir then (t.removeMountDir o.dir o.rmdir).1 else t,none)

/-- A mount that fails, or one that succeeds together with an unmount that does. -/
def cycle (s : State) (name : List UInt8) (o : Setup) (f : Farewell) : Option State :=
  match s.mountDevice name o with
  | (t,some _) => some t
  | (t,none) =>
    match s.freeMount with
    | none => none
    | some i => match t.unmount i f with
      | some (u,none) => some u
      | _ => none

def standing (s : State) (v : Nat) : Nat := s.refs v - s.deferred.count v

structure Restored (s t : State) : Prop where
  counts : ∀ v, t.standing v = s.standing v
  table : ∀ i, (t.mounts i).active = (s.mounts i).active ∧ ((s.mounts i).active → t.mounts i = s.mounts i)
  total : t.mountCnt = s.mountCnt

/-- Every vnode belongs to an active mount, mounts are on vnodes there are, and a drop left to the
reaper is of a reference there is. -/
structure WellFormed (s : State) : Prop where
  mounted : ∀ v i, s.mnt v = some i → (s.mounts i).active
  points : ∀ i p, (s.mounts i).active → (s.mounts i).point = some p → s.mnt p ≠ none
  pending : ∀ v, s.deferred.count v ≤ s.refs v

/-- Lookups find vnodes there are, and the driver makes its root anew. -/
structure Sound (s : State) (o : Setup) : Prop where
  found : ∀ p, o.found = .ok p → s.mnt p ≠ none
  again : ∀ p, o.again = .ok p → s.mnt p ≠ none
  root : ∀ r, o.mountFs = .ok r → s.mnt r = none ∧ s.refs r = 0

end State

def Setup.NoPoint (o : Setup) : Prop :=
  (∀ dir, o.dir ≠ .ok dir) ∨ ∃ e, o.found = .error e ∧
    (e ≠ .enoent ∨ o.hasMkdir = false ∨ o.mkdir ≠ none ∨ ∀ p, o.again ≠ .ok p)

variable {name : List UInt8} {i p : Nat} {s t : State}

namespace State

theorem foldr_unref (vs : List Nat) (s : State) :
    vs.foldr (fun v s => s.unref v) s = {s with refs := fun v => s.refs v - vs.count v} := by
  induction vs with
  | nil => simp
  | cons w vs ih =>
    rw [List.foldr_cons,ih]
    simp only [unref,State.mk.injEq,and_true]
    funext v
    by_cases same : v = w
    · subst same
      simp [Nat.sub_sub]
    · simp [same,Ne.symm same]

theorem freeMount_inactive (free : s.freeMount = some i) : (s.mounts i).active = false := by
  have := List.find?_some free
  simpa using this

def mountedAt (s : State) (i p root : Nat) (name : List UInt8) : State :=
  {s with refs := update (update s.refs p (s.refs p + 1)) root 1,
          mnt := update s.mnt root (some i),
          mounts := update s.mounts i ⟨true,some root,some p,name.take 15,s.nextDevId⟩,
          mountCnt := s.mountCnt + 1, nextDevId := (s.nextDevId + 1) % 2 ^ 32}

theorem mountAt_succeeds (done : s.mountAt (some p) name fs = (t,none)) :
    ∃ i root, s.freeMount = some i ∧ fs = .ok root ∧ t = s.mountedAt i p root name := by
  unfold mountAt at done
  split at done
  · simp at done
  split at done
  · simp at done
  rename_i i free
  cases fs with
  | error f => simp at done
  | ok root => exact ⟨i,root,free,rfl,(Prod.mk.inj done).1.symm⟩

theorem pass_childless (down : State → Nat → Option (State × Option Errno)) (i : Nat) (s : State)
    (alone : ∀ j, s.childOf i j = false) (slots : List Nat) (first : Option Errno) :
    pass down i slots s first = some (s,first,false) := by
  induction slots with
  | nil => rfl
  | cons j rest ih => simpa [pass,alone j] using ih

theorem mountedAt_childless (wf : s.WellFormed) (name : List UInt8) (inactive : (s.mounts i).active = false)
    (fresh : s.mnt root = none) (j : Nat) : (s.mountedAt i p root name).childOf i j = false := by
  by_cases same : j = i
  · simp [childOf,same]
  cases active : (s.mounts j).active with
  | false => simp [childOf,mountedAt,same,active]
  | true =>
    cases point : (s.mounts j).point with
    | none => simp [childOf,mountedAt,same,point]
    | some q =>
      have alive := wf.points j q active point
      have other : q ≠ root := fun eq => alive (eq ▸ fresh)
      have outside : s.mnt q ≠ some i := fun eq => by simp [wf.mounted q i eq] at inactive
      simp [childOf,mountedAt,same,point,other,outside]

section
variable (s)

theorem unref_ref (v : Nat) : (s.ref v).unref v = s := by
  simp [ref,unref]

theorem unref_ref_other (d p : Nat) : ((s.ref d).ref p).unref d = s.ref p := by
  have same : update (update (update s.refs d (s.refs d + 1)) p
      (update s.refs d (s.refs d + 1) p + 1)) d
      (update (update s.refs d (s.refs d + 1)) p
        (update s.refs d (s.refs d + 1) p + 1) d - 1) = update s.refs p (s.refs p + 1) := by
    funext v
    by_cases isDir : v = d <;> by_cases isPoint : v = p
    · subst isDir isPoint
      simp
    · subst isDir
      simp [isPoint]
    · subst isPoint
      simp [isDir]
    · simp [isDir,isPoint]
  simp only [ref,unref,same]

theorem removeMountDir_state (dir : Except Errno Nat) (rmdir : Option Errno) :
    (s.removeMountDir dir rmdir).1 = s := by
  cases dir with
  | error e => rfl
  | ok d => exact s.unref_ref d

theorem reap_eq : s.reap = {s with refs := fun v => s.refs v - s.deferred.count v, deferred := []} :=
  foldr_unref s.deferred {s with deferred := []}

theorem Restored.refl : Restored s s := ⟨fun _ => rfl,fun _ => ⟨rfl,fun _ => rfl⟩,rfl⟩

theorem standing_ref (v : Nat) (pending : s.deferred.count v ≤ s.refs v) :
    (s.ref v).standing v = s.standing v + 1 := by
  simp only [standing,ref,update_self]
  omega

theorem mountPoint_cases (o : Setup) : (∃ e, s.mountPoint o = (s,.error e) ∧ ∃ e, o.found = .error e ∧
      (e ≠ .enoent ∨ o.hasMkdir = false ∨ o.mkdir ≠ none ∨ ∀ p, o.again ≠ .ok p)) ∨
    ∃ p made, s.mountPoint o = (s.ref p,.ok (p,made)) ∧ (o.found = .ok p ∨ o.again = .ok p) ∧
      ¬ ∃ e, o.found = .error e ∧
        (e ≠ .enoent ∨ o.hasMkdir = false ∨ o.mkdir ≠ none ∨ ∀ p, o.again ≠ .ok p) := by
  unfold mountPoint
  cases found : o.found with
  | ok p => exact .inr ⟨p,false,rfl,.inl rfl,by simp⟩
  | error e =>
    by_cases make : e = .enoent ∧ o.hasMkdir
    · cases made : o.mkdir with
      | some f => exact .inl ⟨f,by simp [make],e,rfl,by simp⟩
      | none =>
        cases again : o.again with
        | error f => exact .inl ⟨f,by simp [make],e,rfl,by simp⟩
        | ok p => exact .inr ⟨p,true,by simp [make],.inr rfl,by simp [make]⟩
    refine .inl ⟨e,by simp [make],e,rfl,?_⟩
    by_cases absent : e = .enoent
    · exact .inr (.inl (by simpa [absent] using make))
    · exact .inl absent

theorem reap_childOf (i j : Nat) : s.reap.childOf i j = s.childOf i j := by
  rw [reap_eq]
  rfl

end

theorem Restored.not_of_ref {v : Nat} (pending : s.deferred.count v ≤ s.refs v)
    (back : Restored (s.ref v) t) : ¬ Restored s t := by
  intro same
  have more := s.standing_ref v pending
  rw [← back.counts v,same.counts v] at more
  omega

theorem mountAt_fails {e : Errno} (failed : s.mountAt (some p) name fs = (t,some e)) : Restored s t := by
  unfold mountAt at failed
  split at failed
  · rw [← (Prod.mk.inj failed).1]
    exact Restored.refl s
  split at failed
  · rw [← (Prod.mk.inj failed).1]
    exact Restored.refl s
  rename_i i free
  cases fs with
  | ok root => simp at failed
  | error f =>
    rw [← (Prod.mk.inj failed).1]
    have inactive := freeMount_inactive free
    refine ⟨fun v => ?_,fun j => ?_,rfl⟩
    · by_cases same : v = p <;> simp [standing,unrefPoint,refPoint,unref,ref,setMount]
    by_cases same : j = i
    · subst same
      simp [unrefPoint,unref,setMount,inactive]
    · simp [unrefPoint,refPoint,unref,ref,setMount,same]

theorem umount_childless (w : Teardown) (depth : Nat) (s : State) (i : Nat) (alone : ∀ j, s.childOf i j = false)
    (active : (s.mounts i).active) : umount w false (depth + 1) s i =
      let s := if w.canSleep then s.reap else s
      if w.busy i then some (s,some .ebusy) else some (letGo w s i) := by
  have stillActive : ((if w.canSleep then s.reap else s).mounts i).active := by
    split
    · rw [reap_eq]
      exact active
    · exact active
  have stillAlone (j : Nat) : (if w.canSleep then s.reap else s).childOf i j = false := by
    split
    · rw [reap_childOf]
      exact alone j
    · exact alone j
  simp only [umount,stillActive,umountChildren,pass_childless _ i _ stillAlone]
  simp

theorem letGo_mountedAt (w : Teardown) (name : List UInt8) (sleeps : Bool) (inactive : (s.mounts i).active = false)
    (wf : s.WellFormed) (alive : s.mnt p ≠ none) (fresh : s.mnt root = none ∧ s.refs root = 0) :
    Restored s (letGo w (if sleeps then (s.mountedAt i p root name).reap else s.mountedAt i p root name) i).1 := by
  have apart : p ≠ root := fun eq => alive (eq ▸ fresh.1)
  have outside (v : Nat) : s.mnt v ≠ some i := fun eq => by simp [wf.mounted v i eq] at inactive
  refine ⟨fun v => ?_,fun j => ?_,?_⟩
  · by_cases isRoot : v = root
    · subst isRoot
      cases sleeps <;> simp [letGo,reap_eq,mountedAt,sweep,setMount,unrefPoint,unref,standing,Ne.symm apart,fresh.2]
    by_cases isPoint : v = p
    · subst isPoint
      cases sleeps with
      | false => simp [letGo,mountedAt,sweep,setMount,unrefPoint,unref,standing,isRoot,outside]
      | true =>
        simp [letGo,reap_eq,mountedAt,sweep,setMount,unrefPoint,unref,standing,isRoot,outside]
        omega
    · cases sleeps <;>
        simp [letGo,reap_eq,mountedAt,sweep,setMount,unrefPoint,unref,standing,isRoot,isPoint,outside]
  · by_cases same : j = i
    · subst same
      cases sleeps <;> simp [letGo,reap_eq,mountedAt,setMount,unrefPoint,unref,inactive]
    · cases sleeps <;> simp [letGo,reap_eq,mountedAt,sweep,setMount,unrefPoint,unref,same]
  · cases sleeps <;> simp [letGo,reap_eq,mountedAt,sweep,unrefPoint,unref]

theorem unmount_mountedAt {u : State} (inactive : (s.mounts i).active = false)
    (wf : s.WellFormed) (alive : s.mnt p ≠ none) (fresh : s.mnt root = none ∧ s.refs root = 0)
    (done : (s.mountedAt i p root name).unmount i f = some (u,none)) : Restored s u := by
  have active : ((s.mountedAt i p root name).mounts i).active := by simp [mountedAt]
  have childless := mountedAt_childless (p := p) wf name inactive fresh.1
  unfold unmount at done
  rw [show maxMounts = 7 + 1 from rfl,umount_childless f.down 7 _ i childless active] at done
  split at done
  · simp at done
  · simp at done
  by_cases busy : f.down.busy i
  · simp [busy] at done
  simp only [busy] at done
  have back := letGo_mountedAt f.down name f.down.canSleep inactive wf alive fresh
  revert done back
  generalize letGo f.down _ i = result
  intro done back
  obtain ⟨t,rc⟩ := result
  cases rc with
  | some e => simp at done
  | none =>
    have final : (if f.inMountDir then (t.removeMountDir f.dir f.rmdir).1 else t) = u := by simpa using done
    rw [removeMountDir_state,ite_self] at final
    exact final ▸ back

theorem cycle_ref {o : Setup} {made : Bool} {dir : Nat}
    (wf : s.WellFormed) (sound : s.Sound o) (alive : s.mnt p ≠ none) (isDir : o.dir = .ok dir)
    (point : (s.ref dir).mountPoint o = ((s.ref dir).ref p,.ok (p,made)))
    (ran : s.cycle name o f = some t) : Restored (s.ref p) t := by
  have wf' : (s.ref p).WellFormed := by
    refine ⟨wf.mounted,wf.points,fun v => (wf.pending v).trans ?_⟩
    by_cases same : v = p <;> simp [ref,same]
  have attempt : s.mountDevice name o = match (s.ref p).mountAt (some p) name o.mountFs with
      | (u,some e) => (u,some e)
      | (u,none) => (u,none) := by
    simp only [mountDevice,isDir,point,unref_ref_other,removeMountDir_state,ite_self]
  rw [cycle,attempt] at ran
  cases result : (s.ref p).mountAt (some p) name o.mountFs with
  | mk u rc =>
    rw [result] at ran
    cases rc with
    | some e => exact some.inj ran ▸ mountAt_fails result
    | none =>
      obtain ⟨i,root,free,made,rfl⟩ := mountAt_succeeds result
      have freeBefore : s.freeMount = some i := free
      simp only [freeBefore] at ran
      have fresh := sound.root root made
      have apart : p ≠ root := fun eq => alive (eq ▸ fresh.1)
      have freshRoot : (s.ref p).mnt root = none ∧ (s.ref p).refs root = 0 :=
        ⟨fresh.1,by simp [ref,Ne.symm apart,fresh.2]⟩
      split at ran
      · rename_i u unmounted
        exact some.inj ran ▸ unmount_mountedAt (freeMount_inactive free) wf' alive freshRoot unmounted
      · simp at ran

/-- mount_device never gives back the reference that its lookup of the point took: a failed mount, or
a mount and its unmount, leaves everything as it was exactly when there was no point. -/
theorem cycle_restored (s t : State) (name : List UInt8) (o : Setup) (f : Farewell) (wf : s.WellFormed)
    (sound : s.Sound o) (ran : s.cycle name o f = some t) : Restored s t ↔ o.NoPoint := by
  cases isDir : o.dir with
  | error e =>
    have nothing : s.mountDevice name o = (s,some e) := by simp [mountDevice,isDir]
    rw [cycle,nothing] at ran
    obtain rfl := some.inj ran
    exact ⟨fun _ => .inl (by simp [isDir]),fun _ => Restored.refl s⟩
  | ok dir =>
    rcases mountPoint_cases (s.ref dir) o with ⟨e,none,reason⟩ | ⟨p,made,point,source,obtained⟩
    · have nothing : s.mountDevice name o = (s,some e) := by simp [mountDevice,isDir,none,unref_ref]
      rw [cycle,nothing] at ran
      obtain rfl := some.inj ran
      exact ⟨fun _ => .inr reason,fun _ => Restored.refl s⟩
    have alive : s.mnt p ≠ none := source.elim (sound.found p) (sound.again p)
    have leaked := (cycle_ref wf sound alive isDir point ran).not_of_ref (wf.pending p)
    refine ⟨fun back => absurd back leaked,fun missing => ?_⟩
    rcases missing with noDir | reason
    · exact absurd isDir (noDir dir)
    · exact absurd reason obtained

def booted : State where
  refs v := if v = 0 then 1 else 0
  mnt v := if v = 0 ∨ v = 1 ∨ v = 2 then some 0 else none
  deferred := []
  mounts i := if i = 0 then ⟨true,some 0,none,[],1⟩ else ⟨false,none,none,[],0⟩
  mountCnt := 1
  nextDevId := 2

theorem booted_wellFormed : booted.WellFormed := by
  refine ⟨fun v i belongs => ?_,fun i p active point => ?_,fun v => by simp [booted]⟩
  · simp only [booted] at belongs ⊢
    split at belongs
    · simp [← some.inj belongs]
    · simp at belongs
  simp only [booted] at active point
  split at point
  · simp at point
  · simp at point

def unformatted : Setup := ⟨.ok 1,.ok 2,true,none,.ok 2,.error .einval,.ok 1,none⟩

def plain : Farewell := ⟨true,false,none,⟨true,fun _ => false,fun _ => none,fun _ => none⟩,.ok 1,none⟩

theorem unformatted_sound : booted.Sound unformatted := by
  refine ⟨fun p found => ?_,fun p found => ?_,fun r made => by simp [unformatted] at made⟩
  · obtain rfl : 2 = p := by simpa [unformatted] using found
    simp [booted]
  · obtain rfl : 2 = p := by simpa [unformatted] using found
    simp [booted]

theorem cycle_restored_noPoint :
    booted.WellFormed ∧ (Restored booted booted ↔ {unformatted with found := .error .eio}.NoPoint) := by
  refine ⟨booted_wellFormed,cycle_restored booted booted [] {unformatted with found := .error .eio} plain
    booted_wellFormed ⟨fun p found => by simp at found,unformatted_sound.again,unformatted_sound.root⟩ ?_⟩
  simp [cycle,mountDevice,mountPoint,unformatted,unref_ref]

theorem not_every_cycle_restored : ¬ ∀ (s t : State) (name : List UInt8) (o : Setup) (f : Farewell),
    s.WellFormed → s.Sound o → s.cycle name o f = some t → Restored s t := by
  intro every
  let t := (booted.mountDevice [117,115,98,48] unformatted).1
  have back := every booted t [117,115,98,48] unformatted plain booted_wellFormed unformatted_sound rfl
  have counted : t.standing 2 = booted.standing 2 := back.counts 2
  exact absurd counted (by decide)

end State

end SurfaceOS.Vfs.Mounting
