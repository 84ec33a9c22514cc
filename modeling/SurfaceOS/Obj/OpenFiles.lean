import SurfaceOS.Lib.Threads

/-! Open files, their handles and the calls that use them (obj/object.cpp, fs/file.cpp, sffile.cpp and
sf_process_start of process.cpp). A call runs alone until it sleeps; what it does between two sleeps
is one step here. -/
namespace SurfaceOS.Obj
open Lib Function List Option

variable {h i p v : Nat}

def handleTableSize : Nat := 64

def maxFiles : Nat := 256

structure File where
  refcnt : Nat
  vn : Option Nat
  used : Bool
  id : Nat

/-- `held` counts the references outside of the file pool: the ones of lookups, roots and processes. -/
structure Vnode where
  refcnt : Nat
  cached : Bool
  held : Nat

/-- What a thread has found through a handle and still uses: a file with its vnode, or the vnodes
that a new program gets. `closing` and `freeing` are file_destroy before and after it gives the
vnode back; a thread that is `gone` never runs again. -/
inductive Call
  | none
  | file (h i id v : Nat)
  | start (found : List (Nat × Nat))
  | closing (i : Nat)
  | freeing (i : Nat)
  | gone
  deriving DecidableEq

structure State where
  pool : Nat → File
  nextId : Nat
  vnodes : Nat → Vnode
  handles : Nat → Nat → Option Nat
  calls : Nat → Call

inductive Action
  | create (v : Nat) (cached : Bool)
  | lookup (v : Nat)
  | unref (v : Nat)
  | evict (v : Nat)
  | invalidate (v : Nat)
  | openFile (v : Nat)
  | find (h : Nat)
  | start (hs : List Nat)
  | finish
  | close (h : Nat)
  | drop
  | free
  | exit

def fdGet (s : State) (p h : Nat) : Option Nat := if h < handleTableSize then s.handles p h else none

def freeHandle (table : Nat → Option Nat) : Option Nat := (range handleTableSize).find? fun h => (table h).isNone

def freeSlot (pool : Nat → File) : Option Nat := (range maxFiles).find? fun i => !(pool i).used

def setHandle (s : State) (p h : Nat) (o : Option Nat) : Nat → Nat → Option Nat :=
  update s.handles p (update (s.handles p) h o)

def Vnode.unref (v : Vnode) : Vnode := {v with refcnt := v.refcnt - 1, held := v.held - 1}

def Vnode.ref (v : Vnode) : Vnode := {v with refcnt := v.refcnt + 1, held := v.held + 1}

/-- file_open and fd_alloc: the file takes over the caller's reference to the vnode. Without a free
handle the file goes again. -/
def openFile (p t : Nat) (s : State) (v : Nat) : State :=
  match freeSlot s.pool with
  | none => {s with vnodes := update s.vnodes v (s.vnodes v).unref}
  | some i =>
    let vnodes := update s.vnodes v {s.vnodes v with held := (s.vnodes v).held - 1}
    match freeHandle (s.handles p) with
    | some h => {s with
        pool := update s.pool i ⟨1,some v,true,s.nextId⟩
        nextId := s.nextId + 1
        vnodes := vnodes
        handles := setHandle s p h (some i)}
    | none => {s with
        pool := update s.pool i ⟨0,some v,true,s.nextId⟩
        nextId := s.nextId + 1
        vnodes := vnodes
        calls := update s.calls t (.closing i)}

def find (p : Nat) (s : State) (h : Nat) : Option (Nat × Nat) :=
  (fdGet s p h).bind fun i => (s.pool i).vn.map fun v => (i,v)

/-- handles::close: the last reference starts file_destroy. -/
def close (p t : Nat) (s : State) (h : Nat) : Option State :=
  (fdGet s p h).map fun i =>
    let f := s.pool i
    {s with
      handles := setHandle s p h none
      pool := update s.pool i {f with refcnt := f.refcnt - 1}
      calls := update s.calls t (if f.refcnt - 1 = 0 then .closing i else .none)}

def move (home : Nat → Nat) (s : State) : Nat × Action → Option State
  | (_,.create v cached) =>
    if (s.vnodes v).refcnt = 0 then
      some {s with vnodes := update s.vnodes v ⟨if cached then 2 else 1,cached,1⟩}
    else none
  | (_,.lookup v) =>
    if (s.vnodes v).cached then some {s with vnodes := update s.vnodes v (s.vnodes v).ref} else none
  | (_,.unref v) =>
    if (s.vnodes v).held = 0 then none
    else some {s with vnodes := update s.vnodes v (s.vnodes v).unref}
  | (_,.evict v) =>
    if (s.vnodes v).cached ∧ (s.vnodes v).refcnt = 1 then
      some {s with vnodes := update s.vnodes v {s.vnodes v with refcnt := 0, cached := false}}
    else none
  | (_,.invalidate v) =>
    if (s.vnodes v).cached then
      some {s with vnodes := update s.vnodes v {s.vnodes v with
        refcnt := (s.vnodes v).refcnt - 1
        cached := false}}
    else none
  | (t,.openFile v) =>
    if s.calls t = .none ∧ (s.vnodes v).held ≠ 0 then some (openFile (home t) t s v) else none
  | (t,.find h) =>
    if s.calls t = .none then
      (find (home t) s h).map fun (i,v) =>
        {s with calls := update s.calls t (.file h i (s.pool i).id v)}
    else none
  | (t,.start hs) =>
    if s.calls t = .none then
      (hs.mapM fun h => (find (home t) s h).map fun (_,v) => (h,v)).map fun found =>
        {s with calls := update s.calls t (.start found)}
    else none
  | (t,.finish) =>
    match s.calls t with
    | .file _ _ _ _ => some {s with calls := update s.calls t .none}
    | .start found => some {s with
        vnodes := found.foldl (fun vnodes e => update vnodes e.2 (vnodes e.2).ref) s.vnodes
        calls := update s.calls t .none}
    | _ => none
  | (t,.close h) => if s.calls t = .none then close (home t) t s h else none
  | (t,.drop) =>
    match s.calls t with
    | .closing i =>
      (s.pool i).vn.map fun v => {s with
        vnodes := update s.vnodes v {s.vnodes v with refcnt := (s.vnodes v).refcnt - 1}
        pool := update s.pool i {s.pool i with vn := none}
        calls := update s.calls t (.freeing i)}
    | _ => none
  | (t,.free) =>
    match s.calls t with
    | .freeing i => some {s with
        pool := update s.pool i {s.pool i with used := false}
        calls := update s.calls t .none}
    | _ => none
  | (t,.exit) =>
    -- the other threads of the process end where they are
    if s.calls t = .none then
      some {s with calls := fun u => if u ≠ t ∧ home u = home t then .gone else s.calls u}
    else none

def Step (home : Nat → Nat) (s : State) (a : Nat × Action) (t : State) : Prop := move home s a = some t

structure Initial (s : State) : Prop where
  pool : ∀ i, (s.pool i).used = false ∧ (s.pool i).vn = none
  handles : ∀ p h, s.handles p h = none
  calls : ∀ t, s.calls t = .none
  counted : ∀ v, (s.vnodes v).refcnt = (s.vnodes v).held + (s.vnodes v).cached.toNat

def Intact (s : State) : Call → Prop
  | .file _ i id v =>
    (s.pool i).used ∧ (s.pool i).refcnt ≠ 0 ∧ (s.pool i).id = id ∧ (s.pool i).vn = some v ∧
      (s.vnodes v).refcnt ≠ 0
  | .start found => ∀ e ∈ found, (s.vnodes e.2).refcnt ≠ 0
  | _ => True

def Call.uses (h : Nat) : Call → Prop
  | .file k _ _ _ => k = h
  | .start found => ∃ v, (h,v) ∈ found
  | _ => False

/-- A handle is closed only while no other thread of the process is in a call with it. -/
def Undisturbed (home : Nat → Nat) (s : State) : Nat × Action → Prop
  | (t,.close h) => ∀ u, u ≠ t → home u = home t → ¬(s.calls u).uses h
  | _ => True

def anyRun (_ : State) (_ : Nat × Action) : Prop := True

def refs (v : Nat) (f : File) : Nat := if f.vn = some v then 1 else 0

def Call.destroys : Call → Option Nat
  | .closing i => some i
  | .freeing i => some i
  | _ => .none

structure Inv (home : Nat → Nat) (s : State) : Prop where
  opened : ∀ p h i, s.handles p h = some i → i < maxFiles ∧ (s.pool i).used ∧ (s.pool i).refcnt = 1
  once : ∀ p q h k i, s.handles p h = some i → s.handles q k = some i → p = q ∧ h = k
  dying : ∀ t i, (s.calls t).destroys = some i → i < maxFiles ∧ (s.pool i).used ∧ (s.pool i).refcnt = 0
  apart : ∀ t u i, (s.calls t).destroys = some i → (s.calls u).destroys = some i → t = u
  dropped : ∀ t i, s.calls t = .freeing i → (s.pool i).vn = none
  unused : ∀ i, (s.pool i).used = false → (s.pool i).vn = none
  files : ∀ t h i id v, s.calls t = .file h i id v →
    s.handles (home t) h = some i ∧ (s.pool i).id = id ∧ (s.pool i).vn = some v
  starts : ∀ t found h v, s.calls t = .start found → (h,v) ∈ found →
    ∃ i, s.handles (home t) h = some i ∧ (s.pool i).vn = some v
  counted : ∀ v, (s.vnodes v).refcnt =
    (s.vnodes v).held + (s.vnodes v).cached.toNat + Threads.total maxFiles (refs v) s.pool

variable {home : Nat → Nat} {s n : State} {t : Nat}

theorem Inv.owned (inv : Inv home s) (inside : i < maxFiles) (at_ : (s.pool i).vn = some v) :
    (s.vnodes v).refcnt ≠ 0 := by
  have counted := inv.counted v
  rw [Threads.total_split inside] at counted
  simp only [refs,at_,if_true] at counted
  omega

theorem Inv.intact (inv : Inv home s) (t : Nat) : Intact s (s.calls t) := by
  cases call : s.calls t with
  | file h i id v =>
    obtain ⟨found,same,at_⟩ := inv.files t h i id v call
    obtain ⟨inside,used,one⟩ := inv.opened _ h i found
    exact ⟨used,by rw [one]; nofun,same,at_,inv.owned inside at_⟩
  | start found =>
    rintro ⟨h,v⟩ member
    obtain ⟨i,here,at_⟩ := inv.starts t found h v call member
    exact inv.owned (inv.opened _ h i here).1 at_
  | none | closing | freeing | gone => trivial

theorem Initial.inv (initial : Initial s) : Inv home s := by
  have idle : ∀ t, (s.calls t).destroys = none := fun t => by rw [initial.calls]; rfl
  refine ⟨?_,?_,?_,?_,?_,fun i _ => (initial.pool i).2,?_,?_,?_⟩
  · intro p h i found
    rw [initial.handles] at found
    cases found
  · intro p q h k i found
    rw [initial.handles] at found
    cases found
  · intro t i found
    rw [idle] at found
    cases found
  · intro t u i found
    rw [idle] at found
    cases found
  · intro t i found
    rw [initial.calls] at found
    cases found
  · intro t h i id v found
    rw [initial.calls] at found
    cases found
  · intro t l h v found
    rw [initial.calls] at found
    cases found
  intro v
  rw [initial.counted,Threads.total_zero]
  · rfl
  · intro i
    simp [refs,(initial.pool i).2]

section
variable (inv : Inv home s)
include inv

theorem Inv.vnode (v : Nat) (new : Vnode)
    (balance : ∀ files, (s.vnodes v).refcnt = (s.vnodes v).held + (s.vnodes v).cached.toNat + files →
      new.refcnt = new.held + new.cached.toNat + files) :
    Inv home {s with vnodes := update s.vnodes v new} := by
  refine ⟨inv.opened,inv.once,inv.dying,inv.apart,inv.dropped,inv.unused,inv.files,inv.starts,?_⟩
  intro w
  rcases eq_or_ne w v with rfl | other
  · simp only [update_self]
    exact balance _ (inv.counted w)
  · simp only [update_of_ne other]
    exact inv.counted w

theorem Inv.ref (v : Nat) : Inv home {s with vnodes := update s.vnodes v (s.vnodes v).ref} := by
  apply inv.vnode
  intro files same
  simp only [Vnode.ref]
  omega

theorem Inv.unref (v : Nat) (held : (s.vnodes v).held ≠ 0) :
    Inv home {s with vnodes := update s.vnodes v (s.vnodes v).unref} := by
  apply inv.vnode
  intro files same
  simp only [Vnode.unref]
  omega

theorem Inv.refAll (found : List (Nat × Nat)) :
    Inv home {s with vnodes := found.foldl (fun vnodes e => update vnodes e.2 (vnodes e.2).ref) s.vnodes} := by
  induction found generalizing s with
  | nil => exact inv
  | cons e found ih => exact ih (inv.ref e.2)

theorem Inv.call (c : Call)
    (dying : ∀ i, c.destroys = some i → i < maxFiles ∧ (s.pool i).used ∧ (s.pool i).refcnt = 0 ∧
      ∀ u, u ≠ t → (s.calls u).destroys ≠ some i)
    (dropped : ∀ i, c = .freeing i → (s.pool i).vn = none)
    (files : ∀ h i id v, c = .file h i id v →
      s.handles (home t) h = some i ∧ (s.pool i).id = id ∧ (s.pool i).vn = some v)
    (starts : ∀ found h v, c = .start found → (h,v) ∈ found →
      ∃ i, s.handles (home t) h = some i ∧ (s.pool i).vn = some v) :
    Inv home {s with calls := update s.calls t c} := by
  have own : update s.calls t c t = c := update_self ..
  have rest : ∀ u, u ≠ t → update s.calls t c u = s.calls u := fun u other => update_of_ne other ..
  refine ⟨inv.opened,inv.once,?_,?_,?_,inv.unused,?_,?_,inv.counted⟩
  · intro u i found
    rcases eq_or_ne u t with rfl | other
    · obtain ⟨inside,used,zero,-⟩ := dying i (own ▸ found)
      exact ⟨inside,used,zero⟩
    · exact inv.dying u i (rest u other ▸ found)
  · intro u w i first second
    rcases eq_or_ne u t with left | left <;> rcases eq_or_ne w t with right | right
    · exact left.trans right.symm
    · rw [left] at first
      exact absurd (rest w right ▸ second) ((dying i (own ▸ first)).2.2.2 w right)
    · rw [right] at second
      exact absurd (rest u left ▸ first) ((dying i (own ▸ second)).2.2.2 u left)
    · exact inv.apart u w i (rest u left ▸ first) (rest w right ▸ second)
  · intro u i found
    rcases eq_or_ne u t with rfl | other
    · exact dropped i (own ▸ found)
    · exact inv.dropped u i (rest u other ▸ found)
  · intro u h i id v found
    rcases eq_or_ne u t with rfl | other
    · exact files h i id v (own ▸ found)
    · exact inv.files u h i id v (rest u other ▸ found)
  · intro u l h v found
    rcases eq_or_ne u t with rfl | other
    · exact starts l h v (own ▸ found)
    · exact inv.starts u l h v (rest u other ▸ found)

theorem Inv.done : Inv home {s with calls := update s.calls t .none} :=
  inv.call .none nofun nofun nofun nofun

end

theorem find_spec (found : find p s h = some (i,v)) : s.handles p h = some i ∧ (s.pool i).vn = some v := by
  obtain ⟨j,here,mapped⟩ := bind_eq_some_iff.mp found
  obtain ⟨w,at_,same⟩ := map_eq_some_iff.mp mapped
  cases same
  exact ⟨(ite_none_right_eq_some.mp here).2,at_⟩

theorem start_found {hs : List Nat} {found : List (Nat × Nat)}
    (looked : (hs.mapM fun h => (find p s h).map fun (_,v) => (h,v)) = some found) :
    ∀ e ∈ found, ∃ i, s.handles p e.1 = some i ∧ (s.pool i).vn = some e.2 := by
  induction hs generalizing found with
  | nil =>
    cases looked
    nofun
  | cons h hs ih =>
    rw [mapM_cons] at looked
    obtain ⟨e,first,rest⟩ := bind_eq_some_iff.mp looked
    obtain ⟨es,later,same⟩ := bind_eq_some_iff.mp rest
    cases same
    obtain ⟨⟨i,v⟩,here,rfl⟩ := map_eq_some_iff.mp first
    intro e member
    rcases mem_cons.mp member with rfl | inside
    · exact ⟨i,find_spec here⟩
    · exact ih later e inside

theorem setHandle_apply {q k : Nat} {o : Option Nat} :
    setHandle s p h o q k = if q = p ∧ k = h then o else s.handles q k := by
  unfold setHandle
  rcases eq_or_ne q p with rfl | other
  · rcases eq_or_ne k h with rfl | apart
    · simp
    · simp [apart]
  · simp [other]

section
variable (inv : Inv home s)
include inv

theorem Inv.unlist
    (undisturbed : ∀ u, home u = p → ¬(s.calls u).uses h) : Inv home {s with handles := setHandle s p h none} := by
  have kept : ∀ q k i, setHandle s p h none q k = some i → s.handles q k = some i := by
    intro q k i listed
    rw [setHandle_apply] at listed
    split at listed
    · cases listed
    · exact listed
  have used : ∀ u k i, (s.calls u).uses k → s.handles (home u) k = some i → setHandle s p h none (home u) k = some i := by
    intro u k i uses listed
    rw [setHandle_apply,if_neg]
    · exact listed
    · rintro ⟨same,rfl⟩
      exact undisturbed u same uses
  refine ⟨?_,?_,inv.dying,inv.apart,inv.dropped,inv.unused,?_,?_,inv.counted⟩
  · intro q k i listed
    exact inv.opened q k i (kept q k i listed)
  · intro q r k l i first second
    exact inv.once q r k l i (kept q k i first) (kept r l i second)
  · intro u k i id v call
    obtain ⟨listed,rest⟩ := inv.files u k i id v call
    exact ⟨used u k i (by rw [call]; rfl) listed,rest⟩
  · intro u found k v call member
    obtain ⟨i,listed,at_⟩ := inv.starts u found k v call member
    exact ⟨i,used u k i (by rw [call]; exact ⟨v,member⟩) listed,at_⟩

theorem Inv.list (vacant : s.handles p h = none) (inside : i < maxFiles)
    (used : (s.pool i).used) (one : (s.pool i).refcnt = 1) (unlisted : ∀ q k, s.handles q k ≠ some i) :
    Inv home {s with handles := setHandle s p h (some i)} := by
  have kept : ∀ q k j, s.handles q k = some j → setHandle s p h (some i) q k = some j := by
    intro q k j listed
    rw [setHandle_apply,if_neg]
    · exact listed
    · rintro ⟨rfl,rfl⟩
      rw [vacant] at listed
      cases listed
  refine ⟨?_,?_,inv.dying,inv.apart,inv.dropped,inv.unused,?_,?_,inv.counted⟩
  · intro q k j listed
    dsimp only at listed
    rw [setHandle_apply] at listed
    split at listed
    · cases listed
      exact ⟨inside,used,one⟩
    · exact inv.opened q k j listed
  · intro q r k l j first second
    dsimp only at first second
    rw [setHandle_apply] at first second
    split at first <;> split at second
    · next here there => exact ⟨here.1.trans there.1.symm,here.2.trans there.2.symm⟩
    · cases first
      exact absurd second (unlisted r l)
    · cases second
      exact absurd first (unlisted q k)
    · exact inv.once q r k l j first second
  · intro u k j id v call
    obtain ⟨listed,rest⟩ := inv.files u k j id v call
    exact ⟨kept _ k j listed,rest⟩
  · intro u found k v call member
    obtain ⟨j,listed,at_⟩ := inv.starts u found k v call member
    exact ⟨j,kept _ k j listed,at_⟩

theorem Inv.slot (inside : i < maxFiles) (f : File) (vnodes : Nat → Vnode)
    (unlisted : ∀ p h, s.handles p h ≠ some i)
    (dying : ∀ u, (s.calls u).destroys = some i → f.used ∧ f.refcnt = 0)
    (dropped : ∀ u, s.calls u = .freeing i → f.vn = none) (unused : f.used = false → f.vn = none)
    (balance : ∀ v, (vnodes v).refcnt + (s.vnodes v).held + (s.vnodes v).cached.toNat + refs v (s.pool i) =
      (s.vnodes v).refcnt + (vnodes v).held + (vnodes v).cached.toNat + refs v f) :
    Inv home {s with pool := update s.pool i f, vnodes := vnodes} := by
  have own : update s.pool i f i = f := update_self ..
  have rest : ∀ j, j ≠ i → update s.pool i f j = s.pool j := fun j other => update_of_ne other ..
  have listed : ∀ p h j, s.handles p h = some j → update s.pool i f j = s.pool j := by
    intro p h j found
    apply rest
    rintro rfl
    exact unlisted p h found
  refine ⟨?_,inv.once,?_,inv.apart,?_,?_,?_,?_,?_⟩
  · intro p h j found
    dsimp only
    rw [listed p h j found]
    exact inv.opened p h j found
  · intro u j found
    obtain ⟨inside,before⟩ := inv.dying u j found
    refine ⟨inside,?_⟩
    dsimp only
    rcases eq_or_ne j i with rfl | other
    · rw [own]
      exact dying u found
    · rw [rest j other]
      exact before
  · intro u j found
    dsimp only
    rcases eq_or_ne j i with rfl | other
    · rw [own]
      exact dropped u found
    · rw [rest j other]
      exact inv.dropped u j found
  · intro j free
    dsimp only at free ⊢
    rcases eq_or_ne j i with rfl | other
    · rw [own] at free ⊢
      exact unused free
    · rw [rest j other] at free ⊢
      exact inv.unused j free
  · intro u h j id v call
    obtain ⟨found,same⟩ := inv.files u h j id v call
    dsimp only
    rw [listed _ h j found]
    exact ⟨found,same⟩
  · intro u l h v call member
    obtain ⟨j,found,at_⟩ := inv.starts u l h v call member
    refine ⟨j,found,?_⟩
    dsimp only
    rw [listed _ h j found]
    exact at_
  · intro v
    have total : Threads.total maxFiles (refs v) (update s.pool i f) + refs v (s.pool i) =
        Threads.total maxFiles (refs v) s.pool + refs v f := Threads.total_update inside f
    have counted := inv.counted v
    have same := balance v
    dsimp only
    omega

theorem Inv.unlisted (zero : (s.pool i).refcnt ≠ 1 ∨ (s.pool i).used = false) (p h : Nat) :
    s.handles p h ≠ some i := by
  intro found
  obtain ⟨-,used,one⟩ := inv.opened p h i found
  rcases zero with other | free
  · exact other one
  · rw [used] at free
    cases free

theorem Inv.closes (undisturbed : Undisturbed home s (t,.close h)) (idle : s.calls t = .none)
    (moved : close (home t) t s h = some n) : Inv home n := by
  obtain ⟨i,here,same⟩ := map_eq_some_iff.mp moved
  subst same
  have found : s.handles (home t) h = some i := (ite_none_right_eq_some.mp here).2
  obtain ⟨inside,used,one⟩ := inv.opened _ _ _ found
  have alive : ∀ u, (s.calls u).destroys ≠ some i := by
    intro u dies
    have zero := (inv.dying u i dies).2.2
    omega
  have quiet : ∀ u, home u = home t → ¬(s.calls u).uses h := by
    intro u same
    rcases eq_or_ne u t with rfl | other
    · rw [idle]
      exact id
    · exact undisturbed u other same
  have removed := inv.unlist quiet
  have gone : ∀ p k, setHandle s (home t) h none p k ≠ some i := by
    intro p k listed
    rw [setHandle_apply] at listed
    split at listed
    · cases listed
    · next other => exact other (inv.once _ _ _ _ _ listed found)
  have emptied := removed.slot inside {s.pool i with refcnt := (s.pool i).refcnt - 1} s.vnodes gone
    (fun u dies => absurd dies (alive u)) (fun u dies => absurd (congrArg Call.destroys dies) (alive u)) (inv.unused i) ?_
  · have closed := emptied.call (t := t) (.closing i) ?_ nofun nofun nofun
    · simpa only [one,Nat.sub_self,if_true] using closed
    rintro j ⟨⟩
    refine ⟨inside,?_,?_,fun u _ => alive u⟩
    · simpa using used
    · simp [one]
  · exact fun v => rfl

theorem Inv.drops (mine : s.calls t = .closing i) (at_ : (s.pool i).vn = some v) : Inv home {s with
      vnodes := update s.vnodes v {s.vnodes v with refcnt := (s.vnodes v).refcnt - 1}
      pool := update s.pool i {s.pool i with vn := none}
      calls := update s.calls t (.freeing i)} := by
  have dies : (s.calls t).destroys = some i := by rw [mine]; rfl
  obtain ⟨inside,used,zero⟩ := inv.dying t i dies
  have dropped := inv.slot inside {s.pool i with vn := none}
    (update s.vnodes v {s.vnodes v with refcnt := (s.vnodes v).refcnt - 1})
    (inv.unlisted (.inl (by rw [zero]; nofun))) (fun _ _ => ⟨used,zero⟩) (fun _ _ => rfl) (fun _ => rfl) ?_
  · refine dropped.call (.freeing i) ?_ ?_ nofun nofun
    · rintro j ⟨⟩
      refine ⟨inside,by simpa using used,by simpa using zero,?_⟩
      intro u other also
      exact other (inv.apart u t i also dies)
    · rintro j ⟨⟩
      simp
  · intro w
    rcases eq_or_ne w v with rfl | other
    · have positive := inv.owned inside at_
      simp [refs,at_]
      omega
    · simp [refs,at_,other,Ne.symm other]

theorem Inv.frees (mine : s.calls t = .freeing i) : Inv home {s with
      pool := update s.pool i {s.pool i with used := false}
      calls := update s.calls t .none} := by
  have dies : (s.calls t).destroys = some i := by rw [mine]; rfl
  obtain ⟨inside,used,zero⟩ := inv.dying t i dies
  have empty := inv.dropped t i mine
  have nobody : ∀ u, (update s.calls t .none u).destroys ≠ some i := by
    intro u also
    rcases eq_or_ne u t with rfl | other
    · rw [update_self] at also
      cases also
    · rw [update_of_ne other] at also
      exact other (inv.apart u t i also dies)
  refine inv.done.slot inside {s.pool i with used := false} s.vnodes (inv.unlisted (.inl (by rw [zero]; nofun)))
    (fun u also => absurd also (nobody u)) (fun u also => absurd (congrArg Call.destroys also) (nobody u)) (fun _ => empty) ?_
  exact fun v => rfl

end

theorem freeSlot_spec {pool : Nat → File} (found : freeSlot pool = some i) :
    i < maxFiles ∧ (pool i).used = false := by
  have inside := mem_range.mp (mem_of_find?_eq_some found)
  have free := find?_some found
  exact ⟨inside,by simpa using free⟩

section
variable (inv : Inv home s)
include inv

theorem Inv.takes {refcnt : Nat} (slot : freeSlot s.pool = some i) (held : (s.vnodes v).held ≠ 0) : Inv home {s with
      pool := update s.pool i ⟨refcnt,some v,true,s.nextId⟩
      nextId := s.nextId + 1
      vnodes := update s.vnodes v {s.vnodes v with held := (s.vnodes v).held - 1}} := by
  obtain ⟨inside,free⟩ := freeSlot_spec slot
  have nobody : ∀ u, (s.calls u).destroys ≠ some i := by
    intro u dies
    have used := (inv.dying u i dies).2.1
    rw [free] at used
    cases used
  have taken := inv.slot inside ⟨refcnt,some v,true,s.nextId⟩
    (update s.vnodes v {s.vnodes v with held := (s.vnodes v).held - 1})
    (inv.unlisted (.inr free)) (fun u dies => absurd dies (nobody u)) (fun u dies => absurd (congrArg Call.destroys dies) (nobody u))
    nofun ?_
  · exact ⟨taken.opened,taken.once,taken.dying,taken.apart,taken.dropped,taken.unused,taken.files,taken.starts,taken.counted⟩
  intro w
  rcases eq_or_ne w v with rfl | other
  · simp [refs,inv.unused i free]
    omega
  · simp [refs,inv.unused i free,other,Ne.symm other]

theorem Inv.opens (held : (s.vnodes v).held ≠ 0) : Inv home (openFile (home t) t s v) := by
  unfold openFile
  split
  · exact inv.unref v held
  rename_i i slot
  obtain ⟨inside,free⟩ := freeSlot_spec slot
  split
  · next h vacant =>
    have empty := find?_some vacant
    refine Inv.list (inv.takes slot held) (by simpa using empty) inside ?_ ?_ (inv.unlisted (.inr free))
    · simp
    · simp
  refine Inv.call (inv.takes slot held) (.closing i) ?_ nofun nofun nofun
  rintro j ⟨⟩
  refine ⟨inside,by simp,by simp,?_⟩
  intro u _ dies
  have used := (inv.dying u i dies).2.1
  rw [free] at used
  cases used

theorem Inv.exits : Inv home {s with calls := fun u => if u ≠ t ∧ home u = home t then .gone else s.calls u} := by
  have kept : ∀ u c, (if u ≠ t ∧ home u = home t then .gone else s.calls u) = c → c ≠ .gone → s.calls u = c := by
    intro u c same other
    split at same
    · exact absurd same.symm other
    · exact same
  have dying : ∀ u i, (if u ≠ t ∧ home u = home t then Call.gone else s.calls u).destroys = some i →
      (s.calls u).destroys = some i := by
    intro u i dies
    split at dies
    · cases dies
    · exact dies
  refine ⟨inv.opened,inv.once,?_,?_,?_,inv.unused,?_,?_,inv.counted⟩
  · intro u i dies
    exact inv.dying u i (dying u i dies)
  · intro u w i first second
    exact inv.apart u w i (dying u i first) (dying w i second)
  · intro u i call
    exact inv.dropped u i (kept u _ call nofun)
  · intro u h i id v call
    exact inv.files u h i id v (kept u _ call nofun)
  · intro u l h v call
    exact inv.starts u l h v (kept u _ call nofun)

theorem Inv.step {a : Nat × Action} (undisturbed : Undisturbed home s a) (moved : Step home s a n) : Inv home n := by
  obtain ⟨t,a⟩ := a
  unfold Step at moved
  cases a with
  | create v cached =>
    obtain ⟨dead,same⟩ := ite_none_right_eq_some.mp moved
    cases same
    apply inv.vnode
    intro files same
    cases cached <;> simp <;> omega
  | lookup v =>
    obtain ⟨-,same⟩ := ite_none_right_eq_some.mp moved
    cases same
    exact inv.ref v
  | unref v =>
    obtain ⟨held,same⟩ := ite_none_left_eq_some.mp moved
    cases same
    exact inv.unref v held
  | evict v =>
    obtain ⟨⟨cached,one⟩,same⟩ := ite_none_right_eq_some.mp moved
    cases same
    apply inv.vnode
    intro files same
    rw [cached] at same
    simp at same ⊢
    omega
  | invalidate v =>
    obtain ⟨cached,same⟩ := ite_none_right_eq_some.mp moved
    cases same
    apply inv.vnode
    intro files same
    rw [cached] at same
    simp at same ⊢
    omega
  | openFile v =>
    obtain ⟨⟨-,held⟩,same⟩ := ite_none_right_eq_some.mp moved
    cases same
    exact inv.opens held
  | find h =>
    obtain ⟨-,looked⟩ := ite_none_right_eq_some.mp moved
    obtain ⟨⟨i,v⟩,found,rfl⟩ := map_eq_some_iff.mp looked
    obtain ⟨listed,at_⟩ := find_spec found
    refine inv.call _ nofun nofun ?_ nofun
    rintro _ _ _ _ ⟨⟩
    exact ⟨listed,rfl,at_⟩
  | start hs =>
    obtain ⟨-,looked⟩ := ite_none_right_eq_some.mp moved
    obtain ⟨found,each,rfl⟩ := map_eq_some_iff.mp looked
    refine inv.call _ nofun nofun nofun ?_
    rintro _ h v ⟨⟩ member
    exact start_found each (h,v) member
  | finish =>
    dsimp only [move] at moved
    split at moved
    · cases moved
      exact inv.done
    · cases moved
      exact inv.done.refAll _
    · cases moved
  | close h =>
    obtain ⟨idle,closed⟩ := ite_none_right_eq_some.mp moved
    exact inv.closes undisturbed idle closed
  | drop =>
    dsimp only [move] at moved
    split at moved
    · next i mine =>
      obtain ⟨v,at_,rfl⟩ := map_eq_some_iff.mp moved
      exact inv.drops mine at_
    · cases moved
  | free =>
    dsimp only [move] at moved
    split at moved
    · next i mine =>
      cases moved
      exact inv.frees mine
    · cases moved
  | exit =>
    obtain ⟨-,same⟩ := ite_none_right_eq_some.mp moved
    cases same
    exact inv.exits

end

/-- In every run in which no handle is closed under a call that uses it, each call has the objects it
has found. -/
theorem calls_intact (reached : Reach Initial (Undisturbed home) (Step home) s) (t : Nat) : Intact s (s.calls t) := by
  have inv := Reach.invariant (Inv home) (fun s => Initial.inv) (fun s a n inv allowed moved => inv.step allowed moved)
    s reached
  exact inv.intact t

def nothingOpen : State where
  pool := fun _ => ⟨0,none,false,0⟩
  nextId := 1
  vnodes := fun _ => ⟨0,false,0⟩
  handles := fun _ _ => none
  calls := fun _ => .none

theorem nothingOpen_initial : Initial nothingOpen :=
  ⟨fun _ => ⟨rfl,rfl⟩,fun _ _ => rfl,fun _ => rfl,fun _ => rfl⟩

def readingBeside : List (Nat × Action) :=
  [(0,.create 0 true),(0,.openFile 0),(0,.create 1 true),(0,.openFile 1),(0,.find 0)]

def beforeClose : State := (execute (move fun _ => 0) nothingOpen readingBeside).getD nothingOpen

theorem calls_intact_beside : ∃ s, Reach Initial (Undisturbed fun _ => 0) (Step fun _ => 0) s ∧
    s.calls 0 = .file 0 0 1 0 ∧ s.calls 1 = .closing 1 ∧ Intact s (s.calls 0) := by
  have reached : Reach Initial (Undisturbed fun _ => 0) (Step fun _ => 0) beforeClose := by
    refine Reach.admitted readingBeside ?_ nothingOpen beforeClose (.start _ nothingOpen_initial) rfl
    simp [readingBeside,Undisturbed]
  have closed : (move (fun _ => 0) beforeClose (1,.close 1)).map (fun s => (s.calls 0,s.calls 1)) =
      some (.file 0 0 1 0,.closing 1) := by
    decide +kernel
  obtain ⟨s,here,seen⟩ := map_eq_some_iff.mp closed
  obtain ⟨reads,closes⟩ := Prod.mk.inj seen
  have alone : Undisturbed (fun _ => 0) beforeClose (1,.close 1) := by
    rintro (_ | _ | u) other -
    · exact (nofun : ¬0 = 1)
    · exact absurd rfl other
    · exact id
  have reached := Reach.next beforeClose s (1,Action.close 1) reached alone here
  exact ⟨s,reached,reads,closes,calls_intact reached 0⟩

/-- The first thread sleeps in a read of a pipe. The second one closes the handle and opens another
file, which gets the slot. -/
def closedUnderRead : List (Nat × Action) :=
  [(0,.create 0 false),(0,.openFile 0),(0,.find 0),(1,.close 0),(1,.drop),(1,.free),(1,.create 1 true),(1,.openFile 1)]

theorem not_every_call_intact : ¬∀ home s, Reach Initial anyRun (Step home) s → ∀ t, Intact s (s.calls t) := by
  intro all
  have ran : (execute (move fun _ => 0) nothingOpen closedUnderRead).map
      (fun s => (s.calls 0,(s.pool 0).id)) = some (.file 0 0 1 0,2) := by
    decide +kernel
  obtain ⟨s,here,seen⟩ := map_eq_some_iff.mp ran
  obtain ⟨reads,other⟩ := Prod.mk.inj seen
  have reached : Reach Initial anyRun (Step fun _ => 0) s :=
    Reach.execute (fun _ _ _ moved => ⟨trivial,moved⟩) closedUnderRead nothingOpen s (.start _ nothingOpen_initial) here
  have intact := all _ s reached 0
  rw [reads] at intact
  exact absurd (other.symm.trans intact.2.2.1) (by decide)

end SurfaceOS.Obj
