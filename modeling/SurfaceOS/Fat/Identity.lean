import SurfaceOS.Fat.Vnodes
import SurfaceOS.Lib.Transition

/-! Which vnode a file has (fs/vfs.cpp and the calls of fat32/vnode.cpp). The cache knows files by `fs_key`, and
a key is a place: a slot in a directory, or a directory's first cluster. Here a volume is what its keys lead to;
`live` numbers the files so that a place can be told from what lies there. Which record a name finds, which
free slots a new one gets, which vnode is evicted and what fails is left open. -/
namespace SurfaceOS.Fat.Identity
open Lib Function Option Nat

variable {new h j n : Nat} {v : Vnode}

/-- The keys of `dir_key` and the root's; a file's has its slot in the low half. -/
def isDir (k : Nat) : Bool := dirMark ≤ k % 2^32

structure Vnode where
  key : Nat
  refcnt : Nat
  cached : Bool
  deriving DecidableEq

/-- `owner` is the file a vnode was made for, `holds` counts the references that calls have handed out. -/
structure State where
  live : Nat → Option Nat
  files : Nat
  vnodes : Nat → Option Vnode
  owner : Nat → Nat
  fresh : Nat
  holds : Nat → Nat

namespace State

def set (s : State) (i : Nat) (v : Option Vnode) : State := {s with vnodes := update s.vnodes i v}

def alter (s : State) (i : Nat) (change : Vnode → Vnode) : State := s.set i ((s.vnodes i).map change)

def ref (s : State) (i : Nat) : State := s.alter i fun v => {v with refcnt := v.refcnt + 1}

def unref (s : State) (i : Nat) : State :=
  s.set i ((s.vnodes i).bind fun v => if v.refcnt ≤ 1 then none else some {v with refcnt := v.refcnt - 1})

def invalidate (s : State) (i : Nat) : State :=
  if (s.vnodes i).any (·.cached) then (s.alter i fun v => {v with cached := false}).unref i else s

def hit (s : State) (k : Nat) : Option Nat :=
  (List.range s.fresh).find? fun i => (s.vnodes i).any fun v => v.cached && v.key = k

def getCached (s : State) (k f : Nat) : Nat × State :=
  match s.hit k with
  | some i => (i,s.ref i)
  | none => (s.fresh,{s.set s.fresh (some ⟨k,2,true⟩) with
      owner := update s.owner s.fresh f, fresh := s.fresh + 1})

def given (got : Nat × State) : Nat × State :=
  (got.1,{got.2 with holds := update got.2.holds got.1 (got.2.holds got.1 + 1)})

def lookup (s : State) (k : Nat) : Option (Nat × State) := (s.live k).map fun f => given (s.getCached k f)

/-- The cached vnode of a record that goes: `find_cached`, `invalidate`, `unref`. -/
def orphan (s : State) (k : Nat) : State :=
  match s.hit k with
  | some i => ((s.ref i).invalidate i).unref i
  | none => s

def place (s : State) (k : Nat) (f : Option Nat) : State := {s with live := update s.live k f}

def rekey (s : State) (i k : Nat) : State :=
  if (s.vnodes i).any (·.key = k) then s
  else
    let others := s.alter i fun v => {v with cached := false}
    let s := match if (s.vnodes i).any (·.cached) then others.hit k else none with
      | some other => s.invalidate other
      | none => s
    s.alter i fun v => {v with key := k}

def follow (s : State) (k new : Nat) : State :=
  match s.hit k with
  | some i => ((s.ref i).rekey i new).unref i
  | none => s

end State

/-- `new` is where a record goes. With `stays` the device fails when a record is to be removed. A create that gets
no vnode is a `mkdir`. Every rename comes from `files_rename`, with `RENAME_NOREPLACE`: no record is replaced. -/
inductive Act
  | lookup (k : Nat)
  | create (k : Nat)
  | mkdir (k : Nat)
  | remove (k : Nat) (stays : Bool)
  | rename (k new : Nat) (stays : Bool)
  | evict (i : Nat)
  | ref (i : Nat)
  | unref (i : Nat)

namespace State

/-- The end of `fat_rename`. A directory keeps its key. -/
def moved (s : State) (k f new : Nat) (stays : Bool) : State :=
  if isDir k then s
  else if stays then s.place new (some f)
  else ((s.place new (some f)).place k none).follow k new

def act (s : State) : Act → Option State
  | .lookup k => (s.lookup k).map Prod.snd
  | .create k => if s.live k = none then
      some (given ({s.place k (some s.files) with files := s.files + 1}.getCached k s.files)).2 else none
  | .mkdir k => if s.live k = none then some {s.place k (some s.files) with files := s.files + 1} else none
  | .remove k stays => if (s.live k).isSome then some (if stays then s.orphan k else (s.orphan k).place k none) else none
  | .rename k new stays => (s.live k).bind fun f =>
      if isDir k ∨ s.live new = none then some (s.moved k f new stays) else none
  | .evict i => if (s.vnodes i).any fun v => v.cached && v.refcnt = 1 then some (s.set i none) else none
  | .ref i => if 0 < s.holds i then
      some {s.ref i with holds := update s.holds i (s.holds i + 1)} else none
  | .unref i => if 0 < s.holds i then
      some {s.unref i with holds := update s.holds i (s.holds i - 1)} else none

end State

def Untouched (s : State) : Prop :=
  (∀ k l f, s.live k = some f → s.live l = some f → k = l) ∧ (∀ k f, s.live k = some f → f < s.files) ∧
    (∀ i, s.vnodes i = none) ∧ ∀ i, s.holds i = 0

/-- No failure half way. -/
def Straight (_ : State) : Act → Prop
  | .remove _ stays | .rename _ _ stays => stays = false
  | _ => True

abbrev Reached (init : State → Prop) (guard : State → Act → Prop) : State → Prop :=
  Reach init guard fun s a t => s.act a = some t

/-- At most one cached vnode for a key; a lookup gives a vnode of the file that it finds; and as long as a
reference to it is held, every other lookup of the file gives the same. -/
structure OneVnode (guard : State → Act → Prop) (s : State) : Prop where
  unique : ∀ i j v w, s.vnodes i = some v → s.vnodes j = some w → v.cached → w.cached →
    v.key = w.key → i = j
  right : ∀ k i t, s.lookup k = some (i,t) → s.live k = some (t.owner i)
  same : ∀ k i t, s.lookup k = some (i,t) →
    ∀ u, Reached (· = t) (fun u a => guard u a ∧ (a = .unref i → 1 < u.holds i)) u →
      ∀ l j w, u.live l = s.live k → u.lookup l = some (j,w) → j = i

structure State.Fits (s : State) (i : Nat) (v : Vnode) : Prop where
  known : i < s.fresh ∧ s.owner i < s.files
  count : v.refcnt = s.holds i + (if v.cached then 1 else 0) ∧ 0 < v.refcnt
  cached : v.cached ↔ s.live v.key = some (s.owner i)
  living : ∀ k, s.live k = some (s.owner i) → v.key = k

structure Inv (s : State) : Prop where
  apart : ∀ k l f, s.live k = some f → s.live l = some f → k = l
  old : ∀ k f, s.live k = some f → f < s.files
  fits : ∀ i v, s.vnodes i = some v → s.Fits i v
  gone : ∀ i, s.vnodes i = none → s.holds i = 0
  unique : ∀ i j v w, s.vnodes i = some v → s.vnodes j = some w → v.cached → w.cached →
    v.key = w.key → i = j

section
variable {s t : State} {i k f : Nat}

namespace State

theorem hit_some (found : s.hit k = some i) : ∃ v, s.vnodes i = some v ∧ v.cached ∧ v.key = k := by
  have fits := List.find?_some found
  cases here : s.vnodes i with
  | none => simp [here] at fits
  | some v =>
    simp only [here,any_some,Bool.and_eq_true,decide_eq_true_eq] at fits
    exact ⟨v,rfl,fits⟩

theorem hit_none (inv : Inv s) (missed : s.hit k = none) (here : s.vnodes i = some v)
    (cached : v.cached) : v.key ≠ k := by
  intro same
  have listed : i ∈ List.range s.fresh := List.mem_range.mpr (inv.fits i v here).known.1
  exact absurd (by simp [here,cached,same]) (List.find?_eq_none.mp missed i listed)

theorem hit_of (inv : Inv s) (here : s.vnodes i = some v) (cached : v.cached) : s.hit v.key = some i := by
  cases found : s.hit v.key with
  | none => exact absurd rfl (hit_none inv found here cached)
  | some j =>
    obtain ⟨w,there,also,same⟩ := hit_some found
    rw [inv.unique j i w v there here also cached same]

theorem ref_eq (here : s.vnodes i = some v) : s.ref i = s.set i (some {v with refcnt := v.refcnt + 1}) := by
  rw [ref,alter,here]
  rfl

theorem unref_eq (here : s.vnodes i = some v) :
    s.unref i = s.set i (if v.refcnt ≤ 1 then none else some {v with refcnt := v.refcnt - 1}) := by
  rw [unref,here]
  rfl

section
variable (s) (i)

theorem set_self (v : Option Vnode) : (s.set i v).vnodes i = v := update_self ..

theorem set_other (v : Option Vnode) (other : j ≠ i) :
    (s.set i v).vnodes j = s.vnodes j := update_of_ne other ..

theorem set_set (v w : Option Vnode) : (s.set i v).set i w = s.set i w := by
  simp only [set,update_idem]

theorem invalidate_only : ∃ x, s.invalidate i = {s with vnodes := x} := by
  unfold invalidate
  split
  · exact ⟨_,rfl⟩
  · exact ⟨_,rfl⟩

end

theorem orphan_only (s : State) (k : Nat) : ∃ x, s.orphan k = {s with vnodes := x} := by
  unfold orphan
  split
  · next i _ =>
    obtain ⟨x,same⟩ := (s.ref i).invalidate_only i
    rw [same]
    exact ⟨_,rfl⟩
  · exact ⟨_,rfl⟩

theorem follow_only (s : State) (k new : Nat) : ∃ x, s.follow k new = {s with vnodes := x} := by
  unfold follow rekey
  split
  · next i _ =>
    split
    · exact ⟨_,rfl⟩
    dsimp only
    split
    · next other _ =>
      obtain ⟨x,same⟩ := (s.ref i).invalidate_only other
      rw [same]
      exact ⟨_,rfl⟩
    · exact ⟨_,rfl⟩
  · exact ⟨_,rfl⟩

section
variable {v : Vnode} (found : s.hit k = some i) (here : s.vnodes i = some v) (held : 0 < v.refcnt)
include found here held

theorem orphan_eq :
    s.orphan k = s.set i (if v.refcnt = 1 then none else some {v with cached := false, refcnt := v.refcnt - 1}) := by
  obtain ⟨w,there,cached,-⟩ := hit_some found
  obtain rfl := some.inj (here.symm.trans there)
  have more : ¬ v.refcnt + 1 ≤ 1 := by omega
  simp only [orphan,found,ref_eq here,invalidate,alter,set_self,any_some,cached,if_true,map_some,set_set,
    unref,bind_some,if_neg more]
  by_cases one : v.refcnt = 1
  · simp [one]
  · have : ¬ v.refcnt ≤ 1 := by omega
    simp [one,this]

theorem follow_eq (apart : v.key ≠ new) (unused : ∀ j w, s.vnodes j = some w → w.cached → w.key ≠ new) :
    s.follow k new = s.set i (some {v with key := new}) := by
  have missed : ((s.ref i).alter i fun v => {v with cached := false}).hit new = none := by
    cases other : ((s.ref i).alter i fun v => {v with cached := false}).hit new with
    | none => rfl
    | some j =>
      obtain ⟨w,there,cached,key⟩ := hit_some other
      rw [ref_eq here,alter,set_self,set_set] at there
      by_cases same : j = i
      · subst same
        rw [set_self] at there
        exact absurd cached (by simp [← some.inj there])
      · rw [set_other s i _ same] at there
        exact absurd key (unused j w there cached)
  have more : ¬ v.refcnt + 1 ≤ 1 := by omega
  rw [ref_eq here] at missed
  simp only [follow,found,ref_eq here,rekey,set_self,any_some,decide_eq_true_eq,apart,if_false,missed,ite_self]
  simp only [alter,set_self,map_some,set_set,unref,bind_some,if_neg more,Nat.add_sub_cancel]

end

end State

namespace Inv

theorem start (untouched : Untouched s) : Inv s where
  apart := untouched.1
  old := untouched.2.1
  fits i v here := by simp [untouched.2.2.1] at here
  gone i _ := untouched.2.2.2 i
  unique i j v w here := by simp [untouched.2.2.1] at here

section
variable (inv : Inv s)
include inv

theorem change (i : Nat) (vnodes : ∀ j, j ≠ i → t.vnodes j = s.vnodes j)
    (apart : ∀ k l f, t.live k = some f → t.live l = some f → k = l) (old : ∀ k f, t.live k = some f → f < t.files)
    (holds : ∀ j, j ≠ i → t.holds j = s.holds j) (others : ∀ j v, j ≠ i → s.vnodes j = some v → t.Fits j v)
    (itself : ∀ v, t.vnodes i = some v → t.Fits i v ∧
      (v.cached → ∀ j w, j ≠ i → s.vnodes j = some w → w.cached → w.key ≠ v.key))
    (gone : t.vnodes i = none → t.holds i = 0) : Inv t := by
  refine ⟨apart,old,fun j v here => ?_,fun j missing => ?_,fun j l v w first second cached also same => ?_⟩
  · by_cases this : j = i
    · subst this
      exact (itself v here).1
    · exact others j v this ((vnodes j this).symm.trans here)
  · by_cases this : j = i
    · subst this
      exact gone missing
    · exact (holds j this).trans (inv.gone j ((vnodes j this).symm.trans missing))
  by_cases this : j = i
  · subst this
    by_contra other
    have apart : l ≠ j := fun same => other same.symm
    exact (itself v first).2 cached l w apart ((vnodes l apart).symm.trans second) also same.symm
  by_cases that : l = i
  · subst that
    exact absurd same ((itself w second).2 also j v this ((vnodes j this).symm.trans first) cached)
  · exact inv.unique j l v w ((vnodes j this).symm.trans first) ((vnodes l that).symm.trans second) cached also same

theorem recount (here : s.vnodes i = some v)
    (count : 0 < n → n = h + if v.cached then 1 else 0) (free : n = 0 → h = 0) :
    Inv {s.set i (if n = 0 then none else some {v with refcnt := n}) with holds := update s.holds i h} := by
  have fits := inv.fits i v here
  refine inv.change i (fun j other => s.set_other i _ other) inv.apart inv.old
    (fun j other => update_of_ne other ..) (fun j w other there => ?_) (fun w there => ?_) (fun none => ?_)
  · have kept := inv.fits j w there
    exact ⟨kept.known,by simpa [update_of_ne other] using kept.count,kept.cached,kept.living⟩
  · have found := (s.set_self i _).symm.trans there
    split at found
    · cases found
    rename_i some
    obtain rfl := Option.some.inj found
    have positive := Nat.pos_of_ne_zero some
    refine ⟨⟨fits.known,⟨by simpa using count positive,positive⟩,fits.cached,fits.living⟩,?_⟩
    exact fun cached j w other there also same => other (inv.unique j i w v there here also cached same)
  · have found := (s.set_self i _).symm.trans none
    split at found
    · next zero => simpa using free zero
    · cases found

theorem hands (alive : s.live k = some f) : Inv (State.given (s.getCached k f)).2 ∧
    (s.getCached k f).2.owner (s.getCached k f).1 = f := by
  unfold State.getCached
  cases found : s.hit k with
  | some i =>
    obtain ⟨v,here,cached,key⟩ := State.hit_some found
    have fits := inv.fits i v here
    have owner := fits.cached.mp cached
    rw [key,alive] at owner
    have more := inv.recount here (n := v.refcnt + 1) (h := s.holds i + 1)
      (fun _ => by have := fits.count.1; omega) nofun
    simp only [State.ref_eq here]
    exact ⟨more,(some.inj owner).symm⟩
  | none =>
    have new : s.vnodes s.fresh = none := by
      cases here : s.vnodes s.fresh with
      | none => rfl
      | some v => exact absurd (inv.fits _ v here).known.1 (lt_irrefl _)
    refine ⟨inv.change s.fresh (fun j other => s.set_other _ _ other) inv.apart inv.old
      (fun j other => update_of_ne other ..) (fun j w other there => ?_) (fun w there => ?_) (fun none => ?_),?_⟩
    · have kept := inv.fits j w there
      have same : update s.owner s.fresh f j = s.owner j := update_of_ne other ..
      refine ⟨⟨lt_succ_of_lt kept.known.1,?_⟩,?_,?_,?_⟩
      · simpa [State.given,State.set,same] using kept.known.2
      · simpa [State.given,State.set,update_of_ne other] using kept.count
      · simpa [State.given,State.set,same] using kept.cached
      · simpa [State.given,State.set,same] using kept.living
    · obtain rfl := some.inj ((s.set_self s.fresh _).symm.trans there)
      refine ⟨⟨⟨lt_succ_self _,?_⟩,?_,?_,fun l same => inv.apart k l f alive ?_⟩,?_⟩
      · simpa [State.given,State.set] using inv.old k f alive
      · simp [State.given,State.set,inv.gone _ new]
      · simpa [State.given,State.set] using alive
      · simpa [State.given,State.set] using same
      · exact fun _ j w other there also same => State.hit_none inv found there also same
    · rw [State.given] at none
      exact absurd ((s.set_self s.fresh _).symm.trans none) (by simp)
    · exact update_self ..

theorem births (free : s.live k = none) : Inv {s.place k (some s.files) with files := s.files + 1} := by
  have living (l f : Nat) (alive : update s.live k (some s.files) l = some f) :
      l = k ∧ f = s.files ∨ s.live l = some f ∧ f < s.files := by
    by_cases same : l = k
    · subst same
      rw [update_self] at alive
      exact .inl ⟨rfl,(some.inj alive).symm⟩
    · rw [update_of_ne same] at alive
      exact .inr ⟨alive,inv.old l f alive⟩
  refine ⟨fun l m f first second => ?_,fun l f alive => ?_,fun i v here => ?_,inv.gone,inv.unique⟩
  · obtain ⟨rfl,rfl⟩ | ⟨before,less⟩ := living l f first
    · obtain ⟨rfl,-⟩ | ⟨-,less⟩ := living m s.files second
      · rfl
      · exact absurd less (lt_irrefl _)
    · obtain ⟨-,rfl⟩ | ⟨also,-⟩ := living m f second
      · exact absurd less (lt_irrefl _)
      · exact inv.apart l m f before also
  · obtain ⟨-,rfl⟩ | ⟨-,less⟩ := living l f alive
    · exact lt_succ_self _
    · exact lt_succ_of_lt less
  · have fits := inv.fits i v here
    refine ⟨⟨fits.known.1,lt_succ_of_lt fits.known.2⟩,fits.count,?_,fun l alive => ?_⟩
    · rw [fits.cached]
      dsimp only [State.place]
      by_cases same : v.key = k
      · have less := fits.known.2
        simp [same,free]
        omega
      · rw [update_of_ne same]
    · obtain ⟨-,new⟩ | ⟨before,-⟩ := living l (s.owner i) alive
      · exact absurd fits.known.2 (by omega)
      · exact fits.living l before

theorem found (k : Nat) : ∃ i, (s.hit k = some i ∨ s.hit k = none ∧ s.vnodes i = none) ∧
    ∀ j w, j ≠ i → s.vnodes j = some w → w.cached → w.key ≠ k := by
  cases hit : s.hit k with
  | some i =>
    obtain ⟨v,here,cached,key⟩ := State.hit_some hit
    exact ⟨i,.inl rfl,fun j w other there also same => other (inv.unique j i w v there here also cached (same.trans key.symm))⟩
  | none =>
    refine ⟨s.fresh,.inr ⟨rfl,?_⟩,fun j w _ there also => State.hit_none inv hit there also⟩
    cases here : s.vnodes s.fresh with
    | none => rfl
    | some v => exact absurd (inv.fits _ v here).known.1 (lt_irrefl _)

theorem leaves (only : ∀ j w, j ≠ i → s.vnodes j = some w → w.cached → w.key ≠ k)
    {spot : Option Nat} {now : Nat → Option Nat}
    (later : ∀ l g, now l = some g ↔ l ≠ k ∧ s.live l = some g ∨ spot = some l ∧ s.live k = some g) :
    (∀ l m g, now l = some g → now m = some g → l = m) ∧ (∀ l g, now l = some g → g < s.files) ∧
      ∀ j w, j ≠ i → s.vnodes j = some w → State.Fits {s with live := now} j w := by
  refine ⟨fun l m g first second => ?_,fun l g alive => ?_,fun j w other there => ?_⟩
  · obtain ⟨away,before⟩ | ⟨spot,before⟩ := (later l g).mp first
    · obtain ⟨-,also⟩ | ⟨-,also⟩ := (later m g).mp second
      · exact inv.apart l m g before also
      · exact absurd (inv.apart l k g before also) away
    · obtain ⟨away,also⟩ | ⟨same,-⟩ := (later m g).mp second
      · exact absurd (inv.apart m k g also before) away
      · exact some.inj (spot.symm.trans same)
  · obtain ⟨-,before⟩ | ⟨-,before⟩ := (later l g).mp alive
    · exact inv.old l g before
    · exact inv.old k g before
  · have kept := inv.fits j w there
    have foreign : s.live k ≠ some (s.owner j) := fun alive => by
      have key := kept.living k alive
      exact only j w other there (kept.cached.mpr (key ▸ alive)) key
    refine ⟨kept.known,kept.count,⟨fun cached => ?_,fun alive => ?_⟩,fun l alive => ?_⟩
    · exact (later _ _).mpr (.inl ⟨only j w other there cached,kept.cached.mp cached⟩)
    · obtain ⟨-,before⟩ | ⟨-,before⟩ := (later _ _).mp alive
      · exact kept.cached.mpr before
      · exact absurd before foreign
    · obtain ⟨-,before⟩ | ⟨-,before⟩ := (later _ _).mp alive
      · exact kept.living l before
      · exact absurd before foreign

theorem removes (k : Nat) : Inv ((s.orphan k).place k none) := by
  obtain ⟨i,hit,only⟩ := inv.found k
  have later (l g : Nat) : update s.live k none l = some g ↔
      l ≠ k ∧ s.live l = some g ∨ none = some l ∧ s.live k = some g := by
    by_cases same : l = k <;> simp [same]
  obtain ⟨apart,old,others⟩ := inv.leaves only later
  obtain hit | ⟨hit,new⟩ := hit
  · obtain ⟨v,here,cached,key⟩ := State.hit_some hit
    have fits := inv.fits i v here
    have count := fits.count
    rw [cached,if_pos rfl] at count
    rw [State.orphan_eq hit here fits.count.2]
    refine inv.change i (fun j other => s.set_other i _ other) apart old
      (fun _ _ => rfl) (fun j w other there => ?_) (fun w there => ?_) (fun none => ?_)
    · have kept := others j w other there
      exact ⟨kept.known,kept.count,kept.cached,kept.living⟩
    · have now := (s.set_self i _).symm.trans there
      split at now
      · cases now
      obtain rfl := some.inj now
      refine ⟨⟨fits.known,?_,by simp [State.place,key],fun l alive => ?_⟩,nofun⟩
      · simp only [State.place,State.set,Bool.false_eq_true,if_false]
        omega
      · obtain ⟨other,before⟩ | ⟨⟨⟩,-⟩ := (later l _).mp alive
        exact absurd (inv.apart l k _ before (key ▸ fits.cached.mp cached)) other
    · have now := (s.set_self i _).symm.trans none
      split at now
      · change s.holds i = 0
        omega
      · cases now
  · have same : s.orphan k = s := by rw [State.orphan,hit]
    rw [same]
    exact inv.change i (fun _ _ => rfl) apart old (fun _ _ => rfl) others
      (fun w there => absurd (new.symm.trans there) (by simp)) (fun _ => inv.gone i new)

theorem moves (alive : s.live k = some f) (free : s.live new = none) :
    Inv (((s.place new (some f)).place k none).follow k new) := by
  obtain ⟨i,hit,only⟩ := inv.found k
  have away : new ≠ k := fun same => by simp [same,alive] at free
  have later (l g : Nat) : update (update s.live new (some f)) k none l = some g ↔
      l ≠ k ∧ s.live l = some g ∨ some new = some l ∧ s.live k = some g := by
    by_cases gone : l = k
    · simp [gone,away]
    · by_cases here : l = new
      · simp [here,away,alive,free]
      · simp [gone,here,Ne.symm here]
  obtain ⟨apart,old,others⟩ := inv.leaves only later
  obtain hit | ⟨hit,missing⟩ := hit
  · obtain ⟨v,here,cached,key⟩ := State.hit_some hit
    have fits := inv.fits i v here
    have owner : s.owner i = f := some.inj ((fits.cached.mp cached).symm.trans (key ▸ alive))
    have unused (j : Nat) (w : Vnode) (there : s.vnodes j = some w) (also : w.cached) : w.key ≠ new := fun same =>
      by simpa [same,free] using (inv.fits j w there).cached.mp also
    rw [State.follow_eq (s := (s.place new (some f)).place k none) hit here fits.count.2 (key ▸ Ne.symm away) unused]
    refine inv.change i (fun j other => s.set_other i _ other) apart old (fun _ _ => rfl) (fun j w other there => ?_)
      (fun w there => ?_) (fun none => ?_)
    · have kept := others j w other there
      exact ⟨kept.known,kept.count,kept.cached,kept.living⟩
    · obtain rfl := some.inj ((s.set_self i _).symm.trans there)
      refine ⟨⟨fits.known,fits.count,?_,fun l now => ?_⟩,fun _ j w _ there also => unused j w there also⟩
      · simp [State.place,State.set,away,cached,owner]
      · exact apart new l (s.owner i) ((later _ _).mpr (.inr ⟨rfl,owner ▸ alive⟩)) now
    · exact absurd ((s.set_self i _).symm.trans none) (by simp)
  · have same : ((s.place new (some f)).place k none).follow k new = (s.place new (some f)).place k none := by
      rw [State.follow,show ((s.place new (some f)).place k none).hit k = none from hit]
    rw [same]
    exact inv.change i (fun _ _ => rfl) apart old (fun _ _ => rfl) others
      (fun w there => absurd (missing.symm.trans there) (by simp)) (fun _ => inv.gone i missing)

theorem evicts (here : s.vnodes i = some v) (cached : v.cached) (last : v.refcnt = 1) :
    Inv (s.set i none) := by
  have count := (inv.fits i v here).count.1
  have unheld : s.holds i = 0 := by
    rw [cached,if_pos rfl] at count
    omega
  have freed := inv.recount here (n := 0) (h := 0) nofun (fun _ => rfl)
  rw [if_pos rfl,← unheld,update_eq_self] at freed
  exact freed

theorem held (held : 0 < s.holds i) : ∃ v, s.vnodes i = some v ∧ s.Fits i v := by
  cases here : s.vnodes i with
  | none => exact absurd (inv.gone i here) (by omega)
  | some v => exact ⟨v,rfl,inv.fits i v here⟩

end

theorem given_keeps (known : i < s.fresh) (held : 0 < s.holds i) :
    (State.given (s.getCached k f)).2.owner i = s.owner i ∧ 0 < (State.given (s.getCached k f)).2.holds i := by
  have more (m : State) (j : Nat) (same : m.holds = s.holds) : 0 < update m.holds j (m.holds j + 1) i := by
    by_cases here : i = j
    · simp [here]
    · rwa [update_of_ne here,same]
  unfold State.getCached
  split
  · exact ⟨rfl,more _ _ rfl⟩
  · exact ⟨update_of_ne (Nat.ne_of_lt known) ..,more _ _ rfl⟩

/-- A step keeps the invariant. What a call has handed out stays with its file, and held while its holder
does not let go. -/
theorem act (inv : Inv s) {a : Act} (straight : Straight s a) (moved : s.act a = some t) :
    Inv t ∧ ∀ i, 0 < s.holds i → (a = .unref i → 1 < s.holds i) → t.owner i = s.owner i ∧ 0 < t.holds i := by
  cases a with
  | lookup k =>
    obtain ⟨_,looked,rfl⟩ := map_eq_some_iff.mp moved
    obtain ⟨f,alive,rfl⟩ := map_eq_some_iff.mp looked
    refine ⟨(inv.hands alive).1,fun i held _ => ?_⟩
    obtain ⟨v,-,fits⟩ := inv.held held
    exact given_keeps fits.known.1 held
  | create k =>
    obtain ⟨free,⟨⟩⟩ := ite_none_right_eq_some.mp moved
    refine ⟨((inv.births free).hands (k := k) (update_self ..)).1,fun i held _ => ?_⟩
    obtain ⟨v,-,fits⟩ := inv.held held
    exact given_keeps (s := {s.place k (some s.files) with files := s.files + 1}) fits.known.1 held
  | mkdir k =>
    obtain ⟨free,⟨⟩⟩ := ite_none_right_eq_some.mp moved
    exact ⟨inv.births free,fun i held _ => ⟨rfl,held⟩⟩
  | remove k stays =>
    obtain rfl : stays = false := straight
    obtain ⟨-,⟨⟩⟩ := ite_none_right_eq_some.mp moved
    obtain ⟨x,same⟩ := s.orphan_only k
    refine ⟨inv.removes k,fun i held _ => ?_⟩
    rw [same]
    exact ⟨rfl,held⟩
  | rename k new stays =>
    obtain rfl : stays = false := straight
    obtain ⟨f,alive,rest⟩ := bind_eq_some_iff.mp moved
    obtain ⟨possible,⟨⟩⟩ := ite_none_right_eq_some.mp rest
    rw [State.moved]
    split
    · exact ⟨inv,fun i held _ => ⟨rfl,held⟩⟩
    rename_i file
    obtain ⟨x,same⟩ := State.follow_only ((s.place new (some f)).place k none) k new
    refine ⟨inv.moves alive (possible.resolve_left file),fun i held _ => ?_⟩
    simp only [Bool.false_eq_true,if_false,same]
    exact ⟨rfl,held⟩
  | evict i =>
    obtain ⟨evictable,⟨⟩⟩ := ite_none_right_eq_some.mp moved
    cases here : s.vnodes i with
    | none => simp [here] at evictable
    | some v =>
      simp only [here,any_some,Bool.and_eq_true,decide_eq_true_eq] at evictable
      exact ⟨inv.evicts here evictable.1 evictable.2,fun i held _ => ⟨rfl,held⟩⟩
  | ref i =>
    obtain ⟨some,⟨⟩⟩ := ite_none_right_eq_some.mp moved
    obtain ⟨v,here,fits⟩ := inv.held some
    have count := fits.count.1
    have more := inv.recount here (n := v.refcnt + 1) (h := s.holds i + 1) (fun _ => by omega) nofun
    rw [State.ref_eq here]
    refine ⟨more,fun j held _ => ⟨rfl,?_⟩⟩
    by_cases same : j = i
    · simp [same]
    · simpa [update_of_ne same] using held
  | unref i =>
    obtain ⟨some,⟨⟩⟩ := ite_none_right_eq_some.mp moved
    obtain ⟨v,here,fits⟩ := inv.held some
    have count := fits.count
    have less := inv.recount here (n := v.refcnt - 1) (h := s.holds i - 1) (fun _ => by omega) (fun _ => by omega)
    rw [State.unref_eq here]
    have same : (v.refcnt ≤ 1) = (v.refcnt - 1 = 0) := by
      apply propext
      omega
    simp only [same]
    refine ⟨less,fun j held kept => ⟨rfl,?_⟩⟩
    by_cases same : j = i
    · subst same
      have more := kept rfl
      simp
      omega
    · simpa [update_of_ne same] using held

end Inv

theorem Inv.again (inv : Inv s) (held : 0 < s.holds i) (alive : s.live k = some (s.owner i))
    (looked : s.lookup k = some (j,t)) : j = i := by
  obtain ⟨v,here,fits⟩ := inv.held held
  have key := fits.living k alive
  have found := State.hit_of inv here (fits.cached.mpr (key ▸ alive))
  obtain ⟨f,-,given⟩ := map_eq_some_iff.mp looked
  rw [← key,State.getCached,found] at given
  exact (congrArg Prod.fst given).symm

end

def oneFile : State where
  live k := if k = fileKey 2 0 then some 0 else none
  files := 1
  vnodes _ := none
  owner _ := 0
  fresh := 0
  holds _ := 0

theorem oneFile_untouched : Untouched oneFile := by
  have only (k f : Nat) (alive : oneFile.live k = some f) : k = fileKey 2 0 ∧ f = 0 := by
    simp only [oneFile] at alive
    split at alive
    · next here => exact ⟨here,(some.inj alive).symm⟩
    · cases alive
  refine ⟨fun k l f first second => ?_,fun k f alive => ?_,fun _ => rfl,fun _ => rfl⟩
  · rw [(only k f first).1,(only l f second).1]
  · rw [(only k f alive).2]
    decide

/-- The file is opened and renamed, and a new one made in its old slot; that one is removed while it is open, and a
third made in the slot. -/
def reuse : List Act := [.lookup (fileKey 2 0),.rename (fileKey 2 0) (fileKey 2 1) false,.create (fileKey 2 0),
  .remove (fileKey 2 0) false,.create (fileKey 2 0)]

def reused : State := (execute State.act oneFile reuse).getD oneFile

theorem reused_reached : Reached Untouched Straight reused := by
  have straight : ∀ a ∈ reuse, ∀ s, Straight s a := by simp [reuse,Straight]
  exact .admitted reuse straight oneFile reused (.start oneFile oneFile_untouched) rfl

end SurfaceOS.Fat.Identity
