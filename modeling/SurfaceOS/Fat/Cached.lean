import SurfaceOS.Fat.DirDisk

/-! The vnodes of a mounted volume in memory (fs/vfs.cpp): finding one in the cache, and letting one go. -/
namespace SurfaceOS.Fat.Mounted
open Lib Lib.Memory Function List Option Nat Fatdir

variable {io : Io} {s t : Mounted} {i j key n : Nat} {v : Vnode}

theorem alter_other (s : Mounted) (change : Vnode → Vnode) (apart : j ≠ i) :
    (s.alter i change).vnodes j = s.vnodes j := update_of_ne apart ..

theorem hit_some (found : s.hit key = some i) : some i ∈ s.pool ∧ ∃ v, s.vnodes i = some v ∧ v.fsKey = key := by
  have member := mem_of_find?_eq_some found
  have named := find?_some found
  obtain ⟨place,inside,same⟩ := mem_filterMap.mp member
  obtain rfl : place = some i := same
  cases here : s.vnodes i with
  | none =>
    rw [here] at named
    cases named
  | some v =>
    rw [here] at named
    exact ⟨inside,v,rfl,of_decide_eq_true named⟩

theorem hit_none (missing : s.hit key = none) (pooled : some i ∈ s.pool) (here : s.vnodes i = some v) :
    v.fsKey ≠ key := by
  have member : i ∈ s.pool.filterMap id := mem_filterMap.mpr ⟨some i,pooled,rfl⟩
  intro same
  have refused := find?_eq_none.mp missing i member
  rw [here] at refused
  exact refused (decide_eq_true same)

theorem mem_unpool : some j ∈ (s.unpool i).pool ↔ some j ∈ s.pool ∧ j ≠ i := by
  unfold unpool
  rw [List.mem_map]
  constructor
  · rintro ⟨place,inside,same⟩
    split at same
    · cases same
    · next other =>
      subst same
      exact ⟨inside,fun same => other (by rw [same])⟩
  · rintro ⟨inside,other⟩
    exact ⟨some j,inside,if_neg fun same => other (some.inj same)⟩

section
variable (here : s.vnodes i = some v)
include here

theorem refcnt_eq : s.refcnt i = v.refcnt := by
  unfold refcnt
  rw [here]
  rfl

theorem alter_here (change : Vnode → Vnode) :
    (s.alter i change).vnodes i = some (change v) := by
  have self : (s.alter i change).vnodes i = (s.vnodes i).map change := update_self ..
  rw [self,here]
  rfl

theorem deref_here : (s.deref i).vnodes i = some {v with refcnt := v.refcnt - 1} :=
  alter_here here _

theorem io_keep (io : Io) : (s.keep i io).io i = io := by
  have kept : (s.keep i io).vnodes i = some {v with node := io.node} := alter_here (s := {s with vol := io.vol}) here _
  unfold Mounted.io
  rw [kept]
  rfl

end

theorem unref_last (sb : Super) (here : s.vnodes i = some v) (last : v.refcnt = 1) :
    s.unref sb i = (((s.deref i).unpool i).release sb i).drop i := by
  unfold unref
  rw [refcnt_eq here,if_neg (by omega),if_neg (by omega)]

theorem unref_held (sb : Super) (here : s.vnodes i = some v) (more : 2 ≤ v.refcnt) : s.unref sb i = s.deref i := by
  unfold unref
  rw [refcnt_eq here,if_neg (by omega),if_pos (by omega)]

theorem invalidate_held (sb : Super) (pooled : some i ∈ s.pool) (here : s.vnodes i = some v) (more : 2 ≤ v.refcnt) :
    s.invalidate sb i = (s.unpool i).deref i := by
  unfold invalidate
  rw [if_pos pooled]
  have left : ((s.unpool i).deref i).refcnt i = v.refcnt - 1 := refcnt_eq (deref_here (s := s.unpool i) here)
  rw [if_neg (by omega)]

theorem cluster_same (node : t.vnodes n = s.vnodes n) : t.cluster n = s.cluster n := by
  unfold Mounted.cluster Mounted.io
  rw [node]

theorem keep_key (here : (s.keep n io).vnodes i = some v) :
    ∃ w, s.vnodes i = some w ∧ v.fsKey = w.fsKey ∧ v.refcnt = w.refcnt := by
  by_cases same : i = n
  · subst same
    have self : (s.keep i io).vnodes i = (s.vnodes i).map fun v => {v with node := io.node} := update_self ..
    rw [self] at here
    obtain ⟨w,there,rfl⟩ := map_eq_some_iff.mp here
    exact ⟨w,there,rfl,rfl⟩
  · have other : (s.keep n io).vnodes i = s.vnodes i := alter_other {s with vol := io.vol} _ same
    exact ⟨v,other ▸ here,rfl,rfl⟩

end SurfaceOS.Fat.Mounted
