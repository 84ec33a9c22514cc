import SurfaceOS.Cpu.Shootdown

/-! What the holder of the big kernel lock does to the TLBs: switches and loads, pages mapped, and one
release from its first page to the last report. A step keeps the invariant for the CPU that takes it
and for each of the others. -/
namespace SurfaceOS.Cpu.Tlb
open Lib List Option Nat

variable {thread cur : Option Nat} {k : Call} {a : Action} {s : State} {n c d me : Nat} {g h : Shared} {l m : Core}

structure Keeps (n c : Nat) (g h : Shared) (m : Core) : Prop where
  sound : Sound n h
  own : Held n c h m
  others : ∀ d l, d ≠ c → Held n d g l → Held n d h l

variable {on : Bool} {freed pages : List Nat} {frame next page spaces t : Nat} {threads : Nat → Option Thread}

section
variable {job after : Job} {cr3 : Pml4}

theorem Held.works (held : Held n c g l) (owned : g.lock = some (c,job)) (kernel : job ≠ .handler)
    (now : h.lock = some (c,after)) (mode : m.mode = l.mode) (irq : m.irq = l.irq) (made : Made h.spaces m.loaded)
    (record : h.recorded c = some m.loaded ∨ m.loaded = .kernel ∨ after = .loading)
    (here : ∀ cr3 pages freed, after = .releasing cr3 pages freed → m.loaded = cr3)
    (coherent : ∀ page frame, m.tlb page = some frame → c < n ∧ h.tables m.loaded page = some frame) :
    Held n c h m := by
  have inside := held.inside job owned kernel
  refine ⟨fun _ _ _ => mode.trans inside,?_,made,?_,?_,?_,?_⟩
  · intro holding
    have other := (held.handler (irq ▸ holding)).symm.trans owned
    cases other
    exact absurd rfl kernel
  · rw [now]
    exact record.imp_right fun rest => rest.imp_right fun loading => by rw [loading]
  · intro cr3 pages freed releasing
    rw [now] at releasing
    cases releasing
    exact here cr3 pages freed rfl
  · intro page frame cached
    obtain ⟨running,found⟩ := coherent page frame cached
    exact ⟨running,.inl found⟩
  · intro waiting
    rw [mode,inside] at waiting
    cases waiting

theorem Held.fresh (held : Held n c g l) (owned : g.lock = some (c,job))
    (cached : l.tlb page = some frame) : c < n ∧ g.tables l.loaded page = some frame := by
  obtain ⟨running,found⟩ := held.coherent page frame cached
  refine ⟨running,found.resolve_right ?_⟩
  intro stale
  unfold Stale at stale
  rw [owned] at stale
  split at stale
  · next found =>
    cases found
    exact stale.1 rfl
  · next found =>
    cases found
    exact stale.1 rfl
  · exact stale

theorem switchAddressSpace_fresh (cached : (switchAddressSpace cr3 l).tlb page = some frame) :
    l.loaded = cr3 ∧ l.tlb page = some frame := by
  unfold switchAddressSpace at cached
  split at cached
  · next same => exact ⟨same,cached⟩
  · cases cached

@[simp]
theorem switchAddressSpace_loaded : (switchAddressSpace cr3 l).loaded = cr3 := by
  unfold switchAddressSpace
  split
  · next same => exact same
  · rfl

@[simp]
theorem switchAddressSpace_mode : (switchAddressSpace cr3 l).mode = l.mode := by
  unfold switchAddressSpace
  split <;> rfl

@[simp]
theorem switchAddressSpace_irq : (switchAddressSpace cr3 l).irq = l.irq := by
  unfold switchAddressSpace
  split <;> rfl

theorem Keeps.outside (sound : Sound n g) (owned : g.lock = some (c,job)) (before : Calm g.lock)
    (now : h.lock = some (c,after)) (idle : Calm h.lock) (empty : freedBy h.lock = []) (ipi : h.ipi = g.ipi)
    (recorded : ∀ d, d ≠ c → h.recorded d = g.recorded d) (spaces : g.spaces ≤ h.spaces)
    (threads : ∀ t th, h.threads t = some th → th.Made h.spaces) (mapped : Mapped h.tables h.free)
    (tables : ∀ loaded page frame, Made g.spaces loaded → g.tables loaded page = some frame →
      h.tables loaded page = some frame)
    (own : Held n c h m) : Keeps n c g h m := by
  have quiet := before.counted.mp sound.counted
  refine ⟨⟨idle.counted.mpr (by rw [ipi]; exact quiet),?_,threads,mapped,?_⟩,own,?_⟩
  · intro d busy
    rw [ipi] at busy
    exact absurd (quiet d) busy
  · rw [empty]
    nofun
  intro d l other held
  apply held.frame
  · intro job
    rw [owned,now]
    exact iff_of_false (fun same => other (by cases same; rfl)) (fun same => other (by cases same; rfl))
  · exact recorded d other
  · exact spaces
  · rw [ipi]
    exact id
  · rintro page frame - - (found | stale)
    · exact .inl (tables _ page frame held.made found)
    · exact absurd stale before.not_stale

section
variable (table : ∀ t th, threads t = some th → th.Made spaces)
include table

theorem Made.update {new : Option Thread} (made : ∀ th, new = some th → th.Made spaces) :
    ∀ s th, Function.update threads t new s = some th → th.Made spaces := by
  intro s th found
  rcases eq_or_ne s t with rfl | other
  · exact made th (by simpa using found)
  · exact table s th (by simpa [Function.update_of_ne other] using found)

theorem Made.stop : ∀ t th, stop cur threads t = some th → th.Made spaces := by
  cases cur with
  | none => exact table
  | some t =>
    apply Made.update table
    intro th stopped
    obtain ⟨old,found,rfl⟩ := map_eq_some_iff.mp stopped
    have made := table t old found
    exact ⟨made.own,made.back,made.lent⟩

theorem Made.start {new : Nat → Option Thread} (made : Made spaces cr3) (started : start t cr3 threads = some new) :
    ∀ t th, new t = some th → th.Made spaces := by
  unfold Tlb.start at started
  split at started
  · cases started
  cases started
  apply Made.update table
  rintro th ⟨⟩
  exact ⟨made,trivial,nofun⟩

end

theorem calm_of_idle (owned : g.lock = some (c,job)) (idle : job = .kernel ∨ job = .loading) :
    Calm g.lock ∧ freedBy g.lock = [] ∧ job ≠ .handler := by
  rcases idle with rfl | rfl <;> rw [owned] <;> exact ⟨trivial,rfl,nofun⟩

section
variable (sound : Sound n g) (held : Held n c g l) (owned : g.lock = some (c,job))
  (idle : job = .kernel ∨ job = .loading)
include sound held owned idle

theorem Keeps.switches (later : after = .kernel ∨ after = .loading) (made : Made g.spaces cr3)
    (table : ∀ t th, threads t = some th → th.Made g.spaces) : Keeps n c g
      {g with lock := some (c,after), threads := threads, recorded := Function.update g.recorded c (some cr3)}
      {switchAddressSpace cr3 l with thread := thread, on := on} := by
  obtain ⟨calm,-,kernel⟩ := calm_of_idle owned idle
  have now := calm_of_idle (g := {g with lock := some (c,after)}) rfl later
  refine Keeps.outside sound owned calm rfl now.1 now.2.1 rfl ?_ le_rfl table sound.mapped (fun _ _ _ _ found => found) ?_
  · intro d other
    exact Function.update_of_ne other ..
  refine held.works owned kernel rfl switchAddressSpace_mode switchAddressSpace_irq ?_ ?_ ?_ ?_
  · simpa using made
  · simp
  · rintro cr3 pages freed rfl
    rcases later with same | same <;> cases same
  · intro page frame cached
    obtain ⟨rfl,before⟩ := switchAddressSpace_fresh cached
    simpa using held.fresh owned before

theorem switchThread_keeps (moved : switchThread c g l t on = some (h,m)) : Keeps n c g h m := by
  unfold switchThread at moved
  split at moved
  · cases moved
  rename_i th found
  split at moved
  · cases moved
  cases moved
  have made := sound.threads t th found
  refine Keeps.switches sound held owned idle ?_ ?_ ?_
  · cases th.borrowed
    · exact .inl rfl
    · exact .inr rfl
  · cases lent : th.borrowed with
    | none => exact made.own
    | some cr3 => exact made.lent cr3 lent
  · apply Made.update (Made.stop sound.threads)
    rintro th ⟨⟩
    exact ⟨made.own,made.back,made.lent⟩

theorem switchKernelTask_keeps : Keeps n c g (switchKernelTask c g l on).1 (switchKernelTask c g l on).2 :=
  Keeps.switches sound held owned idle (.inl rfl) trivial (Made.stop sound.threads)

theorem Keeps.table (table : ∀ t th, threads t = some th → th.Made g.spaces) :
    Keeps n c g {g with threads := threads} {l with thread := thread} := by
  obtain ⟨calm,empty,kernel⟩ := calm_of_idle owned idle
  refine Keeps.outside sound owned calm owned calm empty rfl (fun _ _ => rfl) le_rfl table sound.mapped
    (fun _ _ _ _ found => found) ?_
  exact ⟨held.inside,held.handler,held.made,held.record,held.here,held.coherent,held.willing⟩

end

section
variable (sound : Sound n g) (held : Held n c g l)
include sound held

theorem load_keeps (owned : g.lock = some (c,.kernel)) (moved : load c g l = some (h,m)) : Keeps n c g h m := by
  unfold load at moved
  split at moved
  · cases moved
  rename_i t _
  obtain ⟨th,found,same⟩ := map_eq_some_iff.mp moved
  cases same
  obtain ⟨calm,-,kernel⟩ := calm_of_idle owned (.inl rfl)
  have made := (sound.threads t th found).mono (le_succ _)
  have other : ∀ loaded, Made g.spaces loaded → loaded ≠ .user g.spaces := by
    rintro loaded before rfl
    exact lt_irrefl _ before
  refine Keeps.outside sound owned calm rfl trivial rfl rfl (fun _ _ => rfl) (le_succ _) ?_ ?_ ?_ ?_
  · apply Made.update
    · intro s old present
      exact (sound.threads s old present).mono (le_succ _)
    rintro th ⟨⟩
    refine ⟨made.own,held.made.mono (le_succ _),?_⟩
    rintro cr3 ⟨⟩
    exact lt_succ_self _
  · exact sound.mapped.clear
  · intro loaded page frame before present
    simpa [Function.update_of_ne (other loaded before)] using present
  · refine held.works owned kernel rfl switchAddressSpace_mode switchAddressSpace_irq ?_ ?_ ?_ ?_
    · rw [switchAddressSpace_loaded]
      exact lt_succ_self _
    · exact .inr (.inr rfl)
    · nofun
    · intro page frame cached
      obtain ⟨same,-⟩ := switchAddressSpace_fresh cached
      exact absurd same (other _ held.made)

theorem finish_keeps {fresh : Option Nat} (owned : g.lock = some (c,.loading))
    (record : ∀ t th, l.thread = some t → g.threads t = some th → g.recorded c = some th.prev)
    (moved : finish c g l fresh = some (h,m)) : Keeps n c g h m := by
  unfold finish at moved
  split at moved
  · cases moved
  next t current =>
  split at moved
  · cases moved
  next th found =>
  split at moved
  · cases moved
  next cr3 lent =>
  have made := sound.threads t th found
  have table : ∀ s th', Function.update g.threads t (some {th with borrowed := none}) s = some th' →
      th'.Made g.spaces := by
    apply Made.update sound.threads
    rintro th ⟨⟩
    exact ⟨made.own,made.back,nofun⟩
  obtain ⟨threads,started,same⟩ := map_eq_some_iff.mp moved
  cases same
  obtain ⟨calm,-,kernel⟩ := calm_of_idle owned (.inr rfl)
  refine Keeps.outside sound owned calm rfl trivial rfl rfl (fun _ _ => rfl) le_rfl ?_ sound.mapped
    (fun _ _ _ _ present => present) ?_
  · cases fresh with
    | none =>
      cases started
      exact table
    | some s => exact Made.start table (made.lent cr3 lent) started
  refine held.works owned kernel rfl switchAddressSpace_mode switchAddressSpace_irq ?_ ?_ nofun ?_
  · rw [switchAddressSpace_loaded]
    exact made.back
  · rw [switchAddressSpace_loaded]
    exact .inl (record t th current found)
  intro page frame cached
  obtain ⟨same,before⟩ := switchAddressSpace_fresh cached
  rw [switchAddressSpace_loaded,← same]
  exact held.fresh owned before

theorem mapUserPage_keeps (owned : g.lock = some (c,job))
    (idle : job = .kernel ∨ job = .loading) (moved : mapUserPage g l page frame = some (h,m)) : Keeps n c g h m := by
  unfold mapUserPage at moved
  obtain ⟨possible,⟨⟩⟩ := ite_none_right_eq_some.mp moved
  obtain ⟨user,empty,free⟩ := possible
  obtain ⟨calm,nothing,kernel⟩ := calm_of_idle owned idle
  have kept : ∀ loaded p f, g.tables loaded p = some f →
      Function.update g.tables l.loaded (Function.update (g.tables l.loaded) page (some frame)) loaded p = some f := by
    intro loaded p f found
    rw [table_update,if_neg]
    · exact found
    · rintro ⟨rfl,rfl⟩
      rw [empty] at found
      cases found
  refine Keeps.outside sound owned calm owned calm nothing rfl (fun _ _ => rfl) le_rfl sound.threads
    (sound.mapped.put user free) (fun loaded p f _ found => kept loaded p f found) ?_
  have forgot := held.forgets page
  refine held.works owned kernel owned rfl rfl held.made ?_ ?_ ?_
  · exact held.record.imp_right fun rest => rest.imp_right fun loading => by
      rw [owned] at loading
      cases loading
      rfl
  · rintro cr3 pages freed rfl
    exact held.here cr3 pages freed owned
  · intro p f cached
    obtain ⟨running,found⟩ := forgot.fresh owned cached
    exact ⟨running,kept _ _ _ found⟩

theorem take_keeps (owned : g.lock = some (c,job))
    (idle : job = .kernel ∨ job = .loading) : Keeps n c g {g with free := Function.update g.free frame false} l := by
  obtain ⟨calm,empty,-⟩ := calm_of_idle owned idle
  refine Keeps.outside sound owned calm owned calm empty rfl (fun _ _ => rfl) le_rfl sound.threads sound.mapped.take
    (fun _ _ _ _ found => found) ?_
  exact ⟨held.inside,held.handler,held.made,held.record,held.here,held.coherent,held.willing⟩

end

/-! One release, from the first page to the last report. -/

theorem Held.recorded (held : Held n d g l) (owned : g.lock = some (c,job)) (other : d ≠ c) (user : l.loaded ≠ .kernel) :
    g.recorded d = some l.loaded := by
  rcases held.record with same | kernel | loading
  · exact same
  · exact absurd kernel user
  · rw [owned] at loading
    cases loading
    exact absurd rfl other

theorem Keeps.within (owned : g.lock = some (c,job)) (now : h.lock = some (c,after)) (recorded : h.recorded = g.recorded)
    (spaces : h.spaces = g.spaces) (ipi : ∀ d, g.ipi d = .reloaded → h.ipi d = .reloaded) (sound : Sound n h)
    (own : Held n c h m) (coherent : ∀ d l page frame, d ≠ c → Held n d g l → d < n →
      g.tables l.loaded page = some frame ∨ Stale g d l.loaded frame →
      h.tables l.loaded page = some frame ∨ Stale h d l.loaded frame) : Keeps n c g h m := by
  refine ⟨sound,own,?_⟩
  intro d l other held
  apply held.frame
  · intro job
    rw [owned,now]
    exact iff_of_false (fun same => other (by cases same; rfl)) (fun same => other (by cases same; rfl))
  · rw [recorded]
  · exact spaces.ge
  · exact ipi d
  · intro page frame _ running found
    exact coherent d l page frame other held running found

section
variable (sound : Sound n g)
include sound

theorem release_keeps (held : Held n c g l) (owned : g.lock = some (c,.kernel)) :
    Keeps n c g {g with lock := some (c,.releasing l.loaded pages [])} l := by
  obtain ⟨calm,-,kernel⟩ := calm_of_idle owned (.inl rfl)
  have quiet := calm.counted.mp sound.counted
  refine Keeps.within owned rfl rfl rfl (fun _ => id) ⟨quiet,sound.told,sound.threads,sound.mapped,nofun⟩ ?_ ?_
  · refine held.works owned kernel rfl rfl rfl held.made ?_ ?_ fun page frame => held.fresh owned
    · exact held.record.imp_right fun rest => rest.imp_right fun loading => by
        rw [owned] at loading
        cases loading
    · rintro cr3 pages freed ⟨⟩
      rfl
  · rintro d l page frame - - - (found | stale)
    · exact .inl found
    · exact absurd stale calm.not_stale

theorem Sound.freed_of (owned : g.lock = some (c,job))
    (same : freedBy (some (c,job)) = freed) : ∀ frame ∈ freed, g.free frame := by
  rw [← same,← owned]
  exact sound.freed

theorem Sound.quiet (owned : g.lock = some (c,.releasing cr3 pages freed)) : ∀ d, g.ipi d = .none := by
  have counted := sound.counted
  simpa only [Counted,owned] using counted

theorem Sound.flushing
    (owned : g.lock = some (c,.flushing cr3 next freed)) : next ≤ n ∧ (∀ d, next ≤ d → g.ipi d = .none) ∧
      g.pending = Threads.total n id (owed g.ipi g.recorded c cr3 next) := by
  have counted := sound.counted
  simpa only [Counted,owned] using counted

end

theorem Held.releasing (held : Held n c g l) (owned : g.lock = some (c,job)) (other : job ≠ .loading) :
    g.recorded c = some l.loaded ∨ l.loaded = .kernel ∨ after = .loading :=
  held.record.imp_right fun rest => rest.imp_right fun loading => by
    rw [owned] at loading
    cases loading
    exact absurd rfl other

theorem unmapPage_keeps (sound : Sound n g) (held : Held n c g l)
    (owned : g.lock = some (c,.releasing cr3 (page :: pages) freed)) :
    Keeps n c g (unmapPage c g l cr3 page pages freed).1 (unmapPage c g l cr3 page pages freed).2 := by
  have here := held.here _ _ _ owned
  have quiet := sound.quiet owned
  have freedBefore := sound.freed_of owned rfl
  unfold unmapPage
  split
  · refine Keeps.within owned rfl rfl rfl (fun _ => id)
      ⟨quiet,sound.told,sound.threads,sound.mapped,freedBefore⟩ ?_ ?_
    · refine held.works owned nofun rfl rfl rfl held.made (held.releasing owned nofun) ?_ fun page frame => held.fresh owned
      rintro cr3 pages freed ⟨⟩
      exact here
    rintro d l page frame - - - (found | stale)
    · exact .inl found
    · refine .inr ?_
      simpa only [Stale,owned] using stale
  · next frame found =>
    refine Keeps.within owned rfl rfl rfl (fun _ => id)
      ⟨quiet,sound.told,sound.threads,sound.mapped.drop found,?_⟩ ?_ ?_
    · intro f member
      rcases mem_cons.mp member with rfl | inside
      · simp
      · rcases eq_or_ne f frame with rfl | other
        · simp
        · simpa [Function.update_of_ne other] using freedBefore f inside
    · refine held.works owned nofun rfl rfl rfl held.made (held.releasing owned nofun) ?_ ?_
      · rintro cr3 pages freed ⟨⟩
        exact here
      intro p f cached
      -- the page itself has just been dropped here
      have apart : p ≠ page := by
        rintro rfl
        simp at cached
      obtain ⟨running,present⟩ := (held.forgets page).fresh owned cached
      refine ⟨running,?_⟩
      change Function.update g.tables l.loaded _ l.loaded p = some f
      rw [table_update,if_neg fun same => apart same.2]
      exact present
    · rintro d k p f other beside - (present | stale)
      · by_cases dropped : k.loaded = l.loaded ∧ p = page
        · obtain ⟨same,rfl⟩ := dropped
          rw [same,found] at present
          cases present
          refine .inr ⟨other,same.trans here,?_,mem_cons_self ..⟩
          intro kernel
          rw [← same,kernel,sound.mapped.kernel] at found
          cases found
        · refine .inl ?_
          change Function.update g.tables l.loaded _ k.loaded p = some f
          rw [table_update,if_neg dropped]
          exact present
      · refine .inr ?_
        simp only [Stale,owned] at stale ⊢
        exact ⟨stale.1,stale.2.1,stale.2.2.1,mem_cons_of_mem frame stale.2.2.2⟩

theorem target_iff {recorded : Nat → Option Pml4} :
    target recorded me cr3 d ↔ d ≠ me ∧ recorded d = some cr3 := by
  simp [target]

theorem flushTlb_keeps (sound : Sound n g) (held : Held n c g l)
    (owned : g.lock = some (c,.releasing cr3 [] freed)) : Keeps n c g (flushTlb n c g l.loaded freed) l := by
  have here := held.here _ _ _ owned
  have quiet := sound.quiet owned
  have freedBefore := sound.freed_of owned rfl
  unfold flushTlb
  dsimp only
  split
  · next none =>
    refine Keeps.within owned rfl rfl rfl (fun _ => id)
      ⟨quiet,sound.told,sound.threads,sound.mapped,freedBefore⟩ ?_ ?_
    · exact held.works owned (by simp) rfl rfl rfl held.made (held.releasing owned (by simp)) (by simp)
        fun page frame => held.fresh owned
    rintro d k page frame other beside running (found | stale)
    · exact .inl found
    simp only [Stale,owned] at stale
    obtain ⟨-,same,user,-⟩ := stale
    have told := beside.recorded owned other user
    rw [same,← here] at told
    have missing := filter_eq_nil_iff.mp (length_eq_zero_iff.mp none) d (mem_range.mpr running)
    exact absurd (target_iff.mpr ⟨other,told⟩) missing
  · have pending : ((List.range n).filter (target g.recorded c l.loaded)).length =
        Threads.total n id (owed g.ipi g.recorded c l.loaded 0) := by
      rw [← Threads.total_filter]
      congr 1
      funext d
      simp [owed,quiet d]
    refine Keeps.within owned rfl rfl rfl (fun _ => id)
      ⟨⟨zero_le n,fun d _ => quiet d,pending⟩,sound.told,sound.threads,sound.mapped,freedBefore⟩ ?_ ?_
    · exact held.works owned (by simp) rfl rfl rfl held.made (held.releasing owned (by simp)) (by simp)
        fun page frame => held.fresh owned
    rintro d k page frame - - - (found | stale)
    · exact .inl found
    · simp only [Stale,owned] at stale
      obtain ⟨other,same,user,member⟩ := stale
      exact .inr ⟨other,same.trans here.symm,user,member,.inl (zero_le _)⟩

theorem sendVector_owed (before : g.ipi next = .none) :
    owed (if target g.recorded c cr3 next then Function.update g.ipi next .sent else g.ipi) g.recorded c cr3 (next + 1) =
      owed g.ipi g.recorded c cr3 next := by
  funext d
  unfold owed
  rcases eq_or_ne d next with rfl | other
  · by_cases told : target g.recorded c cr3 d <;> simp [told]
  · have later : next + 1 ≤ d ↔ next ≤ d := by omega
    by_cases told : target g.recorded c cr3 next <;> simp [told,other,later]

section
variable (sound : Sound n g) (held : Held n c g l)
include sound held

theorem sendVector_keeps
    (owned : g.lock = some (c,.flushing cr3 next freed)) (more : next < n) : Keeps n c g (sendVector c g cr3 next freed) l := by
  obtain ⟨within,beyond,pending⟩ := sound.flushing owned
  have freedBefore := sound.freed_of owned rfl
  have kept : ∀ d, d ≠ next → (sendVector c g cr3 next freed).ipi d = g.ipi d := by
    intro d other
    change (if target g.recorded c cr3 next then Function.update g.ipi next .sent else g.ipi) d = g.ipi d
    split
    · exact Function.update_of_ne other ..
    · rfl
  refine Keeps.within owned rfl rfl rfl ?_ ⟨⟨more,?_,?_⟩,?_,sound.threads,sound.mapped,freedBefore⟩ ?_ ?_
  · intro d reloaded
    rw [kept d]
    · exact reloaded
    · rintro rfl
      rw [beyond d le_rfl] at reloaded
      cases reloaded
  · intro d after
    rw [kept d (by omega)]
    exact beyond d (by omega)
  · rw [← sendVector_owed (beyond next le_rfl)] at pending
    exact pending
  · intro d busy
    rcases eq_or_ne d next with rfl | other
    · by_cases told : target g.recorded c cr3 d
      · change g.recorded d ≠ none
        rw [(target_iff.mp told).2]
        nofun
      · simp [sendVector,told,beyond d le_rfl] at busy
    · rw [kept d other] at busy
      exact sound.told d busy
  · exact held.works owned nofun rfl rfl rfl held.made (held.releasing owned nofun) nofun
      fun page frame => held.fresh owned
  · rintro d k page frame other beside - (found | stale)
    · exact .inl found
    simp only [Stale,owned] at stale
    obtain ⟨-,same,user,member,late⟩ := stale
    refine .inr ⟨other,same,user,member,?_⟩
    rcases eq_or_ne d next with rfl | apart
    · have told : target g.recorded c cr3 d :=
        target_iff.mpr ⟨other,same ▸ beside.recorded owned other user⟩
      exact .inr (by simp [sendVector,told])
    · rw [kept d apart]
      exact late.imp_left fun beyond => by omega

theorem drain_keeps (owned : g.lock = some (c,.flushing cr3 next freed)) (all : n ≤ next) (zero : g.pending = 0) :
    Keeps n c g {g with lock := some (c,.released freed)} l := by
  obtain ⟨within,beyond,pending⟩ := sound.flushing owned
  have quiet : ∀ d, g.ipi d = .none := by
    intro d
    rcases lt_or_ge d n with running | absent
    · by_contra busy
      have nothing : id (owed g.ipi g.recorded c cr3 next d) = 0 :=
        Threads.total_none (pending.symm.trans zero) running
      simp [owed,busy] at nothing
    · exact beyond d (by omega)
  have freedBefore := sound.freed_of owned rfl
  refine Keeps.within owned rfl rfl rfl (fun _ => id)
    ⟨quiet,sound.told,sound.threads,sound.mapped,freedBefore⟩ ?_ ?_
  · exact held.works owned (by simp) rfl rfl rfl held.made (held.releasing owned (by simp)) (by simp)
      fun page frame => held.fresh owned
  rintro d k page frame - - running (found | stale)
  · exact .inl found
  simp only [Stale,owned,quiet d] at stale
  obtain ⟨-,-,-,-,late | sent⟩ := stale
  · omega
  · cases sent

theorem done_keeps (owned : g.lock = some (c,.released freed)) : Keeps n c g {g with lock := some (c,.kernel)} l := by
  have calm : Calm g.lock := by
    rw [owned]
    trivial
  refine Keeps.outside sound owned calm rfl trivial rfl rfl (fun _ _ => rfl) le_rfl sound.threads sound.mapped
    (fun _ _ _ _ found => found) ?_
  exact held.works owned nofun rfl rfl rfl held.made (held.releasing owned nofun) nofun
    fun page frame => held.fresh owned

theorem call_keeps (owned : g.lock = some (c,job))
    (record : ∀ fresh t th, k = .finish fresh → l.thread = some t → g.threads t = some th → g.recorded c = some th.prev)
    (moved : call n c g l job k = some (h,m)) : Keeps n c g h m := by
  unfold call at moved
  split at moved
  · exact switchThread_keeps sound held owned (.inl rfl) moved
  · exact switchThread_keeps sound held owned (.inr rfl) moved
  · cases moved
    exact switchKernelTask_keeps sound held owned (.inl rfl)
  · cases moved
    exact switchKernelTask_keeps sound held owned (.inr rfl)
  · split at moved
    · cases moved
    rename_i th current
    obtain ⟨threads,started,same⟩ := map_eq_some_iff.mp moved
    cases same
    obtain ⟨t,-,found⟩ := bind_eq_some_iff.mp current
    exact Keeps.table sound held owned (.inl rfl) (Made.start sound.threads (sound.threads t th found).own started)
  · split at moved
    · cases moved
    · cases moved
      exact Keeps.table sound held owned (.inl rfl) (Made.update sound.threads nofun)
  · exact load_keeps sound held owned moved
  · exact finish_keeps sound held owned (fun t th => record _ t th rfl) moved
  · exact mapUserPage_keeps sound held owned (.inl rfl) moved
  · exact mapUserPage_keeps sound held owned (.inr rfl) moved
  · split at moved
    · cases moved
      exact take_keeps sound held owned (.inl rfl)
    · cases moved
  · split at moved
    · cases moved
      exact take_keeps sound held owned (.inr rfl)
    · cases moved
  · cases moved
    exact release_keeps sound held owned
  · have keeps := unmapPage_keeps sound held owned
    rwa [some.inj moved] at keeps
  · cases moved
    exact flushTlb_keeps sound held owned
  · split at moved
    · next more =>
      cases moved
      exact sendVector_keeps sound held owned more
    · cases moved
  · split at moved
    · next finished =>
      cases moved
      exact drain_keeps sound held owned finished.1 finished.2
    · cases moved
  · cases moved
    exact done_keeps sound held owned
  · cases moved

end

end

theorem move_keeps (sound : Sound n g) (held : Held n c g l)
    (record : ∀ fresh t th, a = .call (.finish fresh) → l.thread = some t → g.threads t = some th →
      g.recorded c = some th.prev)
    (moved : move n c g l a = some (h,m)) : Keeps n c g h m := by
  unfold move at moved
  split at moved
  · cases moved
  next running =>
  cases a with
  | fill page =>
    obtain ⟨frame,found,same⟩ := map_eq_some_iff.mp moved
    cases same
    exact ⟨sound,held.fills (by omega) found,fun _ _ _ => id⟩
  | reload =>
    obtain ⟨ready,⟨⟩⟩ := ite_none_right_eq_some.mp moved
    exact ⟨sound.reloads ready.1,held.reloads,fun d l other beside => beside.interrupted other⟩
  | report =>
    obtain ⟨reloaded,⟨⟩⟩ := ite_none_right_eq_some.mp moved
    exact ⟨sound.reports (by omega) reloaded,held.reports reloaded sound,
      fun d l other beside => beside.interrupted other⟩
  | entry e =>
    dsimp only at moved
    split at moved
    · cases moved
    obtain ⟨⟨out,m⟩,here,same⟩ := map_eq_some_iff.mp moved
    cases same
    obtain ⟨-,-,changed⟩ := entry_spec held.handler here
    exact ⟨sound.enters changed,held.enters here,fun d l other beside => beside.beside other changed⟩
  | call k =>
    dsimp only at moved
    split at moved
    · next owner job owned =>
      obtain ⟨mine,moved⟩ := ite_none_right_eq_some.mp moved
      obtain rfl := mine.1
      exact call_keeps sound held owned (fun fresh t th same => record fresh t th (by rw [same])) moved
    · cases moved

/-! Runs. -/

abbrev Step (n : Nat) : State → Nat × Action → State → Prop := Threads.Step (move n)

def handsOut : Action → Option Nat
  | .call (.map _ frame) => some frame
  | .call (.take frame) => some frame
  | _ => none

def Awaited (g : Shared) (d : Nat) : Prop :=
  match g.lock with
  | some (me,.flushing cr3 next _) => g.ipi d ≠ .none ∨ next ≤ d ∧ target g.recorded me cr3 d
  | _ => False

/-- In bkl::enter with interrupts off, and not in the handler of an interrupt. -/
def Deaf (s : State) (d : Nat) : Prop :=
  (s.locals d).mode = .waiting ∧ (s.locals d).on = false ∧ (s.locals d).irq = .none ∧ s.shared.ipi d ≠ .reloaded

/-- When release_range returns, no CPU has a translation to a frame it released; no frame is handed
out that a CPU has a translation to, or can get one to; and flush_tlb waits for no CPU that waits
for the lock with interrupts off. -/
structure Safe (n : Nat) (s : State) : Prop where
  flushed : ∀ c freed, s.shared.lock = some (c,.released freed) →
    ∀ d page frame, (s.locals d).tlb page = some frame → frame ∉ freed
  unused : ∀ c a frame t, handsOut a = some frame → Step n s (c,a) t →
    ∀ d page, (s.locals d).tlb page ≠ some frame ∧ s.shared.tables (s.locals d).loaded page ≠ some frame
  heard : ∀ d, Awaited s.shared d → ¬Deaf s d

theorem initial_ok (initial : Initial s) : Sound n s.shared ∧ ∀ c, Held n c s.shared (s.locals c) := by
  have calm : Calm s.shared.lock := by
    rw [initial.lock]
    trivial
  refine ⟨⟨calm.counted.mpr initial.ipi,?_,initial.threads,initial.mapped,?_⟩,?_⟩
  · intro d busy
    exact absurd (initial.ipi d) busy
  · rw [initial.lock]
    nofun
  intro c
  refine ⟨?_,?_,?_,.inr (.inl (initial.loaded c)),?_,?_,?_⟩
  · intro job owned _
    rw [initial.lock] at owned
    cases owned
    exact initial.mode 0
  · rw [initial.irq]
    nofun
  · rw [initial.loaded]
    trivial
  · rw [initial.lock]
    nofun
  · intro page frame cached
    rw [initial.tlb] at cached
    cases cached
  · intro _
    exact .inr (.inr (.inr (initial.recorded c)))

theorem reach_ok (reached : Reach Initial Awake (Step n) s) :
    Sound n s.shared ∧ ∀ c, Held n c s.shared (s.locals c) := by
  have all : ∀ c, Sound n s.shared ∧ Held n c s.shared (s.locals c) := by
    intro c
    refine Threads.invariant (fun c g l => Sound n g ∧ Held n c g l) ?_ ?_ ?_ reached c
    · intro s initial c
      exact ⟨(initial_ok initial).1,(initial_ok initial).2 c⟩
    · rintro s c a g l awake ⟨sound,held⟩ moved
      have keeps := move_keeps sound held (by rintro fresh t th rfl; exact awake t th) moved
      exact ⟨keeps.sound,keeps.own⟩
    · rintro s c d a g l awake other ⟨sound,held⟩ ⟨-,beside⟩ moved
      have keeps := move_keeps sound held (by rintro fresh t th rfl; exact awake t th) moved
      exact ⟨keeps.sound,keeps.others d _ other beside⟩
  exact ⟨(all 0).1,fun c => (all c).2⟩

theorem mapUserPage_free (moved : mapUserPage g l page frame = some (h,m)) : g.free frame := by
  unfold mapUserPage at moved
  split at moved
  · next possible => exact possible.2.2
  · cases moved

theorem call_free {job : Job} (given : handsOut (.call k) = some frame)
    (moved : call n c g l job k = some (h,m)) : (job = .kernel ∨ job = .loading) ∧ g.free frame := by
  cases k <;> cases given
  case map page =>
    cases job with
    | kernel => exact ⟨.inl rfl,mapUserPage_free moved⟩
    | loading => exact ⟨.inr rfl,mapUserPage_free moved⟩
    | handler | releasing | flushing | released => simp [call] at moved
  case take =>
    cases job with
    | kernel => exact ⟨.inl rfl,(ite_none_right_eq_some.mp moved).1⟩
    | loading => exact ⟨.inr rfl,(ite_none_right_eq_some.mp moved).1⟩
    | handler | releasing | flushing | released => simp [call] at moved

theorem handsOut_free (given : handsOut a = some frame) (moved : move n c g l a = some (h,m)) :
    Calm g.lock ∧ g.free frame := by
  obtain ⟨k,rfl⟩ : ∃ k, a = .call k := by
    cases a with
    | call k => exact ⟨k,rfl⟩
    | fill | reload | report | entry => cases given
  unfold move at moved
  split at moved
  · cases moved
  dsimp only at moved
  split at moved
  · next owner job owned =>
    obtain ⟨mine,moved⟩ := ite_none_right_eq_some.mp moved
    obtain ⟨idle,free⟩ := call_free given moved
    exact ⟨(calm_of_idle owned idle).1,free⟩
  · cases moved

theorem releases_safe {s : State} (reached : Reach Initial Awake (Step n) s) : Safe n s := by
  obtain ⟨sound,held⟩ := reach_ok reached
  refine ⟨?_,?_,?_⟩
  · intro c freed owned d page frame cached member
    have calm : Calm s.shared.lock := by
      rw [owned]
      trivial
    obtain ⟨-,found⟩ := (held d).coherent page frame cached
    have used := sound.mapped.used _ _ _ (found.resolve_right calm.not_stale)
    rw [sound.freed_of owned rfl frame member] at used
    cases used
  · intro c a frame t given moved d page
    obtain ⟨g,l,here,-⟩ := Threads.step_cases moved
    obtain ⟨calm,free⟩ := handsOut_free given here
    have unmapped : ∀ cr3 page, s.shared.tables cr3 page ≠ some frame := by
      intro cr3 page found
      have used := sound.mapped.used _ _ _ found
      rw [free] at used
      cases used
    refine ⟨?_,unmapped _ page⟩
    intro cached
    obtain ⟨-,found⟩ := (held d).coherent page frame cached
    exact unmapped _ page (found.resolve_right calm.not_stale)
  · rintro d awaited ⟨waiting,off,free,ready⟩
    have started : s.shared.recorded d = none := by
      rcases (held d).willing waiting with on | busy | reloaded | started
      · rw [off] at on
        cases on
      · exact absurd free busy
      · exact absurd reloaded ready
      · exact started
    unfold Awaited at awaited
    split at awaited
    · rcases awaited with busy | ⟨-,told⟩
      · exact sound.told d busy started
      · rw [(target_iff.mp told).2] at started
        cases started
    · exact awaited

def twoThreads : State where
  shared :=
    { lock := some (0,.kernel)
      threads := fun t => if t < 2 then some ⟨.user 0,none,.kernel,false⟩ else none
      spaces := 1
      tables := fun _ _ => none
      free := fun _ => true
      recorded := fun _ => none
      pending := 0
      ipi := fun _ => .none }
  locals := fun c => ⟨if c = 0 then .inside else .waiting,false,.none,none,.kernel,fun _ => none⟩

theorem twoThreads_initial : Initial twoThreads := by
  refine ⟨rfl,?_,⟨fun _ => rfl,nofun,nofun⟩,fun _ => rfl,fun _ => rfl,fun _ => rfl,fun _ => rfl,fun _ => rfl,fun _ _ => rfl⟩
  intro t th found
  dsimp only [twoThreads] at found
  split at found
  · cases found
    exact ⟨one_pos,trivial,nofun⟩
  · cases found

def releaseBeside : List (Nat × Action) :=
  [(0,.call (.switchThread 0 true)),(0,.call (.map 5 7)),(0,.entry .leave),(0,.entry .resume),(0,.fill 5),
   (1,.entry .enter),(1,.call (.switchThread 1 true)),(1,.call (.release 5 1)),(1,.call .unmap),(1,.call .flush),
   (1,.call .send),(0,.reload),(1,.call .send),(0,.report),(1,.call .drain)]

theorem releases_safe_two : ∃ s, Reach Initial Awake (Step 2) s ∧ s.shared.lock = some (1,.released [7]) ∧
    Safe 2 s := by
  have ran : (execute (Threads.run (move 2)) twoThreads releaseBeside).map (·.shared.lock) =
      some (some (1,.released [7])) := by
    decide +kernel
  obtain ⟨s,here,owned⟩ := map_eq_some_iff.mp ran
  have reached : Reach Initial Awake (Step 2) s := by
    refine Threads.reaches ?_ twoThreads_initial here
    simp [releaseBeside,Awake]
  exact ⟨s,reached,owned,releases_safe reached⟩

/-- The first thread starts a program and sleeps meanwhile. Its CPU stays recorded with the new
space when the thread is back in its own. -/
def releaseAfterLoad : List (Nat × Action) :=
  [(0,.call (.switchThread 0 true)),(0,.call (.map 5 7)),(0,.call .load),(0,.call (.switchKernelTask true)),
   (0,.call (.switchThread 0 true)),(0,.call (.finish (some 2))),(0,.entry .leave),(0,.entry .resume),(0,.fill 5),
   (1,.entry .enter),(1,.call (.switchThread 1 true)),(1,.call (.release 5 1)),(1,.call .unmap),(1,.call .flush)]

theorem not_every_release_safe : ¬∀ n s, Reach Initial anyRun (Step n) s → Safe n s := by
  intro all
  have ran : (execute (Threads.run (move 2)) twoThreads releaseAfterLoad).map
      (fun s => (s.shared.lock,(s.locals 0).tlb 5)) = some (some (1,.released [7]),some 7) := by
    decide +kernel
  obtain ⟨s,here,seen⟩ := map_eq_some_iff.mp ran
  obtain ⟨owned,cached⟩ := Prod.mk.inj seen
  have reached : Reach Initial anyRun (Step 2) s :=
    Threads.reaches (fun _ _ _ => trivial) twoThreads_initial here
  exact (all 2 s reached).flushed 1 [7] owned 0 5 7 cached (mem_singleton_self 7)

end SurfaceOS.Cpu.Tlb
