import SurfaceOS.Cpu.Tlb

/-! What the TLBs of all CPUs may hold while one of them releases pages. Every cached translation is
in the tables of the space its CPU has loaded, or is to a frame of the release that goes on, on a CPU
that still owes its report to flush_tlb. -/
namespace SurfaceOS.Cpu.Tlb
open Lib
open Function (update update_eq_self update_of_ne update_self)

variable {loaded cr3 : Pml4} {a b pending me next : Nat} {x : Ipi}

def Stale (g : Shared) (c : Nat) (loaded : Pml4) (frame : Nat) : Prop :=
  match g.lock with
  | some (owner,.releasing cr3 _ freed) => c ≠ owner ∧ loaded = cr3 ∧ loaded ≠ .kernel ∧ frame ∈ freed
  | some (owner,.flushing cr3 next freed) =>
    c ≠ owner ∧ loaded = cr3 ∧ loaded ≠ .kernel ∧ frame ∈ freed ∧ (next ≤ c ∨ g.ipi c = .sent)
  | _ => False

def owed (ipi : Nat → Ipi) (recorded : Nat → Option Pml4) (me : Nat) (cr3 : Pml4) (next d : Nat) : Nat :=
  if ipi d ≠ .none ∨ next ≤ d ∧ target recorded me cr3 d then 1 else 0

def Counted (n : Nat) (g : Shared) : Prop :=
  match g.lock with
  | some (me,.flushing cr3 next _) =>
    next ≤ n ∧ (∀ d, next ≤ d → g.ipi d = .none) ∧ g.pending = Threads.total n id (owed g.ipi g.recorded me cr3 next)
  | _ => ∀ d, g.ipi d = .none

def freedBy : Option (Nat × Job) → List Nat
  | some (_,.releasing _ _ freed) => freed
  | some (_,.flushing _ _ freed) => freed
  | some (_,.released freed) => freed
  | _ => []

structure Sound (n : Nat) (g : Shared) : Prop where
  counted : Counted n g
  told : ∀ d, g.ipi d ≠ .none → g.recorded d ≠ none
  threads : ∀ t th, g.threads t = some th → th.Made g.spaces
  mapped : Mapped g.tables g.free
  freed : ∀ frame ∈ freedBy g.lock, g.free frame

structure Held (n c : Nat) (g : Shared) (l : Core) : Prop where
  inside : ∀ job, g.lock = some (c,job) → job ≠ .handler → l.mode = .inside
  handler : l.irq = .holding → g.lock = some (c,.handler)
  made : Made g.spaces l.loaded
  record : g.recorded c = some l.loaded ∨ l.loaded = .kernel ∨ g.lock = some (c,.loading)
  here : ∀ cr3 pages freed, g.lock = some (c,.releasing cr3 pages freed) → l.loaded = cr3
  coherent : ∀ page frame, l.tlb page = some frame →
    c < n ∧ (g.tables l.loaded page = some frame ∨ Stale g c l.loaded frame)
  willing : l.mode = .waiting → l.on ∨ l.irq ≠ .none ∨ g.ipi c = .reloaded ∨ g.recorded c = none

def Calm : Option (Nat × Job) → Prop
  | some (_,.releasing _ _ _) => False
  | some (_,.flushing _ _ _) => False
  | _ => True

def Light (c : Nat) (lock : Option (Nat × Job)) : Prop :=
  lock = none ∨ lock = some (c,.handler) ∨ lock = some (c,.kernel)

variable {n c d : Nat} {g h : Shared} {l m : Core} {lock : Option (Nat × Job)}

theorem Calm.not_stale {frame : Nat} (calm : Calm g.lock) : ¬Stale g d loaded frame := by
  intro stale
  unfold Stale at stale
  split at stale
  · next found => simp only [found,Calm] at calm
  · next found => simp only [found,Calm] at calm
  · exact stale

theorem Calm.counted (calm : Calm g.lock) : Counted n g ↔ ∀ d, g.ipi d = .none := by
  unfold Counted
  split
  · next found => simp only [found,Calm] at calm
  · exact Iff.rfl

theorem Light.calm (light : Light c lock) : Calm lock := by
  rcases light with rfl | rfl | rfl <;> trivial

theorem Light.freed (light : Light c lock) : freedBy lock = [] := by
  rcases light with rfl | rfl | rfl <;> rfl

theorem Light.elsewhere {job : Job} (light : Light c lock) (other : d ≠ c) : lock ≠ some (d,job) := by
  rintro rfl
  rcases light with same | same | same <;> cases same
  all_goals exact other rfl

theorem Made.mono (made : Made a cr3) (more : a ≤ b) : Made b cr3 := by
  cases cr3 with
  | kernel => trivial
  | user id => exact Nat.lt_of_lt_of_le made more

theorem Thread.Made.mono {th : Thread} (made : th.Made a) (more : a ≤ b) : th.Made b :=
  ⟨Tlb.Made.mono made.own more,Tlb.Made.mono made.back more,fun cr3 lent => Tlb.Made.mono (made.lent cr3 lent) more⟩

theorem Held.frame (held : Held n d g l) (locks : ∀ job, h.lock = some (d,job) ↔ g.lock = some (d,job))
    (records : h.recorded d = g.recorded d) (spaces : g.spaces ≤ h.spaces)
    (reloads : g.ipi d = .reloaded → h.ipi d = .reloaded)
    (coherent : ∀ page frame, l.tlb page = some frame → d < n →
      g.tables l.loaded page = some frame ∨ Stale g d l.loaded frame →
      h.tables l.loaded page = some frame ∨ Stale h d l.loaded frame) : Held n d h l := by
  refine ⟨?_,?_,?_,?_,?_,?_,?_⟩
  · intro job owned
    exact held.inside job ((locks job).mp owned)
  · intro holding
    exact (locks .handler).mpr (held.handler holding)
  · exact held.made.mono spaces
  · rw [records,locks]
    exact held.record
  · intro cr3 pages freed owned
    exact held.here cr3 pages freed ((locks _).mp owned)
  · intro page frame cached
    obtain ⟨running,found⟩ := held.coherent page frame cached
    exact ⟨running,coherent page frame cached running found⟩
  intro waiting
  rw [records]
  rcases held.willing waiting with on | busy | reloaded | started
  · exact .inl on
  · exact .inr (.inl busy)
  · exact .inr (.inr (.inl (reloads reloaded)))
  · exact .inr (.inr (.inr started))

section
variable {out : Option (Nat × Job)} {e : Entry}

theorem entry_spec (handler : l.irq = .holding → lock = some (c,.handler)) (moved : entry c lock l e = some (out,m)) :
    m.loaded = l.loaded ∧ m.tlb = l.tlb ∧ (out = lock ∨ Light c lock ∧ Light c out) := by
  cases e <;> dsimp only [entry] at moved
  case ask =>
    split at moved
    · split at moved
      · cases moved
        exact ⟨rfl,rfl,.inr ⟨.inl rfl,.inr (.inl rfl)⟩⟩
      · split at moved <;> cases moved <;> exact ⟨rfl,rfl,.inl rfl⟩
    · cases moved
  case iret =>
    split at moved
    · cases moved
      exact ⟨rfl,rfl,.inl rfl⟩
    obtain ⟨holding,⟨⟩⟩ := Option.ite_none_right_eq_some.mp moved
    exact ⟨rfl,rfl,.inr ⟨.inr (.inl (handler holding)),.inl rfl⟩⟩
  all_goals
    split at moved
    case isFalse => cases moved
  case enter free =>
    cases moved
    exact ⟨rfl,rfl,.inr ⟨.inl free.2.2,.inr (.inr rfl)⟩⟩
  case preempt holding =>
    cases moved
    exact ⟨rfl,rfl,.inr ⟨.inr (.inl (handler holding.1)),.inr (.inr rfl)⟩⟩
  case leave mine =>
    cases moved
    exact ⟨rfl,rfl,.inr ⟨.inr (.inr mine.1),.inl rfl⟩⟩
  case rest mine =>
    cases moved
    exact ⟨rfl,rfl,.inr ⟨.inr (.inr mine.1),.inl rfl⟩⟩
  all_goals
    cases moved
    exact ⟨rfl,rfl,.inl rfl⟩

theorem Sound.enters (sound : Sound n g) (changed : out = g.lock ∨ Light c g.lock ∧ Light c out) :
    Sound n {g with lock := out} := by
  rcases changed with rfl | ⟨before,after⟩
  · exact sound
  have quiet := before.calm.counted.mp sound.counted
  have counted : Counted n {g with lock := out} := Calm.counted (g := {g with lock := out}) after.calm |>.mpr quiet
  refine ⟨counted,sound.told,sound.threads,sound.mapped,?_⟩
  intro frame member
  rw [after.freed] at member
  cases member

theorem Held.beside (held : Held n d g l) (other : d ≠ c)
    (changed : out = g.lock ∨ Light c g.lock ∧ Light c out) : Held n d {g with lock := out} l := by
  rcases changed with rfl | ⟨before,after⟩
  · exact held
  apply held.frame
  · intro job
    exact iff_of_false (after.elsewhere other) (before.elsewhere other)
  · rfl
  · rfl
  · exact id
  · rintro page frame - - (found | stale)
    · exact .inl found
    · exact absurd stale before.calm.not_stale

theorem Held.enters (held : Held n c g l) (moved : entry c g.lock l e = some (out,m)) :
    Held n c {g with lock := out} m := by
  obtain ⟨loaded,tlb,changed⟩ := entry_spec held.handler moved
  have record : g.recorded c = some m.loaded ∨ m.loaded = .kernel ∨ out = some (c,.loading) := by
    rw [loaded]
    rcases changed with rfl | ⟨before,-⟩
    · exact held.record
    rcases held.record with same | kernel | loading
    · exact .inl same
    · exact .inr (.inl kernel)
    · rw [loading] at before
      rcases before with same | same | same <;> cases same
  have here : ∀ cr3 pages freed, out = some (c,.releasing cr3 pages freed) → m.loaded = cr3 := by
    intro cr3 pages freed owned
    rw [loaded]
    rcases changed with rfl | ⟨-,after⟩
    · exact held.here cr3 pages freed owned
    · rw [owned] at after
      rcases after with same | same | same <;> cases same
  have coherent : ∀ page frame, m.tlb page = some frame →
      c < n ∧ (g.tables m.loaded page = some frame ∨ Stale {g with lock := out} c m.loaded frame) := by
    intro page frame cached
    rw [tlb] at cached
    rw [loaded]
    obtain ⟨running,found⟩ := held.coherent page frame cached
    refine ⟨running,?_⟩
    rcases changed with rfl | ⟨before,-⟩
    · exact found
    · exact found.imp_right fun stale => absurd stale before.calm.not_stale
  have made : Made g.spaces m.loaded := loaded ▸ held.made
  suffices rest : (∀ job, out = some (c,job) → job ≠ .handler → m.mode = .inside) ∧
      (m.irq = .holding → out = some (c,.handler)) ∧
      (m.mode = .waiting → m.on ∨ m.irq ≠ .none ∨ g.recorded c = none) from
    ⟨rest.1,rest.2.1,made,record,here,coherent,fun waiting => by
      rcases rest.2.2 waiting with on | busy | started
      · exact .inl on
      · exact .inr (.inl busy)
      · exact .inr (.inr (.inr started))⟩
  obtain ⟨inside,handler,-⟩ := held
  have away {mode : Mode} (outside : l.mode ≠ .inside) :
      ∀ job, g.lock = some (c,job) → job ≠ .handler → mode = .inside :=
    fun job owned other => absurd (inside job owned other) outside
  cases e <;> dsimp only [entry] at moved
  case ask =>
    split at moved
    case isFalse => cases moved
    split at moved
    · cases moved
      exact ⟨fun job same other => absurd (by cases same; rfl) other,fun _ => rfl,fun _ => .inr (.inl nofun)⟩
    rename_i asking _ owner job found
    split at moved
    · cases moved
      exact ⟨fun job same => inside job (found.trans same),nofun,fun _ => .inr (.inl nofun)⟩
    · cases moved
      exact ⟨fun job same => inside job (found.trans same),nofun,fun _ => .inl rfl⟩
  case iret =>
    split at moved
    · cases moved
      exact ⟨inside,nofun,fun _ => .inl rfl⟩
    split at moved
    · cases moved
      exact ⟨nofun,nofun,fun _ => .inl rfl⟩
    · cases moved
  all_goals
    split at moved
    case isFalse => cases moved
  case trap free =>
    cases moved
    exact ⟨away (by rw [free.1]; nofun),handler,nofun⟩
  case sti free =>
    cases moved
    exact ⟨away (by rw [free.1]; nofun),handler,fun _ => .inl rfl⟩
  case enter free =>
    cases moved
    exact ⟨fun _ _ _ => rfl,fun holding => absurd (free.2.1.symm.trans holding) nofun,nofun⟩
  case interrupt =>
    cases moved
    exact ⟨inside,nofun,fun _ => .inr (.inl nofun)⟩
  case preempt =>
    cases moved
    exact ⟨fun _ _ _ => rfl,nofun,nofun⟩
  case leave mine =>
    cases moved
    exact ⟨nofun,fun holding => absurd (mine.2.1.symm.trans holding) nofun,nofun⟩
  case resume free =>
    cases moved
    exact ⟨away (by rw [free.1]; nofun),handler,nofun⟩
  case rest mine =>
    cases moved
    exact ⟨nofun,fun holding => absurd (mine.2.1.symm.trans holding) nofun,nofun⟩
  case hlt free =>
    cases moved
    exact ⟨away (by rw [free.1]; nofun),handler,fun _ => .inl rfl⟩

end

theorem Held.fills {page frame : Nat} (held : Held n c g l) (running : c < n) (found : g.tables l.loaded page = some frame) :
    Held n c g {l with tlb := update l.tlb page (some frame)} := by
  refine ⟨held.inside,held.handler,held.made,held.record,held.here,?_,held.willing⟩
  intro p f cached
  rcases eq_or_ne p page with rfl | other
  · have same : some frame = some f := by simpa using cached
    cases same
    exact ⟨running,.inl found⟩
  · exact held.coherent p f (by simpa [update_of_ne other] using cached)

theorem Held.forgets (page : Nat) (held : Held n c g l) : Held n c g {l with tlb := update l.tlb page none} := by
  refine ⟨held.inside,held.handler,held.made,held.record,held.here,?_,held.willing⟩
  intro p f cached
  rcases eq_or_ne p page with rfl | other
  · simp at cached
  · exact held.coherent p f (by simpa [update_of_ne other] using cached)

/-! The interrupt of flush_tlb. -/

theorem Sound.flushes (sound : Sound n g) (busy : g.ipi c ≠ .none) :
    ∃ me cr3 next freed, g.lock = some (me,.flushing cr3 next freed) ∧ c < next ∧ next ≤ n ∧
      (∀ d, next ≤ d → g.ipi d = .none) ∧ g.pending = Threads.total n id (owed g.ipi g.recorded me cr3 next) := by
  have counted := sound.counted
  unfold Counted at counted
  split at counted
  · next me cr3 next freed found =>
    refine ⟨me,cr3,next,freed,found,?_,counted⟩
    by_contra beyond
    exact busy (counted.2.1 c (by omega))
  · exact absurd (counted c) busy

theorem owed_update {ipi : Nat → Ipi} {recorded : Nat → Option Pml4}
    (before : c < next) : owed (update ipi c x) recorded me cr3 next =
      update (owed ipi recorded me cr3 next) c (if x = .none then 0 else 1) := by
  funext d
  rcases eq_or_ne d c with rfl | other
  · have sent : ¬next ≤ d := by omega
    cases x <;> simp [owed,sent]
  · rw [update_of_ne other]
    simp only [owed,update_of_ne other]

theorem Sound.answers (sound : Sound n g) (busy : g.ipi c ≠ .none) (pending : Nat)
    (counts : ∀ me cr3 next, c < next → owed g.ipi g.recorded me cr3 next c = 1 →
      g.pending = Threads.total n id (owed g.ipi g.recorded me cr3 next) →
      pending = Threads.total n id (owed (update g.ipi c x) g.recorded me cr3 next)) :
    Sound n {g with ipi := update g.ipi c x, pending := pending} := by
  obtain ⟨me,cr3,next,freed,found,before,within,beyond,all⟩ := sound.flushes busy
  refine ⟨?_,?_,sound.threads,sound.mapped,sound.freed⟩
  · unfold Counted
    simp only [found]
    refine ⟨within,?_,counts me cr3 next before (by simp [owed,busy]) all⟩
    intro d after
    rw [update_of_ne (by omega)]
    exact beyond d after
  · intro d told
    rcases eq_or_ne d c with rfl | other
    · exact sound.told d busy
    · exact sound.told d (by simpa [update_of_ne other] using told)

theorem Sound.reloads (sound : Sound n g) (sent : g.ipi c = .sent) :
    Sound n {g with ipi := update g.ipi c .reloaded} := by
  refine sound.answers (by rw [sent]; nofun) g.pending fun me cr3 next before one all => ?_
  rw [all,owed_update before,if_neg nofun,← one,update_eq_self]

theorem Sound.reports (sound : Sound n g) (running : c < n) (reloaded : g.ipi c = .reloaded) :
    Sound n {g with ipi := update g.ipi c .none, pending := g.pending - 1} := by
  refine sound.answers (by rw [reloaded]; nofun) _ fun me cr3 next before one all => ?_
  have total : Threads.total n id (update (owed g.ipi g.recorded me cr3 next) c 0) + id _ = _ + id 0 :=
    Threads.total_update running 0
  simp only [id] at total
  rw [owed_update before,if_pos rfl]
  omega

theorem Held.reloads (held : Held n c g l) :
    Held n c {g with ipi := update g.ipi c .reloaded} {l with on := false, tlb := fun _ => none} := by
  refine ⟨held.inside,held.handler,held.made,held.record,held.here,nofun,?_⟩
  intro _
  exact .inr (.inr (.inl (update_self ..)))

theorem Held.reports (held : Held n c g l) (reloaded : g.ipi c = .reloaded) (sound : Sound n g) :
    Held n c {g with ipi := update g.ipi c .none, pending := g.pending - 1} {l with on := true} := by
  refine ⟨held.inside,held.handler,held.made,held.record,held.here,?_,fun _ => .inl rfl⟩
  intro page frame cached
  obtain ⟨running,found⟩ := held.coherent page frame cached
  refine ⟨running,.inl (found.resolve_right ?_)⟩
  obtain ⟨me,cr3,next,freed,owned,before,-⟩ := sound.flushes (by rw [reloaded]; nofun)
  intro stale
  simp only [Stale,owned,reloaded] at stale
  obtain ⟨-,-,-,-,late | sent⟩ := stale
  · omega
  · cases sent

theorem stale_elsewhere {frame : Nat} (other : d ≠ c) (stale : Stale g d loaded frame) :
    Stale {g with ipi := update g.ipi c x, pending := pending} d loaded frame := by
  unfold Stale at stale ⊢
  simpa only [update_of_ne other] using stale

theorem Held.interrupted (held : Held n d g l) (other : d ≠ c) :
    Held n d {g with ipi := update g.ipi c x, pending := pending} l := by
  apply held.frame
  · exact fun _ => Iff.rfl
  · rfl
  · rfl
  · exact fun reloaded => (update_of_ne other ..).trans reloaded
  · intro page frame _ _ found
    exact found.imp_right (stale_elsewhere other)

/-! Pages come and go. -/

section
variable {tables less : Pml4 → Nat → Option Nat} {free now : Nat → Bool} {cr3 : Pml4} {page frame : Nat}

theorem table_update {x : Option Nat} (a : Pml4) (p : Nat) : update tables cr3 (update (tables cr3) page x) a p =
      if a = cr3 ∧ p = page then x else tables a p := by
  rcases eq_or_ne a cr3 with rfl | other
  · rcases eq_or_ne p page with rfl | apart
    · simp
    · simp [apart]
  · simp [other]

section
variable (mapped : Mapped tables free)
include mapped

theorem Mapped.sub (kept : ∀ a p f, less a p = some f → tables a p = some f)
    (used : ∀ a p f, less a p = some f → now f = false) : Mapped less now := by
  refine ⟨?_,used,?_⟩
  · intro page
    apply Option.eq_none_iff_forall_ne_some.mpr
    intro frame found
    have before := kept _ _ _ found
    rw [mapped.kernel] at before
    cases before
  · intro a b p q frame first second
    exact mapped.once a b p q frame (kept _ _ _ first) (kept _ _ _ second)

theorem Mapped.clear : Mapped (update tables cr3 fun _ => none) free := by
  have kept : ∀ a p f, update tables cr3 (fun _ => none) a p = some f → tables a p = some f := by
    intro a p f found
    rcases eq_or_ne a cr3 with rfl | other
    · simp at found
    · simpa [other] using found
  exact mapped.sub kept fun a p f found => mapped.used a p f (kept a p f found)

theorem Mapped.take : Mapped tables (update free frame false) := by
  apply mapped.sub (fun _ _ _ found => found)
  intro a p f found
  rcases eq_or_ne f frame with rfl | other
  · simp
  · rw [update_of_ne other]
    exact mapped.used a p f found

theorem Mapped.put (user : cr3 ≠ .kernel) (available : free frame) :
    Mapped (update tables cr3 (update (tables cr3) page (some frame)))
      (update free frame false) := by
  have unused : ∀ a p, tables a p ≠ some frame := by
    intro a p found
    have busy := mapped.used a p frame found
    rw [available] at busy
    cases busy
  refine ⟨?_,?_,?_⟩
  · intro p
    rw [table_update,if_neg fun same => user same.1.symm]
    exact mapped.kernel p
  · intro a p f found
    rw [table_update] at found
    split at found
    · cases found
      simp
    · exact mapped.take.used a p f found
  intro a b p q f first second
  rw [table_update] at first second
  split at first
  · next here =>
    cases first
    split at second
    · next there => exact ⟨here.1.trans there.1.symm,here.2.trans there.2.symm⟩
    · exact absurd second (unused b q)
  split at second
  · cases second
    exact absurd first (unused a p)
  · exact mapped.once a b p q f first second

theorem Mapped.drop (found : tables cr3 page = some frame) :
    Mapped (update tables cr3 (update (tables cr3) page none)) (update free frame true) := by
  apply mapped.sub
  · intro a p f kept
    rw [table_update] at kept
    split at kept
    · cases kept
    · exact kept
  intro a p f kept
  rw [table_update] at kept
  split at kept
  · cases kept
  rename_i other
  have apart : f ≠ frame := by
    rintro rfl
    exact other (mapped.once a cr3 p page f kept found)
  rw [update_of_ne apart]
  exact mapped.used a p f kept

end

end

end SurfaceOS.Cpu.Tlb
