import SurfaceOS.Fat.DirFrame
import SurfaceOS.Fat.Vnodes
import SurfaceOS.Lib.Transition

/-! Listing a directory with `ReadDir` (sffile.cpp, vnode.cpp `fat_readdir`) while records are created
and removed. The position of the open file is a slot behind two special entries; it only moves on,
and never past a record that stays. -/
namespace SurfaceOS.Fat.Listing
open Lib List Option Nat

variable {j perCluster i fuel need offset room start : Nat} {other name : Name} {run slots : List Slot}

/-- The loop of `fat_readdir` from slot `cookie` on; the "." and ".." records are passed over. -/
def readdirLoop (slots : List Slot) : Nat → Nat → Option Entry
  | 0, _ => none
  | fuel + 1, cookie => match nextRecord slots cookie with
    | none => none
    | some e => if Mounted.isDots e.name then readdirLoop slots fuel (e.index + 1) else some e

/-- `fat_readdir`: the name, the slot and the next cookie. Cookies 0 and 1 stand for "." and "..". -/
def fatReaddir (slots : List Slot) (device : Option Errno) (cookie : Nat) : Except Errno (Option (Name × Nat × Nat)) :=
  if cookie = 0 then .ok (some ([46],0,1))
  else if cookie = 1 then .ok (some ([46,46],0,2))
  else match device with
    | some e => .error e
    | none => .ok ((readdirLoop slots (slots.length + 1) (cookie - 2)).map fun e => (e.name,e.index,e.index + 3))

/-- What a call finds: an error of the device, memory for the entry, and whether the caller's
pointer can be written to. -/
structure Grant where
  device : Option Errno
  memory : Bool
  pointer : Bool

/-- The answer of a call. A record may be met and yet not get to the caller. -/
inductive Answer
  | entry (index : Nat) (name : Name)
  | lost (index : Nat) (name : Name)
  | endOfFile
  | failed (e : Errno)
  deriving DecidableEq

variable {a : Answer}

/-- `file_read_dir` at a position of the file; the special entries are passed over, so three turns
are enough. -/
def fileReadDir (slots : List Slot) (g : Grant) : Nat → Nat → Nat × Answer
  | 0, offset => (offset,.endOfFile)
  | fuel + 1, offset => match fatReaddir slots g.device offset with
    | .error e => (offset,.failed e)
    | .ok none => (offset,.endOfFile)
    | .ok (some (name,index,next)) =>
      if Mounted.isDots name then fileReadDir slots g fuel next
      -- the position has moved on before the entry is handed over
      else (next,if g.memory && g.pointer then .entry index name else .lost index name)

structure Stream where
  dir : Dir
  offset : Nat

inductive Event
  | readDir (g : Grant)
  | create (name : Name) (new : Fresh)
  | remove (name : Name)

def step (perCluster : Nat) (s : Stream) : Event → Stream × Option Answer
  | .readDir g =>
    let result := fileReadDir s.dir.slots g 3 s.offset
    ({s with offset := result.1},some result.2)
  | .create name new => ({s with dir := (create perCluster s.dir name new).2},none)
  | .remove name => ({s with dir := {s.dir with slots := removeName s.dir.slots name}},none)

def Answer.index? : Answer → Option Nat
  | .entry i _ => some i
  | .lost i _ => some i
  | _ => none

def met (answers : List (Option Answer)) : List Nat := answers.filterMap (·.bind Answer.index?)

def Answer.given? : Answer → Option Nat
  | .entry i _ => some i
  | _ => none

def returned (answers : List (Option Answer)) : List Nat := answers.filterMap (·.bind Answer.given?)

def Spares (i : Nat) (s : Stream) : Event → Prop
  | .remove name => ∀ e, find s.dir.slots name = some e → e.index ≠ i
  | _ => True

section
variable {slots : List Slot} {cookie : Nat}

theorem scanDir_sorted (slots : List Slot) : (scanDir slots).Pairwise (·.index < ·.index) := scanFrom_sorted ..

theorem nextRecord_spec {e : Entry} (next : nextRecord slots cookie = some e) :
    e ∈ scanDir slots ∧ cookie ≤ e.index ∧ ∀ d ∈ scanDir slots, cookie ≤ d.index → e.index ≤ d.index := by
  rw [nextRecord,← head?_filter] at next
  obtain ⟨rest,here⟩ := head?_eq_some_iff.mp next
  have member : e ∈ (scanDir slots).filter (cookie ≤ ·.index) := here ▸ mem_cons_self ..
  obtain ⟨inside,low⟩ := mem_filter.mp member
  refine ⟨inside,of_decide_eq_true low,fun d there further => ?_⟩
  have later : d ∈ e :: rest := here ▸ mem_filter.mpr ⟨there,decide_eq_true further⟩
  have above : (e :: rest).Pairwise (·.index < ·.index) := here ▸ (scanDir_sorted slots).filter _
  rcases mem_cons.mp later with rfl | behind
  · exact le_refl _
  · exact le_of_lt (rel_of_pairwise_cons above behind)

theorem readdirLoop_spec (enough : ((scanDir slots).filter (cookie ≤ ·.index)).length < fuel) :
    (readdirLoop slots fuel cookie = none → ∀ d ∈ scanDir slots, cookie ≤ d.index → Mounted.isDots d.name) ∧
    ∀ e, readdirLoop slots fuel cookie = some e → e ∈ scanDir slots ∧ cookie ≤ e.index ∧
      Mounted.isDots e.name = false ∧
      ∀ d ∈ scanDir slots, cookie ≤ d.index → d.index < e.index → Mounted.isDots d.name := by
  induction fuel generalizing cookie with
  | zero => cases enough
  | succ fuel ih =>
    unfold readdirLoop
    cases next : nextRecord slots cookie with
    | none =>
      refine ⟨fun _ d member further => ?_,by simp⟩
      exact absurd (decide_eq_true further) (find?_eq_none.mp next d member)
    | some e =>
      obtain ⟨inside,low,least⟩ := nextRecord_spec next
      dsimp only
      by_cases dots : Mounted.isDots e.name = true
      · rw [if_pos dots]
        have fewer : ((scanDir slots).filter (e.index + 1 ≤ ·.index)).length < fuel := by
          rw [nextRecord,← head?_filter] at next
          obtain ⟨rest,here⟩ := head?_eq_some_iff.mp next
          rw [filter_next (scanDir_sorted slots) here]
          rw [here,length_cons] at enough
          omega
        -- the record passed over is the only one before the slot the loop goes on from
        have passed : ∀ d ∈ scanDir slots, cookie ≤ d.index → ¬ e.index + 1 ≤ d.index →
            Mounted.isDots d.name := by
          intro d member further early
          have bound := least d member further
          rw [scanDir_unique member inside (by omega)]
          exact dots
        obtain ⟨finished,found⟩ := ih fewer
        refine ⟨fun none d member further => ?_,fun f some => ?_⟩
        · by_cases later : e.index + 1 ≤ d.index
          · exact finished none d member later
          · exact passed d member further later
        obtain ⟨there,high,plain,between⟩ := found f some
        refine ⟨there,by omega,plain,fun d member further before => ?_⟩
        by_cases later : e.index + 1 ≤ d.index
        · exact between d member later before
        · exact passed d member further later
      · rw [if_neg dots]
        refine ⟨by simp,fun f same => ?_⟩
        obtain rfl := some.inj same
        refine ⟨inside,low,Bool.not_eq_true _ ▸ dots,fun d member further before => ?_⟩
        have bound := least d member further
        omega

end

inductive Turn (slots : List Slot) (g : Grant) (low : Nat) : Nat → Answer → Prop
  | met (e : Entry) (member : e ∈ scanDir slots) (further : low ≤ e.index)
      (between : ∀ d ∈ scanDir slots, low ≤ d.index → d.index < e.index → Mounted.isDots d.name) :
      Turn slots g low (e.index + 3) (if g.memory && g.pointer then .entry e.index e.name else .lost e.index e.name)
  | ended (next : Nat) (still : next - 2 = low)
      (rest : ∀ d ∈ scanDir slots, low ≤ d.index → Mounted.isDots d.name) : Turn slots g low next .endOfFile
  | failed (next : Nat) (still : next - 2 = low) (e : Errno) (device : g.device = some e) :
      Turn slots g low next (.failed e)

theorem fileReadDir_behind (slots : List Slot) (g : Grant) (fuel : Nat) (behind : 2 ≤ offset) :
    Turn slots g (offset - 2) (fileReadDir slots g (fuel + 1) offset).1 (fileReadDir slots g (fuel + 1) offset).2 := by
  unfold fileReadDir fatReaddir
  rw [if_neg (by omega),if_neg (by omega)]
  cases device : g.device with
  | some e => exact .failed offset rfl e device
  | none =>
    have enough : ((scanDir slots).filter (offset - 2 ≤ ·.index)).length < slots.length + 1 := by
      have fewer : ((scanDir slots).filter (offset - 2 ≤ ·.index)).length ≤ (scanDir slots).length :=
        length_filter_le ..
      have all : (scanDir slots).length ≤ slots.length := scanFrom_length ..
      omega
    obtain ⟨finished,found⟩ := readdirLoop_spec enough
    cases ran : readdirLoop slots (slots.length + 1) (offset - 2) with
    | none => exact .ended offset rfl (finished ran)
    | some e =>
      obtain ⟨member,further,plain,between⟩ := found e ran
      dsimp only [map_some]
      rw [if_neg (by rw [plain]; exact Bool.false_ne_true)]
      exact .met e member further between

theorem fileReadDir_turn (slots : List Slot) (g : Grant) (offset : Nat) :
    Turn slots g (offset - 2) (fileReadDir slots g 3 offset).1 (fileReadDir slots g 3 offset).2 := by
  rcases (show offset = 0 ∨ offset = 1 ∨ 2 ≤ offset by omega) with rfl | rfl | behind
  · exact fileReadDir_behind slots g 0 (le_refl 2)
  · exact fileReadDir_behind slots g 1 (le_refl 2)
  · exact fileReadDir_behind slots g 2 behind

/-! How many slots a directory can ever have. -/

def capacity (perCluster : Nat) (dir : Dir) : Nat := dir.slots.length + dir.room * perCluster

theorem reserveRun_capacity :
    capacity perCluster (reserveRun perCluster need room slots).2 = capacity perCluster ⟨slots,room⟩ := by
  induction room generalizing slots with
  | zero =>
    unfold reserveRun
    cases findRun need slots 0 0 0 with
    | none => rfl
    | some start => rfl
  | succ room ih =>
    unfold reserveRun
    cases findRun need slots 0 0 0 with
    | none =>
      rw [ih]
      unfold capacity growDir
      rw [length_append,length_replicate,succ_mul]
      dsimp only
      omega
    | some start => rfl

theorem place_length (fits : start + run.length ≤ slots.length) :
    (place slots start run).length = slots.length := by
  unfold place
  simp only [length_append,length_take,length_drop]
  omega

theorem create_capacity (perCluster : Nat) (dir : Dir) (name : Name) (new : Fresh) :
    capacity perCluster (create perCluster dir name new).2 = capacity perCluster dir := by
  have same (need : Nat) := @reserveRun_capacity perCluster need dir.room dir.slots
  fun_cases create perCluster dir name new with
  | case5 _ _ _ _ _ _ count _ _ _ reserved =>
    have same := same (count + 1)
    rwa [reserved] at same
  | case6 _ _ _ _ _ _ count _ _ _ reserved =>
    have same := same (count + 1)
    rw [reserved] at same
    obtain ⟨more,_,first⟩ := reserveRun_ok (succ_pos count) reserved
    have fits := first.1.fits (succ_pos count)
    unfold capacity at ⊢
    rw [place_length (by rw [recordRun_length]; exact fits)]
    exact same
  | _ => rfl

/-! The record in slot `i` while the directory changes around it. -/

def Held (i : Nat) (name : Name) (slots : List Slot) : Prop := ∃ s, Shown slots i s ∧ (entryAt slots i s).name = name

theorem Held.entry (held : Held i name slots) :
    ∃ e ∈ scanDir slots, e.index = i ∧ e.name = name := by
  obtain ⟨s,shown,named⟩ := held
  exact ⟨entryAt slots i s,mem_scanDir.mpr ⟨i,s,shown,rfl⟩,rfl,named⟩

theorem Held.created {dir : Dir} {new : Fresh} (held : Held i name dir.slots) :
    Held i name (create perCluster dir other new).2.slots := by
  obtain ⟨s,shown,named⟩ := held
  rcases ran : create perCluster dir other new with ⟨e | slot,after⟩
  · have padded := create_failed ran
    have inside := (List.getElem?_eq_some_iff.mp shown.here).1
    exact ⟨s,padded.shown_iff.mpr shown,(padded.entryAt inside s).symm ▸ named⟩
  obtain ⟨name11,count,start,more,grown,made⟩ := create_created ran
  obtain ⟨still,alike⟩ := made.keeps shown
  exact ⟨s,still,alike.name.symm.trans named⟩

theorem Held.removed (held : Held i name slots)
    (spared : ∀ e, find slots other = some e → e.index ≠ i) : Held i name (removeName slots other) := by
  rcases removeName_cases slots other with same | ⟨e,t,start,found,gone,removed⟩
  · exact same.symm ▸ held
  · obtain ⟨s,shown,named⟩ := held
    obtain ⟨still,alike⟩ := removed.keeps gone.record shown (spared e found).symm
    exact ⟨s,still,alike.name.symm.trans named⟩

theorem step_held {s : Stream} {event : Event} (held : Held i name s.dir.slots)
    (spared : Spares i s event) : Held i name (step perCluster s event).1.dir.slots := by
  cases event with
  | readDir g => exact held
  | create other new => exact held.created
  | remove other => exact held.removed spared

theorem step_capacity (perCluster : Nat) (s : Stream) (event : Event) :
    capacity perCluster (step perCluster s event).1.dir = capacity perCluster s.dir := by
  cases event with
  | readDir g => rfl
  | create other new => exact create_capacity perCluster s.dir other new
  | remove other =>
    have same : (removeName s.dir.slots other).length = s.dir.slots.length := by
      rcases removeName_cases s.dir.slots other with same | ⟨e,t,start,_,_,removed⟩
      · rw [same]
      · exact removed.length
    exact congrArg (· + s.dir.room * perCluster) same

def Answer.name? : Answer → Option Name
  | .entry _ name => some name
  | .lost _ name => some name
  | _ => none

/-- The answers of calls from slot `low` on, in a directory of at most `bound` slots that holds
record `i` all the time. -/
structure Listed (i : Nat) (name : Name) (low bound : Nat) (out : List (Option Answer)) : Prop where
  sorted : (met out).Pairwise (· < ·)
  bounded : ∀ j ∈ met out, low ≤ j ∧ j < bound
  meets : low ≤ i → some .endOfFile ∈ out → i ∈ met out
  named : ∀ a, some a ∈ out → a.index? = some i → a.name? = some name

theorem met_cons_some (index : a.index? = some j) (out : List (Option Answer)) :
    met (some a :: out) = j :: met out := by
  unfold met
  rw [filterMap_cons_some]
  exact index

theorem met_cons_none {a : Option Answer} (index : a.bind Answer.index? = none) (out : List (Option Answer)) :
    met (a :: out) = met out := by
  unfold met
  rw [filterMap_cons_none]
  exact index

section
variable {i low bound : Nat} {name : Name} {out : List (Option Answer)}

theorem Listed.skip (listed : Listed i name low bound out) {a : Option Answer} (none : a.bind Answer.index? = none)
    (going : a = some .endOfFile → ¬ low ≤ i) : Listed i name low bound (a :: out) := by
  refine ⟨?_,?_,fun further ended => ?_,fun b member index => ?_⟩
  · rw [met_cons_none none]
    exact listed.sorted
  · rw [met_cons_none none]
    exact listed.bounded
  · rw [met_cons_none none]
    rcases mem_cons.mp ended with same | later
    · exact absurd further (going same.symm)
    · exact listed.meets further later
  rcases mem_cons.mp member with rfl | later
  · rw [bind_some,index] at none
    cases none
  · exact listed.named b later index

theorem Listed.meet (listed : Listed i name (j + 1) bound out) (index : a.index? = some j)
    (further : low ≤ j) (inside : j < bound) (own : j = i → a.name? = some name) (passed : low ≤ i → ¬ i < j) :
    Listed i name low bound (some a :: out) := by
  refine ⟨?_,?_,fun reached ended => ?_,fun b member at_ => ?_⟩
  · rw [met_cons_some index]
    exact pairwise_cons.mpr ⟨fun k later => (listed.bounded k later).1,listed.sorted⟩
  · rw [met_cons_some index]
    intro k member
    rcases mem_cons.mp member with rfl | later
    · exact ⟨further,inside⟩
    · have range := listed.bounded k later
      omega
  · rw [met_cons_some index]
    rcases mem_cons.mp ended with same | later
    · cases same
      cases index
    rcases lt_or_ge j i with before | behind
    · exact mem_cons_of_mem j (listed.meets before later)
    have here : i = j := by
      omega
    exact here ▸ mem_cons_self ..
  · rcases mem_cons.mp member with same | later
    · obtain rfl := some.inj same
      rw [index] at at_
      exact own (some.inj at_)
    · exact listed.named b later at_

end

theorem answers_listed (plain : Mounted.isDots name = false) (events : List Event)
    (s : Stream) (held : Held i name s.dir.slots) (spared : Along (step perCluster) (Spares i) s events) :
    Listed i name (s.offset - 2) (capacity perCluster s.dir) (answers (step perCluster) s events).2 := by
  induction events generalizing s with
  | nil => exact ⟨.nil,nofun,nofun,nofun⟩
  | cons event rest ih =>
    have later := ih (step perCluster s event).1 (step_held held spared.1) spared.2
    rw [step_capacity] at later
    cases event with
    | create other new => exact later.skip rfl nofun
    | remove other => exact later.skip rfl nofun
    | readDir g =>
      obtain ⟨own,member,index,named⟩ := held.entry
      have turn := fileReadDir_turn s.dir.slots g s.offset
      unfold answers
      dsimp only [step] at later ⊢
      generalize (fileReadDir s.dir.slots g 3 s.offset).1 = next at turn later
      generalize (fileReadDir s.dir.slots g 3 s.offset).2 = answer at turn
      cases turn with
      | met e inside further between =>
        refine Listed.meet later (j := e.index) ?_ further ?_ (fun same => ?_) fun reached before => ?_
        · split <;> rfl
        · have range := (scanFrom_index inside).2
          unfold capacity
          omega
        · have one : e = own := scanDir_unique inside member (same.trans index.symm)
          split <;> exact congrArg some (one ▸ named)
        · have dots := between own member (by omega) (by omega)
          rw [named,plain] at dots
          cases dots
      | ended _ still dots =>
        rw [still] at later
        refine later.skip rfl fun _ reached => ?_
        have dots := dots own member (by omega)
        rw [named,plain] at dots
        cases dots
      | failed _ still e device =>
        rw [still] at later
        exact later.skip rfl nofun

def Event.reads : Event → Bool
  | .readDir g => g.device.isNone
  | _ => false

theorem reads_le_met (events : List Event) (s : Stream)
    (going : some .endOfFile ∉ (answers (step perCluster) s events).2) :
    (events.filter Event.reads).length ≤ (met (answers (step perCluster) s events).2).length := by
  induction events generalizing s with
  | nil => exact le_refl 0
  | cons event rest ih =>
    have later := ih (step perCluster s event).1 fun member => going (mem_cons_of_mem _ member)
    have more : (met (answers (step perCluster) (step perCluster s event).1 rest).2).length ≤
        (met (answers (step perCluster) s (event :: rest)).2).length :=
      ((sublist_cons_self ..).filterMap _).length_le
    by_cases reads : event.reads = true
    · rw [filter_cons_of_pos reads]
      cases event with
      | create other new => cases reads
      | remove other => cases reads
      | readDir g =>
        have turn := fileReadDir_turn s.dir.slots g s.offset
        have first : ∃ j, (fileReadDir s.dir.slots g 3 s.offset).2.index? = some j := by
          generalize (fileReadDir s.dir.slots g 3 s.offset).1 = next at turn
          generalize answered : (fileReadDir s.dir.slots g 3 s.offset).2 = answer at turn
          cases turn with
          | met e inside further between => exact ⟨e.index,by split <;> rfl⟩
          | ended _ still dots =>
            refine absurd (mem_cons.mpr (.inl ?_)) going
            exact congrArg some answered.symm
          | failed _ still e device =>
            have none := isNone_iff_eq_none.mp reads
            rw [device] at none
            cases none
        obtain ⟨j,index⟩ := first
        unfold answers
        dsimp only [step]
        rw [met_cons_some index]
        exact succ_le_succ later
    · rw [filter_cons_of_neg reads]
      exact le_trans later more

def Event.Handed : Event → Prop
  | .readDir g => g.memory ∧ g.pointer
  | _ => True

theorem given_eq_index (perCluster : Nat) (s : Stream) (event : Event) (handed : event.Handed) :
    (step perCluster s event).2.bind Answer.given? = (step perCluster s event).2.bind Answer.index? := by
  cases event with
  | create other new => rfl
  | remove other => rfl
  | readDir g =>
    have turn := fileReadDir_turn s.dir.slots g s.offset
    dsimp only [step]
    generalize (fileReadDir s.dir.slots g 3 s.offset).1 = next at turn
    generalize (fileReadDir s.dir.slots g 3 s.offset).2 = answer at turn
    cases turn with
    | met e inside further between =>
      rw [handed.1,handed.2]
      rfl
    | ended _ still dots => rfl
    | failed _ still e device => rfl

/-- The answer at a place of the run is that of the event there, from some state. -/
theorem answer_at (perCluster : Nat) (events : List Event) (s : Stream) (n : Nat) {event : Event}
    (here : events[n]? = some event) :
    ∃ s', (answers (step perCluster) s events).2[n]? = some (step perCluster s' event).2 := by
  induction events generalizing s n with
  | nil => cases here
  | cons first rest ih =>
    cases n with
    | zero =>
      obtain rfl : first = event := some.inj here
      exact ⟨s,rfl⟩
    | succ n => exact ih (step perCluster s first).1 n here

theorem returned_eq_met (events : List Event) (s : Stream) (handed : ∀ e ∈ events, e.Handed) :
    returned (answers (step perCluster) s events).2 = met (answers (step perCluster) s events).2 := by
  induction events generalizing s with
  | nil => rfl
  | cons event rest ih =>
    have later := ih (step perCluster s event).1 fun e member => handed e (mem_cons_of_mem event member)
    have same := given_eq_index perCluster s event (handed event (mem_cons_self ..))
    unfold returned met at later ⊢
    rw [answers,filterMap_cons,filterMap_cons,later,same]

/-- A record that stays through a listing is met once, in slot order, under its name, and the listing ends. A call
with memory and a good pointer returns what it meets, so where every call has them the record is returned once. -/
theorem readDir_meets_once (perCluster : Nat) (s : Stream) (start : s.offset = 0) (events : List Event) (i : Nat)
    (t : Slot) (shown : Shown s.dir.slots i t) (plain : Mounted.isDots (entryAt s.dir.slots i t).name = false)
    (spared : Along (step perCluster) (Spares i) s events) : let out := (answers (step perCluster) s events).2
    (some .endOfFile ∈ out → (met out).count i = 1) ∧ (met out).Pairwise (· < ·) ∧
      (∀ a, some a ∈ out → a.index? = some i → a.name? = some (entryAt s.dir.slots i t).name) ∧
      (capacity perCluster s.dir < (events.filter Event.reads).length → some .endOfFile ∈ out) ∧
      (∀ (n : Nat) (g : Grant) (a : Answer), events[n]? = some (.readDir g) → g.memory → g.pointer →
        out[n]? = some (some a) → a.given? = a.index?) ∧
      ((∀ e ∈ events, e.Handed) → some .endOfFile ∈ out →
        (returned out).count i = 1 ∧ (returned out).Pairwise (· < ·)) := by
  intro out
  have listed := answers_listed plain events s ⟨t,shown,rfl⟩ spared
  have distinct : (met out).Nodup := listed.sorted.imp fun less => Nat.ne_of_lt less
  have once (ended : some .endOfFile ∈ out) : (met out).count i = 1 :=
    count_eq_one_of_mem distinct (listed.meets (by omega) ended)
  refine ⟨once,listed.sorted,listed.named,fun many => ?_,fun n g a here memory pointer answered => ?_,
    fun handed ended => ?_⟩
  · by_contra going
    have few := reads_le_met events s going
    have inside : met out ⊆ List.range (capacity perCluster s.dir) := fun j member =>
      mem_range.mpr (listed.bounded j member).2
    have bound := (distinct.subperm inside).length_le
    rw [length_range] at bound
    exact absurd (le_trans few bound) (Nat.not_le_of_lt many)
  · obtain ⟨s',at_⟩ := answer_at perCluster events s n here
    have same := given_eq_index perCluster s' (.readDir g) ⟨memory,pointer⟩
    rw [some.inj (at_.symm.trans answered)] at same
    exact same
  · rw [returned_eq_met events s handed]
    exact ⟨once ended,listed.sorted⟩

def single : Stream := ⟨(create 16 emptyDir [97] ⟨false,0,0,0⟩).2,0⟩

def fair : Grant := ⟨none,true,true⟩

def visit : List Event := [.readDir fair,.create [98] ⟨false,0,0,0⟩,.readDir fair,.remove [98],.readDir fair]

theorem single_visit : (answers (step 16) single visit).2 =
    [some (.entry 0 [97]),none,some (.entry 1 [98]),none,some .endOfFile] := by decide +kernel

theorem readDir_meets_once_single : (met (answers (step 16) single visit).2).count 0 = 1 ∧
    (returned (answers (step 16) single visit).2).count 0 = 1 := by
  have scanned : (scanDir single.dir.slots).map (fun e => (e.index,e.name)) = [(0,[97])] := by decide +kernel
  obtain ⟨e,member,same⟩ := List.mem_map.mp (scanned ▸ List.mem_singleton_self ((0 : Nat),([97] : Name)))
  obtain ⟨i,t,shown,rfl⟩ := mem_scanDir.mp member
  obtain rfl : i = 0 := congrArg Prod.fst same
  have plain : Mounted.isDots (entryAt single.dir.slots 0 t).name = false := by
    rw [show (entryAt single.dir.slots 0 t).name = [97] from congrArg Prod.snd same]
    decide
  have spared : Along (step 16) (Spares 0) single visit := by
    refine ⟨trivial,trivial,trivial,fun e found => ?_,trivial,trivial⟩
    have index : (find (answers (step 16) single (visit.take 3)).1.dir.slots [98]).map (·.index) = some 1 := by
      decide +kernel
    have one : some e.index = some 1 := by
      rw [← index]
      exact (congrArg (Option.map Entry.index) found).symm
    rw [some.inj one]
    exact one_ne_zero
  have ended : some .endOfFile ∈ (answers (step 16) single visit).2 := by
    rw [single_visit]
    simp
  have handed : ∀ e ∈ visit, e.Handed := by simp [visit,fair,Event.Handed]
  obtain ⟨once,-,-,-,-,given⟩ := readDir_meets_once 16 single rfl visit 0 t shown plain spared
  exact ⟨once ended,(given handed ended).1⟩

def dotted : Stream := ⟨⟨[shortSlot (46 :: List.replicate 10 32) 0 ⟨true,5,0,0⟩],0⟩,0⟩

/-- A record whose call has a bad pointer is not met again; one called "." is passed over, as it should be. -/
theorem readDir_passes_over : ((scanDir single.dir.slots).map (·.index) = [0] ∧
      (answers (step 16) single [.readDir ⟨none,true,false⟩,.readDir fair]).2 =
        [some (.lost 0 [97]),some .endOfFile]) ∧
    (scanDir dotted.dir.slots).map (·.index) = [0] ∧
      (answers (step 16) dotted [.readDir fair]).2 = [some .endOfFile] := by decide +kernel

end SurfaceOS.Fat.Listing
