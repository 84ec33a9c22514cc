import SurfaceOS.Lib.Memory
import SurfaceOS.Vfs.Open

/-! Reading and writing an open file (fs/fileio.cpp): the data goes through a bounce buffer, a chunk at a
time. At each chunk the driver may do less, or fail, and the user's page may be gone. What a read has
handed out before a chunk that fails is counted in its result, and not in the file's position. -/
namespace SurfaceOS.Vfs
open Lib.Memory Nat

def bounceSize : Nat := 64 * 1024

/-- What a chunk meets: how much the driver does of it, also when it fails, and whether the user's pages
are there. -/
structure Chunk where
  error : Option Errno
  done : Nat
  page : Bool

structure TransferWorld where
  accessible : Bool
  memory : Bool
  chunks : Nat → Chunk

structure OpenFile where
  access : Access
  append : Bool
  isDir : Bool

/-- The file's bytes and size, the user's memory, and the position the call works on; `moved` counts the
bytes that went from one to the other. -/
structure Scene where
  content : Nat → UInt8
  size : Nat
  user : Nat → UInt8
  position : Nat
  moved : Nat

def Chunk.does (c : Chunk) (chunk : Nat) : Nat := min c.done chunk

/-- The loop of `do_read`; the first component is the error of an early return. -/
def readLoop (w : TransferWorld) (buf count : Nat) : Nat → Nat → Nat → Nat → Scene → Option Errno × Nat × Nat × Scene
  | 0, _, total, off, s => (none,total,off,s)
  | fuel + 1, k, total, off, s =>
    if count ≤ total then (none,total,off,s)
    else
      let chunk := min (count - total) bounceSize
      let done := (w.chunks k).does chunk
      match (w.chunks k).error with
      | some e => (some e,total,off,s)
      | none =>
        if done = 0 then (none,total,off,s)
        else if !(w.chunks k).page then (some .efault,total,off,s)
        else
          let s := {s with user := patch s.user (buf + total) (slice s.content off done), moved := s.moved + done}
          if done < chunk then (none,total + done,off + done,s)
          else readLoop w buf count fuel (k + 1) (total + done) (off + done) s

def partly (total : Nat) (e : Errno) : Except Errno Nat := if total ≠ 0 then .ok total else .error e

def doRead (f : OpenFile) (w : TransferWorld) (buf count : Nat) (s : Scene) : Except Errno Nat × Scene :=
  if f.access = .wronly then (.error .ebadf,s)
  else if f.isDir then (.error .eisdir,s)
  else if count = 0 then (.ok 0,s)
  else if !w.accessible then (.error .efault,s)
  else if !w.memory then (.error .enomem,s)
  else match readLoop w buf count count 0 0 s.position s with
    | (some e,total,_,s) => (partly total e,s)
    | (none,total,off,s) => (.ok total,{s with position := off})

def Scene.store (s : Scene) (off : Nat) (xs : List UInt8) : Scene :=
  {s with
    content := patch s.content off xs
    size := if xs = [] then s.size else max s.size (off + xs.length)
    moved := s.moved + xs.length}

def writeLoop (append : Bool) (w : TransferWorld) (buf count : Nat) : Nat → Nat → Nat → Nat → Scene →
    Except Errno Nat × Scene
  | 0, _, total, _, s => (.ok total,s)
  | fuel + 1, k, total, off, s =>
    if count ≤ total then (.ok total,s)
    else
      let chunk := min (count - total) bounceSize
      let done := (w.chunks k).does chunk
      if !(w.chunks k).page then (partly total .efault,s)
      else
        let woff := if append then s.size else off
        let s := s.store woff (slice s.user (buf + total) done)
        match (w.chunks k).error with
        | some e => (partly total e,s)
        | none =>
          if done = 0 then (partly total .eio,s)
          else writeLoop append w buf count fuel (k + 1) (total + done) (off + done) {s with position := woff + done}

def doWrite (f : OpenFile) (w : TransferWorld) (buf count : Nat) (s : Scene) : Except Errno Nat × Scene :=
  if f.access = .rdonly then (.error .ebadf,s)
  else if f.isDir then (.error .eisdir,s)
  else if count = 0 then (.ok 0,s)
  else if !w.accessible then (.error .efault,s)
  else if !w.memory then (.error .enomem,s)
  else writeLoop f.append w buf count count 0 0 s.position s

/-- The `n` bytes a read returns are all that moved, they come from the old position on, and the new one is
their end. -/
def ReadExact (f : OpenFile) (w : TransferWorld) (buf count : Nat) (s : Scene) : Prop :=
  ∀ n t, doRead f w buf count s = (.ok n,t) →
    t.moved = s.moved + n ∧ t.user = patch s.user buf (slice s.content s.position n) ∧ t.content = s.content ∧
    t.position = s.position + n

def OpenFile.start (f : OpenFile) (s : Scene) : Nat := if f.append then s.size else s.position

def WriteExact (f : OpenFile) (w : TransferWorld) (buf count : Nat) (s : Scene) : Prop :=
  ∀ n t, doWrite f w buf count s = (.ok n,t) →
    t.moved = s.moved + n ∧ t.content = patch s.content (f.start s) (slice s.user buf n) ∧ t.user = s.user ∧
    t.position = f.start s + n

def Chunk.Full (c : Chunk) : Prop := c.error = none ∧ bounceSize ≤ c.done ∧ c.page

def Chunk.Fails (c : Chunk) : Prop := c.error ≠ none ∨ c.done ≠ 0 ∧ c.page = false

def OpenFile.Reads (f : OpenFile) (w : TransferWorld) : Prop :=
  f.access ≠ .wronly ∧ f.isDir = false ∧ w.accessible ∧ w.memory

def LateRead (f : OpenFile) (w : TransferWorld) (count : Nat) : Prop :=
  f.Reads w ∧ ∃ k, 0 < k ∧ k * bounceSize < count ∧ (∀ j < k, (w.chunks j).Full) ∧ (w.chunks k).Fails

def OpenFile.Writes (f : OpenFile) (w : TransferWorld) : Prop :=
  f.access ≠ .rdonly ∧ f.isDir = false ∧ w.accessible ∧ w.memory

def TransferWorld.sent (w : TransferWorld) (count : Nat) : Nat → Nat
  | 0 => 0
  | k + 1 => w.sent count k + (w.chunks k).does (min (count - w.sent count k) bounceSize)

def Chunk.Gets (c : Chunk) : Prop := c.page ∧ c.error = none ∧ c.done ≠ 0

/-- After chunks that went the driver fails with a part of the next in the file. -/
def LateWrite (f : OpenFile) (w : TransferWorld) (count : Nat) : Prop :=
  f.Writes w ∧ ∃ k, 0 < k ∧ w.sent count k < count ∧ (∀ j < k, (w.chunks j).Gets) ∧ (w.chunks k).page ∧
    (w.chunks k).error ≠ none ∧ (w.chunks k).done ≠ 0

def EmptyAppend (f : OpenFile) (count : Nat) (s : Scene) : Prop :=
  f.access ≠ .rdonly ∧ f.isDir = false ∧ count = 0 ∧ f.append ∧ s.position ≠ s.size

section
variable {f : OpenFile} {w : TransferWorld} {buf count : Nat}

def Scene.received (s : Scene) (buf n : Nat) : Scene :=
  {s with user := patch s.user buf (slice s.content s.position n), moved := s.moved + n}

theorem received_zero (s : Scene) (buf : Nat) : s.received buf 0 = s := by
  simp [Scene.received,slice]

theorem received_add (s : Scene) (buf n k : Nat) : {s.received buf n with
    user := patch (s.received buf n).user (buf + n) (slice (s.received buf n).content (s.position + n) k)
    moved := (s.received buf n).moved + k} = s.received buf (n + k) := by
  have joined := patch_append s.user buf (slice s.content s.position n) (slice s.content (s.position + n) k)
  rw [slice_length,← slice_add] at joined
  simp only [Scene.received,joined,add_assoc]

theorem does_eq_zero {c : Chunk} {chunk : Nat} (some : 0 < chunk) : c.does chunk = 0 ↔ c.done = 0 := by
  unfold Chunk.does
  omega

theorem readLoop_done {fuel k total off : Nat} {s : Scene} (all : count ≤ total) :
    readLoop w buf count fuel k total off s = (none,total,off,s) := by
  cases fuel with
  | zero => rfl
  | succ fuel =>
    unfold readLoop
    rw [if_pos all]

theorem readLoop_spec (s : Scene) (fuel k : Nat) (enough : count ≤ fuel + k * bounceSize) :
    (∃ n, readLoop w buf count fuel k (k * bounceSize) (s.position + k * bounceSize)
        (s.received buf (k * bounceSize)) = (none,n,s.position + n,s.received buf n) ∧
      ∀ i, k ≤ i → i * bounceSize < count → (∀ j, k ≤ j → j < i → (w.chunks j).Full) → ¬ (w.chunks i).Fails) ∨
    ∃ e i, readLoop w buf count fuel k (k * bounceSize) (s.position + k * bounceSize)
        (s.received buf (k * bounceSize)) = (some e,i * bounceSize,s.position + i * bounceSize,
        s.received buf (i * bounceSize)) ∧
      k ≤ i ∧ i * bounceSize < count ∧ (∀ j, k ≤ j → j < i → (w.chunks j).Full) ∧ (w.chunks i).Fails := by
  have step (k i : Nat) (beyond : k < i) : k * bounceSize + bounceSize ≤ i * bounceSize := by
    have := mul_le_mul_right bounceSize (succ_le_of_lt beyond)
    rwa [succ_mul] at this
  have positive : 0 < bounceSize := by decide
  induction fuel generalizing k with
  | zero =>
    refine .inl ⟨_,rfl,fun i later below _ _ => ?_⟩
    have := mul_le_mul_right bounceSize later
    omega
  | succ fuel ih =>
    by_cases all : count ≤ k * bounceSize
    · rw [readLoop_done all]
      refine .inl ⟨_,rfl,fun i later below _ _ => ?_⟩
      have := mul_le_mul_right bounceSize later
      omega
    unfold readLoop
    rw [if_neg all]
    generalize size : min (count - k * bounceSize) bounceSize = chunk
    have some : 0 < chunk := by omega
    -- when the loop ends at chunk `k`, and it is sound, no later one is reached
    have final (sound : ¬ (w.chunks k).Fails)
        (ends : ∀ i, k < i → i * bounceSize < count → ¬ (w.chunks k).Full) (i : Nat) (later : k ≤ i)
        (below : i * bounceSize < count) (full : ∀ j, k ≤ j → j < i → (w.chunks j).Full) : ¬ (w.chunks i).Fails := by
      rcases eq_or_lt_of_le later with rfl | beyond
      · exact sound
      · exact (ends i beyond below (full k (le_refl k) beyond)).elim
    dsimp only
    cases error : (w.chunks k).error with
    | some e =>
      refine .inr ⟨e,k,rfl,le_refl k,by omega,fun j low high => by omega,.inl ?_⟩
      rw [error]
      exact nofun
    | none =>
      by_cases nothing : (w.chunks k).does chunk = 0
      · rw [if_pos nothing]
        have none := (does_eq_zero some).mp nothing
        refine .inl ⟨_,rfl,final ?_ fun _ _ _ full => ?_⟩
        · rintro (failed | ⟨bytes,-⟩)
          · exact failed error
          · exact bytes none
        · have := full.2.1
          omega
      · rw [if_neg nothing]
        cases page : (w.chunks k).page with
        | false =>
          refine .inr ⟨.efault,k,rfl,le_refl k,by omega,fun j low high => by omega,.inr ⟨fun none => ?_,page⟩⟩
          exact nothing ((does_eq_zero some).mpr none)
        | true =>
          have sound : ¬ (w.chunks k).Fails := by
            rintro (failed | ⟨-,gone⟩)
            · exact failed error
            · rw [page] at gone
              cases gone
          rw [received_add,add_assoc s.position]
          by_cases short : (w.chunks k).does chunk < chunk
          · rw [if_pos short]
            refine .inl ⟨_,rfl,final sound fun _ _ _ full => ?_⟩
            have := full.2.1
            unfold Chunk.does at short
            omega
          rw [if_neg short]
          have whole : (w.chunks k).does chunk = chunk := by
            unfold Chunk.does at short ⊢
            omega
          rw [whole]
          by_cases rest : bounceSize ≤ count - k * bounceSize
          · obtain rfl : chunk = bounceSize := by omega
            have full : (w.chunks k).Full := ⟨error,by unfold Chunk.does at whole; omega,page⟩
            rw [← succ_mul]
            rcases ih (k + 1) (by rw [succ_mul]; omega) with
              ⟨n,ends,later⟩ | ⟨e,i,ends,high,below,before,fails⟩
            · refine .inl ⟨n,ends,fun i low below before => ?_⟩
              rcases eq_or_lt_of_le low with rfl | beyond
              · exact sound
              · exact later i beyond below fun j high => before j (by omega)
            refine .inr ⟨e,i,ends,by omega,below,fun j low high => ?_,fails⟩
            rcases eq_or_lt_of_le low with rfl | beyond
            · exact full
            · exact before j beyond high
          · rw [readLoop_done (by omega)]
            refine .inl ⟨_,rfl,final sound fun i beyond below => ?_⟩
            have := step k i beyond
            omega

def Scene.wrote (s : Scene) (start buf n : Nat) : Scene :=
  {s.store start (slice s.user buf n) with position := if n = 0 then s.position else start + n}

theorem wrote_zero (s : Scene) (start buf : Nat) : s.wrote start buf 0 = s := by
  simp [Scene.wrote,Scene.store,slice]

theorem slice_eq_nil {m : Nat → UInt8} {a n : Nat} : slice m a n = [] ↔ n = 0 := by
  rw [← List.length_eq_zero_iff,slice_length]

theorem store_wrote (s : Scene) (start buf n k : Nat) :
    (s.wrote start buf n).store (start + n) (slice (s.wrote start buf n).user (buf + n) k) =
      {s.wrote start buf (n + k) with position := (s.wrote start buf n).position} := by
  have joined := patch_append s.content start (slice s.user buf n) (slice s.user (buf + n) k)
  rw [slice_length,← slice_add] at joined
  simp only [Scene.wrote,Scene.store,joined,slice_length,slice_eq_nil,Scene.mk.injEq,true_and]
  split <;> split <;> split <;> omega

theorem wrote_end (s : Scene) (buf n : Nat) :
    (if f.append then (s.wrote (f.start s) buf n).size else s.position + n) = f.start s + n := by
  unfold OpenFile.start
  cases f.append with
  | false => rfl
  | true =>
    simp only [if_true,Scene.wrote,Scene.store,slice_length,slice_eq_nil]
    split <;> omega

theorem sent_mono (w : TransferWorld) (count : Nat) {j i : Nat} (before : j ≤ i) : w.sent count j ≤ w.sent count i := by
  induction before with
  | refl => exact Nat.le_refl _
  | step _ ih => exact Nat.le_trans ih (Nat.le_add_right ..)

/-- The driver fails at chunk `i`, after chunks from `k` on that went, with a part of it in the file. -/
structure Breaks (w : TransferWorld) (count k i : Nat) : Prop where
  below : w.sent count i < count
  before : ∀ j, k ≤ j → j < i → (w.chunks j).Gets
  page : (w.chunks i).page
  error : (w.chunks i).error ≠ none
  part : (w.chunks i).done ≠ 0

theorem Breaks.after {k i : Nat} (breaks : Breaks w count k i) : Breaks w count (k + 1) i :=
  ⟨breaks.below,fun j low => breaks.before j (by omega),breaks.page,breaks.error,breaks.part⟩

theorem writeLoop_spec (some : 0 < count) (s : Scene) (fuel k : Nat) (enough : count ≤ fuel + w.sent count k) :
    (∃ r m, writeLoop f.append w buf count fuel k (w.sent count k) (s.position + w.sent count k)
        (s.wrote (f.start s) buf (w.sent count k)) = (r,s.wrote (f.start s) buf m) ∧
      (r = .ok m ∧ m ≠ 0 ∨ ∃ e, r = .error e) ∧ ∀ i, k ≤ i → ¬ Breaks w count k i) ∨
    ∃ e i more, writeLoop f.append w buf count fuel k (w.sent count k) (s.position + w.sent count k)
        (s.wrote (f.start s) buf (w.sent count k)) = (partly (w.sent count i) e,
          {s.wrote (f.start s) buf (w.sent count i + more) with
            position := (s.wrote (f.start s) buf (w.sent count i)).position}) ∧
      0 < more ∧ k ≤ i ∧ Breaks w count k i := by
  have counted (n : Nat) (e : Errno) : partly n e = .ok n ∧ n ≠ 0 ∨ ∃ e', partly n e = .error e' := by
    unfold partly
    split
    · next some => exact .inl ⟨rfl,some⟩
    · exact .inr ⟨e,rfl⟩
  have whole {k i : Nat} (all : count ≤ w.sent count k) (later : k ≤ i) : ¬ Breaks w count k i := by
    intro breaks
    have := sent_mono w count later
    have := breaks.below
    omega
  induction fuel generalizing k with
  | zero =>
    exact .inl ⟨.ok (w.sent count k),_,rfl,.inl ⟨rfl,by omega⟩,fun i => whole (by omega)⟩
  | succ fuel ih =>
    unfold writeLoop
    split
    · next all => exact .inl ⟨_,_,rfl,.inl ⟨rfl,by omega⟩,fun i => whole all⟩
    dsimp only
    have positive : 0 < min (count - w.sent count k) bounceSize := by
      have : 0 < bounceSize := by decide
      omega
    -- a chunk that does not get through is the last
    have last (stops : ¬ (w.chunks k).Gets) (sound : ¬ Breaks w count k k) (i : Nat) (later : k ≤ i) :
        ¬ Breaks w count k i := by
      rcases eq_or_lt_of_le later with rfl | beyond
      · exact sound
      · exact fun breaks => stops (breaks.before k (le_refl k) beyond)
    cases page : (w.chunks k).page with
    | false =>
      refine .inl ⟨_,_,rfl,counted _ _,last (fun gets => ?_) fun breaks => ?_⟩
      · exact absurd gets.1 (by simp [page])
      · exact absurd breaks.page (by simp [page])
    | true =>
      rw [wrote_end,store_wrote,add_assoc s.position]
      have next : w.sent count k + (w.chunks k).does (min (count - w.sent count k) bounceSize) =
        w.sent count (k + 1) := rfl
      by_cases nothing : (w.chunks k).done = 0
      · have zero := (does_eq_zero positive).mpr nothing
        have stops : ¬ (w.chunks k).Gets := fun gets => gets.2.2 nothing
        have sound : ¬ Breaks w count k k := fun breaks => breaks.part nothing
        rw [zero]
        cases (w.chunks k).error with
        | some e => exact .inl ⟨_,_,rfl,counted _ _,last stops sound⟩
        | none => exact .inl ⟨_,_,rfl,counted _ _,last stops sound⟩
      · have gets := (does_eq_zero positive).not.mpr nothing
        rw [if_neg gets]
        cases error : (w.chunks k).error with
        | some e =>
          refine .inr ⟨e,k,_,rfl,by omega,le_refl k,by omega,fun j low high => by omega,page,?_,nothing⟩
          rw [error]
          exact nofun
        | none =>
          have moved : {s.wrote (f.start s) buf (w.sent count (k + 1)) with
              position := f.start s + w.sent count (k + 1)} = s.wrote (f.start s) buf (w.sent count (k + 1)) := by
            have : w.sent count (k + 1) ≠ 0 := by omega
            simp [Scene.wrote,this]
          rw [add_assoc (f.start s),next,moved]
          rcases ih (k + 1) (by omega) with ⟨r,m,ends,result,sound⟩ | ⟨e,i,more,ends,extra,high,breaks⟩
          · refine .inl ⟨r,m,ends,result,fun i low breaks => ?_⟩
            rcases eq_or_lt_of_le low with rfl | beyond
            · exact breaks.error error
            · exact sound i beyond (breaks.after)
          refine .inr ⟨e,i,more,ends,extra,by omega,breaks.below,fun j low high => ?_,breaks.page,breaks.error,
            breaks.part⟩
          rcases eq_or_lt_of_le low with rfl | beyond
          · exact ⟨page,error,nothing⟩
          · exact breaks.before j beyond high

section
variable (f) (w) (buf count)

theorem read_exact_iff (s : Scene) :
    ReadExact f w buf count s ↔ ¬ LateRead f w count := by
  unfold ReadExact doRead
  split
  · next closed => exact ⟨fun _ late => late.1.1 closed,fun _ n t done => by cases done⟩
  split
  · next folder => exact ⟨fun _ late => by simp [late.1.2.1] at folder,fun _ n t done => by cases done⟩
  split
  · next empty =>
    constructor
    · rintro _ ⟨-,k,-,below,-⟩
      omega
    · intro _ n t done
      cases done
      simp [slice]
  split
  · next gone => exact ⟨fun _ late => by simp [late.1.2.2.1] at gone,fun _ n t done => by cases done⟩
  split
  · next out => exact ⟨fun _ late => by simp [late.1.2.2.2] at out,fun _ n t done => by cases done⟩
  rename_i opened file _ there memory
  have begun : f.access ≠ .wronly ∧ f.isDir = false ∧ w.accessible ∧ w.memory :=
    ⟨opened,by simpa using file,by simpa using there,by simpa using memory⟩
  have ran := @readLoop_spec w buf count s count 0 (Nat.le_add_right ..)
  simp only [Nat.zero_mul,Nat.add_zero,received_zero] at ran
  rcases ran with ⟨n,ends,sound⟩ | ⟨e,i,ends,-,below,full,fails⟩
  · rw [ends]
    refine iff_of_true ?_ fun late => ?_
    · intro m t done
      cases done
      exact ⟨rfl,rfl,rfl,rfl⟩
    · obtain ⟨-,k,-,below,full,fails⟩ := late
      exact sound k (Nat.zero_le k) below (fun j _ => full j) fails
  rw [ends]
  dsimp only
  rcases Nat.eq_zero_or_pos i with rfl | later
  · -- nothing was read before it
    refine iff_of_true (fun m t done => ?_) fun late => ?_
    · simp [partly] at done
    obtain ⟨-,k,positive,-,full,-⟩ := late
    have first := full 0 positive
    rcases fails with failed | ⟨_,gone⟩
    · exact failed first.1
    · rw [first.2.2] at gone
      cases gone
  · refine iff_of_false (fun exact => ?_) (not_not_intro ⟨begun,i,later,below,fun j => full j (Nat.zero_le j),fails⟩)
    have some : i * bounceSize ≠ 0 := Nat.mul_ne_zero (by omega) (by decide)
    obtain ⟨-,-,-,stays⟩ := exact _ _ (by rw [partly,if_pos some])
    simp only [Scene.received] at stays
    omega

theorem write_exact_iff (s : Scene) :
    WriteExact f w buf count s ↔ ¬ (LateWrite f w count ∨ EmptyAppend f count s) := by
  unfold WriteExact doWrite EmptyAppend
  split
  · next closed =>
    refine iff_of_true (fun n t done => by cases done) ?_
    rintro (late | empty)
    · exact late.1.1 closed
    · exact empty.1 closed
  rename_i opened
  split
  · next folder =>
    refine iff_of_true (fun n t done => by cases done) ?_
    rintro (late | empty)
    · simp [late.1.2.1] at folder
    · simp [empty.2.1] at folder
  rename_i file
  have file : f.isDir = false := by simpa using file
  split
  · next empty =>
    refine ⟨fun exact => ?_,fun sound n t done => ?_⟩
    · obtain ⟨-,-,-,stays⟩ := exact 0 s rfl
      rintro (⟨-,k,-,below,-⟩ | ⟨-,-,-,append,away⟩)
      · omega
      · simp [OpenFile.start,append] at stays
        exact away stays
    cases done
    refine ⟨rfl,by simp [slice],rfl,?_⟩
    by_contra away
    refine sound (.inr ⟨opened,file,empty,?_⟩)
    unfold OpenFile.start at away
    split at away
    · next append => exact ⟨append,away⟩
    · exact absurd rfl away
  · next some =>
    have never : ¬ (f.access ≠ .rdonly ∧ f.isDir = false ∧ count = 0 ∧ f.append ∧ s.position ≠ s.size) :=
      fun empty => some empty.2.2.1
    rw [or_iff_left never]
    split
    · next gone => exact iff_of_true (fun n t done => by cases done) fun late => by simp [late.1.2.2.1] at gone
    split
    · next out => exact iff_of_true (fun n t done => by cases done) fun late => by simp [late.1.2.2.2] at out
    rename_i there memory
    have begun : f.access ≠ .rdonly ∧ f.isDir = false ∧ w.accessible ∧ w.memory :=
      ⟨opened,file,by simpa using there,by simpa using memory⟩
    have ran := @writeLoop_spec f w buf count (by omega) s count 0 (Nat.le_add_right ..)
    simp only [TransferWorld.sent,Nat.add_zero,wrote_zero] at ran
    rcases ran with ⟨r,m,ends,result,sound⟩ | ⟨e,i,more,ends,extra,-,breaks⟩
    · rw [ends]
      refine iff_of_true (fun n t done => ?_) fun late => ?_
      · cases done
        rcases result with ⟨same,something⟩ | ⟨e,failed⟩
        · cases same
          exact ⟨by simp [Scene.wrote,Scene.store],rfl,rfl,by simp [Scene.wrote,something]⟩
        · cases failed
      · obtain ⟨-,k,-,below,before,page,error,part⟩ := late
        exact sound k (Nat.zero_le k) ⟨below,fun j _ => before j,page,error,part⟩
    · rw [ends]
      rcases Nat.eq_zero_or_pos i with rfl | later
      · refine iff_of_true (fun n t done => ?_) fun late => ?_
        · simp [partly,TransferWorld.sent] at done
        · obtain ⟨-,k,positive,-,before,-⟩ := late
          exact breaks.error (before 0 positive).2.1
      refine iff_of_false (fun exact => ?_) (not_not_intro ⟨begun,i,later,breaks.below,
        fun j => breaks.before j (Nat.zero_le j),breaks.page,breaks.error,breaks.part⟩)
      have first := breaks.before 0 (Nat.le_refl 0) later
      have something : w.sent count i ≠ 0 := by
        have grown := sent_mono w count (show 1 ≤ i from later)
        have done : w.sent count 1 ≠ 0 := by
          have positive : 0 < min (count - 0) bounceSize := by
            have : 0 < bounceSize := by decide
            omega
          have := (does_eq_zero positive).not.mpr first.2.2
          simpa [TransferWorld.sent] using this
        omega
      obtain ⟨moved,-⟩ := exact _ _ (by rw [partly,if_pos something])
      simp [Scene.wrote,Scene.store] at moved
      omega

end

end

/-- A read is exact unless a chunk fails after whole ones, a write unless the driver breaks off inside a
later chunk, or nothing is appended. -/
theorem transfer_exact_iff (f : OpenFile) (w : TransferWorld) (buf count : Nat) (s : Scene) :
    (ReadExact f w buf count s ↔ ¬ LateRead f w count) ∧
    (WriteExact f w buf count s ↔ ¬ (LateWrite f w count ∨ EmptyAppend f count s)) :=
  ⟨read_exact_iff f w buf count s,write_exact_iff f w buf count s⟩

def secondFails : TransferWorld where
  accessible := true
  memory := true
  chunks k := if k = 0 then ⟨none,bounceSize,true⟩ else ⟨some .eio,0,true⟩

/-- A read of two buffers: the first is handed out and counted, and the position stays. -/
theorem not_every_transfer_exact : ¬ ∀ f w buf count s, ReadExact f w buf count s ∧ WriteExact f w buf count s := by
  intro always
  have exact := (always ⟨.rdonly,false,false⟩ secondFails 0 (2 * bounceSize) ⟨fun _ => 0,0,fun _ => 0,0,0⟩).1
  refine (read_exact_iff _ _ _ _ _).mp exact ⟨⟨by decide,rfl,rfl,rfl⟩,1,one_pos,by decide,fun j first => ?_,.inl ?_⟩
  · obtain rfl : j = 0 := by omega
    exact ⟨rfl,le_refl _,rfl⟩
  · exact nofun

end SurfaceOS.Vfs
