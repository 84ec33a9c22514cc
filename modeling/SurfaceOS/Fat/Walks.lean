import SurfaceOS.Fat.Calls
import SurfaceOS.Fat.DirScan
import SurfaceOS.Fat.Slots
import SurfaceOS.Fat.Vnodes
import SurfaceOS.Lib.Loop

/-! The loops that follow links on the disk, as the source has them: `scan_dir` and `reserve_run`
without a bound, `free_chain`, `remove` and the way up of `dir_contains` with theirs. A directory
whose chain runs in a circle is walked for ever unless something in its slots stops the walk. -/
namespace SurfaceOS.Fat.Walks
open Lib Lib.Memory Function List Option Nat Fatdir

variable {d n need c first guard last : Nat} {a next : α} {sc : Lfn} {slots : List Slot} {io : Io} {α β : Type}

section
variable (sb : Super) {α β : Type}

def follows (v : Vol) (c : Nat) : Except Errno (Option Nat) :=
  match readEntry sb v c with
  | .error e => .error e
  | .ok next => .ok (if next < 2 ∨ next ≥ clusterEoc then none else some next)

inductive Walked (α β : Type)
  | stopped (b : β)
  | ended (a : α)
  | failed (e : Errno)

def turn (v : Vol) (see : α → Slot → β ⊕ α) (s : Nat × α) : (Nat × α) ⊕ Walked α β :=
  match sweep see s.2 (slotsOf sb v.disk [s.1]) with
  | .inl b => .inr (.stopped b)
  | .inr a => match follows sb v s.1 with
    | .error e => .inr (.failed e)
    | .ok none => .inr (.ended a)
    | .ok (some next) => .inl (next,a)

def look (stops : Entry → Bool) (a : Lfn × Nat) (s : Slot) : Option Entry ⊕ (Lfn × Nat) :=
  let e : Entry := ⟨a.2,s,a.1.matching s.name11⟩
  if s.isEnd then .inl none
  else if s.isRecord ∧ stops e then .inl (some e)
  else .inr (a.1.pass s,a.2 + 1)

def Walked.result : Walked α (Option Entry) → Except Errno (Option Entry)
  | .stopped e => .ok e
  | .ended _ => .ok none
  | .failed e => .error e

def scanDir (v : Vol) (first : Nat) (stops : Entry → Bool) (fuel : Nat) : Option (Except Errno (Option Entry)) :=
  if first < 2 then some (.error .einval)
  else (loop (turn sb v (look stops)) fuel (first,.empty,0)).map Walked.result

def find (v : Vol) (dir : Nat) (name : Name) : Nat → Option (Except Errno (Option Entry)) :=
  scanDir sb v dir (·.answers name)

def nextRecord (v : Vol) (dir cookie : Nat) : Nat → Option (Except Errno (Option Entry)) :=
  scanDir sb v dir (cookie ≤ ·.index)

def existsShort (v : Vol) (dir : Nat) (name11 : List UInt8) (fuel : Nat) : Option (Except Errno Bool) :=
  (scanDir sb v dir (·.slot.name11 == name11) fuel).map (·.map Option.isSome)

def listing (v : Vol) (dir : Nat) : Nat → Nat → Option (Except Errno (List Entry))
  | _, 0 => none
  | cookie, fuel + 1 => (nextRecord sb v dir cookie (fuel + 1)).bind fun
    | .error e => some (.error e)
    | .ok none => some (.ok [])
    | .ok (some e) => (listing v dir (e.index + 1) fuel).map (·.map (e :: ·))

def seek (need : Nat) (a : Nat × Nat × Nat) (s : Slot) : Nat ⊕ (Nat × Nat × Nat) :=
  if s.isFree then
    let start := if a.2.1 = 0 then a.1 else a.2.2
    if a.2.1 + 1 ≥ need then .inl start else .inr (a.1 + 1,a.2.1 + 1,start)
  else .inr (a.1 + 1,0,a.2.2)

def reserveRun (need : Nat) : Io → Nat → Option (Except Errno Nat × Io)
  | _, 0 => none
  | io, fuel + 1 => (loop (turn sb io.vol (seek need)) (fuel + 1) (io.node.firstCluster,0,0,0)).bind fun
    | .stopped start => some (.ok start,io)
    | .failed e => some (.error e,io)
    | .ended _ => match Fatdir.growDir sb io with
      | (.error e,io) => some (.error e,io)
      | (.ok _,io) => reserveRun need io fuel

def numberLoop (v : Vol) (dir : Nat) (alias11 : List UInt8) : Nat → Nat → Nat → Option (Except Errno (List UInt8))
  | 0, _, _ => some (.error .eexist)
  | left + 1, n, fuel =>
    if (suffix n).length > 7 then some (.error .enametoolong)
    else (existsShort sb v dir (numbered alias11 n) fuel).bind fun
      | .error e => some (.error e)
      | .ok true => numberLoop v dir alias11 left (n + 1) fuel
      | .ok false => some (.ok (numbered alias11 n))

def chooseShort (v : Vol) (dir : Nat) (short : Short) (fuel : Nat) : Option (Except Errno (List UInt8)) :=
  if short.needsLfn then numberLoop sb v dir short.name11 999999 1 fuel
  else (existsShort sb v dir short.name11 fuel).bind fun
    | .error e => some (.error e)
    | .ok true => some (.error .eexist)
    | .ok false => some (.ok short.name11)

/-- The end of `create`: room for the record's slots, which are then written. -/
def createRecord (io : Io) (units : List Nat) (count : Nat) (name11 : List UInt8) (flags : UInt8) (new : Fresh)
    (fuel : Nat) : Option (Except Errno Fatdir.Created × Io) :=
  (reserveRun sb (count + 1) io fuel).bind fun
    | (.error e,io) => some (.error e,io)
    | (.ok start,io) => match storeAll sb io (newSlots units count name11 flags new start) (0,0) with
      | (.error e,io) => some (.error e,io)
      | (.ok spot,io) => some (.ok ⟨start + count,spot⟩,io)

def create (io : Io) (name : Name) (new : Fresh) (fuel : Nat) : Option (Except Errno Fatdir.Created × Io) :=
  if !validName name then some (.error .einval,io)
  else (find sb io.vol io.node.firstCluster name fuel).bind fun
    | .error e => some (.error e,io)
    | .ok (some _) => some (.error .eexist,io)
    | .ok none =>
      let units := utf8ToUcs2 nameMax name
      let short := makeShortName name
      (chooseShort sb io.vol io.node.firstCluster short fuel).bind fun
        | .error e => some (.error e,io)
        | .ok name11 =>
          let count := if short.needsLfn then slotsFor units.length else 0
          if count > maxLfnEntries then some (.error .enametoolong,io)
          else createRecord sb io units count name11 (if short.needsLfn then 0 else short.ntFlags) new fuel

def removeTurn (sum : UInt8) (s : Io × Nat) : (Io × Nat) ⊕ Io :=
  if s.2 ≥ 1 then
    match slotLocation sb s.1 (s.2 - 1) with
    | .error _ => .inr s.1
    | .ok (spot,io) =>
      let raw := load io.vol.disk spot
      if raw.isLfn ∧ raw 0 ≠ 0xE5 ∧ raw.checksum = sum then .inl (put io spot (freed raw),s.2 - 1)
      else .inr io
  else .inr s.1

def remove (io : Io) (index fuel : Nat) : Option (Except Errno Unit × Io) :=
  match slotLocation sb io index with
  | .error e => some (.error e,io)
  | .ok (spot,io) =>
    let e := load io.vol.disk spot
    if e.isFree then some (.error .enoent,io)
    else (loop (removeTurn sb (shortChecksum e.name11)) fuel (put io spot (freed e),index)).map
      fun io => (.ok (),io)

/-- The loop of `free_chain` with its guard. -/
def freeTurn (s : Vol × Nat × Nat) : (Vol × Nat × Nat) ⊕ (Except Errno Unit × Vol) :=
  if s.2.1 ≥ 2 ∧ s.2.1 < clusterEoc then
    if s.2.2 + 1 > sb.totalClusters + 2 then .inr (.error .eio,s.1)
    else match readEntry sb s.1 s.2.1 with
      | .error e => .inr (.error e,s.1)
      | .ok next => match writeEntry sb s.1 s.2.1 clusterFree with
        | .error e => .inr (.error e,s.1)
        | .ok v => .inl (v.gaveBack,next,s.2.2 + 1)
  else .inr (.ok (),s.1)

def freeChain (v : Vol) (firstCluster fuel : Nat) : Option (Except Errno Unit × Vol) :=
  loop (freeTurn sb) fuel (v,firstCluster,0)

/-- The loop of `dir_contains` with its guard. -/
def upTurn (v : Vol) (ancestor : Nat) (s : Nat × Nat) : (Nat × Nat) ⊕ Except Errno Bool :=
  if s.1 = ancestor then .inr (.ok true)
  else if s.1 = sb.rootCluster then .inr (.ok false)
  else if Mounted.dotdotCluster sb v s.1 = s.1 then .inr (.ok false)
  else if s.2 + 1 > sb.totalClusters then .inr (.error .eio)
  else .inl (Mounted.dotdotCluster sb v s.1,s.2 + 1)

def dirContains (v : Vol) (ancestor child fuel : Nat) : Option (Except Errno Bool) :=
  loop (upTurn sb v ancestor) fuel (child,0)

def clusters (v : Vol) : Nat → Nat → List Nat
  | 0, _ => []
  | n + 1, c => c :: match follows sb v c with
    | .ok (some next) => clusters v n next
    | _ => []

def pathAt (v : Vol) : Nat → Nat → Option Nat
  | 0, c => some c
  | n + 1, c => match follows sb v c with
    | .ok (some next) => pathAt v n next
    | _ => none

def Ends (v : Vol) (c : Nat) : Prop := ∃ n, pathAt sb v n c = none

def Marked (v : Vol) (c : Nat) : Prop := ∃ n, ∃ s ∈ slotsOf sb v.disk (clusters sb v n c), s.isEnd

def Roomy (v : Vol) (c need : Nat) : Prop :=
  ∃ n start, RunAt (slotsOf sb v.disk (clusters sb v n c)) need start

end

section
variable {sb : Super} {v : Vol} {α β : Type} {see : α → Slot → β ⊕ α}

theorem slotsOf_cons (disk : Disk) (c : Nat) (rest : List Nat) :
    slotsOf sb disk (c :: rest) = slotsOf sb disk [c] ++ slotsOf sb disk rest := by
  unfold slotsOf
  rw [flatMap_cons,flatMap_cons,flatMap_nil,append_nil]

theorem walk_stopped {a : α} {b : β} : loop (turn sb v see) n (c,a) = some (.stopped b) ↔
      sweep see a (slotsOf sb v.disk (clusters sb v n c)) = .inl b := by
  induction n generalizing c a with
  | zero => exact ⟨nofun,nofun⟩
  | succ n ih =>
    rw [clusters,slotsOf_cons,sweep_append,loop,turn]
    cases sweep see a (slotsOf sb v.disk [c]) with
    | inl d => exact ⟨fun same => by cases same; rfl,fun same => by cases same; rfl⟩
    | inr next =>
      cases follows sb v c with
      | error e => exact ⟨nofun,nofun⟩
      | ok following =>
        cases following with
        | none => exact ⟨nofun,nofun⟩
        | some d => exact ih

theorem walk_goes {a next : α} (path : pathAt sb v n c = some d)
    (passes : sweep see a (slotsOf sb v.disk (clusters sb v n c)) = .inr next) (m : Nat) :
    loop (turn sb v see) (n + m) (c,a) = loop (turn sb v see) m (d,next) := by
  induction n generalizing c a with
  | zero =>
    cases path
    cases passes
    rw [zero_add]
  | succ n ih =>
    rw [clusters,slotsOf_cons,sweep_append] at passes
    rw [show n + 1 + m = n + m + 1 by omega,loop,turn]
    unfold pathAt at path
    cases first : sweep see a (slotsOf sb v.disk [c]) with
    | inl b =>
      rw [first] at passes
      cases passes
    | inr middle =>
      split at path
      · next e link =>
        rw [first,link] at passes
        rw [link]
        exact ih path passes
      · cases path

theorem walk_ends (path : pathAt sb v n c = none) (a : α) : ∃ w, loop (turn sb v see) n (c,a) = some w := by
  induction n generalizing c a with
  | zero => cases path
  | succ n ih =>
    rw [loop,turn]
    unfold pathAt at path
    cases sweep see a (slotsOf sb v.disk [c]) with
    | inl b => exact ⟨_,rfl⟩
    | inr next =>
      cases link : follows sb v c with
      | error e => exact ⟨_,rfl⟩
      | ok following =>
        rw [link] at path
        cases following with
        | none => exact ⟨_,rfl⟩
        | some d => exact ih path next

/-- Along a chain that never ends a walk halts just when a sweep over the slots it passes stops. -/
theorem walk_halts_iff (endless : ¬ Ends sb v c) (a : α) :
    Halts (fun fuel => loop (turn sb v see) fuel (c,a)) ↔
      ∃ n b, sweep see a (slotsOf sb v.disk (clusters sb v n c)) = .inl b := by
  constructor
  · intro halts
    obtain ⟨n,w,ran⟩ := halts.ran
    cases swept : sweep see a (slotsOf sb v.disk (clusters sb v n c)) with
    | inl b => exact ⟨n,b,swept⟩
    | inr next =>
      obtain ⟨d,path⟩ := ne_none_iff_exists'.mp fun closes => endless ⟨n,closes⟩
      have running := walk_goes path swept 0
      rw [add_zero,ran] at running
      cases running
  · rintro ⟨n,b,stops⟩
    exact ⟨_,loop_halts (walk_stopped.mpr stops)⟩

theorem Ends.halts (ends : Ends sb v c) (a : α) : Halts fun fuel => loop (turn sb v see) fuel (c,a) := by
  obtain ⟨n,closes⟩ := ends
  obtain ⟨w,ran⟩ := walk_ends closes a
  exact ⟨w,loop_halts ran⟩

end

/-! The bounded loops give what the functions of the model give. -/

section
variable (sb : Super)

theorem freeChain_halts (v : Vol) (c : Nat) : HaltsWith (freeChain sb v c) (Fat.freeChain sb v c) := by
  have runs : ∀ guard v c, guard ≤ sb.totalClusters + 2 →
      loop (freeTurn sb) (guard + 1) (v,c,sb.totalClusters + 2 - guard) = some (freeLoop sb guard v c) := by
    intro guard
    induction guard with
    | zero =>
      intro v c _
      rw [loop,freeTurn,freeLoop]
      dsimp only
      by_cases inside : c ≥ 2 ∧ c < clusterEoc
      · rw [if_pos inside,if_pos (by omega),if_pos inside]
      · rw [if_neg inside,if_neg inside]
    | succ guard ih =>
      intro v c bound
      rw [loop,freeTurn,freeLoop]
      dsimp only
      by_cases inside : c ≥ 2 ∧ c < clusterEoc
      · rw [if_pos inside,if_neg (by omega),if_pos inside]
        cases readEntry sb v c with
        | error e => rfl
        | ok next =>
          cases writeEntry sb v c clusterFree with
          | error e => rfl
          | ok w =>
            rw [show sb.totalClusters + 2 - (guard + 1) + 1 = sb.totalClusters + 2 - guard by omega]
            exact ih _ _ (by omega)
      · rw [if_neg inside,if_neg inside]
  have whole := runs (sb.totalClusters + 2) v c (le_refl _)
  rw [Nat.sub_self] at whole
  exact loop_halts whole

theorem dirContains_halts (v : Vol) (ancestor child : Nat) :
    HaltsWith (dirContains sb v ancestor child) (Mounted.dirContains sb v ancestor sb.totalClusters child) := by
  have runs : ∀ guard cur, guard ≤ sb.totalClusters →
      loop (upTurn sb v ancestor) (guard + 1) (cur,sb.totalClusters - guard) =
        some (Mounted.dirContains sb v ancestor guard cur) := by
    intro guard
    induction guard with
    | zero =>
      intro cur _
      rw [loop,upTurn,Mounted.dirContains]
      split_ifs with here top stuck late
      · rfl
      · rfl
      · rfl
      · rfl
      · omega
    | succ guard ih =>
      intro cur bound
      rw [loop,upTurn,Mounted.dirContains]
      split_ifs with here top stuck late
      · rfl
      · rfl
      · rfl
      · omega
      · dsimp only
        rw [show sb.totalClusters - (guard + 1) + 1 = sb.totalClusters - guard by omega]
        exact ih _ (by omega)
  have whole := runs sb.totalClusters child (le_refl _)
  rw [Nat.sub_self] at whole
  exact loop_halts whole

theorem remove_halts (io : Io) (index : Nat) : HaltsWith (remove sb io index) (Fatdir.remove sb io index) := by
  have runs : ∀ sum index io, loop (removeTurn sb sum) (index + 1) (io,index) = some (Fatdir.removeLfn sb sum index io) := by
    intro sum index
    induction index with
    | zero => exact fun io => rfl
    | succ index ih =>
      intro io
      rw [loop,removeTurn,Fatdir.removeLfn]
      rw [if_pos (show index + 1 ≥ 1 by omega),Nat.add_sub_cancel]
      cases slotLocation sb io index with
      | error e => rfl
      | ok place =>
        dsimp only
        split_ifs
        · exact ih _
        · rfl
  unfold remove Fatdir.remove
  cases slotLocation sb io index with
  | error e => exact .now _
  | ok place =>
    dsimp only
    split
    · exact .now _
    · exact (loop_halts (runs _ _ _)).map _

end

/-! Lookups. -/

theorem ucs2ToUtf8_bytes {units : List Nat} (small : ∀ c ∈ units, c < 2^16) (outmax n : Nat) :
    ∀ b ∈ ucs2ToUtf8 outmax units n, b ≠ 0xFF := by
  induction units generalizing n with
  | nil => nofun
  | cons c rest ih =>
    intro b member
    unfold ucs2ToUtf8 at member
    split_ifs at member
    · cases member
    · cases member
    rcases mem_append.mp member with here | later
    · have bound := small c (mem_cons_self ..)
      rintro rfl
      unfold unitBytes at here
      split_ifs at here with surrogate one two
      · simp at here
      · simp only [mem_singleton] at here
        have value := congrArg UInt8.toNat here
        rw [UInt8.toNat_ofNat'] at value
        have full : (0xFF : UInt8).toNat = 255 := rfl
        omega
      · simp only [mem_cons,not_mem_nil,or_false] at here
        rcases here with here | here <;>
        · have value := congrArg UInt8.toNat here
          rw [UInt8.toNat_ofNat'] at value
          have full : (0xFF : UInt8).toNat = 255 := rfl
          omega
      simp only [mem_cons,not_mem_nil,or_false] at here
      rcases here with here | here | here <;>
      · have value := congrArg UInt8.toNat here
        rw [UInt8.toNat_ofNat'] at value
        have full : (0xFF : UInt8).toNat = 255 := rfl
        omega
    · exact ih (fun d inside => small d (mem_cons_of_mem c inside)) _ b later

def Buffers (sc : Lfn) : Prop := ∀ k, ∀ c ∈ sc.chars k, c < 2^16

theorem Slot.units_lt (s : Slot) : ∀ c ∈ s.units, c < 2^16 := by
  intro c member
  unfold Slot.units at member
  simp only [List.mem_append,List.mem_map] at member
  rcases member with (⟨k,_,rfl⟩ | ⟨k,_,rfl⟩) | ⟨k,_,rfl⟩
  · exact le16_lt ..
  · exact le16_lt ..
  · exact le16_lt ..

theorem Buffers.pass (buffers : Buffers sc) (s : Slot) : Buffers (sc.pass s) := by
  have chars : (sc.pass s).chars = sc.chars ∨ (sc.pass s).chars = update sc.chars (s.ord - 1) s.units := by
    unfold Lfn.pass Lfn.take
    dsimp only
    split_ifs
    · exact .inl rfl
    · exact .inr rfl
    · exact .inl rfl
    · exact .inr rfl
    · exact .inl rfl
    · exact .inl rfl
  rcases chars with same | new
  · intro k c member
    rw [same] at member
    exact buffers k c member
  intro k c member
  rw [new] at member
  by_cases here : k = s.ord - 1
  · rw [here,update_self] at member
    exact Slot.units_lt s c member
  · rw [update_of_ne here] at member
    exact buffers k c member

theorem upper_full {c : UInt8} (same : upper c = 0xFF) : c = 0xFF := by
  unfold upper at same
  split_ifs at same with letter
  · have low : 97 ≤ c.toNat := UInt8.le_iff_toNat_le.mp letter.1
    have high : c.toNat ≤ 122 := UInt8.le_iff_toNat_le.mp letter.2
    have value := congrArg UInt8.toNat same
    rw [UInt8.toNat_sub_of_le c 32 (UInt8.le_iff_toNat_le.mpr (show 32 ≤ c.toNat by omega))] at value
    change c.toNat - 32 = 255 at value
    omega
  · exact same

def unheard : Name := replicate 13 0xFF

theorem formatShort_length {name11 : List UInt8} (size : name11.length = 11) (flags : UInt8) :
    (formatShort name11 flags).length ≤ 12 := by
  have part : ∀ (f : UInt8 → UInt8) (bytes : List UInt8),
      ((bytes.takeWhile (· ≠ 32)).map f).length ≤ bytes.length := by
    intro f bytes
    rw [length_map]
    exact (takeWhile_sublist _).length_le
  unfold formatShort
  generalize (if flags &&& 0x08 ≠ 0 then lower else id) = f
  generalize (if flags &&& 0x10 ≠ 0 then lower else id) = g
  have base := part f (name11.take 8)
  have ext := part g (name11.drop 8)
  rw [length_take] at base
  rw [length_drop] at ext
  refine (takeWhile_sublist _).length_le.trans ?_
  rw [length_append]
  split_ifs
  · rw [length_nil]
    omega
  · rw [length_cons]
    omega

theorem eqNocase_unheard {name : Name} (alike : eqNocase name unheard) : name = unheard := by
  have same : name.map upper = unheard := by
    unfold eqNocase at alike
    rw [beq_iff_eq] at alike
    exact alike.trans (by decide)
  apply eq_replicate_iff.mpr
  refine ⟨?_,fun c member => upper_full ?_⟩
  · rw [← length_map (f := upper),same]
    rfl
  · have there := mem_map_of_mem (f := upper) member
    rw [same] at there
    exact eq_of_mem_replicate there

theorem unanswered (buffers : Buffers sc) (i : Nat) (s : Slot) :
    Entry.answers ⟨i,s,sc.matching s.name11⟩ unheard = false := by
  have short : ∀ flags, eqNocase (formatShort s.name11 flags) unheard = false := by
    intro flags
    by_contra alike
    have same := eqNocase_unheard (Bool.not_eq_false _ ▸ alike)
    have length := formatShort_length (slice_length s 0 11) flags
    change (formatShort s.name11 flags).length ≤ 12 at length
    rw [same] at length
    exact absurd length (by decide)
  have long : eqNocase sc.text unheard = false := by
    by_contra alike
    have same := eqNocase_unheard (Bool.not_eq_false _ ▸ alike)
    have byte : (0xFF : UInt8) ∈ sc.text := by
      rw [same]
      decide
    obtain ⟨k,_,here⟩ := mem_flatMap.mp (mem_of_mem_take byte)
    exact ucs2ToUtf8_bytes (buffers k) _ _ _ here rfl
  unfold Entry.answers Entry.name Lfn.matching
  split_ifs
  · simp [short,long]
  · simp [short]

/-! Scans. -/

section
variable {sb : Super} {v : Vol} {c : Nat}

theorem sweep_marked {s : Slot} (member : s ∈ slots) (ended : s.isEnd)
    (stops : Entry → Bool) (a : Lfn × Nat) : ∃ b, sweep (look stops) a slots = .inl b :=
  sweep_stops member (fun a => ⟨none,by rw [look]; exact if_pos ended⟩) a

theorem sweep_scan (stops : Entry → Bool) (rc : Option Errno) (sc : Lfn) (i : Nat) (slots : List Slot) :
    (match (scanFrom sc i slots).find? stops,if slots.any Slot.isEnd then none else rc with
      | some e, _ => Except.ok (some e)
      | none, some e => .error e
      | none, none => .ok none) = (sweep (look stops) (sc,i) slots).elim .ok fun _ => rc.elim (.ok none) .error := by
  induction slots generalizing sc i with
  | nil => cases rc <;> rfl
  | cons s rest ih =>
    rw [scanFrom,sweep,look,any_cons]
    by_cases ended : s.isEnd
    · rw [ended]
      rfl
    have open_ : s.isEnd = false := Bool.not_eq_true _ ▸ ended
    rw [if_neg ended,if_neg ended,open_,Bool.false_or]
    by_cases stopped : s.isRecord ∧ stops ⟨i,s,sc.matching s.name11⟩
    · rw [if_pos stopped.1,if_pos stopped,find?_cons_of_pos stopped.2]
      rfl
    rw [if_neg stopped]
    by_cases record : s.isRecord
    · rw [if_pos record,find?_cons_of_neg fun stop => stopped ⟨record,stop⟩]
      exact ih _ _
    · rw [if_neg record]
      exact ih _ _

theorem walk_succ (n c : Nat) : walk sb v (n + 1) c = match follows sb v c with
    | .error e => ([c],some e)
    | .ok none => ([c],none)
    | .ok (some next) => (c :: (walk sb v n next).1,(walk sb v n next).2) := by
  rw [walk,follows]
  cases readEntry sb v c with
  | error e => rfl
  | ok next =>
    dsimp only
    split_ifs <;> rfl

theorem walk_clusters (n c : Nat) : (walk sb v n c).1 = clusters sb v n c := by
  induction n generalizing c with
  | zero => rfl
  | succ n ih =>
    rw [walk_succ,clusters]
    rcases follows sb v c with e | _ | next
    · rfl
    · rfl
    · exact congrArg (c :: ·) (ih next)

theorem follows_read (read : readEntry sb v c = .ok d) :
    follows sb v c = .ok (if d < 2 ∨ d ≥ clusterEoc then none else some d) := by
  rw [follows,read]

theorem walk_over {see : α → Slot → β ⊕ α} {a next : α} (path : pathAt sb v n c = none)
    (passes : sweep see a (slotsOf sb v.disk (clusters sb v n c)) = .inr next) :
    loop (turn sb v see) n (c,a) = some ((walk sb v n c).2.elim (.ended next) .failed) := by
  induction n generalizing c a with
  | zero => cases path
  | succ n ih =>
    rw [clusters,slotsOf_cons,sweep_append] at passes
    rw [loop,turn,walk_succ]
    unfold pathAt at path
    cases first : sweep see a (slotsOf sb v.disk [c]) with
    | inl b =>
      rw [first] at passes
      cases passes
    | inr middle =>
      rw [first] at passes
      revert path passes
      rcases follows sb v c with e | _ | next
      · rintro - ⟨⟩
        rfl
      · rintro - ⟨⟩
        rfl
      · exact ih

/-- Where a chain ends within the clusters of the volume, a scan gives what the model of `scan_dir` gives. -/
theorem scanDir_ends (closes : pathAt sb v (sb.totalClusters + 1) first = none) (stops : Entry → Bool) :
    HaltsWith (scanDir sb v first stops) ((scan sb v first).first stops) := by
  unfold scanDir scan
  split_ifs with low
  · exact .now _
  have model (cells : List Nat) (slots : List Slot) (rc : Option Errno) :
      Scan.first ⟨cells,slots,if slots.any Slot.isEnd then none else rc⟩ stops = _ := sweep_scan stops rc .empty 0 slots
  dsimp only
  rw [model,walk_clusters]
  cases swept : sweep (look stops) (.empty,0) (slotsOf sb v.disk (clusters sb v (sb.totalClusters + 1) first)) with
  | inl r => exact (loop_halts (walk_stopped.mpr swept)).map Walked.result
  | inr next =>
    have walked := (loop_halts (walk_over closes swept)).map Walked.result
    revert walked
    cases (walk sb v (sb.totalClusters + 1) first).2 with
    | none => exact id
    | some e => exact id

theorem scanDir_ends_blank : pathAt smallVolume blank.vol (smallVolume.totalClusters + 1) 2 = none ∧
    ∀ stops, HaltsWith (scanDir smallVolume blank.vol 2 stops) ((scan smallVolume blank.vol 2).first stops) :=
  ⟨by decide,scanDir_ends (by decide)⟩

theorem scanDir_halts (bounded : Ends sb v c ∨ Marked sb v c) (stops : Entry → Bool) : Halts (scanDir sb v c stops) := by
  unfold scanDir
  split
  · exact ⟨_,.now _⟩
  apply Halts.map
  by_cases ends : Ends sb v c
  · exact ends.halts _
  · obtain ⟨n,s,member,ended⟩ := bounded.resolve_left ends
    obtain ⟨b,stopped⟩ := sweep_marked member ended stops (.empty,0)
    exact (walk_halts_iff ends _).mpr ⟨n,b,stopped⟩

theorem marked_of_find (directory : 2 ≤ c) (endless : ¬ Ends sb v c) (halts : Halts (find sb v c unheard)) :
    Marked sb v c := by
  obtain ⟨b,fuel,done⟩ := halts
  have ran := done fuel (le_refl fuel)
  unfold find scanDir at ran
  rw [if_neg (by omega)] at ran
  obtain ⟨w,walked,_⟩ := map_eq_some_iff.mp ran
  obtain ⟨n,b,stopped⟩ := (walk_halts_iff endless _).mp ⟨w,loop_halts walked⟩
  by_contra unmarked
  have passes := @sweep_passes _ _ _ (look (·.answers unheard)) (fun a => Buffers a.1)
    (slotsOf sb v.disk (clusters sb v n c)) (fun a s member buffers => by
      refine ⟨(a.1.pass s,a.2 + 1),?_,buffers.pass s⟩
      have open_ : ¬ s.isEnd := fun ended => unmarked ⟨n,s,member,ended⟩
      rw [look]
      rw [if_neg open_,if_neg fun both => ?_]
      have answered := both.2
      rw [unanswered buffers] at answered
      cases answered) (.empty,0) (fun k c none => nomatch none)
  obtain ⟨next,swept,_⟩ := passes
  rw [stopped] at swept
  cases swept

theorem sweep_found {stops : Entry → Bool} {a : Lfn × Nat} {e : Entry}
    (stopped : sweep (look stops) a slots = .inl (some e)) : stops e ∧ e.index < a.2 + slots.length := by
  induction slots generalizing a with
  | nil => cases stopped
  | cons s rest ih =>
    unfold sweep at stopped
    cases seen : look stops a s with
    | inl b =>
      rw [seen] at stopped
      obtain rfl : b = some e := Sum.inl.inj stopped
      unfold look at seen
      dsimp only at seen
      split_ifs at seen with ended found
      · cases seen
      · cases seen
        rw [length_cons]
        exact ⟨found.2,by dsimp only; omega⟩
    | inr next =>
      rw [seen] at stopped
      obtain ⟨asked,inside⟩ := ih stopped
      unfold look at seen
      dsimp only at seen
      split_ifs at seen with ended found
      cases seen
      rw [length_cons]
      exact ⟨asked,by dsimp only at inside; omega⟩

section
variable (bounded : Ends sb v c ∨ Marked sb v c)
include bounded

theorem scanDir_bound : ∃ bound, ∀ stops e,
    HaltsWith (scanDir sb v c stops) (.ok (some e)) → stops e ∧ e.index < bound := by
  have reach : ∃ n, ∀ stops, 2 ≤ c → ∃ w, loop (turn sb v (look stops)) n (c,.empty,0) = some w := by
    by_cases ends : Ends sb v c
    · obtain ⟨n,closes⟩ := ends
      exact ⟨n,fun stops _ => walk_ends closes _⟩
    obtain ⟨n,s,member,ended⟩ := bounded.resolve_left ends
    refine ⟨n,fun stops _ => ?_⟩
    obtain ⟨b,stopped⟩ := sweep_marked member ended stops (.empty,0)
    exact ⟨_,walk_stopped.mpr stopped⟩
  obtain ⟨n,ran⟩ := reach
  refine ⟨(slotsOf sb v.disk (clusters sb v n c)).length,fun stops e halts => ?_⟩
  obtain ⟨fuel,done⟩ := halts
  have result := done (max fuel n) (le_max_left ..)
  unfold scanDir at result
  split at result
  · cases result
  obtain ⟨w,walked⟩ := ran stops (by omega)
  rw [loop_more walked (le_max_right ..)] at result
  cases w with
  | stopped b =>
    obtain rfl : b = some e := Except.ok.inj (some.inj result)
    have inside := sweep_found (walk_stopped.mp walked)
    rwa [zero_add] at inside
  | ended a => cases result
  | failed e => cases result

theorem listing_halts (cookie : Nat) : Halts (listing sb v c cookie) := by
  obtain ⟨bound,found⟩ := scanDir_bound bounded
  induction left : bound - cookie using Nat.strong_induction_on generalizing cookie with
  | _ left ih =>
    refine halts_succ.mp ?_
    refine Halts.bind (halts_succ.mpr (scanDir_halts bounded _)) fun r done => ?_
    cases r with
    | error e => exact ⟨_,.now _⟩
    | ok next =>
      cases next with
      | none => exact ⟨_,.now _⟩
      | some e =>
        obtain ⟨asked,inside⟩ := found _ e (haltsWith_succ.mp done)
        have further : cookie ≤ e.index := of_decide_eq_true asked
        exact (ih (bound - (e.index + 1)) (by omega) (e.index + 1) rfl).map _

theorem existsShort_halts (name11 : List UInt8) : Halts (existsShort sb v c name11) := (scanDir_halts bounded _).map _

theorem numberLoop_halts (alias11 : List UInt8) (left n : Nat) : Halts (numberLoop sb v c alias11 left n) := by
  induction left generalizing n with
  | zero => exact ⟨_,.now _⟩
  | succ left ih =>
    change Halts fun fuel => numberLoop sb v c alias11 (left + 1) n fuel
    unfold numberLoop
    split
    · exact ⟨_,.now _⟩
    refine Halts.bind (existsShort_halts bounded _) fun r _ => ?_
    cases r with
    | error e => exact ⟨_,.now _⟩
    | ok taken =>
      cases taken with
      | true => exact ih _
      | false => exact ⟨_,.now _⟩

theorem chooseShort_halts (short : Short) : Halts (chooseShort sb v c short) := by
  unfold chooseShort
  split
  · exact numberLoop_halts bounded ..
  refine Halts.bind (existsShort_halts bounded _) fun r _ => ?_
  cases r with
  | error e => exact ⟨_,.now _⟩
  | ok taken => cases taken <;> exact ⟨_,.now _⟩

end

end

/-! Room for a record. -/

section
variable {sb : Super} {v : Vol} {c : Nat}

theorem findRun_sweep (need : Nat) (slots : List Slot) (slot run start : Nat) :
    findRun need slots slot run start = (sweep (seek need) (slot,run,start) slots).getLeft? := by
  induction slots generalizing slot run start with
  | nil => rfl
  | cons s rest ih =>
    rw [findRun,sweep,seek]
    by_cases free : s.isFree = true
    · rw [if_pos free,if_pos free]
      by_cases full : run + 1 ≥ need
      · rw [if_pos full,if_pos full]
        rfl
      · rw [if_neg full,if_neg full]
        exact ih ..
    · rw [if_neg free,if_neg free]
      exact ih ..

theorem seek_halts_iff (endless : ¬ Ends sb v c) (pos : 0 < need) :
    Halts (fun fuel => loop (turn sb v (seek need)) fuel (c,0,0,0)) ↔ Roomy sb v c need := by
  rw [walk_halts_iff endless]
  refine exists_congr fun n => ?_
  have first := findRun_first pos (slotsOf sb v.disk (clusters sb v n c))
  rw [findRun_sweep] at first
  constructor
  · rintro ⟨start,stopped⟩
    rw [stopped] at first
    exact ⟨start,first.1⟩
  rintro ⟨start,run⟩
  cases swept : sweep (seek need) (0,0,0) (slotsOf sb v.disk (clusters sb v n c)) with
  | inl b => exact ⟨b,rfl⟩
  | inr next =>
    rw [swept] at first
    exact absurd run (first start)

theorem Roomy.less {less : Nat} (roomy : Roomy sb v c need) (le : less ≤ need) : Roomy sb v c less := by
  obtain ⟨n,start,run⟩ := roomy
  exact ⟨n,start,fun i small => run i (by omega)⟩

theorem follows_eq (v : Vol) (c : Nat) : follows sb v c = if legalEntry sb c then
    .ok (if table sb v.disk c < 2 ∨ table sb v.disk c ≥ clusterEoc then none else some (table sb v.disk c))
    else .error .einval := by
  split
  · next legal => rw [follows_read (readEntry_eq v legal)]
  · next illegal => rw [follows,readEntry,if_neg illegal]

theorem pathAt_add (v : Vol) (n m c : Nat) : pathAt sb v (n + m) c = (pathAt sb v n c).bind (pathAt sb v m) := by
  induction n generalizing c with
  | zero => rw [zero_add]; rfl
  | succ n ih =>
    rw [show n + 1 + m = n + m + 1 by omega,pathAt,pathAt]
    cases follows sb v c with
    | error e => rfl
    | ok following =>
      cases following with
      | none => rfl
      | some d => exact ih d

theorem clusters_add (path : pathAt sb v n c = some d) (m : Nat) :
    clusters sb v (n + m) c = clusters sb v n c ++ clusters sb v m d := by
  induction n generalizing c with
  | zero =>
    cases path
    rw [zero_add]
    rfl
  | succ n ih =>
    rw [show n + 1 + m = n + m + 1 by omega,clusters,clusters]
    unfold pathAt at path
    split at path
    · exact congrArg (c :: ·) (ih path)
    · cases path

theorem pathAt_congr {w : Vol}
    (same : ∀ i < n, ∀ d, pathAt sb v i c = some d → follows sb w d = follows sb v d) :
    pathAt sb w n c = pathAt sb v n c := by
  induction n generalizing c with
  | zero => rfl
  | succ n ih =>
    have here := same 0 (succ_pos n) c rfl
    rw [pathAt,pathAt,here]
    cases link : follows sb v c with
    | error e => rfl
    | ok following =>
      cases following with
      | none => rfl
      | some e =>
        refine ih fun i small d path => same (i + 1) (by omega) d ?_
        rw [pathAt,link]
        exact path

theorem lastCluster_path (ran : lastCluster sb v guard c = .ok last) :
    (∃ n, pathAt sb v n c = some last) ∧ follows sb v last = .ok none := by
  fun_induction lastCluster sb v guard c with
  | case2 guard c next read ended =>
    cases ran
    refine ⟨⟨0,rfl⟩,?_⟩
    rw [follows_read read,if_pos ended]
  | case4 c next read going guard ih =>
    obtain ⟨⟨n,path⟩,closes⟩ := ih ran
    refine ⟨⟨n + 1,?_⟩,closes⟩
    rw [pathAt,follows_read read,if_neg going]
    exact path
  | _ => cases ran

structure Grown (sb : Super) (io t : Io) (last newc : Nat) : Prop where
  path : ∃ n, pathAt sb io.vol n io.node.firstCluster = some last
  closes : follows sb io.vol last = .ok none
  legal : legalCluster sb newc
  free : table sb io.vol.disk newc = clusterFree
  tables : table sb t.vol.disk = update (update (table sb io.vol.disk) newc clusterEoc) last newc
  zeros : content sb t.vol.disk newc = fun _ => 0
  first : t.node.firstCluster = io.node.firstCluster

theorem growDir_grown (geometry : Geometry sb) {io t : Io} (ran : Fatdir.growDir sb io = (.ok (),t)) :
    ∃ last newc, Grown sb io t last newc := by
  unfold Fatdir.growDir at ran
  cases found : lastCluster sb io.vol (sb.totalClusters + 2) io.node.firstCluster with
  | error e =>
    rw [found] at ran
    cases ran
  | ok last =>
    rw [found] at ran
    obtain ⟨path,closes⟩ := lastCluster_path found
    rcases allocates sb io.vol with ⟨newc,got,legal,free⟩ | ⟨full,_⟩
    · rw [got] at ran
      dsimp only at ran
      rw [writeCluster_eq legal] at ran
      cases refused : ((setEntry sb io.vol newc clusterEoc).took sb newc).refusals 0 with
      | some e =>
        rw [refused] at ran
        cases ran
      | none =>
        rw [refused] at ran
        dsimp only at ran
        have entry := legalEntry_of_cluster legal
        have lastEntry : legalEntry sb last := by
          rw [follows_eq] at closes
          by_contra illegal
          rw [if_neg illegal] at closes
          cases closes
        rw [writeEntry_eq _ _ lastEntry] at ran
        have whole : (List.replicate sb.clusterSize (0 : UInt8)).length = sb.clusterSize := length_replicate
        have small := (geometry.below_marks legal).2.2
        have kept : newc % 2^28 = newc := mod_eq_of_lt (by unfold clusterEoc at small; omega)
        obtain rfl := (Prod.mk.inj ran).2
        refine ⟨last,newc,path,closes,legal,free,?_,?_,rfl⟩
        · dsimp only
          rw [geometry.table_setEntry lastEntry,geometry.table_setCluster legal _ _ whole]
          change update (table sb (setEntry sb io.vol newc clusterEoc).disk) last (newc % 2^28) = _
          rw [geometry.table_setEntry entry,kept]
          rfl
        rw [geometry.content_setEntry lastEntry,geometry.content_setCluster legal _ _ whole,update_self]
        funext j
        rw [getD_eq_getElem?_getD,getElem?_replicate]
        split <;> rfl
    · rw [full] at ran
      cases ran

section
variable {io t : Io} {last newc : Nat}

section
variable (grown : Grown sb io t last newc)
include grown

theorem Grown.fewer : freeEntries sb (table sb t.vol.disk) < freeEntries sb (table sb io.vol.disk) := by
  have taken : freeEntries sb (update (table sb io.vol.disk) newc clusterEoc) + 1 =
      freeEntries sb (table sb io.vol.disk) :=
    freeEntries_take grown.legal grown.free (by rw [update_self]; decide)
      fun d other => by rw [update_of_ne other]
  have rest : freeEntries sb (table sb t.vol.disk) ≤
      freeEntries sb (update (table sb io.vol.disk) newc clusterEoc) := by
    refine countP_mono_left fun d member free => ?_
    rw [grown.tables] at free
    by_cases here : d = last
    · have low := (legalCluster_iff.mp grown.legal).1
      rw [here,update_self] at free
      unfold clusterFree at free
      simp only [decide_eq_true_eq] at free
      omega
    · rwa [update_of_ne here] at free
  omega

theorem Grown.kept {e : Nat} (link : follows sb io.vol d = .ok (some e)) :
    follows sb t.vol d = follows sb io.vol d := by
  have other : d ≠ last := by
    rintro rfl
    rw [grown.closes] at link
    cases link
  have used : d ≠ newc := by
    rintro rfl
    rw [follows_eq,if_pos (legalEntry_of_cluster grown.legal),grown.free] at link
    cases link
  rw [follows_eq,follows_eq,grown.tables,update_of_ne other,update_of_ne used]

theorem Grown.reaches : ∃ n, pathAt sb t.vol n t.node.firstCluster = some last := by
  obtain ⟨n,path⟩ := grown.path
  refine ⟨n,?_⟩
  rw [grown.first,pathAt_congr fun i small d here => ?_]
  · exact path
  have next : ∃ e, follows sb io.vol d = .ok (some e) := by
    have rest : pathAt sb io.vol (i + (n - i)) io.node.firstCluster = some last := by
      rw [Nat.add_sub_cancel' (le_of_lt small)]
      exact path
    obtain ⟨m,left⟩ : ∃ m, n - i = m + 1 := ⟨n - i - 1,by omega⟩
    rw [pathAt_add,here,left] at rest
    change pathAt sb io.vol (m + 1) d = some last at rest
    unfold pathAt at rest
    split at rest
    · next e link => exact ⟨e,link⟩
    · cases rest
  obtain ⟨e,link⟩ := next
  exact grown.kept link

end

theorem Grown.linked (geometry : Geometry sb) (grown : Grown sb io t last newc) :
    follows sb t.vol last = .ok (some newc) := by
  have entry : legalEntry sb last := by
    have closes := grown.closes
    rw [follows_eq] at closes
    by_contra illegal
    rw [if_neg illegal] at closes
    cases closes
  obtain ⟨low,_,eoc⟩ := geometry.below_marks grown.legal
  rw [follows_eq,if_pos entry,grown.tables,update_self,if_neg (by omega)]

theorem Grown.ends_or_roomy (slotted : Slotted sb) (grown : Grown sb io t last newc) (need : Nat) :
    Ends sb t.vol t.node.firstCluster ∨ Roomy sb t.vol t.node.firstCluster need := by
  have geometry := slotted.toGeometry
  obtain ⟨n,path⟩ := grown.reaches
  have linked := grown.linked geometry
  by_cases self : newc = last
  · subst self
    have circle : ∀ m, clusters sb t.vol m newc = List.replicate m newc := by
      intro m
      induction m with
      | zero => rfl
      | succ m ih =>
        rw [clusters,linked]
        exact congrArg (newc :: ·) ih
    have free : ∀ s ∈ slotsOf sb t.vol.disk (List.replicate need newc), s.isFree := by
      intro s member
      obtain ⟨d,copy,here⟩ := mem_flatMap.mp member
      obtain rfl := eq_of_mem_replicate copy
      obtain ⟨k,small,rfl⟩ := mem_map.mp here
      rw [slotted.load grown.legal (mem_range.mp small),grown.zeros]
      rfl
    have length : ∀ m, (slotsOf sb t.vol.disk (List.replicate m newc)).length =
        m * entriesPerCluster sb := by
      intro m
      simp [slotsOf]
    refine .inr ⟨n + need,(slotsOf sb t.vol.disk (clusters sb t.vol n t.node.firstCluster)).length,
      fun i small => ?_⟩
    have enough : i < (slotsOf sb t.vol.disk (List.replicate need newc)).length := by
      have pos := slotted.perCluster_pos
      rw [length]
      exact Nat.lt_of_lt_of_le small (Nat.le_mul_of_pos_right need pos)
    rw [clusters_add path,circle]
    unfold slotsOf
    rw [flatMap_append,getElem?_append_right (Nat.le_add_right ..),Nat.add_sub_cancel_left]
    exact ⟨_,getElem?_eq_getElem enough,free _ (getElem_mem enough)⟩
  · left
    refine ⟨n + 2,?_⟩
    rw [pathAt_add,path]
    change pathAt sb t.vol 2 last = none
    rw [pathAt,linked]
    change pathAt sb t.vol 1 newc = none
    rw [pathAt,follows_eq,if_pos (legalEntry_of_cluster grown.legal),grown.tables,update_of_ne self,
      update_self,if_pos (.inr (Nat.le_refl _))]

end

theorem reserveRun_halts (slotted : Slotted sb) (pos : 0 < need)
    (stops : Ends sb io.vol io.node.firstCluster ∨ Roomy sb io.vol io.node.firstCluster need) :
    Halts (reserveRun sb need io) := by
  induction left : freeEntries sb (table sb io.vol.disk) using Nat.strong_induction_on generalizing io with
  | _ left ih =>
    have search : Halts fun fuel => loop (turn sb io.vol (seek need)) fuel (io.node.firstCluster,0,0,0) := by
      by_cases ends : Ends sb io.vol io.node.firstCluster
      · exact ends.halts _
      · exact (seek_halts_iff ends pos).mpr (stops.resolve_left ends)
    refine halts_succ.mp ?_
    refine Halts.bind (halts_succ.mpr search) fun w _ => ?_
    cases w with
    | stopped start => exact ⟨_,.now _⟩
    | failed e => exact ⟨_,.now _⟩
    | ended a =>
      cases ran : Fatdir.growDir sb io with
      | mk r t =>
      cases r with
      | error e => exact ⟨_,.now _⟩
      | ok _ =>
        obtain ⟨last,newc,grown⟩ := growDir_grown slotted.toGeometry ran
        exact ih _ (left ▸ grown.fewer) (grown.ends_or_roomy slotted need) rfl

theorem roomy_of_reserveRun (endless : ¬ Ends sb io.vol io.node.firstCluster) (pos : 0 < need)
    (halts : Halts (reserveRun sb need io)) : Roomy sb io.vol io.node.firstCluster need := by
  obtain ⟨r,fuel,done⟩ := halts_succ.mpr halts
  have ran := done fuel (le_refl fuel)
  obtain ⟨w,walked,_⟩ := bind_eq_some_iff.mp ran
  exact (seek_halts_iff endless pos).mp ⟨w,loop_halts walked⟩

theorem create_halts (slotted : Slotted sb)
    (scans : Ends sb io.vol io.node.firstCluster ∨ Marked sb io.vol io.node.firstCluster)
    (room : Ends sb io.vol io.node.firstCluster ∨ Roomy sb io.vol io.node.firstCluster (maxLfnEntries + 1))
    (name : Name) (new : Fresh) : Halts (create sb io name new) := by
  unfold create
  split
  · exact ⟨_,.now _⟩
  refine Halts.bind (scanDir_halts scans _) fun r _ => ?_
  cases r with
  | error e => exact ⟨_,.now _⟩
  | ok found =>
    cases found with
    | some e => exact ⟨_,.now _⟩
    | none =>
      refine Halts.bind (chooseShort_halts scans _) fun r _ => ?_
      cases r with
      | error e => exact ⟨_,.now _⟩
      | ok name11 =>
        dsimp only
        generalize (if (makeShortName name).needsLfn then slotsFor (utf8ToUcs2 nameMax name).length else 0) = count
        split
        · exact ⟨_,.now _⟩
        refine Halts.bind (reserveRun_halts slotted (succ_pos count)
          (room.imp_right fun roomy => roomy.less (by omega))) fun r _ => ?_
        obtain ⟨r,t⟩ := r
        cases r with
        | error e => exact ⟨_,.now _⟩
        | ok start =>
          dsimp only
          generalize storeAll sb t _ (0,0) = result
          obtain ⟨r,u⟩ := result
          cases r with
          | error e => exact ⟨_,.now _⟩
          | ok spot => exact ⟨_,.now _⟩

end

/-- Every operation on a directory that walks it, and every walk along a chain or up the tree, ends. -/
structure Terminates (sb : Super) (io : Io) : Prop where
  lookup : ∀ name, Halts (find sb io.vol io.node.firstCluster name)
  listing : ∀ cookie, Halts (listing sb io.vol io.node.firstCluster cookie)
  create : ∀ name new, Halts (create sb io name new)
  reserve : ∀ slots ≤ maxLfnEntries, Halts (reserveRun sb (slots + 1) io)
  remove : ∀ index, Halts (remove sb io index)
  free : ∀ c, Halts (freeChain sb io.vol c)
  contains : ∀ ancestor child, Halts (dirContains sb io.vol ancestor child)

/-- The operations on a directory end just when its chain does, or when its slots hold both an end
mark, which stops the scans, and room for the longest record, which stops `reserve_run`. -/
theorem terminates_iff {sb : Super} (slotted : Slotted sb) {io : Io} (directory : 2 ≤ io.node.firstCluster) :
    Terminates sb io ↔ Ends sb io.vol io.node.firstCluster ∨ (Marked sb io.vol io.node.firstCluster ∧
      Roomy sb io.vol io.node.firstCluster (maxLfnEntries + 1)) := by
  constructor
  · intro terminates
    by_cases ends : Ends sb io.vol io.node.firstCluster
    · exact .inl ends
    · exact .inr ⟨marked_of_find directory ends (terminates.lookup unheard),
        roomy_of_reserveRun ends (succ_pos _) (terminates.reserve _ (le_refl _))⟩
  intro stops
  have scans : Ends sb io.vol io.node.firstCluster ∨ Marked sb io.vol io.node.firstCluster :=
    stops.imp_right And.left
  have room : Ends sb io.vol io.node.firstCluster ∨
      Roomy sb io.vol io.node.firstCluster (maxLfnEntries + 1) := stops.imp_right And.right
  refine ⟨fun name => scanDir_halts scans _,fun cookie => listing_halts scans cookie,
    fun name new => create_halts slotted scans room name new,fun slots small => ?_,
    fun index => ⟨_,remove_halts sb io index⟩,fun c => ⟨_,freeChain_halts sb io.vol c⟩,
    fun ancestor child => ⟨_,dirContains_halts sb io.vol ancestor child⟩⟩
  exact reserveRun_halts slotted (succ_pos slots) (room.imp_right fun roomy => roomy.less (by omega))

theorem terminates_iff_blank : Slotted smallVolume ∧ 2 ≤ (blank.io 0).node.firstCluster ∧
    (Terminates smallVolume (blank.io 0) ↔ Ends smallVolume blank.vol 2 ∨ (Marked smallVolume blank.vol 2 ∧
      Roomy smallVolume blank.vol 2 (maxLfnEntries + 1))) :=
  ⟨⟨smallVolume_geometry,by decide⟩,by decide,terminates_iff ⟨smallVolume_geometry,by decide⟩ (by decide)⟩

def circle : Io where
  vol := {blank.vol with disk := fun s i => if s = 32 then (if i = 8 then 2 else 0) else 0xE5}
  node := ⟨2,0,0,0,false⟩

theorem circle_runs : ¬ Terminates smallVolume circle := by
  intro terminates
  have round : ∀ n, pathAt smallVolume circle.vol n 2 = some 2 := by
    intro n
    induction n with
    | zero => rfl
    | succ n ih =>
      exact ih
  have again : ∀ n, ∀ c ∈ clusters smallVolume circle.vol n 2, c = 2 := by
    intro n
    induction n with
    | zero => nofun
    | succ n ih =>
      intro c member
      rcases mem_cons.mp member with here | later
      · exact here
      · exact ih c later
  have endless : ¬ Ends smallVolume circle.vol 2 := by
    rintro ⟨n,closes⟩
    rw [round] at closes
    cases closes
  obtain ⟨n,s,member,ended⟩ := marked_of_find (by decide) endless (terminates.lookup unheard)
  obtain ⟨c,here,inside⟩ := mem_flatMap.mp member
  obtain ⟨k,small,rfl⟩ := mem_map.mp inside
  rw [again n c here] at ended
  have slots : ∀ k ∈ range 16, (load circle.vol.disk (spot smallVolume 2 k)).isEnd = false := by
    decide +kernel
  rw [slots k small] at ended
  cases ended

end SurfaceOS.Fat.Walks
