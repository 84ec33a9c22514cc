import SurfaceOS.Fat.Dir

/-! What a directory scan delivers: it splits where the slots do, its records come in slot order, a
listing by cookies returns all of them, and `reserve_run` takes the first free run. -/
namespace SurfaceOS.Fat
open Lib.Memory List Nat

variable {front slots : List Slot} {i cookie need run : Nat} {e : Entry} {entries rest : List Entry}

theorem scanFrom_append (opened : ∀ s ∈ front, s.isEnd = false) (back : List Slot) (sc : Lfn)
    (i : Nat) : scanFrom sc i (front ++ back) =
      scanFrom sc i front ++ scanFrom (front.foldl Lfn.pass sc) (i + front.length) back := by
  induction front generalizing sc i with
  | nil => rfl
  | cons s front ih =>
    have here := opened s (mem_cons_self ..)
    have rest := ih (fun t member => opened t (mem_cons_of_mem s member)) (sc.pass s) (i + 1)
    rw [add_assoc,add_comm 1] at rest
    rw [cons_append,scanFrom,scanFrom,here,if_neg Bool.false_ne_true,rest]
    split
    · rfl
    · rfl

theorem scanFrom_ended {s : Slot} (member : s ∈ front) (ended : s.isEnd)
    (back : List Slot) (sc : Lfn) (i : Nat) : scanFrom sc i (front ++ back) = scanFrom sc i front := by
  induction front generalizing sc i with
  | nil => cases member
  | cons t front ih =>
    rw [cons_append,scanFrom,scanFrom]
    rcases mem_cons.mp member with rfl | inside
    · rw [if_pos ended,if_pos ended]
    · rw [ih inside]

theorem scanFrom_index {sc : Lfn} (member : e ∈ scanFrom sc i slots) :
    i ≤ e.index ∧ e.index < i + slots.length := by
  induction slots generalizing sc i with
  | nil => cases member
  | cons s rest ih =>
    rw [length_cons]
    rw [scanFrom] at member
    split at member
    · cases member
    split at member
    · rcases mem_cons.mp member with rfl | later
      · exact ⟨le_refl i,show i < i + (rest.length + 1) by omega⟩
      · have := ih later
        omega
    · have := ih member
      omega

theorem scanFrom_sorted (sc : Lfn) (i : Nat) (slots : List Slot) :
    (scanFrom sc i slots).Pairwise (·.index < ·.index) := by
  induction slots generalizing sc i with
  | nil => exact .nil
  | cons s rest ih =>
    rw [scanFrom]
    split
    · exact .nil
    split
    · refine .cons (fun e member => ?_) (ih _ _)
      exact (scanFrom_index member).1
    · exact ih _ _

theorem scanFrom_length (sc : Lfn) (i : Nat) (slots : List Slot) : (scanFrom sc i slots).length ≤ slots.length := by
  induction slots generalizing sc i with
  | nil => exact le_refl 0
  | cons s rest ih =>
    rw [scanFrom]
    split
    · exact zero_le _
    split
    · rw [length_cons]
      exact succ_le_succ (ih _ _)
    · exact le_succ_of_le (ih _ _)

theorem filter_next (sorted : entries.Pairwise (·.index < ·.index))
    (here : entries.filter (cookie ≤ ·.index) = e :: rest) :
    entries.filter (e.index + 1 ≤ ·.index) = rest := by
  have low : cookie ≤ e.index := by
    have member : e ∈ entries.filter (cookie ≤ ·.index) := here ▸ mem_cons_self ..
    exact of_decide_eq_true (mem_filter.mp member).2
  have above : (e :: rest).Pairwise (·.index < ·.index) := here ▸ sorted.filter _
  have narrower : entries.filter (e.index + 1 ≤ ·.index) =
      (entries.filter (cookie ≤ ·.index)).filter (e.index + 1 ≤ ·.index) := by
    rw [filter_filter]
    refine filter_congr fun d _ => ?_
    by_cases behind : e.index + 1 ≤ d.index
    · simp [show cookie ≤ d.index by omega]
    · simp [behind]
  rw [narrower,here,filter_cons_of_neg (by simp)]
  refine filter_eq_self.mpr fun d member => decide_eq_true ?_
  exact rel_of_pairwise_cons above member

theorem listing_eq (slots : List Slot) (fuel cookie : Nat)
    (enough : ((scanDir slots).filter (cookie ≤ ·.index)).length ≤ fuel) : listing slots fuel cookie =
      ((scanDir slots).filter (cookie ≤ ·.index)).map fun e => (e.index,e.name) := by
  induction fuel generalizing cookie with
  | zero => rw [eq_nil_of_length_eq_zero (le_zero.mp enough)]; rfl
  | succ fuel ih =>
    rw [listing,nextRecord,← head?_filter]
    cases here : (scanDir slots).filter (cookie ≤ ·.index) with
    | nil => rfl
    | cons e rest =>
      have next : (scanDir slots).filter (e.index + 1 ≤ ·.index) = rest := filter_next (scanFrom_sorted _ _ _) here
      rw [here,length_cons] at enough
      rw [head?_cons]
      dsimp only
      rw [ih (e.index + 1) (by rw [next]; omega),next]
      rfl

theorem mem_listing {name : Name} :
    (i,name) ∈ listing slots slots.length 0 ↔ ∃ e ∈ scanDir slots, e.index = i ∧ e.name = name := by
  have all : (scanDir slots).filter (0 ≤ ·.index) = scanDir slots :=
    filter_eq_self.mpr fun e _ => decide_eq_true (zero_le _)
  rw [listing_eq slots _ 0 (by rw [all]; exact scanFrom_length ..),all,mem_map]
  simp only [Prod.mk.injEq]

def RunAt (slots : List Slot) (need start : Nat) : Prop :=
  ∀ i < need, ∃ s, slots[start + i]? = some s ∧ s.isFree

def FirstRun (slots : List Slot) (need : Nat) : Option Nat → Prop
  | some r => RunAt slots need r ∧ ∀ q < r, ¬ RunAt slots need q
  | none => ∀ r, ¬ RunAt slots need r

theorem findRun_spec {front rest : List Slot} {run start : Nat} (short : run < need)
    (behind : ∀ j, front.length ≤ j + run → j < front.length → ∃ s, front[j]? = some s ∧ s.isFree)
    (fits : run ≤ front.length) (began : run ≠ 0 → start + run = front.length)
    (none_ : ∀ r, r + run < front.length → ¬ RunAt (front ++ rest) need r) :
    FirstRun (front ++ rest) need (findRun need rest front.length run start) := by
  induction rest generalizing front run start with
  | nil =>
    intro r found
    rcases lt_or_ge (r + run) front.length with before | after
    · exact none_ r before found
    · obtain ⟨s,here,_⟩ := found run short
      rw [append_nil,getElem?_eq_none (by omega)] at here
      cases here
  | cons s rest ih =>
    have whole : front ++ s :: rest = (front ++ [s]) ++ rest := by simp
    have longer : (front ++ [s]).length = front.length + 1 := by simp
    have older : ∀ j, j < front.length → (front ++ [s])[j]? = front[j]? := fun j inside =>
      getElem?_append_left inside
    have newest : (front ++ [s])[front.length]? = some s := by simp
    rw [findRun]
    by_cases free : s.isFree = true
    · rw [if_pos free]
      have startNow : (if run = 0 then front.length else start) + run = front.length := by
        split
        · omega
        · next some => exact began some
      generalize (if run = 0 then front.length else start) = start' at startNow
      have behind' : ∀ j, (front ++ [s]).length ≤ j + (run + 1) → j < (front ++ [s]).length →
          ∃ t, (front ++ [s])[j]? = some t ∧ t.isFree := by
        intro j low high
        rcases lt_or_ge j front.length with inside | last
        · rw [older j inside]
          exact behind j (by omega) inside
        · obtain rfl : j = front.length := by omega
          exact ⟨s,newest,free⟩
      have none' : ∀ r, r + (run + 1) < (front ++ [s]).length → ¬ RunAt ((front ++ [s]) ++ rest) need r := by
        intro r before
        rw [← whole]
        exact none_ r (by omega)
      by_cases full : run + 1 ≥ need
      · rw [if_pos full]
        constructor
        · intro i inside
          obtain ⟨t,here,isFree⟩ := behind' (start' + i) (by rw [longer]; omega) (by rw [longer]; omega)
          refine ⟨t,?_,isFree⟩
          rw [whole,getElem?_append_left (by rw [longer]; omega)]
          exact here
        · intro q before
          exact none_ q (by omega)
      · rw [if_neg full,whole,← longer]
        exact ih (by omega) behind' (by rw [longer]; omega) (fun _ => by rw [longer]; omega) none'
    · rw [if_neg free,whole,← longer]
      refine ih (by omega) (fun j low high => by omega) (zero_le _) (fun some => absurd rfl some) fun r before found => ?_
      rw [← whole] at found
      rcases lt_or_ge (r + run) front.length with early | late
      · exact none_ r early found
      obtain ⟨t,here,isFree⟩ := found (front.length - r) (by omega)
      rw [show r + (front.length - r) = front.length by omega,whole,getElem?_append_left (by rw [longer]; omega),
        newest] at here
      cases here
      exact free isFree

theorem RunAt.fits {need start : Nat} (found : RunAt slots need start) (pos : 0 < need) :
    start + need ≤ slots.length := by
  obtain ⟨s,here,_⟩ := found (need - 1) (by omega)
  have := (List.getElem?_eq_some_iff.mp here).1
  omega

theorem findRun_first (pos : 0 < need) (slots : List Slot) :
    FirstRun slots need (findRun need slots 0 0 0) :=
  @findRun_spec need [] slots 0 0 pos nofun (le_refl 0) (fun some => absurd rfl some) nofun

theorem reserveRun_ok {perCluster need room start : Nat} {dir : Dir} (pos : 0 < need)
    (ran : reserveRun perCluster need room slots = (.ok start,dir)) :
    ∃ more, dir.slots = slots ++ replicate more (fun _ => 0) ∧ FirstRun dir.slots need (some start) := by
  fun_induction reserveRun perCluster need room slots with
  | case1 slots _ _ found =>
    have walk := findRun_first pos slots
    rw [found] at walk
    cases ran
    exact ⟨0,by simp,walk⟩
  | case2 => cases ran
  | case3 _ _ _ ih =>
    obtain ⟨more,same,first⟩ := ih ran
    refine ⟨perCluster + more,?_,first⟩
    rw [same,growDir,append_assoc,replicate_append_replicate]

/-- A run of free slots starts at or before the first end mark; slots behind the last one count as
free, since the directory grows. -/
def RoomBeforeEnd (slots : List Slot) (need : Nat) : Prop :=
  ∃ start, (∀ s ∈ slots.take start, s.isEnd = false) ∧
    ∀ i < need, ∀ s, slots[start + i]? = some s → s.isFree

section
variable {slots grown : List Slot} {need start more : Nat}

section
variable (same : grown = slots ++ replicate more (fun _ => 0))
include same

theorem getElem_grown (inside : i < grown.length) :
    ∃ s, grown[i]? = some s ∧ (slots[i]? = some s ∨ slots.length ≤ i ∧ s = fun _ => 0) := by
  subst same
  rcases lt_or_ge i slots.length with old | fresh
  · exact ⟨slots[i],by rw [getElem?_append_left old,getElem?_eq_getElem old],
      .inl (getElem?_eq_getElem old)⟩
  · refine ⟨fun _ => 0,?_,.inr ⟨fresh,rfl⟩⟩
    rw [length_append,length_replicate] at inside
    rw [getElem?_append_right fresh,getElem?_replicate_of_lt (by omega)]

theorem firstRun_start (pos : 0 < need) (first : FirstRun grown need (some start)) : start ≤ slots.length := by
  by_contra late
  refine first.2 slots.length (not_le.mp late) fun i inside => ?_
  have fits := first.1.fits pos
  obtain ⟨s,here,old | ⟨_,rfl⟩⟩ := getElem_grown same (show slots.length + i < grown.length by omega)
  · rw [getElem?_eq_none (by omega)] at old
    cases old
  · exact ⟨_,here,rfl⟩

theorem take_grown (inside : start ≤ slots.length) : grown.take start = slots.take start := by
  rw [same,take_append_of_le_length inside]

theorem roomBeforeEnd_iff (pos : 0 < need) (first : FirstRun grown need (some start)) :
    RoomBeforeEnd slots need ↔ ∀ s ∈ slots.take start, s.isEnd = false := by
  have fits := first.1.fits pos
  constructor
  · rintro ⟨q,opened,free⟩
    have early : start ≤ q := by
      by_contra late
      refine first.2 q (not_le.mp late) fun i inside => ?_
      obtain ⟨s,here,old | ⟨_,rfl⟩⟩ := getElem_grown same (show q + i < grown.length by omega)
      · exact ⟨s,here,free i inside s old⟩
      · exact ⟨_,here,rfl⟩
    intro s member
    exact opened s (mem_of_mem_take (show s ∈ (slots.take q).take start by
      rwa [take_take,min_eq_left early]))
  · intro opened
    refine ⟨start,opened,fun i inside s here => ?_⟩
    obtain ⟨t,found,isFree⟩ := first.1 i inside
    obtain ⟨long,_⟩ := List.getElem?_eq_some_iff.mp here
    rw [same,getElem?_append_left long,here] at found
    cases found
    exact isFree

end

theorem takeWhile_eq_take {p : Slot → Bool} (all : ∀ s ∈ slots.take start, p s)
    (stop : ∀ s, slots[start]? = some s → p s = false) : slots.takeWhile p = slots.take start := by
  induction slots generalizing start with
  | nil => simp
  | cons s rest ih =>
    cases start with
    | zero => rw [takeWhile_cons_of_neg (by simp [stop s rfl]),take_zero]
    | succ start =>
      rw [take_succ_cons] at all ⊢
      rw [takeWhile_cons_of_pos (all s (mem_cons_self ..)),
        ih (fun t member => all t (mem_cons_of_mem s member)) fun t here => stop t here]

theorem firstRun_one (same : grown = slots ++ replicate more (fun _ => 0))
    (first : FirstRun grown 1 (some start)) : slots.take start = slots.takeWhile (!·.isFree) := by
  symm
  refine takeWhile_eq_take (fun s member => ?_) fun s here => ?_
  · obtain ⟨q,bound,here⟩ := mem_iff_getElem.mp member
    rw [length_take] at bound
    by_contra free
    refine first.2 q (by omega) fun i small => ⟨s,?_,by simpa using free⟩
    obtain rfl : i = 0 := by omega
    rw [same,add_zero,getElem?_append_left (by omega),← here,getElem_take,getElem?_eq_getElem]
  obtain ⟨t,found,isFree⟩ := first.1 0 zero_lt_one
  obtain ⟨long,_⟩ := List.getElem?_eq_some_iff.mp here
  rw [add_zero,same,getElem?_append_left long,here] at found
  cases found
  simp [isFree]

end

end SurfaceOS.Fat
