import Mathlib.Data.List.Nodup

/-! Chains through a successor table: a list in which every element's successor is the next one
and the last one's is a stop mark. A family of chains shares the table without overlap; one of
them may grow at its end, be cut or be given up while the others stay. -/
namespace SurfaceOS.Lib
open List

def Linked (next : Nat → Nat) (stop : Nat → Prop) : List Nat → Prop
  | [] => True
  | [c] => stop (next c)
  | c :: d :: rest => next c = d ∧ Linked next stop (d :: rest)

section
variable {next after : Nat → Nat} {stop : Nat → Prop} {cells rest : List Nat} {c d : Nat}

theorem Linked.tail (linked : Linked next stop (c :: cells)) : Linked next stop cells := by
  cases cells with
  | nil => trivial
  | cons d rest => exact linked.2

theorem Linked.suffix (front : List Nat) (linked : Linked next stop (front ++ cells)) : Linked next stop cells := by
  induction front with
  | nil => exact linked
  | cons c front ih => exact ih linked.tail

theorem Linked.step (front : List Nat) (linked : Linked next stop (front ++ c :: d :: rest)) : next c = d :=
  (linked.suffix front).1

theorem Linked.ends (front : List Nat) (linked : Linked next stop (front ++ [c])) : stop (next c) :=
  linked.suffix front

theorem Linked.congr (linked : Linked next stop cells) (same : ∀ c ∈ cells, after c = next c) :
    Linked after stop cells := by
  induction cells with
  | nil => trivial
  | cons c cells ih =>
    have here := same c (mem_cons_self ..)
    have there := ih linked.tail fun d member => same d (mem_cons_of_mem c member)
    cases cells with
    | nil =>
      change stop (after c)
      rw [here]
      exact linked
    | cons d rest => exact ⟨here.trans linked.1,there⟩

theorem Linked.splice (linked : Linked next stop (cells ++ c :: rest)) (same : ∀ e ∈ cells, after e = next e)
    {more : List Nat} (tail : Linked after stop (c :: more)) : Linked after stop (cells ++ c :: more) := by
  induction cells with
  | nil => exact tail
  | cons e cells ih =>
    have here := same e (mem_cons_self ..)
    have inner := ih linked.tail fun d member => same d (mem_cons_of_mem e member)
    cases cells with
    | nil => exact ⟨here.trans linked.1,inner⟩
    | cons f more => exact ⟨here.trans linked.1,inner⟩

end

/-- The chains of a family take every used cell of the table once. -/
structure Partition {ι : Type} (chains : ι → List Nat) (used : Nat → Prop) : Prop where
  distinct : ∀ i, (chains i).Nodup
  apart : ∀ i j c, c ∈ chains i → c ∈ chains j → i = j
  member : ∀ c, used c ↔ ∃ i, c ∈ chains i

theorem Partition.update {ι : Type} [DecidableEq ι] {chains : ι → List Nat} {used now : Nat → Prop}
    (part : Partition chains used) (i : ι) (cells : List Nat) (distinct : cells.Nodup)
    (mine : ∀ c ∈ cells, c ∈ chains i ∨ ¬ used c) (covered : ∀ c, now c ↔ c ∈ cells ∨ (used c ∧ c ∉ chains i)) :
    Partition (Function.update chains i cells) now := by
  have others : ∀ j c, j ≠ i → c ∈ chains j → c ∉ cells := by
    intro j c other theirs taken
    rcases mine c taken with own | fresh
    · exact other (part.apart j i c theirs own)
    · exact fresh ((part.member c).mpr ⟨j,theirs⟩)
  refine ⟨fun j => ?_,fun j k c first second => ?_,fun c => ?_⟩
  · by_cases same : j = i
    · rw [same,Function.update_self]
      exact distinct
    · rw [Function.update_of_ne same]
      exact part.distinct j
  · by_cases left : j = i <;> by_cases right : k = i
    · rw [left,right]
    · rw [left,Function.update_self] at first
      rw [Function.update_of_ne right] at second
      exact absurd first (others k c right second)
    · rw [right,Function.update_self] at second
      rw [Function.update_of_ne left] at first
      exact absurd second (others j c left first)
    · rw [Function.update_of_ne left] at first
      rw [Function.update_of_ne right] at second
      exact part.apart j k c first second
  · rw [covered]
    constructor
    · rintro (taken | ⟨before,away⟩)
      · exact ⟨i,by rwa [Function.update_self]⟩
      · obtain ⟨j,theirs⟩ := (part.member c).mp before
        have other : j ≠ i := fun same => away (same ▸ theirs)
        exact ⟨j,by rwa [Function.update_of_ne other]⟩
    rintro ⟨j,theirs⟩
    by_cases same : j = i
    · rw [same,Function.update_self] at theirs
      exact .inl theirs
    · rw [Function.update_of_ne same] at theirs
      exact .inr ⟨(part.member c).mpr ⟨j,theirs⟩,fun own => same (part.apart j i c theirs own)⟩

theorem countP_erase {p q : Nat → Bool} {cells : List Nat} {c : Nat} (distinct : cells.Nodup) (member : c ∈ cells)
    (was : p c) (now : q c = false) (same : ∀ d, d ≠ c → q d = p d) : cells.countP q + 1 = cells.countP p := by
  induction cells with
  | nil => cases member
  | cons d cells ih =>
    obtain ⟨absent,rest⟩ := nodup_cons.mp distinct
    rcases mem_cons.mp member with here | there
    · subst here
      have others : cells.countP q = cells.countP p :=
        countP_congr fun e inside => by rw [same e (fun equal => absent (equal ▸ inside))]
      rw [countP_cons_of_neg (by simp [now]),countP_cons_of_pos was,others]
    have other : d ≠ c := fun equal => absent (equal ▸ there)
    have inner := ih rest there
    simp only [countP_cons,same d other]
    omega

end SurfaceOS.Lib
