import Mathlib.Data.List.Infix

/-! Looking for a text in a file that is read in pieces (apps/explorer/tools.cpp). -/
namespace SurfaceOS.Apps.Holding
open List

def lower (c : UInt8) : UInt8 := if 65 ≤ c ∧ c ≤ 90 then c + 32 else c

def matchAt (buffer wanted : List UInt8) (i : Nat) : Bool :=
  (range wanted.length).all fun k => buffer[i + k]?.map lower == wanted[k]?.map lower

/-- The pieces are what the reads give, until one gives nothing; `kept` is the end of what was read before. -/
def holdsFrom (wanted kept : List UInt8) : List (List UInt8) → Bool
  | [] => false
  | piece :: rest =>
    let total := kept ++ piece
    piece ≠ [] && ((range (total.length + 1 - wanted.length)).any (matchAt total wanted) ||
      holdsFrom wanted (total.drop (total.length - min total.length (wanted.length - 1))) rest)

def holds (wanted : List UInt8) (pieces : List (List UInt8)) : Bool := holdsFrom wanted [] pieces

theorem matchAt_iff (buffer wanted : List UInt8) (i : Nat) :
    matchAt buffer wanted i ↔ wanted.map lower <+: (buffer.map lower).drop i := by
  simp only [matchAt,all_eq_true,mem_range,beq_iff_eq,prefix_iff_getElem?,length_map,getElem?_drop,getElem?_map,
    getElem_map]
  exact forall₂_congr fun k inside => by simp [inside]

theorem any_matchAt (wanted total : List UInt8) :
    (range (total.length + 1 - wanted.length)).any (matchAt total wanted) ↔
      wanted.map lower <:+: total.map lower := by
  rw [any_eq_true]
  constructor
  · rintro ⟨pos,_,here⟩
    exact ((matchAt_iff total wanted pos).mp here).isInfix.trans (drop_suffix ..).isInfix
  · rintro ⟨before,behind,split⟩
    have length := congrArg length split
    simp only [length_append,length_map] at length
    refine ⟨before.length,mem_range.mpr (by omega),(matchAt_iff ..).mpr ?_⟩
    rw [← split,append_assoc,drop_left]
    exact prefix_append ..

/-- A window that overlaps what was read by one less than the word's length misses no occurrence. -/
theorem infix_window {α : Type} {word old kept new : List α}
    (overlap : old = [] ∨ word.length ≤ kept.length + 1) :
    word <:+: old ++ (kept ++ new) ↔ word <:+: old ++ kept ∨ word <:+: kept ++ new := by
  constructor
  · rintro ⟨before,behind,split⟩
    rw [append_assoc] at split
    rcases append_eq_append_iff.mp split with ⟨more,rfl,rest⟩ | ⟨more,_,rest⟩
    · rcases eq_or_ne more [] with rfl | some
      · exact .inr ⟨[],behind,by simpa using rest⟩
      have fits : word <+: more ++ kept := by
        refine prefix_of_prefix_length_le (prefix_append word behind) (rest ▸ ?_) ?_
        · rw [← append_assoc]
          exact prefix_append ..
        · have long := overlap.resolve_left (by simp [some])
          have positive := length_pos_of_ne_nil some
          rw [length_append]
          omega
      rw [append_assoc]
      exact .inl (fits.isInfix.trans (suffix_append ..).isInfix)
    · exact .inr ⟨more,behind,by rw [append_assoc]; exact rest.symm⟩
  · rintro (early | late)
    · rw [← append_assoc]
      exact early.trans (prefix_append ..).isInfix
    · exact late.trans (suffix_append ..).isInfix

theorem holdsFrom_iff {wanted : List UInt8} (some : wanted ≠ []) (old kept : List UInt8) (pieces : List (List UInt8))
    (reads : [] ∉ pieces) (overlap : old = [] ∨ kept.length = wanted.length - 1)
    (fresh : ¬ wanted.map lower <:+: (old ++ kept).map lower) :
    holdsFrom wanted kept pieces ↔ wanted.map lower <:+: (old ++ kept ++ pieces.flatten).map lower := by
  have long := length_pos_of_ne_nil some
  induction pieces generalizing old kept with
  | nil => simpa [holdsFrom] using fresh
  | cons piece rest ih =>
    simp only [mem_cons,not_or] at reads
    have window : wanted.map lower <:+: (old ++ (kept ++ piece)).map lower ↔
        wanted.map lower <:+: (kept ++ piece).map lower := by
      simp only [map_append] at fresh ⊢
      rw [infix_window,or_iff_right fresh]
      refine overlap.imp (fun none => by rw [none]; rfl) fun full => ?_
      simp only [length_map]
      omega
    simp only [holdsFrom,Bool.and_eq_true,Bool.or_eq_true,any_matchAt,decide_eq_true_eq]
    rw [and_iff_right (Ne.symm reads.1),flatten_cons]
    by_cases here : wanted.map lower <:+: (kept ++ piece).map lower
    · refine iff_of_true (.inl here) ((window.mpr here).trans ?_)
      rw [← append_assoc,← append_assoc]
      exact (prefix_append ..).isInfix.map lower
    rw [or_iff_right here]
    generalize whole : kept ++ piece = total at *
    generalize keeps : total.length - min total.length (wanted.length - 1) = skip
    have parts : old ++ total.take skip ++ total.drop skip = old ++ total := by
      rw [append_assoc,take_append_drop]
    have overlapped : old ++ total.take skip = [] ∨ (total.drop skip).length = wanted.length - 1 := by
      rcases Nat.lt_or_ge total.length (wanted.length - 1) with short | enough
      · have none := overlap.resolve_right fun full => by
          rw [← whole,length_append] at short
          omega
        left
        rw [none,← keeps,Nat.min_eq_left short.le]
        simp
      · right
        rw [length_drop]
        omega
    refine (ih _ _ reads.2 overlapped (by rwa [parts,window])).trans ?_
    rw [parts,← whole]
    simp only [append_assoc]

/-- Holds finds a text that is there in any case, however the file is read. -/
theorem holds_text_iff {wanted : List UInt8} {pieces : List (List UInt8)} (some : wanted ≠ []) (reads : [] ∉ pieces) :
    holds wanted pieces ↔ wanted.map lower <:+: pieces.flatten.map lower :=
  holdsFrom_iff some [] [] pieces reads (.inl rfl) (by simpa using some)

/-- "bC" lies across two pieces of "aB", "c". -/
theorem holds_across : holds [98,67] [[97,66],[99]] ↔ [98,67].map lower <:+: [97,66,99].map lower :=
  holds_text_iff (by decide) (by decide)

end SurfaceOS.Apps.Holding
