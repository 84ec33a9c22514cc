import Mathlib.Data.List.Basic

/-! How grep goes through a file (apps/grep.cpp): the lines are gathered in a buffer of 4096 bytes across the
pieces that are read. -/
namespace SurfaceOS.Apps.Grep
open List

def lineMax : Nat := 4096

structure Options where
  invert : Bool
  countOnly : Bool
  namesOnly : Bool

/-- What was found so far; `shown` are the lines shown with their numbers. -/
structure Search where
  line : Nat
  found : Nat
  binary : Bool
  done : Bool
  shown : List (List UInt8 × Nat)

def dropCr (line : List UInt8) : List UInt8 := if line.getLast? = some 13 then line.dropLast else line

variable (o : Options) (fits : List UInt8 → Bool)

def take (s : Search) (line : List UInt8) : Search :=
  let s := {s with line := s.line + 1}
  if s.done || fits line == o.invert then s
  else
    let s := {s with found := s.found + 1}
    if o.namesOnly then {s with done := true}
    else if o.countOnly || s.binary then s
    else {s with shown := s.shown ++ [(line,s.line)]}

def feed (s : Search × List UInt8) (c : UInt8) : Search × List UInt8 :=
  if c = 10 ∨ s.2.length = lineMax then (take o fits s.1 (dropCr s.2),if c = 10 then [] else [c])
  else (s.1,s.2 ++ [c])

def finish (s : Search × List UInt8) : Search := if s.2 = [] then s.1 else take o fits s.1 s.2

/-- The pieces are what the reads give until one gives nothing. -/
def searchFile (pieces : List (List UInt8)) : Search :=
  finish o fits (pieces.foldl (fun s piece => piece.foldl (feed o fits) s)
    (⟨0,0,((pieces.headD []).take 4096).contains 0,false,[]⟩,[]))

def linesFrom (line : List UInt8) : List UInt8 → List (List UInt8)
  | [] => if line = [] then [] else [line]
  | c :: rest => if c = 10 then dropCr line :: linesFrom [] rest else linesFrom (line ++ [c]) rest

def SearchRight (pieces : List (List UInt8)) : Prop :=
  ∀ o fits, o.namesOnly = false →
    (searchFile o fits pieces).found = (linesFrom [] pieces.flatten).countP (fits · != o.invert) ∧
    (o.countOnly = false → (searchFile o fits pieces).binary = false →
      (searchFile o fits pieces).shown = ((linesFrom [] pieces.flatten).zipIdx 1).filter (fits ·.1 != o.invert))

/-- No line is longer than the buffer, the first one after `n` bytes of it. -/
def Short : Nat → List UInt8 → Prop
  | _, [] => True
  | n, c :: rest => if c = 10 then Short 0 rest else n < lineMax ∧ Short (n + 1) rest

def taken (buf : List UInt8) : List UInt8 → List (List UInt8)
  | [] => if buf = [] then [] else [buf]
  | c :: rest =>
    if c = 10 ∨ buf.length = lineMax then dropCr buf :: taken (if c = 10 then [] else [c]) rest
    else taken (buf ++ [c]) rest

variable {o fits}

theorem finish_feed (s : Search) (buf rest : List UInt8) :
    finish o fits (rest.foldl (feed o fits) (s,buf)) = (taken buf rest).foldl (take o fits) s := by
  induction rest generalizing s buf with
  | nil =>
    unfold taken finish
    split <;> simp_all
  | cons c rest ih =>
    rw [foldl_cons,feed,taken]
    split
    · rw [ih,foldl_cons]
    · exact ih s (buf ++ [c])

theorem takes (names : o.namesOnly = false) (lines : List (List UInt8)) {s : Search} (going : s.done = false) :
    lines.foldl (take o fits) s = {s with
      line := s.line + lines.length
      found := s.found + lines.countP (fits · != o.invert)
      shown := if o.countOnly || s.binary then s.shown
        else s.shown ++ (lines.zipIdx (s.line + 1)).filter (fits ·.1 != o.invert)} := by
  induction lines generalizing s with
  | nil => simp
  | cons line lines ih =>
    have stays : (take o fits s line).done = false := by
      unfold take
      grind
    rw [foldl_cons,ih stays]
    unfold take
    by_cases other : fits line = o.invert
    · simp [other,going,Nat.add_assoc,Nat.add_comm 1]
    · simp only [going,names]
      cases o.countOnly <;> cases s.binary <;> simp [other,Nat.add_assoc,Nat.add_comm 1]

theorem taken_short {buf rest : List UInt8} (short : Short buf.length rest) : taken buf rest = linesFrom buf rest := by
  induction rest generalizing buf with
  | nil => rfl
  | cons c rest ih =>
    unfold Short at short
    unfold taken linesFrom
    split at short
    · next ends => rw [if_pos (.inl ends),if_pos ends,if_pos ends,@ih [] short]
    · next inside => rw [if_neg (not_or.mpr ⟨inside,by omega⟩),if_neg inside,ih (by simpa using short.2)]

theorem lines_le (buf line rest : List UInt8) (begun : line ≠ [] → buf ≠ []) :
    (linesFrom line rest).length ≤ (taken buf rest).length := by
  induction rest generalizing buf line with
  | nil =>
    unfold linesFrom taken
    split <;> simp_all
  | cons c rest ih =>
    unfold linesFrom taken
    by_cases ends : c = 10
    · simpa [ends] using ih [] [] nofun
    · rw [if_neg ends,if_neg ends]
      split
      · exact Nat.le_succ_of_le (ih [c] (line ++ [c]) nofun)
      · exact ih _ _ (by simp)

theorem lines_lt {buf rest : List UInt8} (small : buf.length ≤ lineMax) (long : ¬ Short buf.length rest) :
    (linesFrom buf rest).length < (taken buf rest).length := by
  induction rest generalizing buf with
  | nil => exact absurd trivial long
  | cons c rest ih =>
    unfold Short at long
    unfold linesFrom taken
    by_cases ends : c = 10
    · rw [if_pos ends] at long
      simpa [ends] using @ih [] (Nat.zero_le _) long
    · rw [if_neg ends] at long
      rw [if_neg ends,if_neg ends]
      split
      · exact Nat.lt_succ_of_le (lines_le [c] (buf ++ [c]) rest nofun)
      · exact ih (by simp; omega) (by simp; grind)

theorem searchFile_taken (o : Options) (fits : List UInt8 → Bool) (pieces : List (List UInt8)) :
    searchFile o fits pieces = (taken [] pieces.flatten).foldl (take o fits)
      ⟨0,0,((pieces.headD []).take 4096).contains 0,false,[]⟩ := by
  rw [searchFile,← foldl_flatten,finish_feed]

theorem SearchRight.short {pieces : List (List UInt8)} (right : SearchRight pieces) : Short 0 pieces.flatten := by
  by_contra long
  have count := (right ⟨false,true,false⟩ (fun _ => true) rfl).1
  rw [searchFile_taken,takes rfl _ rfl] at count
  have more := @lines_lt [] _ (Nat.zero_le _) long
  simp at count
  omega

/-- The lines of a file are found and numbered as they are just when none is longer than the buffer. -/
theorem search_right_iff (pieces : List (List UInt8)) : SearchRight pieces ↔ Short 0 pieces.flatten := by
  refine ⟨SearchRight.short,fun short o fits names => ?_⟩
  rw [searchFile_taken,@taken_short [] _ short,takes names _ rfl]
  exact ⟨Nat.zero_add _,fun counts binary => by simp_all⟩

/-- A line of 4097 bytes counts as two. -/
theorem long_line_wrong : ¬ SearchRight [replicate 4097 97] := by
  intro right
  have fits : ∀ k n, Short n (replicate (k + 1) 97) → n + k < lineMax := by
    intro k
    induction k with
    | zero => simp [Short]
    | succ k ih =>
      intro n short
      have := ih (n + 1) short.2
      omega
  exact absurd (fits 4096 0 (by rw [← flatten_singleton (l := replicate _ _)]; exact right.short)) (by decide)

end SurfaceOS.Apps.Grep
