import SurfaceOS.Mm.Pmm

/-! When `alloc_frames` finds nothing. Its two passes meet at the cursor and neither looks across it, so
frames in a row that lie on both sides are not seen. -/
namespace SurfaceOS.Mm
open Lib List Option Nat

variable {free : List Nat} {cursor f : Nat}

namespace Pmm

variable {start stop : Nat}
variable {s t : Pmm} {boot : BootHeader} {n first last i run left : Nat}

def FreeRun (s : Pmm) (n first : Nat) : Prop := 0 < n ∧ ∀ f, first ≤ f → f < first + n → s.bitmap f = false

/-- `alloc_frames` fails only where there are no `n` frames in a row. -/
def Complete (s : Pmm) (n : Nat) : Prop := (s.allocFrames n).1 = 0 → ¬ ∃ first, s.FreeRun n first

section Search
variable {bitmap : Nat → Bool}

theorem findRun_least (pos : 0 < n) (free : ∀ f, first ≤ f → f < first + n → bitmap f = false) (low : i - run ≤ first)
    (passed : run ≤ i) (short : run < n) (inside : first + n ≤ i + left) :
    ∃ last, findRun bitmap n left i run = some last ∧ last + 1 ≤ first + n := by
  induction left generalizing i run with
  | zero => omega
  | succ left ih =>
    rw [findRun]
    split
    · next used =>
      have later : i < first := by
        by_contra within
        rw [free i (by omega) (by omega)] at used
        cases used
      exact ih (by omega) (zero_le _) pos (by omega)
    · split
      · exact ⟨i,rfl,by omega⟩
      · exact ih (by omega) (by omega) (by omega) (by omega)

theorem findRun_inside (found : findRun bitmap n left i run = some last) (short : run < n) :
    i + n ≤ last + 1 + run ∧ last + 1 ≤ i + left := by
  induction left generalizing i run with
  | zero => cases found
  | succ left ih =>
    rw [findRun] at found
    split at found
    · have rest := ih found (by omega)
      omega
    split at found
    · cases found
      omega
    · have rest := ih found (by omega)
      omega

theorem findRun_some (pos : 0 < n) (found : findRun bitmap n left i 0 = some last) :
    (∀ f, last + 1 - n ≤ f → f < last + 1 - n + n → bitmap f = false) ∧ i ≤ last + 1 - n ∧
      last + 1 - n + n = last + 1 ∧ last + 1 ≤ i + left := by
  obtain ⟨long,free⟩ := findRun_found (zero_le _) (fun k above below => by omega) found
  obtain ⟨begins,inside⟩ := findRun_inside found pos
  exact ⟨fun f above below => free f above (by omega),by omega,by omega,by omega⟩

end Search

def pass (s : Pmm) (n start stop : Nat) : Option Nat :=
  (findRun s.bitmap n (stop - start) start 0).map (· + 1 - n)

theorem pass_some (pos : 0 < n) (found : s.pass n start stop = some first) :
    s.FreeRun n first ∧ start ≤ first ∧ first + n ≤ stop := by
  obtain ⟨last,ends,rfl⟩ := map_eq_some_iff.mp found
  obtain ⟨free,begins,long,inside⟩ := findRun_some pos ends
  exact ⟨⟨pos,free⟩,begins,by omega⟩

theorem pass_least (free : s.FreeRun n first) (low : start ≤ first) (inside : first + n ≤ stop) :
    ∃ found, s.pass n start stop = some found ∧ found ≤ first := by
  obtain ⟨last,ends,least⟩ := findRun_least free.1 free.2 (le_trans (sub_le _ 0) low) (zero_le _)
    free.1 (by omega : first + n ≤ start + (stop - start))
  exact ⟨last + 1 - n,by rw [pass,ends]; rfl,by omega⟩

theorem pass_none (missing : s.pass n start stop = none) (free : s.FreeRun n first)
    (low : start ≤ first) : stop < first + n := by
  by_contra inside
  obtain ⟨found,here,-⟩ := pass_least free low (by omega : first + n ≤ stop)
  rw [missing] at here
  cases here

theorem firstFree_eq (bitmap : Nat → Bool) (start stop : Nat) :
    firstFree bitmap start stop = findRun bitmap 1 (stop - start) start 0 := by
  unfold firstFree span
  generalize stop - start = left
  induction left generalizing start with
  | zero => rfl
  | succ left ih =>
    rw [range'_succ,find?_cons,findRun,ih]
    cases bitmap start with
    | false => rfl
    | true => rfl

theorem allocFrames_passes (ready : s.initialized) (pos : 0 < n) :
    (s.allocFrames n).1 = ((s.pass n s.cursor s.limit).or (s.pass n 0 s.cursor)).getD 0 * frameSize := by
  have some : ¬ (!s.initialized ∨ n = 0) := by
    rintro (missing | zero)
    · simp [ready] at missing
    · omega
  unfold allocFrames pass
  rw [if_neg some]
  by_cases one : n = 1
  · subst one
    rw [if_pos rfl,allocFrame,if_neg (by simp [ready]),firstFree_eq,firstFree_eq]
    cases findRun s.bitmap 1 (s.limit - s.cursor) s.cursor 0 with
    | some last => rfl
    | none =>
      cases findRun s.bitmap 1 s.cursor 0 0 with
      | some last => rfl
      | none => simp
  · rw [if_neg one]
    cases findRun s.bitmap n (s.limit - s.cursor) s.cursor 0 with
    | some last => rfl
    | none =>
      cases findRun s.bitmap n s.cursor 0 0 with
      | some last => rfl
      | none => simp

theorem readEntry_phys (s : Pmm) (e : MapEntry) :
    (s.readEntry e).maxPhys = if e.stop > s.maxPhys then e.stop else s.maxPhys := by
  unfold readEntry
  dsimp only
  split
  · rfl
  · exact (foldl_alike markFree_alike _ _).phys

theorem init_phys (boot : BootHeader) : (init boot).maxPhys = (mapped boot).maxPhys := (reserved_alike boot).phys

theorem init_paged (boot : BootHeader) : frameSize ∣ (init boot).maxPhys := by
  have read (map : List MapEntry) (s : Pmm) (paged : frameSize ∣ s.maxPhys) :
      frameSize ∣ (map.foldl readEntry s).maxPhys := by
    induction map generalizing s with
    | nil => exact paged
    | cons e rest ih =>
      refine ih _ ?_
      rw [readEntry_phys]
      split
      · exact e.paged.2
      · exact paged
  rw [init_phys,mapped_phys]
  rcases le_total (boot.map.foldl readEntry (blank boot.directMapLimit)).maxPhys (boot.frames * frameSize) with less | more
  · rw [min_eq_left less]
    exact read boot.map (blank boot.directMapLimit) (dvd_zero _)
  · rw [min_eq_right more]
    exact dvd_mul_left ..

structure Covered (boot : BootHeader) (s : Pmm) : Prop where
  ready : s.initialized
  phys : s.maxPhys = (init boot).maxPhys
  below : ∀ f, s.bitmap f = false → f < s.limit

theorem Covered.init (boot : BootHeader) : Covered boot (init boot) :=
  ⟨rfl,rfl,fun _ free => open_below (init_free.mp free)⟩

section
variable (covered : Covered boot s)
include covered

theorem Covered.take (first last : Nat) : Covered boot (s.take first last).2 := by
  have alike : Alike s ((span first (last + 1)).foldl markUsed s) := foldl_alike markUsed_alike _ s
  have limit : (s.take first last).2.limit = s.limit := congrArg (· / frameSize) alike.phys
  refine ⟨alike.ready.trans covered.ready,alike.phys.trans covered.phys,fun f free => ?_⟩
  rw [limit]
  exact covered.below f ((useAll_free _ s).mp free).1

theorem Covered.freeFrame (phys : Nat) : Covered boot (s.freeFrame phys) := by
  unfold Pmm.freeFrame
  split
  · exact covered
  rename_i inside
  obtain ⟨-,small⟩ := not_or.mp inside
  have alike := markFree_alike s (phys / frameSize)
  have limit : (s.markFree (phys / frameSize)).limit = s.limit := congrArg (· / frameSize) alike.phys
  refine ⟨alike.ready.trans covered.ready,alike.phys.trans covered.phys,fun f free => ?_⟩
  change f < (s.markFree (phys / frameSize)).limit
  rw [limit]
  rcases markFree_free.mp free with before | ⟨rfl,-⟩
  · exact covered.below f before
  · have paged := covered.phys ▸ init_paged boot
    exact div_lt_div_of_lt_of_dvd paged (Nat.lt_of_not_le small)

theorem Covered.freeFrames (phys left i : Nat) : Covered boot (s.freeFrames phys left i) := by
  induction left generalizing s i with
  | zero => exact covered
  | succ left ih =>
    rw [Pmm.freeFrames]
    split
    · exact covered
    · exact ih (covered.freeFrame _) (i + 1)

theorem Covered.allocFrame : Covered boot s.allocFrame.2 := by
  unfold Pmm.allocFrame
  repeat' split
  · exact covered
  · exact covered.take _ _
  · exact covered.take _ _
  · exact covered

theorem Covered.allocFrames (n : Nat) : Covered boot (s.allocFrames n).2 := by
  unfold Pmm.allocFrames
  repeat' split
  · exact covered
  · exact covered.allocFrame
  · exact covered.take _ _
  · exact covered.take _ _
  · exact covered

end

def call (s : Pmm) : Call → Pmm
  | .allocFrame => s.allocFrame.2
  | .allocFrames n => (s.allocFrames n).2
  | .freeFrame phys => s.freeFrame phys
  | .freeFrames phys n => s.freeFrames phys n 0

abbrev Called (boot : BootHeader) : Pmm → Prop :=
  Reach (fun s => s = init boot) (fun _ _ => True) fun s c t => t = s.call c

theorem Called.covered (called : Called boot s) : Covered boot s := by
  refine Reach.invariant (Covered boot) ?_ ?_ s called
  · rintro _ rfl
    exact .init boot
  rintro s c _ covered - rfl
  cases c with
  | allocFrame => exact covered.allocFrame
  | allocFrames n => exact covered.allocFrames n
  | freeFrame phys => exact covered.freeFrame phys
  | freeFrames phys n => exact covered.freeFrames phys n 0

theorem Covered.ends (covered : Covered boot s) (free : s.FreeRun n first) : first + n ≤ s.limit := by
  have last := covered.below (first + n - 1) (free.2 _ (by have := free.1; omega) (by have := free.1; omega))
  omega

/-- `alloc_frames` misses what there is unless some run lies on one side of the cursor, and the one that
it meets first is not at frame 0. -/
theorem complete_iff (called : Called boot s) (n : Nat) : s.Complete n ↔ ((∃ first, s.FreeRun n first) →
    (∃ first, s.FreeRun n first ∧ s.cursor ≤ first) ∧ ¬ (s.cursor = 0 ∧ s.FreeRun n 0) ∨
    (∃ first, s.FreeRun n first ∧ first + n ≤ s.cursor) ∧ ¬ s.FreeRun n 0) := by
  have covered := called.covered
  rcases Nat.eq_zero_or_pos n with rfl | pos
  · have never : ¬ ∃ first, s.FreeRun 0 first := fun ⟨_,free⟩ => absurd free.1 (Nat.lt_irrefl 0)
    exact ⟨fun _ there => absurd there never,fun _ _ => never⟩
  have address (found : Nat) : found * frameSize = 0 ↔ found = 0 := by
    unfold frameSize
    omega
  unfold Complete
  rw [allocFrames_passes covered.ready pos]
  cases upper : s.pass n s.cursor s.limit with
  | some found =>
    obtain ⟨free,above,-⟩ := pass_some pos upper
    rw [some_or,getD_some,address]
    constructor
    · intro complete _
      refine .inl ⟨⟨found,free,above⟩,fun ⟨start,bottom⟩ => ?_⟩
      obtain ⟨least,also,low⟩ := pass_least bottom (Nat.le_of_eq start) (covered.ends bottom)
      obtain rfl := some.inj (upper.symm.trans also)
      exact complete (by omega) ⟨0,bottom⟩
    rintro holds rfl -
    rcases holds ⟨0,free⟩ with ⟨-,other⟩ | ⟨-,other⟩
    · exact other ⟨by omega,free⟩
    · exact other free
  | none =>
    have nothing {first : Nat} (free : s.FreeRun n first) : first < s.cursor := by
      by_contra above
      have := pass_none upper free (by omega)
      have := covered.ends free
      omega
    cases lower : s.pass n 0 s.cursor with
    | some found =>
      obtain ⟨free,-,inside⟩ := pass_some pos lower
      rw [none_or,getD_some,address]
      constructor
      · intro complete _
        refine .inr ⟨⟨found,free,inside⟩,fun bottom => ?_⟩
        obtain ⟨least,also,low⟩ := pass_least bottom (Nat.zero_le 0) (by omega : 0 + n ≤ s.cursor)
        obtain rfl := some.inj (lower.symm.trans also)
        exact complete (by omega) ⟨0,bottom⟩
      rintro holds rfl -
      rcases holds ⟨0,free⟩ with ⟨⟨first,other,above⟩,-⟩ | ⟨-,other⟩
      · exact absurd (nothing other) (Nat.not_lt.mpr above)
      · exact other free
    | none =>
      constructor
      · intro complete there
        exact absurd there (complete (by simp))
      intro holds _ there
      rcases holds there with ⟨⟨first,free,above⟩,-⟩ | ⟨⟨first,free,inside⟩,-⟩
      · exact absurd (nothing free) (Nat.not_lt.mpr above)
      · exact absurd (pass_none lower free (Nat.zero_le _)) (Nat.not_lt.mpr inside)

def fourFrames : BootHeader := {Ledger.smallBoot with map := [⟨0x800000,0x804000,0,by decide,by decide⟩]}

theorem fourFrames_open : fourFrames.Open f ↔ f ∈ [0x800,0x801,0x802,0x803] := by
  constructor
  · rintro ⟨-,⟨e,member,-,low,high⟩,-⟩
    obtain rfl := mem_singleton.mp member
    unfold frameSize at low high
    simp only at low high
    simp only [mem_cons]
    omega
  intro member
  have range : 0x800 ≤ f ∧ f < 0x804 := by
    simp only [mem_cons,not_mem_nil,or_false] at member
    omega
  refine ⟨?_,⟨_,mem_cons_self ..,rfl,?_,?_⟩,?_⟩
  · change f < 0x4000
    omega
  · change 0x800000 ≤ f * 0x1000
    omega
  · change (f + 1) * 0x1000 ≤ 0x804000
    omega
  rintro ⟨region,kept,low,high⟩
  unfold frameSize at low high
  simp only [keptRegions,mem_cons,not_mem_nil,or_false] at kept
  rcases kept with rfl | rfl | rfl | rfl | rfl | rfl
  all_goals
    simp only [lowReserveEnd,bitmapAddr,heapStart,fourFrames,Ledger.smallBoot] at low high
    omega

structure Shape (s : Pmm) (free : List Nat) (cursor : Nat) : Prop where
  ready : s.initialized
  frames : s.bitmapFrames = 0x4000
  phys : s.maxPhys = 0x804000
  bits : s.bitmap = fun f => !free.contains f
  cursor : s.cursor = cursor

theorem Shape.taken {free rest : List Nat} (shape : Shape s free cursor)
    (fewer : ∀ f, f ∈ rest ↔ f ∈ free ∧ ¬ (first ≤ f ∧ f ≤ last)) (small : ∀ f ∈ free, f < 0x4000) :
    Shape (s.take first last).2 rest (last + 1) := by
  have alike : Alike s ((span first (last + 1)).foldl markUsed s) := foldl_alike markUsed_alike _ s
  refine ⟨alike.ready.trans shape.ready,alike.frames.trans shape.frames,alike.phys.trans shape.phys,?_,rfl⟩
  funext f
  rw [Bool.eq_iff_iff,← not_iff_not,Bool.not_eq_true,Bool.not_eq_true]
  change ((span first (last + 1)).foldl markUsed s).bitmap f = false ↔ _
  rw [useAll_free,shape.bits,shape.frames,mem_span]
  simp only [Bool.not_eq_eq_eq_not,Bool.not_false,contains_iff_mem,fewer]
  constructor
  · rintro ⟨inside,outside⟩
    exact ⟨inside,fun within => absurd (small f inside) (not_lt.mpr (outside ⟨within.1,by omega⟩))⟩
  · rintro ⟨inside,outside⟩
    exact ⟨inside,fun within => absurd ⟨within.1,by omega⟩ outside⟩

theorem Shape.limit (shape : Shape s free cursor) : s.limit = 0x804 := by
  rw [Pmm.limit,shape.phys]
  rfl

section
variable {free rest : List Nat} {cursor : Nat} (shape : Shape s free cursor)
include shape

theorem Shape.allocFrame
    (found : firstFree (fun f => !free.contains f) cursor 0x804 = some i) (fewer : ∀ f, f ∈ rest ↔ f ∈ free ∧ f ≠ i)
    (small : ∀ f ∈ free, f < 0x4000) : Shape s.allocFrame.2 rest (i + 1) := by
  have took : s.allocFrame = s.take i i := by
    unfold Pmm.allocFrame
    rw [shape.ready,shape.bits,shape.cursor,shape.limit,found]
    rfl
  rw [took]
  refine shape.taken (fun f => ?_) small
  rw [fewer]
  exact and_congr_right fun _ => not_congr (by omega)

theorem Shape.allocFrames (several : 1 < n)
    (found : findRun (fun f => !free.contains f) n (0x804 - cursor) cursor 0 = some last)
    (fewer : ∀ f, f ∈ rest ↔ f ∈ free ∧ ¬ (last + 1 - n ≤ f ∧ f ≤ last)) (small : ∀ f ∈ free, f < 0x4000) :
    Shape (s.allocFrames n).2 rest (last + 1) := by
  have took : s.allocFrames n = s.take (last + 1 - n) last := by
    unfold Pmm.allocFrames
    rw [if_neg (by simp [shape.ready]; omega),if_neg (by omega),shape.bits,shape.cursor,shape.limit,found]
  rw [took]
  exact shape.taken fewer small

end

theorem Shape.freeFrame (shape : Shape s free cursor) (small : i < 0x804) :
    Shape (s.freeFrame (i * frameSize)) (i :: free) (if i < cursor then i else cursor) := by
  have index : i * frameSize / frameSize = i := Nat.mul_div_cancel _ (by decide)
  have below : ¬ (!s.initialized ∨ i * frameSize ≥ s.maxPhys) := by
    rw [shape.ready,shape.phys]
    unfold frameSize
    simp only [Bool.not_true,Bool.false_eq_true,false_or]
    omega
  have alike := markFree_alike s i
  unfold Pmm.freeFrame
  rw [if_neg below,index]
  refine ⟨alike.ready.trans shape.ready,alike.frames.trans shape.frames,alike.phys.trans shape.phys,?_,?_⟩
  · funext f
    rw [Bool.eq_iff_iff,← not_iff_not,Bool.not_eq_true,Bool.not_eq_true]
    rw [markFree_free,shape.bits,shape.frames]
    simp only [Bool.not_eq_eq_eq_not,Bool.not_false,contains_iff_mem,mem_cons]
    constructor
    · rintro (before | ⟨here,-⟩)
      · exact .inr before
      · exact .inl here
    · rintro (here | before)
      · exact .inr ⟨here,by omega⟩
      · exact .inl before
  · have kept : (s.markFree i).cursor = s.cursor := by
      unfold markFree
      split <;> rfl
    change (if i < (s.markFree i).cursor then i else (s.markFree i).cursor) = _
    rw [kept,shape.cursor]

theorem fourFrames_shape : Shape (init fourFrames) [0x800,0x801,0x802,0x803] 0 := by
  have frames : fourFrames.frames = 0x4000 := by decide
  refine ⟨(init_started fourFrames).ready,(init_started fourFrames).frames.trans frames,?_,?_,rfl⟩
  · have read : (fourFrames.map.foldl readEntry (blank fourFrames.directMapLimit)).maxPhys = 0x804000 := by
      rfl
    rw [init_phys,mapped_phys]
    rfl
  · funext f
    rw [Bool.eq_iff_iff,← not_iff_not,Bool.not_eq_true,Bool.not_eq_true,init_free,fourFrames_open]
    simp only [Bool.not_eq_eq_eq_not,Bool.not_false,contains_iff_mem]

theorem complete_iff_four : (init fourFrames).FreeRun 4 0x800 ∧ (init fourFrames).Complete 4 := by
  have run : (init fourFrames).FreeRun 4 0x800 := by
    refine ⟨by decide,fun f above below => init_free.mpr (fourFrames_open.mpr ?_)⟩
    simp only [mem_cons]
    omega
  refine ⟨run,(complete_iff (.start _ rfl) 4).mpr fun _ => .inl ⟨⟨0x800,run,zero_le _⟩,fun bottom => ?_⟩⟩
  have free := fourFrames_open.mp (init_free.mp (bottom.2.2 0 (le_refl 0) (by decide)))
  exact absurd free (by decide)

theorem fourFrames_straddled : ∃ s, Called fourFrames s ∧ Shape s [0x801,0x800] 0x801 := by
  have small {free : List Nat} (inside : free.all (· < 0x4000)) : ∀ f ∈ free, f < 0x4000 := by simpa using inside
  have alloc {s : Pmm} {free rest : List Nat} {c i : Nat} (called : Called fourFrames s) (shape : Shape s free c)
      (found : firstFree (fun f => !free.contains f) c 0x804 = some i) (fewer : ∀ f, f ∈ rest ↔ f ∈ free ∧ f ≠ i)
      (inside : free.all (· < 0x4000)) : ∃ t, Called fourFrames t ∧ Shape t rest (i + 1) :=
    ⟨_,.next s _ .allocFrame called trivial rfl,shape.allocFrame found fewer (small inside)⟩
  have free {s : Pmm} {free : List Nat} {c i : Nat} (called : Called fourFrames s) (shape : Shape s free c)
      (inside : i < 0x804) : ∃ t, Called fourFrames t ∧ Shape t (i :: free) (if i < c then i else c) :=
    ⟨_,.next s _ (.freeFrame (i * frameSize)) called trivial rfl,shape.freeFrame inside⟩
  have start : Called fourFrames (init fourFrames) := .start _ rfl
  obtain ⟨one,called,shape⟩ : ∃ t, Called fourFrames t ∧ Shape t [0x801,0x802,0x803] 0x801 :=
    alloc start fourFrames_shape (by decide +kernel) (fun f => by simp; omega) (by decide)
  obtain ⟨two,called,shape⟩ : ∃ t, Called fourFrames t ∧ Shape t [0x802,0x803] 0x802 :=
    alloc called shape (by decide +kernel) (fun f => by simp; omega) (by decide)
  obtain ⟨three,called,shape⟩ : ∃ t, Called fourFrames t ∧ Shape t [0x800,0x802,0x803] 0x800 :=
    free called shape (by decide)
  have called := Reach.next three _ (.allocFrames 2) called trivial rfl
  have shape : Shape (three.allocFrames 2).2 [0x800] 0x804 :=
    shape.allocFrames (by decide) (by decide +kernel) (fun f => by simp; omega) (small (by decide))
  exact free called shape (i := 0x801) (by decide)

theorem not_every_alloc_complete : ¬ ∀ boot s, Called boot s → ∀ n, s.Complete n := by
  intro all
  obtain ⟨s,called,shape⟩ := fourFrames_straddled
  refine all fourFrames s called 2 ?_ ⟨0x800,by decide,fun f above below => ?_⟩
  · rw [allocFrames_passes shape.ready (by decide),shape.cursor,shape.limit]
    unfold pass
    rw [shape.bits]
    decide +kernel
  rw [shape.bits]
  obtain rfl | rfl : f = 0x800 ∨ f = 0x801 := by omega
  · rfl
  · rfl

end Pmm
end SurfaceOS.Mm
