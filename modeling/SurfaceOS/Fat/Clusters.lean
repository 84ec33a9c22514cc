import Mathlib.Data.List.Perm.Subperm
import Mathlib.Data.List.NodupEquivFin
import SurfaceOS.Fat.Table
import SurfaceOS.Lib.Chain

/-! Cluster chains and the allocator (fat.cpp): walking a chain with the position cache of its
node, taking a free cluster, linking it to a chain's end and freeing a chain. Each function has
one lemma that says what it does to the table. -/
namespace SurfaceOS.Fat
open Lib Lib.Memory List Nat

variable {front cells rest : List Nat} {guard last c d i index : Nat}

/-- A `fat_node` with the size and the dirty flag of its vnode. -/
structure Node where
  firstCluster : Nat
  lastIndex : Nat
  lastCluster : Nat
  size : Nat
  dirty : Bool
  deriving DecidableEq

variable {fn : Node} (sb : Super)

def chainAdvance (v : Vol) : Nat → Nat → Except Errno Nat
  | 0, cluster => .ok cluster
  | steps + 1, cluster => match readEntry sb v cluster with
    | .error e => .error e
    | .ok next =>
      if next ≥ clusterEoc then .error .enxio
      else if next = clusterFree then .error .eio
      else if next = clusterBad then .error .eio
      else chainAdvance v steps next

def clusterAt (v : Vol) (fn : Node) (index : Nat) : Except Errno (Nat × Node) :=
  if fn.firstCluster < 2 then .error .enxio
  else
    let walk := if fn.lastCluster ≥ 2 ∧ index ≥ fn.lastIndex ∧ index - fn.lastIndex < sb.totalClusters
      then chainAdvance sb v (index - fn.lastIndex) fn.lastCluster
      else chainAdvance sb v index fn.firstCluster
    match walk with
    | .error e => .error e
    | .ok cluster => .ok (cluster,{fn with lastIndex := index, lastCluster := cluster})

/-- The search of `alloc_cluster` over `left` more clusters, wrapping at the end. -/
def scanFree (v : Vol) : Nat → Nat → Except Errno (Option Nat)
  | 0, _ => .ok none
  | left + 1, c => match readEntry sb v c with
    | .error e => .error e
    | .ok value =>
      if value = clusterFree then .ok (some c)
      else scanFree v left (if c + 1 > sb.totalClusters + 1 then 2 else c + 1)

def Vol.took (v : Vol) (c : Nat) : Vol :=
  {v with
    freeCount := if v.freeCount ≠ countUnknown ∧ v.freeCount > 0 then v.freeCount - 1 else v.freeCount
    nextFree := if c + 1 > sb.totalClusters + 1 then 2 else c + 1}

def around (c i : Nat) : Nat := 2 + (c - 2 + i) % sb.totalClusters

def searchStart (v : Vol) : Nat :=
  if v.nextFree < 2 ∨ v.nextFree > sb.totalClusters + 1 then 2 else v.nextFree

def allocCluster (v : Vol) : Except Errno (Nat × Vol) :=
  match scanFree sb v sb.totalClusters (searchStart sb v) with
  | .error e => .error e
  | .ok none => .error .enospc
  | .ok (some c) => match writeEntry sb v c clusterEoc with
    | .error e => .error e
    | .ok v => .ok (c,v.took sb c)

def Vol.gaveBack (v : Vol) : Vol :=
  {v with freeCount := if v.freeCount ≠ countUnknown then v.freeCount + 1 else v.freeCount}

def freeLoop : Nat → Vol → Nat → Except Errno Unit × Vol
  | 0, v, c => if c ≥ 2 ∧ c < clusterEoc then (.error .eio,v) else (.ok (),v)
  | guard + 1, v, c =>
    if c ≥ 2 ∧ c < clusterEoc then
      match readEntry sb v c with
      | .error e => (.error e,v)
      | .ok next => match writeEntry sb v c clusterFree with
        | .error e => (.error e,v)
        | .ok v => freeLoop guard v.gaveBack next
    else (.ok (),v)

def freeChain (v : Vol) (firstCluster : Nat) : Except Errno Unit × Vol :=
  freeLoop sb (sb.totalClusters + 2) v firstCluster

/-- The walk of `chain_append` to the last cluster, with its index. -/
def findEnd (v : Vol) : Nat → Nat → Nat → Except Errno (Nat × Nat)
  | guard, c, idx => match readEntry sb v c with
    | .error e => .error e
    | .ok next =>
      if next ≥ clusterEoc then .ok (c,idx)
      else if next < 2 then .error .eio
      else match guard with
        | 0 => .error .eio
        | guard + 1 => findEnd v guard next (idx + 1)

def chainAppend (v : Vol) (fn : Node) (newc : Nat) : Except Errno (Node × Vol) :=
  if fn.firstCluster < 2 then
    .ok ({fn with firstCluster := newc, lastIndex := 0, lastCluster := newc},v)
  else
    let found := if fn.lastCluster ≥ 2 then findEnd sb v (sb.totalClusters + 2) fn.lastCluster fn.lastIndex
      else findEnd sb v (sb.totalClusters + 2) fn.firstCluster 0
    match found with
    | .error e => .error e
    | .ok (c,idx) => match writeEntry sb v c newc with
      | .error e => .error e
      | .ok v => .ok ({fn with lastIndex := idx + 1, lastCluster := newc},v)

structure Chain (disk : Disk) (cells : List Nat) : Prop where
  linked : Linked (table sb disk) (clusterEoc ≤ ·) cells
  legal : ∀ c ∈ cells, legalCluster sb c

structure Node.On (fn : Node) (cells : List Nat) : Prop where
  first : fn.firstCluster = cells.head?.getD 0
  cache : fn.lastCluster < 2 ∨ cells[fn.lastIndex]? = some fn.lastCluster

variable {sb}

section
variable {v : Vol} {c : Nat}

section
variable (legal : legalCluster sb c)
include legal

theorem around_next (i : Nat) :
    around sb (if c + 1 > sb.totalClusters + 1 then 2 else c + 1) i = around sb c (i + 1) := by
  rw [legalCluster_iff] at legal
  unfold around
  split
  · have last : c - 2 + (i + 1) = i + sb.totalClusters := by omega
    rw [last,add_mod_right,Nat.zero_add]
  · rw [show c + 1 - 2 + i = c - 2 + (i + 1) by omega]

theorem around_zero : around sb c 0 = c := by
  rw [legalCluster_iff] at legal
  rw [around,mod_eq_of_lt (by omega)]
  omega

theorem around_legal (i : Nat) : legalCluster sb (around sb c i) := by
  rw [legalCluster_iff] at legal ⊢
  have bound := mod_lt (c - 2 + i) (show 0 < sb.totalClusters by omega)
  unfold around
  omega

theorem scans (left : Nat) : (∃ i < left, scanFree sb v left c = .ok (some (around sb c i)) ∧
      table sb v.disk (around sb c i) = clusterFree ∧ ∀ j < i, table sb v.disk (around sb c j) ≠ clusterFree) ∨
    (scanFree sb v left c = .ok none ∧ ∀ i < left, table sb v.disk (around sb c i) ≠ clusterFree) := by
  induction left generalizing c with
  | zero => exact .inr ⟨rfl,fun i none => absurd none (not_lt_zero i)⟩
  | succ left ih =>
    have bounds := legalCluster_iff.mp legal
    rw [scanFree,readEntry_eq v (legalEntry_of_cluster legal)]
    by_cases free : table sb v.disk c = clusterFree
    · refine .inl ⟨0,succ_pos left,?_,?_,fun j none => absurd none (not_lt_zero j)⟩
      · simp [free,around_zero legal]
      · rw [around_zero legal]
        exact free
    simp only [if_neg free]
    have follows : legalCluster sb (if c + 1 > sb.totalClusters + 1 then 2 else c + 1) := by
      rw [legalCluster_iff]
      split <;> omega
    have here : table sb v.disk (around sb c 0) ≠ clusterFree := by
      rw [around_zero legal]
      exact free
    rcases ih follows with ⟨i,small,found,taken,before⟩ | ⟨none,others⟩
    · rw [around_next legal] at found taken
      refine .inl ⟨i + 1,by omega,found,taken,fun j earlier => ?_⟩
      cases j with
      | zero => exact here
      | succ j =>
        rw [← around_next legal]
        exact before j (by omega)
    · refine .inr ⟨none,fun i small => ?_⟩
      cases i with
      | zero => exact here
      | succ i =>
        rw [← around_next legal]
        exact others i (by omega)

end

theorem around_reaches (first : legalCluster sb c) (second : legalCluster sb d) :
    ∃ i < sb.totalClusters, around sb c i = d := by
  rw [legalCluster_iff] at first second
  unfold around
  by_cases order : c ≤ d
  · refine ⟨d - c,by omega,?_⟩
    rw [mod_eq_of_lt (by omega)]
    omega
  refine ⟨d + sb.totalClusters - c,by omega,?_⟩
  rw [show c - 2 + (d + sb.totalClusters - c) = d - 2 + sb.totalClusters by omega,add_mod_right,
    mod_eq_of_lt (by omega)]
  omega

theorem searchStart_legal (some : 0 < sb.totalClusters) (v : Vol) : legalCluster sb (searchStart sb v) := by
  rw [legalCluster_iff,searchStart]
  split <;> omega

theorem allocates_first (sb : Super) (v : Vol) :
    (∃ i < sb.totalClusters, allocCluster sb v = .ok (around sb (searchStart sb v) i,
        (setEntry sb v (around sb (searchStart sb v) i) clusterEoc).took sb (around sb (searchStart sb v) i)) ∧
      table sb v.disk (around sb (searchStart sb v) i) = clusterFree ∧
      ∀ j < i, table sb v.disk (around sb (searchStart sb v) j) ≠ clusterFree) ∨
    (allocCluster sb v = .error .enospc ∧ ∀ c, legalCluster sb c → table sb v.disk c ≠ clusterFree) := by
  by_cases some : 0 < sb.totalClusters
  · have start := searchStart_legal some v
    unfold allocCluster
    rcases scans (v := v) start sb.totalClusters with ⟨i,small,found,free,before⟩ | ⟨none,others⟩
    · refine .inl ⟨i,small,?_,free,before⟩
      rw [found]
      dsimp only
      rw [writeEntry_eq v clusterEoc (legalEntry_of_cluster (around_legal start i))]
    · refine .inr ⟨by rw [none],fun c legal => ?_⟩
      obtain ⟨i,small,rfl⟩ := around_reaches start legal
      exact others i small
  · have none : sb.totalClusters = 0 := by omega
    refine .inr ⟨?_,fun c legal => ?_⟩
    · simp [allocCluster,none,scanFree]
    · rw [legalCluster_iff] at legal
      omega

theorem allocates (sb : Super) (v : Vol) :
    (∃ c, allocCluster sb v = .ok (c,(setEntry sb v c clusterEoc).took sb c) ∧ legalCluster sb c ∧
      table sb v.disk c = clusterFree) ∨
    (allocCluster sb v = .error .enospc ∧ ∀ c, legalCluster sb c → table sb v.disk c ≠ clusterFree) := by
  refine (allocates_first sb v).imp_left fun ⟨i,small,got,free,_⟩ => ⟨_,got,?_,free⟩
  exact around_legal (searchStart_legal (by omega) v) i

end

section
variable (geometry : Geometry sb) {v : Vol} {cells rest : List Nat} {c : Nat}
include geometry

theorem Geometry.below_marks (legal : legalCluster sb c) : 2 ≤ c ∧ c < clusterBad ∧ c < clusterEoc := by
  have marks := geometry.marks
  rw [legalCluster_iff] at legal
  unfold clusterBad clusterEoc at *
  omega

theorem Chain.advances (chain : Chain sb v.disk (c :: rest)) (steps : Nat) :
    chainAdvance sb v steps c = match (c :: rest)[steps]? with
      | some d => .ok d
      | none => .error .enxio := by
  induction steps generalizing c rest with
  | zero => rfl
  | succ steps ih =>
    have legal := chain.legal c (mem_cons_self ..)
    rw [chainAdvance,readEntry_eq v (legalEntry_of_cluster legal)]
    cases rest with
    | nil =>
      have ended : clusterEoc ≤ table sb v.disk c := chain.linked
      simp only [ended]
      rfl
    | cons d rest =>
      have next : table sb v.disk c = d := chain.linked.1
      obtain ⟨low,bad,eoc⟩ := geometry.below_marks (chain.legal d (by simp))
      have inner := ih ⟨chain.linked.2,fun e member => chain.legal e (mem_cons_of_mem c member)⟩
      simp only [next,not_le.mpr eoc,if_false,clusterFree]
      rw [if_neg (by omega),if_neg (by omega),inner,getElem?_cons_succ]

omit geometry in
theorem Chain.suffix (chain : Chain sb v.disk cells) (i : Nat) : Chain sb v.disk (cells.drop i) :=
  ⟨Linked.suffix (cells.take i) (by rw [take_append_drop]; exact chain.linked),
    fun c member => chain.legal c (mem_of_mem_drop member)⟩

theorem Chain.at (chain : Chain sb v.disk cells) (on : fn.On cells) (index : Nat) :
    clusterAt sb v fn index = match cells[index]? with
      | some c => .ok (c,{fn with lastIndex := index, lastCluster := c})
      | none => .error .enxio := by
  cases cells with
  | nil => simp [clusterAt,on.first]
  | cons c rest =>
    have first : fn.firstCluster = c := on.first
    obtain ⟨low,_⟩ := geometry.below_marks (chain.legal c (by simp))
    have walk : (if fn.lastCluster ≥ 2 ∧ index ≥ fn.lastIndex ∧ index - fn.lastIndex < sb.totalClusters
        then chainAdvance sb v (index - fn.lastIndex) fn.lastCluster
        else chainAdvance sb v index fn.firstCluster) =
        match (c :: rest)[index]? with
          | some d => .ok d
          | none => .error .enxio := by
      split
      · next cached =>
        have here := on.cache.resolve_left (by omega)
        obtain ⟨inside,value⟩ := List.getElem?_eq_some_iff.mp here
        have tail := drop_eq_getElem_cons inside
        rw [value] at tail
        rw [Chain.advances geometry (tail ▸ chain.suffix fn.lastIndex),← tail,getElem?_drop,
          Nat.add_sub_cancel' cached.2.1]
      · rw [first]
        exact Chain.advances geometry chain index
    rw [clusterAt,if_neg (by omega)]
    simp only [walk]
    cases (c :: rest)[index]? <;> rfl

omit geometry in
theorem Chain.length_le (chain : Chain sb v.disk cells) (distinct : cells.Nodup) :
    cells.length ≤ sb.totalClusters := by
  have inside : cells ⊆ List.range' 2 sb.totalClusters := by
    intro c member
    have bounds := legalCluster_iff.mp (chain.legal c member)
    rw [mem_range'_1]
    omega
  have bound := (distinct.subperm inside).length_le
  rwa [length_range'] at bound

theorem Chain.findsEnd (chain : Chain sb v.disk (c :: rest)) (guard idx : Nat) (enough : rest.length ≤ guard) :
    findEnd sb v guard c idx = .ok ((c :: rest).getLast (cons_ne_nil c rest),idx + rest.length) := by
  induction rest generalizing c guard idx with
  | nil =>
    have legal := chain.legal c (mem_cons_self ..)
    have ended : clusterEoc ≤ table sb v.disk c := chain.linked
    unfold findEnd
    simp [readEntry_eq v (legalEntry_of_cluster legal),ended]
  | cons d rest ih =>
    have legal := chain.legal c (mem_cons_self ..)
    have next : table sb v.disk c = d := chain.linked.1
    obtain ⟨low,_,eoc⟩ := geometry.below_marks (chain.legal d (by simp))
    obtain ⟨guard,rfl⟩ : ∃ g, guard = g + 1 := ⟨guard - 1,by rw [length_cons] at enough; omega⟩
    have inner := ih ⟨chain.linked.2,fun e member => chain.legal e (mem_cons_of_mem c member)⟩
      guard (idx + 1) (by rw [length_cons] at enough; omega)
    unfold findEnd
    simp only [readEntry_eq v (legalEntry_of_cluster legal),next,not_le.mpr eoc,if_false,
      not_lt.mpr low,inner]
    rw [length_cons,getLast_cons (cons_ne_nil d rest)]
    simp only [Except.ok.injEq,Prod.mk.injEq,true_and]
    omega

theorem Chain.endFrom (chain : Chain sb v.disk (front ++ [last])) (here : (front ++ [last])[i]? = some c)
    (enough : front.length ≤ guard) : findEnd sb v guard c i = .ok (last,front.length) := by
  obtain ⟨inside,value⟩ := List.getElem?_eq_some_iff.mp here
  have tail := drop_eq_getElem_cons inside
  rw [value] at tail
  have length := congrArg List.length tail
  rw [length_drop,length_cons,length_append,length_singleton] at length
  rw [Chain.findsEnd geometry (tail ▸ chain.suffix i) _ _ (by omega)]
  have final : (c :: (front ++ [last]).drop (i + 1)).getLast (cons_ne_nil _ _) = last := by
    simp only [← tail,getLast_drop,getLast_append_singleton]
  congr 2
  omega

theorem Chain.appends (chain : Chain sb v.disk (front ++ [last])) (distinct : (front ++ [last]).Nodup)
    (on : fn.On (front ++ [last])) (newc : Nat) : chainAppend sb v fn newc =
      .ok ({fn with lastIndex := front.length + 1, lastCluster := newc},setEntry sb v last newc) := by
  have bound := chain.length_le distinct
  rw [length_append] at bound
  have zeroth : (front ++ [last])[0]? = some fn.firstCluster := by
    rw [on.first]
    cases front <;> rfl
  have first := (geometry.below_marks (chain.legal _ (mem_of_getElem? zeroth))).1
  have walk : (if fn.lastCluster ≥ 2 then findEnd sb v (sb.totalClusters + 2) fn.lastCluster fn.lastIndex
      else findEnd sb v (sb.totalClusters + 2) fn.firstCluster 0) = .ok (last,front.length) := by
    split
    · exact Chain.endFrom geometry chain (on.cache.resolve_left (by omega)) (by omega)
    · exact Chain.endFrom geometry chain zeroth (by omega)
  have legal := legalEntry_of_cluster (chain.legal last (by simp))
  rw [chainAppend,if_neg (by omega)]
  simp only [walk,writeEntry_eq v newc legal]

end

def cleared (t : Nat → Nat) (cells : List Nat) (c : Nat) : Nat := if c ∈ cells then clusterFree else t c

theorem cleared_cons (t : Nat → Nat) (c : Nat) (cells : List Nat) :
    cleared (Function.update t c clusterFree) cells = cleared t (c :: cells) := by
  funext d
  by_cases same : d = c
  · subst same
    simp [cleared]
  · simp [cleared,same]

structure Freed (sb : Super) (v : Vol) (cells : List Nat) (w : Vol) : Prop where
  table : table sb w.disk = cleared (table sb v.disk) cells
  content : content sb w.disk = content sb v.disk
  unknown : v.freeCount = countUnknown → w.freeCount = countUnknown
  known : v.freeCount + cells.length < countUnknown → w.freeCount = v.freeCount + cells.length
  refusals : w.refusals = v.refusals

theorem Freed.cons {v w : Vol} (geometry : Geometry sb) (legal : legalEntry sb c)
    (freed : Freed sb (setEntry sb v c clusterFree).gaveBack rest w) : Freed sb v (c :: rest) w where
  table := by
    rw [freed.table,← cleared_cons]
    congr 1
    exact geometry.table_setEntry legal clusterFree v
  content := freed.content.trans (geometry.content_setEntry legal clusterFree v)
  unknown := by
    intro unknown
    refine freed.unknown ?_
    simp [Vol.gaveBack,setEntry,unknown]
  known := by
    intro known
    rw [length_cons] at known
    have count : (setEntry sb v c clusterFree).gaveBack.freeCount = v.freeCount + 1 :=
      if_pos (show v.freeCount ≠ countUnknown by omega)
    have rest := freed.known (by rw [count]; omega)
    rw [length_cons]
    omega
  refusals := freed.refusals

section
variable {cells : List Nat} {v : Vol} (geometry : Geometry sb) (chain : Chain sb v.disk cells)
  (distinct : cells.Nodup)
include geometry chain distinct

theorem Chain.freesLoop (enough : cells.length ≤ guard) (start : c = cells.head?.getD c)
    (stops : cells = [] → c < 2 ∨ clusterEoc ≤ c) : ∃ w, freeLoop sb guard v c = (.ok (),w) ∧ Freed sb v cells w := by
  induction cells generalizing v c guard with
  | nil =>
    have stop : ¬ (c ≥ 2 ∧ c < clusterEoc) := by
      have := stops rfl
      omega
    refine ⟨v,?_,by funext d; simp [cleared],rfl,id,fun _ => rfl,rfl⟩
    cases guard <;> rw [freeLoop,if_neg stop]
  | cons d rest ih =>
    obtain rfl : c = d := start
    obtain ⟨guard,rfl⟩ : ∃ g, guard = g + 1 := ⟨guard - 1,by rw [length_cons] at enough; omega⟩
    have legal := legalEntry_of_cluster (chain.legal c (mem_cons_self ..))
    obtain ⟨low,_,eoc⟩ := geometry.below_marks (chain.legal c (mem_cons_self ..))
    obtain ⟨absent,distinct⟩ := nodup_cons.mp distinct
    have after : Chain sb (setEntry sb v c clusterFree).gaveBack.disk rest := by
      refine ⟨chain.linked.tail.congr fun e member => ?_,fun e member => chain.legal e (by simp [member])⟩
      change table sb (setEntry sb v c clusterFree).disk e = _
      rw [geometry.table_setEntry legal,Function.update_of_ne (ne_of_mem_of_not_mem member absent)]
    have next : table sb v.disk c = rest.head?.getD (table sb v.disk c) := by
      cases rest with
      | nil => rfl
      | cons e more => exact chain.linked.1
    obtain ⟨w,ran,freed⟩ := ih after distinct (show rest.length ≤ guard by rw [length_cons] at enough; omega)
      next (by
        rintro rfl
        exact .inr chain.linked)
    refine ⟨w,?_,freed.cons geometry legal⟩
    rw [freeLoop,if_pos ⟨low,eoc⟩,readEntry_eq v legal]
    rw [writeEntry_eq v clusterFree legal]
    exact ran

theorem Chain.frees (start : c = cells.head?.getD 0) :
    ∃ w, freeChain sb v c = (.ok (),w) ∧ Freed sb v cells w := by
  have bound := chain.length_le distinct
  refine chain.freesLoop geometry distinct (by omega) ?_ ?_
  · cases cells with
    | nil => rfl
    | cons d rest => exact start
  · rintro rfl
    exact .inl (start ▸ by decide)

end

theorem Node.On.moved (on : fn.On cells)
    (here : cells[index]? = some c) : Node.On {fn with lastIndex := index, lastCluster := c} cells :=
  ⟨on.first,.inr here⟩

end SurfaceOS.Fat
