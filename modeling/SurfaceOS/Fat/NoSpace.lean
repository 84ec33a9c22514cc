import SurfaceOS.Fat.Calls
import SurfaceOS.Fat.Slots
import SurfaceOS.Fat.Vnodes

/-! A write or a growing truncate that runs out of space (fat.cpp `extend_to`, vnode.cpp `fat_write`).
Clusters taken before the volume was full stay linked, so the call is undone only when there was
none to take. -/
namespace SurfaceOS.Fat
open Lib Lib.Memory List Nat Fatdir
open Function (update update_self)

variable {α : Type} {c endExcl : Nat} {sb : Super} {aside : Nat → Prop} {f : Nat} {s t : Io} {chains : Nat → List Nat}

def chainOf (sb : Super) (io : Io) : List Nat :=
  if io.node.firstCluster < 2 then []
  else (walk sb io.vol (sb.totalClusters + 1) io.node.firstCluster).1

def readable (sb : Super) (io : Io) : List UInt8 :=
  slice (image sb io.vol.disk (chainOf sb io)) 0 io.node.size

def Honest (v : Vol) : Prop := ∀ i, v.refusals i ≠ some .enospc

theorem error_ne {ε β : Type} {e x : ε} (other : (.error e : Except ε α) ≠ .error x) :
    (.error e : Except ε β) ≠ .error x :=
  fun same => other (congrArg _ (Except.error.inj same))

theorem Chain.walk (geometry : Geometry sb) {v : Vol} {rest : List Nat} (chain : Chain sb v.disk (c :: rest))
    {fuel : Nat} (enough : rest.length < fuel) : walk sb v fuel c = (c :: rest,none) := by
  induction rest generalizing c fuel with
  | nil =>
    obtain ⟨fuel,rfl⟩ : ∃ g, fuel = g + 1 := ⟨fuel - 1,by omega⟩
    have ended : clusterEoc ≤ table sb v.disk c := chain.linked
    simp [walk,readEntry_eq v (legalEntry_of_cluster (chain.legal c (by simp))),ended]
  | cons d rest ih =>
    obtain ⟨fuel,rfl⟩ : ∃ g, fuel = g + 1 := ⟨fuel - 1,by omega⟩
    have next : table sb v.disk c = d := chain.linked.1
    obtain ⟨low,_,eoc⟩ := geometry.below_marks (chain.legal d (by simp))
    have inner := ih ⟨chain.linked.2,fun e member => chain.legal e (mem_cons_of_mem c member)⟩
      (show rest.length < fuel by rw [length_cons] at enough; omega)
    rw [walk,readEntry_eq v (legalEntry_of_cluster (chain.legal c (by simp)))]
    dsimp only
    rw [if_neg (by omega),next,inner]

theorem Live.chainOf (geometry : Geometry sb) (live : Live sb aside f s chains) : chainOf sb s = chains f := by
  have chain := live.alloc.chain f
  have bound := chain.length_le (live.alloc.distinct f)
  have first := live.on.first
  unfold Fat.chainOf
  cases cells : chains f with
  | nil =>
    rw [cells] at first
    rw [first]
    rfl
  | cons c rest =>
    rw [cells] at first chain bound
    obtain rfl : s.node.firstCluster = c := first
    obtain ⟨low,_⟩ := geometry.below_marks (chain.legal _ (mem_cons_self ..))
    rw [length_cons] at bound
    rw [if_neg (by omega),chain.walk geometry (by omega)]

section
variable (sb) {v : Vol} (honest : Honest v)
include honest

theorem Honest.refused {e : Errno} (refused : v.refusals 0 = some e) : (.error e : Except Errno α) ≠ .error .enospc :=
  fun same => honest 0 (refused.trans (congrArg some (Except.error.inj same)))

theorem Honest.reads (c : Nat) : (readCluster sb v c).1 ≠ .error .enospc ∧ Honest (readCluster sb v c).2 := by
  unfold readCluster
  split
  · exact ⟨nofun,honest⟩
  · split
    · next e refused => exact ⟨honest.refused refused,fun i => honest (i + 1)⟩
    · exact ⟨nofun,fun i => honest (i + 1)⟩

theorem Honest.writes (c : Nat) (bytes : List UInt8) :
    (writeCluster sb v c bytes).1 ≠ .error .enospc ∧ Honest (writeCluster sb v c bytes).2 := by
  unfold writeCluster
  split
  · exact ⟨nofun,honest⟩
  · split
    · next e refused => exact ⟨honest.refused refused,fun i => honest (i + 1)⟩
    · exact ⟨nofun,fun i => honest (i + 1)⟩

theorem Honest.zeroesTail (c inside : Nat) :
    (zeroTail sb v c inside).1 ≠ .error .enospc ∧ Honest (zeroTail sb v c inside).2 := by
  obtain ⟨fine,after⟩ := honest.reads sb c
  unfold zeroTail
  generalize readCluster sb v c = result at *
  obtain ⟨r,w⟩ := result
  cases r with
  | error e => exact ⟨error_ne fine,after⟩
  | ok scratch => exact after.writes sb c _

theorem Honest.writesChunk (c inside : Nat) (chunk : List UInt8) :
    (writeChunk sb v c inside chunk).1 ≠ .error .enospc ∧ Honest (writeChunk sb v c inside chunk).2 := by
  obtain ⟨fine,after⟩ := honest.reads sb c
  unfold writeChunk
  split
  · generalize readCluster sb v c = result at *
    obtain ⟨r,w⟩ := result
    cases r with
    | error e => exact ⟨error_ne fine,after⟩
    | ok scratch => exact after.writes sb c _
  · exact honest.writes sb c chunk

omit honest in
theorem chainAdvance_error (v : Vol) (steps c : Nat) : chainAdvance sb v steps c ≠ .error .enospc := by
  induction steps generalizing c with
  | zero => rintro ⟨⟩
  | succ steps ih =>
    unfold chainAdvance readEntry
    split_ifs
    · dsimp only
      split_ifs
      · rintro ⟨⟩
      · rintro ⟨⟩
      · rintro ⟨⟩
      · exact ih _
    · rintro ⟨⟩

omit honest in
theorem clusterAt_error (v : Vol) (fn : Node) (index : Nat) : clusterAt sb v fn index ≠ .error .enospc := by
  unfold clusterAt
  split
  · nofun
  dsimp only
  split
  · next e failed =>
    intro same
    cases same
    split at failed
    · exact chainAdvance_error sb v _ _ failed
    · exact chainAdvance_error sb v _ _ failed
  · nofun

end

theorem Honest.writesLoop (honest : Honest s.vol) (fuel off : Nat) (src : List UInt8) (done : Nat) :
    (writeLoop sb fuel s off src done).1 ≠ .error .enospc := by
  induction fuel generalizing s off src done with
  | zero => rintro ⟨⟩
  | succ fuel ih =>
    unfold writeLoop
    split
    · rintro ⟨⟩
    dsimp only
    have found := clusterAt_error sb s.vol s.node (off / sb.clusterSize % 2^32)
    cases here : clusterAt sb s.vol s.node (off / sb.clusterSize % 2^32) with
    | error e =>
      rw [here] at found
      exact error_ne found
    | ok place =>
      dsimp only
      obtain ⟨fine,after⟩ := honest.writesChunk sb place.1 (off % sb.clusterSize)
        (src.take (min (sb.clusterSize - off % sb.clusterSize) src.length))
      generalize writeChunk sb s.vol place.1 (off % sb.clusterSize)
        (src.take (min (sb.clusterSize - off % sb.clusterSize) src.length)) = result at *
      obtain ⟨r,w⟩ := result
      cases r with
      | error e => exact error_ne fine
      | ok _ => exact ih after _ _ _

theorem Honest.growsTail (honest : Honest s.vol) : (growTail sb s).1 ≠ .error .enospc := by
  unfold growTail
  dsimp only
  split
  · have found := clusterAt_error sb s.vol s.node ((s.node.size - 1) / sb.clusterSize % 2^32)
    cases here : clusterAt sb s.vol s.node ((s.node.size - 1) / sb.clusterSize % 2^32) with
    | error e =>
      rw [here] at found
      dsimp only
      split
      · nofun
      · exact error_ne found
    | ok place =>
      dsimp only
      have fine := (honest.zeroesTail sb place.1 (s.node.size % sb.clusterSize)).1
      cases zeroed : (zeroTail sb s.vol place.1 (s.node.size % sb.clusterSize)).1 with
      | error e =>
        rw [zeroed] at fine
        dsimp only
        split
        · nofun
        · exact error_ne fine
      | ok _ => nofun
  · nofun

structure Exhausted (sb : Super) (aside : Nat → Prop) (f k : Nat) (s : Io) (chains : Nat → List Nat) : Prop where
  runsOut : (growLoop sb k s).1 = .error .enospc ↔ freeEntries sb (table sb s.vol.disk) < k ∧
    ∀ i < freeEntries sb (table sb s.vol.disk), s.vol.refusals i = none
  nothing : freeEntries sb (table sb s.vol.disk) = 0 → (growLoop sb k s).1 = .error .enospc → (growLoop sb k s).2 = s
  linked : (growLoop sb k s).1 = .error .enospc → ∃ after, Live sb aside f (growLoop sb k s).2 after ∧
    (after f).length = (chains f).length + freeEntries sb (table sb s.vol.disk)
  honest : (growLoop sb k s).1 = .ok () → Honest (growLoop sb k s).2.vol

theorem freeEntries_none {t : Nat → Nat} (none : ∀ c, legalCluster sb c → t c ≠ clusterFree) : freeEntries sb t = 0 :=
  countP_eq_zero.mpr fun c member => by simpa using none c (mem_clusters.mp member)

theorem freeEntries_some {t : Nat → Nat} (legal : legalCluster sb c) (free : t c = clusterFree) :
    0 < freeEntries sb t :=
  countP_pos_iff.mpr ⟨c,mem_clusters.mpr legal,by simp [free]⟩

def tailRequests (sb : Super) (size : Nat) : Nat := if size % sb.clusterSize = 0 then 0 else 2

theorem zeroTail_granted {v : Vol} (legal : legalCluster sb c) (inside : Nat) :
    ((zeroTail sb v c inside).1 = .ok () ↔ ∀ i < 2, v.refusals i = none) ∧
    ((zeroTail sb v c inside).1 = .ok () → (∀ i, (zeroTail sb v c inside).2.refusals i = v.refusals (2 + i)) ∧
      (zeroTail sb v c inside).2.freeCount = v.freeCount) := by
  have pair : (∀ i < 2, v.refusals i = none) ↔ v.refusals 0 = none ∧ v.refusals 1 = none := by
    constructor
    · exact fun all => ⟨all 0 (by decide),all 1 (by decide)⟩
    rintro ⟨first,second⟩ i small
    obtain rfl | rfl : i = 0 ∨ i = 1 := by omega
    · exact first
    · exact second
  rw [pair]
  unfold zeroTail readCluster
  simp only [legal,Bool.not_true,Bool.false_eq_true,if_false]
  cases first : v.refusals 0 with
  | some e => exact ⟨⟨nofun,fun both => nomatch both.1⟩,nofun⟩
  | none =>
    dsimp only
    rw [writeCluster_eq legal,show v.asked.refusals 0 = v.refusals 1 from rfl]
    cases second : v.refusals 1 with
    | some e => exact ⟨⟨nofun,fun both => nomatch both.2⟩,nofun⟩
    | none =>
      refine ⟨⟨fun _ => ⟨rfl,rfl⟩,fun _ => rfl⟩,fun _ => ⟨fun i => ?_,rfl⟩⟩
      change v.refusals (i + 1 + 1) = _
      rw [add_comm 2]

structure Tailed (sb : Super) (aside : Nat → Prop) (f : Nat) (s : Io) (chains : Nat → List Nat) (t : Io) : Prop extends
    Kept sb aside f s chains t chains where
  tables : table sb t.vol.disk = table sb s.vol.disk
  count : t.vol.freeCount = s.vol.freeCount
  refusals : ∀ i, t.vol.refusals i = s.vol.refusals (tailRequests sb s.node.size + i)
  size : t.node.size = s.node.size
  looks : ∀ i < s.node.size, Fat.image sb t.vol.disk (chains f) i = Fat.image sb s.vol.disk (chains f) i

theorem Live.tailed (live : Live sb aside f s chains) (zero : tailRequests sb s.node.size = 0) {node : Node}
    (on : node.On (chains f)) (size : node.size = s.node.size) : Tailed sb aside f s chains ⟨s.vol,node⟩ where
  live := ⟨live.alloc,on⟩
  others _ _ := rfl
  bytes _ _ _ _ := rfl
  grants := id
  tables := rfl
  count := rfl
  refusals i := by rw [zero,zero_add]
  size := size
  looks _ _ := rfl

theorem extendTo_within (pos : 0 < sb.clusterSize) (inside : endExcl ≤ s.node.size) :
    extendTo sb s endExcl = (.ok (),s) := by
  have none : clustersFor sb endExcl - clustersFor sb s.node.size = 0 :=
    Nat.sub_eq_zero_of_le (clustersFor_mono pos inside)
  have still : extendTail sb s endExcl = (.ok (),s) := by
    unfold extendTail
    rw [if_neg fun both => absurd both.2 (by omega)]
  unfold extendTo
  rw [still,need_eq pos]
  dsimp only
  rw [none]
  rfl

/-- Whether `extend_to` finds the volume full, and what it leaves then. -/
structure Outgrown (sb : Super) (aside : Nat → Prop) (f : Nat) (s : Io) (chains : Nat → List Nat) (endExcl : Nat) :
    Prop where
  runsOut : (extendTo sb s endExcl).1 = .error .enospc ↔
    freeEntries sb (table sb s.vol.disk) < clustersFor sb endExcl - clustersFor sb s.node.size ∧
      ∀ i < tailRequests sb s.node.size + freeEntries sb (table sb s.vol.disk), s.vol.refusals i = none
  nothing : freeEntries sb (table sb s.vol.disk) = 0 → (extendTo sb s endExcl).1 = .error .enospc →
    Tailed sb aside f s chains (extendTo sb s endExcl).2
  linked : (extendTo sb s endExcl).1 = .error .enospc → ∃ after, Live sb aside f (extendTo sb s endExcl).2 after ∧
    (after f).length = (chains f).length + freeEntries sb (table sb s.vol.disk)
  honest : (extendTo sb s endExcl).1 = .ok () → Honest (extendTo sb s endExcl).2.vol

def Mounted.Call.reach : Mounted.Call → Nat
  | .write off src => if src.length = 0 then 0 else (off + src.length) % 2^64
  | .truncate size => size
  | .fsync => 0

/-- The calls that may add clusters to a file of `size` bytes: writes and growing truncates. -/
def Mounted.Call.Grows (size : Nat) : Mounted.Call → Prop
  | .write _ _ => True
  | .truncate new => size < new
  | .fsync => False

/-- A regular file that is open: its clusters cover its size, and its record lies in another chain. -/
structure Opened (sb : Super) (aside : Nat → Prop) (s : Mounted) (id : Nat) (v : Vnode) (f : Nat)
    (chains : Nat → List Nat) : Prop where
  here : s.vnodes id = some v
  regular : v.regular
  live : Live sb aside f ⟨s.vol,v.node⟩ chains
  limit : v.node.size ≤ sizeLimit
  covers : clustersFor sb v.node.size ≤ (chains f).length
  record : ∃ g, g ≠ f ∧ ∃ c ∈ chains g, ∃ k < entriesPerCluster sb, v.entry = spot sb c k

structure Undone (sb : Super) (s t : Mounted) (id : Nat) : Prop where
  size : (t.io id).node.size = (s.io id).node.size
  bytes : readable sb (t.io id) = readable sb (s.io id)
  chain : chainOf sb (t.io id) = chainOf sb (s.io id)
  record : ∀ v, s.vnodes id = some v → load t.vol.disk v.entry = load s.vol.disk v.entry
  count : t.vol.freeCount = s.vol.freeCount
  free : freeEntries sb (table sb t.vol.disk) = freeEntries sb (table sb s.vol.disk)

/-- A call that cannot run out of space halfway: there is no free cluster at all, there are enough,
or a buffer is refused before the last one is taken. -/
def Spared (sb : Super) (s : Mounted) (id : Nat) (c : Mounted.Call) : Prop :=
  freeEntries sb (table sb s.vol.disk) = 0 ∨
  needed sb (s.io id).node.size c.reach ≤ freeEntries sb (table sb s.vol.disk) ∨
  ∃ i < tailRequests sb (s.io id).node.size + freeEntries sb (table sb s.vol.disk), s.vol.refusals i ≠ none

section
variable (geometry : Geometry sb) (live : Live sb aside f s chains) (honest : Honest s.vol)
include geometry live honest

theorem Live.exhausts (k : Nat) :
    Exhausted sb aside f k s chains := by
  induction k generalizing s chains with
  | zero => exact ⟨⟨nofun,fun short => absurd short.1 (not_lt_zero _)⟩,nofun,nofun,fun _ => honest⟩
  | succ k ih =>
    rcases allocates sb s.vol with ⟨c,got,legal,free⟩ | ⟨full,none⟩
    · have some := freeEntries_some legal free
      cases refused : s.vol.refusals 0 with
      | some e =>
        have ran : (growLoop sb (k + 1) s).1 = .error e := by
          unfold growLoop
          rw [got]
          dsimp only
          rw [writeCluster_eq legal,show ((setEntry sb s.vol c clusterEoc).took sb c).refusals 0 = .some e from refused]
        have other : (growLoop sb (k + 1) s).1 ≠ .error .enospc := by
          rw [ran]
          exact honest.refused refused
        refine ⟨⟨fun same => absurd same other,fun short => ?_⟩,fun _ same => absurd same other,
          fun same => absurd same other,fun done => by rw [ran] at done; cases done⟩
        have granted := short.2 0 some
        rw [refused] at granted
        cases granted
      | none =>
        obtain ⟨node,w,linked,same,entries,refusals⟩ := live.links geometry legal free
        have turn : growLoop sb (k + 1) s = growLoop sb k ⟨w,node⟩ := by
          conv_lhs => unfold growLoop
          rw [got]
          dsimp only
          rw [writeCluster_eq legal,show ((setEntry sb s.vol c clusterEoc).took sb c).refusals 0 = .none from refused]
          dsimp only
          rw [linked]
        have rest := ih same.live (show Honest w by
          intro i
          rw [refusals]
          exact honest (i + 1))
        have length : (update chains f (chains f ++ [c]) f).length = (chains f).length + 1 := by
          rw [update_self,length_append,length_singleton]
        refine ⟨?_,fun zero => by omega,fun out => ?_,fun done => by rw [turn] at done ⊢; exact rest.honest done⟩
        · rw [turn,rest.runsOut]
          refine and_congr (by dsimp only; omega) ⟨fun all i small => ?_,fun all i small => ?_⟩
          · cases i with
            | zero => exact refused
            | succ i =>
              have here := all i (by dsimp only; omega)
              rwa [refusals] at here
          · have here := all (i + 1) (by dsimp only at small; omega)
            rwa [show (Io.mk w node).vol.refusals i = s.vol.refusals (i + 1) from congrFun refusals i]
        · rw [turn] at out ⊢
          obtain ⟨after,live,count⟩ := rest.linked out
          refine ⟨after,live,?_⟩
          dsimp only at count
          omega
    · have zero := freeEntries_none none
      have ran : growLoop sb (k + 1) s = (.error .enospc,s) := by
        unfold growLoop
        rw [full]
      refine ⟨?_,fun _ _ => by rw [ran],fun _ => ⟨chains,by rw [ran]; exact live,by rw [zero]; rfl⟩,
        fun done => by rw [ran] at done; cases done⟩
      rw [ran,zero]
      exact ⟨fun _ => ⟨succ_pos k,fun i none => absurd none (not_lt_zero i)⟩,fun _ => rfl⟩

theorem Live.tails
    (limit : s.node.size ≤ sizeLimit) (long : clustersFor sb s.node.size ≤ (chains f).length)
    (grows : endExcl > s.node.size) : (extendTail sb s endExcl).1 ≠ .error .enospc ∧
    ((extendTail sb s endExcl).1 = .ok () ↔ ∀ i < tailRequests sb s.node.size, s.vol.refusals i = none) ∧
    ((extendTail sb s endExcl).1 = .ok () → Tailed sb aside f s chains (extendTail sb s endExcl).2) := by
  have pos := geometry.clusterSize_pos
  by_cases empty : s.node.size = 0
  · have none : tailRequests sb s.node.size = 0 := by
      rw [empty]
      rfl
    have still : extendTail sb s endExcl = (.ok (),s) := by
      unfold extendTail
      rw [if_neg fun both => ?_]
      exact absurd ((clustersFor_pos pos _).mp both.1) (by omega)
    rw [still,none]
    exact ⟨nofun,⟨fun _ i none => absurd none (not_lt_zero i),fun _ => rfl⟩,fun _ => live.tailed none live.on rfl⟩
  · have index := last_index pos (show 0 < s.node.size by omega)
    have bound := div_le_self (s.node.size - 1) sb.clusterSize
    unfold sizeLimit at limit
    have small : (s.node.size - 1) / sb.clusterSize % 2^32 = (s.node.size - 1) / sb.clusterSize :=
      mod_eq_of_lt (by omega)
    obtain ⟨c,here⟩ : ∃ c, (chains f)[(s.node.size - 1) / sb.clusterSize]? = some c :=
      ⟨_,getElem?_eq_getElem (by omega)⟩
    have legal := (live.alloc.chain f).legal c (mem_of_getElem? here)
    have tail : extendTail sb s endExcl =
        if s.node.size % sb.clusterSize ≠ 0 then
          ((zeroTail sb s.vol c (s.node.size % sb.clusterSize)).1,
            ⟨(zeroTail sb s.vol c (s.node.size % sb.clusterSize)).2,
              {s.node with lastIndex := (s.node.size - 1) / sb.clusterSize, lastCluster := c}⟩)
        else (.ok (),⟨s.vol,{s.node with lastIndex := (s.node.size - 1) / sb.clusterSize, lastCluster := c}⟩) := by
      unfold extendTail
      rw [if_pos ⟨(clustersFor_pos pos _).mpr (by omega),grows⟩,small,
        Chain.at geometry (live.alloc.chain f) live.on,here]
    rw [tail]
    by_cases whole : s.node.size % sb.clusterSize = 0
    · have none : tailRequests sb s.node.size = 0 := if_pos whole
      rw [if_neg (not_not.mpr whole),none]
      exact ⟨nofun,⟨fun _ i none => absurd none (not_lt_zero i),fun _ => rfl⟩,
        fun _ => live.tailed none (live.on.moved here) rfl⟩
    have two : tailRequests sb s.node.size = 2 := if_neg whole
    obtain ⟨index',_,bytes,_⟩ := last_cluster pos whole
    obtain ⟨granted,leaves⟩ := zeroTail_granted (v := s.vol) legal (s.node.size % sb.clusterSize)
    rw [if_pos whole,two]
    refine ⟨(honest.zeroesTail sb c _).1,granted,fun done => ?_⟩
    obtain ⟨r,w,ran,rewritten⟩ := live.zeroesTail geometry here (le_of_lt (mod_lt s.node.size pos))
    obtain ⟨shifted,count⟩ := leaves done
    rw [ran] at done shifted count ⊢
    have kept := rewritten.kept _ (live.on.moved here)
    refine ⟨kept,rewritten.tables,count,fun i => ?_,rfl,fun i below => ?_⟩
    · rw [two]
      exact shifted i
    · dsimp only
      rw [rewritten.done done,index',bytes]
      exact patch_before _ _ _ _ below

theorem Live.outgrows
    (limit : s.node.size ≤ sizeLimit) (long : clustersFor sb s.node.size ≤ (chains f).length) (endExcl : Nat) :
    Outgrown sb aside f s chains endExcl := by
  have pos := geometry.clusterSize_pos
  by_cases grows : endExcl ≤ s.node.size
  · have none : clustersFor sb endExcl - clustersFor sb s.node.size = 0 :=
      Nat.sub_eq_zero_of_le (clustersFor_mono pos grows)
    have within := extendTo_within pos grows
    constructor
    · rw [within,none]
      exact ⟨nofun,fun short => absurd short.1 (Nat.not_lt_zero _)⟩
    · rw [within]
      nofun
    · rw [within]
      nofun
    · rw [within]
      exact fun _ => honest
  · obtain ⟨fine,granted,tailed⟩ := live.tails geometry honest limit long (not_le.mp grows)
    cases ran : extendTail sb s endExcl with
    | mk r t =>
    rw [ran] at fine granted tailed
    cases r with
    | error e =>
      have split : extendTo sb s endExcl = (.error e,t) := by
        unfold extendTo
        rw [ran]
      have other : (extendTo sb s endExcl).1 ≠ .error .enospc := by
        rw [split]
        exact error_ne fine
      refine ⟨⟨fun same => absurd same other,fun short => ?_⟩,fun _ same => absurd same other,
        fun same => absurd same other,fun done => by rw [split] at done; cases done⟩
      have all := granted.mpr fun i small => short.2 i (by omega)
      cases all
    | ok _ =>
      have split : extendTo sb s endExcl = growLoop sb (clustersFor sb endExcl - clustersFor sb s.node.size) t := by
        unfold extendTo
        rw [ran,need_eq pos]
      have kept := tailed rfl
      have asked := granted.mp rfl
      have turned : Honest t.vol := fun i => by
        rw [kept.refusals]
        exact honest _
      have rest := kept.live.exhausts geometry turned (clustersFor sb endExcl - clustersFor sb s.node.size)
      have free : freeEntries sb (table sb t.vol.disk) = freeEntries sb (table sb s.vol.disk) := by rw [kept.tables]
      obtain ⟨runsOut,nothing,linked,after⟩ := rest
      rw [free] at runsOut nothing linked
      rw [← split] at runsOut nothing linked after
      refine ⟨runsOut.trans (and_congr Iff.rfl ⟨fun all i small => ?_,fun all i small => ?_⟩),
        fun none out => ?_,linked,after⟩
      · by_cases early : i < tailRequests sb s.node.size
        · exact asked i early
        · have late := all (i - tailRequests sb s.node.size) (by omega)
          rwa [kept.refusals,Nat.add_sub_cancel' (not_lt.mp early)] at late
      · rw [kept.refusals]
        exact all _ (by omega)
      · rw [nothing none out]
        exact kept

end

section
variable {m : Mounted} {id : Nat} {v : Vnode}

theorem Opened.io (opened : Opened sb aside m id v f chains) : m.io id = ⟨m.vol,v.node⟩ := by
  unfold Mounted.io
  rw [opened.here]

theorem Opened.keep (opened : Opened sb aside m id v f chains) (t : Io) : (m.keep id t).io id = t := by
  unfold Mounted.keep Mounted.alter Mounted.io
  dsimp only
  rw [update_self,opened.here]
  rfl

section
variable (geometry : Geometry sb) (opened : Opened sb aside m id v f chains) (honest : Honest m.vol)
include geometry opened honest

theorem Opened.outgrows (endExcl : Nat) : Outgrown sb aside f (m.io id) chains endExcl := by
  rw [opened.io]
  exact opened.live.outgrows geometry honest opened.limit opened.covers endExcl

theorem Opened.fails {c : Mounted.Call} (grows : c.Grows v.node.size) : ((m.call sb id c).1 = .error .enospc ↔
      c.reach ≤ sizeLimit ∧ (extendTo sb (m.io id) c.reach).1 = .error .enospc) ∧
    ((m.call sb id c).1 = .error .enospc → (m.call sb id c).2 = m.keep id (extendTo sb (m.io id) c.reach).2) := by
  have regular : m.regular id := by
    unfold Mounted.regular
    rw [opened.here]
    exact opened.regular
  have after := (opened.outgrows geometry honest c.reach).honest
  cases c with
  | write off src =>
    simp only [Mounted.call,regular]
    unfold writeAt
    by_cases empty : src.length = 0
    · have reach : (Mounted.Call.write off src).reach = 0 := if_pos empty
      rw [if_pos empty,reach,extendTo_within geometry.clusterSize_pos (zero_le _)]
      exact ⟨⟨by simp,by simp⟩,by simp⟩
    have reach : (Mounted.Call.write off src).reach = (off + src.length) % 2^64 := if_neg empty
    rw [reach] at after ⊢
    rw [if_neg empty]
    generalize (off + src.length) % 2^64 = stop at *
    by_cases large : stop > sizeLimit
    · rw [if_pos large]
      exact ⟨⟨by simp,fun both => absurd both.1 (by omega)⟩,by simp⟩
    rw [if_neg large]
    generalize extendTo sb (m.io id) stop = result at after
    obtain ⟨r,t⟩ := result
    cases r with
    | error e => exact ⟨by simp [not_lt.mp large],fun _ => rfl⟩
    | ok _ =>
      dsimp only
      have fine := @Honest.writesLoop sb _ (after rfl) src.length off src 0
      generalize writeLoop sb src.length t off src 0 = loop at fine
      obtain ⟨r,done,u⟩ := loop
      cases r with
      | error e =>
        exact ⟨⟨fun same => absurd same (error_ne fine),by simp⟩,fun same => absurd same (error_ne fine)⟩
      | ok _ => exact ⟨⟨by simp,by simp⟩,by simp⟩
  | truncate size =>
    have bigger : size > (m.io id).node.size := by
      rw [opened.io]
      exact grows
    simp only [Mounted.call,regular,Bool.not_true,Bool.false_eq_true,if_false,Mounted.Call.reach] at after ⊢
    unfold truncate
    by_cases large : size > sizeLimit
    · rw [if_pos large]
      exact ⟨⟨by simp,fun both => absurd both.1 (by omega)⟩,by simp⟩
    rw [if_neg large,if_neg (by omega),if_pos bigger]
    unfold growTo
    generalize extendTo sb (m.io id) size = result at after
    obtain ⟨r,t⟩ := result
    cases r with
    | error e => exact ⟨by simp [not_lt.mp large],fun _ => rfl⟩
    | ok _ =>
      dsimp only
      have fine := @Honest.growsTail sb _ (after rfl)
      generalize growTail sb t = tail at fine
      obtain ⟨r,u⟩ := tail
      cases r with
      | error e =>
        exact ⟨⟨fun same => absurd same (error_ne fine),by simp⟩,fun same => absurd same (error_ne fine)⟩
      | ok _ => exact ⟨⟨by simp,by simp⟩,by simp⟩
  | fsync => cases grows

end

theorem Opened.undone (slotted : Slotted sb) (opened : Opened sb aside m id v f chains) {t : Io}
    (tailed : Tailed sb aside f (m.io id) chains t) : Undone sb m (m.keep id t) id := by
  have geometry := slotted.toGeometry
  have io := opened.io
  have before : chainOf sb (m.io id) = chains f := by
    rw [io]
    exact opened.live.chainOf geometry
  have after : chainOf sb t = chains f := tailed.live.chainOf geometry
  constructor
  · rw [opened.keep]
    exact tailed.size
  · rw [opened.keep,readable,readable,before,after,tailed.size]
    refine slice_congr _ _ _ _ fun i inside => ?_
    rw [zero_add]
    exact tailed.looks i inside
  · rw [opened.keep,before,after]
  · intro w there
    obtain rfl : v = w := Option.some.inj (opened.here.symm.trans there)
    obtain ⟨g,other,c,member,k,small,spot⟩ := opened.record
    have legal := (opened.live.alloc.chain g).legal c member
    have bytes := tailed.bytes g other c member
    rw [spot,slotted.load legal small,slotted.load legal small]
    exact congrArg (slotAt · k) bytes
  · have count := tailed.count
    exact count
  · have tables := tailed.tables
    exact congrArg (freeEntries sb) tables

/-- A failed call leaves everything as it was just when it could take no cluster before it failed. -/
theorem undone_iff_spared (slotted : Slotted sb) (opened : Opened sb aside m id v f chains) (honest : Honest m.vol)
    {c : Mounted.Call} (grows : c.Grows v.node.size) :
    (∀ t, m.call sb id c = (.error .enospc,t) → Undone sb m t id) ↔ Spared sb m id c := by
  have geometry := slotted.toGeometry
  obtain ⟨fails,leaves⟩ := opened.fails geometry honest grows
  obtain ⟨runsOut,nothing,linked,_⟩ := opened.outgrows geometry honest c.reach
  have vol : (m.io id).vol = m.vol := rfl
  rw [vol] at runsOut nothing linked
  constructor
  · intro undone
    by_contra spared
    obtain ⟨some,short,granted⟩ := not_or.mp spared |>.imp_right not_or.mp
    have within : c.reach ≤ sizeLimit := by
      by_contra large
      rw [needed,if_neg large] at short
      omega
    rw [needed,if_pos within] at short
    have out := runsOut.mpr ⟨not_le.mp short,fun i small => not_not.mp fun refused => granted ⟨i,small,refused⟩⟩
    have failed := fails.mpr ⟨within,out⟩
    obtain ⟨after,live,longer⟩ := linked out
    have same := (undone (m.keep id (extendTo sb (m.io id) c.reach).2) (Prod.ext failed (leaves failed))).chain
    rw [opened.keep,live.chainOf geometry,opened.io,opened.live.chainOf geometry] at same
    rw [same] at longer
    omega
  · rintro spared t ran
    have failed : (m.call sb id c).1 = .error .enospc := congrArg Prod.fst ran
    obtain ⟨within,out⟩ := fails.mp failed
    obtain ⟨short,granted⟩ := runsOut.mp out
    obtain rfl : (m.call sb id c).2 = t := congrArg Prod.snd ran
    rcases spared with none | enough | ⟨i,small,refused⟩
    · rw [leaves failed]
      exact opened.undone slotted (nothing none out)
    · rw [needed,if_pos within] at enough
      omega
    · exact absurd (granted i small) refused

end

def newFile : Vnode where
  fsKey := fileKey 2 0
  regular := true
  node := ⟨0,0,0,0,false⟩
  parentCluster := 2
  entryIndex := 0
  entry := spot smallVolume 2 0
  mtime := 0
  atime := 0
  unlinked := false
  refcnt := 2

def newMounted : Mounted where
  vol := blank.vol
  vnodes := fun i => if i = 1 then some newFile else none
  pool := [some 1]
  fresh := 2
  now := 0

theorem newFile_opened : Opened smallVolume nothing newMounted 1 newFile 1 blankChains where
  here := rfl
  regular := rfl
  live := ⟨blank_allocated,⟨rfl,.inl (by decide)⟩⟩
  limit := by decide
  covers := by decide
  record := ⟨0,by decide,2,by decide,0,by decide,rfl⟩

theorem newMounted_undone_spared : Slotted smallVolume ∧ Opened smallVolume nothing newMounted 1 newFile 1 blankChains ∧
    Honest newMounted.vol ∧ ((∀ t, newMounted.call smallVolume 1 (.write 0 [7]) = (.error .enospc,t) →
      Undone smallVolume newMounted t 1) ↔ Spared smallVolume newMounted 1 (.write 0 [7])) :=
  ⟨⟨smallVolume_geometry,by decide⟩,newFile_opened,nofun,
    undone_iff_spared ⟨smallVolume_geometry,by decide⟩ newFile_opened nofun trivial⟩

/-- One byte behind two free clusters: both stay with the file. -/
theorem newMounted_keeps_clusters : ¬ ∀ t, newMounted.call smallVolume 1 (.write 1024 [7]) = (.error .enospc,t) →
    Undone smallVolume newMounted t 1 := by
  intro undone
  have failed : (newMounted.call smallVolume 1 (.write 1024 [7])).1 = .error .enospc := by decide +kernel
  have same := (undone _ (Prod.ext failed rfl)).chain
  revert same
  decide +kernel

end SurfaceOS.Fat
