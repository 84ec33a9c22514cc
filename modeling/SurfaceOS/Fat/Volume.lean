import SurfaceOS.Fat.File

/-! The clusters of a volume shared out among its files. Between two steps of an operation every
used entry belongs to the chain of exactly one file and the free count is right; each step says
which chain it changed and what became of the file's bytes. -/
namespace SurfaceOS.Fat
open Lib Lib.Memory List Nat
open Function (update update_of_ne update_self)

variable {sb : Super} {aside : Nat → Prop} {now : Disk} {d g : Nat} {chains : Nat → List Nat}

def freeEntries (sb : Super) (t : Nat → Nat) : Nat :=
  (range' 2 sb.totalClusters).countP fun c => t c = clusterFree

/-- The chains of all files account for the table; the entries `aside` belong to none of them, as a
bad cluster's does. -/
structure Allocated (sb : Super) (aside : Nat → Prop) (v : Vol) (chains : Nat → List Nat) : Prop where
  chain : ∀ f, Chain sb v.disk (chains f)
  part : Partition chains fun c => (legalCluster sb c ∧ table sb v.disk c ≠ clusterFree) ∧ ¬ aside c
  used : ∀ c, aside c → table sb v.disk c ≠ clusterFree
  count : v.freeCount = countUnknown ∨ v.freeCount = freeEntries sb (table sb v.disk)

theorem freeEntries_lt (geometry : Geometry sb) (t : Nat → Nat) : freeEntries sb t < countUnknown := by
  have bound : freeEntries sb t ≤ (range' 2 sb.totalClusters).length := countP_le_length
  have marks := geometry.marks
  rw [length_range'] at bound
  unfold clusterBad at marks
  unfold countUnknown
  omega

variable {disk : Disk} {cells : List Nat} {c : Nat} {v : Vol}

theorem mem_clusters : c ∈ range' 2 sb.totalClusters ↔ legalCluster sb c := by
  rw [legalCluster_iff,mem_range'_1]
  omega

theorem freeEntries_take {t u : Nat → Nat} (legal : legalCluster sb c)
    (free : t c = clusterFree) (taken : u c ≠ clusterFree)
    (same : ∀ d, d ≠ c → (u d = clusterFree ↔ t d = clusterFree)) : freeEntries sb u + 1 = freeEntries sb t :=
  countP_erase nodup_range' (mem_clusters.mpr legal) (by simp [free]) (by simp [taken])
    fun d other => by simp [same d other]

theorem freeEntries_clear {t : Nat → Nat} (distinct : cells.Nodup) (legal : ∀ c ∈ cells, legalCluster sb c)
    (used : ∀ c ∈ cells, t c ≠ clusterFree) : freeEntries sb (cleared t cells) = freeEntries sb t + cells.length := by
  induction cells generalizing t with
  | nil =>
    rfl
  | cons c cells ih =>
    obtain ⟨absent,distinct⟩ := nodup_cons.mp distinct
    have first : freeEntries sb t + 1 = freeEntries sb (update t c clusterFree) :=
      freeEntries_take (legal c (mem_cons_self ..)) (update_self ..) (used c (mem_cons_self ..))
        fun d other => by rw [update_of_ne other]
    have rest := ih (t := update t c clusterFree) distinct
      (fun d member => legal d (mem_cons_of_mem c member)) fun d member => by
        rw [update_of_ne (ne_of_mem_of_not_mem member absent)]
        exact used d (mem_cons_of_mem c member)
    rw [cleared_cons] at rest
    rw [length_cons]
    omega

theorem Chain.used (geometry : Geometry sb) (chain : Chain sb disk cells)
    (member : c ∈ cells) : table sb disk c ≠ clusterFree := by
  obtain ⟨front,rest,rfl⟩ := append_of_mem member
  cases rest with
  | nil =>
    have ended := chain.linked.ends front
    unfold clusterEoc at ended
    unfold clusterFree
    omega
  | cons d rest =>
    have next := chain.linked.step front
    have low := (geometry.below_marks (chain.legal d (by simp))).1
    unfold clusterFree
    omega

theorem Allocated.replace (geometry : Geometry sb) {w : Vol}
    (alloc : Allocated sb aside v chains) (f : Nat) (chain : Chain sb w.disk cells) (distinct : cells.Nodup)
    (mine : ∀ c ∈ cells, c ∈ chains f ∨ table sb v.disk c = clusterFree)
    (same : ∀ c, c ∉ chains f → c ∉ cells → table sb w.disk c = table sb v.disk c)
    (gone : ∀ c ∈ chains f, c ∉ cells → table sb w.disk c = clusterFree)
    (count : w.freeCount = countUnknown ∨ w.freeCount = freeEntries sb (table sb w.disk)) :
    Allocated sb aside w (update chains f cells) where
  chain := by
    intro g
    by_cases here : g = f
    · rw [here,update_self]
      exact chain
    rw [update_of_ne here]
    refine ⟨(alloc.chain g).linked.congr fun c member => ?_,(alloc.chain g).legal⟩
    have notMine : c ∉ chains f := fun own => here (alloc.part.apart g f c member own)
    refine same c notMine fun taken => ?_
    exact (alloc.chain g).used geometry member ((mine c taken).resolve_left notMine)
  part := by
    have owned : ∀ c ∈ cells, ¬ aside c := fun c member kept => (mine c member).elim
      (fun own => ((alloc.part.member c).mpr ⟨f,own⟩).2 kept) (alloc.used c kept)
    refine alloc.part.update f cells distinct (fun c member => ?_) fun c => ?_
    · exact (mine c member).imp_right fun free used => used.1.2 free
    constructor
    · rintro ⟨⟨legal,used⟩,kept⟩
      by_cases member : c ∈ cells
      · exact .inl member
      · by_cases own : c ∈ chains f
        · exact absurd (gone c own member) used
        · exact .inr ⟨⟨⟨legal,same c own member ▸ used⟩,kept⟩,own⟩
    rintro (member | ⟨⟨⟨legal,used⟩,kept⟩,away⟩)
    · exact ⟨⟨chain.legal c member,chain.used geometry member⟩,owned c member⟩
    · have other : c ∉ cells := fun member =>
        (mine c member).elim away fun free => used free
      exact ⟨⟨legal,(same c away other).symm ▸ used⟩,kept⟩
  used := by
    intro c kept
    have away : c ∉ chains f := fun own => ((alloc.part.member c).mpr ⟨f,own⟩).2 kept
    have other : c ∉ cells := fun member => (mine c member).elim away (alloc.used c kept)
    rw [same c away other]
    exact alloc.used c kept
  count := count

section
variable {chains : Nat → List Nat} (alloc : Allocated sb aside v chains)
include alloc

theorem Allocated.same {w : Vol} (tables : table sb w.disk = table sb v.disk) (counts : w.freeCount = v.freeCount) :
    Allocated sb aside w chains where
  chain f := ⟨tables ▸ (alloc.chain f).linked,(alloc.chain f).legal⟩
  part := by
    rw [tables]
    exact alloc.part
  used := by
    rw [tables]
    exact alloc.used
  count := by
    rw [tables,counts]
    exact alloc.count

theorem Allocated.distinct (f : Nat) : (chains f).Nodup := alloc.part.distinct f

end

theorem Allocated.not_mem (geometry : Geometry sb)
    (alloc : Allocated sb aside v chains) (free : table sb v.disk c = clusterFree) (f : Nat) :
    c ∉ chains f := fun member => (alloc.chain f).used geometry member free

def image (sb : Super) (disk : Disk) (cells : List Nat) (i : Nat) : UInt8 :=
  match cells[i / sb.clusterSize]? with
  | some c => content sb disk c (i % sb.clusterSize)
  | none => 0

theorem image_congr
    (same : ∀ c ∈ cells, content sb now c = content sb disk c) : image sb now cells = image sb disk cells := by
  funext i
  unfold image
  cases here : cells[i / sb.clusterSize]? with
  | none => rfl
  | some c =>
    dsimp only
    rw [same c (mem_of_getElem? here)]

structure Live (sb : Super) (aside : Nat → Prop) (f : Nat) (io : Io) (chains : Nat → List Nat) : Prop where
  alloc : Allocated sb aside io.vol chains
  on : io.node.On (chains f)

structure Kept (sb : Super) (aside : Nat → Prop) (f : Nat) (s : Io) (chains : Nat → List Nat) (t : Io)
    (after : Nat → List Nat) : Prop where
  live : Live sb aside f t after
  others : ∀ g, g ≠ f → after g = chains g
  bytes : ∀ g, g ≠ f → ∀ c ∈ chains g, content sb t.vol.disk c = content sb s.vol.disk c
  grants : (∀ i, s.vol.refusals i = none) → ∀ i, t.vol.refusals i = none

variable {f : Nat} {s t u : Io} {chains after final : Nat → List Nat}

theorem Live.kept (live : Live sb aside f s chains) : Kept sb aside f s chains s chains :=
  ⟨live,fun _ _ => rfl,fun _ _ _ _ => rfl,id⟩

theorem Kept.trans (first : Kept sb aside f s chains t after) (second : Kept sb aside f t after u final) :
    Kept sb aside f s chains u final where
  live := second.live
  others g other := (second.others g other).trans (first.others g other)
  bytes g other c member := by
    rw [second.bytes g other c (by rwa [first.others g other]),first.bytes g other c member]
  grants := fun all => second.grants (first.grants all)

theorem Kept.image (kept : Kept sb aside f s chains t after) (other : g ≠ f) :
    image sb t.vol.disk (after g) = image sb s.vol.disk (chains g) := by
  rw [kept.others g other]
  exact image_congr (kept.bytes g other)

theorem image_append (same : ∀ d ∈ cells, content sb now d = content sb disk d)
    (zero : content sb now c = fun _ => 0) : image sb now (cells ++ [c]) = image sb disk cells := by
  funext i
  unfold image
  rcases lt_trichotomy (i / sb.clusterSize) cells.length with inside | fresh | beyond
  · rw [getElem?_append_left inside,getElem?_eq_getElem inside]
    dsimp only
    rw [same _ (getElem_mem inside)]
  · rw [fresh,getElem?_concat_length,getElem?_eq_none (le_refl _)]
    dsimp only
    rw [zero]
  · rw [getElem?_eq_none (by rw [length_append,length_singleton]; omega),
      getElem?_eq_none (by omega)]

def extended (t : Nat → Nat) (cells : List Nat) (c : Nat) : Nat → Nat :=
  match cells.getLast? with
  | none => update t c clusterEoc
  | some last => update (update t c clusterEoc) last c

theorem extended_other {t : Nat → Nat} (other : d ≠ c) (away : d ∉ cells) : extended t cells c d = t d := by
  unfold extended
  cases ended : cells.getLast? with
  | none => exact update_of_ne other ..
  | some last =>
    have behind : d ≠ last := Ne.symm (ne_of_mem_of_not_mem (mem_of_getLast? ended) away)
    exact (update_of_ne behind ..).trans (update_of_ne other ..)

theorem eoc_mod : clusterEoc % 2^28 = clusterEoc := by decide

theorem Geometry.legal_mod (geometry : Geometry sb) (legal : legalCluster sb c) : c % 2^28 = c := by
  have := (geometry.below_marks legal).2.1
  unfold clusterBad at this
  exact mod_eq_of_lt (by omega)

theorem Chain.extends (geometry : Geometry sb) {t : Nat → Nat} (linked : Linked t (clusterEoc ≤ ·) cells)
    (legal : ∀ d ∈ cells, legalCluster sb d) (distinct : cells.Nodup) {fn : Node} (on : fn.On cells)
    (new : legalCluster sb c) (absent : c ∉ cells) (taken : table sb v.disk = update t c clusterEoc) :
    ∃ node w, chainAppend sb v fn c = .ok (node,w) ∧ table sb w.disk = extended t cells c ∧
      content sb w.disk = content sb v.disk ∧ w.freeCount = v.freeCount ∧ w.refusals = v.refusals ∧
      Chain sb w.disk (cells ++ [c]) ∧ node.On (cells ++ [c]) ∧ node.size = fn.size ∧ node.dirty = fn.dirty := by
  have agrees : ∀ d ∈ cells, table sb v.disk d = t d := by
    intro d member
    rw [taken,update_of_ne (ne_of_mem_of_not_mem member absent)]
  have marked : table sb v.disk c = clusterEoc := by rw [taken,update_self]
  have legalAll : ∀ d ∈ cells ++ [c], legalCluster sb d := by
    intro d member
    rcases mem_append.mp member with old | one
    · exact legal d old
    · rw [mem_singleton.mp one]
      exact new
  rcases eq_nil_or_concat cells with rfl | ⟨front,last,rfl⟩
  · refine ⟨{fn with firstCluster := c, lastIndex := 0, lastCluster := c},v,?_,taken,rfl,rfl,rfl,
      ⟨?_,legalAll⟩,⟨rfl,.inr rfl⟩,rfl,rfl⟩
    · rw [chainAppend,if_pos (by rw [on.first]; decide)]
    · exact le_of_eq marked.symm
  rw [concat_eq_append] at *
  have chain : Chain sb v.disk (front ++ [last]) := ⟨linked.congr agrees,legal⟩
  have lastLegal := legalEntry_of_cluster (legal last (by simp))
  have tables := geometry.table_setEntry lastLegal c v
  rw [geometry.legal_mod new,taken] at tables
  have other : c ≠ last := by
    rintro rfl
    exact absent (by simp)
  refine ⟨_,_,Chain.appends geometry chain distinct on c,?_,geometry.content_setEntry lastLegal c v,rfl,rfl,
    ⟨?_,legalAll⟩,⟨?_,.inr ?_⟩,rfl,rfl⟩
  · rw [tables,extended,getLast?_append_cons,getLast?_singleton]
  · rw [tables,append_assoc]
    have single : Linked (update (update t c clusterEoc) last c) (clusterEoc ≤ ·) [c] := by
      change clusterEoc ≤ _
      rw [update_of_ne other,update_self]
    refine linked.splice (fun e member => ?_) ⟨update_self ..,single⟩
    · have away : last ∉ front := (nodup_append.mp distinct).2.2 |> fun h inside =>
        h last inside last (by simp) rfl
      rw [update_of_ne (ne_of_mem_of_not_mem member away),
        update_of_ne (ne_of_mem_of_not_mem (mem_append_left [last] member) absent)]
  · exact on.first.trans (by cases front <;> rfl)
  · simp

structure Same (sb : Super) (aside : Nat → Prop) (f : Nat) (s : Io) (chains : Nat → List Nat) (t : Io)
    (after : Nat → List Nat) : Prop extends Kept sb aside f s chains t after where
  size : t.node.size = s.node.size
  dirty : t.node.dirty = s.node.dirty
  looks : Fat.image sb t.vol.disk (after f) = Fat.image sb s.vol.disk (chains f)

theorem Live.same (live : Live sb aside f s chains) : Same sb aside f s chains s chains := ⟨live.kept,rfl,rfl,rfl⟩

theorem Same.trans (first : Same sb aside f s chains t after) (second : Same sb aside f t after u final) :
    Same sb aside f s chains u final :=
  ⟨first.toKept.trans second.toKept,second.size.trans first.size,second.dirty.trans first.dirty,
    second.looks.trans first.looks⟩

section
variable (geometry : Geometry sb) (live : Live sb aside f s chains) (legal : legalCluster sb c)
  (free : table sb s.vol.disk c = clusterFree)
include geometry live legal free

theorem Live.returns :
    Same sb aside f s chains ⟨(freeChain sb ((setEntry sb s.vol c clusterEoc).took sb c).asked c).2,s.node⟩ chains := by
  have marked := geometry.table_setEntry (legalEntry_of_cluster legal) clusterEoc s.vol
  rw [eoc_mod] at marked
  have single : Chain sb ((setEntry sb s.vol c clusterEoc).took sb c).asked.disk [c] := by
    refine ⟨?_,fun d member => by rwa [mem_singleton.mp member]⟩
    change clusterEoc ≤ table sb (setEntry sb s.vol c clusterEoc).disk c
    rw [marked,update_self]
  obtain ⟨w,ran,freed⟩ := single.frees geometry (nodup_singleton c) (c := c) rfl
  have tables : table sb w.disk = table sb s.vol.disk := by
    rw [freed.table]
    change cleared (table sb (setEntry sb s.vol c clusterEoc).disk) [c] = _
    rw [marked]
    funext d
    by_cases same : d = c
    · subst same
      simp [cleared,free]
    · simp [cleared,same]
  have contents : content sb w.disk = content sb s.vol.disk :=
    freed.content.trans (geometry.content_setEntry (legalEntry_of_cluster legal) clusterEoc s.vol)
  have counts : w.freeCount = s.vol.freeCount := by
    have took : ((setEntry sb s.vol c clusterEoc).took sb c).asked.freeCount =
        if s.vol.freeCount ≠ countUnknown ∧ s.vol.freeCount > 0 then s.vol.freeCount - 1
        else s.vol.freeCount := rfl
    rcases live.alloc.count with unknown | known
    · rw [freed.unknown (by rw [took,if_neg fun some => some.1 unknown,unknown]),unknown]
    have some : 0 < freeEntries sb (table sb s.vol.disk) :=
      countP_pos_iff.mpr ⟨c,mem_clusters.mpr legal,by simp [free]⟩
    have limit := freeEntries_lt geometry (table sb s.vol.disk)
    rw [if_pos (by omega)] at took
    have gave := freed.known (by rw [length_singleton]; omega)
    rw [gave,length_singleton]
    omega
  rw [ran]
  refine ⟨⟨⟨live.alloc.same tables counts,live.on⟩,fun _ _ => rfl,fun _ _ _ _ => by rw [contents],
    fun all i => ?_⟩,rfl,rfl,?_⟩
  · rw [freed.refusals]
    exact all (i + 1)
  · exact image_congr fun _ _ => by rw [contents]

theorem Live.links : ∃ node w, chainAppend sb (setCluster sb ((setEntry sb s.vol c clusterEoc).took sb c) c
        (replicate sb.clusterSize 0)) s.node c = .ok (node,w) ∧
      Same sb aside f s chains ⟨w,node⟩ (update chains f (chains f ++ [c])) ∧
      freeEntries sb (table sb w.disk) + 1 = freeEntries sb (table sb s.vol.disk) ∧
      w.refusals = s.vol.asked.refusals := by
  have entryLegal := legalEntry_of_cluster legal
  have absent := live.alloc.not_mem geometry free
  have whole : (replicate sb.clusterSize (0 : UInt8)).length = sb.clusterSize := length_replicate
  have marked := geometry.table_setEntry entryLegal clusterEoc s.vol
  have tables := (geometry.table_setCluster legal ((setEntry sb s.vol c clusterEoc).took sb c) _ whole).trans marked
  obtain ⟨node,w,ran,longer,contents,count,refusals,chain,on,size,dirty⟩ :=
    Chain.extends geometry (live.alloc.chain f).linked (live.alloc.chain f).legal (live.alloc.distinct f)
      live.on legal (absent f) tables
  have zeroed : content sb w.disk = update (content sb s.vol.disk) c fun _ => 0 := by
    rw [contents,geometry.content_setCluster legal _ _ whole]
    have before := geometry.content_setEntry entryLegal clusterEoc s.vol
    congr 1
    funext j
    simp only [getD_eq_getElem?_getD,getElem?_replicate]
    split <;> rfl
  have others : ∀ d, d ≠ c → content sb w.disk d = content sb s.vol.disk d := by
    intro d other
    rw [zeroed,update_of_ne other]
  have entries : freeEntries sb (table sb w.disk) + 1 = freeEntries sb (table sb s.vol.disk) := by
    refine freeEntries_take legal free (chain.used geometry (by simp)) fun d other => ?_
    by_cases member : d ∈ chains f
    · have now := chain.used geometry (mem_append_left [c] member)
      have before := (live.alloc.chain f).used geometry member
      simp [now,before]
    · rw [longer,extended_other other member]
  have counted : w.freeCount = countUnknown ∨ w.freeCount = freeEntries sb (table sb w.disk) := by
    have took : w.freeCount = if s.vol.freeCount ≠ countUnknown ∧ s.vol.freeCount > 0
        then s.vol.freeCount - 1 else s.vol.freeCount := count
    rcases live.alloc.count with unknown | known
    · exact .inl (by rw [took,if_neg fun some => some.1 unknown,unknown])
    · have limit := freeEntries_lt geometry (table sb s.vol.disk)
      rw [if_pos (by omega)] at took
      exact .inr (by omega)
  refine ⟨node,w,ran,⟨⟨⟨?_,by rwa [update_self]⟩,fun g other => update_of_ne other ..,
    fun g _ d member => others d (ne_of_mem_of_not_mem member (absent g)),fun all i => ?_⟩,size,dirty,?_⟩,entries,
    refusals⟩
  · refine live.alloc.replace geometry f chain ?_ (fun d member => ?_) (fun d away other => ?_)
      (fun d member away => absurd (mem_append_left [c] member) away) counted
    · exact nodup_append.mpr ⟨live.alloc.distinct f,nodup_singleton c,fun d member e single =>
        ne_of_mem_of_not_mem member (mem_singleton.mp single ▸ absent f)⟩
    · rcases mem_append.mp member with old | one
      · exact .inl old
      · exact .inr (mem_singleton.mp one ▸ free)
    · rw [longer,extended_other (fun same => other (by simp [same])) away]
  · rw [refusals]
    exact all (i + 1)
  · rw [update_self]
    refine image_append (fun d member => others d (ne_of_mem_of_not_mem member (absent f))) ?_
    rw [zeroed,update_self]

end

structure Grown (sb : Super) (aside : Nat → Prop) (f k : Nat) (s : Io) (chains : Nat → List Nat) (r : Except Errno Unit) (t : Io)
    (after : Nat → List Nat) : Prop extends Same sb aside f s chains t after where
  length : r = .ok () → (after f).length = (chains f).length + k
  longer : (chains f).length ≤ (after f).length
  enough : (∀ i, s.vol.refusals i = none) → k ≤ freeEntries sb (table sb s.vol.disk) → r = .ok ()

theorem Live.grows (geometry : Geometry sb) (live : Live sb aside f s chains) (k : Nat) :
    ∃ r t after, growLoop sb k s = (r,t) ∧ Grown sb aside f k s chains r t after := by
  induction k generalizing s chains with
  | zero => exact ⟨.ok (),s,chains,rfl,live.same,fun _ => rfl,le_refl _,fun _ _ => rfl⟩
  | succ k ih =>
    unfold growLoop
    rcases allocates sb s.vol with ⟨c,got,legal,free⟩ | ⟨full,none⟩
    · rw [got]
      dsimp only
      rw [writeCluster_eq legal]
      cases refused : ((setEntry sb s.vol c clusterEoc).took sb c).refusals 0 with
      | some e =>
        refine ⟨.error e,_,chains,rfl,live.returns geometry legal free,nofun,le_refl _,fun all => ?_⟩
        have granted : s.vol.refusals 0 = .some e := refused
        rw [all 0] at granted
        cases granted
      | none =>
        obtain ⟨node,w,linked,same,entries,_⟩ := live.links geometry legal free
        dsimp only
        rw [linked]
        obtain ⟨r,t,after,ran,grown⟩ := ih same.live
        have one : (update chains f (chains f ++ [c]) f).length = (chains f).length + 1 := by
          rw [update_self,length_append,length_singleton]
        refine ⟨r,t,after,ran,same.trans grown.toSame,fun done => ?_,?_,fun all some => ?_⟩
        · rw [grown.length done]
          omega
        · have := grown.longer
          omega
        · exact grown.enough (same.grants all) (by dsimp only; omega)
    · rw [full]
      refine ⟨.error .enospc,s,chains,rfl,live.same,nofun,le_refl _,fun _ some => ?_⟩
      obtain ⟨c,member,free⟩ := countP_pos_iff.mp (show 0 < freeEntries sb (table sb s.vol.disk) by omega)
      exact absurd (by simpa using free) (none c (mem_clusters.mp member))

end SurfaceOS.Fat
