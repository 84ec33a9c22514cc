import SurfaceOS.Fat.Calls
import SurfaceOS.Fat.Fatdir

/-! The hints the FAT layer works with: where to look for a free cluster, how many there are, and
where a file was read last. The search and the walks come out the same whatever the hints say. -/
namespace SurfaceOS.Fat
open Lib Lib.Memory List Fatdir
open Function (update update_eq_self update_idem update_of_ne update_self)

variable {sb : Super} {cells front : List Nat} {c first : Nat} {v : Vol}

def Vol.forget (v : Vol) : Vol := {v with freeCount := countUnknown}
def Io.forget (io : Io) : Io := ⟨io.vol.forget,io.node⟩
def Files.forget (s : Files) : Files := ⟨s.vol.forget,s.nodes⟩

section
variable (v : Vol) (io : Io)

theorem writeEntry_forget (c value : Nat) :
    writeEntry sb v.forget c value = (writeEntry sb v c value).map Vol.forget := by
  unfold writeEntry
  split <;> rfl

theorem chainAdvance_forget (steps c : Nat) : chainAdvance sb v.forget steps c = chainAdvance sb v steps c := by
  induction steps generalizing c with
  | zero => rfl
  | succ steps ih => simp only [chainAdvance,ih,show readEntry sb v.forget c = readEntry sb v c from rfl]

theorem clusterAt_forget (fn : Node) (index : Nat) : clusterAt sb v.forget fn index = clusterAt sb v fn index := by
  simp only [clusterAt,chainAdvance_forget]

theorem scanFree_forget (left c : Nat) : scanFree sb v.forget left c = scanFree sb v left c := by
  induction left generalizing c with
  | zero => rfl
  | succ left ih => simp only [scanFree,ih,show readEntry sb v.forget c = readEntry sb v c from rfl]

theorem allocCluster_forget : allocCluster sb v.forget = (allocCluster sb v).map (Prod.map id Vol.forget) := by
  have start : searchStart sb v.forget = searchStart sb v := rfl
  unfold allocCluster
  rw [scanFree_forget,start]
  cases scanFree sb v sb.totalClusters (searchStart sb v) with
  | error e => rfl
  | ok found =>
    cases found with
    | none => rfl
    | some c =>
      dsimp only
      rw [writeEntry_forget]
      cases writeEntry sb v c clusterEoc <;> rfl

theorem freeLoop_forget (guard : Nat) (c : Nat) :
    freeLoop sb guard v.forget c = Prod.map id Vol.forget (freeLoop sb guard v c) := by
  induction guard generalizing v c with
  | zero =>
    unfold freeLoop
    split <;> rfl
  | succ guard ih =>
    unfold freeLoop
    split
    · rw [writeEntry_forget,show readEntry sb v.forget c = readEntry sb v c from rfl]
      cases readEntry sb v c with
      | error e => rfl
      | ok next =>
        cases writeEntry sb v c clusterFree with
        | error e => rfl
        | ok w => exact ih w.gaveBack next
    · rfl

theorem freeChain_forget (c : Nat) : freeChain sb v.forget c = Prod.map id Vol.forget (freeChain sb v c) :=
  freeLoop_forget v _ c

theorem findEnd_forget (guard c idx : Nat) : findEnd sb v.forget guard c idx = findEnd sb v guard c idx := by
  induction guard generalizing c idx with
  | zero => unfold findEnd; rfl
  | succ guard ih =>
    unfold findEnd
    simp only [ih,show readEntry sb v.forget c = readEntry sb v c from rfl]

theorem chainAppend_forget (fn : Node) (newc : Nat) :
    chainAppend sb v.forget fn newc = (chainAppend sb v fn newc).map (Prod.map id Vol.forget) := by
  unfold chainAppend
  split
  · rfl
  simp only [findEnd_forget]
  generalize (if fn.lastCluster ≥ 2 then findEnd sb v (sb.totalClusters + 2) fn.lastCluster fn.lastIndex
    else findEnd sb v (sb.totalClusters + 2) fn.firstCluster 0) = found
  cases found with
  | error e => rfl
  | ok place =>
    dsimp only
    rw [writeEntry_forget]
    cases writeEntry sb v place.1 newc <;> rfl

theorem readCluster_forget (c : Nat) : readCluster sb v.forget c = Prod.map id Vol.forget (readCluster sb v c) := by
  unfold readCluster
  split
  · rfl
  · rw [show v.forget.refusals = v.refusals from rfl]
    cases v.refusals 0 <;> rfl

theorem writeCluster_forget (c : Nat) (bytes : List UInt8) :
    writeCluster sb v.forget c bytes = Prod.map id Vol.forget (writeCluster sb v c bytes) := by
  unfold writeCluster
  split
  · rfl
  · rw [show v.forget.refusals = v.refusals from rfl]
    cases v.refusals 0 <;> rfl

def Transfer.forget (out : Transfer) : Transfer := {out with io := out.io.forget}

theorem readLoop_forget (fuel off len : Nat) (bytes : List UInt8) :
    readLoop sb fuel io.forget off len bytes = (readLoop sb fuel io off len bytes).forget := by
  induction fuel generalizing io off len bytes with
  | zero => rfl
  | succ fuel ih =>
    unfold readLoop
    split
    · rfl
    dsimp only [Io.forget]
    rw [clusterAt_forget]
    cases clusterAt sb io.vol io.node (off / sb.clusterSize % 2^32) with
    | error e => rfl
    | ok place =>
      dsimp only
      rw [readCluster_forget]
      rcases readCluster sb io.vol place.1 with ⟨e | scratch,w⟩
      · rfl
      · exact ih ⟨w,place.2⟩ _ _ _

theorem readAt_forget (off len : Nat) : readAt sb io.forget off len = (readAt sb io off len).forget := by
  unfold readAt
  split
  · rfl
  by_cases behind : off ≥ io.node.size
  · simp only [show io.forget.node = io.node from rfl,if_pos behind]
    rfl
  · simp only [show io.forget.node = io.node from rfl,if_neg behind]
    exact readLoop_forget ..

theorem zeroTail_forget (c inside : Nat) :
    zeroTail sb v.forget c inside = Prod.map id Vol.forget (zeroTail sb v c inside) := by
  unfold zeroTail
  rw [readCluster_forget]
  rcases readCluster sb v c with ⟨e | scratch,w⟩
  · rfl
  · exact writeCluster_forget w ..

theorem extendTail_forget (endExcl : Nat) :
    extendTail sb io.forget endExcl = Prod.map id Io.forget (extendTail sb io endExcl) := by
  unfold extendTail
  dsimp only [Io.forget]
  rw [clusterAt_forget]
  split
  · cases clusterAt sb io.vol io.node ((io.node.size - 1) / sb.clusterSize % 2^32) with
    | error e => rfl
    | ok place =>
      dsimp only
      rw [zeroTail_forget]
      split <;> rfl
  · rfl

theorem growLoop_forget (count : Nat) :
    growLoop sb count io.forget = Prod.map id Io.forget (growLoop sb count io) := by
  induction count generalizing io with
  | zero => rfl
  | succ count ih =>
    unfold growLoop
    dsimp only [Io.forget]
    rw [allocCluster_forget]
    cases allocCluster sb io.vol with
    | error e => rfl
    | ok got =>
      dsimp only [Except.map,Prod.map,id]
      rw [writeCluster_forget]
      rcases writeCluster sb got.2 got.1 (replicate sb.clusterSize 0) with ⟨e | _,w⟩
      · dsimp only [Prod.map,id]
        rw [freeChain_forget]
        rfl
      dsimp only [Prod.map,id]
      rw [chainAppend_forget,freeChain_forget]
      cases chainAppend sb w io.node got.1 with
      | error e => rfl
      | ok linked => exact ih ⟨linked.2,linked.1⟩

theorem extendTo_forget (endExcl : Nat) :
    extendTo sb io.forget endExcl = Prod.map id Io.forget (extendTo sb io endExcl) := by
  unfold extendTo
  rw [extendTail_forget]
  rcases extendTail sb io endExcl with ⟨e | _,t⟩
  · rfl
  · exact growLoop_forget t _

theorem writeChunk_forget (c inside : Nat) (chunk : List UInt8) :
    writeChunk sb v.forget c inside chunk = Prod.map id Vol.forget (writeChunk sb v c inside chunk) := by
  unfold writeChunk
  split
  · rw [readCluster_forget]
    rcases readCluster sb v c with ⟨e | scratch,w⟩
    · rfl
    · exact writeCluster_forget w ..
  · exact writeCluster_forget v ..

theorem writeLoop_forget (fuel off : Nat) (src : List UInt8) (done : Nat) : writeLoop sb fuel io.forget off src done =
      Prod.map id (Prod.map id Io.forget) (writeLoop sb fuel io off src done) := by
  induction fuel generalizing io off src done with
  | zero => rfl
  | succ fuel ih =>
    unfold writeLoop
    split
    · rfl
    dsimp only [Io.forget]
    rw [clusterAt_forget]
    cases clusterAt sb io.vol io.node (off / sb.clusterSize % 2^32) with
    | error e => rfl
    | ok place =>
      dsimp only
      rw [writeChunk_forget]
      rcases writeChunk sb io.vol place.1 (off % sb.clusterSize)
          (src.take (min (sb.clusterSize - off % sb.clusterSize) src.length)) with ⟨e | _,w⟩
      · rfl
      · exact ih ⟨w,place.2⟩ _ _ _

theorem writeAt_forget (off : Nat) (src : List UInt8) :
    writeAt sb io.forget off src = Prod.map id (Prod.map id Io.forget) (writeAt sb io off src) := by
  unfold writeAt
  split
  · rfl
  split
  · rfl
  rw [extendTo_forget]
  rcases extendTo sb io ((off + src.length) % 2^64) with ⟨e | _,t⟩
  · rfl
  dsimp only [Prod.map,id]
  rw [writeLoop_forget]
  obtain ⟨r,done,u⟩ := writeLoop sb src.length t off src 0
  cases r <;> rfl

theorem growTail_forget : growTail sb io.forget = Prod.map id Io.forget (growTail sb io) := by
  unfold growTail
  dsimp only [Io.forget]
  rw [clusterAt_forget]
  split
  · cases clusterAt sb io.vol io.node ((io.node.size - 1) / sb.clusterSize % 2^32) with
    | error e => rfl
    | ok place =>
      dsimp only
      rw [zeroTail_forget]
      rfl
  · rfl

theorem cutChain_forget (keep : Nat) : cutChain sb io.forget keep = Prod.map id Io.forget (cutChain sb io keep) := by
  obtain ⟨v,fn⟩ := io
  change cutChain sb ⟨v.forget,fn⟩ keep = _
  unfold cutChain
  split
  · split
    · rw [freeChain_forget]
      obtain ⟨r,w⟩ := freeChain sb v fn.firstCluster
      cases r <;> rfl
    · rfl
  rw [clusterAt_forget]
  cases clusterAt sb v fn (keep % 2^32) with
  | error e => rfl
  | ok place =>
    dsimp only
    split
    · rw [clusterAt_forget]
      cases clusterAt sb v place.2 ((keep - 1) % 2^32) with
      | error e => rfl
      | ok last =>
        dsimp only
        rw [writeEntry_forget]
        cases writeEntry sb v last.1 clusterEoc with
        | error e => rfl
        | ok w =>
          dsimp only [Except.map]
          rw [freeChain_forget]
          obtain ⟨r,w⟩ := freeChain sb w place.1
          cases r <;> rfl
    · rfl

theorem shrinkTail_forget (keep size : Nat) :
    shrinkTail sb io.forget keep size = Prod.map id Io.forget (shrinkTail sb io keep size) := by
  unfold shrinkTail
  dsimp only [Io.forget]
  rw [clusterAt_forget]
  split
  · cases clusterAt sb io.vol io.node ((keep - 1) % 2^32) with
    | error e => rfl
    | ok place =>
      dsimp only
      rw [zeroTail_forget]
      rfl
  · rfl

theorem growTo_forget (size : Nat) : growTo sb io.forget size = Prod.map id Io.forget (growTo sb io size) := by
  unfold growTo
  rw [extendTo_forget]
  obtain ⟨r,t⟩ := extendTo sb io size
  cases r with
  | error e => rfl
  | ok _ =>
    dsimp only [Prod.map,id]
    rw [growTail_forget]
    obtain ⟨r,u⟩ := growTail sb t
    cases r <;> rfl

theorem shrinkTo_forget (size : Nat) : shrinkTo sb io.forget size = Prod.map id Io.forget (shrinkTo sb io size) := by
  unfold shrinkTo
  dsimp only
  rw [cutChain_forget]
  obtain ⟨r,t⟩ := cutChain sb io (clustersFor sb size)
  cases r with
  | error e => rfl
  | ok _ =>
    dsimp only [Prod.map,id]
    rw [shrinkTail_forget]
    obtain ⟨r,u⟩ := shrinkTail sb t (clustersFor sb size) size
    cases r <;> rfl

theorem truncate_forget (size : Nat) : truncate sb io.forget size = Prod.map id Io.forget (truncate sb io size) := by
  unfold truncate
  rw [growTo_forget,shrinkTo_forget,show io.forget.node = io.node from rfl]
  split_ifs <;> rfl

theorem lastCluster_forget (guard c : Nat) : lastCluster sb v.forget guard c = lastCluster sb v guard c := by
  induction guard generalizing c with
  | zero => unfold lastCluster; rfl
  | succ guard ih =>
    unfold lastCluster
    simp only [ih,show readEntry sb v.forget c = readEntry sb v c from rfl]

theorem growDir_forget : Fatdir.growDir sb io.forget = Prod.map id Io.forget (Fatdir.growDir sb io) := by
  have back : ∀ w c, giveUp sb (Vol.forget w) c = (giveUp sb w c).forget := by
    intro w c
    unfold giveUp
    rw [writeEntry_forget]
    cases writeEntry sb w c clusterFree <;> rfl
  unfold Fatdir.growDir
  dsimp only [Io.forget]
  rw [lastCluster_forget,allocCluster_forget]
  cases lastCluster sb io.vol (sb.totalClusters + 2) io.node.firstCluster with
  | error e => rfl
  | ok last =>
    cases allocCluster sb io.vol with
    | error e => rfl
    | ok got =>
      dsimp only [Except.map,Prod.map,id]
      rw [writeCluster_forget]
      obtain ⟨r,w⟩ := writeCluster sb got.2 got.1 (List.replicate sb.clusterSize 0)
      cases r with
      | error e =>
        dsimp only [Prod.map,id]
        rw [back]
        rfl
      | ok _ =>
        dsimp only [Prod.map,id]
        rw [writeEntry_forget,back]
        cases writeEntry sb w last got.1 <;> rfl

end

def hinted (sb : Super) (v : Vol) : Nat := if legalCluster sb v.nextFree then v.nextFree else 2

theorem searchStart_eq (v : Vol) : searchStart sb v = hinted sb v := by
  unfold searchStart hinted
  simp only [legalCluster_iff]
  split <;> split <;> omega

/-- For every content of the FAT, hint and free count, `alloc_cluster` fails only when no data cluster is
free, and else takes the first free one from the hint on, round the end; that entry becomes an end
mark in every copy of the FAT and no other entry changes. -/
theorem allocCluster_spec (geometry : Geometry sb) (v : Vol) : (∀ e, allocCluster sb v = .error e ↔
      e = .enospc ∧ ∀ c, legalCluster sb c → table sb v.disk c ≠ clusterFree) ∧
    ∀ c w, allocCluster sb v = .ok (c,w) →
      (∃ i < sb.totalClusters, c = around sb (hinted sb v) i ∧ table sb v.disk c = clusterFree ∧
        ∀ j < i, table sb v.disk (around sb (hinted sb v) j) ≠ clusterFree) ∧
      ∀ f < sb.numFats, ∀ d, legalEntry sb d →
        entryIn sb w.disk f d = if d = c then clusterEoc else entryIn sb v.disk f d := by
  rw [← searchStart_eq]
  rcases allocates_first sb v with ⟨i,small,got,free,before⟩ | ⟨full,none⟩
  · have start := searchStart_legal (show 0 < sb.totalClusters by omega) v
    have legal := around_legal start i
    rw [got]
    refine ⟨fun e => ⟨nofun,fun full => absurd free (full.2 _ legal)⟩,fun c w same => ?_⟩
    cases same
    refine ⟨⟨i,small,rfl,free,before⟩,fun f copy d entry => ?_⟩
    exact geometry.entryIn_setEntry (legalEntry_of_cluster legal) clusterEoc v copy entry
  · rw [full]
    refine ⟨fun e => ⟨fun same => ?_,fun same => by rw [same.1]⟩,nofun⟩
    cases same
    exact ⟨rfl,none⟩

def misled : Vol := {blank.vol with nextFree := 9, freeCount := 0}

theorem allocCluster_spec_misled : ∃ w, allocCluster smallVolume misled = .ok (3,w) ∧
    entryIn smallVolume w.disk 0 3 = clusterEoc ∧ entryIn smallVolume w.disk 0 2 = entryIn smallVolume misled.disk 0 2 := by
  have got : allocCluster smallVolume misled = .ok (3,(setEntry smallVolume misled 3 clusterEoc).took smallVolume 3) := rfl
  have entries := ((allocCluster_spec smallVolume_geometry misled).2 3 _ got).2 0 (by decide)
  exact ⟨_,got,entries 3 rfl,entries 2 rfl⟩

/-- What works on the chains of files and directories: the operations on files, `cluster_at` for a
directory's slots, `grow_dir`, and a truncation to nothing whose `free_chain` a device error stops after `links`. -/
inductive Touch
  | op (o : Op)
  | locate (f index : Nat)
  | grow (f : Nat)
  | stopped (f links : Nat)

def Touch.Finished : Touch → Prop
  | .stopped _ _ => False
  | _ => True

def Files.touch (sb : Super) (s : Files) : Touch → Files
  | .op o => s.apply sb o
  | .locate f index => match clusterAt sb s.vol (s.nodes f) index with
    | .error _ => s
    | .ok (_,node) => s.set f ⟨s.vol,node⟩
  | .grow f => s.set f (Fatdir.growDir sb (s.io f)).2
  | .stopped f links => match freeLoop sb links s.vol (s.nodes f).firstCluster with
    | (.error _,vol) => {s with vol := vol}
    | (.ok _,_) => s

def walkFrom (sb : Super) (v : Vol) (firstCluster index : Nat) : Except Errno Nat :=
  if firstCluster < 2 then .error .enxio else chainAdvance sb v index firstCluster

variable {aside : Nat → Prop} {f : Nat} {s : Io} {chains : Nat → List Nat}

theorem touch_forget (s : Files) (t : Touch) : s.forget.touch sb t = (s.touch sb t).forget := by
  cases t with
  | op o =>
    cases o with
    | call c =>
      cases c with
      | read f off len =>
        have read := @readAt_forget sb (s.io f) off len
        simp only [Files.touch,Files.apply,Files.call,show s.forget.io f = (s.io f).forget from rfl,read]
        rfl
      | write f off src =>
        have write := @writeAt_forget sb (s.io f) off src
        simp only [Files.touch,Files.apply,Files.call,show s.forget.io f = (s.io f).forget from rfl,write]
        obtain ⟨r,done,t⟩ := writeAt sb (s.io f) off src
        cases r <;> rfl
      | truncate f size =>
        have truncate := @truncate_forget sb (s.io f) size
        simp only [Files.touch,Files.apply,Files.call,show s.forget.io f = (s.io f).forget from rfl,truncate]
        obtain ⟨r,t⟩ := Fat.truncate sb (s.io f) size
        cases r <;> rfl
    | append f =>
      have grow := @growLoop_forget sb (s.io f) 1
      simp only [Files.touch,Files.apply,show s.forget.io f = (s.io f).forget from rfl,grow]
      rfl
    | free f =>
      have free := @freeChain_forget sb s.vol (s.nodes f).firstCluster
      simp only [Files.touch,Files.apply,show s.forget.vol = s.vol.forget from rfl,
        show s.forget.nodes = s.nodes from rfl,free]
      rfl
  | locate f index =>
    simp only [Files.touch,show s.forget.vol = s.vol.forget from rfl,show s.forget.nodes = s.nodes from rfl,
      clusterAt_forget]
    cases clusterAt sb s.vol (s.nodes f) index <;> rfl
  | grow f =>
    have grow := @growDir_forget sb (s.io f)
    simp only [Files.touch,show s.forget.io f = (s.io f).forget from rfl,grow]
    rfl
  | stopped f links =>
    have free := @freeLoop_forget sb s.vol links (s.nodes f).firstCluster
    simp only [Files.touch,show s.forget.vol = s.vol.forget from rfl,show s.forget.nodes = s.nodes from rfl,free]
    rcases freeLoop sb links s.vol (s.nodes f).firstCluster with ⟨e | _,w⟩ <;> rfl

section
variable (geometry : Geometry sb)
include geometry

theorem Chain.lastCluster {last c guard : Nat}
    (chain : Chain sb v.disk (front ++ [last])) (first : (front ++ [last]).head? = some c)
    (enough : front.length ≤ guard) : lastCluster sb v guard c = .ok last := by
  induction front generalizing c guard with
  | nil =>
    cases first
    have legal := legalEntry_of_cluster (chain.legal last (by simp))
    have ended : clusterEoc ≤ table sb v.disk last := chain.linked
    unfold Fatdir.lastCluster
    simp [readEntry_eq v legal,ended]
  | cons d front ih =>
    cases first
    obtain ⟨guard,rfl⟩ : ∃ g, guard = g + 1 := ⟨guard - 1,by rw [length_cons] at enough; omega⟩
    have legal := legalEntry_of_cluster (chain.legal d (by simp))
    have rest : Chain sb v.disk (front ++ [last]) :=
      ⟨chain.linked.tail,fun e member => chain.legal e (mem_cons_of_mem d member)⟩
    have next : (front ++ [last]).head? = some (table sb v.disk d) := by
      have linked := chain.linked
      rw [cons_append] at linked
      cases same : front ++ [last] with
      | nil => simp at same
      | cons e more =>
        rw [same] at linked
        rw [linked.1]
        rfl
    obtain ⟨low,_,eoc⟩ := geometry.below_marks (rest.legal _ (mem_of_head? next))
    unfold Fatdir.lastCluster
    simp only [readEntry_eq v legal]
    rw [if_neg (by omega)]
    exact ih rest next (by rw [length_cons] at enough; omega)

theorem Live.givesUp (live : Live sb aside f s chains)
    (unknown : s.vol.freeCount = countUnknown) (legal : legalCluster sb c)
    (free : table sb s.vol.disk c = clusterFree) : Same sb aside f s chains
      ⟨giveUp sb ((setEntry sb s.vol c clusterEoc).took sb c).asked c,s.node⟩ chains := by
  have entry := legalEntry_of_cluster legal
  have gone : giveUp sb ((setEntry sb s.vol c clusterEoc).took sb c).asked c =
      setEntry sb ((setEntry sb s.vol c clusterEoc).took sb c).asked c clusterFree := by
    rw [giveUp,writeEntry_eq _ _ entry]
  have tables : table sb (setEntry sb ((setEntry sb s.vol c clusterEoc).took sb c).asked c clusterFree).disk =
      table sb s.vol.disk := by
    rw [geometry.table_setEntry entry]
    change update (table sb (setEntry sb s.vol c clusterEoc).disk) c clusterFree = _
    rw [geometry.table_setEntry entry,update_idem,← free,update_eq_self]
  have contents : content sb (setEntry sb ((setEntry sb s.vol c clusterEoc).took sb c).asked c clusterFree).disk =
      content sb s.vol.disk :=
    (geometry.content_setEntry entry ..).trans (geometry.content_setEntry entry ..)
  have counts : (setEntry sb ((setEntry sb s.vol c clusterEoc).took sb c).asked c clusterFree).freeCount =
      s.vol.freeCount := if_neg fun some => some.1 unknown
  rw [gone]
  refine ⟨⟨⟨live.alloc.same tables counts,live.on⟩,fun _ _ => rfl,fun _ _ _ _ => by rw [contents],
    fun all i => all (i + 1)⟩,rfl,rfl,image_congr fun _ _ => by rw [contents]⟩

structure Enlarged (sb : Super) (aside : Nat → Prop) (f : Nat) (s : Io) (chains : Nat → List Nat)
    (r : Except Errno Unit) (t : Io) (after : Nat → List Nat) : Prop extends Same sb aside f s chains t after where
  grown : r = .ok () → chains f ≠ [] ∧ ∃ c, after f = chains f ++ [c]
  still : ∀ e, r = .error e → after = chains

theorem Live.growsDir (live : Live sb aside f s chains)
    (unknown : s.vol.freeCount = countUnknown) :
    ∃ after, Enlarged sb aside f s chains (Fatdir.growDir sb s).1 (Fatdir.growDir sb s).2 after := by
  unfold Fatdir.growDir
  rcases eq_nil_or_concat (chains f) with empty | ⟨front,last,cells⟩
  · have first : s.node.firstCluster = 0 := by rw [live.on.first,empty]; rfl
    have none : lastCluster sb s.vol (sb.totalClusters + 2) s.node.firstCluster = .error .einval := by
      rw [first]
      rfl
    rw [none]
    exact ⟨chains,live.same,nofun,fun _ _ => rfl⟩
  rw [concat_eq_append] at cells
  have chain := live.alloc.chain f
  have distinct := live.alloc.distinct f
  have on := live.on
  rw [cells] at chain distinct on
  have bound := chain.length_le distinct
  rw [length_append] at bound
  have first : (front ++ [last]).head? = some s.node.firstCluster := by
    rw [on.first]
    cases front <;> rfl
  rw [chain.lastCluster geometry first (show front.length ≤ sb.totalClusters + 2 by omega)]
  rcases allocates sb s.vol with ⟨c,got,legal,free⟩ | ⟨full,_⟩
  · rw [got]
    dsimp only
    rw [writeCluster_eq legal]
    cases ((setEntry sb s.vol c clusterEoc).took sb c).refusals 0 with
    | some e => exact ⟨chains,live.givesUp geometry unknown legal free,nofun,fun _ _ => rfl⟩
    | none =>
      obtain ⟨node,w,linked,same,_⟩ := live.links geometry legal free
      have absent : c ∉ front ++ [last] := cells ▸ live.alloc.not_mem geometry free f
      have entry := legalEntry_of_cluster legal
      have tables := geometry.table_setCluster legal ((setEntry sb s.vol c clusterEoc).took sb c) _
        (length_replicate (n := sb.clusterSize) (a := (0 : UInt8)))
      have kept : Chain sb (setCluster sb ((setEntry sb s.vol c clusterEoc).took sb c) c
          (List.replicate sb.clusterSize 0)).disk (front ++ [last]) := by
        refine ⟨chain.linked.congr fun d member => ?_,chain.legal⟩
        rw [tables]
        change table sb (setEntry sb s.vol c clusterEoc).disk d = _
        rw [geometry.table_setEntry entry,update_of_ne (ne_of_mem_of_not_mem member absent)]
      -- `chain_append` and `grow_dir` write the same entry; they differ in the cache alone
      have appended := Chain.appends geometry kept distinct on c
      rw [linked] at appended
      obtain ⟨rfl,rfl⟩ := Prod.mk.inj (Except.ok.inj appended)
      dsimp only
      rw [writeEntry_eq _ _ (legalEntry_of_cluster (chain.legal last (by simp)))]
      refine ⟨_,⟨⟨⟨same.live.alloc,same.live.on.first,.inl Nat.zero_lt_two⟩,same.others,same.bytes,same.grants⟩,
        same.size,same.dirty,same.looks⟩,fun _ => ⟨by rw [cells]; simp,c,update_self ..⟩,nofun⟩
  · rw [full]
    exact ⟨chains,live.same,nofun,fun _ _ => rfl⟩

theorem Chain.walks (chain : Chain sb v.forget.disk cells)
    (starts : first = cells.head?.getD 0) (index : Nat) :
    walkFrom sb v first index = match cells[index]? with
      | some c => .ok c
      | none => .error .enxio := by
  cases cells with
  | nil =>
    rw [starts]
    rfl
  | cons c rest =>
    obtain rfl : first = c := starts
    obtain ⟨low,_⟩ := geometry.below_marks (chain.legal first (by simp))
    rw [walkFrom,if_neg (by omega),← chainAdvance_forget]
    exact Chain.advances geometry chain index

def Positioned (sb : Super) (aside : Nat → Prop) (s : Files) : Prop :=
  ∃ chains, Allocated sb aside s.vol.forget chains ∧ ∀ f, (s.nodes f).On (chains f)

theorem Positioned.step {s : Files} (positioned : Positioned sb aside s) (t : Touch) (finished : t.Finished) :
    Positioned sb aside (s.touch sb t) := by
  obtain ⟨chains,alloc,on⟩ := positioned
  have live : ∀ f, Live sb aside f (s.forget.io f) chains := fun f => ⟨alloc,on f⟩
  have moved : ∃ f t' after, s.forget.touch sb t = s.forget.set f t' ∧
      Kept sb aside f (s.forget.io f) chains t' after := by
    cases t with
    | op o => exact Files.applies (s := s.forget) geometry alloc on o
    | locate f index =>
      have here := (alloc.chain f).at geometry (on f) index
      change ∃ f' t' after, (match clusterAt sb s.vol.forget (s.nodes f) index with
        | .error _ => s.forget
        | .ok (_,node) => s.forget.set f ⟨s.forget.vol,node⟩) = _ ∧ _
      rw [here]
      cases inside : (chains f)[index]? with
      | none => exact ⟨f,s.forget.io f,chains,by simp [Files.set,Files.io],(live f).kept⟩
      | some c => exact ⟨f,_,chains,rfl,⟨⟨alloc,(on f).moved inside⟩,fun _ _ => rfl,fun _ _ _ _ => rfl,id⟩⟩
    | grow f =>
      obtain ⟨after,grown⟩ := (live f).growsDir geometry rfl
      exact ⟨f,_,after,rfl,grown.toKept⟩
    | stopped f links => exact finished.elim
  obtain ⟨f,t',after,ran,kept⟩ := moved
  rw [touch_forget] at ran
  refine ⟨after,?_,fun g => ?_⟩
  · rw [show (s.touch sb t).vol.forget = (s.touch sb t).forget.vol from rfl,ran]
    exact kept.live.alloc
  rw [show (s.touch sb t).nodes = (s.touch sb t).forget.nodes from rfl,ran]
  exact kept.positions (s := s.forget) on g

end

theorem blank_positioned : Positioned smallVolume nothing blank :=
  ⟨blankChains,⟨blank_allocated.chain,blank_allocated.part,blank_allocated.used,.inl rfl⟩,blank_sound.starts⟩

def crowding : List Touch :=
  [.op (.call (.write 1 0 [7])),.op (.call (.write 2 511 [8,9])),.grow 0,.op (.free 2),.grow 0,.locate 0 1]

def crowded : Files := crowding.foldl (Files.touch smallVolume) blank

end SurfaceOS.Fat
