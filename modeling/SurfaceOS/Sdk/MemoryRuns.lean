import SurfaceOS.Sdk.Memory

/-! Every run of a program that writes only where it may keeps its heap in order. -/
namespace SurfaceOS.Sdk
open Lib Function List Nat

variable {a i size d dest need src : Nat} {buffer newBuffer : Bool} {h : Heap} {ys : List Block} {k : Live}

structure Intact (h : Heap) (l : Live) : Prop where
  sound : Sound l.block
  size : h.size l.block.addr = l.block.size
  used : h.tag l.block.addr = tagUsed
  room : l.data + l.asked ≤ l.block.last
  slack : ∀ i, l.data + l.asked ≤ i → i < l.block.last → h.mem i = 0

structure Stale (h : Heap) (b : Block) : Prop where
  sound : Sound b
  free : h.tag b.addr = tagFree

structure Program.Inv (s : Program) (xs : List Block) : Prop where
  listed : Listed s.heap xs
  intact : ∀ l ∈ s.live, Intact s.heap l
  apart : s.live.Pairwise fun l k => l.block.Apart k.block
  free : ∀ l ∈ s.live, ∀ x ∈ xs, l.block.Apart x
  stale : ∀ b ∈ s.freed, Stale s.heap b
  gone : ∀ l ∈ s.live, ∀ b ∈ s.freed, l.block.Apart b
  paged : ∀ x, x ∈ xs ∨ x ∈ s.live.map Live.block ∨ x ∈ s.freed → ∀ i, x.Holds i → Covers s.pages i

variable {b n : Block} {pages : Except Status Nat} {l : Live} {p : Nat}

section words
variable {h k : Heap} {xs : List Block}

theorem Sound.head (sound : Sound b) (small : d ≤ 24) (lower : b.addr + d ≤ i)
    (upper : i < b.addr + d + 8) : b.Holds i := by
  have large := sound.large
  unfold minBlock at large
  exact ⟨by omega,by unfold Block.last; omega⟩

theorem Listed.congr (listed : Listed h xs) (list : k.freeList = h.freeList)
    (same : ∀ i, Covers xs i → k.mem i = h.mem i) : Listed k xs := by
  refine ⟨list.trans listed.head,listed.threaded.congr fun x member => ?_,listed.gapped,listed.sound⟩
  have sound := listed.sound x member
  exact ⟨load_congr fun i lower upper => same i ⟨x,member,sound.head (zero_le _) lower upper⟩,
    load_congr fun i lower upper => same i ⟨x,member,sound.head (by decide) lower upper⟩⟩

theorem Intact.rewritten (intact : Intact h l) (same : ∀ i, l.block.addr ≤ i → i < l.data → k.mem i = h.mem i)
    (room : l.data + size ≤ l.block.last) (slack : ∀ i, l.data + size ≤ i → i < l.block.last → k.mem i = 0) :
    Intact k ⟨l.block,size⟩ := by
  have kept (d : Nat) (small : d ≤ 8) : load k.mem (l.block.addr + d) = load h.mem (l.block.addr + d) :=
    load_congr fun i lower upper => same i (by omega) (by unfold Live.data heapHeader; omega)
  exact ⟨intact.sound,(kept 0 (by decide)).trans intact.size,(kept 8 (by decide)).trans intact.used,room,slack⟩

theorem Intact.congr (intact : Intact h l) (same : ∀ i, l.block.Holds i → k.mem i = h.mem i) : Intact k l := by
  have room := intact.room
  refine intact.rewritten (fun i lower upper => same i ⟨lower,by omega⟩) room fun i lower upper => ?_
  rw [same i ⟨by unfold Live.data at lower; omega,upper⟩]
  exact intact.slack i lower upper

theorem Intact.even (intact : Intact h l) : ¬ l.data % 16 ≠ 0 := by
  have aligned := intact.sound.aligned
  unfold Live.data heapHeader
  omega

theorem Live.base (l : Live) : l.data - heapHeader = l.block.addr := Nat.add_sub_cancel ..

theorem Intact.frees (intact : Intact h l) : h.free l.data = (h.release l.block.addr,.ok ()) := by
  have some : l.data ≠ 0 := by
    unfold Live.data heapHeader
    omega
  rw [Heap.free,if_neg (not_or.mpr ⟨some,intact.even⟩),l.base,if_neg (not_not_intro intact.used)]

theorem Stale.congr (stale : Stale h b) (same : ∀ i, b.Holds i → k.mem i = h.mem i) : Stale k b :=
  ⟨stale.sound,(load_congr fun i lower upper => same i (stale.sound.head (by decide) lower upper)).trans stale.free⟩

theorem Sound.pos (sound : Sound b) : 0 < b.size := Nat.lt_of_lt_of_le (by decide) sound.large

theorem apart_of_covers {x : Block} (sound : Sound b) (isX : Sound x) (member : x ∈ xs)
    (never : ∀ i, b.Holds i → ¬ Covers xs i) : b.Apart x :=
  Block.apart_of_not_holds sound.pos isX.pos fun i holds inX => never i holds ⟨x,member,inX⟩

theorem not_covers (away : ∀ x ∈ xs, b.Apart x) (holds : b.Holds i) : ¬ Covers xs i :=
  fun ⟨x,member,inX⟩ => (away x member).not_holds holds inX

end words

namespace Program
variable {s : Program} {xs : List Block}

section
variable (inv : s.Inv xs)
include inv

theorem Inv.elsewhere (list : h.freeList = s.heap.freeList)
    (same : ∀ i, Covers s.pages i → h.mem i = s.heap.mem i) : Inv {s with heap := h} xs := by
  obtain ⟨listed,intact,apart,free,stale,gone,paged⟩ := inv
  refine ⟨listed.congr list fun i ⟨x,member,holds⟩ => same i (paged x (.inl member) i holds),
    fun l member => (intact l member).congr fun i holds => same i ?_,apart,free,
    fun b member => (stale b member).congr fun i holds => same i (paged b (.inr (.inr member)) i holds),gone,paged⟩
  exact paged l.block (.inr (.inl (mem_map_of_mem member))) i holds

theorem Inv.release (sound : Sound b) (away : ∀ x ∈ xs, b.Apart x) (others : ∀ l ∈ s.live, b.Apart l.block)
    (size : s.heap.size b.addr = b.size) (inside : ∀ i, b.Holds i → Covers s.pages i) :
    ∃ ys, Inv {s with heap := s.heap.release b.addr} ys ∧ Stale (s.heap.release b.addr) b ∧
      (∀ i, Covers ys i ↔ Covers xs i ∨ b.Holds i) ∧
      ∀ l ∈ s.live, ∀ i, l.block.Holds i → (s.heap.release b.addr).mem i = s.heap.mem i := by
  obtain ⟨listed,intact,apart,free,stale,gone,paged⟩ := inv
  obtain ⟨ys,isListed,covers,bytes,tags⟩ := Heap.release_spec listed sound away size
  have same (l : Live) (member : l ∈ s.live) (i : Nat) (holds : l.block.Holds i) :
      (s.heap.release b.addr).mem i = s.heap.mem i :=
    bytes i (not_covers (free l member) holds) ((others l member).symm.not_holds holds)
  refine ⟨ys,⟨isListed,fun l member => (intact l member).congr (same l member),apart,fun l member x inYs => ?_,
    fun c member => ⟨(stale c member).sound,?_⟩,gone,?_⟩,⟨sound,?_⟩,covers,same⟩
  · refine apart_of_covers (intact l member).sound (isListed.sound x inYs) inYs fun i holds covered => ?_
    rcases (covers i).mp covered with inXs | inB
    · exact not_covers (free l member) holds inXs
    · exact (others l member).not_holds inB holds
  · rw [tags c.addr (stale c member).sound.aligned,(stale c member).free,ite_self]
  · rintro x (inYs | rest) i holds
    · rcases (covers i).mp ⟨x,inYs,holds⟩ with ⟨y,inXs,inY⟩ | inB
      · exact paged y (.inl inXs) i inY
      · exact inside i inB
    · exact paged x (.inr rest) i holds
  · rw [tags b.addr sound.aligned,if_pos rfl]

theorem Inv.distinct (here : k ∈ s.live) (there : l ∈ s.live) : k = l ∨ k.block.Apart l.block := by
  let related (k l : Live) : Prop := k = l ∨ k.block.Apart l.block
  have symmetric : Std.Symm related := ⟨fun k l either => either.imp Eq.symm Block.Apart.symm⟩
  have pairs : s.live.Pairwise related := inv.apart.imp fun apart => .inr apart
  have itself (l : Live) (_ : l ∈ s.live) : related l l := .inl rfl
  exact List.Pairwise.forall_of_forall itself pairs here there

theorem Inv.same_of_data (here : k ∈ s.live) (there : l ∈ s.live) (same : k.data = l.data) : k = l := by
  rcases inv.distinct here there with rfl | apart
  · rfl
  have one := (inv.intact k here).sound.pos
  have two := (inv.intact l there).sound.pos
  unfold Live.data at same
  unfold Block.Apart Block.last at apart
  omega

theorem Inv.filter (keep : Live → Bool) : Inv {s with live := s.live.filter keep} xs := by
  obtain ⟨listed,intact,apart,free,stale,gone,paged⟩ := inv
  refine ⟨listed,fun l member => intact l (mem_of_mem_filter member),apart.filter keep,
    fun l member => free l (mem_of_mem_filter member),stale,fun l member => gone l (mem_of_mem_filter member),?_⟩
  rintro x (inXs | inLive | inFreed)
  · exact paged x (.inl inXs)
  · obtain ⟨l,member,rfl⟩ := mem_map.mp inLive
    exact paged _ (.inr (.inl (mem_map_of_mem (mem_of_mem_filter member))))
  · exact paged x (.inr (.inr inFreed))

theorem Inv.takeBack (member : l ∈ s.live) : (∃ ys, Inv (s.takeBack (s.heap.release l.block.addr) l.data) ys) ∧
      ∀ k ∈ s.live, k.data ≠ l.data → ∀ i, k.block.Holds i → (s.heap.release l.block.addr).mem i = s.heap.mem i := by
  have others (k : Live) (also : k ∈ s.live) (other : k.data ≠ l.data) : k.block.Apart l.block :=
    (inv.distinct also member).resolve_left fun same => other (same ▸ rfl)
  obtain ⟨sound,size,-,-,-⟩ := inv.intact l member
  have rest := inv.filter (·.data ≠ l.data)
  have left {k : Live} (also : k ∈ s.live.filter (·.data ≠ l.data)) : k ∈ s.live ∧ k.data ≠ l.data := by
    simpa using also
  have inside := inv.paged l.block (.inr (.inl (mem_map_of_mem member)))
  obtain ⟨ys,after,stale,-,bytes⟩ := rest.release sound (inv.free l member)
    (fun k also => (others k (left also).1 (left also).2).symm) size inside
  have isBlock {b : Block} (back : b ∈ (s.live.filter (·.data = l.data)).map Live.block) : b = l.block := by
    obtain ⟨k,also,rfl⟩ := mem_map.mp back
    have : k ∈ s.live ∧ k.data = l.data := by simpa using also
    rw [inv.same_of_data this.1 member this.2]
  refine ⟨⟨ys,after.listed,after.intact,after.apart,after.free,fun b here => ?_,fun k also b here => ?_,
    fun x which => ?_⟩,fun k also other => bytes k (by simpa using ⟨also,other⟩)⟩
  · rcases mem_append.mp here with back | earlier
    · exact isBlock back ▸ stale
    · exact after.stale b earlier
  · rcases mem_append.mp here with back | earlier
    · exact isBlock back ▸ others k (left also).1 (left also).2
    · exact after.gone k also b earlier
  rcases which with inYs | inLive | inFreed
  · exact after.paged x (.inl inYs)
  · exact after.paged x (.inr (.inl inLive))
  · rcases mem_append.mp inFreed with back | earlier
    · exact isBlock back ▸ inside
    · exact after.paged x (.inr (.inr earlier))

theorem Inv.morePages (b : Block) : Inv {s with pages := b :: s.pages} xs :=
  {inv with paged := fun x which i holds => (covers_cons ..).mpr (.inr (inv.paged x which i holds))}

end

theorem growSize_spec (need : Nat) : need ≤ Heap.growSize need ∧ sfPageSize ∣ Heap.growSize need ∧
    0 < Heap.growSize need := by
  unfold Heap.growSize heapGrowPages sfPageSize
  refine ⟨?_,Nat.dvd_mul_left ..,by omega⟩
  omega

theorem needOf_spec (size : Nat) : 16 ∣ Heap.needOf size ∧ minBlock ≤ Heap.needOf size ∧
    heapHeader + size ≤ Heap.needOf size := by
  unfold Heap.needOf minBlock heapHeader
  omega

structure Served (s : Program) (size : Nat) (pages : Except Status Nat) (h : Heap) (zs : List Block) : Prop where
  inv : Inv {s with heap := h, pages := s.grown size pages} zs
  bytes : ∀ l ∈ s.live, ∀ i, l.block.Holds i → h.mem i = s.heap.mem i

def cleared (k : Heap) (n : Block) : Heap := {k with mem := wipe k.mem (n.addr + heapHeader) (n.size - heapHeader)}

theorem cleared_mem (k : Heap) (sound : Sound n) (i : Nat) : (cleared k n).mem i =
    if n.addr + heapHeader ≤ i ∧ i < n.last then 0 else k.mem i := by
  have large := sound.large
  unfold minBlock at large
  have stop : n.addr + heapHeader + (n.size - heapHeader) = n.last := by
    unfold heapHeader Block.last
    omega
  simp only [cleared,wipe,stop]

theorem handOut_eq (size : Nat) (header : h.size n.addr = n.size) :
    s.handOut h (n.addr + heapHeader) size =
      {s with heap := h, live := ⟨n,size⟩ :: s.live, freed := s.freed.filter (n.Apart ·)} := by
  simp [handOut,header]

def Well (s : Program) (c : Call) : Prop :=
  ∃ t reply ys, s.step c = some (t,reply) ∧ Inv t ys ∧ s.Lawful t c reply

theorem copy_apply (m : Mem) {dest src n : Nat} (apart : dest + n ≤ src ∨ src + n ≤ dest) (i : Nat) :
    copy m dest src n i = if dest ≤ i ∧ i < dest + n then m (src + (i - dest)) else m i := by
  induction n generalizing i with
  | zero => rw [copy,if_neg (by omega)]
  | succ n ih =>
    rw [copy,update_apply,ih (by omega),ih (by omega)]
    by_cases last : i = dest + n
    · rw [if_pos last,if_neg (by omega),if_pos (by omega),last,Nat.add_sub_cancel_left]
    rw [if_neg last]
    by_cases inside : dest ≤ i ∧ i < dest + n
    · rw [if_pos inside,if_pos (by omega)]
    · rw [if_neg inside,if_neg (by omega)]

theorem takeBack_nothing (nobody : ∀ l ∈ s.live, l.data ≠ p) : s.takeBack s.heap p = s := by
  have all : s.live.filter (·.data ≠ p) = s.live := filter_eq_self.mpr fun l member => by simpa using nobody l member
  have none : s.live.filter (·.data = p) = [] := filter_eq_nil_iff.mpr fun l member => by simpa using nobody l member
  rw [takeBack,all,none]
  rfl

section
variable (inv : s.Inv xs)
include inv

theorem Inv.grow (multiple : sfPageSize ∣ a) (base : userMmapBase ≤ a)
    (limit : a + Heap.growSize need ≤ userMmapLimit) (fresh : ∀ x ∈ s.pages, (Block.mk a (Heap.growSize need)).Apart x) :
    ∃ ys, Inv {s with heap := s.heap.grow need a, pages := ⟨a,Heap.growSize need⟩ :: s.pages} ys ∧
      (∃ y ∈ ys, need ≤ y.size) ∧ ∀ l ∈ s.live, ∀ i, l.block.Holds i → (s.heap.grow need a).mem i = s.heap.mem i := by
  obtain ⟨enough,paged,some⟩ := growSize_spec need
  have aligned : 16 ∣ a := Nat.dvd_trans (by decide) multiple
  have atLeast := le_of_dvd some paged
  let b : Block := ⟨a,Heap.growSize need⟩
  have sound : Sound b := by
    refine ⟨aligned,Nat.dvd_trans (by decide) paged,Nat.le_trans (by decide) atLeast,?_,limit⟩
    exact Nat.lt_of_lt_of_le (by decide) base
  have outside (i : Nat) (covered : Covers s.pages i) : (s.heap.set a (Heap.growSize need)).mem i = s.heap.mem i := by
    refine Heap.set_bytes s.heap (Nat.le_refl b.addr) (Nat.add_le_add_left (Nat.le_trans (by decide) atLeast) a) ?_
    exact fun holds => not_covers fresh holds covered
  have away (x : Block) (isX : Sound x) (inside : ∀ i, x.Holds i → Covers s.pages i) : b.Apart x :=
    Block.apart_of_not_holds sound.pos isX.pos fun i holds inX => not_covers fresh holds (inside i inX)
  have before := (inv.elsewhere (h := s.heap.set a (Heap.growSize need)) rfl outside).morePages b
  have size : (s.heap.set a (Heap.growSize need)).size a = Heap.growSize need := by
    unfold userMmapLimit at limit
    rw [Heap.size,Heap.load_set _ (by omega) (by omega) (by omega),if_pos rfl]
  obtain ⟨ys,after,-,covers,bytes⟩ := before.release sound
    (fun x member => away x (inv.listed.sound x member) (inv.paged x (.inl member)))
    (fun l member => away l.block (inv.intact l member).sound
      (inv.paged l.block (.inr (.inl (mem_map_of_mem member))))) size
    fun i holds => (covers_cons ..).mpr (.inl holds)
  obtain ⟨y,member,large⟩ := after.listed.gapped.single sound.pos fun i holds => (covers i).mpr (.inr holds)
  refine ⟨ys,after,⟨y,member,Nat.le_trans enough large⟩,fun l also i holds => (bytes l also i holds).trans ?_⟩
  exact outside i (inv.paged l.block (.inr (.inl (mem_map_of_mem also))) i holds)

theorem Inv.hand {k m : Heap}
    (given : Heap.Given s.heap xs k n ys) (room : n.addr + heapHeader + size ≤ n.last)
    (list : m.freeList = k.freeList) (same : ∀ i, ¬ (n.addr + heapHeader ≤ i ∧ i < n.last) → m.mem i = k.mem i)
    (slack : ∀ i, n.addr + heapHeader + size ≤ i → i < n.last → m.mem i = 0) :
    Inv {s with heap := m, live := ⟨n,size⟩ :: s.live, freed := s.freed.filter (n.Apart ·)} ys ∧
      ∀ l ∈ s.live, n.Apart l.block ∧ ∀ i, l.block.Holds i → m.mem i = s.heap.mem i := by
  obtain ⟨listed,intact,apart,free,stale,gone,paged⟩ := inv
  have large := given.sound.large
  unfold minBlock at large
  unfold heapHeader at *
  have keeps (i : Nat) (outside : ¬ n.Holds i) : m.mem i = k.mem i := by
    refine same i fun inside => outside ⟨by omega,inside.2⟩
  have header (d : Nat) (small : d ≤ 8) : load m.mem (n.addr + d) = load k.mem (n.addr + d) :=
    load_congr fun i lower upper => same i (by omega)
  have inXs {i : Nat} (holds : n.Holds i) : Covers xs i := (given.covers i).mpr (.inr holds)
  have away (l : Live) (member : l ∈ s.live) : n.Apart l.block :=
    Block.apart_of_not_holds given.sound.pos (intact l member).sound.pos fun i holds inL =>
      not_covers (free l member) inL (inXs holds)
  have bytes (l : Live) (member : l ∈ s.live) (i : Nat) (holds : l.block.Holds i) : m.mem i = s.heap.mem i :=
    (keeps i ((away l member).symm.not_holds holds)).trans (given.bytes i (not_covers (free l member) holds))
  have left {b : Block} (member : b ∈ s.freed.filter (n.Apart ·)) : b ∈ s.freed ∧ n.Apart b := by simpa using member
  refine ⟨⟨given.listed.congr list fun i covered => keeps i fun holds => not_covers given.apart holds covered,
    ?_,pairwise_cons.mpr ⟨away,apart⟩,?_,?_,?_,?_⟩,fun l member => ⟨away l member,bytes l member⟩⟩
  · intro l member
    rcases mem_cons.mp member with rfl | earlier
    · exact ⟨given.sound,(header 0 (by decide)).trans given.size,(header 8 (by decide)).trans given.used,room,slack⟩
    · exact (intact l earlier).congr (bytes l earlier)
  · intro l member x inYs
    rcases mem_cons.mp member with rfl | earlier
    · exact given.apart x inYs
    · refine apart_of_covers (intact l earlier).sound (given.listed.sound x inYs) inYs fun i holds covered => ?_
      exact not_covers (free l earlier) holds ((given.covers i).mpr (.inl covered))
  · intro b member
    obtain ⟨old,clear⟩ := left member
    have isStale := stale b old
    have other : b.addr ≠ n.addr := fun same =>
      clear.not_holds ⟨Nat.le_refl _,by unfold Block.last; omega⟩ ⟨Nat.le_of_eq same,by
        have := isStale.sound.pos
        unfold Block.last
        omega⟩
    refine ⟨isStale.sound,?_⟩
    have kept : m.tag b.addr = k.tag b.addr := load_congr fun i lower upper =>
      keeps i (clear.symm.not_holds (isStale.sound.head (by decide) lower upper))
    rw [kept]
    exact (given.tags b.addr isStale.sound.aligned other).elim (fun old => old.trans isStale.free) id
  · intro l member b here
    obtain ⟨old,clear⟩ := left here
    rcases mem_cons.mp member with rfl | earlier
    · exact clear
    · exact gone l earlier b old
  · rintro x (inYs | inLive | inFreed) i holds
    · obtain ⟨y,also,inY⟩ := (given.covers i).mpr (.inl ⟨x,inYs,holds⟩)
      exact paged y (.inl also) i inY
    · rcases mem_cons.mp inLive with rfl | earlier
      · obtain ⟨y,also,inY⟩ := inXs holds
        exact paged y (.inl also) i inY
      · exact paged x (.inr (.inl earlier)) i holds
    · exact paged x (.inr (.inr (left inFreed).1)) i holds

theorem Inv.obtainBlock (small : size ≤ maxAllocation) (fresh : s.Fresh size pages) :
    (∃ status, s.heap.obtainBlock (Heap.needOf size) pages = some (s.heap,.error status)) ∨
    ∃ h zs k n ys, s.Served size pages h zs ∧ Heap.Given h zs k n ys ∧ Heap.needOf size ≤ n.size ∧
      s.heap.obtainBlock (Heap.needOf size) pages = some (k,.ok n.addr) := by
  obtain ⟨rounded,atLeast,-⟩ := needOf_spec size
  rcases Heap.take_spec inv.listed rounded atLeast with ⟨missing,-⟩ | ⟨k,n,ys,found,large,given⟩
  · have asks : s.heap.asks size := by simp [Heap.asks,small,missing]
    cases pages with
    | error status => exact .inl ⟨status,by simp [Heap.obtainBlock,missing]⟩
    | ok a =>
      obtain ⟨multiple,base,limit,clear⟩ := fresh a rfl asks
      obtain ⟨zs,after,⟨y,member,enough⟩,bytes⟩ := inv.grow multiple base limit clear
      rcases Heap.take_spec after.listed rounded atLeast with ⟨-,none⟩ | ⟨k,n,ys,found,large,given⟩
      · exact absurd enough (Nat.not_le_of_lt (none y member))
      refine .inr ⟨_,zs,k,n,ys,⟨?_,bytes⟩,given,large,?_⟩
      · simpa [grown,asks] using after
      · simp only at found
        simp [Heap.obtainBlock,missing,found]
  · have content : s.heap.asks size = false := by simp [Heap.asks,found]
    refine .inr ⟨s.heap,xs,k,n,ys,⟨?_,fun _ _ _ _ => rfl⟩,given,large,by simp [Heap.obtainBlock,found]⟩
    simpa [grown,content] using inv

theorem Inv.allocate (fresh : s.Fresh size pages) :
    (∃ status, s.heap.allocate size true pages = some (s.heap,.error status)) ∨
    ∃ h zs k n ys, s.Served size pages h zs ∧ Heap.Given h zs k n ys ∧ n.addr + heapHeader + size ≤ n.last ∧
      s.heap.allocate size true pages = some (cleared k n,.ok (n.addr + heapHeader)) := by
  by_cases small : size ≤ maxAllocation
  · have within : ¬ maxAllocation < size := Nat.not_lt.mpr small
    rcases inv.obtainBlock small fresh with ⟨status,failed⟩ | ⟨h,zs,k,n,ys,served,given,large,found⟩
    · exact .inl ⟨status,by simp [Heap.allocate,within,failed]⟩
    refine .inr ⟨h,zs,k,n,ys,served,given,?_,by simp [Heap.allocate,within,found,given.size,cleared]⟩
    have enough := (needOf_spec size).2.2
    unfold Block.last
    omega
  · exact .inl ⟨.outOfResources,by simp [Heap.allocate,Nat.not_le.mp small]⟩

theorem Inv.handCleared {k : Heap} (given : Heap.Given s.heap xs k n ys)
    (room : n.addr + heapHeader + size ≤ n.last) :
    Inv {s with heap := cleared k n, live := ⟨n,size⟩ :: s.live, freed := s.freed.filter (n.Apart ·)} ys ∧
      ∀ l ∈ s.live, n.Apart l.block ∧ ∀ i, l.block.Holds i → (cleared k n).mem i = s.heap.mem i := by
  have read := cleared_mem k given.sound
  exact inv.hand given room rfl (fun i outside => by rw [read,if_neg outside])
    fun i lower upper => by rw [read,if_pos ⟨Nat.le_trans (Nat.le_add_right ..) lower,upper⟩]

theorem Inv.refuses (member : b ∈ s.freed) : s.heap.tag b.addr ≠ tagUsed := by
  rw [(inv.stale b member).free]
  decide

theorem Inv.right : s.Right xs := by
  refine ⟨inv.listed,inv.apart,inv.free,fun l member => ?_,fun l member => (inv.intact l member).room,fun b member => ?_⟩
  · exact Nat.dvd_add (inv.intact l member).sound.aligned (by decide)
  · have other := inv.refuses member
    simp [Heap.free,other]

theorem Inv.step_allocate
    (fresh : s.Fresh size pages) : s.Well (.allocate size buffer pages) := by
  cases buffer with
  | false => exact ⟨s,.refused .invalidParameter,xs,by simp [step,Heap.allocate],inv,rfl⟩
  | true =>
    rcases inv.allocate fresh with ⟨status,failed⟩ | ⟨h,zs,k,n,ys,⟨before,bytes⟩,given,room,found⟩
    · exact ⟨s,.refused status,xs,by simp [step,failed],inv,rfl⟩
    have read := cleared_mem k given.sound
    obtain ⟨after,others⟩ := before.handCleared given room
    have header := (after.intact ⟨n,size⟩ (mem_cons_self ..)).size
    refine ⟨_,.buffer (n.addr + heapHeader),ys,by simp only [step,found,handOut_eq size header],after,⟨n,size⟩,
      mem_cons_self ..,rfl,rfl,fun i lower upper => ?_,fun l member => ⟨mem_cons_of_mem _ member,fun i holds => ?_⟩⟩
    · simp only [read,lower,upper,and_self,if_true]
    · exact ((others l member).2 i holds).trans (bytes l member i holds)

theorem Inv.step_free (honest : s.Honest p) : s.Well (.free p) := by
  have refuse (bad : p = 0 ∨ p % 16 ≠ 0 ∨ s.heap.tag (p - heapHeader) ≠ tagUsed) : s.Well (.free p) := by
    refine ⟨s,.refused .invalidParameter,xs,?_,inv,rfl⟩
    have failed : s.heap.free p = (s.heap,.error .invalidParameter) := by
      unfold Heap.free
      split
      · rfl
      · next fine => rw [if_pos (by tauto)]
    simp [step,failed]
  rcases honest with null | odd | ⟨l,member,rfl⟩ | ⟨b,member,rfl⟩ | other
  · exact refuse (.inl null)
  · exact refuse (.inr (.inl odd))
  · obtain ⟨⟨ys,after⟩,bytes⟩ := inv.takeBack member
    refine ⟨_,.nothing,ys,by simp only [step,(inv.intact l member).frees],after,fun k also other => ⟨?_,bytes k also other⟩⟩
    simpa [Program.takeBack] using ⟨also,other⟩
  · exact refuse (.inr (.inr (by simpa using inv.refuses member)))
  · exact refuse (.inr (.inr other))

theorem Inv.resize (member : l ∈ s.live)
    (list : h.freeList = s.heap.freeList) (fits : l.data + size ≤ l.block.last)
    (read : ∀ i, h.mem i = if l.data + size ≤ i ∧ i < l.block.last then 0 else s.heap.mem i) :
    Inv (s.resize h l.data size) xs := by
  have outside (i : Nat) (missed : ¬ l.block.Holds i) : h.mem i = s.heap.mem i := by
    rw [read,if_neg]
    intro inside
    exact missed ⟨Nat.le_trans (by unfold Live.data; omega) inside.1,inside.2⟩
  have new : Intact h ⟨l.block,size⟩ := by
    refine (inv.intact l member).rewritten (fun i _ upper => ?_) fits fun i lower upper => ?_
    · rw [read,if_neg (by omega)]
    · rw [read,if_pos ⟨lower,upper⟩]
  have blocks : (s.resize h l.data size).live.map Live.block = s.live.map Live.block := by
    simp only [Program.resize,map_map]
    refine map_congr_left fun k also => ?_
    simp only [Function.comp_apply]
    split <;> rfl
  have origin (k : Live) (also : k ∈ (s.resize h l.data size).live) : Intact h k ∧ ∃ j ∈ s.live, j.block = k.block := by
    obtain ⟨j,here,rfl⟩ := mem_map.mp also
    split
    · next same =>
      obtain rfl := inv.same_of_data here member same
      exact ⟨new,j,here,rfl⟩
    · next other =>
      have apart := (inv.distinct here member).resolve_left fun same => other (same ▸ rfl)
      exact ⟨(inv.intact j here).congr fun i holds => outside i (apart.not_holds holds),j,here,rfl⟩
  have pairs : (s.live.map Live.block).Pairwise Block.Apart := pairwise_map.mpr inv.apart
  rw [← blocks] at pairs
  refine ⟨inv.listed.congr list fun i covered => outside i fun holds => not_covers (inv.free l member) holds covered,
    fun k also => (origin k also).1,pairwise_map.mp pairs,fun k also x inXs => ?_,fun b here => ?_,
    fun k also b here => ?_,fun x which => ?_⟩
  · obtain ⟨-,j,here,same⟩ := origin k also
    exact same ▸ inv.free j here x inXs
  · exact (inv.stale b here).congr fun i holds => outside i ((inv.gone l member b here).symm.not_holds holds)
  · obtain ⟨-,j,there,same⟩ := origin k also
    exact same ▸ inv.gone j there b here
  · rw [blocks] at which
    exact inv.paged x which

theorem Inv.data_pos (member : l ∈ s.live) : l.data ≠ 0 := by
  have := (inv.intact l member).sound.placed
  unfold Live.data
  omega

end

section
variable (inv : s.Inv xs)
include inv

theorem Inv.reallocate_null (fresh : s.Fresh size pages) : s.Well (.reallocate 0 size true pages) := by
  have same : s.heap.reallocate 0 size true pages = s.heap.allocate size true pages := by simp [Heap.reallocate]
  rcases inv.allocate fresh with ⟨status,failed⟩ | ⟨h,zs,k,n,ys,⟨before,bytes⟩,given,room,found⟩
  · exact ⟨s,.refused status,xs,by simp [step,same,failed],inv,rfl⟩
  have read := cleared_mem k given.sound
  obtain ⟨after,others⟩ := before.handCleared given room
  have header := (after.intact ⟨n,size⟩ (mem_cons_self ..)).size
  have other : n.addr + heapHeader ≠ 0 := after.data_pos (mem_cons_self ..)
  refine ⟨_,.buffer (n.addr + heapHeader),ys,?_,after,⟨⟨n,size⟩,mem_cons_self ..,rfl,rfl⟩,fun _ i bound => ?_,
    fun l member null => absurd null (inv.data_pos member),
    fun l member _ => ⟨mem_cons_of_mem _ member,fun i holds => ?_⟩⟩
  · simp only [step,same,found,handOut_eq size header,if_neg other]
    rw [takeBack_nothing fun l member => after.data_pos member]
  · rw [read,if_pos (by omega)]
  · exact ((others l member).2 i holds).trans (bytes l member i holds)

theorem Inv.reallocate_eq (member : l ∈ s.live) : s.heap.reallocate l.data size true pages =
    if size ≤ l.block.size - heapHeader then
      some ({s.heap with mem := wipe s.heap.mem (l.data + size) (l.block.size - heapHeader - size)},.ok l.data)
    else match s.heap.allocate size true pages with
      | none => none
      | some (k,.error status) => some (k,.error status)
      | some (k,.ok bigger) =>
        some (({k with mem := copy k.mem bigger l.data (l.block.size - heapHeader)}.free l.data).1,.ok bigger) := by
  have intact := inv.intact l member
  rw [Heap.reallocate,if_neg (by decide),if_neg (inv.data_pos member),if_neg intact.even,l.base,
    if_neg (not_not_intro intact.used)]
  exact intact.size ▸ rfl

theorem Inv.reallocate_stay (member : l ∈ s.live) (fits : size ≤ l.block.size - heapHeader) :
    s.Well (.reallocate l.data size true pages) := by
  have intact := inv.intact l member
  have large := intact.sound.large
  unfold minBlock at large
  have stop : l.data + size + (l.block.size - heapHeader - size) = l.block.last := by
    unfold Live.data Block.last heapHeader at *
    omega
  have read (i : Nat) : wipe s.heap.mem (l.data + size) (l.block.size - heapHeader - size) i =
      if l.data + size ≤ i ∧ i < l.block.last then 0 else s.heap.mem i := by
    rw [wipe,stop]
  let wiped : Heap := {s.heap with mem := wipe s.heap.mem (l.data + size) (l.block.size - heapHeader - size)}
  have after : Inv (s.resize wiped l.data size) xs := inv.resize member rfl (by omega) read
  refine ⟨_,.buffer l.data,xs,by simp only [step,inv.reallocate_eq member,if_pos fits,if_pos,wiped],after,⟨⟨l.block,size⟩,?_,rfl,rfl⟩,
    fun null => absurd null (inv.data_pos member),fun k also same => ?_,fun k also other => ⟨?_,fun i holds => ?_⟩⟩
  · exact mem_map.mpr ⟨l,member,if_pos rfl⟩
  · obtain rfl := inv.same_of_data also member same
    refine ⟨fun i bound => ?_,fun i lower upper => ?_⟩
    · exact (read _).trans (if_neg (by omega))
    · refine (read _).trans ((if_neg (by omega)).trans (intact.slack _ (by omega) ?_))
      omega
  · exact mem_map.mpr ⟨k,also,if_neg other⟩
  · refine (read i).trans (if_neg fun inside => ?_)
    have apart := (inv.distinct also member).resolve_left fun same => other (same ▸ rfl)
    exact apart.not_holds holds ⟨Nat.le_trans (by unfold Live.data; omega) inside.1,inside.2⟩

theorem Inv.reallocate_move (member : l ∈ s.live)
    (fresh : s.Fresh size pages) (short : ¬ size ≤ l.block.size - heapHeader) : s.Well (.reallocate l.data size true pages) := by
  rcases inv.allocate fresh with ⟨status,failed⟩ | ⟨h,zs,k,n,ys,⟨before,bytes⟩,given,room,found⟩
  · exact ⟨s,.refused status,xs,by simp [step,inv.reallocate_eq member,short,failed],inv,rfl⟩
  have intact := inv.intact l member
  have large := intact.sound.large
  have big := given.sound.large
  unfold minBlock at large big
  let has := l.block.size - heapHeader
  have last : l.data + has = l.block.last := by
    simp only [has]
    unfold Live.data Block.last heapHeader
    omega
  -- the old block and the new one
  have away : n.Apart l.block := Block.apart_of_not_holds given.sound.pos intact.sound.pos fun i holds inL =>
    not_covers (before.free l member) inL ((given.covers i).mpr (.inr holds))
  have clear : n.addr + heapHeader + has ≤ l.data ∨ l.data + has ≤ n.addr + heapHeader := by
    unfold Block.Apart at away
    rw [last]
    unfold Live.data
    omega
  let m : Heap := {k with mem := copy (cleared k n).mem (n.addr + heapHeader) l.data has}
  have readClear := cleared_mem k given.sound
  have readCopy (i : Nat) := copy_apply (cleared k n).mem clear i
  obtain ⟨moved,others⟩ := before.hand (m := m) given room rfl
    (fun i outside => by
      simp only [m]
      rw [readCopy,if_neg (by omega),readClear,if_neg outside])
    (fun i lower upper => by
      simp only [m]
      rw [readCopy,if_neg (by omega),readClear,if_pos ⟨by omega,upper⟩])
  have inMoved : l ∈ (⟨n,size⟩ :: s.live : List Live) := mem_cons_of_mem _ member
  have different : n.addr + heapHeader ≠ l.data := by
    unfold Block.Apart Block.last at away
    unfold Live.data
    omega
  obtain ⟨⟨ws,after⟩,rest⟩ := moved.takeBack inMoved
  have answer : s.heap.reallocate l.data size true pages = some (m.release l.block.addr,.ok (n.addr + heapHeader)) := by
    have freed : m.free l.data = (m.release l.block.addr,.ok ()) := (moved.intact l inMoved).frees
    rw [inv.reallocate_eq member,if_neg short,found]
    exact congrArg (fun out => some (Prod.fst out,_)) freed
  have keptNew (i : Nat) (holds : n.Holds i) : (m.release l.block.addr).mem i = m.mem i :=
    rest ⟨n,size⟩ (mem_cons_self ..) different i holds
  have header : (m.release l.block.addr).size n.addr = n.size := by
    refine Eq.trans (load_congr fun i lower upper => keptNew i ?_) (moved.intact ⟨n,size⟩ (mem_cons_self ..)).size
    exact given.sound.head (zero_le _) lower upper
  have old (i : Nat) (bound : i < has) : m.mem (n.addr + heapHeader + i) = s.heap.mem (l.data + i) := by
    have holds : l.block.Holds (l.data + i) := ⟨by unfold Live.data; omega,by omega⟩
    have copied : m.mem (n.addr + heapHeader + i) = (cleared k n).mem (l.data + i) := by
      refine (readCopy _).trans ((if_pos (by omega)).trans ?_)
      rw [Nat.add_sub_cancel_left]
    have source : m.mem (l.data + i) = (cleared k n).mem (l.data + i) := (readCopy _).trans (if_neg (by omega))
    rw [copied,← source]
    exact ((others l member).2 _ holds).trans (bytes l member _ holds)
  refine ⟨_,.buffer (n.addr + heapHeader),ws,?_,after,⟨⟨n,size⟩,?_,rfl,rfl⟩,fun null => absurd null (inv.data_pos member),
    fun j also same => ?_,fun j also other => ⟨?_,fun i holds => ?_⟩⟩
  · simp only [step,answer,if_neg different,handOut_eq size header]
    rfl
  · exact mem_filter.mpr ⟨mem_cons_self ..,decide_eq_true different⟩
  · obtain rfl := inv.same_of_data also member same
    have inNew (i : Nat) (bound : i < size) : n.Holds (n.addr + heapHeader + i) := ⟨by omega,by omega⟩
    have shorter := intact.room
    refine ⟨fun i bound => ?_,fun i lower upper => ?_⟩
    · exact (keptNew _ (inNew i (by omega))).trans (old i (by omega))
    refine (keptNew _ (inNew i upper)).trans ?_
    by_cases inOld : i < has
    · exact (old i inOld).trans (intact.slack _ (by omega) (by omega))
    · refine (readCopy _).trans ((if_neg (by omega)).trans ((readClear _).trans (if_pos ⟨by omega,by omega⟩)))
  · exact mem_filter.mpr ⟨mem_cons_of_mem _ also,by simpa using other⟩
  · exact ((rest j (mem_cons_of_mem _ also) other i holds).trans ((others j also).2 i holds)).trans
      (bytes j also i holds)

theorem Inv.step_reallocate
    (honest : s.Honest p) (fresh : s.Fresh size pages) : s.Well (.reallocate p size newBuffer pages) := by
  cases newBuffer with
  | false => exact ⟨s,.refused .invalidParameter,xs,by simp [step,Heap.reallocate],inv,rfl⟩
  | true =>
    by_cases null : p = 0
    · subst null
      exact inv.reallocate_null fresh
    have refuse (bad : p % 16 ≠ 0 ∨ s.heap.tag (p - heapHeader) ≠ tagUsed) : s.Well (.reallocate p size true pages) := by
      refine ⟨s,.refused .invalidParameter,xs,?_,inv,rfl⟩
      have failed : s.heap.reallocate p size true pages = some (s.heap,.error .invalidParameter) := by
        rw [Heap.reallocate,if_neg (by decide),if_neg null]
        split
        · rfl
        · next fine => rw [if_pos (bad.resolve_left fine)]
      simp [step,failed]
    rcases honest with zero | odd | ⟨l,member,rfl⟩ | ⟨b,member,rfl⟩ | other
    · exact absurd zero null
    · exact refuse (.inl odd)
    · by_cases fits : size ≤ l.block.size - heapHeader
      · exact inv.reallocate_stay member fits
      · exact inv.reallocate_move member fresh fits
    · exact refuse (.inr (by simpa using inv.refuses member))
    · exact refuse (.inr other)

theorem Inv.step_write {byte : UInt8}
    (where_ : (∃ l ∈ s.live, l.data ≤ a ∧ a < l.data + l.asked) ∨ ¬ Covers s.pages a) : s.Well (.write a byte) := by
  refine ⟨_,.nothing,xs,rfl,?_,rfl⟩
  rcases where_ with ⟨l,member,lower,upper⟩ | outside
  · have intact := inv.intact l member
    have same (i : Nat) (missed : ¬ l.block.Holds i) : update s.heap.mem a byte i = s.heap.mem i := by
      refine update_of_ne (fun here => missed ?_) ..
      have := intact.room
      exact ⟨by unfold Live.data at lower; omega,by omega⟩
    have new : Intact {s.heap with mem := update s.heap.mem a byte} l := by
      refine intact.rewritten (fun i _ less => update_of_ne (by omega) ..) intact.room fun i less more => ?_
      exact (update_of_ne (by omega) ..).trans (intact.slack i less more)
    refine ⟨inv.listed.congr rfl fun i covered => same i fun holds => not_covers (inv.free l member) holds covered,
      fun k also => ?_,inv.apart,inv.free,
      fun b here => (inv.stale b here).congr fun i holds => same i ((inv.gone l member b here).symm.not_holds holds),
      inv.gone,inv.paged⟩
    rcases inv.distinct also member with rfl | apart
    · exact new
    · exact (inv.intact k also).congr fun i holds => same i (apart.not_holds holds)
  · refine inv.elsewhere rfl fun i covered => update_of_ne (fun here => outside ?_) ..
    exact here ▸ covered

theorem Inv.step {c : Call} (fair : s.Fair c) : s.Well c := by
  cases c with
  | allocate size buffer pages => exact inv.step_allocate fair
  | free p => exact inv.step_free fair
  | reallocate p size newBuffer pages => exact inv.step_reallocate fair.1 fair.2
  | write a byte => exact inv.step_write fair

end

theorem inv_initial (initial : Initial s) : s.Inv [] := by
  obtain ⟨list,live,freed,pages⟩ := initial
  refine ⟨⟨list,trivial,List.Pairwise.nil,by simp⟩,by simp [live],by simp [live],by simp,by simp [freed],
    by simp [live],by simp [live,freed]⟩

theorem reached_inv (reached : Reached s) : ∃ xs, s.Inv xs := by
  refine Reach.invariant (fun s => ∃ xs, s.Inv xs) (fun s initial => ⟨[],inv_initial initial⟩) ?_ s reached
  rintro s c t ⟨xs,inv⟩ fair ⟨reply,moved⟩
  obtain ⟨u,other,ys,done,after,-⟩ := inv.step fair
  obtain ⟨rfl,-⟩ := Prod.mk.inj (Option.some.inj (moved.symm.trans done))
  exact ⟨ys,after⟩

/-- In every state of every run the heap is in order, and every call that the program may make next is
answered and does to its bytes what it should. -/
theorem heap_lawful (reached : Reached s) : (∃ xs, s.Right xs) ∧
      ∀ c, s.Fair c → ∃ t reply, s.step c = some (t,reply) ∧ s.Lawful t c reply := by
  obtain ⟨xs,inv⟩ := reached_inv reached
  refine ⟨⟨xs,inv.right⟩,fun c fair => ?_⟩
  obtain ⟨t,reply,-,done,-,lawful⟩ := inv.step fair
  exact ⟨t,reply,done,lawful⟩

def after (s : Program) (c : Call) : Program := ((s.step c).map Prod.fst).getD s

theorem Reached.call (c : Call) (reached : Reached s) (fair : s.Fair c) (answered : (s.step c).isSome) :
    Reached (s.after c) := by
  obtain ⟨⟨t,reply⟩,done⟩ := Option.isSome_iff_exists.mp answered
  refine .next s _ c reached fair ⟨reply,?_⟩
  rw [after,done]
  rfl

def noHeap : Program := ⟨⟨fun _ => 0xAA,0⟩,[],[],[]⟩

def oneFreed : Program :=
  ((noHeap.after (.allocate 40 true (.ok userMmapBase))).after (.write (userMmapBase + 16) 7)).after
    (.free (userMmapBase + 16))

theorem heap_lawful_oneFreed : oneFreed.freed = [⟨userMmapBase,64⟩] ∧ (∃ xs, oneFreed.Right xs) ∧
    ∀ c, oneFreed.Fair c → ∃ t reply, oneFreed.step c = some (t,reply) ∧ oneFreed.Lawful t c reply := by
  have start : Reached noHeap := .start noHeap ⟨rfl,rfl,rfl,rfl⟩
  have first : Reached (noHeap.after (.allocate 40 true (.ok userMmapBase))) := by
    refine start.call _ (fun a same _ => ?_) (by decide +kernel)
    obtain rfl := Except.ok.inj same
    exact ⟨by decide,by decide,by decide,by simp [noHeap]⟩
  have second := first.call (.write (userMmapBase + 16) 7) (.inl (by decide +kernel)) rfl
  have third : Reached oneFreed :=
    second.call (.free (userMmapBase + 16)) (.inr (.inr (.inl (by decide +kernel)))) (by decide +kernel)
  exact ⟨by decide +kernel,heap_lawful third⟩

end Program

end SurfaceOS.Sdk
