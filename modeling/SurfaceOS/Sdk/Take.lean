import SurfaceOS.Sdk.Heap

/-! Blocks taken from the heap: the first that is large enough, cut to size where the rest can be a block
of its own. -/
namespace SurfaceOS.Sdk.Heap
open Lib Lib.Memory List Nat

variable {need : Nat} {high low rest : List Block} {x n : Block}
variable {h k : Heap} {xs : List Block}

def prevOf (front : List Block) : Nat := (front.getLast?.map Block.addr).getD 0

theorem takeFrom_spec {front rest : List Block} {need rounds : Nat}
    (threaded : Threaded (load h.mem) 16 0 (front ++ rest)) (sound : ∀ x ∈ front ++ rest, Sound x)
    (enough : rest.length < rounds) :
    (h.takeFrom need rounds (prevOf front) (headAddr 0 rest) = none ∧ ∀ x ∈ rest, x.size < need) ∨
    ∃ low x high, front ++ rest = low ++ x :: high ∧ need ≤ x.size ∧
      h.takeFrom need rounds (prevOf front) (headAddr 0 rest) = some (h.carve (prevOf low) x.addr need,x.addr) := by
  induction rest generalizing front rounds with
  | nil =>
    obtain ⟨rounds,rfl⟩ := exists_eq_add_one_of_ne_zero (Nat.ne_of_gt enough)
    exact .inl ⟨by simp [takeFrom,headAddr],by simp⟩
  | cons x rest ih =>
    obtain ⟨rounds,rfl⟩ := exists_eq_add_one_of_ne_zero (Nat.ne_of_gt (Nat.lt_of_le_of_lt (zero_le _) enough))
    have placed : x.addr ≠ 0 := Nat.ne_of_gt (sound x (by simp)).placed
    obtain ⟨size,link,-⟩ := (threaded_append.mp threaded).2
    have isSize : h.size x.addr = x.size := size
    have isNext : h.next x.addr = headAddr 0 rest := link
    have shape : front ++ x :: rest = front ++ [x] ++ rest := by simp
    have last : prevOf (front ++ [x]) = x.addr := by simp [prevOf]
    rw [takeFrom,headAddr,if_neg placed,isSize,isNext]
    by_cases small : x.size < need
    · rw [if_pos small,← last]
      rw [shape] at threaded sound ⊢
      rcases ih threaded sound (lt_of_succ_lt_succ enough) with ⟨missing,all⟩ | found
      · exact .inl ⟨missing,by simpa [small] using all⟩
      · exact .inr found
    · rw [if_neg small]
      exact .inr ⟨front,x,rest,rfl,Nat.not_lt.mp small,rfl⟩

structure Given (h : Heap) (xs : List Block) (k : Heap) (n : Block) (ys : List Block) : Prop where
  listed : Listed k ys
  sound : Sound n
  size : k.size n.addr = n.size
  used : k.tag n.addr = tagUsed
  tags : ∀ a, 16 ∣ a → a ≠ n.addr → k.tag a = h.tag a ∨ k.tag a = tagFree
  apart : ∀ y ∈ ys, n.Apart y
  covers : ∀ i, Covers xs i ↔ Covers ys i ∨ n.Holds i
  bytes : ∀ i, ¬ Covers xs i → k.mem i = h.mem i

theorem gapped_around (gapped : Gapped (low ++ x :: high)) :
    (∀ y ∈ low, y.last < x.addr) ∧ (∀ y ∈ high, x.last < y.addr) ∧ Gapped (low ++ high) := by
  obtain ⟨lower,upper,between⟩ := pairwise_append.mp gapped
  obtain ⟨least,higher⟩ := pairwise_cons.mp upper
  exact ⟨fun y member => between y member x (mem_cons_self ..),least,
    pairwise_append.mpr ⟨lower,higher,fun y first z second => between y first z (mem_cons_of_mem x second)⟩⟩

theorem unlink_given (head : k.freeList = headAddr n.addr low)
    (front : Threaded (load k.mem) 16 n.addr low) (behind : Threaded (load k.mem) 16 0 rest)
    (sound : ∀ y ∈ low ++ rest, Sound y) (gapped : Gapped (low ++ rest)) (isNew : Sound n)
    (size : k.size n.addr = n.size) (apart : ∀ y ∈ low ++ rest, n.Apart y)
    (tags : ∀ a, 16 ∣ a → k.tag a = h.tag a ∨ k.tag a = tagFree)
    (covers : ∀ i, Covers xs i ↔ Covers (low ++ rest) i ∨ n.Holds i) (bytes : ∀ i, ¬ Covers xs i → k.mem i = h.mem i) :
    Given h xs ((k.relink (prevOf low) (headAddr 0 rest)).set (n.addr + 8) tagUsed) n (low ++ rest) := by
  have aligned := isNew.aligned
  have large := isNew.large
  unfold minBlock at large
  obtain ⟨list,joined,keeps⟩ := relink_spec head front behind sound (gapped_apart gapped) (Covers low) fun _ holds => holds
  have tagOf (a : Nat) (also : 16 ∣ a) := tag_set_tag (k.relink (prevOf low) (headAddr 0 rest)) aligned also
    (show tagUsed < 2 ^ 64 by decide)
  refine ⟨Listed.tagged ⟨list,joined,gapped,sound⟩ aligned (by decide),isNew,?_,?_,fun a also other => ?_,apart,covers,
    fun i missed => ?_⟩
  · rw [Heap.size,load_set _ (by omega) (by omega) (by decide),if_neg (by omega),← size]
    refine load_congr fun i lower upper => keeps.bytes i fun held => ?_
    obtain ⟨y,member,holds⟩ := held
    exact (apart y (mem_append_left _ member)).not_holds ⟨lower,by unfold Block.last; omega⟩ holds
  · rw [tagOf n.addr aligned,if_pos rfl]
  · rw [tagOf a also,if_neg other]
    exact (keeps.tags a also).symm ▸ tags a also
  · have away := (not_congr (covers i)).mp missed
    rw [covers_append,not_or,not_or] at away
    rw [set_bytes _ (Nat.le_add_right ..) (by unfold Block.last; omega) away.2]
    exact (keeps.bytes i away.1.1).trans (bytes i missed)

theorem carve_whole (listed : Listed h (low ++ x :: high)) (tight : ¬ minBlock ≤ x.size - need) :
    Given h (low ++ x :: high) (h.carve (prevOf low) x.addr need) x (low ++ high) := by
  obtain ⟨front,size,link,back⟩ := threaded_append.mp listed.threaded
  have isSize : h.size x.addr = x.size := size
  have isNext : h.next x.addr = headAddr 0 high := link
  rw [carve,isSize,isNext,if_neg tight]
  obtain ⟨below,above,gapped⟩ := gapped_around listed.gapped
  refine unlink_given (by rw [listed.head,headAddr_append]; rfl) front back (fun y member => listed.sound y ?_) gapped
    (listed.sound x (by simp)) isSize (fun y member => ?_) (fun _ _ => .inl rfl) (fun i => ?_) fun _ _ => rfl
  · exact ((sublist_cons_self x high).append_left low).subset member
  · rcases mem_append.mp member with before | after
    · exact .inr (Nat.le_of_lt (below y before))
    · exact .inl (Nat.le_of_lt (above y after))
  · rw [covers_append,covers_append,covers_cons,or_assoc]
    exact or_congr_right or_comm

theorem split_spec (isX : Sound x) (size : h.size x.addr = x.size) (small : h.next x.addr < 2 ^ 64)
    (rounded : 16 ∣ need) (atLeast : minBlock ≤ need) (roomy : minBlock ≤ x.size - need) : let k := h.split x.addr need
    k.size x.addr = need ∧ k.size (x.addr + need) = x.size - need ∧ k.next (x.addr + need) = h.next x.addr ∧
      (∀ i, ¬ x.Holds i → k.mem i = h.mem i) ∧ ∀ a, 16 ∣ a → k.tag a = h.tag a ∨ k.tag a = tagFree := by
  obtain ⟨aligned,-,-,-,inside⟩ := isX
  unfold minBlock at atLeast roomy
  unfold Block.last userMmapLimit at inside
  simp only [split,size]
  have read (a : Nat) (word : 8 ∣ a) : load
      ((((h.set (x.addr + need) (x.size - need)).set (x.addr + need + 8) tagFree).set (x.addr + need + 16)
        (h.next x.addr)).set x.addr need).mem a =
      if a = x.addr then need else if a = x.addr + need + 16 then h.next x.addr else
      if a = x.addr + need + 8 then tagFree else if a = x.addr + need then x.size - need else load h.mem a := by
    rw [load_set _ (by omega) word (by omega),load_set _ (by omega) word small,
      load_set _ (by omega) word (by decide),load_set h (by omega) word (by omega)]
  refine ⟨?_,?_,?_,fun i missed => ?_,fun a also => ?_⟩
  · rw [Heap.size,read _ (by omega),if_pos rfl]
  · rw [Heap.size,read _ (by omega),if_neg (by omega),if_neg (by omega),if_neg (by omega),if_pos rfl]
  · rw [Heap.next,read _ (by omega),if_neg (by omega),if_pos rfl]
  · rw [set_bytes _ (Nat.le_refl _) (by unfold Block.last; omega) missed,
      set_bytes _ (by omega) (by unfold Block.last; omega) missed,
      set_bytes _ (by omega) (by unfold Block.last; omega) missed,
      set_bytes h (by omega) (by unfold Block.last; omega) missed]
  rw [tag_set _ _ aligned also,tag_set _ _ (by omega) also,tag_set_tag _ (by omega) also (by decide)]
  split
  · exact .inr rfl
  · exact .inl (tag_set h _ (by omega) also)

theorem carve_split (listed : Listed h (low ++ x :: high)) (rounded : 16 ∣ need) (atLeast : minBlock ≤ need)
    (roomy : minBlock ≤ x.size - need) :
    Given h (low ++ x :: high) (h.carve (prevOf low) x.addr need) ⟨x.addr,need⟩
      (low ++ ⟨x.addr + need,x.size - need⟩ :: high) := by
  have isX : Sound x := listed.sound x (by simp)
  obtain ⟨front,size,link,back⟩ := threaded_append.mp listed.threaded
  have isSize : h.size x.addr = x.size := size
  have isNext : h.next x.addr = headAddr 0 high := link
  obtain ⟨below,above,gapped⟩ := gapped_around listed.gapped
  have small : headAddr 0 high < 2 ^ 64 := headAddr_lt (fun y member => listed.sound y (by simp [member])) (by decide)
  obtain ⟨cut,restSize,restNext,outside,tags⟩ := split_spec isX isSize (isNext ▸ small) rounded atLeast roomy
  rw [isNext] at restNext
  rw [carve,isSize,if_pos roomy]
  have head : (h.split x.addr need).freeList = headAddr x.addr low := by
    change h.freeList = _
    rw [listed.head,headAddr_append]
    rfl
  generalize h.split x.addr need = k at *
  obtain ⟨aligned,multiple,-,placed,inside⟩ := isX
  have isRest : Sound ⟨x.addr + need,x.size - need⟩ := by
    refine ⟨Nat.dvd_add aligned rounded,Nat.dvd_sub multiple rounded,roomy,Nat.add_pos_left placed _,?_⟩
    unfold minBlock at roomy
    unfold Block.last at *
    simp only
    omega
  have isNew : Sound ⟨x.addr,need⟩ := by
    refine ⟨aligned,rounded,atLeast,placed,?_⟩
    unfold minBlock at roomy
    unfold Block.last at *
    simp only
    omega
  unfold minBlock at atLeast roomy
  have words (y : Block) (member : y ∈ low ++ high) :
      load k.mem y.addr = load h.mem y.addr ∧ load k.mem (y.addr + 16) = load h.mem (y.addr + 16) := by
    have large : 32 ≤ y.size := (listed.sound y (((sublist_cons_self x high).append_left low).subset member)).large
    have apart : y.last < x.addr ∨ x.last < y.addr := (mem_append.mp member).imp (below y) (above y)
    unfold Block.last at apart
    exact ⟨load_congr fun i lower upper => outside i (by unfold Block.Holds Block.last; omega),
      load_congr fun i lower upper => outside i (by unfold Block.Holds Block.last; omega)⟩
  have behind : Threaded (load k.mem) 16 0 (⟨x.addr + need,x.size - need⟩ :: high) :=
    ⟨restSize,restNext,back.congr fun y member => words y (mem_append_right _ member)⟩
  have gapRest : Gapped (low ++ ⟨x.addr + need,x.size - need⟩ :: high) := by
    obtain ⟨lower,higher,between⟩ := pairwise_append.mp gapped
    refine pairwise_append.mpr ⟨lower,pairwise_cons.mpr ⟨fun y member => ?_,higher⟩,fun y first z second => ?_⟩
    · have := above y member
      unfold Block.last at *
      simp only
      omega
    · rcases mem_cons.mp second with rfl | later
      · exact Nat.lt_of_lt_of_le (below y first) (Nat.le_add_right ..)
      · exact between y first z later
  have sound := sound_insert isRest listed.sound (subset_cons_self x high)
  have apart (y : Block) (member : y ∈ low ++ ⟨x.addr + need,x.size - need⟩ :: high) :
      (Block.mk x.addr need).Apart y := by
    rcases mem_append.mp member with before | after
    · exact .inr (Nat.le_of_lt (below y before))
    rcases mem_cons.mp after with rfl | later
    · exact .inl (Nat.le_refl _)
    have := above y later
    refine .inl ?_
    unfold Block.last at *
    simp only
    omega
  have before := front.congr fun y member => words y (mem_append_left _ member)
  have covers (i : Nat) : Covers (low ++ x :: high) i ↔
      Covers (low ++ ⟨x.addr + need,x.size - need⟩ :: high) i ∨ (Block.mk x.addr need).Holds i := by
    rw [covers_append,covers_append,covers_cons,covers_cons,or_assoc]
    have halves : x.Holds i ↔ (Block.mk (x.addr + need) (x.size - need)).Holds i ∨ (Block.mk x.addr need).Holds i := by
      unfold Block.Holds Block.last
      simp only
      omega
    rw [halves,or_assoc,or_assoc]
    exact or_congr_right (or_congr_right or_comm)
  have given := unlink_given (h := h) (n := ⟨x.addr,need⟩) head before behind sound gapRest isNew cut apart tags covers
    fun i missed => outside i fun holds => missed ⟨x,by simp,holds⟩
  exact given

theorem take_spec (listed : Listed h xs) (rounded : 16 ∣ need) (atLeast : minBlock ≤ need) :
    (h.take need = none ∧ ∀ x ∈ xs, x.size < need) ∨
    ∃ k n ys, h.take need = some (k,n.addr) ∧ need ≤ n.size ∧ Given h xs k n ys := by
  have walk := @takeFrom_spec h [] xs need heapRounds listed.threaded listed.sound (listed_length listed)
  rw [← listed.head] at walk
  rcases walk with missing | ⟨low,x,high,shape,enough,found⟩
  · exact .inl missing
  obtain rfl : xs = low ++ x :: high := shape
  by_cases roomy : minBlock ≤ x.size - need
  · exact .inr ⟨_,⟨x.addr,need⟩,_,found,Nat.le_refl _,carve_split listed rounded atLeast roomy⟩
  · exact .inr ⟨_,_,_,found,enough,carve_whole listed roomy⟩

end SurfaceOS.Sdk.Heap
