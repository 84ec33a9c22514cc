import SurfaceOS.Fat.Layout
import SurfaceOS.Fat.Vnodes
import SurfaceOS.Lib.Transition

/-! The names a listing shows, in directories that only creates, renames and removes change (dir.cpp,
vnode.cpp). `create` compares the name it is given, and shows the one it stored: the two agree for
names that survive the conversion, and then a listing has no two names alike. -/
namespace SurfaceOS.Fat
open Lib Lib.Memory Function List Option Nat

variable {c : UInt8} {k n i m perCluster : Nat} {e src d : Entry} {t s : Slot} {after grown slots : List Slot}
  {alias11 : List UInt8} {a b name : Name}

/-! Aliases have a tilde. -/

theorem mem_takeWhile {p : UInt8 → Bool} {front back : List UInt8} (all : ∀ d ∈ front, p d)
    (own : p c) : c ∈ (front ++ c :: back).takeWhile p := by
  rw [takeWhile_append_of_pos all,takeWhile_cons_of_pos own]
  exact mem_append_right _ (mem_cons_self ..)

theorem numbered_tilde (text : 0 ∉ alias11.take 8) (fits : (suffix n).length ≤ 7) :
    126 ∈ formatShort (numbered alias11 n) 0 := by
  generalize front : ((alias11.take 8).takeWhile (· ≠ 32)).take (8 - (suffix n).length) = kept
  have short : kept.length ≤ 8 - (suffix n).length := by
    rw [← front]
    exact length_take_le ..
  have plain : ∀ c ∈ kept, c ≠ 32 ∧ c ≠ 0 := by
    intro c member
    rw [← front] at member
    have inner := mem_of_mem_take member
    have other := mem_takeWhile_imp inner
    refine ⟨of_decide_eq_true other,fun zero => text ?_⟩
    exact zero ▸ (takeWhile_sublist _).subset inner
  have base : (numbered alias11 n).take 8 = pad 8 (kept ++ suffix n) := by
    rw [numbered,front]
    exact take_left' (pad_length (by rw [length_append]; omega))
  obtain ⟨back,split⟩ : ∃ back, ((numbered alias11 n).take 8).takeWhile (· ≠ 32) = kept ++ 126 :: back := by
    rw [base,pad,suffix,append_assoc,cons_append,
      takeWhile_append_of_pos fun c member => decide_eq_true (plain c member).1,
      takeWhile_cons_of_pos (by decide)]
    exact ⟨_,rfl⟩
  unfold formatShort
  rw [split]
  dsimp only
  rw [if_neg (by decide),List.map_id,List.append_assoc]
  exact mem_takeWhile (fun c member => decide_eq_true (plain c member).2) (by decide)

theorem makeShortName_text (text : 0 ∉ name) (long : (makeShortName name).needsLfn) :
    0 ∉ (makeShortName name).name11.take 8 := by
  unfold makeShortName at long ⊢
  dsimp only at long ⊢
  split at long
  · cases long
  rename_i other
  rw [if_neg other]
  have inside : ∀ c ∈ (splitName name).1, c ∈ name := by
    unfold splitName
    cases lastDot name with
    | none => exact fun c member => member
    | some d => exact fun c member => mem_of_mem_take member
  have front : 0 ∉ ((splitName name).1.map aliasChar).take 8 := by
    intro zero
    obtain ⟨c,member,same⟩ := mem_map.mp (mem_of_mem_take zero)
    exact aliasChar_zero (fun none => text (none ▸ inside c member)) same
  have small : (((splitName name).1.map aliasChar).take 8).length ≤ 8 := length_take_le ..
  generalize ((splitName name).1.map aliasChar).take 8 = start at front small
  obtain ⟨first,same,clean,fits⟩ : ∃ first, first = (if start.head? = some 0xE5 then 95 :: start.tail else start) ∧
      0 ∉ first ∧ first.length ≤ 8 := by
    refine ⟨_,rfl,?_,?_⟩
    · split
      · intro zero
        rcases mem_cons.mp zero with none | rest
        · cases none
        · exact front (mem_of_mem_tail rest)
      · exact front
    split
    · next marked =>
      rw [length_cons,length_tail]
      omega
    · exact small
  rw [← same,take_left' (pad_length fits)]
  intro zero
  rcases mem_append.mp zero with inner | space
  · exact clean inner
  · cases eq_of_mem_replicate space

/-! What an entry is called. -/

def Entry.Marks (e : Entry) : Prop :=
  126 ∉ e.name ∧ (e.lfn.isSome → 126 ∈ formatShort e.slot.name11 e.slot.ntFlags)

/-- The names in a directory: none twice, aliases apart from display names, and nothing behind the end mark. -/
structure Tidy (slots : List Slot) : Prop where
  ended : Ended slots
  closed : Closed slots
  marks : ∀ i s, Shown slots i s → (entryAt slots i s).Marks
  distinct : ∀ i j s t, Shown slots i s → Shown slots j t → i ≠ j →
    eqNocase (entryAt slots i s).name (entryAt slots j t).name = false

theorem eqNocase_comm (a b : Name) : eqNocase a b = eqNocase b a := by
  unfold eqNocase
  rw [Bool.eq_iff_iff,beq_iff_eq,beq_iff_eq]
  exact eq_comm

theorem upper_tilde : upper c = 126 ↔ c = 126 := by
  unfold upper
  split <;> grind

theorem eqNocase_tilde (same : eqNocase a b) (tilde : 126 ∈ a) : 126 ∈ b := by
  have mapped : upper 126 ∈ a.map upper := mem_map_of_mem tilde
  rw [eq_of_beq same] at mapped
  obtain ⟨c,member,image⟩ := mem_map.mp mapped
  have own : upper 126 = 126 := by decide
  exact upper_tilde.mp (image.trans own) ▸ member

/-- No name of another record is that of `e`, and neither is its alias. -/
def Alone (slots : List Slot) : Prop :=
  ∀ e ∈ scanDir slots, ∀ d ∈ scanDir slots, e.index ≠ d.index → eqNocase e.name d.name = false ∧
    eqNocase (formatShort e.slot.name11 e.slot.ntFlags) d.name = false

theorem Tidy.alone (tidy : Tidy slots) : Alone slots := by
  intro e first d second other
  obtain ⟨i,s,shown,rfl⟩ := mem_scanDir.mp first
  obtain ⟨j,t,there,rfl⟩ := mem_scanDir.mp second
  have names := tidy.distinct i j s t shown there other
  refine ⟨names,?_⟩
  cases long : (entryAt slots i s).lfn with
  | none =>
    have short : (entryAt slots i s).name = formatShort s.name11 s.ntFlags := by
      unfold Entry.name
      rw [long]
      rfl
    exact short ▸ names
  | some sc =>
    have tilde := (tidy.marks i s shown).2 (by rw [long]; rfl)
    exact Bool.eq_false_iff.mpr fun same => (tidy.marks j t there).1 (eqNocase_tilde same tilde)

theorem Alone.finds (alone : Alone slots) (member : e ∈ scanDir slots) :
    find slots e.name = some e := by
  cases found : find slots e.name with
  | none =>
    have silent := find?_eq_none.mp found e member
    rw [Entry.answers,eqNocase_refl] at silent
    exact absurd rfl silent
  | some d =>
    have inside := mem_of_find?_eq_some found
    have search : (scanDir slots).find? (·.answers e.name) = some d := found
    have answers := find?_some search
    by_contra other
    have apart : d.index ≠ e.index := fun same => other (congrArg some (scanDir_unique inside member same))
    obtain ⟨names,aliases⟩ := alone d inside e member apart
    rw [Entry.answers,names,aliases,Bool.and_false] at answers
    cases answers

/-! Steps that keep the names apart. -/

def Lists (slots after : List Slot) : Prop :=
  ∀ k t, Shown after k t → ∃ s, Shown slots k s ∧ (entryAt after k t).name = (entryAt slots k s).name ∧
    ((entryAt slots k s).Marks → (entryAt after k t).Marks)

theorem Tidy.lists (tidy : Tidy slots) (lists : Lists slots after) (ended : Ended after)
    (closed : Closed after) : Tidy after := by
  refine ⟨ended,closed,fun i s shown => ?_,fun i j s t first second other => ?_⟩
  · obtain ⟨u,before,_,marks⟩ := lists i s shown
    exact marks (tidy.marks i u before)
  obtain ⟨u,before,named,_⟩ := lists i s first
  obtain ⟨v,old,called,_⟩ := lists j t second
  rw [named,called]
  exact tidy.distinct i j u v before old other

theorem Entry.Alike.marks (alike : e.Alike d) : e.Marks → d.Marks := by
  unfold Entry.Marks
  rw [alike.name,alike.long,alike.slot]
  exact id

section
variable {slots after : List Slot} {i start : Nat} {s : Slot} (removed : Removed slots i s start after)
  (shown : Shown slots i s)
include removed shown

theorem Removed.lists : Lists slots after := by
  intro k t now
  obtain ⟨other,before⟩ := (removed.shown_iff shown).mp now
  have alike := (removed.keeps shown.record before other).2
  exact ⟨t,before,alike.name.symm,alike.marks⟩

theorem Removed.tidy (tidy : Tidy slots) : Tidy after :=
  tidy.lists (removed.lists shown) (removed.trailing shown.opened tidy.ended)
    (removed.closed shown.record tidy.closed)

end

theorem Padded.tidy (padded : Padded slots grown) (tidy : Tidy slots) : Tidy grown := by
  refine tidy.lists (fun k t shown => ?_) (padded.trailing (by decide) tidy.ended) (padded.closed tidy.closed)
  have before := padded.shown_iff.mp shown
  have same := padded.entryAt (List.getElem?_eq_some_iff.mp before.here).1 t
  exact ⟨t,before,by rw [same],by rw [same]; exact id⟩

theorem remove_shown (shown : Shown slots i s) :
    ∃ start, Removed slots i s start (remove slots i).2 := by
  have taken := not_free_of_record shown.record (shown.opened i (le_refl i) s shown.here)
  have ran : remove slots i = (.ok (),(remove slots i).2) := by
    unfold remove
    rw [shown.here]
    dsimp only
    rw [taken,if_neg Bool.false_ne_true]
  obtain ⟨t,start,removed⟩ := remove_removed ran
  obtain rfl : s = t := some.inj (shown.here.symm.trans removed.here)
  exact ⟨start,removed⟩

section
variable {dir after : Dir} {name : Name} {new : Fresh} {slot count start more : Nat} {name11 : List UInt8}
  {grown : List Slot}

theorem Created.marks (made : Created dir name new slot after name11 count start more grown)
    (closed : Closed dir.slots) (ended : Ended dir.slots) (here : after.slots[slot]? = some t)
    (long : (entryAt after.slots slot t).lfn.isSome) : 126 ∈ formatShort t.name11 t.ntFlags := by
  obtain rfl := some.inj (made.shortSlot_at.symm.trans here)
  by_cases needs : (makeShortName name).needsLfn = true
  · obtain ⟨n,rfl,fits,_⟩ := made.numbered needs
    rw [shortSlot_name11 made.shape.1,shortSlot_ntFlags made.shape.1,if_pos needs]
    exact numbered_tilde (makeShortName_text made.text needs) fits
  -- without long-name slots of its own it has none
  · have none : count = 0 := by
      rw [made.slots,if_neg needs]
    have index := made.index
    rw [none] at index
    subst index
    rw [entryAt_lfn,made.context,made.idle closed ended] at long
    cases long

theorem Created.tidy (ran : create perCluster dir name new = (.ok slot,after))
    (faithful : Faithful name) (plain : 126 ∉ name) (tidy : Tidy dir.slots) : Tidy after.slots := by
  obtain ⟨name11,count,start,more,grown,made⟩ := create_created ran
  have free : ∀ s : Slot, s.isFree → s.isFree := fun _ free => free
  obtain ⟨_,listed⟩ := (create_reported_iff ran).mpr (made.storable tidy.closed tidy.ended faithful)
  obtain ⟨e,member,place,called⟩ := mem_listing.mp listed
  have own : ∀ t, Shown after.slots slot t → (entryAt after.slots slot t).name = name := by
    intro t shown
    rw [scanDir_unique (mem_scanDir.mpr ⟨slot,t,shown,rfl⟩) member place.symm]
    exact called
  have others : ∀ k t, Shown after.slots k t → k ≠ slot → Shown dir.slots k t ∧
      (entryAt dir.slots k t).Alike (entryAt after.slots k t) := by
    intro k t shown other
    have before := (made.shown free (by decide) tidy.ended shown).resolve_left other
    exact ⟨before,(made.keeps before).2⟩
  have fresh : ∀ k t, Shown after.slots k t → k ≠ slot → eqNocase (entryAt after.slots k t).name name = false := by
    intro k t shown other
    obtain ⟨before,alike⟩ := others k t shown other
    have silent := find?_eq_none.mp made.fresh _ (mem_scanDir.mpr ⟨k,t,before,rfl⟩)
    rw [Entry.answers,Bool.or_eq_true,not_or] at silent
    rw [← alike.name]
    exact Bool.eq_false_iff.mpr silent.1
  refine ⟨made.trailing free (by decide) tidy.ended,made.closed tidy.closed,fun k t shown => ?_,
    fun i j s t first second other => ?_⟩
  · by_cases new : k = slot
    · subst new
      exact ⟨by rw [own t shown]; exact plain,made.marks tidy.closed tidy.ended shown.here⟩
    · obtain ⟨before,alike⟩ := others k t shown new
      exact alike.marks (tidy.marks k t before)
  by_cases new : i = slot
  · subst new
    rw [own s first,eqNocase_comm]
    exact fresh j t second other.symm
  by_cases last : j = slot
  · subst last
    rw [own t second]
    exact fresh i s first new
  obtain ⟨before,alike⟩ := others i s first new
  obtain ⟨old,same⟩ := others j t second last
  rw [← alike.name,← same.name]
  exact tidy.distinct i j s t before old other

end

theorem create_tidy {dir : Dir} {new : Fresh} (faithful : Faithful name)
    (plain : 126 ∉ name) (tidy : Tidy dir.slots) : Tidy (create perCluster dir name new).2.slots := by
  rcases ran : create perCluster dir name new with ⟨e | slot,after⟩
  · exact (create_failed ran).tidy tidy
  · exact Created.tidy ran faithful plain tidy

structure Touched (slots : List Slot) (i : Nat) (s : Slot) (f : Slot → Slot) : Prop where
  shown : Shown slots i s
  same : ∀ k < 13, f s k = s k

section
variable {slots : List Slot} {i : Nat} {s : Slot} {f : Slot → Slot}

theorem Touched.here (touched : Touched slots i s f) : (slots.modify i f)[i]? = some (f s) := by
  rw [getElem?_modify,touched.shown.here]
  simp

theorem modify_other (other : k ≠ i) : (slots.modify i f)[k]? = slots[k]? := by
  rw [getElem?_modify]
  cases slots[k]? with
  | none => rfl
  | some u => simp [Ne.symm other]

section
variable (touched : Touched slots i s f)
include touched

theorem Touched.name11 : (f s).name11 = s.name11 := by
  refine slice_congr _ _ 0 11 fun k small => touched.same (0 + k) (by omega)

theorem Touched.marks : (f s).isRecord = s.isRecord ∧ (f s).isEnd = s.isEnd ∧
    (f s).isFree = s.isFree ∧ (f s).isLfn = s.isLfn := by
  have first := touched.same 0 (by decide)
  have attr : (f s).attr = s.attr := touched.same 11 (by decide)
  unfold Slot.isRecord Slot.isEnd Slot.isFree Slot.isLfn Slot.isVolumeId
  rw [first,attr]
  exact ⟨rfl,rfl,rfl,rfl⟩

theorem Touched.old (here : (slots.modify i f)[k]? = some t) :
    ∃ u, slots[k]? = some u ∧ (k = i ∧ u = s ∧ t = f s ∨ k ≠ i ∧ u = t) := by
  by_cases own : k = i
  · subst own
    exact ⟨s,touched.shown.here,.inl ⟨rfl,rfl,some.inj (here.symm.trans touched.here)⟩⟩
  · rw [modify_other own] at here
    exact ⟨t,here,.inr ⟨own,rfl⟩⟩

theorem Touched.isEnd (here : (slots.modify i f)[k]? = some t) :
    ∃ u, slots[k]? = some u ∧ t.isEnd = u.isEnd ∧ t.isFree = u.isFree := by
  obtain ⟨_,ended,free,_⟩ := touched.marks
  obtain ⟨u,there,⟨_,rfl,rfl⟩ | ⟨_,rfl⟩⟩ := touched.old here
  · exact ⟨u,there,ended,free⟩
  · exact ⟨u,there,rfl,rfl⟩

theorem Touched.opens : Open (slots.modify i f) k ↔ Open slots k := by
  constructor
  · intro opened j low u found
    by_cases own : j = i
    · subst own
      obtain rfl := some.inj (touched.shown.here.symm.trans found)
      exact touched.marks.2.1 ▸ opened j low _ touched.here
    · exact opened j low u (by rw [modify_other own]; exact found)
  · intro opened j low t found
    obtain ⟨u,there,ended,_⟩ := touched.isEnd found
    exact ended.trans (opened j low u there)

theorem Touched.context (k : Nat) : (contextAt slots k).Alike (contextAt (slots.modify i f) k) := by
  have short := (Slot.isRecord_iff.mp touched.shown.record).2.1
  rcases lt_or_ge i k with behind | before
  · refine contextAt_behind behind touched.shown.here touched.here (.inr short)
      (.inr (touched.marks.2.2.2.trans short)) fun j low _ => ?_
    rw [modify_other (by omega)]
  have same : contextAt slots k = contextAt (slots.modify i f) k := contextAt_congr fun j low => by
    rw [modify_other (by omega)]
  rw [← same]
  exact contextAt_alike slots k

theorem Touched.keeps (shown : Shown slots k t) (other : k ≠ i) : Shown (slots.modify i f) k t :=
  ⟨by rw [modify_other other]; exact shown.here,shown.record,touched.opens.mpr shown.opened⟩

theorem Touched.lists : Lists slots (slots.modify i f) := by
  intro k t shown
  have opened := touched.opens.mp shown.opened
  have context := touched.context k
  obtain ⟨u,there,⟨rfl,rfl,rfl⟩ | ⟨other,rfl⟩⟩ := touched.old shown.here
  · refine ⟨u,⟨there,touched.marks.1.symm.trans shown.record,opened⟩,?_⟩
    have alike := entryAt_alike u context
    -- the entry shows the new slot under the old name
    have named : (entryAt (slots.modify k f) k (f u)).name = (entryAt (slots.modify k f) k u).name ∧
        (entryAt (slots.modify k f) k (f u)).lfn = (entryAt (slots.modify k f) k u).lfn := by
      unfold entryAt Entry.name
      have flags : (f u).ntFlags = u.ntFlags := touched.same 12 (by decide)
      rw [touched.name11,flags]
      exact ⟨rfl,rfl⟩
    refine ⟨named.1.trans alike.name.symm,fun marks => ?_⟩
    have kept := alike.marks marks
    have flags : (f u).ntFlags = u.ntFlags := touched.same 12 (by decide)
    unfold Entry.Marks at ⊢
    rw [named.1,named.2]
    refine ⟨kept.1,fun long => ?_⟩
    have tilde : 126 ∈ formatShort u.name11 u.ntFlags := kept.2 long
    rw [← touched.name11,← flags] at tilde
    exact tilde
  · refine ⟨u,⟨there,shown.record,opened⟩,?_⟩
    have alike := entryAt_alike u context
    exact ⟨alike.name.symm,alike.marks⟩

theorem Touched.tidy (tidy : Tidy slots) : Tidy (slots.modify i f) := by
  have short := (Slot.isRecord_iff.mp touched.shown.record).2.1
  obtain ⟨_,_,free,long⟩ := touched.marks
  refine tidy.lists touched.lists (fun a b t u behind here ended there => ?_) fun k t here taken continues => ?_
  · obtain ⟨t',before,mark,_⟩ := touched.isEnd here
    obtain ⟨u',old,_,same⟩ := touched.isEnd there
    exact same.trans (tidy.ended a b t' u' behind before (mark.symm.trans ended) old)
  obtain ⟨u,there,⟨rfl,rfl,rfl⟩ | ⟨other,rfl⟩⟩ := touched.old here
  · rw [long,short] at continues
    cases continues
  obtain ⟨v,next,used,same⟩ := tidy.closed k u there taken continues
  by_cases own : k + 1 = i
  · subst own
    obtain rfl := some.inj (touched.shown.here.symm.trans next)
    refine ⟨_,touched.here,free.trans used,?_⟩
    rw [← same]
    unfold Slot.sum
    rw [long,short,if_neg Bool.false_ne_true,if_neg Bool.false_ne_true,touched.name11]
  · exact ⟨v,by rw [modify_other own]; exact next,used,same⟩

end

end

/-! Creates, removes and renames in the directories of a volume. -/

/-- A call of `fat_rename`. What it asks about other clusters is left open: whether the new parent lies
in a moved directory, whether a directory to be replaced has entries, and how many clusters are free. -/
structure Rename where
  oldDir : Nat
  oldName : Name
  newDir : Nat
  newName : Name
  noReplace : Bool
  inside : Bool
  filled : Bool
  room : Nat
  date : Nat
  time : Nat

abbrev Dirs := Nat → List Slot

def Rename.clear (r : Rename) (dirs : Dirs) (src : Entry) : Except Errno Unit × Dirs :=
  match find (dirs r.newDir) r.newName with
  | none => (.ok (),dirs)
  | some dst =>
    let isDir := dst.slot.isDirectory
    if r.noReplace then (.error .eexist,dirs)
    else if isDir ≠ src.slot.isDirectory then (.error (if isDir then .eisdir else .enotdir),dirs)
    else if isDir && r.filled then (.error .enotempty,dirs)
    else
      let removed := remove (dirs r.newDir) dst.index
      (removed.1,update dirs r.newDir removed.2)

def Rename.put (perCluster : Nat) (r : Rename) (dirs : Dirs) (src : Entry) : Except Errno Unit × Dirs :=
  match create perCluster ⟨dirs r.newDir,r.room⟩ r.newName
      ⟨src.slot.isDirectory,src.slot.cluster,r.date,r.time⟩ with
  | (.error e,made) => (.error e,update dirs r.newDir made.slots)
  | (.ok index,made) =>
    let slots := if !src.slot.isDirectory && src.slot.fileSize ≠ 0 then
      made.slots.modify index (Mounted.carry src.slot) else made.slots
    let dirs := update dirs r.newDir slots
    let removed := remove (dirs r.oldDir) src.index
    (removed.1,update dirs r.oldDir removed.2)

def Rename.run (perCluster : Nat) (r : Rename) (dirs : Dirs) : Except Errno Unit × Dirs :=
  if Mounted.isDots r.oldName || Mounted.isDots r.newName then (.error .einval,dirs)
  else match find (dirs r.oldDir) r.oldName with
    | none => (.error .enoent,dirs)
    | some src =>
      if src.slot.isDirectory && r.inside then (.error .einval,dirs)
      else match r.clear dirs src with
        | (.error e,dirs) => (.error e,dirs)
        | (.ok _,dirs) => r.put perCluster dirs src

inductive NameCall
  | create (dir room : Nat) (name : Name) (new : Fresh)
  | remove (dir : Nat) (name : Name)
  | rename (r : Rename)

def NameCall.run (perCluster : Nat) (dirs : Dirs) : NameCall → Dirs
  | .create dir room name new =>
    update dirs dir (Fat.create perCluster ⟨dirs dir,room⟩ name new).2.slots
  | .remove dir name => update dirs dir (removeName (dirs dir) name)
  | .rename r => (r.run perCluster dirs).2

/-- The new name is one that is shown as given, without a tilde, and a rename is not onto the record
that it moves. -/
def NameCall.Plain (dirs : Dirs) : NameCall → Prop
  | .create _ _ name _ => Faithful name ∧ 126 ∉ name
  | .remove _ _ => True
  | .rename r => (Faithful r.newName ∧ 126 ∉ r.newName) ∧ (r.oldDir = r.newDir →
    ∀ src dst, find (dirs r.oldDir) r.oldName = some src → find (dirs r.newDir) r.newName = some dst →
      src.index ≠ dst.index)

section
variable {perCluster : Nat} {dir after : Dir} {name : Name} {new : Fresh} {slot : Nat} {dirs : Dirs}

section
variable (ran : create perCluster dir name new = (.ok slot,after))
include ran

theorem create_shown (faithful : Faithful name) (tidy : Tidy dir.slots) : ∃ t, Shown after.slots slot t := by
  obtain ⟨name11,count,start,more,grown,made⟩ := create_created ran
  obtain ⟨_,listed⟩ := (create_reported_iff ran).mpr (made.storable tidy.closed tidy.ended faithful)
  obtain ⟨e,member,place,_⟩ := mem_listing.mp listed
  obtain ⟨i,t,shown,rfl⟩ := mem_scanDir.mp member
  obtain rfl : i = slot := place
  exact ⟨t,shown⟩

theorem create_keeps (shown : Shown dir.slots k s) : Shown after.slots k s ∧ k ≠ slot := by
  obtain ⟨name11,count,start,more,grown,made⟩ := create_created ran
  refine ⟨(made.keeps shown).1,?_⟩
  rintro rfl
  have taken := not_free_of_record shown.record (shown.opened k (le_refl k) s shown.here)
  have index := made.index
  exact made.outside (made.grown_getElem? shown.here) taken ⟨by omega,le_refl k⟩

end

theorem tidy_update (tidy : ∀ d, Tidy (dirs d)) (own : Tidy slots) (d : Nat) :
    Tidy (update dirs n slots d) := by
  by_cases same : d = n
  · subst same
    rw [update_self]
    exact own
  · rw [update_of_ne same]
    exact tidy d

theorem shown_update (shown : Shown (dirs m) k s)
    (own : m = n → Shown slots k s) : Shown (update dirs n slots m) k s := by
  by_cases same : m = n
  · subst same
    rw [update_self]
    exact own rfl
  · rw [update_of_ne same]
    exact shown

variable {r : Rename} {i : Nat} {s : Slot}

theorem Rename.clear_tidy (tidy : ∀ d, Tidy (dirs d)) {src : Entry} (shown : Shown (dirs r.oldDir) i s)
    (other : r.oldDir = r.newDir → ∀ dst, find (dirs r.newDir) r.newName = some dst → i ≠ dst.index) :
    (∀ d, Tidy ((r.clear dirs src).2 d)) ∧ Shown ((r.clear dirs src).2 r.oldDir) i s := by
  unfold Rename.clear
  cases found : find (dirs r.newDir) r.newName with
  | none => exact ⟨tidy,shown⟩
  | some dst =>
    dsimp only
    split
    · exact ⟨tidy,shown⟩
    split
    · exact ⟨tidy,shown⟩
    split
    · exact ⟨tidy,shown⟩
    obtain ⟨k,t,there,rfl⟩ := mem_scanDir.mp (mem_of_find?_eq_some found)
    obtain ⟨start,removed⟩ := remove_shown there
    refine ⟨tidy_update tidy (removed.tidy there (tidy r.newDir)),shown_update shown fun same => ?_⟩
    rw [same] at shown
    exact (removed.shown_iff there).mpr ⟨other same _ found,shown⟩

theorem carry_same (src s : Slot) (k : Nat) (low : k < 13) : Mounted.carry src s k = s k := by
  unfold Mounted.carry
  rw [patch_before _ _ _ _ low,patch_before _ _ _ _ (by omega)]

section
variable (tidy : ∀ d, Tidy (dirs d))
include tidy

theorem Rename.put_tidy (faithful : Faithful r.newName) (plain : 126 ∉ r.newName)
    (shown : Shown (dirs r.oldDir) src.index s) (d : Nat) : Tidy ((r.put perCluster dirs src).2 d) := by
  unfold Rename.put
  generalize (⟨src.slot.isDirectory,src.slot.cluster,r.date,r.time⟩ : Fresh) = new
  rcases ran : create perCluster ⟨dirs r.newDir,r.room⟩ r.newName new with ⟨e | index,made⟩
  · exact tidy_update tidy ((create_failed ran).tidy (tidy r.newDir)) d
  dsimp only
  have recorded : Tidy made.slots := Created.tidy ran faithful plain (tidy r.newDir)
  obtain ⟨t,there⟩ := create_shown ran faithful (tidy r.newDir)
  have touched : Touched made.slots index t (Mounted.carry src.slot) := ⟨there,carry_same src.slot t⟩
  obtain ⟨slots,same,neat,kept⟩ : ∃ slots, slots = (if (!src.slot.isDirectory && src.slot.fileSize ≠ 0) = true then
      made.slots.modify index (Mounted.carry src.slot) else made.slots) ∧ Tidy slots ∧
      (r.oldDir = r.newDir → Shown slots src.index s) := by
    have both : r.oldDir = r.newDir → Shown made.slots src.index s ∧ src.index ≠ index := fun same =>
      create_keeps ran (same ▸ shown)
    refine ⟨_,rfl,?_,fun same => ?_⟩
    · split
      · exact touched.tidy recorded
      · exact recorded
    · split
      · exact touched.keeps (both same).1 (both same).2
      · exact (both same).1
  rw [← same]
  have now : Shown (update dirs r.newDir slots r.oldDir) src.index s := shown_update shown kept
  have all : ∀ d, Tidy (update dirs r.newDir slots d) := tidy_update tidy neat
  obtain ⟨start,removed⟩ := remove_shown now
  exact tidy_update all (removed.tidy now (all r.oldDir)) d

theorem Rename.run_tidy (plain : (NameCall.rename r).Plain dirs) (d : Nat) :
    Tidy ((r.run perCluster dirs).2 d) := by
  obtain ⟨⟨faithful,untilded⟩,other⟩ := plain
  unfold Rename.run
  split
  · exact tidy d
  cases found : find (dirs r.oldDir) r.oldName with
  | none => exact tidy d
  | some src =>
    dsimp only
    split
    · exact tidy d
    obtain ⟨i,s,shown,rfl⟩ := mem_scanDir.mp (mem_of_find?_eq_some found)
    have clears := @Rename.clear_tidy dirs r i s tidy (entryAt (dirs r.oldDir) i s) shown
      fun same dst aimed => other same _ dst found aimed
    rcases ran : r.clear dirs (entryAt (dirs r.oldDir) i s) with ⟨e | _,now⟩ <;> rw [ran] at clears
    · exact clears.1 d
    · exact Rename.put_tidy clears.1 faithful untilded clears.2 d

theorem NameCall.run_tidy {call : NameCall} (plain : call.Plain dirs) (d : Nat) :
    Tidy (call.run perCluster dirs d) := by
  cases call with
  | create n room name new => exact tidy_update tidy (create_tidy plain.1 plain.2 (tidy n)) d
  | remove n name =>
    refine tidy_update tidy ?_ d
    rcases removeName_cases (dirs n) name with same | ⟨e,s,start,_,shown,removed⟩
    · rw [same]
      exact tidy n
    · exact removed.tidy shown (tidy n)
  | rename r => exact Rename.run_tidy tidy plain d

end

end

def Blank (slots : List Slot) : Prop :=
  ∃ n, slots = replicate n (fun _ => 0) ∨ ∃ own parent date time,
    slots = Mounted.dotSlot [46] own date time :: Mounted.dotSlot [46,46] parent date time ::
      replicate n fun _ => 0

theorem zeros_getElem? (here : (replicate n fun _ => (0 : UInt8))[k]? = some s) :
    s = fun _ => 0 := eq_of_mem_replicate (mem_of_getElem? here)

theorem zeros_tidy (n : Nat) : Tidy (replicate n fun _ => 0) := by
  have none : ∀ i s, ¬ Shown (replicate n fun _ => 0) i s := by
    intro i s shown
    have opened := shown.opened i (le_refl i) s shown.here
    rw [zeros_getElem? shown.here] at opened
    cases opened
  refine ⟨fun i j s t _ _ _ there => ?_,fun k s here taken => ?_,fun i s shown => absurd shown (none i s),
    fun i j s t shown => absurd shown (none i s)⟩
  · rw [zeros_getElem? there]
    rfl
  · rw [zeros_getElem? here] at taken
    cases taken

theorem dot_plain (own date time : Nat) {name : List UInt8} (dots : name = [46] ∨ name = [46,46]) :
    (Mounted.dotSlot name own date time).name11 = pad 11 name ∧ (Mounted.dotSlot name own date time).ntFlags = 0 ∧
      (Mounted.dotSlot name own date time).isLfn = false ∧ (Mounted.dotSlot name own date time).isEnd = false := by
  have attr : (Mounted.dotSlot name own date time).attr = 0x10 := by rcases dots with rfl | rfl <;> rfl
  have first : Mounted.dotSlot name own date time 0 = 46 := by rcases dots with rfl | rfl <;> rfl
  refine ⟨by rcases dots with rfl | rfl <;> rfl,by rcases dots with rfl | rfl <;> rfl,?_,?_⟩
  · unfold Slot.isLfn
    rw [attr]
    decide
  · unfold Slot.isEnd
    rw [first]
    decide

theorem dots_shown {own parent date time i : Nat} (shown : Shown (Mounted.dotSlot [46] own date time ::
    Mounted.dotSlot [46,46] parent date time :: replicate n fun _ => 0) i s) :
    (i = 0 ∧ s = Mounted.dotSlot [46] own date time) ∨ i = 1 ∧ s = Mounted.dotSlot [46,46] parent date time := by
  have here := shown.here
  match i with
  | 0 => exact .inl ⟨rfl,(some.inj here).symm⟩
  | 1 => exact .inr ⟨rfl,(some.inj here).symm⟩
  | i + 2 =>
    have zero : s = fun _ => 0 := zeros_getElem? (k := i) here
    have opened := shown.opened (i + 2) (le_refl _) s here
    rw [zero] at opened
    cases opened

theorem dots_tidy (n own parent date time : Nat) : Tidy (Mounted.dotSlot [46] own date time ::
    Mounted.dotSlot [46,46] parent date time :: replicate n fun _ => 0) := by
  have shows {i s} := @dots_shown n s own parent date time i
  obtain ⟨dotName,dotFlags,dotShort,dotOpen⟩ := dot_plain own date time (.inl rfl)
  obtain ⟨upName,upFlags,upShort,_⟩ := dot_plain parent date time (.inr rfl)
  generalize Mounted.dotSlot [46] own date time = dot at *
  generalize Mounted.dotSlot [46,46] parent date time = up at *
  generalize whole : dot :: up :: replicate n (fun _ => (0 : UInt8)) = slots at *
  have first : (entryAt slots 0 dot).name = [46] ∧
      (entryAt slots 0 dot).lfn = none := by
    have start : contextAt slots 0 = .empty := by rw [contextAt,take_zero,foldl_nil]
    have none : (entryAt slots 0 dot).lfn = none := by
      rw [entryAt_lfn,start,matching_empty]
    refine ⟨?_,none⟩
    change formatShort dot.name11 dot.ntFlags = [46]
    rw [dotName,dotFlags]
    decide
  have second : (entryAt slots 1 up).name = [46,46] ∧
      (entryAt slots 1 up).lfn = none := by
    have here : slots[0]? = some dot := by rw [← whole]; rfl
    have none : (entryAt slots 1 up).lfn = none := by
      rw [entryAt_lfn,contextAt_succ here,Slot.Breaks.pass (.inr dotShort),matching_reset]
    refine ⟨?_,none⟩
    unfold Entry.name
    rw [none]
    change formatShort up.name11 up.ntFlags = [46,46]
    rw [upName,upFlags]
    decide
  refine ⟨fun i j s t behind here ended there => ?_,fun k s here taken long => ?_,fun i s shown => ?_,
    fun i j s t before later other => ?_⟩
  · subst whole
    match j with
    | 0 => omega
    | 1 =>
      obtain rfl : i = 0 := by omega
      obtain rfl := some.inj here
      rw [dotOpen] at ended
      cases ended
    | j + 2 =>
      have zero : t = fun _ => 0 := zeros_getElem? (k := j) there
      rw [zero]
      rfl
  · subst whole
    match k with
    | 0 =>
      obtain rfl := some.inj here
      rw [dotShort] at long
      cases long
    | 1 =>
      obtain rfl := some.inj here
      rw [upShort] at long
      cases long
    | k + 2 =>
      have zero : s = fun _ => 0 := zeros_getElem? (k := k) here
      rw [zero] at taken
      cases taken
  · rcases shows shown with ⟨rfl,rfl⟩ | ⟨rfl,rfl⟩
    · refine ⟨by rw [first.1]; decide,fun long => ?_⟩
      cases long
    · refine ⟨by rw [second.1]; decide,fun long => ?_⟩
      rw [second.2] at long
      cases long
  · rcases shows before with ⟨rfl,rfl⟩ | ⟨rfl,rfl⟩ <;> rcases shows later with ⟨rfl,rfl⟩ | ⟨rfl,rfl⟩
    · exact absurd rfl other
    · rw [first.1,second.1]
      decide
    · rw [first.1,second.1]
      decide
    · exact absurd rfl other

theorem Blank.tidy (blank : Blank slots) : Tidy slots := by
  obtain ⟨n,rfl | ⟨own,parent,date,time,rfl⟩⟩ := blank
  · exact zeros_tidy n
  · exact dots_tidy n own parent date time

def Named (perCluster : Nat) (guard : Dirs → NameCall → Prop) (dirs : Dirs) : Prop :=
  Reach (fun dirs => ∀ d, Blank (dirs d)) guard (fun dirs call after => after = call.run perCluster dirs) dirs

/-- As long as new names are shown as they are given, have no tilde and are not those of the record that
is renamed, no two names of a listing are alike, no alias is like another's name, and each finds its own. -/
theorem names_alone {perCluster : Nat} {dirs : Dirs} (reached : Named perCluster (fun dirs call => call.Plain dirs) dirs)
    (d : Nat) : Alone (dirs d) ∧ ∀ e ∈ scanDir (dirs d), find (dirs d) e.name = some e := by
  have tidy : ∀ d, Tidy (dirs d) := Reach.invariant (fun dirs => ∀ d, Tidy (dirs d)) (fun s blank d => (blank d).tidy)
    (fun s call t tidy plain moved d => moved ▸ NameCall.run_tidy tidy plain d) dirs reached
  exact ⟨(tidy d).alone,fun e member => (tidy d).alone.finds member⟩

def blankDirs : Dirs := fun _ => replicate 16 fun _ => 0

theorem blankDirs_blank (d : Nat) : Blank (blankDirs d) := ⟨16,.inl rfl⟩

theorem short_faithful (c : UInt8) (text : c ≠ 32 ∧ c ≠ 46 ∧ isUpper c = false) (used : c ≠ 0xE5) : Faithful [c] := by
  refine .inl ⟨[c],[],⟨by simp,by simp,by simp,?_,nofun,.inl ⟨rfl,rfl⟩⟩,?_,?_⟩
  · intro d member
    rw [mem_singleton.mp member]
    exact text
  · exact fun same => used (some.inj same)
  · exact fun same => text.2.1 (some.inj same)

def aToB : Rename := ⟨0,[97],0,[98],false,false,false,0,0,0⟩

def aThenB : Dirs :=
  (NameCall.rename aToB).run 16 ((NameCall.create 0 0 [97] ⟨false,0,0,0⟩).run 16 blankDirs)

theorem names_alone_renamed : Named 16 (fun dirs call => call.Plain dirs) aThenB ∧
    (scanDir (aThenB 0)).map Entry.name = [[98]] ∧
    Alone (aThenB 0) ∧ ∀ e ∈ scanDir (aThenB 0), find (aThenB 0) e.name = some e := by
  have a : Faithful [97] := short_faithful 97 (by decide) (by decide)
  have b : Faithful [98] := short_faithful 98 (by decide) (by decide)
  have reached : Named 16 (fun dirs call => call.Plain dirs) aThenB := by
    refine Reach.next _ _ (.rename aToB) (.next _ _ (.create 0 0 [97] ⟨false,0,0,0⟩) (.start blankDirs blankDirs_blank)
      ⟨a,by decide⟩ rfl) ⟨⟨b,by decide⟩,fun _ src dst _ found => ?_⟩ rfl
    have free : (find ((NameCall.create 0 0 [97] ⟨false,0,0,0⟩).run 16 blankDirs 0) [98]).isSome = false := by
      decide +kernel
    have aimed : find ((NameCall.create 0 0 [97] ⟨false,0,0,0⟩).run 16 blankDirs 0) [98] = some dst := found
    rw [aimed] at free
    cases free
  exact ⟨reached,by decide +kernel,names_alone reached 0⟩

/-- Two names that differ in a byte no character begins with are both shown as "A?". -/
theorem names_collide : ¬ ∀ dirs, Named 16 (fun _ _ => True) dirs → ∀ d, Alone (dirs d) ∧
    ∀ e ∈ scanDir (dirs d), find (dirs d) e.name = some e := by
  intro alone
  have reached : Named 16 (fun _ _ => True) ((NameCall.create 0 0 [65,0xFE] ⟨false,0,0,0⟩).run 16
      ((NameCall.create 0 0 [65,0xFF] ⟨false,0,0,0⟩).run 16 blankDirs)) :=
    Reach.next _ _ (.create 0 0 [65,0xFE] ⟨false,0,0,0⟩) (.next _ _ (.create 0 0 [65,0xFF] ⟨false,0,0,0⟩)
      (.start blankDirs blankDirs_blank) trivial rfl) trivial rfl
  have names : (scanDir ((NameCall.create 0 0 [65,0xFE] ⟨false,0,0,0⟩).run 16
      ((NameCall.create 0 0 [65,0xFF] ⟨false,0,0,0⟩).run 16 blankDirs) 0)).map (fun e => (e.index,e.name)) =
      [(1,[65,63]),(3,[65,63])] := by decide +kernel
  have apart := (alone _ reached 0).1
  unfold Alone at apart
  obtain ⟨e,rest,whole,first,more⟩ := map_eq_cons_iff.mp names
  obtain ⟨d,tail,rfl,second,_⟩ := map_eq_cons_iff.mp more
  rw [whole] at apart
  obtain ⟨low,left⟩ := Prod.mk.inj first
  obtain ⟨high,right⟩ := Prod.mk.inj second
  have differ := (apart e (by simp) d (by simp) (by rw [low,high]; decide)).1
  rw [left,right] at differ
  cases differ

end SurfaceOS.Fat
