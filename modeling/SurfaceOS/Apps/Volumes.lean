import SurfaceOS.Dev.Plugging

/-! The volumes that explorer shows (ReadVolumes, apps/explorer/tools.cpp): it looks for `size=` and ` on `
in the texts of cmd_lsblk and cmd_mount (drivers/reports.cpp), which are tables. -/
namespace SurfaceOS.Apps.Volumes
open List Block SurfaceOS.Part

abbrev Text := List UInt8

def ascii (s : String) : Text := s.toList.map fun c => UInt8.ofNat c.toNat

def padLeft (width : Nat) (s : Text) : Text := replicate (width - s.length) 32 ++ s

def padRight (width : Nat) (s : Text) : Text := s ++ replicate (width - s.length) 32

def sizeText (dev : Blkdev) : Text :=
  let mb := (dev.sectorCount * dev.geometry.blockSize.toUInt64 / 1048576).toNat
  (digits (if mb > 1024 then mb / 1024 else mb) ++ ascii (if mb > 1024 then " GB" else " MB")).take 15

def startText : Blkdev → Text
  | .disk _ => ascii "-"
  | .partition _ lbaOffset _ => digits lbaOffset.toNat

def lsblkRow (r : Registry) (branch : Text) (i : Nat) : Text :=
  match r i with
  | none => []
  | some d =>
    ascii "\n\r " ++ padRight 14 ((branch ++ d.name).take 31) ++ 32 :: padLeft 9 (sizeText d.dev) ++
      32 :: padLeft 6 (digits d.dev.geometry.blockSize.toNat) ++ 32 :: padLeft 12 (digits d.dev.sectorCount.toNat) ++
      32 :: padLeft 10 (startText d.dev) ++ if (r (r.diskOf i)).any (·.gone) then ascii "  unplugged" else []

def lsblkDisk (r : Registry) (i : Nat) : Text :=
  let parts := (range maxBlkdevs).filter (r.childOf i)
  lsblkRow r [] i ++ parts.dropLast.flatMap (lsblkRow r [0xC3,0xC4,32]) ++
    parts.getLast?.toList.flatMap (lsblkRow r [0xC0,0xC4,32])

def lsblk (r : Registry) : Text :=
  if (range maxBlkdevs).all fun i => (r i).isNone then ascii "\n\r\n\r No block devices found"
  else ascii "\n\r\n\r NAME                SIZE SECTOR      SECTORS      START" ++
    ((range maxBlkdevs).filter fun i => (r i).any (·.parent = none)).flatMap (lsblkDisk r)

/-- The name of each mount's device and its folder, unless `get_path` fails. -/
def mountReport (mounts : List (Text × Option Text)) : Text :=
  ascii "\n\r" ++ (if mounts = [] then [] else ascii " DEVICE       MOUNTED ON\n\r") ++
    mounts.flatMap fun m => m.2.elim [] fun path => 32 :: padRight 12 m.1 ++ 32 :: path ++ ascii "\n\r"

structure Volume where
  name : Text
  info : Text
  path : Text
  partition : Bool

def lines (line : Text) : Text → List Text
  | [] => [line]
  | c :: rest => if c = 10 then line :: lines [] rest else lines (line ++ [c]) rest

def infoText : Nat → Text → Text
  | n + 1, c :: rest => if c = 13 ∨ c = 32 ∧ rest.head? = some 32 then [] else c :: infoText n rest
  | _, _ => []

def findInfo : Text → Text
  | [] => []
  | c :: rest => if ascii "size=" <+: c :: rest then infoText 31 (rest.drop 4) else findInfo rest

def readVolume (line : Text) : Option Volume :=
  let line := line.dropWhile fun c => c = 32 ∨ c = 13
  let partition := line.head?.any (0x80 ≤ ·)
  let line := if partition then line.dropWhile fun c => 0x80 ≤ c ∨ c = 32 else line
  let name := (line.takeWhile fun c => c ≠ 32 ∧ c ≠ 13).take 31
  let info := findInfo (line.drop name.length)
  if name = [] ∨ info = [] then none else some ⟨name,info,[],partition⟩

def readMount (volumes : List Volume) (line : Text) : List Volume :=
  let line := line.dropWhile fun c => c = 32 ∨ c = 13
  let device := line.takeWhile (· ≠ 32)
  let rest := line.drop device.length
  if ascii " on " <+: rest then volumes.map fun v : Volume =>
    if v.name = device then {v with path := ((rest.drop 4).take 127).takeWhile (· ≠ 13)} else v
  else volumes

def readVolumes (lsblk mount : Text) : List Volume :=
  (lines [] mount).foldl readMount (((lines [] lsblk).filterMap readVolume).take 32)

/-- Exactly the devices that can be mounted, with their sizes and folders. -/
def VolumesRight (r : Registry) (mountable : Device → Prop) (mounts : List (Text × Option Text))
    (volumes : List Volume) : Prop :=
  ∀ row, row ∈ volumes.map (fun v => (v.name,v.info,v.path)) ↔ ∃ i d, r i = some d ∧ mountable d ∧
    row = (d.name,sizeText d.dev,((mounts.lookup d.name).bind id).getD [])

variable {r : Registry} {mountable : Device → Prop} {mounts : List (Text × Option Text)}

theorem right_nil_iff : VolumesRight r mountable mounts [] ↔ ∀ i d, r i = some d → ¬ mountable d := by
  refine ⟨fun right i d here can => ?_,fun nobody row => iff_of_false (by simp) ?_⟩
  · cases (right _).mpr ⟨i,d,here,can,rfl⟩
  · rintro ⟨i,d,here,can,-⟩
    exact nobody i d here can

theorem findInfo_nil {text : Text} (clean : 61 ∉ text) : findInfo text = [] := by
  induction text with
  | nil => rfl
  | cons c rest ih =>
    rw [findInfo,if_neg fun found => clean (found.subset (by decide))]
    exact ih (not_mem_of_not_mem_cons clean)

theorem readVolume_none {line : Text} (clean : 61 ∉ line) : readVolume line = none := by
  have trimmed (p : UInt8 → Bool) {text : Text} (clean : 61 ∉ text) : 61 ∉ text.dropWhile p :=
    fun member => clean ((dropWhile_sublist p).subset member)
  refine if_pos (.inr (findInfo_nil fun member => ?_))
  have inside := mem_of_mem_drop member
  split at inside
  · exact trimmed _ (trimmed _ clean) inside
  · exact trimmed _ clean inside

theorem mem_lines {c : UInt8} {l line text : Text} (member : l ∈ lines line text) (inside : c ∈ l) :
    c ∈ line ∨ c ∈ text := by
  induction text generalizing line with
  | nil => exact .inl (mem_singleton.mp member ▸ inside)
  | cons d rest ih =>
    rw [lines] at member
    grind

theorem digits_clean (n : Nat) : 61 ∉ digits n := by
  unfold digits
  split
  · decide
  intro member
  obtain ⟨d,digit,same⟩ := mem_map.mp member
  have small := Nat.digits_lt_base (by decide : 1 < 10) (mem_reverse.mp digit)
  interval_cases d <;> cases same

theorem name_clean (sane : Sane r) {i : Nat} {d : Device} (here : r i = some d) : 61 ∉ d.name := by
  have whole {i : Nat} {d : Device} (here : r i = some d) (disk : d.parent = none) : 61 ∉ d.name := by
    obtain ⟨-,n,small,name⟩ := sane.disks i d here disk
    unfold maxBlkdevs at small
    rw [name]
    interval_cases n <;> decide
  cases parent : d.parent with
  | none => exact whole here parent
  | some slot =>
    obtain ⟨disk,index,_,_,found,top,piece⟩ := sane.parts i d slot here parent
    simp [piece.name,whole found top,digits_clean]

theorem lsblkRow_clean (sane : Sane r) {branch : Text} (plain : 61 ∉ branch) (i : Nat) :
    61 ∉ lsblkRow r branch i := by
  unfold lsblkRow
  split
  · simp
  next d here =>
    have name : 61 ∉ (branch ++ d.name).take 31 := fun member => by
      simpa [plain,name_clean sane here] using mem_of_mem_take member
    have size : 61 ∉ sizeText d.dev := fun member =>
      (mem_append.mp (mem_of_mem_take member)).elim (digits_clean _) (by split <;> decide)
    have start : 61 ∉ startText d.dev := by
      unfold startText
      split
      · decide
      · exact digits_clean _
    have unplugged : 61 ∉ if (r (r.diskOf i)).any (·.gone) then ascii "  unplugged" else [] := by
      split <;> decide
    simp [padLeft,padRight,name,size,start,unplugged,digits_clean,show (61 : UInt8) ∉ ascii "\n\r " by decide]

theorem readVolumes_nil (reached : Reached r) (mount : Text) : readVolumes (lsblk r) mount = [] := by
  have sane := reached.sane
  have clean : 61 ∉ lsblk r := by
    unfold lsblk
    split
    · decide
    · simp only [lsblkDisk,mem_append,mem_flatMap,not_or,not_exists,not_and]
      refine ⟨by decide,fun i _ => ⟨⟨lsblkRow_clean sane (by simp) i,fun j _ => ?_⟩,fun j _ => ?_⟩⟩
      · exact lsblkRow_clean sane (by decide) j
      · exact lsblkRow_clean sane (by decide) j
  have none : (lines [] (lsblk r)).filterMap readVolume = [] :=
    filterMap_eq_nil_iff.mpr fun l member => readVolume_none fun inside =>
      (mem_lines member inside).elim not_mem_nil clean
  rw [readVolumes,none]
  generalize lines [] mount = rows
  induction rows with
  | nil => rfl
  | cons row rows ih => rwa [foldl_cons,show readMount (take 32 []) row = [] by simp [readMount]]

/-- No volume is ever found. -/
theorem volumes_right_iff (reached : Reached r) : VolumesRight r mountable mounts
    (readVolumes (lsblk r) (mountReport mounts)) ↔ ∀ i d, r i = some d → ¬ mountable d := by
  rw [readVolumes_nil reached]
  exact right_nil_iff

theorem volumes_right_none :
    VolumesRight (fun _ => none) (fun _ => True) [] (readVolumes (lsblk fun _ => none) (mountReport [])) :=
  (volumes_right_iff (.start _ rfl)).mpr fun _ _ here => by cases here

theorem stick_missing : ¬ VolumesRight (act (fun _ => none) plugStick) (fun _ => True) []
    (readVolumes (lsblk (act (fun _ => none) plugStick)) (mountReport [])) := by
  obtain ⟨d,here⟩ := Option.isSome_iff_exists.mp (show (act (fun _ => none) plugStick 0).isSome by decide +kernel)
  rw [readVolumes_nil (.next (fun _ => none) _ plugStick (.start _ rfl) trivial rfl),right_nil_iff]
  exact fun nobody => nobody 0 d here trivial

end SurfaceOS.Apps.Volumes
