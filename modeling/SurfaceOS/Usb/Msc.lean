import Mathlib.Data.UInt
import SurfaceOS.Errno
import SurfaceOS.Lib.Memory

/-! USB disks (drivers/usb/msc.cpp): a SCSI command in the three phases of the bulk-only transport.
The controller reports truthfully how a transfer ended and how much it moved; what the device does
in each phase is its own affair. -/
namespace SurfaceOS.Usb.Msc
open Lib Nat Lib.Memory

variable {e : Exchange} {length : Nat}

inductive UsbStatus
  | ok | stall | timeout | noDevice | invalidParam | io
  deriving DecidableEq

inductive Completion
  | success | shortPacket | stall | other
  deriving DecidableEq

/-- What came of one bulk transfer. `bytes` are those an IN transfer brought; of an OUT transfer their
number is how many went. `gone` says that the device was found unplugged by the end of it. -/
structure Answer where
  ended : Bool
  code : Completion
  bytes : List UInt8
  gone : Bool

variable {a : Answer}

/-- The answers to the phases of one command: `again` to the status phase after a stall, `unplugged`
whether reset recovery finds the device gone. -/
structure Exchange where
  command : Answer
  data : Answer
  status : Answer
  again : Answer
  unplugged : Bool

structure Cbw where
  signature : UInt32
  tag : UInt32
  length : UInt32
  flags : UInt8
  lun : UInt8
  cbLength : UInt8
  cb : List UInt8

structure Csw where
  signature : Nat
  tag : Nat
  residue : Nat
  status : UInt8

variable {csw : Csw}

inductive Packet
  | command (cbw : Cbw)
  | data (bytes : List UInt8)
  | status (csw : Csw)

def maxXferBytes : Nat := 65536

def cbwSignature : UInt32 := 0x43425355

def cswSignature : Nat := 0x53425355

def registerable (blockSize lastLba : UInt32) : Bool :=
  !(lastLba.toUInt64 = 0xFFFFFFFF ∨ lastLba.toUInt64 + 1 > 0xFFFFFFFF) ∧
    !(blockSize = 0 ∨ blockSize &&& (blockSize - 1) ≠ 0 ∨ blockSize < 512 ∨ blockSize > 4096)

structure Geometry where
  blockSize : UInt32
  lastLba : UInt32
  registered : registerable blockSize lastLba

/-- The driver of one disk: `gone` is its own flag, `unplugged` the USB core's; `tag` is `bot_tag`,
`ticks` counts the exchanges and `wire` is what passed over the bus. -/
structure Driver where
  gone : Bool
  unplugged : Bool
  dma : Nat → UInt8
  tag : UInt32
  ticks : Nat
  wire : List Packet

variable {after : Driver}

def Driver.log (s : Driver) (p : Packet) : Driver := {s with wire := s.wire ++ [p]}

def Answer.result (a : Answer) : UsbStatus :=
  if !a.ended then (if a.gone then .noDevice else .timeout)
  else match a.code with
    | .stall => .stall
    | .other => .io
    | .success => .ok
    | .shortPacket => .ok

/-- A bulk transfer of `length` bytes, with what moved. A stalled endpoint is cleared at once. -/
def bulk (s : Driver) (length : Nat) (a : Answer) : UsbStatus × List UInt8 × Driver :=
  if s.unplugged then (.noDevice,[],s)
  else if maxXferBytes < length then (.invalidParam,[],s)
  else (a.result,a.bytes.take length,{s with unplugged := a.gone})

def Csw.read (m : Nat → UInt8) : Csw := ⟨le32 m 0,le32 m 4,le32 m 8,m 12⟩

def Csw.verdict (csw : Csw) : Int :=
  if csw.signature ≠ cswSignature then -1 else if csw.status ≠ 0 then (csw.status.toNat : Int) else 0

/-- The status phase of `bot_transport`, from the zeroed status block on. -/
def statusPhase (s : Driver) (e : Exchange) : Int × Driver :=
  let first := bulk s 13 e.status
  let csw := patch (fun _ => 0) 0 first.2.1
  let last := if first.1 = .stall then bulk first.2.2 13 e.again else first
  let csw := if first.1 = .stall then patch csw 0 last.2.1 else csw
  let s := last.2.2
  if last.1 ≠ .ok ∨ last.2.1.length < 13 then (-1,s)
  else ((Csw.read csw).verdict,s.log (.status (Csw.read csw)))

/-- The data phase. A stall ends it early and is no error here. -/
def dataPhase (s : Driver) (e : Exchange) (length : Nat) (input : Bool) : Bool × Driver :=
  let (st,moved,s) := bulk s length e.data
  let s := if input then {s with dma := patch s.dma 0 moved} else s
  let s := s.log (.data (slice s.dma 0 moved.length))
  (st = .ok ∨ st = .stall,s)

def commandBlock (s : Driver) (cmd : List UInt8) (length : UInt32) (input : Bool) : Cbw :=
  ⟨cbwSignature,s.tag,length,if input then 0x80 else 0,0,UInt8.ofNat cmd.length,
    cmd ++ List.replicate (16 - cmd.length) 0⟩

def botTransport (s : Driver) (e : Exchange) (cmd : List UInt8) (length : UInt32) (input : Bool) : Int × Driver :=
  let sent := bulk ({s with tag := s.tag + 1}.log (.command (commandBlock s cmd length input))) 31 e.command
  if sent.1 ≠ .ok then (-1,sent.2.2)
  else if length > 0 then
    let moved := dataPhase sent.2.2 e length.toNat input
    if moved.1 then statusPhase moved.2 e else (-1,moved.2)
  else statusPhase sent.2.2 e

/-- `bot_scsi_command`, with the answers that `env` has for this exchange. -/
def botScsiCommand (env : Nat → Exchange) (s : Driver) (cmd : List UInt8) (length : UInt32) (input : Bool) :
    Int × Driver :=
  if s.unplugged then (-1,s)
  else
    let e := env s.ticks
    let done := botTransport {s with ticks := s.ticks + 1} e cmd length input
    if (done.1 = -1 ∨ done.1 = 2) ∧ !done.2.unplugged then (done.1,{done.2 with unplugged := e.unplugged})
    else done

def scsiRead10 : UInt8 := 0x28

def scsiWrite10 : UInt8 := 0x2A

def cdb (opcode : UInt8) (lba : UInt32) (count : UInt16) : List UInt8 :=
  [opcode,0,(lba >>> 24).toUInt8,(lba >>> 16).toUInt8,(lba >>> 8).toUInt8,lba.toUInt8,0,
    (count >>> 8).toUInt8,count.toUInt8,0]

def scsiReadWrite10 (g : Geometry) (env : Nat → Exchange) (s : Driver) (opcode : UInt8) (lba : UInt32)
    (count : UInt16) : Bool × Driver :=
  let done := botScsiCommand env s (cdb opcode lba count) (count.toUInt32 * g.blockSize) (opcode = scsiRead10)
  (done.1 = 0,done.2)

def requestFits (g : Geometry) (lba : UInt64) (count : UInt32) : Bool :=
  0 < count ∧ count.toUInt64 * g.blockSize.toUInt64 ≤ UInt64.ofNat maxXferBytes ∧
    lba + count.toUInt64 ≤ g.lastLba.toUInt64 + 1

def mscRead (g : Geometry) (env : Nat → Exchange) (s : Driver) (lba : UInt64) (count : UInt32) :
    Except Errno (List UInt8) × Driver :=
  if s.gone then (.error .eio,s)
  else if !requestFits g lba count then (.error .einval,s)
  else
    let done := scsiReadWrite10 g env s scsiRead10 lba.toUInt32 count.toUInt16
    if done.1 then (.ok (slice done.2.dma 0 (count * g.blockSize).toNat),done.2)
    else (.error .eio,done.2)

def mscWrite (g : Geometry) (env : Nat → Exchange) (s : Driver) (lba : UInt64) (count : UInt32)
    (src : Nat → UInt8) : Except Errno Unit × Driver :=
  if s.gone then (.error .eio,s)
  else if !requestFits g lba count then (.error .einval,s)
  else
    let s := {s with dma := patch s.dma 0 (slice src 0 (count * g.blockSize).toNat)}
    let done := scsiReadWrite10 g env s scsiWrite10 lba.toUInt32 count.toUInt16
    (if done.1 then .ok () else .error .eio,done.2)

variable {g : Geometry} {s : Driver} {lba : UInt64} {count : UInt32}

theorem Geometry.bounds (g : Geometry) : 512 ≤ g.blockSize.toNat ∧ g.blockSize.toNat ≤ 4096 ∧
    g.lastLba.toNat + 1 < 2^32 := by
  have registered := g.registered
  simp only [registerable,Bool.not_eq_true',decide_eq_false_iff_not,not_or,decide_eq_true_eq,
    UInt32.lt_iff_toNat_lt,gt_iff_lt,UInt64.lt_iff_toNat_lt] at registered
  obtain ⟨⟨_,small⟩,_,_,low,high⟩ := registered
  have bound := g.lastLba.toNat_lt
  simp only [UInt64.toNat_add,UInt32.toNat_toUInt64,UInt64.reduceToNat,UInt32.reduceToNat] at small low high
  omega

theorem bulk_asked (there : s.unplugged = false) (small : length ≤ maxXferBytes) :
    bulk s length a = (a.result,a.bytes.take length,{s with unplugged := a.gone}) := by
  unfold bulk
  rw [there,if_neg Bool.false_ne_true,if_neg (not_lt.mpr small)]

theorem bulk_gone (gone : s.unplugged) : bulk s length a = (.noDevice,[],s) := by
  unfold bulk
  rw [gone,if_pos rfl]

theorem Csw.read_patch (m k : Nat → UInt8) (xs : List UInt8) (whole : xs.length = 13) :
    Csw.read (patch m 0 xs) = Csw.read (patch k 0 xs) := by
  have same : ∀ i, i < 13 → patch m 0 xs i = patch k 0 xs i := by
    intro i small
    rw [patch_at m 0 xs i (zero_le i) (by omega),patch_at k 0 xs i (zero_le i) (by omega)]
  unfold Csw.read
  rw [le32_congr _ _ 0 fun i small => same (0 + i) (by omega),
    le32_congr _ _ 4 fun i small => same (4 + i) (by omega),
    le32_congr _ _ 8 fun i small => same (8 + i) (by omega),same 12 (by omega)]

def Exchange.block (e : Exchange) : Option Csw :=
  let last := if e.status.result = .stall then e.again else e.status
  if e.status.result = .stall ∧ e.status.gone then none
  else if last.result = .ok ∧ 13 ≤ last.bytes.length then
    some (Csw.read (patch (fun _ => 0) 0 (last.bytes.take 13)))
  else none

/-- The device lets a command through, whatever moved in its data phase. -/
structure Exchange.Accepted (e : Exchange) (csw : Csw) : Prop where
  command : e.command.result = .ok ∧ e.command.gone = false
  data : (e.data.result = .ok ∨ e.data.result = .stall) ∧ e.data.gone = false
  block : e.block = some csw
  signature : csw.signature = cswSignature
  status : csw.status = 0

theorem statusPhase_none (there : s.unplugged = false) (none : e.block = .none) :
    (statusPhase s e).1 = -1 := by
  have small : 13 ≤ maxXferBytes := by decide
  unfold statusPhase
  rw [bulk_asked there small]
  dsimp only
  unfold Exchange.block at none
  by_cases stalled : e.status.result = .stall
  · rw [if_pos stalled] at none ⊢
    by_cases gone : e.status.gone = true
    · rw [bulk_gone (s := {s with unplugged := e.status.gone}) gone]
      rfl
    rw [if_neg (by simp [gone])] at none
    rw [bulk_asked (s := {s with unplugged := e.status.gone}) (by simpa using gone) small]
    rw [if_pos]
    by_contra whole
    simp only [List.length_take,not_or,not_not] at whole
    rw [if_pos ⟨whole.1,by omega⟩] at none
    cases none
  · rw [if_neg stalled,if_neg (by simp [stalled])] at none
    rw [if_neg stalled,if_pos]
    by_contra whole
    simp only [List.length_take,not_or,not_not] at whole
    rw [if_pos ⟨whole.1,by omega⟩] at none
    cases none

theorem statusPhase_some (there : s.unplugged = false) (block : e.block = some csw) :
    (statusPhase s e).1 = csw.verdict ∧ (statusPhase s e).2.wire = s.wire ++ [.status csw] ∧
      (statusPhase s e).2.dma = s.dma := by
  have small : 13 ≤ maxXferBytes := by decide
  obtain ⟨quiet,sent⟩ := Option.ite_none_left_eq_some.mp block
  obtain ⟨⟨ok,whole⟩,read⟩ := Option.ite_none_right_eq_some.mp sent
  have same : ∀ m, Csw.read (patch m 0 (List.take 13
      (if e.status.result = .stall then e.again else e.status).bytes)) = csw := fun m =>
    (Csw.read_patch m (fun _ => 0) _ (by simp [whole])).trans (Option.some.inj read)
  unfold statusPhase
  rw [bulk_asked there small]
  dsimp only
  by_cases stalled : e.status.result = .stall
  · rw [if_pos stalled] at ok whole same
    have gone : e.status.gone = false := by simpa [stalled] using quiet
    rw [if_pos stalled,if_pos stalled,bulk_asked (s := {s with unplugged := e.status.gone}) gone small]
    rw [if_neg (by simp [ok,whole]),same]
    exact ⟨rfl,rfl,rfl⟩
  · rw [if_neg stalled] at ok whole same
    rw [if_neg stalled,if_neg stalled,if_neg (by simp [ok,whole]),same]
    exact ⟨rfl,rfl,rfl⟩

theorem dataPhase_asked (e : Exchange) (input : Bool) (there : s.unplugged = false)
    (small : length ≤ maxXferBytes) :
    (dataPhase s e length input).1 = decide (e.data.result = .ok ∨ e.data.result = .stall) ∧
    (dataPhase s e length input).2.unplugged = e.data.gone ∧
    (dataPhase s e length input).2.dma =
      (if input then patch s.dma 0 (e.data.bytes.take length) else s.dma) ∧
    (dataPhase s e length input).2.wire = s.wire ++ [.data (slice
      (if input then patch s.dma 0 (e.data.bytes.take length) else s.dma) 0
      (e.data.bytes.take length).length)] := by
  unfold dataPhase
  rw [bulk_asked there small]
  cases input <;> exact ⟨rfl,rfl,rfl,rfl⟩

section
variable {e : Exchange} {cmd : List UInt8} {length : UInt32} {input : Bool}

def Driver.sent (s : Driver) (e : Exchange) (cbw : Cbw) : Driver :=
  {s with tag := s.tag + 1, wire := s.wire ++ [.command cbw], unplugged := e.command.gone}

theorem botTransport_asked (there : s.unplugged = false) (some : 0 < length) : botTransport s e cmd length input =
      let now := s.sent e (commandBlock s cmd length input)
      if e.command.result ≠ .ok then (-1,now)
      else if (dataPhase now e length.toNat input).1 then statusPhase (dataPhase now e length.toNat input).2 e
      else (-1,(dataPhase now e length.toNat input).2) := by
  unfold botTransport
  rw [bulk_asked (s := Driver.log {s with tag := s.tag + 1} _) there (by decide)]
  dsimp only
  rw [if_pos some]
  rfl

theorem Exchange.Accepted.verdict (accepted : e.Accepted csw) : csw.verdict = 0 := by
  unfold Csw.verdict
  rw [if_neg (not_not_intro accepted.signature),if_neg (not_not_intro accepted.status)]

theorem Csw.verdict_zero (good : csw.verdict = 0) : csw.signature = cswSignature ∧ csw.status = 0 := by
  unfold Csw.verdict at good
  split at good
  · omega
  rename_i signature
  split at good
  · next status =>
    refine absurd (UInt8.toNat_inj.mp ?_) status
    exact Int.ofNat_eq_zero.mp good
  · next status => exact ⟨not_not.mp signature,not_not.mp status⟩

theorem botTransport_accepted (cmd : List UInt8) (input : Bool) (there : s.unplugged = false) (some : 0 < length)
    (small : length.toNat ≤ maxXferBytes) (accepted : e.Accepted csw) : (botTransport s e cmd length input).1 = 0 ∧
    (botTransport s e cmd length input).2.dma =
      (if input then patch s.dma 0 (e.data.bytes.take length.toNat) else s.dma) ∧
    (botTransport s e cmd length input).2.wire = s.wire ++ [.command (commandBlock s cmd length input),
      .data (slice (botTransport s e cmd length input).2.dma 0 (e.data.bytes.take length.toNat).length),
      .status csw] := by
  obtain ⟨went,gone,dma,wire⟩ := dataPhase_asked e input
    (s := s.sent e (commandBlock s cmd length input)) accepted.command.2 small
  rw [botTransport_asked there some]
  rw [if_neg (not_not_intro accepted.command.1),if_pos (went.trans (decide_eq_true accepted.data.1))]
  obtain ⟨verdict,logged,kept⟩ := statusPhase_some (gone.trans accepted.data.2) accepted.block
  refine ⟨verdict.trans accepted.verdict,kept.trans dma,?_⟩
  rw [logged,kept,wire,dma]
  simp [Driver.sent]

theorem accepted_of_botTransport (there : s.unplugged = false) (some : 0 < length)
    (small : length.toNat ≤ maxXferBytes) (done : (botTransport s e cmd length input).1 = 0) :
    ∃ csw, e.Accepted csw := by
  rw [botTransport_asked there some] at done
  dsimp only at done
  split at done
  · omega
  rename_i ok
  by_cases lost : e.command.gone = true
  · have unplugged : bulk (s.sent e (commandBlock s cmd length input)) length.toNat e.data =
        (.noDevice,[],s.sent e (commandBlock s cmd length input)) := bulk_gone lost
    rw [if_neg (by simp [dataPhase,unplugged])] at done
    omega
  have stays : e.command.gone = false := by simpa using lost
  obtain ⟨went,gone,_,_⟩ := dataPhase_asked e input
    (s := s.sent e (commandBlock s cmd length input)) stays small
  split at done
  · next through =>
    rw [went] at through
    have moved := of_decide_eq_true through
    cases data : e.data.gone with
    | true =>
      unfold statusPhase at done
      rw [bulk_gone (gone.trans data)] at done
      cases done
    | false =>
      cases block : e.block with
      | none =>
        rw [statusPhase_none (gone.trans data) block] at done
        omega
      | some csw =>
        rw [(statusPhase_some (gone.trans data) block).1] at done
        obtain ⟨signature,status⟩ := Csw.verdict_zero done
        exact ⟨csw,⟨not_not.mp ok,stays⟩,⟨moved,data⟩,block,signature,status⟩
  · omega

end

theorem requestFits_iff : requestFits g lba count ↔ 0 < count.toNat ∧
    count.toNat * g.blockSize.toNat ≤ maxXferBytes ∧ (lba.toNat + count.toNat) % 2^64 ≤ g.lastLba.toNat + 1 := by
  have bounds := g.bounds
  have bound := count.toNat_lt
  have product : count.toNat * g.blockSize.toNat < 2^64 := by
    calc count.toNat * g.blockSize.toNat ≤ 2^32 * 4096 := Nat.mul_le_mul (by omega) bounds.2.1
      _ < 2^64 := by decide
  simp only [requestFits,decide_eq_true_eq,UInt64.le_iff_toNat_le,UInt64.toNat_add,
    UInt64.toNat_mul,UInt32.toNat_toUInt64,UInt64.reduceToNat,mod_eq_of_lt product]
  rw [
    mod_eq_of_lt (show g.lastLba.toNat + 1 < 2^64 by omega)]
  rfl

theorem fits_lengths (fits : requestFits g lba count) :
    count.toUInt16.toUInt32 = count ∧ (count * g.blockSize).toNat = count.toNat * g.blockSize.toNat ∧
      count.toNat ≤ 128 := by
  obtain ⟨some,small,_⟩ := requestFits_iff.mp fits
  have bounds := g.bounds
  have few : count.toNat ≤ 128 := by
    by_contra many
    have large : 129 * 512 ≤ count.toNat * g.blockSize.toNat := Nat.mul_le_mul (by omega) bounds.1
    simp only [maxXferBytes] at small
    omega
  refine ⟨?_,?_,few⟩
  · apply UInt32.toNat_inj.mp
    simp only [UInt16.toNat_toUInt32,UInt32.toNat_toUInt16]
    omega
  · rw [UInt32.toNat_mul]
    simp only [maxXferBytes] at small
    omega

def Sent (g : Geometry) (s : Driver) (lba : UInt64) (count : UInt32) : Prop :=
  s.gone = false ∧ s.unplugged = false ∧ requestFits g lba count

def size (g : Geometry) (count : UInt32) : Nat := count.toNat * g.blockSize.toNat

section
variable (env : Nat → Exchange) (opcode : UInt8)

section
variable (sent : Sent g s lba count)
include sent

theorem sent_length :
    0 < count.toUInt16.toUInt32 * g.blockSize ∧ (count.toUInt16.toUInt32 * g.blockSize).toNat = size g count ∧
      size g count ≤ maxXferBytes := by
  obtain ⟨some,small,_⟩ := requestFits_iff.mp sent.2.2
  obtain ⟨narrow,product,_⟩ := fits_lengths sent.2.2
  rw [narrow]
  refine ⟨?_,product,small⟩
  rw [UInt32.lt_iff_toNat_lt,product]
  exact Nat.mul_pos some (by have := g.bounds; omega)

theorem readWrite_accepted (accepted : (env s.ticks).Accepted csw) :
    let done := scsiReadWrite10 g env s opcode lba.toUInt32 count.toUInt16
    done.1 ∧
    done.2.dma = (if opcode = scsiRead10 then
      patch s.dma 0 ((env s.ticks).data.bytes.take (size g count)) else s.dma) ∧
    done.2.wire = s.wire ++ [.command (commandBlock s (cdb opcode lba.toUInt32 count.toUInt16)
        (count.toUInt16.toUInt32 * g.blockSize) (opcode = scsiRead10)),
      .data (slice done.2.dma 0 ((env s.ticks).data.bytes.take (size g count)).length),.status csw] := by
  obtain ⟨some,length,small⟩ := sent_length sent
  have done := botTransport_accepted (s := {s with ticks := s.ticks + 1}) (cdb opcode lba.toUInt32 count.toUInt16)
    (opcode = scsiRead10) sent.2.1 some (length ▸ small) accepted
  rw [length] at done
  unfold scsiReadWrite10 botScsiCommand
  rw [if_neg (by rw [sent.2.1]; exact Bool.false_ne_true)]
  rw [if_neg fun again => by rw [done.1] at again; omega]
  exact ⟨decide_eq_true done.1,by simpa only [decide_eq_true_eq] using done.2.1,done.2.2⟩

theorem accepted_of_readWrite (done : (scsiReadWrite10 g env s opcode lba.toUInt32 count.toUInt16).1) :
    ∃ csw, (env s.ticks).Accepted csw := by
  obtain ⟨some,length,small⟩ := sent_length sent
  unfold scsiReadWrite10 botScsiCommand at done
  rw [if_neg (by rw [sent.2.1]; exact Bool.false_ne_true)] at done
  dsimp only at done
  refine accepted_of_botTransport (s := {s with ticks := s.ticks + 1}) sent.2.1 some (length ▸ small) (?_ :
    (botTransport _ _ (cdb opcode lba.toUInt32 count.toUInt16) _ (decide (opcode = scsiRead10))).1 = 0)
  split at done <;> exact of_decide_eq_true done

end

theorem unplugged_readWrite (gone : s.unplugged) (lba : UInt32) (count : UInt16) :
    (scsiReadWrite10 g env s opcode lba count).1 = false := by
  unfold scsiReadWrite10 botScsiCommand
  rw [if_pos gone]
  rfl

theorem mscRead_ok {bytes : List UInt8} (done : mscRead g env s lba count = (.ok bytes,after)) :
    Sent g s lba count ∧ (∃ csw, (env s.ticks).Accepted csw) ∧
      after = (scsiReadWrite10 g env s scsiRead10 lba.toUInt32 count.toUInt16).2 ∧
      bytes = slice after.dma 0 (size g count) := by
  revert done
  fun_cases mscRead g env s lba count with
  | case3 here fits read went =>
    rintro ⟨⟩
    have there : s.unplugged = false := by
      by_contra gone
      simp only [read,unplugged_readWrite env scsiRead10 (by simpa using gone)] at went
      cases went
    have sent : Sent g s lba count := ⟨by simpa using here,there,by simpa using fits⟩
    refine ⟨sent,accepted_of_readWrite env scsiRead10 sent went,rfl,?_⟩
    rw [(fits_lengths sent.2.2).2.1]
    rfl
  | _ => nofun

theorem mscRead_accepted (sent : Sent g s lba count) (accepted : (env s.ticks).Accepted csw) :
    mscRead g env s lba count = (.ok (slice (scsiReadWrite10 g env s scsiRead10 lba.toUInt32
      count.toUInt16).2.dma 0 (size g count)),(scsiReadWrite10 g env s scsiRead10 lba.toUInt32 count.toUInt16).2) := by
  have went := (readWrite_accepted env scsiRead10 sent accepted).1
  unfold mscRead
  rw [if_neg (by simp [sent.1]),if_neg (by simp [sent.2.2])]
  rw [if_pos went,(fits_lengths sent.2.2).2.1]
  rfl

def loaded (g : Geometry) (s : Driver) (count : UInt32) (src : Nat → UInt8) : Driver :=
  {s with dma := patch s.dma 0 (slice src 0 (size g count))}

theorem mscWrite_sent (sent : Sent g s lba count) (src : Nat → UInt8) : mscWrite g env s lba count src =
    let done := scsiReadWrite10 g env (loaded g s count src) scsiWrite10 lba.toUInt32 count.toUInt16
    (if done.1 then .ok () else .error .eio,done.2) := by
  unfold mscWrite
  rw [if_neg (by simp [sent.1]),if_neg (by simp [sent.2.2]),(fits_lengths sent.2.2).2.1]
  rfl

theorem mscWrite_ok {src : Nat → UInt8} (done : mscWrite g env s lba count src = (.ok (),after)) :
    Sent g s lba count ∧ (∃ csw, (env s.ticks).Accepted csw) ∧
      after = (scsiReadWrite10 g env (loaded g s count src) scsiWrite10 lba.toUInt32 count.toUInt16).2 := by
  have sent : Sent g s lba count := by
    revert done
    fun_cases mscWrite g env s lba count src with
    | case3 here fits =>
      intro done
      refine ⟨by simpa using here,?_,by simpa using fits⟩
      by_contra gone
      rw [unplugged_readWrite (s := {s with dma := _}) env scsiWrite10 (by simpa using gone)] at done
      cases done
    | _ => nofun
  rw [mscWrite_sent env sent] at done
  obtain ⟨went,rfl⟩ := Prod.mk.inj done
  refine ⟨sent,?_,rfl⟩
  split at went
  · next through => exact accepted_of_readWrite (s := loaded g s count src) env scsiWrite10 sent through
  · cases went

theorem mscWrite_accepted (sent : Sent g s lba count) (accepted : (env s.ticks).Accepted csw)
    (src : Nat → UInt8) : mscWrite g env s lba count src =
      (.ok (),(scsiReadWrite10 g env (loaded g s count src) scsiWrite10 lba.toUInt32 count.toUInt16).2) := by
  have went := (readWrite_accepted (s := loaded g s count src) env scsiWrite10 sent accepted).1
  rw [mscWrite_sent env sent]
  dsimp only
  rw [if_pos went]

end

/-- The request was carried out: the bus saw its command, all its bytes and a good status block for
that command. -/
def Moved (g : Geometry) (opcode : UInt8) (lba : UInt64) (count : UInt32) (before after : Driver)
    (bytes : List UInt8) : Prop :=
  ∃ cbw csw, after.wire = before.wire ++ [.command cbw,.data bytes,.status csw] ∧ cbw.tag = before.tag ∧
    cbw.cb.take 10 = cdb opcode lba.toUInt32 count.toUInt16 ∧ bytes.length = size g count ∧
    csw.tag = cbw.tag.toNat ∧ csw.status = 0

/-- A device that lets the request through has moved all of it and names its tag. -/
def Honest (g : Geometry) (s : Driver) (lba : UInt64) (count : UInt32) (e : Exchange) : Prop :=
  Sent g s lba count → ∀ csw, e.Accepted csw → size g count ≤ e.data.bytes.length ∧ csw.tag = s.tag.toNat

theorem bounce_kept (env : Nat → Exchange) (sent : Sent g s lba count)
    (accepted : (env s.ticks).Accepted csw) (src : Nat → UInt8) :
    slice (scsiReadWrite10 g env (loaded g s count src) scsiWrite10 lba.toUInt32 count.toUInt16).2.dma 0
      (size g count) = slice src 0 (size g count) := by
  have dma := (readWrite_accepted (s := loaded g s count src) env scsiWrite10 sent accepted).2.1
  rw [dma]
  have copied := slice_patch s.dma 0 (slice src 0 (size g count))
  rwa [slice_length] at copied

theorem readWrite_moved (env : Nat → Exchange) (opcode : UInt8) (sent : Sent g s lba count)
    (accepted : (env s.ticks).Accepted csw) :
    let after := (scsiReadWrite10 g env s opcode lba.toUInt32 count.toUInt16).2
    Moved g opcode lba count s after (slice after.dma 0 (size g count)) ↔
      size g count ≤ (env s.ticks).data.bytes.length ∧ csw.tag = s.tag.toNat := by
  obtain ⟨_,_,wire⟩ := readWrite_accepted env opcode sent accepted
  have length := List.length_take (i := size g count) (l := (env s.ticks).data.bytes)
  constructor
  · rintro ⟨cbw,seen,same,tag,_,_,named,_⟩
    rw [wire] at same
    have packets := List.append_cancel_left same
    simp only [List.cons.injEq,Packet.data.injEq,Packet.status.injEq,and_true] at packets
    obtain ⟨_,moved,rfl⟩ := packets
    have lengths := congrArg List.length moved
    rw [slice_length] at lengths
    exact ⟨by omega,by rw [named,tag]⟩
  · rintro ⟨whole,named⟩
    rw [length,min_eq_left whole] at wire
    exact ⟨_,csw,wire,rfl,rfl,slice_length ..,named,accepted.status⟩

/-- A read or write that succeeds has moved all its bytes under its own tag, unless the device reported
success without having moved them or for another command. -/
theorem success_moves_iff (g : Geometry) (env : Nat → Exchange) (s : Driver) (lba : UInt64) (count : UInt32)
    (src : Nat → UInt8) : ((∀ bytes after, mscRead g env s lba count = (.ok bytes,after) →
        Moved g scsiRead10 lba count s after bytes) ↔ Honest g s lba count (env s.ticks)) ∧
    ((∀ after, mscWrite g env s lba count src = (.ok (),after) →
        Moved g scsiWrite10 lba count s after (slice src 0 (size g count))) ↔
      Honest g s lba count (env s.ticks)) := by
  refine ⟨⟨fun always sent csw accepted => ?_,fun honest bytes after done => ?_⟩,
    ⟨fun always sent csw accepted => ?_,fun honest after done => ?_⟩⟩
  · exact (readWrite_moved env scsiRead10 sent accepted).mp (always _ _ (mscRead_accepted env sent accepted))
  · obtain ⟨sent,⟨csw,accepted⟩,rfl,rfl⟩ := mscRead_ok env done
    exact (readWrite_moved env scsiRead10 sent accepted).mpr (honest sent csw accepted)
  · have kept := bounce_kept env sent accepted src
    refine (readWrite_moved (s := loaded g s count src) env scsiWrite10 sent accepted).mp ?_
    rw [kept]
    exact always _ (mscWrite_accepted env sent accepted src)
  obtain ⟨sent,⟨csw,accepted⟩,rfl⟩ := mscWrite_ok env done
  have moved := (readWrite_moved (s := loaded g s count src) env scsiWrite10 sent accepted).mpr
    (honest sent csw accepted)
  rwa [bounce_kept env sent accepted src] at moved

def stick : Geometry := ⟨512,2047,by decide⟩

/-- The device stalls the data phase at once and reports success, for no command in particular. -/
def stallsAndReports : Exchange where
  command := ⟨true,.success,List.replicate 31 0,false⟩
  data := ⟨true,.stall,[],false⟩
  status := ⟨true,.success,[0x55,0x53,0x42,0x53,0,0,0,0,0,0,0,0,0],false⟩
  again := ⟨true,.success,[],false⟩
  unplugged := false

theorem stallsAndReports_accepted : stallsAndReports.Accepted ⟨cswSignature,0,0,0⟩ :=
  ⟨⟨rfl,rfl⟩,⟨.inr rfl,rfl⟩,by rfl,rfl,rfl⟩

/-- The read succeeds, and returns what the bounce buffer held. -/
theorem not_every_success_moves : ¬ ∀ g env s lba count bytes after,
    mscRead g env s lba count = (.ok bytes,after) → Moved g scsiRead10 lba count s after bytes := by
  intro always
  have sent : Sent stick ⟨false,false,fun _ => 0xAA,1,0,[]⟩ 0 1 := ⟨rfl,rfl,by decide⟩
  have done := mscRead_accepted (fun _ => stallsAndReports) sent stallsAndReports_accepted
  have whole := ((readWrite_moved (fun _ => stallsAndReports) scsiRead10 sent stallsAndReports_accepted).mp
    (always _ _ _ _ _ _ _ done)).1
  exact absurd whole (by decide)

end SurfaceOS.Usb.Msc
