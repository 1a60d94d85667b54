import ItchOrderbook.Lib.BigEndian
import ItchOrderbook.Lib.LittleEndian

/-!
# Host side of the link (`tools/ob_host.py`)

Builds the frames that go to the board, parses a snapshot and hunts one in the bytes that come
back. A read that times out without a byte is `none`; the deadline is the end of the reads.
-/

namespace ItchOrderbook.ObHost

/-- The exceptions the functions below raise. -/
inductive HostError where
  | valueError (message : String)
  | structError
  | assertionError
  deriving DecidableEq, Repr

/-- `PREAMBLE`. -/
def preamble : List UInt8 := [0xA5, 0x5A]

/-- `T_ITCH`. -/
def tItch : UInt8 := 0x01
/-- `T_SNAP`. -/
def tSnap : UInt8 := 0x02
/-- `T_BAND`. -/
def tBand : UInt8 := 0x03
/-- `T_SNAPRESP`. -/
def tSnapresp : UInt8 := 0x81

/-- `PAYLOAD_DN`. -/
def payloadDn : ℕ := 48

/-- `SNAP_BYTES`. -/
def snapBytes : ℕ := 128

/-- `csum8`. -/
def csum8 (data : List UInt8) : UInt8 := UInt8.ofNat ((data.map UInt8.toNat).sum &&& 0xFF)

/-- `ljust(PAYLOAD_DN, b"\x00")`. -/
def ljust (data : List UInt8) : List UInt8 := data ++ List.replicate (payloadDn - data.length) 0

/-! ## Frames to the board -/

/-- `frame_itch`. -/
def frameItch (msg : List UInt8) : Except HostError (List UInt8) :=
  if ¬ (3 ≤ msg.length ∧ msg.length ≤ payloadDn) then
    .error (.valueError s!"message must be 3..{payloadDn} bytes, got {msg.length}")
  else
    let blen := BigEndian.ofBytes (msg.take 2)
    if blen ≠ msg.length - 2 then
      .error (.valueError s!"length prefix {blen} != body bytes {msg.length - 2}")
    else
      let body := tItch :: ljust msg
      .ok (preamble ++ body ++ [csum8 body])

/-- `frame_snap_req`. -/
def frameSnapReq : List UInt8 :=
  let body := tSnap :: List.replicate payloadDn 0
  preamble ++ body ++ [csum8 body]

/-- `frame_set_band`. `struct.pack` refuses a base that is no 32-bit word. -/
def frameSetBand (base : ℤ) : Except HostError (List UInt8) :=
  if 0 ≤ base ∧ base < 2 ^ 32 then
    let body := tBand :: ljust (LittleEndian.toBytes 4 base.toNat)
    .ok (preamble ++ body ++ [csum8 body])
  else .error .structError

/-- What the host writes to the line. -/
inductive Command where
  | itch (msg : List UInt8)
  | snapReq
  | setBand (base : ℤ)

/-- The frame of a command. -/
def Command.frame : Command → Except HostError (List UInt8)
  | .itch msg => frameItch msg
  | .snapReq => .ok frameSnapReq
  | .setBand base => frameSetBand base

/-- The bytes written for some commands, one after the other. -/
def send : List Command → Except HostError (List UInt8)
  | [] => .ok []
  | c :: cs => do
    let f ← c.frame
    let fs ← send cs
    return f ++ fs

/-! ## Snapshots from the board -/

/-- The fields of a parsed snapshot. -/
structure Snapshot where
  version : ℕ
  bidValid : Bool
  askValid : Bool
  spreadValid : Bool
  bidPx : ℕ
  bidSh : ℕ
  askPx : ℕ
  askSh : ℕ
  totBid : ℕ
  totAsk : ℕ
  vwapNum : ℕ
  vwapDen : ℕ
  trades : ℕ
  spread : ℕ
  bandBase : ℕ
  bandDrops : ℕ
  msgTotal : ℕ
  mc : List ℕ
  frameErrs : ℕ
  tblInsFails : ℕ
  deriving DecidableEq, Repr

/-- `struct.unpack_from("<I", payload, o)`. -/
def u32 (payload : List UInt8) (o : ℕ) : ℕ := LittleEndian.ofBytes ((payload.drop o).take 4)

/-- `struct.unpack_from("<Q", payload, o)`. -/
def u64 (payload : List UInt8) (o : ℕ) : ℕ := LittleEndian.ofBytes ((payload.drop o).take 8)

/-- `parse_snapshot`. -/
def parseSnapshot (payload : List UInt8) : Except HostError Snapshot :=
  if payload.length ≠ snapBytes then .error .assertionError
  else
    let flags := payload.getD 1 0
    .ok {
      version := (payload.getD 0 0).toNat
      bidValid := flags &&& 1 != 0
      askValid := flags &&& 2 != 0
      spreadValid := flags &&& 4 != 0
      bidPx := u32 payload 4
      bidSh := u32 payload 8
      askPx := u32 payload 12
      askSh := u32 payload 16
      totBid := u64 payload 20
      totAsk := u64 payload 28
      vwapNum := u64 payload 36
      vwapDen := u64 payload 44
      trades := u64 payload 52
      spread := u32 payload 60
      bandBase := u32 payload 64
      bandDrops := u32 payload 68
      msgTotal := u64 payload 72
      mc := (List.range 9).map fun i => u32 payload (80 + 4 * i)
      frameErrs := u32 payload 116
      tblInsFails := u32 payload 120 }

/-- The variables of `read_snapshot`: `state`, `buf` and `ftype`. -/
structure Reader where
  state : ℕ := 0
  buf : List UInt8 := []
  ftype : UInt8 := 0

/-- The loop of `read_snapshot`. -/
def readLoop (r : Reader) : List (Option UInt8) → Except HostError (Option Snapshot)
  | [] => .ok none
  | none :: reads => readLoop r reads
  | some v :: reads =>
    match r.state with
    | 0 => readLoop { r with state := if v = 0xA5 then 1 else 0 } reads
    | 1 => readLoop { r with state := if v = 0x5A then 2 else if v = 0xA5 then 1 else 0 } reads
    | 2 => readLoop { ftype := v, buf := [], state := 3 } reads
    | _ =>
      let buf := r.buf ++ [v]
      if buf.length = snapBytes + 1 then
        if r.ftype = tSnapresp ∧ buf.getD snapBytes 0 = csum8 (r.ftype :: buf.take snapBytes) then
          (parseSnapshot (buf.take snapBytes)).map some
        else readLoop { r with buf := buf, state := 0 } reads
      else readLoop { r with buf := buf } reads

/-- `read_snapshot` on what the reads before the deadline returned. -/
def readSnapshot (reads : List (Option UInt8)) : Except HostError (Option Snapshot) :=
  readLoop {} reads

end ItchOrderbook.ObHost
