import CallWeaver.Base.Bytes

/-! # Encrypted frames

Behind the call numbers, a frame of an encrypted call is a sequence of chained cipher blocks. At
least a block of random bytes stands before the frame; the low half of the sixteenth says how many
more there are. A full frame is kept and sent again with a new `iseqno` until it is acknowledged.
-/

namespace CallWeaver.Iax.Encryption

def compressSubclass (subclass : BitVec 32) : UInt8 :=
  if subclass.slt 0x80 then UInt8.ofBitVec (subclass.setWidth 8)
  else match (List.range 0x1F).filter (subclass.getLsbD ·) with
    | [] => 0xFF
    | [power] => UInt8.ofNat (power ||| 0x80)
    | _ => 0

def uncompressSubclass (csub : UInt8) : BitVec 32 :=
  if csub &&& 0x80 ≠ 0 then
    if csub = 0xFF then -1 else (1 : BitVec 32) <<< (csub &&& 0x7F &&& 0x1F).toNat
  else csub.toBitVec.setWidth 32

def frameVideo : ℕ := 3

def packSubclass (frametype : ℕ) (subclass : BitVec 32) : UInt8 :=
  if frametype = frameVideo then
    compressSubclass (subclass &&& ~~~1) ||| UInt8.ofBitVec ((subclass &&& 1).setWidth 8) <<< 6
  else compressSubclass subclass

def unpackSubclass (frametype : ℕ) (csub : UInt8) : BitVec 32 :=
  if frametype = frameVideo then
    uncompressSubclass (csub &&& ~~~0x40) ||| (csub >>> 6 &&& 1).toBitVec.setWidth 32
  else uncompressSubclass csub

abbrev Block := Fin 16 → UInt8

structure Aes where
  encrypt : Block → Block
  decrypt : Block → Block
  decrypt_encrypt : ∀ b, decrypt (encrypt b) = b

def xorBlock (a b : Block) : Block := fun x => a x ^^^ b x

def encryptRounds (aes : Aes) : ℕ → Block → List UInt8 → List UInt8
  | 0, _, _ => []
  | n + 1, curblock, src =>
    let curblock := aes.encrypt (xorBlock curblock (blockAt 0 src))
    List.ofFn curblock ++ encryptRounds aes n curblock (src.drop 16)

def memcpyEncrypt (aes : Aes) (src : List UInt8) : List UInt8 :=
  encryptRounds aes ((src.length + 15) / 16) (fun _ => 0) src

def decryptRounds (aes : Aes) : ℕ → Block → List UInt8 → List UInt8
  | 0, _, _ => []
  | n + 1, lastblock, src =>
    List.ofFn (xorBlock (aes.decrypt (blockAt 0 src)) lastblock) ++
      decryptRounds aes n (blockAt 0 src) (src.drop 16)

def memcpyDecrypt (aes : Aes) (src : List UInt8) : List UInt8 :=
  decryptRounds aes ((src.length + 15) / 16) (fun _ => 0) src

/-- The flag `IAX_FLAG_FULL` in the first field of a packet. -/
def isFull (packet : List UInt8) : Bool := ntohs (packet.getD 0 0) (packet.getD 1 0) &&& 0x8000 ≠ 0

/-- The padding of `encrypt_frame`. -/
def paddingOf (len : ℕ) : ℕ := 16 + ((16 - len % 16) &&& 0xF)

/-- What `encrypt_frame` encrypts. -/
def workspace (poo body : List UInt8) : List UInt8 :=
  let bytes := poo.take (paddingOf body.length) ++ body
  bytes.set 15 (bytes.getD 15 0 &&& 0xF0 ||| UInt8.ofNat (paddingOf body.length &&& 0xF))

/-- The header in the clear is a `cw_iax2_full_enc_hdr` or a `cw_iax2_mini_enc_hdr`; the last of the
new random bytes are what stands behind the workspace. -/
def encryptFrame (aes : Aes) (packet poo behind : List UInt8) : List UInt8 × List UInt8 :=
  let hdr := if isFull packet then 4 else 2
  let bytes := workspace poo (packet.drop hdr)
  let datalen := hdr + bytes.length
  (packet.take hdr ++ memcpyEncrypt aes bytes,
    if datalen ≥ 32 + hdr then ((bytes ++ behind).drop (datalen - 32)).take 32 else poo)

/-- The decryption of a packet behind the first `enc` bytes, with a header of `hdr` bytes. -/
def decodeBody (aes : Aes) (enc hdr : ℕ) (packet : List UInt8) : Option (List UInt8) :=
  if packet.length < 16 + hdr then none
  else
    let bytes := memcpyDecrypt aes (packet.drop enc)
    let padding := 16 + (bytes.getD 15 0 &&& 0xF).toNat
    if packet.length < padding + hdr then none
    else some (packet.take enc ++ (bytes.drop padding).take (packet.length - padding - enc))

/-- The type and the subclass in the header of a full frame. -/
def fullType (packet : List UInt8) : ℕ × BitVec 32 :=
  let frametype := (packet.getD 10 0).toNat
  (frametype, unpackSubclass frametype (packet.getD 11 0))

def decodeFrame (aes : Aes) (packet : List UInt8) (f : ℕ × BitVec 32) :
    Option ((ℕ × BitVec 32) × List UInt8) :=
  if isFull packet then (decodeBody aes 4 12 packet).map fun packet => (fullType packet, packet)
  else (decodeBody aes 2 4 packet).map fun packet => (f, packet)

structure Received where
  frametype : ℕ
  subclass : BitVec 32
  ts : ℕ
  oseqno : UInt8
  data : List UInt8
  deriving DecidableEq, Repr

/-- A full frame, as `socket_read` reads it. -/
def receiveFull (aes : Aes) (packet : List UInt8) : Option Received :=
  (decodeFrame aes packet (fullType packet)).map fun p =>
    { frametype := p.1.1, subclass := p.1.2
      ts := ntohl (p.2.getD 4 0) (p.2.getD 5 0) (p.2.getD 6 0) (p.2.getD 7 0)
      oseqno := p.2.getD 8 0, data := p.2.drop 12 }

structure Frame where
  frametype : ℕ
  subclass : BitVec 32
  data : List UInt8
  deriving DecidableEq, Repr

structure Pvt where
  callno : ℕ
  peercallno : ℕ
  transfercallno : ℕ
  oseqno : UInt8
  iseqno : UInt8
  aseqno : UInt8
  semirand : List UInt8
  deriving DecidableEq, Repr

structure IaxFrame where
  data : List UInt8
  dcallno : ℕ
  oseqno : UInt8
  iseqno : UInt8
  retries : ℤ
  deriving DecidableEq, Repr

def fullBody (ts : ℕ) (oseqno iseqno : UInt8) (f : Frame) : List UInt8 :=
  htonl ts ++ [oseqno, iseqno, UInt8.ofNat f.frametype,
    packSubclass f.frametype f.subclass] ++ f.data

/-- For a full frame of an encrypted call whose key is there. -/
def iax2Send (aes : Aes) (pvt : Pvt) (f : Frame) (fts : ℕ) (seqno : Option UInt8) (transfer : Bool)
    (behind : List UInt8) : Pvt × IaxFrame :=
  let oseqno := seqno.getD pvt.oseqno
  let dcallno := if transfer then pvt.transfercallno else pvt.peercallno
  let packet := htons (pvt.callno ||| 0x8000) ++ htons dcallno ++
    fullBody fts oseqno (if transfer then 0 else pvt.iseqno) f
  let (data, semirand) := encryptFrame aes packet pvt.semirand behind
  ({ pvt with
      oseqno := if seqno.isNone then pvt.oseqno + 1 else pvt.oseqno
      aseqno := if transfer then pvt.aseqno else pvt.iseqno
      semirand := semirand },
    -- an acknowledgement (`IAX_COMMAND_ACK` of `CW_FRAME_IAX`) is not sent again
    { data := data, dcallno := dcallno, oseqno := oseqno, iseqno := pvt.iseqno,
      retries := if f.frametype = 6 ∧ f.subclass = 4 then -1 else 0 })

def updatePacket (iseqno : UInt8) (f : IaxFrame) : IaxFrame :=
  let data := f.data.take 2 ++ htons (0x8000 ||| f.dcallno) ++ f.data.drop 4
  { f with data := data.set 9 iseqno, iseqno := iseqno }

/-- With the `iseqno` of the call if that still exists: the frame, unless it is freed, and the
packet that is sent. -/
def attemptTransmit (maxRetries : ℤ) (call : Option UInt8) (f : IaxFrame) :
    Option IaxFrame × Option (List UInt8) :=
  match call with
  | none => (none, none)
  | some iseqno =>
    if f.retries < 0 ∨ f.retries ≥ maxRetries then (none, none)
    else
      let f := updatePacket iseqno f
      (some { f with retries := f.retries + 1 }, some f.data)

structure Pending where
  frame : Option IaxFrame
  sent : List (List UInt8)
  deriving DecidableEq, Repr

inductive Op where
  | attempt (call : Option UInt8)
  | ack
  deriving DecidableEq, Repr

def step (maxRetries : ℤ) (s : Pending) : Op → Option Pending
  | .attempt call => s.frame.map fun f =>
      let (frame, packet) := attemptTransmit maxRetries call f
      ⟨frame, s.sent ++ packet.toList⟩
  | .ack => some { s with frame := s.frame.map ({ · with retries := -1 }) }

end CallWeaver.Iax.Encryption
