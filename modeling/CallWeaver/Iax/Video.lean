import CallWeaver.Iax.Decryption
import CallWeaver.Iax.TrunkTimestamps

/-! # Video mini frames

A video frame is sent in a short form as long as the upper bits of its timestamp are those of the
frame before it. The receiver takes the mark from the header of a video frame, but reads the
timestamp through that of a voice mini frame, where the call number stands.
-/

namespace CallWeaver.Iax.Video

open List
open Encryption (CallKey decryptFrame decodeResult_cases tryKeys_cases Decoded)
open Trunk (bufSize unwrapTimestamp unwrapTimestamp_eq)

structure TxCall where
  callno : ℕ
  trunk : Bool
  lastsent : ℕ
  svideoformat : BitVec 32
  deriving DecidableEq, Repr

/-- A video frame. The lowest bit of its subclass is the mark. -/
structure Frame where
  ts : ℕ
  subclass : BitVec 32
  data : List UInt8
  deriving DecidableEq, Repr

def videoMini (callno ts : ℕ) (mark : Bool) (data : List UInt8) : List UInt8 :=
  htons 0 ++ htons (0x8000 ||| callno) ++
    htons (ts &&& 0x7FFF ||| if mark then 0x8000 else 0) ++ data

/-- For a frame that goes out as a video mini frame. It is copied to a buffer of 4096 bytes; of a
longer one, the rest is sent from `behind` it. -/
def iax2Send (pvt : TxCall) (f : Frame) (behind : List UInt8) : Option (List UInt8) :=
  if f.ts &&& 0xFFFF8000 = pvt.lastsent &&& 0xFFFF8000 ∧ f.subclass &&& ~~~1 = pvt.svideoformat ∧
    pvt.trunk = false then
    some (videoMini pvt.callno f.ts (f.subclass.getLsbD 0)
      ((f.data.take bufSize ++ behind).take f.data.length))
  else none

structure RxCall where
  encrypted : Bool
  key : CallKey
  videoformat : BitVec 32
  started : Bool
  last : ℕ

def isVideo (buf : List UInt8) : Bool :=
  6 ≤ buf.length && ntohs (buf.getD 0 0) (buf.getD 1 0) = 0 &&
    ntohs (buf.getD 2 0) (buf.getD 3 0) &&& 0x8000 ≠ 0

/-- The frame that `schedule_delivery` hands up. The timestamp is `mh->ts`, where `vh->callno`
stands. -/
def handUp (call : RxCall) (buf : List UInt8) : Frame where
  ts := unwrapTimestamp call.last
    (call.last &&& 0xFFFF8000 ||| ntohs (buf.getD 2 0) (buf.getD 3 0) &&& 0x7FFF)
  subclass := call.videoformat |||
    if ntohs (buf.getD 4 0) (buf.getD 5 0) &&& 0x8000 ≠ 0 then 1 else 0
  data := buf.drop 6

/-- `socket_read` of a video mini frame for the call. -/
def socketRead (call : RxCall) (packet : List UInt8) : Option Frame :=
  let buf := packet.take bufSize
  if isVideo buf then
    let d := if call.encrypted then (decryptFrame call.key (0, 0) buf).1 else ⟨0, (0, 0), buf⟩
    if d.res = 0 ∧ (0 : BitVec 32).slt call.videoformat ∧ call.started then
      some (handUp call d.packet)
    else none
  else none

/-- A receiver that can take the frame: it knows the format, and the upper bits of the timestamp. -/
structure RxCall.Ready (call : RxCall) (f : Frame) : Prop where
  videoformat : call.videoformat = f.subclass &&& ~~~1
  positive : (0 : BitVec 32).slt call.videoformat
  started : call.started = true
  last : call.last < 4294967296
  upper : call.last &&& 0xFFFF8000 = f.ts &&& 0xFFFF8000

section Fields

variable {last ts n : ℕ}

theorem and_upper (h : n < 4294967296) :
    n &&& 0xFFFF8000 = n / 32768 * 32768 := and_high_bits 15 17 h

theorem and_lower (n : ℕ) : n &&& 0x7FFF = n % 32768 := Nat.and_two_pow_sub_one_eq_mod n 15

theorem and_flag (h : n < 65536) : n &&& 0x8000 = n / 32768 * 32768 := and_high_bits 15 1 h

theorem or_flag (h : n < 32768) :
    0x8000 ||| n = 32768 + n := (Nat.two_pow_add_eq_or_of_lt (i := 15) h 1).symm

theorem upper_or_lower (a : ℕ) (h : n < 32768) : a * 32768 ||| n = a * 32768 + n := by
  rw [Nat.mul_comm a]
  exact (Nat.two_pow_add_eq_or_of_lt (i := 15) h a).symm

theorem or_mark (x : BitVec 32) : x &&& ~~~1 ||| (if x.getLsbD 0 then 1 else 0) = x := by
  ext i hi
  rw [BitVec.getElem_or, BitVec.getElem_and, BitVec.getElem_not]
  by_cases h : i = 0
  · subst h
    cases hx : x.getLsbD 0 <;> simp_all
  · cases hx : x.getLsbD 0 <;> simp_all

theorem unwrap_eq_iff (hlast : last < 4294967296) (hts : ts < 4294967296) (hn : n < 32768)
    (hupper : last &&& 0xFFFF8000 = ts &&& 0xFFFF8000) :
    unwrapTimestamp last (last &&& 0xFFFF8000 ||| n) = ts ↔ n = ts &&& 0x7FFF := by
  rw [and_upper hlast, and_upper hts] at hupper
  rw [and_upper hlast, and_lower, upper_or_lower _ hn, unwrapTimestamp_eq hlast (by omega)]
  split_ifs <;> omega

end Fields

variable {pvt : TxCall} {call : RxCall} {f : Frame} {packet behind : List UInt8} {callno : ℕ}

theorem isVideo_videoMini (h : callno < 32768) (ts : ℕ) (mark : Bool) (data : List UInt8) :
    isVideo (videoMini callno ts mark data) = true := by
  have hflag : (32768 + callno) % 65536 &&& 0x8000 ≠ 0 := by
    rw [and_flag (Nat.mod_lt _ (by decide))]
    omega
  simp only [isVideo, videoMini, htons, cons_append, nil_append, getD_cons_zero,
    getD_cons_succ, ntohs_htons, or_flag h, length_cons]
  simp [hflag]

theorem mark_videoMini (ts : ℕ) (mark : Bool) :
    (ts &&& 0x7FFF ||| if mark then 0x8000 else 0) % 65536 &&& 0x8000 ≠ 0 ↔ mark = true := by
  have hlow : ts % 32768 < 32768 := Nat.mod_lt _ (by decide)
  rw [and_lower, Nat.or_comm, and_flag (Nat.mod_lt _ (by decide))]
  cases mark with
  | true =>
    refine iff_of_true ?_ rfl
    rw [if_pos rfl, or_flag hlow]
    omega
  | false =>
    refine iff_of_false ?_ (by decide)
    rw [if_neg (by decide), Nat.zero_or]
    omega

theorem handUp_videoMini (h : callno < 32768) (ts : ℕ) (mark : Bool) (data : List UInt8) :
    handUp call (videoMini callno ts mark data) =
      ⟨unwrapTimestamp call.last (call.last &&& 0xFFFF8000 ||| callno),
        call.videoformat ||| if mark then 1 else 0, data⟩ := by
  have hlow : (32768 + callno) % 65536 &&& 0x7FFF = callno := by
    rw [and_lower]
    omega
  simp only [handUp, videoMini, htons, cons_append, nil_append, getD_cons_zero,
    getD_cons_succ, ntohs_htons, or_flag h, hlow, mark_videoMini, drop_succ_cons, drop_zero]

theorem payload_eq_iff (data behind : List UInt8) :
    ((data.take bufSize ++ behind).take data.length).take 4090 = data ↔ data.length ≤ 4090 := by
  constructor
  · intro h
    have hlen := congrArg List.length h
    rw [length_take] at hlen
    omega
  · intro h
    rw [take_of_length_le (l := data) (by rw [bufSize]; omega), take_left, take_of_length_le h]

theorem decryptFrame_shorter (key : CallKey) (f : ℕ × BitVec 32) (buf : List UInt8)
    (h : (decryptFrame key f buf).1.res = 0) :
    (decryptFrame key f buf).1.packet.length + 16 ≤ buf.length := by
  have hdecode : ∀ aes, (Encryption.decodeResult aes f buf).res = 0 →
      (Encryption.decodeResult aes f buf).packet.length + 16 ≤ buf.length := by
    intro aes hres
    rcases decodeResult_cases aes f buf with ⟨hnone, -⟩ | ⟨-, -, -, hlen⟩
    · simp [hnone] at hres
    · exact hlen
  unfold decryptFrame at h ⊢
  split_ifs at h ⊢
  · exact hdecode _ h
  · rcases tryKeys_cases f buf key.candidates key with ⟨heq, -⟩ | ⟨aes, -, -, -, heq⟩
    · simp [heq] at h
    · rw [heq] at h ⊢
      exact hdecode aes h

/-- A video mini frame is handed up as it was sent if and only if the call is not encrypted, the low
bits of its timestamp happen to be the call number, and the packet fits the buffer of the receiver.
-/
theorem video_mini_iff (hsend : iax2Send pvt f behind = some packet) (hcall : call.Ready f)
    (hcallno : pvt.callno < 32768) (hts : f.ts < 4294967296) :
    socketRead call packet = some f ↔ call.encrypted = false ∧ pvt.callno = f.ts &&& 0x7FFF ∧
      f.data.length ≤ 4090 := by
  obtain ⟨hformat, hpositive, hstarted, hlast, hupper⟩ := hcall
  unfold iax2Send at hsend
  split at hsend
  case isFalse => cases hsend
  cases hsend
  have hbuf : ∀ data, (videoMini pvt.callno f.ts (f.subclass.getLsbD 0) data).take bufSize =
      videoMini pvt.callno f.ts (f.subclass.getLsbD 0) (data.take 4090) := fun _ => rfl
  simp only [socketRead, hbuf, isVideo_videoMini hcallno, if_true, hpositive, hstarted, and_true]
  cases hencrypted : call.encrypted with
  | true =>
    refine iff_of_false (fun h => ?_) nofun
    simp only [if_true] at h
    split at h
    case isFalse => cases h
    rename_i hres
    -- what is left after decryption has fewer bytes than the frame
    have hshort := decryptFrame_shorter _ _ _ hres
    have hdata := congrArg (List.length ∘ Frame.data) (Option.some.inj h)
    simp only [Function.comp_apply, handUp, length_drop] at hdata
    simp only [videoMini, length_append, length_htons, length_take] at hshort hdata
    omega
  | false =>
    simp only [Bool.false_eq_true, if_false, if_true, handUp_videoMini hcallno, hformat, or_mark,
      Option.some.injEq, true_and]
    rw [← unwrap_eq_iff hlast hts hcallno hupper, ← payload_eq_iff f.data behind]
    constructor
    · intro h
      exact ⟨congrArg Frame.ts h, congrArg Frame.data h⟩
    · rintro ⟨h₁, h₂⟩
      rw [h₁, h₂]

def sender : TxCall := ⟨5, false, 1, 1 <<< 18⟩

def receiver : RxCall := ⟨false, ⟨false, .plain, []⟩, 1 <<< 18, true, 1⟩

def marked (ts : ℕ) : Frame := ⟨ts, 1 <<< 18 ||| 1, [7]⟩

theorem video_mini_iff_number : socketRead receiver (videoMini 5 5 true [7]) = some (marked 5) :=
  (video_mini_iff (show iax2Send sender (marked 5) [] = _ by decide)
    ⟨by decide, by decide, rfl, by decide, by decide⟩ (by decide) (by decide)).mpr (by decide)

theorem video_timestamp_lost : iax2Send sender (marked 20) [] = some (videoMini 5 20 true [7]) ∧
    socketRead receiver (videoMini 5 20 true [7]) = some (marked 5) := by
  decide

end CallWeaver.Iax.Video
