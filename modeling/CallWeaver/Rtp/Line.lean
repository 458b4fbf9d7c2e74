import CallWeaver.Base.Runs
import CallWeaver.Rtp.Events

/-! # A line between two sessions

`cw_rtp_raw_write` sends a packet of audio for each frame, and while a telephone event is being
sent, a packet of it in front. An event ends with the first frame that reaches its duration, and its
end packet is sent three times. Another session reads each packet as it is sent.
-/

namespace CallWeaver.Rtp

open List Function

/-- What a session keeps for sending. The words of the event have the event in the bits from 24 on,
the volume in those from 16 on, the end in bit 23 and the duration below; bit 22 marks the third end
packet. -/
structure Sender where
  ssrc : UInt32
  lastts : UInt32
  lastovidtimestamp : UInt32
  txcore : Timeval
  dtmfmute : Timeval
  seqno : UInt16
  /-- the payload type of telephone events, with which the peer was told to expect them -/
  dtmfPt : Fin 128
  sendevent : ℕ
  startts : UInt32
  duration : UInt16
  payload : ℕ
  eventSeqno : UInt16

structure OutFrame where
  subclass : ℕ
  samples : UInt32
  samplerate : UInt32
  delivery : Timeval
  /-- the time of the frame in milliseconds, if it has timing information -/
  ts : Option UInt32
  data : List UInt8

/-- `strchr` finds the terminating zero too. There is no result for an unknown event. -/
def cwRtpSendevent (s : Sender) (event : UInt8) (duration : UInt16) : Option Sender :=
  if toupper event ∈ eventcodes ++ [0] then
    some { s with
      sendevent :=
        (eventcodes ++ [0]).idxOf (toupper event) * 0x1000000 + 0xA0000 + duration.toNat }
  else none

def calcTxstamp (txcore now delivery : Timeval) : UInt32 × Timeval :=
  let txcore := if cwTvzero txcore then ⟨now.sec, now.usec - now.usec.tmod 20000⟩ else txcore
  let t := if cwTvzero delivery then now else delivery
  (UInt32.ofInt (cwTvdiffMs t txcore), t)

def maxTimestampSkew : ℕ := 640

def skew (a b : UInt32) : ℕ := (a - b).toInt32.toInt.natAbs

/-- The new `lastts` and `lastovidtimestamp` by the clock, and whether the packet is marked. A frame
close to the prediction is taken to be there. -/
def clockStamp (s : Sender) (f : OutFrame) (ms : UInt32) : UInt32 × UInt32 × Bool :=
  if f.subclass < formatMaxAudio then
    let pred := s.lastts + f.samples
    let lastts := s.lastts + ms * 8
    if cwTvzero f.delivery then
      if skew lastts pred < maxTimestampSkew then (pred, s.lastovidtimestamp, false)
      else (lastts, s.lastovidtimestamp, true)
    else (lastts, s.lastovidtimestamp, false)
  else
    let pred := s.lastovidtimestamp + f.samples
    let lastts := s.lastts + ms * 90
    let mark := f.subclass % 2 = 1
    if cwTvzero f.delivery then
      if skew lastts pred < 7200 then (pred, s.lastovidtimestamp + f.samples, mark)
      else (lastts, lastts, mark)
    else (lastts, s.lastovidtimestamp, mark)

def nextStamp (s : Sender) (f : OutFrame) (now : Timeval) : UInt32 :=
  match f.ts with
  | some ts => ts * 8
  | none => (clockStamp s f (calcTxstamp s.txcore now f.delivery).1).1

def stamp (s : Sender) (f : OutFrame) (now : Timeval) : Sender × Bool :=
  let (ms, txcore) := calcTxstamp s.txcore now f.delivery
  let (_, lastovidtimestamp, mark) := clockStamp s f ms
  ({ s with txcore := txcore, lastts := nextStamp s f now, lastovidtimestamp := lastovidtimestamp },
    mark)

/-- The sequence number, the payload type and the marker stand below the version. -/
def rtpHeader (pt : Fin 128) (mark : Bool) (seqno : UInt16) : ℕ :=
  0x80000000 + (if mark then 0x800000 else 0) + pt.val * 0x10000 + seqno.toNat

def datagram (pt : Fin 128) (mark : Bool) (seqno : UInt16) (timestamp ssrc : UInt32)
    (data : List UInt8) : List UInt8 :=
  htonl (rtpHeader pt mark seqno) ++ htonl timestamp.toNat ++ htonl ssrc.toNat ++ data

/-- The duration of an event in samples, in `cw_rtp_senddigit_continue`. -/
def eventSamples (s : Sender) (samplerate : UInt32) : UInt16 :=
  (UInt32.ofNat (s.sendevent % 0x10000) * samplerate / 1000).toUInt16

/-- The start of an event in `cw_rtp_senddigit_continue`. -/
def startEvent (s : Sender) (samplerate : UInt32) : Sender :=
  let duration := eventSamples s samplerate
  { s with
    startts := s.lastts
    duration := duration
    payload := s.sendevent / 0x10000 * 0x10000 + duration.toNat
    sendevent := 0 }

/-- The packet of an event in `cw_rtp_senddigit_continue`. -/
def continueEvent (s : Sender) (samples : UInt32) : ℕ × Sender :=
  if s.payload / 0x400000 % 2 = 1 then (s.payload - 0x400000, { s with payload := 0 })
  else if s.payload / 0x800000 % 2 = 1 then (s.payload, { s with payload := s.payload + 0x400000 })
  else
    let s := { s with eventSeqno := s.seqno, seqno := s.seqno + 1 }
    if s.lastts - s.startts + samples ≥ s.duration.toUInt32 then
      (s.payload + 0x800000, { s with payload := s.payload + 0x800000 })
    else (s.payload, s)

def beginEvent (s : Sender) (f : OutFrame) (now : Timeval) : Sender :=
  let s := { s with dtmfmute := cwTvadd now ⟨0, 500000⟩ }
  if s.sendevent = 0 then s else startEvent s f.samplerate

def cwRtpSenddigitContinue (s : Sender) (f : OutFrame) (now : Timeval) : List UInt8 × Sender :=
  let mark : Bool := s.sendevent ≠ 0
  let (word, s) := continueEvent (beginEvent s f now) f.samples
  (datagram s.dtmfPt mark s.eventSeqno s.startts s.ssrc (htonl word), s)

/-- The datagrams that are sent for a frame, that of an event first. -/
structure Written where
  event : Option (List UInt8)
  audio : List UInt8

def cwRtpRawWrite (s : Sender) (f : OutFrame) (now : Timeval) (codec : Fin 128) :
    Written × Sender :=
  let (s, mark) := stamp s f now
  let (event, s) :=
    if s.payload ≠ 0 ∨ s.sendevent ≠ 0 then
      let (d, s) := cwRtpSenddigitContinue s f now
      (some d, s)
    else (none, s)
  (⟨event, datagram codec mark s.seqno s.lastts s.ssrc f.data⟩, { s with seqno := s.seqno + 1 })

section Parsing

def Frame.digits : Frame → List Frame
  | .dtmf code => [.dtmf code]
  | .flash => [.flash]
  | _ => []

variable {p : Platform} {s : Session} {pt : Fin 128} {mark changed : Bool} {seqno : UInt16}
  {timestamp ssrc : UInt32}
  {data : List UInt8} {now : Timeval} {word : ℕ}

theorem received_datagram (pt : Fin 128) (mark : Bool) (seqno : UInt16) (timestamp ssrc : UInt32)
    (data : List UInt8) :
    ∃ cut, Incoming.received (datagram pt mark seqno timestamp ssrc data) =
      datagram pt mark seqno timestamp ssrc cut ∧ (data.length ≤ 4 → cut = data) := by
  refine ⟨data.take 8180, ?_, fun h => take_of_length_le (by omega)⟩
  simp [Incoming.received, datagram, rawdataSize, htonl, htons]

theorem length_datagram :
    (datagram pt mark seqno timestamp ssrc data).length = 12 + data.length := by
  simp [datagram]
  omega

theorem rtpHeader_fields (pt : Fin 128) (mark : Bool) (seqno : UInt16) :
    rtpHeader pt mark seqno / 0x1000000 = 0x80 ∧ rtpHeader pt mark seqno / 0x10000 % 128 = pt.val ∧
      rtpHeader pt mark seqno % 0x10000 = seqno.toNat := by
  have hseq := seqno.toNat_lt
  rw [rtpHeader]
  split <;> omega

theorem headerWord_datagram (old : ℕ → UInt8) (pt : Fin 128) (mark : Bool) (seqno : UInt16)
    (timestamp ssrc : UInt32) (data : List UInt8) :
    headerWord (recvInto old (datagram pt mark seqno timestamp ssrc data)) 0 =
      rtpHeader pt mark seqno ∧
      headerWord (recvInto old (datagram pt mark seqno timestamp ssrc data)) 4 =
      timestamp.toNat := by
  obtain ⟨hfirst, -, -⟩ := rtpHeader_fields pt mark seqno
  have hts := timestamp.toNat_lt
  simp only [headerWord, recvInto, datagram, htonl, htons, ntohl, ntohs]
  constructor
  · simp
    omega
  · simp
    omega

variable (p : Platform)

theorem readPacket_datagram (now : Timeval) (old : ℕ → UInt8) (res : ℕ)
    (h : s.rawdata = recvInto old (datagram pt mark seqno timestamp ssrc data)) :
    ∃ mark : Bool, readPacket p s now res =
      if (s.lookupPt pt).isCwFormat then
        codecFrame p s now (s.lookupPt pt).code 12 (res - (12 : ℕ)) seqno.toNat timestamp mark
      else specialFrame p s (sooner now s.dtmfmute) (s.lookupPt pt).code 12 (res - (12 : ℕ))
      seqno.toNat timestamp := by
  obtain ⟨hword, hstamp⟩ := headerWord_datagram old pt mark seqno timestamp ssrc data
  obtain ⟨hfirst, hpt, hseq⟩ := rtpHeader_fields pt mark seqno
  rw [← h] at hword hstamp
  have hextent : extent s.rawdata res = some ((res : ℤ), 12) := by
    simp only [extent, hword]
    rw [if_neg (by omega), if_neg (by omega), if_neg (by omega)]
    rw [show rtpHeader pt mark seqno / 0x1000000 % 16 = 0 by omega]
  refine ⟨decide (rtpHeader pt mark seqno / 0x800000 % 2 = 1), ?_⟩
  simp only [readPacket, hword, hstamp, hextent, hpt, hseq, UInt32.ofNat_toNat]
  rw [if_neg (by omega)]

structure Took (s : Session) (out : List Frame) (e : LastEvent) (r : Frame × Session) : Prop where
  digits : r.1.digits = out
  event : r.2.event = e
  lookupPt : r.2.lookupPt = s.lookupPt
  dtmfmute : r.2.dtmfmute = s.dtmfmute

def hearAudio (dtmftimeout : UInt32) (e : LastEvent) (timestamp : UInt32) :
    List Frame × LastEvent :=
  if e.code ≠ 0 ∧ timestamp - e.startts > dtmftimeout then ([frameOf e.code], { e with code := 0 })
  else ([], e)

theorem digits_frameOf (code : UInt8) : (frameOf code).digits = [frameOf code] := by
  unfold frameOf
  split <;> rfl

theorem digits_process (e : LastEvent) (q : EventPacket) :
    ((process e q).1.getD .null).digits = (process e q).1.toList := by
  cases hs : samets e q.timestamp with
  | true =>
    rw [process_same hs]
    split
    · exact digits_frameOf _
    · rfl
  | false =>
    rw [process_new hs]
    split
    · exact digits_frameOf _
    · by_cases hc : e.code = 0
      · rw [pending, if_pos hc]
        rfl
      · rw [pending, if_neg hc]
        exact digits_frameOf _

theorem cwRtpRead_datagram (s : Session) (pt : Fin 128) (mark changed : Bool) (seqno : UInt16)
    (timestamp ssrc : UInt32) (data : List UInt8) (now : Timeval) :
    ∃ (s' : Session) (cut : List UInt8) (res : ℕ),
      s'.event = s.event ∧ s'.lookupPt = s.lookupPt ∧ s'.dtmfmute = s.dtmfmute ∧
      s'.rawdata = recvInto s.rawdata (datagram pt mark seqno timestamp ssrc cut) ∧
      (data.length ≤ 4 → cut = data) ∧
      cwRtpRead p s ⟨some (datagram pt mark seqno timestamp ssrc data), true, changed, now⟩ =
      readPacket p s' now res := by
  obtain ⟨cut, hreceived, hcut⟩ := received_datagram pt mark seqno timestamp ssrc data
  have hlong : ¬ (datagram pt mark seqno timestamp ssrc cut).length < 12 := by
    rw [length_datagram]
    omega
  simp only [cwRtpRead, hreceived, if_neg hlong, Bool.not_true, Bool.false_eq_true, if_false]
  split
  · exact ⟨{ s with
      rawdata := recvInto s.rawdata (datagram pt mark seqno timestamp ssrc cut), rxseqno :=
        0, natActive := true },
      cut, _, rfl, rfl, rfl, rfl, hcut, rfl⟩
  · exact ⟨{ s with rawdata := recvInto s.rawdata (datagram pt mark seqno timestamp ssrc cut) },
      cut, _, rfl, rfl, rfl, rfl, hcut, rfl⟩

theorem eventWord_datagram (old : ℕ → UInt8) (h : word < 4294967296) :
    eventWord (recvInto old (datagram pt mark seqno timestamp ssrc (htonl word))) 12 =
      UInt32.ofNat word := by
  have hword : word / 65536 % 65536 * 65536 + word % 65536 = word := by omega
  refine congrArg UInt32.ofNat (Eq.trans ?_ hword)
  simp [recvInto, datagram, htonl, htons, ntohl]

theorem specialFrame_event (s : Session) (hdrlen : ℕ) (len : ℤ) (seqno : UInt16)
    (timestamp : UInt32) : specialFrame p s false rtpDtmf hdrlen len seqno.toNat timestamp =
      ((process s.event ⟨eventWord s.rawdata hdrlen, seqno.toUInt32, timestamp⟩).1.getD .null,
        { s with event := (process s.event ⟨eventWord s.rawdata hdrlen, seqno.toUInt32,
          timestamp⟩).2 }) := by
  have hseq : UInt32.ofNat seqno.toNat = seqno.toUInt32 := by
    rw [← UInt16.toNat_toUInt32, UInt32.ofNat_toNat]
  rw [specialFrame, if_pos rfl, hseq]
  rfl

theorem took_event (mark changed : Bool) (seqno : UInt16) (timestamp ssrc : UInt32)
    (hpt : s.lookupPt pt = ⟨false, rtpDtmf⟩) (hmute : sooner now s.dtmfmute = false)
    (hword : word < 4294967296) :
    Took s (process s.event ⟨UInt32.ofNat word, seqno.toUInt32, timestamp⟩).1.toList
      (process s.event ⟨UInt32.ofNat word, seqno.toUInt32, timestamp⟩).2
      (cwRtpRead p s ⟨some (datagram pt mark seqno timestamp ssrc (htonl word)), true,
        changed, now⟩) := by
  obtain ⟨s', cut, res, hevent, hlookup, hdtmf, hraw, hcut, hread⟩ :=
    cwRtpRead_datagram p s pt mark changed seqno timestamp ssrc (htonl word) now
  rw [hcut (by simp)] at hraw
  obtain ⟨mark', hpacket⟩ := readPacket_datagram p now s.rawdata res hraw
  rw [hread, hpacket, hlookup, hpt, hdtmf, hmute, if_neg (by simp), specialFrame_event, hraw,
    eventWord_datagram s.rawdata hword, hevent]
  have hdigits := digits_process s.event ⟨UInt32.ofNat word, seqno.toUInt32, timestamp⟩
  exact ⟨hdigits, rfl, hlookup, hdtmf⟩

theorem took_media (s : Session) (now : Timeval) (hdrlen : ℕ) (datalen : ℤ) (code seqno : ℕ)
    (timestamp : UInt32) (mark : Bool) :
    Took s [] s.event (voiceFrame p s now hdrlen datalen code seqno timestamp mark) ∧
      Took s [] s.event (videoFrame s hdrlen datalen code seqno timestamp mark) :=
  ⟨⟨rfl, rfl, rfl, rfl⟩, ⟨rfl, rfl, rfl, rfl⟩⟩

theorem took_codecFrame (s : Session) (now : Timeval) (code hdrlen : ℕ) (datalen : ℤ) (seqno : ℕ)
    (timestamp : UInt32) (mark : Bool) (hmute : sooner now s.dtmfmute = false) :
    Took s (hearAudio p.dtmftimeout s.event timestamp).1
      (hearAudio p.dtmftimeout s.event timestamp).2
      (codecFrame p s now code hdrlen datalen seqno timestamp mark) := by
  simp only [codecFrame, hearAudio, hmute, sendDtmf_unmuted]
  split
  · exact ⟨digits_frameOf _, rfl, rfl, rfl⟩
  · split
    · obtain ⟨h₁, h₂, h₃, h₄⟩ := (took_media p { s with
        lastrxformat := code, lastrxts := timestamp, rxseqno := seqno } now hdrlen datalen code
          seqno timestamp mark).1
      exact ⟨h₁, h₂, h₃, h₄⟩
    · obtain ⟨h₁, h₂, h₃, h₄⟩ := (took_media p { s with
        lastrxformat := code, lastrxts := timestamp, rxseqno := seqno } now hdrlen datalen code
          seqno timestamp mark).2
      exact ⟨h₁, h₂, h₃, h₄⟩

theorem took_audio (mark changed : Bool) (seqno : UInt16) (timestamp ssrc : UInt32)
    (data : List UInt8) (hpt : (s.lookupPt pt).isCwFormat = true)
    (hmute : sooner now s.dtmfmute = false) :
    Took s (hearAudio p.dtmftimeout s.event timestamp).1
      (hearAudio p.dtmftimeout s.event timestamp).2
      (cwRtpRead p s ⟨some (datagram pt mark seqno timestamp ssrc data), true, changed, now⟩) := by
  obtain ⟨s', cut, res, hevent, hlookup, hdtmf, hraw, -, hread⟩ :=
    cwRtpRead_datagram p s pt mark changed seqno timestamp ssrc data now
  obtain ⟨mark', hpacket⟩ := readPacket_datagram p now s.rawdata res hraw
  obtain ⟨h₁, h₂, h₃, h₄⟩ :=
    took_codecFrame p s' now (s.lookupPt pt).code 12 (res - (12 : ℕ)) seqno.toNat
    timestamp mark' (hdtmf ▸ hmute)
  rw [hread, hpacket, hlookup, if_pos hpt, ← hevent]
  exact ⟨h₁, h₂, h₃.trans hlookup, h₄.trans hdtmf⟩

end Parsing

/-- A frame of a digit that the receiver has returned, by `process_rfc2833` or instead of a frame of
audio. -/
structure Delivery where
  processed : Bool
  frame : Frame
  deriving DecidableEq, Repr

structure Line where
  snd : Sender
  rcv : Session
  sent : CStr
  log : List Delivery

/-- A call of `cw_rtp_raw_write`, after which the receiver reads a packet of an event and one of
audio. -/
structure Writing where
  frame : OutFrame
  now : Timeval
  codec : Fin 128
  changed : Bool
  read₁ : Timeval
  read₂ : Timeval

inductive Act where
  /-- `cw_rtp_sendevent` -/
  | digit (event : UInt8) (duration : UInt16)
  | write (w : Writing)

def Line.listen (l : Line) (p : Platform) (processed : Bool) (datagram : List UInt8)
    (changed : Bool) (now : Timeval) : Line :=
  let r := cwRtpRead p l.rcv ⟨some datagram, true, changed, now⟩
  { l with rcv := r.2, log := l.log ++ r.1.digits.map (Delivery.mk processed) }

/-- A digit is sent when the one before it is over. The receiver is not muted, and knows the codecs.
-/
def step (p : Platform) (l : Line) : Act → Option Line
  | .digit event duration =>
    if l.snd.sendevent = 0 ∧ l.snd.payload = 0 ∧ event ≠ 0 then
      match cwRtpSendevent l.snd event duration with
      | none => some l
      | some snd => some { l with snd := snd, sent := l.sent ++ [toupper event] }
    else none
  | .write w =>
    if (l.rcv.lookupPt w.codec).isCwFormat ∧ !sooner w.read₁ l.rcv.dtmfmute ∧
      !sooner w.read₂ l.rcv.dtmfmute then
      let r := cwRtpRawWrite l.snd w.frame w.now w.codec
      let l : Line := { l with snd := r.2 }
      let l : Line := match r.1.event with
        | none => l
        | some datagram => l.listen p true datagram w.changed w.read₁
      some (l.listen p false r.1.audio w.changed w.read₂)
    else none

def delivered (all : Bool) (l : Line) : List Frame :=
  (l.log.filter fun d => all || d.processed).map Delivery.frame

structure Fresh (l : Line) : Prop where
  idle : l.snd.sendevent = 0 ∧ l.snd.payload = 0
  startts : l.snd.startts = 0
  duration : l.snd.duration = 0
  event : l.rcv.event = ⟨0, 0, 0, 0⟩
  lookupPt : l.rcv.lookupPt l.snd.dtmfPt = ⟨false, rtpDtmf⟩
  sent : l.sent = []
  log : l.log = []

variable {out out' : List Frame} {e e' : LastEvent}

section Steps

variable {p : Platform} {l l' l₁ l₂ l₃ : Line} {s snd : Sender} {w : Writing}
  {now read₁ read₂ : Timeval} {changed all : Bool}

def begun (s : Sender) (f : OutFrame) (now : Timeval) : Sender := beginEvent (stamp s f now).1 f now

theorem begun_kept (s : Sender) (f : OutFrame) (now : Timeval) :
    (begun s f now).lastts = nextStamp s f now ∧ (begun s f now).ssrc = s.ssrc ∧
      (begun s f now).dtmfPt = s.dtmfPt ∧ (begun s f now).sendevent = 0 := by
  unfold begun beginEvent
  dsimp only
  split
  · exact ⟨rfl, rfl, rfl, ‹_›⟩
  · exact ⟨rfl, rfl, rfl, rfl⟩

variable (f : OutFrame)

theorem begun_continued (now : Timeval) (h : s.sendevent = 0) :
    (begun s f now).startts = s.startts ∧ (begun s f now).duration = s.duration ∧
      (begun s f now).payload = s.payload := by
  have hstamp : (stamp s f now).1.sendevent = 0 := h
  simp only [begun, beginEvent, hstamp, if_true]
  exact ⟨rfl, rfl, rfl⟩

theorem begun_started (now : Timeval) (h : s.sendevent ≠ 0) :
    (begun s f now).startts = nextStamp s f now ∧
      (begun s f now).duration = eventSamples s f.samplerate ∧
      (begun s f now).payload = s.sendevent / 0x10000 * 0x10000 +
      (eventSamples s f.samplerate).toNat := by
  have hstamp : (stamp s f now).1.sendevent ≠ 0 := h
  simp only [begun, beginEvent, if_neg hstamp]
  exact ⟨rfl, rfl, rfl⟩

theorem continueEvent_eq (s : Sender) (samples : UInt32) :
    ∃ seqno eventSeqno, (continueEvent s samples).2 =
      { s with
        seqno := seqno, eventSeqno := eventSeqno, payload :=
  (continueEvent s samples).2.payload } := by
  unfold continueEvent
  split
  · exact ⟨_, _, rfl⟩
  · split
    · exact ⟨_, _, rfl⟩
    · dsimp only
      split
      · exact ⟨_, _, rfl⟩
      · exact ⟨_, _, rfl⟩

theorem cwRtpRawWrite_idle (now : Timeval) (codec : Fin 128) (hs : s.sendevent = 0)
    (hp : s.payload = 0) : ∃ mark seqno s', cwRtpRawWrite s f now codec =
        (⟨none, datagram codec mark seqno (nextStamp s f now) s.ssrc f.data⟩, s') ∧
      s'.sendevent = 0 ∧ s'.payload = 0 ∧ s'.startts = s.startts ∧ s'.duration = s.duration ∧
      s'.dtmfPt = s.dtmfPt := by
  have hidle : ¬ ((stamp s f now).1.payload ≠ 0 ∨ (stamp s f now).1.sendevent ≠ 0) := by
    rintro (h | h)
    · exact h hp
    · exact h hs
  rw [cwRtpRawWrite]
  simp only [if_neg hidle]
  exact ⟨_, _, _, rfl, hs, hp, rfl, rfl, rfl⟩

theorem cwRtpRawWrite_busy (now : Timeval) (codec : Fin 128) (h : s.payload ≠ 0 ∨ s.sendevent ≠ 0) :
    ∃ mark mark' seqno seqno' s', cwRtpRawWrite s f now codec =
        (⟨some (datagram s.dtmfPt mark seqno (begun s f now).startts s.ssrc
            (htonl (continueEvent (begun s f now) f.samples).1)),
          datagram codec mark' seqno' (nextStamp s f now) s.ssrc f.data⟩, s') ∧
      s'.sendevent = 0 ∧ s'.payload = (continueEvent (begun s f now) f.samples).2.payload ∧
      s'.startts = (begun s f now).startts ∧ s'.duration = (begun s f now).duration ∧
      s'.dtmfPt = s.dtmfPt := by
  obtain ⟨hlastts, hssrc, hdtmfPt, hsent⟩ := begun_kept s f now
  obtain ⟨seqno, eventSeqno, hcontinue⟩ := continueEvent_eq (begun s f now) f.samples
  have hbusy : (stamp s f now).1.payload ≠ 0 ∨ (stamp s f now).1.sendevent ≠ 0 := h
  rw [cwRtpRawWrite]
  simp only [if_pos hbusy, cwRtpSenddigitContinue]
  rw [show beginEvent (stamp s f now).1 f now = begun s f now from rfl, hcontinue]
  rw [hlastts, hssrc, hdtmfPt]
  exact ⟨_, _, _, _, _, rfl, hsent, rfl, rfl, rfl, rfl⟩

/-- What a step does to the receiver: it returns the frames of digits `out` and is left with `e`. -/
structure Heard (all : Bool) (l : Line) (out : List Frame) (e : LastEvent) (l' : Line) : Prop where
  sent : l'.sent = l.sent
  event : l'.rcv.event = e
  lookupPt : l'.rcv.lookupPt l'.snd.dtmfPt = l.rcv.lookupPt l.snd.dtmfPt
  delivered : delivered all l' = delivered all l ++ out

theorem Heard.trans (h : Heard all l₁ out e l₂) (h' : Heard all l₂ out' e' l₃) :
    Heard all l₁ (out ++ out') e' l₃ := by
  refine ⟨h'.sent.trans h.sent, h'.event, h'.lookupPt.trans h.lookupPt, ?_⟩
  rw [h'.delivered, h.delivered, append_assoc]

variable (all : Bool) {d d' audio : List UInt8}

theorem heard_send (h : snd.dtmfPt = l.snd.dtmfPt) :
    Heard all l [] l.rcv.event { l with snd := snd } :=
  ⟨rfl, rfl, congrArg l.rcv.lookupPt (congrArg Fin.val h), (append_nil _).symm⟩

theorem heard_listen (l : Line) (all processed : Bool)
    (h : Took l.rcv out e (cwRtpRead p l.rcv ⟨some d, true, changed, now⟩)) :
    Heard all l (if all || processed then out else []) e (l.listen p processed d changed now) := by
  refine ⟨rfl, h.event, congrFun h.lookupPt _, ?_⟩
  rw [delivered, Line.listen, filter_append, map_append, h.digits]
  congr 1
  cases hk : all || processed
  · simp [filter_map, comp_def, hk]
  · simp [filter_map, comp_def, hk]

theorem heard_both (l : Line) (all : Bool)
    (h : Took l.rcv out e (cwRtpRead p l.rcv ⟨some d, true, changed, read₁⟩))
    (h' : ∀ s : Session, s.event = e → s.lookupPt = l.rcv.lookupPt → s.dtmfmute = l.rcv.dtmfmute →
      Took s out' e' (cwRtpRead p s ⟨some d', true, changed, read₂⟩)) :
    Heard all l (out ++ if all then out' else []) e'
      ((l.listen p true d changed read₁).listen p false d' changed read₂) := by
  have hsecond := h' (l.listen p true d changed read₁).rcv h.event h.lookupPt h.dtmfmute
  have hheard :=
    (heard_listen l all true h).trans
      (heard_listen (l.listen p true d changed read₁) all false hsecond)
  simpa using hheard

theorem step_write {event : Option (List UInt8)}
    (hw : cwRtpRawWrite l.snd w.frame w.now w.codec = (⟨event, audio⟩, snd))
    (h : step p l (.write w) = some l') :
    (l.rcv.lookupPt w.codec).isCwFormat = true ∧ sooner w.read₁ l.rcv.dtmfmute = false ∧
      sooner w.read₂ l.rcv.dtmfmute = false ∧
      l' = (match event with
        | none => { l with snd := snd }
        | some d => Line.listen { l with snd := snd } p true d w.changed w.read₁).listen p false
            audio w.changed w.read₂ := by
  rw [step, hw] at h
  split at h
  · rename_i hok
    obtain ⟨hcodec, hmute₁, hmute₂⟩ := hok
    exact ⟨hcodec, by simpa using hmute₁, by simpa using hmute₂, (Option.some.inj h).symm⟩
  · cases h

theorem step_write_idle (h : step p l (.write w) = some l') (hs : l.snd.sendevent = 0)
    (hp : l.snd.payload = 0) :
    Heard all l
      (if all then (hearAudio p.dtmftimeout l.rcv.event (nextStamp l.snd w.frame w.now)).1 else [])
      (hearAudio p.dtmftimeout l.rcv.event (nextStamp l.snd w.frame w.now)).2 l' ∧
      l'.snd.sendevent = 0 ∧ l'.snd.payload = 0 ∧ l'.snd.startts = l.snd.startts ∧
      l'.snd.duration = l.snd.duration := by
  obtain ⟨mark, seqno, snd, hwrite, hs', hp', hstart, hdur, hpt⟩ :=
    cwRtpRawWrite_idle w.frame w.now w.codec hs hp
  obtain ⟨hcodec, -, hmute, rfl⟩ := step_write hwrite h
  have hheard := (heard_send all hpt).trans (heard_listen { l with snd := snd } all false
    (took_audio p mark w.changed seqno (nextStamp l.snd w.frame w.now) l.snd.ssrc w.frame.data
      hcodec hmute))
  exact ⟨by simpa using hheard, hs', hp', hstart, hdur⟩

/-- A frame was written behind a packet `q` of an event, and the receiver has read both. -/
structure HeardBoth (p : Platform) (all : Bool) (l : Line) (w : Writing) (q : EventPacket)
    (l' : Line) : Prop where
  heard : Heard all l ((process l.rcv.event q).1.toList ++
      if all
      then (hearAudio p.dtmftimeout (process l.rcv.event q).2 (nextStamp l.snd w.frame w.now)).1
      else [])
    (hearAudio p.dtmftimeout (process l.rcv.event q).2 (nextStamp l.snd w.frame w.now)).2 l'
  sendevent : l'.snd.sendevent = 0
  startts : l'.snd.startts = (begun l.snd w.frame w.now).startts
  duration : l'.snd.duration = (begun l.snd w.frame w.now).duration

theorem step_write_busy (h : step p l (.write w) = some l')
    (hbusy : l.snd.payload ≠ 0 ∨ l.snd.sendevent ≠ 0)
    (hpt : l.rcv.lookupPt l.snd.dtmfPt = ⟨false, rtpDtmf⟩)
    (hword : (continueEvent (begun l.snd w.frame w.now) w.frame.samples).1 < 4294967296) :
    ∃ q : EventPacket,
      q.word = UInt32.ofNat (continueEvent (begun l.snd w.frame w.now) w.frame.samples).1 ∧
      q.timestamp = (begun l.snd w.frame w.now).startts ∧ HeardBoth p all l w q l' ∧
      l'.snd.payload = (continueEvent (begun l.snd w.frame w.now) w.frame.samples).2.payload := by
  obtain ⟨mark, mark', seqno, seqno', snd, hwrite, hs', hp', hstart, hdur, hpt'⟩ :=
    cwRtpRawWrite_busy w.frame w.now w.codec hbusy
  obtain ⟨hcodec, hmute₁, hmute₂, rfl⟩ := step_write hwrite h
  have htook := took_event p mark w.changed seqno (begun l.snd w.frame w.now).startts l.snd.ssrc hpt
    hmute₁ hword
  have hboth := heard_both { l with snd := snd } all htook
    fun s hevent hlookup hmute =>
    hevent ▸ took_audio p mark' w.changed seqno' (nextStamp l.snd w.frame w.now) l.snd.ssrc
      w.frame.data (hlookup ▸ hcodec) (hmute ▸ hmute₂)
  have hheard := (heard_send all hpt').trans hboth
  rw [nil_append] at hheard
  exact ⟨⟨_, seqno.toUInt32, _⟩, rfl, rfl, ⟨hheard, hs', hstart, hdur⟩, hp'⟩

end Steps

end CallWeaver.Rtp
