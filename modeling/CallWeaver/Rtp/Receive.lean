import CallWeaver.Base.Bytes
import CallWeaver.Core.Strings
import CallWeaver.Core.Time

/-! # Reading packets of a session

`cw_rtp_read` receives a datagram into a buffer, behind which the bytes of earlier ones are left,
and makes a frame of it in place. Telephone events are kept until they end or another one begins,
since there can be only one frame for each packet.
-/

namespace CallWeaver.Rtp

def eventcodes : CStr :=
  [chr '0', chr '1', chr '2', chr '3', chr '4', chr '5', chr '6', chr '7', chr '8', chr '9',
    chr '*', chr '#', chr 'A', chr 'B', chr 'C', chr 'D', chr 'X']

/-- The event in progress, with the fields `lastevent_seqno`, `lastevent_startts`,
`lastevent_duration` and `lastevent_code` of the session. There is none if the code is zero. -/
structure LastEvent where
  seqno : UInt32
  startts : UInt32
  duration : UInt16
  code : UInt8
  deriving DecidableEq, Repr

structure Media where
  video : Bool
  subclass : ℕ
  data : List UInt8
  datalen : ℤ
  offset : ℕ
  samples : ℤ
  delivery : Timeval
  timing : Option (ℕ × ℤ)
  seqNo : ℕ
  deriving DecidableEq, Repr

inductive Frame where
  | null
  | media (m : Media)
  | dtmf (code : UInt8)
  | flash
  | comfortNoise (level : UInt8) (datalen : ℤ)
  deriving DecidableEq, Repr

def Frame.datalen : Frame → ℤ
  | .media m => m.datalen
  | .comfortNoise _ datalen => datalen
  | _ => 0

def eventCode (event : UInt32) : UInt8 :=
  if event.toNat < eventcodes.length + 1 then eventcodes.getD event.toNat 0 else chr '?'

def sendDtmf (muted : Bool) (e : LastEvent) : Frame × LastEvent :=
  if muted then (.null, { e with code := 0 })
  else if e.code = chr 'X' then (.flash, { e with code := 0 })
  else (.dtmf e.code, { e with code := 0 })

def processCiscoDtmf (muted : Bool) (dtmftimeout : UInt32) (e : LastEvent) (word : UInt32) :
    Option Frame × LastEvent :=
  let code := eventCode (word &&& 0x1F)
  let (f, e) :=
    if e.code ≠ 0 ∧ e.code ≠ code then
      let (f, e) := sendDtmf muted e
      (some f, e)
    else (none, e)
  (f, { e with code := code, duration := dtmftimeout.toUInt16 })

/-- A packet belongs to the event in progress by its time stamp. The difference is unsigned. -/
def samets (e : LastEvent) (timestamp : UInt32) : Bool :=
  timestamp = e.startts || timestamp - (e.startts + e.duration.toUInt32 + 40 * 8) ≤ 0

/-- `process_rfc2833` sends up the event in progress. -/
def flushEvent (muted : Bool) (e : LastEvent) (same : Bool) : Option Frame × LastEvent :=
  if e.code ≠ 0 ∧ !same then
    let (f, e) := sendDtmf muted e
    (some f, e)
  else (none, e)

/-- The duration of the event in progress in `process_rfc2833`. -/
def takeDuration (e : LastEvent) (seqno : UInt32) (duration : UInt16) : LastEvent :=
  if e.code = 0 ∨ seqno - e.seqno < 1000 then { e with duration := duration, seqno := seqno } else e

/-- A new event in `process_rfc2833`. -/
def setUpEvent (e : LastEvent) (same : Bool) (event timestamp : UInt32) : LastEvent :=
  if e.code = 0 ∧ !same then { e with code := eventCode event, startts := timestamp }
  else if timestamp - e.startts < 0 then { e with startts := timestamp }
  else e

def processRfc2833 (muted : Bool) (e : LastEvent) (word seqno timestamp : UInt32) :
    Option Frame × LastEvent :=
  let eventEnd := (word >>> 23) &&& 1
  let duration := word.toUInt16
  let event := word >>> 24
  let same := samets e timestamp
  let (f, e) := flushEvent muted e same
  let e := takeDuration e seqno duration
  let e := setUpEvent e same event timestamp
  if e.code ≠ 0 ∧ eventEnd ≠ 0 ∧ f = none then
    let (f, e) := sendDtmf muted e
    (some f, e)
  else (f, e)

def processRfc3389 (level : UInt8) (len : ℤ) : Option Frame :=
  if len = 0 then none else some (.comfortNoise (level &&& 0x7F) (len - 1))

def formatG7231 : ℕ := 0x0001
def formatGsm : ℕ := 0x0002
def formatUlaw : ℕ := 0x0004
def formatAlaw : ℕ := 0x0008
def formatG726 : ℕ := 0x0010
def formatDviAdpcm : ℕ := 0x0020
def formatSlinear : ℕ := 0x0040
def formatLpc10 : ℕ := 0x0080
def formatG729a : ℕ := 0x0100
def formatSpeex : ℕ := 0x0200
def formatIlbc : ℕ := 0x0400
def formatMaxAudio : ℕ := 0x8000

/-- The host, and the functions that look into the data of two codecs. -/
structure Platform where
  littleEndian : Bool
  dtmftimeout : UInt32
  speexSamples : (ℕ → UInt8) → ℤ → ℤ
  g723Samples : (ℕ → UInt8) → ℤ → ℤ

def host : Platform := ⟨true, 3000, fun _ _ => 0, fun _ _ => 0⟩

def cwCodecGetSamples (p : Platform) (subclass : ℕ) (data : ℕ → UInt8) (datalen : ℤ) : ℤ :=
  if subclass = formatSpeex then p.speexSamples data datalen
  else if subclass = formatG7231 then p.g723Samples data datalen
  else if subclass = formatIlbc then 240 * datalen.tdiv 50
  else if subclass = formatGsm then 160 * datalen.tdiv 33
  else if subclass = formatG729a then datalen * 8
  else if subclass = formatSlinear then datalen.tdiv 2
  else if subclass = formatLpc10 then 22 * 8 + (data 7 &&& 1).toNat * 8
  else if subclass = formatUlaw ∨ subclass = formatAlaw then datalen
  else if subclass = formatDviAdpcm ∨ subclass = formatG726 then datalen * 2
  else 0

/-- In place, on a little-endian host. The right shift is one of a signed number, so that the sign
of the sample is in all the bits of the byte that the other one is put into. -/
def cwSwapcopySamples (mem : ℕ → UInt8) (samples : ℤ) : ℕ → UInt8 := fun i =>
  if (i / 2 : ℕ) < samples then
    if i % 2 = 0 then mem (i + 1)
    else if mem i ≥ 128 then 0xFF else mem (i - 1)
  else mem i

structure PayloadType where
  isCwFormat : Bool
  code : ℕ
  deriving DecidableEq, Repr

def rtpDtmf : ℕ := 1
def rtpCn : ℕ := 2
def rtpCiscoDtmf : ℕ := 4

structure Session where
  /-- the buffer from `CW_FRIENDLY_OFFSET` on -/
  rawdata : ℕ → UInt8
  /-- `cw_rtp_lookup_pt` -/
  lookupPt : ℕ → PayloadType
  event : LastEvent
  dtmfmute : Timeval
  rxcore : Timeval
  rxseqno : ℕ
  lastrxformat : ℕ
  lastrxts : UInt32
  lastividtimestamp : UInt32
  nat : Bool
  natActive : Bool

def Session.new (lookupPt : ℕ → PayloadType) : Session where
  rawdata := fun _ => 0
  lookupPt := lookupPt
  event := ⟨0, 0, 0, 0⟩
  dtmfmute := ⟨0, 0⟩
  rxcore := ⟨0, 0⟩
  rxseqno := 0
  lastrxformat := 0
  lastrxts := 0
  lastividtimestamp := 0
  nat := false
  natActive := false

/-- A call of `rtp_recvfrom`: the datagram unless there was an error, and the address of the peer
after it. -/
structure Incoming where
  datagram : Option (List UInt8)
  /-- whether the peer has an address and a port -/
  them : Bool
  /-- whether the address of the peer has changed -/
  changed : Bool
  now : Timeval

def cwFriendlyOffset : ℕ := 64

def rawdataSize : ℕ := 8192

def sockaddrLen : ℕ := 16

/-- `recvfrom` cuts a datagram to the size of the buffer and leaves the bytes behind it. -/
def Incoming.received (datagram : List UInt8) : List UInt8 := datagram.take rawdataSize

def recvInto (old : ℕ → UInt8) (received : List UInt8) : ℕ → UInt8 :=
  fun i => received.getD i (old i)

def headerWord (mem : ℕ → UInt8) (i : ℕ) : ℕ :=
  let j := i / 4 * 4
  ntohl (mem j) (mem (j + 1)) (mem (j + 2)) (mem (j + 3))

def eventWord (mem : ℕ → UInt8) (i : ℕ) : UInt32 :=
  UInt32.ofNat (ntohl (mem i) (mem (i + 1)) (mem (i + 2)) (mem (i + 3)))

def calcRxstamp (rxcore now : Timeval) (timestamp : ℕ) (mark : Bool) : Timeval × Timeval :=
  let ts := cwSamp2tv timestamp 8000
  let rxcore :=
    if cwTvzero rxcore ∨ mark then
      let core := cwTvsub now ts
      ⟨core.sec, core.usec - core.usec.tmod 20000⟩
    else rxcore
  (cwTvadd rxcore ts, rxcore)

/-- What `cw_rtp_read` finds in the header: the end of the data behind the padding and the length of
the header, if it goes on. The length of the address takes the place of that of the datagram, and
the extension is looked for one word too far. -/
def extent (mem : ℕ → UInt8) (res : ℕ) : Option (ℤ × ℕ) :=
  let seqno := headerWord mem 0
  let stop : ℤ := if seqno / 0x20000000 % 2 = 1 then res - (mem (res - 1)).toNat else res
  let csrcCount := seqno / 0x1000000 % 16
  let hdrlen := 12 + csrcCount * 4
  if csrcCount ≠ 0 ∧ stop < hdrlen then none
  else if seqno / 0x10000000 % 2 = 1 then
    let hdrlen := hdrlen + 4
    let hdrlen :=
      if sockaddrLen ≥ hdrlen then hdrlen + headerWord mem hdrlen % 0x10000 * 4 else hdrlen
    if sockaddrLen < hdrlen then none else some (stop, hdrlen)
  else some (stop, hdrlen)

def dataAt (mem : ℕ → UInt8) (hdrlen : ℕ) (datalen : ℤ) : List UInt8 :=
  (List.range datalen.toNat).map fun i => mem (hdrlen + i)

/-- A frame of voice in `cw_rtp_read`. -/
def voiceFrame (p : Platform) (s : Session) (now : Timeval) (hdrlen : ℕ) (datalen : ℤ)
    (subclass seqno : ℕ) (timestamp : UInt32) (mark : Bool) : Frame × Session :=
  let data : ℕ → UInt8 := fun i => s.rawdata (hdrlen + i)
  let samples := cwCodecGetSamples p subclass data datalen
  let swapped :=
    if subclass = formatSlinear ∧ p.littleEndian then cwSwapcopySamples data samples else data
  let rawdata : ℕ → UInt8 := fun i => if i < hdrlen then s.rawdata i else swapped (i - hdrlen)
  let (delivery, rxcore) := calcRxstamp s.rxcore now timestamp.toNat mark
  (.media {
    video := false
    subclass := subclass
    data := dataAt rawdata hdrlen datalen
    datalen := datalen
    offset := hdrlen + cwFriendlyOffset
    samples := samples
    delivery := delivery
    timing := some (timestamp.toNat / 8, samples.tdiv 8)
    seqNo := seqno }, { s with rawdata := rawdata, rxcore := rxcore })

/-- A frame of video in `cw_rtp_read`. -/
def videoFrame (s : Session) (hdrlen : ℕ) (datalen : ℤ) (subclass seqno : ℕ) (timestamp : UInt32)
    (mark : Bool) : Frame × Session :=
  let last := if s.lastividtimestamp = 0 then timestamp else s.lastividtimestamp
  (.media {
    video := true
    subclass := if mark then subclass ||| 1 else subclass
    data := dataAt s.rawdata hdrlen datalen
    datalen := datalen
    offset := hdrlen + cwFriendlyOffset
    samples := (timestamp - last).toInt32.toInt
    delivery := ⟨0, 0⟩
    timing := none
    seqNo := seqno }, { s with lastividtimestamp := timestamp })

/-- Events and comfort noise in `cw_rtp_read`. -/
def specialFrame (p : Platform) (s : Session) (muted : Bool) (code hdrlen : ℕ) (len : ℤ) (seqno : ℕ)
    (timestamp : UInt32) : Frame × Session :=
  if code = rtpDtmf then
    let r :=
      processRfc2833 muted s.event (eventWord s.rawdata hdrlen) (UInt32.ofNat seqno) timestamp
    (r.1.getD .null, { s with event := r.2 })
  else if code = rtpCiscoDtmf then
    if s.event.seqno.toNat ≤ seqno ∨ s.event.code = 0 ∨ (s.event.seqno ≥ 65530 ∧ seqno ≤ 6) then
      let r := processCiscoDtmf muted p.dtmftimeout s.event (eventWord s.rawdata hdrlen)
      (r.1.getD .null, { s with event := { r.2 with seqno := UInt32.ofNat seqno } })
    else (.null, s)
  else if code = rtpCn then ((processRfc3389 (s.rawdata hdrlen) len).getD .null, s)
  else (.null, s)

/-- A packet of one of the codecs. The frame of an event that has lasted too long takes its place.
-/
def codecFrame (p : Platform) (s : Session) (now : Timeval) (code hdrlen : ℕ) (datalen : ℤ)
    (seqno : ℕ) (timestamp : UInt32) (mark : Bool) : Frame × Session :=
  let s : Session := { s with
    lastrxformat := code
    lastrxts := if s.lastrxts = 0 then timestamp else s.lastrxts
    rxseqno := seqno }
  if s.event.code ≠ 0 ∧ timestamp - s.event.startts > p.dtmftimeout then
    let (f, e) := sendDtmf (sooner now s.dtmfmute) s.event
    (f, { s with event := e })
  else
    let s : Session := { s with lastrxts := timestamp }
    if code < formatMaxAudio then voiceFrame p s now hdrlen datalen code seqno timestamp mark
    else videoFrame s hdrlen datalen code seqno timestamp mark

/-- `cw_rtp_read` for `res` bytes that were received. -/
def readPacket (p : Platform) (s : Session) (now : Timeval) (res : ℕ) : Frame × Session :=
  let seqno := headerWord s.rawdata 0
  if seqno / 0x40000000 ≠ 2 then (.null, s)
  else match extent s.rawdata res with
    | none => (.null, s)
    | some (stop, hdrlen) =>
      let mark := seqno / 0x800000 % 2 = 1
      let timestamp := UInt32.ofNat (headerWord s.rawdata 4)
      let rtpPT := s.lookupPt (seqno / 0x10000 % 128)
      let seqno := seqno % 0x10000
      if rtpPT.isCwFormat then codecFrame p s now rtpPT.code hdrlen (stop - hdrlen) seqno
        timestamp mark
      else specialFrame p s (sooner now s.dtmfmute) rtpPT.code hdrlen (stop - hdrlen)
        seqno timestamp

def cwRtpRead (p : Platform) (s : Session) (inc : Incoming) : Frame × Session :=
  match inc.datagram with
  | none => (.null, s)
  | some datagram =>
    let received := Incoming.received datagram
    let s : Session := { s with rawdata := recvInto s.rawdata received }
    if received.length < 12 then (.null, s)
    else if !inc.them then (.null, s)
    else if s.nat ∧ inc.changed then
      readPacket p { s with rxseqno := 0, natActive := true } inc.now received.length
    else readPacket p s inc.now received.length

end CallWeaver.Rtp
