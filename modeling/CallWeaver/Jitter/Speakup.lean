import CallWeaver.Base.Sorting
import CallWeaver.Jitter.Adaptive

/-! # The SpeakUp jitter buffer

The delays of the last frames are kept sorted. With every frame put in, they give the delay that
the buffer aims at: the one with the best guess of how the call would sound, within the configured
sizes.
-/

namespace CallWeaver.Jitter.Speakup

open Function
open Adaptive (FrameType)

variable {α : Type}

def historySize : ℕ := 500

structure JbHistElement where
  delay : ℤ
  ts : ℤ
  ms : ℤ
  codec : ℤ
  deriving DecidableEq, Repr

structure JbSettings where
  minJb : ℤ
  maxJb : ℤ
  maxSuccessiveInterp : ℤ
  extraDelay : ℤ
  waitGrow : ℤ
  waitShrink : ℤ
  maxDiff : ℤ
  deriving DecidableEq, Repr

def setDefaultSettings : JbSettings := ⟨0, 0, 0, 30, 60, 250, 6000⟩

structure JbFrame (α : Type) where
  data : α
  ts : ℤ
  ms : ℤ
  type : FrameType
  codec : ℤ
  deriving DecidableEq, Repr

structure JbInfo where
  framesReceived : ℤ
  framesDroppedTwice : ℤ
  framesLate : ℤ
  framesDropped : ℤ
  framesOoo : ℤ
  silence : Bool
  lastVoiceMs : ℤ
  iqr : ℤ
  jitter : ℤ
  losspct : ℤ
  delay : ℤ
  delayTarget : ℤ
  deriving DecidableEq, Repr

def JbInfo.zero : JbInfo := ⟨0, 0, 0, 0, 0, false, 0, 0, 0, 0, 0, 0⟩

/-- The circular list of the voice frames is given from its lowest timestamp on; a control frame is
its data and its timestamp. -/
structure Jitterbuffer (α : Type) where
  hist : ℕ → JbHistElement
  histSortedDelay : ℕ → ℤ
  histSortedTimestamp : ℕ → ℤ
  histPointer : ℕ
  lastAdjustment : ℤ
  nextVoiceTime : ℤ
  cntSuccessiveInterp : ℤ
  silenceBeginTs : ℤ
  min : ℤ
  current : ℤ
  target : ℤ
  lastDelay : ℤ
  next : ℤ
  voiceframes : List (JbFrame α)
  controlframes : List (α × ℤ)
  settings : JbSettings
  info : JbInfo

/-- Start in silence, with a new history. -/
def reset (jb : Jitterbuffer α) : Jitterbuffer α :=
  { jb with histPointer := 0, silenceBeginTs := 0, info := { jb.info with silence := true } }

def jbSpeakupNew : Jitterbuffer α :=
  reset ⟨fun _ => ⟨0, 0, 0, 0⟩,
    fun _ => 0, fun _ => 0, 0, 0, 0, 0, 0, 0, 0, 0, 0, 0, [], [], setDefaultSettings, .zero⟩

def orElse (new old : ℤ) : ℤ := if new ≠ 0 then new else old

def jbSpeakupSetSettings (jb : Jitterbuffer α) (settings : JbSettings) : Jitterbuffer α :=
  { jb with settings :=
    { minJb := orElse settings.minJb jb.settings.minJb
      maxJb := orElse settings.maxJb jb.settings.maxJb
      maxSuccessiveInterp := orElse settings.maxSuccessiveInterp jb.settings.maxSuccessiveInterp
      extraDelay := orElse settings.extraDelay jb.settings.extraDelay
      waitGrow := orElse settings.waitGrow jb.settings.waitGrow
      waitShrink := orElse settings.waitShrink jb.settings.waitShrink
      maxDiff := orElse settings.maxDiff jb.settings.maxDiff } }

/-- The loop of `find_pointer`. -/
def findPointerLoop (array : ℕ → ℤ) (value : ℤ) : ℕ → ℕ → ℤ → ℕ
  | 0, low, _ => low
  | fuel + 1, low, high =>
    if low ≤ high then
      let mid := ((low + high) / 2).toNat
      if array mid < value then findPointerLoop array value fuel (mid + 1) high
      else if array mid > value then findPointerLoop array value fuel low (mid - 1)
      else mid
    else low

def findPointer (array : ℕ → ℤ) (maxIndex : ℕ) (value : ℤ) : ℕ :=
  findPointerLoop array value (maxIndex + 1) 0 maxIndex

/-- `put_history` takes the oldest delay out of the sorted ones. -/
def deleteSorted (array : ℕ → ℤ) (maxIndex : ℕ) (value : ℤ) : ℕ → ℤ :=
  let pointer := findPointer array maxIndex value
  if pointer < maxIndex then moveElems array pointer (pointer + 1) (historySize - (pointer + 1))
  else array

/-- `put_history` puts the new delay in. -/
def insertSorted (array : ℕ → ℤ) (maxIndex : ℕ) (value : ℤ) : ℕ → ℤ :=
  if maxIndex = 0 ∨ value ≥ array (maxIndex - 1) then update array maxIndex value
  else
    let pointer := findPointer array (maxIndex - 1) value
    update (moveElems array (pointer + 1) pointer (historySize - (pointer + 1))) pointer value

def maxIndex (jb : Jitterbuffer α) : ℕ :=
  if jb.histPointer < historySize then jb.histPointer else historySize - 1

def putHistory (jb : Jitterbuffer α) (ts now ms codec : ℤ) : Jitterbuffer α :=
  let location := jb.histPointer % historySize
  let out := jb.hist location
  let full := jb.histPointer > historySize - 1
  let delays :=
    if full then deleteSorted jb.histSortedDelay (maxIndex jb) out.delay else jb.histSortedDelay
  let timestamps :=
    if full then deleteSorted jb.histSortedTimestamp (maxIndex jb) out.ts
    else jb.histSortedTimestamp
  { jb with
    histSortedDelay := insertSorted delays (maxIndex jb) (now - ts)
    histSortedTimestamp := insertSorted timestamps (maxIndex jb) ts
    hist := update jb.hist location ⟨now - ts, ts, ms, codec⟩
    histPointer := jb.histPointer + 1 }

def formatG723 : ℤ := 1

def formatGsm : ℤ := 2

def formatUlaw : ℤ := 4

def formatAlaw : ℤ := 8

def formatG729a : ℤ := 256

def jbSpeakupGuessMos (p : Float32) (d codec : ℤ) : Float32 :=
  let p := p.toFloat
  let d := Float.ofInt d
  Float.toFloat32 <|
    if codec = formatGsm then 4.31 - 0.23 * p - 0.0071 * d
    else if codec = formatG723 then 3.99 - 0.16 * p - 0.0071 * d
    else if codec = formatG729a then 4.13 - 0.14 * p - 0.0071 * d
    else if codec = formatAlaw then 4.42 - 0.087 * p - 0.0071 * d
    else if codec = formatUlaw then 4.42 - 0.087 * p - 0.0071 * d
    else 4.42 - 0.63 * p - 0.0071 * d

/-- The inner loop of `calculate_info`: the next delay below `d1`, unless half of the history was
seen. -/
def nextDelay (delay : ℕ → ℤ) (min d1 : ℤ) (maxIndex : ℕ) : ℕ → ℕ → ℕ × ℤ
  | 0, n => (n + 1, delay (maxIndex - (n + 1)) - min)
  | fuel + 1, n =>
    let d2 := delay (maxIndex - (n + 1)) - min
    if d2 ≥ d1 ∧ (n + 1) * 2 < maxIndex then nextDelay delay min d1 maxIndex fuel (n + 1)
    else (n + 1, d2)

/-- The loop of `calculate_info` over the highest delays, to the one with the best estimate. -/
def optimumDelay (delay : ℕ → ℤ) (min : ℤ) (size maxN : ℕ) (codec : ℤ) : ℕ → ℕ → ℤ → ℤ → Float32 → ℤ
  | 0, _, _, d, _ => d
  | fuel + 1, n, d2, d, a =>
    if n < maxN then
      let b := jbSpeakupGuessMos (Float32.ofNat (n * 100 / size)) d2 codec
      let best := if b > a then (d2, b) else (d, a)
      let next := nextDelay delay min d2 (size - 1) size n
      optimumDelay delay min size maxN codec fuel next.1 next.2 best.1 best.2
    else d

/-- The limits in `calculate_info`. -/
def clampDelay (settings : JbSettings) (d : ℤ) : ℤ :=
  if settings.minJb ≠ 0 ∧ settings.minJb > d then settings.minJb
  else if settings.maxJb ≠ 0 ∧ settings.maxJb < d then settings.maxJb
  else d

/-- What `calculate_info` takes from the sorted delays. -/
def preferredDelay (delay : ℕ → ℤ) (size : ℕ) (iqr min codec : ℤ) : ℤ :=
  let maxIndex := size - 1
  let highest := delay maxIndex - min
  -- the percentage is a float in the source, whose product with the size is exact
  let percent := if iqr > 200 then 25 else if iqr > 100 then 20 else if iqr > 50 then 11 else 5
  let maxN := percent * size / 100
  if maxIndex > 10 then
    optimumDelay delay min size maxN codec maxN 0 highest highest (Float32.ofInt (-2 ^ 63))
  else highest

def calculateInfo (jb : Jitterbuffer α) (ts now codec : ℤ) : Jitterbuffer α :=
  let size := if jb.histPointer < historySize then jb.histPointer else historySize
  let maxIndex := size - 1
  let delay := jb.histSortedDelay
  let iqr := delay (maxIndex * 3 / 4) - delay (maxIndex / 4)
  let diff := if jb.lastDelay = 0 then 0 else now - ts - jb.lastDelay
  let jitter := jb.info.jitter + (|diff| - jb.info.jitter).tdiv 16
  let min := delay (maxIndex * 2 / 100)
  { jb with
    lastDelay := now - ts
    min := min
    target := min + clampDelay jb.settings (preferredDelay delay size iqr min codec)
    info := { jb.info with iqr := iqr, jitter := jitter } }

def putControl (jb : Jitterbuffer α) (data : α) (ts : ℤ) : Jitterbuffer α :=
  { jb with
    controlframes := insertStable (fun f g => decide (f.2 < g.2)) (data, ts) jb.controlframes }

/-- In front of the lowest timestamp, or back from the highest one over all that are later. -/
def putVoice (jb : Jitterbuffer α) (frame : JbFrame α) : Jitterbuffer α :=
  match jb.voiceframes with
  | [] => { jb with voiceframes := [frame] }
  | p :: rest =>
    let l := p :: rest
    let ooo :=
      if ∀ last ∈ l.getLast?, frame.ts < last.ts then jb.info.framesOoo + 1 else jb.info.framesOoo
    let later := fun q : JbFrame α => decide (frame.ts < q.ts)
    { jb with
      voiceframes :=
        if frame.ts < p.ts then frame :: l
        else (l.reverse.dropWhile later).reverse ++ frame :: (l.reverse.takeWhile later).reverse
      info := { jb.info with framesOoo := ooo } }

/-- The arguments of `jb_speakup_put`, with whether memory can be allocated and what stands behind
the sorted timestamps. -/
structure PutCall (α : Type) where
  data : α
  type : FrameType
  ms : ℤ
  ts : ℤ
  now : ℤ
  codec : ℤ
  mem : Bool
  behind : ℤ
  deriving DecidableEq, Repr

def jbSpeakupPut (jb : Jitterbuffer α) (c : PutCall α) : Jitterbuffer α :=
  let jb := { jb with info := { jb.info with framesReceived := jb.info.framesReceived + 1 } }
  let frame : JbFrame α := ⟨c.data, c.ts, c.ms, c.type, c.codec⟩
  match c.type with
  | .control => if c.mem then putControl jb c.data c.ts else jb
  | .voice =>
    let pointer := findPointer jb.histSortedTimestamp (maxIndex jb) c.ts
    -- behind a full history the pointer may be outside of the array
    let found := if pointer < historySize then jb.histSortedTimestamp pointer else c.behind
    if found = c.ts then
      { jb with info := { jb.info with framesDroppedTwice := jb.info.framesDroppedTwice + 1 } }
    else
      let jb := calculateInfo (putHistory jb c.ts c.now c.ms c.codec) c.ts c.now c.codec
      if c.mem then putVoice jb frame else jb
  | .silence => if c.mem then putVoice jb frame else jb
  | .video => jb

inductive JbRet where
  | ok
  | empty
  | noframe
  | interp
  deriving DecidableEq, Repr

structure GetOutcome (α : Type) where
  jb : Jitterbuffer α
  ret : JbRet
  data : Option α

def getFrame (jb : Jitterbuffer α) (ts : ℤ) : Jitterbuffer α × Option (JbFrame α) :=
  match jb.voiceframes with
  | [] => (jb, none)
  | f :: rest => if f.ts ≤ ts then ({ jb with voiceframes := rest }, some f) else (jb, none)

/-- By `get_next_frametype`, the next frame is due and a silence frame. -/
def silenceDue (jb : Jitterbuffer α) (ts : ℤ) : Bool :=
  match jb.voiceframes with
  | [] => false
  | f :: _ => f.ts ≤ ts ∧ f.type = .silence

/-- `now + current + interpl` is before the next frame, or there is none: then `get_next_framets` is
`LONG_MAX`. -/
def beforeNext (jb : Jitterbuffer α) (ts : ℤ) : Bool :=
  match jb.voiceframes with
  | [] => ts < 2 ^ 63 - 1
  | f :: _ => ts < f.ts

def getVoicecase (again : Jitterbuffer α → Option (GetOutcome α)) (jb : Jitterbuffer α)
    (now interpl diff : ℤ) : Option (GetOutcome α) :=
  if diff > jb.settings.maxDiff ∨ -diff > jb.settings.maxDiff then some ⟨reset jb, .noframe, none⟩
  else if diff > 0 ∧ (now > jb.lastAdjustment + jb.settings.waitGrow ∨
    beforeNext jb (now + jb.current + interpl)) then
    again { jb with
      current := if diff < interpl.tdiv 2 then jb.current + diff else jb.current + interpl,
        lastAdjustment := now }
  else if diff < 0 ∧ now > jb.lastAdjustment + jb.settings.waitShrink ∧
    -diff > jb.settings.extraDelay then
    let jb := { jb with lastAdjustment := now }
    match getFrame jb (now - jb.current) with
    | (jb, some f) => again { jb with
        current := jb.current - f.ms, info :=
          { jb.info with framesDropped := jb.info.framesDropped + 1 } }
    | (jb, none) => again { jb with current := jb.current - interpl }
  else if now - jb.current < jb.nextVoiceTime then some ⟨jb, .noframe, none⟩
  else
    match getFrame jb (now - jb.current) with
    | (jb, some f) =>
      if f.ts < jb.nextVoiceTime then
        again { jb with info := { jb.info with framesLate := jb.info.framesLate + 1 } }
      else some ⟨{ jb with nextVoiceTime := f.ts + f.ms, cntSuccessiveInterp := 0 }, .ok,
        some f.data⟩
    | (jb, none) =>
      let jb : Jitterbuffer α := { jb with cntSuccessiveInterp := jb.cntSuccessiveInterp + 1 }
      let jb := if jb.settings.maxSuccessiveInterp ≠ 0 ∧
        jb.cntSuccessiveInterp ≥ jb.settings.maxSuccessiveInterp then
          { jb with silenceBeginTs := jb.nextVoiceTime, info := { jb.info with silence := true } }
        else jb
      some ⟨{ jb with nextVoiceTime := jb.nextVoiceTime + interpl }, .interp, none⟩

def getVoice : ℕ → Jitterbuffer α → ℤ → ℤ → Option (GetOutcome α)
  | 0, _, _, _ => none
  | fuel + 1, jb, now, interpl =>
    let diff := jb.target - jb.current
    if silenceDue jb (now - jb.current) then
      match getFrame jb (now - jb.current) with
      | (jb, some f) =>
        some ⟨{ jb with silenceBeginTs := f.ts, info := { jb.info with silence := true } }, .ok,
          some f.data⟩
      | (_, none) => none
    else if jb.info.silence then
      let jb := if diff ≠ 0 then { jb with current := jb.target } else jb
      match getFrame jb (now - jb.current) with
      | (jb, some f) =>
        if jb.silenceBeginTs ≠ 0 ∧ f.ts < jb.silenceBeginTs then
          getVoice fuel { jb with info := { jb.info with framesLate := jb.info.framesLate + 1 } }
            now interpl
        else
          some ⟨{ jb with
            silenceBeginTs := 0, nextVoiceTime := f.ts + f.ms
            info := { jb.info with silence := false, lastVoiceMs := f.ms } }, .ok, some f.data⟩
      | (jb, none) => some ⟨jb, .empty, none⟩
    else getVoicecase (fun jb => getVoice fuel jb now interpl) jb now interpl diff

def jbSpeakupGet (jb : Jitterbuffer α) (now interpl : ℤ) (fuel : ℕ) : Option (GetOutcome α) :=
  match jb.controlframes with
  | f :: rest => some ⟨{ jb with controlframes := rest }, .ok, some f.1⟩
  | [] => getVoice fuel jb now interpl

def jbSpeakupGetAll (jb : Jitterbuffer α) : GetOutcome α :=
  match jb.voiceframes with
  | f :: rest => ⟨{ jb with voiceframes := rest }, .ok, some f.data⟩
  | [] => ⟨jb, .empty, none⟩

/-- The loop of `jb_speakup_get_info` over equal delays. -/
def skipEqual (delay : ℕ → ℤ) (current : ℤ) (maxIndex : ℕ) : ℕ → ℕ → ℕ
  | 0, pointer => pointer
  | fuel + 1, pointer =>
    if pointer ≤ maxIndex ∧ current = delay pointer then
      skipEqual delay current maxIndex fuel (pointer + 1)
    else pointer

def jbSpeakupGetInfo (jb : Jitterbuffer α) : Jitterbuffer α :=
  let maxIndex := maxIndex jb
  let losspct : ℤ := if maxIndex > 1 then
      let pointer := skipEqual jb.histSortedDelay jb.current maxIndex (maxIndex + 1)
        (findPointer jb.histSortedDelay maxIndex jb.current)
      let losspct := ((maxIndex - pointer : ℤ) * 100).tdiv maxIndex
      if losspct < 0 then 0 else losspct
    else 0
  { jb with info := { jb.info with
    delay := jb.current - jb.min, delayTarget := jb.target - jb.min, losspct := losspct } }

end CallWeaver.Jitter.Speakup
