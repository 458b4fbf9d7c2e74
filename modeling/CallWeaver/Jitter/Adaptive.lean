import Mathlib.Algebra.Order.Ring.Int
import CallWeaver.Base.Doubly
import CallWeaver.Base.Runs

/-! # The adaptive jitter buffer

Frames wait in a circular list, sorted by their timestamps, whose nodes are recycled. The length of
the buffer follows the jitter measured over the last delays: it grows by interpolated frames and
shrinks by dropped ones.
-/

namespace CallWeaver.Jitter.Adaptive

open Function

variable {α : Type}

inductive FrameType where
  | control
  | voice
  | video
  | silence
  deriving DecidableEq, Repr

structure JbFrame (α : Type) where
  data : α
  ts : ℤ
  ms : ℤ
  type : FrameType
  deriving DecidableEq, Repr

inductive JbRet where
  | ok
  | noframe
  | interp
  | drop
  | sched
  deriving DecidableEq, Repr

structure JbConf where
  maxJitterbuf : ℤ
  minJitterbuf : ℤ
  resyncThreshold : ℤ
  maxContigInterp : ℤ
  deriving DecidableEq, Repr

structure JbInfo where
  framesIn : ℤ
  framesOut : ℤ
  framesLate : ℤ
  framesLost : ℤ
  framesDropped : ℤ
  framesOoo : ℤ
  framesCur : ℤ
  jitter : ℤ
  min : ℤ
  current : ℤ
  target : ℤ
  losspct : ℤ
  nextVoiceTs : ℤ
  lastVoiceMs : ℤ
  silenceBeginTs : ℤ
  lastAdjustment : ℤ
  lastDelay : ℤ
  cntDelayDiscont : ℤ
  resyncOffset : ℤ
  cntContigInterp : ℤ
  deriving DecidableEq, Repr

def JbInfo.zero : JbInfo := ⟨0, 0, 0, 0, 0, 0, 0, 0, 0, 0, 0, 0, 0, 0, 0, 0, 0, 0, 0, 0⟩

def historySz : ℕ := 500

def historyDroppct : ℕ := 3

def historyMaxbufSz : ℕ := 20

def targetExtra : ℤ := 40

def adjustDelay : ℤ := 40

def longmax : ℤ := 2147483647

def longmin : ℤ := -longmax - 1

structure Jitterbuf (α : Type) where
  heap : Cells (JbFrame α)
  conf : JbConf
  info : JbInfo
  history : ℕ → ℤ
  /-- an `int`; runs with 2^31 frames put since the last resynchronisation are left out -/
  histPtr : ℕ
  histMaxbuf : List ℤ
  histMinbuf : List ℤ
  histMaxbufValid : Bool
  forceResync : Bool
  frames : Option ℕ
  free : Option ℕ

def incrementLosspct (info : JbInfo) : JbInfo :=
  { info with losspct := (100000 + 499 * info.losspct).tdiv 500 }

def decrementLosspct (info : JbInfo) : JbInfo :=
  { info with losspct := (499 * info.losspct).tdiv 500 }

def jbReset (jb : Jitterbuf α) : Jitterbuf α :=
  { heap := jb.heap
    conf := jb.conf
    info := { JbInfo.zero with
      current := jb.conf.minJitterbuf, target := jb.conf.minJitterbuf, silenceBeginTs := -1 }
    history := fun _ => 0
    histPtr := 0
    histMaxbuf := .replicate historyMaxbufSz 0
    histMinbuf := .replicate historyMaxbufSz 0
    histMaxbufValid := false
    forceResync := false
    frames := none
    free := none }

/-- `jb_new`, with the settings that happen to be in the new memory. -/
def jbNew (conf : JbConf) : Jitterbuf α :=
  jbReset ⟨fun _ => none, conf, .zero, fun _ => 0, 0, [], [], false, false, none, none⟩

def resync (jb : Jitterbuf α) (ts now : ℤ) : Jitterbuf α :=
  { jb with
    info := { jb.info with cntDelayDiscont := 0, resyncOffset := ts - now, lastDelay := 0 }
    histPtr := 0
    histMaxbufValid := false
    forceResync := false }

/-- The end of `history_put`: store the delay, and keep the sorted buffers it does not touch. -/
def historyStore (jb : Jitterbuf α) (delay : ℤ) : Jitterbuf α :=
  let kicked := jb.history (jb.histPtr % historySz)
  let jb := { jb with
    history := update jb.history (jb.histPtr % historySz) delay, histPtr := jb.histPtr + 1 }
  let least := jb.histMinbuf.getD (historyMaxbufSz - 1) 0
  let most := jb.histMaxbuf.getD (historyMaxbufSz - 1) 0
  if jb.histMaxbufValid = false then jb
  else if jb.histPtr < historySz ∨ delay < least ∨ delay > most ∨ kicked ≤ least ∨
    kicked ≥ most then
    { jb with histMaxbufValid := false }
  else jb

/-- And whether it returns zero. The argument of `abs` is converted to `int`. -/
def historyPut (jb : Jitterbuf α) (ts now : ℤ) : Jitterbuf α × Bool :=
  let delay := now - (ts - jb.info.resyncOffset)
  let threshold := 2 * jb.info.jitter + jb.conf.resyncThreshold
  let (jb, delay) := if jb.forceResync then (resync jb ts now, 0) else (jb, delay)
  if ts ≤ 0 then (jb, true)
  else if jb.conf.resyncThreshold = -1 then (historyStore jb delay, true)
  else if ((delay - jb.info.lastDelay).bmod (2 ^ 32)).natAbs > threshold then
    let jb := { jb with info := { jb.info with cntDelayDiscont := jb.info.cntDelayDiscont + 1 } }
    if jb.info.cntDelayDiscont > 3 then (historyStore (resync jb ts now) 0, true) else (jb, false)
  else
    let jb := { jb with info := { jb.info with lastDelay := delay, cntDelayDiscont := 0 } }
    (historyStore jb delay, true)

def insertBuf (beats : ℤ → ℤ → Bool) (toins : ℤ) : List ℤ → List ℤ
  | [] => []
  | b :: l => if beats toins b then toins :: (b :: l).dropLast else b :: insertBuf beats toins l

def historyCalcMaxbuf (jb : Jitterbuf α) : Jitterbuf α :=
  if jb.histPtr = 0 then jb
  else
    let start := if jb.histPtr > historySz then jb.histPtr - historySz else 0
    let values := (List.range' start (jb.histPtr - start)).map fun i => jb.history (i % historySz)
    let bufs := values.foldl (fun (b : List ℤ × List ℤ) toins =>
      (if toins > b.1.getD (historyMaxbufSz - 1) 0 then
          insertBuf (fun x y => decide (x > y)) toins b.1
        else b.1,
        if toins < b.2.getD (historyMaxbufSz - 1) 0 then
          insertBuf (fun x y => decide (x < y)) toins b.2
        else b.2))
      (.replicate historyMaxbufSz longmin, .replicate historyMaxbufSz longmax)
    { jb with histMaxbuf := bufs.1, histMinbuf := bufs.2, histMaxbufValid := true }

def historyGet (jb : Jitterbuf α) : Jitterbuf α :=
  let jb := if jb.histMaxbufValid then jb else historyCalcMaxbuf jb
  let count := if jb.histPtr < historySz then jb.histPtr else historySz
  let index := min (count * historyDroppct / 100) (historyMaxbufSz - 1)
  let max := jb.histMaxbuf.getD index 0
  let min := jb.histMinbuf.getD index 0
  { jb with info := { jb.info with min := min, jitter := max - min } }

/-- The loop of `queue_put`: from `p` backwards, to the first place with no later predecessor. -/
def findPlace (resyncTs : ℤ) (h : Cells (JbFrame α)) (first : ℕ) : ℕ → ℕ → Option ℕ
  | 0, _ => none
  | fuel + 1, p => do
    let prev := (← h p).prev
    let prev ← prev
    if resyncTs < (← h prev).val.ts ∧ prev ≠ first then findPlace resyncTs h first fuel prev
    else some p

/-- The insertion in `queue_put`. -/
def linkBefore (h : Cells (JbFrame α)) (frame p : ℕ) : Option (Cells (JbFrame α)) := do
  let prev ← (← h p).prev
  let h ← h.setNext frame (some p)
  let h ← h.setPrev frame (some prev)
  let h ← h.setPrev p (some frame)
  h.setNext prev (some frame)

/-- The buffer after `queue_put`, whether the frame became the head, and the frame if it was queued.
-/
structure PutOutcome (α : Type) where
  jb : Jitterbuf α
  head : Bool
  queued : Option (JbFrame α)

/-- The node of a new frame in `queue_put`: a free one, or one that `malloc` returns. -/
def takeNode (jb : Jitterbuf α) (f : JbFrame α) (mem : Option ℕ) :
    Option (Jitterbuf α × Option ℕ) :=
  match jb.free with
  | some frame => do
    let cell ← jb.heap frame
    let h ← jb.heap.setVal frame f
    some ({ jb with free := cell.next, heap := h }, some frame)
  | none => match mem with
    | some frame => some ({ jb with heap := jb.heap.alloc frame f }, some frame)
    | none => some (jb, none)

def queuePut (jb : Jitterbuf α) (data : α) (type : FrameType) (ms ts : ℤ) (mem : Option ℕ)
    (fuel : ℕ) : Option (PutOutcome α) := do
  let resyncTs := ts - jb.info.resyncOffset
  let f : JbFrame α := ⟨data, resyncTs, ms, type⟩
  let (jb, frame) ← takeNode jb f mem
  match frame with
  | none => some ⟨jb, false, none⟩
  | some frame =>
    let jb := { jb with info := { jb.info with framesCur := jb.info.framesCur + 1 } }
    match jb.frames with
    | none =>
      let h ← jb.heap.setNext frame (some frame)
      let h ← h.setPrev frame (some frame)
      some ⟨{ jb with heap := h, frames := some frame }, true, some f⟩
    | some first =>
      let cell ← jb.heap first
      if resyncTs < cell.val.ts then
        let h ← linkBefore jb.heap frame first
        some ⟨{ jb with
          heap := h, frames := some frame,
          info := { jb.info with framesOoo := jb.info.framesOoo + 1 } }, true, some f⟩
      else
        let last ← jb.heap (← cell.prev)
        let ooo := if resyncTs < last.val.ts then jb.info.framesOoo + 1 else jb.info.framesOoo
        let p ← findPlace resyncTs jb.heap first fuel first
        let h ← linkBefore jb.heap frame p
        some ⟨{ jb with heap := h, info := { jb.info with framesOoo := ooo } }, false, some f⟩

def queueNext (jb : Jitterbuf α) : Option ℤ :=
  match jb.frames with
  | some frame => (jb.heap frame).map fun cell => cell.val.ts
  | none => some (-1)

def queueLast (jb : Jitterbuf α) : Option ℤ :=
  match jb.frames with
  | some frame => do
    let cell ← jb.heap frame
    let last ← jb.heap (← cell.prev)
    some last.val.ts
  | none => some (-1)

/-- `_queue_get` -/
def queueGetFirst (jb : Jitterbuf α) (ts : ℤ) (all : Bool) :
    Option (Jitterbuf α × Option (JbFrame α)) :=
  match jb.frames with
  | none => some (jb, none)
  | some frame => do
    let cell ← jb.heap frame
    if all = true ∨ ts ≥ cell.val.ts then
      let prev ← cell.prev
      let h ← jb.heap.setNext prev cell.next
      let next ← (← h frame).next
      let h ← h.setPrev next (some prev)
      let frames := if next = frame then none else some next
      let h ← h.setNext frame jb.free
      some ({ jb with
        heap := h, frames := frames, free := some frame,
        info := { jb.info with framesCur := jb.info.framesCur - 1 } }, some cell.val)
    else some (jb, none)

def queueGet (jb : Jitterbuf α) (ts : ℤ) : Option (Jitterbuf α × Option (JbFrame α)) :=
  queueGetFirst jb ts false

def queueGetall (jb : Jitterbuf α) : Option (Jitterbuf α × Option (JbFrame α)) :=
  queueGetFirst jb 0 true

/-- The arguments of `jb_put`, with the node that `malloc` returns, if it is called and succeeds. -/
structure PutCall (α : Type) where
  data : α
  type : FrameType
  ms : ℤ
  ts : ℤ
  now : ℤ
  mem : Option ℕ
  deriving DecidableEq, Repr

def jbPut (jb : Jitterbuf α) (c : PutCall α) (fuel : ℕ) :
    Option (Jitterbuf α × JbRet × Option (JbFrame α)) :=
  let jb := { jb with info := { jb.info with framesIn := jb.info.framesIn + 1 } }
  let (jb, fits) := if c.type = .voice then historyPut jb c.ts c.now else (jb, true)
  if fits then do
    let out ← queuePut jb c.data c.type c.ms c.ts c.mem fuel
    some (out.jb, if out.head then .sched else .ok, out.queued)
  else some (jb, .drop, none)

inductive FrameOut (α : Type) where
  | untouched
  | frame (f : JbFrame α)
  | ms (ms : ℤ)
  deriving DecidableEq, Repr

structure GetOutcome (α : Type) where
  jb : Jitterbuf α
  ret : JbRet
  out : FrameOut α

def setTarget (jb : Jitterbuf α) : Jitterbuf α :=
  let target := jb.info.jitter + jb.info.min + targetExtra
  let target := if jb.conf.maxJitterbuf ≠ 0 ∧ target - jb.info.min > jb.conf.maxJitterbuf then
    jb.info.min + jb.conf.maxJitterbuf else target
  { jb with info := { jb.info with target := target } }

def interpolated (conf : JbConf) (info : JbInfo) (interpl : ℤ) : JbInfo :=
  let info := { info with
    nextVoiceTs := info.nextVoiceTs + interpl, lastVoiceMs := interpl
    cntContigInterp := info.cntContigInterp + 1 }
  if conf.maxContigInterp ≠ 0 ∧ info.cntContigInterp ≥ conf.maxContigInterp then
    { info with silenceBeginTs := info.nextVoiceTs - info.current }
  else info

/-- `_jb_get` while voice is played. -/
def getVoice (jb : Jitterbuf α) (frame : Option (JbFrame α)) (diff now interpl : ℤ) :
    GetOutcome α :=
  let info := jb.info
  match frame with
  | some f =>
    if f.type ≠ .voice then
      let info :=
        if f.type = .silence then { info with silenceBeginTs := f.ts, cntContigInterp := 0 }
        else info
      ⟨{ jb with info := { info with framesOut := info.framesOut + 1 } }, .ok, .frame f⟩
    else if f.ts + info.current < info.nextVoiceTs then
      if f.ts + info.current > info.nextVoiceTs - info.lastVoiceMs then
        ⟨{ jb with info := { decrementLosspct info with
          nextVoiceTs := f.ts + info.current + f.ms, framesOut := info.framesOut + 1
          cntContigInterp := 0 } }, .ok, .frame f⟩
      else
        ⟨{ jb with info := { decrementLosspct info with
          framesOut := info.framesOut + 1, framesLate := info.framesLate + 1
          framesLost := info.framesLost - 1 } }, .drop, .frame f⟩
    else
      let info := if f.ms > 0 then { info with lastVoiceMs := f.ms } else info
      if diff < -targetExtra ∧ info.lastAdjustment + 500 < now then
        ⟨{ jb with info := { decrementLosspct info with
          lastAdjustment := now, cntContigInterp := 0, current := info.current - f.ms
          framesOut := info.framesOut + 1, framesDropped := info.framesDropped + 1 } },
          .drop, .frame f⟩
      else
        ⟨{ jb with info := { decrementLosspct info with
          nextVoiceTs := info.nextVoiceTs + f.ms, framesOut := info.framesOut + 1
          cntContigInterp := 0 } }, .ok, .frame f⟩
  | none =>
    let lost := incrementLosspct { info with framesLost := info.framesLost + 1 }
    if diff < -targetExtra ∧ (info.lastAdjustment + 80 < now ∨ info.lastAdjustment + 500 < now) then
      ⟨{ jb with info := { lost with
        lastAdjustment := now, cntContigInterp := 0, current := info.current - info.lastVoiceMs } },
        .noframe, .untouched⟩
    else ⟨{ jb with info := interpolated jb.conf lost interpl }, .interp, .untouched⟩

/-- `_jb_get` in a silence. -/
def getSilent (jb : Jitterbuf α) : Option (JbFrame α) → GetOutcome α
  | none => ⟨jb, .noframe, .untouched⟩
  | some f =>
    let info := jb.info
    if f.type ≠ .voice then
      ⟨{ jb with info := { info with framesOut := info.framesOut + 1 } }, .ok, .frame f⟩
    else if f.ts < info.silenceBeginTs then
      ⟨{ jb with info := { decrementLosspct info with
        framesOut := info.framesOut + 1, framesLate := info.framesLate + 1
        framesLost := info.framesLost - 1 } }, .drop, .frame f⟩
    else
      ⟨{ jb with info := { decrementLosspct info with
        current := info.target, silenceBeginTs := 0, nextVoiceTs := f.ts + info.target + f.ms
        lastVoiceMs := f.ms, framesOut := info.framesOut + 1 } }, .ok, .frame f⟩

/-- `_jb_get` -/
def jbGetRaw (jb : Jitterbuf α) (now interpl : ℤ) : Option (GetOutcome α) := do
  let jb := setTarget (historyGet jb)
  let diff := jb.info.target - jb.info.current
  if jb.info.silenceBeginTs = 0 then
    let length := (← queueLast jb) - (← queueNext jb)
    if diff > 0 ∧ (jb.info.lastAdjustment + adjustDelay < now ∨ diff > length) then
      let info := { jb.info with current := jb.info.current + interpl, lastAdjustment := now }
      some ⟨{ jb with info := interpolated jb.conf info interpl }, .interp, .untouched⟩
    else
      let (jb, frame) ← queueGet jb (jb.info.nextVoiceTs - jb.info.current)
      some (getVoice jb frame diff now interpl)
  else
    let jb := if diff < -targetExtra ∧ jb.info.lastAdjustment + 10 ≤ now then
        { jb with
          info := { jb.info with current := jb.info.current - interpl, lastAdjustment := now } }
      else jb
    let (jb, frame) ← queueGet jb (now - jb.info.current)
    some (getSilent jb frame)

def jbGet (jb : Jitterbuf α) (now interpl : ℤ) : Option (GetOutcome α) := do
  let out ← jbGetRaw jb now interpl
  some (if out.ret = .interp then { out with out := .ms out.jb.info.lastVoiceMs } else out)

def jbGetall (jb : Jitterbuf α) : Option (GetOutcome α) := do
  let (jb, frame) ← queueGetall jb
  some <| match frame with
    | none => ⟨jb, .noframe, .untouched⟩
    | some f => ⟨jb, .ok, .frame f⟩

def jbNext (jb : Jitterbuf α) : Option (Jitterbuf α × ℤ) :=
  if jb.info.silenceBeginTs ≠ 0 then do
    let next ← queueNext jb
    if next ≥ 0 then
      let jb := historyGet jb
      if jb.info.target - jb.info.current < -targetExtra then some (jb, jb.info.lastAdjustment + 10)
      else some (jb, next + jb.info.target)
    else some (jb, longmax)
  else some (jb, jb.info.nextVoiceTs)

def jbSetconf (jb : Jitterbuf α) (conf : JbConf) : Jitterbuf α :=
  jbReset { jb with
    conf := { conf with
      minJitterbuf := if conf.minJitterbuf = -1 then targetExtra else conf.minJitterbuf } }

/-- A buffer in use. The data of a frame is tagged with the number of `jb_put` calls before its own.
It records the frames that were queued, handed back, and queued when the configuration was changed.
-/
structure Session (α : Type) where
  jb : Jitterbuf (ℕ × α)
  calls : ℕ
  queued : List (JbFrame (ℕ × α))
  back : List (JbFrame (ℕ × α))
  reset : List (JbFrame (ℕ × α))

inductive Op (α : Type) where
  | put (c : PutCall α)
  | get (now interpl : ℤ)
  | getall
  | next
  | setconf (conf : JbConf)
  deriving DecidableEq, Repr

def Session.new (conf : JbConf) : Session α := ⟨jbNew conf, 0, [], [], []⟩

def GetOutcome.handed (g : GetOutcome α) : List (JbFrame α) :=
  match g.ret, g.out with
  | .ok, .frame f => [f]
  | .drop, .frame f => [f]
  | _, _ => []

/-- Follow the queue from a node on, up to the first frame of the buffer. -/
def collect (h : Cells (JbFrame α)) (first : ℕ) : ℕ → ℕ → Option (List (JbFrame α))
  | 0, _ => none
  | fuel + 1, a => do
    let cell ← h a
    let next ← cell.next
    if next = first then some [cell.val] else (collect h first fuel next).map (cell.val :: ·)

def Jitterbuf.contents (jb : Jitterbuf α) (fuel : ℕ) : Option (List (JbFrame α)) :=
  match jb.frames with
  | none => some []
  | some first => collect jb.heap first fuel first

def step (s : Session α) : ℕ × Op α → Option (Session α)
  | (fuel, .put c) => do
    let (jb, _, queued) ← jbPut s.jb
      { data := (s.calls,
        c.data), type := c.type, ms := c.ms, ts := c.ts, now := c.now, mem := c.mem } fuel
    some { s with jb := jb, calls := s.calls + 1, queued := s.queued ++ queued.toList }
  | (_, .get now interpl) => do
    let out ← jbGet s.jb now interpl
    some { s with jb := out.jb, back := s.back ++ out.handed }
  | (_, .getall) => do
    let out ← jbGetall s.jb
    some { s with jb := out.jb, back := s.back ++ out.handed }
  | (_, .next) => do
    let (jb, _) ← jbNext s.jb
    some { s with jb := jb }
  | (fuel, .setconf conf) => do
    let rest ← s.jb.contents fuel
    some { s with jb := jbSetconf s.jb conf, reset := s.reset ++ rest }

def Op.Allowed (s : Session α) : Op α → Prop
  | .put c => ∀ a ∈ c.mem, s.jb.heap a = none
  | _ => True

instance (s : Session α) : (op : Op α) → Decidable (op.Allowed s)
  | .put _ => inferInstanceAs (Decidable (∀ a ∈ (_ : Option ℕ), _))
  | .get _ _ => inferInstanceAs (Decidable True)
  | .getall => inferInstanceAs (Decidable True)
  | .next => inferInstanceAs (Decidable True)
  | .setconf _ => inferInstanceAs (Decidable True)

end CallWeaver.Jitter.Adaptive
