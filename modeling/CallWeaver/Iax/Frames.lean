import CallWeaver.Base.Bytes

/-! # Full frames of a call

Two peers exchange ordinary full frames. Each is queued, sent, retransmitted until the `iseqno` of
an incoming packet acknowledges it, and accepted if its `oseqno` is the expected one. Packets may be
lost, delayed, reordered or duplicated. No function depends on the fields `number`, `created`,
`seen` and `others`, which are history. A peer that misses a frame asks for all frames from a number
on, and they are found by a comparison of octets.
-/

namespace CallWeaver.Iax

open List

section Frames

variable {α : Type*}

inductive Body (α : Type*) where
  | ordinary (payload : α)
  | ack
  | vnak
  deriving DecidableEq, Repr

structure Packet (α : Type*) where
  body : Body α
  oseqno : UInt8
  iseqno : UInt8
  /-- How many ordinary frames its sender had sent when the frame was made, itself included. -/
  created : ℕ
  /-- How many ordinary frames its sender had accepted when `iseqno` was written. -/
  seen : ℕ
  /-- How many ordinary frames its receiver had sent when `iseqno` was written. -/
  others : ℕ
  deriving DecidableEq, Repr

structure IaxFrame (α : Type*) where
  payload : α
  oseqno : UInt8
  iseqno : UInt8
  retries : ℤ
  sentyet : Bool
  /-- Its position among all ordinary frames that were sent. -/
  number : ℕ
  seen : ℕ
  others : ℕ
  deriving DecidableEq, Repr

def IaxFrame.packet (f : IaxFrame α) : Packet α where
  body := .ordinary f.payload
  oseqno := f.oseqno
  iseqno := f.iseqno
  created := f.number + 1
  seen := f.seen
  others := f.others

/-- `struct chan_iax2_pvt`: a peer with its part of the queue `iaxq`, the packets it has given to
the network, latest first, and the ordinary frames it has sent and accepted. -/
structure Pvt (α : Type*) where
  oseqno : UInt8
  iseqno : UInt8
  rseqno : UInt8
  aseqno : UInt8
  error : Bool
  iaxq : List (IaxFrame α)
  out : List (Packet α)
  sent : List α
  accepted : List α
  deriving DecidableEq, Repr

def maxRetries : ℤ := 4

def sendPacket (p : Pvt α) (pkt : Packet α) : Pvt α :=
  if p.error then p else { p with out := pkt :: p.out }

/-- `iax2_send` and `iax2_transmit` of an ordinary frame, with retransmission. -/
def iax2Send (p : Pvt α) (v : α) (others : ℕ) : Pvt α :=
  let fr : IaxFrame α :=
    { payload := v, oseqno := p.oseqno, iseqno := p.iseqno, retries := 0, sentyet := false
      number := p.sent.length, seen := p.accepted.length, others := others }
  { p with
    oseqno := p.oseqno + 1
    aseqno := p.iseqno
    iaxq := p.iaxq ++ [fr]
    sent := p.sent ++ [v] }

def sendCommandImmediate (p : Pvt α) (body : Body α) (seqno : UInt8) (others : ℕ) : Pvt α :=
  sendPacket { p with aseqno := p.iseqno }
    { body := body, oseqno := seqno, iseqno := p.iseqno
      created := p.sent.length, seen := p.accepted.length, others := others }

def iax2Vnak (p : Pvt α) (others : ℕ) : Pvt α := sendCommandImmediate p .vnak p.iseqno others

/-- A frame of the queue in `network_thread`. -/
def networkStep (p : Pvt α) (f : IaxFrame α) : Pvt α :=
  if f.sentyet then { p with iaxq := p.iaxq ++ [f] }
  else
    let p := sendPacket p f.packet
    if f.retries < 0 then p
    else { p with iaxq := p.iaxq ++ [{ f with sentyet := true, retries := f.retries + 1 }] }

/-- The loop of `network_thread` over the queue. -/
def networkPass (p : Pvt α) : Pvt α := p.iaxq.foldl networkStep { p with iaxq := [] }

def updatePacket (p : Pvt α) (f : IaxFrame α) (others : ℕ) : IaxFrame α :=
  { f with iseqno := p.iseqno, seen := p.accepted.length, others := others }

def attemptTransmit (p : Pvt α) (i : ℕ) (others : ℕ) : Option (Pvt α) :=
  match p.iaxq[i]? with
  | none => none
  | some f =>
    if !f.sentyet then none
    else if f.retries < 0 ∨ maxRetries ≤ f.retries then
      some { p with
        error := p.error || decide (maxRetries ≤ f.retries)
        iaxq := p.iaxq.eraseIdx i }
    else
      let f := updatePacket p f others
      let p := sendPacket p f.packet
      some { p with iaxq := p.iaxq.set i { f with retries := f.retries + 1 } }

def vnakRetransmit (p : Pvt α) (last : UInt8) : Pvt α :=
  (p.iaxq.filter fun f => last ≤ f.oseqno).foldl (fun p f => sendPacket p f.packet) p

def cancel (iaxq : List (IaxFrame α)) (x : UInt8) : List (IaxFrame α) :=
  iaxq.map fun f => if x = f.oseqno then { f with retries := -1 } else f

/-- The acknowledgement by `iseqno` in `socket_read`. -/
def handleAck (p : Pvt α) (iseqno : UInt8) : Pvt α :=
  if iseqno ∈ upTo p.rseqno p.oseqno ∨ p.oseqno = iseqno then
    { p with iaxq := (upTo p.rseqno iseqno).foldl cancel p.iaxq, rseqno := iseqno }
  else p

/-- `socket_read` of a full frame from the peer. -/
def socketRead (p : Pvt α) (pkt : Packet α) (others : ℕ) : Pvt α :=
  match pkt.body with
  | .ordinary v =>
    if p.iseqno ≠ pkt.oseqno then
      -- if it was seen already, it is acknowledged; otherwise one before it is missing
      if p.iseqno > pkt.oseqno then sendCommandImmediate p .ack pkt.iseqno others
      else iax2Vnak p others
    else
      let p := { p with iseqno := p.iseqno + 1, accepted := p.accepted ++ [v] }
      let p := handleAck p pkt.iseqno
      if p.aseqno ≠ p.iseqno then sendCommandImmediate p .ack pkt.iseqno others else p
  | .ack => handleAck p pkt.iseqno
  | .vnak => vnakRetransmit (handleAck p pkt.iseqno) pkt.iseqno

inductive Side where
  | a
  | b
  deriving DecidableEq, Repr

def Side.other : Side → Side
  | .a => .b
  | .b => .a

structure Call (α : Type*) where
  a : Pvt α
  b : Pvt α
  deriving DecidableEq, Repr

def Call.peer (c : Call α) : Side → Pvt α
  | .a => c.a
  | .b => c.b

def Call.set (c : Call α) : Side → Pvt α → Call α
  | .a, p => { c with a := p }
  | .b, p => { c with b := p }

inductive Event (α : Type*) where
  /-- A peer sends an ordinary frame. -/
  | send (x : Side) (v : α)
  /-- The network thread of a peer goes through its queue. -/
  | pass (x : Side)
  /-- The retransmission of a frame of the queue is due. -/
  | timer (x : Side) (i : ℕ)
  /-- A peer asks for retransmission, after a mini frame that it cannot use. -/
  | vnak (x : Side)
  /-- A packet that was sent by a peer arrives, counted from the latest one. -/
  | deliver (x : Side) (j : ℕ)
  deriving DecidableEq, Repr

def step (c : Call α) : Event α → Option (Call α)
  | .send x v => some (c.set x (iax2Send (c.peer x) v (c.peer x.other).sent.length))
  | .pass x => some (c.set x (networkPass (c.peer x)))
  | .timer x i =>
    (attemptTransmit (c.peer x) i (c.peer x.other).sent.length).map (c.set x)
  | .vnak x => some (c.set x (iax2Vnak (c.peer x) (c.peer x.other).sent.length))
  | .deliver x j =>
    match (c.peer x).out[j]? with
    | none => none
    | some pkt => some (c.set x.other (socketRead (c.peer x.other) pkt (c.peer x).sent.length))

def Pvt.start (oseqno iseqno : UInt8) : Pvt α where
  oseqno := oseqno
  iseqno := iseqno
  rseqno := oseqno
  aseqno := iseqno
  error := false
  iaxq := []
  out := []
  sent := []
  accepted := []

def Call.start (a b : UInt8) : Call α := ⟨.start a b, .start b a⟩

end Frames

variable {α : Type*}

abbrev Queued (α : Type*) := ℕ × IaxFrame α

def sendable (iaxs : ℕ → Option (Pvt α)) (f : Queued α) : Bool :=
  f.1 ≠ 0 && (iaxs f.1).any (!·.error)

/-- The frames that `vnak_retransmit` sends. -/
def vnakSends (iaxs : ℕ → Option (Pvt α)) (iaxq : List (Queued α)) (callno : ℕ) (last : UInt8) :
    List (Queued α) :=
  (iaxq.filter fun f => f.1 = callno && (iaxs f.1).isSome && last ≤ f.2.oseqno).filter
    (sendable iaxs)

def InInterval (last oseqno x : UInt8) : Prop := x - last < oseqno - last
  deriving Decidable

/-- The frames that are asked for and not yet acknowledged. -/
def missing (p : Pvt α) (iaxq : List (Queued α)) (callno : ℕ) (last : UInt8) : List (Queued α) :=
  iaxq.filter fun f => f.1 = callno && 0 ≤ f.2.retries && InInterval last p.oseqno f.2.oseqno

/-- Fewer than 128 frames are unacknowledged, those in the queue are numbered accordingly, and
`last` is a number of the window or the next one. -/
structure QueueWindow (p : Pvt α) (iaxq : List (Queued α)) (callno : ℕ) (last : UInt8) : Prop where
  size : p.oseqno - p.rseqno < 128
  last : last - p.rseqno ≤ p.oseqno - p.rseqno
  numbers : ∀ f ∈ iaxq, f.1 = callno → 0 ≤ f.2.retries → f.2.oseqno - p.rseqno < p.oseqno - p.rseqno

/-- No frame of the call stands on the other side of the step from 255 to 0 than `last`, and none
that is acknowledged has a number from `last` on. -/
def Straight (p : Pvt α) (iaxq : List (Queued α)) (callno : ℕ) (last : UInt8) : Prop :=
  ∀ f ∈ iaxq, f.1 = callno → if 0 ≤ f.2.retries then f.2.oseqno < p.rseqno ↔
    last < p.rseqno else f.2.oseqno < last

variable {p : Pvt α} {iaxs : ℕ → Option (Pvt α)} {iaxq : List (Queued α)} {callno : ℕ}
  {last r o x : UInt8}

theorem le_iff_inInterval (hsize : o - r < 128) (hlast : last - r ≤ o - r) (hx : x - r < o - r) :
    (last ≤ x ↔ InInterval last o x) ↔ (x < r ↔ last < r) := by
  have hl := last.toNat_lt
  have hx' := x.toNat_lt
  simp only [InInterval, UInt8.lt_iff_toNat_lt, UInt8.le_iff_toNat_le, UInt8.toNat_sub,
    UInt8.toNat_ofNat] at *
  omega

theorem vnakSends_eq (hcall : iaxs callno = some p) (hno : callno ≠ 0) :
    vnakSends iaxs iaxq callno last =
      iaxq.filter fun f => f.1 = callno && last ≤ f.2.oseqno && !p.error := by
  rw [vnakSends, filter_filter]
  apply filter_congr
  rintro ⟨n, f⟩ -
  by_cases hn : n = callno
  · subst hn
    simp [sendable, hcall, hno, Bool.and_comm]
  · simp [hn]

/-- Exactly the missing frames are sent if and only if the queue is straight, or the call has failed
and there are none. -/
theorem vnak_window_iff (hcall : iaxs callno = some p) (hno : callno ≠ 0)
    (hwindow : QueueWindow p iaxq callno last) :
    vnakSends iaxs iaxq callno last = missing p iaxq callno last ↔
      if p.error then missing p iaxq callno last = [] else Straight p iaxq callno last := by
  rw [vnakSends_eq hcall hno]
  cases herror : p.error with
  | true =>
    simp only [Bool.not_true, Bool.and_false, filter_false, if_true]
    exact eq_comm
  | false =>
    -- for each frame, being sent agrees with being missing
    have hframe : ∀ f ∈ iaxq, f.1 = callno →
        ((last ≤ f.2.oseqno ↔ 0 ≤ f.2.retries ∧ InInterval last p.oseqno f.2.oseqno) ↔
          if 0 ≤ f.2.retries then f.2.oseqno < p.rseqno ↔
              last < p.rseqno else f.2.oseqno < last) := by
      intro f hf hn
      by_cases hr : 0 ≤ f.2.retries
      · simp only [hr, true_and, if_true]
        exact le_iff_inInterval hwindow.size hwindow.last (hwindow.numbers f hf hn hr)
      · simp only [hr, false_and, if_false, iff_false, UInt8.not_le]
    simp only [Bool.false_eq_true, if_false, Bool.not_false, Bool.and_true, missing]
    constructor
    · intro heq f hf hn
      refine (hframe f hf hn).mp ?_
      have hmem := congrArg (f ∈ ·) heq
      simpa [mem_filter, hf, hn] using hmem
    · intro hstraight
      apply filter_congr
      intro f hf
      by_cases hn : f.1 = callno
      · rw [Bool.eq_iff_iff]
        simpa [hn] using (hframe f hf hn).mpr (hstraight f hf hn)
      · simp [hn]

def Pvt.window (rseqno oseqno : UInt8) : Pvt Unit :=
  { (.start oseqno 0 : Pvt Unit) with rseqno := rseqno }

/-- Frames of the first call with the given numbers, queued since their first transmission. -/
def queuedFrames (retries : ℤ) (numbers : List UInt8) : List (Queued Unit) :=
  numbers.map fun x => (1, ⟨(), x, 0, retries, true, 0, 0, 0⟩)

theorem vnak_window_iff_straight :
    vnakSends (fun _ => some (.window 5 9)) (queuedFrames 0 [5, 6, 7, 8]) 1 6 =
      missing (.window 5 9) (queuedFrames 0 [5, 6, 7, 8]) 1 6 :=
  (vnak_window_iff rfl (by decide) ⟨by decide, by decide, by decide⟩).mpr (by
    rw [if_neg (by decide)]
    unfold Straight
    decide)

/-- When the window passes from 255 to 0, the frames behind the step are not sent, and an
acknowledged one in front of it is. -/
theorem vnak_crossing_missed :
    (vnakSends (fun _ => some (.window 254 2)) (queuedFrames 0 [254, 255, 0, 1]) 1 254 =
        queuedFrames 0 [254, 255] ∧
      missing (.window 254 2) (queuedFrames 0 [254, 255, 0, 1]) 1 254 =
      queuedFrames 0 [254, 255, 0, 1]) ∧
    vnakSends (fun _ => some (.window 0 2)) (queuedFrames (-1) [255] ++ queuedFrames 0 [0, 1]) 1 0 =
        queuedFrames (-1) [255] ++ queuedFrames 0 [0, 1] ∧
      missing (.window 0 2) (queuedFrames (-1) [255] ++ queuedFrames 0 [0, 1]) 1 0 =
        queuedFrames 0 [0, 1] := by
  decide

end CallWeaver.Iax
