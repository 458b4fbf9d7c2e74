import CallWeaver.Base.Bytes
import CallWeaver.Base.Runs
import CallWeaver.Core.Time

/-! # Trunks

The voice frames of all calls with one peer are sent in one packet. With trunk timestamps, an entry
carries the low half of its timestamp; the receiver takes the high half from the latest one of the
call. A frame is appended after a check for itself and a header of four bytes, and at most one
extension of the buffer, but with timestamps the header has six bytes, and a frame may be longer
than the extension.
-/

namespace CallWeaver.Iax.Trunk

open Option List

def defaultTrunkdata : ℕ := 640 * 10

def maxTrunkdata : ℕ := 640 * 200

def maxTimestampSkew : ℤ := 160

/-- `struct iax2_trunk_peer`. The data is what follows the headers of the packet. -/
structure TrunkPeer where
  txtrunktime : Timeval
  rxtrunktime : Timeval
  lasttxtime : Timeval
  trunkact : Timeval
  lastsent : ℕ
  trunkdata : List UInt8
  trunkdataalloc : ℕ
  calls : ℕ
  deriving DecidableEq, Repr

/-- A new peer of `find_tpeer`. -/
def newTpeer (now : Timeval) : TrunkPeer :=
  { txtrunktime := ⟨0, 0⟩, rxtrunktime := ⟨0, 0⟩, lasttxtime := ⟨0,
    0⟩, trunkact := now, lastsent := 9999, trunkdata := [], trunkdataalloc := 0, calls := 0 }

structure Voice where
  callno : ℕ
  ts : ℕ
  data : List UInt8
  deriving DecidableEq, Repr

/-- `struct cw_iax2_meta_trunk_mini` with the data, or `struct cw_iax2_meta_trunk_entry` without
trunk timestamps. -/
def trunkEntry (timestamps : Bool) (fr : Voice) : List UInt8 :=
  if timestamps then
    htons fr.data.length ++ htons fr.callno ++ htons (0xFFFF &&& fr.ts) ++ fr.data
  else htons fr.callno ++ htons fr.data.length ++ fr.data

/-- With whether `realloc` finds memory. The frame is lost where there is no result. -/
def iax2TrunkQueue (timestamps memory : Bool) (tpeer : TrunkPeer) (fr : Voice) :
    Option TrunkPeer := do
  let tpeer ←
    if tpeer.trunkdata.length + fr.data.length + 4 ≥ tpeer.trunkdataalloc then
      if tpeer.trunkdataalloc < maxTrunkdata then
        if memory then
          some { tpeer with trunkdataalloc := tpeer.trunkdataalloc + defaultTrunkdata }
        else none
      else none
    else some tpeer
  some { tpeer with
    trunkdata := tpeer.trunkdata ++ trunkEntry timestamps fr
    calls := tpeer.calls + 1 }

def calcTxpeerstamp (tpeer : TrunkPeer) (sampms : ℤ) (tv : Timeval) : TrunkPeer × ℕ :=
  let mssincetx := cwTvdiffMs tv tpeer.lasttxtime % 18446744073709551616
  let tpeer :=
    if mssincetx > 5000 ∨ cwTvzero tpeer.txtrunktime then
      { tpeer with txtrunktime := tv, lastsent := 999999 }
    else tpeer
  let ms := cwTvdiffMs tv tpeer.txtrunktime
  let pred : ℤ := toUnsigned (tpeer.lastsent + sampms)
  let ms := if |(ms - pred).bmod 4294967296| < maxTimestampSkew then pred else ms
  let ms : ℤ := if ms = tpeer.lastsent then toUnsigned (tpeer.lastsent + 1) else ms
  ({ tpeer with trunkact := tv, lasttxtime := tv, lastsent := toUnsigned ms }, toUnsigned ms)

def metaTrunk : UInt8 := 1

def metaTrunkFormat (timestamps : Bool) : UInt8 := if timestamps then 1 else 0

def sendTrunk (timestamps : Bool) (trunkfreq : ℤ) (tpeer : TrunkPeer) (now : Timeval) :
    TrunkPeer × Option (List UInt8) :=
  if tpeer.trunkdata.length ≠ 0 then
    let (tpeer, ts) := calcTxpeerstamp tpeer trunkfreq now
    ({ tpeer with trunkdata := [], calls := 0 },
      some (htons 0 ++ [metaTrunk, metaTrunkFormat timestamps] ++ htonl ts ++ tpeer.trunkdata))
  else (tpeer, none)

structure RxCall where
  voiceformat : ℤ
  started : Bool
  last : ℕ
  rxcore : Timeval
  deriving DecidableEq, Repr

def fixPeerts (tv : Timeval) (call : RxCall) (ts : ℕ) (now : Timeval) : RxCall × ℕ :=
  let call :=
    if cwTvzero call.rxcore then { call with rxcore := ⟨now.sec, now.usec - now.usec.tmod 20000⟩ }
    else call
  (call, toUnsigned (cwTvdiffMs tv call.rxcore + ts))

def unwrapTimestamp (last ts : ℕ) : ℕ :=
  if ts &&& 0xFFFF0000 = last &&& 0xFFFF0000 then
    let x := ((ts : ℤ) - last).bmod 4294967296
    if x < -50000 then ((last &&& 0xFFFF0000) + 0x10000) % 4294967296 ||| ts &&& 0xFFFF
    else if x > 50000 then
      ((last &&& 0xFFFF0000) + 4294967296 - 0x10000) % 4294967296 ||| ts &&& 0xFFFF
    else ts
  else ts

/-- What the receiver keeps of a trunk: the times of its peer, and the calls by their numbers at the
sender, as `find_callno` finds them. -/
structure Receiver where
  rxtrunktime : Timeval
  trunkact : Timeval
  calls : ℕ → Option RxCall

/-- What the entries use of a packet: the time of the trunk, its timestamp and the time of its
arrival. -/
structure Arrival where
  rxtrunktime : Timeval
  ts : ℕ
  now : Timeval
  deriving DecidableEq, Repr

def entryTs (a : Arrival) (call : RxCall) (trunkedTs : ℕ) : RxCall × ℕ :=
  if trunkedTs ≠ 0 then (call, call.last &&& 0xFFFF0000 ||| trunkedTs &&& 0xFFFF)
  else fixPeerts a.rxtrunktime call a.ts a.now

/-- One entry of a packet, for the call that it names, and the timestamp of the frame that
`schedule_delivery` passes on. -/
def takeEntry (a : Arrival) (call : RxCall) (trunkedTs : ℕ) : RxCall × Option ℕ :=
  if call.voiceformat > 0 then
    let (call, ts) := entryTs a call trunkedTs
    if call.started then
      (if call.last < ts then { call with last := ts } else call,
        some (unwrapTimestamp call.last ts))
    else (call, none)
  else (call, none)

/-- `schedule_delivery` for an entry. -/
def deliverEntry (a : Arrival) (calls : ℕ → Option RxCall) (e : Voice) :
    (ℕ → Option RxCall) × Option Voice :=
  let callno := e.callno &&& 0x7FFF
  match calls callno with
  | none => (calls, none)
  | some call =>
    let (call, ts) := takeEntry a call e.ts
    (Function.update calls callno (some call), ts.map (⟨callno, ·, e.data⟩))

def deliverEntries (a : Arrival) :
    (ℕ → Option RxCall) → List Voice → (ℕ → Option RxCall) × List Voice
  | calls, [] => (calls, [])
  | calls, e :: es =>
    let (calls, fr) := deliverEntry a calls e
    let (calls, frs) := deliverEntries a calls es
    (calls, fr.toList ++ frs)

def readEntries (metatype : UInt8) : ℕ → List UInt8 → List Voice
  | 0, _ => []
  | fuel + 1, bytes =>
    if metatype = metaTrunkFormat true then
      match bytes with
      | l₁ :: l₀ :: c₁ :: c₀ :: t₁ :: t₀ :: rest =>
        if ntohs l₁ l₀ > rest.length then []
        else ⟨ntohs c₁ c₀, ntohs t₁ t₀, rest.take (ntohs l₁ l₀)⟩ ::
          readEntries metatype fuel (rest.drop (ntohs l₁ l₀))
      | _ => []
    else if metatype = metaTrunkFormat false then
      match bytes with
      | c₁ :: c₀ :: l₁ :: l₀ :: rest =>
        if ntohs l₁ l₀ > rest.length then []
        else ⟨ntohs c₁ c₀, 0, rest.take (ntohs l₁ l₀)⟩ ::
          readEntries metatype fuel (rest.drop (ntohs l₁ l₀))
      | _ => []
    else []

def bufSize : ℕ := 4096

/-- The trunk branch of `socket_read`, with the frames that it delivers. -/
def socketRead (r : Receiver) (packet : List UInt8) (now : Timeval) : Receiver × List Voice :=
  match packet.take bufSize with
  | z₁ :: z₀ :: metacmd :: cmddata :: t₃ :: t₂ :: t₁ :: t₀ :: bytes =>
    if ntohs z₁ z₀ = 0 ∧ metacmd = metaTrunk then
      let ts := ntohl t₃ t₂ t₁ t₀
      let rxtrunktime := if ts = 0 ∨ cwTvzero r.rxtrunktime then now else r.rxtrunktime
      let (calls, frs) := deliverEntries ⟨rxtrunktime, ts, now⟩ r.calls
        (readEntries cmddata bytes.length bytes)
      ({ rxtrunktime := rxtrunktime, trunkact := now, calls := calls }, frs)
    else (r, [])
  | _ => (r, [])

/-- A trunk from one peer to the other, with what waits, what was sent and what was delivered. -/
structure Session where
  tpeer : TrunkPeer
  receiver : Receiver
  queued : List Voice
  sent : List Voice
  delivered : List Voice

/-- A frame for the trunk, or the packet that is due; a packet arrives before the next one is sent.
-/
inductive Op where
  | queue (fr : Voice) (memory : Bool)
  | send (now arrival : Timeval)
  deriving DecidableEq, Repr

/-- One operation of a trunk with timestamps, for a value of `trunkfreq`. -/
def step (trunkfreq : ℤ) (s : Session) : Op → Option Session
  | .queue fr memory =>
    match iax2TrunkQueue true memory s.tpeer fr with
    | none => some s
    | some tpeer => some { s with tpeer := tpeer, queued := s.queued ++ [fr] }
  | .send now arrival =>
    match sendTrunk true trunkfreq s.tpeer now with
    | (tpeer, none) => some { s with tpeer := tpeer }
    | (tpeer, some packet) =>
      let (receiver, frs) := socketRead s.receiver packet arrival
      some { tpeer := tpeer, receiver := receiver, queued := [], sent := s.sent ++ s.queued,
             delivered := s.delivered ++ frs }

section Buffer

/-- Trunk timestamps may be switched on and off in between. -/
inductive BufferOp where
  | queue (timestamps memory : Bool) (fr : Voice)
  | send (timestamps : Bool) (trunkfreq : ℤ) (now : Timeval)
  deriving DecidableEq, Repr

def bufferStep (tpeer : TrunkPeer) : BufferOp → Option TrunkPeer
  | .queue timestamps memory fr => some ((iax2TrunkQueue timestamps memory tpeer fr).getD tpeer)
  | .send timestamps trunkfreq now => some (sendTrunk timestamps trunkfreq tpeer now).1

/-- The header of an entry, `struct cw_iax2_meta_trunk_mini` or `struct cw_iax2_meta_trunk_entry`.
-/
def entryHdr (timestamps : Bool) : ℕ := if timestamps then 6 else 4

def TrunkPeer.InSpace (tpeer : TrunkPeer) : Prop := tpeer.trunkdata.length ≤ tpeer.trunkdataalloc

/-- The data stays within the allocated space, and a frame that is queued was appended there. -/
def Appended (s : TrunkPeer) (op : BufferOp) (t : TrunkPeer) : Prop :=
  t.InSpace ∧ match op with
    | .queue timestamps memory fr => (iax2TrunkQueue timestamps memory s fr).isSome →
        t.trunkdata = s.trunkdata ++ trunkEntry timestamps fr ∧
          s.trunkdata.length + (entryHdr timestamps + fr.data.length) ≤ t.trunkdataalloc
    | .send .. => True

/-- There is room for the whole entry, after one extension if the check asks for it and it succeeds.
-/
def Room (s : TrunkPeer) (op : BufferOp) (_ : TrunkPeer) : Prop :=
  match op with
  | .queue timestamps memory fr =>
    if s.trunkdata.length + fr.data.length + 4 ≥ s.trunkdataalloc then
      s.trunkdataalloc < maxTrunkdata ∧ memory →
        s.trunkdata.length + (entryHdr timestamps + fr.data.length) ≤
        s.trunkdataalloc + defaultTrunkdata
    else s.trunkdata.length + (entryHdr timestamps + fr.data.length) ≤ s.trunkdataalloc
  | .send .. => True

variable {s t tpeer : TrunkPeer} {timestamps memory : Bool} {fr : Voice} {op : BufferOp}
  {now : Timeval}

theorem length_trunkEntry (timestamps : Bool) (fr : Voice) :
    (trunkEntry timestamps fr).length = entryHdr timestamps + fr.data.length := by
  unfold trunkEntry entryHdr
  split <;> simp only [length_append, length_htons]

theorem iax2TrunkQueue_cases (timestamps memory : Bool) (s : TrunkPeer) (fr : Voice) :
    (iax2TrunkQueue timestamps memory s fr = none ∧
      s.trunkdataalloc ≤ s.trunkdata.length + fr.data.length + 4 ∧
        ¬(s.trunkdataalloc < maxTrunkdata ∧ memory)) ∨
      ∃ alloc calls, iax2TrunkQueue timestamps memory s fr = some { s with
          trunkdata := s.trunkdata ++ trunkEntry timestamps fr
          trunkdataalloc := alloc
          calls := calls } ∧
        if s.trunkdata.length + fr.data.length + 4 ≥ s.trunkdataalloc then
          (s.trunkdataalloc < maxTrunkdata ∧ memory) ∧ alloc = s.trunkdataalloc + defaultTrunkdata
        else alloc = s.trunkdataalloc := by
  unfold iax2TrunkQueue
  by_cases hfull : s.trunkdata.length + fr.data.length + 4 ≥ s.trunkdataalloc
  · simp only [if_pos hfull]
    by_cases hmax : s.trunkdataalloc < maxTrunkdata
    · cases memory with
      | true => exact .inr ⟨_, s.calls + 1, by rw [if_pos hmax]; rfl, ⟨hmax, rfl⟩, rfl⟩
      | false => exact .inl ⟨by simp, hfull, by simp⟩
    · exact .inl ⟨by simp [hmax], hfull, fun h => hmax h.1⟩
  · simp only [if_neg hfull]
    exact .inr ⟨_, _, rfl, rfl⟩

theorem sendTrunk_inSpace (h : tpeer.InSpace) (timestamps : Bool) (trunkfreq : ℤ) (now : Timeval) :
    (sendTrunk timestamps trunkfreq tpeer now).1.InSpace := by
  unfold sendTrunk
  split
  · exact Nat.zero_le _
  · exact h

theorem appended_iff (h : s.InSpace) (hs : bufferStep s op = some t) :
    Appended s op t ↔ Room s op t := by
  cases op with
  | send timestamps trunkfreq now =>
    cases hs
    exact iff_of_true ⟨sendTrunk_inSpace h timestamps trunkfreq now, trivial⟩ trivial
  | queue timestamps memory fr =>
    simp only [bufferStep, some.injEq] at hs
    simp only [Appended, Room]
    rcases iax2TrunkQueue_cases timestamps memory s fr with ⟨hq, hfull, hno⟩ |
      ⟨alloc, calls, hq, halloc⟩
    · rw [hq, getD_none] at hs
      subst hs
      rw [if_pos hfull, hq]
      exact iff_of_true ⟨h, nofun⟩ fun hyes => absurd hyes hno
    · rw [hq, getD_some] at hs
      subst hs
      simp only [TrunkPeer.InSpace, length_append, length_trunkEntry, hq, isSome_some,
        true_implies, true_and, and_self]
      split_ifs at halloc ⊢
      · rw [halloc.2, forall_prop_of_true halloc.1]
      · rw [halloc]

/-- In every run from a new trunk peer, the data stays within the allocated space if and only if
each frame that is queued finds room for its entry. -/
theorem trunk_buffer_iff (now : Timeval) (ops : List BufferOp) (t : TrunkPeer) :
    Runs bufferStep Appended (newTpeer now) ops t ↔ Runs bufferStep Room (newTpeer now) ops t :=
  Runs.iff_of_invariant (I := TrunkPeer.InSpace)
    (fun _ _ _ hi hs => ⟨appended_iff hi hs, fun ha => ha.1⟩) (Nat.zero_le _)

/-- With trunk timestamps, a second frame of 6229 bytes passes the check and ends one byte behind
the 6400 bytes that the first one got. -/
theorem trunk_buffer_exceeded : ∃ t, Runs bufferStep anyStep (newTpeer ⟨0, 0⟩)
        [.queue true true ⟨1, 0, replicate 160 0⟩, .queue true true ⟨1, 0, replicate 6229 0⟩] t ∧
      t.trunkdataalloc = 6400 ∧ t.trunkdata.length = 6401 := by
  -- the bytes of the frames do not matter
  have hrun : ∀ d₁ d₂ : List UInt8, d₁.length = 160 → d₂.length = 6229 →
    ∃ t, Runs bufferStep anyStep (newTpeer ⟨0, 0⟩)
          [.queue true true ⟨1, 0, d₁⟩, .queue true true ⟨1, 0, d₂⟩] t ∧
        t.trunkdataalloc = 6400 ∧ t.trunkdata.length = 6401 := by
    intro d₁ d₂ h₁ h₂
    refine ⟨_, .cons rfl trivial (.cons rfl trivial (.nil _)), ?_⟩
    constructor <;> simp [iax2TrunkQueue, newTpeer, length_trunkEntry, entryHdr, maxTrunkdata,
      defaultTrunkdata, h₁, h₂]
  exact hrun _ _ length_replicate length_replicate

end Buffer

end CallWeaver.Iax.Trunk
