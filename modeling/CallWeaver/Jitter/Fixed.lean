import Mathlib.Algebra.Order.Group.Int
import CallWeaver.Base.Doubly
import CallWeaver.Base.Runs

/-! # The fixed jitter buffer

Frames wait in a doubly linked list, sorted by the time at which they are to be played. A frame
that does not fit is dropped, unless its timestamp has jumped: then the buffer takes it for the
successor of its last frame and shifts its own timestamps accordingly.
-/

namespace CallWeaver.Jitter

variable {α : Type}

structure ScxJbFrame (α : Type) where
  data : α
  ts : ℤ
  ms : ℤ
  delivery : ℤ
  deriving DecidableEq, Repr

structure ScxJbConf where
  jbsize : ℤ
  resyncThreshold : ℤ
  deriving DecidableEq, Repr

structure ScxJb (α : Type) where
  heap : Cells (ScxJbFrame α)
  frames : Option ℕ
  tail : Option ℕ
  conf : ScxJbConf
  rxcore : ℤ
  delay : ℤ
  nextDelivery : ℤ
  forceResynch : Bool

inductive ScxRet where
  | ok
  | drop
  | interp
  | noframe
  deriving DecidableEq, Repr

def scxJbNew (conf : ScxJbConf) : ScxJb α :=
  let conf : ScxJbConf :=
    { jbsize := if conf.jbsize < 1 then 200 else conf.jbsize
      resyncThreshold := if conf.resyncThreshold < 1 then 1000 else conf.resyncThreshold }
  { heap := fun _ => none, frames := none, tail := none, conf := conf, rxcore := 0,
    delay := conf.jbsize, nextDelivery := 0, forceResynch := false }

def getJbHead (jb : ScxJb α) : Option (ScxJb α × ScxJbFrame α) := do
  let fr ← jb.frames
  let cell ← jb.heap fr
  let jb ← match cell.next with
    | some next => (jb.heap.setPrev next none).map ({ jb with heap := ·, frames := some next })
    | none => some { jb with frames := none, tail := none }
  some ({ jb with
    nextDelivery := cell.val.delivery + cell.val.ms
    heap := jb.heap.free fr }, cell.val)

/-- The arguments of `scx_jb_put`, with the address that `calloc` returns for the new frame. -/
structure PutCall (α : Type) where
  data : α
  ms : ℤ
  ts : ℤ
  now : ℤ
  addr : ℕ
  deriving DecidableEq, Repr

/-- The buffer after `scx_jb_put`, what it returns, and the offsets that nested calls of
`resynch_jb` computed. -/
structure PutOutcome (α : Type) where
  jb : ScxJb α
  ret : ScxRet
  offsets : List ℤ

/-- The loop of `resynch_jb` over the frames. -/
def shiftTs (offset : ℤ) : ℕ → Cells (ScxJbFrame α) → Option ℕ → Option (Cells (ScxJbFrame α))
  | _, h, none => some h
  | 0, _, some _ => none
  | fuel + 1, h, some a => do
    let cell ← h a
    let h ← h.setVal a { cell.val with ts := cell.val.ts + offset }
    shiftTs offset fuel h cell.next

/-- For a frame that `put` adds to the buffer as it is, and `putFirst` to one that is initialized
for it. -/
def resynchJb (fuel : ℕ) (put putFirst : ScxJb α → Option (PutOutcome α)) (jb : ScxJb α) (ts : ℤ) :
    Option (PutOutcome α) :=
  match jb.frames with
  | none => if jb.tail = none then putFirst jb else none
  | some _ => do
    let tail ← jb.tail
    let last ← jb.heap tail
    let diff := ts - last.val.ts
    let offset := diff - last.val.ms
    if jb.forceResynch = false ∧ offset < jb.conf.resyncThreshold ∧
      offset > -jb.conf.resyncThreshold then
      some ⟨jb, .drop, [offset]⟩
    else
      let heap ← shiftTs offset fuel jb.heap jb.frames
      let out ← put { jb with
        forceResynch := false, rxcore := jb.rxcore - offset, heap := heap }
      some { out with offsets := offset :: out.offsets }

/-- The loop of `scx_jb_put` for the place of a frame. -/
def findPlace (delivery : ℤ) : ℕ → Cells (ScxJbFrame α) → Option ℕ → Option (Option ℕ)
  | _, _, none => some none
  | 0, _, some _ => none
  | fuel + 1, h, some a => do
    let cell ← h a
    if cell.val.delivery > delivery then findPlace delivery fuel h cell.prev else some (some a)

/-- Whether a frame at its place is dropped by `scx_jb_put`. -/
def covered (h : Cells (ScxJbFrame α)) (delivery ms : ℤ) : Option ℕ → Option Bool
  | none => some false
  | some frame => do
    let cell ← h frame
    if cell.val.delivery = delivery ∨ delivery < cell.val.delivery + cell.val.ms then some true
    else match cell.next with
      | none => some false
      | some next => do
        let cell ← h next
        some (decide (delivery + ms > cell.val.delivery))

/-- The insertion in `scx_jb_put`. -/
def insertFrame (jb : ScxJb α) (new : ℕ) (f : ScxJbFrame α) : Option ℕ → Option (ScxJb α)
  | some frame => do
    let h := jb.heap.alloc new f
    let next := (← h frame).next
    let h ← h.setNext frame (some new)
    match next with
    | some next =>
      let h ← h.setNext new (some next)
      let h ← h.setPrev next (some new)
      let h ← h.setPrev new (some frame)
      some { jb with heap := h }
    | none =>
      let h ← h.setNext new none
      let h ← h.setPrev new (some frame)
      some { jb with heap := h, tail := some new }
  | none =>
    match jb.frames with
    | none => if jb.tail = none then
        some { jb with heap := jb.heap.alloc new f, frames := some new, tail := some new }
      else none
    | some first => do
      let h ← (jb.heap.alloc new f).setNext new (some first)
      let h ← h.setPrev new none
      let h ← h.setPrev first (some new)
      some { jb with heap := h, frames := some new }

/-- The initialization in `scx_jb_put_first`. -/
def initFirst (jb : ScxJb α) (c : PutCall α) : ScxJb α :=
  { jb with rxcore := c.now - c.ts, nextDelivery := c.now + jb.delay }

/-- A failed assertion has no outcome. The fuel bounds the nesting of the calls and the length of
the list. -/
def scxJbPut (c : PutCall α) : ℕ → ScxJb α → Option (PutOutcome α)
  | 0, _ => none
  | fuel + 1, jb =>
    if ¬ (2 ≤ c.ms ∧ 0 ≤ c.ts ∧ 0 ≤ c.now) then none
    else
      let resynch :=
        resynchJb fuel (scxJbPut c fuel) (fun jb => scxJbPut c fuel (initFirst jb c)) jb c.ts
      let delivery := jb.rxcore + jb.delay + c.ts
      if delivery < jb.nextDelivery then resynch
      else if delivery > jb.nextDelivery + jb.delay + jb.conf.resyncThreshold then resynch
      else do
        let frame ← findPlace delivery fuel jb.heap jb.tail
        if ← covered jb.heap delivery c.ms frame then resynch
        else
          let jb ← insertFrame { jb with forceResynch := false } c.addr ⟨c.data, c.ts, c.ms,
            delivery⟩ frame
          some ⟨jb, .ok, []⟩

def scxJbPutFirst (c : PutCall α) (fuel : ℕ) (jb : ScxJb α) : Option (PutOutcome α) :=
  scxJbPut c fuel (initFirst jb c)

def scxJbSetForceResynch (jb : ScxJb α) : ScxJb α := { jb with forceResynch := true }

def scxJbGet (jb : ScxJb α) (now interpl : ℤ) : Option (ScxJb α × ScxRet × Option (ScxJbFrame α)) :=
  if ¬ (0 ≤ now ∧ 2 ≤ interpl) then none
  else if now < jb.nextDelivery then some (jb, .noframe, none)
  else match jb.frames with
    | none => some ({ jb with nextDelivery := jb.nextDelivery + interpl }, .interp, none)
    | some a => do
      let first ← jb.heap a
      if now > first.val.delivery + first.val.ms then
        let (jb, frame) ← getJbHead jb
        some (jb, .drop, some frame)
      else if now < first.val.delivery then
        some ({ jb with nextDelivery := jb.nextDelivery + interpl }, .interp, none)
      else
        let (jb, frame) ← getJbHead jb
        some (jb, .ok, some frame)

def scxJbRemove (jb : ScxJb α) : Option (ScxJb α × ScxRet × Option (ScxJbFrame α)) :=
  match jb.frames with
  | none => some (jb, .noframe, none)
  | some _ => (getJbHead jb).map fun p => (p.1, .ok, some p.2)

/-- A buffer in use: the frames that `scx_jb_get` has handed out, the time of the last call, and the
offsets of the last one that added a frame. -/
structure Session (α : Type) where
  jb : ScxJb α
  played : List (ScxJbFrame α)
  clock : ℤ
  offsets : List ℤ

inductive Op (α : Type) where
  | putFirst (c : PutCall α)
  | put (c : PutCall α)
  | get (now interpl : ℤ)
  | remove
  | setForceResynch
  deriving DecidableEq, Repr

def Session.new (conf : ScxJbConf) : Session α := ⟨scxJbNew conf, [], 0, []⟩

def step (s : Session α) : ℕ × Op α → Option (Session α)
  | (fuel, .putFirst c) => do
    let out ← scxJbPutFirst c fuel s.jb
    some { s with jb := out.jb, clock := c.now, offsets := out.offsets }
  | (fuel, .put c) => do
    let out ← scxJbPut c fuel s.jb
    some { s with jb := out.jb, clock := c.now, offsets := out.offsets }
  | (_, .get now interpl) => do
    let (jb, _, frame) ← scxJbGet s.jb now interpl
    some { s with jb := jb, clock := now, played := s.played ++ frame.toList }
  | (_, .remove) => do
    let (jb, _, _) ← scxJbRemove s.jb
    some { s with jb := jb }
  | (_, .setForceResynch) => some { s with jb := scxJbSetForceResynch s.jb }

/-- The address of a new frame is not in use, and its arguments pass the assertions. -/
def PutCall.Allowed (c : PutCall α) (jb : ScxJb α) : Prop :=
  (2 ≤ c.ms ∧ 0 ≤ c.ts ∧ 0 ≤ c.now) ∧ jb.heap c.addr = none
  deriving Decidable

def Op.Allowed (s : Session α) : Op α → Prop
  | .putFirst c => s.jb.frames = none ∧ c.Allowed s.jb
  | .put c => c.Allowed s.jb
  | .get now interpl => 0 ≤ now ∧ 2 ≤ interpl
  | .remove => True
  | .setForceResynch => True

instance (s : Session α) : (op : Op α) → Decidable (op.Allowed s)
  | .putFirst _ => inferInstanceAs (Decidable (_ ∧ _))
  | .put _ => inferInstanceAs (Decidable (PutCall.Allowed _ _))
  | .get _ _ => inferInstanceAs (Decidable (_ ∧ _))
  | .remove => inferInstanceAs (Decidable True)
  | .setForceResynch => inferInstanceAs (Decidable True)

end CallWeaver.Jitter
