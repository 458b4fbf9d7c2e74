import CallWeaver.Base.Runs
import CallWeaver.Core.Strings

/-! # Callers of a call queue

The callers in a queue are linked in the order in which they will be served. An entry lives on the
stack of its caller's thread from the call to join until it has left. Joining and leaving walk
through the whole list and number it again.
-/

namespace CallWeaver.Queue

open Function

inductive DeviceState where
  | invalid
  | unavailable
  | other
  deriving DecidableEq, Repr

/-- `enum queue_member_status` -/
inductive MemberStatus where
  | noMembers
  | noReachableMembers
  | normal
  deriving DecidableEq, Repr

inductive QueueResult where
  | joinempty
  | joinunavail
  | full
  deriving DecidableEq, Repr

/-- The texts that a caller takes over from a queue: `moh`, `announce` and `context`, of the same
sizes. -/
structure Texts where
  moh : CStr
  announce : CStr
  context : CStr
  deriving DecidableEq, Repr

/-- `struct queue_ent`; `parent` tells whether the entry points to the queue. -/
structure QueueEnt where
  parent : Bool
  texts : Texts
  pos : ℤ
  prio : ℤ
  opos : ℤ
  next : Option ℕ
  deriving DecidableEq, Repr

structure Settings where
  texts : Texts
  joinempty : ℕ
  maxlen : ℤ
  members : List DeviceState
  dead : Bool
  deriving DecidableEq, Repr

/-- `struct cw_call_queue` -/
structure CallQueue where
  settings : Settings
  count : ℤ
  head : Option ℕ
  ent : ℕ → QueueEnt

def queueEmptyStrict : ℕ := 2

def getMemberStatus : List DeviceState → MemberStatus → MemberStatus
  | [], result => result
  | .invalid :: members, result => getMemberStatus members result
  | .unavailable :: members, _ => getMemberStatus members .noReachableMembers
  | .other :: _, _ => .normal

/-- Why `join_queue` refuses a caller. -/
def refusal (q : CallQueue) : Option QueueResult :=
  let stat := getMemberStatus q.settings.members .noMembers
  if q.settings.joinempty = 0 ∧ stat = .noMembers then some .joinempty
  else if q.settings.joinempty = queueEmptyStrict ∧ stat = .noReachableMembers then
    some .joinunavail
  else if q.settings.maxlen ≠ 0 ∧ q.count ≥ q.settings.maxlen then some .full
  else none

def setLink (q : CallQueue) (prev p : Option ℕ) : CallQueue :=
  match prev with
  | some prev => { q with ent := update q.ent prev { q.ent prev with next := p } }
  | none => { q with head := p }

def getLink (q : CallQueue) (prev : Option ℕ) : Option ℕ :=
  match prev with
  | some prev => (q.ent prev).next
  | none => q.head

def setPos (q : CallQueue) (cur : ℕ) (pos : ℤ) : CallQueue :=
  { q with ent := update q.ent cur { q.ent cur with pos := pos } }

def insertEntry (q : CallQueue) (prev : Option ℕ) (new : ℕ) (pos : ℤ) : CallQueue × ℤ :=
  let cur := getLink q prev
  let q := setLink q prev (some new)
  let entry := { q.ent new with next := cur, parent := true, pos := pos + 1, opos := pos + 1 }
  ({ q with ent := update q.ent new entry }, pos + 1)

/-- The loop of `join_queue`, from the entry `cur` on: the queue, the last entry, the position and
whether the caller has been inserted. -/
def joinLoop (qe : ℕ) :
    ℕ → CallQueue → Option ℕ → Option ℕ → ℤ → Bool → Option (CallQueue × Option ℕ × ℤ × Bool)
  | 0, _, _, _, _, _ => none
  | _ + 1, q, prev, none, pos, inserted => some (q, prev, pos, inserted)
  | fuel + 1, q, prev, some cur, pos, inserted =>
    -- a caller of higher priority goes in front of the current one
    let insert := !inserted && decide ((q.ent qe).prio > (q.ent cur).prio)
    let (q, pos) := if insert then insertEntry q prev qe pos else (q, pos)
    let q := setPos q cur (pos + 1)
    joinLoop qe fuel q (some cur) (q.ent cur).next (pos + 1) (inserted || insert)

def joinQueue (q : CallQueue) (qe : ℕ) : Option (Option QueueResult × CallQueue) :=
  match refusal q with
  | some reason => some (some reason, q)
  | none => do
    let (q, prev, pos, inserted) ← joinLoop qe (q.count.toNat + 1) q none q.head 0 false
    let q := if inserted then q else (insertEntry q prev qe pos).1
    some (none, { q with
      ent := update q.ent qe { q.ent qe with texts := q.settings.texts }
      count := q.count + 1 })

/-- The loop of `leave_queue`. -/
def leaveLoop (qe : ℕ) : ℕ → CallQueue → Option ℕ → Option ℕ → ℤ → Option CallQueue
  | 0, _, _, _, _ => none
  | _ + 1, q, _, none, _ => some q
  | fuel + 1, q, prev, some cur, pos =>
    if cur = qe then
      let q := setLink { q with count := q.count - 1 } prev (q.ent cur).next
      leaveLoop qe fuel q prev (q.ent cur).next pos
    else
      let q := setPos q cur (pos + 1)
      leaveLoop qe fuel q (some cur) (q.ent cur).next (pos + 1)

def leaveQueue (q : CallQueue) (qe : ℕ) : Option (CallQueue × Bool) :=
  if (q.ent qe).parent then do
    let q ← leaveLoop qe (q.count.toNat + 1) q none q.head 0
    some (q, q.settings.dead && decide (q.count = 0))
  else some (q, false)

structure State where
  q : CallQueue
  onStack : ℕ → Bool
  destroyed : Bool

inductive Op where
  /-- A caller enters the application: its entry is set up with a priority, and it asks to join. A
  caller that is refused returns at once. -/
  | join (qe : ℕ) (prio : ℤ) (refused : Option QueueResult)
  /-- A caller leaves and stays in the application, which makes it leave once more in the end. -/
  | leave (qe : ℕ)
  /-- A caller leaves and returns from the application. -/
  | depart (qe : ℕ)
  /-- The settings are loaded again. -/
  | reload (settings : Settings)
  deriving DecidableEq, Repr

def freshEnt (prio : ℤ) : QueueEnt := ⟨false, ⟨[], [], []⟩, 0, prio, 0, none⟩

def step (s : State) : Op → Option State
  | .join qe prio refused =>
    if s.destroyed ∨ s.onStack qe then none
    else do
      let q := { s.q with ent := update s.q.ent qe (freshEnt prio) }
      let (reason, q) ← joinQueue q qe
      if reason = refused then
        some { s with q := q, onStack := update s.onStack qe reason.isNone }
      else none
  | .leave qe =>
    if s.destroyed ∨ ¬ s.onStack qe then none
    else do
      let (q, destroyed) ← leaveQueue s.q qe
      some { s with q := q, destroyed := destroyed }
  | .depart qe =>
    if s.destroyed ∨ ¬ s.onStack qe then none
    else do
      let (q, destroyed) ← leaveQueue s.q qe
      some { s with q := q, destroyed := destroyed, onStack := update s.onStack qe false }
  | .reload settings =>
    if s.destroyed then none else some { s with q := { s.q with settings := settings } }

def initial (settings : Settings) : State :=
  ⟨⟨settings, 0, none, fun _ => freshEnt 0⟩, fun _ => false, false⟩

end CallWeaver.Queue
