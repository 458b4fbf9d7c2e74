import CallWeaver.Base.Runs

/-! # The batch of call detail records

Threads append records to a batch, and others submit it: they take its whole list and post it. The
batch is changed under a lock, but a submission looks at `batch` and `batch->head` before it locks.
So each write to these is a step of its own, with the writes to other memory that follow it under
the lock.
-/

namespace CallWeaver.Cdr

open Function

/-- `struct cw_cdr_batch_item` -/
structure BatchItem where
  cdr : Option ℕ
  next : Option ℕ
  deriving DecidableEq, Repr

/-- `struct cw_cdr_batch` -/
structure Batch where
  size : ℤ
  head : Option ℕ
  tail : Option ℕ
  deriving DecidableEq, Repr

/-- The options of `cdr.conf`. -/
structure Config where
  enabled : Bool
  batchmode : Bool
  batchsize : ℤ
  batchscheduleronly : Bool
  deriving DecidableEq, Repr

/-- Where a thread is in `cw_cdr_detach` or `cw_cdr_submit_batch`, and what it does next. -/
inductive Pc where
  | idle
  /-- `cw_cdr_detach` with its new item: take the lock -/
  | detachLock (cdr newtail : ℕ)
  /-- see whether there is a batch -/
  | detachInit (cdr newtail : ℕ)
  /-- `reset_batch`, in `init_batch` -/
  | detachReset (cdr newtail : ℕ)
  /-- link the new item -/
  | detachLink (cdr newtail : ℕ)
  | detachUnlock (curr : ℤ)
  /-- see whether there is enough to post -/
  | detachCheck (curr : ℤ)
  /-- `cw_cdr_submit_batch`: see whether there is a batch -/
  | submitBatch (shutdown : Bool)
  /-- see whether there are records -/
  | submitHead (shutdown : Bool)
  | submitLock (shutdown : Bool)
  /-- take the items, and `reset_batch` -/
  | submitReset (shutdown : Bool)
  | submitUnlock (shutdown : Bool) (oldbatchitems : Option ℕ)
  /-- choose the thread that posts them -/
  | submitThread (shutdown : Bool) (oldbatchitems : Option ℕ)
  /-- `do_batch_backend_process` -/
  | posting (batchitem : Option ℕ)
  deriving DecidableEq, Repr

structure State where
  batch : Option Batch
  item : ℕ → BatchItem
  allocated : ℕ → Bool
  lock : Option ℕ
  /-- whether a submission is scheduled to occur at once -/
  scheduled : Bool
  pc : ℕ → Pc

inductive Act where
  /-- `cw_cdr_detach` is called, and an item is allocated if there is memory -/
  | detach (t cdr : ℕ) (newtail : Option ℕ)
  /-- the batch is allocated, with arbitrary contents -/
  | malloc (t : ℕ) (garbage : Batch)
  /-- the item of a record is linked to the batch and filled -/
  | link (t cdr : ℕ)
  /-- `cw_cdr_submit_batch` is called -/
  | submit (t : ℕ) (shutdown : Bool)
  /-- the items of the batch are taken, and it is reset -/
  | reset (t : ℕ)
  /-- the items are left to a new thread, or posted by the same one -/
  | thread (t : ℕ) (batchPostThread : Option ℕ)
  /-- a record is handed to `post_cdr` -/
  | post (t cdr : ℕ)
  /-- any other step -/
  | run (t : ℕ)
  deriving DecidableEq, Repr

def resetBatch : Batch := ⟨0, none, none⟩

def State.goto (s : State) (t : ℕ) (pc : Pc) : State := { s with pc := update s.pc t pc }

def State.acquire (s : State) (t : ℕ) (pc : Pc) : Option State :=
  if s.lock = none then some { s.goto t pc with lock := some t } else none

def State.release (s : State) (t : ℕ) (pc : Pc) : State := { s.goto t pc with lock := none }

/-- `cw_cdr_detach` up to the lock. -/
def detach (c : Config) (s : State) (t cdr : ℕ) (newtail : Option ℕ) : Option State :=
  if ¬ c.enabled then some s
  else if ¬ c.batchmode then some s
  else match newtail with
    | none => some s
    | some newtail =>
      if s.allocated newtail then none
      else some { s.goto t (.detachLock cdr newtail) with
        item := update s.item newtail ⟨none, none⟩
        allocated := update s.allocated newtail true }

/-- The end of `cw_cdr_detach` under the lock, for an item that is linked. -/
def fillItem (s : State) (t cdr newtail : ℕ) (batch : Batch) (item : ℕ → BatchItem) : State :=
  let curr := batch.size
  { s.goto t (.detachUnlock curr) with
    item := update item newtail { item newtail with cdr := some cdr }
    batch := some { batch with tail := some newtail, size := batch.size + 1 } }

/-- `cw_cdr_detach` under the lock, with a batch that is initialized. -/
def linkItem (s : State) (t cdr newtail : ℕ) : Option State := do
  let batch ← s.batch
  match batch.head with
  | none => some (fillItem s t cdr newtail { batch with head := some newtail } s.item)
  | some _ => do
    let tail ← batch.tail
    some (fillItem s t cdr newtail batch
      (update s.item tail { s.item tail with next := some newtail }))

def run (c : Config) (s : State) (t : ℕ) : Option State :=
  match s.pc t with
  | .detachLock cdr newtail => s.acquire t (.detachInit cdr newtail)
  | .detachInit cdr newtail =>
    if s.batch = none then none else some (s.goto t (.detachLink cdr newtail))
  | .detachReset cdr newtail =>
    some { s.goto t (.detachLink cdr newtail) with batch := some resetBatch }
  | .detachUnlock curr => some (s.release t (.detachCheck curr))
  | .detachCheck curr =>
    some { s.goto t .idle with scheduled := s.scheduled || decide (curr ≥ c.batchsize - 1) }
  | .submitBatch shutdown =>
    some (s.goto t (if s.batch = none then .idle else .submitHead shutdown))
  | .submitHead shutdown => do
    let batch ← s.batch
    some (s.goto t (if batch.head = none then .idle else .submitLock shutdown))
  | .submitLock shutdown => s.acquire t (.submitReset shutdown)
  | .submitUnlock shutdown old => some (s.release t (.submitThread shutdown old))
  | .posting none => some (s.goto t .idle)
  | _ => none

def step (c : Config) (s : State) : Act → Option State
  | .detach t cdr newtail => if s.pc t = .idle then detach c s t cdr newtail else none
  | .malloc t garbage =>
    match s.pc t with
    | .detachInit cdr newtail =>
      if s.batch = none then some { s.goto t (.detachReset cdr newtail) with batch := some garbage }
      else none
    | _ => none
  | .link t cdr =>
    match s.pc t with
    | .detachLink cdr' newtail =>
      if cdr = cdr' then linkItem s t cdr newtail else none
    | _ => none
  | .submit t shutdown => if s.pc t = .idle then some (s.goto t (.submitBatch shutdown)) else none
  | .reset t =>
    match s.pc t with
    | .submitReset shutdown => do
      let batch ← s.batch
      some { s.goto t (.submitUnlock shutdown batch.head) with batch := some resetBatch }
    | _ => none
  | .thread t batchPostThread =>
    match s.pc t with
    | .submitThread shutdown old =>
      match batchPostThread with
      | none => some (s.goto t (.posting old))
      | some u =>
        if c.batchscheduleronly ∨ shutdown then none
        else if s.pc u = .idle then some ((s.goto u (.posting old)).goto t .idle)
        else none
    | _ => none
  | .post t cdr =>
    match s.pc t with
    | .posting (some batchitem) =>
      if (s.item batchitem).cdr = some cdr then
        some { s.goto t (.posting (s.item batchitem).next) with
          allocated := update s.allocated batchitem false }
      else none
    | _ => none
  | .run t => run c s t

def initial : State := ⟨none, fun _ => ⟨none, none⟩, fun _ => false, none, false, fun _ => .idle⟩

end CallWeaver.Cdr
