import CallWeaver.Base.Runs

/-! # I/O contexts

A context has an array of descriptors to poll and, at the same indices, an array of records with
their callbacks. An entry is known by the address of an integer that holds its index. One that is
removed while callbacks run leaves a hole, and the holes are closed after the last callback.
-/

namespace CallWeaver.Io

open Function

/-- `struct pollfd` -/
structure PollFd where
  fd : ℤ
  events : ℤ
  revents : ℤ
  deriving DecidableEq, Repr

structure IoRec where
  callback : Option ℕ
  data : Option ℕ
  id : Option ℕ
  deriving DecidableEq, Repr

structure IoContext where
  fds : ℕ → PollFd
  ior : ℕ → IoRec
  fdcnt : ℕ
  maxfdcnt : ℕ
  currentIoc : ℤ
  needshrink : Bool
  ids : ℕ → Option ℤ

def growShrinkSize : ℕ := 512

def ioContextCreate : IoContext :=
  ⟨fun _ => ⟨0, 0, 0⟩, fun _ => ⟨none, none, none⟩, 0, growShrinkSize / 2, -1, false, fun _ => none⟩

def ioGrow (ioc : IoContext) : IoContext := { ioc with maxfdcnt := ioc.maxfdcnt + growShrinkSize }

def cwIoAdd (ioc : IoContext) (fd : ℤ) (callback : Option ℕ) (events : ℤ) (data : Option ℕ)
    (id : ℕ) : IoContext :=
  let ioc := if ioc.fdcnt ≥ ioc.maxfdcnt then ioGrow ioc else ioc
  { ioc with
    fds := update ioc.fds ioc.fdcnt ⟨fd, events, 0⟩
    ior := update ioc.ior ioc.fdcnt ⟨callback, data, some id⟩
    ids := update ioc.ids id (some ioc.fdcnt)
    fdcnt := ioc.fdcnt + 1 }

def cwIoChange (ioc : IoContext) (id : ℕ) (fd : ℤ) (callback : Option ℕ) (events : ℤ)
    (data : Option ℕ) : Option IoContext := do
  let x ← ioc.ids id
  if x < ioc.fdcnt then
    let p := ioc.fds x.toNat
    let r := ioc.ior x.toNat
    some { ioc with
      fds := update ioc.fds x.toNat { p with
        fd := if fd > -1 then fd else p.fd
        events := if events ≠ 0 then events else p.events }
      ior := update ioc.ior x.toNat { r with
        callback := callback <|> r.callback
        data := data <|> r.data } }
  else some ioc

/-- The loop of `io_shrink`. -/
def ioShrinkLoop : ℕ → ℕ → ℕ → IoContext → IoContext × ℕ
  | 0, _, putto, ioc => (ioc, putto)
  | n + 1, getfrom, putto, ioc =>
    match (ioc.ior getfrom).id with
    | none => ioShrinkLoop n (getfrom + 1) putto ioc
    | some id =>
      let ioc := if getfrom ≠ putto then
          { ioc with
            fds := update ioc.fds putto (ioc.fds getfrom)
            ior := update ioc.ior putto (ioc.ior getfrom)
            ids := update ioc.ids id (some putto) }
        else ioc
      ioShrinkLoop n (getfrom + 1) (putto + 1) ioc

def ioShrink (ioc : IoContext) : IoContext :=
  let (ioc, putto) := ioShrinkLoop ioc.fdcnt 0 0 ioc
  { ioc with fdcnt := putto, needshrink := false }

/-- The search of `cw_io_remove`. -/
def findId (ioc : IoContext) (id : ℕ) : ℕ → ℕ → Option ℕ
  | 0, _ => none
  | n + 1, x => if (ioc.ior x).id = some id then some x else findId ioc id n (x + 1)

def cwIoRemove (ioc : IoContext) (id : Option ℕ) : IoContext :=
  match id with
  | none => ioc
  | some id =>
    match findId ioc id ioc.fdcnt 0 with
    | none => ioc
    | some x =>
      let ioc := { ioc with
        ids := update ioc.ids id none
        ior := update ioc.ior x { ioc.ior x with id := none }
        fds := update ioc.fds x { ioc.fds x with events := 0, revents := 0 }
        needshrink := true }
      if ioc.currentIoc = -1 then ioShrink ioc else ioc

/-- The next entry of a pass that has an event, is in use and has a callback, among the `n` from `x`
on. The index of an entry without a callback is the current one only until the next is looked at. -/
def nextDue (ioc : IoContext) : ℕ → ℕ → Option ℕ
  | 0, _ => none
  | n + 1, x =>
    if (ioc.fds x).revents ≠ 0 ∧ (ioc.ior x).id ≠ none ∧ (ioc.ior x).callback ≠ none then some x
    else nextDue ioc n (x + 1)

/-- Where `cw_io_wait` is. -/
inductive Mode where
  /-- it is not running -/
  | idle
  /-- it looks at the entry `x` of `origcnt` next -/
  | pass (x origcnt : ℕ)
  /-- the callback of the entry `x` runs -/
  | callback (x origcnt : ℕ)
  deriving DecidableEq, Repr

structure State where
  ioc : IoContext
  mode : Mode

structure Call where
  callback : ℕ
  id : ℕ
  fd : ℤ
  revents : ℤ
  data : Option ℕ
  deriving DecidableEq, Repr

inductive Act where
  | add (fd : ℤ) (callback : Option ℕ) (events : ℤ) (data : Option ℕ) (id : ℕ)
  | change (id : ℕ) (fd : ℤ) (callback : Option ℕ) (events : ℤ) (data : Option ℕ)
  | remove (id : ℕ)
  /-- `cw_io_wait` is called, and `poll` returns `res` and the events of each entry -/
  | wait (res : ℤ) (revents : List ℤ)
  /-- the callback of the entry `x` is called -/
  | call (x : ℕ) (c : Call)
  /-- it returns -/
  | ret (res : ℤ)
  /-- `cw_io_wait` returns after its last callback -/
  | finish
  deriving DecidableEq, Repr

/-- What `poll` writes in `cw_io_wait`. -/
def poll (ioc : IoContext) (revents : List ℤ) : IoContext :=
  { ioc with fds := fun x =>
      if x < ioc.fdcnt then { ioc.fds x with revents := revents.getD x 0 } else ioc.fds x }

/-- Entries are added and removed by callbacks and outside of them, and changed outside only; an
address that is removed or changed is in use, and a new one is not. -/
def step (s : State) : Act → Option State
  | .add fd callback events data id =>
    match s.mode with
    | .pass _ _ => none
    | _ =>
      if s.ioc.ids id = none then some { s with ioc := cwIoAdd s.ioc fd callback events data id }
      else none
  | .change id fd callback events data =>
    match s.mode with
    | .idle => (cwIoChange s.ioc id fd callback events data).map fun ioc => { s with ioc := ioc }
    | _ => none
  | .remove id =>
    match s.mode with
    | .pass _ _ => none
    | _ => if s.ioc.ids id = none then none else some { s with ioc := cwIoRemove s.ioc (some id) }
  | .wait res revents =>
    match s.mode with
    | .idle => some ⟨poll s.ioc revents, if res > 0 then .pass 0 s.ioc.fdcnt else .idle⟩
    | _ => none
  | .call y c =>
    match s.mode with
    | .pass x origcnt =>
      match nextDue s.ioc (origcnt - x) x with
      | none => none
      | some x => do
        let id ← (s.ioc.ior x).id
        let callback ← (s.ioc.ior x).callback
        let currentIoc ← s.ioc.ids id
        if y = x ∧
          c = ⟨callback, id, (s.ioc.fds x).fd, (s.ioc.fds x).revents, (s.ioc.ior x).data⟩ then
          some ⟨{ s.ioc with currentIoc := currentIoc }, .callback x origcnt⟩
        else none
    | _ => none
  | .ret res =>
    match s.mode with
    | .callback x origcnt =>
      let ioc := if res = 0 then cwIoRemove s.ioc (s.ioc.ior x).id else s.ioc
      some ⟨{ ioc with currentIoc := -1 }, .pass (x + 1) origcnt⟩
    | _ => none
  | .finish =>
    match s.mode with
    | .pass x origcnt =>
      match nextDue s.ioc (origcnt - x) x with
      | none => some ⟨if s.ioc.needshrink then ioShrink s.ioc else s.ioc, .idle⟩
      | some _ => none
    | _ => none

def initial : State := ⟨ioContextCreate, .idle⟩

end CallWeaver.Io
