import Mathlib.Algebra.Order.Group.Int
import CallWeaver.Base.Runs

/-! # The call table

Calls live in a table by their number: ordinary calls in the lower half, trunk calls in the upper
one, to which a call may be moved before it has sent anything. A lookup searches each half up to a
bound that is recomputed when the table changes. A user may limit its calls that have been asked for
a password and have not answered.
-/

namespace CallWeaver.Iax.Calls

open Function List

def trunkCallStart : ℕ := 0x4000

def iaxMaxCalls : ℕ := 32768

def minReuseTime : ℤ := 60

/-- The fields of `struct sockaddr_in` that are compared. -/
structure SockaddrIn where
  sAddr : ℕ
  sinPort : ℕ
  deriving DecidableEq, Repr

/-- The part of `struct chan_iax2_pvt` that the table and the limits depend on. -/
structure ChanIax2Pvt where
  callno : ℕ
  peercallno : ℕ
  addr : SockaddrIn
  transfer : SockaddrIn
  transferring : Bool
  oseqno : ℕ
  owner : Option ℕ
  username : String
  /-- The flag `IAX_MAXAUTHREQ` -/
  maxauthreq : Bool
  /-- The flag `IAX_ALREADYGONE` -/
  alreadygone : Bool
  deriving DecidableEq, Repr

/-- The part of `struct iax2_user` that the choice of a user and its limit depend on. -/
structure Iax2User where
  name : String
  secret : String
  inkeys : String
  ha : Bool
  maxauthreq : ℤ
  curauthreq : ℤ
  deriving DecidableEq, Repr

structure Driver where
  iaxs : ℕ → Option ChanIax2Pvt
  lastused : ℕ → ℤ
  maxnontrunkcall : ℕ
  maxtrunkcall : ℕ
  users : List Iax2User

/-- `match` -/
def matchCall (sin : SockaddrIn) (callno dcallno : ℕ) (cur : ChanIax2Pvt) : Bool :=
  (cur.addr = sin && (cur.peercallno = callno || (dcallno = cur.callno && cur.peercallno = 0))) ||
    (cur.transfer = sin && cur.transferring && dcallno = cur.callno)

def updateMax (iaxs : ℕ → Option ChanIax2Pvt) (start : ℕ) : ℕ → ℕ
  | 0 => start
  | n + 1 => if (iaxs (start + n)).isSome then start + n + 1 else updateMax iaxs start n

def updateMaxTrunk (d : Driver) : Driver :=
  { d with maxtrunkcall := updateMax d.iaxs trunkCallStart (iaxMaxCalls - 1 - trunkCallStart) }

def updateMaxNontrunk (d : Driver) : Driver :=
  { d with maxnontrunkcall := updateMax d.iaxs 1 (trunkCallStart - 1 - 1) }

/-- A number that `make_trunk` and `find_callno` may take. -/
def unused (d : Driver) (now : ℤ) (x : ℕ) : Bool :=
  (d.iaxs x).isNone && decide (now - d.lastused x > minReuseTime)

/-- The new number, or nothing where it returns -1. A number without a call has no outcome. -/
def makeTrunk (d : Driver) (callno : ℕ) (now : ℤ) : Option (Driver × Option ℕ) := do
  let pvt ← d.iaxs callno
  if pvt.oseqno ≠ 0 then some (d, none)
  else if callno &&& trunkCallStart ≠ 0 then some (d, none)
  else match (range' trunkCallStart (iaxMaxCalls - 1 - trunkCallStart)).find? (unused d now) with
    | none => some (d, none)
    | some x =>
      let iaxs := update (update d.iaxs x (some { pvt with callno := x })) callno none
      some (updateMaxNontrunk (updateMaxTrunk { d with iaxs := iaxs }), some x)

inductive New where
  | prevent
  | allow
  | force
  deriving DecidableEq, Repr

def newIax : ChanIax2Pvt where
  callno := 0
  peercallno := 0
  addr := ⟨0, 0⟩
  transfer := ⟨0, 0⟩
  transferring := false
  oseqno := 0
  owner := none
  username := ""
  maxauthreq := false
  alreadygone := false

/-- A new call in `find_callno`. -/
def newCall (sin : SockaddrIn) (callno x : ℕ) : ChanIax2Pvt :=
  { newIax with addr := sin, peercallno := callno, callno := x }

/-- The loops of `find_callno` over the two halves. -/
def lookup (d : Driver) (callno dcallno : ℕ) (sin : SockaddrIn) : ℕ :=
  let hit (x : ℕ) : Bool := (d.iaxs x).any (matchCall sin callno dcallno)
  match (range' 1 (d.maxnontrunkcall - 1)).find? hit with
  | some x => x
  | none => ((range' trunkCallStart (d.maxtrunkcall - trunkCallStart)).find? hit).getD 0

/-- `memory` says whether `new_iax` succeeds. -/
def findCallno (d : Driver) (callno dcallno : ℕ) (sin : SockaddrIn) (new : New) (now : ℤ)
    (memory : Bool) : Driver × ℕ :=
  let res := if new = .force then 0 else lookup d callno dcallno sin
  if res < 1 ∧ new ≠ .prevent then
    match (range' 1 (trunkCallStart - 1)).find? (unused d now) with
    | none => (d, 0)
    | some x =>
      if memory then
        (updateMaxNontrunk { d with iaxs := update d.iaxs x (some (newCall sin callno x)) }, x)
      else (updateMaxNontrunk d, 0)
  else (d, res)

def forUser (name : String) (f : Iax2User → Iax2User) : List Iax2User → List Iax2User
  | [] => []
  | user :: users => if user.name = name then f user :: users else user :: forUser name f users

/-- `iax2_predestroy` and `iax2_destroy` give the place of a call back to its user. -/
def releaseAuthreq (d : Driver) (pvt : ChanIax2Pvt) : Driver :=
  if pvt.maxauthreq then
    { d with
      users := forUser pvt.username (fun u => { u with curauthreq := u.curauthreq - 1 }) d.users }
  else d

def iax2Predestroy (d : Driver) (callno : ℕ) : Driver :=
  match d.iaxs callno with
  | none => d
  | some pvt =>
    let d := if pvt.alreadygone then d else releaseAuthreq d pvt
    { d with iaxs := update d.iaxs callno (some { pvt with alreadygone := true, owner := none }) }

def iax2Destroy (d : Driver) (callno : ℕ) (now : ℤ) : Driver :=
  let d := { d with lastused := update d.lastused callno now }
  let d := match d.iaxs callno with
    | none => d
    | some pvt =>
      { releaseAuthreq d pvt with
        iaxs := update d.iaxs callno
          (if pvt.owner = none then none else some { pvt with alreadygone := true }) }
  if callno &&& 0x4000 ≠ 0 then updateMaxTrunk d else d

/-- How well a user fits in `check_access`. -/
def score (user : Iax2User) : ℕ :=
  if user.secret = "" ∧ user.inkeys = "" then (if user.ha then 4 else 3)
  else if user.ha then 2 else 1

/-- Search the user list for a compatible entry, whose host and context are permitted. -/
def bestUser (permits : Iax2User → Bool) (username : String) :
    List Iax2User → Option Iax2User → ℕ → Option Iax2User
  | [], best, _ => best
  | user :: users, best, bestscore =>
    if (username = "" ∨ username = user.name) ∧ permits user then
      if username ≠ "" then some user
      else if bestscore < score user then bestUser permits username users (some user) (score user)
      else bestUser permits username users best bestscore
    else bestUser permits username users best bestscore

/-- The arguments of `check_access`: the user name and the version of the frame, the users whose
host and context are permitted, and the one that the database knows. -/
structure Access where
  username : Option String
  version : ℕ
  permits : Iax2User → Bool
  realtime : Option Iax2User

def checkAccess (users : List Iax2User) (a : Access) (pvt : ChanIax2Pvt) : ChanIax2Pvt :=
  let pvt := { pvt with username := a.username.getD pvt.username }
  -- `IAX_PROTO_VERSION`
  if a.version > 2 then pvt
  else
    let best := bestUser a.permits pvt.username users none 0
    let user :=
      if best = none ∧ pvt.username ≠ "" ∧ pvt.username.length < 128 then a.realtime else best
    match user with
    | none => pvt
    | some user =>
      { pvt with
        maxauthreq := pvt.maxauthreq || decide (user.maxauthreq > 0)
        username := if pvt.username = "" then user.name else pvt.username }

/-- And whether an AUTHREQ was sent. At the limit the call is rejected, which destroys it. -/
def authenticateRequest (d : Driver) (pvt : ChanIax2Pvt) : Driver × Bool :=
  match if pvt.maxauthreq then d.users.find? (·.name = pvt.username) else none with
  | some user =>
    if user.curauthreq = user.maxauthreq then (iax2Predestroy d pvt.callno, false)
    else ({ d with
      users := forUser pvt.username (fun u => { u with curauthreq := u.curauthreq + 1 }) d.users },
        true)
  | none => (d, true)

def authenticateVerify (d : Driver) (callno : ℕ) (pvt : ChanIax2Pvt) : Driver :=
  { releaseAuthreq d pvt with
    iaxs := update d.iaxs callno (some { pvt with maxauthreq := false }) }

/-- What has happened to a call: whether an AUTHREQ was sent and not yet verified, and the peers for
whom `find_callno` returned it with `NEW_ALLOW`. -/
structure History where
  pending : Bool
  sought : List (SockaddrIn × ℕ)
  deriving DecidableEq, Repr

def History.new : History := ⟨false, []⟩

structure Session where
  driver : Driver
  history : ℕ → History

inductive Op where
  | find (callno dcallno : ℕ) (sin : SockaddrIn) (new : New) (now : ℤ) (memory : Bool)
  | makeTrunk (c : ℕ) (now : ℤ)
  | access (c : ℕ) (a : Access)
  | request (c : ℕ)
  | verify (c : ℕ)
  | predestroy (c : ℕ)
  | destroy (c : ℕ) (now : ℤ)
  /-- The rest of the driver sends frames for a call and gives it an owner. -/
  | proceed (c oseqno : ℕ) (owner : Option ℕ)

def Session.start (users : List Iax2User) : Session :=
  ⟨⟨fun _ => none, fun _ => 0, 1, trunkCallStart, users⟩, fun _ => .new⟩

def found (s : Session) (callno : ℕ) (sin : SockaddrIn) (new : New) (res : ℕ) : ℕ → History :=
  if res = 0 then s.history
  else
    let h := if s.driver.iaxs res = none then .new else s.history res
    update s.history res
      (if new = .allow then { h with sought := (sin, callno) :: h.sought } else h)

def step (s : Session) : Op → Option Session
  | .find callno dcallno sin new now memory =>
    let (d, res) := findCallno s.driver callno dcallno sin new now memory
    some ⟨d, found s callno sin new res⟩
  | .makeTrunk c now => do
    let (d, res) ← makeTrunk s.driver c now
    match res with
    | none => some { s with driver := d }
    | some x => some ⟨d, update (update s.history x (s.history c)) c .new⟩
  | .access c a => do
    let pvt ← s.driver.iaxs c
    let pvt := checkAccess s.driver.users a pvt
    some { s with driver := { s.driver with iaxs := update s.driver.iaxs c (some pvt) } }
  | .request c => do
    let pvt ← s.driver.iaxs c
    let (d, sent) := authenticateRequest s.driver pvt
    some ⟨d, if sent then update s.history c { s.history c with pending := true } else s.history⟩
  | .verify c => do
    let pvt ← s.driver.iaxs c
    some ⟨authenticateVerify s.driver c pvt,
      update s.history c { s.history c with pending := false }⟩
  | .predestroy c => some { s with driver := iax2Predestroy s.driver c }
  | .destroy c now => some { s with driver := iax2Destroy s.driver c now }
  | .proceed c oseqno owner => do
    let pvt ← s.driver.iaxs c
    let pvt := { pvt with oseqno := oseqno, owner := owner }
    some { s with driver := { s.driver with iaxs := update s.driver.iaxs c (some pvt) } }

end CallWeaver.Iax.Calls
