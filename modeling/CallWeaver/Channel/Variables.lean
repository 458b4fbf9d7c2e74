import CallWeaver.Base.Ended
import CallWeaver.Base.Runs
import CallWeaver.Core.Strings

/-! # Variables of channels

The variables of a channel are a linked list with a last pointer. They are set one by one, copied
to a new channel that inherits them, and handed over with their cells by a masquerade. There is no
result when a null pointer is followed or a freed variable is read.
-/

namespace CallWeaver.Channel

open Function

/-- `struct cw_var_t` -/
structure Var where
  name : CStr
  value : CStr
  hash : UInt32
  hash_eq : hash = cwHashString name
  deriving DecidableEq

/-- `cw_var_assign` -/
def varAssign (name value : CStr) : Var := ⟨name, value, cwHashString name, rfl⟩

def dropUnderscore : CStr → CStr
  | [] => []
  | c :: s => if c = chr '_' then s else c :: s

/-- `cw_var_name` on the full name. -/
def nametail (name : CStr) : CStr := dropUnderscore (dropUnderscore name)

def Var.varName (v : Var) : CStr := nametail v.name

structure State where
  next : ℕ → Option ℕ
  var : ℕ → Option Var
  varshead : ℕ → Ends
  /-- the addresses from here on have not been allocated -/
  used : ℕ
  crashed : Bool

namespace State

def relink (s : State) (c : ℕ) (r : (ℕ → Option ℕ) × Ends) : State :=
  { s with next := r.1, varshead := update s.varshead c r.2 }

def assign (s : State) (name value : CStr) : State :=
  { s with
    next := update s.next s.used none
    var := update s.var s.used (some (varAssign name value))
    used := s.used + 1 }

/-- `CW_LIST_REMOVE` and `cw_var_delete` -/
def remove (s : State) (c a : ℕ) : Option State :=
  (Ends.remove s.next s.used (s.varshead c) a).map fun r =>
    { s.relink c r with var := update s.var a none }

def find (s : State) (hash : UInt32) : ℕ → Option ℕ → Option (Option ℕ)
  | _, none => some none
  | 0, some _ => none
  | fuel + 1, some a => (s.var a).bind fun v =>
    if hash = v.hash then some (some a) else s.find hash fuel (s.next a)

/-- The variables reached from the head of the list of a channel. -/
def entries (s : State) (c : ℕ) : List ℕ := walk s.next s.used (s.varshead c).first

def vars (s : State) (c : ℕ) : List Var := (s.entries c).filterMap s.var

end State

/-- `pbx_builtin_setvar_helper` -/
def setvarHelper (s : State) (c : ℕ) (name : CStr) (value : Option CStr) : Option State := do
  let found ← s.find (cwHashString (nametail name)) s.used (s.varshead c).first
  let s ← found.elim (some s) (s.remove c)
  match value with
  | none => some s
  | some value =>
    let newvariable := s.used
    let s := s.assign name value
    some (s.relink c (Ends.insertHead s.next (s.varshead c) newvariable))

def inheritedName : CStr → Option CStr
  | [] => none
  | c :: s =>
    if c ≠ chr '_' then none
    else if s.head? = some (chr '_') then some (c :: s)
    else some s

/-- The loop of `cw_channel_inherit_variables`. -/
def inheritLoop (child : ℕ) : ℕ → Option ℕ → State → Option State
  | _, none, s => some s
  | 0, some _, _ => none
  | fuel + 1, some current, s => do
    let v ← s.var current
    let s ← match inheritedName v.name with
      | none => some s
      | some name =>
        let newvar := s.used
        let s := s.assign name v.value
        (Ends.insertTail s.next (s.varshead child) newvar).map (s.relink child)
    inheritLoop child fuel (s.next current) s

/-- `cw_channel_inherit_variables` -/
def inheritVariables (s : State) (parent child : ℕ) : Option State :=
  inheritLoop child s.used (s.varshead parent).first s

def groupCategoryPrefix : CStr := [chr 'G', chr 'R', chr 'O', chr 'U', chr 'P']

def Var.isGroup (v : Var) : Bool := groupCategoryPrefix.isPrefixOf v.varName

/-- The group variables are removed; the link is read before the variable is freed. -/
def groupLoop (original : ℕ) : ℕ → Option ℕ → State → Option State
  | _, none, s => some s
  | 0, some _, _ => none
  | fuel + 1, some varptr, s => do
    let v ← s.var varptr
    let listNext := s.next varptr
    let s ← if v.isGroup then s.remove original varptr else some s
    groupLoop original fuel listNext s

def cloneVariables (s : State) (original clone : ℕ) : Option State := do
  let s ← groupLoop original s.used (s.varshead original).first s
  match (s.varshead clone).first with
  | none => some s
  | some a => (Ends.insertTail s.next (s.varshead original) a).map (s.relink original)

/-- `clone_variables` in `cw_do_masquerade`, which empties the list of the clone. -/
def masquerade (s : State) (original clone : ℕ) : Option State :=
  (cloneVariables s original clone).map fun t =>
    { t with varshead := update t.varshead clone Ends.empty }

inductive Act where
  | setvar (c : ℕ) (name : CStr) (value : Option CStr)
  | inherit (parent child : ℕ)
  | clone (original clone : ℕ)
  deriving DecidableEq, Repr

def State.orCrash (s : State) (r : Option State) : State := r.getD { s with crashed := true }

/-- No channel inherits from itself or is masqueraded into itself. A name that ends with a bracket
is that of a function, and an empty one has no last character. -/
def step (s : State) : Act → Option State
  | .setvar c name value =>
    if s.crashed ∨ name = [] ∨ name.getLast? = some (chr ')') then none
    else some (s.orCrash (setvarHelper s c name value))
  | .inherit parent child =>
    if s.crashed ∨ parent = child then none else some (s.orCrash (inheritVariables s parent child))
  | .clone original clone =>
    if s.crashed ∨ original = clone then none
    else some (s.orCrash (masquerade s original clone))

def initial : State := ⟨fun _ => none, fun _ => none, fun _ => Ends.empty, 0, false⟩

/-- `pbx_builtin_getvar_helper`: the first variable of the channel with the hash, or a global one.
-/
def getvarHelper (vars : Option (List Var)) (globals : List Var) (name : CStr) : Option CStr :=
  let hash := cwHashString name
  let ret := ((vars.getD globals).find? (hash = ·.hash)).map Var.value
  if ret = none ∧ vars.isSome then (globals.find? (hash = ·.hash)).map Var.value else ret

structure Fields where
  cidNum : Option CStr
  cidName : Option CStr
  cidAni : Option CStr
  cidDnid : Option CStr
  cidRdnis : Option CStr
  cidPres : ℤ
  cidAni2 : ℤ
  cidTon : ℤ
  cidTns : ℤ
  /-- the texts of `cw_get_hint`, if there is a hint -/
  hint : Option CStr
  hintName : Option CStr
  exten : CStr
  context : CStr
  priority : ℤ
  name : CStr
  uniqueid : CStr
  hangupcause : ℤ
  accountcode : CStr
  language : CStr

structure Environment where
  systemName : CStr
  epoch : CStr
  datetime : CStr
  timestamp : CStr
  globals : List Var

def noGlobals : Environment := ⟨[], [], [], [], []⟩

def decimal (i : ℤ) : CStr := (toString i).toList.map Char.toUInt8

def Fields.callerid (c : Fields) : Option CStr :=
  match c.cidNum, c.cidName with
  | some num, some name =>
    some ([chr '"'] ++ name ++ [chr '"', chr ' ', chr '<'] ++ num ++ [chr '>'])
  | some num, none => some num
  | none, name => name

def Fields.builtins (c : Fields) (env : Environment) : List (UInt32 × Option CStr) :=
  [(0x00E173C6, c.callerid), -- CALLERID
   (0x2AA80F40, c.cidNum), -- CALLERIDNUM
   (0x04C28AF1, c.cidName), -- CALLERIDNAME
   (0x275B0471, c.cidAni), -- CALLERANI
   (0x53038954, some (decimal c.cidPres)), -- CALLINGPRES
   (0x172910FA, some (decimal c.cidAni2)), -- CALLINGANI2
   (0x16FA640F, some (decimal c.cidTon)), -- CALLINGTON
   (0x16F963D5, some (decimal c.cidTns)), -- CALLINGTNS
   (0x02813E45, c.cidDnid), -- DNID
   (0x3A2B3507, c.hint), -- HINT
   (0x47AF6B32, c.hintName), -- HINTNAME
   (0x76AF848A, some c.exten), -- EXTEN
   (0x4437ACA6, c.cidRdnis), -- RDNIS
   (0x7D8222EF, some c.context), -- CONTEXT
   (0x63565B44, some (decimal c.priority)), -- PRIORITY
   (0x5C7D4983, some c.name), -- CHANNEL
   (0x4B6D096C, some c.uniqueid), -- UNIQUEID
   (0x3926FB5C, some (decimal c.hangupcause)), -- HANGUPCAUSE
   (0x047D129A, some c.accountcode), -- ACCOUNTCODE
   (0x75479ED8, some c.language), -- LANGUAGE
   (0x3D58527A, some env.systemName)] -- SYSTEMNAME

def Environment.builtins (env : Environment) : List (UInt32 × CStr) :=
  [(0x0000B089, env.epoch), -- EPOCH
   (0x2F5B471B, env.datetime), -- DATETIME
   (0x138C4996, env.timestamp)] -- TIMESTAMP

def Environment.lookup (env : Environment) (hash : UInt32) : Option CStr :=
  (env.builtins.lookup hash).or
    (env.globals.foldl (fun ret v => if hash = v.hash then some v.value else ret) none)

/-- The value that `pbx_retrieve_variable` finds for a name without a slice. -/
def findValue (env : Environment) (c : Option (Fields × List Var)) (headp : Option (List Var))
    (var : CStr) : Option CStr :=
  let hash := cwHashString var
  let search (vars : List Var) : Option CStr :=
    (vars.find? fun v => strcasecmp v.varName var = .eq).map Var.value
  match c with
  | some (fields, vars) => match (fields.builtins env).lookup hash with
    | some text => text
    | none => (search vars).or (env.lookup hash)
  | none => (headp.bind search).or (env.lookup hash)

/-- `pbx_retrieve_variable` for a name without a slice, with room for `room` characters. -/
def retrieveUnsliced (env : Environment) (c : Option (Fields × List Var))
    (headp : Option (List Var)) (room : ℕ) (var : CStr) : Option CStr :=
  (findValue env c headp var).map (·.take room)

end CallWeaver.Channel
