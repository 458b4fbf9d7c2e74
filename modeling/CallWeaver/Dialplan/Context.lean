import CallWeaver.Base.Runs
import CallWeaver.Dialplan.Pattern

/-! # Contexts and their search

A context has a list of extensions, each with a chain of priorities, and includes other contexts.
The search goes through its extensions, then its switches and then, recursively, its includes.
-/

namespace CallWeaver.Dialplan

/-- `struct cw_exten` -/
structure Exten where
  exten : CStr
  matchcid : Bool
  cidmatch : CStr
  priority : ℤ
  label : Option CStr
  app : CStr
  data : CStr
  registrar : CStr
  deriving DecidableEq, Repr

/-- An entry of the extension list with its peers of higher priorities. -/
structure Chain where
  head : Exten
  peers : List Exten
  deriving DecidableEq, Repr

def Chain.entries (c : Chain) : List Exten := c.head :: c.peers

/-- `struct cw_include` -/
structure Include where
  rname : CStr
  hastime : Bool
  timing : Bool
  deriving DecidableEq, Repr

def includeValid (i : Include) : Bool := if !i.hastime then true else i.timing

/-- `struct cw_sw` -/
structure Sw where
  name : CStr
  data : CStr
  eval : Bool
  deriving DecidableEq, Repr

/-- `struct cw_context` -/
structure Context where
  name : CStr
  root : List Chain
  includes : List Include
  alts : List Sw
  deriving DecidableEq, Repr

def Context.hash (c : Context) : UInt32 := cwHashString c.name

inductive Action where
  | helperExists
  | helperExec
  | helperCanmatch
  | helperMatchmore
  | helperFindlabel
  deriving DecidableEq, Repr

structure Query where
  exten : CStr
  priority : ℤ
  label : Option CStr
  callerid : Option CStr
  action : Action
  deriving DecidableEq, Repr

structure Switch where
  name : CStr
  existsFn : Option (Query → CStr → CStr → Bool)
  canmatchFn : Option (Query → CStr → CStr → Bool)
  matchmoreFn : Option (Query → CStr → CStr → Bool)

/-- The registered contexts and switches, and the substitution of variables of the channel. -/
structure Env where
  contexts : List Context
  switches : List Switch
  substitute : CStr → CStr

inductive Status where
  | noContext
  | noExtension
  | noPriority
  | noLabel
  | success
  deriving DecidableEq, Repr

def Status.raise (a b : Status) : Status := if a.ctorIdx < b.ctorIdx then b else a

/-- What the recursive calls of the search share: the names on the stack, and the results. -/
structure Found where
  incstack : List CStr
  status : Status
  swo : Option CStr
  data : Option CStr
  foundcontext : Option CStr
  deriving DecidableEq, Repr

def cwPbxMaxStack : ℕ := 128

def matchcid (cidpattern : CStr) (callerid : Option CStr) : Bool :=
  match callerid with
  | none => cidpattern = []
  | some callerid => (cwExtensionPatternMatch callerid cidpattern).accepted

def pbxFindswitch (env : Env) (sw : CStr) : Option Switch :=
  env.switches.find? fun s => strcasecmp s.name sw = .eq

def cidOk (q : Query) (e : Exten) : Bool := !(e.matchcid && !matchcid e.cidmatch q.callerid)

/-- Whether an extension is taken, and whether it is recorded as an early match instead. -/
def takes (q : Query) (early : Bool) (e : Exten) : Bool × Bool :=
  let m := cwExtensionPatternMatch q.exten e.exten
  if cidOk q e then
    match q.action with
    | .helperExists | .helperExec | .helperFindlabel => (m.accepted, false)
    | .helperCanmatch => (m.accepted || m = .incomplete, false)
    | .helperMatchmore =>
      if m = .possible ∧ early = false then (false, true)
      else (m = .stretchable || m = .incomplete, false)
  else (false, false)

def wanted (q : Query) (e : Exten) : Bool :=
  if q.action = .helperFindlabel then
    match q.label, e.label with
    | some l, some l' => strcmp l l' = .eq
    | _, _ => false
  else e.priority = q.priority

/-- The loop over the extensions: the status, the entry and whether there was an early match. -/
def searchRoot (q : Query) : Bool → Status → List Chain → Status × Option Exten × Bool
  | early, status, [] => (status, none, early)
  | early, status, c :: cs =>
    match takes q early c.head with
    | (true, _) =>
      let status := status.raise .noPriority
      let status := if q.action = .helperFindlabel then status.raise .noLabel else status
      match c.entries.find? (wanted q) with
      | some e => (.success, some e, early)
      | none => searchRoot q early status cs
    | (false, rec) => searchRoot q (early || rec) status cs

/-- The loop over the switches of a context. -/
def searchAlts (env : Env) (q : Query) (context : CStr) : List Sw → Option (CStr × CStr)
  | [] => none
  | sw :: sws =>
    match pbxFindswitch env sw.name with
    | none => searchAlts env q context sws
    | some asw =>
      let data := if sw.eval then env.substitute sw.data else sw.data
      let f :=
        match q.action with
        | .helperCanmatch => asw.canmatchFn
        | .helperMatchmore => asw.matchmoreFn
        | _ => asw.existsFn
      if f.any fun f => f q context data then some (asw.name, data)
      else searchAlts env q context sws

/-- The loop over the includes of a context. -/
def searchIncludes (find : CStr → Found → Option (Found × Option Exten)) :
    List Include → Found → Option (Found × Option Exten)
  | [], f => some (f, none)
  | i :: is, f =>
    if includeValid i then
      match find i.rname f with
      | none => none
      | some (f, some e) => some (f, some e)
      | some (f, none) => if f.swo.isSome then some (f, none) else searchIncludes find is f
    else searchIncludes find is f

/-- The first argument bounds the depth of the recursion. -/
def pbxFindExtension (env : Env) (q : Query) (bypass : Option Context) :
    ℕ → CStr → Found → Option (Found × Option Exten)
  | 0, _, _ => none
  | fuel + 1, context, f =>
    let f :=
      if f.incstack = [] then { f with status := .noContext, swo := none, data := none } else f
    if f.incstack.length ≥ cwPbxMaxStack then some (f, none)
    else if f.incstack.any fun name => strcasecmp name context = .eq then some (f, none)
    else
      match bypass <|> env.contexts.find? (fun c => cwHashString context = c.hash) with
      | none => some (f, none)
      | some tmp =>
        match searchRoot q false (f.status.raise .noExtension) tmp.root with
        | (status, some e, _) =>
          some ({ f with status := status, foundcontext := some context }, some e)
        | (status, none, true) => some ({ f with status := status }, none)
        | (status, none, false) =>
          match searchAlts env q context tmp.alts with
          | some (sw, data) =>
            some ({ f with
              status := status, swo := some sw, data := some data
              foundcontext := some context }, none)
          | none =>
            searchIncludes (pbxFindExtension env q bypass fuel) tmp.includes
              { f with status := status, incstack := f.incstack ++ [tmp.name] }

end CallWeaver.Dialplan
