import CallWeaver.Base.Links
import CallWeaver.Dialplan.Context

/-! # The store of a context

The extensions of a context are nodes on the heap: `next` links the extensions and `peer` the
priorities of one extension. There is no result when an address that is not allocated is read or
written, or when a loop exceeds its bound.
-/

namespace CallWeaver.Dialplan

structure Store where
  heap : Heap Exten
  root : Option ℕ

namespace Store

def empty : Store := ⟨fun _ => none, none⟩

def setNext (s : Store) (a : ℕ) (q : Option ℕ) : Option Store :=
  (s.heap.setNext a q).map fun h => { s with heap := h }

def setPeer (s : Store) (a : ℕ) (q : Option ℕ) : Option Store :=
  (s.heap.setPeer a q).map fun h => { s with heap := h }

def free (s : Store) (a : ℕ) : Store := { s with heap := s.heap.free a }

def setSucc (s : Store) (el q : Option ℕ) : Option Store :=
  match el with
  | some el => s.setNext el q
  | none => some { s with root := q }

end Store

/-- Spaces are left out; there is room for the whole string. -/
def extStrncpy (src : CStr) : CStr := src.filter (· ≠ chr ' ')

structure Adding where
  replace : Bool
  extension : CStr
  priority : ℤ
  label : Option CStr
  callerid : Option CStr
  application : CStr
  data : CStr
  registrar : CStr
  deriving DecidableEq, Repr

def Adding.exten (c : Adding) : Exten where
  exten := extStrncpy c.extension
  matchcid := c.callerid.isSome
  cidmatch := (c.callerid.map extStrncpy).getD []
  priority := c.priority
  label := c.label
  app := c.application
  data := c.data
  registrar := c.registrar

def isPattern (exten : CStr) : Bool := exten.head? = some (chr '_')

/-- The sign of `res`: how an extension of the list compares to the one to be added. -/
def addCompare (e : Exten) (extension : CStr) (tmp : Exten) : Ordering :=
  let res :=
    if !isPattern e.exten && isPattern extension then .lt
    else if isPattern e.exten && !isPattern extension then .gt
    else strcmp e.exten extension
  if res = .eq then
    if !e.matchcid && !tmp.matchcid then .eq
    else if tmp.matchcid && !e.matchcid then .gt
    else if e.matchcid && !tmp.matchcid then .lt
    else strcasecmp e.cidmatch tmp.cidmatch
  else res

inductive AddResult where
  | ok
  | enomem
  | ebusy
  | eexist
  deriving DecidableEq, Repr

/-- The loop of `cw_add_extension2` over the priorities of an extension. -/
def addPeer (replace : Bool) (tmp : ℕ) (el : Option ℕ) :
    ℕ → Store → Option ℕ → Option ℕ → Option (Store × AddResult)
  | 0, _, _, _ => none
  | _ + 1, s, ep, none => do
    let s ← s.setPeer (← ep) (some tmp)
    return (s, .ok)
  | fuel + 1, s, ep, some e => do
    let ne ← s.heap e
    let nt ← s.heap tmp
    if ne.val.priority = nt.val.priority then
      if replace then
        match ep with
        | some ep =>
          let s ← s.setPeer ep (some tmp)
          let s ← s.setPeer tmp (← s.heap e).peer
          return (s.free e, .ok)
        | none =>
          let s ← s.setSucc el (some tmp)
          let s ← s.setNext tmp (← s.heap e).next
          let s ← s.setPeer tmp (← s.heap e).peer
          return (s.free e, .ok)
      else return (s.free tmp, .eexist)
    else if ne.val.priority > nt.val.priority then
      match ep, el with
      | some ep, _ =>
        let s ← s.setPeer ep (some tmp)
        let s ← s.setPeer tmp (some e)
        return (s, .ok)
      | none, some el =>
        let s ← s.setNext el (some tmp)
        let s ← s.setNext tmp (← s.heap e).next
        let s ← s.setNext e none
        let s ← s.setPeer tmp (some e)
        return (s, .ok)
      | none, none =>
        -- the old root keeps its `next` link
        let s ← s.setNext tmp (← s.heap (← s.root)).next
        let s ← s.setPeer tmp s.root
        return ({ s with root := some tmp }, .ok)
    else addPeer replace tmp el fuel s (some e) ne.peer

/-- The loop of `cw_add_extension2` over the extensions. -/
def addNode (replace : Bool) (extension : CStr) (tmp : ℕ) :
    ℕ → Store → Option ℕ → Option ℕ → Option (Store × AddResult)
  | 0, _, _, _ => none
  | _ + 1, s, el, none => do
    let s ← s.setSucc el (some tmp)
    return (s, .ok)
  | fuel + 1, s, el, some e => do
    let ne ← s.heap e
    let nt ← s.heap tmp
    match addCompare ne.val extension nt.val with
    | .eq => addPeer replace tmp el fuel s none (some e)
    | .gt =>
      let s ← s.setNext tmp (some e)
      let s ← s.setSucc el (some tmp)
      return (s, .ok)
    | .lt => addNode replace extension tmp fuel s (some e) ne.next

/-- With the result of `malloc`, and whether the context could be locked. -/
def cwAddExtension2 (fuel : ℕ) (s : Store) (c : Adding) (tmp : Option ℕ) (locked : Bool) :
    Option (Store × AddResult) :=
  match tmp with
  | none => some (s, .enomem)
  | some tmp =>
    let s := { s with heap := s.heap.alloc tmp c.exten }
    if locked then addNode c.replace c.extension tmp fuel s none s.root
    else some (s.free tmp, .ebusy)

/-- The removal of a whole extension in `cw_context_remove_extension2`. -/
def freePeers : ℕ → Store → Option ℕ → Option Store
  | 0, _, _ => none
  | _ + 1, s, none => some s
  | fuel + 1, s, some peer => do
    let n ← s.heap peer
    freePeers fuel (s.free peer) n.peer

def registrarOk (registrar : Option CStr) (e : Exten) : Bool :=
  match registrar with
  | none => true
  | some r => strcmp e.registrar r = .eq

/-- The loop that removes one priority of `exten`; it returns 0 if there is one and -1 otherwise. -/
def removePeer (priority : ℤ) (registrar : Option CStr) (prevExten : Option ℕ) (exten : ℕ) :
    ℕ → Store → Option ℕ → Option ℕ → Option (Store × ℤ)
  | 0, _, _, _ => none
  | _ + 1, s, _, none => some (s, -1)
  | fuel + 1, s, previousPeer, some peer => do
    let n ← s.heap peer
    if n.val.priority = priority && registrarOk registrar n.val then
      match previousPeer, prevExten with
      | none, some prev =>
        match n.peer with
        | some q =>
          let s ← s.setNext prev (some q)
          let s ← s.setNext q (← s.heap exten).next
          return (s.free peer, 0)
        | none =>
          let s ← s.setNext prev (← s.heap exten).next
          return (s.free peer, 0)
      | none, none =>
        match n.peer with
        | some q => return ({ s with root := some q }.free peer, 0)
        | none => return ({ s with root := (← s.heap exten).next }.free peer, 0)
      | some previous, _ =>
        let s ← s.setPeer previous n.peer
        return (s.free peer, 0)
    else removePeer priority registrar prevExten exten fuel s (some peer) n.peer

def selects (extension : CStr) (registrar : Option CStr) (e : Exten) : Bool :=
  strcmp e.exten extension = .eq && registrarOk registrar e

/-- The loop of `cw_context_remove_extension2` over the extensions. -/
def removeNode (extension : CStr) (priority : ℤ) (registrar : Option CStr) :
    ℕ → Store → Option ℕ → Option ℕ → Option (Store × ℤ)
  | 0, _, _, _ => none
  | _ + 1, s, _, none => some (s, -1)
  | fuel + 1, s, prevExten, some exten => do
    let n ← s.heap exten
    if selects extension registrar n.val then
      if priority = 0 then
        let s ← s.setSucc prevExten n.next
        let s ← freePeers fuel s (some exten)
        return (s, 0)
      else removePeer priority registrar prevExten exten fuel s none (some exten)
    else removeNode extension priority registrar fuel s (some exten) n.next

/-- With whether the context could be locked. -/
def cwContextRemoveExtension2 (fuel : ℕ) (s : Store) (extension : CStr) (priority : ℤ)
    (registrar : Option CStr) (locked : Bool) : Option (Store × ℤ) :=
  if locked then removeNode extension priority registrar fuel s none s.root
  else some (s, -1)

def readPeers (h : Heap Exten) : ℕ → Option ℕ → Option (List Exten)
  | 0, _ => none
  | _ + 1, none => some []
  | fuel + 1, some a => do
    let n ← h a
    let l ← readPeers h fuel n.peer
    return n.val :: l

def readRoot (h : Heap Exten) : ℕ → Option ℕ → Option (List Chain)
  | 0, _ => none
  | _ + 1, none => some []
  | fuel + 1, some a => do
    let n ← h a
    let l ← readPeers h fuel n.peer
    let cs ← readRoot h fuel n.next
    return ⟨n.val, l⟩ :: cs

/-- What is reachable from `con->root`, as the search reads it. -/
def Store.Holds (s : Store) (root : List Chain) : Prop :=
  ∃ fuel, readRoot s.heap fuel s.root = some root

end CallWeaver.Dialplan
