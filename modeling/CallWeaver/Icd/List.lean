import CallWeaver.Base.Links
import CallWeaver.Base.Runs

/-! # Lists of the call distributor

A list owns an array of nodes. Those in use are linked from `head` to `tail`, the others from
`first_free` on, through the same field. New elements are placed by a function of the list, and
found by an iterator allocated for the walk.
-/

namespace CallWeaver.Icd

open Function

inductive NodeState where
  | allocated
  | free
  | used
  deriving DecidableEq, Repr

structure IcdListNode (α : Type) where
  next : Option ℕ
  payload : Option α
  state : NodeState
  deriving DecidableEq, Repr

structure IcdList (α : Type) where
  head : Option ℕ
  tail : Option ℕ
  firstFree : Option ℕ
  count : ℤ
  size : ℕ
  cache : ℕ → IcdListNode α

inductive IcdStatus where
  | success
  | eresource
  | enotfound
  deriving DecidableEq, Repr

/-- A comparison function that is a total preorder: `a` is greater than `b` if the result is
positive. -/
structure Comparison (α : Type) where
  cmp : α → α → ℤ
  swap : ∀ a b, 0 < cmp a b ↔ cmp b a < 0
  trans : ∀ a b c, cmp a b ≤ 0 → cmp b c ≤ 0 → cmp a c ≤ 0

/-- `icd_list__insert_fifo`, `icd_list__insert_lifo` and `icd_list__insert_ordered` with its
comparison function. -/
inductive InsertFn (α : Type) where
  | fifo
  | lifo
  | ordered (cmpFn : Comparison α)

variable {α : Type}

/-- `icd_list__free_node` -/
def freeNode (list : IcdList α) (node : ℕ) : IcdList α :=
  { list with
    cache := update list.cache node { list.cache node with state := .free, next := list.firstFree }
    firstFree := some node }

/-- `icd_list__get_node` -/
def getNode (list : IcdList α) : Option ℕ × IcdList α :=
  match list.firstFree with
  | none => (none, list)
  | some node =>
    (some node, { list with
      firstFree := (list.cache node).next
      cache := update list.cache node { list.cache node with state := .used } })

/-- The first node is on the free list from the start. -/
def initIcdList (size : ℕ) : IcdList α :=
  (List.range size).foldl
    (fun list x =>
      let list := { list with cache := update list.cache x ⟨none, none, .allocated⟩ }
      if 0 < x then freeNode list x else list)
    ⟨none, none, some 0, 0, size, fun _ => ⟨none, none, .allocated⟩⟩

structure Iterator where
  curr : Option ℕ
  next : Option ℕ
  deriving DecidableEq, Repr

/-- `icd_list__get_node_iterator` -/
def getNodeIterator (that : IcdList α) (memory : Bool) : Option Iterator :=
  if memory then some ⟨none, that.head⟩ else none

/-- `icd_list_iterator__has_more` -/
def hasMore (cache : ℕ → IcdListNode α) (iter : Iterator) : Bool × Iterator :=
  match iter.next with
  | none => (false, iter)
  | some next =>
    let iter := match iter.curr with
      | none => iter
      | some curr =>
        if (cache next).state ≠ .allocated ∧ (cache next).state ≠ .used ∧
          (cache curr).state = .used then
          { iter with next := (cache curr).next }
        else iter
    (iter.next.isSome, iter)

/-- `icd_list_iterator__next`. Reading the state of no node has no result. -/
def iteratorNext (cache : ℕ → IcdListNode α) (iter : Iterator) : Option (Option ℕ × Iterator) :=
  if iter.next = none ∧ iter.curr = none then some (none, iter)
  else do
    let next ← iter.next <|> (iter.curr.bind fun curr => (cache curr).next)
    let next := match iter.curr with
      | none => some next
      | some curr =>
        if (cache next).state ≠ .used ∧ (cache curr).state = .used then (cache curr).next
        else some next
    match next with
    | none => some (none, ⟨none, none⟩)
    | some node => some (some node, ⟨some node, (cache node).next⟩)

/-- The loop of `icd_list__insert_ordered`: the node behind which the element goes, or none. -/
def insertOrderedLoop (that : IcdList α) (cmpFn : Comparison α) (newElem : α) :
    ℕ → Iterator → Option ℕ → Option (Option ℕ)
  | 0, _, _ => none
  | fuel + 1, iter, node =>
    match hasMore that.cache iter with
    | (false, _) => some that.tail
    | (true, iter) => do
      let lastnode := node
      let (node, iter) ← iteratorNext that.cache iter
      match node with
      | none => some lastnode
      | some node =>
        let payload ← (that.cache node).payload
        if cmpFn.cmp payload newElem > 0 then some lastnode
        else insertOrderedLoop that cmpFn newElem fuel iter (some node)

/-- `icd_list__insert_ordered` -/
def insertOrdered (that : IcdList α) (newElem : α) (cmpFn : Comparison α) (memory : Bool) :
    Option (Option ℕ) :=
  if that.count = 0 then some none
  else match getNodeIterator that memory with
    | none => some none
    | some iter => insertOrderedLoop that cmpFn newElem (that.size + 1) iter none

/-- The call of `ins_fn`. -/
def insFn (that : IcdList α) (ins : InsertFn α) (newElem : α) (memory : Bool) : Option (Option ℕ) :=
  match ins with
  | .fifo => some that.tail
  | .lifo => some none
  | .ordered cmpFn => insertOrdered that newElem cmpFn memory

def icdListPush (that : IcdList α) (ins : InsertFn α) (element : α) (memory : Bool) :
    Option (IcdList α × IcdStatus) := do
  let prevNode ← insFn that ins element memory
  match getNode that with
  | (none, that) => some (that, .eresource)
  | (some newNode, that) =>
    let that := match prevNode with
      | none =>
        { that with
          cache := update that.cache newNode
            { that.cache newNode with payload := some element, next := that.head }
          head := some newNode }
      | some prev =>
        let cache := update that.cache newNode
          { that.cache newNode with payload := some element, next := (that.cache prev).next }
        { that with cache := update cache prev { cache prev with next := some newNode } }
    let that := if that.tail = prevNode then { that with tail := some newNode } else that
    some ({ that with count := that.count + 1 }, .success)

def icdListPop (that : IcdList α) : IcdList α × Option α :=
  match that.head with
  | none => (that, none)
  | some node =>
    let that := { that with head := (that.cache node).next, count := that.count - 1 }
    let that := if that.head = none then { that with tail := none } else that
    (freeNode that node, (that.cache node).payload)

def dropFound (that : IcdList α) (node : ℕ) (prevnode : Option ℕ) : IcdList α :=
  let that := if that.head = some node then { that with head := (that.cache node).next } else that
  let that := if that.tail = some node then { that with tail := prevnode } else that
  let that := match prevnode with
    | none => that
    | some prev =>
      { that with
        cache := update that.cache prev { that.cache prev with next := (that.cache node).next } }
  freeNode { that with count := that.count - 1 } node

/-- The loop of `icd_list__drop_node`. -/
def dropNodeLoop (that : IcdList α) (matchFn : α → Bool) :
    ℕ → Iterator → Option ℕ → Option (IcdList α × IcdStatus)
  | 0, _, _ => none
  | fuel + 1, iter, prevnode =>
    match hasMore that.cache iter with
    | (false, _) => some (that, .enotfound)
    | (true, iter) => do
      let (node, iter) ← iteratorNext that.cache iter
      let node ← node
      let payload ← (that.cache node).payload
      if matchFn payload then some (dropFound that node prevnode, .success)
      else dropNodeLoop that matchFn fuel iter (some node)

def icdListDropNode (that : IcdList α) (matchFn : α → Bool) (memory : Bool) :
    Option (IcdList α × IcdStatus) :=
  match getNodeIterator that memory with
  | none => some (that, .eresource)
  | some iter => dropNodeLoop that matchFn (that.size + 1) iter none

def icdListRemove {κ : Type} (that : IcdList α) (keyFn : κ → α → Bool) (key : κ) (memory : Bool) :
    Option (IcdList α × IcdStatus) :=
  icdListDropNode that (keyFn key) memory

def icdListRemoveByElement [DecidableEq α] (that : IcdList α) (payload : α) (memory : Bool) :
    Option (IcdList α × IcdStatus) :=
  icdListDropNode that (fun p => payload = p) memory

end CallWeaver.Icd
