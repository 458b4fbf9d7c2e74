import Mathlib.Data.List.DropRight
import CallWeaver.Base.Sorting
import CallWeaver.Icd.Shape

/-! # The call distributor's lists as sequences

Each function on a list does to its sequence of elements what its name says, as long as there is
memory for the iterator that finds the place of a new element. A list with a comparison function is
sorted, so the place before the first greater element is behind the last that is not greater.
-/

namespace CallWeaver.Icd

open List Option

variable {α : Type} {that : IcdList α} {nodes free : List ℕ} {seq S T : List α}

section Placement

variable {e : α} {ins : InsertFn α} {memory : Bool}

/-- Where a new element goes: at the end, at the start, or behind the last element that is not
greater. -/
def place (ins : InsertFn α) (seq : List α) (e : α) : List α :=
  match ins with
  | .fifo => seq ++ [e]
  | .lifo => e :: seq
  | .ordered cmpFn =>
    seq.rdropWhile (fun x => cmpFn.cmp x e > 0) ++ e :: seq.rtakeWhile fun x => cmpFn.cmp x e > 0

def Sorted (ins : InsertFn α) (seq : List α) : Prop :=
  match ins with
  | .ordered cmpFn => seq.Pairwise fun a b => cmpFn.cmp a b ≤ 0
  | _ => True

theorem Sorted.sublist (h : Sorted ins seq) (hs : S.Sublist seq) : Sorted ins S := by
  cases ins with
  | ordered cmpFn => exact List.Pairwise.sublist hs h
  | fifo => trivial
  | lifo => trivial

theorem rdropWhile_append {p : α → Bool} (hS : ∀ x ∈ S, p x = false) (hT : ∀ x ∈ T, p x = true) :
    (S ++ T).rdropWhile p = S ∧ (S ++ T).rtakeWhile p = T := by
  induction T using List.reverseRecOn with
  | nil =>
    rw [append_nil, rdropWhile_eq_self_iff, rtakeWhile_eq_nil_iff]
    exact ⟨fun hne => by simp [hS _ (getLast_mem hne)], fun hne => by simp [hS _ (getLast_mem hne)]⟩
  | append_singleton T x ih =>
    have hx : p x = true := hT x (by simp)
    obtain ⟨hdrop, htake⟩ := ih fun y hy => hT y (by simp [hy])
    rw [← append_assoc, rdropWhile_concat_pos p _ x hx, rtakeWhile_concat_pos p _ x hx]
    exact ⟨hdrop, by rw [htake]⟩

theorem Comparison.greater (cmpFn : Comparison α) (hs : T.Pairwise fun a b => cmpFn.cmp a b ≤ 0)
    (hT : ∀ x ∈ T.head?, decide (cmpFn.cmp x e > 0) = true) :
    ∀ x ∈ T, decide (cmpFn.cmp x e > 0) = true := by
  cases T with
  | nil => simp
  | cons t T =>
    have ht : cmpFn.cmp t e > 0 := of_decide_eq_true (hT t rfl)
    refine forall_mem_cons.mpr ⟨hT t rfl, fun x hx => decide_eq_true ?_⟩
    by_contra hle
    have hle' := cmpFn.trans t x e ((pairwise_cons.mp hs).1 x hx) (by omega)
    omega

theorem place_ordered {cmpFn : Comparison α} (hs : Sorted (.ordered cmpFn) (S ++ T))
    (hS : ∀ x ∈ S, decide (cmpFn.cmp x e > 0) = false)
    (hT : ∀ x ∈ T.head?, decide (cmpFn.cmp x e > 0) = true) :
    place (.ordered cmpFn) (S ++ T) e = S ++ e :: T ∧ Sorted (.ordered cmpFn) (S ++ e :: T) := by
  have hT' := cmpFn.greater (pairwise_append.mp hs).2.1 hT
  constructor
  · obtain ⟨hdrop, htake⟩ := rdropWhile_append hS hT'
    rw [place, hdrop, htake]
  · have hins : insertStable (fun e x => decide (cmpFn.cmp x e > 0)) e (S ++ T) = S ++ e :: T :=
      insertStable_append hS hT
    rw [← hins]
    refine pairwise_insertStable hs (fun b _ hb => not_lt.mp (of_decide_eq_false hb))
      (fun b _ hb => ?_) ?_
    · exact ((cmpFn.swap b e).mp (of_decide_eq_true hb)).le
    · intro b _ c _ hb hbc
      exact cmpFn.trans e b c ((cmpFn.swap b e).mp (of_decide_eq_true hb)).le hbc

theorem Shape.insFn (h : Shape that nodes free seq) (hs : Sorted ins seq) (e : α)
    (hmem : ∀ cmpFn, ins = .ordered cmpFn → memory = true) :
    ∃ A B S T, nodes = A ++ B ∧ seq = S ++ T ∧ A.length = S.length ∧
      insFn that ins e memory = some A.getLast? ∧ place ins seq e = S ++ e :: T ∧
      Sorted ins (S ++ e :: T) := by
  cases ins with
  | fifo =>
    refine ⟨nodes, [], seq, [], by simp, by simp, h.length, ?_, rfl, trivial⟩
    rw [Icd.insFn, h.tail]
  | lifo => exact ⟨[], nodes, [], seq, rfl, rfl, rfl, rfl, rfl, trivial⟩
  | ordered cmpFn =>
    rw [hmem cmpFn rfl]
    by_cases hcount : that.count = 0
    · have hnil : nodes = [] := by simpa [h.count] using hcount
      subst hnil
      obtain rfl : seq = [] := by simpa using h.length.symm
      refine ⟨[], [], [], [], rfl, rfl, rfl, ?_, rfl, pairwise_singleton _ _⟩
      simp [Icd.insFn, insertOrdered, hcount]
    · have hlt : nodes.length < that.size + 1 := by
        have hlen := h.length_add
        rw [h.length]
        omega
      obtain ⟨A, S, ⟨B, T, rfl, rfl, hlen, hS, hT⟩, hloop⟩ :=
        Shape.insertOrderedLoop (A := []) h h.payload cmpFn e hlt
      obtain ⟨hplace, hsorted⟩ := place_ordered hs hS hT
      refine ⟨A, B, S, T, rfl, rfl, hlen, ?_, hplace, hsorted⟩
      have hhead : that.head = (A ++ B).head? := by simpa using h.list.start_eq
      simp only [Icd.insFn, insertOrdered, if_neg hcount, getNodeIterator, if_true, hhead]
      exact hloop

end Placement

section Sequences

variable {κ : Type}

inductive Call (κ α : Type) where
  | push (element : α) (memory : Bool)
  | pop
  | removeByElement (payload : α) (memory : Bool)
  | remove (key : κ) (memory : Bool)
  deriving DecidableEq, Repr

inductive Reply (α : Type) where
  | status (status : IcdStatus)
  | payload (payload : Option α)
  deriving DecidableEq, Repr

variable [DecidableEq α]

def icdCall (ins : InsertFn α) (keyFn : κ → α → Bool) (that : IcdList α) :
    Call κ α → Option (IcdList α × Reply α)
  | .push element memory => (icdListPush that ins element memory).map fun p => (p.1, .status p.2)
  | .pop => some ((icdListPop that).1, .payload (icdListPop that).2)
  | .removeByElement payload memory =>
    (icdListRemoveByElement that payload memory).map fun p => (p.1, .status p.2)
  | .remove key memory => (icdListRemove that keyFn key memory).map fun p => (p.1, .status p.2)

def specRemove (matchFn : α → Bool) (memory : Bool) (seq : List α) : List α × Reply α :=
  if !memory then (seq, .status .eresource)
  else if seq.any matchFn then (seq.eraseP matchFn, .status .success)
  else (seq, .status .enotfound)

def specCall (ins : InsertFn α) (keyFn : κ → α → Bool) (size : ℕ) (seq : List α) :
    Call κ α → List α × Reply α
  | .push element _ =>
    if seq.length = size then (seq, .status .eresource)
    else (place ins seq element, .status .success)
  | .pop => (seq.tail, .payload seq.head?)
  | .removeByElement payload memory => specRemove (fun p => payload = p) memory seq
  | .remove key memory => specRemove (keyFn key) memory seq

def icdCalls (ins : InsertFn α) (keyFn : κ → α → Bool) :
    IcdList α → List (Call κ α) → Option (IcdList α × List (Reply α))
  | that, [] => some (that, [])
  | that, c :: cs => do
    let (that, reply) ← icdCall ins keyFn that c
    let (that, replies) ← icdCalls ins keyFn that cs
    some (that, reply :: replies)

def specCalls (ins : InsertFn α) (keyFn : κ → α → Bool) (size : ℕ) :
    List α → List (Call κ α) → List α × List (Reply α)
  | seq, [] => (seq, [])
  | seq, c :: cs =>
    let (seq, reply) := specCall ins keyFn size seq c
    let (seq, replies) := specCalls ins keyFn size seq cs
    (seq, reply :: replies)

/-- There is memory for the iterator that finds the place of a new element. -/
def Call.Finds (ins : InsertFn α) : Call κ α → Prop
  | .push _ memory => match ins with
    | .ordered _ => memory = true
    | _ => True
  | _ => True

def Refines (that : IcdList α) (seq : List α) : Prop := ∃ nodes free, Shape that nodes free seq

variable {ins : InsertFn α} {keyFn : κ → α → Bool} {size : ℕ}

/-- A list of the given size refines a sequence, which is sorted if the list has a comparison
function. -/
structure Holds (ins : InsertFn α) (size : ℕ) (that : IcdList α) (seq : List α) : Prop where
  refines : Refines that seq
  size : that.size = size
  sorted : Sorted ins seq

theorem Holds.push (h : Holds ins size that seq) (e : α) {memory : Bool}
    (hmem : ∀ cmpFn, ins = .ordered cmpFn → memory = true) :
    ∃ that', icdCall ins keyFn that (.push e memory) =
        some (that', (specCall ins keyFn size seq (.push e memory)).2) ∧
      Holds ins size that' (specCall ins keyFn size seq (.push e memory)).1 := by
  obtain ⟨⟨nodes, free, hshape⟩, rfl, hsorted⟩ := h
  have hlen := hshape.length_add
  obtain ⟨A, B, S, T, rfl, rfl, hlen', hins, hplace, hsorted'⟩ := hshape.insFn hsorted e hmem
  cases free with
  | nil =>
    refine ⟨that, ?_, ?_⟩
    · rw [icdCall, hshape.push_full hins, specCall, if_pos (by simpa using hlen)]
      rfl
    · rw [specCall, if_pos (by simpa using hlen)]
      exact ⟨⟨_, _, hshape⟩, rfl, hsorted⟩
  | cons n free =>
    obtain ⟨that', hpush, hsize, hshape'⟩ := hshape.push hlen' hins
    have hfull : (S ++ T).length ≠ that.size := by
      rw [length_cons] at hlen
      omega
    refine ⟨that', ?_, ?_⟩
    · rw [icdCall, hpush, specCall, if_neg hfull]
      rfl
    · rw [specCall, if_neg hfull, hplace]
      exact ⟨⟨_, _, hshape'⟩, hsize, hsorted'⟩

theorem Holds.pop (h : Holds ins size that seq) :
    ∃ that', icdCall ins keyFn that .pop = some (that', (specCall ins keyFn size seq .pop).2) ∧
      Holds ins size that' (specCall ins keyFn size seq .pop).1 := by
  obtain ⟨⟨nodes, free, hshape⟩, rfl, hsorted⟩ := h
  cases nodes with
  | nil =>
    obtain rfl : seq = [] := by simpa using hshape.length.symm
    have hhead : that.head = none := hshape.list
    refine ⟨that, ?_, ⟨⟨_, _, hshape⟩, rfl, hsorted⟩⟩
    simp [icdCall, icdListPop, hhead, specCall]
  | cons b B =>
    obtain ⟨e, T, rfl⟩ : ∃ e T, seq = e :: T :=
      exists_cons_of_length_pos (by simp [← hshape.length])
    obtain ⟨hpop, hsize, hshape'⟩ := hshape.pop
    refine ⟨_, ?_, ⟨⟨_, _, hshape'⟩, hsize, hsorted.sublist (sublist_cons_self e T)⟩⟩
    rw [icdCall, hpop]
    rfl

omit [DecidableEq α] in
theorem Holds.dropNode (h : Holds ins size that seq) (p : α → Bool) (memory : Bool) :
    ∃ that', ((icdListDropNode that p memory).map fun q => (q.1, Reply.status q.2)) =
        some (that', (specRemove p memory seq).2) ∧
      Holds ins size that' (specRemove p memory seq).1 := by
  obtain ⟨⟨nodes, free, hshape⟩, rfl, hsorted⟩ := h
  cases memory with
  | false => exact ⟨that, rfl, ⟨⟨_, _, hshape⟩, rfl, hsorted⟩⟩
  | true =>
    have hlt : nodes.length < that.size + 1 := by
      have hlen := hshape.length_add
      rw [hshape.length]
      omega
    have hhead : that.head = nodes.head? := by simpa using hshape.list.start_eq
    have hdrop : icdListDropNode that p true = dropNodeLoop that p (that.size + 1) ⟨none,
        nodes.head?⟩ none := by
      rw [← hhead]
      rfl
    rcases Shape.dropNodeLoop (A := []) hshape hshape.payload p hlt with
      ⟨hno, hloop⟩ | ⟨A, b, B, S, e, T, rfl, rfl, hlen, hS, he, hloop⟩
    · have hany : seq.any p = false := by simpa using hno
      refine ⟨that, ?_, ?_⟩
      · rw [hdrop]
        rw [getLast?_nil] at hloop
        simp [hloop, specRemove, hany]
      · simp only [specRemove, hany]
        exact ⟨⟨_, _, hshape⟩, rfl, hsorted⟩
    · have hany : (S ++ e :: T).any p = true := by simp [he]
      have herase : (S ++ e :: T).eraseP p = S ++ T := by
        rw [eraseP_append_right _ (by simpa using hS), eraseP_cons_of_pos he]
      obtain ⟨hsize, hshape'⟩ := hshape.dropFound hlen
      refine ⟨dropFound that b A.getLast?, ?_, ?_⟩
      · rw [hdrop]
        rw [getLast?_nil, nil_append] at hloop
        simp only [hloop, map_some, specRemove, hany]
        rfl
      · simp only [specRemove, hany, herase]
        refine ⟨⟨_, _, hshape'⟩, hsize, hsorted.sublist ?_⟩
        exact (sublist_cons_self e T).append_left S

theorem Holds.call (h : Holds ins size that seq) {c : Call κ α} (hc : c.Finds ins) :
    ∃ that', icdCall ins keyFn that c = some (that', (specCall ins keyFn size seq c).2) ∧
      Holds ins size that' (specCall ins keyFn size seq c).1 := by
  cases c with
  | push e memory =>
    refine h.push e fun cmpFn hins => ?_
    subst hins
    exact hc
  | pop => exact h.pop
  | removeByElement payload memory => exact h.dropNode (fun p => payload = p) memory
  | remove key memory => exact h.dropNode (keyFn key) memory

theorem Holds.calls (h : Holds ins size that seq) {cs : List (Call κ α)}
    (hcs : ∀ c ∈ cs, c.Finds ins) :
    ∃ that', icdCalls ins keyFn that cs = some (that', (specCalls ins keyFn size seq cs).2) ∧
      Holds ins size that' (specCalls ins keyFn size seq cs).1 := by
  induction cs generalizing that seq with
  | nil => exact ⟨that, rfl, h⟩
  | cons c cs ih =>
    obtain ⟨hc, hcs⟩ := forall_mem_cons.mp hcs
    obtain ⟨that₁, hcall, h₁⟩ : ∃ that', icdCall ins keyFn that c = _ ∧ _ := h.call hc
    obtain ⟨that₂, hcalls, h₂⟩ := ih h₁ hcs
    refine ⟨that₂, ?_, h₂⟩
    simp only [icdCalls, hcall, hcalls, bind_eq_bind, bind_some]
    rfl

/-- A list that is created with a size of at least one refines the empty sequence. Every sequence of
calls on it returns what it returns on the sequence, and the list then refines what the sequence has
become, as long as there is memory for the iterators that find the places of new elements. -/
theorem icd_list_refines (size : ℕ) (hs : 1 ≤ size) (ins : InsertFn α) (keyFn : κ → α → Bool)
    (cs : List (Call κ α)) (hcs : ∀ c ∈ cs, c.Finds ins) :
    ∃ that,
      icdCalls ins keyFn (initIcdList size) cs = some (that, (specCalls ins keyFn size [] cs).2) ∧
      that.size = size ∧ Refines that (specCalls ins keyFn size [] cs).1 := by
  have hsize : (initIcdList size : IcdList α).size = size := by
    have hlen := (initIcdList_shape hs : Shape (initIcdList size : IcdList α) _ _ _).length_add
    simpa using hlen.symm
  have hnew : Holds ins size (initIcdList size : IcdList α) [] := by
    refine ⟨⟨_, _, initIcdList_shape hs⟩, hsize, ?_⟩
    cases ins with
    | ordered cmpFn => exact List.Pairwise.nil
    | fifo => trivial
    | lifo => trivial
  obtain ⟨that, hcalls, hholds⟩ : ∃ that, icdCalls ins keyFn (initIcdList size) cs = _ ∧ _ :=
    hnew.calls hcs
  exact ⟨that, hcalls, hholds.size, hholds.refines⟩

def Comparison.nat : Comparison ℕ where
  cmp a b := (a : ℤ) - b
  swap a b := by omega
  trans a b c := by omega

/-- A list of two nodes that is kept sorted. -/
theorem icd_list_refines_two :
    (1 ≤ 2 ∧ ∀ c ∈ ([.push 5 true, .push 3 true, .push 4 true, .pop, .push 4 true, .remove 5 true,
        .removeByElement 6 true] : List (Call ℕ ℕ)), c.Finds (.ordered .nat)) ∧
      ∃ that, icdCalls (.ordered .nat) (fun key p => decide (key = p)) (initIcdList 2)
          [.push 5 true, .push 3 true, .push 4 true, .pop, .push 4 true, .remove 5 true,
            .removeByElement 6 true] =
        some (that, [.status .success, .status .success, .status .eresource, .payload (some 3),
          .status .success, .status .success, .status .enotfound]) ∧
        that.size = 2 ∧ Refines that [4] := by
  have hcs : ∀ c ∈ ([.push 5 true, .push 3 true, .push 4 true, .pop, .push 4 true, .remove 5 true,
      .removeByElement 6 true] : List (Call ℕ ℕ)), c.Finds (.ordered .nat) := by
    simp [Call.Finds]
  exact ⟨⟨by decide, hcs⟩,
    icd_list_refines 2 (by decide) (.ordered .nat) (fun key p => decide (key = p)) _ hcs⟩

/-- Without memory for the iterator, a greater element is put before a smaller one. -/
theorem unsorted_without_memory :
    ((icdCalls (.ordered .nat) (fun key p => decide (key = p)) (initIcdList 2)
        ([.push 1 true, .push 2 false, .pop] : List (Call ℕ ℕ))).map Prod.snd =
      some [.status .success, .status .success, .payload (some 2)]) ∧
    (specCalls (.ordered .nat) (fun key p => decide (key = p)) 2 []
        ([.push 1 true, .push 2 false, .pop] : List (Call ℕ ℕ))).2 =
      [.status .success, .status .success, .payload (some 1)] := by
  decide

end Sequences

end CallWeaver.Icd
