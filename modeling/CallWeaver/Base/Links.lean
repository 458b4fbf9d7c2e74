import CallWeaver.Base.Table

/-! # Nodes with two links in a heap

Each node has two links, `next` and `peer`. A segment lists the addresses visited when a link is
followed. A table is linked when `next` visits the first elements of its rows and, from each of
these, `peer` the rest of its row.
-/

namespace CallWeaver

open Function List Option Prod

/-- Following `link` from the pointer `p` visits the addresses `l` and ends with the pointer `q`. -/
def Seg (link : ℕ → Option ℕ) : Option ℕ → List ℕ → Option ℕ → Prop
  | p, [], q => p = q
  | p, a :: l, q => p = some a ∧ Seg link (link a) l q

namespace Seg

variable {link link' : ℕ → Option ℕ} {p p' q q' : Option ℕ} {a : ℕ} {l m : List ℕ}

@[simp] theorem nil_iff : Seg link p [] q ↔ p = q := .rfl

@[simp] theorem cons_iff : Seg link p (a :: l) q ↔ p = some a ∧ Seg link (link a) l q := .rfl

theorem append_iff : Seg link p (l ++ m) q ↔ ∃ r, Seg link p l r ∧ Seg link r m q := by
  induction l generalizing p with
  | nil => simp
  | cons a l ih => simp [ih, and_assoc]

theorem congr (h : Seg link p l q) (hl : ∀ a ∈ l, link' a = link a) : Seg link' p l q := by
  induction l generalizing p with
  | nil => exact h
  | cons a l ih =>
    refine ⟨h.1, ?_⟩
    rw [hl a mem_cons_self]
    exact ih h.2 fun b hb => hl b (mem_cons_of_mem _ hb)

theorem start_eq (h : Seg link p l q) : p = l.head?.or q := by
  cases l with
  | nil => simpa using h
  | cons a l => simpa using h.1

theorem link_eq (h : Seg link p (l ++ a :: m) q) : link a = m.head?.or q := by
  obtain ⟨_, -, -, hm⟩ := append_iff.mp h
  exact hm.start_eq

/-- Redirect the end of a segment: the link of its last address, or its start. -/
theorem relink (h : Seg link p l q) (hl : l.Nodup) (hp : p' = if l = [] then q' else p)
    (hlink : ∀ a ∈ l, link' a = if l.getLast? = some a then q' else link a) :
    Seg link' p' l q' := by
  induction l generalizing p p' with
  | nil => simpa using hp
  | cons a l ih =>
    obtain ⟨rfl, h⟩ := h
    obtain ⟨ha, hl'⟩ := nodup_cons.mp hl
    refine ⟨by simpa using hp, ih h hl' ?_ fun b hb => ?_⟩
    · rw [hlink a mem_cons_self]
      cases l with
      | nil => simp
      | cons b m =>
        have hne : (a :: b :: m).getLast? ≠ some a := fun he => by
          rw [getLast?_cons_cons] at he
          exact ha (mem_of_getLast? he)
        rw [if_neg hne, if_neg (cons_ne_nil b m)]
    · rw [hlink b (mem_cons_of_mem _ hb)]
      cases l with
      | nil => simp at hb
      | cons c m => rw [getLast?_cons_cons]

theorem insert (h : Seg link p (l ++ m) q) (hl : l.Nodup) (hp : p' = if l = [] then some a else p)
    (hself : link' a = m.head?.or q)
    (hlink : ∀ b ∈ l ++ m, link' b = if l.getLast? = some b then some a else link b)
    (hm : ∀ b ∈ m, b ∉ l) : Seg link' p' (l ++ a :: m) q := by
  obtain ⟨r, hfront, hback⟩ := append_iff.mp h
  refine append_iff.mpr ⟨some a, hfront.relink hl hp fun b hb => hlink b (by simp [hb]), rfl, ?_⟩
  rw [hself, ← hback.start_eq]
  refine hback.congr fun b hb => ?_
  rw [hlink b (by simp [hb]), if_neg fun he => hm b hb (mem_of_getLast? he)]

theorem unlink (h : Seg link p (l ++ a :: m) q) (hl : l.Nodup)
    (hp : p' = if l = [] then link a else p)
    (hlink : ∀ b ∈ l ++ m, link' b = if l.getLast? = some b then link a else link b)
    (hm : ∀ b ∈ m, b ∉ l) : Seg link' p' (l ++ m) q := by
  obtain ⟨r, hfront, -, hback⟩ := append_iff.mp h
  refine append_iff.mpr ⟨link a, hfront.relink hl hp fun b hb => hlink b (by simp [hb]), ?_⟩
  refine hback.congr fun b hb => ?_
  rw [hlink b (by simp [hb]), if_neg fun he => hm b hb (mem_of_getLast? he)]

end Seg

structure Node (α : Type*) where
  val : α
  next : Option ℕ
  peer : Option ℕ
  deriving DecidableEq, Repr

abbrev Heap (α : Type*) := ℕ → Option (Node α)

namespace Heap

variable {α : Type*} {h : Heap α} {a b : ℕ} {n : Node α} {q : Option ℕ}

/-- `a->next = q`; an address that is not allocated is not written. -/
def setNext (h : Heap α) (a : ℕ) (q : Option ℕ) : Option (Heap α) :=
  (h a).map fun n => update h a (some { n with next := q })

def setPeer (h : Heap α) (a : ℕ) (q : Option ℕ) : Option (Heap α) :=
  (h a).map fun n => update h a (some { n with peer := q })

def alloc (h : Heap α) (a : ℕ) (v : α) : Heap α := update h a (some ⟨v, none, none⟩)

def free (h : Heap α) (a : ℕ) : Heap α := update h a none

/-- The `next` link of an address, none if it is not allocated. -/
def nextOf (h : Heap α) (a : ℕ) : Option ℕ := (h a).bind Node.next

def peerOf (h : Heap α) (a : ℕ) : Option ℕ := (h a).bind Node.peer

def valOf (h : Heap α) (a : ℕ) : Option α := (h a).map Node.val

/-- The heap with the `next` link of one node redirected, if there is one. -/
def redirect (h : Heap α) (o q : Option ℕ) : Heap α := fun a =>
  if o = some a then (h a).map ({ · with next := q }) else h a

variable {o : Option ℕ}

theorem redirect_of_ne (ho : o ≠ some a) : h.redirect o q a = h a := if_neg ho

theorem bind_redirect_next {v : α} (ha : h.valOf a = some v) :
    (h.redirect o q a).bind Node.next = if o = some a then q else h.nextOf a := by
  obtain ⟨n, hn, -⟩ := map_eq_some_iff.mp ha
  unfold redirect
  split <;> simp [hn, nextOf]

theorem bind_redirect_peer : (h.redirect o q a).bind Node.peer = h.peerOf a := by
  unfold redirect
  split
  · exact bind_map
  · rfl

theorem map_redirect_val : (h.redirect o q a).map Node.val = h.valOf a := by
  unfold redirect
  split <;> simp [valOf, comp_def]

theorem isSome_redirect : (h.redirect o q a).isSome = (h a).isSome := by
  unfold redirect
  split <;> simp

variable (ha : h a = some n)

include ha

theorem nextOf_eq : h.nextOf a = n.next := by simp [nextOf, ha]

theorem peerOf_eq : h.peerOf a = n.peer := by simp [peerOf, ha]

theorem setNext_eq :
    h.setNext a q = some (update h a (some { n with next := q })) := by simp [setNext, ha]

theorem setPeer_eq :
    h.setPeer a q = some (update h a (some { n with peer := q })) := by simp [setPeer, ha]

end Heap

open Table (entries)

section Linked

variable {α : Type*} {h h' : Heap α} {root root' p : Option ℕ} {c d c' : ℕ × α}
  {l l' : List (ℕ × α)} {t A B R : List ((ℕ × α) × List (ℕ × α))}

def addrs (t : List ((ℕ × α) × List (ℕ × α))) : List ℕ := (entries t).map fst

def heads (t : List ((ℕ × α) × List (ℕ × α))) : List ℕ := t.map fun r => r.1.1

@[simp] theorem addrs_nil : addrs ([] : List ((ℕ × α) × List (ℕ × α))) = [] := rfl

@[simp] theorem addrs_cons : addrs ((c, l) :: t) = c.1 :: l.map fst ++ addrs t := by
  simp [addrs]

@[simp] theorem addrs_append : addrs (A ++ B) = addrs A ++ addrs B := by simp [addrs]

@[simp] theorem heads_nil : heads ([] : List ((ℕ × α) × List (ℕ × α))) = [] := rfl

@[simp] theorem heads_cons : heads ((c, l) :: t) = c.1 :: heads t := rfl

@[simp] theorem heads_append : heads (A ++ B) = heads A ++ heads B := map_append

theorem heads_sublist : (heads t).Sublist (addrs t) := by
  induction t with
  | nil => exact .slnil
  | cons r t ih =>
    obtain ⟨c, l⟩ := r
    simpa using ih.trans (sublist_append_right _ _)

theorem mem_addrs_row {a : ℕ} :
    a ∈ addrs (A ++ (c, l) :: B) ↔ a ∈ c.1 :: l.map fst ∨ a ∈ addrs (A ++ B) := by
  simp only [addrs_append, addrs_cons, mem_append]
  exact or_left_comm

theorem nodup_row (h : (addrs (A ++ (c, l) :: B)).Nodup) :
    (c.1 :: l.map fst).Nodup ∧ ∀ a ∈ c.1 :: l.map fst, a ∉ addrs (A ++ B) := by
  have hp : (addrs (A ++ (c, l) :: B)).Perm ((c.1 :: l.map fst) ++ addrs (A ++ B)) := by
    simp only [addrs_append, addrs_cons]
    exact perm_append_comm_assoc _ _ _
  obtain ⟨hrow, -, hne⟩ := nodup_append.mp (hp.nodup_iff.mp h)
  exact ⟨hrow, fun a ha hm => hne a ha a hm rfl⟩

variable {pre post : List (ℕ × α)} {a ep : ℕ}

theorem mem_addrs_tail : a ∈ addrs (A ++ (c, pre ++ post) :: B) ↔
    a ∈ post.map fst ∨ a ∈ addrs (A ++ (c, pre) :: B) := by
  simp only [mem_addrs_row, map_append, ← cons_append, mem_append]
  exact or_assoc.trans or_left_comm

theorem nodup_row_append (h : (addrs (A ++ (c, pre ++ post) :: B)).Nodup) :
    (c.1 :: pre.map fst).Nodup ∧ (post.map fst).Nodup ∧
      ∀ a ∈ post.map fst, a ∉ addrs (A ++ (c, pre) :: B) := by
  obtain ⟨hrow, hne⟩ := nodup_row h
  rw [map_append, ← cons_append] at hrow hne
  obtain ⟨hpre, hpost, hd⟩ := nodup_append.mp hrow
  refine ⟨hpre, hpost, fun a ha hm => ?_⟩
  rcases mem_addrs_row.mp hm with hm | hm
  · exact hd a hm a ha rfl
  · exact hne a (mem_append_right _ ha) hm

structure Linked (h : Heap α) (root : Option ℕ) (t : List ((ℕ × α) × List (ℕ × α))) : Prop where
  next : Seg h.nextOf root (heads t) none
  peer : ∀ r ∈ t, Seg h.peerOf (h.peerOf r.1.1) (r.2.map fst) none
  val : ∀ d ∈ entries t, h.valOf d.1 = some d.2

namespace Linked

theorem agree_mem (hA : ∀ a ∈ addrs A, h'.peerOf a = h.peerOf a)
    (hL : ∀ r ∈ A, Seg h.peerOf (h.peerOf r.1.1) (r.2.map fst) none) :
    ∀ r ∈ A, Seg h'.peerOf (h'.peerOf r.1.1) (r.2.map fst) none := by
  intro r hr
  have hmem : ∀ d ∈ r.1 :: r.2, d.1 ∈ addrs A := fun d hd =>
    mem_map_of_mem (Table.mem_entries.mpr ⟨r, hr, hd⟩)
  rw [hA _ (hmem r.1 mem_cons_self)]
  refine (hL r hr).congr fun a ha => hA a ?_
  obtain ⟨d, hd, rfl⟩ := mem_map.mp ha
  exact hmem d (mem_cons_of_mem _ hd)

theorem node_of_mem (hL : Linked h root t) (hd : d ∈ entries t) :
    ∃ n, h d.1 = some n ∧ n.val = d.2 :=
  map_eq_some_iff.mp (hL.val d hd)

theorem node_head (hL : Linked h root (A ++ (c, l) :: B)) :
    ∃ n, h c.1 = some n ∧ n.val = c.2 ∧ n.next = (heads B).head? ∧ n.peer = (l.map fst).head? := by
  obtain ⟨n, hn, hv⟩ := hL.node_of_mem (d := c) (by simp)
  refine ⟨n, hn, hv, ?_, ?_⟩
  · have hnext := hL.next
    rw [heads_append, heads_cons] at hnext
    rw [← Heap.nextOf_eq hn, hnext.link_eq, or_none]
  · rw [← Heap.peerOf_eq hn, (hL.peer (c, l) (by simp)).start_eq, or_none]

theorem node_peer (hL : Linked h root (A ++ (c, pre ++ d :: post) :: B)) :
    ∃ n, h d.1 = some n ∧ n.val = d.2 ∧ n.peer = (post.map fst).head? := by
  obtain ⟨n, hn, hv⟩ := hL.node_of_mem (d := d) (by simp)
  refine ⟨n, hn, hv, ?_⟩
  have hrow := hL.peer (c, pre ++ d :: post) (by simp)
  rw [map_append, map_cons] at hrow
  rw [← Heap.peerOf_eq hn, hrow.link_eq, or_none]

theorem getLast_heads (hL : Linked h root (A ++ B)) (hnd : (addrs (A ++ B)).Nodup)
    (ha : (heads A).getLast? = some a) : (h a).isSome ∧ a ∉ addrs B := by
  have hm : a ∈ addrs A := heads_sublist.mem (mem_of_getLast? ha)
  rw [addrs_append] at hnd
  obtain ⟨d, hd, rfl⟩ := mem_map.mp hm
  obtain ⟨n, hn, -⟩ := hL.node_of_mem (d := d) (by simp [hd])
  exact ⟨by simp [hn], fun hb => (nodup_append.mp hnd).2.2 _ hm _ hb rfl⟩

theorem congr (hL : Linked h root t) (hh : ∀ a ∈ addrs t, h' a = h a) : Linked h' root t := by
  refine ⟨hL.next.congr fun a ha => ?_, agree_mem (fun a ha => ?_) hL.peer, fun d hd => ?_⟩
  · simp only [Heap.nextOf, hh a (heads_sublist.mem ha)]
  · simp only [Heap.peerOf, hh a ha]
  · rw [← hL.val d hd]
    simp only [Heap.valOf, hh d.1 (mem_map_of_mem hd)]

/-- Replace the rows `R` by `R'`, linked in through `p`: only the last row before them is
redirected. -/
theorem splice (R' : List ((ℕ × α) × List (ℕ × α))) (hL : Linked h root (A ++ (R ++ B)))
    (hnd : (addrs (A ++ (R ++ B))).Nodup)
    (hroot : root' = if (heads A).getLast? = none then p else root)
    (hout : ∀ a ∈ addrs (A ++ B), h' a = h.redirect (heads A).getLast? p a)
    (hR : Seg h'.nextOf p (heads R') (heads B).head?)
    (hRp : ∀ r ∈ R', Seg h'.peerOf (h'.peerOf r.1.1) (r.2.map fst) none)
    (hRv : ∀ d ∈ entries R', h'.valOf d.1 = some d.2) : Linked h' root' (A ++ (R' ++ B)) := by
  obtain ⟨hn, hp, hv⟩ := hL
  simp only [heads_append, Seg.append_iff] at hn
  obtain ⟨p₀, hnA, p₁, hnR, hnB⟩ := hn
  have hp₁ : p₁ = (heads B).head? := by simpa using hnB.start_eq
  have hA : ∀ a ∈ addrs A, h' a = h.redirect (heads A).getLast? p a :=
    fun a ha => hout a (by simp [ha])
  have hB : ∀ a ∈ addrs B, h' a = h a := fun a ha => by
    rw [hout a (by simp [ha]), Heap.redirect_of_ne]
    intro he
    have hm := heads_sublist.mem (mem_of_getLast? he)
    rw [addrs_append] at hnd
    exact (nodup_append.mp hnd).2.2 a hm a (by simp [ha]) rfl
  have hndA : (heads A).Nodup := by
    rw [addrs_append] at hnd
    exact (nodup_append.mp hnd).1.sublist heads_sublist
  refine ⟨?_, fun r hr => ?_, fun d hd => ?_⟩
  · simp only [heads_append, Seg.append_iff]
    simp only [getLast?_eq_none_iff] at hroot
    refine ⟨p, hnA.relink hndA hroot fun a ha => ?_, (heads B).head?, hR, ?_⟩
    · have hm := heads_sublist.mem ha
      obtain ⟨d, hd, rfl⟩ := mem_map.mp hm
      rw [Heap.nextOf, hA _ hm, Heap.bind_redirect_next (hv d (by simp [hd]))]
    · rw [← hp₁]
      exact hnB.congr fun a ha => by simp only [Heap.nextOf, hB a (heads_sublist.mem ha)]
  · rcases mem_append.mp hr with hr | hr
    · refine agree_mem (fun a ha => ?_) (fun r hr => hp r (by simp [hr])) r hr
      rw [Heap.peerOf, hA a ha, Heap.bind_redirect_peer]
    rcases mem_append.mp hr with hr | hr
    · exact hRp r hr
    · exact agree_mem (fun a ha => by simp only [Heap.peerOf, hB a ha]) (fun r hr =>
        hp r (by simp [hr])) r hr
  · simp only [Table.entries_append, mem_append] at hd hv
    rcases hd with hd | hd | hd
    · rw [Heap.valOf, hA d.1 (mem_map_of_mem hd), Heap.map_redirect_val, hv d (.inl hd)]
    · exact hRv d hd
    · rw [← hv d (.inr (.inr hd))]
      simp only [Heap.valOf, hB d.1 (mem_map_of_mem hd)]

theorem setRow (hL : Linked h root (A ++ (c, l) :: B)) (hnd : (addrs (A ++ (c, l) :: B)).Nodup)
    (hout : ∀ a ∈ addrs (A ++ B), h' a = h a) (hnext : h'.nextOf c.1 = h.nextOf c.1)
    (hpeer : Seg h'.peerOf (h'.peerOf c.1) (l'.map fst) none)
    (hval : ∀ d ∈ c :: l', h'.valOf d.1 = some d.2) : Linked h' root (A ++ (c, l') :: B) := by
  have hn := hL.next
  rw [heads_append, heads_cons] at hn
  -- the row is linked in through the pointer that leads to it already
  refine splice (R := [(c, l)]) (p := some c.1) [(c, l')] hL hnd ?_ (fun a ha => ?_) ⟨rfl, ?_⟩
    (by simpa using hpeer) (by simpa using hval)
  · split_ifs with hA
    · rw [hn.start_eq, getLast?_eq_none_iff.mp hA]
      rfl
    · rfl
  · rw [hout a ha, Heap.redirect]
    split_ifs with he
    · obtain ⟨L, hL'⟩ := getLast?_eq_some_iff.mp he
      rw [hL', append_assoc] at hn
      have hself : h.nextOf a = some c.1 := hn.link_eq
      obtain ⟨n, hn, hnc⟩ := bind_eq_some_iff.mp hself
      rw [hn, map_some, ← hnc]
    · rfl
  · change h'.nextOf c.1 = (heads B).head?
    rw [hnext, hn.link_eq, or_none]

/-- What is behind the changes in a row stays as it is. -/
theorem suffix (hL : Linked h root (A ++ (c, pre ++ post) :: B))
    (hpost : ∀ a ∈ post.map fst, h' a = h a) :
    Seg h'.peerOf (post.map fst).head? (post.map fst) none ∧
      ∀ d ∈ post, h'.valOf d.1 = some d.2 := by
  constructor
  · have hrow := hL.peer (c, pre ++ post) (by simp)
    simp only [map_append] at hrow
    obtain ⟨q, -, hq⟩ := Seg.append_iff.mp hrow
    have hstart : q = (post.map fst).head? := by simpa using hq.start_eq
    rw [← hstart]
    exact hq.congr fun a ha => by simp only [Heap.peerOf, hpost a ha]
  · intro d hd
    rw [Heap.valOf, hpost d.1 (mem_map_of_mem hd)]
    exact hL.val d (by simp [hd])

/-- Replace a row by one that begins with `c'` and `mid` and goes on with `post` as before. -/
theorem spliceHead (pre mid : List (ℕ × α)) (hL : Linked h root (A ++ (c, pre ++ post) :: B))
    (hnd : (addrs (A ++ (c, pre ++ post) :: B)).Nodup)
    (hroot : root' = if (heads A).getLast? = none then some c'.1 else root)
    (hout : ∀ a ∈ addrs (A ++ B), h' a = h.redirect (heads A).getLast? (some c'.1) a)
    (hpost : ∀ a ∈ post.map fst, h' a = h a) (hnext : h'.nextOf c'.1 = (heads B).head?)
    (hmid : Seg h'.peerOf (h'.peerOf c'.1) (mid.map fst) (post.map fst).head?)
    (hval : ∀ d ∈ c' :: mid, h'.valOf d.1 = some d.2) :
    Linked h' root' (A ++ (c', mid ++ post) :: B) := by
  obtain ⟨hp, hv⟩ := hL.suffix hpost
  refine hL.splice (R := [(c, pre ++ post)]) [(c', mid ++ post)] hnd hroot hout ⟨rfl, hnext⟩ ?_ ?_
  · simp only [mem_singleton, forall_eq, map_append]
    exact Seg.append_iff.mpr ⟨_, hmid, hp⟩
  · intro d hd
    rw [Table.entries_cons, Table.entries_nil, append_nil, ← cons_append] at hd
    exact (mem_append.mp hd).elim (hval d) (hv d)

/-- Replace `del` by `mid` inside a row: the last one before them is redirected. -/
theorem spliceTail (del mid : List (ℕ × α))
    (hL : Linked h root (A ++ (c, pre ++ (del ++ post)) :: B))
    (hnd : (addrs (A ++ (c, pre ++ (del ++ post)) :: B)).Nodup)
    (hep : (c.1 :: pre.map fst).getLast? = some ep)
    (hout : ∀ a ∈ addrs (A ++ (c, pre ++ post) :: B),
      h' a = if a = ep then (h a).map ({ · with peer := p }) else h a)
    (hmid : Seg h'.peerOf p (mid.map fst) (post.map fst).head?)
    (hval : ∀ d ∈ mid, h'.valOf d.1 = some d.2) :
    Linked h' root (A ++ (c, pre ++ (mid ++ post)) :: B) := by
  have hepm : ep ∈ c.1 :: pre.map fst := mem_of_getLast? hep
  have hrow : ∀ a ∈ c.1 :: pre.map fst, a ∈ addrs (A ++ (c, pre) :: B) := fun a ha =>
    mem_addrs_row.mpr (.inl ha)
  obtain ⟨hndc, -, hapart⟩ := nodup_row_append hnd
  have hpost : ∀ a ∈ post.map fst, h' a = h a := by
    intro a ha
    rw [hout a (mem_addrs_tail.mpr (.inl ha)), if_neg]
    rintro rfl
    exact hapart a (by simp only [map_append, mem_append, ha, or_true]) (hrow a hepm)
  have hout : ∀ a ∈ addrs (A ++ (c, pre) :: B),
      h' a = if a = ep then (h a).map ({ · with peer := p }) else h a :=
    fun a ha => hout a (mem_addrs_tail.mpr (.inr ha))
  have hc := hrow c.1 mem_cons_self
  have hv : ∀ d ∈ c :: pre, h.valOf d.1 = some d.2 := fun d hd =>
    hL.val d (Table.mem_entries.mpr ⟨(c, pre ++ (del ++ post)), by simp, mem_append_left _ hd⟩)
  have hL' : Linked h root (A ++ (c, pre ++ del ++ post) :: B) := by rwa [append_assoc pre]
  obtain ⟨hp, hvp⟩ := hL'.suffix hpost
  refine setRow hL hnd (fun a ha => ?_) ?_ ?_ fun d hd => ?_
  · rw [hout a (mem_addrs_row.mpr (.inr ha)), if_neg]
    rintro rfl
    exact (nodup_row hnd).2 a (by rw [map_append, ← cons_append]; exact mem_append_left _ hepm) ha
  · rw [Heap.nextOf, hout _ hc]
    split
    · exact Option.bind_map
    · rfl
  · have hseg : Seg h.peerOf (some c.1) (c.1 :: pre.map fst ++ (del ++ post).map fst) none := by
      simpa using hL.peer (c, pre ++ (del ++ post)) (by simp)
    obtain ⟨q, hq, -⟩ := Seg.append_iff.mp hseg
    have hpre : Seg h'.peerOf (some c.1) (c.1 :: pre.map fst) p := by
      apply hq.relink hndc (by simp)
      intro a ha
      obtain ⟨d, hd, rfl⟩ := mem_map.mp (show a ∈ (c :: pre).map fst from ha)
      rw [Heap.peerOf, hout _ (hrow _ ha), hep]
      obtain ⟨n, hn, -⟩ := map_eq_some_iff.mp (hv d hd)
      by_cases he : d.1 = ep
      · rw [if_pos he, if_pos (congrArg some he.symm), hn]
        rfl
      · rw [if_neg he, if_neg fun h => he (some.inj h).symm, Heap.peerOf]
    rw [map_append, map_append]
    exact Seg.append_iff.mpr ⟨p, hpre.2, Seg.append_iff.mpr ⟨_, hmid, hp⟩⟩
  · rw [← cons_append, mem_append, mem_append] at hd
    rcases hd with hd | hd | hd
    · rw [← hv d hd, Heap.valOf, hout _ (hrow _ (mem_map_of_mem (f := fst) hd))]
      split <;> simp [Heap.valOf, comp_def]
    · exact hval d hd
    · exact hvp d hd

end Linked

end Linked

end CallWeaver
