import CallWeaver.Dialplan.Calls
import CallWeaver.Dialplan.Removing

/-! # The frame law of removal

A successful removal should leave exactly the entries reachable that were not asked for: one call
removes one entry, or a whole extension for priority 0. If it is the first entry of the first
extension, with others behind it, the root is set to the second entry, whose `next` link may lead
elsewhere.
-/

namespace CallWeaver.Dialplan

open Function Option Prod List
open Table (entries)

variable {s s' s₁ : Store} {t t' A B : List (Cell × List Cell)} {fuel : ℕ} {c d q : Cell}
  {l : List Cell} {extension : CStr} {priority : ℤ} {registrar : Option CStr} {X R Y : List Exten}
  {k : Node Exten}

def isAsked (extension : CStr) (priority : ℤ) (registrar : Option CStr) (e : Exten) : Bool :=
  selects extension registrar e && e.priority = priority

/-- The entries that stay reachable are those not asked for. -/
def RemovalLaw (s' : Store) (root : List Chain) (extension : CStr) (priority : ℤ)
    (registrar : Option CStr) : Prop :=
  ∃ root', s'.Holds root' ∧ (root'.flatMap Chain.entries).Perm
    ((root.flatMap Chain.entries).filter fun e => !isAsked extension priority registrar e)

def Store.secondNext (s : Store) : Option (Option ℕ) := do
  let n ← s.heap (← s.root)
  let k ← s.heap (← n.peer)
  return k.next

def cutsRoot (root : List Chain) (extension : CStr) (priority : ℤ) (registrar : Option CStr) :
    Bool :=
  match root with
  | ⟨e, _ :: _⟩ :: _ => isAsked extension priority registrar e
  | _ => false

/-- Exactly one entry is asked for, which for priority 0 is all of its extension. If it is the first
one, with others behind it, the `next` link of the second one leads to the entries of the other
extensions without those asked for. -/
def KeepsLinks (s : Store) (root : List Chain) (extension : CStr) (priority : ℤ)
    (registrar : Option CStr) : Prop :=
  if priority = 0 then
    (root.flatMap Chain.entries).countP (isAsked extension priority registrar) = 1 ∧
      ∀ c, root.find? (fun c => selects extension registrar c.head) = some c → c.peers = [] ∧
      c.head.priority = 0
  else if cutsRoot root extension priority registrar then
    ∃ p cs, s.secondNext = some p ∧ Store.Holds { s with root := p } cs ∧
      (cs.flatMap Chain.entries).Perm ((root.tail.flatMap Chain.entries).filter fun e =>
        !isAsked extension priority registrar e)
  else (root.flatMap Chain.entries).countP (isAsked extension priority registrar) = 1

theorem perm_filter_not_iff {α : Type*} {P : α → Bool} {X R Y : List α} :
    (X ++ Y).Perm ((X ++ (R ++ Y)).filter fun e => !P e) ↔
      (∀ e ∈ R, P e = true) ∧ (X ++ Y).countP P = 0 := by
  have hsplit : (∀ e ∈ X ++ Y, P e = false) →
      (X ++ (R ++ Y)).filter (fun e => !P e) = X ++ (R.filter (fun e => !P e) ++ Y) := by
    intro h
    have hX : X.filter (fun e => !P e) = X :=
      filter_eq_self.mpr fun e he => by simp [h e (mem_append_left _ he)]
    have hY : Y.filter (fun e => !P e) = Y :=
      filter_eq_self.mpr fun e he => by simp [h e (mem_append_right _ he)]
    rw [filter_append, filter_append, hX, hY]
  constructor
  · intro hp
    have hXY : ∀ e ∈ X ++ Y, P e = false := fun e he => by
      simpa using (mem_filter.mp (hp.mem_iff.mp he)).2
    refine ⟨fun e he => ?_, countP_eq_zero.mpr fun e he => by simp [hXY e he]⟩
    have hlen := hp.length_eq
    simp only [hsplit hXY, length_append] at hlen
    have hnil : R.filter (fun e => !P e) = [] := length_eq_zero_iff.mp (by omega)
    simpa using filter_eq_nil_iff.mp hnil e he
  · rintro ⟨hR, hXY⟩
    have hnil : R.filter (fun e => !P e) = [] :=
      filter_eq_nil_iff.mpr fun e he => by simp [hR e he]
    rw [hsplit fun e he => by simpa using countP_eq_zero.mp hXY e he, hnil]
    exact .refl _

theorem law_iff_of_linked (hL : Linked s'.heap s'.root t')
    (ht : (entries t).map snd = X ++ (R ++ Y)) (ht' : (entries t').map snd = X ++ Y) :
    RemovalLaw s' (chains t) extension priority registrar ↔
      (∀ e ∈ R, isAsked extension priority registrar e = true) ∧
        (X ++ Y).countP (isAsked extension priority registrar) = 0 := by
  rw [← perm_filter_not_iff, ← ht, ← ht', ← flatMap_chains, ← flatMap_chains]
  constructor
  · rintro ⟨root', hr, hp⟩
    rwa [hr.unique (holds_chains hL)] at hp
  · exact fun hp => ⟨chains t', holds_chains hL, hp⟩

theorem law_iff_of_entry {x : Exten} (hp : priority ≠ 0)
    (hcut : ¬ cutsRoot (chains t) extension priority registrar = true)
    (hL : Linked s'.heap s'.root t') (ht : (entries t).map snd = X ++ x :: Y)
    (ht' : (entries t').map snd = X ++ Y) (hx : isAsked extension priority registrar x = true) :
    RemovalLaw s' (chains t) extension priority registrar ↔
      KeepsLinks s (chains t) extension priority registrar := by
  rw [KeepsLinks, if_neg hp, if_neg hcut, law_iff_of_linked (R := [x]) hL (by simpa using ht) ht',
    flatMap_chains, ht, countP_append, countP_append, countP_cons_of_pos hx]
  simp only [mem_singleton, forall_eq, hx, true_and]
  omega

theorem find_chains (hA : ∀ r ∈ A, selects extension registrar r.1.2 = false)
    (hc : selects extension registrar c.2 = true) :
    (chains (A ++ (c, l) :: B)).find? (fun c => selects extension registrar c.head) =
      some ⟨c.2, l.map snd⟩ := by
  have hA' : ∀ d ∈ chains A, ¬ selects extension registrar d.head = true := fun d hd => by
    obtain ⟨r, hr, rfl⟩ := mem_map.mp hd
    simp [hA r hr]
  rw [chains, map_append, find?_append, ← chains, find?_eq_none.mpr hA']
  simp [hc]

theorem linked_of_freePeers (h : Laid s (A ++ (c, l) :: B))
    (hs : s.setSucc (heads A).getLast? (heads B).head? = some s₁)
    (hf : freePeers fuel s₁ (some c.1) = some s') : Linked s'.heap s'.root (A ++ B) := by
  have hs₁ : s₁.heap = s.heap.redirect (heads A).getLast? (heads B).head? := by
    have hs' := hs
    rw [setSucc_eq fun a ha => (h.linked.getLast_heads h.nodup ha).1] at hs'
    cases hs'
    rfl
  have hrow : Seg s₁.heap.peerOf (some c.1) ((c :: l).map fst) none := by
    have hr : Seg s.heap.peerOf (some c.1) ((c :: l).map fst) none :=
      ⟨rfl, h.linked.peer (c, l) (by simp)⟩
    exact hr.congr fun a _ => by rw [hs₁, Heap.peerOf, Heap.bind_redirect_peer]
  obtain ⟨hnd, hapart⟩ := nodup_row h.nodup
  rw [freePeers_inv hrow (fun a ha => ?_) hnd hf]
  · exact linked_of_setSucc s₁ _ h.linked h.nodup hs fun a ha =>
      if_neg fun hm => hapart a hm ha
  · obtain ⟨d, hd, rfl⟩ := mem_map.mp ha
    obtain ⟨n, hn, -⟩ := h.linked.node_of_mem (d := d) (Table.mem_entries.mpr ⟨(c, l), by simp, hd⟩)
    rw [hs₁, Heap.isSome_redirect, hn]
    rfl

theorem law_iff_of_row (h : Rows s (A ++ (c, l) :: B)) (hL : Linked s'.heap s'.root (A ++ B))
    (hc : selects extension registrar c.2 = true) :
    RemovalLaw s' (chains (A ++ (c, l) :: B)) extension 0 registrar ↔
      ((chains (A ++ (c, l) :: B)).flatMap Chain.entries).countP (isAsked extension 0 registrar) =
        1 ∧ l.map snd = [] ∧ c.2.priority = 0 := by
  rw [law_iff_of_linked (X := (entries A).map snd) (R := (c :: l).map snd)
    (Y := (entries B).map snd) hL (by simp) (by simp), flatMap_chains]
  have hranks := h.graded.ranks (c, l) (by simp)
  constructor
  · rintro ⟨hR, hXY⟩
    have hzero : ∀ d ∈ c :: l, d.2.priority = 0 := fun d hd => by
      have := hR d.2 (mem_map_of_mem hd)
      simp only [isAsked, Bool.and_eq_true, decide_eq_true_eq] at this
      exact this.2
    cases l with
    | nil =>
      have hask := hR c.2 (by simp)
      rw [countP_append] at hXY
      refine ⟨?_, rfl, hzero c (by simp)⟩
      simp only [Table.entries_append, Table.entries_cons, map_append, map_cons,
        nil_append, cons_append, countP_append, countP_cons_of_pos hask]
      omega
    | cons e l =>
      -- two entries of a row have different priorities
      have hlt : c.2.priority < e.2.priority := rel_of_pairwise_cons hranks (by simp)
      rw [hzero c (by simp), hzero e (by simp)] at hlt
      omega
  · rintro ⟨hone, hl, hp⟩
    obtain rfl := map_eq_nil_iff.mp hl
    have hask : isAsked extension 0 registrar c.2 = true := by simp [isAsked, hc, hp]
    simp only [Table.entries_append, Table.entries_cons, map_append, map_cons,
      nil_append, cons_append, countP_append, countP_cons_of_pos hask] at hone
    refine ⟨by simpa using hask, ?_⟩
    rw [countP_append]
    omega

theorem cutsRoot_iff (hA : ∀ r ∈ A, selects extension registrar r.1.2 = false) :
    cutsRoot (chains (A ++ (c, l) :: B)) extension priority registrar = true ↔
      A = [] ∧ l ≠ [] ∧ isAsked extension priority registrar c.2 = true := by
  cases A with
  | nil => cases l <;> simp [chains, cutsRoot]
  | cons r A =>
    obtain ⟨e, le⟩ := r
    have he := hA (e, le) mem_cons_self
    cases le <;> simp [chains, cutsRoot, isAsked, he]

section

variable (h : Rows s ((c, q :: l) :: B))

include h

theorem readPeers_second (hk : s.heap q.1 = some k) (hfuel : l.length < fuel) :
    s.heap.free c.1 q.1 = some k ∧ k.val = q.2 ∧
      readPeers (s.heap.free c.1) fuel k.peer = some (l.map snd) := by
  have hc := (nodup_cons.mp (nodup_row (A := []) h.nodup).1).1
  have hfree : ∀ a ∈ q.1 :: l.map fst, s.heap.free c.1 a = s.heap a := fun a ha =>
    update_of_ne (fun he : a = c.1 => hc (he ▸ ha)) _ _
  have hval : ∀ d ∈ q :: l, Heap.valOf (s.heap.free c.1) d.1 = some d.2 := fun d hd => by
    rw [Heap.valOf, hfree d.1 (mem_map_of_mem (f := fst) hd)]
    exact h.linked.val d (mem_append_left _ (mem_cons_of_mem _ hd))
  have hk' : s.heap.free c.1 q.1 = some k := (hfree q.1 mem_cons_self).trans hk
  obtain ⟨-, hseg⟩ := h.linked.peer (c, q :: l) mem_cons_self
  rw [Heap.peerOf_eq hk] at hseg
  refine ⟨hk', ?_,
    readPeers_seg (hseg.congr fun a ha => ?_) (fun d hd => hval d (mem_cons_of_mem _ hd)) hfuel⟩
  · have hv := hval q mem_cons_self
    rw [Heap.valOf, hk'] at hv
    exact some.inj hv
  · simp only [Heap.peerOf, hfree a (mem_cons_of_mem _ ha)]

theorem filter_second (hask : isAsked extension priority registrar c.2 = true) :
    ((chains ((c, q :: l) :: B)).flatMap Chain.entries).filter
        (fun e => !isAsked extension priority registrar e) =
      (q :: l).map snd ++ ((chains B).flatMap Chain.entries).filter fun e =>
        !isAsked extension priority registrar e := by
  have hrow : ((q :: l).map snd).filter (fun e => !isAsked extension priority registrar e) =
      (q :: l).map snd := by
    apply filter_eq_self.mpr
    intro e he
    obtain ⟨d, hd, rfl⟩ := mem_map.mp he
    have hlt : c.2.priority < d.2.priority :=
      rel_of_pairwise_cons (h.graded.ranks (c, q :: l) mem_cons_self) hd
    simp only [isAsked, Bool.and_eq_true, decide_eq_true_eq] at hask
    have hne : d.2.priority ≠ priority := by omega
    simp [isAsked, hne]
  have hchains : (chains ((c, q :: l) :: B)).flatMap Chain.entries =
      c.2 :: ((q :: l).map snd ++ (chains B).flatMap Chain.entries) := rfl
  rw [hchains, filter_cons_of_neg (by simp [hask]), filter_append, hrow]

theorem law_iff_of_root (hask : isAsked extension priority registrar c.2 = true)
    (hk : s.heap q.1 = some k) :
    RemovalLaw ⟨s.heap.free c.1, some q.1⟩ (chains ((c, q :: l) :: B)) extension priority
      registrar ↔ ∃ cs, Store.Holds { s with root := k.next } cs ∧
        (cs.flatMap Chain.entries).Perm (((chains B).flatMap Chain.entries).filter fun e =>
          !isAsked extension priority registrar e) := by
  rw [RemovalLaw, filter_second h hask]
  constructor
  · rintro ⟨root', ⟨fuel, hr⟩, hp⟩
    -- a larger bound reads the same
    have hr' := readRoot_mono hr (show fuel ≤ fuel + l.length + 1 + 1 by omega)
    obtain ⟨hk', hv, hl⟩ := readPeers_second h hk (show l.length < fuel + l.length + 1 by omega)
    obtain ⟨n, hn, hr'⟩ := bind_eq_some_iff.mp hr'
    obtain ⟨l', hl', hr'⟩ := bind_eq_some_iff.mp hr'
    obtain ⟨cs, hcs, hr'⟩ := bind_eq_some_iff.mp hr'
    cases hn.symm.trans hk'
    cases hl'.symm.trans hl
    cases hr'
    refine ⟨cs, ⟨_, readRoot_of_free hcs⟩, ?_⟩
    rw [flatMap_cons, Chain.entries, hv] at hp
    exact (perm_append_left_iff _).mp hp
  · rintro ⟨cs, ⟨fuel, hcs⟩, hp⟩
    have hc : c.2 ∉ cs.flatMap Chain.entries := fun hm => by
      have := (mem_filter.mp (hp.mem_iff.mp hm)).2
      simp [hask] at this
    have hcs' := readRoot_mono (readRoot_free (h.linked.val c (by simp)) hcs hc)
      (show fuel ≤ fuel + l.length + 1 by omega)
    obtain ⟨hk', hv, hl⟩ := readPeers_second h hk (show l.length < fuel + l.length + 1 by omega)
    refine ⟨⟨q.2, l.map snd⟩ :: cs, ⟨fuel + l.length + 1 + 1, ?_⟩, ?_⟩
    · simp only [readRoot, hk', hl, hcs', bind_eq_bind, bind_some, hv]
      rfl
    · exact hp.append_left _

end

theorem law_iff_of_removed (h : Rows s (A ++ (c, l) :: B)) (hp : priority ≠ 0)
    (hA : ∀ r ∈ A, selects extension registrar r.1.2 = false)
    (hc : selects extension registrar c.2 = true) (hr : Removed s s' A B c l priority registrar) :
    RemovalLaw s' (chains (A ++ (c, l) :: B)) extension priority registrar ↔
      KeepsLinks s (chains (A ++ (c, l) :: B)) extension priority registrar := by
  have hask : c.2.priority = priority → isAsked extension priority registrar c.2 = true :=
    fun hpr => by simp [isAsked, hc, hpr]
  cases hr with
  | @peer pre post d hl hd hreg hL =>
    subst hl
    -- the first entry has a lower priority than the one that was removed
    have hlt : c.2.priority < d.2.priority :=
      rel_of_pairwise_cons (h.graded.ranks (c, pre ++ d :: post) (by simp)) (by simp)
    have hdc : d.2.exten = c.2.exten := h.graded.peers (c, pre ++ d :: post) (by simp) d (by simp)
    refine law_iff_of_entry (X := (entries A).map snd ++ c.2 :: pre.map snd)
      (Y := post.map snd ++ (entries B).map snd) (x := d.2) hp (fun hcut => ?_) hL
      (by simp) (by simp) ?_
    · obtain ⟨-, -, hca⟩ := (cutsRoot_iff hA).mp hcut
      simp only [isAsked, Bool.and_eq_true, decide_eq_true_eq] at hca
      omega
    · simp only [selects, Bool.and_eq_true] at hc
      simp [isAsked, selects, hdc, hc.1, hreg, hd]
  | row hl hpr hL =>
    subst hl
    exact law_iff_of_entry (X := (entries A).map snd) (Y := (entries B).map snd) hp
      (fun hcut => ((cutsRoot_iff hA).mp hcut).2.1 rfl) hL (by simp) (by simp) (hask hpr)
  | @second q l' hl hpr hne hL =>
    subst hl
    exact law_iff_of_entry (X := (entries A).map snd)
      (Y := (q :: l').map snd ++ (entries B).map snd) hp
      (fun hcut => hne ((cutsRoot_iff hA).mp hcut).1) hL (by simp) (by simp) (hask hpr)
  | @root q l' hl hpr hA' hs' =>
    subst hl hA' hs'
    obtain ⟨n, hn, -, -, hnp⟩ := h.linked.node_head
    obtain ⟨k, hk, -⟩ := h.linked.node_of_mem (d := q) (by simp)
    have hcut : cutsRoot (chains ([] ++ (c, q :: l') :: B)) extension priority registrar = true :=
      (cutsRoot_iff hA).mpr ⟨rfl, by simp, hask hpr⟩
    have hsecond : s.secondNext = some k.next := by
      have hroot : s.root = some c.1 := h.root_eq
      simp [Store.secondNext, hroot, hn, hnp, hk]
    rw [KeepsLinks, if_neg hp, if_pos hcut, nil_append, law_iff_of_root h (hask hpr) hk]
    constructor
    · rintro ⟨cs, hcs, hp⟩
      exact ⟨k.next, cs, hsecond, hcs, hp⟩
    · rintro ⟨p, cs, hp, hcs, hperm⟩
      obtain rfl := some.inj (hsecond.symm.trans hp)
      exact ⟨cs, hcs, hperm⟩

/-- For every context built by additions and every successful removal, exactly the entries not asked
for stay reachable if and only if the removal keeps the links. -/
theorem cwContextRemoveExtension2_law_iff {calls : List (ℕ × AddCall)} {root : List Chain}
    {locked : Bool} (hrun : Runs addStep (fun s a _ => a.2.Fresh s) .empty calls s)
    (hroot : s.Holds root)
    (hrem : cwContextRemoveExtension2 fuel s extension priority registrar locked = some (s', 0)) :
    RemovalLaw s' root extension priority registrar ↔
      KeepsLinks s root extension priority registrar := by
  obtain ⟨t, h⟩ := runs_rows hrun
  obtain rfl := hroot.unique (holds_chains h.linked)
  cases locked with
  | false => cases hrem
  | true =>
    have hrem' : removeNode extension priority registrar fuel s none (heads t).head? =
        some (s', 0) := by rw [← h.root_eq]; exact hrem
    obtain ⟨A, c, l, B, f, rfl, hA, hc, hres⟩ := removeNode_inv (A := []) h.linked hrem'
    rw [nil_append] at hres
    split_ifs at hres with hp
    · obtain ⟨s₁, hs₁, hf⟩ := hres
      subst hp
      rw [law_iff_of_row h (linked_of_freePeers h.toLaid hs₁ hf) hc, KeepsLinks, if_pos rfl,
        find_chains hA hc]
      simp
    · exact law_iff_of_removed h hp hA hc (removePeer_removed h.linked h.nodup hres)

/-- Two extensions, of which the first is removed. -/
theorem cwContextRemoveExtension2_law_twoExtensions : ∃ (s s' : Store) (root : List Chain),
    Runs addStep (fun s a _ => a.2.Fresh s) .empty
      [(5, ⟨addingAt '1' 1, some 0, true⟩), (5, ⟨addingAt '2' 1, some 1, true⟩)] s ∧
    s.Holds root ∧
    cwContextRemoveExtension2 5 s [chr '1'] 1 none true = some (s', 0) ∧
    KeepsLinks s root [chr '1'] 1 none ∧ RemovalLaw s' root [chr '1'] 1 none := by
  have hrun : Runs addStep (fun s a _ => a.2.Fresh s) .empty
      [(5, ⟨addingAt '1' 1, some 0, true⟩), (5, ⟨addingAt '2' 1, some 1, true⟩)] _ :=
    .cons rfl (by rintro _ ⟨⟩; rfl) (.single rfl (by rintro _ ⟨⟩; rfl))
  have hkeep : ∀ s, KeepsLinks s [⟨(addingAt '1' 1).exten, []⟩, ⟨(addingAt '2' 1).exten, []⟩]
      [chr '1'] 1 none := fun s => by
    rw [KeepsLinks, if_neg (by decide), if_neg (by decide)]
    decide
  refine ⟨_, _, _, hrun, ⟨5, rfl⟩, rfl, hkeep _, ?_⟩
  exact (cwContextRemoveExtension2_law_iff hrun ⟨5, rfl⟩
    (show cwContextRemoveExtension2 5 _ [chr '1'] 1 none true = some (_, 0) from rfl)).mpr (hkeep _)

/-- With two priorities of the first extension, removing the first cuts off the second extension. -/
theorem removal_loses_extension :
    ∃ (s s' : Store) (root : List Chain), Runs addStep (fun s a _ => a.2.Fresh s) .empty
      [(5, ⟨addingAt '1' 1, some 0, true⟩), (5, ⟨addingAt '1' 2, some 1, true⟩),
        (5, ⟨addingAt '2' 1, some 2, true⟩)] s ∧
    s.Holds root ∧
    (root.flatMap Chain.entries).countP (isAsked [chr '1'] 1 none) = 1 ∧
    cwContextRemoveExtension2 5 s [chr '1'] 1 none true = some (s', 0) ∧
    ¬ RemovalLaw s' root [chr '1'] 1 none := by
  refine ⟨_, _, [⟨(addingAt '1' 1).exten, [(addingAt '1' 2).exten]⟩, ⟨(addingAt '2' 1).exten, []⟩],
    .cons rfl (by rintro _ ⟨⟩; rfl) (.cons rfl (by rintro _ ⟨⟩; rfl)
      (.single rfl (by rintro _ ⟨⟩; rfl))), ⟨5, rfl⟩, by decide, rfl, ?_⟩
  rintro ⟨root', hr, hp⟩
  obtain rfl : root' = [⟨(addingAt '1' 2).exten, []⟩] := hr.unique ⟨5, rfl⟩
  exact absurd hp.length_eq (by decide)

end CallWeaver.Dialplan
