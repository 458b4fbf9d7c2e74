import CallWeaver.Dialplan.Adding

/-! # Removing extensions

The loops of `cw_context_remove_extension2` end at one entry of the table, and what they do to the
links there decides whether the other entries stay reachable.
-/

namespace CallWeaver.Dialplan

open Function Prod List Option
open Table (entries)

variable {s s' s₁ s₂ : Store} {t A B : List (Cell × List Cell)} {fuel ep prev : ℕ} {c d q : Cell}
  {l pre post : List Cell} {extension : CStr} {priority : ℤ} {registrar : Option CStr}

theorem removeNode_inv (hL : Linked s.heap s.root (A ++ B))
    (h : removeNode extension priority registrar fuel s (heads A).getLast? (heads B).head? =
      some (s', 0)) :
    ∃ A' c l B' f, B = A' ++ (c, l) :: B' ∧ (∀ r ∈ A', selects extension registrar r.1.2 = false) ∧
      selects extension registrar c.2 = true ∧
      if priority = 0 then
        ∃ s₁, s.setSucc (heads (A ++ A')).getLast? (heads B').head? = some s₁ ∧
        freePeers f s₁ (some c.1) = some s'
      else removePeer priority registrar (heads (A ++ A')).getLast? c.1 f s none (some c.1) =
        some (s', 0) := by
  induction fuel generalizing A B with
  | zero => cases h
  | succ fuel ih =>
    cases B with
    | nil => cases h
    | cons r B =>
      obtain ⟨c, l⟩ := r
      obtain ⟨n, hn, hv, hnn, -⟩ := hL.node_head
      simp only [removeNode, heads_cons, head?_cons, hn, bind_eq_bind, bind_some, hnn] at h
      rw [hv] at h
      by_cases hsel : selects extension registrar c.2 = true
      · rw [if_pos hsel] at h
        refine ⟨[], c, l, B, fuel, rfl, by simp, hsel, ?_⟩
        rw [append_nil]
        split_ifs at h ⊢ with hp
        · obtain ⟨s₁, h₁, h⟩ := bind_eq_some_iff.mp h
          obtain ⟨s₂, h₂, h⟩ := bind_eq_some_iff.mp h
          cases h
          exact ⟨s₁, h₁, h₂⟩
        · exact h
      · rw [if_neg hsel] at h
        have hlast : (heads (A ++ [(c, l)])).getLast? = some c.1 := by
          rw [heads_append]
          exact getLast?_concat
        rw [← hlast] at h
        obtain ⟨A', c', l', B', f, rfl, hA', hc', hres⟩ := ih (by simpa using hL) h
        refine ⟨(c, l) :: A', c', l', B', f, rfl, ?_, hc', ?_⟩
        · intro r hr
          rcases mem_cons.mp hr with rfl | hr
          · simpa using hsel
          · exact hA' r hr
        · simpa using hres

theorem removePeer_inv {prev : Option ℕ} (hL : Linked s.heap s.root (A ++ (c, pre ++ post) :: B))
    (hep : (c.1 :: pre.map fst).getLast? = some ep)
    (h : removePeer priority registrar prev c.1 fuel s (some ep) (post.map fst).head? =
      some (s', 0)) :
    ∃ pre' d post' ep', post = pre' ++ d :: post' ∧
      (d.2.priority = priority ∧ registrarOk registrar d.2 = true) ∧
      (c.1 :: (pre ++ pre').map fst).getLast? = some ep' ∧
      ∃ s₁, s.setPeer ep' (post'.map fst).head? = some s₁ ∧ s' = s₁.free d.1 := by
  induction fuel generalizing pre post ep with
  | zero => cases h
  | succ fuel ih =>
    cases post with
    | nil => cases h
    | cons d post =>
      obtain ⟨n, hn, hv, hnp⟩ := hL.node_peer
      simp only [removePeer, map_cons, head?_cons, hn, bind_eq_bind,
        bind_some, hnp, hv, Bool.and_eq_true, decide_eq_true_eq] at h
      split_ifs at h with hm
      · obtain ⟨s₁, h₁, h⟩ := bind_eq_some_iff.mp h
        cases h
        exact ⟨[], d, post, ep, rfl, hm, by simpa using hep, s₁, h₁, rfl⟩
      · have hlast : (c.1 :: (pre ++ [d]).map fst).getLast? = some d.1 := by
          rw [map_append, ← cons_append]
          exact getLast?_concat
        obtain ⟨pre', d', post', ep', rfl, hd', hep', hres⟩ := ih (by simpa using hL) hlast h
        exact ⟨d :: pre', d', post', ep', rfl, hd', by simpa using hep', hres⟩

theorem freePeers_inv {p : Option ℕ} {l : List ℕ} (hs : Seg s.heap.peerOf p l none)
    (hal : ∀ a ∈ l, (s.heap a).isSome) (hnd : l.Nodup) (h : freePeers fuel s p = some s') :
    s' = ⟨fun a => if a ∈ l then none else s.heap a, s.root⟩ := by
  induction l generalizing fuel s p with
  | nil =>
    obtain rfl : p = none := hs
    cases fuel with
    | zero => cases h
    | succ fuel => cases h; simp
  | cons a l ih =>
    obtain ⟨rfl, hs⟩ := hs
    obtain ⟨ha, hnd⟩ := nodup_cons.mp hnd
    cases fuel with
    | zero => cases h
    | succ fuel =>
      obtain ⟨n, hn⟩ := isSome_iff_exists.mp (hal a mem_cons_self)
      simp only [freePeers, hn, bind_eq_bind, bind_some] at h
      rw [← Heap.peerOf_eq hn] at h
      have hne : ∀ b ∈ l, (s.free a).heap b = s.heap b := fun b hb =>
        update_of_ne (fun he : b = a => ha (he ▸ hb)) _ _
      rw [ih (hs.congr fun b hb => by simp only [Heap.peerOf, hne b hb])
        (fun b hb => by rw [hne b hb]; exact hal b (mem_cons_of_mem _ hb)) hnd h]
      congr 1
      funext b
      rcases eq_or_ne b a with rfl | hb
      · simp [Store.free, Heap.free]
      · simp [Store.free, Heap.free, hb]

theorem linked_of_setPeer (hL : Linked s.heap s.root (A ++ (c, pre ++ d :: post) :: B))
    (hnd : (addrs (A ++ (c, pre ++ d :: post) :: B)).Nodup)
    (hep : (c.1 :: pre.map fst).getLast? = some ep)
    (h : s.setPeer ep (post.map fst).head? = some s₁) :
    Linked (s₁.free d.1).heap (s₁.free d.1).root (A ++ (c, pre ++ post) :: B) := by
  obtain ⟨h₁, hset, rfl⟩ := map_eq_some_iff.mp h
  obtain ⟨n, hn, rfl⟩ := map_eq_some_iff.mp hset
  obtain ⟨-, hndp, hapart⟩ := nodup_row_append hnd
  change Linked (Heap.free _ d.1) s.root _
  refine hL.spliceTail [d] [] hnd hep (fun a ha => ?_) rfl (by simp)
  have had : a ≠ d.1 := by
    rintro rfl
    rcases mem_addrs_tail.mp ha with ha | ha
    · exact (nodup_cons.mp hndp).1 ha
    · exact hapart _ mem_cons_self ha
  rw [Heap.free, update_of_ne had]
  rcases eq_or_ne a ep with rfl | hae
  · simp [hn]
  · simp [hae]

theorem linked_of_setSucc (s₁ : Store) (h' : Heap Exten)
    (hL : Linked s.heap s.root (A ++ (c, l) :: B)) (hnd : (addrs (A ++ (c, l) :: B)).Nodup)
    (hs : s.setSucc (heads A).getLast? (heads B).head? = some s₁)
    (hh : ∀ a ∈ addrs (A ++ B), h' a = s₁.heap a) : Linked h' s₁.root (A ++ B) := by
  rw [setSucc_eq fun a ha => (hL.getLast_heads hnd ha).1] at hs
  cases hs
  exact hL.splice (R := [(c, l)]) [] hnd rfl hh rfl (by simp) (by simp)

theorem linked_of_setNext {n : Node Exten} (hL : Linked s.heap s.root (A ++ (c, q :: l) :: B))
    (hnd : (addrs (A ++ (c, q :: l) :: B)).Nodup) (hA : (heads A).getLast? = some prev)
    (h₁ : s.setNext prev (some q.1) = some s₁) (hn : s₁.heap c.1 = some n)
    (h₂ : s₁.setNext q.1 n.next = some s₂) :
    Linked (s₂.free c.1).heap (s₂.free c.1).root (A ++ (q, l) :: B) := by
  obtain ⟨m, hm, hmv, hmn, -⟩ := hL.node_head
  have hL' : Linked s.heap s.root (A ++ (c, [] ++ q :: l) :: B) := hL
  obtain ⟨k, hk, hkv, hkp⟩ := hL'.node_peer
  obtain ⟨hprev, hp⟩ := hL.getLast_heads hnd hA
  obtain ⟨hrow, hapart⟩ := nodup_row hnd
  rw [map_cons] at hrow hapart
  obtain ⟨hcl, hql⟩ := nodup_cons.mp hrow
  have hqc : q.1 ≠ c.1 := fun he => hcl (he ▸ mem_cons_self)
  have hl : ∀ a ∈ l.map fst, a ≠ c.1 ∧ a ≠ q.1 := fun a ha =>
    ⟨fun he => hcl (he ▸ mem_cons_of_mem _ ha), fun he => (nodup_cons.mp hql).1 (he ▸ ha)⟩
  have hAB : ∀ a ∈ addrs (A ++ B), a ≠ c.1 ∧ a ≠ q.1 := fun a ha =>
    ⟨fun he => hapart c.1 (by simp) (he ▸ ha), fun he => hapart q.1 (by simp) (he ▸ ha)⟩
  have hpne : ∀ a ∈ c.1 :: q.1 :: l.map fst, some prev ≠ some a := fun a ha he =>
    hp (by rw [some.inj he, addrs_cons]; exact mem_append_left _ ha)
  have hset : s.setSucc (some prev) (some q.1) =
      some ⟨s.heap.redirect (some prev) (some q.1), s.root⟩ :=
    setSucc_eq fun a ha => by rw [← some.inj ha]; exact hprev
  cases h₁.symm.trans hset
  have hc : s.heap.redirect (some prev) (some q.1) c.1 = some m := by
    rw [Heap.redirect_of_ne (hpne c.1 (by simp)), hm]
  cases hn.symm.trans hc
  have hk' : s.heap.redirect (some prev) (some q.1) q.1 = some k := by
    rw [Heap.redirect_of_ne (hpne q.1 (by simp)), hk]
  rw [Store.setNext, Heap.setNext_eq hk'] at h₂
  cases h₂
  refine hL.spliceHead [q] [] hnd ?_ (fun a ha => ?_) (fun a ha => ?_) ?_ ?_ ?_
  · simp [hA, Store.free]
  · obtain ⟨hac, haq⟩ := hAB a ha
    simp [Store.free, Heap.free, hac, haq, hA]
  · obtain ⟨hac, haq⟩ := hl a ha
    simp [Store.free, Heap.free, hac, haq, Heap.redirect_of_ne (hpne a (by simp [ha]))]
  · simp [Store.free, Heap.free, Heap.nextOf, hqc, hmn]
  · simp [Store.free, Heap.free, Heap.peerOf, hqc, hkp]
  · simp [Store.free, Heap.free, Heap.valOf, hqc, hkv]

inductive Removed (s s' : Store) (A B : List (Cell × List Cell)) (c : Cell) (l : List Cell)
    (priority : ℤ) (registrar : Option CStr) : Prop where
  /-- A peer behind the first entry is unlinked. -/
  | peer {pre post : List Cell} {d : Cell} : l = pre ++ d :: post → d.2.priority = priority →
      registrarOk registrar d.2 = true → Linked s'.heap s'.root (A ++ (c, pre ++ post) :: B) →
      Removed s s' A B c l priority registrar
  /-- The only entry is unlinked with its row. -/
  | row : l = [] → c.2.priority = priority → Linked s'.heap s'.root (A ++ B) →
      Removed s s' A B c l priority registrar
  /-- The second entry takes the place of the first one. -/
  | second {q : Cell} {l' : List Cell} : l = q :: l' → c.2.priority = priority → A ≠ [] →
      Linked s'.heap s'.root (A ++ (q, l') :: B) → Removed s s' A B c l priority registrar
  /-- The root is set to the second entry, whose links stay as they are. -/
  | root {q : Cell} {l' : List Cell} : l = q :: l' → c.2.priority = priority → A = [] →
      s' = ⟨s.heap.free c.1, some q.1⟩ → Removed s s' A B c l priority registrar

theorem removePeer_removed (hL : Linked s.heap s.root (A ++ (c, l) :: B))
    (hnd : (addrs (A ++ (c, l) :: B)).Nodup)
    (h : removePeer priority registrar (heads A).getLast? c.1 fuel s none (some c.1) =
      some (s', 0)) : Removed s s' A B c l priority registrar := by
  cases fuel with
  | zero => cases h
  | succ fuel =>
    obtain ⟨n, hn, hv, hnn, hnp⟩ := hL.node_head
    have hAB : ∀ a ∈ addrs (A ++ B), a ≠ c.1 := by
      rintro a ha rfl
      exact (nodup_row hnd).2 _ mem_cons_self ha
    simp only [removePeer, hn, bind_eq_bind, bind_some, hv, hnp, Bool.and_eq_true,
      decide_eq_true_eq] at h
    split_ifs at h with hm
    · cases hA : (heads A).getLast? with
      | none =>
        obtain rfl : A = [] := map_eq_nil_iff.mp (getLast?_eq_none_iff.mp hA)
        cases l with
        | nil =>
          cases h
          have hs : s.setSucc none (heads B).head? = some { s with root := n.next } := by
            rw [hnn]; rfl
          exact .row rfl hm.1
            (linked_of_setSucc { s with root := n.next } (s.heap.free c.1) hL hnd hs
            fun a ha => update_of_ne (hAB a ha) _ _)
        | cons q l =>
          cases h
          exact .root rfl hm.1 rfl rfl
      | some prev =>
        have hne : A ≠ [] := by rintro rfl; cases hA
        cases l with
        | nil =>
          simp only [hA, map_nil, head?_nil] at h
          obtain ⟨s₁, hs₁, h⟩ := bind_eq_some_iff.mp h
          cases h
          rw [hnn] at hs₁
          have hs : s.setSucc (heads A).getLast? (heads B).head? = some s₁ := by rw [hA]; exact hs₁
          exact .row rfl hm.1 (linked_of_setSucc s₁ (s₁.heap.free c.1) hL hnd hs
            fun a ha => update_of_ne (hAB a ha) _ _)
        | cons q l =>
          simp only [hA, map_cons, head?_cons] at h
          obtain ⟨s₁, hs₁, h⟩ := bind_eq_some_iff.mp h
          obtain ⟨n₁, hn₁, h⟩ := bind_eq_some_iff.mp h
          obtain ⟨s₂, hs₂, h⟩ := bind_eq_some_iff.mp h
          cases h
          exact .second rfl hm.1 hne (linked_of_setNext hL hnd hA hs₁ hn₁ hs₂)
    · have hL' : Linked s.heap s.root (A ++ (c, [] ++ l) :: B) := hL
      obtain ⟨pre, d, post, ep, rfl, ⟨hd, hr⟩, hep, s₁, hs₁, rfl⟩ := removePeer_inv hL' rfl h
      exact .peer rfl hd hr (linked_of_setPeer hL hnd hep hs₁)

end CallWeaver.Dialplan
