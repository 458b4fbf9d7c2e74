import CallWeaver.Dialplan.Store

/-! # Adding extensions

The loops of `cw_add_extension2` insert the new node into a linked table, by the comparison of
extensions and then by priority. Following the links, as the search does, reads the entries row by
row, and does not depend on other nodes.
-/

namespace CallWeaver.Dialplan

open Function Prod List Option
open Table (entries insertPeer insertRow)

section Adding

abbrev Cell := ℕ × Exten

def cellRank (a : Cell) : ℤ := a.2.priority

/-- The lists of the store are the table `t`, and `tmp` is a new node apart from them. -/
structure Ready (s : Store) (t : List (Cell × List Cell)) (tmp : ℕ) (x : Exten) : Prop where
  linked : Linked s.heap s.root t
  nodup : (tmp :: addrs t).Nodup
  node : s.heap tmp = some ⟨x, none, none⟩

def Outcome (s : Store) (tmp : ℕ) (res : Option (Store × AddResult)) :
    Option (List (Cell × List Cell)) → Prop
  | none => res = some (s.free tmp, .eexist)
  | some t => ∃ s', res = some (s', .ok) ∧ Linked s'.heap s'.root t

variable {s : Store} {t A B : List (Cell × List Cell)} {tmp ep fuel a : ℕ} {x : Exten} {c e : Cell}
  {pre post l : List Cell} {el q : Option ℕ} {replace : Bool}

namespace Ready

theorem ne_tmp (h : Ready s t tmp x) (ha : a ∈ addrs t) : a ≠ tmp := fun he =>
  (nodup_cons.mp h.nodup).1 (he ▸ ha)

theorem setTail (h' : Heap Exten) (del : List Cell) {res : Option (Store × AddResult)}
    (h : Ready s (A ++ (c, pre ++ (del ++ post)) :: B) tmp x)
    (hep : (c.1 :: pre.map fst).getLast? = some ep) (hres : res = some (⟨h', s.root⟩, .ok))
    (hh : ∀ a, a ∉ del.map fst → h' a =
      if a = ep then (s.heap a).map ({ · with peer := some tmp })
      else if a = tmp then some ⟨x, none, (post.map fst).head?⟩ else s.heap a) :
    Outcome s tmp res (some (A ++ (c, pre ++ (tmp, x) :: post) :: B)) := by
  have hnd := (nodup_cons.mp h.nodup).2
  obtain ⟨-, hndp, hapart⟩ := nodup_row_append hnd
  rw [map_append] at hndp hapart
  have hmem : ∀ a, a ∈ del.map fst ∨ a ∈ addrs (A ++ (c, pre ++ post) :: B) →
      a ∈ addrs (A ++ (c, pre ++ (del ++ post)) :: B) := by
    intro a
    rw [mem_addrs_tail, mem_addrs_tail, map_append, mem_append]
    exact or_assoc.mpr
  have hdel : ∀ a ∈ addrs (A ++ (c, pre ++ post) :: B), a ∉ del.map fst := by
    intro a ha hd
    rcases mem_addrs_tail.mp ha with ha | ha
    · exact (nodup_append.mp hndp).2.2 a hd a ha rfl
    · exact hapart a (mem_append_left _ hd) ha
  have hepm : ep ∈ addrs (A ++ (c, pre ++ post) :: B) :=
    mem_addrs_tail.mpr (.inr (mem_addrs_row.mpr (.inl (mem_of_getLast? hep))))
  have htmp : h' tmp = some ⟨x, none, (post.map fst).head?⟩ := by
    rw [hh tmp fun hd => h.ne_tmp (hmem tmp (.inl hd)) rfl, if_neg, if_pos rfl]
    rintro rfl
    exact h.ne_tmp (hmem tmp (.inr hepm)) rfl
  refine ⟨⟨h', s.root⟩, hres,
    h.linked.spliceTail (p := some tmp) del [(tmp, x)] hnd hep (fun a ha => ?_)
    ⟨rfl, Heap.peerOf_eq htmp⟩ (by simp [Heap.valOf, htmp])⟩
  simp only [hh a (hdel a ha), if_neg (h.ne_tmp (hmem a (.inr ha)))]

theorem node_ep (h : Ready s (A ++ (c, pre ++ post) :: B) tmp x)
    (hep : (c.1 :: pre.map fst).getLast? = some ep) :
    ∃ n, s.heap ep = some n ∧ ep ≠ tmp ∧ ep ∉ post.map fst := by
  have hepm : ep ∈ (c :: pre).map fst := mem_of_getLast? hep
  obtain ⟨d, hd, rfl⟩ := mem_map.mp hepm
  have hm : d ∈ entries (A ++ (c, pre ++ post) :: B) :=
    Table.mem_entries.mpr ⟨(c, pre ++ post), by simp, mem_append_left post hd⟩
  obtain ⟨n, hn, -⟩ := h.linked.node_of_mem hm
  obtain ⟨-, -, hapart⟩ := nodup_row_append (nodup_cons.mp h.nodup).2
  exact ⟨n, hn, h.ne_tmp (mem_map_of_mem hm),
    fun hp => hapart d.1 hp (mem_addrs_row.mpr (.inl hepm))⟩

end Ready

theorem setSucc_eq (hel : ∀ a, el = some a → (s.heap a).isSome) :
    s.setSucc el q = some ⟨s.heap.redirect el q, if el = none then q else s.root⟩ := by
  cases el with
  | none =>
    have he : s.heap.redirect none q = s.heap := funext fun a => Heap.redirect_of_ne (by simp)
    simp [Store.setSucc, he]
  | some a =>
    obtain ⟨n, hn⟩ := isSome_iff_exists.mp (hel a rfl)
    have he : s.heap.redirect (some a) q = update s.heap a (some { n with next := q }) := by
      funext b
      rcases eq_or_ne b a with rfl | hb
      · simp [Heap.redirect, hn]
      · rw [update_of_ne hb, Heap.redirect_of_ne fun h => hb (some.inj h).symm]
    simp [Store.setSucc, Store.setNext, Heap.setNext_eq hn, he]

namespace Ready

variable {root' z : Option ℕ} {res : Option (Store × AddResult)}

theorem getLast_heads (h : Ready s (A ++ B) tmp x) (ha : (heads A).getLast? = some a) :
    (s.heap a).isSome ∧ a ≠ tmp ∧ a ∉ addrs B := by
  obtain ⟨h₁, h₂⟩ := h.linked.getLast_heads (nodup_cons.mp h.nodup).2 ha
  refine ⟨h₁, h.ne_tmp ?_, h₂⟩
  rw [addrs_append]
  exact mem_append_left _ (heads_sublist.mem (mem_of_getLast? ha))

section

variable (h : Ready s (A ++ (e, l) :: B) tmp x)

include h

theorem ne_of_mem :
    (∀ a ∈ addrs (A ++ B), a ≠ tmp ∧ a ≠ e.1) ∧
      ∀ a ∈ l.map fst, a ≠ tmp ∧ a ≠ e.1 ∧ (heads A).getLast? ≠ some a := by
  obtain ⟨hrow, hapart⟩ := nodup_row (nodup_cons.mp h.nodup).2
  refine ⟨fun a ha => ⟨h.ne_tmp (mem_addrs_row.mpr (.inr ha)), ?_⟩, fun a ha => ⟨?_, ?_, ?_⟩⟩
  · rintro rfl
    exact hapart _ mem_cons_self ha
  · exact h.ne_tmp (mem_addrs_row.mpr (.inl (mem_cons_of_mem _ ha)))
  · rintro rfl
    exact (nodup_cons.mp hrow).1 ha
  · intro hl
    exact (h.getLast_heads hl).2.2 (by
      rw [addrs_cons]
      exact mem_append_left _ (mem_cons_of_mem _ ha))

theorem replaceHead
    (hres : res = some (⟨Heap.free (update (s.heap.redirect (heads A).getLast? (some tmp)) tmp
      (some ⟨x, (heads B).head?, (l.map fst).head?⟩)) e.1,
      if (heads A).getLast? = none then some tmp else s.root⟩, .ok)) :
    Outcome s tmp res (some (A ++ ((tmp, x), l) :: B)) := by
  have het : tmp ≠ e.1 := Ne.symm (h.ne_tmp (by simp))
  obtain ⟨hAB, hl⟩ := h.ne_of_mem
  refine ⟨_, hres, h.linked.spliceHead [] [] (nodup_cons.mp h.nodup).2 rfl (fun a ha => ?_)
    (fun a ha => ?_) ?_ ?_ ?_⟩
  · simp only [Heap.free, update_of_ne (hAB a ha).2, update_of_ne (hAB a ha).1]
  · obtain ⟨h₁, h₂, h₃⟩ := hl a ha
    simp only [Heap.free, update_of_ne h₂, update_of_ne h₁, Heap.redirect_of_ne h₃]
  · simp [Heap.free, Heap.nextOf, update_of_ne het]
  · simp [Heap.free, Heap.peerOf, update_of_ne het]
  · simp [Heap.free, Heap.valOf, update_of_ne het]

theorem slipHead {n : Node Exten} (hn : s.heap e.1 = some n)
    (hres : res = some (⟨update (update (s.heap.redirect (heads A).getLast? (some tmp)) tmp
      (some ⟨x, (heads B).head?, some e.1⟩)) e.1 (some { n with next := z }),
      if (heads A).getLast? = none then some tmp else s.root⟩, .ok)) :
    Outcome s tmp res (some (A ++ ((tmp, x), e :: l) :: B)) := by
  obtain ⟨m, hm, hmv, -, hmp⟩ := h.linked.node_head
  have het : tmp ≠ e.1 := Ne.symm (h.ne_tmp (by simp))
  obtain rfl : m = n := some.inj (hm.symm.trans hn)
  obtain ⟨hAB, hl⟩ := h.ne_of_mem
  refine ⟨_, hres, h.linked.spliceHead [] [e] (nodup_cons.mp h.nodup).2 rfl (fun a ha => ?_)
    (fun a ha => ?_) ?_ ?_ ?_⟩
  · simp only [update_of_ne (hAB a ha).2, update_of_ne (hAB a ha).1]
  · obtain ⟨h₁, h₂, h₃⟩ := hl a ha
    simp only [update_of_ne h₂, update_of_ne h₁, Heap.redirect_of_ne h₃]
  · simp [Heap.nextOf, update_of_ne het]
  · simp [Heap.peerOf, update_of_ne het, hmp]
  · simp [Heap.valOf, update_of_ne het, hmv]

end

theorem newRow (h : Ready s (A ++ B) tmp x)
    (hres : res = some (⟨Heap.redirect (update s.heap tmp (some ⟨x, (heads B).head?, none⟩))
      (heads A).getLast? (some tmp),
      if (heads A).getLast? = none then some tmp else s.root⟩, .ok)) :
    Outcome s tmp res (some (A ++ ((tmp, x), []) :: B)) := by
  have helt : (heads A).getLast? ≠ some tmp := fun ha => (h.getLast_heads ha).2.1 rfl
  refine ⟨_, hres,
    h.linked.splice (R := []) [((tmp, x), [])] (nodup_cons.mp h.nodup).2 rfl (fun a ha => ?_)
    ⟨rfl, ?_⟩ ?_ ?_⟩
  · simp only [Heap.redirect, update_of_ne (h.ne_tmp ha)]
  · simp [Heap.nextOf, Heap.redirect_of_ne helt]
  · simp [Heap.peerOf, Heap.redirect_of_ne helt]
  · simp [Heap.valOf, Heap.redirect_of_ne helt]

end Ready

theorem addPeer_peers (h : Ready s (A ++ (c, pre ++ post) :: B) tmp x)
    (hep : (c.1 :: pre.map fst).getLast? = some ep) (hfuel : post.length < fuel) :
    Outcome s tmp (addPeer replace tmp el fuel s (some ep) (post.map fst).head?)
      ((insertPeer cellRank replace (tmp, x) post).map fun l => A ++ (c, pre ++ l) :: B) := by
  induction post generalizing pre ep fuel with
  | nil =>
    obtain ⟨n, hn, hne, -⟩ := h.node_ep hep
    obtain ⟨fuel, rfl⟩ := exists_round hfuel
    refine h.setTail (update s.heap ep (some { n with peer := some tmp })) [] hep ?_ fun a _ => ?_
    · simp [addPeer, Store.setPeer, Heap.setPeer_eq hn]
    · rcases eq_or_ne a ep with rfl | h₁
      · simp [hn]
      rcases eq_or_ne a tmp with rfl | h₂
      · simp [h₁, h.node]
      · simp [h₁, h₂]
  | cons e post ih =>
    obtain ⟨n, hn, hne, hep'⟩ := h.node_ep hep
    obtain ⟨m, hm, hmv, hmp⟩ := h.linked.node_peer
    have het : e.1 ≠ tmp := h.ne_tmp (by simp)
    have hed : e.1 ≠ ep := fun he => hep' (by simp [he])
    obtain ⟨fuel, rfl⟩ := exists_round hfuel
    have hpr : m.val.priority = cellRank e := by rw [hmv, cellRank]
    have hx : x.priority = cellRank (tmp, x) := rfl
    unfold insertPeer
    simp only [addPeer, map_cons, head?_cons, hm, h.node, bind_eq_bind,
      bind_some, hpr, hx, gt_iff_lt]
    split_ifs with h₁ h₂ h₃
    · -- replace `e`
      refine h.setTail (Heap.free (update (update s.heap ep (some { n with peer := some tmp }))
        tmp (some ⟨x, none, m.peer⟩)) e.1) [e] hep ?_ fun a ha => ?_
      · simp [Store.setPeer, Heap.setPeer, hn, Ne.symm hne, hed, hm, h.node, Store.free]
      · rcases eq_or_ne a ep with rfl | h₃
        · simp [Heap.free, Ne.symm hed, hne, hn]
        rcases eq_or_ne a tmp with rfl | h₄
        · simp [Heap.free, Ne.symm het, h₃, hmp]
        · have hae : a ≠ e.1 := by simpa using ha
          simp [Heap.free, hae, h₃, h₄]
    · rfl
    · -- slip in before `e`
      refine h.setTail (update (update s.heap ep (some { n with peer := some tmp }))
        tmp (some ⟨x, none, some e.1⟩)) [] hep ?_ fun a _ => ?_
      · simp [Store.setPeer, Heap.setPeer, hn, Ne.symm hne, h.node]
      · rcases eq_or_ne a ep with rfl | h₄
        · simp [hne, hn]
        rcases eq_or_ne a tmp with rfl | h₅
        · simp [h₄]
        · simp [h₄, h₅]
    · have hlast : (c.1 :: (pre ++ [e]).map fst).getLast? = some e.1 := by
        rw [map_append, ← cons_append]
        exact getLast?_concat
      have hr : Ready s (A ++ (c, (pre ++ [e]) ++ post) :: B) tmp x := by simpa using h
      have hi := ih hr hlast (Nat.lt_of_succ_lt_succ hfuel)
      simp only [append_assoc, singleton_append] at hi
      rw [hmp, Option.map_map]
      exact hi

theorem addPeer_row (h : Ready s (A ++ (e, l) :: B) tmp x) (hfuel : l.length + 1 < fuel) :
    Outcome s tmp (addPeer replace tmp (heads A).getLast? fuel s none (some e.1))
      ((insertRow cellRank replace (tmp, x) (e, l)).map fun r => A ++ r :: B) := by
  obtain ⟨m, hm, hmv, hmn, hmp⟩ := h.linked.node_head
  have het : e.1 ≠ tmp := h.ne_tmp (by simp)
  obtain ⟨fuel, rfl⟩ := exists_round hfuel
  have hel : ∀ a, (heads A).getLast? = some a → (s.heap a).isSome :=
    fun a ha => (h.getLast_heads ha).1
  have helt : (heads A).getLast? ≠ some tmp := fun ha => (h.getLast_heads ha).2.1 rfl
  have hele : (heads A).getLast? ≠ some e.1 := fun ha => (h.getLast_heads ha).2.2 (by simp)
  have hpr : m.val.priority = cellRank e := by rw [hmv, cellRank]
  have hx : x.priority = cellRank (tmp, x) := rfl
  unfold insertRow
  simp only [addPeer, hm, h.node, bind_eq_bind, bind_some, hpr, hx, gt_iff_lt]
  split_ifs with h₁ h₂ h₃
  · -- replace `e`
    apply h.replaceHead
    simp [setSucc_eq hel, Store.setNext, Heap.setNext, Store.setPeer, Heap.setPeer, Store.free,
      Heap.redirect_of_ne helt, Heap.redirect_of_ne hele, hm, h.node, het, hmn, hmp]
  · rfl
  · -- slip in before `e`
    cases hlast : (heads A).getLast? with
    | some el =>
      rw [hlast] at hel helt hele
      have hset : s.setNext el (some tmp) =
          some ⟨s.heap.redirect (some el) (some tmp), s.root⟩ := setSucc_eq hel
      apply h.slipHead hm (z := none)
      simp only [hset, bind_some]
      simp [Store.setNext, Heap.setNext, Store.setPeer, Heap.setPeer, hlast,
        Heap.redirect_of_ne helt, Heap.redirect_of_ne hele, hm, h.node, het, Ne.symm het, hmn]
      rw [update_comm (Ne.symm het), update_idem]
      exact update_comm het _ _ _
    | none =>
      have hroot : s.root = some e.1 := by
        have hnext := h.linked.next.start_eq
        rw [heads_append, getLast?_eq_none_iff.mp hlast] at hnext
        simpa using hnext
      have hre : s.heap.redirect none (some tmp) = s.heap :=
        funext fun a => Heap.redirect_of_ne (by simp)
      apply h.slipHead hm (z := m.next)
      simp [hroot, Store.setNext, Heap.setNext, Store.setPeer, Heap.setPeer, hlast, hre, hm,
        h.node, hmn]
      rw [update_of_ne het, hm, ← hmn]
  · have hr : Ready s (A ++ (e, [] ++ l) :: B) tmp x := h
    have hi : Outcome s tmp
        (addPeer replace tmp (heads A).getLast? fuel s (some e.1) (l.map fst).head?) _ :=
      addPeer_peers hr rfl (Nat.lt_of_succ_lt_succ hfuel)
    rw [hmp, Option.map_map]
    exact hi

theorem addNode_table {cmp : Cell → Cell → Ordering} {extension : CStr} (h : Ready s (A ++ B) tmp x)
    (hcmp : ∀ d, cmp d (tmp, x) = addCompare d.2 extension x)
    (hfuel : (entries B).length + 1 < fuel) :
    Outcome s tmp (addNode replace extension tmp fuel s (heads A).getLast? (heads B).head?)
      ((Table.insert cmp cellRank replace (tmp, x) B).map (A ++ ·)) := by
  have hel : ∀ a, (heads A).getLast? = some a → (s.heap a).isSome :=
    fun a ha => (h.getLast_heads ha).1
  induction B generalizing A fuel with
  | nil =>
    obtain ⟨fuel, rfl⟩ := exists_round hfuel
    apply h.newRow
    have hself : update s.heap tmp (some ⟨x, none, none⟩) = s.heap := by
      rw [← h.node, update_eq_self]
    simp [addNode, setSucc_eq hel, hself]
  | cons r B ih =>
    obtain ⟨e, l⟩ := r
    obtain ⟨m, hm, hmv, hmn, -⟩ := h.linked.node_head
    obtain ⟨fuel, rfl⟩ := exists_round hfuel
    simp only [Table.entries_cons, length_append, length_cons] at hfuel
    unfold Table.insert
    simp only [addNode, heads_cons, head?_cons, hm, h.node, bind_eq_bind, bind_some, hmv, ← hcmp e]
    cases hc : cmp e (tmp, x) with
    | eq =>
      have hi : Outcome s tmp
          (addPeer replace tmp (heads A).getLast? fuel s none (some e.1)) _ :=
        addPeer_row h (by omega)
      simp only [Option.map_map]
      exact hi
    | gt =>
      apply h.newRow
      have hset : ∀ a, (heads A).getLast? = some a →
          (update s.heap tmp (some ⟨x, some e.1, none⟩) a).isSome := fun a ha => by
        rw [update_of_ne (h.getLast_heads ha).2.1]
        exact hel a ha
      simp only [Store.setNext, Heap.setNext_eq h.node, map_some, bind_some]
      rw [setSucc_eq hset]
      rfl
    | lt =>
      have hr : Ready s ((A ++ [(e, l)]) ++ B) tmp x := by simpa using h
      have hlast : (heads (A ++ [(e, l)])).getLast? = some e.1 := by
        rw [heads_append]
        exact getLast?_concat
      have hf : (entries B).length + 1 < fuel := by omega
      have hi := ih hr hf fun a ha => (hr.getLast_heads ha).1
      rw [hlast] at hi
      rw [hmn]
      simpa [comp_def] using hi

end Adding

variable {s : Store} {t : List (Cell × List Cell)} {fuel : ℕ} {h : Heap Exten} {p : Option ℕ}
  {l : List Exten} {cs root root' : List Chain} {a : ℕ} {x : Exten}

theorem readPeers_seg {l : List Cell} (hs : Seg h.peerOf p (l.map fst) none)
    (hv : ∀ d ∈ l, h.valOf d.1 = some d.2) (hfuel : l.length < fuel) :
    readPeers h fuel p = some (l.map snd) := by
  induction l generalizing p fuel with
  | nil =>
    obtain ⟨fuel, rfl⟩ := exists_round hfuel
    obtain rfl : p = none := hs
    rfl
  | cons d l ih =>
    obtain ⟨fuel, rfl⟩ := exists_round hfuel
    obtain ⟨rfl, hs⟩ := hs
    obtain ⟨n, hn, hnv⟩ := map_eq_some_iff.mp (hv d mem_cons_self)
    rw [Heap.peerOf_eq hn] at hs
    simp [readPeers, hn, hnv,
      ih hs (fun d hd => hv d (mem_cons_of_mem _ hd)) (Nat.lt_of_succ_lt_succ hfuel)]

def chains (t : List (Cell × List Cell)) : List Chain :=
  t.map fun r => ⟨r.1.2, r.2.map snd⟩

theorem flatMap_chains : (chains t).flatMap Chain.entries = (entries t).map snd := by
  simp [chains, entries, flatMap_map, map_flatMap, Chain.entries]

theorem readRoot_linked (hL : Linked h p t) (hfuel : (entries t).length < fuel) :
    readRoot h fuel p = some (chains t) := by
  induction t generalizing p fuel with
  | nil =>
    obtain ⟨fuel, rfl⟩ := exists_round hfuel
    obtain rfl : p = none := hL.next
    rfl
  | cons r t ih =>
    obtain ⟨e, l⟩ := r
    obtain ⟨fuel, rfl⟩ := exists_round hfuel
    obtain ⟨⟨rfl, hn⟩, hp, hv⟩ := hL
    obtain ⟨n, hne, hnv⟩ := map_eq_some_iff.mp (hv e (by simp))
    simp only [Table.entries_cons, length_append, length_cons] at hfuel
    have hpeers := hp (e, l) mem_cons_self
    rw [Heap.peerOf_eq hne] at hpeers
    have hl : readPeers h fuel n.peer = some (l.map snd) :=
      readPeers_seg hpeers (fun d hd => hv d (by simp [hd])) (by omega)
    have ht : readRoot h fuel (h.nextOf e.1) = some (chains t) :=
      ih ⟨hn, fun r hr => hp r (by simp [hr]), fun d hd => hv d (by simp [hd])⟩ (by omega)
    rw [Heap.nextOf_eq hne] at ht
    simp [readRoot, hne, hl, ht, hnv, chains]

variable {h' : Heap Exten} {f b : ℕ}

theorem readPeers_agree (hr : readPeers h fuel p = some l) (hf : fuel ≤ f)
    (hn : ∀ b n, h b = some n → n.val ∈ l → h' b = some n) : readPeers h' f p = some l := by
  induction fuel generalizing f p l with
  | zero => cases hr
  | succ fuel ih =>
    obtain ⟨f, rfl⟩ := exists_round hf
    cases p with
    | none => exact hr
    | some b =>
      obtain ⟨n, hb, hr⟩ := bind_eq_some_iff.mp hr
      obtain ⟨l', hl', hr⟩ := bind_eq_some_iff.mp hr
      obtain rfl := some.inj hr
      have ih := ih hl' (Nat.le_of_succ_le_succ hf) fun b n hb hm =>
        hn b n hb (mem_cons_of_mem _ hm)
      simp [readPeers, hn b n hb mem_cons_self, ih]

/-- What is read depends on the nodes with the entries that are read. -/
theorem readRoot_agree (hr : readRoot h fuel p = some cs) (hf : fuel ≤ f)
    (hn : ∀ b n, h b = some n → n.val ∈ cs.flatMap Chain.entries → h' b = some n) :
    readRoot h' f p = some cs := by
  induction fuel generalizing f p cs with
  | zero => cases hr
  | succ fuel ih =>
    obtain ⟨f, rfl⟩ := exists_round hf
    cases p with
    | none => exact hr
    | some b =>
      obtain ⟨n, hb, hr⟩ := bind_eq_some_iff.mp hr
      obtain ⟨l, hl, hr⟩ := bind_eq_some_iff.mp hr
      obtain ⟨cs', hcs, hr⟩ := bind_eq_some_iff.mp hr
      obtain rfl := some.inj hr
      rw [flatMap_cons] at hn
      have hf := Nat.le_of_succ_le_succ hf
      have hpeers := readPeers_agree hl hf fun b n hb hm =>
        hn b n hb (mem_append_left _ (mem_cons_of_mem _ hm))
      have ih := ih hcs hf fun b n hb hm => hn b n hb (mem_append_right _ hm)
      simp [readRoot, hn b n hb (mem_append_left _ mem_cons_self), hpeers, ih]

theorem readRoot_mono (hr : readRoot h fuel p = some cs) (hf : fuel ≤ f) :
    readRoot h f p = some cs :=
  readRoot_agree hr hf fun _ _ hn _ => hn

theorem holds_chains (hL : Linked s.heap s.root t) : s.Holds (chains t) :=
  ⟨_, readRoot_linked hL (Nat.lt_succ_self _)⟩

theorem Store.Holds.unique (h : s.Holds root) (h' : s.Holds root') : root = root' := by
  obtain ⟨f, hf⟩ := h
  obtain ⟨f', hf'⟩ := h'
  exact some.inj ((readRoot_mono hf (Nat.le_max_left f f')).symm.trans
    (readRoot_mono hf' (Nat.le_max_right f f')))

variable {n : Node Exten}

theorem node_of_free (hn : h.free a b = some n) : h b = some n := by
  rcases eq_or_ne b a with rfl | hb
  · simp [Heap.free] at hn
  · rwa [Heap.free, update_of_ne hb] at hn

theorem node_free (ha : h.valOf a = some x) (hn : h b = some n) (hx : x ≠ n.val) :
    h.free a b = some n := by
  rcases eq_or_ne b a with rfl | hb
  · rw [Heap.valOf, hn] at ha
    exact absurd (some.inj ha).symm hx
  · rw [Heap.free, update_of_ne hb, hn]

theorem readRoot_of_free (hr : readRoot (h.free a) fuel p = some cs) :
    readRoot h fuel p = some cs :=
  readRoot_agree hr (Nat.le_refl _) fun _ _ hn _ => node_of_free hn

theorem readRoot_free (ha : h.valOf a = some x) (hr : readRoot h fuel p = some cs)
    (hx : x ∉ cs.flatMap Chain.entries) : readRoot (h.free a) fuel p = some cs :=
  readRoot_agree hr (Nat.le_refl _) fun _ _ hn hm =>
    node_free ha hn (ne_of_mem_of_not_mem hm hx).symm

end CallWeaver.Dialplan
