import CallWeaver.Icd.List

/-! # The shape of the call distributor's lists

The nodes are divided between a linked list, where all are in use and hold a sequence of elements,
and the free list. Adding an element links the first free node in behind some node of the list, and
removing one frees its node.
-/

namespace CallWeaver.Icd

open Function List Option

variable {α : Type} {that : IcdList α} {nodes free A B l : List ℕ} {seq S T : List α}

def IcdList.link (that : IcdList α) (a : ℕ) : Option ℕ := (that.cache a).next

structure Shape (that : IcdList α) (nodes free : List ℕ) (seq : List α) : Prop where
  list : Seg that.link that.head nodes none
  freeList : Seg that.link that.firstFree free none
  tail : that.tail = nodes.getLast?
  count : that.count = nodes.length
  payload : nodes.map (fun a => (that.cache a).payload) = seq.map some
  used : ∀ a ∈ nodes, (that.cache a).state = .used
  unused : ∀ a ∈ free, (that.cache a).state ≠ .used
  parts : (nodes ++ free).Perm (range that.size)

section

variable (h : Shape that nodes free seq)

include h

theorem Shape.nodup : (nodes ++ free).Nodup :=
  h.parts.nodup_iff.mpr nodup_range

theorem Shape.length : nodes.length = seq.length := by
  simpa using congrArg List.length h.payload

theorem Shape.length_add : seq.length + free.length = that.size := by
  have hlen := h.parts.length_eq
  rw [length_append, length_range] at hlen
  rw [← h.length, hlen]

end

theorem initIcdList_shape {size : ℕ} (hs : 1 ≤ size) :
    Shape (initIcdList size : IcdList α) [] (range size).reverse [] := by
  have hloop : ∀ k, ∃ list : IcdList α, (range (k + 1)).foldl
      (fun (list : IcdList α) x =>
        let list := { list with cache := update list.cache x ⟨none, none, .allocated⟩ }
        if 0 < x then freeNode list x else list)
      ⟨none, none, some 0, 0, size, fun _ => ⟨none, none, .allocated⟩⟩ = list ∧
      Seg list.link list.firstFree (range (k + 1)).reverse none ∧
        (∀ x, (list.cache x).state ≠ .used) ∧
      list.head = none ∧ list.tail = none ∧ list.count = 0 ∧ list.size = size := by
    intro k
    induction k with
    | zero =>
      refine ⟨_, rfl, ?_, fun x => ?_, rfl, rfl, rfl, rfl⟩
      · simp [range_succ, IcdList.link]
      · simp [range_succ]
    | succ k ih =>
      obtain ⟨list, hlist, hseg, hstate, hhead, htail, hcount, hsize⟩ := ih
      rw [range_succ, foldl_append, hlist]
      refine ⟨_, rfl, ?_, fun x => ?_, hhead, htail, hcount, hsize⟩
      · rw [reverse_append, reverse_singleton, singleton_append]
        refine ⟨rfl, ?_⟩
        have hk :
            (freeNode { list with cache := update list.cache (k + 1) ⟨none, none, .allocated⟩ }
            (k + 1)).link (k + 1) = list.firstFree := by simp [freeNode, IcdList.link]
        simp only [foldl_cons, foldl_nil, Nat.zero_lt_succ, if_true]
        rw [hk]
        refine hseg.congr fun x hx => ?_
        have hne : x ≠ k + 1 := by
          rw [mem_reverse, mem_range] at hx
          omega
        simp [freeNode, IcdList.link, update_of_ne hne]
      · simp only [foldl_cons, foldl_nil, Nat.zero_lt_succ, if_true, freeNode, update_apply]
        split_ifs
        · simp
        · exact hstate x
  obtain ⟨k, rfl⟩ := exists_round hs
  obtain ⟨list, hlist, hseg, hstate, hhead, htail, hcount, hsize⟩ := hloop k
  rw [initIcdList, hlist]
  refine ⟨hhead, hseg, htail, hcount, rfl, by simp, fun a _ => hstate a, ?_⟩
  rw [hsize, nil_append]
  exact reverse_perm _

section Walk

variable {b fuel : ℕ}

theorem exists_payload {payload : ℕ → Option α} (hT : (b :: B).map payload = T.map some) :
    ∃ x T', T = x :: T' ∧ payload b = some x ∧ B.map payload = T'.map some := by
  cases T with
  | nil => cases hT
  | cons x T => exact ⟨x, T, rfl, cons.inj hT⟩

theorem Shape.hasMore (h : Shape that (A ++ B) free seq) :
    hasMore that.cache ⟨A.getLast?, B.head?⟩ = (B.head?.isSome, ⟨A.getLast?, B.head?⟩) := by
  cases B with
  | nil => rfl
  | cons b B =>
    have hb : (that.cache b).state = .used := h.used b (by simp)
    simp only [Icd.hasMore, head?_cons]
    split
    · simp_all
    · simp_all

theorem Shape.iteratorNext (h : Shape that (A ++ b :: B) free seq) :
    iteratorNext that.cache ⟨A.getLast?, some b⟩ =
      some (some b, ⟨(A ++ [b]).getLast?, B.head?⟩) := by
  have hb : (that.cache b).state = .used := h.used b (by simp)
  have hnext : (that.cache b).next = B.head? := by
    have hlink := h.list.link_eq
    rwa [or_none] at hlink
  simp only [Icd.iteratorNext, getLast?_concat]
  cases A.getLast? <;> simp [hb, hnext]

def FirstAt (p : α → Bool) (B B₁ : List ℕ) (T T₁ : List α) : Prop :=
  ∃ B₂ T₂, B = B₁ ++ B₂ ∧ T = T₁ ++ T₂ ∧ B₁.length = T₁.length ∧ (∀ x ∈ T₁, p x = false) ∧
    ∀ x ∈ T₂.head?, p x = true

variable (h : Shape that (A ++ B) free seq)
  (hT : B.map (fun a => (that.cache a).payload) = T.map some)

include h hT

theorem Shape.insertOrderedLoop (cmpFn : Comparison α) (e : α) (hfuel : B.length < fuel) :
    ∃ B₁ T₁, FirstAt (fun x => cmpFn.cmp x e > 0) B B₁ T T₁ ∧
      insertOrderedLoop that cmpFn e fuel ⟨A.getLast?, B.head?⟩ A.getLast? =
        some (A ++ B₁).getLast? := by
  induction B generalizing A T fuel with
  | nil =>
    obtain rfl : T = [] := by simpa using hT.symm
    refine ⟨[], [], ⟨[], [], rfl, rfl, rfl, by simp, by simp⟩, ?_⟩
    obtain ⟨fuel, rfl⟩ := exists_round hfuel
    rw [Icd.insertOrderedLoop, h.hasMore, h.tail]
    rfl
  | cons b B ih =>
    obtain ⟨x, T, rfl, hx, hT⟩ := exists_payload hT
    obtain ⟨fuel, rfl⟩ := exists_round hfuel
    rw [Icd.insertOrderedLoop, h.hasMore]
    simp only [head?_cons, isSome_some, h.iteratorNext, bind_eq_bind, bind_some, hx]
    by_cases hgt : cmpFn.cmp x e > 0
    · refine ⟨[], [], ⟨b :: B, x :: T, rfl, rfl, rfl, by simp, by simpa using hgt⟩, ?_⟩
      rw [if_pos hgt, append_nil]
    · have h' : Shape that ((A ++ [b]) ++ B) free seq := by simpa using h
      obtain ⟨B₁, T₁, ⟨B₂, T₂, rfl, rfl, hlen, hT₁, hT₂⟩, hloop⟩ :=
        ih h' hT (Nat.lt_of_succ_lt_succ hfuel)
      refine ⟨b :: B₁, x :: T₁, ⟨B₂, T₂, rfl, rfl, ?_, ?_, hT₂⟩, ?_⟩
      · rw [length_cons, length_cons, hlen]
      · exact forall_mem_cons.mpr ⟨decide_eq_false hgt, hT₁⟩
      · rw [if_neg hgt, append_cons A b B₁, ← hloop, getLast?_concat]

theorem Shape.dropNodeLoop (p : α → Bool) (hfuel : B.length < fuel) :
    ((∀ x ∈ T, p x = false) ∧
      dropNodeLoop that p fuel ⟨A.getLast?, B.head?⟩ A.getLast? = some (that, .enotfound)) ∨
      ∃ B₁ b B₂ T₁ x T₂, B = B₁ ++ b :: B₂ ∧ T = T₁ ++ x :: T₂ ∧ B₁.length = T₁.length ∧
        (∀ x ∈ T₁, p x = false) ∧ p x = true ∧
        dropNodeLoop that p fuel ⟨A.getLast?, B.head?⟩ A.getLast? =
          some (dropFound that b (A ++ B₁).getLast?, .success) := by
  induction B generalizing A T fuel with
  | nil =>
    obtain rfl : T = [] := by simpa using hT.symm
    refine .inl ⟨by simp, ?_⟩
    obtain ⟨fuel, rfl⟩ := exists_round hfuel
    rw [Icd.dropNodeLoop, h.hasMore]
    rfl
  | cons b B ih =>
    obtain ⟨x, T, rfl, hx, hT⟩ := exists_payload hT
    obtain ⟨fuel, rfl⟩ := exists_round hfuel
    rw [Icd.dropNodeLoop, h.hasMore]
    simp only [head?_cons, isSome_some, h.iteratorNext, bind_eq_bind, bind_some, hx]
    by_cases hp : p x = true
    · refine .inr ⟨[], b, B, [], x, T, rfl, rfl, rfl, by simp, hp, ?_⟩
      rw [if_pos hp, append_nil]
    · have h' : Shape that ((A ++ [b]) ++ B) free seq := by simpa using h
      have hx' : p x = false := Bool.eq_false_iff.mpr hp
      rw [if_neg hp]
      have hlast : (A ++ [b]).getLast? = some b := getLast?_concat
      rcases ih h' hT (Nat.lt_of_succ_lt_succ hfuel) with
        ⟨hno, hloop⟩ | ⟨B₁, c, B₂, T₁, y, T₂, rfl, rfl, hlen, hT₁, hy, hloop⟩
      · refine .inl ⟨forall_mem_cons.mpr ⟨hx', hno⟩, ?_⟩
        rw [← hloop, hlast]
      · refine .inr ⟨b :: B₁, c, B₂, x :: T₁, y, T₂, rfl, rfl, ?_, ?_, hy, ?_⟩
        · rw [length_cons, length_cons, hlen]
        · exact forall_mem_cons.mpr ⟨hx', hT₁⟩
        · rw [append_cons A b B₁, ← hloop, hlast]

end Walk

section Links

variable {that' : IcdList α} {n b a : ℕ} {e : α} {N : IcdListNode α} {q r : Option ℕ}

theorem Shape.payload_of_length (h : Shape that (A ++ B) free (S ++ T))
    (hlen : A.length = S.length) :
    A.map (fun a => (that.cache a).payload) = S.map some ∧
      B.map (fun a => (that.cache a).payload) = T.map some := by
  have hp := h.payload
  rw [map_append, map_append] at hp
  exact append_inj hp (by simpa using hlen)

theorem apart_of_nodup (h : ((A ++ n :: B) ++ free).Nodup) :
    (∀ a ∈ A ++ (B ++ free), a ≠ n) ∧ A.Nodup ∧ ∀ a ∈ B ++ free, a ∉ A := by
  rw [append_assoc, cons_append, perm_middle.nodup_iff, nodup_cons, nodup_append] at h
  obtain ⟨hn, hA, -, hdisj⟩ := h
  exact ⟨fun a ha he => hn (he ▸ ha), hA, fun a ha hmem => hdisj a hmem a ha rfl⟩

theorem perm_moved (A : List ℕ) (n : ℕ) (B free : List ℕ) :
    ((A ++ B) ++ n :: free).Perm ((A ++ n :: B) ++ free) := by
  rw [append_assoc A (n :: B), cons_append]
  exact perm_middle.trans (append_assoc A B free ▸ perm_middle.symm)

/-- The node `n` is written, and the last one of `A` gets another successor. -/
def Rewires (that that' : IcdList α) (A : List ℕ) (n : ℕ) (N : IcdListNode α) (q : Option ℕ) :
    Prop :=
  ∀ x, that'.cache x = if x = n then N
    else if A.getLast? = some x then { that.cache x with next := q } else that.cache x

section

variable (hw : Rewires that that' A n N q)

include hw

theorem Rewires.link_eq (ha : a ≠ n) :
    that'.link a = if A.getLast? = some a then q else that.link a := by
  rw [IcdList.link, hw, if_neg ha]
  split_ifs <;> rfl

theorem Rewires.same (ha : a ≠ n) :
    (that'.cache a).payload = (that.cache a).payload ∧
      (that'.cache a).state = (that.cache a).state := by
  rw [hw, if_neg ha]
  split_ifs <;> exact ⟨rfl, rfl⟩

theorem Rewires.seg (hl : ∀ a ∈ l, a ≠ n ∧ a ∉ A) (hseg : Seg that.link r l none) :
    Seg that'.link r l none := by
  refine hseg.congr fun a ha => ?_
  rw [hw.link_eq (hl a ha).1, if_neg fun he => (hl a ha).2 (mem_of_getLast? he)]

theorem Rewires.map_payload (hl : ∀ a ∈ l, a ≠ n) :
    l.map (fun a => (that'.cache a).payload) = l.map fun a => (that.cache a).payload :=
  map_congr_left fun a ha => (hw.same (hl a ha)).1

end

theorem Shape.insert (h : Shape that (A ++ B) (n :: free) (S ++ T)) (hlen : A.length = S.length)
    (hw : Rewires that that' A n ⟨B.head?, some e, .used⟩ (some n))
    (hhead : that'.head = if A = [] then some n else that.head)
    (hfree : that'.firstFree = that.link n)
    (htail : that'.tail = if B = [] then some n else that.tail)
    (hcount : that'.count = that.count + 1) (hsize : that'.size = that.size) :
    Shape that' (A ++ n :: B) free (S ++ e :: T) := by
  obtain ⟨hne, hA, hdisj⟩ := apart_of_nodup ((perm_moved A n B free).nodup_iff.mp h.nodup)
  obtain ⟨hpA, hpB⟩ := h.payload_of_length hlen
  have hn : that'.cache n = ⟨B.head?, some e, .used⟩ := by rw [hw, if_pos rfl]
  constructor
  · apply h.list.insert hA hhead
    · rw [IcdList.link, hn, or_none]
    · exact fun a ha => hw.link_eq (hne a (by simp at ha ⊢; tauto))
    · exact fun a ha => hdisj a (mem_append_left _ ha)
  · rw [hfree]
    exact hw.seg (fun a ha => ⟨hne a (by simp [ha]), hdisj a (by simp [ha])⟩) h.freeList.2
  · rw [htail, h.tail]
    cases B with
    | nil => simp
    | cons b B => simp [getLast?_append, getLast?_cons_cons]
  · rw [hcount, h.count]
    simp only [length_append, length_cons]
    omega
  · rw [map_append, map_cons, hw.map_payload fun a ha => hne a (by simp [ha]),
      hw.map_payload fun a ha => hne a (by simp [ha]), hpA, hpB, hn, map_append, map_cons]
  · intro a ha
    by_cases han : a = n
    · rw [han, hn]
    · rw [(hw.same han).2]
      exact h.used a (by simpa [han] using ha)
  · intro a ha
    rw [(hw.same (hne a (by simp [ha]))).2]
    exact h.unused a (mem_cons_of_mem _ ha)
  · rw [hsize]
    exact (perm_moved A n B free).symm.trans h.parts

theorem Shape.remove (h : Shape that (A ++ b :: B) free (S ++ e :: T)) (hlen : A.length = S.length)
    (hw : Rewires that that' A b { that.cache b with state := .free, next := that.firstFree }
      (that.link b)) (hhead : that'.head = if A = [] then that.link b else that.head)
    (hfree : that'.firstFree = some b)
    (htail : that'.tail = if B = [] then A.getLast? else that.tail)
    (hcount : that'.count = that.count - 1) (hsize : that'.size = that.size) :
    Shape that' (A ++ B) (b :: free) (S ++ T) := by
  obtain ⟨hne, hA, hdisj⟩ := apart_of_nodup h.nodup
  obtain ⟨hpA, hpB⟩ := h.payload_of_length hlen
  have hb : that'.cache b = { that.cache b with state := .free, next := that.firstFree } := by
    rw [hw, if_pos rfl]
  have hAB : ∀ a ∈ A ++ B, a ≠ b := fun a ha => hne a (by simp at ha ⊢; tauto)
  constructor
  · exact h.list.unlink hA hhead (fun a ha => hw.link_eq (hAB a ha))
      fun a ha => hdisj a (mem_append_left _ ha)
  · refine ⟨hfree, ?_⟩
    rw [IcdList.link, hb]
    exact hw.seg (fun a ha => ⟨hne a (by simp [ha]), hdisj a (by simp [ha])⟩) h.freeList
  · rw [htail, h.tail]
    cases B with
    | nil => simp
    | cons c B => simp [getLast?_append, getLast?_cons_cons]
  · rw [hcount, h.count]
    simp only [length_append, length_cons]
    omega
  · rw [hw.map_payload hAB, map_append, map_append, hpA, (cons.inj hpB).2]
  · intro a ha
    rw [(hw.same (hAB a ha)).2]
    exact h.used a (by simp only [mem_append, mem_cons] at ha ⊢; tauto)
  · intro a ha
    by_cases hab : a = b
    · simp [hab, hb]
    · rw [(hw.same hab).2]
      exact h.unused a (by simpa [hab] using ha)
  · rw [hsize]
    exact (perm_moved A b B free).trans h.parts

end Links

section Calls

variable {n b : ℕ} {e : α} {ins : InsertFn α} {memory : Bool} {prev : Option ℕ}

theorem Shape.getLast?_eq_iff (h : Shape that (A ++ B) free seq) :
    (A ++ B).getLast? = A.getLast? ↔ B = [] := by
  constructor
  · intro heq
    obtain ⟨hnd, -, -⟩ := nodup_append.mp h.nodup
    obtain ⟨-, -, hAB⟩ := nodup_append.mp hnd
    rcases B.eq_nil_or_concat' with hB | ⟨B, b, rfl⟩
    · exact hB
    · rw [← append_assoc, getLast?_concat] at heq
      exact absurd rfl (hAB b (mem_of_getLast? heq.symm) b (by simp))
  · rintro rfl
    rw [append_nil]

theorem Shape.push_full (h : Shape that nodes [] seq) (hins : insFn that ins e memory = some prev) :
    icdListPush that ins e memory = some (that, .eresource) := by
  have hfree : that.firstFree = none := h.freeList
  simp [icdListPush, hins, getNode, hfree]

theorem icdListPush_eq (hins : insFn that ins e memory = some prev)
    (hfirst : that.firstFree = some n) (hprev : prev ≠ some n) :
    ∃ cache, icdListPush that ins e memory = some (⟨if prev = none then some n else that.head,
        if that.tail = prev then some n else that.tail, that.link n, that.count + 1, that.size,
        cache⟩, .success) ∧
      ∀ x, cache x = if x = n then ⟨prev.elim that.head that.link, some e, .used⟩
        else if prev = some x then { that.cache x with next := some n } else that.cache x := by
  cases prev with
  | none =>
    refine ⟨update that.cache n ⟨that.head, some e, .used⟩, ?_, fun x => ?_⟩
    · simp only [icdListPush, hins, getNode, hfirst, bind_eq_bind, bind_some, update_self,
        update_idem]
      split_ifs <;> rfl
    · rw [update_apply]
      simp
  | some p =>
    have hpn : p ≠ n := fun he => hprev (by rw [he])
    refine ⟨update (update that.cache n ⟨that.link p, some e, .used⟩) p
      { that.cache p with next := some n }, ?_, fun x => ?_⟩
    · simp only [icdListPush, hins, getNode, hfirst, bind_eq_bind, bind_some, update_self,
        update_idem, update_of_ne hpn, reduceCtorEq, if_false]
      split_ifs <;> rfl
    · simp only [update_apply, some_inj, eq_comm]
      split_ifs <;> simp_all

theorem Shape.push (h : Shape that (A ++ B) (n :: free) (S ++ T)) (hlen : A.length = S.length)
    (hins : insFn that ins e memory = some A.getLast?) :
    ∃ that', icdListPush that ins e memory = some (that', .success) ∧ that'.size = that.size ∧
      Shape that' (A ++ n :: B) free (S ++ e :: T) := by
  obtain ⟨hne, -, -⟩ := apart_of_nodup ((perm_moved A n B free).nodup_iff.mp h.nodup)
  have hprev : A.getLast? ≠ some n := fun he => hne n (by simp [mem_of_getLast? he]) rfl
  have hnext : A.getLast?.elim that.head that.link = B.head? := by
    rcases A.eq_nil_or_concat' with rfl | ⟨A, a, rfl⟩
    · simpa using h.list.start_eq
    · have hlist := h.list
      rw [append_assoc, singleton_append] at hlist
      simpa using hlist.link_eq
  obtain ⟨cache, hpush, hcache⟩ := icdListPush_eq hins h.freeList.1 hprev
  rw [hnext] at hcache
  refine ⟨_, hpush, rfl, h.insert hlen hcache ?_ rfl ?_ rfl rfl⟩
  · simp
  · simp only [h.tail, h.getLast?_eq_iff]

theorem dropFound_eq (that : IcdList α) (b : ℕ) (prev : Option ℕ) :
    ∃ cache, dropFound that b prev =
        ⟨if that.head = some b then that.link b else that.head,
          if that.tail = some b then prev else that.tail,
          some b, that.count - 1, that.size, cache⟩ ∧
      ∀ x, cache x = if x = b then { that.cache b with state := .free, next := that.firstFree }
        else if prev = some x then { that.cache x with next := that.link b } else that.cache x := by
  cases prev with
  | none =>
    refine ⟨update that.cache b { that.cache b with state := .free, next := that.firstFree }, ?_,
      fun x => ?_⟩
    · simp only [dropFound, freeNode, IcdList.link]
      split_ifs <;> rfl
    · rw [update_apply]
      simp only [reduceCtorEq, if_false]
  | some p =>
    refine ⟨update (update that.cache p { that.cache p with next := that.link b }) b
      { that.cache b with state := .free, next := that.firstFree }, ?_, fun x => ?_⟩
    · have hb : ({ update that.cache p { that.cache p with next := that.link b } b with
          state := .free, next := that.firstFree } : IcdListNode α) =
          { that.cache b with state := .free, next := that.firstFree } := by
        rw [update_apply]
        split_ifs with hp
        · rw [hp]
        · rfl
      rw [← hb]
      simp only [dropFound, freeNode, IcdList.link]
      split_ifs <;> rfl
    · simp only [update_apply, some_inj, eq_comm]
      split_ifs with hb hp
      · rfl
      · rw [hp]
      · rfl

theorem Shape.dropFound (h : Shape that (A ++ b :: B) free (S ++ e :: T))
    (hlen : A.length = S.length) : (dropFound that b A.getLast?).size = that.size ∧
      Shape (dropFound that b A.getLast?) (A ++ B) (b :: free) (S ++ T) := by
  have hhead : that.head = some b ↔ A = [] := by
    rw [h.list.start_eq]
    cases A with
    | nil => simp
    | cons a A => simpa using (apart_of_nodup h.nodup).1 a (by simp)
  have htail : that.tail = some b ↔ B = [] := by
    have h' : Shape that ((A ++ [b]) ++ B) free (S ++ e :: T) := by simpa using h
    rw [h'.tail, ← h'.getLast?_eq_iff, getLast?_concat]
  obtain ⟨cache, heq, hcache⟩ := dropFound_eq that b A.getLast?
  rw [heq]
  refine ⟨rfl, h.remove hlen hcache ?_ rfl ?_ rfl rfl⟩
  · simp only [hhead]
  · simp only [htail]

theorem Shape.pop (h : Shape that (b :: B) free (e :: T)) :
    (icdListPop that).2 = some e ∧ (icdListPop that).1.size = that.size ∧
      Shape (icdListPop that).1 B (b :: free) T := by
  have hhead : that.head = some b := h.list.1
  have hpayload : (that.cache b).payload = some e := (cons.inj h.payload).1
  have hpop :
      icdListPop that = (⟨that.link b, if B = [] then none else that.tail, some b, that.count - 1,
      that.size, update that.cache b { that.cache b with state := .free, next := that.firstFree }⟩,
      some e) := by
    have hnil : (that.cache b).next = none ↔ B = [] := by
      rw [← IcdList.link, h.list.2.start_eq, or_none, head?_eq_none_iff]
    simp only [icdListPop, hhead, hnil, freeNode]
    split_ifs <;> simp only [hpayload, IcdList.link]
  rw [hpop]
  refine ⟨rfl, rfl, Shape.remove (A := []) (S := []) h rfl (fun x => ?_) rfl rfl rfl rfl rfl⟩
  simp [update_apply]

end Calls

end CallWeaver.Icd
