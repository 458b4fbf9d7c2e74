import Mathlib.Algebra.Order.Ring.Int
import Mathlib.Data.List.Perm.Basic
import Mathlib.Data.List.Sort

/-! # Sorted lists and arrays

Stable insertion puts an element in front of the first one that it strictly precedes, so after every
element it ties with. The extreme elements of a list are the first ones that a sort would give, and
are kept up to date while elements come and go. In a sorted array, a function on its indices, a
value is put in where it splits the elements.
-/

namespace CallWeaver

open List Function

section Insertion

variable {α : Type*} {lt : α → α → Bool} {R : α → α → Prop} {a b : α} {l l₁ l₂ : List α}

/-- Insert `a` in front of the first element that it strictly precedes. -/
def insertStable (lt : α → α → Bool) (a : α) : List α → List α
  | [] => [a]
  | b :: l => if lt a b then a :: b :: l else b :: insertStable lt a l

theorem insertStable_append (h₁ : ∀ b ∈ l₁, lt a b = false) (h₂ : ∀ b ∈ l₂.head?, lt a b = true) :
    insertStable lt a (l₁ ++ l₂) = l₁ ++ a :: l₂ := by
  induction l₁ with
  | nil =>
    cases l₂ with
    | nil => rfl
    | cons b l₂ => exact if_pos (h₂ b rfl)
  | cons b l₁ ih =>
    obtain ⟨hb, h₁⟩ := forall_mem_cons.mp h₁
    rw [cons_append, insertStable, if_neg (by simp [hb]), ih h₁, cons_append]

/-- The element is placed between those it does not precede and one that it precedes. -/
theorem insertStable_split (lt : α → α → Bool) (a : α) (l : List α) :
    ∃ l₁ l₂, l = l₁ ++ l₂ ∧ (∀ b ∈ l₁, lt a b = false) ∧ (∀ b ∈ l₂.head?, lt a b = true) ∧
      insertStable lt a l = l₁ ++ a :: l₂ := by
  induction l with
  | nil => exact ⟨[], [], rfl, by simp, by simp, rfl⟩
  | cons b l ih =>
    by_cases hb : lt a b = true
    · exact ⟨[], b :: l, rfl, by simp, by simpa using hb, if_pos hb⟩
    · obtain ⟨l₁, l₂, rfl, h₁, h₂, he⟩ := ih
      refine ⟨b :: l₁, l₂, rfl, forall_mem_cons.mpr ⟨by simpa using hb, h₁⟩, h₂, ?_⟩
      rw [insertStable, if_neg hb, he, cons_append]

theorem insertStable_perm (lt : α → α → Bool) (a : α) (l : List α) :
    (insertStable lt a l).Perm (a :: l) := by
  obtain ⟨l₁, l₂, rfl, -, -, h⟩ := insertStable_split lt a l
  rw [h]
  exact perm_middle

@[simp] theorem mem_insertStable : b ∈ insertStable lt a l ↔ b = a ∨ b ∈ l := by
  rw [(insertStable_perm lt a l).mem_iff, mem_cons]

@[simp] theorem length_insertStable : (insertStable lt a l).length = l.length + 1 :=
  (insertStable_perm lt a l).length_eq

/-- Insertion keeps a list ordered by `R` if `R` holds from each element that `a` does not precede
to `a`, and from `a` to an element it precedes and all that follow. -/
theorem pairwise_insertStable (hl : l.Pairwise R) (hbefore : ∀ b ∈ l, lt a b = false → R b a)
    (hafter : ∀ b ∈ l, lt a b = true → R a b)
    (htrans : ∀ b ∈ l, ∀ c ∈ l, lt a b = true → R b c → R a c) :
    (insertStable lt a l).Pairwise R := by
  induction l with
  | nil => exact pairwise_singleton R a
  | cons b l ih =>
    obtain ⟨hb, hl'⟩ := pairwise_cons.mp hl
    unfold insertStable
    split
    · rename_i hlt
      refine pairwise_cons.mpr ⟨fun c hc => ?_, hl⟩
      rcases mem_cons.mp hc with rfl | hc'
      · exact hafter c (by simp) hlt
      · exact htrans b (by simp) c hc hlt (hb c hc')
    · rename_i hlt
      refine pairwise_cons.mpr ⟨fun c hc => ?_, ?_⟩
      · rcases mem_insertStable.mp hc with rfl | hc
        · exact hbefore b (by simp) (by simpa using hlt)
        · exact hb c hc
      · exact ih hl' (fun c hc => hbefore c (by simp [hc])) (fun c hc => hafter c (by simp [hc]))
          (fun c hc d hd => htrans c (by simp [hc]) d (by simp [hd]))

/-- The stable sort of a list by descending keys. -/
structure StablySorted {κ : Type*} [LinearOrder κ] (key : α → κ) (l m : List α) : Prop where
  sorted : l.Pairwise fun a b => key b ≤ key a
  stable : ∀ k, l.filter (fun a => decide (key a = k)) = m.filter fun a => decide (key a = k)

namespace StablySorted

variable {κ : Type*} [LinearOrder κ] {key key' : α → κ} {m : List α}

theorem nil : StablySorted key ([] : List α) [] := ⟨.nil, fun _ => rfl⟩

section

variable (h : StablySorted key l m)

include h

theorem mem_iff : a ∈ l ↔ a ∈ m := by
  have hf := congrArg (a ∈ ·) (h.stable (key a))
  simpa using hf

theorem insert (a : α) :
    StablySorted key (insertStable (fun a b => decide (key b < key a)) a l) (m ++ [a]) := by
  constructor
  · apply pairwise_insertStable h.sorted
    · intro b _ hb
      simpa using hb
    · intro b _ hb
      exact (of_decide_eq_true hb).le
    · intro b _ c _ hb hbc
      exact hbc.trans (of_decide_eq_true hb).le
  · intro k
    obtain ⟨l₁, l₂, rfl, -, h₂, he⟩ := insertStable_split (fun a b => decide (key b < key a)) a l
    rw [he, filter_append, filter_append, ← h.stable k, filter_append, append_assoc]
    congr 1
    by_cases hk : key a = k
    · -- the keys from the place of the element on are all smaller
      have hlt : ∀ b ∈ l₂, key b < key a := by
        cases l₂ with
        | nil => simp
        | cons c l₂ =>
          have hc : key c < key a := of_decide_eq_true (h₂ c rfl)
          have hsorted := (pairwise_append.mp h.sorted).2.1
          intro b hb
          rcases mem_cons.mp hb with rfl | hb
          · exact hc
          · exact ((pairwise_cons.mp hsorted).1 b hb).trans_lt hc
      have hnone : l₂.filter (fun b => decide (key b = k)) = [] := by
        rw [filter_eq_nil_iff]
        intro b hb
        simpa [← hk] using (hlt b hb).ne
      rw [filter_cons_of_pos (by simpa using hk), hnone]
      simp [hk]
    · rw [filter_cons_of_neg (by simpa using hk)]
      simp [hk]

theorem filter (p : α → Bool) : StablySorted key (l.filter p) (m.filter p) := by
  refine ⟨h.sorted.filter p, fun k => ?_⟩
  rw [filter_comm, h.stable k, filter_comm]

theorem congr (hk : ∀ a ∈ l, key' a = key a) : StablySorted key' l m := by
  have hm : ∀ a ∈ m, key' a = key a := fun a ha => hk a (h.mem_iff.mpr ha)
  constructor
  · refine h.sorted.imp_of_mem fun ha hb hab => ?_
    rwa [hk _ ha, hk _ hb]
  · intro k
    rw [filter_congr fun a ha => by rw [hk a ha], h.stable k]
    exact filter_congr fun a ha => by rw [hm a ha]

end

end StablySorted

end Insertion

section Extremes

variable {α : Type*} {r : α → α → Prop} {x y b : α} {l m buf buf' : List α}

/-- The elements of the buffer are in order and come before all others of the list. -/
structure Extremes (r : α → α → Prop) (l buf : List α) : Prop where
  sorted : buf.Pairwise r
  first : ∃ rest, (buf ++ rest).Perm l ∧ ∀ b ∈ buf, ∀ x ∈ rest, r b x

namespace Extremes

theorem of_perm (h : Extremes r l buf) (hp : l.Perm m) : Extremes r m buf := by
  obtain ⟨rest, hperm, hr⟩ := h.first
  exact ⟨h.sorted, rest, hperm.trans hp, hr⟩

theorem keep (h : Extremes r l buf) (hx : ∀ b ∈ buf, r b x) : Extremes r (x :: l) buf := by
  obtain ⟨rest, hperm, hr⟩ := h.first
  refine ⟨h.sorted, x :: rest, perm_middle.trans (hperm.cons x), ?_⟩
  intro b hb y hy
  rcases mem_cons.mp hy with rfl | hy
  · exact hx b hb
  · exact hr b hb y hy

theorem drop (h : Extremes r (y :: l) buf) (hy : y ∉ buf) : Extremes r l buf := by
  obtain ⟨rest, hperm, hr⟩ := h.first
  have hmem : y ∈ rest := by
    have := hperm.mem_iff.mpr (mem_cons_self (a := y))
    exact (mem_append.mp this).resolve_left hy
  obtain ⟨s, t, rfl⟩ := append_of_mem hmem
  refine ⟨h.sorted, s ++ t, ?_, fun b hb x hx => hr b hb x ?_⟩
  · have hmid : (buf ++ (s ++ y :: t)).Perm (y :: (buf ++ (s ++ t))) :=
      (perm_middle.append_left buf).trans perm_middle
    exact (hmid.symm.trans hperm).cons_inv
  · rcases mem_append.mp hx with hx | hx <;> simp [hx]

theorem countP_le [Std.Refl r] (h : Extremes r l buf) {p : α → Bool} {i : ℕ} (hb : buf[i]? = some b)
    (hp : ∀ x, r b x → p x = false) : l.countP p ≤ i := by
  obtain ⟨rest, hperm, hr⟩ := h.first
  obtain ⟨hi, rfl⟩ := List.getElem?_eq_some_iff.mp hb
  have hdrop : buf.drop i = buf[i] :: buf.drop (i + 1) := drop_eq_getElem_cons hi
  have hlater : ∀ x ∈ buf.drop i ++ rest, p x = false := by
    have hsorted := h.sorted.drop (i := i)
    rw [hdrop] at hsorted
    intro x hx
    apply hp
    rcases mem_append.mp hx with hx | hx
    · rw [hdrop] at hx
      rcases mem_cons.mp hx with rfl | hx
      · exact Std.Refl.refl _
      · exact (pairwise_cons.mp hsorted).1 x hx
    · exact hr _ (getElem_mem hi) x hx
  have hzero : (buf.drop i ++ rest).countP p = 0 :=
    countP_eq_zero.mpr fun x hx => by simp [hlater x hx]
  calc l.countP p = (buf.take i ++ (buf.drop i ++ rest)).countP p := by
        rw [← hperm.countP_eq, ← append_assoc, take_append_drop]
    _ = (buf.take i).countP p := by rw [countP_append, hzero, Nat.add_zero]
    _ ≤ (buf.take i).length := countP_le_length
    _ ≤ i := length_take_le i buf

theorem take (k : ℕ) (h : l.Pairwise r) (hp : l.Perm m) : Extremes r m (l.take k) := by
  rw [← take_append_drop k l] at h
  obtain ⟨hfirst, -, hrest⟩ := pairwise_append.mp h
  exact ⟨hfirst, l.drop k, by rwa [take_append_drop], hrest⟩

section Order

variable [IsTrans α r] [Std.Total r]

theorem insert {lt : α → α → Bool} (hlt : ∀ x y, lt x y = false ↔ r y x) (h : Extremes r l buf)
    (x : α) : Extremes r (x :: l) (insertStable lt x buf).dropLast := by
  have hx : ∀ {b}, lt x b = true → r x b := by
    intro b hb
    rcases total_of r x b with h | h
    · exact h
    · rw [(hlt x b).mpr h] at hb
      cases hb
  have hsorted : (insertStable lt x buf).Pairwise r :=
    pairwise_insertStable h.sorted (fun b _ => (hlt x b).mp) (fun b _ => hx)
      fun b _ c _ hb hbc => trans_of r (hx hb) hbc
  obtain ⟨l₁, l₂, rfl, h₁, h₂, he⟩ := insertStable_split lt x buf
  rw [he] at hsorted ⊢
  rcases l₂.eq_nil_or_concat' with rfl | ⟨l₂, z, rfl⟩
  · rw [dropLast_concat]
    rw [append_nil] at h
    exact h.keep fun b hb => (hlt x b).mp (h₁ b hb)
  · -- the element that is given up comes before all others that are not in the buffer
    obtain ⟨rest, hperm, hr⟩ := h.first
    have hassoc : l₁ ++ x :: (l₂ ++ [z]) = (l₁ ++ x :: l₂) ++ [z] := by simp
    rw [hassoc] at hsorted ⊢
    rw [dropLast_concat]
    obtain ⟨hfirst, -, hz⟩ := pairwise_append.mp hsorted
    refine ⟨hfirst, z :: rest, ?_, fun b hb y hy => ?_⟩
    · have hmid : ((l₁ ++ x :: l₂) ++ z :: rest).Perm (x :: ((l₁ ++ (l₂ ++ [z])) ++ rest)) := by
        simp
      exact hmid.trans (hperm.cons x)
    · have hbz := hz b hb z (mem_singleton_self z)
      rcases mem_cons.mp hy with rfl | hy
      · exact hbz
      · exact trans_of r hbz (hr z (by simp) y hy)

theorem unique [DecidableRel r] [Std.Antisymm r] (h : Extremes r l buf) (h' : Extremes r l buf')
    (hlen : buf.length = buf'.length) : buf = buf' := by
  have hsort : ∀ {buf}, Extremes r l buf → buf = (l.insertionSort r).take buf.length := by
    intro buf h
    obtain ⟨rest, hperm, hr⟩ := h.first
    have hs : (buf ++ rest.insertionSort r).Pairwise r :=
      pairwise_append.mpr ⟨h.sorted, pairwise_insertionSort r rest,
        fun b hb x hx => hr b hb x ((mem_insertionSort r).mp hx)⟩
    have hp : (buf ++ rest.insertionSort r).Perm (l.insertionSort r) :=
      ((perm_insertionSort r rest).append_left buf).trans
        (hperm.trans (perm_insertionSort r l).symm)
    rw [← hp.eq_of_pairwise' hs (pairwise_insertionSort r l), take_left]
  rw [hsort h, hsort h', hlen]

theorem padded [DecidableRel r] (k : ℕ) (hx : ∀ x ∈ l, r x y) :
    Extremes r (l ++ replicate k y) ((l.insertionSort r).take k ++ replicate (k - l.length) y) := by
  have hs : (l.insertionSort r ++ replicate k y).Pairwise r := by
    refine pairwise_append.mpr ⟨pairwise_insertionSort r l, ?_, fun b hb x hy => ?_⟩
    · exact pairwise_replicate.mpr (Or.inr (refl_of r y))
    · rw [eq_of_mem_replicate hy]
      exact hx b ((mem_insertionSort r).mp hb)
  have htake := take k hs ((perm_insertionSort r l).append_right _)
  rwa [take_append, take_replicate, length_insertionSort, Nat.min_eq_left (Nat.sub_le ..)] at htake

end Order

end Extremes

end Extremes

variable {α : Type*} [LinearOrder α] {a : ℕ → α} {n m p : ℕ} {v : α}

def SortedTo (a : ℕ → α) (n : ℕ) : Prop := ∀ i j, i ≤ j → j < n → a i ≤ a j

structure Splits (a : ℕ → α) (n : ℕ) (v : α) (p : ℕ) : Prop where
  le : p ≤ n
  below : ∀ i < p, a i ≤ v
  above : ∀ i, p ≤ i → i < n → v ≤ a i

def moveElems {β : Type*} (a : ℕ → β) (dst src m : ℕ) : ℕ → β := fun i =>
  if dst ≤ i ∧ i < dst + m then a (i - dst + src) else a i

namespace SortedTo

variable (h : SortedTo a n)

include h

theorem mono (hm : m ≤ n) :
    SortedTo a m := fun i j hij hj => h i j hij (hj.trans_le hm)

theorem concat (hv : n = 0 ∨ a (n - 1) ≤ v) : SortedTo (update a n v) (n + 1) := by
  intro i j hij hj
  rcases Nat.lt_succ_iff_lt_or_eq.mp hj with hj | rfl
  · rw [update_of_ne (by omega), update_of_ne (by omega)]
    exact h i j hij hj
  · rw [update_self]
    rcases hij.lt_or_eq with hij | rfl
    · rw [update_of_ne (by omega)]
      rcases hv with rfl | hv
      · omega
      · exact (h i (j - 1) (by omega) (by omega)).trans hv
    · rw [update_self]

theorem insert (hp : Splits a n v p) (hm : n < p + 1 + m) :
    SortedTo (update (moveElems a (p + 1) p m) p v) (n + 1) := by
  have hpn := hp.le
  -- where the elements of the new array come from
  have hlow : ∀ i < p, update (moveElems a (p + 1) p m) p v i = a i := by
    intro i hi
    rw [update_of_ne (by omega), moveElems, if_neg (by omega)]
  have hhigh : ∀ i, p < i → i < n + 1 → update (moveElems a (p + 1) p m) p v i = a (i - 1) := by
    intro i hi hn
    rw [update_of_ne (by omega), moveElems, if_pos (by omega)]
    congr 1
    omega
  intro i j hij hj
  rcases lt_trichotomy i p with hi | rfl | hi
  · rw [hlow i hi]
    rcases lt_trichotomy j p with hj' | rfl | hj'
    · rw [hlow j hj']
      exact h i j hij (by omega)
    · rw [update_self]
      exact hp.below i hi
    · rw [hhigh j hj' hj]
      exact h i (j - 1) (by omega) (by omega)
  · rw [update_self]
    rcases Nat.eq_or_lt_of_le hij with rfl | hij
    · rw [update_self]
    · rw [hhigh j hij hj]
      exact hp.above (j - 1) (by omega) (by omega)
  · rw [hhigh i hi (by omega), hhigh j (by omega) hj]
    exact h (i - 1) (j - 1) (by omega) (by omega)

theorem remove (hm : n ≤ p + 1 + m) : SortedTo (moveElems a p (p + 1) m) (n - 1) := by
  have hget : ∀ i < n - 1, moveElems a p (p + 1) m i = a (if i < p then i else i + 1) := by
    intro i hi
    rcases Nat.lt_or_ge i p with hp | hp
    · rw [moveElems, if_neg (by omega), if_pos hp]
    · rw [moveElems, if_pos (by omega), if_neg (by omega)]
      congr 1
      omega
  intro i j hij hj
  rw [hget i (by omega), hget j hj]
  apply h <;> split_ifs <;> omega

end SortedTo

end CallWeaver
