import CallWeaver.Jitter.Fixed

/-! # The list of the fixed jitter buffer

What the loops and the insertion of the buffer do to the list of its frames.
-/

namespace CallWeaver.Jitter

open Function List

variable {α : Type} {h : Cells (ScxJbFrame α)} {head tail : Option ℕ} {jb : ScxJb α} {x : ℕ}
  {f : ScxJbFrame α} {d ms o now interpl : ℤ} {c : ℕ × ScxJbFrame α}
  {l m A B : List (ℕ × ScxJbFrame α)}

theorem findPlace_none (fuel : ℕ) : findPlace d fuel h none = some none := by
  cases fuel <;> rfl

theorem findPlace_eq (hd : DList h head tail (l ++ m)) :
    ∃ A B, l = A ++ B ∧ (∀ c ∈ A.getLast?, c.2.delivery ≤ d) ∧ (∀ c ∈ B, d < c.2.delivery) ∧
      ∀ fuel, l.length < fuel → findPlace d fuel h (lastPtr l) = some (lastPtr A) := by
  induction l using List.reverseRecOn generalizing m with
  | nil => exact ⟨[], [], rfl, by simp, by simp, fun fuel _ => findPlace_none fuel⟩
  | append_singleton l c ih =>
    rw [append_assoc] at hd
    have hc : h c.1 = some ⟨c.2, headPtr m, lastPtr l⟩ := hd.cell
    by_cases hlt : d < c.2.delivery
    · obtain ⟨A, B, rfl, hA, hB, hfind⟩ := ih hd
      refine ⟨A, B ++ [c], by simp, hA, ?_, fun fuel hfuel => ?_⟩
      · intro e he
        rcases mem_append.mp he with he | he
        · exact hB e he
        · rwa [mem_singleton.mp he]
      · obtain ⟨fuel, rfl⟩ := exists_round hfuel
        rw [length_append, length_singleton] at hfuel
        simp only [lastPtr_concat, findPlace, hc, Option.bind_eq_bind, Option.bind_some,
          if_pos hlt, gt_iff_lt]
        exact hfind fuel (by omega)
    · refine ⟨l ++ [c], [], by simp, ?_, by simp, fun fuel hfuel => ?_⟩
      · intro e he
        rw [getLast?_concat, Option.mem_some_iff] at he
        rw [← he]
        exact not_lt.mp hlt
      · obtain ⟨fuel, rfl⟩ := exists_round hfuel
        simp [lastPtr_concat, findPlace, hc, hlt]

/-- A frame due at `d` begins within the last one of `A`, or ends within the first one of `B`. -/
def Covers (d ms : ℤ) (A B : List (ℕ × ScxJbFrame α)) : Prop :=
  ∃ c ∈ A.getLast?, c.2.delivery = d ∨ d < c.2.delivery + c.2.ms ∨
    ∃ e ∈ B.head?, e.2.delivery < d + ms

theorem covered_eq (hd : DList h head tail (A ++ B)) (d ms : ℤ) :
    ∃ b, covered h d ms (lastPtr A) = some b ∧ (b = true ↔ Covers d ms A B) := by
  rcases A.eq_nil_or_concat' with rfl | ⟨A, c, rfl⟩
  · exact ⟨false, rfl, by simp [Covers]⟩
  · rw [append_assoc] at hd
    have hc : h c.1 = some ⟨c.2, headPtr B, lastPtr A⟩ := hd.cell
    simp only [Covers, getLast?_append, getLast?_singleton, Option.some_or, Option.mem_some_iff,
      exists_eq_left']
    by_cases hcov : c.2.delivery = d ∨ d < c.2.delivery + c.2.ms
    · refine ⟨true, ?_, iff_of_true rfl (or_assoc.mp (.inl hcov))⟩
      simp [lastPtr_concat, covered, hc, hcov]
    · rw [← or_assoc, or_iff_right hcov]
      cases B with
      | nil =>
        refine ⟨false, ?_, by simp⟩
        simp [lastPtr_concat, covered, hc, hcov]
      | cons b B =>
        have hd' : DList h head tail ((A ++ [c]) ++ b :: B) := by simpa using hd
        have hb := hd'.cell
        refine ⟨decide (d + ms > b.2.delivery), ?_, by simp⟩
        simp [lastPtr_concat, covered, hc, hcov, hb]

theorem val_alloc (hd : DList h head tail l) (hx : h.valOf x = none) (hc : c ∈ l) :
    update h.valOf x (some f) c.1 = some c.2 ∧ c.1 ≠ x := by
  have hv := hd.val c hc
  have hne : c.1 ≠ x := fun hcx => by
    rw [hcx, hx] at hv
    cases hv
  exact ⟨by rw [update_of_ne hne, hv], hne⟩

theorem insertFirst_eq (jb : ScxJb α) (hd : DList jb.heap jb.frames jb.tail B)
    (hx : jb.heap.valOf x = none) :
    ∃ h' fr' tl',
      insertFrame jb x f none = some { jb with heap := h', frames := fr', tail := tl' } ∧
      DList h' fr' tl' ((x, f) :: B) := by
  have hs := (jb.heap.shows_self).alloc x f
  have hnew : update jb.heap.valOf x (some f) x = some f := update_self ..
  cases B with
  | nil =>
    obtain ⟨hfr, htl⟩ := DList.nil_iff.mp hd
    refine ⟨jb.heap.alloc x f, some x, some x, by simp [insertFrame, hfr, htl], ?_⟩
    refine DList.insert (A := []) hd hx ?_ ?_ hs.val
    · rw [hs.next]
      simp
    · rw [hs.prev]
      simp
  | cons b B =>
    obtain ⟨hb, hbx⟩ := val_alloc (f := f) hd hx mem_cons_self
    have hfr : jb.frames = some b.1 := hd.head_eq
    obtain ⟨h₁, e₁, s₁⟩ := hs.update_next hnew (some b.1)
    obtain ⟨h₂, e₂, s₂⟩ := s₁.update_prev hnew none
    obtain ⟨h₃, e₃, s₃⟩ := s₂.update_prev hb (some x)
    refine ⟨h₃, some x, jb.tail, by simp [insertFrame, hfr, e₁, e₂, e₃], ?_⟩
    refine DList.insert (A := []) hd hx ?_ ?_ s₃.val
    · rw [s₃.next]
      simp
    · rw [s₃.prev]
      simp only [headPtr_cons, lastPtr_nil, update_ptr_some, update_idem]
      rw [update_comm hbx.symm]

theorem insertBehind_eq (jb : ScxJb α) (hd : DList jb.heap jb.frames jb.tail (A ++ [c] ++ B))
    (hx : jb.heap.valOf x = none) :
    ∃ h' tl', insertFrame jb x f (some c.1) = some { jb with heap := h', tail := tl' } ∧
      DList h' jb.frames tl' (A ++ [c] ++ (x, f) :: B) := by
  have hs := (jb.heap.shows_self).alloc x f
  have hnew : update jb.heap.valOf x (some f) x = some f := update_self ..
  obtain ⟨hc, hcx⟩ := val_alloc (c := c) (f := f) hd hx (by simp)
  have hcell : jb.heap.alloc x f c.1 = some ⟨c.2, headPtr B, lastPtr A⟩ := by
    rw [Cells.alloc, update_of_ne hcx]
    rw [append_assoc] at hd
    exact hd.cell
  obtain ⟨h₁, e₁, s₁⟩ := hs.update_next hc (some x)
  cases B with
  | nil =>
    obtain ⟨h₂, e₂, s₂⟩ := s₁.update_next hnew none
    obtain ⟨h₃, e₃, s₃⟩ := s₂.update_prev hnew (some c.1)
    refine ⟨h₃, some x, by simp [insertFrame, hcell, e₁, e₂, e₃], hd.insert hx ?_ ?_ s₃.val⟩
    · rw [s₃.next]
      rw [update_comm hcx]
      simp
    · rw [s₃.prev]
      simp
  | cons b B =>
    obtain ⟨hb, hbx⟩ := val_alloc (c := b) (f := f) hd hx (by simp)
    obtain ⟨h₂, e₂, s₂⟩ := s₁.update_next hnew (some b.1)
    obtain ⟨h₃, e₃, s₃⟩ := s₂.update_prev hb (some x)
    obtain ⟨h₄, e₄, s₄⟩ := s₃.update_prev hnew (some c.1)
    refine ⟨h₄, jb.tail, by simp [insertFrame, hcell, e₁, e₂, e₃, e₄], hd.insert hx ?_ ?_ s₄.val⟩
    · rw [s₄.next]
      rw [update_comm hcx]
      simp
    · rw [s₄.prev]
      rw [update_comm hbx.symm]
      simp

theorem insertFrame_eq (jb : ScxJb α) (hd : DList jb.heap jb.frames jb.tail (A ++ B))
    (hx : jb.heap.valOf x = none) : ∃ h' fr' tl', insertFrame jb x f (lastPtr A) =
        some { jb with heap := h', frames := fr', tail := tl' } ∧
      DList h' fr' tl' (A ++ (x, f) :: B) := by
  rcases A.eq_nil_or_concat' with rfl | ⟨A, c, rfl⟩
  · exact insertFirst_eq jb hd hx
  · obtain ⟨h', tl', hinsert, hd'⟩ := insertBehind_eq (f := f) jb hd hx
    rw [lastPtr_concat]
    exact ⟨h', jb.frames, tl', hinsert, hd'⟩

def ScxJbFrame.shift (o : ℤ) (f : ScxJbFrame α) : ScxJbFrame α := { f with ts := f.ts + o }

theorem shiftTs_eq (hd : DList h head tail (A ++ B)) :
    ∃ h', (∀ fuel, B.length < fuel → shiftTs o fuel h (headPtr B) = some h') ∧
      DList h' head tail (A ++ B.map fun c => (c.1, c.2.shift o)) ∧
      ∀ a, h a = none → h' a = none := by
  induction B generalizing A h with
  | nil => exact ⟨h, fun fuel _ => by cases fuel <;> rfl, hd, fun _ ha => ha⟩
  | cons c B ih =>
    obtain ⟨h₁, hset, hd₁, hfree₁⟩ := hd.setVal (c.2.shift o)
    rw [append_cons] at hd₁
    obtain ⟨h₂, hshift, hd₂, hfree₂⟩ := ih hd₁
    refine ⟨h₂, fun fuel hfuel => ?_, by simpa using hd₂, fun a ha => hfree₂ a (hfree₁ a ha)⟩
    obtain ⟨fuel, rfl⟩ := exists_round hfuel
    rw [length_cons] at hfuel
    rw [ScxJbFrame.shift] at hset
    simp only [headPtr_cons, shiftTs, hd.cell, Option.bind_eq_bind, Option.bind_some, hset]
    exact hshift fuel (by omega)

theorem getJbHead_eq (hd : DList jb.heap jb.frames jb.tail (c :: l)) :
    ∃ h' fr' tl', getJbHead jb = some ({ jb with
        heap := h', frames := fr', tail := tl', nextDelivery := c.2.delivery + c.2.ms }, c.2) ∧
      DList h' fr' tl' l := by
  have hc : jb.heap c.1 = some ⟨c.2, headPtr l, none⟩ := DList.cell (A := []) hd
  have hfr : jb.frames = some c.1 := hd.head_eq
  cases l with
  | nil =>
    refine ⟨_, none, none, by simp [getJbHead, hfr, hc]; rfl, DList.nil_iff.mpr ⟨rfl, rfl⟩⟩
  | cons b l =>
    have hb := hd.val b (by simp)
    obtain ⟨h₁, e₁, s₁⟩ := jb.heap.shows_self.update_prev hb none
    have s₂ := s₁.free c.1
    refine ⟨h₁.free c.1, some b.1, jb.tail, by simp [getJbHead, hfr, hc, e₁], ?_⟩
    refine hd.pop ?_ ?_ s₂.val
    · rw [s₂.next]
      simp
    · rw [s₂.prev]
      simp

theorem scxJbGet_cases (hd : DList jb.heap jb.frames jb.tail l) (ha : 0 ≤ now ∧ 2 ≤ interpl) :
    (∃ n ret, scxJbGet jb now interpl = some ({ jb with nextDelivery := n }, ret, none) ∧
      jb.nextDelivery ≤ n) ∨
      ∃ c l' h' fr' tl' ret, l = c :: l' ∧ scxJbGet jb now interpl = some ({ jb with
          heap := h', frames := fr', tail := tl', nextDelivery := c.2.delivery + c.2.ms }, ret,
        some c.2) ∧ DList h' fr' tl' l' ∧ (c.2.delivery ≤ now ∨ c.2.delivery + c.2.ms < now) := by
  have hlater : jb.nextDelivery ≤ jb.nextDelivery + interpl := by omega
  simp only [scxJbGet, if_neg (not_not.mpr ha)]
  by_cases hearly : now < jb.nextDelivery
  · exact .inl ⟨jb.nextDelivery, .noframe, by rw [if_pos hearly], le_rfl⟩
  rw [if_neg hearly]
  cases l with
  | nil =>
    have hfr : jb.frames = none := hd.head_eq
    rw [hfr]
    exact .inl ⟨_, .interp, rfl, hlater⟩
  | cons c l =>
    have hfr : jb.frames = some c.1 := hd.head_eq
    have hcell : jb.heap c.1 = some ⟨c.2, headPtr l, none⟩ := DList.cell (A := []) hd
    obtain ⟨h', fr', tl', hget, hd'⟩ := getJbHead_eq hd
    simp only [hfr, hcell, hget, Option.bind_eq_bind, Option.bind_some]
    by_cases hdrop : now > c.2.delivery + c.2.ms
    · rw [if_pos hdrop]
      exact .inr ⟨c, l, h', fr', tl', .drop, rfl, rfl, hd', .inr hdrop⟩
    rw [if_neg hdrop]
    by_cases hsoon : now < c.2.delivery
    · rw [if_pos hsoon]
      exact .inl ⟨_, .interp, rfl, hlater⟩
    · rw [if_neg hsoon]
      exact .inr ⟨c, l, h', fr', tl', .ok, rfl, rfl, hd', .inl (not_lt.mp hsoon)⟩

theorem scxJbRemove_cases (hd : DList jb.heap jb.frames jb.tail l) :
    (l = [] ∧ scxJbRemove jb = some (jb, .noframe, none)) ∨
      ∃ c l' h' fr' tl', l = c :: l' ∧ scxJbRemove jb = some ({ jb with
          heap := h', frames := fr', tail := tl', nextDelivery := c.2.delivery + c.2.ms }, .ok,
        some c.2) ∧ DList h' fr' tl' l' := by
  cases l with
  | nil =>
    have hfr : jb.frames = none := hd.head_eq
    exact .inl ⟨rfl, by rw [scxJbRemove, hfr]⟩
  | cons c l =>
    have hfr : jb.frames = some c.1 := hd.head_eq
    obtain ⟨h', fr', tl', hget, hd'⟩ := getJbHead_eq hd
    exact .inr ⟨c, l, h', fr', tl', rfl, by rw [scxJbRemove, hfr, hget]; rfl, hd'⟩

end CallWeaver.Jitter
