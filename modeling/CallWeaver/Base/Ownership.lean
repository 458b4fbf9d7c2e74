import Mathlib.Data.List.Nodup

/-! # Ownership of allocated cells

Each allocated cell belongs to at most one owner. Cells change hands between two owners, are
allocated for one and are freed by one.
-/

namespace CallWeaver

open Function List

variable {ι α : Type*}

/-- What the owners have is allocated, and nothing belongs to two of them or twice to one. -/
structure Owned (allocated : α → Bool) (own : ι → List α) : Prop where
  nodup : ∀ i, (own i).Nodup
  unique : ∀ i j a, a ∈ own i → a ∈ own j → i = j
  allocated : ∀ i, ∀ a ∈ own i, allocated a = true

namespace Owned

variable {allocated : α → Bool} {own : ι → List α} {i j k : ι} {a b : α} {l x y : List α}

theorem notMem (h : Owned allocated own) (ha : allocated a = false) (i : ι) : a ∉ own i := by
  intro hm
  simp [h.allocated i a hm] at ha

variable [DecidableEq ι]

theorem mem_update (h : b ∈ update own i x k) : (k = i ∧ b ∈ x) ∨ (k ≠ i ∧ b ∈ own k) := by
  by_cases hk : k = i
  · subst hk
    exact .inl ⟨rfl, by simpa using h⟩
  · exact .inr ⟨hk, by rwa [update_of_ne hk] at h⟩

section

variable (h : Owned allocated own)

include h

/-- An owner may give up cells and take free ones. -/
theorem change (hnd : x.Nodup) (hx : ∀ a ∈ x, a ∈ own i ∨ allocated a = true ∧ ∀ k, a ∉ own k) :
    Owned allocated (update own i x) := by
  constructor
  · intro k
    by_cases hk : k = i
    · rwa [hk, update_self]
    · rw [update_of_ne hk]
      exact h.nodup k
  · intro k m a hak ham
    rcases mem_update hak with ⟨rfl, hk⟩ | ⟨-, hk⟩ <;>
      rcases mem_update ham with ⟨rfl, hm⟩ | ⟨-, hm⟩
    · rfl
    · rcases hx a hk with ha | ha
      · exact h.unique k m a ha hm
      · exact absurd hm (ha.2 m)
    · rcases hx a hm with ha | ha
      · exact h.unique k m a hk ha
      · exact absurd hk (ha.2 k)
    · exact h.unique k m a hk hm
  · intro k a ha
    rcases mem_update ha with ⟨-, ha⟩ | ⟨-, ha⟩
    · rcases hx a ha with ha | ha
      · exact h.allocated i a ha
      · exact ha.1
    · exact h.allocated k a ha

theorem shrink (hx : x.Sublist (own i)) : Owned allocated (update own i x) :=
  h.change ((h.nodup i).sublist hx) fun _ ha => .inl (hx.subset ha)

theorem move (hij : i ≠ j) (hp : (x ++ y).Perm (own i ++ own j)) :
    Owned allocated (update (update own i x) j y) := by
  have hnd : (own i ++ own j).Nodup := nodup_append.mpr
    ⟨h.nodup i, h.nodup j, fun a ha b hb hab => hij (h.unique i j a ha (hab ▸ hb))⟩
  obtain ⟨hx, hy, hxy⟩ := nodup_append.mp (hp.nodup_iff.mpr hnd)
  -- both give up all they have, and take what they shall have
  have hempty := (h.shrink (i := i) (nil_sublist _)).shrink (i := j) (nil_sublist _)
  have hfree : ∀ a ∈ x ++ y, allocated a = true ∧ ∀ k, a ∉ update (update own i []) j [] k := by
    intro a ha
    have ha := mem_append.mp (hp.mem_iff.mp ha)
    refine ⟨ha.elim (h.allocated i a) (h.allocated j a), fun k hk => ?_⟩
    rcases mem_update hk with ⟨-, hk⟩ | ⟨hkj, hk⟩
    · cases hk
    rcases mem_update hk with ⟨-, hk⟩ | ⟨hki, hk⟩
    · cases hk
    · exact ha.elim (fun ha => hki (h.unique k i a hk ha)) fun ha => hkj (h.unique k j a hk ha)
  have hi := hempty.change (i := i) hx fun a ha => .inr (hfree a (mem_append_left _ ha))
  have hj := hi.change (i := j) hy fun a ha =>
    .inr ⟨(hfree a (mem_append_right _ ha)).1, fun k hk => ?_⟩
  · rwa [update_comm hij.symm, update_idem, update_idem] at hj
  · rcases mem_update hk with ⟨-, hk⟩ | ⟨-, hk⟩
    · exact hxy a hk a ha rfl
    · exact (hfree a (mem_append_right _ ha)).2 k hk

theorem acquire (hfree : ∀ k, a ∉ own k) (ha : allocated a = true) (hx : x.Perm (a :: own i)) :
    Owned allocated (update own i x) := by
  refine h.change (hx.nodup_iff.mpr (nodup_cons.mpr ⟨hfree i, h.nodup i⟩)) fun b hb => ?_
  rcases mem_cons.mp (hx.mem_iff.mp hb) with rfl | hb
  · exact .inr ⟨ha, hfree⟩
  · exact .inl hb

end

variable [DecidableEq α]

theorem alloc (h : Owned allocated own) (ha : allocated a = false) (hx : x.Perm (a :: own i)) :
    Owned (update allocated a true) (update own i x) := by
  have hnew : Owned (update allocated a true) own := by
    refine ⟨h.nodup, h.unique, fun k b hb => ?_⟩
    rw [update_of_ne (ne_of_mem_of_not_mem hb (h.notMem ha k))]
    exact h.allocated k b hb
  exact hnew.acquire (h.notMem ha) (update_self ..) hx

theorem free (h : Owned allocated own) (hl : l.Sublist (own i)) (hi : a ∈ own i) (ha : a ∉ l) :
    Owned (update allocated a false) (update own i l) := by
  have hs := h.shrink hl
  refine ⟨hs.nodup, hs.unique, fun k b hb => ?_⟩
  have hba : b ≠ a := by
    rintro rfl
    rcases mem_update hb with ⟨-, hb⟩ | ⟨hk, hb⟩
    · exact ha hb
    · exact hk (h.unique k i b hb hi)
  rw [update_of_ne hba]
  exact hs.allocated k b hb

end Owned

end CallWeaver
