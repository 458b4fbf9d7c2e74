import Mathlib.Algebra.BigOperators.Group.List.Basic
import Mathlib.Algebra.GroupWithZero.Nat
import Mathlib.Algebra.Order.Group.Nat
import Mathlib.Data.List.Nodup
import Mathlib.Order.Bounds.Basic

/-! # Graphs

A depth-first traversal goes through the successors of a node before its siblings, passes over nodes
it has seen, and lists the nodes in the order of their first visits. A table stores for pairs of
nodes the first edge and the length of a walk. When no entry can be improved by an edge or through a
third node, following the first edges gives a shortest walk.
-/

namespace CallWeaver

open List

section Traversal

variable {V : Type*} {next : V → List V} {s t u vs : List V} {v w : V}

/-- From the nodes `s` seen so far, visiting some nodes leads to the nodes seen after it. -/
inductive Visits (next : V → List V) : List V → List V → List V → Prop where
  | nil {s : List V} : Visits next s [] s
  | seen {s t vs : List V} {v : V} : v ∈ s → Visits next s vs t → Visits next s (v :: vs) t
  | new {s t u vs : List V} {v : V} : v ∉ s → Visits next (s ++ [v]) (next v) t →
      Visits next t vs u → Visits next s (v :: vs) u

namespace Visits

section

variable (h : Visits next s vs t)

include h

theorem prefix_of : s <+: t := by
  induction h with
  | nil => exact prefix_rfl
  | seen _ _ ih => exact ih
  | new _ _ _ ih₁ ih₂ => exact (prefix_append _ _).trans (ih₁.trans ih₂)

theorem nodup (hs : s.Nodup) : t.Nodup := by
  induction h with
  | nil => exact hs
  | seen _ _ ih => exact ih hs
  | new hv _ _ ih₁ ih₂ =>
    refine ih₂ (ih₁ (nodup_append.mpr ⟨hs, nodup_singleton _, ?_⟩))
    rintro a ha b hb rfl
    exact hv (mem_singleton.mp hb ▸ ha)

theorem mem_of_mem (hv : v ∈ vs) : v ∈ t := by
  induction h with
  | nil => cases hv
  | seen hs h ih =>
    rcases mem_cons.mp hv with rfl | hv
    · exact h.prefix_of.subset hs
    · exact ih hv
  | new _ h₁ h₂ _ ih =>
    rcases mem_cons.mp hv with rfl | hv
    · exact (h₁.prefix_of.trans h₂.prefix_of).subset (by simp)
    · exact ih hv

theorem closed (hv : v ∈ t) (hs : v ∉ s) (hw : w ∈ next v) : w ∈ t := by
  induction h with
  | nil => exact absurd hv hs
  | seen _ _ ih => exact ih hv hs
  | @new s t u vs a _ h₁ h₂ ih₁ ih₂ =>
    by_cases ht : v ∈ t
    · apply h₂.prefix_of.subset
      by_cases ha : v = a
      · exact h₁.mem_of_mem (ha ▸ hw)
      · exact ih₁ ht (by simp [hs, ha])
    · exact ih₂ hv ht

theorem forall_mem {P : V → Prop} (hs : ∀ a ∈ s, P a) (hvs : ∀ a ∈ vs, P a)
    (hnext : ∀ a, P a → ∀ b ∈ next a, P b) : ∀ a ∈ t, P a := by
  induction h with
  | nil => exact hs
  | seen _ _ ih => exact ih hs fun a ha => hvs a (by simp [ha])
  | @new s t u vs v _ _ _ ih₁ ih₂ =>
    have hv : P v := hvs v (by simp)
    refine ih₂ (ih₁ ?_ (hnext v hv)) fun a ha => hvs a (by simp [ha])
    intro a ha
    rcases mem_append.mp ha with ha | ha
    · exact hs a ha
    · exact mem_singleton.mp ha ▸ hv

end

theorem mem_iff (h : Visits next [] [w] t) :
    v ∈ t ↔ Relation.ReflTransGen (fun a b => b ∈ next a) w v := by
  constructor
  · exact h.forall_mem (by simp) (by simp [Relation.ReflTransGen.refl]) (fun a ha b hb =>
      ha.tail hb) v
  · intro hr
    induction hr with
    | refl => exact h.mem_of_mem (by simp)
    | tail _ hb ih => exact h.closed ih (by simp) hb

theorem exists_of_finite (l : List V) (hl : ∀ a ∈ l, ∀ b ∈ next a, b ∈ l) (hvs : ∀ a ∈ vs, a ∈ l) :
    ∃ t, Visits next s vs t := by
  classical
  -- each new node leaves fewer nodes of `l` to be seen
  induction hn : (l.filter (· ∉ s)).length using Nat.strongRecOn generalizing s vs with
  | ind n ih =>
    induction vs generalizing s with
    | nil => exact ⟨s, .nil⟩
    | cons a vs ihvs =>
      have hvs' : ∀ a ∈ vs, a ∈ l := fun b hb => hvs b (by simp [hb])
      by_cases ha : a ∈ s
      · obtain ⟨t, ht⟩ := ihvs hvs' hn
        exact ⟨t, .seen ha ht⟩
      · have hlt : ∀ t, s ++ [a] <+: t → (l.filter (· ∉ t)).length < n := by
          intro t ht
          rw [← hn]
          have hsub : (l.filter (· ∉ t)) = (l.filter (· ∉ s)).filter (· ∉ t) := by
            rw [filter_filter]
            apply filter_congr
            intro b _
            have hbs : b ∈ s → b ∈ t := fun hb => ht.subset (by simp [hb])
            by_cases hb : b ∈ t
            · simp [hb]
            · have hb' : b ∉ s := fun h => hb (hbs h)
              simp [hb, hb']
          rw [hsub]
          refine length_filter_lt_length_iff_exists.mpr ⟨a, ?_, ?_⟩
          · simp [ha, hvs a (by simp)]
          · simp [ht.subset (show a ∈ s ++ [a] by simp)]
        obtain ⟨t, ht⟩ := ih _ (hlt _ prefix_rfl) (fun b hb => hl a (hvs a (by simp)) b hb) rfl
        obtain ⟨u, hu⟩ := ih _ (hlt t ht.prefix_of) hvs' rfl
        exact ⟨u, .new ha ht hu⟩

end Visits

end Traversal

namespace Distances

variable {V E : Type*}

structure Graph (V E : Type*) where
  edges : List E
  src : E → V
  dst : E → V
  cost : E → ℕ

namespace Graph

variable (G : Graph V E)

/-- The edges lead one after the other from the first node to the last. -/
def Walk : V → List E → V → Prop
  | x, [], z => x = z
  | x, e :: es, z => e ∈ G.edges ∧ G.src e = x ∧ Walk (G.dst e) es z

def total (es : List E) : ℕ := (es.map G.cost).sum

@[simp] theorem total_nil : G.total [] = 0 := rfl

@[simp] theorem total_cons (e : E) (es : List E) : G.total (e :: es) = G.cost e + G.total es := by
  simp [total]

@[simp] theorem total_append (es fs : List E) : G.total (es ++ fs) = G.total es + G.total fs := by
  simp [total]

variable {G} {x y z : V} {e : E} {es fs : List E}

theorem Walk.append (h : G.Walk x es y) (h' : G.Walk y fs z) : G.Walk x (es ++ fs) z := by
  induction es generalizing x with
  | nil => cases h; exact h'
  | cons e es ih => exact ⟨h.1, h.2.1, ih h.2.2⟩

theorem Walk.single (he : e ∈ G.edges) : G.Walk (G.src e) [e] (G.dst e) := ⟨he, rfl, rfl⟩

variable (G)

/-- A table entry is the first edge and the length of a walk. -/
def Sound (T : V → V → Option (E × ℕ)) : Prop :=
  ∀ x z e n, T x z = some (e, n) → ∃ es, G.Walk x (e :: es) z ∧ G.total (e :: es) = n

/-- No entry between different nodes can be improved by an edge or through a
third node. -/
structure Closed (T : V → V → Option (E × ℕ)) : Prop where
  edge : ∀ e ∈ G.edges, G.src e ≠ G.dst e →
    ∃ f n, T (G.src e) (G.dst e) = some (f, n) ∧ n ≤ G.cost e
  triangle : ∀ x y z e m f n, x ≠ y → x ≠ z → y ≠ z → T x y = some (e, m) →
    T y z = some (f, n) → ∃ g k, T x z = some (g, k) ∧ k ≤ m + n

variable {G} {T : V → V → Option (E × ℕ)}

theorem Closed.le_total [DecidableEq V] (hc : G.Closed T) (hw : G.Walk x es z) (hxz : x ≠ z) :
    ∃ e n, T x z = some (e, n) ∧ n ≤ G.total es := by
  induction es generalizing x with
  | nil => exact absurd hw hxz
  | cons e es ih =>
    obtain ⟨he, rfl, hw⟩ := hw
    rw [total_cons]
    -- the walk stays at its first node, arrives with its first edge, or goes on
    by_cases hs : G.src e = G.dst e
    · obtain ⟨f, n, hf, hn⟩ := ih hw (hs ▸ hxz)
      exact ⟨f, n, by rw [hs]; exact hf, by omega⟩
    obtain ⟨f, m, hf, hm⟩ := hc.edge e he hs
    by_cases hd : G.dst e = z
    · subst hd
      exact ⟨f, m, hf, by omega⟩
    · obtain ⟨g, n, hg, hn⟩ := ih hw hd
      obtain ⟨k, l, hk, hl⟩ := hc.triangle _ _ _ f m g n hs hxz hd hf hg
      exact ⟨k, l, hk, by omega⟩

variable [DecidableEq V] (hs : G.Sound T) (hc : G.Closed T) (hxz : x ≠ z) {n : ℕ}

include hs hc hxz

theorem Closed.eq_none_iff : T x z = none ↔ ¬ ∃ es, G.Walk x es z := by
  constructor
  · rintro hn ⟨es, hw⟩
    obtain ⟨e, n, he, _⟩ := hc.le_total hw hxz
    rw [hn] at he
    cases he
  · intro hn
    cases h : T x z with
    | none => rfl
    | some p =>
      obtain ⟨es, hw, _⟩ := hs x z p.1 p.2 h
      exact absurd ⟨_, hw⟩ hn

theorem Closed.isLeast (h : T x z = some (e, n)) :
    IsLeast {k | ∃ es, G.Walk x es z ∧ G.total es = k} n := by
  constructor
  · obtain ⟨es, hw, hn⟩ := hs x z e n h
    exact ⟨_, hw, hn⟩
  · rintro k ⟨es, hw, rfl⟩
    obtain ⟨f, m, hf, hm⟩ := hc.le_total hw hxz
    rw [h] at hf
    cases hf
    exact hm

/-- The first edge of an entry leads to the target or to a node whose entry is shorter by that edge.
-/
theorem Closed.next (h : T x z = some (e, n)) :
    e ∈ G.edges ∧ G.src e = x ∧
      ((G.dst e = z ∧ G.cost e = n) ∨
        (G.dst e ≠ z ∧ ∃ f m, T (G.dst e) z = some (f, m) ∧ G.cost e + m = n)) := by
  obtain ⟨es, ⟨he, hx, hw⟩, hn⟩ := hs x z e n h
  rw [total_cons] at hn
  have hleast := (hc.isLeast hs hxz h).2
  refine ⟨he, hx, ?_⟩
  by_cases hd : G.dst e = z
  · refine Or.inl ⟨hd, ?_⟩
    have hle : n ≤ G.cost e := hleast ⟨[e], ⟨he, hx, hd⟩, by simp⟩
    omega
  · obtain ⟨f, m, hf, hm⟩ := hc.le_total hw hd
    obtain ⟨fs, hwf, hmf⟩ := hs _ _ f m hf
    have hle : n ≤ G.cost e + m := hleast ⟨e :: f :: fs, ⟨he, hx, hwf⟩, by simp [← hmf]⟩
    exact Or.inr ⟨hd, f, m, hf, by omega⟩

end Graph

end Distances

end CallWeaver
