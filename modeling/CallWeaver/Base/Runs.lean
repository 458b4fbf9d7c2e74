import Mathlib.Data.List.Basic
import Mathlib.Order.WellFounded

/-! # Runs and loops

A run is a finite sequence of labelled steps of a partial transition function that meet a side
condition. Invariants and history lemmas are proved for one step and lifted to runs. Loops are
bounded by a number of rounds, fold over a list or go around a cycle. A traced computation records
events, and is safe if they are good and it ends.
-/

namespace CallWeaver

open Option List

section Runs

variable {σ α β : Type*}

/-- Finite runs of `step` all of whose steps satisfy the side condition `G`. -/
inductive Runs (step : σ → α → Option σ) (G : σ → α → σ → Prop) : σ → List α → σ → Prop where
  | nil (s : σ) : Runs step G s [] s
  | cons {s t u : σ} {a : α} {as : List α} : step s a = some t → G s a t →
      Runs step G t as u → Runs step G s (a :: as) u

def anyStep (_ : σ) (_ : α) (_ : σ) : Prop := True
  deriving Decidable

namespace Runs

variable {step : σ → α → Option σ} {G H : σ → α → σ → Prop} {s t u : σ} {a : α} {as bs : List α}

theorem single (h : step s a = some t) (hg : G s a t) : Runs step G s [a] t :=
  .cons h hg (.nil t)

theorem cons_iff (h : step s a = some t) :
    Runs step G s (a :: as) u ↔ G s a t ∧ Runs step G t as u := by
  constructor
  · intro hr
    cases hr with
    | cons hs hg hr =>
      obtain rfl := Option.some.inj (h.symm.trans hs)
      exact ⟨hg, hr⟩
  · exact fun hr => .cons h hr.1 hr.2

theorem append (h : Runs step G s as t) (h' : Runs step G t bs u) : Runs step G s (as ++ bs) u := by
  induction h with
  | nil => exact h'
  | cons hs hg _ ih => exact .cons hs hg (ih h')

theorem mono (h : Runs step G s as t) (hle : ∀ s a t, G s a t → H s a t) : Runs step H s as t := by
  induction h with
  | nil => exact .nil _
  | cons hs hg _ ih => exact .cons hs (hle _ _ _ hg) ih

variable {I P : σ → Prop}

theorem invariant (hstep : ∀ s a t, I s → step s a = some t → G s a t → I t)
    (h : Runs step G s as t) (hi : I s) : I t := by
  induction h with
  | nil => exact hi
  | cons hs hg _ ih => exact ih (hstep _ _ _ hi hs hg)

/-- A transitive relation established by every step from an invariant state relates both ends of a
run. -/
theorem relation {R : σ → σ → Prop}
    (hstep : ∀ s a t, I s → step s a = some t → G s a t → I t ∧ R s t) (hrefl : ∀ s, R s s)
    (htrans : ∀ s t u, R s t → R t u → R s u) (h : Runs step G s as t) (hi : I s) : R s t := by
  induction h with
  | nil => exact hrefl _
  | cons hs hg _ ih =>
    obtain ⟨hi', hr⟩ := hstep _ _ _ hi hs hg
    exact htrans _ _ _ hr (ih hi')

theorem simulates {f : β → α → β} {R : σ → β → Prop} {b : β}
    (hstep : ∀ s b a t, R s b → step s a = some t → G s a t → R t (f b a)) (h : Runs step G s as t)
    (hr : R s b) : R t (as.foldl f b) := by
  induction h generalizing b with
  | nil => exact hr
  | cons hs hg _ ih => exact ih (hstep _ _ _ _ hr hs hg)

variable {C D : σ → α → σ → Prop}

/-- If a step keeps a property exactly when it meets a condition, then the property holds at the end
of a run iff it holds at the start and every step meets the condition. -/
theorem iff_all (hstep : ∀ s a t, I s → step s a = some t → G s a t → I t ∧ (P t ↔ P s ∧ C s a t))
    (h : Runs step G s as t) (hi : I s) :
    P t ↔ P s ∧ Runs step (fun s a t => G s a t ∧ C s a t) s as t := by
  induction h with
  | nil s => exact ⟨fun hp => ⟨hp, .nil s⟩, fun hp => hp.1⟩
  | cons hs hg _ ih =>
    obtain ⟨hi', hiff⟩ := hstep _ _ _ hi hs hg
    rw [ih hi', hiff, cons_iff hs, and_iff_right hg, and_assoc]

/-- If a step keeps a property exactly when it meets a condition, then a run that starts with the
property keeps it throughout iff every step meets the condition. -/
theorem always_iff
    (hstep : ∀ s a t, I s → P s → step s a = some t → G s a t → I t ∧ (P t ↔ C s a t))
    (h : Runs step G s as t) (hi : I s) (hp : P s) :
    Runs step (fun _ _ t => P t) s as t ↔ Runs step C s as t := by
  induction h with
  | nil s => exact ⟨fun _ => .nil s, fun _ => .nil s⟩
  | cons hs hg _ ih =>
    obtain ⟨hi', hiff⟩ := hstep _ _ _ hi hp hs hg
    rw [cons_iff hs, cons_iff hs, ← hiff]
    exact and_congr_right (ih hi')

/-- Two conditions that agree on the states of an invariant, kept by steps with the first one. -/
theorem iff_of_invariant
    (hstep : ∀ s a t, I s → step s a = some t → (C s a t ↔ D s a t) ∧ (C s a t → I t)) (hi : I s) :
    Runs step C s as t ↔ Runs step D s as t := by
  constructor
  · intro h
    induction h with
    | nil s => exact .nil s
    | cons hs hc _ ih =>
      obtain ⟨hiff, hi'⟩ := hstep _ _ _ hi hs
      exact .cons hs (hiff.mp hc) (ih (hi' hc))
  · intro h
    induction h with
    | nil s => exact .nil s
    | cons hs hd _ ih =>
      obtain ⟨hiff, hi'⟩ := hstep _ _ _ hi hs
      exact .cons hs (hiff.mpr hd) (ih (hi' (hiff.mpr hd)))

end Runs

/-- Execute a list of labels, checking the side condition at every step. -/
def exec (step : σ → α → Option σ) (G : σ → α → σ → Prop) [∀ s a t, Decidable (G s a t)] :
    σ → List α → Option σ
  | s, [] => some s
  | s, a :: as => match step s a with
    | none => none
    | some t => if G s a t then exec step G t as else none

variable {step : σ → α → Option σ} {G : σ → α → σ → Prop} {as : List α} {s t : σ} {P Q : σ → Prop}

theorem exec_eq_some_iff [∀ s a t, Decidable (G s a t)] :
    exec step G s as = some t ↔ Runs step G s as t := by
  induction as generalizing s with
  | nil =>
    constructor
    · intro h; cases h; exact .nil _
    · intro h; cases h; rfl
  | cons a as ih =>
    constructor
    · intro h
      simp only [exec] at h
      split at h
      · cases h
      · split at h
        · exact .cons ‹_› ‹_› (ih.mp h)
        · cases h
    · intro h
      cases h with
      | cons hs hg hr => simp only [exec, hs, hg, if_true]; exact ih.mpr hr

theorem exists_runs_of_exec [∀ s a t, Decidable (G s a t)] [DecidablePred P]
    (h : (exec step G s as).any (fun t => P t) = true) : ∃ t, Runs step G s as t ∧ P t := by
  obtain ⟨t, ht, hp⟩ := (Option.any_eq_true ..).mp h
  exact ⟨t, exec_eq_some_iff.mp ht, of_decide_eq_true hp⟩

theorem exists_run_of_any [∀ s a t, Decidable (G s a t)] [DecidablePred P]
    (h : (exec step G s as).any (fun t => P t) = true) (hq : ∀ t, Runs step G s as t → P t → Q t) :
    ∃ t, Runs step G s as t ∧ Q t := by
  obtain ⟨t, ht, hp⟩ := exists_runs_of_exec h
  exact ⟨t, ht, hq t ht hp⟩

theorem exists_run_of_exec [∀ s a t, Decidable (G s a t)] (h : exec step G s as = some t)
    (hp : Runs step G s as t → P t) : ∃ t, Runs step G s as t ∧ P t :=
  ⟨t, exec_eq_some_iff.mp h, hp (exec_eq_some_iff.mp h)⟩

end Runs

section Loops

variable {σ α β : Type*}

/-- A bound that is not reached yet leaves another round. -/
theorem exists_round {m n : ℕ} (h : m < n) : ∃ k, n = k + 1 := ⟨n - 1, by omega⟩

/-- A do-while loop, given up after a number of rounds; a nonzero result asks for another round. -/
def doWhile (body : σ → σ × ℕ) : ℕ → σ → Option σ
  | 0, _ => none
  | n + 1, s => if (body s).2 ≠ 0 then doWhile body n (body s).1 else some (body s).1

/-- A loop whose further rounds decrease a well-founded measure ends. -/
theorem doWhile_terminates [LT β] [WellFoundedLT β] {body : σ → σ × ℕ} {I : σ → Prop} (μ : σ → β)
    (hI : ∀ s, I s → I (body s).1) (hμ : ∀ s, I s → (body s).2 ≠ 0 → μ (body s).1 < μ s) {s : σ}
    (hs : I s) : ∃ n t, (∀ m ≥ n, doWhile body m s = some (body t).1) ∧ I t ∧ (body t).2 = 0 := by
  induction hb : μ s using WellFoundedLT.induction generalizing s with
  | ind b ih =>
    by_cases hc : (body s).2 = 0
    · refine ⟨1, s, fun m hm => ?_, hs, hc⟩
      obtain ⟨k, rfl⟩ := Nat.exists_eq_add_of_le' hm
      simp [doWhile, hc]
    · obtain ⟨n, t, ht, hI⟩ := ih _ (hb ▸ hμ s hs hc) (hI s hs) rfl
      refine ⟨n + 1, t, fun m hm => ?_, hI⟩
      obtain ⟨k, rfl⟩ := Nat.exists_eq_add_of_le' (Nat.le_of_add_left_le hm)
      rw [doWhile, if_pos hc]
      exact ht k (by omega)

/-- A result of `x` is one of `y` as well. -/
def Within (x y : Option α) : Prop := ∀ a, x = some a → y = some a

namespace Within

variable {x y x' y' : Option α}

theorem refl : Within x x := fun _ h => h

theorem none : Within (none : Option α) x := nofun

theorem bind {f g : α → Option β} (h : Within x y) (hf : ∀ a, Within (f a) (g a)) :
    Within (x.bind f) (y.bind g) := by
  intro b hb
  obtain ⟨a, ha, hb⟩ := bind_eq_some_iff.mp hb
  exact bind_eq_some_iff.mpr ⟨a, h a ha, hf a b hb⟩

theorem ite {p : Prop} [Decidable p] (h : Within x y) (h' : Within x' y') :
    Within (if p then x else x') (if p then y else y') := by
  split_ifs
  · exact h
  · exact h'

variable {f : ℕ → Option α} {m n : ℕ}

variable (h : ∀ n, Within (f n) (f (n + 1)))

include h

theorem of_le (hmn : m ≤ n) : Within (f m) (f n) := by
  induction hmn with
  | refl => exact refl
  | step _ ih => exact fun a ha => h _ a (ih a ha)

theorem unique {a b : α} (ha : f m = some a) (hb : f n = some b) : a = b := by
  have hab := of_le h (Nat.le_max_left m n) a ha
  rw [of_le h (Nat.le_max_right m n) b hb] at hab
  exact (some.inj hab).symm

end Within

/-- A step that counts its changes: one that keeps the count changes nothing. -/
structure CountsChanges (c : σ → ℕ) (f : σ → σ) : Prop where
  mono : ∀ s, c s ≤ c (f s)
  fixed : ∀ s, c (f s) = c s → f s = s

variable {c : σ → ℕ} {f : σ → α → σ} {l : List α} {s : σ} {x y n e fuel : ℕ}

section

variable (h : ∀ a, CountsChanges c (f · a))

include h

theorem CountsChanges.foldl_mono (l : List α) (s : σ) : c s ≤ c (l.foldl f s) :=
  foldlRecOn l f (motive := fun t => c s ≤ c t) (Nat.le_refl _)
    fun t ht a _ => Nat.le_trans ht ((h a).mono t)

theorem CountsChanges.foldl_fixed (hs : c (l.foldl f s) = c s) :
    l.foldl f s = s ∧ ∀ a ∈ l, f s a = s := by
  induction l with
  | nil => exact ⟨rfl, by simp⟩
  | cons a l ih =>
    have hle : c (f s a) ≤ c (l.foldl f (f s a)) := CountsChanges.foldl_mono h l _
    have hsa : c (f s a) = c s :=
      Nat.le_antisymm (by rw [← hs]; exact hle) ((h a).mono s)
    have he : f s a = s := (h a).fixed s hsa
    rw [foldl_cons, he] at hs ⊢
    obtain ⟨h₁, h₂⟩ := ih hs
    refine ⟨h₁, fun b hb => ?_⟩
    rcases mem_cons.mp hb with rfl | hb
    · exact he
    · exact h₂ b hb

theorem CountsChanges.foldl (l : List α) : CountsChanges c (l.foldl f ·) :=
  ⟨CountsChanges.foldl_mono h l, fun _ hs => (CountsChanges.foldl_fixed h hs).1⟩

end

/-- A loop from `x` to `e` around the numbers below `n`, both ends included. -/
def forCyclic (n e : ℕ) (mark : ℕ → σ → σ) : ℕ → ℕ → σ → σ
  | 0, x, s => mark x s
  | fuel + 1, x, s =>
    if x = e then mark x s else forCyclic n e mark fuel ((x + 1) % n) (mark x s)

/-- The numbers that are met on the way from `x` to `e` around a cycle. -/
def Between (x e y : ℕ) : Prop := if x ≤ e then x ≤ y ∧ y ≤ e else x ≤ y ∨ y ≤ e
  deriving Decidable

theorem between_self : Between x x y ↔ y = x := by
  simp only [Between, Nat.le_refl, if_true]
  omega

theorem between_succ (hx : x < n) (he : e < n) (hy : y < n) (hne : x ≠ e) :
    Between x e y ↔ y = x ∨ Between ((x + 1) % n) e y := by
  unfold Between
  by_cases hn : x + 1 = n
  · rw [hn, Nat.mod_self]
    split_ifs <;> omega
  · rw [Nat.mod_eq_of_lt (by omega)]
    split_ifs <;> omega

/-- The loop marks the numbers between its ends, if the fuel lasts for the way that is left. -/
theorem forCyclic_marks {mark : ℕ → σ → σ} {P : σ → Prop} (he : e < n) (hy : y < n)
    (hmark : ∀ x s, x < n → (P (mark x s) ↔ y = x ∨ P s)) (hx : x < n)
    (hfuel : (if x ≤ e then e - x else e + n - x) ≤ fuel) :
    P (forCyclic n e mark fuel x s) ↔ Between x e y ∨ P s := by
  induction fuel generalizing x s with
  | zero =>
    have hxe : x = e := by split_ifs at hfuel <;> omega
    rw [forCyclic, hmark x s hx, hxe, between_self]
  | succ fuel ih =>
    by_cases hxe : x = e
    · rw [forCyclic, if_pos hxe, hmark x s hx, hxe, between_self]
    · have hnext : (x + 1) % n < n := Nat.mod_lt _ (by omega)
      have hleft : (if (x + 1) % n ≤ e then e - (x + 1) % n else e + n - (x + 1) % n) ≤ fuel := by
        by_cases hn : x + 1 = n
        · rw [hn, Nat.mod_self]
          split_ifs at hfuel ⊢ <;> omega
        · rw [Nat.mod_eq_of_lt (by omega)]
          split_ifs at hfuel ⊢ <;> omega
      rw [forCyclic, if_neg hxe, ih hnext hleft, hmark x s hx, between_succ hx he hy hxe]
      tauto

end Loops

variable {ε ρ α β : Type}

/-- How a computation ends: it is still running, it has returned, or it goes on with a value. -/
inductive Flow (ρ α : Type) where
  | running
  | returned (r : ρ)
  | next (a : α)

structure Traced (ε ρ α : Type) where
  trace : List ε
  flow : Flow ρ α

namespace Traced

def running : Traced ε ρ α := ⟨[], .running⟩

def ret (r : ρ) : Traced ε ρ α := ⟨[], .returned r⟩

def emit (e : ε) : Traced ε ρ Unit := ⟨[e], .next ()⟩

instance : Monad (Traced ε ρ) where
  pure a := ⟨[], .next a⟩
  bind m f := match m.flow with
    | .running => ⟨m.trace, .running⟩
    | .returned r => ⟨m.trace, .returned r⟩
    | .next a => ⟨m.trace ++ (f a).trace, (f a).flow⟩

/-- All events are good, and the computation returns or goes on with a value in `Q`. -/
def Safe (good : ε → Prop) (m : Traced ε ρ α) (Q : α → Prop) : Prop :=
  (∀ e ∈ m.trace, good e) ∧ match m.flow with
    | .running => False
    | .returned _ => True
    | .next a => Q a

variable {good : ε → Prop} {m m' n n' : Traced ε ρ α} {f f' : α → Traced ε ρ β} {Q R : α → Prop}

@[simp] theorem safe_running : (running : Traced ε ρ α).Safe good Q ↔ False := by
  simp [Safe, running]

@[simp] theorem safe_ret (r : ρ) : (ret r : Traced ε ρ α).Safe good Q ↔ True := by
  simp [Safe, ret]

@[simp] theorem safe_pure (a : α) : (pure a : Traced ε ρ α).Safe good Q ↔ Q a := by
  simp [Safe, pure]

@[simp] theorem safe_emit (e : ε) (P : Unit → Prop) :
    (emit e : Traced ε ρ Unit).Safe good P ↔ good e ∧ P () := by
  simp [Safe, emit]

@[simp] theorem safe_bind (P : β → Prop) :
    (m >>= f).Safe good P ↔ m.Safe good fun a => (f a).Safe good P := by
  obtain ⟨trace, flow⟩ := m
  cases flow with
  | running => rfl
  | returned r => rfl
  | next a =>
    show (∀ e ∈ trace ++ (f a).trace, good e) ∧ _ ↔ (∀ e ∈ trace, good e) ∧ (f a).Safe good P
    simp only [List.mem_append, or_imp, forall_and, and_assoc, Safe]
    rfl

theorem safe_congr (h : ∀ a, Q a ↔ R a) : m.Safe good Q ↔ m.Safe good R := by
  rw [show Q = R from funext fun a => propext (h a)]

/-- A computation that is still running may do anything with more fuel; others do the same. -/
def Le (m m' : Traced ε ρ α) : Prop := m.flow = .running ∨ m = m'

theorem Le.refl (m : Traced ε ρ α) : m.Le m := .inr rfl

theorem Le.bind (hm : m.Le m') (hf : ∀ a, (f a).Le (f' a)) : (m >>= f).Le (m' >>= f') := by
  obtain ⟨trace, flow⟩ := m
  rcases hm with hm | rfl
  · obtain rfl : flow = .running := hm
    exact .inl rfl
  · cases flow with
    | running => exact .inl rfl
    | returned r => exact .inr rfl
    | next a =>
      rcases hf a with hrun | heq
      · exact .inl hrun
      · refine .inr ?_
        show (⟨trace ++ (f a).trace, (f a).flow⟩ : Traced ε ρ β) =
          ⟨trace ++ (f' a).trace, (f' a).flow⟩
        rw [heq]

theorem Le.ite {P : Prop} [Decidable P] (hm : m.Le m') (hn : n.Le n') :
    Le (if P then m else n) (if P then m' else n') := by
  split
  · exact hm
  · exact hn

theorem Safe.le (h : m.Safe good Q) (hm : m.Le m') : m'.Safe good Q := by
  rcases hm with hm | rfl
  · rw [Safe, hm] at h
    exact h.2.elim
  · exact h

end Traced

end CallWeaver
