import Mathlib.Algebra.Order.Monoid.Unbundled.WithTop
import Mathlib.Data.DFinsupp.WellFounded
import Mathlib.Data.Finite.Prod
import CallWeaver.Base.Graphs
import CallWeaver.Base.Runs

/-! # The translation matrix

The matrix of the codec translators is seeded with the registered ones and then relaxed in place
until a whole round changes nothing. Each entry keeps the first translator of a chain and the cost
of the chain when the entry was made.
-/

namespace CallWeaver.Translate

open Distances List Prod

def maxFormat : ℕ := 32

/-- The part of `struct cw_translator` that path finding reads. -/
structure Translator where
  srcFormat : ℕ
  dstFormat : ℕ
  cost : ℕ
  deriving DecidableEq, Repr

/-- What the measurement of a translator comes to: it produces no samples, cannot be set up, fails
to produce one, or runs for some milliseconds. -/
inductive Bench where
  | noSample
  | noPvt
  | sampleFailed
  | elapsed (ms : ℤ)
  deriving DecidableEq, Repr

def calcCost (t : Translator) (secs : ℤ) (bench : Bench) : Translator :=
  let secs := if secs < 1 then 1 else secs
  match bench with
  | .noSample | .noPvt | .sampleFailed => { t with cost := 99999 }
  | .elapsed ms =>
    let cost := ms.tdiv secs
    { t with cost := if cost ≤ 0 then 1 else cost.toNat }

theorem calcCost_pos (t : Translator) (secs : ℤ) (bench : Bench) :
    1 ≤ (calcCost t secs bench).cost := by
  cases bench with
  | elapsed ms => simp only [calcCost]; split_ifs <;> omega
  | _ => simp [calcCost]

abbrev TrMatrix := ℕ → ℕ → Option (Translator × ℕ)

namespace TrMatrix

def empty : TrMatrix := fun _ _ => none

def set (m : TrMatrix) (x z : ℕ) (v : Translator × ℕ) : TrMatrix :=
  fun x' z' => if x' = x ∧ z' = z then some v else m x' z'

@[simp] theorem set_self (m : TrMatrix) (x z : ℕ) (v : Translator × ℕ) :
    m.set x z v x z = some v := by
  simp [set]

variable {m : TrMatrix}

theorem set_cases {x z x' z' : ℕ} {v w : Translator × ℕ} (h : m.set x z v x' z' = some w) :
    (x' = x ∧ z' = z ∧ w = v) ∨ m x' z' = some w := by
  unfold set at h
  split_ifs at h with he
  · exact .inl ⟨he.1, he.2, (Option.some.inj h).symm⟩
  · exact .inr h

end TrMatrix

/-- Enter a registered translator, unless a cheaper one has the same formats. -/
def seed (m : TrMatrix) (t : Translator) : TrMatrix :=
  match m t.srcFormat t.dstFormat with
  | none => m.set t.srcFormat t.dstFormat (t, t.cost)
  | some (_, cost) => if cost > t.cost then m.set t.srcFormat t.dstFormat (t, t.cost) else m

/-- The body of the loops of `rebuild_matrix`: go from `x` to `z` through `y` if that is new or
cheaper, and count the change. -/
def relax (x y z : ℕ) (s : TrMatrix × ℕ) : TrMatrix × ℕ :=
  if x ≠ z ∧ y ≠ z then
    match s.1 x y, s.1 y z with
    | some (t, a), some (_, b) =>
      match s.1 x z with
      | none => (s.1.set x z (t, a + b), s.2 + 1)
      | some (_, c) => if a + b < c then (s.1.set x z (t, a + b), s.2 + 1) else s
    | _, _ => s
  else s

/-- The inner loop of `rebuild_matrix`. -/
def relaxVia (x y : ℕ) (s : TrMatrix × ℕ) : TrMatrix × ℕ :=
  if x ≠ y then (range maxFormat).foldl (fun s z => relax x y z s) s else s

def relaxFrom (x : ℕ) (s : TrMatrix × ℕ) : TrMatrix × ℕ :=
  (range maxFormat).foldl (fun s y => relaxVia x y s) s

def relaxRound (m : TrMatrix) : TrMatrix × ℕ :=
  (range maxFormat).foldl (fun s x => relaxFrom x s) (m, 0)

/-- `rebuild_matrix` measures the costs anew if it is told to. -/
def recalculate (samples : ℤ) (bench : ℕ → Bench) (list : List Translator) : List Translator :=
  if samples ≠ 0 then list.mapIdx fun i t => calcCost t samples (bench i) else list

/-- With a bound on the rounds of its do-while loop. -/
def rebuildMatrix (fuel : ℕ) (samples : ℤ) (bench : ℕ → Bench) (list : List Translator) :
    Option TrMatrix :=
  doWhile relaxRound fuel ((recalculate samples bench list).foldl seed .empty)

/-- The loop of `cw_translator_build_path`, with a bound on its rounds. The inner `none` is the
failure to find a step or to set one up. -/
def buildLoop (newpvt : Translator → Bool) (m : TrMatrix) :
    ℕ → ℕ → ℕ → Option (Option (List Translator))
  | 0, _, _ => none
  | n + 1, source, dest =>
    if source = dest then some (some [])
    else
      match m source dest with
      | none => some none
      | some (t, _) =>
        if newpvt t then (buildLoop newpvt m n t.dstFormat dest).map (Option.map (t :: ·))
        else some none

/-- The lowest bit of a format set is found by the signal processing library. -/
def cwTranslatorBuildPath (bottomBit : ℕ → ℕ) (newpvt : Translator → Bool) (m : TrMatrix)
    (fuel dest source : ℕ) : Option (Option (List Translator)) :=
  buildLoop newpvt m fuel (bottomBit source) (bottomBit dest)

def formats (list : List Translator) : Distances.Graph ℕ Translator where
  edges := list
  src := Translator.srcFormat
  dst := Translator.dstFormat
  cost := Translator.cost

structure MatrixOk (list : List Translator) (m : TrMatrix) : Prop where
  sound : (formats list).Sound m
  range : ∀ x z v, m x z = some v → x < maxFormat ∧ z < maxFormat
  seeded : ∀ t ∈ list, ∃ u n, m t.srcFormat t.dstFormat = some (u, n) ∧ n ≤ t.cost

variable {list : List Translator} {m m' : TrMatrix} {t : Translator}

theorem seed_cases (m : TrMatrix) (t : Translator) :
    (seed m t = m ∧ ∃ u n, m t.srcFormat t.dstFormat = some (u, n) ∧ n ≤ t.cost) ∨
    (seed m t = m.set t.srcFormat t.dstFormat (t, t.cost) ∧
      ∀ u n, m t.srcFormat t.dstFormat = some (u, n) → t.cost ≤ n) := by
  unfold seed
  cases h : m t.srcFormat t.dstFormat with
  | none => exact .inr ⟨rfl, by simp⟩
  | some v =>
    obtain ⟨u, n⟩ := v
    dsimp only
    split_ifs with hlt
    · exact .inr ⟨rfl, by rintro _ _ ⟨⟩; omega⟩
    · exact .inl ⟨rfl, u, n, rfl, by omega⟩

theorem seed_sound (ht : t ∈ list) (hs : (formats list).Sound m) :
    (formats list).Sound (seed m t) := by
  rcases seed_cases m t with ⟨he, _⟩ | ⟨he, _⟩ <;> rw [he]
  · exact hs
  · intro x z e n h
    rcases TrMatrix.set_cases h with ⟨rfl, rfl, hv⟩ | h
    · cases hv
      exact ⟨[], Graph.Walk.single (G := formats list) ht, by simp [formats]⟩
    · exact hs x z e n h

theorem seed_range (ht : t.srcFormat < maxFormat ∧ t.dstFormat < maxFormat)
    (hr : ∀ x z v, m x z = some v → x < maxFormat ∧ z < maxFormat) :
    ∀ x z v, seed m t x z = some v → x < maxFormat ∧ z < maxFormat := by
  intro x z v h
  rcases seed_cases m t with ⟨he, _⟩ | ⟨he, _⟩ <;> rw [he] at h
  · exact hr x z v h
  · rcases TrMatrix.set_cases h with ⟨rfl, rfl, _⟩ | h
    · exact ht
    · exact hr x z v h

def Improves (m m' : TrMatrix) : Prop :=
  ∀ x z u n, m x z = some (u, n) → ∃ u' n', m' x z = some (u', n') ∧ n' ≤ n

theorem Improves.refl (m : TrMatrix) : Improves m m := fun _ _ u n h => ⟨u, n, h, le_rfl⟩

theorem Improves.set {x z : ℕ} {v : Translator × ℕ} (h : ∀ u n, m x z = some (u, n) → v.2 ≤ n) :
    Improves m (m.set x z v) := by
  intro x' z' u n hu
  by_cases he : x' = x ∧ z' = z
  · obtain ⟨rfl, rfl⟩ := he
    exact ⟨v.1, v.2, by simp, h u n hu⟩
  · exact ⟨u, n, by simp [TrMatrix.set, he, hu], le_rfl⟩

theorem seed_improves (m : TrMatrix) (t : Translator) : Improves m (seed m t) := by
  rcases seed_cases m t with ⟨he, _⟩ | ⟨he, hle⟩ <;> rw [he]
  · exact .refl m
  · exact .set hle

theorem seed_self (m : TrMatrix) (t : Translator) :
    ∃ u n, seed m t t.srcFormat t.dstFormat = some (u, n) ∧ n ≤ t.cost := by
  rcases seed_cases m t with ⟨he, u, n, hu, hn⟩ | ⟨he, _⟩ <;> rw [he]
  · exact ⟨u, n, hu, hn⟩
  · exact ⟨t, t.cost, by simp, le_rfl⟩

theorem seeded_of_improves (h : Improves m m')
    (hs : ∃ u n, m t.srcFormat t.dstFormat = some (u, n) ∧ n ≤ t.cost) :
    ∃ u n, m' t.srcFormat t.dstFormat = some (u, n) ∧ n ≤ t.cost := by
  obtain ⟨u, n, hu, hn⟩ := hs
  obtain ⟨u', n', hu', hn'⟩ := h _ _ u n hu
  exact ⟨u', n', hu', hn'.trans hn⟩

theorem foldl_seed_seeded (l : List Translator) (m : TrMatrix) :
    Improves m (l.foldl seed m) ∧ ∀ t ∈ l, ∃ u n,
      l.foldl seed m t.srcFormat t.dstFormat = some (u, n) ∧ n ≤ t.cost := by
  induction l generalizing m with
  | nil => exact ⟨.refl m, by simp⟩
  | cons t l ih =>
    obtain ⟨h₁, h₂⟩ := ih (seed m t)
    constructor
    · intro x z u n hu
      obtain ⟨u', n', hu', hn'⟩ := seed_improves m t x z u n hu
      obtain ⟨u'', n'', hu'', hn''⟩ := h₁ x z u' n' hu'
      exact ⟨u'', n'', hu'', hn''.trans hn'⟩
    · intro t' ht'
      rcases mem_cons.mp ht' with rfl | ht'
      · exact seeded_of_improves h₁ (seed_self m t')
      · exact h₂ t' ht'

theorem matrixOk_seeded (hl : ∀ t ∈ list, t.srcFormat < maxFormat ∧ t.dstFormat < maxFormat) :
    MatrixOk list (list.foldl seed .empty) where
  sound := foldlRecOn _ _ (motive := (formats list).Sound) (by rintro _ _ _ _ ⟨⟩)
    fun _ hs _ ht => seed_sound ht hs
  range := foldlRecOn _ _ (motive := fun m : TrMatrix => ∀ x z v, m x z = some v → _)
    (by rintro _ _ _ ⟨⟩) fun _ hr t ht => seed_range (hl t ht) hr
  seeded := (foldl_seed_seeded list .empty).2

section Relax

variable {x y z n : ℕ} {s : TrMatrix × ℕ}

theorem relax_cases (x y z : ℕ) (s : TrMatrix × ℕ) :
    (relax x y z s = s ∧ ∀ t a u b, x ≠ z → y ≠ z → s.1 x y = some (t, a) →
      s.1 y z = some (u, b) → ∃ v c, s.1 x z = some (v, c) ∧ c ≤ a + b) ∨
    ∃ t a u b, s.1 x y = some (t, a) ∧ s.1 y z = some (u, b) ∧
      (∀ v c, s.1 x z = some (v, c) → a + b < c) ∧
      relax x y z s = (s.1.set x z (t, a + b), s.2 + 1) := by
  unfold relax
  split_ifs with hne
  · cases hxy : s.1 x y with
    | none => exact .inl ⟨rfl, by simp⟩
    | some p =>
      cases hyz : s.1 y z with
      | none => exact .inl ⟨rfl, by simp⟩
      | some q =>
        obtain ⟨t, a⟩ := p
        obtain ⟨u, b⟩ := q
        cases hxz : s.1 x z with
        | none => exact .inr ⟨t, a, u, b, rfl, rfl, by simp, rfl⟩
        | some r =>
          obtain ⟨v, c⟩ := r
          dsimp only
          split_ifs with hlt
          · exact .inr ⟨t, a, u, b, rfl, rfl, by rintro _ _ ⟨⟩; exact hlt, rfl⟩
          · refine .inl ⟨rfl, ?_⟩
            rintro _ _ _ _ _ _ ⟨⟩ ⟨⟩
            exact ⟨v, c, rfl, by omega⟩
  · refine .inl ⟨rfl, fun _ _ _ _ h₁ h₂ => absurd ⟨h₁, h₂⟩ hne⟩

theorem matrixOk_relax (h : MatrixOk list s.1) : MatrixOk list (relax x y z s).1 := by
  rcases relax_cases x y z s with ⟨he, _⟩ | ⟨t, a, u, b, hxy, hyz, hlt, he⟩
  · rw [he]; exact h
  · rw [he]
    constructor
    · intro x' z' e n hv
      rcases TrMatrix.set_cases hv with ⟨rfl, rfl, hent⟩ | hv
      · cases hent
        obtain ⟨es, hw, ha⟩ := h.sound _ _ _ _ hxy
        obtain ⟨fs, hw', hb⟩ := h.sound _ _ _ _ hyz
        refine ⟨es ++ u :: fs, hw.append hw', ?_⟩
        rw [← cons_append, Graph.total_append, ha, hb]
      · exact h.sound x' z' e n hv
    · intro x' z' v hv
      rcases TrMatrix.set_cases hv with ⟨rfl, rfl, _⟩ | hv
      · exact ⟨(h.range _ _ _ hxy).1, (h.range _ _ _ hyz).2⟩
      · exact h.range x' z' v hv
    · intro t' ht'
      exact seeded_of_improves (.set fun v c hv => (hlt v c hv).le) (h.seeded t' ht')

def costs (m : TrMatrix) : Fin maxFormat × Fin maxFormat → WithTop ℕ :=
  fun p => match m p.1 p.2 with
    | none => ⊤
    | some (_, n) => (n : WithTop ℕ)

theorem costs_set_lt (hx : x < maxFormat) (hz : z < maxFormat)
    (h : ∀ v c, m x z = some (v, c) → n < c) : costs (m.set x z (t, n)) < costs m := by
  have hlt : costs (m.set x z (t, n)) (⟨x, hx⟩, ⟨z, hz⟩) < costs m (⟨x, hx⟩, ⟨z, hz⟩) := by
    simp only [costs, TrMatrix.set_self]
    cases hm : m x z with
    | none => exact WithTop.coe_lt_top n
    | some v => exact WithTop.coe_lt_coe.mpr (h v.1 v.2 hm)
  refine Pi.lt_def.mpr ⟨fun p => ?_, _, hlt⟩
  by_cases hp : p = (⟨x, hx⟩, ⟨z, hz⟩)
  · rw [hp]; exact hlt.le
  · have hne : ¬ ((p.1 : ℕ) = x ∧ (p.2 : ℕ) = z) := fun h' =>
      hp (Prod.ext (Fin.ext h'.1) (Fin.ext h'.2))
    simp [costs, TrMatrix.set, hne]

structure RoundOk (list : List Translator) (m : TrMatrix) (s : TrMatrix × ℕ) : Prop where
  ok : MatrixOk list s.1
  le : costs s.1 ≤ costs m
  lt : s.2 ≠ 0 → costs s.1 < costs m

theorem roundOk_relax (h : RoundOk list m s) : RoundOk list m (relax x y z s) := by
  have hok := matrixOk_relax (x := x) (y := y) (z := z) h.ok
  rcases relax_cases x y z s with ⟨he, _⟩ | ⟨t, a, u, b, hxy, hyz, hlt, he⟩ <;> rw [he] at hok ⊢
  · exact h
  · have hcost :=
      (costs_set_lt (t := t) (h.ok.range _ _ _ hxy).1 (h.ok.range _ _ _ hyz).2 hlt).trans_le h.le
    exact ⟨hok, hcost.le, fun _ => hcost⟩

theorem roundOk_relaxRound (h : MatrixOk list m) : RoundOk list m (relaxRound m) := by
  refine foldlRecOn _ _ ⟨h, le_rfl, fun h => absurd rfl h⟩ fun s hs x _ => ?_
  apply foldlRecOn _ _ hs
  intro s hs y _
  unfold relaxVia
  split_ifs
  · exact foldlRecOn _ _ hs fun s hs z _ => roundOk_relax hs
  · exact hs

theorem countsChanges_relax (x y z : ℕ) : CountsChanges snd (relax x y z) where
  mono s := by
    rcases relax_cases x y z s with ⟨he, _⟩ | ⟨t, a, u, b, _, _, _, he⟩ <;> simp [he]
  fixed s h := by
    rcases relax_cases x y z s with ⟨he, _⟩ | ⟨t, a, u, b, _, _, _, he⟩
    · exact he
    · simp [he] at h

theorem countsChanges_relaxVia (x y : ℕ) : CountsChanges snd (relaxVia x y) := by
  unfold relaxVia
  split_ifs
  · exact CountsChanges.foldl (countsChanges_relax x y) _
  · exact ⟨fun _ => le_rfl, fun _ _ => rfl⟩

theorem countsChanges_relaxFrom (x : ℕ) : CountsChanges snd (relaxFrom x) :=
  CountsChanges.foldl (countsChanges_relaxVia x) _

theorem relax_eq_self_of_round (h : (relaxRound m).2 = 0) :
    (relaxRound m).1 = m ∧ ∀ x y z, x < maxFormat → y < maxFormat → z < maxFormat → x ≠ y →
      relax x y z (m, 0) = (m, 0) := by
  obtain ⟨he, hx⟩ := CountsChanges.foldl_fixed countsChanges_relaxFrom (s := (m, 0)) h
  refine ⟨congrArg fst he, fun x y z hlx hly hlz hne => ?_⟩
  obtain ⟨_, hy⟩ := CountsChanges.foldl_fixed (countsChanges_relaxVia x)
    (congrArg snd (hx x (mem_range.mpr hlx)))
  have hz := hy y (mem_range.mpr hly)
  rw [relaxVia, if_pos hne] at hz
  exact (CountsChanges.foldl_fixed (countsChanges_relax x y) (congrArg snd hz)).2 z
    (mem_range.mpr hlz)

theorem closed_of_round (hm : MatrixOk list m) (h : (relaxRound m).2 = 0) :
    (formats list).Closed m where
  edge t ht _ := hm.seeded t ht
  triangle x y z t a u b hxy hxz hyz ht hu := by
    have hfix := (relax_eq_self_of_round h).2 x y z (hm.range _ _ _ ht).1 (hm.range _ _ _ ht).2
      (hm.range _ _ _ hu).2 hxy
    rcases relax_cases x y z (m, 0) with ⟨_, hle⟩ | ⟨_, _, _, _, _, _, _, he⟩
    · exact hle t a u b hxz hyz ht hu
    · rw [he] at hfix
      exact absurd (congrArg snd hfix) (by simp)

end Relax

section Rebuild

variable {samples : ℤ} {bench : ℕ → Bench}

theorem recalculate_range (hl : ∀ t ∈ list, t.srcFormat < maxFormat ∧ t.dstFormat < maxFormat) :
    ∀ t ∈ recalculate samples bench list, t.srcFormat < maxFormat ∧ t.dstFormat < maxFormat := by
  unfold recalculate
  split_ifs
  · intro t ht
    obtain ⟨i, hi, rfl⟩ := mem_mapIdx.mp ht
    cases hb : bench i <;> simpa [calcCost] using hl _ (getElem_mem hi)
  · exact hl

theorem recalculate_pos (hc : samples = 0 → ∀ t ∈ list, 1 ≤ t.cost) :
    ∀ t ∈ recalculate samples bench list, 1 ≤ t.cost := by
  unfold recalculate
  split_ifs with h
  · intro t ht
    obtain ⟨i, _, rfl⟩ := mem_mapIdx.mp ht
    exact calcCost_pos _ samples (bench i)
  · exact hc (not_not.mp h)

theorem rebuildMatrix_terminates (samples : ℤ) (bench : ℕ → Bench)
    (hl : ∀ t ∈ list, t.srcFormat < maxFormat ∧ t.dstFormat < maxFormat) :
    ∃ n m, (∀ fuel ≥ n, rebuildMatrix fuel samples bench list = some m) ∧
      (formats (recalculate samples bench list)).Sound m ∧
      (formats (recalculate samples bench list)).Closed m := by
  have hs : MatrixOk (recalculate samples bench list) _ := matrixOk_seeded (recalculate_range hl)
  have hI : ∀ m, MatrixOk (recalculate samples bench list) m →
      MatrixOk (recalculate samples bench list) (relaxRound m).1 :=
    fun m hm => (roundOk_relaxRound hm).ok
  obtain ⟨n, m, hm, hok, h0⟩ :=
    doWhile_terminates costs hI (fun m hm => (roundOk_relaxRound hm).lt) hs
  rw [(relax_eq_self_of_round h0).1] at hm
  exact ⟨n, m, hm, hok.sound, closed_of_round hok h0⟩

theorem buildLoop_eq_some {newpvt : Translator → Bool} (hs : (formats list).Sound m)
    (hcl : (formats list).Closed m) (hc : ∀ t ∈ list, 1 ≤ t.cost)
    (hnew : ∀ t ∈ list, newpvt t = true) {x z n : ℕ} (hxz : x ≠ z) (h : m x z = some (t, n)) :
    ∃ ts, (∀ fuel > n, buildLoop newpvt m fuel x z = some (some ts)) ∧
      (formats list).Walk x ts z ∧ (formats list).total ts = n := by
  induction n using Nat.strong_induction_on generalizing x t with
  | _ n ih =>
    obtain ⟨ht, hx, hnext⟩ := hcl.next hs hxz h
    have hpos : 1 ≤ t.cost := hc t ht
    have hstep : ∀ fuel, buildLoop newpvt m (fuel + 1) x z =
        (buildLoop newpvt m fuel t.dstFormat z).map (Option.map (t :: ·)) := by
      intro fuel
      simp [buildLoop, hxz, h, hnew t ht]
    rcases hnext with ⟨hd, hn⟩ | ⟨hd, u, k, hu, hk⟩
    · change t.dstFormat = z at hd
      change t.cost = n at hn
      refine ⟨[t], fun fuel hf => ?_, ⟨ht, hx, hd⟩, by rw [Graph.total_cons]; exact hn⟩
      obtain ⟨j, rfl⟩ : ∃ j, fuel = j + 2 := ⟨fuel - 2, by omega⟩
      rw [hstep, hd]
      simp [buildLoop]
    · change t.dstFormat ≠ z at hd
      change t.cost + k = n at hk
      obtain ⟨ts, hts, hw, htot⟩ := ih k (by omega) hd hu
      refine ⟨t :: ts, fun fuel hf => ?_, ⟨ht, hx, hw⟩, by rw [Graph.total_cons, htot]; exact hk⟩
      obtain ⟨j, rfl⟩ := exists_round hf
      rw [hstep, hts j (by omega)]
      rfl

/-- Rebuilding the matrix ends. A step is missing only where no chain of translators leads, a stored
cost is the least one of a chain, and building a path ends with a chain of that cost. -/
theorem rebuildMatrix_optimal (list : List Translator) (samples : ℤ) (bench : ℕ → Bench)
    (hl : ∀ t ∈ list, t.srcFormat < maxFormat ∧ t.dstFormat < maxFormat)
    (hc : samples = 0 → ∀ t ∈ list, 1 ≤ t.cost) (bottomBit : ℕ → ℕ)
    (hb : ∀ i < maxFormat, bottomBit (2 ^ i) = i) (newpvt : Translator → Bool)
    (hnew : ∀ t ∈ recalculate samples bench list, newpvt t = true) :
    ∃ n m, (∀ fuel ≥ n, rebuildMatrix fuel samples bench list = some m) ∧ ∀ x z, x < maxFormat →
      z < maxFormat → x ≠ z →
        (m x z = none ↔ ¬ ∃ ts, (formats (recalculate samples bench list)).Walk x ts z) ∧
        ∀ t c, m x z = some (t, c) →
          IsLeast {k | ∃ ts, (formats (recalculate samples bench list)).Walk x ts z ∧
            (formats (recalculate samples bench list)).total ts = k} c ∧
          ∃ k ts,
          (∀ fuel ≥ k, cwTranslatorBuildPath bottomBit newpvt m fuel (2 ^ z) (2 ^ x) =
            some (some ts)) ∧ (formats (recalculate samples bench list)).Walk x ts z ∧
            (formats (recalculate samples bench list)).total ts = c := by
  obtain ⟨n, m, hm, hs, hcl⟩ := rebuildMatrix_terminates samples bench hl
  refine ⟨n, m, hm, fun x z hx hz hxz => ⟨hcl.eq_none_iff hs hxz, fun t c h => ?_⟩⟩
  obtain ⟨ts, hts, hw, htot⟩ := buildLoop_eq_some hs hcl (recalculate_pos hc) hnew hxz h
  refine ⟨hcl.isLeast hs hxz h, c + 1, ts, fun fuel hf => ?_, hw, htot⟩
  rw [cwTranslatorBuildPath, hb x hx, hb z hz]
  exact hts fuel hf

def threeTranslators : List Translator := [⟨0, 1, 2⟩, ⟨1, 2, 3⟩, ⟨0, 2, 9⟩]

theorem rebuildMatrix_optimal_threeTranslators :
    ∃ n m, (∀ fuel ≥ n, rebuildMatrix fuel 0 (fun _ => .noSample) threeTranslators = some m) ∧
      ∃ t c, m 0 2 = some (t, c) ∧ c ≤ 5 := by
  obtain ⟨n, m, hm, h⟩ := rebuildMatrix_optimal threeTranslators 0 (fun _ => .noSample)
    (by decide) (by decide) Nat.log2 (by decide) (fun _ => true) (by decide)
  obtain ⟨hnone, hsome⟩ := h 0 2 (by decide) (by decide) (by decide)
  have hw : (formats threeTranslators).Walk 0 [⟨0, 1, 2⟩, ⟨1, 2, 3⟩] 2 := by
    simp [Graph.Walk, formats, threeTranslators]
  refine ⟨n, m, hm, ?_⟩
  cases h02 : m 0 2 with
  | none => exact absurd ⟨_, hw⟩ (hnone.mp h02)
  | some v => exact ⟨v.1, v.2, rfl, (hsome v.1 v.2 h02).1.2 ⟨_, hw, rfl⟩⟩

end Rebuild

end CallWeaver.Translate
