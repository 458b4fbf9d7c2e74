import Mathlib.Tactic.Ring
import Mathlib.Tactic.Linarith

/-! # Time values

`struct timeval` with the arithmetic of the time header and the utility library. With microseconds
in range, the lexicographic test of the scheduler is the order of time and addition is exact.
-/

namespace CallWeaver

/-- `struct timeval` -/
structure Timeval where
  sec : ℤ
  usec : ℤ
  deriving DecidableEq, Repr

namespace Timeval

def Normal (t : Timeval) : Prop := 0 ≤ t.usec ∧ t.usec < 1000000
  deriving Decidable

def micros (t : Timeval) : ℤ := t.sec * 1000000 + t.usec

end Timeval

/-- A reading of the clock, with the microseconds in range. -/
structure Instant where
  tv : Timeval
  normal : tv.Normal

def Instant.ofSec (sec : ℤ) : Instant := ⟨⟨sec, 0⟩, by simp [Timeval.Normal]⟩

def sooner (a b : Timeval) : Bool :=
  decide (b.sec > a.sec) || (decide (b.sec = a.sec) && decide (b.usec > a.usec))

theorem sooner_iff {a b : Timeval} (ha : a.Normal) (hb : b.Normal) :
    sooner a b = true ↔ a.micros < b.micros := by
  simp only [sooner, Bool.or_eq_true, Bool.and_eq_true, decide_eq_true_eq, Timeval.Normal,
    Timeval.micros] at *
  omega

theorem not_sooner_iff {a b : Timeval} (ha : a.Normal) (hb : b.Normal) :
    sooner a b = false ↔ b.micros ≤ a.micros := by
  rw [← Bool.not_eq_true, sooner_iff ha hb, not_lt]

/-- Put a time into the valid range. The carry of an overlong count of microseconds is added with
the remainder, as the source has it. -/
def tvfix (a : Timeval) : Timeval :=
  if a.usec ≥ 1000000 then ⟨a.sec + a.usec.tmod 1000000, a.usec.tmod 1000000⟩
  else if a.usec < 0 then ⟨a.sec, 0⟩
  else a

theorem tvfix_of_normal {a : Timeval} (h : a.Normal) : tvfix a = a := by
  unfold Timeval.Normal at h
  rw [tvfix, if_neg (by omega), if_neg (by omega)]

def cwTvadd (a b : Timeval) : Timeval :=
  let a := tvfix a
  let b := tvfix b
  let sec := a.sec + b.sec
  let usec := a.usec + b.usec
  if usec ≥ 1000000 then ⟨sec + 1, usec - 1000000⟩ else ⟨sec, usec⟩

def cwTvsub (a b : Timeval) : Timeval :=
  let a := tvfix a
  let b := tvfix b
  let sec := a.sec - b.sec
  let usec := a.usec - b.usec
  if usec < 0 then ⟨sec - 1, usec + 1000000⟩ else ⟨sec, usec⟩

variable {a b : Timeval}

theorem cwTvadd_fixed (ha : (tvfix a).Normal) (hb : (tvfix b).Normal) :
    (cwTvadd a b).Normal ∧ (cwTvadd a b).micros = (tvfix a).micros + (tvfix b).micros := by
  unfold Timeval.Normal at *
  simp only [cwTvadd, Timeval.micros]
  split <;> dsimp only <;> omega

theorem cwTvsub_fixed (ha : (tvfix a).Normal) (hb : (tvfix b).Normal) :
    (cwTvsub a b).Normal ∧ (cwTvsub a b).micros = (tvfix a).micros - (tvfix b).micros := by
  unfold Timeval.Normal at *
  simp only [cwTvsub, Timeval.micros]
  split <;> dsimp only <;> omega

theorem cwTvadd_normal (ha : a.Normal) (hb : b.Normal) : (cwTvadd a b).Normal :=
  (cwTvadd_fixed (by rwa [tvfix_of_normal ha]) (by rwa [tvfix_of_normal hb])).1

theorem cwTvadd_micros (ha : a.Normal) (hb : b.Normal) :
    (cwTvadd a b).micros = a.micros + b.micros := by
  rw [(cwTvadd_fixed (by rwa [tvfix_of_normal ha]) (by rwa [tvfix_of_normal hb])).2,
    tvfix_of_normal ha, tvfix_of_normal hb]

/-- The remainder that `tvfix` adds to the seconds is the carry, or there is none. -/
def Timeval.Carried (t : Timeval) : Prop := t.usec < 1000000 ∨ t.usec % 1000000 = t.usec / 1000000

theorem tvfix_micros (h : 0 ≤ a.usec) : (tvfix a).Normal ∧
    ∃ e : ℤ, (tvfix a).micros = a.micros + e * 1000000 ∧ (e = 0 ↔ a.Carried) := by
  unfold Timeval.Normal Timeval.micros Timeval.Carried tvfix
  rw [Int.tmod_eq_emod_of_nonneg h]
  split_ifs
  · refine ⟨?_, a.usec % 1000000 - a.usec / 1000000, ?_⟩ <;> dsimp only <;> omega
  · omega
  · exact ⟨by omega, 0, by omega⟩

/-- Sum and difference are exact if and only if every overlong count of microseconds carries as many
seconds as are left over. -/
theorem tvadd_tvsub_exact_iff (a b : Timeval) (ha : 0 ≤ a.usec) (hb : 0 ≤ b.usec) :
    ((cwTvadd a b).Normal ∧ (cwTvadd a b).micros = a.micros + b.micros) ∧
      ((cwTvsub a b).Normal ∧ (cwTvsub a b).micros = a.micros - b.micros) ↔
      a.Carried ∧ b.Carried := by
  obtain ⟨hna, e, he, hcarried⟩ := tvfix_micros ha
  obtain ⟨hnb, f, hf, hcarried'⟩ := tvfix_micros hb
  obtain ⟨hadd, hsum⟩ := cwTvadd_fixed hna hnb
  obtain ⟨hsub, hdiff⟩ := cwTvsub_fixed hna hnb
  rw [← hcarried, ← hcarried', hsum, hdiff, he, hf]
  simp only [hadd, hsub, true_and]
  omega

theorem tvadd_tvsub_exact_small : (cwTvsub ⟨5, 100000⟩ ⟨3, 999999⟩).micros = 1100001 :=
  ((tvadd_tvsub_exact_iff ⟨5, 100000⟩ ⟨3, 999999⟩ (by decide) (by decide)).mpr ⟨.inl (by decide),
    .inl (by decide)⟩).2.2

/-- A second that is given in microseconds is lost. -/
theorem tvadd_loses_second : cwTvadd ⟨0, 1000000⟩ ⟨0, 0⟩ = ⟨0, 0⟩ := by
  decide

/-- The milliseconds between two times as an `int`. The offset keeps the dividend positive. -/
def cwTvdiffMs (stop start : Timeval) : ℤ :=
  ((stop.sec - start.sec) * 1000 + ((1000000 + stop.usec - start.usec).tdiv 1000 - 1000)).bmod
    4294967296

def cwTvzero (t : Timeval) : Bool := t.sec == 0 && t.usec == 0

def toUnsigned (n : ℤ) : ℕ := (n % 4294967296).toNat

def cwSamp2tv (nsamp rate : ℕ) : Timeval :=
  ⟨(nsamp / rate : ℕ), (nsamp % rate * (1000000 / rate) : ℕ)⟩

theorem cwSamp2tv_millis (n : ℕ) :
    (cwSamp2tv n 1000).Normal ∧ (cwSamp2tv n 1000).micros = n * 1000 := by
  simp only [cwSamp2tv, Timeval.Normal, Timeval.micros]
  omega

end CallWeaver
