import Mathlib.Tactic.Ring
import CallWeaver.Udptl.Sender

/-! # Parity groups

Each packet carries parity strings of groups of the messages before it. The
members of a group lie `entries` apart, and the groups of a packet cover the last
`span * entries` messages.
-/

namespace CallWeaver.Udptl

open Parity Function List

def members (k g span entries : ℕ) : List ℕ :=
  (range span).map fun t => k + g - span * entries + t * entries

section Ring

variable {limit fuel n : ℕ} {step k : ℤ}

theorem ringLoop_eq (hne : ∀ t < n, bufMask (k + t * step) ≠ limit)
    (hlim : n < fuel → bufMask (k + n * step) = limit) (hn : n ≤ fuel) :
    ringLoop limit step fuel (bufMask k) = (range n).map fun t : ℕ => bufMask (k + t * step) := by
  induction n generalizing k fuel with
  | zero =>
    cases fuel with
    | zero => rfl
    | succ fuel =>
      have h0 := hlim (Nat.succ_pos fuel)
      simp only [Nat.cast_zero, zero_mul, add_zero] at h0
      simp [ringLoop, h0]
  | succ n ih =>
    obtain ⟨fuel, rfl⟩ := Nat.exists_eq_add_of_le' (Nat.le_of_add_left_le hn)
    have h0 := hne 0 (Nat.succ_pos n)
    simp only [Nat.cast_zero, zero_mul, add_zero] at h0
    have hshift : ∀ t : ℕ, k + step + t * step = k + (t + 1 : ℕ) * step := by
      intro t
      push_cast
      ring
    rw [ringLoop, if_neg h0, bufMask_add, ih (fun t ht => ?_) (fun hf => ?_) (by omega),
      range_succ_eq_map, map_cons, map_map]
    · simp only [Nat.cast_zero, zero_mul, add_zero, hshift, comp_def]
    · rw [hshift]; exact hne (t + 1) (by omega)
    · rw [hshift]; exact hlim (by omega)

theorem groupSlots_eq {k g span entries : ℕ} (he : 1 ≤ entries) (h16 : span * entries ≤ 15)
    (hk : span * entries ≤ k) : groupSlots (bufMask k) g span entries =
      (members k g span entries).map fun j : ℕ => bufMask j := by
  have hlim : bufMask (bufMask k + g) = bufMask ((k + g : ℕ) : ℤ) := by
    rw [bufMask_add, Nat.cast_add]
  have hstart : bufMask ((bufMask ((k + g : ℕ) : ℤ) : ℤ) - span * entries) =
      bufMask ((k + g - span * entries : ℕ) : ℤ) := by
    rw [sub_eq_add_neg, bufMask_add, Nat.cast_sub (by omega)]
    push_cast
    ring_nf
  -- after `t` rounds there are `span - t` more to go, fewer than a turn of the ring
  have hrounds : ∀ t < span, 1 ≤ (span - t) * entries ∧ (span - t) * entries ≤ 15 ∧
      t * entries + (span - t) * entries = span * entries := by
    intro t ht
    have hadd : t * entries + (span - t) * entries = span * entries := by
      rw [← Nat.add_mul, Nat.add_sub_cancel' ht.le]
    exact ⟨Nat.mul_pos (by omega) he, by omega, hadd⟩
  rw [groupSlots, hlim, hstart, ringLoop_eq (n := span) (fun t ht => ?_) (fun h => ?_) le_rfl]
  · simp [members, map_map, comp_def]
  · obtain ⟨h₁, h₂, h₃⟩ := hrounds t ht
    rw [Ne, bufMask_eq_iff, Nat.cast_sub (by omega)]
    have hcast : ((t * entries : ℕ) : ℤ) = (t : ℤ) * entries := Nat.cast_mul t entries
    rw [← hcast]
    omega
  · omega

theorem mem_members {k g span entries j : ℕ} (hg : g < entries) (hk : span * entries ≤ k)
    (hj : j ∈ members k g span entries) : k ≤ j + span * entries ∧ j < k ∧ j + entries ≤ k + g := by
  obtain ⟨t, ht, rfl⟩ := mem_map.mp hj
  have ht' := mem_range.mp ht
  have hle : (t + 1) * entries ≤ span * entries := Nat.mul_le_mul_right entries ht'
  rw [Nat.add_mul, Nat.one_mul] at hle
  omega

variable {k g p q j : ℕ}

def groupMembers (k g span entries : ℕ) : List ℕ :=
  if span * entries ≤ 15 then members k g span entries else []

theorem groupSlots_full (h : p * q = 16) (k g : ℕ) : groupSlots (bufMask k) g p q = [] := by
  have hback : bufMask ((bufMask (bufMask k + g) : ℤ) - p * q) = bufMask (bufMask k + g) := by
    have hcast : (p : ℤ) * q = 16 := by exact_mod_cast h
    rw [hcast]
    unfold bufMask
    omega
  rw [groupSlots]
  simp only [hback]
  cases p with
  | zero => rfl
  | succ p => rw [ringLoop, if_pos rfl]

theorem groupSlots_groupMembers (hp : p ≤ 4) (hq : q ≤ 4) (hg : g < q) (hk : p * q ≤ k) :
    groupSlots (bufMask k) g p q = (groupMembers k g p q).map fun j : ℕ => bufMask j := by
  unfold groupMembers
  split_ifs with h15
  · exact groupSlots_eq (Nat.lt_of_le_of_lt (Nat.zero_le g) hg) h15 hk
  · have h16 : p * q ≤ 16 := Nat.mul_le_mul hp hq
    rw [groupSlots_full (by omega)]
    rfl

theorem mem_groupMembers (hg : g < q) (hk : p * q ≤ k) (hj : j ∈ groupMembers k g p q) :
    j < k ∧ k ≤ j + 15 := by
  unfold groupMembers at hj
  split_ifs at hj with h15
  · obtain ⟨hge, hlt, -⟩ := mem_members hg hk hj
    exact ⟨hlt, by omega⟩
  · cases hj

end Ring

/-- A setting of the error correction that fits into the ring. -/
structure Setting (span entries : ℕ) : Prop where
  span_pos : 1 ≤ span
  span_le : span ≤ 4
  entries_pos : 1 ≤ entries
  entries_le : entries ≤ 4
  ring : span * entries ≤ 15

section WindUp

variable {span entries k p q k' p' q' : ℕ}

theorem windUp_of_le (h : span * entries ≤ k) : windUp span entries k = (span, entries) :=
  if_neg (not_lt.mpr h)

theorem windUp_le_four (he : entries ≤ 4) (hs : span ≤ 4) (k : ℕ) :
    (windUp span entries k).1 ≤ 4 ∧ (windUp span entries k).2 ≤ 4 := by
  unfold windUp
  split_ifs with hk hspan
  · constructor
    · exact Nat.zero_le 4
    · rw [Nat.div_eq_of_lt hspan]
      exact Nat.zero_le 4
  · exact ⟨hs, (Nat.div_lt_of_lt_mul hk).le.trans he⟩
  · exact ⟨hs, he⟩

theorem windUp_mul_le (h : windUp span entries k = (p, q)) : p * q ≤ k := by
  unfold windUp at h
  split_ifs at h with hlt hspan
  · cases h
    rw [Nat.zero_mul]
    exact Nat.zero_le k
  · cases h
    exact Nat.mul_div_le k span
  · cases h
    exact Nat.not_lt.mp hlt

variable (hs : Setting span entries)

include hs

theorem windUp_cases (k : ℕ) :
    (windUp span entries k = (0, 0) ∧ k < span) ∨
    ∃ q, windUp span entries k = (span, q) ∧ 1 ≤ q ∧ q ≤ entries ∧ span * q ≤ k ∧
      (k < span * entries → q = k / span) ∧ (span * entries ≤ k → q = entries) := by
  unfold windUp
  split_ifs with h h'
  · exact Or.inl ⟨by rw [Nat.div_eq_of_lt h'], h'⟩
  · refine Or.inr ⟨k / span, rfl, Nat.div_pos (by omega) hs.span_pos, ?_, Nat.mul_div_le k span,
      fun _ => rfl, fun h' => by omega⟩
    exact Nat.le_of_lt (Nat.div_lt_of_lt_mul h)
  · exact Or.inr ⟨entries, rfl, hs.entries_pos, le_rfl, not_lt.mp h, fun h' => absurd h' h,
      fun _ => rfl⟩

theorem windUp_le (h : windUp span entries k = (p, q)) :
    p ≤ 4 ∧ q ≤ 4 ∧ p * q ≤ 15 ∧ p * q ≤ k ∧ (1 ≤ q → 1 ≤ p) := by
  have h4 := hs.entries_le
  have h4' := hs.span_le
  rcases windUp_cases hs k with ⟨he, _⟩ | ⟨q', he, h₁, h₂, h₃, _⟩
  · rw [he] at h
    cases h
    exact ⟨by omega, by omega, by omega, by omega, by omega⟩
  · rw [he] at h
    cases h
    have hmul : span * q ≤ span * entries := Nat.mul_le_mul_left span h₂
    exact ⟨h4', by omega, hmul.trans hs.ring, h₃, fun _ => hs.span_pos⟩

theorem windUp_mono (hk : k ≤ k') (h : windUp span entries k = (p, q))
    (h' : windUp span entries k' = (p', q')) : p * q ≤ p' * q' := by
  rcases windUp_cases hs k with ⟨he, _⟩ | ⟨a, he, h₁, h₂, hle, h₃, _⟩
  · rw [he] at h
    cases h
    simp
  · rcases windUp_cases hs k' with ⟨he', hlt⟩ | ⟨b, he', _, _, _, h₃', h₄'⟩
    · have hspan : span ≤ span * a := Nat.le_mul_of_pos_right span h₁
      omega
    · rw [he] at h
      rw [he'] at h'
      cases h
      cases h'
      apply Nat.mul_le_mul_left span
      rcases Nat.lt_or_ge k' (span * entries) with hlt | hge
      · rw [h₃ (by omega), h₃' hlt]
        exact Nat.div_le_div_right hk
      · rw [h₄' hge]
        exact h₂

end WindUp

section Build

variable {m : ℕ → List UInt8} {span entries k p q g seq : ℕ} {s : CwUdptl}

theorem fecAdd_eq {t : TxBuffer} {d : List UInt8} (h : t.Holds d) (fec : List UInt8) :
    fecAdd fec t = xorPad fec d := by
  simp only [fecAdd, h.1, Int.toNat_natCast, h.2, Nat.cast_lt, xorPad]
  split_ifs with hlt
  · rw [drop_eq_nil_of_le hlt.le, nil_append]
  · rw [drop_eq_nil_of_le (not_lt.mp hlt), append_nil]

theorem foldl_fecAdd {tx : ℕ → TxBuffer} {l : List ℕ} (h : ∀ j ∈ l, (tx (bufMask j)).Holds (m j))
    (fec : List UInt8) :
    ((l.map fun j : ℕ => bufMask j).map tx).foldl fecAdd fec = (l.map m).foldl xorPad fec := by
  induction l generalizing fec with
  | nil => rfl
  | cons j l ih =>
    simp only [map_cons, foldl_cons, fecAdd_eq (h j (by simp))]
    exact ih (fun j hj => h j (by simp [hj])) _

theorem isMessage_parity {l : List (List UInt8)} (hne : l ≠ []) (h : ∀ d ∈ l, IsMessage d) :
    IsMessage (parity l) := by
  obtain ⟨d, hd⟩ := exists_mem_of_ne_nil l hne
  have hpos : 0 < d.length := length_pos_iff.mpr (h d hd).1
  have hle := le_longest hd
  refine ⟨length_pos_iff.mp ?_, ?_⟩ <;> rw [length_parity]
  · omega
  · exact longest_le_iff.mpr fun d hd => (h d hd).2

def fecStrings (m : ℕ → List UInt8) (p q k : ℕ) : List (List UInt8) :=
  (range q).map fun g => parity ((members k g p q).map m)

def fecRecovery (m : ℕ → List UInt8) (span entries k : ℕ) : List UInt8 :=
  let (p, q) := windUp span entries k
  0x80 :: 1 :: UInt8.ofNat p :: UInt8.ofNat q :: ((fecStrings m p q k).map openType).flatten

theorem isMessage_fecStrings (hp : 1 ≤ q → 1 ≤ p) (hk : p * q ≤ k) (hm : ∀ j < k, IsMessage (m j)) :
    ∀ d ∈ fecStrings m p q k, IsMessage d := by
  simp only [fecStrings, mem_map, mem_range]
  rintro d ⟨g, hg, rfl⟩
  refine isMessage_parity ?_ ?_
  · simp only [members, ne_eq, map_eq_nil_iff, range_eq_nil]
    omega
  · simp only [mem_map]
    rintro d ⟨j, hj, rfl⟩
    exact hm j (mem_members hg hk hj).2.1

def fecPart (m : ℕ → List UInt8) (span entries seq k : ℕ) : List UInt8 :=
  let (p, q) := windUp span entries seq
  0x80 :: 1 :: UInt8.ofNat p :: UInt8.ofNat q ::
    ((range q).map fun g => openType (wireMessage (parity ((groupMembers k g p q).map m)))).flatten

theorem length_parity_le (hg : g < q) (hk : p * q ≤ k)
    (hm : ∀ j < k, (m j).length ≤ localFaxMaxDatagram) :
    (parity ((groupMembers k g p q).map m)).length ≤ localFaxMaxDatagram := by
  rw [length_parity, longest_le_iff]
  simp only [mem_map]
  rintro d ⟨j, hj, rfl⟩
  exact hm j (mem_groupMembers hg hk hj).1

theorem buildFec_wire (h : TxOk .fec entries span m k (k + 1) s) (he : entries ≤ 4) (hs : span ≤ 4)
    (hseq : seq ≤ k) (hm : ∀ j < k, (m j).length ≤ localFaxMaxDatagram) :
    buildRecovery s seq (bufMask k) = some (fecPart m span entries seq k) := by
  obtain ⟨p, q, hw⟩ : ∃ p q, windUp span entries seq = (p, q) := ⟨_, _, rfl⟩
  obtain ⟨hp, hq⟩ := windUp_le_four he hs seq
  rw [hw] at hp hq
  have hk : p * q ≤ k := (windUp_mul_le hw).trans hseq
  have hgroup :
      ∀ g ∈ range q, encodeOpenType (((groupSlots (bufMask k) g p q).map s.tx).foldl fecAdd [])
        ((((groupSlots (bufMask k) g p q).map s.tx).foldl fecAdd []).length : ℕ) =
      some (openType (wireMessage (parity ((groupMembers k g p q).map m)))) := by
    intro g hg
    have hg' := mem_range.mp hg
    have hholds : ∀ j ∈ groupMembers k g p q, (s.tx (bufMask j)).Holds (m j) := by
      intro j hj
      obtain ⟨hlt, hle⟩ := mem_groupMembers hg' hk hj
      exact h.ring j (by omega) (by omega)
    rw [groupSlots_groupMembers hp hq hg' hk, foldl_fecAdd hholds]
    exact encodeOpenType_wireMessage (length_parity_le hg' hk hm) rfl take_length
  simp only [buildRecovery, h.scheme, buildFec, h.span, h.entries, hw, mapM_eq_map hgroup,
    Option.map_some, fecPart]

theorem buildFec_eq (hs : Setting span entries) (h : TxOk .fec entries span m k (k + 1) s)
    (hm : ∀ j < k, IsMessage (m j)) :
    buildRecovery s k (bufMask k) = some (fecRecovery m span entries k) := by
  obtain ⟨p, q, hw⟩ : ∃ p q, windUp span entries k = (p, q) := ⟨_, _, rfl⟩
  obtain ⟨_, _, h15, hk, hp⟩ := windUp_le hs hw
  rw [buildFec_wire h hs.entries_le hs.span_le le_rfl fun j hj => (hm j hj).2]
  simp only [fecPart, fecRecovery, fecStrings, hw, map_map, groupMembers, if_pos h15]
  have hwire : ∀ g ∈ range q, openType (wireMessage (parity ((members k g p q).map m))) =
      openType (parity ((members k g p q).map m)) := by
    intro g hg
    have hmsg := isMessage_fecStrings hp hk hm _ (mem_map.mpr ⟨g, hg, rfl⟩)
    rw [wireMessage_of_ne hmsg.1]
  rw [map_congr_left hwire]
  rfl

end Build

end CallWeaver.Udptl
