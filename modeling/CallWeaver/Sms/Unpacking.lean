import Mathlib.Data.UInt
import CallWeaver.Sms.Packing

/-! # Unpacking messages

The lengths come from the message, and the counters are octets: one that is decremented below zero
starts again at 255. A position `p` in `unpacksms7` is an octet as well; here it counts on and is
cut where an octet is read. A service centre sends deliver messages and receives submit messages, a
phone does the reverse.
-/

namespace CallWeaver.Sms

open BitFields Function List

structure Unpacked where
  udhl : ℕ
  udh : List UInt8
  ud : List UInt16
  walked : ℕ
  deriving Repr, DecidableEq

structure Cursor where
  p : ℕ
  b : ℕ
  l : UInt8
  deriving Repr, DecidableEq

/-- `unpacksms7` counts the septets of the header. -/
def drain : ℕ → UInt8 → ℕ × UInt8
  | b + 7, l => if l - 1 = 0 then (b, l - 1) else drain b (l - 1)
  | b, l => (b, l)

/-- The loop of `unpacksms7` over the header. -/
def unpackHeader7 (i : ℕ → UInt8) : ℕ → Cursor → List UInt8 × Cursor
  | 0, c => ([], c)
  | h + 1, c =>
    if c.l = 0 then ([], c)
    else
      let (b, l) := drain (c.b + 8) c.l
      let (udh, c') := unpackHeader7 i h ⟨c.p + 1, b, l⟩
      (i (c.p % 256) :: udh, c')

def septet (i : ℕ → UInt8) (p b : ℕ) : ℕ :=
  if b < 2 then ((i (p % 256)).toNat >>> b) &&& 0x7F
  else (((i (p % 256)).toNat >>> b) + ((i (p % 256 + 1)).toNat <<< (8 - b))) &&& 0x7F

/-- The loop of `unpacksms7` over the septets. -/
def unpackText (i : ℕ → UInt8) : ℕ → ℕ → ℕ → List UInt16 → List UInt16 × ℕ × ℕ
  | 0, p, b, ud => (ud, p, b)
  | l + 1, p, b, ud =>
    let ud := pushSeptet ud (septet i p b)
    if b + 7 ≥ 8 then unpackText i l (p + 1) (b + 7 - 8) ud else unpackText i l p (b + 7) ud

def unpackTextAt (i : ℕ → UInt8) (c : Cursor) (udhl : ℕ) (udh : List UInt8) : Unpacked :=
  let (ud, p, b) := unpackText i c.l.toNat c.p c.b []
  { udhl := udhl, udh := udh, ud := ud.reverse, walked := if b = 0 then p else p + 1 }

def unpacksms7 (i : ℕ → UInt8) (l : UInt8) (udhi : Bool) : Unpacked :=
  if udhi ∧ l ≠ 0 ∧ i 0 ≠ 0 then
    let (udh, c) := unpackHeader7 i (i 0).toNat ⟨1, 1, l - 1⟩
    -- adjust for fill
    let c := if c.b ≠ 0 then { c with b := 7 - c.b, l := c.l - 1 } else c
    unpackTextAt i c (i 0).toNat udh
  else unpackTextAt i ⟨0, 0, l⟩ 0 []

def octetsAt (i : ℕ → UInt8) (p n : ℕ) : List UInt8 := (range n).map fun k => i (p + k)

/-- The header in `unpacksms8` and `unpacksms16`: its length, its octets, and `i` and `l` after it.
-/
def unpackHeader (i : ℕ → UInt8) (l : UInt8) (udhi : Bool) : ℕ × List UInt8 × ℕ × UInt8 :=
  if udhi ∧ i 0 ≠ 0 then
    let n := min (l - 1).toNat (i 0).toNat
    ((i 0).toNat, octetsAt i 1 n, 1 + n, l - 1 - UInt8.ofNat n)
  else (0, [], 0, l)

def unpacksms8 (i : ℕ → UInt8) (l : UInt8) (udhi : Bool) : Unpacked :=
  let (udhl, udh, p, l) := unpackHeader i l udhi
  { udhl := udhl, udh := udh, ud := (octetsAt i p
    l.toNat).map UInt8.toUInt16, walked := p + l.toNat }

def unit (hi lo : UInt8) : UInt16 := UInt16.ofNat (hi.toNat * 256 + lo.toNat)

/-- The loop of `unpacksms16` over the characters, given up after a number of rounds. It decrements
`l` once more after the last octet of an odd number. -/
def unpackUnits (i : ℕ → UInt8) : ℕ → ℕ → UInt8 → Option (List UInt16 × ℕ)
  | 0, _, _ => none
  | fuel + 1, p, l =>
    if l = 0 then some ([], p)
    else if l - 1 = 0 then
      (unpackUnits i fuel (p + 1) (l - 1 - 1)).map fun r => ((i p).toUInt16 :: r.1, r.2)
    else (unpackUnits i fuel (p + 2) (l - 1 - 1)).map fun r => (unit (i p) (i (p + 1)) :: r.1, r.2)

/-- There is no result if its loop does not end. -/
def unpacksms16 (i : ℕ → UInt8) (l : UInt8) (udhi : Bool) : Option Unpacked :=
  let (udhl, udh, p, l) := unpackHeader i l udhi
  (unpackUnits i 256 p l).map fun r => { udhl := udhl, udh := udh, ud := r.1, walked := r.2 }

/-- The octets that `unpacksms` passes. -/
def octetLength (dcs l : UInt8) : ℕ := if is7bit dcs then (l.toNat * 7 + 7) / 8 else l.toNat

def unpacksms (dcs : UInt8) (i : ℕ → UInt8) (udhi : Bool) : Option (Unpacked × ℕ) :=
  let j := fun k => i (1 + k)
  let r :=
    if is7bit dcs then some (unpacksms7 j (i 0) udhi)
    else if is8bit dcs then some (unpacksms8 j (i 0) udhi)
    else unpacksms16 j (i 0) udhi
  r.map fun u => (u, octetLength dcs (i 0) + 1)

/-- A digit of `unpackaddress`. -/
def digitAt (i : ℕ → UInt8) (p : ℕ) : UInt8 :=
  if p % 2 = 1 then (i (2 + p / 2) >>> 4) + chr '0' else (i (2 + p / 2) &&& 0xF) + chr '0'

def unpackaddress (i : ℕ → UInt8) : CStr × ℕ :=
  ((if i 1 = 0x91 then [chr '+'] else []) ++ (range (i 0).toNat).map (digitAt i),
    ((i 0).toNat + 5) / 2)

def unpackdate (i : ℕ → UInt8) : Tm :=
  let two := fun x : UInt8 => ((x &&& 0xF).toNat * 10 + (x >>> 4).toNat : ℤ)
  let quarters : ℤ := (i 6 &&& 0x7).toNat * 10 + (i 6 >>> 4).toNat
  { year := 100 + two (i 0), mon := two (i 1) - 1, mday := two (i 2), hour := two (i 3),
    min := if i 6 &&& 0x08 ≠ 0 then two (i 4) + 15 * quarters else two (i 4) - 15 * quarters,
    sec := two (i 5) }

section Specs

variable {i : ℕ → UInt8} {l : UInt8} {p b n m fuel udhl : ℕ} {ud : List UInt16} {c : Cursor}

theorem toNat_eq_zero : l.toNat = 0 ↔ l = 0 := by
  rw [← UInt8.toNat_inj]
  rfl

theorem toNat_pos_iff : 0 < l.toNat ↔ l ≠ 0 := by
  rw [Nat.pos_iff_ne_zero, ne_eq, toNat_eq_zero]

theorem toNat_sub_ofNat (h : n ≤ l.toNat) : (l - UInt8.ofNat n).toNat = l.toNat - n := by
  have hl := l.toNat_lt
  rw [UInt8.toNat_sub, UInt8.toNat_ofNat']
  omega

theorem toNat_pred (h : l ≠ 0) :
    (l - 1).toNat = l.toNat - 1 := toNat_sub_ofNat (toNat_pos_iff.mpr h)

theorem drain_of_lt (h : b < 7) : drain b l = (b, l) := by
  match b, h with
  | 0, _ | 1, _ | 2, _ | 3, _ | 4, _ | 5, _ | 6, _ => rfl

theorem drain_spec (hb : b < 7) (hl : l ≠ 0) :
    b + 8 + 7 * (drain (b + 8) l).2.toNat = 7 * l.toNat + (drain (b + 8) l).1 ∧
      ((drain (b + 8) l).1 < 7 ∨ (drain (b + 8) l).2 = 0 ∧ (drain (b + 8) l).1 ≤ 7) := by
  have hpos := toNat_pos_iff.mpr hl
  have hone := toNat_pred hl
  have hd : drain (b + 8) l = if l - 1 = 0 then (b + 1, l - 1) else drain (b + 1) (l - 1) := rfl
  rw [hd]
  split_ifs with h1
  · have hzero := toNat_eq_zero.mpr h1
    constructor
    · simp only [hone] at hzero ⊢
      omega
    · by_cases hb6 : b + 1 < 7
      · exact Or.inl hb6
      · exact Or.inr ⟨h1, hb⟩
  · have htwo := toNat_pred h1
    have hpos' := toNat_pos_iff.mpr h1
    by_cases hb6 : b + 1 < 7
    · rw [drain_of_lt hb6]
      simp only [hone]
      omega
    · obtain rfl : b = 6 := by omega
      have hd' : drain (6 + 1) (l - 1) =
        if l - 1 - 1 = 0 then (0, l - 1 - 1) else drain 0 (l - 1 - 1) := rfl
      rw [hd', drain_of_lt (by omega), ite_self]
      simp only [htwo, hone]
      omega

/-- The header loop of `unpacksms7` copies octets, accounts for their bits, and stops at the end of
the header or of the septets. -/
structure HeaderRead (i : ℕ → UInt8) (h : ℕ) (c : Cursor) (udh : List UInt8) (c' : Cursor) :
    Prop where
  p_eq : c'.p = c.p + udh.length
  length_le : udh.length ≤ h
  bits : 8 * udh.length + c.b + 7 * c'.l.toNat = 7 * c.l.toNat + c'.b
  stop : udh.length = h ∧ c'.b < 7 ∨ c'.l = 0 ∧ c'.b ≤ 7
  udh_eq : udh = (range udh.length).map fun k => i ((c.p + k) % 256)

theorem unpackHeader7_read (h : ℕ) (hb : c.b < 7 ∨ c.l = 0 ∧ c.b ≤ 7) :
    HeaderRead i h c (unpackHeader7 i h c).1 (unpackHeader7 i h c).2 := by
  induction h generalizing c with
  | zero =>
    constructor
    case bits => simp [unpackHeader7, Nat.add_comm]
    case stop => simpa [unpackHeader7] using hb
    all_goals simp [unpackHeader7]
  | succ h ih =>
    rw [unpackHeader7]
    by_cases hl : c.l = 0
    · rw [if_pos hl]
      constructor
      case stop =>
        right
        simp only [hl, true_and]
        omega
      all_goals simp [hl]
    · have hd := drain_spec (hb.resolve_right fun h => hl h.1) hl
      have hr := ih (c := ⟨c.p + 1, (drain (c.b + 8) c.l).1, (drain (c.b + 8) c.l).2⟩) hd.2
      rw [if_neg hl]
      simp only []
      obtain ⟨hp, hle, hbits, hstop, hudh⟩ := hr
      constructor
      · simp only [hp, length_cons]
        omega
      · simpa using hle
      · simp only [length_cons]
        simp only [] at hbits
        omega
      · simpa using hstop
      · rw [length_cons, range_succ_eq_map, map_cons, map_map, Nat.add_zero]
        congr 1
        refine hudh.trans (map_congr_left fun k _ => ?_)
        simp only [comp, Nat.succ_eq_add_one]
        congr 2
        omega

theorem septet_eq (hb : b < 8) (hp : p < 256) : septet i p b = field 7 i (8 * p + b) := by
  have hdiv : (8 * p + b) / 8 = p := by omega
  have hmod : (8 * p + b) % 8 = b := by omega
  have hmask : ∀ x, x &&& 0x7F = x % 128 := fun x => Nat.and_two_pow_sub_one_eq_mod x 7
  rw [septet, field, Nat.mod_eq_of_lt hp, hdiv, hmod]
  simp only [hmask, Nat.shiftRight_eq_div_pow, Nat.shiftLeft_eq]
  interval_cases b <;> simp <;> omega

theorem unpackText_end (hb : b < 8) : (unpackText i n p b ud).2 =
    ((8 * p + b + 7 * n) / 8, (8 * p + b + 7 * n) % 8) := by
  induction n generalizing p b ud with
  | zero =>
    simp only [unpackText, Prod.mk.injEq]
    omega
  | succ n ih =>
    rw [unpackText]
    split_ifs with h
    · rw [ih (by omega)]
      congr 1 <;> congr 1 <;> omega
    · rw [ih (by omega)]
      congr 1 <;> congr 1 <;> omega

def septetsAt (i : ℕ → UInt8) (q n : ℕ) : List ℕ := (range n).map fun k => field 7 i (q + 7 * k)

theorem septetsAt_succ (q n : ℕ) :
    septetsAt i q (n + 1) = field 7 i q :: septetsAt i (q + 7) n := by
  rw [septetsAt, range_succ_eq_map, map_cons, map_map]
  congr 1
  apply map_congr_left
  intro k _
  simp only [comp]
  congr 1
  omega

theorem septetsAt_lt (q : ℕ) : ∀ v ∈ septetsAt i q n, v < 128 := by
  intro v hv
  obtain ⟨k, -, rfl⟩ := mem_map.mp hv
  exact field_lt

theorem unpackText_fst (hb : b < 8) (hp : 8 * p + b + 7 * n ≤ 8 * 256) :
    (unpackText i n p b ud).1 = (septetsAt i (8 * p + b) n).foldl pushSeptet ud := by
  induction n generalizing p b ud with
  | zero => rfl
  | succ n ih =>
    rw [unpackText, septetsAt_succ, foldl_cons, septet_eq hb (by omega)]
    split_ifs with h
    · rw [ih (by omega) (by omega)]
      congr 2
      omega
    · rw [ih (by omega) (by omega)]
      congr 2

theorem unpackUnits_even (hl : l.toNat = 2 * m) (hf : m < fuel) :
    unpackUnits i fuel p l =
      some ((range m).map fun k => unit (i (p + 2 * k)) (i (p + 2 * k + 1)), p + l.toNat) := by
  induction m generalizing fuel p l with
  | zero =>
    obtain ⟨f, rfl⟩ := Nat.exists_eq_add_of_lt hf
    obtain rfl : l = 0 := toNat_eq_zero.mp (by omega)
    simp [unpackUnits]
  | succ m ih =>
    obtain ⟨f, rfl⟩ : ∃ f, fuel = f + 1 := ⟨fuel - 1, by omega⟩
    have h0 : l ≠ 0 := fun h => by simp [h] at hl
    have hpred := toNat_pred h0
    have h1 : l - 1 ≠ 0 := toNat_pos_iff.mp (by omega)
    have hpred' := toNat_pred h1
    rw [unpackUnits, if_neg h0, if_neg h1, ih (by omega) (by omega)]
    simp only [Option.map_some, range_succ_eq_map, map_cons, map_map, Option.some.injEq,
      Prod.mk.injEq, cons.injEq, Nat.mul_zero, Nat.add_zero, true_and]
    constructor
    · apply map_congr_left
      intro k _
      congr 2 <;> omega
    · omega

/-- With an odd number of octets the loop never ends: after the last one the counter is 255 again.
-/
theorem unpackUnits_odd (hl : l.toNat % 2 = 1) (fuel p : ℕ) : unpackUnits i fuel p l = none := by
  induction fuel generalizing p l with
  | zero => rfl
  | succ fuel ih =>
    have h0 : l ≠ 0 := fun h => by simp [h] at hl
    have hodd : (l - 1 - 1).toNat % 2 = 1 := by
      rw [UInt8.toNat_sub, UInt8.toNat_sub]
      simp
      omega
    rw [unpackUnits, if_neg h0]
    split_ifs <;> simp [ih hodd]

theorem unpackUnits_ne_nil {r : List UInt16 × ℕ} (hl : l ≠ 0)
    (h : unpackUnits i fuel p l = some r) : r.1 ≠ [] := by
  cases fuel with
  | zero => cases h
  | succ fuel =>
    rw [unpackUnits, if_neg hl] at h
    split_ifs at h
    · obtain ⟨r', -, rfl⟩ := Option.map_eq_some_iff.mp h
      simp
    · obtain ⟨r', -, rfl⟩ := Option.map_eq_some_iff.mp h
      simp

theorem unpackTextAt_eq {udh : List UInt8} (hb : c.b < 8)
    (hp : 8 * c.p + c.b + 7 * c.l.toNat ≤ 8 * 256) : unpackTextAt i c udhl udh =
      { udhl := udhl, udh := udh, ud := ((septetsAt i (8 * c.p + c.b) c.l.toNat).foldl pushSeptet
        []).reverse, walked := (8 * c.p + c.b + 7 * c.l.toNat + 7) / 8 } := by
  simp only [unpackTextAt, unpackText_fst hb hp, unpackText_end hb, Unpacked.mk.injEq, true_and]
  split_ifs <;> omega

variable {udhi : Bool}

theorem unpacksms7_plain (h : ¬ (udhi ∧ l ≠ 0 ∧ i 0 ≠ 0)) : unpacksms7 i l udhi =
    { udhl := 0, udh := [], ud := ((septetsAt i 0 l.toNat).foldl pushSeptet []).reverse,
      walked := (l.toNat * 7 + 7) / 8 } := by
  have hl := l.toNat_lt
  rw [unpacksms7, if_neg h, unpackTextAt_eq (by simp) (by simp only []; omega)]
  simp [Nat.mul_comm]

section Header7

variable (hu : udhi = true) (hl : l ≠ 0) (hh : i 0 ≠ 0)
include hu hl hh

theorem unpacksms7_cases :
    ∃ udh c, HeaderRead i (i 0).toNat ⟨1, 1, l - 1⟩ udh c ∧ udh = octetsAt i 1 udh.length ∧
    8 * (udh.length + 1) + 7 * c.l.toNat = 7 * l.toNat + c.b ∧
    unpacksms7 i l udhi =
      unpackTextAt i (if c.b ≠ 0 then { c with b := 7 - c.b, l := c.l - 1 } else c)
      (i 0).toNat udh := by
  have hr := unpackHeader7_read (i := i) (i 0).toNat (c := ⟨1, 1, l - 1⟩) (Or.inl (by simp))
  refine ⟨_, _, hr, hr.udh_eq.trans (map_congr_left fun k hk => ?_), ?_,
    by rw [unpacksms7, if_pos ⟨hu, hl, hh⟩]⟩
  · have hlt := (i 0).toNat_lt
    have hle := hr.length_le
    rw [mem_range] at hk
    rw [Nat.mod_eq_of_lt (show 1 + k < 256 by omega)]
  have hbits := hr.bits
  have hpos := toNat_pos_iff.mpr hl
  simp only [toNat_pred hl] at hbits
  omega

theorem unpacksms7_header (hfit : 8 * ((i 0).toNat + 1) ≤ 7 * l.toNat) :
    unpacksms7 i l udhi =
      { udhl := (i 0).toNat, udh := octetsAt i 1 (i 0).toNat,
        ud := ((septetsAt i (7 * ((8 * ((i 0).toNat + 1) + 6) / 7))
          (l.toNat - (8 * ((i 0).toNat + 1) + 6) / 7)).foldl pushSeptet []).reverse,
        walked := (l.toNat * 7 + 7) / 8 } := by
  obtain ⟨udh, c, hr, hudh, hbits, heq⟩ := unpacksms7_cases hu hl hh
  have hlt := l.toNat_lt
  have hlen := hr.length_le
  have hp := hr.p_eq
  simp only [] at hp
  have hk : udh.length = (i 0).toNat ∧ c.b < 7 := by
    rcases hr.stop with h | ⟨hzero, -⟩
    · exact h
    · rw [← toNat_eq_zero] at hzero
      omega
  rw [hk.1] at hudh
  rw [heq]
  split_ifs with hb
  · have hone : (c.l - 1).toNat = c.l.toNat - 1 := toNat_pred (toNat_pos_iff.mp (by omega))
    rw [unpackTextAt_eq (by simp only []; omega) (by simp only [hone]; omega)]
    simp only [hone, hudh, Unpacked.mk.injEq, true_and]
    constructor
    · congr 3 <;> omega
    · omega
  · rw [unpackTextAt_eq (by omega) (by omega)]
    simp only [hudh, Unpacked.mk.injEq, true_and]
    constructor
    · congr 3 <;> omega
    · omega

variable (hcut : 7 * l.toNat < 8 * ((i 0).toNat + 1))

include hcut

theorem unpacksms7_cut (h8 : 8 ∣ l.toNat) :
    unpacksms7 i l udhi =
      { udhl := (i 0).toNat, udh := octetsAt i 1 (7 * l.toNat / 8 - 1), ud := [],
        walked := (l.toNat * 7 + 7) / 8 } := by
  obtain ⟨udh, c, hr, hudh, hbits, heq⟩ := unpacksms7_cases hu hl hh
  have hlt := l.toNat_lt
  have hp := hr.p_eq
  simp only [] at hp
  have hk : c.b = 0 ∧ c.l.toNat = 0 := by
    rcases hr.stop with ⟨hk, hb⟩ | ⟨hzero, hb⟩
    · omega
    · rw [← toNat_eq_zero] at hzero
      omega
  rw [show udh.length = 7 * l.toNat / 8 - 1 by omega] at hudh
  rw [heq, if_neg (by simp [hk.1]), unpackTextAt_eq (by omega) (by omega), hk.2, hudh]
  simp only [septetsAt, range_zero, map_nil, foldl_nil, reverse_nil, Unpacked.mk.injEq, true_and]
  omega

/-- A header that ends in the middle of the last octet: the fill septet takes the counter below
zero, and 255 septets follow. -/
theorem unpacksms7_wraps (h8 : ¬ 8 ∣ l.toNat) : 225 ≤ (unpacksms7 i l udhi).walked := by
  obtain ⟨udh, c, hr, -, hbits, heq⟩ := unpacksms7_cases hu hl hh
  have hp := hr.p_eq
  simp only [] at hp
  have hk : c.b ≠ 0 ∧ c.b ≤ 7 ∧ c.l = 0 := by
    rcases hr.stop with ⟨hk, hb⟩ | ⟨hzero, hb⟩
    · refine ⟨?_, ?_, toNat_eq_zero.mp ?_⟩ <;> omega
    · have hz := toNat_eq_zero.mpr hzero
      refine ⟨?_, hb, hzero⟩
      omega
  rw [heq, if_pos hk.1]
  simp only [unpackTextAt, hk.2.2, unpackText_end (i := i) (show 7 - c.b < 8 by omega)]
  have hwrap : ((0 : UInt8) - 1).toNat = 255 := rfl
  rw [hwrap]
  split_ifs <;> omega

end Header7

theorem unpackHeader_plain (h : ¬ (udhi ∧ i 0 ≠ 0)) :
    unpackHeader i l udhi = (0, [], 0, l) := if_neg h

theorem unpackHeader_header (hu : udhi = true) (hl : l ≠ 0) (hh : i 0 ≠ 0) :
    ∃ l', unpackHeader i l udhi =
      ((i 0).toNat, octetsAt i 1 (min (l.toNat - 1) (i 0).toNat), 1 + min (l.toNat - 1) (i 0).toNat,
        l') ∧ l'.toNat = l.toNat - 1 - (i 0).toNat := by
  rw [unpackHeader, if_pos ⟨hu, hh⟩, toNat_pred hl]
  refine ⟨_, rfl, ?_⟩
  rw [toNat_sub_ofNat (by rw [toNat_pred hl]; omega), toNat_pred hl]
  omega

theorem unpackHeader_wraps (hu : udhi = true) (hh : i 0 ≠ 0) :
    ∃ l', unpackHeader i 0 udhi = ((i 0).toNat, octetsAt i 1 (i 0).toNat, 1 + (i 0).toNat, l') ∧
      l'.toNat = 255 - (i 0).toNat := by
  have hlt := (i 0).toNat_lt
  have hwrap : ((0 : UInt8) - 1).toNat = 255 := rfl
  rw [unpackHeader, if_pos ⟨hu, hh⟩, hwrap, Nat.min_eq_right (by omega)]
  refine ⟨_, rfl, ?_⟩
  rw [toNat_sub_ofNat (by rw [hwrap]; omega), hwrap]

theorem unpackHeader_fst : (unpackHeader i l true).1 = (i 0).toNat := by
  rw [unpackHeader]
  split_ifs with h
  · rfl
  · obtain hz : i 0 = 0 := by simpa using h
    simp [hz]

section Codings

variable {dcs : UInt8}

theorem unpacksms_7bit (h7 : is7bit dcs = true) : unpacksms dcs i udhi =
    some (unpacksms7 (fun k => i (1 + k)) (i 0) udhi, octetLength dcs (i 0) + 1) := by
  simp [unpacksms, h7]

theorem unpacksms_8bit (h7 : is7bit dcs = false) (h8 : is8bit dcs = true) : unpacksms dcs i udhi =
    some (unpacksms8 (fun k => i (1 + k)) (i 0) udhi, octetLength dcs (i 0) + 1) := by
  simp [unpacksms, h7, h8]

theorem unpacksms_16bit (h7 : is7bit dcs = false) (h8 : is8bit dcs = false) : unpacksms dcs i udhi =
    (unpacksms16 (fun k => i (1 + k)) (i 0) udhi).map fun u => (u, octetLength dcs (i 0) + 1) := by
  simp [unpacksms, h7, h8]

theorem coding_cases (dcs : UInt8) : is7bit dcs = true ∨ is7bit dcs = false ∧ is8bit dcs = true ∨
    is7bit dcs = false ∧ is8bit dcs = false := by
  cases is7bit dcs <;> cases is8bit dcs <;> simp

end Codings

end Specs

/-- The fields of `struct sms_s` for one message. -/
structure State where
  smsc : Bool
  rx : Bool
  oa : CStr
  da : CStr
  scts : Tm
  pid : UInt8
  dcs : UInt8
  mr : ℤ
  udhl : ℕ
  srr : Bool
  udhi : Bool
  rp : Bool
  vp : ℕ
  ud : List UInt16
  udh : List UInt8
  cli : CStr
  deriving Repr, DecidableEq

/-- The validity period in `sms_nextoutgoing`. -/
def packvp (vp : ℕ) : UInt8 :=
  UInt8.ofNat (
    if vp < 720 then (vp + 4) / 5 - 1
    else if vp < 1440 then (vp - 720 + 29) / 30 + 143
    else if vp < 43200 then (vp + 1439) / 1440 + 166
    else if vp < 635040 then (vp + 10079) / 10080 + 192
    else 255)

def deliverFlags (more : Bool) : UInt8 := if more then 4 else 0

def submitFlags (h : State) (more : Bool) : UInt8 :=
  0x01 + (if more then 4 else 0) + (if h.srr then 0x20 else 0) + (if h.rp then 0x80 else 0) +
    (if h.vp ≠ 0 then 0x10 else 0) + (if h.udhi then 0x40 else 0)

/-- The message of a service centre in `sms_nextoutgoing`. -/
def deliver (timezone : ℤ) (h : State) (more : Bool) : List UInt8 :=
  [deliverFlags more] ++ packaddress h.oa ++ [h.pid, h.dcs] ++ packdate timezone h.scts ++
    packsms h.dcs (h.udh.take h.udhl) h.ud

/-- The message of a phone in `sms_nextoutgoing`. -/
def submit (h : State) (more : Bool) : List UInt8 :=
  [submitFlags h more, octetOf h.mr] ++ packaddress h.da ++ [h.pid, h.dcs] ++
    (if h.vp ≠ 0 then [packvp h.vp] else []) ++ packsms h.dcs (h.udh.take h.udhl) h.ud

def smsMessagetx (omsg : List UInt8) : List UInt8 := omsg ++ [0 - omsg.sum]

/-- After the queue was read: `more` messages wait in it, and `messageRef` is the next reference. -/
def smsNextoutgoing (timezone : ℤ) (h : State) (more : Bool) (messageRef : UInt8) :
    State × List UInt8 :=
  let h := { h with rx := false }
  if h.da ≠ [] ∨ h.oa ≠ [] then
    if h.smsc then
      let body := deliver timezone h more
      (h, smsMessagetx ([0x91, UInt8.ofNat body.length] ++ body))
    else
      let h := if h.mr < 0 then { h with mr := messageRef.toNat } else h
      let body := submit h more
      (h, smsMessagetx ([0x91, UInt8.ofNat body.length] ++ body))
  else (h, smsMessagetx [0x94, 0])

def relativeVp (x : ℕ) : ℕ :=
  if x < 144 then (x + 1) * 5
  else if x < 168 then 720 + (x - 143) * 30
  else if x < 197 then (x - 166) * 1440
  else (x - 192) * 10080

/-- The validity period in `sms_handleincoming`. -/
def unpackvp (imsg : ℕ → UInt8) (p : ℕ) : ℕ × ℕ :=
  if imsg 2 &&& 0x18 = 0x10 then (relativeVp (imsg p).toNat, p + 1)
  else if imsg 2 &&& 0x18 ≠ 0 then (0, p + 7)
  else (0, p)

/-- Unpack the user data at `p`, the last field of a message, and compare the length of the message.
The position is an octet. -/
def receive (h : State) (imsg : ℕ → UInt8) (p : ℕ) : Option (State × UInt8) :=
  (unpacksms h.dcs (fun k => imsg (p + k)) h.udhi).map fun (u, n) =>
    ({ h with udhl := u.udhl, udh := u.udh, ud := u.ud, rx := true },
      if (p + n) % 256 ≠ (imsg 1).toNat + 2 then 0xFF else 0)

def setFlags (h : State) (imsg : ℕ → UInt8) : State :=
  { h with srr := imsg 2 &&& 0x20 != 0, udhi := imsg 2 &&& 0x40 != 0, rp := imsg 2 &&& 0x80 != 0 }

/-- A submit message in `sms_handleincoming`. -/
def receiveSubmit (now : Tm) (h : State) (imsg : ℕ → UInt8) : Option (State × UInt8) :=
  let (da, n) := unpackaddress fun k => imsg (4 + k)
  let p := 4 + n
  let (vp, q) := unpackvp imsg (p + 2)
  let h := { setFlags h imsg with
    oa := h.cli.take 19, scts := now, mr := (imsg 3).toNat, da := da, pid := imsg p, dcs :=
      imsg (p + 1),
    vp := vp }
  receive h imsg q

/-- A deliver message in `sms_handleincoming`. -/
def receiveDeliver (h : State) (imsg : ℕ → UInt8) : Option (State × UInt8) :=
  let (oa, n) := unpackaddress fun k => imsg (3 + k)
  let p := 3 + n
  let h := { setFlags h imsg with
    da := [], vp := 0, mr := -1, oa := oa, pid := imsg p, dcs := imsg (p + 1),
    scts := unpackdate fun k => imsg (p + 2 + k) }
  receive h imsg (p + 9)

/-- With the cause it returns; there is no result if it does not return. -/
def smsHandleincoming (now : Tm) (h : State) (imsg : ℕ → UInt8) : Option (State × UInt8) :=
  if h.smsc then
    if imsg 2 &&& 3 = 1 then receiveSubmit now h imsg else some (h, 0xFF)
  else
    if imsg 2 &&& 3 = 0 then receiveDeliver h imsg else some (h, 0xFF)

end CallWeaver.Sms
