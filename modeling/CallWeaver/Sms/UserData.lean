import CallWeaver.Sms.Unpacking

/-! # User data

User data that was packed is unpacked with the same header and, but for escapes, the same text, as
long as the receiver looks for a header where there is one.
-/

namespace CallWeaver.Sms

open BitFields List

variable {udhi : Bool} {dcs l : UInt8} {udh body bs : List UInt8} {ud : List UInt16} {i : ℕ → UInt8}

theorem septetsAt_textWriter (hud : ∀ u ∈ ud, IsCoded u)
    (hi : Holds i 0 (textWriter udh ud).written) :
    septetsAt i (7 * headerSeptets udh) (ud.flatMap septets).length = ud.flatMap septets := by
  apply ext_getElem
  · simp [septetsAt]
  · intro k _ hk
    have hfield := Writer.field_foldl_put (wf_headerWriter udh) (flatMap_septets_lt hud) (by omega)
      (by omega) hi hk
    rw [bits_headerWriter] at hfield
    simpa [septetsAt] using hfield

theorem holds_headerOctets (hne : udh ≠ []) (hlen : udh.length < 256)
    (hi : Holds i 0 (headerOctets udh)) :
    (i 0).toNat = udh.length ∧ i 0 ≠ 0 ∧ octetsAt i 1 udh.length = udh := by
  rw [headerOctets, if_neg hne, holds_cons] at hi
  have hpos := length_pos_iff.mpr hne
  have h0 : (i 0).toNat = udh.length := by
    rw [hi.1, UInt8.toNat_ofNat']
    omega
  refine ⟨h0, ?_, hi.2.map_range⟩
  intro hz
  rw [hz] at h0
  exact absurd h0 (by simp; omega)

/-- The receiver looks for a header where there is one, and takes no octet of the text for its
length. -/
def Aligned (udhi : Bool) (udh : List UInt8) (absent : Prop) : Prop :=
  udh ≠ [] ∧ udhi = true ∨ udh = [] ∧ (udhi = true → absent)

theorem unpacksms7_written (hud : ∀ u ∈ ud, IsCoded u) (hi : Holds i 0 (textWriter udh ud).written)
    (hl : l.toNat = headerSeptets udh + (ud.flatMap septets).length)
    (ha : Aligned udhi udh (l = 0 ∨ i 0 = 0)) : unpacksms7 i l udhi =
      { udhl := udh.length, udh := udh, ud := ((ud.flatMap septets).foldl pushSeptet []).reverse,
        walked := (l.toNat * 7 + 7) / 8 } := by
  have htext := septetsAt_textWriter hud hi
  have hlt := l.toNat_lt
  rcases ha with ⟨hne, hu⟩ | ⟨rfl, hplain⟩
  · have hs : headerSeptets udh = (8 * (udh.length + 1) + 6) / 7 := if_neg hne
    obtain ⟨h0, hz, hat⟩ := holds_headerOctets hne (by omega)
      (hi.of_prefix (Writer.octets_prefix_foldl_put (s := headerWriter udh)))
    have hl0 : l ≠ 0 := toNat_pos_iff.mp (by omega)
    rw [unpacksms7_header hu hl0 hz (by omega), h0, hat, ← hs, hl, Nat.add_sub_cancel_left, htext]
  · have hs : headerSeptets [] = 0 := rfl
    rw [hs, Nat.zero_add] at hl
    rw [hs, Nat.mul_zero] at htext
    rw [unpacksms7_plain, hl, htext]
    · rfl
    · rintro ⟨hu, hl0, hz⟩
      exact (hplain hu).elim hl0 hz

theorem unpackHeader_headerOctets (hi : Holds i 0 (headerOctets udh ++ body))
    (hl : l.toNat = (headerOctets udh).length + body.length) (ha : Aligned udhi udh (i 0 = 0)) :
    ∃ l', unpackHeader i l udhi = (udh.length, udh, (headerOctets udh).length, l') ∧
      l'.toNat = body.length ∧ Holds i (headerOctets udh).length body := by
  have hlt := l.toNat_lt
  rw [holds_append, Nat.zero_add] at hi
  rcases ha with ⟨hne, hu⟩ | ⟨rfl, hplain⟩
  · have ho : (headerOctets udh).length = udh.length + 1 := by simp [headerOctets, hne]
    obtain ⟨h0, hz, hat⟩ := holds_headerOctets hne (by omega) hi.1
    have hl0 : l ≠ 0 := toNat_pos_iff.mp (by omega)
    obtain ⟨l', heq, hl'⟩ := unpackHeader_header (i := i) hu hl0 hz
    rw [h0, Nat.min_eq_right (by omega), hat, Nat.add_comm 1] at heq
    refine ⟨l', ?_, by omega, hi.2⟩
    rw [heq, ho]
  · have ho : (headerOctets []).length = 0 := rfl
    refine ⟨l, unpackHeader_plain ?_, by omega, hi.2⟩
    rintro ⟨hu, hz⟩
    exact hz (hplain hu)

theorem toUInt16_toUInt8 {u : UInt16} (hu : u ≤ 0xFF) : u.toUInt8.toUInt16 = u := by
  rw [UInt16.le_iff_toNat_le] at hu
  have h : (0xFF : UInt16).toNat = 255 := rfl
  rw [← UInt16.toNat_inj, UInt8.toNat_toUInt16, UInt16.toNat_toUInt8]
  omega

theorem toNat_shift (u : UInt16) : (u >>> 8).toNat = u.toNat / 256 := by
  rw [UInt16.toNat_shiftRight]
  exact Nat.shiftRight_eq_div_pow _ _

theorem unit_octets (u : UInt16) : unit (u >>> 8).toUInt8 u.toUInt8 = u := by
  have hlt := u.toNat_lt
  rw [unit, ← UInt16.toNat_inj, UInt16.toNat_ofNat', UInt16.toNat_toUInt8, UInt16.toNat_toUInt8,
    toNat_shift]
  omega

theorem map_unit {p : ℕ} (hi : Holds i p (unitOctets ud)) :
    (List.range ud.length).map (fun k => unit (i (p + 2 * k)) (i (p + 2 * k + 1))) = ud := by
  induction ud generalizing p with
  | nil => rfl
  | cons u ud ih =>
    have hcons : unitOctets (u :: ud) = (u >>> 8).toUInt8 :: u.toUInt8 :: unitOctets ud := rfl
    rw [hcons, holds_cons, holds_cons] at hi
    obtain ⟨hhi, hlo, hrest⟩ := hi
    have htail := ih hrest
    simp only [length_cons, range_succ_eq_map, map_cons, map_map, Nat.mul_zero,
      Nat.add_zero, hhi, hlo, unit_octets, List.cons.injEq, true_and]
    refine Eq.trans (map_congr_left fun k _ => ?_) htail
    simp only [Function.comp, Nat.succ_eq_add_one]
    congr 2 <;> omega

theorem unpacksms8_written (hud : ∀ u ∈ ud, u ≤ 0xFF)
    (hi : Holds i 0 (headerOctets udh ++ ud.map UInt16.toUInt8))
    (hl : l.toNat = (headerOctets udh).length + ud.length) (ha : Aligned udhi udh (i 0 = 0)) :
    unpacksms8 i l udhi = { udhl := udh.length, udh := udh, ud := ud, walked := l.toNat } := by
  obtain ⟨l', heq, hl', hbody⟩ := unpackHeader_headerOctets hi (by simpa using hl) ha
  have hread : octetsAt i (headerOctets udh).length l'.toNat = ud.map UInt16.toUInt8 := by
    rw [hl']
    exact hbody.map_range
  have hback : (ud.map UInt16.toUInt8).map UInt8.toUInt16 = ud := by
    rw [map_map]
    exact (map_congr_left fun u hu => toUInt16_toUInt8 (hud u hu)).trans (map_id ud)
  simp only [unpacksms8, heq, hread, hback, Unpacked.mk.injEq, true_and]
  simp only [length_map] at hl'
  omega

theorem unpacksms16_written (hi : Holds i 0 (headerOctets udh ++ unitOctets ud))
    (hl : l.toNat = (headerOctets udh).length + 2 * ud.length) (ha : Aligned udhi udh (i 0 = 0)) :
    unpacksms16 i l udhi =
      some { udhl := udh.length, udh := udh, ud := ud, walked := l.toNat } := by
  obtain ⟨l', heq, hl', hbody⟩ := unpackHeader_headerOctets hi (by simpa using hl) ha
  rw [length_unitOctets] at hl'
  have hlt := l'.toNat_lt
  simp only [unpacksms16, heq, unpackUnits_even hl' (show ud.length < 256 by omega), map_unit hbody,
    Option.map_some, Option.some.injEq, Unpacked.mk.injEq, true_and]
  omega

def StartsWithZero (dcs : UInt8) (ud : List UInt16) : Prop :=
  if is7bit dcs then (ud.flatMap septets).getD 0 0 = 0 ∧ (ud.flatMap septets).getD 1 0 % 2 = 0
  else if is8bit dcs then ud.headD 0 = 0
  else ud.headD 0 < 256

instance (dcs : UInt8) (ud : List UInt16) : Decidable (StartsWithZero dcs ud) := by
  unfold StartsWithZero
  infer_instance

theorem value_eq_zero_iff (hi : Holds i 0 bs) (hne : bs ≠ []) : i 0 = 0 ↔ value bs % 256 = 0 := by
  cases bs with
  | nil => exact absurd rfl hne
  | cons x bs =>
    have hx := x.toNat_lt
    rw [(holds_cons.mp hi).1, value_cons, ← toNat_eq_zero]
    omega

theorem first_septets {vs : List ℕ} (hv : ∀ v ∈ vs, v < 2 ^ 7) :
    Nat.ofDigits (2 ^ 7) vs % 256 = 0 ↔ vs.getD 0 0 = 0 ∧ vs.getD 1 0 % 2 = 0 := by
  match vs with
  | [] => simp
  | [v] =>
    have h := hv v (by simp)
    simp
    omega
  | v :: w :: vs =>
    have h := hv v (by simp)
    simp only [Nat.ofDigits_cons, getD_cons_zero, getD_cons_succ]
    omega

section FirstOctet

variable (hf : Fits dcs [] ud) (hne : ud ≠ []) (hi : Holds i 0 (packsms dcs [] ud))
include hf hne hi

theorem first_octet_7bit (h7 : is7bit dcs = true) :
    i 1 = 0 ↔ (ud.flatMap septets).getD 0 0 = 0 ∧ (ud.flatMap septets).getD 1 0 % 2 = 0 := by
  have hud := hf
  rw [Fits, if_pos h7] at hud
  rw [packsms_7bit h7 (fun _ => rfl) hf, holds_cons, Nat.zero_add] at hi
  have hwf : (textWriter [] ud).Wf := wf_textWriter hud.1
  have hlen := Writer.length_written hwf
  have htext := flatMap_septets_pos hne
  rw [bits_textWriter] at hlen
  have hnum : (textWriter [] ud).number = Nat.ofDigits (2 ^ 7) (ud.flatMap septets) := by
    rw [textWriter,
      Writer.number_foldl_put (wf_headerWriter []) (flatMap_septets_lt hud.1) (by omega)]
    simp [headerWriter, Writer.number, Writer.bits, headerOctets, headerSeptets, value]
  have hzero := value_eq_zero_iff (i := fun k => i (1 + k)) (holds_shift.mpr hi.2)
    (ne_nil_of_length_pos (by omega))
  rw [Writer.value_written hwf, hnum, first_septets (flatMap_septets_lt hud.1)] at hzero
  exact hzero

theorem first_octet_8bit (h7 : is7bit dcs = false) (h8 : is8bit dcs = true) :
    i 1 = 0 ↔ ud.headD 0 = 0 := by
  have hud := hf
  rw [Fits, if_neg (by simp [h7]), if_pos h8] at hud
  rw [packsms_8bit h7 h8 (fun _ => rfl) hf, holds_cons] at hi
  obtain ⟨u, ud, rfl⟩ := exists_cons_of_ne_nil hne
  have hu := toUInt16_toUInt8 (hud.1 u (by simp))
  have h1 : i 1 = u.toUInt8 := (holds_cons.mp hi.2).1
  rw [h1, headD_cons]
  constructor
  · intro h
    rw [← hu, h]
    rfl
  · rintro rfl
    rfl

theorem first_octet_16bit (h7 : is7bit dcs = false) (h8 : is8bit dcs = false) :
    i 1 = 0 ↔ ud.headD 0 < 256 := by
  rw [packsms_16bit h7 h8 (fun _ => rfl) hf, holds_cons] at hi
  obtain ⟨u, ud, rfl⟩ := exists_cons_of_ne_nil hne
  have hlt := u.toNat_lt
  have h1 : i 1 = (u >>> 8).toUInt8 := (holds_cons.mp hi.2).1
  have h256 : (256 : UInt16).toNat = 256 := rfl
  rw [h1, headD_cons, ← toNat_eq_zero, UInt16.toNat_toUInt8, toNat_shift,
    UInt16.lt_iff_toNat_lt, h256]
  omega

theorem startsWithZero_iff : i 1 = 0 ↔ StartsWithZero dcs ud := by
  rw [StartsWithZero]
  split_ifs with h7 h8
  · exact first_octet_7bit hf hne hi h7
  · exact first_octet_8bit hf hne hi (by simpa using h7) h8
  · exact first_octet_16bit hf hne hi (by simpa using h7) (by simpa using h8)

end FirstOctet

/-- The header is read where the receiver looks for one: there is user data behind it, or the octet
in its place reads as the length of an empty one. -/
def HeaderReads (dcs : UInt8) (udh : List UInt8) (ud : List UInt16) : Prop :=
  if udh ≠ [] then ud ≠ []
  else if ud = [] then is7bit dcs = true
  else StartsWithZero dcs ud

theorem aligned_of_headerReads (hf : Fits dcs udh ud) (hno : udhi = false → udh = [])
    (hread : udhi = true → HeaderReads dcs udh ud) (hi : Holds i 0 (packsms dcs udh ud)) :
    (ud = [] → udh = []) ∧ Aligned udhi udh (is7bit dcs = true ∧ i 0 = 0 ∨ i 1 = 0) := by
  by_cases hne : udh = []
  · refine ⟨fun _ => hne, .inr ⟨hne, fun hu => ?_⟩⟩
    have hr := hread hu
    rw [HeaderReads, if_neg (by simpa using hne)] at hr
    split_ifs at hr with hud
    · rw [hud, packsms_nil] at hi
      exact .inl ⟨hr, holds_singleton.mp hi⟩
    · subst hne
      exact .inr ((startsWithZero_iff hf hud hi).mpr hr)
  · have hu : udhi = true := by
      by_contra h
      exact hne (hno (by simpa using h))
    have hr := hread hu
    rw [HeaderReads, if_pos hne] at hr
    exact ⟨fun h => absurd h hr, .inl ⟨hne, hu⟩⟩

theorem Aligned.mono {a b : Prop} (h : Aligned udhi udh a) (hab : a → b) : Aligned udhi udh b :=
  h.imp_right fun h => ⟨h.1, fun hu => hab (h.2 hu)⟩

/-- An aligned message is read with the same header, and the text that is decoded from its coding.
-/
def Reads (udhi : Bool) (dcs : UInt8) (i : ℕ → UInt8) (udh : List UInt8) (ud : List UInt16)
    (n : ℕ) : Prop :=
  ∃ walked, unpacksms dcs i udhi = some (⟨udh.length, udh, ud, walked⟩, n)

section Codings

variable (ht : ud = [] → udh = []) (hf : Fits dcs udh ud) (hi : Holds i 0 (packsms dcs udh ud))
include ht hf hi

theorem reads_7bit (h7 : is7bit dcs = true) (ha : Aligned udhi udh (i 0 = 0 ∨ i 1 = 0)) :
    Reads udhi dcs i udh ((ud.flatMap septets).foldl pushSeptet []).reverse
      (packsms dcs udh ud).length := by
  have hfits := hf
  rw [Fits, if_pos h7, smslen] at hfits
  rw [packsms_7bit h7 ht hf] at hi ⊢
  obtain ⟨h0, hbody⟩ := holds_cons.mp hi
  have hl : (i 0).toNat = headerSeptets udh + (ud.flatMap septets).length := by
    rw [h0, UInt8.toNat_ofNat']
    omega
  have hwf : (textWriter udh ud).Wf := wf_textWriter hfits.1
  have hlen := Writer.length_written hwf
  rw [bits_textWriter, ← hl] at hlen
  refine ⟨((i 0).toNat * 7 + 7) / 8, ?_⟩
  rw [unpacksms_7bit h7, unpacksms7_written hfits.1 (holds_shift.mpr hbody) hl ha, length_cons,
    hlen, octetLength, if_pos h7, Nat.mul_comm]

theorem reads_8bit (h7 : is7bit dcs = false) (h8 : is8bit dcs = true)
    (ha : Aligned udhi udh (i 1 = 0)) : Reads udhi dcs i udh ud (packsms dcs udh ud).length := by
  have hfits := hf
  rw [Fits, if_neg (by simp [h7]), if_pos h8] at hfits
  rw [packsms_8bit h7 h8 ht hf] at hi ⊢
  obtain ⟨h0, hbody⟩ := holds_cons.mp hi
  have hl : (i 0).toNat = (headerOctets udh).length + ud.length := by
    rw [h0, UInt8.toNat_ofNat']
    omega
  refine ⟨(i 0).toNat, ?_⟩
  rw [unpacksms_8bit h7 h8, unpacksms8_written hfits.1 (holds_shift.mpr hbody) hl ha]
  simp [octetLength, h7, hl]

theorem reads_16bit (h7 : is7bit dcs = false) (h8 : is8bit dcs = false)
    (ha : Aligned udhi udh (i 1 = 0)) : Reads udhi dcs i udh ud (packsms dcs udh ud).length := by
  have hfits := hf
  rw [Fits, if_neg (by simp [h7]), if_neg (by simp [h8])] at hfits
  rw [packsms_16bit h7 h8 ht hf] at hi ⊢
  obtain ⟨h0, hbody⟩ := holds_cons.mp hi
  have hl : (i 0).toNat = (headerOctets udh).length + 2 * ud.length := by
    rw [h0, UInt8.toNat_ofNat']
    omega
  refine ⟨(i 0).toNat, ?_⟩
  rw [unpacksms_16bit h7 h8, unpacksms16_written (holds_shift.mpr hbody) hl ha]
  simp [octetLength, h7, hl]

end Codings

/-- User data that fits is unpacked with its header, and with the same text unless a character of it
is taken for the second half of an escape. -/
theorem unpacksms_packsms (hf : Fits dcs udh ud) (hno : udhi = false → udh = [])
    (hread : udhi = true → HeaderReads dcs udh ud) (hi : Holds i 0 (packsms dcs udh ud)) :
    ∃ ud', Reads udhi dcs i udh ud' (packsms dcs udh ud).length ∧
      (ud' = ud ↔ (is7bit dcs = true → ud.IsChain fun x u => ¬ Joins x u)) := by
  obtain ⟨ht, ha⟩ := aligned_of_headerReads hf hno hread hi
  by_cases h7 : is7bit dcs = true
  · refine ⟨_, reads_7bit ht hf hi h7 (ha.mono fun h => h.imp_left And.right), ?_⟩
    rw [Fits, if_pos h7] at hf
    rw [reverse_eq_iff]
    simpa [h7] using foldl_septets_eq_iff [] hf.1
  · have ha' : Aligned udhi udh (i 1 = 0) := ha.mono fun h => h.resolve_left fun h => h7 h.1
    rw [Bool.not_eq_true] at h7
    by_cases h8 : is8bit dcs = true
    · exact ⟨ud, reads_8bit ht hf hi h7 h8 ha', by simp [h7]⟩
    · exact ⟨ud, reads_16bit ht hf hi h7 (by simpa using h8) ha', by simp [h7]⟩

theorem length_udh_lt (hf : Fits dcs udh ud) : udh.length < 255 := by
  have ho : udh.length ≤ (headerOctets udh).length := by
    rw [headerOctets]
    split_ifs with h
    · simp [h]
    · simp
  have hs := (length_headerOctets udh).1
  rw [Fits, smslen] at hf
  split_ifs at hf <;> omega

theorem length_packsms_le (hf : Fits dcs udh ud) :
    0 < (packsms dcs udh ud).length ∧ (packsms dcs udh ud).length ≤ 141 := by
  by_cases hne : ud = []
  · rw [hne, packsms_nil]
    simp
  have ht : ud = [] → udh = [] := fun h => absurd h hne
  have hfits := hf
  rw [Fits] at hfits
  split_ifs at hfits with h7 h8
  · have hwf : (textWriter udh ud).Wf := wf_textWriter hfits.1
    rw [packsms_7bit h7 ht hf, length_cons, Writer.length_written hwf, bits_textWriter]
    unfold smslen at hfits
    omega
  · rw [packsms_8bit (by simpa using h7) h8 ht hf]
    simp only [length_cons, length_append, length_map]
    omega
  · rw [packsms_16bit (by simpa using h7) (by simpa using h8) ht hf]
    simp only [length_cons, length_append, length_unitOctets]
    omega

variable {u : Unpacked} {n : ℕ}

theorem udhl_of_unpacksms (h : unpacksms dcs i true = some (u, n))
    (h0 : is7bit dcs = true → i 0 ≠ 0) : u.udhl = (i 1).toNat := by
  rcases coding_cases dcs with h7 | ⟨h7, h8⟩ | ⟨h7, h8⟩
  · rw [unpacksms_7bit h7, Option.some.injEq, Prod.mk.injEq] at h
    obtain ⟨rfl, -⟩ := h
    by_cases hz : i 1 = 0
    · rw [unpacksms7_plain (by simp [hz]), hz]
      rfl
    · rw [unpacksms7, if_pos ⟨rfl, h0 h7, hz⟩]
      rfl
  · rw [unpacksms_8bit h7 h8, Option.some.injEq, Prod.mk.injEq] at h
    obtain ⟨rfl, -⟩ := h
    rw [unpacksms8]
    exact unpackHeader_fst
  · rw [unpacksms_16bit h7 h8, unpacksms16, Option.map_map] at h
    obtain ⟨r, -, hr⟩ := Option.map_eq_some_iff.mp h
    obtain ⟨rfl, -⟩ := Prod.mk.inj hr
    exact unpackHeader_fst

theorem unpacksms_zero_ne (hlen : udh.length < 255) (hne : udh ≠ []) (hi : i 0 = 0)
    (h : unpacksms dcs i true = some (u, n)) : u.udhl ≠ udh.length ∨ u.ud ≠ [] := by
  have hpos := length_pos_iff.mpr hne
  by_contra hc
  obtain ⟨hudhl, hud⟩ : u.udhl = udh.length ∧ u.ud = [] := by simpa using hc
  by_cases h7 : is7bit dcs = true
  · rw [unpacksms_7bit h7, Option.some.injEq, Prod.mk.injEq, hi, unpacksms7_plain (by simp)] at h
    rw [← h.1] at hudhl
    simp only [] at hudhl
    omega
  · rw [Bool.not_eq_true] at h7
    have hx := udhl_of_unpacksms h (by simp [h7])
    have hz : i 1 ≠ 0 := fun hz => by
      rw [hz] at hx
      simp only [UInt8.toNat_zero] at hx
      omega
    obtain ⟨l', heq, hl'⟩ := unpackHeader_wraps (i := fun k => i (1 + k)) rfl hz
    -- 255 octets follow the length of the header, and those that are not of the header are text
    simp only [Nat.add_zero] at hl'
    have hne' : l' ≠ 0 := toNat_pos_iff.mp (by omega)
    by_cases h8 : is8bit dcs = true
    · rw [unpacksms_8bit h7 h8, Option.some.injEq, Prod.mk.injEq, hi, unpacksms8, heq] at h
      rw [← h.1] at hud
      simp only [map_eq_nil_iff, octetsAt, range_eq_nil] at hud
      exact hne' (toNat_eq_zero.mp hud)
    · rw [unpacksms_16bit h7 (by simpa using h8), hi, unpacksms16, heq, Option.map_map] at h
      obtain ⟨r, hr, hu⟩ := Option.map_eq_some_iff.mp h
      obtain ⟨rfl, -⟩ := Prod.mk.inj hu
      exact unpackUnits_ne_nil hne' hr hud

theorem unpacksms_ne (hf : Fits dcs udh ud) (hbad : ¬ HeaderReads dcs udh ud)
    (hi : Holds i 0 (packsms dcs udh ud)) (hnext : udh = [] → ud = [] → i 1 ≠ 0)
    (h : unpacksms dcs i true = some (u, n)) : u.udhl ≠ udh.length ∨ u.ud ≠ ud := by
  rw [HeaderReads] at hbad
  split_ifs at hbad with hne hud
  · obtain rfl : ud = [] := by simpa using hbad
    rw [packsms_nil, holds_singleton] at hi
    exact unpacksms_zero_ne (length_udh_lt hf) hne hi h
  · obtain rfl : udh = [] := by simpa using hne
    subst hud
    left
    rw [udhl_of_unpacksms h fun h7 => absurd h7 hbad, length_nil]
    exact fun h => hnext rfl rfl (toNat_eq_zero.mp h)
  · obtain rfl : udh = [] := by simpa using hne
    left
    have hz : i 1 ≠ 0 := fun hz => hbad ((startsWithZero_iff hf hud hi).mp hz)
    rw [udhl_of_unpacksms h fun h7 => ?_, length_nil]
    · exact fun h => hz (toNat_eq_zero.mp h)
    · have hpos := flatMap_septets_pos hud
      rw [packsms_7bit h7 (fun _ => rfl) hf, holds_cons] at hi
      rw [Fits, if_pos h7, smslen] at hf
      rw [hi.1, ne_eq, ← toNat_eq_zero, UInt8.toNat_ofNat']
      omega

/-- The same header and text come back from what was packed, except for a header without text, which
is left out. -/
theorem round_trip_iff (hf : Fits dcs udh ud) (hesc : is7bit dcs = true → 0x00A0 ∉ ud)
    (hi : Holds i 0 (packsms dcs udh ud)) :
    Reads (udh ≠ []) dcs i udh ud (packsms dcs udh ud).length ↔ (ud = [] → udh = []) := by
  constructor
  · rintro ⟨walked, hread⟩ rfl
    by_contra hne
    rw [packsms_nil, holds_singleton] at hi
    rw [decide_eq_true hne] at hread
    rcases unpacksms_zero_ne (length_udh_lt hf) hne hi hread with h | h <;> exact h rfl
  · intro ht
    have hhead : decide (udh ≠ []) = true → HeaderReads dcs udh ud := by
      intro hne
      rw [HeaderReads, if_pos (of_decide_eq_true hne)]
      exact fun hnil => of_decide_eq_true hne (ht hnil)
    obtain ⟨ud', hread, hiff⟩ := unpacksms_packsms hf (by simp) hhead hi
    rwa [hiff.mpr fun h7 => ?_] at hread
    have hpair : ud.Pairwise fun x u => ¬ Joins x u := by
      refine pairwise_of_forall_mem_list fun x hx u _ hj => hesc h7 ?_
      rwa [← hj.1]
    exact hpair.isChain

/-- A header and a text with an escaped character in septets. -/
theorem round_trip_iff_headed :
    Reads (([5, 0] : List UInt8) ≠ []) 0xF1 (fun k =>
      (packsms 0xF1 [5, 0] [65, 0x20AC, 66]).getD k 0)
      [5, 0] [65, 0x20AC, 66] (packsms 0xF1 [5, 0] [65, 0x20AC, 66]).length :=
  (round_trip_iff (by decide) (by decide) fun k hk => by simp [hk]).mpr (by simp)

/-- A header of one octet alone is packed as no user data. -/
theorem lone_header_lost :
    packsms 0 [5] [] = [0] ∧ ¬ Reads true 0 (fun k => [0].getD k 0) [5] [] 1 := by
  refine ⟨rfl, ?_⟩
  rintro ⟨walked, hread⟩
  have hudhl : (unpacksms 0 (fun k => [0].getD k 0) true).map (fun r => r.1.udhl) = some 0 := by
    decide
  rw [hread] at hudhl
  cases hudhl

end CallWeaver.Sms
