import CallWeaver.Sms.Unpacking

/-! # Reception of arbitrary messages

The lengths in a message are used as they come. It is decoded within the arrays of `sms_t` and
within itself exactly if its lengths allow for it, and they are compared with each other only when
all is decoded.
-/

namespace CallWeaver.Sms

open List Option

section UserData

variable (dcs : UInt8) (i : ℕ → UInt8) (udhi : Bool)

def headerLength : ℕ := if udhi = true ∧ (is7bit dcs = true → i 0 ≠ 0) then (i 1).toNat else 0

def headerSeptetCount : ℕ :=
  if headerLength dcs i udhi = 0 then 0 else (8 * (headerLength dcs i udhi + 1) + 6) / 7

def textSeptets : List ℕ :=
  septetsAt (fun k => i (1 + k)) (7 * headerSeptetCount dcs i udhi)
    ((i 0).toNat - headerSeptetCount dcs i udhi)

def textOctets : ℕ :=
  if headerLength dcs i udhi = 0 then (i 0).toNat
  else if i 0 = 0 then 255 - headerLength dcs i udhi
  else (i 0).toNat - 1 - headerLength dcs i udhi

/-- The header ends before the user data does; one that does not ends at least with an octet of it.
-/
def HeaderEnds : Prop :=
  headerLength dcs i udhi ≠ 0 →
    if is7bit dcs then 8 * (headerLength dcs i udhi + 1) ≤ 7 * (i 0).toNat ∨ 8 ∣ (i 0).toNat
    else i 0 ≠ 0

def TextFits : Prop :=
  if is7bit dcs then (textSeptets dcs i udhi).length ≤
    smslen + completed false (textSeptets dcs i udhi)
  else if is8bit dcs then textOctets dcs i udhi ≤ smslen
  else textOctets dcs i udhi % 2 = 0

/-- What is unpacked at `q` respects the arrays and does not go beyond the position `e`. -/
structure Bounded (u : Unpacked) (n q e : ℕ) : Prop where
  udl : u.ud.length ≤ smslen
  udhl : u.udhl ≤ smslen
  udh : u.udh.length ≤ u.udhl
  position : q + n ≤ e
  walked : q + 1 + u.walked ≤ e

structure LengthsFit (q e : ℕ) : Prop where
  ends : q + (octetLength dcs (i 0) + 1) ≤ e
  header : headerLength dcs i udhi ≤ smslen
  header_ends : HeaderEnds dcs i udhi
  text : TextFits dcs i udhi

variable {dcs i udhi} {u : Unpacked} {q e n : ℕ}

theorem headerLength_ne_zero :
    headerLength dcs i udhi ≠ 0 ↔ udhi = true ∧ (is7bit dcs = true → i 0 ≠ 0) ∧ i 1 ≠ 0 := by
  rw [headerLength]
  split_ifs with h
  · simp only [ne_eq, toNat_eq_zero]
    tauto
  · tauto

theorem headerLength_eq (h : headerLength dcs i udhi ≠ 0) :
    headerLength dcs i udhi = (i 1).toNat := by
  rw [headerLength] at h ⊢
  split_ifs at h ⊢
  · rfl
  · exact absurd rfl h

theorem bounded_iff_lengthsFit (hw : u.walked = octetLength dcs (i 0))
    (hl : u.udhl = headerLength dcs i udhi) (hh : u.udh.length ≤ u.udhl)
    (he : HeaderEnds dcs i udhi) (ht : u.ud.length ≤ smslen ↔ TextFits dcs i udhi) :
    Bounded u (octetLength dcs (i 0) + 1) q e ↔ LengthsFit dcs i udhi q e := by
  constructor
  · intro h
    exact ⟨h.position, hl ▸ h.udhl, he, ht.mp h.udl⟩
  · intro h
    have hends := h.ends
    exact ⟨ht.mpr h.text, hl.symm ▸ h.header, hh, h.ends, by omega⟩

theorem length_text_le_iff (q n : ℕ) :
    ((septetsAt i q n).foldl pushSeptet []).reverse.length ≤ smslen ↔
    (septetsAt i q n).length ≤ smslen + completed false (septetsAt i q n) := by
  have h : ((septetsAt i q n).foldl pushSeptet []).length + completed false (septetsAt i q n) =
      [].length + (septetsAt i q n).length := length_foldl_pushSeptet (septetsAt_lt q) (by simp)
  rw [length_reverse]
  simp only [length_nil] at h
  omega

theorem bounded_7bit (h7 : is7bit dcs = true) (he : e ≤ 199) :
    Bounded (unpacksms7 (fun k => i (1 + k)) (i 0) udhi) (octetLength dcs (i 0) + 1) q e ↔
      LengthsFit dcs i udhi q e := by
  have hoct : octetLength dcs (i 0) = ((i 0).toNat * 7 + 7) / 8 := if_pos h7
  by_cases hz : headerLength dcs i udhi = 0
  · have hplain : ¬ (udhi ∧ i 0 ≠ 0 ∧ i (1 + 0) ≠ 0) := by
      rintro ⟨hu, hl, hh⟩
      exact headerLength_ne_zero.mpr ⟨hu, fun _ => hl, hh⟩ hz
    have hcount : headerSeptetCount dcs i udhi = 0 := if_pos hz
    rw [unpacksms7_plain hplain]
    apply bounded_iff_lengthsFit hoct.symm hz.symm (by simp) (fun h => absurd hz h)
    rw [TextFits, if_pos h7, textSeptets, hcount]
    exact length_text_le_iff _ _
  · obtain ⟨hu, hl, hh⟩ := headerLength_ne_zero.mp hz
    have heq := headerLength_eq hz
    have hcount : headerSeptetCount dcs i udhi = (8 * ((i 1).toNat + 1) + 6) / 7 := by
      rw [headerSeptetCount, if_neg hz, heq]
    by_cases hfit : 8 * ((i 1).toNat + 1) ≤ 7 * (i 0).toNat
    · rw [unpacksms7_header hu (hl h7) hh hfit]
      apply bounded_iff_lengthsFit hoct.symm heq.symm
      · simp [octetsAt]
      · intro _
        rw [if_pos h7, heq]
        exact .inl hfit
      · rw [TextFits, if_pos h7, textSeptets, hcount]
        exact length_text_le_iff _ _
    · by_cases h8 : 8 ∣ (i 0).toNat
      · rw [unpacksms7_cut hu (hl h7) hh (Nat.lt_of_not_le hfit) h8]
        apply bounded_iff_lengthsFit hoct.symm heq.symm
        · simp only [octetsAt, length_map, length_range, Nat.add_zero]
          omega
        · intro _
          rw [if_pos h7]
          exact .inr h8
        · have hnil : (i 0).toNat - (8 * ((i 1).toNat + 1) + 6) / 7 = 0 := by omega
          rw [TextFits, if_pos h7, textSeptets, hcount, hnil]
          simp [septetsAt]
      · have hwalk : 225 ≤ (unpacksms7 (fun k => i (1 + k)) (i 0) udhi).walked :=
          unpacksms7_wraps hu (hl h7) hh (Nat.lt_of_not_le hfit) h8
        constructor
        · intro h
          have hle := h.walked
          omega
        · intro h
          have hends := h.header_ends hz
          rw [if_pos h7, heq] at hends
          exact absurd hends (not_or.mpr ⟨hfit, h8⟩)

theorem unpackHeader_spec (i : ℕ → UInt8) (udhi : Bool) (h7 : is7bit dcs = false) :
    ∃ udh p l',
      unpackHeader (fun k => i (1 + k)) (i 0) udhi = (headerLength dcs i udhi, udh, p, l') ∧
      udh.length ≤ headerLength dcs i udhi ∧ l'.toNat = textOctets dcs i udhi ∧
        (HeaderEnds dcs i udhi ∧ p + l'.toNat = (i 0).toNat ∨ ¬ HeaderEnds dcs i udhi ∧
          p + l'.toNat = 256) := by
  by_cases hz : headerLength dcs i udhi = 0
  · refine ⟨[], 0, i 0, ?_, by simp, by rw [textOctets, if_pos hz],
      .inl ⟨fun h => absurd hz h, by simp⟩⟩
    rw [unpackHeader_plain, hz]
    rintro ⟨hu, hh⟩
    exact headerLength_ne_zero.mpr ⟨hu, by simp [h7], hh⟩ hz
  · obtain ⟨hu, -, hh⟩ := headerLength_ne_zero.mp hz
    have heq := headerLength_eq hz
    have hends : HeaderEnds dcs i udhi ↔ i 0 ≠ 0 := by
      simp [HeaderEnds, hz, h7]
    rw [hends, textOctets, if_neg hz, heq]
    have hlt := (i 1).toNat_lt
    by_cases hl : i 0 = 0
    · obtain ⟨l', hl', hn⟩ := unpackHeader_wraps (i := fun k => i (1 + k)) hu hh
      rw [hl, hl', if_pos rfl]
      refine ⟨_, _, _, rfl, by simp [octetsAt], hn, .inr ⟨by simp, ?_⟩⟩
      simp only [Nat.add_zero] at hn ⊢
      omega
    · obtain ⟨l', hl', hn⟩ := unpackHeader_header (i := fun k => i (1 + k)) hu hl hh
      have hpos := toNat_pos_iff.mpr hl
      rw [hl', if_neg hl]
      refine ⟨_, _, _, rfl, by simp [octetsAt], hn, .inl ⟨hl, ?_⟩⟩
      omega

theorem bounded_8bit (h7 : is7bit dcs = false) (h8 : is8bit dcs = true) (he : e ≤ 199) :
    Bounded (unpacksms8 (fun k => i (1 + k)) (i 0) udhi) (octetLength dcs (i 0) + 1) q e ↔
      LengthsFit dcs i udhi q e := by
  obtain ⟨udh, p, l', heq, hudh, hn, ⟨hends, hw⟩ | ⟨hends, hw⟩⟩ := unpackHeader_spec i udhi h7
  · simp only [unpacksms8, heq]
    apply bounded_iff_lengthsFit
    · simpa [octetLength, h7] using hw
    · rfl
    · exact hudh
    · exact hends
    · simp [TextFits, h7, h8, octetsAt, hn]
  · constructor
    · intro h
      have hle := h.walked
      simp only [unpacksms8, heq] at hle
      omega
    · intro h
      exact absurd h.header_ends hends

theorem bounded_16bit (h7 : is7bit dcs = false) (h8 : is8bit dcs = false) (he : e ≤ 199) :
    (∃ u, unpacksms16 (fun k => i (1 + k)) (i 0) udhi = some u ∧
      Bounded u (octetLength dcs (i 0) + 1) q e) ↔ LengthsFit dcs i udhi q e := by
  obtain ⟨udh, p, l', heq, hudh, hn, hw⟩ := unpackHeader_spec i udhi h7
  have ht : TextFits dcs i udhi ↔ l'.toNat % 2 = 0 := by
    simp [TextFits, h7, h8, hn]
  simp only [unpacksms16, heq]
  by_cases hodd : l'.toNat % 2 = 0
  · obtain ⟨m, hm⟩ : ∃ m, l'.toNat = 2 * m := ⟨l'.toNat / 2, by omega⟩
    have hlt := l'.toNat_lt
    rw [unpackUnits_even hm (by omega)]
    simp only [map_some, some.injEq, exists_eq_left']
    rcases hw with ⟨hends, hw⟩ | ⟨hends, hw⟩
    · apply bounded_iff_lengthsFit
      · simpa [octetLength, h7] using hw
      · rfl
      · exact hudh
      · exact hends
      · rw [ht]
        simp only [length_map, length_range, smslen]
        omega
    · constructor
      · intro h
        have hle := h.walked
        simp only [] at hle
        omega
      · intro h
        exact absurd h.header_ends hends
  · rw [unpackUnits_odd (by omega)]
    constructor
    · rintro ⟨u, hu, -⟩
      cases hu
    · intro h
      exact absurd (ht.mp h.text) hodd

theorem unpacksms_bounded_iff (he : e ≤ 199) :
    (∃ u n, unpacksms dcs i udhi = some (u, n) ∧ Bounded u n q e) ↔ LengthsFit dcs i udhi q e := by
  rcases coding_cases dcs with h7 | ⟨h7, h8⟩ | ⟨h7, h8⟩
  · rw [← bounded_7bit h7 he, unpacksms_7bit h7]
    simp
  · rw [← bounded_8bit h7 h8 he, unpacksms_8bit h7 h8]
    simp
  · rw [← bounded_16bit h7 h8 he, unpacksms_16bit h7 h8]
    simp

def TextEnds (dcs : UInt8) (i : ℕ → UInt8) (udhi : Bool) : Prop :=
  is7bit dcs = false → is8bit dcs = false → textOctets dcs i udhi % 2 = 0

theorem exists_unpacksms_iff : (∃ r, unpacksms dcs i udhi = some r) ↔ TextEnds dcs i udhi := by
  rcases coding_cases dcs with h7 | ⟨h7, h8⟩ | ⟨h7, h8⟩
  · simp [unpacksms_7bit h7, TextEnds, h7]
  · simp [unpacksms_8bit h7 h8, TextEnds, h8]
  · obtain ⟨udh, p, l', heq, -, hn, -⟩ := unpackHeader_spec i udhi h7
    have hends : TextEnds dcs i udhi ↔ l'.toNat % 2 = 0 := by simp [TextEnds, h7, h8, hn]
    rw [hends, unpacksms_16bit h7 h8]
    simp only [unpacksms16, heq]
    by_cases hodd : l'.toNat % 2 = 0
    · obtain ⟨m, hm⟩ : ∃ m, l'.toNat = 2 * m := ⟨l'.toNat / 2, by omega⟩
      have hlt := l'.toNat_lt
      rw [unpackUnits_even hm (by omega)]
      simp [hodd]
    · rw [unpackUnits_odd (by omega)]
      simp [hodd]

theorem unpacksms_snd (h : unpacksms dcs i udhi = some (u, n)) : n = octetLength dcs (i 0) + 1 := by
  obtain ⟨u', -, heq⟩ := map_eq_some_iff.mp h
  exact (congrArg Prod.snd heq).symm

end UserData

/-- The array `imsg` when a message is complete: its second octet is the length, and a checksum
follows. -/
structure Message where
  imsg : ℕ → UInt8
  received : (imsg 1).toNat + 3 ≤ 200

def addressAt (smsc : Bool) : ℕ := if smsc then 4 else 3

namespace Message

variable (m : Message) (smsc : Bool)

def Recognised : Prop := m.imsg 2 &&& 3 = if smsc then 1 else 0
  deriving Decidable

def digits : ℕ := (m.imsg (addressAt smsc)).toNat

def addressLength : ℕ := (if m.imsg (addressAt smsc + 1) = 0x91 then 1 else 0) + m.digits smsc

def pidAt : ℕ := addressAt smsc + (m.digits smsc + 5) / 2

def dcs : UInt8 := m.imsg (m.pidAt smsc + 1)

def skipped : ℕ :=
  if smsc then
    if m.imsg 2 &&& 0x18 = 0x10 then 1 else if m.imsg 2 &&& 0x18 ≠ 0 then 7 else 0
  else 7

def userAt : ℕ := m.pidAt smsc + 2 + m.skipped smsc

def user : ℕ → UInt8 := fun k => m.imsg (m.userAt smsc + k)

def udhi : Bool := m.imsg 2 &&& 0x40 != 0

def last : ℕ := (m.imsg 1).toNat + 2

def positions : List ℕ :=
  [addressAt smsc, m.pidAt smsc, m.pidAt smsc + 2, m.userAt smsc] ++
    match unpacksms (m.dcs smsc) (m.user smsc) m.udhi with
    | none => []
    | some (u, n) => [m.userAt smsc + n, m.userAt smsc + 1 + u.walked]

structure Fits : Prop where
  address : m.addressLength smsc ≤ 19
  user : LengthsFit (m.dcs smsc) (m.user smsc) m.udhi (m.userAt smsc) m.last

/-- The lengths in the message add up to its own length. -/
def AddsUp : Prop := (m.userAt smsc + (octetLength (m.dcs smsc) (m.user smsc 0) + 1)) % 256 = m.last

structure Respects (g : State) : Prop where
  address : (if smsc then g.da else g.oa).length ≤ 19
  udl : g.ud.length ≤ smslen
  udhl : g.udhl ≤ smslen
  udh : g.udh.length ≤ g.udhl
  position : ∀ p ∈ m.positions smsc, p ≤ m.last

/-- A message is decoded within bounds, or it is refused as it came. -/
def Sane (now : Tm) (h : State) : Prop :=
  ∃ g cause, smsHandleincoming now h m.imsg = some (g, cause) ∧
    if m.Recognised h.smsc then m.Respects h.smsc g else cause ≠ 0 ∧ g = h

/-- A message that is accepted was decoded within bounds. -/
def SaneIfAccepted (now : Tm) (h : State) : Prop :=
  ∃ g cause, smsHandleincoming now h m.imsg = some (g, cause) ∧ (cause = 0 → m.Respects h.smsc g)

variable {m smsc} {now : Tm} {h g g' : State}

theorem smsHandleincoming_refused (hr : ¬ m.Recognised h.smsc) :
    smsHandleincoming now h m.imsg = some (h, 0xFF) := by
  rw [Recognised] at hr
  rw [smsHandleincoming]
  split_ifs at hr ⊢ <;> rfl

structure Begun (m : Message) (smsc : Bool) (g : State) : Prop where
  address : (if smsc then g.da else g.oa).length = m.addressLength smsc
  dcs : g.dcs = m.dcs smsc
  udhi : g.udhi = m.udhi

theorem length_unpackaddress (m : Message) (smsc : Bool) :
    (unpackaddress fun k => m.imsg (addressAt smsc + k)).1.length = m.addressLength smsc := by
  simp only [unpackaddress, addressLength, digits, length_append, length_map, length_range,
    Nat.add_zero]
  split_ifs <;> rfl

theorem smsHandleincoming_recognised (now : Tm) (hr : m.Recognised h.smsc) :
    ∃ g, smsHandleincoming now h m.imsg = receive g m.imsg (m.userAt h.smsc) ∧
      m.Begun h.smsc g := by
  rw [Recognised] at hr
  cases hs : h.smsc with
  | true =>
    have hvp : (unpackvp m.imsg (m.pidAt true + 2)).2 = m.userAt true := by
      simp only [unpackvp, userAt, skipped, if_true]
      split_ifs <;> rfl
    simp only [smsHandleincoming, hs, if_true, hr, receiveSubmit]
    rw [← hvp]
    exact ⟨_, rfl, length_unpackaddress m true, rfl, rfl⟩
  | false =>
    simp only [smsHandleincoming, hs, Bool.false_eq_true, if_false, hr, if_true, receiveDeliver]
    exact ⟨_, rfl, length_unpackaddress m false, rfl, rfl⟩

theorem positions_le_iff {u : Unpacked} {n e : ℕ}
    (hu : unpacksms (m.dcs smsc) (m.user smsc) m.udhi = some (u, n)) :
    (∀ p ∈ m.positions smsc, p ≤ e) ↔ m.userAt smsc + n ≤ e ∧ m.userAt smsc + 1 + u.walked ≤ e := by
  have hpid : addressAt smsc ≤ m.pidAt smsc := Nat.le_add_right _ _
  have huser : m.pidAt smsc + 2 ≤ m.userAt smsc := Nat.le_add_right _ _
  simp only [positions, hu, cons_append, nil_append, forall_mem_cons, not_mem_nil,
    false_implies, implies_true, and_true]
  omega

theorem respects_iff (hg : m.Begun smsc g) :
    (∃ g' cause, receive g m.imsg (m.userAt smsc) = some (g', cause) ∧ m.Respects smsc g') ↔
      m.Fits smsc := by
  have hlast : m.last ≤ 199 := by
    have hr := m.received
    rw [last]
    omega
  have huser : LengthsFit (m.dcs smsc) (m.user smsc) m.udhi (m.userAt smsc) m.last ↔ _ :=
    (unpacksms_bounded_iff hlast).symm
  rw [receive, hg.dcs, hg.udhi]
  constructor
  · rintro ⟨g', cause, hr, hres⟩
    obtain ⟨⟨u, n⟩, hu, heq⟩ := map_eq_some_iff.mp hr
    obtain ⟨rfl, -⟩ := Prod.mk.inj heq
    have hpos := (positions_le_iff hu).mp hres.position
    exact ⟨hg.address ▸ hres.address,
      huser.mpr ⟨u, n, hu, ⟨hres.udl, hres.udhl, hres.udh, hpos.1, hpos.2⟩⟩⟩
  · rintro ⟨haddr, hfit⟩
    obtain ⟨u, n, hu, hb⟩ := huser.mp hfit
    have hu' : unpacksms (m.dcs smsc) (fun k => m.imsg (m.userAt smsc + k)) m.udhi = some (u, n) :=
      hu
    rw [hu']
    exact ⟨_, _, rfl, hg.address.symm ▸ haddr, hb.udl, hb.udhl, hb.udh,
      (positions_le_iff hu).mpr ⟨hb.position, hb.walked⟩⟩

theorem receive_cases (hg : m.Begun smsc g) :
    (∃ g' cause, receive g m.imsg (m.userAt smsc) = some (g', cause)) ↔
      TextEnds (m.dcs smsc) (m.user smsc) m.udhi := by
  rw [receive, hg.dcs, hg.udhi, ← exists_unpacksms_iff]
  constructor
  · rintro ⟨g', cause, hr⟩
    obtain ⟨r, hu, -⟩ := map_eq_some_iff.mp hr
    exact ⟨r, hu⟩
  · rintro ⟨r, hu⟩
    have hu' : unpacksms (m.dcs smsc) (fun k => m.imsg (m.userAt smsc + k)) m.udhi = some r := hu
    rw [hu']
    exact ⟨_, _, rfl⟩

theorem cause_eq_zero_iff {cause : UInt8} (hg : m.Begun smsc g)
    (hr : receive g m.imsg (m.userAt smsc) = some (g', cause)) : cause = 0 ↔ m.AddsUp smsc := by
  rw [receive, hg.dcs, hg.udhi] at hr
  obtain ⟨⟨u, n⟩, hu, heq⟩ := map_eq_some_iff.mp hr
  have hn : n = octetLength (m.dcs smsc) (m.user smsc 0) + 1 := unpacksms_snd hu
  obtain ⟨-, rfl⟩ := Prod.mk.inj heq
  rw [AddsUp, ← hn, last]
  split_ifs with h
  · simp [h]
  · simpa using h

/-- Every message is decoded within bounds or refused as it came if and only if the lengths in one
that is recognised fit. With other fields out of bounds a message whose address fits is answered by
a cause if and only if, besides, the lengths do not add up and the text ends. -/
theorem sane_iff (now : Tm) (h : State) (m : Message) :
    (m.Sane now h ↔ (m.Recognised h.smsc → m.Fits h.smsc)) ∧
      -- a longer address is written over what follows it, the header indication included
      (m.addressLength h.smsc ≤ 19 → (m.SaneIfAccepted now h ↔ (m.Recognised h.smsc →
        TextEnds (m.dcs h.smsc) (m.user h.smsc) m.udhi ∧ (m.AddsUp h.smsc → m.Fits h.smsc)))) := by
  rw [Sane, SaneIfAccepted]
  by_cases hr : m.Recognised h.smsc
  · obtain ⟨g, heq, hg⟩ := smsHandleincoming_recognised now hr
    rw [heq]
    simp only [hr, if_true, true_implies]
    refine ⟨respects_iff hg, fun _ => ?_⟩
    rw [← receive_cases hg, ← respects_iff hg]
    constructor
    · rintro ⟨g', cause, hrec, hres⟩
      exact ⟨⟨g', cause, hrec⟩,
        fun ha => ⟨g', cause, hrec, hres ((cause_eq_zero_iff hg hrec).mpr ha)⟩⟩
    · rintro ⟨⟨g', cause, hrec⟩, hres⟩
      refine ⟨g', cause, hrec, fun hc => ?_⟩
      obtain ⟨g'', cause', hrec', hresp⟩ := hres ((cause_eq_zero_iff hg hrec).mp hc)
      rw [hrec, some.injEq, Prod.mk.injEq] at hrec'
      rw [hrec'.1]
      exact hresp
  · rw [smsHandleincoming_refused hr]
    simp only [hr, if_false, false_implies, iff_true]
    exact ⟨⟨h, 0xFF, rfl, by decide, rfl⟩, fun _ => ⟨h, 0xFF, rfl, fun hc => absurd hc (by decide)⟩⟩

def idleCentre : State where
  smsc := true
  rx := false
  oa := []
  da := []
  scts := ⟨106, 0, 1, 0, 0, 0⟩
  pid := 0
  dcs := 0xF1
  mr := -1
  udhl := 0
  srr := false
  udhi := false
  rp := false
  vp := 0
  ud := []
  udh := []
  cli := []

def longAddress : Message where
  imsg k := [0x91, 17, 0x01, 0, 20, 0x81, 0, 0, 0, 0, 0, 0, 0, 0, 0, 0, 0, 0xF1, 0].getD k 0
  received := by decide

/-- The message is accepted, and its address is longer than the array for it. -/
theorem long_address_accepted :
    (smsHandleincoming idleCentre.scts idleCentre longAddress.imsg).map
      (fun (g, cause) => (cause, g.da.length)) = some (0, 20) ∧
    ¬ longAddress.SaneIfAccepted idleCentre.scts idleCentre ∧
      ¬ longAddress.Sane idleCentre.scts idleCentre := by
  have hcalc : (smsHandleincoming idleCentre.scts idleCentre longAddress.imsg).map
      (fun (g, cause) => (cause, g.da.length)) = some (0, 20) := by decide +kernel
  have hlong :
      ∀ g cause, smsHandleincoming idleCentre.scts idleCentre longAddress.imsg = some (g, cause) →
      cause = 0 ∧ ¬ longAddress.Respects true g := by
    intro g cause hg
    rw [hg, map_some, some.injEq, Prod.mk.injEq] at hcalc
    refine ⟨hcalc.1, fun hres => ?_⟩
    have haddr : g.da.length ≤ 19 := hres.address
    omega
  refine ⟨hcalc, ?_, ?_⟩
  · rintro ⟨g, cause, hg, hres⟩
    obtain ⟨hc, hnot⟩ := hlong g cause hg
    exact hnot (hres hc)
  · rintro ⟨g, cause, hg, hres⟩
    rw [if_pos (by decide)] at hres
    exact (hlong g cause hg).2 hres

end Message

end CallWeaver.Sms
