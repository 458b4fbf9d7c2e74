import CallWeaver.Sms.Addresses
import CallWeaver.Sms.UserData

/-! # Transport of a message

What one side sends is what the other side receives, as long as the message has no header or is a
submit message with user data, and no character is taken for the second half of an escape.
-/

namespace CallWeaver.Sms

open List Option

section Roles

/-- A message with an address, a header and user data that can be sent. -/
structure Outgoing extends State where
  addressed : da ≠ [] ∨ oa ≠ []
  number : IsNumber (if smsc then oa else da)
  length_udh : udh.length = udhl
  headed : udhi = false → udh = []
  fits : Fits dcs udh ud

def arrived (wire : List UInt8) (stale : ℕ → UInt8) : ℕ → UInt8 := fun k => wire.getD k (stale k)

structure SameMessage (h g : State) : Prop where
  address : (if h.smsc then g.oa else g.da) = if h.smsc then h.oa else h.da
  pid : g.pid = h.pid
  dcs : g.dcs = h.dcs
  udhi : g.udhi = h.udhi
  udhl : g.udhl = h.udhl
  udh : g.udh = h.udh
  ud : g.ud = h.ud

/-- The message is accepted by a receiver of the opposite role and is the same there. -/
def Delivered (timezone : ℤ) (now : Tm) (h g : State) (stale : ℕ → UInt8) (more : Bool)
    (messageRef : UInt8) : Prop :=
  ∃ g', smsHandleincoming now { g with smsc := !h.smsc }
      (arrived (smsNextoutgoing timezone h more messageRef).2 stale) = some (g', 0) ∧
      SameMessage h g'

/-- No header is announced that is not sent or not read, and no character is taken for the second
half of an escape. -/
def Transportable (h : State) : Prop :=
  (h.udhi = true → h.smsc = false ∧ HeaderReads h.dcs h.udh h.ud) ∧
    (is7bit h.dcs = true → h.ud.IsChain fun x u => ¬ Joins x u)

theorem holds_arrived (wire : List UInt8) (stale : ℕ → UInt8) :
    Holds (arrived wire stale) 0 wire := by
  intro k hk
  rw [arrived, Nat.zero_add, getD_eq_getElem _ _ hk]

def Unpacks (h : State) (i : ℕ → UInt8) (q : ℕ) (udhi : Bool) : Prop :=
  ∃ u n, unpacksms h.dcs (fun k => i (q + k)) udhi = some (u, n) ∧
    (q + n) % 256 = q + (packsms h.dcs h.udh h.ud).length ∧ u.udhl = h.udhl ∧
    u.udh = h.udh ∧ u.ud = h.ud

def Arrives (h : State) (i : ℕ → UInt8) (q : ℕ) : Prop :=
  Holds i q (packsms h.dcs h.udh h.ud) ∧ q + (packsms h.dcs h.udh h.ud).length < 256

theorem receive_iff {h g : State} {i : ℕ → UInt8} {q : ℕ} (hd : g.dcs = h.dcs)
    (hlen : (i 1).toNat + 2 = q + (packsms h.dcs h.udh h.ud).length)
    (ha : (if h.smsc then g.oa else g.da) = if h.smsc then h.oa else h.da) (hp : g.pid = h.pid) :
    (∃ g', receive g i q = some (g', 0) ∧ SameMessage h g') ↔
      g.udhi = h.udhi ∧ Unpacks h i q g.udhi := by
  rw [receive, hd, hlen]
  constructor
  · rintro ⟨g', hg, hsame⟩
    obtain ⟨⟨u, n⟩, hu, hr⟩ := map_eq_some_iff.mp hg
    obtain ⟨rfl, hcause⟩ := Prod.mk.inj hr
    refine ⟨hsame.udhi, u, n, hu, ?_, hsame.udhl, hsame.udh, hsame.ud⟩
    by_contra hne
    rw [if_pos hne] at hcause
    exact absurd hcause (by decide)
  · rintro ⟨hudhi, u, n, hu, hn, hudhl, hudh, hud⟩
    simp only [hu, map_some, hn, ne_eq, not_true_eq_false, if_false]
    exact ⟨_, rfl, ⟨ha, hp, rfl, hudhi, hudhl, hudh, hud⟩⟩

section Layout

variable (timezone : ℤ) (now : Tm) (g : State) (stale : ℕ → UInt8) (more : Bool)
  (messageRef : UInt8) (h : Outgoing) {i : ℕ → UInt8}

theorem take_udh : h.udh.take h.udhl = h.udh := by
  rw [← h.length_udh]
  exact take_length

/-- Where the receiver of a message finds its fields behind the first octets `pre`. -/
theorem exists_fields {a body : List UInt8} (pre gap : List UInt8) (ha : IsNumber a)
    (hpre : pre.length ≤ 2) (hgap : gap.length ≤ 7)
    (hbody : body = pre ++ packaddress a ++ [h.pid, h.dcs] ++ gap ++ packsms h.dcs h.udh h.ud)
    (hi : Holds i 0 (smsMessagetx ([0x91, UInt8.ofNat body.length] ++ body))) :
    ∃ p q, p = 2 + pre.length + (packaddress a).length ∧ q = p + 2 + gap.length ∧ Holds i 2 pre ∧
      unpackaddress (fun k => i (2 + pre.length + k)) = (a, (packaddress a).length) ∧
      i p = h.pid ∧ i (p + 1) = h.dcs ∧ Arrives h.toState i q ∧
      (i 1).toNat + 2 = q + (packsms h.dcs h.udh h.ud).length ∧
      i (q + (packsms h.dcs h.udh h.ud).length) =
      0 - ([0x91, UInt8.ofNat body.length] ++ body).sum := by
  have hsms := length_packsms_le h.fits
  have hle : (packaddress a).length ≤ 11 := by
    have := ha.2
    rw [length_packaddress ha]
    omega
  have hlen : body.length = pre.length + (packaddress a).length + 2 + gap.length +
      (packsms h.dcs h.udh h.ud).length := by
    simp only [hbody, length_append, length_cons, length_nil]
  rw [smsMessagetx, holds_append, holds_append, holds_cons, holds_singleton, holds_singleton] at hi
  obtain ⟨⟨⟨-, h1⟩, (hall : Holds i 2 body)⟩, hsum⟩ := hi
  simp only [hbody, holds_append, holds_cons, holds_nil, and_true, length_append, length_cons,
    length_nil, ← Nat.add_assoc] at hall
  obtain ⟨⟨⟨⟨hfirst, haddr⟩, hpid, hdcs⟩, -⟩, huser⟩ := hall
  refine ⟨_, _, rfl, rfl, hfirst, unpackaddress_packaddress ha (holds_shift.mpr haddr), hpid, hdcs,
    ⟨huser, by omega⟩, ?_, ?_⟩
  · rw [h1, UInt8.toNat_ofNat']
    omega
  · rw [← hsum]
    congr 1
    simp only [length_append, length_cons, length_nil]
    omega

theorem delivered_deliver_iff (hs : h.smsc = true) :
    let i := arrived (smsNextoutgoing timezone h.toState more messageRef).2 stale
    ∃ q, Arrives h.toState i q ∧
      (Delivered timezone now h.toState g stale more messageRef ↔
        h.udhi = false ∧ Unpacks h.toState i q false) := by
  have hnum := h.number
  rw [if_pos hs] at hnum
  have hwire : (smsNextoutgoing timezone h.toState more messageRef).2 =
      smsMessagetx ([0x91, UInt8.ofNat (deliver timezone h.toState more).length] ++
        deliver timezone h.toState more) := by
    simp only [smsNextoutgoing, hs, if_pos h.addressed, if_true]
    rfl
  have hi := holds_arrived (smsNextoutgoing timezone h.toState more messageRef).2 stale
  unfold Delivered
  generalize arrived (smsNextoutgoing timezone h.toState more messageRef).2 stale = i at hi ⊢
  rw [hwire] at hi
  obtain ⟨p, q, hp, hq, hfirst, (haddr : unpackaddress (fun k => i (3 + k)) = _), hpid, hdcs,
      huser, hlen, -⟩ :=
    exists_fields h [deliverFlags more] (packdate timezone h.scts) hnum (Nat.le_succ 1)
      (length_packdate ..).le (by rw [deliver, take_udh]) hi
  have h2 := holds_singleton.mp hfirst
  have hkind : i 2 &&& 3 = 0 := by
    rw [h2]
    cases more <;> rfl
  have hudhi : (i 2 &&& 0x40 != 0) = false := by
    rw [h2]
    cases more <;> rfl
  refine ⟨q, huser, ?_⟩
  rw [length_packdate] at hq
  subst hq hp
  simp only [smsHandleincoming, hs, Bool.not_true, Bool.false_eq_true, if_false, hkind, if_true,
    receiveDeliver, haddr]
  refine (receive_iff hdcs hlen (by simp only [hs, if_true]) hpid).trans ?_
  simp only [setFlags, hudhi, eq_comm]

def reference : ℤ := if h.mr < 0 then messageRef.toNat else h.mr

def submitRest : List UInt8 :=
  [octetOf (reference messageRef h)] ++ packaddress h.da ++ [h.pid, h.dcs] ++
    (if h.vp ≠ 0 then [packvp h.vp] else []) ++ packsms h.dcs h.udh h.ud

def checksum : UInt8 :=
  0 - ([0x91, UInt8.ofNat (submitFlags h.toState more :: submitRest messageRef h).length] ++
    (submitFlags h.toState more :: submitRest messageRef h)).sum

/-- The checksum cannot be zero both with and without further messages behind it. -/
theorem exists_checksum_ne : ∃ more, checksum more messageRef h ≠ 0 := by
  by_contra hc
  have hzero : ∀ more, checksum more messageRef h = 0 := by simpa using hc
  have hflags : submitFlags h.toState true = submitFlags h.toState false + 4 := by
    simp only [submitFlags, Bool.false_eq_true, if_false, if_true]
    grind
  have hf := hzero false
  have ht := hzero true
  simp only [checksum, cons_append, nil_append, sum_cons, length_cons, hflags] at hf ht
  have hfour : (4 : UInt8) = 0 := by grind
  exact absurd hfour (by decide)

theorem smsNextoutgoing_submit (hs : h.smsc = false) :
    (smsNextoutgoing timezone h.toState more messageRef).2 = smsMessagetx
      ([0x91, UInt8.ofNat (submitFlags h.toState more :: submitRest messageRef h).length] ++
        (submitFlags h.toState more :: submitRest messageRef h)) := by
  have hbody : submit { h.toState with rx := false, mr := reference messageRef h } more =
      submitFlags h.toState more :: submitRest messageRef h := by
    simp only [submit, submitRest, take_udh, cons_append, append_assoc]
    rfl
  rw [← hbody]
  simp only [smsNextoutgoing, hs, if_pos h.addressed, Bool.false_eq_true, if_false, reference]
  split_ifs <;> rfl

theorem submitFlags_spec :
    submitFlags h.toState more &&& 3 = 1 ∧ (submitFlags h.toState more &&& 0x40 != 0) = h.udhi ∧
      submitFlags h.toState more &&& 0x18 = if h.vp ≠ 0 then 0x10 else 0 := by
  rw [submitFlags]
  by_cases hv : h.vp = 0 <;> cases more <;> cases h.srr <;> cases h.rp <;> cases h.udhi <;>
    simp [hv] <;>
    decide

theorem unpackvp_snd {p : ℕ} (h2 : i 2 = submitFlags h.toState more) :
    (unpackvp i p).2 = p + (if h.vp ≠ 0 then [packvp h.vp] else []).length := by
  have hf := (submitFlags_spec more h).2.2
  rw [unpackvp, h2, hf]
  split_ifs with hv hx hx <;> simp_all

theorem delivered_submit_iff (hs : h.smsc = false) :
    let i := arrived (smsNextoutgoing timezone h.toState more messageRef).2 stale
    ∃ q, Arrives h.toState i q ∧
      i (q + (packsms h.dcs h.udh h.ud).length) = checksum more messageRef h ∧
      (Delivered timezone now h.toState g stale more messageRef ↔
        Unpacks h.toState i q h.udhi) := by
  have hnum := h.number
  simp only [hs, Bool.false_eq_true, if_false] at hnum
  obtain ⟨hkind, hudhi, -⟩ := submitFlags_spec more h
  have hi := holds_arrived (smsNextoutgoing timezone h.toState more messageRef).2 stale
  unfold Delivered
  generalize arrived (smsNextoutgoing timezone h.toState more messageRef).2 stale = i at hi ⊢
  rw [smsNextoutgoing_submit timezone more messageRef h hs] at hi
  have hgap : (if h.vp ≠ 0 then [packvp h.vp] else []).length ≤ 7 := by
    split_ifs <;> simp
  obtain ⟨p, q, hp, hq, hfirst, (haddr : unpackaddress (fun k => i (4 + k)) = _), hpid, hdcs, huser,
      hlen, hsum⟩ :=
    exists_fields h [submitFlags h.toState more, octetOf (reference messageRef h)] _ hnum
      (Nat.le_refl 2) hgap rfl hi
  have h2 := (holds_cons.mp hfirst).1
  refine ⟨q, huser, hsum, ?_⟩
  rw [← unpackvp_snd more h h2] at hq
  subst hq hp
  rw [← h2] at hkind hudhi
  simp only [smsHandleincoming, hs, Bool.not_false, if_true, hkind, receiveSubmit, haddr]
  refine (receive_iff hdcs hlen (by simp only [hs, Bool.false_eq_true, if_false]) hpid).trans ?_
  simp only [setFlags, hudhi, true_and]

end Layout

variable {h : State} {i : ℕ → UInt8} {q : ℕ} {udhi : Bool}

section

variable (hf : Fits h.dcs h.udh h.ud) (hlen : h.udh.length = h.udhl)

include hf hlen

theorem unpacks_iff (hno : udhi = false → h.udh = [])
    (hread : udhi = true → HeaderReads h.dcs h.udh h.ud) (hi : Arrives h i q) :
    Unpacks h i q udhi ↔ (is7bit h.dcs = true → h.ud.IsChain fun x u => ¬ Joins x u) := by
  obtain ⟨ud, ⟨walked, hu⟩, hiff⟩ := unpacksms_packsms hf hno hread (holds_shift.mpr hi.1)
  rw [← hiff, Unpacks, hu]
  constructor
  · rintro ⟨u, n, heq, -, -, -, hud⟩
    rw [some.injEq, Prod.mk.injEq] at heq
    rw [← hud, ← heq.1]
  · intro hud
    exact ⟨_, _, rfl, Nat.mod_eq_of_lt hi.2, hlen, rfl, hud⟩

theorem not_unpacks (hbad : ¬ HeaderReads h.dcs h.udh h.ud) (hi : Arrives h i q)
    (hnext : i (q + (packsms h.dcs h.udh h.ud).length) ≠ 0) : ¬ Unpacks h i q true := by
  rintro ⟨u, n, hu, -, hudhl, -, hud⟩
  have hne := unpacksms_ne hf hbad (holds_shift.mpr hi.1) (fun _ hnil => by
    rw [hnil, packsms_nil] at hnext
    exact hnext) hu
  rcases hne with hne | hne
  · exact hne (hudhl.trans hlen.symm)
  · exact hne hud

end

theorem delivered_iff_text (h : Outgoing)
    (hheader : h.udhi = true → h.smsc = false ∧ HeaderReads h.dcs h.udh h.ud) (timezone : ℤ)
    (now : Tm) (g : State) (stale : ℕ → UInt8) (more : Bool) (messageRef : UInt8) :
    Delivered timezone now h.toState g stale more messageRef ↔
      (is7bit h.dcs = true → h.ud.IsChain fun x u => ¬ Joins x u) := by
  by_cases hs : h.smsc = true
  · have hu : h.udhi = false := by
      by_contra hu
      have hfalse := (hheader (by simpa using hu)).1
      simp [hs] at hfalse
    obtain ⟨q, hi, hiff⟩ := delivered_deliver_iff timezone now g stale more messageRef h hs
    rw [hiff, unpacks_iff h.fits h.length_udh (fun _ => h.headed hu) (by simp) hi]
    exact and_iff_right hu
  · rw [Bool.not_eq_true] at hs
    obtain ⟨q, hi, -, hiff⟩ := delivered_submit_iff timezone now g stale more messageRef h hs
    rw [hiff, unpacks_iff h.fits h.length_udh h.headed (fun hu => (hheader hu).2) hi]

/-- Every message that is sent arrives, whatever waits behind it and whatever the receiver held
before, if and only if a header in it is in a submit message, has a text behind it or is read as an
empty one, and no character of seven bits is taken for the second half of an escape. -/
theorem delivered_iff (h : Outgoing) :
    (∀ timezone now g stale more messageRef,
      Delivered timezone now h.toState g stale more messageRef) ↔ Transportable h.toState := by
  constructor
  · intro hall
    have hheader : h.udhi = true → h.smsc = false ∧ HeaderReads h.dcs h.udh h.ud := by
      intro hu
      have hs : h.smsc = false := by
        by_contra hs
        rw [Bool.not_eq_false] at hs
        obtain ⟨q, -, hiff⟩ := delivered_deliver_iff 0 h.scts h.toState (fun _ => 0) false 0 h hs
        have hfalse := (hiff.mp (hall ..)).1
        simp [hu] at hfalse
      refine ⟨hs, ?_⟩
      by_contra hbad
      obtain ⟨more, hmore⟩ := exists_checksum_ne 0 h
      obtain ⟨q, hi, hsum, hiff⟩ := delivered_submit_iff 0 h.scts h.toState (fun _ => 0) more 0 h hs
      rw [hu] at hiff
      exact not_unpacks h.fits h.length_udh hbad hi (by rw [hsum]; exact hmore) (hiff.mp (hall ..))
    constructor
    · exact hheader
    · exact (delivered_iff_text h hheader 0 h.scts h.toState (fun _ => 0) false 0).mp (hall ..)
  · rintro ⟨hheader, htext⟩ timezone now g stale more messageRef
    exact (delivered_iff_text h hheader ..).mpr htext

def headedDeliver : Outgoing where
  smsc := true
  rx := false
  oa := [chr '1']
  da := []
  scts := ⟨106, 0, 1, 0, 0, 0⟩
  pid := 0
  dcs := 0xF5
  mr := -1
  udhl := 1
  srr := false
  udhi := true
  rp := false
  vp := 0
  ud := [65]
  udh := [0]
  cli := []
  addressed := by decide
  number := by decide
  length_udh := rfl
  headed := by simp
  fits := by decide

/-- A phone accepts the message, with no header and with the octets of the header in front of the
letter. -/
theorem deliver_loses_header :
    (smsHandleincoming headedDeliver.scts { headedDeliver.toState with smsc := false }
      (arrived (smsNextoutgoing 0 headedDeliver.toState false 0).2 fun _ => 0)).map
        (fun (g, cause) => (cause, g.udhi, g.udhl, g.ud)) = some (0, false, 0, [1, 0, 65]) ∧
    ¬ Delivered 0 headedDeliver.scts headedDeliver.toState headedDeliver.toState (fun _ => 0)
      false 0 := by
  have hcalc : (smsHandleincoming headedDeliver.scts { headedDeliver.toState with smsc := false }
      (arrived (smsNextoutgoing 0 headedDeliver.toState false 0).2 fun _ => 0)).map
        (fun (g, cause) => (cause, g.udhi, g.udhl, g.ud)) = some (0, false, 0, [1, 0, 65]) := by
      decide +kernel
  refine ⟨hcalc, ?_⟩
  rintro ⟨g, hg, hsame⟩
  have hrole : (!headedDeliver.smsc) = false := rfl
  rw [hrole] at hg
  rw [hg] at hcalc
  have hudhi : g.udhi = false := by simpa using congrArg (fun r => r.map fun r => r.2.1) hcalc
  exact absurd (hsame.udhi.symm.trans hudhi) (by decide)

end Roles

end CallWeaver.Sms
