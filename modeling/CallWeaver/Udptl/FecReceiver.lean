import CallWeaver.Base.Runs
import CallWeaver.Udptl.Fec

/-! # The receiver of parity strings

The receiver keeps the messages and parity strings of the last packets in a ring. As long as
nothing is lost, no slot is repaired and every packet plays its own message.
-/

namespace CallWeaver.Udptl

open Parity Function List

def RxBuffer.Holds (r : RxBuffer) (d : List UInt8) : Prop :=
  r.bufLen = d.length ∧ r.buf.take d.length = d

variable {r r' : RxBuffer} {d : List UInt8}

theorem RxBuffer.Holds.pos (h : r.Holds d) (hd : d ≠ []) : 0 < r.bufLen := by
  have hlen : 0 < d.length := length_pos_iff.mpr hd
  rw [h.1]
  omega

theorem RxBuffer.Holds.octet (h : r.Holds d) (j : ℕ) :
    (if r.bufLen > j then r.buf.getD j 0 else 0) = d.getD j 0 := by
  simp only [h.1, gt_iff_lt, Nat.cast_lt]
  split_ifs with hj
  · exact getD_eq_of_take 0 h.2 hj
  · simp [getD_eq_getElem?_getD, getElem?_eq_none (not_lt.mp hj)]

section Store

variable {buf msg : List UInt8} {n i ptr seqNo : ℕ}

/-- Nothing of a slot was changed but the parity strings from the element `i` on. -/
structure RxBuffer.KeepsBelow (i : ℕ) (r r' : RxBuffer) : Prop where
  bufLen : r'.bufLen = r.bufLen
  buf : r'.buf = r.buf
  fecSpan : r'.fecSpan = r.fecSpan
  fecEntries : r'.fecEntries = r.fecEntries
  below : ∀ j < i, r'.fecLen j = r.fecLen j ∧ r'.fec j = r.fec j

theorem decodeFec_keepsBelow {q : Option ℕ} (h : decodeFec buf n i ptr r = (r', q)) :
    r.KeepsBelow i r' := by
  induction n generalizing i ptr r with
  | zero =>
    cases h
    exact ⟨rfl, rfl, rfl, rfl, fun _ _ => ⟨rfl, rfl⟩⟩
  | succ n ih =>
    rw [decodeFec] at h
    split at h
    · cases h
      exact ⟨rfl, rfl, rfl, rfl, fun j hj => ⟨update_of_ne hj.ne _ _, rfl⟩⟩
    · split_ifs at h
      · cases h
        exact ⟨rfl, rfl, rfl, rfl, fun j hj => ⟨update_of_ne hj.ne _ _, rfl⟩⟩
      · obtain ⟨hlen, hbuf, hspan, hentries, hbelow⟩ := ih h
        refine ⟨hlen, hbuf, hspan, hentries, fun j hj => ?_⟩
        simpa [update_of_ne hj.ne] using hbelow j (Nat.lt_succ_of_lt hj)

def parityEnd (buf : List UInt8) : ℕ → ℕ → Option ℕ
  | 0, ptr => some ptr
  | n + 1, ptr =>
    match decodeOpenType buf ptr with
    | .error _ => none
    | .ok o => if o.numOctets > localFaxMaxDatagram then none else parityEnd buf n o.ptr

theorem decodeFec_snd : (decodeFec buf n i ptr r).2 = parityEnd buf n ptr := by
  induction n generalizing i ptr r with
  | zero => rfl
  | succ n ih =>
    rw [decodeFec, parityEnd]
    cases decodeOpenType buf ptr with
    | error k => rfl
    | ok o =>
      simp only
      split_ifs
      · rfl
      · exact ih

def storeRest (buf : List UInt8) (ptr : ℕ) (r : RxBuffer) : RxBuffer :=
  match buf[ptr]?, buf[ptr + 1]? with
  | some one, some span =>
    if one ≠ 1 then r
    else match buf[ptr + 2]? with
      | none => { r with fecSpan := span.toNat }
      | some entries =>
        (decodeFec buf entries.toNat 0 (ptr + 3)
          { r with fecSpan := span.toNat, fecEntries := entries.toNat }).1
  | _, _ => r

theorem storeRest_message :
    (storeRest buf ptr r).bufLen = r.bufLen ∧ (storeRest buf ptr r).buf = r.buf := by
  rw [storeRest]
  split
  · split_ifs
    · exact ⟨rfl, rfl⟩
    · split
      · exact ⟨rfl, rfl⟩
      · obtain ⟨hlen, hbuf, -⟩ := decodeFec_keepsBelow rfl
        exact ⟨hlen, hbuf⟩
  · exact ⟨rfl, rfl⟩

def FecSound (buf : List UInt8) (ptr : ℕ) : Prop :=
  buf[ptr]? = some 1 ∧ ∃ span entries, buf[ptr + 1]? = some span ∧ buf[ptr + 2]? = some entries ∧
    parityEnd buf entries.toNat (ptr + 3) = some buf.length

theorem missSlots_of_le {s : CwUdptl} (h : seqNo ≤ s.rxSeqNo) : missSlots s seqNo = s := by
  rw [missSlots, Nat.sub_eq_zero_of_le h]
  rfl

def storedSlot (s : CwUdptl) (buf : List UInt8) (seqNo : ℕ) (msg : List UInt8) (ptr : ℕ) :
    RxBuffer :=
  let r := (missSlots s seqNo).rx (bufMask seqNo)
  storeRest buf ptr { r with bufLen := msg.length, buf := memcpy r.buf msg }

def storedRing (s : CwUdptl) (buf : List UInt8) (seqNo : ℕ) (msg : List UInt8) (ptr : ℕ) :
    ℕ → RxBuffer :=
  update (missSlots s seqNo).rx (bufMask seqNo) (storedSlot s buf seqNo msg ptr)

def repairedRing (s : CwUdptl) (buf : List UInt8) (seqNo : ℕ) (msg : List UInt8) (ptr : ℕ) :
    (ℕ → RxBuffer) × (ℕ → Bool) :=
  let r := storedSlot s buf seqNo msg ptr
  repair (bufMask seqNo) r.fecSpan r.fecEntries
    (storedRing s buf seqNo msg ptr, update (fun _ => false) (bufMask seqNo) true)

/-- A packet is stored unless its message is too long, and used if it is well formed. -/
theorem rxFec_cases (s : CwUdptl) (buf : List UInt8) (seqNo : ℕ) (msg : List UInt8) (ptr : ℕ) :
    localFaxMaxDatagram < msg.length ∧ rxFec s buf seqNo msg ptr = (s, none) ∨
      msg.length ≤ localFaxMaxDatagram ∧ FecSound buf ptr ∧ rxFec s buf seqNo msg ptr =
        finish { missSlots s seqNo with rx := (repairedRing s buf seqNo msg ptr).1 } seqNo msg
          (playRepaired seqNo (bufMask seqNo) (repairedRing s buf seqNo msg ptr)) ∨
      msg.length ≤ localFaxMaxDatagram ∧ ¬ FecSound buf ptr ∧ rxFec s buf seqNo msg ptr =
        ({ missSlots s seqNo with rx := storedRing s buf seqNo msg ptr }, none) := by
  rcases Nat.lt_or_ge localFaxMaxDatagram msg.length with hlong | hmsg
  · exact Or.inl ⟨hlong, if_pos hlong⟩
  right
  simp only [rxFec, if_neg (Nat.not_lt.mpr hmsg), repairedRing, storedRing, storedSlot, storeRest,
    FecSound, hmsg, true_and]
  cases hone : buf[ptr]? with
  | none => simp
  | some one =>
    cases hspan : buf[ptr + 1]? with
    | none => simp
    | some span =>
      by_cases h1 : one = 1
      · cases hentries : buf[ptr + 2]? with
        | none => simp [h1]
        | some entries =>
          simp only [h1, ne_eq, not_true_eq_false, if_false, (decodeFec_keepsBelow rfl).fecSpan,
            (decodeFec_keepsBelow rfl).fecEntries, true_and, Option.some.injEq, exists_and_left,
            exists_eq_left']
          generalize hd : decodeFec buf entries.toNat 0 (ptr + 3) _ = d
          have hend : parityEnd buf entries.toNat (ptr + 3) = d.2 := by rw [← hd, decodeFec_snd]
          rw [hend]
          rcases d with ⟨r, _ | p⟩
          · simp
          · by_cases hp : p = buf.length <;> simp [hp]
      · simp [h1]

end Store

/-- The ring of a receiver that expects `n`. The numbers below hold their contents, where there is
one, and parity strings stem from the packet of their slot. -/
structure RxRing (c : ℕ → Option (List UInt8)) (span entries n : ℕ) (rx : ℕ → RxBuffer) :
    Prop where
  slot : ∀ j < n, n ≤ j + 16 → ∀ d, c j = some d → (rx (bufMask j)).Holds d
  fec : ∀ i, 0 < (rx i).fecLen 0 → ∃ j < n, n ≤ j + 16 ∧ bufMask j = i ∧
    windUp span entries j = ((rx i).fecSpan, (rx i).fecEntries)

structure RxBuffer.Carries (r : RxBuffer) (d : List UInt8) (p q : ℕ) (fs : List (List UInt8)) :
    Prop where
  holds : r.Holds d
  span : r.fecSpan = p
  entries : r.fecEntries = q
  parity : ∀ g f, fs[g]? = some f → r.fecLen g = f.length ∧ (r.fec g).take f.length = f

variable {p q l g : ℕ}

section Decode

variable {buf bs : List UInt8} {ptr : ℕ} {fs : List (List UInt8)}

theorem decodeFec_eq (hfs : ∀ f ∈ fs, IsMessage f)
    (h : Rest buf ptr ((fs.map openType).flatten ++ bs)) (i : ℕ) (r : RxBuffer) :
    ∃ r' p, decodeFec buf fs.length i ptr r = (r', some p) ∧ Rest buf p bs ∧
      ∀ g f, fs[g]? = some f → r'.fecLen (i + g) = f.length ∧
      (r'.fec (i + g)).take f.length = f := by
  induction fs generalizing ptr i r with
  | nil => exact ⟨r, ptr, rfl, h, by simp⟩
  | cons f fs ih =>
    have hf := hfs f (by simp)
    rw [map_cons, flatten_cons, append_assoc] at h
    obtain ⟨o, ho, hptr, hnum, hbytes⟩ :=
      decodeOpenType_openType hf.1 (Nat.lt_of_le_of_lt hf.2 (by decide)) h
    obtain ⟨r', p, hdec, hrest, hnew⟩ :=
      ih (fun f hf => hfs f (by simp [hf])) (hptr ▸ h.advance) (i + 1)
        { r with
          fecLen := update r.fecLen i (f.length : ℤ)
          fec := update r.fec i (memcpy (r.fec i) f) }
    refine ⟨r', p, ?_, hrest, fun g f' hg => ?_⟩
    · simp only [length_cons, decodeFec, ho, hnum, hbytes]
      rw [if_neg (not_lt.mpr hf.2)]
      exact hdec
    · cases g with
      | zero =>
        cases hg
        have hi := (decodeFec_keepsBelow hdec).below i (Nat.lt_succ_self i)
        simp only [update_self] at hi
        rw [Nat.add_zero, hi.1, hi.2]
        exact ⟨rfl, take_memcpy _ _⟩
      | succ g =>
        have hshift : i + (g + 1) = i + 1 + g := by omega
        rw [hshift]
        exact hnew g f' hg

theorem rxFec_eq (s : CwUdptl) (k : ℕ) (hd : IsMessage d) (hp : p ≤ 4) (hq : q ≤ 4)
    (hfs : ∀ f ∈ fs, IsMessage f) (hlen : fs.length = q)
    (h : Rest buf ptr (1 :: UInt8.ofNat p :: UInt8.ofNat q :: (fs.map openType).flatten)) :
    ∃ r : RxBuffer, r.Carries d p q fs ∧ ∀ t,
      repair (bufMask k) p q (update (missSlots s k).rx (bufMask k) r,
        update (fun _ => false) (bufMask k) true) = t → rxFec s buf k d ptr =
        finish { missSlots s k with rx := t.1 } k d (playRepaired k (bufMask k) t) := by
  have hp' : (UInt8.ofNat p).toNat = p := by rw [UInt8.toNat_ofNat']; omega
  have hq' : (UInt8.ofNat q).toNat = q := by rw [UInt8.toNat_ofNat']; omega
  have hrest : Rest buf (ptr + 3) ((fs.map openType).flatten ++ []) := by
    rw [append_nil]; exact h.next.next.next
  obtain ⟨r, e, hdec, hend, hnew⟩ := decodeFec_eq hfs hrest 0
    { (missSlots s k).rx (bufMask k) with
      bufLen := d.length
      buf := memcpy ((missSlots s k).rx (bufMask k)).buf d
      fecSpan := p
      fecEntries := q }
  have hlast : e = buf.length := by simpa using hend.length_eq.symm
  obtain ⟨hblen, hbuf, hspan, hent, -⟩ := decodeFec_keepsBelow hdec
  refine ⟨r, ⟨⟨hblen, by rw [hbuf]; exact take_memcpy _ _⟩, hspan, hent, ?_⟩, ?_⟩
  · intro g f hg
    simpa using hnew g f hg
  · rintro t rfl
    rw [hlen] at hdec
    simp only [rxFec, if_neg (not_lt.mpr hd.2), h.getElem?, h.next.getElem?, h.next.next.getElem?,
      hp', hq', hdec, hlast, ne_eq, not_true_eq_false, if_false]

end Decode

section Ring

variable {c : ℕ → Option (List UInt8)} {span entries n k : ℕ} {rx : ℕ → RxBuffer}

theorem RxRing.advance (h : RxRing c span entries k rx) (hslot : ∀ d, c k = some d → r.Holds d)
    (hfec : 0 < r.fecLen 0 → windUp span entries k = (r.fecSpan, r.fecEntries)) :
    RxRing c span entries (k + 1) (update rx (bufMask k) r) := by
  constructor
  · intro j hj hk d hd
    rcases Nat.lt_succ_iff_lt_or_eq.mp hj with hlt | rfl
    · have hne : bufMask j ≠ bufMask k := mt bufMask_eq_iff.mp (by omega)
      rw [update_of_ne hne]
      exact h.slot j hlt (by omega) d hd
    · rw [update_self]
      exact hslot d hd
  · intro i hi
    by_cases he : i = bufMask k
    · subst he
      rw [update_self] at hi ⊢
      exact ⟨k, by omega, by omega, rfl, hfec hi⟩
    · rw [update_of_ne he] at hi ⊢
      obtain ⟨j, hj, hk, hm, hwj⟩ := h.fec i hi
      have hne : j + 16 ≠ k := fun he' => he (by rw [← hm, bufMask_eq_iff]; omega)
      exact ⟨j, by omega, by omega, hm, hwj⟩

theorem RxRing.put (h : RxRing c span entries k rx) {fs : List (List UInt8)}
    (hr : r.Carries d p q fs) (hd : ∀ d', c k = some d' → d' = d)
    (hw : windUp span entries k = (p, q)) :
    RxRing c span entries (k + 1) (update rx (bufMask k) r) :=
  h.advance (fun d' hd' => hd d' hd' ▸ hr.holds) fun _ => by rw [hw, hr.span, hr.entries]

theorem RxRing.miss {s : CwUdptl} (h : RxRing c span entries k s.rx) (hs : s.rxSeqNo = k)
    (hc : c k = none) : RxRing c span entries (k + 1) (missSlot s).rx := by
  subst hs
  exact h.advance (by simp [hc]) (by simp)

end Ring

variable {rx : ℕ → RxBuffer}

section Repair

theorem which_of_pos {slots : List ℕ} (h : ∀ i ∈ slots, 0 < (rx i).bufLen) : which rx slots = -1 :=
  foldlRecOn slots _ (motive := (· = -1)) rfl fun w hw i hi => by
    simp only [if_neg (not_le.mpr (h i hi)), hw]

theorem repairGroup_of_pos {t : (ℕ → RxBuffer) × (ℕ → Bool)}
    (h : ∀ i ∈ rxGroup t.1 l g, 0 < (t.1 i).bufLen) : repairGroup l g t = t := by
  simp [repairGroup, which_of_pos h]

variable {c : ℕ → Option (List UInt8)} {span entries k j i : ℕ} {t : (ℕ → RxBuffer) × (ℕ → Bool)}

theorem rxGroup_eq (hs : Setting span entries)
    (hw : windUp span entries j = ((rx (bufMask j)).fecSpan, (rx (bufMask j)).fecEntries))
    (hg : g < (rx (bufMask j)).fecEntries) :
    rxGroup rx (bufMask j) g = (members j g (rx (bufMask j)).fecSpan
      (rx (bufMask j)).fecEntries).map fun i : ℕ => bufMask i := by
  obtain ⟨_, _, h15, hj, _⟩ := windUp_le hs hw
  exact groupSlots_eq (by omega) h15 hj

theorem repairSlot_eq_self (hs : Setting span entries) (h : RxRing c span entries (k + 1) t.1)
    (hw : windUp span entries k = (p, q)) (hi : i + p * q ≤ 15)
    (hc : ∀ j < k, k ≤ j + 15 → ∃ d, c j = some d ∧ d ≠ []) :
    repairSlot t (bufMask ((k : ℤ) - i)) = t := by
  unfold repairSlot
  split_ifs with hfec
  · rfl
  · obtain ⟨j, hjk, hkj, hmask, hwj⟩ := h.fec _ (not_le.mp hfec)
    have hj : j + i = k := by rw [bufMask_eq_iff] at hmask; omega
    rw [← hmask] at hwj ⊢
    apply foldlRecOn _ _ (motive := (· = t)) rfl
    intro t' ht' g hg
    subst ht'
    have hg' := mem_range.mp hg
    apply repairGroup_of_pos
    intro l hl
    rw [rxGroup_eq hs hwj hg'] at hl
    obtain ⟨j', hj', rfl⟩ := mem_map.mp hl
    -- the group reaches back no further than the ring of the newest packet
    have hmem := mem_members hg' (windUp_le hs hwj).2.2.2.1 hj'
    have hmono := windUp_mono hs (by omega) hwj hw
    obtain ⟨d, hd, hne⟩ := hc j' (by omega) (by omega)
    exact (h.slot j' (by omega) (by omega) d hd).pos hne

theorem repairSlots_eq (h15 : p * q ≤ 15) :
    ringLoop (bufMask ((bufMask k : ℤ) - (16 - p * q))) (-1) 16 (bufMask k) =
      (range ((16 - p * q) % 16)).map fun i : ℕ => bufMask ((k : ℤ) - i) := by
  have hcast : (p : ℤ) * q = (p * q : ℕ) := by push_cast; rfl
  rw [hcast, ringLoop_eq (n := (16 - p * q) % 16) (fun t ht => ?_) (fun h => ?_) (by omega)]
  · simp only [mul_neg, mul_one, ← sub_eq_add_neg]
  · unfold bufMask
    omega
  · unfold bufMask
    omega

theorem repair_eq_self (hs : Setting span entries) (h : RxRing c span entries (k + 1) t.1)
    (hw : windUp span entries k = (p, q)) (hc : ∀ j < k, k ≤ j + 15 → ∃ d, c j = some d ∧ d ≠ []) :
    repair (bufMask k) p q t = t := by
  have h15 := (windUp_le hs hw).2.2.1
  rw [repair, repairSlots_eq h15]
  apply foldlRecOn _ _ (motive := (· = t)) rfl
  intro t' ht' l hl
  subst ht'
  obtain ⟨i, hi, rfl⟩ := mem_map.mp hl
  have hi' := mem_range.mp hi
  exact repairSlot_eq_self hs h hw (by omega) hc

theorem zipIdx_map_range {α : Type*} (f : ℕ → α) (n : ℕ) :
    ((range n).map f).zipIdx = (range n).map fun i => (f i, i) :=
  ext_getElem (by simp) fun i h₁ h₂ => by simp

theorem playRepaired_eq (k : ℕ) (t : (ℕ → RxBuffer) × (ℕ → Bool)) :
    playRepaired k (bufMask k) t = (range 15).filterMap fun i : ℕ =>
      if t.2 (bufMask ((k : ℤ) + 1 + i)) then
        some (t38Frame ((k : ℤ) - 15 + i) ((t.1 (bufMask ((k : ℤ) + 1 + i))).buf.take
          (t.1 (bufMask ((k : ℤ) + 1 + i))).bufLen.toNat))
      else none := by
  have hloop : ringLoop (bufMask k) 1 16 (bufMask ((bufMask k : ℤ) + 1)) =
      (range 15).map fun i : ℕ => bufMask ((k : ℤ) + 1 + i) := by
    rw [bufMask_add, ringLoop_eq (n := 15) (fun t ht => ?_) (fun h => ?_) (by omega)]
    · simp only [mul_one]
    · unfold bufMask
      omega
    · unfold bufMask
      omega
  rw [playRepaired, hloop, zipIdx_map_range, filterMap_map]
  rfl

end Repair

structure RxOk (content : ℕ → List UInt8) (span entries n : ℕ) (s : CwUdptl) : Prop where
  seq : s.rxSeqNo = n
  ring : RxRing (fun j => some (content j)) span entries n s.rx

section Step

variable {m content : ℕ → List UInt8} {span entries k : ℕ} {s : CwUdptl}

theorem udptlRxPacket_fec (hs : Setting span entries) (s : CwUdptl) (hk : k < 65536)
    (hm : ∀ j ≤ k, IsMessage (m j)) (hw : windUp span entries k = (p, q)) :
    ∃ r : RxBuffer, r.Carries (m k) p q (fecStrings m p q k) ∧ ∀ t,
      repair (bufMask k) p q (update (missSlots s k).rx (bufMask k) r,
        update (fun _ => false) (bufMask k) true) = t →
      udptlRxPacket s (packetOf m (fecRecovery m span entries) k) =
        finish { missSlots s k with rx := t.1 } k (m k) (playRepaired k (bufMask k) t) := by
  obtain ⟨hp, hq, _, hpk, hpq⟩ := windUp_le hs hw
  obtain ⟨ptr, hptr, hrx⟩ := udptlRxPacket_eq s 0x80
    (1 :: UInt8.ofNat p :: UInt8.ofNat q :: ((fecStrings m p q k).map openType).flatten) hk
    (hm k le_rfl)
  obtain ⟨r, hr, hfec⟩ := rxFec_eq s k (hm k le_rfl) hp hq
    (isMessage_fecStrings hpq hpk fun j hj => hm j hj.le) (by simp [fecStrings]) hptr
  refine ⟨r, hr, fun t ht => ?_⟩
  rw [packetOf, fecRecovery, hw]
  exact (hrx.trans (if_neg (by decide))).trans (hfec t ht)

theorem RxOk.step (hs : Setting span entries) (h : RxOk content span entries k s) (hk : k < 65536)
    (hm : ∀ j ≤ k, IsMessage (m j)) (hck : content k = m k) (hne : ∀ j < k, content j ≠ []) :
    ∃ s', udptlRxPacket s (packetOf m (fecRecovery m span entries) k) =
        (s', some [t38Frame k (m k)]) ∧ RxOk content span entries (k + 1) s' := by
  obtain ⟨p, q, hw⟩ : ∃ p q, windUp span entries k = (p, q) := ⟨_, _, rfl⟩
  obtain ⟨r, hr, hrx⟩ := udptlRxPacket_fec hs s hk hm hw
  rw [missSlots_of_le h.seq.ge] at hrx
  have hring := h.ring.put hr (fun d' hd' => by rw [← Option.some.inj hd', hck]) hw
  have hplay : playRepaired k (bufMask k) (update s.rx (bufMask k) r,
      update (fun _ => false) (bufMask k) true) = [] := by
    rw [playRepaired_eq, filterMap_eq_nil_iff]
    intro i hi
    have hi' := mem_range.mp hi
    have hne' : bufMask ((k : ℤ) + 1 + i) ≠ bufMask k := mt bufMask_eq_iff.mp (by omega)
    simp [update_of_ne hne']
  refine ⟨{ s with rx := update s.rx (bufMask k) r, rxSeqNo := k + 1 },
    (hrx _ (repair_eq_self hs hring hw fun j hj _ => ⟨_, rfl, hne j hj⟩)).trans ?_, rfl, hring⟩
  simp only [finish, hplay, h.seq]
  simp

end Step

end CallWeaver.Udptl
