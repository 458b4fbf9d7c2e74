import CallWeaver.Udptl.FecReceiver

/-! # Recovery from parity strings

When one message of a group is missing, the receiver computes it from the parity and the others.
-/

namespace CallWeaver.Udptl

open Parity Function List

variable {g j l n : ℕ}

section Lost

variable {m content : ℕ → List UInt8} {span entries L w i : ℕ} {rx : ℕ → RxBuffer}
  {slots ns : List ℕ} {c c' : ℕ → Option (List UInt8)}

theorem which_append_singleton (h : ∀ i ∈ slots, 0 < (rx i).bufLen) (hw : (rx w).bufLen ≤ 0) :
    which rx (slots ++ [w]) = w := by
  have hslots := which_of_pos h
  unfold which at hslots ⊢
  simp [foldl_append, hslots, hw]

theorem members_last (hs : Setting span entries) (hL : span * entries ≤ L) :
    ∃ l, members (L + 1) (entries - 1) span entries = l ++ [L] ∧ ∀ j ∈ l, j < L := by
  obtain ⟨a, rfl⟩ := Nat.exists_eq_add_of_le' hs.span_pos
  have hpos := hs.entries_pos
  have hmul : (a + 1) * entries = a * entries + entries := by ring
  refine ⟨(range a).map fun t =>
    L + 1 + (entries - 1) - (a + 1) * entries + t * entries, ?_, ?_⟩
  · rw [members, range_succ, map_append, map_singleton]
    congr 2
    omega
  · intro j hj
    obtain ⟨t, ht, rfl⟩ := mem_map.mp hj
    have hle : (t + 1) * entries ≤ a * entries :=
      Nat.mul_le_mul_right entries (mem_range.mp ht)
    rw [Nat.add_mul, Nat.one_mul] at hle
    omega

theorem repairOctet_eq (hgroup : rxGroup rx l g = (ns ++ [L]).map fun j : ℕ => bufMask j)
    (hns : ∀ j ∈ ns, (rx (bufMask j)).Holds (m j)) (hL : (rx (bufMask L)).bufLen ≤ 0)
    (hfec : ((rx l).fec g).take (parity ((ns ++ [L]).map m)).length = parity ((ns ++ [L]).map m))
    (hi : i < (parity ((ns ++ [L]).map m)).length) : repairOctet rx l g i = (m L).getD i 0 := by
  have hstart :
      ((rx l).fec g).getD i 0 = xorAll ((ns.map fun j => (m j).getD i 0) ++ [(m L).getD i 0]) := by
    rw [getD_eq_of_take 0 hfec hi, getD_parity]
    simp [comp_def]
  have hothers : (ns.map fun j : ℕ => if (rx (bufMask j)).bufLen > (i : ℤ) then
      (rx (bufMask j)).buf.getD i 0 else 0) = ns.map fun j => (m j).getD i 0 :=
    map_congr_left fun j hj => (hns j hj).octet i
  have hlost : ¬ (rx (bufMask L)).bufLen > (i : ℤ) := by omega
  rw [repairOctet, foldl_xor, hgroup, hstart, map_map, map_append, map_singleton,
    comp_def, hothers]
  simp only [if_neg hlost]
  exact xorAll_cancel _ _

def padded (m : ℕ → List UInt8) (span entries L : ℕ) : List UInt8 :=
  m L ++ replicate
    (longest ((members (L + 1) (entries - 1) span entries).map m) - (m L).length) 0

theorem length_padded (hs : Setting span entries) (hL : span * entries ≤ L) :
    (padded m span entries L).length =
      longest ((members (L + 1) (entries - 1) span entries).map m) := by
  obtain ⟨l, hl, _⟩ := members_last hs hL
  have hle : (m L).length ≤ longest ((members (L + 1) (entries - 1) span entries).map m) :=
    le_longest (mem_map.mpr ⟨L, by simp [hl], rfl⟩)
  rw [padded, length_append, length_replicate]
  omega

structure OneLost (m : ℕ → List UInt8) (span entries L : ℕ) (rx : ℕ → RxBuffer) : Prop where
  next : (rx (bufMask (L + 1 : ℕ))).Carries (m (L + 1)) span entries
    (fecStrings m span entries (L + 1))
  slot : ∀ j < L, L ≤ j + 14 → (rx (bufMask j)).Holds (m j)
  lost : (rx (bufMask L)).bufLen ≤ 0

def repairedSlot (m : ℕ → List UInt8) (span entries L : ℕ) (r : RxBuffer) : RxBuffer :=
  { r with
    bufLen := (padded m span entries L).length
    buf := memcpy r.buf (padded m span entries L) }

namespace OneLost

variable (hs : Setting span entries) (hL : span * entries ≤ L) (h : OneLost m span entries L rx)

include hs hL h

theorem group (hg : g < entries) :
    rxGroup rx (bufMask (L + 1 : ℕ)) g =
      (members (L + 1) g span entries).map fun j : ℕ => bufMask j := by
  have hw : windUp span entries (L + 1) =
      ((rx (bufMask (L + 1 : ℕ))).fecSpan, (rx (bufMask (L + 1 : ℕ))).fecEntries) := by
    rw [h.next.span, h.next.entries, windUp_of_le (by omega)]
  rw [rxGroup_eq hs hw (by rw [h.next.entries]; exact hg), h.next.span, h.next.entries]

variable (hm : ∀ j ≤ L, IsMessage (m j))

include hm

theorem repairGroup (rep : ℕ → Bool) :
    Udptl.repairGroup (bufMask (L + 1 : ℕ)) (entries - 1) (rx, rep) =
      (update rx (bufMask L) (repairedSlot m span entries L (rx (bufMask L))),
        update rep (bufMask L) true) := by
  have hpos := hs.entries_pos
  have hring := hs.ring
  have hgroup := h.group hs hL (g := entries - 1) (by omega)
  obtain ⟨l, hl, hlt⟩ := members_last hs hL
  have hholds : ∀ j ∈ l, (rx (bufMask j)).Holds (m j) := by
    intro j hj
    have hmem := mem_members (j := j) (by omega) (by omega)
      (show j ∈ members (L + 1) (entries - 1) span entries by simp [hl, hj])
    exact h.slot j (hlt j hj) (by omega)
  have hwhich : which rx (rxGroup rx (bufMask (L + 1 : ℕ)) (entries - 1)) = bufMask L := by
    rw [hgroup, hl, map_append, map_singleton]
    refine which_append_singleton (fun i hi => ?_) h.lost
    obtain ⟨j, hj, rfl⟩ := mem_map.mp hi
    exact (hholds j hj).pos (hm j (hlt j hj).le).1
  obtain ⟨hlen, hfec⟩ :=
    h.next.parity (entries - 1) (parity ((members (L + 1) (entries - 1) span entries).map m))
    (by simp [fecStrings, getElem?_map, getElem?_range (show entries - 1 < entries by omega)])
  have hoctets : (range (longest ((members (L + 1) (entries - 1) span entries).map m))).map
      (repairOctet rx (bufMask (L + 1 : ℕ)) (entries - 1)) = padded m span entries L := by
    rw [padded, ← map_getD_range _ (le_longest (mem_map.mpr ⟨L, by simp [hl], rfl⟩))]
    apply map_congr_left
    intro i hi
    have hi' := mem_range.mp hi
    rw [← length_parity] at hi'
    rw [hl] at hgroup hfec hi'
    exact repairOctet_eq hgroup hholds h.lost hfec hi'
  rw [length_parity] at hlen
  simp only [Udptl.repairGroup, hwhich, hlen, Int.toNat_natCast, hoctets, repairedSlot,
    length_padded hs hL]
  rw [if_pos (by omega)]

theorem repairSlot (rep : ℕ → Bool) :
    Udptl.repairSlot (rx, rep) (bufMask (L + 1 : ℕ)) =
      (update rx (bufMask L) (repairedSlot m span entries L (rx (bufMask L))),
        update rep (bufMask L) true) := by
  have hpos := hs.entries_pos
  have hring := hs.ring
  have hfec : ¬ (rx (bufMask (L + 1 : ℕ))).fecLen 0 ≤ 0 := by
    have hmem : parity ((members (L + 1) 0 span entries).map m) ∈
        fecStrings m span entries (L + 1) := mem_map.mpr ⟨0, by simp; omega, rfl⟩
    have hmsg :=
      isMessage_fecStrings (fun _ => hs.span_pos) (by omega) (fun j hj => hm j (by omega)) _ hmem
    have hlen := (h.next.parity 0 (parity ((members (L + 1) 0 span entries).map m))
      (by simp [fecStrings, getElem?_map, getElem?_range (show 0 < entries by omega)])).1
    have hlen' := length_pos_iff.mpr hmsg.1
    omega
  have hids : (range (entries - 1)).foldl
      (fun t g => Udptl.repairGroup (bufMask (L + 1 : ℕ)) g t) (rx, rep) = (rx, rep) := by
    apply foldlRecOn _ _ (motive := (· = (rx, rep))) rfl
    intro t ht g hg
    subst ht
    have hg' := mem_range.mp hg
    apply repairGroup_of_pos
    intro i hi
    rw [h.group hs hL (by omega)] at hi
    obtain ⟨j, hj, rfl⟩ := mem_map.mp hi
    have hmem := mem_members (by omega) (by omega) hj
    exact (h.slot j (by omega) (by omega)).pos (hm j (by omega)).1
  have hsplit : entries = entries - 1 + 1 := by omega
  rw [Udptl.repairSlot, if_neg hfec, h.next.entries]
  nth_rewrite 1 [hsplit]
  rw [range_succ, foldl_append, hids, foldl_cons, foldl_nil]
  exact h.repairGroup hs hL hm rep

theorem repair
    (hring : RxRing (fun j => some (content j)) span entries (L + 1 + 1)
      (update rx (bufMask L) (repairedSlot m span entries L (rx (bufMask L)))))
    (hne : ∀ j ≤ L, content j ≠ []) (rep : ℕ → Bool) :
    Udptl.repair (bufMask (L + 1 : ℕ)) span entries (rx, rep) =
      (update rx (bufMask L) (repairedSlot m span entries L (rx (bufMask L))),
        update rep (bufMask L) true) := by
  have h15 := hs.ring
  have hpos : 1 ≤ span * entries := Nat.mul_pos hs.span_pos hs.entries_pos
  have hn : (16 - span * entries) % 16 = 15 - span * entries + 1 := by omega
  rw [Udptl.repair, repairSlots_eq h15, hn, range_succ_eq_map, map_cons,
    foldl_cons, Nat.cast_zero, sub_zero, h.repairSlot hs hL hm]
  apply foldlRecOn _ _ (motive := (· = _)) rfl
  intro t ht l hl
  subst ht
  obtain ⟨i, hi, rfl⟩ := mem_map.mp hl
  obtain ⟨i', hi', rfl⟩ := mem_map.mp hi
  have hlt := mem_range.mp hi'
  exact repairSlot_eq_self hs hring (windUp_of_le (by omega)) (by omega)
    fun j hj _ => ⟨_, rfl, hne j (by omega)⟩

end OneLost

theorem RxRing.mono (h : RxRing c span entries n rx)
    (hc : ∀ j < n, ∀ d, c' j = some d → c j = some d) : RxRing c' span entries n rx :=
  ⟨fun j hj hn d hd => h.slot j hj hn d (hc j hj d hd), h.fec⟩

theorem RxRing.fill (h : RxRing c span entries n rx) (hc : ∀ j, j ≠ L → c j = some (content j))
    (hL : L < n) (hn : n ≤ L + 16) (hpad : content L = padded m span entries L) :
    RxRing (fun j => some (content j)) span entries n
      (update rx (bufMask L) (repairedSlot m span entries L (rx (bufMask L)))) := by
  constructor
  · intro j hj hjn d hd
    cases hd
    by_cases he : j = L
    · subst he
      rw [update_self, hpad]
      exact ⟨rfl, take_memcpy _ _⟩
    · have hne : bufMask j ≠ bufMask L := mt bufMask_eq_iff.mp (by omega)
      rw [update_of_ne hne]
      exact h.slot j hj hjn _ (hc j he)
  · intro i hi
    by_cases he : i = bufMask L
    · subst he
      rw [update_self] at hi ⊢
      exact h.fec _ hi
    · rw [update_of_ne he] at hi ⊢
      exact h.fec i hi

theorem playRepaired_lost {d : List UInt8} (h : (rx (bufMask L)).Holds d) :
    playRepaired (L + 1) (bufMask (L + 1 : ℕ)) (rx, update
      (update (fun _ => false) (bufMask (L + 1 : ℕ)) true) (bufMask L) true) =
      [t38Frame L d] := by
  have hlast : bufMask (((L + 1 : ℕ) : ℤ) + 1 + (14 : ℕ)) = bufMask L := by
    rw [bufMask_eq_iff]
    omega
  have hnum : ((L + 1 : ℕ) : ℤ) - 15 + (14 : ℕ) = L := by omega
  rw [playRepaired_eq, range_succ, filterMap_append, filterMap_eq_nil_iff.mpr]
  · simp only [filterMap_cons, filterMap_nil, hlast, hnum, update_self, h.1,
      Int.toNat_natCast, h.2, if_true, nil_append]
  · intro i hi
    have hi' := mem_range.mp hi
    have hne : bufMask (((L + 1 : ℕ) : ℤ) + 1 + i) ≠ bufMask L := mt bufMask_eq_iff.mp (by omega)
    have hne' : bufMask (((L + 1 : ℕ) : ℤ) + 1 + i) ≠ bufMask (L + 1 : ℕ) :=
      mt bufMask_eq_iff.mp (by omega)
    simp only [update_of_ne hne, update_of_ne hne', Bool.false_eq_true, if_false]

variable {s : CwUdptl}

theorem RxOk.step_lost (hs : Setting span entries) (h : RxOk content span entries L s)
    (hk : L + 1 < 65536) (hm : ∀ j ≤ L + 1, IsMessage (m j)) (hL : span * entries ≤ L)
    (hc : ∀ j, j ≠ L → content j = m j) (hpad : content L = padded m span entries L)
    (hne : ∀ j ≤ L, content j ≠ []) :
    ∃ s', udptlRxPacket s (packetOf m (fecRecovery m span entries) (L + 1)) =
        (s', some [t38Frame L (content L), t38Frame (L + 1 : ℕ) (m (L + 1))]) ∧
      RxOk content span entries (L + 2) s' := by
  have hw : windUp span entries (L + 1) = (span, entries) := windUp_of_le (by omega)
  obtain ⟨r, hr, hrx⟩ := udptlRxPacket_fec hs s hk hm hw
  have hmiss : missSlots s (L + 1) = missSlot s := by
    rw [missSlots, h.seq, Nat.add_sub_cancel_left]
    rfl
  rw [hmiss] at hrx
  -- the ring with the hole, then with the packet after it, then with the hole filled
  let c : ℕ → Option (List UInt8) := fun j => if j = L then none else some (content j)
  have hcne : ∀ j, j ≠ L → c j = some (content j) := fun j hj => if_neg hj
  have hring : RxRing c span entries (L + 1) (missSlot s).rx :=
    (h.ring.mono fun j hj d hd => by rw [← hcne j (by omega), hd]).miss h.seq (if_pos rfl)
  have hring1 := hring.put hr (fun d hd => by
    rw [hcne _ (by omega), hc _ (by omega)] at hd; exact (Option.some.inj hd).symm) hw
  have hring2 := hring1.fill hcne (by omega) (by omega) hpad
  have hlost : OneLost m span entries L
      (update (missSlot s).rx (bufMask (L + 1 : ℕ)) r) := by
    refine ⟨by rw [update_self]; exact hr, fun j hj hj' => ?_, ?_⟩
    · exact hring1.slot j (by omega) (by omega) _ (by rw [hcne j (by omega), hc j (by omega)])
    · have hne : bufMask L ≠ bufMask (L + 1 : ℕ) := mt bufMask_eq_iff.mp (by omega)
      rw [update_of_ne hne]
      simp [missSlot, h.seq]
  have hrepair := hlost.repair hs hL (fun j hj => hm j (by omega)) hring2 hne
    (update (fun _ => false) (bufMask (L + 1 : ℕ)) true)
  have hplay := playRepaired_lost (hring2.slot L (by omega) (by omega) _ rfl)
  refine ⟨{ missSlot s with
      rx := update (update (missSlot s).rx (bufMask (L + 1 : ℕ)) r) (bufMask L)
        (repairedSlot m span entries L
          (update (missSlot s).rx (bufMask (L + 1 : ℕ)) r (bufMask L)))
      rxSeqNo := L + 2 }, (hrx _ hrepair).trans ?_, rfl, hring2⟩
  have hseq : (missSlot s).rxSeqNo = L + 1 := by simp [missSlot, h.seq]
  simp only [finish, hplay, hseq]
  simp

end Lost

section Run

variable {m content : ℕ → List UInt8} {span entries : ℕ}

theorem RxOk.run (hs : Setting span entries) (hn : n < 65536) (hm : ∀ j < n, IsMessage (m j))
    (hne : ∀ j < n, content j ≠ []) (packets : List (List UInt8)) (frames : List Frame) :
    ∀ (l k : ℕ) (s : CwUdptl), k + l ≤ n → (∀ j, k ≤ j → j < k + l → content j = m j) →
      RxOk content span entries k s → (∀ s', RxOk content span entries (k + l) s' →
        ∃ chains, udptlRxPackets s' packets = some chains ∧ chains.flatten = frames) →
      ∃ chains, udptlRxPackets s ((range' k l).map (packetOf m (fecRecovery m span entries)) ++
          packets) = some chains ∧ chains.flatten = framesFrom content k l ++ frames
  | 0, _, s, _, _, h, hrest => hrest s h
  | l + 1, k, s, hk, hc, h, hrest => by
    obtain ⟨s', hrx, hs'⟩ := h.step hs (by omega) (fun j hj => hm j (by omega))
      (hc k le_rfl (by omega)) fun j hj => hne j (by omega)
    have hshift : k + 1 + l = k + (l + 1) := by omega
    obtain ⟨chains, hch, hflat⟩ := RxOk.run hs hn hm hne packets frames l (k + 1) s' (by omega)
      (fun j hj hj' => hc j (by omega) (by omega)) hs' (hshift ▸ hrest)
    refine ⟨[t38Frame k (m k)] :: chains, ?_, ?_⟩
    · simp only [range'_succ, map_cons, cons_append, udptlRxPackets, hrx, hch, Option.map_some]
    · rw [flatten_cons, hflat, framesFrom, framesFrom, range'_succ, map_cons,
        hc k le_rfl (by omega)]
      rfl

theorem eraseIdx_map_range {α : Type*} (f : ℕ → α) (a b : ℕ) :
    ((range (a + (1 + b))).map f).eraseIdx a =
      (range' 0 a).map f ++ (range' (a + 1) b).map f := by
  rw [range_eq_range', ← range'_append_1, map_append,
    eraseIdx_append_of_length_le (by simp), Nat.add_comm 1 b, range'_succ]
  simp

theorem RxOk.new (scheme : ErrorCorrection) (entries' span' : ℕ) :
    RxOk content span entries 0 (cwUdptlNew scheme entries' span') :=
  ⟨rfl, fun j hj => absurd hj (Nat.not_lt_zero j), fun i hi => absurd hi (by simp [cwUdptlNew])⟩

def lostContent (m : ℕ → List UInt8) (span entries L : ℕ) (j : ℕ) : List UInt8 :=
  if j = L then padded m span entries L else m j

section OneLoss

variable {L : ℕ}

theorem lostContent_of_ne (hj : j ≠ L) : lostContent m span entries L j = m j := if_neg hj

theorem lostContent_self : lostContent m span entries L L = padded m span entries L := if_pos rfl

theorem lostContent_ne_nil (span entries : ℕ) (hm : ∀ j < n, IsMessage (m j)) (hL : L < n) :
    ∀ j < n, lostContent m span entries L j ≠ [] := by
  intro j hj
  by_cases he : j = L
  · rw [he, lostContent_self, padded]
    exact append_ne_nil_of_left_ne_nil (hm L hL).1 _
  · rw [lostContent_of_ne he]
    exact (hm j hj).1

theorem RxOk.run_lost (hs : Setting span entries) (hn : n < 65536) (hm : ∀ j < n, IsMessage (m j))
    (hL : span * entries ≤ L) (hl : n = L + (1 + (1 + l))) {s : CwUdptl}
    (h : RxOk (lostContent m span entries L) span entries L s) : ∃ chains,
      udptlRxPackets s ((range' (L + 1) (1 + l)).map (packetOf m (fecRecovery m span entries))) =
        some chains ∧
      chains.flatten = framesFrom (lostContent m span entries L) L (1 + (1 + l)) := by
  have hne := lostContent_ne_nil span entries hm (show L < n by omega)
  obtain ⟨s', hrx, hs'⟩ := h.step_lost hs (by omega) (fun j hj => hm j (by omega)) hL
    (fun j hj => lostContent_of_ne hj) lostContent_self fun j hj => hne j (by omega)
  obtain ⟨chains, hch, hflat⟩ := RxOk.run hs hn hm hne [] [] l (L + 2) s' (by omega)
    (fun j hj _ => lostContent_of_ne (by omega)) hs' fun _ _ => ⟨[], rfl, rfl⟩
  refine ⟨[t38Frame L (lostContent m span entries L L), t38Frame (L + 1 : ℕ) (m (L + 1))] :: chains,
    ?_, ?_⟩
  · rw [append_nil] at hch
    rw [Nat.add_comm 1 l, range'_succ, map_cons]
    simp only [udptlRxPackets, hrx, hch, Option.map_some]
  · have hnext : lostContent m span entries L (L + 1) = m (L + 1) := lostContent_of_ne (by omega)
    rw [flatten_cons, hflat, append_nil, framesFrom_add, framesFrom_add, ← hnext]
    simp [framesFrom]

end OneLoss

/-- A receiver that gets all packets but one plays every message once and in order, with its number.
The lost one is followed by zeros up to the longest message of its group. -/
theorem fec_recovers (span entries : ℕ) (hs : Setting span entries) (msgs : List (List UInt8))
    (hlen : msgs.length < 65536) (hmsgs : ∀ d ∈ msgs, IsMessage d) (L : ℕ) (hL : span * entries ≤ L)
    (hafter : L + span * entries < msgs.length) :
    ∃ packets, udptlBuildPackets (cwUdptlNew .fec entries span) msgs = some packets ∧
      packets.length = msgs.length ∧
      ∃ chains, udptlRxPackets (cwUdptlNew .fec entries span) (packets.eraseIdx L) = some chains ∧
        chains.flatten = (range msgs.length).map fun j : ℕ => t38Frame j
          (if j = L then padded (fun j => msgs.getD j []) span entries L else msgs.getD j []) := by
  let m : ℕ → List UInt8 := fun j => msgs.getD j []
  have hm : ∀ j < msgs.length, IsMessage (m j) := forall_getD hmsgs
  have hpos : 1 ≤ span * entries := Nat.mul_pos hs.span_pos hs.entries_pos
  have hbuild := udptlBuildPackets_mod (r := fecRecovery m span entries) hmsgs fun k hk s h => by
    rw [Nat.mod_eq_of_lt (by omega)]
    exact buildFec_eq hs h fun j hj => hm j (by omega)
  refine ⟨_, hbuild, by simp, ?_⟩
  obtain ⟨l, hl⟩ : ∃ l, msgs.length = L + (1 + (1 + l)) := ⟨msgs.length - L - 2, by omega⟩
  have hpackets := eraseIdx_map_range (packetOf m (fecRecovery m span entries)) L (1 + l)
  rw [← hl] at hpackets
  rw [hpackets]
  have hne := lostContent_ne_nil span entries hm (show L < msgs.length by omega)
  obtain ⟨chains, hch, hflat⟩ := RxOk.run hs hlen hm hne _ _ L 0 _ (by omega)
    (fun j _ hj => lostContent_of_ne (by omega)) (RxOk.new .fec entries span) fun s h => by
      rw [Nat.zero_add] at h
      exact RxOk.run_lost hs hlen hm hL hl h
  refine ⟨chains, hch, hflat.trans ?_⟩
  have hall := framesFrom_add (lostContent m span entries L) 0 L (1 + (1 + l))
  rw [Nat.zero_add, ← hl] at hall
  rw [← hall, framesFrom, range_eq_range']
  rfl

theorem fec_recovers_third_lost :
    ∃ packets, udptlBuildPackets (cwUdptlNew .fec 1 2) [[1], [2, 3], [4], [5], [6]] =
        some packets ∧
      ∃ chains, udptlRxPackets (cwUdptlNew .fec 1 2) (packets.eraseIdx 2) = some chains ∧
        chains.flatten = [t38Frame 0 [1], t38Frame 1 [2, 3], t38Frame 2 [4, 0], t38Frame 3 [5],
          t38Frame 4 [6]] := by
  obtain ⟨packets, hb, _, h⟩ := fec_recovers 2 1
    ⟨by decide, by decide, by decide, by decide, by decide⟩ [[1], [2, 3], [4], [5], [6]]
    (by decide) (by decide) 2 (by decide) (by decide)
  exact ⟨packets, hb, h⟩

end Run

end CallWeaver.Udptl
