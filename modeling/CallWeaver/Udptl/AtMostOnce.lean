import Mathlib.Data.List.Nodup
import CallWeaver.Udptl.Redundancy
import CallWeaver.Udptl.FecReceiver

/-! # Delivery at most once

A receiver remembers the number after the last packet it got, even if it had got later ones before.
As long as the numbers of the packets never fall, no number is delivered twice, in any of the
schemes. A late packet moves the expected number back, and what came before it is delivered again.
-/

namespace CallWeaver.Udptl

open Parity List Function

variable {scheme : ErrorCorrection} {entries span k seq r w : ℕ} {m : ℕ → List UInt8} {s : CwUdptl}
  {d packet : List UInt8} {D : List ℤ}

/-- A well-formed packet with the number `k`, with parity strings or secondary packets. -/
inductive Packet : ErrorCorrection → ℕ → List UInt8 → Prop
  | secondary {scheme : ErrorCorrection} {k : ℕ} {d : List UInt8} {l : List (List UInt8)}
      (hs : scheme ≠ .fec) (hd : IsMessage d) (hlen : l.length < 0x4000)
      (hl : ∀ d ∈ l, IsMessage d) :
      Packet scheme k
        (header k ++ openType d ++ 0x00 :: ((encodeLength l.length).1 ++ (l.map openType).flatten))
  | parity {k : ℕ} {d : List UInt8} {p : ℕ} {fs : List (List UInt8)} (hd : IsMessage d) (hp : p ≤ 4)
      (hq : fs.length ≤ 4) (hfs : ∀ f ∈ fs, IsMessage f) :
      Packet .fec k (header k ++ openType d ++
        0x80 :: 1 :: UInt8.ofNat p :: UInt8.ofNat fs.length :: (fs.map openType).flatten)

theorem buildRecovery_packet (h : TxOk scheme entries span m k (k + 1) s) (he : entries ≤ 4)
    (hs : span ≤ 4) (hm : ∀ j < k, (m j).length ≤ localFaxMaxDatagram) (hseq : seq ≤ k)
    (hd : IsMessage d) :
    ∃ rec, buildRecovery s seq (bufMask k) = some rec ∧
      Packet scheme k (header k ++ openType d ++ rec) := by
  cases scheme with
  | none =>
    refine ⟨_, by simp only [buildRecovery, h.scheme]; rfl, ?_⟩
    exact .secondary (l := []) (by decide) hd (by decide) (by simp)
  | redundancy =>
    refine ⟨_, buildRedundancy_wire h he hm seq, ?_⟩
    rw [redundancyRecovery, ← length_secondaries (m := fun j => wireMessage (m j))]
    apply Packet.secondary (by decide) hd
    · rw [length_secondaries]
      omega
    · exact isMessage_secondaries fun j hj => isMessage_wireMessage (hm j hj)
  | fec =>
    refine ⟨_, buildFec_wire h he hs hseq hm, ?_⟩
    obtain ⟨p, q, hw⟩ : ∃ p q, windUp span entries seq = (p, q) := ⟨_, _, rfl⟩
    have hle := windUp_le_four he hs seq
    rw [hw] at hle
    have hfs : ((range q).map fun g => wireMessage (parity ((groupMembers k g p q).map m))).length =
      q := by simp
    have hmsg : ∀ f ∈ (range q).map fun g => wireMessage (parity ((groupMembers k g p q).map m)),
        IsMessage f := by
      intro f hf
      obtain ⟨g, hg, rfl⟩ := mem_map.mp hf
      exact isMessage_wireMessage
        (length_parity_le (mem_range.mp hg) ((windUp_mul_le hw).trans hseq) hm)
    have hpacket := Packet.parity (k := k) hd hle.1 (by rw [hfs]; exact hle.2) hmsg
    rw [hfs, map_map] at hpacket
    rw [fecPart, hw]
    exact hpacket

theorem TxOk.step_packet (h : TxOk scheme entries span m k k s) (he : entries ≤ 4) (hs : span ≤ 4)
    (hm : ∀ j ≤ k, (m j).length ≤ localFaxMaxDatagram) :
    ∃ s' packet, udptlBuildPacket s (m k) = (s', some packet) ∧ Packet scheme k packet ∧
      TxOk scheme entries span m (k + 1) (k + 1) s' := by
  obtain ⟨rec, hrec, hpacket⟩ :=
    buildRecovery_packet h.save he hs (fun j hj => hm j hj.le) (Nat.mod_le k 65536)
    (isMessage_wireMessage (hm k le_rfl))
  exact ⟨_, _, udptlBuildPacket_eq h.seq (hm k le_rfl) hrec, hpacket, h.save.sent⟩

section Numbers

variable {A : List ℤ}

theorem map_seqNo_filterMap (P : ℕ → Prop) [DecidablePred P] (g : ℕ → Frame) (l : List ℕ) :
    (l.filterMap fun i => if P i then some (g i) else none).map Frame.seqNo =
      l.filterMap fun i => if P i then some (g i).seqNo else none := by
  rw [map_filterMap]
  refine filterMap_congr fun i _ => ?_
  split_ifs <;> rfl

theorem nodup_filterMap_ite {l : List ℕ} (hl : l.Nodup) (P : ℕ → Prop) [DecidablePred P] {f : ℕ → ℤ}
    (hf : f.Injective) : (l.filterMap fun i => if P i then some (f i) else none).Nodup := by
  refine hl.filterMap fun i j z hi hj => hf ?_
  simp only [Option.mem_def, Option.ite_none_right_eq_some, Option.some.injEq] at hi hj
  rw [hi.2, hj.2]

theorem nodup_append_numbers (hD : D.Nodup) (hlt : ∀ z ∈ D, z < r) (hA : A.Nodup)
    (hnew : ∀ z ∈ A, z ∉ D ∧ z < k) : (D ++ (A ++ if k ≥ r then [(k : ℤ)] else [])).Nodup := by
  have hlast : (if k ≥ r then [(k : ℤ)] else []).Nodup := by split_ifs <;> simp
  refine hD.append (hA.append hlast ?_) ?_
  · intro z hz hz'
    have hzk := (hnew z hz).2
    split_ifs at hz' <;> simp at hz'
    omega
  · intro z hz hz'
    have hzr := hlt z hz
    rcases mem_append.mp hz' with h | h
    · exact (hnew z h).1 hz
    · split_ifs at h <;> simp at h
      omega

end Numbers

/-- A receiver has delivered the numbers in `D`. They are below the expected number, and with parity
strings the slots of those in the ring count as present. -/
structure Delivered (scheme : ErrorCorrection) (s : CwUdptl) (D : List ℤ) : Prop where
  nodup : D.Nodup
  lt : ∀ z ∈ D, z < s.rxSeqNo
  slot : scheme = .fec → ∀ z ∈ D, s.rxSeqNo ≤ z + 16 → 0 < (s.rx (bufMask z)).bufLen
  parity : ∀ i, 0 < (s.rx i).fecLen 0 → ∀ g < (s.rx i).fecEntries, 0 < (s.rx i).fecLen g

section Secondary

theorem Delivered.new (scheme scheme' : ErrorCorrection) (entries span : ℕ) :
    Delivered scheme (cwUdptlNew scheme' entries span) [] := by
  constructor
  · exact nodup_nil
  · simp
  · simp
  · intro i hi
    exact absurd hi (lt_irrefl 0)

theorem Delivered.close {frames : List Frame} (h : Delivered scheme s D) (s' : CwUdptl)
    (d : List UInt8) (hrx : s'.rxSeqNo = s.rxSeqNo ∨ s'.rxSeqNo = k ∧ s.rxSeqNo ≤ k)
    (hnodup : (frames.map Frame.seqNo).Nodup) (hnew : ∀ z ∈ frames.map Frame.seqNo, z ∉ D ∧ z < k)
    (hle : s.rxSeqNo ≤ k + 1) :
    ∃ s'' chain, finish s' k d frames = (s'', some chain) ∧ s''.rx = s'.rx ∧ s''.rxSeqNo = k + 1 ∧
      (D ++ chain.map Frame.seqNo).Nodup ∧
      ∀ z ∈ D ++ chain.map Frame.seqNo, z < s''.rxSeqNo ∧
      (z ∈ D ∨ z ∈ frames.map Frame.seqNo ∨ z = k) := by
  have hown : (if k ≥ s'.rxSeqNo then [t38Frame k d] else []).map Frame.seqNo =
      if k ≥ s.rxSeqNo then [(k : ℤ)] else [] := by
    have hiff : k ≥ s'.rxSeqNo ↔ k ≥ s.rxSeqNo := by omega
    simp only [hiff]
    split_ifs <;> rfl
  refine ⟨_, _, rfl, rfl, rfl, ?_, ?_⟩
  · rw [map_append, hown]
    exact nodup_append_numbers h.nodup h.lt hnodup hnew
  · rw [map_append, hown]
    intro z hz
    rw [mem_append, mem_append] at hz
    rcases hz with hz | hz | hz
    · have hlt := h.lt z hz
      exact ⟨by push_cast; omega, .inl hz⟩
    · have hlt := (hnew z hz).2
      exact ⟨by push_cast; omega, .inr (.inl hz)⟩
    · have hk : z = k := by
        split_ifs at hz
        · exact mem_singleton.mp hz
        · simp at hz
      exact ⟨by push_cast; omega, .inr (.inr hk)⟩

theorem Delivered.step_secondary {l : List (List UInt8)} (h : Delivered scheme s D)
    (hs : scheme ≠ .fec) (hk : k < 65536) (hle : s.rxSeqNo ≤ k + 1) (hd : IsMessage d)
    (hlen : l.length < 0x4000) (hl : ∀ d ∈ l, IsMessage d) :
    ∃ s' chain, udptlRxPacket s (header k ++ openType d ++
        0x00 :: ((encodeLength l.length).1 ++ (l.map openType).flatten)) = (s', some chain) ∧
      s'.rxSeqNo = k + 1 ∧ Delivered scheme s' (D ++ chain.map Frame.seqNo) := by
  rw [udptlRxPacket_secondary s hk hd hlen hl]
  -- what is played of the secondary packets lies from the expected number on
  have hnumbers : ∀ frames, (frames = if k > s.rxSeqNo then
      (range l.length).reverse.filterMap fun i : ℕ =>
        if (k : ℤ) - (i + 1) ≥ s.rxSeqNo then some (t38Frame (k - (i + 1)) (l.getD i [])) else none
      else []) → (frames.map Frame.seqNo).Nodup ∧ ∀ z ∈ frames.map Frame.seqNo, z ∉ D ∧ z < k := by
    rintro _ rfl
    split_ifs
    · rw [map_seqNo_filterMap]
      constructor
      · apply nodup_filterMap_ite (nodup_reverse.mpr nodup_range)
        intro i j hij
        simp only [t38Frame] at hij
        omega
      · intro z hz
        obtain ⟨i, _, hi⟩ := mem_filterMap.mp hz
        split_ifs at hi with hge
        have hz' : (k : ℤ) - (i + 1) = z := Option.some.inj hi
        constructor
        · intro hD
          have hlt := h.lt z hD
          omega
        · omega
    · simp
  obtain ⟨hnodup, hnew⟩ := hnumbers _ rfl
  obtain ⟨s', chain, hfin, hrx, hseq, hnd, hall⟩ :=
    h.close s d (.inl rfl) hnodup hnew hle
  refine ⟨s', chain, hfin, hseq, hnd, fun z hz => (hall z hz).1, fun hfec => absurd hfec hs, ?_⟩
  rw [hrx]
  exact h.parity

end Secondary

section Parity

theorem Delivered.miss (h : Delivered scheme s D) : Delivered scheme (missSlot s) D := by
  constructor
  · exact h.nodup
  · intro z hz
    have hlt := h.lt z hz
    simp only [missSlot]
    omega
  · intro hs z hz hle
    have hlt := h.lt z hz
    simp only [missSlot] at hle ⊢
    have hne : bufMask z ≠ bufMask s.rxSeqNo := mt bufMask_eq_iff.mp (by omega)
    rw [update_of_ne hne]
    exact h.slot hs z hz (by omega)
  · intro i hi
    by_cases he : i = bufMask s.rxSeqNo
    · subst he
      simp [missSlot] at hi
    · simp only [missSlot, update_of_ne he] at hi ⊢
      exact h.parity i hi

theorem Delivered.skip (h : Delivered scheme s D) (k : ℕ) : Delivered scheme (missSlots s k) D :=
  foldlRecOn _ _ (motive := fun s => Delivered scheme s D) h fun _ hs _ _ => hs.miss

theorem rxSeqNo_missSlots (s : CwUdptl) (k : ℕ) :
    (missSlots s k).rxSeqNo = s.rxSeqNo + (k - s.rxSeqNo) := by
  have hfold : ∀ n, ((range n).foldl (fun s _ => missSlot s) s).rxSeqNo = s.rxSeqNo + n := by
    intro n
    induction n with
    | zero => rfl
    | succ n ih =>
      rw [range_succ, foldl_append, foldl_cons, foldl_nil]
      exact congrArg (· + 1) ih
  exact hfold _

def AllFilled (rx : ℕ → RxBuffer) : Prop :=
  ∀ i, 0 < (rx i).fecLen 0 → ∀ g < (rx i).fecEntries, 0 < (rx i).fecLen g

structure Repairs (rx : ℕ → RxBuffer) (x : ℕ) (t : (ℕ → RxBuffer) × (ℕ → Bool)) : Prop where
  parity : ∀ i, (t.1 i).fecLen = (rx i).fecLen ∧ (t.1 i).fecEntries = (rx i).fecEntries
  kept : ∀ i, 0 < (rx i).bufLen → 0 < (t.1 i).bufLen
  marked : ∀ i, t.2 i = true → 0 < (t.1 i).bufLen ∧ (i = x ∨ (rx i).bufLen ≤ 0)

theorem which_missing {rx : ℕ → RxBuffer} {slots : List ℕ} (h : which rx slots = w) :
    (rx w).bufLen ≤ 0 := by
  refine foldlRecOn slots _ (motive := fun z : ℤ => ∀ w : ℕ, z = w → (rx w).bufLen ≤ 0) (fun w hw =>
    ?_) (fun z hz i _ w hw => ?_) w h
  · omega
  · split_ifs at hw with hi hone
    · rwa [← Int.ofNat_inj.mp hw]
    · exact hz w hw

variable {rx : ℕ → RxBuffer} {x l g p : ℕ} {t : (ℕ → RxBuffer) × (ℕ → Bool)}

theorem Repairs.group (h : Repairs rx x t) (hg : 0 < (rx l).fecLen g) :
    Repairs rx x (repairGroup l g t) := by
  simp only [repairGroup]
  split_ifs with hw
  · obtain ⟨w, hw'⟩ := Int.eq_ofNat_of_zero_le hw
    have hmiss := which_missing hw'
    simp only [hw', Int.toNat_natCast]
    have hlen : 0 < (t.1 l).fecLen g := by rw [(h.parity l).1]; exact hg
    have hrx : (rx w).bufLen ≤ 0 := by
      by_contra hpos
      exact absurd (h.kept w (not_le.mp hpos)) (not_lt.mpr hmiss)
    constructor
    · intro i
      by_cases hi : i = w
      · subst hi
        simp only [update_self]
        exact h.parity i
      · simp only [update_of_ne hi]
        exact h.parity i
    · intro i hpos
      have hi : i ≠ w := fun he => absurd (he ▸ hpos) (not_lt.mpr hrx)
      simp only [update_of_ne hi]
      exact h.kept i hpos
    · intro i hi
      by_cases he : i = w
      · subst he
        simp only [update_self]
        exact ⟨hlen, .inr hrx⟩
      · simp only [update_of_ne he] at hi ⊢
        exact h.marked i hi
  · exact h

theorem Repairs.fill (hrx : AllFilled rx) (h : Repairs rx x t) (l : ℕ) :
    Repairs rx x (repairSlot t l) := by
  unfold repairSlot
  split_ifs with hl
  · exact h
  · rw [(h.parity l).1, not_le] at hl
    apply foldlRecOn _ _ h
    intro t' ht' g hg
    rw [mem_range, (h.parity l).2] at hg
    exact ht'.group (hrx l hl g hg)

theorem Repairs.all (hrx : AllFilled rx) (h : Repairs rx x t) (span entries : ℕ) :
    Repairs rx x (repair x span entries t) :=
  foldlRecOn _ _ h fun _ ht l _ => ht.fill hrx l

theorem Repairs.start {r : RxBuffer} (hr : 0 < r.bufLen) :
    Repairs (update rx x r) x
      (update rx x r, update (fun _ => false) x true) := by
  constructor
  · intro i
    exact ⟨rfl, rfl⟩
  · intro i hi
    exact hi
  · intro i hi
    by_cases he : i = x
    · subst he
      constructor
      · simpa only [update_self] using hr
      · exact .inl rfl
    · simp [update_of_ne he] at hi

theorem Repairs.mem_play (h : Repairs rx (bufMask k) t) {z : ℤ}
    (hz : z ∈ (playRepaired k (bufMask k) t).map Frame.seqNo) :
    (k : ℤ) ≤ z + 15 ∧ z < k ∧ (rx (bufMask z)).bufLen ≤ 0 ∧ 0 < (t.1 (bufMask z)).bufLen := by
  rw [playRepaired_eq, map_seqNo_filterMap] at hz
  obtain ⟨i, hi, hsome⟩ := mem_filterMap.mp hz
  have hi' := mem_range.mp hi
  split_ifs at hsome with hmark
  have hzi : (k : ℤ) - 15 + i = z := Option.some.inj hsome
  have hmask : bufMask ((k : ℤ) + 1 + i) = bufMask z := by rw [bufMask_eq_iff]; omega
  have hne : bufMask z ≠ bufMask k := mt bufMask_eq_iff.mp (by omega)
  rw [hmask] at hmark
  obtain ⟨hpos, hempty⟩ := h.marked _ hmark
  exact ⟨by omega, by omega, hempty.resolve_left hne, hpos⟩

theorem nodup_play (k : ℕ) (t : (ℕ → RxBuffer) × (ℕ → Bool)) :
    ((playRepaired k (bufMask k) t).map Frame.seqNo).Nodup := by
  rw [playRepaired_eq, map_seqNo_filterMap]
  apply nodup_filterMap_ite nodup_range
  intro i j hij
  simp only [t38Frame] at hij
  omega

theorem Delivered.step_parity {fs : List (List UInt8)} (h : Delivered .fec s D) (hk : k < 65536)
    (hle : s.rxSeqNo ≤ k + 1) (hd : IsMessage d) (hp : p ≤ 4) (hq : fs.length ≤ 4)
    (hfs : ∀ f ∈ fs, IsMessage f) :
    ∃ s' chain, udptlRxPacket s (header k ++ openType d ++
        0x80 :: 1 :: UInt8.ofNat p :: UInt8.ofNat fs.length :: (fs.map openType).flatten) =
          (s', some chain) ∧
      s'.rxSeqNo = k + 1 ∧ Delivered .fec s' (D ++ chain.map Frame.seqNo) := by
  obtain ⟨ptr, hptr, hrx⟩ := udptlRxPacket_eq s 0x80
    (1 :: UInt8.ofNat p :: UInt8.ofNat fs.length :: (fs.map openType).flatten) hk hd
  obtain ⟨r, hr, hfec⟩ := rxFec_eq s k hd hp hq hfs rfl hptr
  rw [hrx, if_neg (by decide), hfec _ rfl]
  have hmiss := h.skip k
  have hseq := rxSeqNo_missSlots s k
  have hpos : 0 < r.bufLen := hr.holds.pos hd.1
  -- the strings of the packet are as good as those of the slots before it
  have hparity : AllFilled (update (missSlots s k).rx (bufMask k) r) := by
    intro i
    by_cases hi : i = bufMask k
    · subst hi
      rw [update_self, hr.entries]
      intro _ g hg
      have hf := length_pos_iff.mpr (hfs _ (getElem_mem hg)).1
      rw [(hr.parity g _ (getElem?_eq_getElem hg)).1]
      omega
    · rw [update_of_ne hi]
      exact hmiss.parity i
  obtain ⟨t, ht⟩ : ∃ t, repair (bufMask k) p fs.length
      (update (missSlots s k).rx (bufMask k) r,
        update (fun _ => false) (bufMask k) true) = t := ⟨_, rfl⟩
  have hrep : Repairs (update (missSlots s k).rx (bufMask k) r) (bufMask k) t :=
    ht ▸ (Repairs.start hpos).all hparity p fs.length
  rw [ht]
  -- a number that was delivered is in the ring with its slot, or has left it
  have hslot : ∀ z ∈ D, (k : ℤ) ≤ z + 15 →
      0 < (update (missSlots s k).rx (bufMask k) r (bufMask z)).bufLen := by
    intro z hz hzk
    by_cases hzm : bufMask z = bufMask k
    · rw [hzm, update_self]
      exact hpos
    · rw [update_of_ne hzm]
      exact hmiss.slot rfl z hz (by rw [hseq]; push_cast; omega)
  have hnew : ∀ z ∈ (playRepaired k (bufMask k) t).map Frame.seqNo, z ∉ D ∧ z < k := by
    intro z hz
    obtain ⟨hzk, hlt, hempty, _⟩ := hrep.mem_play hz
    exact ⟨fun hD => absurd (hslot z hD hzk) (not_lt.mpr hempty), hlt⟩
  obtain ⟨s', chain, hfin, hrx', hseq', hnd, hall⟩ :=
    h.close { missSlots s k with rx := t.1 } d (by simp only [hseq]; omega)
      (nodup_play k t) hnew hle
  refine ⟨s', chain, hfin, hseq', hnd, fun z hz => (hall z hz).1, fun _ z hz hzk => ?_, fun i => ?_⟩
  · rw [hseq'] at hzk
    rw [hrx']
    rcases (hall z hz).2 with hD | hplay | rfl
    · exact hrep.kept _ (hslot z hD (by omega))
    · exact (hrep.mem_play hplay).2.2.2
    · refine hrep.kept _ ?_
      rw [update_self]
      exact hpos
  · rw [hrx', (hrep.parity i).1, (hrep.parity i).2]
    exact hparity i

end Parity

theorem Delivered.step (h : Delivered scheme s D) (hp : Packet scheme k packet) (hk : k < 65536)
    (hle : s.rxSeqNo ≤ k + 1) :
    ∃ s' chain, udptlRxPacket s packet = (s', some chain) ∧ s'.rxSeqNo = k + 1 ∧
      Delivered scheme s' (D ++ chain.map Frame.seqNo) := by
  cases hp with
  | secondary hs hd hlen hl => exact h.step_secondary hs hk hle hd hlen hl
  | parity hd hp hq hfs => exact h.step_parity hk hle hd hp hq hfs

theorem Delivered.run (packetAt : ℕ → List UInt8) {ns : List ℕ}
    (hp : ∀ k ∈ ns, k < 65536 ∧ Packet scheme k (packetAt k)) (hns : ns.Pairwise (· ≤ ·))
    (h : Delivered scheme s D) (hle : ∀ k ∈ ns, s.rxSeqNo ≤ k + 1) :
    ∃ chains, udptlRxPackets s (ns.map packetAt) = some chains ∧
      (D ++ chains.flatten.map Frame.seqNo).Nodup := by
  induction ns generalizing s D with
  | nil => exact ⟨[], rfl, by simpa using h.nodup⟩
  | cons k ns ih =>
    obtain ⟨hk, hpk⟩ := hp k (by simp)
    obtain ⟨s', chain, hrx, hseq, h'⟩ := h.step hpk hk (hle k (by simp))
    obtain ⟨hfirst, hrest⟩ := pairwise_cons.mp hns
    obtain ⟨chains, hrxs, hnd⟩ := ih (fun j hj => hp j (by simp [hj])) hrest h' fun j hj => by
      rw [hseq]
      exact Nat.succ_le_succ (hfirst j hj)
    refine ⟨chain :: chains, ?_, ?_⟩
    · simp only [map_cons, udptlRxPackets, hrx, hrxs, Option.map_some]
    · rwa [flatten_cons, map_append, ← append_assoc]

/-- In any scheme, a receiver that gets the packets of a session with numbers that never fall, any
of them lost or duplicated, delivers no number twice. -/
theorem delivered_at_most_once (scheme : ErrorCorrection) (entries span : ℕ) (he : entries ≤ 4)
    (hs : span ≤ 4) (msgs : List (List UInt8)) (hlen : msgs.length < 65536)
    (hmsgs : ∀ d ∈ msgs, d.length ≤ localFaxMaxDatagram) :
    ∃ packets, udptlBuildPackets (cwUdptlNew scheme entries span) msgs = some packets ∧
      packets.length = msgs.length ∧
      ∀ scheme' entries' span' (ns : List ℕ), (∀ n ∈ ns, n < msgs.length) → ns.Pairwise (· ≤ ·) →
        ∃ chains, udptlRxPackets (cwUdptlNew scheme' entries' span') (ns.map fun n =>
          packets.getD n []) = some chains ∧ (chains.flatten.map Frame.seqNo).Nodup := by
  have hm := forall_getD hmsgs
  obtain ⟨packets, hbuild, hpackets⟩ := TxOk.run (m := fun j => msgs.getD j []) (P := Packet scheme)
    (fun k hk s h => h.step_packet he hs fun j hj => hm j (hj.trans_lt hk)) msgs.length 0 _
    (Nat.zero_add _) TxOk.new
  rw [map_getD_range'] at hbuild
  have hlength : packets.length = msgs.length := by rw [← hpackets.length_eq, length_range']
  refine ⟨packets, hbuild, hlength, fun scheme' entries' span' ns hns hsorted => ?_⟩
  have hrun := (Delivered.new scheme scheme' entries' span').run
    (fun n => packets.getD n []) (fun k hk => ⟨by have := hns k hk; omega, ?_⟩) hsorted
    (fun k _ => Nat.zero_le _)
  · simpa using hrun
  · have hkp : k < packets.length := hlength ▸ hns k hk
    simpa [hkp] using (forall₂_iff_get.mp hpackets).2 k (by simpa using hns k hk) hkp

theorem delivered_at_most_once_duplicate :
    ∃ packets, udptlBuildPackets (cwUdptlNew .fec 3 3) [[1], [], [3, 4]] = some packets ∧
      ∃ chains, udptlRxPackets (cwUdptlNew .fec 3 3) ([0, 2, 2].map fun n => packets.getD n []) =
          some chains ∧ (chains.flatten.map Frame.seqNo).Nodup := by
  obtain ⟨packets, hb, _, h⟩ := delivered_at_most_once .fec 3 3 (by decide) (by decide)
    [[1], [], [3, 4]] (by decide) (by decide)
  exact ⟨packets, hb, h .fec 3 3 [0, 2, 2] (by decide) (by decide)⟩

/-- The packets 1 and 2 change places. The late one moves the expected number back to 2, and the
packet 3 delivers its secondary packet 2 again. -/
theorem late_packet_repeats :
    ∃ packets, udptlBuildPackets (cwUdptlNew .redundancy 1 0) [[1], [2], [3], [4]] = some packets ∧
      ∃ chains, udptlRxPackets (cwUdptlNew .redundancy 1 0)
          ([0, 2, 1, 3].map fun n => packets.getD n []) = some chains ∧
        chains.flatten.map Frame.seqNo = [0, 1, 2, 2, 3] := by
  let m : ℕ → List UInt8 := fun j => [[1], [2], [3], [4]].getD j []
  have hm : ∀ j < 4, IsMessage (m j) := by decide
  refine ⟨_, udptlBuildPackets_redundancy 1 0 (by decide) (by decide), ?_⟩
  rw [map_getD_packets _ (by decide)]
  have hrx : ∀ (s : CwUdptl) (k r : ℕ), k < 4 → s.rxSeqNo = r → r ≤ k → k ≤ r + 1 →
      udptlRxPacket s (packetOf m (redundancyRecovery m 1) k) =
        ({ s with rxSeqNo := k + 1 }, some (framesFrom m r (k + 1 - r))) :=
      fun s k r hk hr hrk hkr =>
    udptlRxPacket_redundancy (by omega) (by decide) (fun j hj => hm j (by omega)) hr hrk hkr
  have hlate : ∀ s : CwUdptl, s.rxSeqNo = 3 →
      udptlRxPacket s (packetOf m (redundancyRecovery m 1) 1) =
      ({ s with rxSeqNo := 2 }, some []) := by
    intro s hs
    have h :=
      udptlRxPacket_secondary s (k := 1) (l := secondaries m 1 1) (by decide) (hm 1 (by decide))
      (by decide) (by decide)
    rw [hs] at h
    exact h.trans (by simp [finish, hs])
  simp only [map_cons, map_nil, udptlRxPackets]
  rw [hrx _ 0 0 (by decide) rfl (by decide) (by decide)]
  dsimp only
  rw [hrx _ 2 1 (by decide) rfl (by decide) (by decide)]
  dsimp only
  rw [hlate _ rfl]
  dsimp only
  rw [hrx _ 3 2 (by decide) rfl (by decide) (by decide)]
  exact ⟨_, rfl, rfl⟩

end CallWeaver.Udptl
