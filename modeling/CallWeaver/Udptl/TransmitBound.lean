import Mathlib.Algebra.BigOperators.Group.List.Basic
import CallWeaver.Udptl.Redundancy
import CallWeaver.Udptl.Coverage

/-! # The length of packets

The buffer in which a packet is built is as large as the largest message, and has no room for what
comes with it. What a packet takes is known from the lengths of its message and of the earlier ones.
-/

namespace CallWeaver.Udptl

open Parity Nat Function List

section Sizes

def openSize (n : ℕ) : ℕ := n + if n < 128 then 1 else 2

def recoverySize (scheme : ErrorCorrection) (span entries : ℕ) (m : ℕ → List UInt8) (k : ℕ) : ℕ :=
  match scheme with
  | .none => 2
  | .redundancy => 2 + ((range (min k entries)).map fun i => openSize (m (k - 1 - i)).length).sum
  | .fec =>
    let (p, q) := windUp span entries (k % 65536)
    4 + ((range q).map fun g => openSize (max 1 (longest ((groupMembers k g p q).map m)))).sum

def packetSize (scheme : ErrorCorrection) (span entries : ℕ) (m : ℕ → List UInt8) (k : ℕ) : ℕ :=
  2 + openSize (m k).length + recoverySize scheme span entries m k

variable {d : List UInt8}

theorem length_openType (h : d.length < 0x4000) : (openType d).length = openSize d.length := by
  rw [openType, openSize, encodeLength, length_append, add_comm]
  split_ifs <;> rfl

theorem length_wireMessage (d : List UInt8) : (wireMessage d).length = max 1 d.length := by
  unfold wireMessage
  split_ifs with h
  · rw [h]
    rfl
  · have hpos := length_pos_iff.mpr h
    omega

theorem lt_length_encodeOpenTypeLoop (d : List UInt8) :
    d.length < (encodeOpenTypeLoop d).length := by
  have hpos : ∀ n, 0 < (encodeLength n).1.length := by
    intro n
    unfold encodeLength
    split_ifs <;> exact succ_pos _
  fun_induction encodeOpenTypeLoop d with
  | case1 d enclen h =>
    have := hpos d.length
    rw [length_append, length_take]
    omega
  | case2 d enclen h ih =>
    rw [length_drop] at ih
    rw [length_append, length_append, length_take]
    omega

end Sizes

section Build

variable {scheme : ErrorCorrection} {span entries k : ℕ} {m : ℕ → List UInt8} {s : CwUdptl}

theorem length_redundancyRecovery (he : entries ≤ 4) (hm : ∀ j < k, IsMessage (m j)) :
    (redundancyRecovery (fun j => wireMessage (m j)) entries k).length =
      recoverySize .redundancy span entries m k := by
  have hcount : (encodeLength (min k entries)).1.length = 1 := by
    rw [encodeLength, if_pos (by omega)]
    rfl
  have hsize : ∀ i ∈ range (min k entries), (openType (wireMessage (m (k - 1 - i)))).length =
      openSize (m (k - 1 - i)).length := by
    intro i hi
    have hi' := mem_range.mp hi
    have hmsg := hm (k - 1 - i) (by omega)
    rw [wireMessage_of_ne hmsg.1]
    exact length_openType (lt_of_le_of_lt hmsg.2 (by decide))
  simp only [redundancyRecovery, secondaries, recoverySize, length_cons, length_append, hcount,
    length_flatten, map_map, comp_def]
  rw [map_congr_left hsize]
  omega

theorem length_fecPart (hm : ∀ j < k, (m j).length ≤ localFaxMaxDatagram) :
    (fecPart m span entries (k % 65536) k).length = recoverySize .fec span entries m k := by
  obtain ⟨p, q, hw⟩ : ∃ p q, windUp span entries (k % 65536) = (p, q) := ⟨_, _, rfl⟩
  have hk : p * q ≤ k := (windUp_mul_le hw).trans (mod_le k 65536)
  have hsize :
      ∀ g ∈ range q, (openType (wireMessage (parity ((groupMembers k g p q).map m)))).length =
      openSize (max 1 (longest ((groupMembers k g p q).map m))) := by
    intro g hg
    have hlong := length_parity_le (mem_range.mp hg) hk hm
    rw [length_parity] at hlong
    have hlen : (wireMessage (parity ((groupMembers k g p q).map m))).length =
        max 1 (longest ((groupMembers k g p q).map m)) := by
      rw [length_wireMessage, length_parity]
    have h400 : localFaxMaxDatagram = 400 := rfl
    rw [length_openType (by omega), hlen]
  simp only [fecPart, recoverySize, hw, length_cons, length_flatten, map_map, comp_def]
  rw [map_congr_left hsize]
  omega

theorem buildRecovery_size (h : TxOk scheme entries span m k (k + 1) s) (he : entries ≤ 4)
    (hs : span ≤ 4) (hm : ∀ j < k, IsMessage (m j)) :
    ∃ rec, buildRecovery s (k % 65536) (bufMask k) = some rec ∧
      rec.length = recoverySize scheme span entries m k := by
  have hlen : ∀ j < k, (m j).length ≤ localFaxMaxDatagram := fun j hj => (hm j hj).2
  cases scheme with
  | none => exact ⟨[0, 0], by simp only [buildRecovery, h.scheme]; rfl, rfl⟩
  | redundancy => exact ⟨_, buildRedundancy_wire h he hlen _, length_redundancyRecovery he hm⟩
  | fec => exact ⟨_, buildFec_wire h he hs (mod_le k 65536) hlen, length_fecPart hlen⟩

theorem TxOk.step_size (h : TxOk scheme entries span m k k s) (he : entries ≤ 4) (hs : span ≤ 4)
    (hm : ∀ j < k, IsMessage (m j)) (hne : m k ≠ []) :
    ∃ s' packet, udptlBuildPacket s (m k) = (s', some packet) ∧
      TxOk scheme entries span m (k + 1) (k + 1) s' ∧
      (packet.length ≤ localFaxMaxDatagram ↔
        packetSize scheme span entries m k ≤ localFaxMaxDatagram) ∧
      (packetSize scheme span entries m k ≤ localFaxMaxDatagram → IsMessage (m k)) := by
  obtain ⟨rec, hrec, hsize⟩ := buildRecovery_size h.save he hs hm
  have hmessage : packetSize scheme span entries m k ≤ localFaxMaxDatagram → IsMessage (m k) := by
    intro hle
    refine ⟨hne, ?_⟩
    unfold packetSize openSize at hle
    omega
  rcases lt_or_ge localFaxMaxDatagram (m k).length with hlong | hshort
  · -- neither the packet nor its size can be small enough
    refine ⟨_, _, udptlBuildPacket_of_encode h.seq (encodeOpenType_loop hne) hrec, h.save.sent,
      ?_, hmessage⟩
    refine iff_of_false (fun hle => ?_) fun hle => absurd (hmessage hle).2 (not_le.mpr hlong)
    have hlt := lt_length_encodeOpenTypeLoop (m k)
    rw [length_append, length_append] at hle
    omega
  · refine ⟨_, _, udptlBuildPacket_eq h.seq hshort hrec, h.save.sent, ?_, hmessage⟩
    have hopen : (openType (m k)).length = openSize (m k).length :=
      length_openType (lt_of_le_of_lt hshort (by decide))
    rw [wireMessage_of_ne hne, length_append, length_append, hopen, hsize]
    rfl

end Build

section Writes

/-- The packets that are built in the buffer of `cw_udptl_write` while frames are written. -/
def builtPackets (s : CwUdptl) : List (Peer × Frame) → List (List UInt8)
  | [] => []
  | (them, f) :: writes =>
    let w := cwUdptlWrite them s f
    w.buf.toList ++ builtPackets w.session writes

def acceptedMessages : List (Peer × Frame) → List (List UInt8)
  | [] => []
  | (them, f) :: writes =>
    if Accepts them f then f.data :: acceptedMessages writes else acceptedMessages writes

variable {scheme : ErrorCorrection} {span entries : ℕ} {m : ℕ → List UInt8}

theorem builtPackets_fit_iff (he : entries ≤ 4) (hs : span ≤ 4) (writes : List (Peer × Frame))
    (k : ℕ) (s : CwUdptl) (h : TxOk scheme entries span m k k s) (hm : ∀ j < k, IsMessage (m j))
    (hrest : ∀ i < (acceptedMessages writes).length,
      m (k + i) = (acceptedMessages writes).getD i []) :
    (∀ packet ∈ builtPackets s writes, packet.length ≤ localFaxMaxDatagram) ↔
      ∀ i < (acceptedMessages writes).length,
        packetSize scheme span entries m (k + i) ≤ localFaxMaxDatagram := by
  induction writes generalizing k s with
  | nil => simp [builtPackets, acceptedMessages]
  | cons w writes ih =>
    obtain ⟨them, f⟩ := w
    rw [builtPackets]
    by_cases hacc : Accepts them f
    · obtain ⟨hsession, hbuf⟩ := cwUdptlWrite_accepted (s := s) hacc
      simp only [acceptedMessages, if_pos hacc, length_cons] at hrest ⊢
      have hmk : m k = f.data := hrest 0 (succ_pos _)
      obtain ⟨s', packet, hbuild, h', hfit, hmessage⟩ :=
        h.step_size he hs hm (by rw [hmk]; exact hacc.2.1)
      rw [hmk] at hbuild
      rw [hsession, hbuf, hbuild, forall_lt_succ_left]
      simp only [Option.toList_some, singleton_append, forall_mem_cons]
      rw [hfit]
      -- the later packets are compared only when this one fits
      refine and_congr_right fun hsize => ?_
      have hm' : ∀ j < k + 1, IsMessage (m j) := by
        intro j hj
        rcases Nat.lt_succ_iff_lt_or_eq.mp hj with hlt | rfl
        · exact hm j hlt
        · exact hmessage hsize
      have hnext := ih (k + 1) s' h' hm' fun i hi => by
        have := hrest (i + 1) (succ_lt_succ hi)
        rw [← add_assoc, add_right_comm] at this
        exact this
      rw [hnext]
      simp only [add_assoc, add_comm 1]
    · obtain ⟨hsession, hbuf⟩ := cwUdptlWrite_refused (s := s) hacc
      simp only [acceptedMessages, if_neg hacc] at hrest ⊢
      rw [hsession, hbuf]
      exact ih k s h hm hrest

/-- All packets built while frames are written fit into the buffer if and only if their sizes do. -/
theorem transmit_bound_iff (scheme : ErrorCorrection) (span entries : ℕ)
    (hadmitted : Admitted span entries) (writes : List (Peer × Frame)) :
    (∀ packet ∈ builtPackets (cwUdptlNew scheme entries span) writes,
      packet.length ≤ localFaxMaxDatagram) ↔ ∀ k < (acceptedMessages writes).length,
        packetSize scheme span entries (fun j => (acceptedMessages writes).getD j []) k ≤
        localFaxMaxDatagram := by
  obtain ⟨hspan, hentries⟩ := admitted_iff.mp hadmitted
  have h :=
    builtPackets_fit_iff (m := fun j => (acceptedMessages writes).getD j []) hentries hspan writes 0
    (cwUdptlNew scheme entries span) .new (fun j hj => absurd hj (not_lt_zero j))
    fun i _ => by rw [zero_add]
  simpa only [zero_add] using h

theorem transmit_bound_iff_two : Admitted 0 1 ∧
    ((∀ packet ∈ builtPackets (cwUdptlNew .redundancy 1 0) [(⟨1, 1⟩, t38Frame 0 [7]),
      (⟨1, 1⟩, t38Frame 0 [8])], packet.length ≤ localFaxMaxDatagram) ↔
    ∀ k < 2, packetSize .redundancy 0 1 (fun j => [[7], [8]].getD j []) k ≤ localFaxMaxDatagram) :=
  ⟨admitted_iff.mpr (by decide), transmit_bound_iff .redundancy 0 1 (admitted_iff.mpr (by decide))
    [(⟨1, 1⟩, t38Frame 0 [7]), (⟨1, 1⟩, t38Frame 0 [8])]⟩

/-- A message of 397 octets makes a packet of 403 octets, and so do three messages of 131 octets
when each packet repeats two of them. -/
theorem packet_exceeds_buffer : Admitted 0 1 ∧ Admitted 0 2 ∧
    (builtPackets (cwUdptlNew .none 1 0) [(⟨1, 1⟩, t38Frame 0 (replicate 397 7))]).map length =
    [403] ∧ (builtPackets (cwUdptlNew .redundancy 2 0)
      (replicate 3 (⟨1, 1⟩, t38Frame 0 (replicate 131 7)))).map length = [137, 270, 403] ∧
    ¬ 403 ≤ localFaxMaxDatagram := by
  refine ⟨admitted_iff.mpr (by decide), admitted_iff.mpr (by decide), ?_, ?_, by decide⟩
  · decide +kernel
  · decide +kernel

end Writes

end CallWeaver.Udptl
