import Mathlib.Data.List.Nodup
import CallWeaver.Udptl.Fec

/-! # What the parity strings cover

The groups of a packet are laid out over the last `span * entries` messages. The loop over a group
stops where it started when this number is sixteen, a whole turn of the ring, and the groups are
wound up again after every 65536 packets.
-/

namespace CallWeaver.Udptl

open Parity List

section Groups

variable {k g p q j : ℕ}

/-- The groups of a packet are disjoint and have every one of the last messages. -/
theorem mem_members_iff (hk : p * q ≤ k) (hg : g < q) :
    j ∈ members k g p q ↔ k - p * q ≤ j ∧ j < k ∧ (j - (k - p * q)) % q = g := by
  constructor
  · intro hj
    obtain ⟨hge, hlt, -⟩ := mem_members hg hk hj
    obtain ⟨t, ht, rfl⟩ := mem_map.mp hj
    refine ⟨by omega, hlt, ?_⟩
    have hsub : k + g - p * q + t * q - (k - p * q) = g + t * q := by omega
    rw [hsub, Nat.add_mul_mod_self_right, Nat.mod_eq_of_lt hg]
  · rintro ⟨hge, hlt, hmod⟩
    have hsplit := Nat.mod_add_div (j - (k - p * q)) q
    rw [hmod, Nat.mul_comm] at hsplit
    refine mem_map.mpr ⟨(j - (k - p * q)) / q, mem_range.mpr ?_, by omega⟩
    apply Nat.div_lt_of_lt_mul
    rw [Nat.mul_comm q p]
    omega

theorem nodup_members (hq : 0 < q) : (members k g p q).Nodup := by
  refine List.Nodup.map (fun t t' h => ?_) nodup_range
  exact Nat.eq_of_mul_eq_mul_right hq (by omega)

theorem flatten_members_perm (hk : p * q ≤ k) :
    ((range q).map fun g => members k g p q).flatten.Perm (range' (k - p * q) (p * q)) := by
  have hnodup : ((range q).map fun g => members k g p q).flatten.Nodup := by
    rw [nodup_flatten]
    constructor
    · intro l hl
      obtain ⟨g, hg, rfl⟩ := mem_map.mp hl
      exact nodup_members (Nat.lt_of_le_of_lt (Nat.zero_le g) (mem_range.mp hg))
    · rw [pairwise_map]
      refine List.Pairwise.imp_of_mem ?_ nodup_range
      intro a b ha hb hab j hja hjb
      rw [mem_members_iff hk (mem_range.mp ha)] at hja
      rw [mem_members_iff hk (mem_range.mp hb)] at hjb
      exact hab (hja.2.2.symm.trans hjb.2.2)
  rw [perm_ext_iff_of_nodup hnodup nodup_range']
  intro j
  rw [mem_flatten, mem_range'_1]
  constructor
  · rintro ⟨l, hl, hj⟩
    obtain ⟨g, hg, rfl⟩ := mem_map.mp hl
    obtain ⟨hge, hlt, -⟩ := (mem_members_iff hk (mem_range.mp hg)).mp hj
    omega
  · rintro ⟨hge, hlt⟩
    have hq : 0 < q := by
      rcases Nat.eq_zero_or_pos q with rfl | hq
      · omega
      · exact hq
    have hg := Nat.mod_lt (j - (k - p * q)) hq
    exact ⟨_, mem_map.mpr ⟨_, mem_range.mpr hg, rfl⟩,
      (mem_members_iff hk hg).mpr ⟨hge, by omega, rfl⟩⟩

end Groups

section Packets

variable {m : ℕ → List UInt8} {span entries k : ℕ}

/-- A packet has `entries` parity strings, each of `span` different earlier messages, which together
cover the last `span * entries` messages once. -/
def Covers (m : ℕ → List UInt8) (span entries k : ℕ) (packet : List UInt8) : Prop :=
  ∃ groups : List (List ℕ), groups.length = entries ∧
    (∀ g ∈ groups, g.length = span ∧ g.Nodup ∧ ∀ j ∈ g, j < k) ∧
    groups.flatten.Perm (range' (k - span * entries) (span * entries)) ∧
    packet = header k ++ openType (m k) ++ 0x80 :: 1 :: UInt8.ofNat span :: UInt8.ofNat entries ::
      (groups.map fun g => openType (wireMessage (parity (g.map m)))).flatten

theorem udptlBuildPackets_fec (hspan : span ≤ 4) (hentries : entries ≤ 4) {msgs : List (List UInt8)}
    (hmsgs : ∀ d ∈ msgs, IsMessage d) :
    udptlBuildPackets (cwUdptlNew .fec entries span) msgs = some ((range msgs.length).map
      (packetOf (fun j => msgs.getD j [])
        fun k => fecPart (fun j => msgs.getD j []) span entries (k % 65536) k)) := by
  have hm : ∀ j < msgs.length, IsMessage (msgs.getD j []) := forall_getD hmsgs
  refine udptlBuildPackets_mod hmsgs fun k hk s hs => ?_
  exact buildFec_wire hs hentries hspan (Nat.mod_le k 65536) fun j hj => (hm j (by omega)).2

theorem covers_packetOf (hk : span * entries ≤ k) (h15 : span * entries ≤ 15)
    (hwrap : span * entries ≤ k % 65536) :
    Covers m span entries k (packetOf m (fun k => fecPart m span entries (k % 65536) k) k) := by
  refine ⟨(range entries).map fun g => members k g span entries, by simp, ?_,
    flatten_members_perm hk, ?_⟩
  · intro l hl
    obtain ⟨g, hg, rfl⟩ := mem_map.mp hl
    have hg' := mem_range.mp hg
    refine ⟨by simp [members], nodup_members (by omega), fun j hj => (mem_members hg' hk hj).2.1⟩
  · simp only [packetOf, fecPart, windUp_of_le hwrap, groupMembers, if_pos h15, map_map]
    rfl

theorem wrap_of_covers (hentries : entries ≤ 4)
    (h : Covers m span entries k (packetOf m (fun k => fecPart m span entries (k % 65536) k) k)) :
    span * entries ≤ k % 65536 := by
  obtain ⟨groups, -, -, -, hpacket⟩ := h
  rw [packetOf, append_cancel_left_eq] at hpacket
  by_contra hlt
  rw [Nat.not_le] at hlt
  have hdiv : k % 65536 / span < entries := Nat.div_lt_of_lt_mul hlt
  simp only [fecPart, windUp, if_pos hlt, cons.injEq, true_and] at hpacket
  have hcount := congrArg UInt8.toNat hpacket.2.1
  rw [UInt8.toNat_ofNat', UInt8.toNat_ofNat'] at hcount
  generalize k % 65536 / span = n at hdiv hcount
  omega

theorem ring_of_covers (hspan : span ≤ 4) (hentries : entries ≤ 4)
    (hwrap : span * entries ≤ k % 65536) (hm : ∀ j < k, m j = [1, 1])
    (h : Covers m span entries k (packetOf m (fun k => fecPart m span entries (k % 65536) k) k)) :
    span * entries ≤ 15 := by
  by_contra h15
  have hfour : ∀ a ≤ 4, ∀ b ≤ 4, ¬ a * b ≤ 15 → a = 4 ∧ b = 4 := by decide
  obtain ⟨rfl, rfl⟩ := hfour span hspan entries hentries h15
  obtain ⟨groups, hlen, hgroups, -, hpacket⟩ := h
  rw [packetOf, append_cancel_left_eq] at hpacket
  simp only [fecPart, windUp_of_le hwrap, groupMembers, if_neg h15, cons.injEq, true_and] at hpacket
  have hstrings : (groups.map fun g => openType (wireMessage (parity (g.map m)))) =
      replicate 4 [2, 0, 0] := by
    rw [eq_replicate_iff, length_map]
    refine ⟨hlen, fun d hd => ?_⟩
    obtain ⟨g, hg, rfl⟩ := mem_map.mp hd
    obtain ⟨hg4, -, hlt⟩ := hgroups g hg
    have hmap : g.map m = replicate 4 [1, 1] := by
      rw [eq_replicate_iff, length_map]
      refine ⟨hg4, fun d hd => ?_⟩
      obtain ⟨j, hj, rfl⟩ := mem_map.mp hd
      exact hm j (hlt j hj)
    rw [hmap]
    decide
  rw [hstrings] at hpacket
  simp only [map_nil] at hpacket
  exact absurd hpacket (by decide)

/-- Once there are enough messages, a packet covers the last ones if and only if the groups are
smaller than the ring and its number has not just wrapped. -/
theorem fec_coverage_iff (span entries k : ℕ) (hadmitted : Admitted span entries)
    (hk : span * entries ≤ k) :
    (∀ msgs, (∀ d ∈ msgs, IsMessage d) → k < msgs.length → ∃ packets packet,
      udptlBuildPackets (cwUdptlNew .fec entries span) msgs = some packets ∧
        packets[k]? = some packet ∧ Covers (fun j => msgs.getD j []) span entries k packet) ↔
      span * entries ≤ 15 ∧ span * entries ≤ k % 65536 := by
  obtain ⟨hspan, hentries⟩ := admitted_iff.mp hadmitted
  constructor
  · intro h
    have hmsgs : ∀ d ∈ replicate (k + 1) [(1 : UInt8), 1], IsMessage d := by
      intro d hd
      rw [eq_of_mem_replicate hd]
      decide
    obtain ⟨packets, packet, hbuild, hget, hcovers⟩ := h (replicate (k + 1) [1, 1]) hmsgs (by simp)
    rw [udptlBuildPackets_fec hspan hentries hmsgs, Option.some.injEq] at hbuild
    subst hbuild
    rw [length_replicate, getElem?_map, getElem?_range (Nat.lt_succ_self k), Option.map_some,
      Option.some.injEq] at hget
    subst hget
    have hwrap := wrap_of_covers hentries hcovers
    refine ⟨ring_of_covers hspan hentries hwrap (fun j hj => ?_) hcovers, hwrap⟩
    rw [getD_eq_getElem?_getD, getElem?_replicate, if_pos (by omega), Option.getD_some]
  · rintro ⟨h15, hwrap⟩ msgs hmsgs hlt
    refine ⟨_, _, udptlBuildPackets_fec hspan hentries hmsgs, ?_, covers_packetOf hk h15 hwrap⟩
    rw [getElem?_map, getElem?_range hlt, Option.map_some]

theorem fec_coverage_iff_three :
    Admitted 3 3 ∧ ((∀ msgs, (∀ d ∈ msgs, IsMessage d) → 20 < msgs.length →
    ∃ packets packet, udptlBuildPackets (cwUdptlNew .fec 3 3) msgs = some packets ∧
      packets[20]? = some packet ∧ Covers (fun j => msgs.getD j []) 3 3 20 packet) ↔
    3 * 3 ≤ 15 ∧ 3 * 3 ≤ 20 % 65536) :=
  ⟨admitted_iff.mpr (by decide), fec_coverage_iff 3 3 20 (admitted_iff.mpr (by decide)) (by decide)⟩

/-- With four strings of four messages each, every string is empty. -/
theorem full_ring_covers_nothing : Admitted 4 4 ∧ ∃ packets packet,
    udptlBuildPackets (cwUdptlNew .fec 4 4) (replicate 18 [1, 1]) = some packets ∧
      packets[17]? = some packet ∧
      packet = [0, 17, 2, 1, 1, 0x80, 1, 4, 4] ++ [1, 0] ++ [1, 0] ++ [1, 0] ++ [1, 0] ∧
      ¬ Covers (fun j => (replicate 18 [1, 1]).getD j []) 4 4 17 packet := by
  refine ⟨admitted_iff.mpr (by decide), _, _,
    udptlBuildPackets_fec (by decide) (by decide) (by decide), rfl, by decide +kernel, fun h => ?_⟩
  exact absurd (ring_of_covers (by decide) (by decide) (by decide) (by decide) h) (by decide)

end Packets

end CallWeaver.Udptl
