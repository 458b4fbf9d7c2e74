import CallWeaver.Dundi.Transaction
import Mathlib.Data.List.Nodup

/-! # Outstanding packets

What an acknowledgement removes, and what holds in every run: the timers of a living transaction
are those of its outstanding packets and the one for the first answer; a destroyed one leaves none.
-/

namespace CallWeaver.Dundi

open Function List Option

variable {p : Party} {t : Trans} {h : Hdr} {iseqno : UInt8} {pack q r : Packet}
  {newer older packets : List Packet} {sched : Sched} {id a next i : ℕ}

def Answers (iseqno : UInt8) (pack : Packet) : Prop :=
  (pack.h.oseqno.toNat + 1) % 255 = iseqno.toNat deriving Decidable

theorem ackLoop_eq (packets : List Packet) :
    ackLoop iseqno packets = packets.find? (Answers iseqno ·) := by
  induction packets with
  | nil => rfl
  | cons pack rest ih =>
    rw [ackLoop, ih, find?_cons]
    by_cases hp : Answers iseqno pack
    · rw [decide_eq_true hp]
      exact if_pos hp
    · rw [decide_eq_false hp]
      exact if_neg hp

theorem unlink_eq_filter (hnodup : (packets.map (·.addr)).Nodup) :
    unlink a packets = packets.filter (·.addr ≠ a) := by
  induction packets with
  | nil => rfl
  | cons cur rest ih =>
    obtain ⟨hcur, hrest⟩ := nodup_cons.mp hnodup
    by_cases ha : cur.addr = a
    · rw [unlink, if_pos ha, filter_cons_of_neg (by simp [ha])]
      refine (filter_eq_self.mpr fun q hq => ?_).symm
      have hne : q.addr ≠ a := fun he => hcur (mem_map.mpr ⟨q, hq, he.trans ha.symm⟩)
      simp [hne]
    · rw [unlink, if_neg ha, ih hrest, filter_cons_of_pos (by simp [ha])]

theorem addr_notMem (hnodup : ((newer ++ pack :: older).map (·.addr)).Nodup) :
    ∀ q ∈ newer ++ older, q.addr ≠ pack.addr := by
  rw [map_append, map_cons, nodup_middle, nodup_cons, ← map_append] at hnodup
  exact fun q hq he => hnodup.1 (he ▸ mem_map_of_mem hq)

theorem unlink_append (hnodup : ((newer ++ pack :: older).map (·.addr)).Nodup) :
    unlink pack.addr (newer ++ pack :: older) = newer ++ older := by
  rw [unlink_eq_filter hnodup, filter_append, filter_cons_of_neg (by simp), ← filter_append,
    filter_eq_self]
  intro q hq
  simp [addr_notMem hnodup q hq]

def acknowledged (p : Party) (t : Trans) (newer older : List Packet) (pack : Packet) : Party :=
  { p with
    trans := some { t with
      packets := newer ++ older
      lasttrans := some { pack with retransid := none }
      autokillid := none }
    sched := (p.sched.del pack.retransid).del t.autokillid }

/-- A packet is found by its own number if that is not one of the last two, which the loop reduces.
-/
theorem answers_self_iff : Answers (pack.h.oseqno + 1) pack ↔ pack.h.oseqno < 254 := by
  have hlt := pack.h.oseqno.toNat_lt
  rw [Answers, UInt8.toNat_add, UInt8.lt_iff_toNat_lt]
  simp only [UInt8.toNat_one, UInt8.reduceToNat]
  omega

theorem answers_other_iff (hpack : pack.h.oseqno < 254) :
    Answers (pack.h.oseqno + 1) q ↔
    q.h.oseqno = pack.h.oseqno ∨ pack.h.oseqno = 0 ∧ q.h.oseqno = 255 := by
  have hq := q.h.oseqno.toNat_lt
  rw [UInt8.lt_iff_toNat_lt] at hpack
  rw [Answers, UInt8.toNat_add, ← UInt8.toNat_inj, ← UInt8.toNat_inj, ← UInt8.toNat_inj]
  simp only [UInt8.toNat_one, UInt8.toNat_zero, UInt8.reduceToNat] at hpack ⊢
  omega

/-- The acknowledgement of an outstanding packet removes it and nothing else exactly if its number
is not one of the last two and no newer packet has the same number, or the last one where it has the
first. -/
theorem ackTrans_exact_iff (hsplit : t.packets = newer ++ pack :: older)
    (hnodup : (t.packets.map (·.addr)).Nodup) :
    ackTrans p t (pack.h.oseqno + 1) = (true, acknowledged p t newer older pack) ↔
      pack.h.oseqno < 254 ∧
        ∀ q ∈ newer, q.h.oseqno ≠ pack.h.oseqno ∧ ¬(pack.h.oseqno = 0 ∧ q.h.oseqno = 255) := by
  rw [hsplit] at hnodup
  constructor
  · intro hack
    have hfound : ackLoop (pack.h.oseqno + 1) t.packets = some pack := by
      rw [ackTrans] at hack
      split at hack
      · cases hack
      · rename_i k hk
        have hpackets : unlink k.addr t.packets = newer ++ older :=
          some.inj (congrArg (fun r : Bool × Party => r.2.trans.map Trans.packets) hack)
        -- the packet is not among those that stay, so it is the one that was found
        have hgone : k.addr = pack.addr := by
          by_contra hne
          have hin : pack ∈ newer ++ older := by
            rw [← hpackets, hsplit, unlink_eq_filter hnodup, mem_filter]
            exact ⟨by simp, by simpa using Ne.symm hne⟩
          exact addr_notMem hnodup pack hin rfl
        have hmem : k ∈ newer ++ pack :: older := by
          rw [ackLoop_eq, hsplit] at hk
          exact mem_of_find?_eq_some hk
        obtain rfl : k = pack := inj_on_of_nodup_map hnodup hmem (by simp) hgone
        exact hk
    rw [ackLoop_eq, hsplit] at hfound
    have hself : Answers (pack.h.oseqno + 1) pack := by
      have := find?_some hfound
      exact of_decide_eq_true this
    have hlt := answers_self_iff.mp hself
    refine ⟨hlt, fun q hq => ?_⟩
    have hnot : ¬Answers (pack.h.oseqno + 1) q := by
      intro hans
      rw [find?_append] at hfound
      cases hnew : newer.find? (Answers (pack.h.oseqno + 1) ·) with
      | none => exact find?_eq_none.mp hnew q hq (decide_eq_true hans)
      | some k =>
        rw [hnew, some_or] at hfound
        obtain rfl := some.inj hfound
        exact addr_notMem hnodup k (mem_append_left _ (mem_of_find?_eq_some hnew)) rfl
    rwa [answers_other_iff hlt, not_or] at hnot
  · rintro ⟨hlt, hnewer⟩
    have hfind : ackLoop (pack.h.oseqno + 1) t.packets = some pack := by
      rw [ackLoop_eq, find?_eq_some_iff_append]
      refine ⟨decide_eq_true (answers_self_iff.mpr hlt), newer, older, hsplit, fun q hq => ?_⟩
      have := hnewer q hq
      simp [answers_other_iff hlt, this]
    simp only [ackTrans, hfind, acknowledged]
    rw [hsplit, unlink_append hnodup]

/-- The timers of a living transaction are those of its outstanding packets, which are in the order
of their addresses and numbered by them, and the one for the first answer. -/
structure Armed (sched : Sched) (next : ℕ) (t : Trans) : Prop where
  sorted : t.packets.Pairwise fun a b => b.addr < a.addr
  bound : ∀ q ∈ t.packets, q.addr < next
  number : t.oseqno.toNat = next % 256
  numbers : ∀ q ∈ t.packets, q.h.oseqno.toNat = q.addr % 256
  timer : ∀ q ∈ t.packets, ∃ id, q.retransid = some id ∧ sched.jobs id = some (.rexmit q.addr)
  job : ∀ id a, sched.jobs id = some (.rexmit a) →
    ∃ q ∈ t.packets, q.addr = a ∧ q.retransid = some id
  kill : ∀ id, sched.jobs id = some .autokill ↔ t.autokillid = some id
  last : ∀ k, t.lasttrans = some k → k.retransid = none
  fresh : ∀ id, sched.next ≤ id → sched.jobs id = none

def Wf (p : Party) : Prop :=
  match p.trans with
  | none => ∀ id, p.sched.jobs id = none
  | some t => Armed p.sched p.next t

theorem Armed.nodup (h : Armed sched next t) : (t.packets.map (·.addr)).Nodup := by
  rw [List.Nodup, pairwise_map]
  exact h.sorted.imp fun hlt => (Nat.ne_of_lt hlt).symm

theorem Wf.armed (hw : Wf p) (ht : p.trans = some t) : Armed p.sched p.next t := by
  rwa [Wf, ht] at hw

theorem armed_create : Armed ⟨fun _ => none, 0⟩ 0 createTransaction := by
  constructor <;> simp [createTransaction]

theorem Sched.del_jobs (id : Option ℕ) (i : ℕ) :
    (sched.del id).jobs i = if id = some i then none else sched.jobs i := by
  cases id with
  | none => simp [Sched.del]
  | some id =>
    by_cases hi : i = id
    · simp [Sched.del, hi]
    · simp [Sched.del, update_of_ne hi, Ne.symm hi]

theorem destroyPackets_jobs (packets : List Packet) (i : ℕ) :
    (destroyPackets sched packets).jobs i =
    if ∃ q ∈ packets, q.retransid = some i then none else sched.jobs i := by
  induction packets generalizing sched with
  | nil => simp [destroyPackets]
  | cons prev rest ih =>
    rw [destroyPackets, ih, Sched.del_jobs]
    by_cases hrest : ∃ q ∈ rest, q.retransid = some i
    · rw [if_pos hrest, if_pos (by simp [hrest])]
    · simp only [hrest, mem_cons, exists_eq_or_imp, or_false, if_false]

theorem wf_destroyTrans (ht : p.trans = some t)
    (h : ∀ id, p.sched.jobs id ≠ none → (∃ q ∈ t.packets, q.retransid = some id) ∨
      t.autokillid = some id) :
    Wf (destroyTrans p) ∧ (destroyTrans p).trans = none ∧ (destroyTrans p).next = p.next := by
  rw [destroyTrans, ht]
  refine ⟨fun id => ?_, rfl, rfl⟩
  rw [Sched.del_jobs, destroyPackets_jobs, destroyPackets_jobs]
  by_cases hid : p.sched.jobs id = none
  · simp [hid]
  · obtain hq | hk := h id hid
    · simp [hq]
    · simp [hk]

theorem Armed.owner (h : Armed sched next t) (hid : sched.jobs id ≠ none) :
    (∃ q ∈ t.packets, q.retransid = some id) ∨ t.autokillid = some id := by
  obtain ⟨job, hjob⟩ := ne_none_iff_exists'.mp hid
  cases job with
  | rexmit a =>
    obtain ⟨q, hq, -, hqid⟩ := h.job id a hjob
    exact .inl ⟨q, hq, hqid⟩
  | autokill => exact .inr ((h.kill id).mp hjob)

theorem Armed.destroy (hw : Armed p.sched p.next t) (ht : p.trans = some t) :
    Wf (destroyTrans p) ∧ (destroyTrans p).trans = none ∧ (destroyTrans p).next = p.next :=
  wf_destroyTrans ht fun _ => hw.owner

/-- The owners of the timers that stay when one has fired. -/
theorem Armed.owner_del (h : Armed sched next t) (hi : (sched.del (some id)).jobs i ≠ none) :
    some id ≠ some i ∧ ((∃ q ∈ t.packets, q.retransid = some i) ∨ t.autokillid = some i) := by
  rw [Sched.del_jobs] at hi
  split at hi
  · exact absurd rfl hi
  · exact ⟨‹_›, h.owner hi⟩

theorem Armed.eq_of_retransid (h : Armed sched next t) (hq : q ∈ t.packets) (hr : r ∈ t.packets)
    (hid : q.retransid = r.retransid) : q = r := by
  obtain ⟨id, hqid, hjob⟩ := h.timer q hq
  obtain ⟨id', hrid, hjob'⟩ := h.timer r hr
  obtain rfl : id = id' := some.inj (hqid.symm.trans (hid.trans hrid))
  have haddr : q.addr = r.addr := Job.rexmit.inj (some.inj (hjob.symm.trans hjob'))
  exact inj_on_of_nodup_map h.nodup hq hr haddr

end CallWeaver.Dundi
