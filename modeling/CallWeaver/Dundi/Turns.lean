import CallWeaver.Dundi.Packets

/-! # Turns of one side

What one side does when it sends a command, receives a frame or is woken by a timer: the packets it
keeps, and the numbers of the frames it sends.
-/

namespace CallWeaver.Dundi

open Function List Option Nat

variable {p p' : Party} {t t' : Trans} {h : Hdr} {i : UInt8} {r r' : Party × List Hdr}
  {out : List Hdr} {n m a id : ℕ}

/-- Frames have numbers of commands sent before, and acknowledgements may have the next one. -/
def Numbered (out : List Hdr) (next : ℕ) : Prop :=
  ∀ h ∈ out, ∃ n, h.oseqno.toNat = n % 256 ∧ n ≤ next ∧ (h.cmdresp ≠ ACK → n < next)

theorem Numbered.mono (h : Numbered out n) (hle : n ≤ m) : Numbered out m := by
  intro f hf
  obtain ⟨k, hk, hkn, hack⟩ := h f hf
  exact ⟨k, hk, Nat.le_trans hkn hle, fun hne => Nat.lt_of_lt_of_le (hack hne) hle⟩

/-- What a living side does in one turn, after which it expects the number `i`: its packets are new
or were there before, and so are the expected numbers of the frames it sends. -/
structure Turn (p : Party) (t : Trans) (i : UInt8) (r : Party × List Hdr) : Prop where
  wf : Wf r.1
  next : p.next ≤ r.1.next
  out : ∀ h ∈ r.2, h.iseqno = i ∨ ∃ q ∈ t.packets, q.h.iseqno = h.iseqno
  alive : ∀ t', r.1.trans = some t' → t'.iseqno = i ∧ Numbered r.2 r.1.next ∧ ∀ q' ∈ t'.packets,
    p.next ≤ q'.addr ∧ q'.h.iseqno = i ∨ ∃ q ∈ t.packets, q.addr = q'.addr ∧
    q.h.iseqno = q'.h.iseqno

theorem Turn.append (hr : Turn p t i r) (ht : r.1.trans = some t') (hr' : Turn r.1 t' i r') :
    Turn p t i (r'.1, r.2 ++ r'.2) := by
  obtain ⟨-, hnum, hpackets⟩ := hr.alive t' ht
  constructor
  · exact hr'.wf
  · exact Nat.le_trans hr.next hr'.next
  · intro h hh
    obtain hh | hh := mem_append.mp hh
    · exact hr.out h hh
    · obtain he | ⟨q', hq', he⟩ := hr'.out h hh
      · exact .inl he
      · obtain ⟨-, hi⟩ | ⟨q, hq, -, hi⟩ := hpackets q' hq'
        · exact .inl (he.symm.trans hi)
        · exact .inr ⟨q, hq, hi.trans he⟩
  · intro t'' ht''
    obtain ⟨hi, hnum', hpackets'⟩ := hr'.alive t'' ht''
    refine ⟨hi, ?_, fun q'' hq'' => ?_⟩
    · intro h hh
      obtain hh | hh := mem_append.mp hh
      · exact hnum.mono hr'.next h hh
      · exact hnum' h hh
    · obtain ⟨hnew, hi'⟩ | ⟨q', hq', ha, hi'⟩ := hpackets' q'' hq''
      · exact .inl ⟨Nat.le_trans hr.next hnew, hi'⟩
      · rw [← ha, ← hi']
        exact hpackets q' hq'

theorem Turn.weaken (hr : Turn p' t' i r) (hnext : p.next ≤ p'.next)
    (hsub : ∀ q ∈ t'.packets, q ∈ t.packets) : Turn p t i r := by
  constructor
  · exact hr.wf
  · exact Nat.le_trans hnext hr.next
  · intro h hh
    obtain he | ⟨q, hq, he⟩ := hr.out h hh
    · exact .inl he
    · exact .inr ⟨q, hsub q hq, he⟩
  · intro t'' ht''
    obtain ⟨hi, hnum, hpackets⟩ := hr.alive t'' ht''
    refine ⟨hi, hnum, fun q'' hq'' => ?_⟩
    obtain ⟨hnew, hi'⟩ | ⟨q, hq, he⟩ := hpackets q'' hq''
    · exact .inl ⟨Nat.le_trans hnext hnew, hi'⟩
    · exact .inr ⟨q, hsub q hq, he⟩

theorem Turn.live {sched : Sched} (hw : Armed sched p.next t') (hi : t'.iseqno = i)
    (hout : ∀ h ∈ out, h.iseqno = i ∨ ∃ q ∈ t.packets, q.h.iseqno = h.iseqno)
    (hnum : Numbered out p.next)
    (hpackets : ∀ q' ∈ t'.packets, ∃ q ∈ t.packets, q.addr = q'.addr ∧ q.h.iseqno = q'.h.iseqno) :
    Turn p t i (⟨some t', sched, p.next⟩, out) where
  wf := hw
  next := Nat.le_refl _
  out := hout
  alive := by
    intro t'' ht''
    obtain rfl := some.inj ht''
    exact ⟨hi, hnum, fun q hq => .inr (hpackets q hq)⟩

theorem Turn.dead (hp : Wf p' ∧ p'.trans = none ∧ p'.next = p.next)
    (hout : ∀ h ∈ out, h.iseqno = i) : Turn p t i (p', out) where
  wf := hp.1
  next := Nat.le_of_eq hp.2.2.symm
  out := fun h hh => .inl (hout h hh)
  alive := by
    intro t' ht'
    cases hp.2.1.symm.trans ht'

section Arming

variable {sched : Sched} {next : ℕ} (hw : Armed sched next t)
include hw

theorem Armed.send (f : Hdr) (hf : f.oseqno = t.oseqno) (retrans : ℤ) (final : Bool) :
    Armed (sched.add (.rexmit next)).2 (next + 1) { t with
      packets := ⟨next, f, some sched.next, retrans⟩ :: t.packets
      final := final
      oseqno := t.oseqno + 1
      aseqno := t.iseqno } := by
  have hne : ∀ {id job}, sched.jobs id = some job → id ≠ sched.next := by
    rintro id job hjob rfl
    simp [hw.fresh _ (Nat.le_refl _)] at hjob
  constructor
  · exact pairwise_cons.mpr ⟨hw.bound, hw.sorted⟩
  · rintro q (_ | ⟨_, hq⟩)
    · exact lt_succ_self next
    · exact lt_succ_of_lt (hw.bound q hq)
  · have := hw.number
    simp only [UInt8.toNat_add, UInt8.toNat_one]
    omega
  · rintro q (_ | ⟨_, hq⟩)
    · rw [hf]
      exact hw.number
    · exact hw.numbers q hq
  · rintro q (_ | ⟨_, hq⟩)
    · exact ⟨sched.next, rfl, update_self ..⟩
    · obtain ⟨id, hid, hjob⟩ := hw.timer q hq
      exact ⟨id, hid, (update_of_ne (hne hjob) _ _).trans hjob⟩
  · intro id a hjob
    by_cases hid : id = sched.next
    · subst hid
      obtain rfl : next = a := by simpa [Sched.add] using hjob
      exact ⟨_, mem_cons_self, rfl, rfl⟩
    · obtain ⟨q, hq, hqa⟩ := hw.job id a ((update_of_ne hid _ _).symm.trans hjob)
      exact ⟨q, mem_cons_of_mem _ hq, hqa⟩
  · intro id
    by_cases hid : id = sched.next
    · subst hid
      have hnone : t.autokillid ≠ some sched.next := fun he => hne ((hw.kill _).mpr he) rfl
      simp [Sched.add, hnone]
    · simp only [Sched.add, update_of_ne hid]
      exact hw.kill id
  · exact hw.last
  · intro id hid
    simp only [Sched.add] at hid
    exact (update_of_ne (by omega) _ _).trans (hw.fresh id (by omega))

theorem Armed.ack (final : Bool) (aseqno : UInt8) :
    Armed sched next { t with final := final, aseqno := aseqno } := { hw with }

theorem Armed.remove {k : Packet} (hk : k ∈ t.packets) :
    Armed ((sched.del k.retransid).del t.autokillid) next { t with
      packets := unlink k.addr t.packets
      lasttrans := some { k with retransid := none }
      autokillid := none } := by
  have hmem : ∀ q, q ∈ unlink k.addr t.packets ↔ q ∈ t.packets ∧ q.addr ≠ k.addr := by
    intro q
    rw [unlink_eq_filter hw.nodup, mem_filter, decide_eq_true_iff]
  have hjobs : ∀ i, ((sched.del k.retransid).del t.autokillid).jobs i =
      if t.autokillid = some i ∨ k.retransid = some i then none else sched.jobs i := by
    intro i
    rw [Sched.del_jobs, Sched.del_jobs]
    split <;> simp_all
  constructor
  · rw [unlink_eq_filter hw.nodup]
    exact hw.sorted.filter _
  · exact fun q hq => hw.bound q ((hmem q).mp hq).1
  · exact hw.number
  · exact fun q hq => hw.numbers q ((hmem q).mp hq).1
  · intro q hq
    obtain ⟨hq, hne⟩ := (hmem q).mp hq
    obtain ⟨id, hid, hjob⟩ := hw.timer q hq
    refine ⟨id, hid, ?_⟩
    rw [hjobs, if_neg, hjob]
    rintro (hauto | hkid)
    · cases hjob.symm.trans ((hw.kill id).mpr hauto)
    · exact hne (congrArg Packet.addr (hw.eq_of_retransid hq hk (hid.trans hkid.symm)))
  · intro id a hjob
    rw [hjobs] at hjob
    split at hjob
    · cases hjob
    · rename_i hid
      obtain ⟨q, hq, hqa, hqid⟩ := hw.job id a hjob
      refine ⟨q, (hmem q).mpr ⟨hq, fun he => hid (.inr ?_)⟩, hqa, hqid⟩
      obtain rfl := inj_on_of_nodup_map hw.nodup hq hk he
      exact hqid
  · intro id
    rw [hjobs]
    split
    · simp
    · rename_i hid
      simp only [reduceCtorEq, iff_false]
      exact fun hjob => hid (.inl ((hw.kill id).mp hjob))
  · intro k' hk'
    rw [← some.inj hk']
  · intro id hid
    rw [hjobs]
    split
    · rfl
    · refine hw.fresh id ?_
      cases hk : k.retransid <;> cases ha : t.autokillid <;> simpa [hk, ha, Sched.del] using hid

theorem Armed.map {f : Packet → Packet}
    (hf : ∀ q, (f q).addr = q.addr ∧ (f q).h = q.h ∧ (f q).retransid = q.retransid) :
    Armed sched next { t with packets := t.packets.map f } := by
  constructor
  · exact pairwise_map.mpr (hw.sorted.imp fun {q r} hlt => by rwa [(hf q).1, (hf r).1])
  · intro q' hq'
    obtain ⟨q, hq, rfl⟩ := mem_map.mp hq'
    rw [(hf q).1]
    exact hw.bound q hq
  · exact hw.number
  · intro q' hq'
    obtain ⟨q, hq, rfl⟩ := mem_map.mp hq'
    rw [(hf q).1, (hf q).2.1]
    exact hw.numbers q hq
  · intro q' hq'
    obtain ⟨q, hq, rfl⟩ := mem_map.mp hq'
    rw [(hf q).1, (hf q).2.2]
    exact hw.timer q hq
  · intro id a hjob
    obtain ⟨q, hq, hqa, hqid⟩ := hw.job id a hjob
    exact ⟨f q, mem_map_of_mem hq, (hf q).1.trans hqa, (hf q).2.2.trans hqid⟩
  · exact hw.kill
  · exact hw.last
  · exact hw.fresh

end Arming

theorem dundiSend_eq (ht : p.trans = some t) (m : Message) :
    ∃ f out, f.iseqno = t.iseqno ∧ f.oseqno = t.oseqno ∧
    (∀ h ∈ out, h = f) ∧ dundiSend p m = (⟨some { t with
      packets := ⟨p.next, f, some p.sched.next, DEFAULT_RETRANS - 1⟩ :: t.packets
      final := t.final || m.final
      oseqno := t.oseqno + 1
      aseqno := t.iseqno }, (p.sched.add (.rexmit p.next)).2, p.next + 1⟩, out) := by
  rw [dundiSend, ht]
  generalize (if m.command.encrypts then m.sealing else Seal.plain) = sealing
  refine ⟨_, _, ?_, ?_, ?_, rfl⟩
  · cases sealing <;> rfl
  · cases sealing <;> rfl
  · intro h hh
    split at hh
    · cases hh
    · exact mem_singleton.mp hh

section Turns

variable (hw : Armed p.sched p.next t)
include hw

theorem numbered_ack : Numbered [⟨t.iseqno, t.oseqno, ACK, 0⟩] p.next := by
  intro h hh
  rw [mem_singleton.mp hh]
  exact ⟨p.next, hw.number, Nat.le_refl _, fun hne => absurd rfl hne⟩

theorem turn_arm (hnone : t.autokillid = none) :
    Turn p t t.iseqno ({ p with
      trans := some { t with autokillid := some (p.sched.add .autokill).1 }
      sched := (p.sched.add .autokill).2 }, []) := by
  have hfresh : p.sched.jobs p.sched.next = none := hw.fresh _ (Nat.le_refl _)
  have hjobs : ∀ {id a}, (p.sched.add .autokill).2.jobs id = some (.rexmit a) ↔
      p.sched.jobs id = some (.rexmit a) := by
    intro id a
    by_cases hid : id = p.sched.next
    · simp [Sched.add, hid, hfresh]
    · simp [Sched.add, update_of_ne hid]
  refine .live ⟨hw.sorted, hw.bound, hw.number, hw.numbers, ?_, ?_, ?_, hw.last, ?_⟩ rfl (by simp)
    (by simp [Numbered]) fun q hq => ⟨q, hq, rfl, rfl⟩
  · intro q hq
    obtain ⟨id, hid, hjob⟩ := hw.timer q hq
    exact ⟨id, hid, hjobs.mpr hjob⟩
  · exact fun id a hjob => hw.job id a (hjobs.mp hjob)
  · intro id
    by_cases hid : id = p.sched.next
    · simp [Sched.add, hid]
    · have hkill := hw.kill id
      simp only [hnone, reduceCtorEq, iff_false] at hkill
      simp [Sched.add, update_of_ne hid, hkill, Ne.symm hid]
  · intro id hid
    simp only [Sched.add] at hid
    exact (update_of_ne (by omega) _ _).trans (hw.fresh id (by omega))

variable (ht : p.trans = some t)
include ht

theorem Turn.stay : Turn p t t.iseqno (p, []) where
  wf := by
    rw [Wf, ht]
    exact hw
  next := Nat.le_refl _
  out := by simp
  alive := by
    intro t' ht'
    obtain rfl := some.inj (ht.symm.trans ht')
    exact ⟨rfl, by simp [Numbered], fun q hq => .inr ⟨q, hq, rfl, rfl⟩⟩

theorem turn_dundiSend (m : Message) :
    Turn p t t.iseqno (dundiSend p m) ∧ (dundiSend p m).1.trans ≠ none ∧
      (dundiSend p m).1.next = p.next + 1 := by
  obtain ⟨f, out, hi, ho, hout, heq⟩ := dundiSend_eq ht m
  rw [heq]
  refine ⟨⟨?_, le_succ _, fun h hh => ?_, fun t' ht' => ?_⟩, by simp, rfl⟩
  · exact hw.send f ho _ _
  · rw [hout h hh]
    exact .inl hi
  · obtain rfl := some.inj ht'
    refine ⟨rfl, fun h hh => ⟨p.next, ?_, le_succ _, fun _ => lt_succ_self _⟩, ?_⟩
    · rw [hout h hh, ho]
      exact hw.number
    · rintro q (_ | ⟨_, hq⟩)
      · exact .inl ⟨Nat.le_refl _, hi⟩
      · exact .inr ⟨q, hq, rfl, rfl⟩

theorem turn_sendAll (ms : List Message) :
    Turn p t t.iseqno (sendAll p ms) ∧ (sendAll p ms).1.trans ≠ none ∧
      (sendAll p ms).1.next = p.next + ms.length := by
  induction ms generalizing p t with
  | nil => exact ⟨.stay hw ht, by simp [sendAll, ht], rfl⟩
  | cons m ms ih =>
    obtain ⟨hm, halive, hnext⟩ := turn_dundiSend hw ht m
    obtain ⟨t', ht'⟩ := ne_none_iff_exists'.mp halive
    obtain ⟨hms, halive', hnext'⟩ := ih (hm.wf.armed ht') ht'
    have hi := (hm.alive t' ht').1
    rw [hi] at hms
    refine ⟨hm.append ht' hms, halive', ?_⟩
    show (sendAll (dundiSend p m).1 ms).1.next = _
    rw [hnext', hnext, length_cons]
    omega

theorem turn_dundiAck : Turn p t t.iseqno (dundiAck p false) := by
  rw [dundiAck, ht]
  exact .live (hw.ack _ _) rfl (by simp) (numbered_ack hw) fun q hq => ⟨q, hq, rfl, rfl⟩

theorem ackTrans_spec (i : UInt8) :
    ∃ t₁, (ackTrans p t i).2.trans = some t₁ ∧
      Armed (ackTrans p t i).2.sched (ackTrans p t i).2.next t₁ ∧ t₁.iseqno = t.iseqno ∧
      (∀ q ∈ t₁.packets, q ∈ t.packets) ∧ (ackTrans p t i).2.next = p.next := by
  rw [ackTrans]
  split
  · exact ⟨t, ht, hw, rfl, fun q hq => hq, rfl⟩
  · rename_i k hk
    have hmem : k ∈ t.packets := by
      rw [ackLoop_eq] at hk
      exact mem_of_find?_eq_some hk
    refine ⟨_, rfl, hw.remove hmem, rfl, fun q hq => ?_, rfl⟩
    rw [unlink_eq_filter hw.nodup] at hq
    exact mem_of_mem_filter hq

theorem ackTrans_gone (hsmall : p.next ≤ 254) (ht' : (ackTrans p t i).2.trans = some t') :
    ∀ q ∈ t'.packets, q.addr + 1 ≠ i.toNat := by
  have hans : ∀ q ∈ t.packets, Answers i q ↔ q.addr + 1 = i.toNat := by
    intro q hq
    have hlt := hw.bound q hq
    rw [Answers, hw.numbers q hq, mod_eq_of_lt (show q.addr < 256 by omega),
      mod_eq_of_lt (by omega)]
  rw [ackTrans, ackLoop_eq] at ht'
  split at ht'
  · rename_i hnone
    obtain rfl := some.inj (ht.symm.trans ht')
    intro q hq
    rw [Ne, ← hans q hq]
    simpa using find?_eq_none.mp hnone q hq
  · rename_i k hk
    have hkmem := mem_of_find?_eq_some hk
    have hkans : Answers i k := by
      have := find?_some hk
      exact of_decide_eq_true this
    obtain rfl := some.inj ht'
    intro q hq
    rw [unlink_eq_filter hw.nodup, mem_filter, decide_eq_true_iff] at hq
    have hk' := (hans k hkmem).mp hkans
    omega

theorem ackReceived_spec (final : Bool) :
    ∃ t₁ sched, (ackReceived p final).1 = ⟨some t₁, sched, p.next⟩ ∧ Armed sched p.next t₁ ∧
      t₁.iseqno = t.iseqno ∧
      t₁.packets = t.packets ∧ (∀ h ∈ (ackReceived p final).2, h.iseqno = t.iseqno) ∧
      (final = false → Numbered (ackReceived p final).2 p.next) := by
  simp only [ackReceived, ht]
  split
  · exact ⟨t, p.sched, by rw [← ht], hw, rfl, rfl, by simp, fun _ => by simp [Numbered]⟩
  · simp only [dundiAck, ht]
    refine ⟨_, _, rfl, hw.ack _ _, rfl, rfl, by simp, ?_⟩
    rintro rfl
    exact numbered_ack hw

theorem turn_closeFrame (final : Bool) :
    Turn p t t.iseqno (closeFrame p final) ∧ (closeFrame p final).1.next = p.next := by
  obtain ⟨t₁, sched, hc, hw₁, hi, hpackets, hout, hnum⟩ := ackReceived_spec hw ht final
  simp only [closeFrame, hc, map_some]
  have hw₂ : Armed sched p.next { t₁ with lasttrans := none } := { hw₁ with last := by simp }
  cases final with
  | true => exact ⟨.dead (Armed.destroy (p := ⟨some _, sched, p.next⟩) hw₂ rfl) hout, rfl⟩
  | false =>
    refine ⟨.live hw₂ hi (fun h hh => .inl (hout h hh)) (hnum rfl) fun q hq =>
      ⟨q, ?_, rfl, rfl⟩, rfl⟩
    rw [← hpackets]
    exact hq

theorem turn_acceptFrame (answer : Answer) :
    Turn p t (if h.cmdresp = ACK then t.iseqno else t.iseqno + 1) (acceptFrame p t h answer) ∧
      (acceptFrame p t h answer).1.next ≤ p.next + answer.sends.length := by
  by_cases hack : h.cmdresp = ACK
  · simp only [acceptFrame, if_pos hack, nil_append]
    obtain ⟨hturn, hnext⟩ :=
      turn_closeFrame hw ht (h.cmdresp &&& FINAL ≠ 0 ∨ h.cmdresp ≠ ACK ∧ answer.final)
    exact ⟨hturn, by rw [hnext]; exact le_add_right _ _⟩
  · let t₁ : Trans := { t with oiseqno := t.iseqno, iseqno := t.iseqno + 1 }
    let p₁ : Party := { p with trans := some t₁ }
    have hw₁ : Armed p₁.sched p₁.next t₁ := { hw with }
    obtain ⟨hsend, halive, hnext⟩ := turn_sendAll (p := p₁) hw₁ rfl answer.sends
    obtain ⟨t₂, ht₂⟩ := ne_none_iff_exists'.mp halive
    obtain ⟨hclose, hnext'⟩ := turn_closeFrame (hsend.wf.armed ht₂) ht₂
      (h.cmdresp &&& FINAL ≠ 0 ∨ h.cmdresp ≠ ACK ∧ answer.final)
    rw [(hsend.alive t₂ ht₂).1] at hclose
    have hall := hsend.append ht₂ hclose
    simp only [acceptFrame, if_neg hack]
    exact ⟨{ hall with }, Nat.le_of_eq (hnext'.trans hnext)⟩

def expects (t : Trans) (h : Hdr) : UInt8 :=
  if h.oseqno = t.iseqno ∧ h.cmdresp ≠ ACK then t.iseqno + 1 else t.iseqno

theorem turn_handleFrame (h : Hdr) (answer : Answer) :
    Turn p t (expects t h) (handleFrame p h answer) ∧
      (handleFrame p h answer).1.next ≤ p.next + answer.sends.length := by
  rw [handleFrame, ht]
  by_cases hexp : h.oseqno = t.iseqno
  · obtain ⟨t₁, ht₁, hw₁, hi, hsub, hnext⟩ := ackTrans_spec hw ht h.iseqno
    simp only [if_pos hexp, ht₁]
    split
    · have hend := hw₁.destroy ht₁
      refine ⟨(Turn.dead hend (by simp)).weaken (Nat.le_of_eq hnext.symm) hsub, ?_⟩
      rw [hend.2.2, hnext]
      exact le_add_right _ _
    · obtain ⟨hacc, hle⟩ := turn_acceptFrame (h := h) hw₁ ht₁ answer
      have hexpects : expects t h = if h.cmdresp = ACK then t₁.iseqno else t₁.iseqno + 1 := by
        rw [expects, hi]
        by_cases hack : h.cmdresp = ACK <;> simp [hexp, hack]
      rw [hexpects]
      exact ⟨hacc.weaken (Nat.le_of_eq hnext.symm) hsub, hnext ▸ hle⟩
  · have hexpects : expects t h = t.iseqno := if_neg fun hc => hexp hc.1
    simp only [if_neg hexp, hexpects]
    split
    · refine ⟨turn_dundiAck hw ht, ?_⟩
      simp [dundiAck, ht]
    · exact ⟨.stay hw ht, le_add_right _ _⟩

theorem handleFrame_gone (hsmall : p.next ≤ 254) (hexp : h.oseqno = t.iseqno)
    (ha : a + 1 = h.iseqno.toNat) (hlt : a < p.next) {answer : Answer}
    (ht' : (handleFrame p h answer).1.trans = some t') : ∀ q ∈ t'.packets, q.addr ≠ a := by
  obtain ⟨t₁, ht₁, hw₁, hi, hsub, hnext⟩ := ackTrans_spec hw ht h.iseqno
  have hgone := ackTrans_gone hw ht hsmall ht₁
  simp only [handleFrame, ht, if_pos hexp, ht₁] at ht'
  split at ht'
  · cases (hw₁.destroy ht₁).2.1.symm.trans ht'
  · intro q hq he
    obtain ⟨hacc, -⟩ := turn_acceptFrame (h := h) hw₁ ht₁ answer
    obtain ⟨-, -, hpackets⟩ := hacc.alive t' ht'
    obtain ⟨hnew, -⟩ | ⟨q₁, hq₁, haddr, -⟩ := hpackets q hq
    · omega
    · have := hgone q₁ hq₁
      omega

theorem turn_dundiRexmit (hjob : p.sched.jobs id = some (.rexmit a)) :
    Turn p t t.iseqno (dundiRexmit p id a) ∧ (dundiRexmit p id a).1.next = p.next := by
  obtain ⟨k, hk, rfl, hkid⟩ := hw.job id a hjob
  obtain ⟨k', hfind⟩ : ∃ k', t.packets.find? (·.addr = k.addr) = some k' := by
    rw [← isSome_iff_exists, find?_isSome]
    exact ⟨k, hk, by simp⟩
  have hk' := mem_of_find?_eq_some hfind
  have haddr : k'.addr = k.addr := by
    have := find?_some hfind
    exact of_decide_eq_true this
  obtain rfl : k' = k := inj_on_of_nodup_map hw.nodup hk' hk haddr
  simp only [dundiRexmit, ht, hfind]
  split
  · -- the timer that fires is gone, and the packet has forgotten it
    have hend := wf_destroyTrans (p := ⟨some { t with
      packets :=
        t.packets.map fun q => if q.addr = k'.addr then { q with retransid := none } else q },
        p.sched.del (some id), p.next⟩) rfl
      (by
        intro i hi
        obtain ⟨hne, ⟨q, hq, hqi⟩ | hkill⟩ := hw.owner_del hi
        · refine .inl ⟨q, mem_map.mpr ⟨q, hq, if_neg fun he => hne ?_⟩, hqi⟩
          obtain rfl := inj_on_of_nodup_map hw.nodup hq hk he
          exact hkid.symm.trans hqi
        · exact .inr hkill)
    exact ⟨.dead hend (by simp), hend.2.2⟩
  · refine ⟨.live (hw.map fun q => by split <;> exact ⟨rfl, rfl, rfl⟩) rfl ?_ ?_ fun q' hq' =>
      ?_, rfl⟩
    · intro h hh
      rw [mem_singleton.mp hh]
      exact .inr ⟨k', hk, rfl⟩
    · intro h hh
      rw [mem_singleton.mp hh]
      have hlt := hw.bound k' hk
      exact ⟨k'.addr, hw.numbers k' hk, Nat.le_of_lt hlt, fun _ => hlt⟩
    · obtain ⟨q, hq, rfl⟩ := mem_map.mp hq'
      refine ⟨q, hq, ?_⟩
      split <;> exact ⟨rfl, rfl⟩

theorem turn_doAutokill (hjob : p.sched.jobs id = some .autokill) :
    Turn p t t.iseqno (doAutokill p id, []) ∧ (doAutokill p id).next = p.next := by
  have hend := wf_destroyTrans (p := { p with
    trans := p.trans.map fun t => { t with autokillid := none }, sched := p.sched.del (some id) })
    (t := { t with autokillid := none }) (by rw [ht, map_some])
    (by
      intro i hi
      obtain ⟨hne, hq | hkill⟩ := hw.owner_del hi
      · exact .inl hq
      · exact absurd (((hw.kill id).mp hjob).symm.trans hkill) hne)
  exact ⟨.dead hend (by simp), hend.2.2⟩

end Turns

end CallWeaver.Dundi
