import CallWeaver.Base.Runs
import CallWeaver.Iax.Frames

/-! # Reliable delivery of full frames

The numbers of a peer and of all it has queued or sent are the low octets of what they stand for. As
long as few frames are unacknowledged and no packet arrives much later than its numbers were
written, every peer accepts a prefix of the frames of the other one, and a retransmission is
cancelled only after the frame was accepted.
-/

namespace CallWeaver.Iax

open List Option

section Invariant

variable {α : Type*} {o i n r s m m' r' j r₁ : ℕ} {p p' q p₁ p₂ : Pvt α} {pkt : Packet α}
  {f : IaxFrame α}

def unacknowledged (p : Pvt α) : ℕ := (p.oseqno - p.rseqno).toNat

/-- What is known of a packet of a peer that has sent the frames `sent`, from the number `o` on, and
accepted `m` frames, from the number `i` on. -/
structure PacketOk (o i : ℕ) (sent : List α) (m : ℕ) (pkt : Packet α) : Prop where
  iseqno : pkt.iseqno = .ofNat (i + pkt.seen)
  seen : pkt.seen ≤ m
  others : pkt.others < pkt.seen + 128
  ordinary : ∀ v, pkt.body = .ordinary v → ∃ k, pkt.created = k + 1 ∧ pkt.oseqno = .ofNat (o + k) ∧
    sent[k]? = some v

def FrameOk (o i : ℕ) (sent : List α) (m r : ℕ) (f : IaxFrame α) : Prop :=
  PacketOk o i sent m f.packet ∧ (f.retries < 0 → f.number < r)

structure PeerInv (o i : ℕ) (p q : Pvt α) (r : ℕ) : Prop where
  oseqno : p.oseqno = .ofNat (o + p.sent.length)
  iseqno : p.iseqno = .ofNat (i + p.accepted.length)
  rseqno : p.rseqno = .ofNat (o + r)
  acked : r ≤ q.accepted.length
  accepted : q.accepted <+: p.sent
  window : p.sent.length < r + 128
  frames : ∀ f ∈ p.iaxq, FrameOk o i p.sent p.accepted.length r f
  packets : ∀ pkt ∈ p.out, PacketOk o i p.sent p.accepted.length pkt

variable {sent sent' : List α}

theorem PacketOk.mono (h : PacketOk o i sent m pkt) (hm : m ≤ m') (hs : sent <+: sent') :
    PacketOk o i sent' m' pkt := by
  refine ⟨h.iseqno, Nat.le_trans h.seen hm, h.others, fun v hv => ?_⟩
  obtain ⟨k, hk, ho, hsent⟩ := h.ordinary v hv
  obtain ⟨hlt, rfl⟩ := List.getElem?_eq_some_iff.mp hsent
  exact ⟨k, hk, ho, prefix_iff_getElem?.mp hs k hlt⟩

theorem FrameOk.mono (h : FrameOk o i sent m r f) (hm : m ≤ m')
    (hs : sent <+: sent') (hr : r ≤ r') : FrameOk o i sent' m' r' f :=
  ⟨h.1.mono hm hs, fun hf => Nat.lt_of_lt_of_le (h.2 hf) hr⟩

theorem FrameOk.number_spec (h : FrameOk o i sent m r f) :
    f.oseqno = .ofNat (o + f.number) ∧ sent[f.number]? = some f.payload := by
  obtain ⟨k, hk, ho, hs⟩ := h.1.ordinary f.payload rfl
  obtain rfl : f.number = k := Nat.succ.inj hk
  exact ⟨ho, hs⟩

/-- The peer `p'` comes from `p` without a frame sent or accepted, and the invariant holds of it. -/
structure Keeps (o i : ℕ) (p q : Pvt α) (r : ℕ) (p' : Pvt α) : Prop extends
    PeerInv o i p' q r where
  sent_eq : p'.sent = p.sent
  accepted_eq : p'.accepted = p.accepted

theorem PeerInv.keeps (h : PeerInv o i p q r) : Keeps o i p q r p := ⟨h, rfl, rfl⟩

namespace Keeps

variable (h : Keeps o i p q r p')

include h

theorem sendPacket (hp : PacketOk o i p.sent p.accepted.length pkt) :
    Keeps o i p q r (sendPacket p' pkt) := by
  unfold Iax.sendPacket
  split
  · exact h
  · refine { h with packets := fun k hk => ?_ }
    rcases mem_cons.mp hk with rfl | hk
    · rwa [h.sent_eq, h.accepted_eq]
    · exact h.packets k hk

variable {l : List (IaxFrame α)}

theorem setQueue (hl : ∀ f ∈ l, FrameOk o i p.sent p.accepted.length r f) :
    Keeps o i p q r { p' with iaxq := l } := by
  refine { h with frames := ?_ }
  rwa [h.sent_eq, h.accepted_eq]

theorem frameOk : ∀ f ∈ p'.iaxq, FrameOk o i p.sent p.accepted.length r f := by
  rw [← h.sent_eq, ← h.accepted_eq]
  exact h.frames

theorem networkStep (hf : FrameOk o i p.sent p.accepted.length r f) :
    Keeps o i p q r (networkStep p' f) := by
  have hadd : ∀ {p''} {g : IaxFrame α}, Keeps o i p q r p'' →
    FrameOk o i p.sent p.accepted.length r g →
      Keeps o i p q r { p'' with iaxq := p''.iaxq ++ [g] } := by
    intro p'' g h'' hg
    apply h''.setQueue
    intro k hk
    rcases mem_append.mp hk with hk | hk
    · exact h''.frameOk k hk
    · rwa [mem_singleton.mp hk]
  unfold Iax.networkStep
  split
  · exact hadd h hf
  · split
    · exact h.sendPacket hf.1
    · refine hadd (h.sendPacket hf.1) ⟨hf.1, fun hneg => ?_⟩
      change f.retries + 1 < 0 at hneg
      omega

end Keeps

namespace PeerInv

variable (h : PeerInv o i p q r) {seqno last : UInt8}

include h

theorem sendCommandImmediate {body : Body α} (hb : ∀ v, body ≠ .ordinary v)
    (hn : n < p.accepted.length + 128) : Keeps o i p q r (sendCommandImmediate p body seqno n) := by
  have h' : Keeps o i p q r { p with aseqno := p.iseqno } :=
    { h with sent_eq := rfl, accepted_eq := rfl }
  exact h'.sendPacket ⟨h.iseqno, Nat.le_refl _, hn, fun v hv => absurd hv (hb v)⟩

theorem networkPass : Keeps o i p q r (networkPass p) := by
  refine foldlRecOn _ _ (motive := Keeps o i p q r) ?_ fun p' h' f hf =>
    h'.networkStep (h.frames f hf)
  exact h.keeps.setQueue (by simp)

theorem vnakRetransmit : Keeps o i p q r (vnakRetransmit p last) := by
  apply foldlRecOn _ _ (motive := Keeps o i p q r) h.keeps
  intro p' h' f hf
  exact h'.sendPacket (h.frames f (mem_filter.mp hf).1).1

theorem attemptTransmit (hn : n < p.accepted.length + 128) (hs : attemptTransmit p j n = some p') :
    Keeps o i p q r p' := by
  unfold Iax.attemptTransmit at hs
  split at hs
  · cases hs
  · rename_i f hf
    have hfr := h.frames f (mem_of_getElem? hf)
    split at hs
    · cases hs
    split at hs
    · obtain rfl := Option.some.inj hs
      exact { h with
        frames := fun g hg => h.frames g (mem_of_mem_eraseIdx hg)
        sent_eq := rfl
        accepted_eq := rfl }
    · obtain rfl := Option.some.inj hs
      have hu : PacketOk o i p.sent p.accepted.length (updatePacket p f n).packet :=
        ⟨h.iseqno, Nat.le_refl _, hn, hfr.1.ordinary⟩
      have hk := h.keeps.sendPacket hu
      apply hk.setQueue
      intro g hg
      rcases mem_or_eq_of_mem_set hg with hg | rfl
      · exact hk.frameOk g hg
      · refine ⟨hu, fun hneg => hfr.2 ?_⟩
        change f.retries + 1 < 0 at hneg
        omega

end PeerInv

theorem mem_foldl_cancel {xs : List UInt8} (h : f ∈ xs.foldl cancel l) :
    f ∈ l ∨ ∃ g ∈ l, g.oseqno ∈ xs ∧ f = { g with retries := -1 } := by
  induction xs generalizing l with
  | nil => exact .inl h
  | cons x xs ih =>
    rcases ih h with h | ⟨g, hg, hx, rfl⟩
    · obtain ⟨g, hg, rfl⟩ := mem_map.mp h
      split
      · rename_i hx
        exact .inr ⟨g, hg, hx ▸ mem_cons_self, rfl⟩
      · exact .inl hg
    · obtain ⟨g', hg', rfl⟩ := mem_map.mp hg
      split at hx
      · rename_i hx'
        exact .inr ⟨g', hg', hx' ▸ mem_cons_self, by rw [if_pos hx']⟩
      · rename_i hx'
        exact .inr ⟨g', hg', mem_cons_of_mem _ hx, by rw [if_neg hx']⟩

namespace PeerInv

section

variable (h : PeerInv o i p q r) {v : α}

include h

theorem acked_le_sent : r ≤ p.sent.length :=
  Nat.le_trans h.acked h.accepted.length_le

/-- An acknowledgement within the window stands for the number accepted when it was written, if that
is less than 256 frames ago. -/
theorem le_of_within (hn : n ≤ q.accepted.length) (hrecent : p.sent.length < n + 256)
    (hw : .ofNat (o + n) ∈ upTo p.rseqno p.oseqno ∨ p.oseqno = .ofNat (o + n)) : r ≤ n := by
  have hle := h.acked_le_sent
  have hlen := h.accepted.length_le
  have hwin := h.window
  rw [h.rseqno, h.oseqno, mem_upTo (by omega) (by omega)] at hw
  rcases hw with ⟨k, hk, hk', he⟩ | he
  · have := eq_of_ofNat_eq he (by omega) (by omega)
    omega
  · have := eq_of_ofNat_eq he (by omega) (by omega)
    omega

theorem cancelled (hr : r ≤ n) (hn : n ≤ p.sent.length)
    (hf : f ∈ (upTo p.rseqno (.ofNat (o + n))).foldl cancel p.iaxq) :
    FrameOk o i p.sent p.accepted.length n f := by
  rcases mem_foldl_cancel hf with hf | ⟨g, hg, hx, rfl⟩
  · exact (h.frames f hf).mono (Nat.le_refl _) (prefix_refl _) hr
  · obtain ⟨hgo, hgs⟩ := (h.frames g hg).number_spec
    have hlt := (List.getElem?_eq_some_iff.mp hgs).1
    have hwin := h.window
    refine ⟨(h.frames g hg).1, fun _ => ?_⟩
    change g.number < n
    rw [h.rseqno, hgo, mem_upTo (by omega) (by omega)] at hx
    obtain ⟨k, hk, hk', he⟩ := hx
    rcases Nat.lt_or_ge g.number r with hold | hnew
    · omega
    · have := eq_of_ofNat_eq he (by omega) (by omega)
      omega

theorem handleAck (hn : n ≤ q.accepted.length) (hrecent : p.sent.length < n + 256) :
    ∃ r', Keeps o i p q r' (handleAck p (.ofNat (o + n))) := by
  unfold Iax.handleAck
  split
  · rename_i hw
    have hr := h.le_of_within hn hrecent hw
    have hlen := h.accepted.length_le
    have hwin := h.window
    exact ⟨n, { h with
      rseqno := rfl
      acked := hn
      window := by dsimp only; omega
      frames := fun f hf => h.cancelled hr (by omega) hf
      sent_eq := rfl
      accepted_eq := rfl }⟩
  · exact ⟨r, h.keeps⟩

theorem iax2Send (hn : n < p.accepted.length + 128) (hw : unacknowledged (iax2Send p v n) < 128) :
    PeerInv o i (iax2Send p v n) q r := by
  have hle := h.acked_le_sent
  have hwin := h.window
  have hsucc : p.oseqno + 1 = .ofNat (o + (p.sent.length + 1)) := by
    rw [h.oseqno, ofNat_add_one]
  have hpre : p.sent <+: p.sent ++ [v] := prefix_append _ _
  refine { h with
    oseqno := ?_
    accepted := h.accepted.trans hpre
    window := ?_
    frames := fun f hf => ?_
    packets := fun pkt hp => (h.packets pkt hp).mono (Nat.le_refl _) hpre }
  · rw [Iax.iax2Send]
    simpa using hsucc
  · change (p.oseqno + 1 - p.rseqno).toNat < 128 at hw
    rw [hsucc, h.rseqno, toNat_ofNat_sub (by omega)] at hw
    simp only [Iax.iax2Send, length_append, length_singleton]
    omega
  · rcases mem_append.mp hf with hf | hf
    · exact (h.frames f hf).mono (Nat.le_refl _) hpre (Nat.le_refl _)
    · obtain rfl := mem_singleton.mp hf
      refine ⟨⟨h.iseqno, Nat.le_refl _, hn, fun w hv => ?_⟩,
        fun hneg => absurd hneg (Int.lt_irrefl 0)⟩
      obtain rfl := Body.ordinary.inj hv
      exact ⟨p.sent.length, rfl, h.oseqno, by simp [Iax.iax2Send]⟩

/-- An ordinary frame that passes the sequence check is the next one of the other peer, if it is one
of the last 128. -/
theorem accept (hq : PeerInv i o q p s) (hpkt : PacketOk i o q.sent q.accepted.length pkt)
    (hv : pkt.body = .ordinary v) (htime : q.sent.length < pkt.created + 128)
    (hseq : p.iseqno = pkt.oseqno) :
    p.accepted ++ [v] <+: q.sent ∧
      PeerInv o i { p with iseqno := p.iseqno + 1, accepted := p.accepted ++ [v] } q r := by
  obtain ⟨k, hk, ho, hs⟩ := hpkt.ordinary v hv
  have hlt := (List.getElem?_eq_some_iff.mp hs).1
  have hlen := hq.accepted.length_le
  have hwin := hq.window
  have hacked := hq.acked
  rw [h.iseqno, ho] at hseq
  have hnext := eq_of_ofNat_eq hseq (by omega) (by omega)
  obtain rfl : k = p.accepted.length := by omega
  refine ⟨?_, { h with iseqno := ?_, frames := fun f hf => ?_, packets := fun pkt hp => ?_ }⟩
  · have htake : q.sent.take (p.accepted.length + 1) = p.accepted ++ [v] := by
      rw [take_add_one, hs, ← prefix_iff_eq_take.mp hq.accepted]
      rfl
    exact htake ▸ List.take_prefix _ _
  · simp only [h.iseqno, ofNat_add_one, length_append, length_singleton]
  · exact (h.frames f hf).mono (by simp) (prefix_refl _) (Nat.le_refl _)
  · exact (h.packets pkt hp).mono (by simp) (prefix_refl _)

end

theorem sent_lt (hq : PeerInv i o q p s) : q.sent.length < p.accepted.length + 128 :=
  Nat.lt_of_lt_of_le hq.window (Nat.add_le_add_right hq.acked 128)

end PeerInv

/-- The invariant holds of `p'`, which has accepted what `p` has and perhaps more frames of `q`. -/
structure Advances (o i : ℕ) (p q p' : Pvt α) : Prop where
  inv : ∃ r, PeerInv o i p' q r
  grows : p.accepted <+: p'.accepted
  accepted : p'.accepted <+: q.sent

theorem Advances.other (h : Advances o i p q p') (hq : PeerInv i o q p s) : PeerInv i o q p' s :=
  { hq with acked := Nat.le_trans hq.acked h.grows.length_le, accepted := h.accepted }

theorem Keeps.advances (h : Keeps o i p₁ q r p') (hp : p.accepted <+: p₁.accepted)
    (hq : p₁.accepted <+: q.sent) : Advances o i p q p' := by
  rw [← h.accepted_eq] at hp hq
  exact ⟨⟨r, h.toPeerInv⟩, hp, hq⟩

theorem Keeps.trans (h : Keeps o i p q r₁ p₁) (h' : Keeps o i p₁ q r p₂) : Keeps o i p q r p₂ :=
  { h' with
    sent_eq := h'.sent_eq.trans h.sent_eq
    accepted_eq := h'.accepted_eq.trans h.accepted_eq }

theorem PeerInv.socketRead (h : PeerInv o i p q r) (hq : PeerInv i o q p s)
    (hpkt : PacketOk i o q.sent q.accepted.length pkt) (htime : q.sent.length < pkt.created + 128)
    (hrecent : p.sent.length < pkt.others + 128) :
    Advances o i p q (socketRead p pkt q.sent.length) := by
  have hothers := hpkt.others
  have hlen := hq.sent_lt
  have hself := prefix_refl p.accepted
  have hack : ∀ {p'}, PeerInv o i p' q r → p'.sent = p.sent →
      ∃ r', Keeps o i p' q r' (Iax.handleAck p' pkt.iseqno) := by
    intro p' h' hs
    rw [hpkt.iseqno]
    exact h'.handleAck hpkt.seen (by rw [hs]; omega)
  unfold Iax.socketRead
  split
  case h_1 v hv =>
    split
    case isTrue =>
      split
      · exact (h.sendCommandImmediate (by simp) hlen).advances hself hq.accepted
      · exact (h.sendCommandImmediate (by simp) hlen).advances hself hq.accepted
    case isFalse hseq =>
      obtain ⟨hpre, h'⟩ := h.accept hq hpkt hv htime (not_not.mp hseq)
      obtain ⟨r', hr'⟩ := hack h' rfl
      dsimp only
      split
      · refine (hr'.trans (hr'.toPeerInv.sendCommandImmediate (by simp) ?_)).advances
          (prefix_append _ _) hpre
        rw [hr'.accepted_eq, length_append]
        omega
      · exact hr'.advances (prefix_append _ _) hpre
  case h_2 =>
    obtain ⟨r', h'⟩ := hack h rfl
    exact h'.advances hself hq.accepted
  case h_3 =>
    obtain ⟨r', h'⟩ := hack h rfl
    exact (h'.trans h'.toPeerInv.vnakRetransmit).advances hself hq.accepted

end Invariant

variable {α : Type*} {o i r : ℕ} {p p' q : Pvt α} {f : IaxFrame α}

def Window (c : Call α) : Prop := unacknowledged c.a < 128 ∧ unacknowledged c.b < 128

def InTime (c : Call α) : Event α → Prop
  | .deliver x j => ∀ pkt ∈ (c.peer x).out[j]?, (c.peer x).sent.length < pkt.created + 128
  | _ => True

/-- No packet arrives after 128 frames were sent the other way since its `iseqno` was written. -/
def Recent (c : Call α) : Event α → Prop
  | .deliver x j => ∀ pkt ∈ (c.peer x).out[j]?, (c.peer x.other).sent.length < pkt.others + 128
  | _ => True

/-- Fewer than 128 frames are unacknowledged after the step, and no packet arrives too late in its
own direction. -/
def Bounded (c : Call α) (e : Event α) (c' : Call α) : Prop := InTime c e ∧ Window c'

instance (c : Call α) (e : Event α) : Decidable (InTime c e) := by
  cases e <;> unfold InTime <;> infer_instance

instance (c : Call α) (e : Event α) : Decidable (Recent c e) := by
  cases e <;> unfold Recent <;> infer_instance

instance (c : Call α) (e : Event α) (c' : Call α) : Decidable (Bounded c e c') := by
  unfold Bounded Window
  infer_instance

def Inv (o : Side → ℕ) (c : Call α) : Prop :=
  ∀ x, ∃ r, PeerInv (o x) (o x.other) (c.peer x) (c.peer x.other) r

section Call

variable {o : Side → ℕ} {c c' : Call α} {x : Side}

@[simp] theorem Side.other_other (x : Side) : x.other.other = x := by cases x <;> rfl

theorem Inv.pair (h : Inv o c) (x : Side) :
    ∃ r s, PeerInv (o x) (o x.other) (c.peer x) (c.peer x.other) r ∧
      PeerInv (o x.other) (o x) (c.peer x.other) (c.peer x) s := by
  obtain ⟨r, hr⟩ := h x
  obtain ⟨s, hs⟩ := h x.other
  rw [Side.other_other] at hs
  exact ⟨r, s, hr, hs⟩

theorem Inv.set (h : Inv o c) (hp : Advances (o x) (o x.other) (c.peer x) (c.peer x.other) p') :
    Inv o (c.set x p') := by
  obtain ⟨_, s, _, hs⟩ := h.pair x
  have hother := hp.other hs
  cases x with
  | a => exact fun | .a => hp.inv | .b => ⟨s, hother⟩
  | b => exact fun | .a => ⟨s, hother⟩ | .b => hp.inv

theorem unacknowledged_of_window (h : Window (c.set x p')) : unacknowledged p' < 128 := by
  cases x with
  | a => exact h.1
  | b => exact h.2

theorem inv_step {e : Event α} (h : Inv o c) (hs : step c e = some c') (htime : InTime c e)
    (hrecent : Recent c e) (hw : Window c') : Inv o c' := by
  cases e with
  | send x v =>
    obtain rfl := some.inj hs
    obtain ⟨r, s, hp, hq⟩ := h.pair x
    refine h.set ⟨⟨r, hp.iax2Send hq.sent_lt (unacknowledged_of_window hw)⟩, ?_, hq.accepted⟩
    exact prefix_refl _
  | pass x =>
    obtain rfl := some.inj hs
    obtain ⟨r, s, hp, hq⟩ := h.pair x
    exact h.set (hp.networkPass.advances (prefix_refl _) hq.accepted)
  | timer x j =>
    obtain ⟨p', hp', rfl⟩ := map_eq_some_iff.mp hs
    obtain ⟨r, s, hp, hq⟩ := h.pair x
    exact h.set ((hp.attemptTransmit hq.sent_lt hp').advances (prefix_refl _) hq.accepted)
  | vnak x =>
    obtain rfl := some.inj hs
    obtain ⟨r, s, hp, hq⟩ := h.pair x
    exact h.set
      ((hp.sendCommandImmediate (by simp) hq.sent_lt).advances (prefix_refl _) hq.accepted)
  | deliver x j =>
    simp only [step] at hs
    split at hs
    · cases hs
    · rename_i pkt hpkt
      obtain rfl := some.inj hs
      obtain ⟨r, s, hp, hq⟩ := h.pair x
      apply h.set
      rw [Side.other_other]
      exact hq.socketRead hp (hp.packets pkt (mem_of_getElem? hpkt)) (htime pkt hpkt)
        (hrecent pkt hpkt)

def startNumbers (a b : UInt8) : Side → ℕ
  | .a => a.toNat
  | .b => b.toNat

theorem inv_start (a b : UInt8) : Inv (startNumbers a b) (Call.start a b : Call α) := by
  have hstart : ∀ u v : UInt8, PeerInv u.toNat v.toNat (.start u v : Pvt α) (.start v u) 0 := by
    intro u v
    refine ⟨?_, ?_, ?_, Nat.le_refl _, prefix_refl _, ?_, ?_, ?_⟩ <;>
      simp [Pvt.start]
  exact fun | .a => ⟨0, hstart a b⟩ | .b => ⟨0, hstart b a⟩

end Call

/-- What the peer of `x` has accepted is a prefix of what `x` has sent, and every frame in the queue
of `x` whose retransmission was cancelled has been accepted. -/
def Delivered (c : Call α) (x : Side) : Prop :=
  (c.peer x.other).accepted <+: (c.peer x).sent ∧
    ∀ f ∈ (c.peer x).iaxq, f.retries < 0 → (c.peer x.other).accepted[f.number]? = some f.payload

theorem PeerInv.delivered (h : PeerInv o i p q r) (hf : f ∈ p.iaxq) (hneg : f.retries < 0) :
    q.accepted[f.number]? = some f.payload := by
  have hlt := Nat.lt_of_lt_of_le ((h.frames f hf).2 hneg) h.acked
  rw [List.getElem?_eq_getElem hlt, ← prefix_iff_getElem?.mp h.accepted _ hlt]
  exact (h.frames f hf).number_spec.2

/-- Over a network that loses, duplicates and reorders packets, every peer accepts a prefix of the
frames that the other one has sent, and no retransmission is cancelled too early. -/
theorem frames_delivered {a b : UInt8} {c : Call α} {es : List (Event α)}
    (h : Runs step (fun c e c' => Bounded c e c' ∧ Recent c e) (.start a b) es c) (x : Side) :
    Delivered c x := by
  have hinv : Inv (startNumbers a b) c := by
    refine h.invariant (fun c e c' hc hs hg => ?_) (inv_start a b)
    exact inv_step hc hs hg.1.1 hg.2 hg.1.2
  obtain ⟨r, hr⟩ := hinv x
  exact ⟨hr.accepted, fun f hf => hr.delivered hf⟩

-- two frames arrive in the wrong order, one of them three times, while `oseqno` wraps
theorem frames_delivered_reordered :
    ∃ c : Call ℕ, Runs step (fun c e c' => Bounded c e c' ∧ Recent c e) (.start 255 0)
      [.send .a 1, .send .a 2, .pass .a, .deliver .a 0, .deliver .a 1, .deliver .a 0, .deliver .a 0,
        .deliver .b 0] c ∧
      c.b.accepted = [1, 2] ∧ (c.a.iaxq.map fun f => f.retries) = [-1, -1] ∧ Delivered c .a :=
  exists_run_of_exec rfl fun h => ⟨rfl, rfl, frames_delivered h .a⟩

/-- The peer `b` sends a frame that is accepted, acknowledged and removed from the queue. -/
def exchange (v : ℕ) : List (Event ℕ) :=
  [.send .b v, .pass .b, .deliver .b 0, .deliver .a 0, .timer .b 0]

/-- A frame of `a` is lost, 254 frames of `b` are exchanged and two more are lost. The next frame of
`a` is answered by a `VNAK`, upon which the lost frame is sent again with its first `iseqno`. -/
def staleRun : List (Event ℕ) :=
  exchange 0 ++ exchange 1 ++ [.send .a 0, .pass .a] ++ (List.range 254).flatMap (fun v =>
    exchange (v + 2)) ++
    [.send .b 256, .send .b 257, .pass .b, .send .a 1, .pass .a, .deliver .a 0, .deliver .b 0,
      .deliver .a 1]

theorem exec_staleRun : ∃ c ∈ exec step Bounded (.start 0 0) staleRun,
    ∃ f ∈ c.b.iaxq, f.retries < 0 ∧ c.a.accepted[f.number]? = none := by
  decide +kernel

/-- The bounds alone do not suffice, even if every packet that arrives is one of the last two of its
sender: the `iseqno` that `vnak_retransmit` sends may be older than 256 frames. -/
theorem stale_iseqno_cancels : ∃ (es : List (Event ℕ)) (c : Call ℕ),
    Runs step Bounded (.start 0 0) es c ∧ (∀ x j, .deliver x j ∈ es → j < 2) ∧
      ¬ Delivered c .b := by
  obtain ⟨c, hc, f, hf, hneg, hlost⟩ := exec_staleRun
  refine ⟨staleRun, c, exec_eq_some_iff.mp hc, ?_, ?_⟩
  · intro x j hj
    simp only [staleRun, exchange, mem_append, mem_flatMap, mem_cons,
      Event.deliver.injEq, not_mem_nil, reduceCtorEq, false_or, or_false] at hj
    grind
  · rintro ⟨_, hdel⟩
    have hacc : c.a.accepted[f.number]? = some f.payload := hdel f hf hneg
    rw [hlost] at hacc
    cases hacc

end CallWeaver.Iax
