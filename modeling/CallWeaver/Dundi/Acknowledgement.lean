import CallWeaver.Dundi.Turns

/-! # Acknowledgements

As long as the numbers 254 and 255 are not used, every acknowledgement of an outstanding command
removes its packet and cancels its timer, for good, and what a living peer acknowledges it has
received. The test of `ack_trans` counts modulo 255, the numbers modulo 256.
-/

namespace CallWeaver.Dundi

open Function Option

variable {s s' : State} {act : Act} {acts : List Act} {b c : Bool} {t : Trans} {f : Hdr} {a id : ℕ}

/-- The number of commands that a step sends. -/
def commands : Act → Bool → ℕ
  | .send c _, b => if c = b then 1 else 0
  | .deliver c answer, b => if c = b then answer.sends.length else 0
  | _, _ => 0

def roomy (s : State) (act : Act) (_ : State) : Prop :=
  ∀ b, ∀ t ∈ (s.party b).trans, t.oseqno.toNat + commands act b ≤ 254
  deriving Decidable

structure Calm (s : State) : Prop where
  wf : ∀ b, Wf (s.party b)
  small : ∀ b, (s.party b).next ≤ 254

/-- What a living side can rely on of the other one, `u`: it has received no more commands than were
sent, its frames and packets expect no more, and the frames on their way to it are numbered. -/
structure Agree (s : State) (b : Bool) (u : Trans) : Prop where
  received : u.iseqno.toNat ≤ (s.party b).next
  frames : ∀ h ∈ s.wire b, h.iseqno ≤ u.iseqno
  packets : ∀ q ∈ u.packets, q.h.iseqno ≤ u.iseqno
  numbered : Numbered (s.wire (!b)) (s.party b).next

def Agreement (s : State) : Prop :=
  ∀ b t u, (s.party b).trans = some t → (s.party (!b)).trans = some u → Agree s b u

def State.pop (s : State) (b : Bool) (rest : List Hdr) : State :=
  { s with wire := update s.wire b rest }

variable {r : Party × List Hdr}

/-- A side that has a transaction takes a turn. -/
def Turns (s : State) (act : Act) (s' : State) : Prop :=
  ∃ b t r, (s.party b).trans = some t ∧ Turn (s.party b) t t.iseqno r ∧
    r.1.next ≤ (s.party b).next + commands act b ∧ s' = s.act b r

section Turns

variable (hw : ∀ b, Wf (s.party b))

include hw

theorem turns_send {m : Message} (hs : step s (.send b m) = some s') : Turns s (.send b m) s' := by
  simp only [step, ite_none_left_eq_some, some.injEq] at hs
  obtain ⟨halive, rfl⟩ := hs
  obtain ⟨t, ht⟩ := ne_none_iff_exists'.mp halive
  obtain ⟨hturn, -, hnext⟩ := turn_dundiSend ((hw b).armed ht) ht m
  exact ⟨b, t, _, ht, hturn, by simp [commands, hnext], rfl⟩

theorem turns_arm (hs : step s (.arm b) = some s') : Turns s (.arm b) s' := by
  simp only [step] at hs
  split at hs
  · cases hs
  · rename_i t ht
    split at hs
    · cases hs
    · rename_i hnone
      obtain rfl := some.inj hs
      exact ⟨b, t, _, ht, turn_arm ((hw b).armed ht) hnone, Nat.le_add_right _ _, rfl⟩

theorem alive_of_job {job : Job} (hjob : (s.party b).sched.jobs id = some job) :
    ∃ t, (s.party b).trans = some t := by
  have hb := hw b
  rw [Wf] at hb
  split at hb
  · simp [hb id] at hjob
  · exact ⟨_, ‹_›⟩

theorem turns_fire (hs : step s (.fire b id) = some s') : Turns s (.fire b id) s' := by
  simp only [step] at hs
  split at hs
  · cases hs
  · rename_i a hjob
    obtain rfl := some.inj hs
    obtain ⟨t, ht⟩ := alive_of_job hw hjob
    obtain ⟨hturn, hnext⟩ := turn_dundiRexmit ((hw b).armed ht) ht hjob
    exact ⟨b, t, _, ht, hturn, by simp [hnext], rfl⟩
  · rename_i hjob
    obtain rfl := some.inj hs
    obtain ⟨t, ht⟩ := alive_of_job hw hjob
    obtain ⟨hturn, hnext⟩ := turn_doAutokill ((hw b).armed ht) ht hjob
    exact ⟨b, t, _, ht, hturn, by simp [hnext], rfl⟩

end Turns

/-- What a step can do: a living side takes a turn, maybe for a frame that it receives, a frame for
a side without a transaction is answered or dropped, a frame is lost, or one of a later transaction
is sent. -/
theorem step_cases (hw : ∀ b, Wf (s.party b)) (hs : step s act = some s') : Turns s act s' ∨
    (∃ b t h rest answer, act = .deliver b answer ∧ s.wire b = h :: rest ∧
      (s.party b).trans = some t ∧ s' = (s.pop b rest).act b (handleFrame (s.party b) h answer)) ∨
    (∃ b h rest out, s.wire b = h :: rest ∧ (s.party b).trans = none ∧
      s' = (s.pop b rest).act b (s.party b, out)) ∨
    (∃ b h rest, s.wire b = h :: rest ∧ s' = s.pop b rest) ∨
    ∃ b h, (s.party (!b)).trans = none ∧
      s' = { s with wire := update s.wire b (s.wire b ++ [h]) } := by
  cases act with
  | send b m => exact .inl (turns_send hw hs)
  | arm b => exact .inl (turns_arm hw hs)
  | fire b id => exact .inl (turns_fire hw hs)
  | deliver b answer =>
    simp only [step] at hs
    split at hs
    · cases hs
    · rename_i h rest hwire
      obtain rfl := some.inj hs
      cases ht : (s.party b).trans with
      | some t => exact .inr (.inl ⟨b, t, h, rest, answer, rfl, hwire, ht, rfl⟩)
      | none =>
        refine .inr
          (.inr (.inl ⟨b, h, rest, if creates h.cmdresp then [] else dundiReject h, hwire, ht, ?_⟩))
        rw [handleFrame, ht]
        rfl
  | lose b =>
    simp only [step] at hs
    split at hs
    · cases hs
    · rename_i h rest hwire
      obtain rfl := some.inj hs
      exact .inr (.inr (.inr (.inl ⟨b, h, rest, hwire, rfl⟩)))
  | stray b h =>
    simp only [step, ite_none_right_eq_some, some.injEq] at hs
    obtain ⟨hdead, rfl⟩ := hs
    exact .inr (.inr (.inr (.inr ⟨b, h, hdead, rfl⟩)))

theorem act_party_ne (hc : c ≠ b) : (s.act b r).party c = s.party c :=
  update_of_ne hc _ _

theorem act_party : (s.act b r).party b = r.1 := update_self ..

theorem act_wire : (s.act b r).wire b = s.wire b :=
  update_of_ne (by cases b <;> decide) _ _

theorem act_wire_not : (s.act b r).wire (!b) = s.wire (!b) ++ r.2 := update_self ..

section

variable (hw : ∀ b, Wf (s.party b)) (hs : step s act = some s') (b : Bool)

include hw hs

theorem party_step :
    s'.party b = s.party b ∨ ∃ t i r, (s.party b).trans = some t ∧ Turn (s.party b) t i r ∧
      s'.party b = r.1 ∧ r.1.next ≤ (s.party b).next + commands act b := by
  have hturn : ∀ {s₀ : State} {c : Bool} {t : Trans} {i : UInt8} {r : Party × List Hdr},
    s₀.party = s.party →
      (s.party c).trans = some t → Turn (s.party c) t i r →
      r.1.next ≤ (s.party c).next + commands act c →
      (s₀.act c r).party b = s.party b ∨ ∃ t i r', (s.party b).trans = some t ∧
      Turn (s.party b) t i r' ∧
        (s₀.act c r).party b = r'.1 ∧ r'.1.next ≤ (s.party b).next + commands act b := by
    intro s₀ c t i r hs₀ ht hr hnext
    by_cases hb : b = c
    · subst hb
      exact .inr ⟨t, i, r, ht, hr, act_party, hnext⟩
    · rw [act_party_ne hb, hs₀]
      exact .inl rfl
  obtain ⟨c, t, r, ht, hr, hnext, rfl⟩ | ⟨c, t, h, rest, answer, rfl, -, ht, rfl⟩ |
    ⟨c, h, rest, out, -, hd, rfl⟩ | ⟨c, h, rest, -, rfl⟩ | ⟨c, h, -, rfl⟩ := step_cases hw hs
  · exact hturn rfl ht hr hnext
  · obtain ⟨hr, hnext⟩ := turn_handleFrame ((hw c).armed ht) ht h answer
    exact hturn rfl ht hr (by simpa [commands] using hnext)
  · by_cases hb : b = c
    · subst hb
      exact .inl act_party
    · exact .inl (act_party_ne hb)
  · exact .inl rfl
  · exact .inl rfl

theorem wf_step : Wf (s'.party b) := by
  obtain he | ⟨t, i, r, -, hr, he, -⟩ := party_step hw hs b
  · rw [he]
    exact hw b
  · rw [he]
    exact hr.wf

end

theorem Calm.step (h : Calm s) (hs : step s act = some s') (hroomy : roomy s act s') : Calm s' := by
  refine ⟨wf_step h.wf hs, fun b => ?_⟩
  obtain he | ⟨t, i, r, ht, hr, he, hnext⟩ := party_step h.wf hs b
  · rw [he]
    exact h.small b
  · have hnumber := ((h.wf b).armed ht).number
    have hsmall := h.small b
    have hroom := hroomy b t ht
    rw [he]
    omega

def Gone (a : ℕ) (p : Party) : Prop :=
  a < p.next ∧ ∀ t, p.trans = some t → ∀ q ∈ t.packets, q.addr ≠ a

theorem Gone.step (h : Gone a (s.party b)) (hw : ∀ b, Wf (s.party b)) (hs : step s act = some s') :
    Gone a (s'.party b) := by
  obtain he | ⟨t, i, r, ht, hr, he, -⟩ := party_step hw hs b
  · rw [he]
    exact h
  · rw [he]
    refine ⟨Nat.lt_of_lt_of_le h.1 hr.next, fun t' ht' q hq => ?_⟩
    obtain ⟨hnew, -⟩ | ⟨q₀, hq₀, haddr, -⟩ := (hr.alive t' ht').2.2 q hq
    · exact fun heq => Nat.not_lt_of_le hnew (heq ▸ h.1)
    · exact haddr ▸ h.2 t ht q₀ hq₀

variable {rest : List Hdr}

theorem Agreement.pop (h : Agreement s) (hwire : s.wire c = f :: rest) :
    Agreement (s.pop c rest) := by
  have hsub : ∀ b, ∀ g ∈ (s.pop c rest).wire b, g ∈ s.wire b := by
    intro b g hg
    by_cases hb : b = c
    · subst hb
      rw [hwire]
      exact List.mem_cons_of_mem _ (by simpa [State.pop] using hg)
    · simpa only [State.pop, update_of_ne hb] using hg
  intro b t u ht hu
  obtain ⟨hrec, hframes, hpackets, hnum⟩ := h b t u ht hu
  exact ⟨hrec, fun g hg => hframes g (hsub b g hg), hpackets, fun g hg => hnum g (hsub (!b) g hg)⟩

/-- A side without a transaction takes part in no agreement. -/
theorem Agreement.of_dead (hd : (s.party b).trans = none) : Agreement s := by
  intro c t u ht hu
  by_cases hc : c = b
  · subst hc
    cases hd.symm.trans ht
  · obtain rfl := Bool.eq_not.mpr hc
    rw [Bool.not_not] at hu
    cases hd.symm.trans hu

theorem Agreement.turn {i : UInt8} (h : Agreement s) (hsmall : ∀ b, (s.party b).next ≤ 254)
    (ht : (s.party b).trans = some t) (hr : Turn (s.party b) t i r)
    (hi : i = t.iseqno ∨ i = t.iseqno + 1 ∧ ∀ u, (s.party (!b)).trans = some u →
      t.iseqno.toNat < (s.party (!b)).next) : Agreement (s.act b r) := by
  intro c t' u' ht' hu'
  by_cases hc : c = b
  · subst hc
    rw [act_party] at ht'
    rw [act_party_ne (by cases c <;> decide)] at hu'
    obtain ⟨hrec, hframes, hpackets, hnum⟩ := h c t u' ht hu'
    refine ⟨?_, ?_, hpackets, ?_⟩
    · rw [act_party]
      exact Nat.le_trans hrec hr.next
    · rw [act_wire]
      exact hframes
    · rw [act_wire_not, act_party]
      intro g hg
      obtain hg | hg := List.mem_append.mp hg
      · exact hnum.mono hr.next g hg
      · exact (hr.alive t' ht').2.1 g hg
  · obtain rfl := Bool.eq_not.mpr hc
    rw [act_party_ne hc] at ht'
    rw [Bool.not_not, act_party] at hu'
    obtain ⟨hrec, hframes, hpackets, hnum⟩ := h (!b) t' t ht' (by rw [Bool.not_not]; exact ht)
    obtain ⟨hiseqno, -, hpackets'⟩ := hr.alive u' hu'
    have hsmall' := hsmall (!b)
    have hle : t.iseqno ≤ i ∧ i.toNat ≤ (s.party (!b)).next := by
      obtain rfl | ⟨rfl, hlt⟩ := hi
      · exact ⟨UInt8.le_refl _, hrec⟩
      · have hlt := hlt t' ht'
        rw [UInt8.le_iff_toNat_le, UInt8.toNat_add, UInt8.toNat_one]
        omega
    refine ⟨?_, ?_, ?_, ?_⟩
    · rw [act_party_ne hc, hiseqno]
      exact hle.2
    · rw [act_wire_not, hiseqno]
      intro g hg
      obtain hg | hg := List.mem_append.mp hg
      · exact UInt8.le_trans (hframes g hg) hle.1
      · obtain he | ⟨q, hq, he⟩ := hr.out g hg
        · exact UInt8.le_of_eq he
        · exact he ▸ UInt8.le_trans (hpackets q hq) hle.1
    · intro q hq
      rw [hiseqno]
      obtain ⟨-, he⟩ | ⟨q₀, hq₀, -, he⟩ := hpackets' q hq
      · exact UInt8.le_of_eq he
      · exact he ▸ UInt8.le_trans (hpackets q₀ hq₀) hle.1
    · rw [Bool.not_not, act_wire, act_party_ne hc]
      rwa [Bool.not_not] at hnum

theorem Agreement.step (h : Agreement s) (hcalm : Calm s) (hs : step s act = some s') :
    Agreement s' := by
  obtain ⟨c, t, r, ht, hr, -, rfl⟩ | ⟨c, t, f, rest, answer, -, hwire, ht, rfl⟩ |
    ⟨c, f, rest, out, hwire, hd, rfl⟩ | ⟨c, f, rest, hwire, rfl⟩ | ⟨c, f, hd, rfl⟩ :=
  step_cases hcalm.wf hs
  · exact h.turn hcalm.small ht hr (.inl rfl)
  · refine (h.pop hwire).turn hcalm.small ht
      (turn_handleFrame ((hcalm.wf c).armed ht) ht f answer).1 ?_
    by_cases hexp : f.oseqno = t.iseqno ∧ f.cmdresp ≠ ACK
    · refine .inr ⟨if_pos hexp, fun u hu => ?_⟩
      have hnum := (h (!c) u t hu (by rw [Bool.not_not]; exact ht)).numbered
      rw [Bool.not_not] at hnum
      obtain ⟨n, hn, -, hlt⟩ := hnum f (hwire ▸ List.mem_cons_self)
      have hlt := hlt hexp.2
      rw [← hexp.1, hn]
      show n % 256 < (s.party (!c)).next
      omega
    · exact .inl (if_neg hexp)
  · exact .of_dead ((congrArg Party.trans act_party).trans hd)
  · exact h.pop hwire
  · exact .of_dead (b := !c) hd

/-- The number of a packet is not one of the last two, and no newer packet is taken for it. -/
def Distinguished (newer : List Packet) (pack : Packet) : Prop :=
  pack.h.oseqno < 254 ∧ ∀ q ∈ newer, q.h.oseqno ≠ pack.h.oseqno ∧
    ¬(pack.h.oseqno = 0 ∧ q.h.oseqno = 255)

theorem calm_of_runs (h : Runs step roomy initial acts s) : Calm s ∧ Agreement s := by
  refine Runs.invariant (I := fun s => Calm s ∧ Agreement s) ?_ h
    ⟨⟨fun _ => armed_create, fun _ => Nat.zero_le _⟩, ?_⟩
  · rintro s act s' ⟨hcalm, hagree⟩ hs hroomy
    exact ⟨hcalm.step hs hroomy, hagree.step hcalm hs⟩
  · intro b t u ht hu
    obtain rfl := some.inj hu
    exact ⟨Nat.zero_le _, by simp [initial], by simp [createTransaction],
      by simp [Numbered, initial]⟩

section

variable (h : Calm s) (ht : (s.party b).trans = some t)

include h ht

theorem Calm.number :
    t.oseqno.toNat = (s.party b).next ∧ ∀ q ∈ t.packets, q.h.oseqno.toNat = q.addr ∧
      q.addr < 254 := by
  have hw := (h.wf b).armed ht
  have hsmall := h.small b
  refine ⟨hw.number.trans (Nat.mod_eq_of_lt (by omega)), fun q hq => ?_⟩
  have hlt := hw.bound q hq
  exact ⟨(hw.numbers q hq).trans (Nat.mod_eq_of_lt (by omega)), by omega⟩

theorem Calm.distinguished {newer older : List Packet} {pack : Packet}
    (hsplit : t.packets = newer ++ pack :: older) : Distinguished newer pack := by
  have hw := (h.wf b).armed ht
  have hnum := (h.number ht).2
  rw [hsplit] at hnum
  obtain ⟨hpack, hlt⟩ := hnum pack (by simp)
  refine ⟨by rw [UInt8.lt_iff_toNat_lt, hpack]; exact hlt, fun q hq => ?_⟩
  obtain ⟨hqn, hqlt⟩ := hnum q (by simp [hq])
  have hne := addr_notMem (hsplit ▸ hw.nodup) q (List.mem_append_left _ hq)
  refine ⟨fun he => hne ?_, fun he => ?_⟩
  · rw [← hqn, ← hpack, he]
  · have h255 := congrArg UInt8.toNat he.2
    simp only [UInt8.reduceToNat] at h255
    omega

theorem Calm.acknowledge {answer : Answer} (hwire : s.wire b = f :: rest)
    (hexp : f.oseqno = t.iseqno) (ha : a + 1 = f.iseqno.toNat) (hsent : a < t.oseqno.toNat)
    (hs : Dundi.step s (.deliver b answer) = some s') : Gone a (s'.party b) := by
  have hlt : a < (s.party b).next := (h.number ht).1 ▸ hsent
  simp only [Dundi.step, hwire, some.injEq] at hs
  subst hs
  rw [act_party]
  refine ⟨Nat.lt_of_lt_of_le hlt (turn_handleFrame ((h.wf b).armed ht) ht f answer).1.next,
    fun t' ht' => ?_⟩
  exact handleFrame_gone ((h.wf b).armed ht) ht (h.small b) hexp ha hlt ht'

end

/-- The acknowledgement of an outstanding packet removes exactly it if and only if it is
distinguished by its number. In every run without the numbers 254 and 255 this is always so; the
timers are those of the outstanding packets; a living peer acknowledges what it has received, and
has received what was sent; and a command acknowledged by an expected frame is never outstanding
again. -/
theorem acknowledgement_law (p : Party) (t : Trans) (newer : List Packet) (pack : Packet)
    (older : List Packet) (hsplit : t.packets = newer ++ pack :: older)
    (hnodup : (t.packets.map (·.addr)).Nodup) :
    (ackTrans p t (pack.h.oseqno + 1) = (true, acknowledged p t newer older pack) ↔
      Distinguished newer pack) ∧
    ∀ acts s, Runs step roomy initial acts s → ∀ b t, (s.party b).trans = some t →
      (∀ newer pack older, t.packets = newer ++ pack :: older →
        ackTrans (s.party b) t (pack.h.oseqno + 1) =
        (true, acknowledged (s.party b) t newer older pack)) ∧
      (∀ id a, (s.party b).sched.jobs id = some (.rexmit a) ↔
        ∃ q ∈ t.packets, q.addr = a ∧ q.retransid = some id) ∧
      (∀ u, (s.party (!b)).trans = some u → u.iseqno ≤ t.oseqno ∧
        ∀ f ∈ s.wire b, f.iseqno ≤ u.iseqno) ∧
      ∀ f rest answer s₁, s.wire b = f :: rest → f.oseqno = t.iseqno → f.iseqno ≠ 0 →
      f.iseqno ≤ t.oseqno →
        step s (.deliver b answer) = some s₁ → roomy s (.deliver b answer) s₁ →
        ∀ later s₂ t₂, Runs step roomy s₁ later s₂ → (s₂.party b).trans = some t₂ →
          ∀ q ∈ t₂.packets, q.h.oseqno + 1 ≠ f.iseqno := by
  refine ⟨ackTrans_exact_iff hsplit hnodup, fun acts s hruns b t ht => ?_⟩
  obtain ⟨hcalm, hagree⟩ := calm_of_runs hruns
  have hw := (hcalm.wf b).armed ht
  refine ⟨fun newer pack older hsplit => ?_, fun id a => ⟨hw.job id a, ?_⟩, fun u hu => ?_, ?_⟩
  · exact (ackTrans_exact_iff hsplit hw.nodup).mpr (hcalm.distinguished ht hsplit)
  · rintro ⟨q, hq, rfl, hid⟩
    obtain ⟨id', hid', hjob⟩ := hw.timer q hq
    obtain rfl : id' = id := some.inj (hid'.symm.trans hid)
    exact hjob
  · have h := hagree b t u ht hu
    exact ⟨by rw [UInt8.le_iff_toNat_le, (hcalm.number ht).1]; exact h.received, h.frames⟩
  · intro f rest answer s₁ hwire hexp hne hle hs hroomy later s₂ t₂ hlater ht₂ q hq heq
    have hpos : f.iseqno.toNat ≠ 0 := fun h0 => hne (UInt8.toNat_inj.mp h0)
    rw [UInt8.le_iff_toNat_le] at hle
    have hgone : Gone (f.iseqno.toNat - 1) (s₁.party b) :=
      hcalm.acknowledge ht hwire hexp (by omega) (by omega) hs
    have hcalm₂ : Calm s₂ ∧ Gone (f.iseqno.toNat - 1) (s₂.party b) := by
      refine Runs.invariant (I := fun s => Calm s ∧ Gone (f.iseqno.toNat - 1) (s.party b)) ?_ hlater
        ⟨hcalm.step hs hroomy, hgone⟩
      rintro s act s' ⟨hc, hg⟩ hs hr
      exact ⟨hc.step hs hr, hg.step hc.wf hs⟩
    obtain ⟨hnum, hlt⟩ := (hcalm₂.1.number ht₂).2 q hq
    apply hcalm₂.2.2 t₂ ht₂ q hq
    rw [← heq, UInt8.toNat_add, UInt8.toNat_one, hnum]
    omega

def discover : Message := ⟨.dpdiscover, 0, false, .plain⟩

def noAnswer : Answer := ⟨[], false⟩

def twoCommands : List Act :=
  [.send false discover, .send false discover, .deliver true noAnswer, .deliver false noAnswer]

theorem acknowledgement_law_twoCommands : ∃ s t pack, Runs step roomy initial twoCommands s ∧
    (s.party false).trans = some t ∧ t.packets = [pack] ∧ pack.h.oseqno = 1 ∧
    Distinguished [] pack ∧
    ackTrans (s.party false) t (pack.h.oseqno + 1) =
      (true, acknowledged (s.party false) t [] [] pack) := by
  obtain ⟨s, hs, hp⟩ := exists_runs_of_exec (P := fun s : State =>
      (s.party false).trans.any (fun t => t.packets.map (·.h.oseqno) = [1]) = true)
    (show (exec step roomy initial twoCommands).any _ = true by decide +kernel)
  obtain ⟨t, ht, hpackets⟩ := (any_eq_true ..).mp hp
  obtain ⟨pack, hpack, hnum⟩ : ∃ pack, t.packets = [pack] ∧ pack.h.oseqno = 1 := by
    obtain ⟨pack, rest, hcons, hnum, hrest⟩ := List.map_eq_cons_iff.mp (of_decide_eq_true hpackets)
    rw [List.map_eq_nil_iff.mp hrest] at hcons
    exact ⟨pack, hcons, hnum⟩
  obtain ⟨hexact, hruns⟩ := acknowledgement_law (s.party false) t [] pack [] hpack (by simp [hpack])
  have hlaw := (hruns twoCommands s hs false t ht).1 [] pack [] hpack
  exact ⟨s, t, pack, hs, ht, hpack, hnum, hexact.mp hlaw, hlaw⟩

def exchange : List Act := [.send false discover, .deliver true noAnswer, .deliver false noAnswer]

/-- The timer of the last one of 255 commands fires until no retransmission is left. -/
def timeouts : List Act := List.replicate 5 (.fire false 254)

/-- After 255 commands, each received and acknowledged before the next, the last one is still
outstanding, and its timer ends the transaction. -/
theorem acknowledged_command_times_out :
    ∃ s s', Runs step anyStep initial (List.replicate 255 exchange).flatten s ∧
    s.wire false = [] ∧ s.wire true = [] ∧ (s.party true).trans.map (·.iseqno) = some 255 ∧
    (s.party false).trans.map (fun t => t.packets.map (·.h.oseqno)) = some [254] ∧
    Runs step anyStep s timeouts s' ∧ (s'.party false).trans = none := by
  obtain ⟨s, hs, hf, ht, hi, hp, hlater⟩ := exists_runs_of_exec (P := fun s : State =>
      s.wire false = [] ∧ s.wire true = [] ∧ (s.party true).trans.map (·.iseqno) = some 255 ∧
      (s.party false).trans.map (fun t => t.packets.map (·.h.oseqno)) = some [254] ∧
      (exec step anyStep s timeouts).any (fun s' => (s'.party false).trans = none) = true)
    (show (exec step anyStep initial (List.replicate 255 exchange).flatten).any _ =
      true by decide +kernel)
  obtain ⟨s', hs', hnone⟩ := (any_eq_true ..).mp hlater
  exact ⟨s, s', hs, hf, ht, hi, hp, exec_eq_some_iff.mp hs', of_decide_eq_true hnone⟩

end CallWeaver.Dundi
