import CallWeaver.Rtp.Tracking

/-! # Digits from one session to another

A digit that begins where the receiver expects a part of the one before it is lost, unless its
duration differs: then its first packet moves the end of the last digit, and the second one sets it
up. An event longer than the timeout of the receiver is returned in the place of audio.
-/

namespace CallWeaver.Rtp

open List

section Invariant

/-- A digit does not begin with the time stamp of the one before it, nor 320 samples behind the end
of one that lasted as long, which the sender keeps. -/
def distinct (l : Line) : Act → Bool
  | .digit .. => true
  | .write w =>
    l.snd.sendevent = 0 ||
      (nextStamp l.snd w.frame w.now ≠ l.snd.startts &&
        !(eventSamples l.snd w.frame.samplerate = l.snd.duration &&
          nextStamp l.snd w.frame w.now = l.snd.startts + l.snd.duration.toUInt32 + 320))

/-- A digit that a frame does not end yet has not lasted longer than the timeout of the receiver. -/
def prompt (p : Platform) (l : Line) : Act → Bool
  | .digit .. => true
  | .write w =>
    l.snd.payload = 0 || l.snd.payload / 0x800000 % 2 = 1 ||
      nextStamp l.snd w.frame w.now - l.snd.startts + w.frame.samples ≥ l.snd.duration.toUInt32 ||
      nextStamp l.snd w.frame w.now - l.snd.startts ≤ p.dtmftimeout

def expected (l : Line) : List Frame := l.sent.map frameOf

def Balance (ok : Bool) (got expected : List Frame) : Prop :=
  if ok then got = expected else got.length < expected.length

def Synced (l : Line) : Prop :=
  l.rcv.event.startts = l.snd.startts ∧ l.rcv.event.duration = l.snd.duration

structure Tracked (all : Bool) (l : Line) (ok : Bool) (c : UInt8) (n : ℕ) : Prop where
  known : c ∈ eventcodes
  sendevent : l.snd.sendevent = 0
  payload : l.snd.payload = stagePayload c l.snd.duration.toNat n
  follows : Follows c l.snd.startts l.rcv.event
  duration : l.rcv.event.duration = l.snd.duration
  hit : ok = true → ¬ Missed l.snd.startts l.rcv.event
  /-- before its end, `process_rfc2833` has not returned the digit -/
  unreturned : ok = true → all = false → n = 0 → owed c l.snd.startts l.rcv.event ≠ []
  balance : Balance ok (delivered all l ++ owed c l.snd.startts l.rcv.event) (expected l)

/-- A line between its steps, on which nothing is lost so far if `ok`. -/
inductive Inv (all : Bool) (l : Line) (ok : Bool) : Prop where
  | idle (sendevent : l.snd.sendevent = 0) (payload : l.snd.payload = 0)
      (code : l.rcv.event.code = 0)
      (synced : ok = true → Synced l) (balance : Balance ok (delivered all l) (expected l))
  | armed (c : UInt8) (d : UInt16) (known : c ∈ eventcodes)
      (sendevent : l.snd.sendevent = eventPayload c d.toNat)
      (payload : l.snd.payload = 0) (code : l.rcv.event.code = 0) (synced : ok = true → Synced l)
      (balance : Balance ok (delivered all l ++ [frameOf c]) (expected l))
  | sending (c : UInt8) (n : ℕ) (ends : n < 3) (tracked : Tracked all l ok c n)

abbrev Line.pt (l : Line) : PayloadType := l.rcv.lookupPt l.snd.dtmfPt

variable {p : Platform} {all ok : Bool} {l l' : Line} {w : Writing} {c event : UInt8} {n : ℕ}
  {x y z : List Frame} {duration d : UInt16}

theorem Balance.append (h : Balance ok x y) : Balance ok (x ++ z) (y ++ z) := by
  cases ok with
  | true => exact congrArg (· ++ z) h
  | false =>
    have hlt : x.length < y.length := h
    change (x ++ z).length < (y ++ z).length
    rw [length_append, length_append]
    omega

theorem Balance.length_le (h : Balance ok x y) : x.length ≤ y.length := by
  cases ok with
  | true => exact (congrArg length h).le
  | false => exact Nat.le_of_lt h

theorem Balance.shorter (h : Balance ok x y) (hlt : z.length < x.length) : Balance false z y :=
  Nat.lt_of_lt_of_le hlt h.length_le

theorem stagePayload_ne_zero (hn : n < 3) (d : ℕ) : stagePayload c d n ≠ 0 := by
  match n, hn with
  | 0, _ | 1, _ | 2, _ =>
    rw [stagePayload, eventPayload]
    omega

theorem stagePayload_end (hn : n < 3) (d : UInt16) :
    stagePayload c d.toNat n / 0x800000 % 2 = 1 ↔ n ≠ 0 := by
  have hd : d.toNat < 65536 := d.toNat_lt
  match n, hn with
  | 0, _ | 1, _ | 2, _ =>
    rw [stagePayload, eventPayload]
    omega

theorem Tracked.inv (h : Tracked all l ok c n) (hn : n ≤ 3)
    (hend : n = 3 → owed c l.snd.startts l.rcv.event = []) : Inv all l ok := by
  rcases Nat.lt_or_eq_of_le hn with hlt | rfl
  · exact .sending c n hlt h
  · have howed := hend rfl
    have hbal := h.balance
    rw [howed, append_nil] at hbal
    obtain ⟨hcode, hsame⟩ : l.rcv.event.code = 0 ∧ samets l.rcv.event l.snd.startts = true := by
      by_contra hne
      rw [owed, if_neg hne] at howed
      cases howed
    refine .idle h.sendevent h.payload hcode (fun hok => ⟨?_, h.duration⟩) hbal
    by_contra hne
    exact h.hit hok ⟨hcode, hne, hsame⟩

theorem Inv.of_idle (h : Inv all l ok) (hs : l.snd.sendevent = 0) (hp : l.snd.payload = 0) :
    l.rcv.event.code = 0 ∧ (ok = true → Synced l) ∧ Balance ok (delivered all l) (expected l) := by
  cases h with
  | idle _ _ code synced balance => exact ⟨code, synced, balance⟩
  | armed c d _ sendevent =>
    rw [hs, eventPayload] at sendevent
    omega
  | sending c n ends tracked =>
    exact absurd (hp ▸ tracked.payload).symm (stagePayload_ne_zero ends _)

theorem toupper_ne_zero (h : event ≠ 0) : toupper event ≠ 0 := by
  unfold toupper
  split
  · rename_i hlower
    have hle : (97 : UInt8) ≤ event := hlower.1
    intro hzero
    rw [← UInt8.sub_add_cancel event 32, hzero] at hle
    exact absurd hle (by decide)
  · exact h

theorem Inv.digit (hinv : Inv all l ok) (h : step p l (.digit event duration) = some l') :
    Inv all l' ok ∧ l'.pt = l.pt := by
  rw [step] at h
  split at h
  · rename_i hidle
    obtain ⟨hs, hp, hevent⟩ := hidle
    obtain ⟨hcode, hsync, hbal⟩ := hinv.of_idle hs hp
    rw [cwRtpSendevent] at h
    split at h
    · cases h
      exact ⟨hinv, rfl⟩
    · rename_i snd hsnd
      cases h
      split at hsnd
      · rename_i hmem
        obtain rfl := Option.some.inj hsnd
        have hknown : toupper event ∈ eventcodes :=
          (mem_append.mp hmem).resolve_right fun h => toupper_ne_zero hevent (mem_singleton.mp h)
        refine ⟨.armed (toupper event) duration hknown ?_ hp hcode hsync ?_, rfl⟩
        · rw [idxOf_append_of_mem hknown]
          rfl
        · rw [expected, map_append]
          exact hbal.append
      · cases hsnd
  · cases h

def endsAfter (l : Line) (w : Writing) (n : ℕ) : ℕ :=
  nextEnds n (reachesEnd (begun l.snd w.frame w.now) w.frame.samples)

theorem endsAfter_le (hn : n < 3) : endsAfter l w n ≤ 3 := by
  rw [endsAfter, nextEnds]
  split <;> omega

theorem distinct_start (hne : l.snd.sendevent ≠ 0) :
    distinct l (.write w) = true ↔ nextStamp l.snd w.frame w.now ≠ l.snd.startts ∧
        ¬ (eventSamples l.snd w.frame.samplerate = l.snd.duration ∧
          nextStamp l.snd w.frame w.now = l.snd.startts + l.snd.duration.toUInt32 + 320) := by
  simp [distinct, hne, imp_iff_not_or]

theorem armed_ne_zero (hs : l.snd.sendevent = eventPayload c d.toNat) : l.snd.sendevent ≠ 0 := by
  rw [hs, eventPayload]
  omega

theorem begun_armed (hs : l.snd.sendevent = eventPayload c d.toNat) :
    (begun l.snd w.frame w.now).payload =
      stagePayload c (begun l.snd w.frame w.now).duration.toNat 0 := by
  have hd : d.toNat < 65536 := d.toNat_lt
  obtain ⟨-, hdur, hpayload⟩ := begun_started w.frame w.now (armed_ne_zero hs)
  rw [hpayload, hdur, hs, stagePayload, eventPayload, eventPayload]
  omega

theorem Tracked.begun (h : Tracked all l ok c n) :
    (begun l.snd w.frame w.now).payload =
      stagePayload c (begun l.snd w.frame w.now).duration.toNat n := by
  obtain ⟨-, hdur, hpayload⟩ := begun_continued w.frame w.now h.sendevent
  rw [hpayload, hdur, h.payload]

theorem endsAfter_eq_zero (h : endsAfter l w n = 0) : n = 0 := by
  rw [endsAfter, nextEnds] at h
  split at h
  · rename_i hn
    exact hn.1
  · omega

theorem prompt_continue (hn : n < 3) (hs : l.snd.sendevent = 0)
    (hp : l.snd.payload = stagePayload c l.snd.duration.toNat n) :
    prompt p l (.write w) = false ↔
      endsAfter l w n = 0 ∧ nextStamp l.snd w.frame w.now - l.snd.startts > p.dtmftimeout := by
  obtain ⟨hstart, hdur, -⟩ := begun_continued w.frame w.now hs
  obtain ⟨hlast, -⟩ := begun_kept l.snd w.frame w.now
  have hends : endsAfter l w n = 0 ↔
      n = 0 ∧ ¬ nextStamp l.snd w.frame w.now - l.snd.startts + w.frame.samples ≥
      l.snd.duration.toUInt32 := by
    rw [endsAfter, nextEnds, reachesEnd, hlast, hstart, hdur]
    split
    · rename_i h
      exact iff_of_true rfl ⟨h.1, of_decide_eq_false h.2⟩
    · rename_i h
      exact iff_of_false (by omega) fun hn => h ⟨hn.1, decide_eq_false hn.2⟩
  have hzero : l.snd.payload ≠ 0 := hp ▸ stagePayload_ne_zero hn _
  have hbit : l.snd.payload / 0x800000 % 2 = 1 ↔ n ≠ 0 := hp ▸ stagePayload_end hn l.snd.duration
  rw [hends, prompt, decide_eq_false hzero]
  simp only [hbit, Bool.false_or, Bool.or_eq_false_iff, decide_eq_false_iff_not, not_not,
    UInt32.not_le]

/-- A frame with another packet of a digit: `out` is returned for it, and `late` in the place of
audio. -/
structure Continued (all : Bool) (p : Platform) (l : Line) (w : Writing) (c : UInt8) (n : ℕ)
    (out late : List Frame) (l' : Line) : Prop where
  lookupPt : l'.rcv.lookupPt l'.snd.dtmfPt = l.rcv.lookupPt l.snd.dtmfPt
  expected : expected l' = expected l
  delivered : delivered all l' = delivered all l ++ (out ++ if all then late else [])
  sendevent : l'.snd.sendevent = 0
  payload : l'.snd.payload = stagePayload c l'.snd.duration.toNat (endsAfter l w n)
  follows : Follows c l'.snd.startts l'.rcv.event
  duration : l'.rcv.event.duration = l'.snd.duration
  missed : Missed l'.snd.startts l'.rcv.event ↔ Missed l.snd.startts l.rcv.event
  owed_eq : out ++ (late ++ owed c l'.snd.startts l'.rcv.event) = owed c l.snd.startts l.rcv.event
  ended : endsAfter l w n ≠ 0 → owed c l'.snd.startts l'.rcv.event = []
  silent : endsAfter l w n = 0 → out = []
  late_of : prompt p l (.write w) = false → owed c l.snd.startts l.rcv.event ≠ [] → late ≠ []
  prompt_of : late ≠ [] → prompt p l (.write w) = false

section Writing

variable (hpt : l.pt = ⟨false, rtpDtmf⟩) (h : step p l (.write w) = some l')

include hpt h

theorem step_write_stage (all : Bool) (hc : c ∈ eventcodes) (hn : n < 3)
    (hbusy : l.snd.payload ≠ 0 ∨ l.snd.sendevent ≠ 0)
    (hstage : (begun l.snd w.frame w.now).payload =
      stagePayload c (begun l.snd w.frame w.now).duration.toNat n) :
    ∃ q : EventPacket, eventCode q.event = c ∧ q.timestamp = l'.snd.startts ∧
      q.duration = l'.snd.duration ∧ q.isEnd = decide (endsAfter l w n ≠ 0) ∧
      HeardBoth p all l w q l' ∧
      l'.snd.payload = stagePayload c l'.snd.duration.toNat (endsAfter l w n) := by
  obtain ⟨hword, hnext⟩ := continueEvent_stage w.frame.samples hn hstage
  have hlt : (continueEvent (begun l.snd w.frame w.now) w.frame.samples).1 < 4294967296 := by
    have hi := idxOf_le hc
    have hd : (begun l.snd w.frame w.now).duration.toNat < 65536 :=
      (begun l.snd w.frame w.now).duration.toNat_lt
    rw [hword, eventPayload]
    split <;> omega
  obtain ⟨q, hq, hts, hheard, hp'⟩ := step_write_busy all h hbusy hpt hlt
  rw [hword] at hq
  obtain ⟨hcode, hdur, hend⟩ := packet_fields hc hq
  exact ⟨q, hcode, hts.trans hheard.startts.symm, hdur.trans hheard.duration.symm, hend, hheard,
    by rw [hp', hnext, hheard.duration]; rfl⟩

theorem Inv.start (hc : c ∈ eventcodes) (hs : l.snd.sendevent = eventPayload c d.toNat)
    (hcode : l.rcv.event.code = 0) (hsync : ok = true → Synced l)
    (hbal : Balance ok (delivered all l ++ [frameOf c]) (expected l)) :
    Inv all l' (ok && distinct l (.write w)) ∧ l'.pt = l.pt := by
  have hne := armed_ne_zero hs
  obtain ⟨hstart, hdur, -⟩ := begun_started w.frame w.now hne
  obtain ⟨q, hevent, hts, hqdur, hend, ⟨hheard, hs', hstart', hdur'⟩, hp'⟩ :=
    step_write_stage hpt h all hc (by omega) (.inr hne) (begun_armed hs)
  rw [hstart] at hstart'
  rw [hdur] at hdur'
  obtain ⟨hf, hdur₁, hout⟩ := process_starts hcode hts hevent (eventcodes_ne_zero hc)
  -- the packet of audio has the same time stamp
  obtain ⟨hf₂, hdur₂, howed₂, hmissed₂, hquiet⟩ := hearAudio_follows p.dtmftimeout
    (nextStamp l.snd w.frame w.now) hf
  have haudio := hquiet.mpr fun hlate => by
    rw [hstart', UInt32.sub_self] at hlate
    exact absurd hlate.2 (UInt32.not_lt.mpr (UInt32.zero_le ..))
  rw [haudio, nil_append] at howed₂
  rw [haudio, ite_self, append_nil] at hheard
  rw [← hheard.event] at hf₂ hdur₂ howed₂ hmissed₂
  have hends : endsAfter l w 0 ≠ 3 := by
    rw [endsAfter, nextEnds]
    split <;> omega
  refine ⟨?_, hheard.lookupPt⟩
  have hinv : ∀ b, (b = true → ¬ Missed l'.snd.startts l'.rcv.event ∧
        (endsAfter l w 0 = 0 → owed c l'.snd.startts l'.rcv.event ≠ [])) →
      Balance b (delivered all l ++
        ((process l.rcv.event q).1.toList ++ owed c l'.snd.startts (process l.rcv.event q).2))
        (expected l) → Inv all l' b := by
    intro b hb hbal
    refine Tracked.inv ⟨hc, hs', hp', hf₂, hdur₂.trans (hdur₁.trans hqdur), fun hok =>
      (hb hok).1, fun hok _ => (hb hok).2, ?_⟩ (endsAfter_le (by omega)) fun h => absurd h hends
    rwa [hheard.delivered, howed₂, append_assoc, expected, hheard.sent]
  split at hout
  · rename_i hnew
    obtain ⟨hone, hmissed, hnone⟩ := hout
    have hkeep : (ok && distinct l (.write w)) = ok := by
      cases ok with
      | false => rfl
      | true =>
        obtain ⟨hstart_eq, hdur_eq⟩ := hsync rfl
        rw [hstart_eq, hdur_eq, hqdur, hstart', hdur'] at hnew
        exact (distinct_start hne).mpr hnew
    rw [hkeep]
    refine hinv ok (fun _ => ⟨fun h => hmissed (hmissed₂.mp h), fun hzero hnil => ?_⟩)
      (by rwa [hone])
    rw [hnone (by simpa using hend.trans (by simp [hzero])), ← howed₂, hnil] at hone
    cases hone
  · rename_i hold
    obtain ⟨hnone, hnil⟩ := hout
    have hlost : (ok && distinct l (.write w)) = false := by
      cases ok with
      | false => rfl
      | true =>
        obtain ⟨hstart_eq, hdur_eq⟩ := hsync rfl
        rw [hstart_eq, hdur_eq, hqdur, hstart', hdur', ← distinct_start hne] at hold
        exact Bool.eq_false_of_not_eq_true hold
    rw [hlost]
    refine hinv false (fun h => absurd h Bool.false_ne_true) (hbal.shorter ?_)
    rw [hnone, hnil]
    simp

theorem Tracked.continued (ht : Tracked all l ok c n) (hn : n < 3) :
    ∃ out late, Continued all p l w c n out late l' := by
  obtain ⟨hstart, hdur, -⟩ := begun_continued w.frame w.now ht.sendevent
  obtain ⟨q, hevent, hts, hqdur, hend, ⟨hheard, hs', hstart', hdur'⟩, hp'⟩ :=
    step_write_stage hpt h all ht.known hn (.inl (ht.payload ▸ stagePayload_ne_zero hn _)) ht.begun
  rw [hstart] at hstart'
  rw [hdur] at hdur'
  have hprompt := prompt_continue (p := p) (w := w) hn ht.sendevent ht.payload
  have hf := ht.follows
  rw [← hstart'] at hf hprompt
  have hcont := process_continues hf (ht.duration.trans (hdur'.symm.trans hqdur.symm)) hts hevent
    (eventcodes_ne_zero ht.known)
  obtain ⟨hf₂, hdur₂, howed₂, hmissed₂, hquiet⟩ := hearAudio_follows p.dtmftimeout
    (nextStamp l.snd w.frame w.now) hcont.follows
  rw [← hheard.event] at hf₂ hdur₂ howed₂ hmissed₂
  have hnot_end : endsAfter l w n = 0 → q.isEnd = false := fun h => by simpa [h] using hend
  have hended : endsAfter l w n ≠ 0 → owed c l'.snd.startts (process l.rcv.event q).2 = [] :=
    fun h => hcont.ended (by simpa [h] using hend)
  refine ⟨_, _,
    ⟨hheard.lookupPt, congrArg (map frameOf) hheard.sent, hheard.delivered, hs', hp', hf₂,
    hdur₂.trans (hcont.duration.trans hqdur), ?_, ?_,
    fun hne => ?_, fun hzero => (hcont.started (hnot_end hzero)).1,
    fun hlate howed hnil => ?_, fun hlate => ?_⟩⟩
  · rw [hmissed₂, hcont.missed, hstart']
  · rw [howed₂, hcont.owed_eq, hstart']
  · rw [hended hne, append_eq_nil_iff] at howed₂
    exact howed₂.2
  · -- the digit is in progress behind the packet, and the audio finds that it lasts for too long
    obtain ⟨hzero, htime⟩ := hprompt.mp hlate
    rw [← hstart'] at howed
    exact hquiet.mp hnil ⟨(hcont.started (hnot_end hzero)).2 howed, htime⟩
  · obtain ⟨hcode, htime⟩ := not_not.mp fun h => hlate (hquiet.mpr h)
    refine hprompt.mpr ⟨?_, htime⟩
    by_contra hne
    have hnil := hended hne
    rw [owed_of_code hcode] at hnil
    cases hnil

theorem Tracked.write (ht : Tracked all l ok c n) (hn : n < 3) :
    Inv all l' (ok && (all || prompt p l (.write w))) ∧ l'.pt = l.pt := by
  obtain ⟨out, late, hc⟩ := Tracked.continued hpt h ht hn
  refine ⟨?_, hc.lookupPt⟩
  have hinv : ∀ b, (b = true → ok = true ∧ (all = false → late = [])) →
      Balance b (delivered all l' ++ owed c l'.snd.startts l'.rcv.event) (expected l') →
      Inv all l' b := by
    intro b hb hbal
    refine Tracked.inv ⟨ht.known, hc.sendevent, hc.payload, hc.follows, hc.duration,
      fun hok => mt hc.missed.mp (ht.hit (hb hok).1), fun hok hall hzero =>
      ?_, hbal⟩ (endsAfter_le hn)
      fun hthree => hc.ended (by omega)
    have howed := hc.owed_eq
    rw [hc.silent hzero, (hb hok).2 hall, nil_append, nil_append] at howed
    rw [howed]
    exact ht.unreturned (hb hok).1 hall (endsAfter_eq_zero hzero)
  by_cases hlate : late = []
  · have hkeep : (ok && (all || prompt p l (.write w))) = ok := by
      cases ok with
      | false => rfl
      | true =>
        cases all with
        | true => rfl
        | false =>
          rw [Bool.true_and, Bool.false_or]
          by_contra hp
          have hp := Bool.eq_false_of_not_eq_true hp
          have hzero := ((prompt_continue hn ht.sendevent ht.payload).mp hp).1
          exact hc.late_of hp (ht.unreturned rfl rfl (endsAfter_eq_zero hzero)) hlate
    rw [hkeep]
    refine hinv ok (fun hok => ⟨hok, fun _ => hlate⟩) ?_
    have howed := hc.owed_eq
    rw [hlate, nil_append] at howed
    rw [hc.delivered, hc.expected, hlate, ite_self, append_nil, append_assoc, howed]
    exact ht.balance
  · cases all with
    | true =>
      rw [Bool.true_or, Bool.and_true]
      refine hinv ok (fun hok => ⟨hok, fun h => absurd h.symm Bool.false_ne_true⟩) ?_
      rw [hc.delivered, hc.expected, if_pos rfl, append_assoc, append_assoc, hc.owed_eq]
      exact ht.balance
    | false =>
      -- `process_rfc2833` has missed the digit
      rw [Bool.false_or, hc.prompt_of hlate, Bool.and_false]
      refine hinv false (fun h => absurd h Bool.false_ne_true) ?_
      rw [hc.delivered, hc.expected]
      refine ht.balance.shorter ?_
      rw [← hc.owed_eq]
      simpa [length_pos_iff] using hlate

theorem Inv.write (hinv : Inv all l ok) :
    Inv all l' (ok && distinct l (.write w) && (all || prompt p l (.write w))) ∧ l'.pt = l.pt := by
  cases hinv with
  | idle sendevent payload code synced balance =>
    obtain ⟨hheard, hs', hp', hstart, hdur⟩ := step_write_idle all h sendevent payload
    have hsilent : hearAudio p.dtmftimeout l.rcv.event (nextStamp l.snd w.frame w.now) =
        ([], l.rcv.event) :=
      if_neg fun hlate => hlate.1 code
    rw [hsilent, ite_self] at hheard
    have hkeep : (ok && distinct l (.write w) && (all || prompt p l (.write w))) = ok := by
      simp [distinct, prompt, sendevent, payload]
    rw [hkeep]
    refine ⟨.idle hs' hp' ?_ (fun hok => ?_) ?_, hheard.lookupPt⟩
    · rw [hheard.event]
      exact code
    · rw [Synced, hheard.event, hstart, hdur]
      exact synced hok
    · rwa [hheard.delivered, append_nil, expected, hheard.sent]
  | armed c d known sendevent payload code synced balance =>
    have hprompt : prompt p l (.write w) = true := by simp [prompt, payload]
    rw [hprompt, Bool.or_true, Bool.and_true]
    exact Inv.start hpt h known sendevent code synced balance
  | sending c n ends tracked =>
    have hdistinct : distinct l (.write w) = true := by simp [distinct, tracked.sendevent]
    rw [hdistinct, Bool.and_true]
    exact Tracked.write hpt h tracked ends

end Writing

end Invariant

section Runs

variable {p : Platform} {all ok : Bool} {l l' : Line} {a : Act}

/-- How many frames are still to come for the digits that were not lost. -/
def due (l : Line) : ℕ :=
  if l.snd.sendevent ≠ 0 then 1
  else if l.snd.payload = 0 then 0 else (owed 0 l.snd.startts l.rcv.event).length

theorem Inv.count (h : Inv all l ok) :
    if ok then (delivered all l).length + due l = (expected l).length
    else (delivered all l).length + due l < (expected l).length := by
  obtain ⟨x, hx, hbal⟩ : ∃ x : List Frame, x.length = due l ∧
      Balance ok (delivered all l ++ x) (expected l) := by
    cases h with
    | idle sendevent payload _ _ balance =>
      exact ⟨[], by simp [due, sendevent, payload], by rwa [append_nil]⟩
    | armed c d _ sendevent _ _ _ balance =>
      exact ⟨_, by rw [due, if_pos (armed_ne_zero sendevent)]; rfl, balance⟩
    | sending c n ends tracked =>
      refine ⟨_, ?_, tracked.balance⟩
      rw [due, if_neg (not_not.mpr tracked.sendevent),
        if_neg (tracked.payload ▸ stagePayload_ne_zero ends _), owed, owed]
      split <;> rfl
  rw [← hx, ← length_append]
  cases ok with
  | true => exact congrArg length hbal
  | false => exact hbal

theorem Inv.true_iff (h : Inv all l ok) : Inv all l true ↔ ok = true := by
  refine ⟨fun htrue => ?_, fun hok => hok ▸ h⟩
  have hcount := h.count
  have hcount' := htrue.count
  cases ok with
  | true => rfl
  | false =>
    rw [if_neg Bool.false_ne_true] at hcount
    rw [if_pos rfl] at hcount'
    omega

/-- The conditions under which nothing is lost: by the receiver, or by `process_rfc2833` itself. -/
def Safe (p : Platform) (all : Bool) (l : Line) (a : Act) : Prop :=
  distinct l a = true ∧ (all = true ∨ prompt p l a = true)
  deriving Decidable

def Sound (all : Bool) (l : Line) : Prop :=
  l.rcv.lookupPt l.snd.dtmfPt = ⟨false, rtpDtmf⟩ ∧ ∃ ok, Inv all l ok

theorem Inv.step (hinv : Inv all l ok) (hpt : l.pt = ⟨false, rtpDtmf⟩) (h : step p l a = some l') :
    Inv all l' (ok && distinct l a && (all || prompt p l a)) ∧ l'.pt = l.pt := by
  cases a with
  | digit event duration =>
    rw [distinct, prompt, Bool.and_true, Bool.or_true, Bool.and_true]
    exact hinv.digit h
  | write w => exact Inv.write hpt h hinv

theorem Sound.step (hs : Sound all l) (h : step p l a = some l') :
    Sound all l' ∧ (Inv all l' true ↔ Inv all l true ∧ Safe p all l a) := by
  obtain ⟨hpt, ok, hinv⟩ := hs
  obtain ⟨hinv', hkeep⟩ := hinv.step hpt h
  refine ⟨⟨hkeep.trans hpt, _, hinv'⟩, ?_⟩
  rw [hinv'.true_iff, hinv.true_iff, Safe, Bool.and_eq_true, Bool.and_eq_true,
    Bool.or_eq_true, and_assoc]

theorem Fresh.inv (h : Fresh l) : Inv all l true := by
  have hgot : delivered all l = expected l := by
    rw [delivered, expected, h.log, h.sent]
    rfl
  refine .idle h.idle.1 h.idle.2 ?_ (fun _ => ⟨?_, ?_⟩) hgot
  · rw [h.event]
  · rw [h.event, h.startts]
  · rw [h.event, h.duration]

theorem Inv.received_iff (h : Inv all l ok) (hs : l.snd.sendevent = 0) (hp : l.snd.payload = 0) :
    delivered all l = expected l ↔ Inv all l true := by
  have hbal := (h.of_idle hs hp).2.2
  rw [h.true_iff]
  cases ok with
  | true => exact iff_of_true hbal rfl
  | false => exact iff_of_false (fun heq => hbal.ne (congrArg length heq)) Bool.false_ne_true

/-- When the last digit is over, the receiver has returned exactly the digits that were sent if and
only if each of them began at a distinct place, and `process_rfc2833` has done so if and only if
besides none of them lasted too long. -/
theorem digits_end_to_end (p : Platform) (all : Bool) (l l' : Line) (acts : List Act)
    (hfresh : Fresh l) (hrun : Runs (Rtp.step p) anyStep l acts l') (hs : l'.snd.sendevent = 0)
    (hp : l'.snd.payload = 0) :
    delivered all l' = expected l' ↔ Runs (Rtp.step p) (fun l a _ => Safe p all l a) l acts l' := by
  have hsound : Sound all l := ⟨hfresh.lookupPt, true, hfresh.inv⟩
  obtain ⟨-, ok, hinv⟩ := hrun.invariant (I := Sound all) (fun s a t hs h _ => (hs.step h).1) hsound
  have hiff :=
    hrun.iff_all (I := Sound all) (P := fun l => Inv all l true) (C := fun l a _ => Safe p all l a)
    (fun s a t hs h _ => hs.step h) hsound
  rw [hinv.received_iff hs hp, hiff, and_iff_right hfresh.inv]
  exact ⟨fun h =>
    h.mono fun _ _ _ hsafe => hsafe.2, fun h => h.mono fun _ _ _ hsafe => ⟨trivial, hsafe⟩⟩

def newLine : Line where
  snd := ⟨1, 1000, 0, ⟨0, 0⟩, ⟨0, 0⟩, 7, 101, 0, 0, 0, 0, 0⟩
  rcv := Session.new fun pt => if pt = 101 then ⟨false, rtpDtmf⟩ else ⟨true, formatUlaw⟩
  sent := []
  log := []

theorem newLine_fresh : Fresh newLine := ⟨⟨rfl, rfl⟩, rfl, rfl, rfl, rfl, rfl, rfl⟩

def frameAt (usec : ℤ) : OutFrame := ⟨formatUlaw, 160, 8000, ⟨1, usec⟩, none, [0xFF]⟩

def writeAt (usec : ℤ) : Writing := ⟨frameAt usec, ⟨1, 0⟩, 0, false, ⟨1, 0⟩, ⟨1, 0⟩⟩

def audio (i : ℕ) : Act :=
  .write ⟨⟨formatUlaw, 160, 8000, ⟨0, 0⟩, none, [0xFF]⟩, ⟨1, 20000 * i⟩, 0, false, ⟨1, 20000 * i⟩,
    ⟨1, 20000 * i⟩⟩

def dialling (n : ℕ) : List Act :=
  .digit (chr '1') 100 :: (range n).map audio ++ .digit (chr '2') 100 :: (range' n 7).map audio

/-- A frame between the digits is enough. -/
theorem digits_end_to_end_apart : ∃ l, Runs (Rtp.step host) anyStep newLine (dialling 8) l ∧
    expected l = [.dtmf (chr '1'), .dtmf (chr '2')] ∧ delivered false l = expected l := by
  obtain ⟨l, hrun, hs, hp, hexpected⟩ :
      ∃ l, Runs (Rtp.step host) (fun l a _ => Safe host false l a) newLine (dialling 8) l ∧
      l.snd.sendevent = 0 ∧ l.snd.payload = 0 ∧ expected l = [.dtmf (chr '1'), .dtmf (chr '2')] :=
    exists_runs_of_exec (by decide +kernel)
  have hany := hrun.mono fun _ _ _ _ => (trivial : anyStep _ _ _)
  exact ⟨l, hany, hexpected,
    (digits_end_to_end host false newLine l (dialling 8) newLine_fresh hany hs hp).mpr hrun⟩

/-- The second of two digits begins 320 samples behind the end of the first one, and is not
received. A digit of half a second is not returned by `process_rfc2833`. -/
theorem second_digit_lost : Fresh newLine ∧
    (∃ l, Runs (Rtp.step host) anyStep newLine (dialling 7) l ∧ l.snd.sendevent = 0 ∧
      l.snd.payload = 0 ∧
      expected l = [.dtmf (chr '1'), .dtmf (chr '2')] ∧ delivered true l = [.dtmf (chr '1')]) ∧
    ∃ l, Runs (Rtp.step host) anyStep newLine (.digit (chr '5') 500 :: (range 27).map audio) l ∧
      l.snd.sendevent = 0 ∧ l.snd.payload = 0 ∧ expected l = [.dtmf (chr '5')] ∧
      delivered false l = [] := by
  refine ⟨newLine_fresh, ?_, ?_⟩
  · exact exists_runs_of_exec (by decide +kernel)
  · exact exists_runs_of_exec (by decide +kernel)

end Runs

end CallWeaver.Rtp
