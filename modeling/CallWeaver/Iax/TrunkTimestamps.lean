import CallWeaver.Iax.Trunk

/-! # Timestamps over a trunk

The receiver of a trunk keeps the latest timestamp of a call as it was put together, not as it was
unwrapped. When a call enters a new period of 65536 milliseconds, the latest one stays in the old
period, and only frames of the next 15536 milliseconds get their own timestamps.
-/

namespace CallWeaver.Iax.Trunk

open List Function

section Entries

def Voice.trunked (fr : Voice) : Voice := { fr with ts := fr.ts % 65536 }

/-- The fields of an entry hold the call number and the length of the frame. -/
def Voice.Fits (fr : Voice) : Prop := fr.callno < 0x8000 ∧ fr.data.length < 65536
  deriving Decidable

/-- A frame as the receiver reads it from its entry. -/
def Voice.carried (timestamps : Bool) (fr : Voice) : Voice :=
  { fr with ts := if timestamps then fr.ts % 65536 else 0 }

variable {fr : Voice} {frs : List Voice} {fuel : ℕ} {timestamps : Bool}

theorem readEntries_cons (h : fr.Fits) (bytes : List UInt8) :
    readEntries (metaTrunkFormat timestamps) (fuel + 1) (trunkEntry timestamps fr ++ bytes) =
      fr.carried timestamps :: readEntries (metaTrunkFormat timestamps) fuel bytes := by
  obtain ⟨hcallno, hdata⟩ := h
  have hlow : 0xFFFF &&& fr.ts = fr.ts % 65536 := by rw [Nat.and_comm, and_low]
  have hlen : fr.data.length % 65536 = fr.data.length := Nat.mod_eq_of_lt hdata
  have hno : fr.callno % 65536 = fr.callno := Nat.mod_eq_of_lt (by omega)
  cases timestamps <;>
    simp [readEntries, trunkEntry, metaTrunkFormat, htons, Voice.carried, hlow, hlen, hno]

theorem readEntries_flatMap (h : ∀ fr ∈ frs, fr.Fits) (hfuel : frs.length ≤ fuel) :
    readEntries (metaTrunkFormat timestamps) fuel (frs.flatMap (trunkEntry timestamps)) =
      frs.map (Voice.carried timestamps) := by
  induction frs generalizing fuel with
  | nil => cases fuel <;> cases timestamps <;> rfl
  | cons fr frs ih =>
    cases fuel with
    | zero => simp at hfuel
    | succ fuel =>
      rw [forall_mem_cons] at h
      rw [flatMap_cons, readEntries_cons h.1, ih h.2 (by simpa using hfuel), map_cons]

theorem length_le_flatMap (timestamps : Bool) (frs : List Voice) :
    frs.length ≤ (frs.flatMap (trunkEntry timestamps)).length := by
  induction frs with
  | nil => simp
  | cons fr frs ih =>
    have hpos : 4 ≤ entryHdr timestamps := by cases timestamps <;> decide
    simp only [flatMap_cons, length_cons, length_append, length_trunkEntry]
    omega

end Entries

section Unwrapping

variable {last ts prev t : ℕ} {a : Arrival} {call : RxCall}

theorem unwrapTimestamp_eq (hlast : last < 4294967296) (hts : ts < 4294967296) :
    unwrapTimestamp last ts =
      if ts / 65536 = last / 65536 then
        if ts + 50000 < last then (last / 65536 + 1) % 65536 * 65536 + ts % 65536
        else if last + 50000 < ts then (last / 65536 + 65535) % 65536 * 65536 + ts % 65536
        else ts
      else ts := by
  have hperiod : ts / 65536 * 65536 = last / 65536 * 65536 ↔ ts / 65536 = last / 65536 := by omega
  simp only [unwrapTimestamp, and_high hlast, and_high hts, and_low, hperiod]
  by_cases heq : ts / 65536 = last / 65536
  · have hx : ((ts : ℤ) - last).bmod 4294967296 = ts - last := by
      apply Int.bmod_eq_of_le <;> omega
    have hup :
        (last / 65536 * 65536 + 65536) % 4294967296 = (last / 65536 + 1) % 65536 * 65536 := by
      omega
    have hdown : (last / 65536 * 65536 + 4294967296 - 65536) % 4294967296 =
        (last / 65536 + 65535) % 65536 * 65536 := by
      omega
    have hlow : ts % 65536 < 65536 := Nat.mod_lt _ (by decide)
    have hback : (ts : ℤ) - last < -50000 ↔ ts + 50000 < last := by omega
    have hforth : (ts : ℤ) - last > 50000 ↔ last + 50000 < ts := by omega
    simp only [if_pos heq, hx, hup, hdown, high_or_low _ hlow, hback, hforth]
  · rw [if_neg heq, if_neg heq]

/-- A timestamp is put together from its low half and the high half of the latest one, if less than
15536 milliseconds lie between the two. -/
theorem unwrapTimestamp_exact {t : ℕ} (ht : t < 2147483648) (hlast : last < 2147483648)
    (hforth : t < last + 15536) (hback : last < t + 15536) :
    unwrapTimestamp last (last &&& 0xFFFF0000 ||| t &&& 0xFFFF) = t := by
  have hlow : t % 65536 < 65536 := Nat.mod_lt _ (by decide)
  rw [and_high (by omega), and_low, high_or_low _ hlow, unwrapTimestamp_eq (by omega) (by omega)]
  -- the period of `t` is that of `last`, the next one or the one before
  obtain h | h | h : t / 65536 = last / 65536 ∨ t / 65536 = last / 65536 + 1 ∨
    t / 65536 + 1 = last / 65536 := by omega
  · split_ifs <;> omega
  · split_ifs <;> omega
  · split_ifs <;> omega

theorem unwrapTimestamp_exact_wrapped :
    unwrapTimestamp 65530 (65530 &&& 0xFFFF0000 ||| 65546 &&& 0xFFFF) = 65546 ∧
      unwrapTimestamp 65546 (65546 &&& 0xFFFF0000 ||| 65530 &&& 0xFFFF) = 65530 :=
  ⟨unwrapTimestamp_exact (by decide) (by decide) (by decide) (by decide),
    unwrapTimestamp_exact (by decide) (by decide) (by decide) (by decide)⟩

def InTime (last prev : ℕ) : Prop := last ≤ prev ∧ prev < last + 15536

def Unwraps (last ts t : ℕ) : Prop :=
  ts = t ∨ ts + 65536 = t ∧ t / 65536 = last / 65536 + 1 ∧ t < last + 15536

theorem unwrapTimestamp_eq_iff (hlast : last < 4294967296) (hts : ts < 4294967296)
    (ht : t < 4294967296) (h : InTime last prev) (hprev : prev ≤ t) (hstep : t < prev + 10000) :
    unwrapTimestamp last ts = t ↔ Unwraps last ts t := by
  unfold InTime at h
  rw [unwrapTimestamp_eq hlast hts, Unwraps]
  split_ifs <;> omega

theorem Unwraps.inTime (h : Unwraps last ts t) (hlt : last ≤ t) : InTime (max last ts) t := by
  unfold InTime
  unfold Unwraps at h
  omega

/-- When a frame with the timestamp `t` gets it back. With a low half that is not zero, `t` lies in
the period of the latest timestamp, or in the next one and less than 15536 milliseconds behind it.
Otherwise the clock of the trunk gives `t`, or the same one period earlier under that condition. -/
def Recovered (a : Arrival) (call : RxCall) (t : ℕ) : Prop :=
  if t % 65536 ≠ 0 then
    t / 65536 = call.last / 65536 ∨ t / 65536 = call.last / 65536 + 1 ∧ t < call.last + 15536
  else
    (fixPeerts a.rxtrunktime call a.ts a.now).2 = t ∨
      (fixPeerts a.rxtrunktime call a.ts a.now).2 + 65536 = t ∧ t / 65536 = call.last / 65536 + 1 ∧
        t < call.last + 15536
  deriving Decidable

theorem toUnsigned_lt (n : ℤ) : toUnsigned n < 4294967296 := by
  unfold toUnsigned
  omega

theorem entryTs_lt (hlast : call.last < 4294967296) (t : ℕ) :
    (entryTs a call (t % 65536)).2 < 4294967296 := by
  unfold entryTs
  split
  · rw [and_high hlast, and_low, high_or_low _ (Nat.mod_lt _ (by decide))]
    omega
  · exact toUnsigned_lt _

theorem recovered_iff (hlast : call.last < 4294967296) (t : ℕ) :
    Recovered a call t ↔ Unwraps call.last (entryTs a call (t % 65536)).2 t := by
  unfold Recovered Unwraps entryTs
  by_cases hzero : t % 65536 ≠ 0
  · rw [if_pos hzero, if_pos hzero, and_high hlast, and_low,
      high_or_low _ (Nat.mod_lt _ (by decide))]
    omega
  · rw [if_neg hzero, if_neg hzero]

end Unwrapping

section Calls

variable {n : ℕ} {a : Arrival} {call : RxCall} {calls : ℕ → Option RxCall} {fr e : Voice}

structure RxCall.Ready (call : RxCall) : Prop where
  started : call.started = true
  voiceformat : call.voiceformat > 0
  last : call.last < 4294967296

theorem entryTs_call (a : Arrival) (call : RxCall) (t : ℕ) :
    (entryTs a call t).1.started = call.started ∧
      (entryTs a call t).1.voiceformat = call.voiceformat ∧
      (entryTs a call t).1.last = call.last := by
  unfold entryTs fixPeerts
  split
  · exact ⟨rfl, rfl, rfl⟩
  · split <;> exact ⟨rfl, rfl, rfl⟩

theorem takeEntry_ready (h : call.Ready) (t : ℕ) :
    ∃ call', takeEntry a call (t % 65536) =
        (call', some (unwrapTimestamp call.last (entryTs a call (t % 65536)).2)) ∧
      call'.Ready ∧ call'.last = max call.last (entryTs a call (t % 65536)).2 := by
  have hlt := entryTs_lt (a := a) h.last t
  have hcall := entryTs_call a call (t % 65536)
  rw [takeEntry, if_pos h.voiceformat]
  generalize entryTs a call (t % 65536) = p at hlt hcall
  obtain ⟨new, ts⟩ := p
  obtain ⟨hstarted, hformat, hlast⟩ := hcall
  dsimp only at hlt hstarted hformat hlast ⊢
  have hready : new.Ready := by
    constructor
    · exact hstarted.trans h.started
    · exact lt_of_lt_of_eq h.voiceformat hformat.symm
    · exact lt_of_eq_of_lt hlast h.last
  rw [if_pos hready.started, hlast]
  by_cases hless : call.last < ts
  · rw [if_pos hless]
    exact ⟨_, rfl, { hready with last := hlt }, (max_eq_right (le_of_lt hless)).symm⟩
  · rw [if_neg hless]
    exact ⟨_, rfl, hready, by rw [hlast, max_eq_left (not_lt.mp hless)]⟩

def ofCall (n : ℕ) (frs : List Voice) : List Voice := frs.filter (·.callno = n)

@[simp] theorem ofCall_nil (n : ℕ) : ofCall n [] = [] := rfl

@[simp] theorem ofCall_append (n : ℕ) (frs frs' : List Voice) :
    ofCall n (frs ++ frs') = ofCall n frs ++ ofCall n frs' := filter_append ..

theorem ofCall_cons_self (h : fr.callno = n) (frs : List Voice) :
    ofCall n (fr :: frs) = fr :: ofCall n frs := filter_cons_of_pos (by simpa using h)

theorem ofCall_cons_ne (h : fr.callno ≠ n) (frs : List Voice) :
    ofCall n (fr :: frs) = ofCall n frs := filter_cons_of_neg (by simpa using h)

theorem callno_eq (h : n < 0x8000) : n &&& 0x7FFF = n := by
  rw [Nat.and_two_pow_sub_one_eq_mod _ 15]
  exact Nat.mod_eq_of_lt h

theorem deliverEntry_ne (calls : ℕ → Option RxCall) (hfit : fr.Fits) (hne : fr.callno ≠ n) :
    (deliverEntry a calls fr.trunked).1 n = calls n ∧
      ofCall n (deliverEntry a calls fr.trunked).2.toList = [] := by
  have hno : fr.trunked.callno &&& 0x7FFF = fr.callno := callno_eq hfit.1
  simp only [deliverEntry, hno]
  cases calls fr.callno with
  | none => exact ⟨rfl, rfl⟩
  | some call =>
    dsimp only
    generalize takeEntry a call fr.trunked.ts = p
    obtain ⟨call', ts⟩ := p
    constructor
    · exact update_of_ne hne.symm _ _
    · cases ts with
      | none => rfl
      | some ts => exact filter_cons_of_neg (by simpa using hne)

theorem deliverEntry_known (hno : e.callno < 0x8000) (hts : e.ts < 65536) (hready : call.Ready)
    (hcall : calls e.callno = some call) :
    ∃ call', deliverEntry a calls e = (update calls e.callno (some call'),
        some { e with ts := unwrapTimestamp call.last (entryTs a call e.ts).2 }) ∧
      call'.Ready ∧ call'.last = max call.last (entryTs a call e.ts).2 := by
  obtain ⟨call', htake, hready', hlast⟩ := takeEntry_ready (a := a) hready e.ts
  rw [Nat.mod_eq_of_lt hts] at htake hlast
  refine ⟨call', ?_, hready', hlast⟩
  simp [deliverEntry, callno_eq hno, hcall, htake]

theorem deliverEntry_self (hfit : fr.Fits) (hready : call.Ready)
    (hcall : calls fr.callno = some call) :
    ∃ call', (deliverEntry a calls fr.trunked).1 fr.callno = some call' ∧ call'.Ready ∧
      call'.last = max call.last (entryTs a call (fr.ts % 65536)).2 ∧
      ofCall fr.callno (deliverEntry a calls fr.trunked).2.toList =
        [{ fr with ts := unwrapTimestamp call.last (entryTs a call (fr.ts % 65536)).2 }] := by
  obtain ⟨call', hdeliver, hready', hlast⟩ := deliverEntry_known (e := fr.trunked) (a := a) hfit.1
    (Nat.mod_lt _ (by decide)) hready hcall
  rw [hdeliver]
  exact ⟨call', update_self .., hready', hlast, ofCall_cons_self rfl []⟩

end Calls

section Packets

variable {n t : ℕ} {a : Arrival} {call : RxCall} {calls : ℕ → Option RxCall} {frs frs' : List Voice}

def lastTs : ℕ → List Voice → ℕ
  | t, [] => t
  | _, fr :: frs => lastTs fr.ts frs

theorem lastTs_append (t : ℕ) (frs frs' : List Voice) :
    lastTs t (frs ++ frs') = lastTs (lastTs t frs) frs' := by
  induction frs generalizing t with
  | nil => rfl
  | cons fr frs ih => exact ih fr.ts

def Growing : ℕ → List Voice → Prop
  | _, [] => True
  | t, fr :: frs => (t ≤ fr.ts ∧ fr.ts < t + 10000 ∧ fr.ts < 4294967296) ∧ Growing fr.ts frs

instance decidableGrowing : (t : ℕ) → (frs : List Voice) → Decidable (Growing t frs)
  | _, [] => inferInstanceAs (Decidable True)
  | _, fr :: frs =>
    have := decidableGrowing fr.ts frs
    inferInstanceAs (Decidable (_ ∧ _))

theorem growing_append : Growing t (frs ++ frs') ↔ Growing t frs ∧ Growing (lastTs t frs) frs' := by
  induction frs generalizing t with
  | nil => simp [Growing, lastTs]
  | cons fr frs ih => simp only [cons_append, Growing, ih, lastTs, and_assoc]

def Timed (n : ℕ) (a : Arrival) : (ℕ → Option RxCall) → List Voice → Prop
  | _, [] => True
  | calls, fr :: frs => (fr.callno = n → ∀ call ∈ calls n, Recovered a call fr.ts) ∧
      Timed n a (deliverEntry a calls fr.trunked).1 frs

/-- A packet brings all frames of the call, unchanged if and only if each gets its timestamp back.
-/
theorem deliverEntries_spec (hfit : ∀ fr ∈ frs, fr.Fits) (hcall : calls n = some call)
    (hready : call.Ready) :
    ∃ call' out, (deliverEntries a calls (frs.map Voice.trunked)).1 n = some call' ∧ call'.Ready ∧
      ofCall n (deliverEntries a calls (frs.map Voice.trunked)).2 = out ∧
      out.length = (ofCall n frs).length ∧
      (InTime call.last t → Growing t (ofCall n frs) → (out = ofCall n frs ↔ Timed n a calls frs) ∧
        (Timed n a calls frs → InTime call'.last (lastTs t (ofCall n frs)))) := by
  induction frs generalizing calls call t with
  | nil =>
    exact ⟨call, [], hcall, hready, rfl, rfl, fun htime _ =>
      ⟨iff_of_true rfl trivial, fun _ => htime⟩⟩
  | cons fr frs ih =>
    rw [forall_mem_cons] at hfit
    simp only [map_cons, deliverEntries, ofCall_append, Timed]
    by_cases hn : fr.callno = n
    · subst hn
      obtain ⟨call₁, hcall₁, hready₁, hlast, hout⟩ := deliverEntry_self (a := a) hfit.1 hready hcall
      obtain ⟨call', out, hcall', hready', hrest, hlen, hiff⟩ := @ih fr.ts _ _ hfit.2 hcall₁ hready₁
      rw [ofCall_cons_self rfl, hout, hrest]
      refine ⟨call', _, hcall', hready', rfl, by simp [hlen], ?_⟩
      rintro htime ⟨⟨hle, hlt, hmax⟩, hgrow⟩
      have hrec : unwrapTimestamp call.last (entryTs a call (fr.ts % 65536)).2 = fr.ts ↔
          Recovered a call fr.ts := by
        rw [recovered_iff hready.last]
        exact unwrapTimestamp_eq_iff hready.last (entryTs_lt hready.last _) hmax htime hle hlt
      have hhead : (fr.callno = fr.callno → ∀ call ∈ calls fr.callno, Recovered a call fr.ts) ↔
          Recovered a call fr.ts := by
        simp [hcall]
      rw [hhead, ← hrec]
      by_cases hts : unwrapTimestamp call.last (entryTs a call (fr.ts % 65536)).2 = fr.ts
      · have htime' : InTime call₁.last fr.ts := by
          rw [hlast]
          exact ((recovered_iff hready.last _).mp (hrec.mp hts)).inTime (htime.1.trans hle)
        obtain ⟨hiff, hend⟩ := hiff htime' hgrow
        rw [hts]
        exact ⟨by simp [hiff], fun h => hend h.2⟩
      · constructor
        · constructor
          · intro heq
            exact absurd (congrArg Voice.ts (cons_eq_cons.mp heq).1) hts
          · exact fun h => absurd h.1 hts
        · exact fun h => absurd h.1 hts
    · obtain ⟨hsame, hout⟩ := deliverEntry_ne (a := a) calls hfit.1 hn
      rw [ofCall_cons_ne hn, hout]
      obtain ⟨call', out, hcall', hready', hrest, hlen, hiff⟩ :=
        @ih t _ _ hfit.2 (hsame.trans hcall) hready
      refine ⟨call', out, hcall', hready', hrest, hlen, fun htime hgrow => ?_⟩
      obtain ⟨hiff, hend⟩ := hiff htime hgrow
      exact ⟨hiff.trans (and_iff_right fun h => absurd h hn).symm, fun h => hend h.2⟩

end Packets

variable {tpeer tpeer' : TrunkPeer} {fr : Voice}

section Runs

variable {n first ts last : ℕ} {trunkfreq : ℤ} {s t : Session} {op : Op} {ops : List Op}
  {timestamps memory : Bool}

/-- The frames fit into an entry and the packets into the buffer, so that nothing is lost. The
timestamps of the call grow from the given one on. -/
def Allowed (n first : ℕ) (s : Session) (op : Op) (_ : Session) : Prop :=
  match op with
  | .queue fr _ =>
    fr.Fits ∧ (fr.callno = n → Growing (lastTs first (ofCall n (s.sent ++ s.queued))) [fr])
  | .send _ _ => 8 + s.tpeer.trunkdata.length ≤ bufSize

instance (n first : ℕ) (s : Session) (op : Op) (t : Session) : Decidable (Allowed n first s op t) :=
  match op with
  | .queue _ _ => inferInstanceAs (Decidable (_ ∧ _))
  | .send _ _ => inferInstanceAs (Decidable (_ ≤ _))

/-- The call is up, its latest timestamp is the given one, and nothing is on the way. -/
structure Session.Fresh (n first : ℕ) (s : Session) : Prop where
  trunkdata : s.tpeer.trunkdata = []
  queued : s.queued = []
  sent : s.sent = []
  delivered : s.delivered = []
  call : ∃ call, s.receiver.calls n = some call ∧ call.Ready ∧ call.last = first

def Session.arrival (trunkfreq : ℤ) (s : Session) (now arrival : Timeval) : Arrival :=
  let ts := (calcTxpeerstamp s.tpeer trunkfreq now).2
  ⟨if ts = 0 ∨ cwTvzero s.receiver.rxtrunktime then arrival else s.receiver.rxtrunktime,
    ts, arrival⟩

/-- A packet in which every frame of the call gets its timestamp back. -/
def InStep (trunkfreq : ℤ) (n : ℕ) (s : Session) (op : Op) (_ : Session) : Prop :=
  match op with
  | .queue _ _ => True
  | .send now arrival => Timed n (s.arrival trunkfreq now arrival) s.receiver.calls s.queued

structure Linked (n first : ℕ) (s : Session) : Prop where
  trunkdata : s.tpeer.trunkdata = s.queued.flatMap (trunkEntry true)
  fits : ∀ fr ∈ s.queued, fr.Fits
  ready : ∃ call, s.receiver.calls n = some call ∧ call.Ready
  count : (ofCall n s.delivered).length = (ofCall n s.sent).length
  inTime : ofCall n s.delivered = ofCall n s.sent →
    ∀ call ∈ s.receiver.calls n, InTime call.last (lastTs first (ofCall n s.sent))
  growing : Growing (lastTs first (ofCall n s.sent)) (ofCall n s.queued)

theorem Session.Fresh.linked (h : s.Fresh n first) : Linked n first s := by
  obtain ⟨hdata, hqueued, hsent, hdelivered, call, hcall, hready, hlast⟩ := h
  constructor
  · simp [hdata, hqueued]
  · simp [hqueued]
  · exact ⟨call, hcall, hready⟩
  · simp [hsent, hdelivered]
  · rintro - call' hcall'
    obtain rfl := Option.some.inj (hcall.symm.trans hcall')
    rw [hsent, hlast]
    exact ⟨le_refl _, by simp [lastTs]⟩
  · simp [hqueued, Growing]

theorem iax2TrunkQueue_trunkdata (h : iax2TrunkQueue timestamps memory tpeer fr = some tpeer') :
    tpeer'.trunkdata = tpeer.trunkdata ++ trunkEntry timestamps fr := by
  rcases iax2TrunkQueue_cases timestamps memory tpeer fr with ⟨hnone, -⟩ | ⟨alloc, calls, hsome, -⟩
  · rw [hnone] at h
    cases h
  · grind

theorem calcTxpeerstamp_trunkdata (tpeer : TrunkPeer) (sampms : ℤ) (tv : Timeval) :
    (calcTxpeerstamp tpeer sampms tv).1.trunkdata = tpeer.trunkdata := by
  unfold calcTxpeerstamp
  dsimp only
  split <;> rfl

theorem calcTxpeerstamp_lt (tpeer : TrunkPeer) (sampms : ℤ) (tv : Timeval) :
    (calcTxpeerstamp tpeer sampms tv).2 < 4294967296 := toUnsigned_lt _

/-- The entries that the loop of `socket_read` takes out of a packet. -/
def extracted (packet : List UInt8) : List Voice :=
  match packet.take bufSize with
  | z₁ :: z₀ :: metacmd :: cmddata :: _ :: _ :: _ :: _ :: bytes =>
    if ntohs z₁ z₀ = 0 ∧ metacmd = metaTrunk then readEntries cmddata bytes.length bytes else []
  | _ => []

def packetOf (timestamps : Bool) (ts : ℕ) (bytes : List UInt8) : List UInt8 :=
  htons 0 ++ [metaTrunk, metaTrunkFormat timestamps] ++ htonl ts ++ bytes

theorem extracted_packetOf (timestamps : Bool) (ts : ℕ) (bytes : List UInt8) :
    extracted (packetOf timestamps ts bytes) = readEntries (metaTrunkFormat timestamps)
      (bytes.take (bufSize - 8)).length (bytes.take (bufSize - 8)) := by
  have htake : (packetOf timestamps ts bytes).take bufSize =
      packetOf timestamps ts (bytes.take (bufSize - 8)) := by
    simp [packetOf, bufSize, htons, htonl]
  rw [extracted, htake]
  simp [packetOf, htons, htonl, ntohs]

theorem socketRead_packetOf (hts : ts < 4294967296) (r : Receiver) (timestamps : Bool)
    (bytes : List UInt8) (now : Timeval) :
    socketRead r (packetOf timestamps ts bytes) now =
      let rxtrunktime := if ts = 0 ∨ cwTvzero r.rxtrunktime then now else r.rxtrunktime
      let out :=
        deliverEntries ⟨rxtrunktime, ts, now⟩ r.calls (extracted (packetOf timestamps ts bytes))
      ({ rxtrunktime := rxtrunktime, trunkact := now, calls := out.1 }, out.2) := by
  have hntohl : ntohl (UInt8.ofNat (ts / 65536 / 256)) (UInt8.ofNat (ts / 65536))
      (UInt8.ofNat (ts / 256)) (UInt8.ofNat ts) = ts := by
    rw [ntohl, ntohs_htons, ntohs_htons]
    omega
  rw [extracted_packetOf]
  simp [socketRead, packetOf, bufSize, htonl, htons, hntohl, ntohs]

theorem Linked.queue (hi : Linked n first s)
    (hdata : tpeer.trunkdata = s.tpeer.trunkdata ++ trunkEntry true fr)
    (ha : Allowed n first s (.queue fr memory) t) :
    Linked n first { s with tpeer := tpeer, queued := s.queued ++ [fr] } := by
  obtain ⟨hfit, hgrow⟩ := ha
  constructor
  · rw [hdata, hi.trunkdata]
    simp
  · intro fr' hfr'
    obtain hfr' | hfr' := mem_append.mp hfr'
    · exact hi.fits fr' hfr'
    · rwa [mem_singleton.mp hfr']
  · exact hi.ready
  · exact hi.count
  · exact hi.inTime
  · by_cases hn : fr.callno = n
    · have hgrow := hgrow hn
      rw [ofCall_append, lastTs_append] at hgrow
      rw [ofCall_append, growing_append, ofCall_cons_self hn]
      exact ⟨hi.growing, hgrow⟩
    · rw [ofCall_append, ofCall_cons_ne hn, ofCall_nil, append_nil]
      exact hi.growing

theorem Linked.send {receiver : Receiver} {a : Arrival} {out : List Voice} (hi : Linked n first s)
    (hdata : tpeer.trunkdata = [])
    (hd : deliverEntries a s.receiver.calls (s.queued.map Voice.trunked) = (receiver.calls, out)) :
    Linked n first ⟨tpeer, receiver, [], s.sent ++ s.queued, s.delivered ++ out⟩ ∧
      (ofCall n (s.delivered ++ out) = ofCall n (s.sent ++ s.queued) ↔
        ofCall n s.delivered = ofCall n s.sent ∧ Timed n a s.receiver.calls s.queued) := by
  obtain ⟨call, hcall, hready⟩ := hi.ready
  obtain ⟨call', _, hcall', hready', rfl, hcount, hpacket⟩ := @deliverEntries_spec n
    (lastTs first (ofCall n s.sent)) a call s.receiver.calls s.queued hi.fits hcall hready
  simp only [hd] at hcall' hcount hpacket
  have hsplit : ofCall n (s.delivered ++ out) = ofCall n (s.sent ++ s.queued) ↔
      ofCall n s.delivered = ofCall n s.sent ∧ ofCall n out = ofCall n s.queued := by
    rw [ofCall_append, ofCall_append]
    constructor
    · exact fun heq => append_inj heq hi.count
    · rintro ⟨hbefore, hnew⟩
      rw [hbefore, hnew]
  constructor
  · constructor
    · exact hdata
    · simp
    · exact ⟨call', hcall', hready'⟩
    · simp only [ofCall_append, length_append, hi.count, hcount]
    · intro heq
      obtain ⟨hbefore, hnew⟩ := hsplit.mp heq
      obtain ⟨hiff, hend⟩ := hpacket (hi.inTime hbefore call hcall) hi.growing
      rw [hcall', ofCall_append, lastTs_append]
      rintro _ ⟨⟩
      exact hend (hiff.mp hnew)
    · simp [Growing]
  · rw [hsplit]
    exact and_congr_right fun hbefore => (hpacket (hi.inTime hbefore call hcall) hi.growing).1

/-- A frame is queued or lost, or all queued frames are sent in one packet. -/
theorem linked_step (hi : Linked n first s) (h : step trunkfreq s op = some t)
    (ha : Allowed n first s op t) : Linked n first t ∧ (ofCall n t.delivered = ofCall n t.sent ↔
      ofCall n s.delivered = ofCall n s.sent ∧ InStep trunkfreq n s op t) := by
  cases op with
  | queue fr memory =>
    rw [step] at h
    cases hq : iax2TrunkQueue true memory s.tpeer fr with
    | none =>
      rw [hq] at h
      cases h
      exact ⟨hi, by simp [InStep]⟩
    | some tpeer =>
      rw [hq] at h
      cases h
      exact ⟨hi.queue (iax2TrunkQueue_trunkdata hq) ha, by simp [InStep]⟩
  | send now arrival =>
    rw [step, sendTrunk] at h
    have hle := length_le_flatMap true s.queued
    rw [← hi.trunkdata] at hle
    by_cases hempty : s.tpeer.trunkdata.length ≠ 0
    · have hread := socketRead_packetOf (calcTxpeerstamp_lt s.tpeer trunkfreq now) s.receiver true
        s.tpeer.trunkdata arrival
      rw [extracted_packetOf, take_of_length_le (Nat.le_sub_of_add_le' ha)] at hread
      nth_rewrite 3 [hi.trunkdata] at hread
      rw [readEntries_flatMap hi.fits hle] at hread
      rw [if_pos hempty] at h
      dsimp only at h
      rw [calcTxpeerstamp_trunkdata, ← packetOf, hread] at h
      cases h
      exact hi.send rfl rfl
    · have hq : s.queued = [] := eq_nil_of_length_eq_zero (by omega)
      rw [if_neg hempty] at h
      cases h
      exact ⟨hi, by simp [InStep, hq, Timed]⟩

theorem trunk_timestamps_iff (hs : s.Fresh n first)
    (h : Runs (step trunkfreq) (Allowed n first) s ops t) : ofCall n t.delivered = ofCall n t.sent ↔
      Runs (step trunkfreq) (fun s op t => Allowed n first s op t ∧ InStep trunkfreq n s op t)
      s ops t := by
  have hiff :=
    h.iff_all (I := Linked n first) (P := fun s => ofCall n s.delivered = ofCall n s.sent)
    (C := InStep trunkfreq n) (fun _ _ _ => linked_step) hs.linked
  rw [hiff, hs.delivered, hs.sent, and_iff_right rfl]

def Session.oneCall (last : ℕ) : Session :=
  { tpeer := newTpeer ⟨1000, 0⟩
    receiver := ⟨⟨0, 0⟩, ⟨0, 0⟩, fun n => if n = 5 then some ⟨4, true, last, ⟨1000, 0⟩⟩ else none⟩
    queued := [], sent := [], delivered := [] }

theorem Session.oneCall_fresh (h : last < 4294967296) : (Session.oneCall last).Fresh 5 last :=
  ⟨rfl, rfl, rfl, rfl, _, rfl, ⟨rfl, four_pos, h⟩, rfl⟩

def exchange (ts : ℕ) (sec : ℤ) : List Op :=
  [.queue ⟨5, ts, [1]⟩ true, .send ⟨sec, 0⟩ ⟨sec, 0⟩]

/-- The first frame of a new period gets its timestamp. -/
theorem trunk_timestamps_iff_next_period : ∃ t,
    Runs (step 20) (Allowed 5 60000) (.oneCall 60000) (exchange 69000 1009) t ∧
      t.delivered = [⟨5, 69000, [1]⟩] ∧ (ofCall 5 t.delivered = ofCall 5 t.sent ↔
        Runs (step 20) (fun s op t => Allowed 5 60000 s op t ∧ InStep 20 5 s op t) (.oneCall 60000)
          (exchange 69000 1009) t) :=
  exists_run_of_any (P := fun t => t.delivered = [⟨5, 69000, [1]⟩]) (by decide +kernel)
    fun _ hr hdelivered =>
    ⟨hdelivered, trunk_timestamps_iff (Session.oneCall_fresh (by decide)) hr⟩

/-- The second one is more than 15536 milliseconds behind the timestamp that the receiver keeps, and
gets one of the old period. -/
theorem second_frame_falls_back : ∃ t,
    Runs (step 20) (Allowed 5 60000) (.oneCall 60000) (exchange 69000 1009 ++ exchange 78000 1018)
      t ∧ ofCall 5 t.sent = [⟨5, 69000, [1]⟩, ⟨5, 78000, [1]⟩] ∧
      ofCall 5 t.delivered = [⟨5, 69000, [1]⟩, ⟨5, 12464, [1]⟩] :=
  exists_runs_of_exec (by decide +kernel)

end Runs

end CallWeaver.Iax.Trunk
