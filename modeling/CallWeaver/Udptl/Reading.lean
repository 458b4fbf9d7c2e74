import CallWeaver.Udptl.AtMostOnce

/-! # Reading frames from the socket

The frames of a packet are chained up in an array of the session, and a read returns the first
element. A packet from which no frame is made leaves the element as it was, so that the read returns
a frame of an earlier packet again.
-/

namespace CallWeaver.Udptl

open Function List Option

/-- An element of the array `f`: a frame, with the octets it had when it was made, and the index of
the next. -/
structure Entry where
  frame : Frame
  next : Option ℕ
  deriving DecidableEq, Repr

def zeroFrame : Frame := ⟨0, 0, 0, 0, 0, [], 0, ""⟩

def nullFrame : Frame := { zeroFrame with frametype := 5 }

def putFrame (f : ℕ → Entry) (msgNo : ℕ) (frame : Frame) : ℕ → Entry :=
  let f := update f msgNo { f msgNo with frame := frame }
  let f :=
    if msgNo > 0 then update f (msgNo - 1) { f (msgNo - 1) with next := some msgNo } else f
  update f msgNo { f msgNo with next := none }

/-- The elements of `f` that `udptl_rx_packet` fills. -/
def putFrames (f : ℕ → Entry) (msgNo : ℕ) : List Frame → ℕ → Entry
  | [] => f
  | frame :: frames => putFrames (putFrame f msgNo frame) (msgNo + 1) frames

/-- A session in use, with the frames made by each read so far and the pointer that the last one has
returned: to an element of `f`, or else to the null frame. -/
structure Session where
  udptl : CwUdptl
  f : ℕ → Entry
  made : List (List Frame)
  ret : Option ℕ

def Session.new (scheme : ErrorCorrection) (entries span : ℕ) : Session :=
  ⟨cwUdptlNew scheme entries span, fun _ => ⟨zeroFrame, none⟩, [], none⟩

/-- For a packet unless there is an error. What `udptl_rx_packet` returns is ignored. -/
def cwUdptlRead (s : Session) : Option (List UInt8) → Session
  | none => { s with made := s.made ++ [[]], ret := none }
  | some buf =>
    let f := update s.f 0 { s.f 0 with next := none }
    let (udptl, res) := udptlRxPacket s.udptl buf
    let frames := res.getD []
    ⟨udptl, putFrames f 0 frames, s.made ++ [frames], some 0⟩

def readStep (s : Session) (packet : Option (List UInt8)) : Option Session :=
  some (cwUdptlRead s packet)

/-- The frames that a caller finds from an element on. -/
inductive Chain (f : ℕ → Entry) : ℕ → List Frame → Prop where
  | last {i : ℕ} : (f i).next = none → Chain f i [(f i).frame]
  | more {i j : ℕ} {l : List Frame} :
      (f i).next = some j → Chain f j l → Chain f i ((f i).frame :: l)

def Session.Returns (s : Session) (l : List Frame) : Prop :=
  match s.ret with
  | none => l = [nullFrame]
  | some i => Chain s.f i l

def Frame.IsT38 (f : Frame) : Prop := f.frametype = 11 ∧ f.subclass = 1
  deriving Decidable

variable {seqNo ptr : ℕ} {msg : List UInt8}

section Made

variable {s s' : CwUdptl} {buf : List UInt8} {frames : List Frame} {g : Frame}

theorem finish_t38 (hold : ∀ g ∈ frames, g.IsT38)
    (hg : g ∈ ((finish s seqNo msg frames).2).getD []) : g.IsT38 := by
  simp only [finish, getD_some, mem_append] at hg
  rcases hg with hg | hg
  · exact hold g hg
  · split at hg
    · rw [mem_singleton.mp hg]
      exact ⟨rfl, rfl⟩
    · cases hg

theorem rxRedundancy_t38 (hg : g ∈ ((rxRedundancy s buf seqNo msg ptr).2).getD []) : g.IsT38 := by
  simp only [rxRedundancy] at hg
  split at hg
  · cases hg
  · split at hg
    · cases hg
    · refine finish_t38 (fun g hg => ?_) hg
      split at hg
      · obtain ⟨i, -, hi⟩ := mem_filterMap.mp hg
        split at hi
        · rw [← some.inj hi]
          exact ⟨rfl, rfl⟩
        · cases hi
      · cases hg

theorem rxFec_t38 (hg : g ∈ ((rxFec s buf seqNo msg ptr).2).getD []) : g.IsT38 := by
  rcases rxFec_cases s buf seqNo msg ptr with ⟨-, he⟩ | ⟨-, -, he⟩ | ⟨-, -, he⟩
  · rw [he] at hg
    cases hg
  · rw [he] at hg
    refine finish_t38 (fun g hg => ?_) hg
    obtain ⟨p, -, hp⟩ := mem_filterMap.mp hg
    split at hp
    · rw [← some.inj hp]
      exact ⟨rfl, rfl⟩
    · cases hp
  · rw [he] at hg
    cases hg

theorem udptlRxPacket_t38 (hg : g ∈ ((udptlRxPacket s buf).2).getD []) : g.IsT38 := by
  simp only [udptlRxPacket] at hg
  repeat' split at hg
  all_goals first
    | cases hg
    | exact rxRedundancy_t38 hg
    | exact rxFec_t38 hg

end Made

section News

variable {s : CwUdptl} {buf : List UInt8} {frames : List Frame}

def RedundancyNews (s : CwUdptl) (buf : List UInt8) (seqNo ptr : ℕ) : Prop :=
  (decodeSecondaries buf ptr).map Prod.snd = some buf.length ∧ s.rxSeqNo ≤ seqNo

def storeMessage (s : CwUdptl) (seqNo : ℕ) (msg : List UInt8) (span entries : UInt8) : RxBuffer :=
  let r := (missSlots s seqNo).rx (bufMask seqNo)
  { r with
    bufLen := msg.length, buf := memcpy r.buf msg, fecSpan := span.toNat, fecEntries :=
      entries.toNat }

def RepairsOther (s : CwUdptl) (seqNo : ℕ) (span entries : UInt8) (r : RxBuffer) : Prop :=
  ∃ i : ℕ, i < 15 ∧ (repair (bufMask seqNo) span.toNat entries.toNat
    (update (missSlots s seqNo).rx (bufMask seqNo) r,
      update (fun _ => false) (bufMask seqNo) true)).2 (bufMask ((seqNo : ℤ) + 1 + i)) = true

/-- A packet with parity strings is well formed, and not older than expected unless a message can be
repaired with it. -/
def FecNews (s : CwUdptl) (buf msg : List UInt8) (seqNo ptr : ℕ) : Prop :=
  msg.length ≤ localFaxMaxDatagram ∧ match buf[ptr]?, buf[ptr + 1]?, buf[ptr + 2]? with
    | some one, some span, some entries =>
      let d := decodeFec buf entries.toNat 0 (ptr + 3) (storeMessage s seqNo msg span entries)
      one = 1 ∧ d.2 = some buf.length ∧ (s.rxSeqNo ≤ seqNo ∨ RepairsOther s seqNo span entries d.1)
    | _, _, _ => False

def HasNews (s : CwUdptl) (buf : List UInt8) : Prop :=
  match buf with
  | hi :: lo :: _ =>
    match decodeOpenType buf 2 with
    | .error _ => False
    | .ok o =>
      match buf[o.ptr]? with
      | none => False
      | some b =>
        if b &&& 0x80 = 0 then RedundancyNews s buf (hi.toNat <<< 8 ||| lo.toNat) (o.ptr + 1)
        else FecNews s buf (o.bytes buf) (hi.toNat <<< 8 ||| lo.toNat) (o.ptr + 1)
  | _ => False

theorem finish_ne_nil :
    ((finish s seqNo msg frames).2).getD [] ≠ [] ↔ frames ≠ [] ∨ s.rxSeqNo ≤ seqNo := by
  simp only [finish, getD_some, ne_eq, append_eq_nil_iff, not_and_or]
  split_ifs with h <;> simp [h]

theorem rxRedundancy_ne_nil :
    ((rxRedundancy s buf seqNo msg ptr).2).getD [] ≠ [] ↔ RedundancyNews s buf seqNo ptr := by
  unfold rxRedundancy RedundancyNews
  cases decodeSecondaries buf ptr with
  | none => simp
  | some q =>
    simp only [map_some, some_inj]
    split_ifs with hp hseq
    · exact iff_of_false (by simp) fun h => hp h.1
    · rw [finish_ne_nil]
      exact iff_of_true (.inr hseq.le) ⟨not_not.mp hp, hseq.le⟩
    · rw [finish_ne_nil, and_iff_right (not_not.mp hp)]
      simp

theorem playRepaired_ne_nil {t : (ℕ → RxBuffer) × (ℕ → Bool)} :
    playRepaired seqNo (bufMask seqNo) t ≠ [] ↔
      ∃ i : ℕ, i < 15 ∧ t.2 (bufMask ((seqNo : ℤ) + 1 + i)) = true := by
  rw [playRepaired_eq, ne_eq, filterMap_eq_nil_iff]
  simp only [mem_range, not_forall, exists_prop]
  refine exists_congr fun i => and_congr_right fun _ => ?_
  split_ifs with h <;> simp [h]

theorem rxFec_ne_nil :
    ((rxFec s buf seqNo msg ptr).2).getD [] ≠ [] ↔ FecNews s buf msg seqNo ptr := by
  rcases rxFec_cases s buf seqNo msg ptr with ⟨hlong, he⟩ | ⟨hmsg, hsound, he⟩ | ⟨hmsg, hsound, he⟩
  · rw [he]
    exact iff_of_false (by simp) fun h => absurd h.1 (not_le.mpr hlong)
  · obtain ⟨hone, span, entries, hspan, hentries, hend⟩ := hsound
    have hslot : storedSlot s buf seqNo msg ptr =
        (decodeFec buf entries.toNat 0 (ptr + 3) (storeMessage s seqNo msg span entries)).1 := by
      simp only [storedSlot, storeRest, hone, hspan, hentries, ne_eq, not_true_eq_false, if_false]
      rfl
    have hkeep :
        (storeMessage s seqNo msg span entries).KeepsBelow 0 (storedSlot s buf seqNo msg ptr) :=
      hslot ▸ decodeFec_keepsBelow rfl
    rw [he, finish_ne_nil, playRepaired_ne_nil, rxSeqNo_missSlots, FecNews, hone, hspan, hentries]
    simp only [decodeFec_snd, hend, hmsg, ← hslot, true_and, RepairsOther, repairedRing,
      hkeep.fecSpan, hkeep.fecEntries, or_comm]
    refine or_congr ?_ Iff.rfl
    omega
  · rw [he]
    refine iff_of_false (by simp) fun h => ?_
    rw [FecNews] at h
    split at h
    · exact hsound ⟨by simp_all, _, _, ‹_›, ‹_›, decodeFec_snd.symm.trans h.2.2.1⟩
    · exact h.2

theorem udptlRxPacket_ne_nil : ((udptlRxPacket s buf).2).getD [] ≠ [] ↔ HasNews s buf := by
  unfold udptlRxPacket HasNews
  match buf with
  | [] => simp
  | [b] => simp
  | hi :: lo :: bs =>
    cases decodeOpenType (hi :: lo :: bs) 2 with
    | error k => simp
    | ok o =>
      simp only
      cases (hi :: lo :: bs)[o.ptr]? with
      | none => simp
      | some b =>
        simp only
        split_ifs
        · exact rxRedundancy_ne_nil
        · exact rxFec_ne_nil

end News

section Chains

variable {f : ℕ → Entry} {i j k : ℕ} {g : Frame} {frames l l' : List Frame}

theorem Chain.unique (h : Chain f i l) (h' : Chain f i l') : l = l' := by
  induction h generalizing l' with
  | last hnext =>
    cases h' with
    | last _ => rfl
    | more hnext' _ => rw [hnext] at hnext'; cases hnext'
  | more hnext _ ih =>
    cases h' with
    | last hnext' => rw [hnext] at hnext'; cases hnext'
    | more hnext' h' =>
      obtain rfl := some.inj (hnext.symm.trans hnext')
      rw [ih h']

theorem Chain.head_eq (h : Chain f i (g :: l)) : (f i).frame = g := by
  generalize hl : g :: l = l' at h
  cases h with
  | last _ | more _ _ => exact (List.cons.inj hl).1.symm

theorem putFrame_self (f : ℕ → Entry) (k : ℕ) (g : Frame) : putFrame f k g k = ⟨g, none⟩ := by
  simp only [putFrame, update_self]
  split_ifs with hk
  · rw [update_of_ne (by omega), update_self]
  · rw [update_self]

theorem putFrame_pred (f : ℕ → Entry) (k : ℕ) (g : Frame) :
    putFrame f (k + 1) g k = { f k with next := some (k + 1) } := by
  simp [putFrame, update_of_ne]

theorem putFrame_of_lt (h : j + 1 < k) : putFrame f k g j = f j := by
  simp only [putFrame]
  rw [update_of_ne (by omega), if_pos (by omega), update_of_ne (by omega),
    update_of_ne (by omega)]

theorem putFrames_of_lt (h : j + 1 < k) : putFrames f k frames j = f j := by
  induction frames generalizing f k with
  | nil => rfl
  | cons g frames ih => rw [putFrames, ih (by omega), putFrame_of_lt h]

theorem chain_putFrames (f : ℕ → Entry) (k : ℕ) (hne : frames ≠ []) :
    Chain (putFrames f k frames) k frames := by
  induction frames generalizing f k with
  | nil => exact absurd rfl hne
  | cons g frames ih =>
    cases frames with
    | nil =>
      have hself := putFrame_self f k g
      have hchain : Chain (putFrame f k g) k [(putFrame f k g k).frame] := .last (by rw [hself])
      rwa [hself] at hchain
    | cons g' frames =>
      have hentry : putFrames (putFrame f k g) (k + 1) (g' :: frames) k = ⟨g, some (k + 1)⟩ := by
        rw [putFrames, putFrames_of_lt (by omega), putFrame_pred, putFrame_self]
      have hchain := Chain.more (i := k) (by rw [hentry]) (ih (putFrame f k g) (k + 1) (by simp))
      rwa [hentry] at hchain

end Chains

section Runs

variable {s t : Session} {packet : Option (List UInt8)} {packets : List (Option (List UInt8))}

def Session.own (s : Session) : List Frame := s.made.getLast?.getD []

/-- The last read has returned the frames it has made, or no T.38 frame if there are none. -/
def Session.Fresh (s : Session) : Prop :=
  ∃ l, s.Returns l ∧ (s.own ≠ [] → l = s.own) ∧ (s.own = [] → ∀ g ∈ l, ¬ g.IsT38)

/-- The packet is well formed and brings something new, unless no frame has been made before. -/
def Productive (s : Session) : Option (List UInt8) → Prop
  | none => True
  | some buf => (∀ frames ∈ s.made, frames = []) ∨ HasNews s.udptl buf

/-- The first element of the array is a T.38 frame if one has been made. -/
def Session.Holds (s : Session) : Prop :=
  (s.f 0).frame.IsT38 ↔ ∃ frames ∈ s.made, frames ≠ []

variable (scheme : ErrorCorrection) (entries span : ℕ)

theorem holds_new : (Session.new scheme entries span).Holds :=
  iff_of_false (fun h => absurd h.1 (by simp [Session.new, zeroFrame])) (by simp [Session.new])

theorem fresh_new : (Session.new scheme entries span).Fresh := by
  refine ⟨[nullFrame], rfl, by simp [Session.own, Session.new], fun _ g hg => ?_⟩
  rw [mem_singleton.mp hg]
  decide

theorem read_fresh (hs : s.Holds) (h : readStep s packet = some t) :
    t.Holds ∧ (t.Fresh ↔ Productive s packet) := by
  obtain rfl : cwUdptlRead s packet = t := some.inj h
  cases packet with
  | none =>
    refine ⟨?_, iff_of_true ⟨[nullFrame], rfl, ?_, fun _ g hg => ?_⟩ trivial⟩
    · simpa [Session.Holds, cwUdptlRead] using hs
    · simp [Session.own, cwUdptlRead]
    · rw [mem_singleton.mp hg]
      decide
  | some buf =>
    generalize hframes : (udptlRxPacket s.udptl buf).2.getD [] = frames
    have ht38 : ∀ g ∈ frames, g.IsT38 := fun g hg => udptlRxPacket_t38 (hframes ▸ hg)
    have hown : (cwUdptlRead s (some buf)).own = frames := by
      simp [Session.own, cwUdptlRead, hframes]
    have hmade : (cwUdptlRead s (some buf)).made = s.made ++ [frames] := by
      simp [cwUdptlRead, hframes]
    have hf : (cwUdptlRead s (some buf)).f =
        putFrames (update s.f 0 { s.f 0 with next := none }) 0 frames := by
      simp [cwUdptlRead, hframes]
    simp only [Session.Holds, Session.Fresh, Session.Returns, Productive, ← udptlRxPacket_ne_nil,
      hown, hmade, hframes]
    have hret : (cwUdptlRead s (some buf)).ret = some 0 := rfl
    simp only [hret, hf]
    cases frames with
    | nil =>
      -- the first element keeps its frame, and is the end of the chain now
      have hchain : Chain (update s.f 0 { s.f 0 with next := none }) 0 [(s.f 0).frame] := by
        have hlast := Chain.last (f := update s.f 0 { s.f 0 with next := none }) (i := 0) (by simp)
        simpa using hlast
      refine ⟨by simpa [putFrames, Session.Holds] using hs, ?_⟩
      constructor
      · rintro ⟨l, hl, -, hno⟩
        have hnot : ¬ (s.f 0).frame.IsT38 := by
          rw [Chain.unique hl hchain] at hno
          exact hno rfl _ (mem_singleton_self _)
        left
        intro frames hmem
        by_contra hne
        exact hnot (hs.mpr ⟨frames, hmem, hne⟩)
      · rintro (hall | hne)
        · refine ⟨_, hchain, by simp, fun _ g hg => ?_⟩
          rw [mem_singleton.mp hg]
          intro h38
          obtain ⟨frames, hmem, hne⟩ := hs.mp h38
          exact hne (hall frames hmem)
        · exact absurd rfl hne
    | cons g frames =>
      have hchain := chain_putFrames (update s.f 0 { s.f 0 with next := none }) 0
        (show g :: frames ≠ [] by simp)
      refine ⟨iff_of_true ?_ ⟨g :: frames, by simp, by simp⟩,
        iff_of_true ⟨_, hchain, ?_⟩ (.inr (by simp))⟩
      · rw [hchain.head_eq]
        exact ht38 g (by simp)
      · simp

/-- In every session, each read returns the frames of its own packet and of no other one if and only
if, from the first frame on, every packet is well formed and brings something new. -/
theorem read_fresh_iff (scheme : ErrorCorrection) (entries span : ℕ)
    (hr : Runs readStep anyStep (Session.new scheme entries span) packets s) :
    Runs readStep (fun _ _ t => t.Fresh) (Session.new scheme entries span) packets s ↔
      Runs readStep (fun s packet _ => Productive s packet) (Session.new scheme entries span)
      packets s := by
  refine hr.always_iff (I := Session.Holds) (fun s packet t hs _ h _ => read_fresh hs h) ?_ ?_
  · exact holds_new scheme entries span
  · exact fresh_new scheme entries span

/-- An error, and two packets with one message each. -/
theorem read_fresh_iff_two :
    ∃ s, Runs readStep anyStep (Session.new .none 0 0) [none, some [0, 0, 1, 7, 0, 0],
      some [0, 1, 1, 8, 0, 0]] s ∧ (Runs readStep (fun _ _ t => t.Fresh) (Session.new .none 0 0)
          [none, some [0, 0, 1, 7, 0, 0], some [0, 1, 1, 8, 0, 0]] s ↔
        Runs readStep (fun s packet _ => Productive s packet) (Session.new .none 0 0)
          [none, some [0, 0, 1, 7, 0, 0], some [0, 1, 1, 8, 0, 0]] s) :=
  exists_run_of_exec rfl (read_fresh_iff .none 0 0)

/-- The second packet has one octet and is rejected. The read returns the first frame again. -/
theorem rejected_packet_repeats :
    ∃ s, Runs readStep anyStep (Session.new .none 0 0) [some [0, 0, 1, 7, 0, 0], some [1]] s ∧
      s.made = [[t38Frame 0 [7]], []] ∧ s.Returns [t38Frame 0 [7]] ∧ ¬ s.Fresh := by
  apply exists_run_of_any (P := fun s => s.made = [[t38Frame 0 [7]], []] ∧
    s.f 0 = ⟨t38Frame 0 [7], none⟩ ∧ s.ret = some 0)
  · decide +kernel
  · rintro s - ⟨hmade, hfirst, hret⟩
    have hreturns : s.Returns [t38Frame 0 [7]] := by
      simp only [Session.Returns, hret]
      have hlast := Chain.last (f := s.f) (i := 0) (by rw [hfirst])
      rwa [hfirst] at hlast
    refine ⟨hmade, hreturns, ?_⟩
    rintro ⟨l, hl, -, hno⟩
    simp only [Session.Returns, hret] at hl hreturns
    rw [Chain.unique hl hreturns] at hno
    exact hno (by simp [Session.own, hmade]) _ (mem_singleton_self _) ⟨rfl, rfl⟩

end Runs

end CallWeaver.Udptl
