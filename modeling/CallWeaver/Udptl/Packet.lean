import CallWeaver.Core.Strings
import CallWeaver.Udptl.Codec

/-! # UDPTL packets

A UDPTL packet carries a numbered message and, for the recovery of lost ones, either the preceding
messages again or the exclusive or of groups of them. Both ends keep the last sixteen messages in a
ring. The settings of the configuration file are cut to the limits of the error correction, and a
packet is built in a local buffer as large as the largest message.
-/

namespace CallWeaver.Udptl

open Function List

/-- `UDPTL_ERROR_CORRECTION_NONE` and its siblings -/
inductive ErrorCorrection where
  | none
  | fec
  | redundancy
  deriving DecidableEq, Repr

def localFaxMaxDatagram : ℕ := 400

def bufMask (n : ℤ) : ℕ := (n % 16).toNat

/-- `udptl_fec_tx_buffer_t` -/
structure TxBuffer where
  bufLen : ℤ
  buf : List UInt8

/-- `udptl_fec_rx_buffer_t`. The arrays of parity strings have four elements; what lies beyond them
is outside of the buffer. -/
structure RxBuffer where
  bufLen : ℤ
  buf : List UInt8
  fecLen : ℕ → ℤ
  fec : ℕ → List UInt8
  fecSpan : ℕ
  fecEntries : ℕ

structure CwUdptl where
  errorCorrectionScheme : ErrorCorrection
  errorCorrectionEntries : ℕ
  errorCorrectionSpan : ℕ
  txSeqNo : ℕ
  rxSeqNo : ℕ
  tx : ℕ → TxBuffer
  rx : ℕ → RxBuffer

def zeroDatagram : List UInt8 := replicate localFaxMaxDatagram 0

/-- `cw_udptl_new_with_sock_info` -/
def cwUdptlNew (scheme : ErrorCorrection) (entries span : ℕ) : CwUdptl where
  errorCorrectionScheme := scheme
  errorCorrectionEntries := entries
  errorCorrectionSpan := span
  txSeqNo := 0
  rxSeqNo := 0
  tx := fun _ => ⟨-1, zeroDatagram⟩
  rx := fun _ => ⟨-1, zeroDatagram, fun _ => 0, fun _ => zeroDatagram, 0, 0⟩

structure Frame where
  frametype : ℕ
  subclass : ℕ
  mallocd : ℕ
  seqNo : ℤ
  txCopies : ℕ
  data : List UInt8
  offset : ℕ
  src : String
  deriving DecidableEq, Repr

def t38Frame (seqNo : ℤ) (data : List UInt8) : Frame where
  frametype := 11
  subclass := 1
  mallocd := 0
  seqNo := seqNo
  txCopies := 1
  data := data
  offset := 0
  src := "UDPTL"

def ringLoop (limit : ℕ) (step : ℤ) : ℕ → ℕ → List ℕ
  | 0, _ => []
  | fuel + 1, k => if k = limit then [] else k :: ringLoop limit step fuel (bufMask (k + step))

/-- The slots of the parity group `m` of the packet in slot `entry`. After `span` rounds at the
latest the loop is back at its limit. -/
def groupSlots (entry m span entries : ℕ) : List ℕ :=
  let limit := bufMask (entry + m)
  ringLoop limit entries span (bufMask (limit - span * entries))

def fecAdd (fec : List UInt8) (t : TxBuffer) : List UInt8 :=
  let msg := t.buf.take t.bufLen.toNat
  if fec.length < t.bufLen then zipWith (· ^^^ ·) fec msg ++ msg.drop fec.length
  else zipWith (· ^^^ ·) fec msg ++ fec.drop msg.length

/-- The secondary packets in `udptl_build_packet`. -/
def buildRedundancy (s : CwUdptl) (entry : ℕ) : Option (List UInt8) :=
  let entries :=
    if s.txSeqNo > s.errorCorrectionEntries then s.errorCorrectionEntries else s.txSeqNo
  ((range entries).mapM fun i : ℕ =>
    let j := bufMask ((entry : ℤ) - i - 1)
    encodeOpenType (s.tx j).buf (s.tx j).bufLen).map fun l =>
      0x00 :: (encodeLength entries).1 ++ l.flatten

def windUp (span entries seq : ℕ) : ℕ × ℕ :=
  if seq < span * entries then (if seq < span then 0 else span, seq / span) else (span, entries)

/-- The parity strings in `udptl_build_packet`. -/
def buildFec (s : CwUdptl) (seq entry : ℕ) : Option (List UInt8) :=
  let (span, entries) := windUp s.errorCorrectionSpan s.errorCorrectionEntries seq
  ((range entries).mapM fun m =>
    let fec := ((groupSlots entry m span entries).map s.tx).foldl fecAdd []
    encodeOpenType fec fec.length).map fun l =>
      0x80 :: 1 :: UInt8.ofNat span :: UInt8.ofNat entries :: l.flatten

def buildRecovery (s : CwUdptl) (seq entry : ℕ) : Option (List UInt8) :=
  match s.errorCorrectionScheme with
  | .none => some (0x00 :: (encodeLength 0).1)
  | .redundancy => buildRedundancy s entry
  | .fec => buildFec s seq entry

/-- `udptl_build_packet` saves the message in the ring. -/
def saveMessage (s : CwUdptl) (entry : ℕ) (msg : List UInt8) : CwUdptl :=
  { s with tx := update s.tx entry ⟨msg.length, memcpy (s.tx entry).buf msg⟩ }

/-- The packet, or nothing where it returns -1. -/
def udptlBuildPacket (s : CwUdptl) (msg : List UInt8) : CwUdptl × Option (List UInt8) :=
  let seq := s.txSeqNo % 0x10000
  let entry := bufMask seq
  let s := saveMessage s entry msg
  match encodeOpenType msg msg.length, buildRecovery s seq entry with
  | some primary, some recovery =>
    ({ s with txSeqNo := s.txSeqNo + 1 },
      some (UInt8.ofNat (seq >>> 8) :: UInt8.ofNat seq :: (primary ++ recovery)))
  | _, _ => (s, none)

/-- Process the primary packet, unless it was processed before. -/
def finish (s : CwUdptl) (seqNo : ℕ) (msg : List UInt8) (frames : List Frame) :
    CwUdptl × Option (List Frame) :=
  ({ s with rxSeqNo := seqNo + 1 },
    some (frames ++ if seqNo ≥ s.rxSeqNo then [t38Frame seqNo msg] else []))

def decodeOpenTypes (buf : List UInt8) : ℕ → ℕ → Option (List (List UInt8) × ℕ)
  | 0, ptr => some ([], ptr)
  | n + 1, ptr =>
    match decodeOpenType buf ptr with
    | .error _ => none
    | .ok o => (decodeOpenTypes buf n o.ptr).map fun p => (o.bytes buf :: p.1, p.2)

theorem decodeOpenTypeLoop_le {buf : List UInt8} {i : ℕ} {o o' : OpenType}
    (h : decodeOpenTypeLoop buf i o = .ok o') : o.ptr ≤ o'.ptr := by
  fun_induction decodeOpenTypeLoop buf i o with
  | case1 => cases h
  | case2 => cases h
  | case3 i o n hn hpos hle o₁ hfrag ih =>
    have hlt := decodeLength_lt hn
    have hle' := ih h
    simp only [o₁] at hle'
    omega
  | case4 i o n hn hpos hle o₁ hfrag =>
    have hlt := decodeLength_lt hn
    rw [← Except.ok.inj h]
    simp only [o₁]
    omega
  | case5 i o n hn hpos hfrag ih =>
    have hlt := decodeLength_lt hn
    have hle' := ih h
    simp only at hle'
    omega
  | case6 i o n hn hpos hfrag =>
    have hlt := decodeLength_lt hn
    cases h
    simp only
    omega

theorem decodeOpenTypes_le {buf : List UInt8} {n ptr p : ℕ} {l : List (List UInt8)}
    (h : decodeOpenTypes buf n ptr = some (l, p)) : ptr ≤ p := by
  induction n generalizing ptr l p with
  | zero => cases h; exact Nat.le_refl _
  | succ n ih =>
    simp only [decodeOpenTypes] at h
    split at h
    · cases h
    · rename_i o ho
      have hle : ptr ≤ o.ptr := decodeOpenTypeLoop_le ho
      obtain ⟨⟨l', p'⟩, hp, he⟩ := Option.map_eq_some_iff.mp h
      cases he
      exact Nat.le_trans hle (ih hp)

/-- The first loop of `udptl_rx_packet` over secondary packets. -/
def decodeSecondaries (buf : List UInt8) (ptr : ℕ) : Option (List (List UInt8) × ℕ) :=
  match _h : decodeLength buf ptr with
  | none => none
  | some n =>
    match _h' : decodeOpenTypes buf n.value n.ptr with
    | none => none
    | some (l, p) =>
      if n.fragment then (decodeSecondaries buf p).map fun q => (l ++ q.1, q.2) else some (l, p)
termination_by buf.length - ptr
decreasing_by
  have hlt := decodeLength_lt _h
  have hle := decodeOpenTypes_le _h'
  omega

/-- The branch of `udptl_rx_packet` for secondary packets, which are played from the oldest to the
newest, unless seen before. -/
def rxRedundancy (s : CwUdptl) (buf : List UInt8) (seqNo : ℕ) (msg : List UInt8) (ptr : ℕ) :
    CwUdptl × Option (List Frame) :=
  match decodeSecondaries buf ptr with
  | none => (s, none)
  | some (bufs, p) =>
    if p ≠ buf.length then (s, none)
    else
      finish s seqNo msg
        (if seqNo > s.rxSeqNo then
          (range bufs.length).reverse.filterMap fun i : ℕ =>
            if (seqNo : ℤ) - (i + 1) ≥ s.rxSeqNo then
              some (t38Frame (seqNo - (i + 1)) (bufs.getD i []))
            else none
        else [])

def missSlot (s : CwUdptl) : CwUdptl :=
  let x := bufMask s.rxSeqNo
  { s with
    rxSeqNo := s.rxSeqNo + 1
    rx := update s.rx x
      { s.rx x with
        bufLen := -1, fecLen := update (s.rx x).fecLen 0 0, fecSpan := 0, fecEntries := 0 } }

/-- `udptl_rx_packet` marks the slots that were skipped. -/
def missSlots (s : CwUdptl) (seqNo : ℕ) : CwUdptl :=
  (range (seqNo - s.rxSeqNo)).foldl (fun s _ => missSlot s) s

/-- The loop of `udptl_rx_packet` over parity strings. -/
def decodeFec (buf : List UInt8) : ℕ → ℕ → ℕ → RxBuffer → RxBuffer × Option ℕ
  | 0, _, ptr, r => (r, some ptr)
  | n + 1, i, ptr, r =>
    match decodeOpenType buf ptr with
    | .error k => ({ r with fecLen := update r.fecLen i k }, none)
    | .ok o =>
      let r := { r with fecLen := update r.fecLen i o.numOctets }
      if o.numOctets > localFaxMaxDatagram then (r, none)
      else
        decodeFec buf n (i + 1) o.ptr
          { r with fec := update r.fec i (memcpy (r.fec i) (o.bytes buf)) }

def rxGroup (rx : ℕ → RxBuffer) (l m : ℕ) : List ℕ :=
  groupSlots l m (rx l).fecSpan (rx l).fecEntries

def which (rx : ℕ → RxBuffer) (slots : List ℕ) : ℤ :=
  slots.foldl (fun w k => if (rx k).bufLen ≤ 0 then if w = -1 then (k : ℤ) else -2 else w) (-1)

def repairOctet (rx : ℕ → RxBuffer) (l m : ℕ) (j : ℕ) : UInt8 :=
  (rxGroup rx l m).foldl
    (fun b k => b ^^^ if (rx k).bufLen > j then (rx k).buf.getD j 0 else 0)
    (((rx l).fec m).getD j 0)

def repairGroup (l m : ℕ) (s : (ℕ → RxBuffer) × (ℕ → Bool)) : (ℕ → RxBuffer) × (ℕ → Bool) :=
  let w := which s.1 (rxGroup s.1 l m)
  if 0 ≤ w then
    let octets := (range ((s.1 l).fecLen m).toNat).map (repairOctet s.1 l m)
    (update s.1 w.toNat
      { s.1 w.toNat with bufLen := (s.1 l).fecLen m, buf := memcpy (s.1 w.toNat).buf octets },
      update s.2 w.toNat true)
  else s

def repairSlot (s : (ℕ → RxBuffer) × (ℕ → Bool)) (l : ℕ) : (ℕ → RxBuffer) × (ℕ → Bool) :=
  if (s.1 l).fecLen 0 ≤ 0 then s
  else (range (s.1 l).fecEntries).foldl (fun s m => repairGroup l m s) s

/-- `udptl_rx_packet` repairs what it can. -/
def repair (x span entries : ℕ) (s : (ℕ → RxBuffer) × (ℕ → Bool)) : (ℕ → RxBuffer) × (ℕ → Bool) :=
  (ringLoop (bufMask (x - (16 - span * entries))) (-1) 16 x).foldl repairSlot s

/-- `udptl_rx_packet` plays what was repaired. -/
def playRepaired (seqNo x : ℕ) (s : (ℕ → RxBuffer) × (ℕ → Bool)) : List Frame :=
  (ringLoop x 1 16 (bufMask (x + 1))).zipIdx.filterMap fun p =>
    if s.2 p.1 then
      some (t38Frame (seqNo - 15 + p.2) ((s.1 p.1).buf.take (s.1 p.1).bufLen.toNat))
    else none

/-- The branch of `udptl_rx_packet` for parity strings. The slot of the packet is filled step by
step, and keeps what it has got when the packet turns out to be broken. -/
def rxFec (s : CwUdptl) (buf : List UInt8) (seqNo : ℕ) (msg : List UInt8) (ptr : ℕ) :
    CwUdptl × Option (List Frame) :=
  if msg.length > localFaxMaxDatagram then (s, none)
  else
    let s := missSlots s seqNo
    let x := bufMask seqNo
    let put (r : RxBuffer) : CwUdptl := { s with rx := update s.rx x r }
    let r := { s.rx x with bufLen := msg.length, buf := memcpy (s.rx x).buf msg }
    match buf[ptr]?, buf[ptr + 1]? with
    | some one, some span =>
      if one ≠ 1 then (put r, none)
      else
        let r := { r with fecSpan := span.toNat }
        match buf[ptr + 2]? with
        | none => (put r, none)
        | some entries =>
          match decodeFec buf entries.toNat 0 (ptr + 3) { r with fecEntries := entries.toNat } with
          | (r, none) => (put r, none)
          | (r, some p) =>
            if p ≠ buf.length then (put r, none)
            else
              let t := repair x span.toNat entries.toNat
                ((put r).rx, update (fun _ => false) x true)
              finish { s with rx := t.1 } seqNo msg (playRepaired seqNo x t)
    | _, _ => (put r, none)

/-- The frames it chains up, or nothing where it returns -1. -/
def udptlRxPacket (s : CwUdptl) (buf : List UInt8) : CwUdptl × Option (List Frame) :=
  match buf with
  | hi :: lo :: _ =>
    let seqNo := hi.toNat <<< 8 ||| lo.toNat
    match decodeOpenType buf 2 with
    | .error _ => (s, none)
    | .ok o =>
      match buf[o.ptr]? with
      | none => (s, none)
      | some b =>
        if b &&& 0x80 = 0 then rxRedundancy s buf seqNo (o.bytes buf) (o.ptr + 1)
        else rxFec s buf seqNo (o.bytes buf) (o.ptr + 1)
  | _ => (s, none)

def udptlBuildPackets (s : CwUdptl) : List (List UInt8) → Option (List (List UInt8))
  | [] => some []
  | msg :: msgs =>
    match udptlBuildPacket s msg with
    | (_, none) => none
    | (s, some packet) => (udptlBuildPackets s msgs).map (packet :: ·)

def udptlRxPackets (s : CwUdptl) : List (List UInt8) → Option (List (List Frame))
  | [] => some []
  | packet :: packets =>
    match udptlRxPacket s packet with
    | (_, none) => none
    | (s, some frames) => (udptlRxPackets s packets).map (frames :: ·)

def maxFecEntries : ℤ := 4

def maxFecSpan : ℤ := 4

/-- The variables of `udptl.c` that `cw_udptl_reload` sets. -/
structure Settings where
  udptlfectype : ErrorCorrection
  udptlfecentries : ℤ
  udptlfecspan : ℤ
  udptlmaxdatagram : ℤ
  deriving DecidableEq, Repr

/-- A number that is cut to the range from zero to a limit. -/
def cut (n limit : ℤ) : ℤ :=
  let n := if n < 0 then 0 else n
  if n > limit then limit else n

/-- The variables are those of the category `general`, none if there is no configuration file. -/
def cwUdptlReload (cwVariableRetrieve : String → Option CStr) : Settings where
  udptlfectype := match cwVariableRetrieve "T38FaxUdpEC" with
    | none => .none
    | some s =>
      if strcmp s ("t38UDPFEC".toList.map chr) = .eq then .fec
      else if strcmp s ("t38UDPRedundancy".toList.map chr) = .eq then .redundancy
      else .none
  udptlfecentries := match cwVariableRetrieve "UDPTLFECentries" with
    | none => 1
    | some s => cut (atoi s) maxFecEntries
  udptlfecspan := match cwVariableRetrieve "UDPTLFECspan" with
    | none => 0
    | some s => cut (atoi s) maxFecSpan
  udptlmaxdatagram := match cwVariableRetrieve "T38FaxMaxDatagram" with
    | none => 0
    | some s => cut (atoi s) localFaxMaxDatagram

def Admitted (span entries : ℕ) : Prop :=
  ∃ cwVariableRetrieve, (cwUdptlReload cwVariableRetrieve).udptlfecspan = span ∧
    (cwUdptlReload cwVariableRetrieve).udptlfecentries = entries

theorem cut_mem {n limit : ℤ} (h : 0 ≤ limit) : 0 ≤ cut n limit ∧ cut n limit ≤ limit := by
  unfold cut
  simp only
  split_ifs <;> omega

theorem cwUdptlReload_limits (cwVariableRetrieve : String → Option CStr) :
    (0 ≤ (cwUdptlReload cwVariableRetrieve).udptlfecspan ∧
      (cwUdptlReload cwVariableRetrieve).udptlfecspan ≤ 4) ∧
    0 ≤ (cwUdptlReload cwVariableRetrieve).udptlfecentries ∧
      (cwUdptlReload cwVariableRetrieve).udptlfecentries ≤ 4 := by
  unfold cwUdptlReload
  constructor
  · simp only
    split
    · decide
    · exact cut_mem (by decide)
  · simp only
    split
    · decide
    · exact cut_mem (by decide)

theorem admitted_iff {span entries : ℕ} : Admitted span entries ↔ span ≤ 4 ∧ entries ≤ 4 := by
  constructor
  · rintro ⟨cwVariableRetrieve, hspan, hentries⟩
    have h := cwUdptlReload_limits cwVariableRetrieve
    omega
  · rintro ⟨hspan, hentries⟩
    have hdigit : ∀ n ≤ 4, cut (atoi [UInt8.ofNat (48 + n)]) 4 = n := by decide
    exact ⟨fun name => if name = "UDPTLFECspan" then some [UInt8.ofNat (48 + span)]
      else some [UInt8.ofNat (48 + entries)], hdigit span hspan, hdigit entries hentries⟩

structure Peer where
  addr : ℕ
  port : ℕ

/-- What `cw_udptl_write` leaves behind: the session, its result, what it built in its buffer and
the packets it passed to the socket. -/
structure Written where
  session : CwUdptl
  res : ℤ
  buf : Option (List UInt8)
  sent : List (List UInt8)

def cwUdptlWrite (them : Peer) (s : CwUdptl) (f : Frame) : Written :=
  if them.addr = 0 then ⟨s, 0, none, []⟩
  else if f.data.length = 0 then ⟨s, 0, none, []⟩
  else if f.frametype ≠ 11 then ⟨s, -1, none, []⟩
  else
    match udptlBuildPacket s f.data with
    | (s, none) => ⟨s, 0, none, []⟩
    | (s, some buf) =>
      let copies := if f.txCopies > 0 then f.txCopies else 1
      ⟨s, 0, some buf,
        if buf.length > 0 ∧ them.port ≠ 0 ∧ them.addr ≠ 0 then List.replicate copies buf else []⟩

def Accepts (them : Peer) (f : Frame) : Prop := them.addr ≠ 0 ∧ f.data ≠ [] ∧ f.frametype = 11
  deriving Decidable

theorem cwUdptlWrite_accepted {them : Peer} {s : CwUdptl} {f : Frame} (h : Accepts them f) :
    (cwUdptlWrite them s f).session = (udptlBuildPacket s f.data).1 ∧
      (cwUdptlWrite them s f).buf = (udptlBuildPacket s f.data).2 := by
  obtain ⟨haddr, hdata, htype⟩ := h
  rw [cwUdptlWrite, if_neg haddr, if_neg (fun h => hdata (List.length_eq_zero_iff.mp h)),
    if_neg (not_not.mpr htype)]
  split <;> exact ⟨by simp [*], by simp [*]⟩

theorem cwUdptlWrite_refused {them : Peer} {s : CwUdptl} {f : Frame} (h : ¬ Accepts them f) :
    (cwUdptlWrite them s f).session = s ∧ (cwUdptlWrite them s f).buf = none := by
  rw [cwUdptlWrite]
  by_cases haddr : them.addr = 0
  · rw [if_pos haddr]
    exact ⟨rfl, rfl⟩
  by_cases hdata : f.data.length = 0
  · rw [if_neg haddr, if_pos hdata]
    exact ⟨rfl, rfl⟩
  · have htype : f.frametype ≠ 11 := fun htype =>
      h ⟨haddr, fun hnil => hdata (congrArg List.length hnil), htype⟩
    rw [if_neg haddr, if_neg hdata, if_pos htype]
    exact ⟨rfl, rfl⟩

end CallWeaver.Udptl
