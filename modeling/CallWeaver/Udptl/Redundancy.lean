import CallWeaver.Udptl.Sender

/-! # Recovery from secondary packets

Each packet repeats the messages before it. A receiver that misses no more packets in a row than
are repeated plays every message once and in order. Where the number of a packet wraps, the receiver
takes it for one seen long ago and drops its message.
-/

namespace CallWeaver.Udptl

open List

variable {m m' : ℕ → List UInt8} {e k span : ℕ} {s : CwUdptl}

def secondaries (m : ℕ → List UInt8) (e k : ℕ) : List (List UInt8) :=
  (range (min k e)).map fun i => m (k - 1 - i)

def redundancyRecovery (m : ℕ → List UInt8) (e k : ℕ) : List UInt8 :=
  0x00 :: ((encodeLength (min k e)).1 ++ ((secondaries m e k).map openType).flatten)

theorem redundancyRecovery_congr (h : ∀ j < k, m' j = m j) :
    redundancyRecovery m' e k = redundancyRecovery m e k := by
  have hsec : secondaries m' e k = secondaries m e k := by
    refine map_congr_left fun i hi => h _ ?_
    have hi' := mem_range.mp hi
    omega
  rw [redundancyRecovery, redundancyRecovery, hsec]

theorem buildRedundancy_wire (h : TxOk .redundancy e span m k (k + 1) s) (he : e ≤ 4)
    (hm : ∀ j < k, (m j).length ≤ localFaxMaxDatagram) (seq : ℕ) :
    buildRecovery s seq (bufMask k) =
      some (redundancyRecovery (fun j => wireMessage (m j)) e k) := by
  have hmin : (if s.txSeqNo > s.errorCorrectionEntries then s.errorCorrectionEntries
      else s.txSeqNo) = min k e := by
    rw [h.seq, h.entries]
    split_ifs <;> omega
  have hslot : ∀ i ∈ range (min k e), encodeOpenType (s.tx (bufMask ((bufMask k : ℤ) - i - 1))).buf
        (s.tx (bufMask ((bufMask k : ℤ) - i - 1))).bufLen =
          some (openType (wireMessage (m (k - 1 - i)))) := by
    intro i hi
    have hi' := mem_range.mp hi
    have hmask : bufMask ((bufMask k : ℤ) - i - 1) = bufMask ((k - 1 - i : ℕ) : ℤ) := by
      unfold bufMask
      omega
    have hholds := h.ring (k - 1 - i) (by omega) (by omega)
    rw [hmask]
    exact encodeOpenType_wireMessage (hm (k - 1 - i) (by omega)) hholds.1 hholds.2
  simp only [buildRecovery, h.scheme, buildRedundancy, hmin, mapM_eq_map hslot, Option.map_some,
    redundancyRecovery, secondaries, map_map]
  rfl

theorem udptlBuildPackets_redundancy (e span : ℕ) (he : e ≤ 4) {msgs : List (List UInt8)}
    (hmsgs : ∀ d ∈ msgs, IsMessage d) :
    udptlBuildPackets (cwUdptlNew .redundancy e span) msgs = some ((range msgs.length).map
      (packetOf (fun j => msgs.getD j []) (redundancyRecovery (fun j => msgs.getD j []) e))) := by
  have hm : ∀ j < msgs.length, IsMessage (msgs.getD j []) := forall_getD hmsgs
  refine udptlBuildPackets_mod hmsgs fun k hk s hs => ?_
  rw [buildRedundancy_wire hs he fun j hj => (hm j (by omega)).2,
    redundancyRecovery_congr fun j hj => wireMessage_of_ne (hm j (by omega)).1]

variable {c n r : ℕ} {ns : List ℕ}

section Receive

variable {buf bs d : List UInt8} {ptr : ℕ} {l : List (List UInt8)} {α : Type*}

theorem decodeOpenTypes_eq (hl : ∀ d ∈ l, IsMessage d)
    (h : Rest buf ptr ((l.map openType).flatten ++ bs)) :
    ∃ p, decodeOpenTypes buf l.length ptr = some (l, p) ∧ Rest buf p bs := by
  induction l generalizing ptr with
  | nil => exact ⟨ptr, rfl, h⟩
  | cons d l ih =>
    have hd := hl d (by simp)
    rw [map_cons, flatten_cons, append_assoc] at h
    obtain ⟨o, ho, hptr, _, hbytes⟩ :=
      decodeOpenType_openType hd.1 (Nat.lt_of_le_of_lt hd.2 (by decide)) h
    obtain ⟨p, hp, hrest⟩ := ih (fun d hd => hl d (by simp [hd])) (hptr ▸ h.advance)
    refine ⟨p, ?_, hrest⟩
    simp only [length_cons, decodeOpenTypes, ho, hp, Option.map_some, hbytes]

theorem decodeSecondaries_eq (hlen : l.length < 0x4000) (hl : ∀ d ∈ l, IsMessage d)
    (h : Rest buf ptr ((encodeLength l.length).1 ++ (l.map openType).flatten)) :
    decodeSecondaries buf ptr = some (l, buf.length) := by
  have hrest := h.advance
  rw [← append_nil (l.map openType).flatten] at hrest
  obtain ⟨p, hp, hend⟩ := decodeOpenTypes_eq hl hrest
  have hlast : p = buf.length := by simpa using hend.length_eq.symm
  unfold decodeSecondaries
  split
  · rename_i hn
    rw [decodeLength_encodeLength hlen h] at hn
    cases hn
  · rename_i n hn
    rw [decodeLength_encodeLength hlen h] at hn
    cases hn
    split
    · rename_i hn
      rw [hp] at hn
      cases hn
    · rename_i l' p' hn
      rw [hp, hlast] at hn
      cases hn
      rfl

theorem filterMap_reverse_range {f : ℕ → α} (h : c ≤ n) :
    (range n).reverse.filterMap (fun i => if i < c then some (f i) else none) =
      (range c).reverse.map f := by
  induction n, h using Nat.le_induction with
  | base =>
    rw [filterMap_congr (g := some ∘ f) (by simp +contextual), filterMap_eq_map]
  | succ n hn ih =>
    rw [range_succ, reverse_append, reverse_singleton, singleton_append,
      filterMap_cons_none (by simp; omega), ih]

theorem map_reverse_range (g : ℕ → α) (h : c ≤ k) :
    (range c).reverse.map (fun i => g (k - 1 - i)) = (range' (k - c) c).map g := by
  induction c with
  | zero => rfl
  | succ c ih =>
    rw [range_succ, reverse_append, reverse_singleton, singleton_append,
      map_cons, ih (by omega), range'_succ, map_cons]
    have hc : k - 1 - c = k - (c + 1) := by omega
    have hc' : k - c = k - (c + 1) + 1 := by omega
    rw [hc, hc']

theorem udptlRxPacket_secondary (s : CwUdptl) (hk : k < 65536) (hd : IsMessage d)
    (hlen : l.length < 0x4000) (hl : ∀ d ∈ l, IsMessage d) :
    udptlRxPacket s
      (header k ++ openType d ++ 0x00 :: ((encodeLength l.length).1 ++ (l.map openType).flatten)) =
      finish s k d (if k > s.rxSeqNo then
        (range l.length).reverse.filterMap fun i : ℕ =>
          if (k : ℤ) - (i + 1) ≥ s.rxSeqNo
          then some (t38Frame (k - (i + 1)) (l.getD i [])) else none
        else []) := by
  obtain ⟨ptr, hptr, hrx⟩ := udptlRxPacket_eq s 0x00
    ((encodeLength l.length).1 ++ (l.map openType).flatten) hk hd
  have hdec := decodeSecondaries_eq hlen hl hptr
  rw [hrx, if_pos (by decide), rxRedundancy, hdec]
  simp only [ne_eq, not_true_eq_false, if_false]

theorem length_secondaries : (secondaries m e k).length = min k e := by simp [secondaries]

theorem isMessage_secondaries (hm : ∀ j < k, IsMessage (m j)) :
    ∀ d ∈ secondaries m e k, IsMessage d := by
  simp only [secondaries, mem_map, mem_range]
  rintro d ⟨i, hi, rfl⟩
  exact hm _ (by omega)

theorem udptlRxPacket_redundancy (hk : k < 65536) (he : e ≤ 4) (hm : ∀ j ≤ k, IsMessage (m j))
    (hr : s.rxSeqNo = r) (hrk : r ≤ k) (hgap : k ≤ r + e) :
    udptlRxPacket s (packetOf m (redundancyRecovery m e) k) =
      ({ s with rxSeqNo := k + 1 }, some (framesFrom m r (k + 1 - r))) := by
  have hrx := udptlRxPacket_secondary s hk (hm k le_rfl) (l := secondaries m e k)
    (by rw [length_secondaries]; omega) (isMessage_secondaries fun j hj => hm j hj.le)
  -- the secondary packets that were not seen before are the missed ones
  have hframes : (if k > r then
      (range (secondaries m e k).length).reverse.filterMap fun i : ℕ =>
        if (k : ℤ) - (i + 1) ≥ r then
          some (t38Frame (k - (i + 1)) ((secondaries m e k).getD i []))
        else none
      else []) = framesFrom m r (k - r) := by
    have hcongr : ∀ i ∈ (range (min k e)).reverse,
        (if (k : ℤ) - (i + 1) ≥ r then
          some (t38Frame (k - (i + 1)) ((secondaries m e k).getD i [])) else none) =
        if i < k - r then some (t38Frame (k - 1 - i : ℕ) (m (k - 1 - i))) else none := by
      intro i hi
      have hi' : i < min k e := by simpa using hi
      have hcast : (k : ℤ) - (i + 1) = (k - 1 - i : ℕ) := by omega
      have hget : (secondaries m e k).getD i [] = m (k - 1 - i) := by
        simp [secondaries, getD_eq_getElem?_getD, hi']
      simp only [hcast, hget, ge_iff_le, Nat.cast_le]
      exact if_congr (by omega) rfl rfl
    rw [length_secondaries, filterMap_congr hcongr, filterMap_reverse_range (by omega),
      map_reverse_range (fun j : ℕ => t38Frame j (m j)) (by omega), Nat.sub_sub_self hrk]
    split_ifs with h
    · rfl
    · rw [Nat.sub_eq_zero_of_le (not_lt.mp h)]
      rfl
  rw [packetOf, redundancyRecovery, ← length_secondaries (m := m), hrx, hr, hframes]
  simp only [finish, hr, ge_iff_le, if_pos hrk]
  have hone : k + 1 - r = k - r + 1 := by omega
  have hlast : r + (k - r) = k := by omega
  simp [framesFrom, hone, range'_concat, hlast]

end Receive

/-- The numbers of received packets, in order and with at most `e` missing before each, for a
receiver that expects `r`. -/
def Received (e : ℕ) : ℕ → List ℕ → Prop
  | _, [] => True
  | r, n :: ns => r ≤ n ∧ n ≤ r + e ∧ Received e (n + 1) ns

instance (e : ℕ) : (r : ℕ) → (ns : List ℕ) → Decidable (Received e r ns)
  | _, [] => inferInstanceAs (Decidable True)
  | r, n :: ns =>
    have := instDecidableReceived e (n + 1) ns
    inferInstanceAs (Decidable (r ≤ n ∧ n ≤ r + e ∧ Received e (n + 1) ns))

def nextNumber (r : ℕ) (ns : List ℕ) : ℕ := ns.getLast?.elim r (· + 1)

theorem nextNumber_cons (r n : ℕ) (ns : List ℕ) :
    nextNumber r (n :: ns) = nextNumber (n + 1) ns := by
  cases ns <;> simp [nextNumber, getLast?_cons]

theorem Received.le_nextNumber (h : Received e r ns) : r ≤ nextNumber r ns := by
  induction ns generalizing r with
  | nil => exact le_rfl
  | cons n ns ih =>
    rw [nextNumber_cons]
    have hle := ih h.2.2
    have hrn := h.1
    omega

theorem udptlRxPackets_redundancy (hn : n ≤ 65536) (he : e ≤ 4) (hm : ∀ j < n, IsMessage (m j))
    (hns : ∀ k ∈ ns, k < n) (hrec : Received e r ns) (hr : s.rxSeqNo = r) :
    ∃ chains, udptlRxPackets s (ns.map (packetOf m (redundancyRecovery m e))) = some chains ∧
      chains.flatten = framesFrom m r (nextNumber r ns - r) := by
  induction ns generalizing r s with
  | nil => exact ⟨[], rfl, by simp [nextNumber, framesFrom]⟩
  | cons k ns ih =>
    have hk := hns k (by simp)
    have hstep := udptlRxPacket_redundancy (by omega) he (fun j hj => hm j (by omega)) hr
      hrec.1 hrec.2.1
    obtain ⟨chains, hch, hflat⟩ :=
      ih (s := { s with rxSeqNo := k + 1 }) (fun j hj => hns j (by simp [hj])) hrec.2.2 rfl
    refine ⟨framesFrom m r (k + 1 - r) :: chains, ?_, ?_⟩
    · simp only [map_cons, udptlRxPackets, hstep, hch, Option.map_some]
    · have hle := hrec.2.2.le_nextNumber
      have hrk := hrec.1
      have hsplit : nextNumber (k + 1) ns - r = k + 1 - r + (nextNumber (k + 1) ns - (k + 1)) := by
        omega
      have hstart : r + (k + 1 - r) = k + 1 := by omega
      rw [flatten_cons, hflat, nextNumber_cons, hsplit, framesFrom_add, hstart]

/-- With `e` repeated messages in each packet, a receiver that gets the packets in order and misses
at most `e` in a row plays all messages up to the last received one, each once, in order and with
its number. -/
theorem redundancy_recovers (e span : ℕ) (he4 : e ≤ 4) (msgs : List (List UInt8))
    (hlen : msgs.length < 65536) (hmsgs : ∀ d ∈ msgs, IsMessage d) :
    ∃ packets, udptlBuildPackets (cwUdptlNew .redundancy e span) msgs = some packets ∧
      packets.length = msgs.length ∧
      ∀ scheme entries' span' ns, Received e 0 ns → (∀ n ∈ ns, n < msgs.length) →
        ∃ chains, udptlRxPackets (cwUdptlNew scheme entries' span') (ns.map fun n =>
          packets.getD n []) = some chains ∧ chains.flatten =
            (range (nextNumber 0 ns)).map fun j : ℕ => t38Frame j (msgs.getD j []) := by
  let m : ℕ → List UInt8 := fun j => msgs.getD j []
  have hm : ∀ j < msgs.length, IsMessage (m j) := forall_getD hmsgs
  refine ⟨_, udptlBuildPackets_redundancy e span he4 hmsgs, by simp,
    fun scheme entries' span' ns hrec hns => ?_⟩
  rw [map_getD_packets _ hns]
  obtain ⟨chains, hch, hflat⟩ := udptlRxPackets_redundancy (n := msgs.length)
    (s := cwUdptlNew scheme entries' span') (by omega) he4 hm hns hrec rfl
  exact ⟨chains, hch, by rw [hflat, Nat.sub_zero, framesFrom, range_eq_range']⟩

theorem redundancy_recovers_one_lost :
    ∃ packets, udptlBuildPackets (cwUdptlNew .redundancy 1 0) [[1], [2, 3], [4]] = some packets ∧
      ∃ chains, udptlRxPackets (cwUdptlNew .redundancy 1 0) ([0, 2].map fun n =>
        packets.getD n []) = some chains ∧
        chains.flatten = [t38Frame 0 [1], t38Frame 1 [2, 3], t38Frame 2 [4]] := by
  obtain ⟨packets, hb, _, h⟩ :=
    redundancy_recovers 1 0 (by decide) [[1], [2, 3], [4]] (by decide) (by decide)
  exact ⟨packets, hb, h .redundancy 1 0 [0, 2] (by decide) (by decide)⟩

def longChain (m : ℕ → List UInt8) (k : ℕ) : List Frame :=
  if 0 < k ∧ k % 65536 = 0 then [] else [t38Frame (k % 65536 : ℕ) (m k)]

def expected (k : ℕ) : ℕ := if k = 0 then 0 else (k - 1) % 65536 + 1

theorem expected_succ (k : ℕ) : expected (k + 1) = k % 65536 + 1 := by simp [expected]

theorem expected_eq (k : ℕ) : expected k = if 0 < k ∧ k % 65536 = 0 then 65536 else k % 65536 := by
  unfold expected
  split_ifs <;> omega

theorem udptlRxPacket_long (he : e ≤ 4) (hm : ∀ j ≤ k, IsMessage (m j))
    (hr : s.rxSeqNo = expected k) : udptlRxPacket s (packetOf m (redundancyRecovery m e) k) =
      ({ s with rxSeqNo := expected (k + 1) }, some (longChain m k)) := by
  have hrx := udptlRxPacket_secondary s (Nat.mod_lt k (by decide : 0 < 65536)) (hm k le_rfl)
    (l := secondaries m e k) (by rw [length_secondaries]; omega)
    (isMessage_secondaries fun j hj => hm j hj.le)
  rw [header_mod, length_secondaries] at hrx
  -- the number is never larger than the expected one, so no secondary packet is looked at
  have hle : k % 65536 ≤ s.rxSeqNo := by
    rw [hr, expected_eq]
    split_ifs <;> omega
  rw [packetOf, redundancyRecovery, hrx, if_neg (not_lt.mpr hle), finish, expected_succ, longChain,
    hr, expected_eq]
  by_cases hwrap : 0 < k ∧ k % 65536 = 0
  · rw [if_pos hwrap, if_pos hwrap, if_neg (by omega)]
    rfl
  · rw [if_neg hwrap, if_neg hwrap, if_pos le_rfl]
    rfl

theorem udptlRxPackets_long (he : e ≤ 4) (hm : ∀ j < n, IsMessage (m j)) :
    ∀ (l k : ℕ) (s : CwUdptl), k + l = n → s.rxSeqNo = expected k →
      udptlRxPackets s ((range' k l).map (packetOf m (redundancyRecovery m e))) =
        some ((range' k l).map (longChain m))
  | 0, _, _, _, _ => rfl
  | l + 1, k, s, hl, hr => by
    have hstep := udptlRxPacket_long he (fun j hj => hm j (by omega)) hr
    simp only [range'_succ, map_cons, udptlRxPackets, hstep]
    rw [udptlRxPackets_long he hm l (k + 1) _ (by omega) rfl]
    rfl

theorem map_data_longChain (h : ¬ (0 < k ∧ k % 65536 = 0)) :
    (longChain m k).map Frame.data = [m k] := by
  rw [longChain, if_neg h]
  rfl

/-- All packets of a session with secondary packets arrive in order. Then every packet plays its own
message and nothing else, if and only if there are at most 65536 of them. -/
theorem long_session_iff (e span : ℕ) (he4 : e ≤ 4) (msgs : List (List UInt8))
    (hmsgs : ∀ d ∈ msgs, IsMessage d) (scheme : ErrorCorrection) (entries' span' : ℕ) :
    ∃ packets chains, udptlBuildPackets (cwUdptlNew .redundancy e span) msgs = some packets ∧
      packets.length = msgs.length ∧
      udptlRxPackets (cwUdptlNew scheme entries' span') packets = some chains ∧
      (chains.map (map Frame.data) = msgs.map (fun d => [d]) ↔ msgs.length ≤ 65536) := by
  have hm : ∀ j < msgs.length, IsMessage (msgs.getD j []) := forall_getD hmsgs
  have hbuild := udptlBuildPackets_redundancy e span he4 hmsgs
  rw [range_eq_range'] at hbuild
  refine ⟨_, _, hbuild, by simp,
    udptlRxPackets_long he4 hm msgs.length 0 _ (by omega) rfl, ?_⟩
  rw [map_map]
  constructor
  · intro h
    by_contra hlong
    have hget := congrArg (fun l => l[65536]?) h
    simp [longChain, not_le.mp hlong] at hget
  · intro hshort
    have hmap : msgs.map (fun d => [d]) = (range' 0 msgs.length).map fun j => [msgs.getD j []] := by
      conv_lhs => rw [← map_getD_range' msgs]
      rw [map_map]
      rfl
    rw [hmap]
    refine map_congr_left fun k hk => map_data_longChain ?_
    have hk' := mem_range'_1.mp hk
    omega

theorem long_session_iff_two : ∃ packets chains,
    udptlBuildPackets (cwUdptlNew .redundancy 3 3) [[1], [2, 3]] = some packets ∧
      packets.length = 2 ∧ udptlRxPackets (cwUdptlNew .redundancy 3 3) packets = some chains ∧
      (chains.map (map Frame.data) = [[[1]], [[2, 3]]] ↔ 2 ≤ 65536) :=
  long_session_iff 3 3 (by decide) [[1], [2, 3]] (by decide) .redundancy 3 3

/-- The packet with the number 65536 arrives as number 0 where 65536 is expected. -/
theorem wrapped_message_dropped : ∃ packets chains,
    udptlBuildPackets (cwUdptlNew .redundancy 3 3) (replicate 65537 [1]) = some packets ∧
      udptlRxPackets (cwUdptlNew .redundancy 3 3) packets = some chains ∧
      chains[65536]? = some [] := by
  have hmsgs : ∀ d ∈ replicate 65537 [(1 : UInt8)], IsMessage d := by
    intro d hd
    rw [eq_of_mem_replicate hd]
    decide
  have hm : ∀ j < 65537, IsMessage ((replicate 65537 [(1 : UInt8)]).getD j []) := fun j hj =>
    forall_getD hmsgs j (by rwa [length_replicate])
  have hbuild := udptlBuildPackets_redundancy 3 3 (by decide) hmsgs
  rw [length_replicate, range_eq_range'] at hbuild
  have hrx :=
    udptlRxPackets_long (e := 3) (by decide) hm 65537 0 (cwUdptlNew .redundancy 3 3) rfl rfl
  refine ⟨_, _, hbuild, hrx, ?_⟩
  rw [getElem?_map, getElem?_range' (by decide)]
  rfl

end CallWeaver.Udptl
