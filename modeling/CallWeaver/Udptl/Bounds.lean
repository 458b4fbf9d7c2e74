import CallWeaver.Udptl.FecReceiver

/-! # Bounds of the packet parser

The parser never reads beyond a packet. But the numbers of secondary packets and of parity strings
come from the packet and are compared with no array, and the length of a parity string is stored
before it is checked.
-/

namespace CallWeaver.Udptl

open List Option Nat Function

variable {msg : List UInt8}

section Offsets

variable {buf : List UInt8} {ptr n p : ℕ}

def lengthOffsets (ptr : ℕ) (n : Length) : List ℕ := range' (ptr + 1) (n.ptr - ptr)

def openTypeOffsets (buf : List UInt8) (ptr : ℕ) : List ℕ :=
  match _h : decodeLength buf ptr with
  | none => []
  | some n =>
    lengthOffsets ptr n ++ if 0 < n.value then
        if n.ptr + n.value > buf.length then []
        else [n.ptr + n.value] ++ if n.fragment then openTypeOffsets buf (n.ptr + n.value) else []
      else if n.fragment then openTypeOffsets buf n.ptr
      else []
termination_by buf.length - ptr
decreasing_by
  all_goals
    have hlt := decodeLength_lt _h
    omega

def openTypesOffsets (buf : List UInt8) : ℕ → ℕ → List ℕ
  | 0, _ => []
  | n + 1, ptr =>
    openTypeOffsets buf ptr ++ match decodeOpenType buf ptr with
      | .error _ => []
      | .ok o => openTypesOffsets buf n o.ptr

def secondariesOffsets (buf : List UInt8) (ptr : ℕ) : List ℕ :=
  match _h : decodeLength buf ptr with
  | none => []
  | some n =>
    lengthOffsets ptr n ++ openTypesOffsets buf n.value n.ptr ++ match _h' :
        decodeOpenTypes buf n.value n.ptr with
      | none => []
      | some (_, p) => if n.fragment then secondariesOffsets buf p else []
termination_by buf.length - ptr
decreasing_by
  have hlt := decodeLength_lt _h
  have hle := decodeOpenTypes_le _h'
  omega

def fecOffsets (buf : List UInt8) : ℕ → ℕ → List ℕ
  | 0, _ => []
  | n + 1, ptr =>
    openTypeOffsets buf ptr ++ match decodeOpenType buf ptr with
      | .error _ => []
      | .ok o => if o.numOctets > localFaxMaxDatagram then [] else fecOffsets buf n o.ptr

def rxFecOffsets (buf msg : List UInt8) (ptr : ℕ) : List ℕ :=
  if msg.length > localFaxMaxDatagram then []
  else match buf[ptr]?, buf[ptr + 1]? with
    | some one, some _ =>
      if one ≠ 1 then [ptr + 1]
      else [ptr + 1, ptr + 2] ++ match buf[ptr + 2]? with
        | none => []
        | some entries => [ptr + 3] ++ fecOffsets buf entries.toNat (ptr + 3)
    | _, _ => []

def rxOffsets (buf : List UInt8) : List ℕ :=
  match buf with
  | _ :: _ :: _ =>
    [2] ++ openTypeOffsets buf 2 ++ match decodeOpenType buf 2 with
      | .error _ => []
      | .ok o =>
        match buf[o.ptr]? with
        | none => []
        | some b =>
          [o.ptr + 1] ++ if b &&& 0x80 = 0 then secondariesOffsets buf (o.ptr + 1)
            else rxFecOffsets buf (o.bytes buf) (o.ptr + 1)
  | _ => []

theorem lengthOffsets_le {n : Length} (h : decodeLength buf ptr = some n) :
    ∀ p ∈ lengthOffsets ptr n, p ≤ buf.length := by
  intro p hp
  have hlt := decodeLength_lt h
  rw [lengthOffsets, mem_range'_1] at hp
  omega

theorem openTypeOffsets_le : ∀ p ∈ openTypeOffsets buf ptr, p ≤ buf.length := by
  fun_induction openTypeOffsets buf ptr with
  | case1 => simp
  | case2 ptr n hn ih ih' =>
    refine forall_mem_append.mpr ⟨lengthOffsets_le hn, ?_⟩
    split_ifs with hpos hover hfrag hfrag
    · simp
    · exact forall_mem_append.mpr ⟨by simpa using hover, ih hpos hover⟩
    · simpa using hover
    · exact ih'
    · simp

theorem openTypesOffsets_le : ∀ p ∈ openTypesOffsets buf n ptr, p ≤ buf.length := by
  induction n generalizing ptr with
  | zero => simp [openTypesOffsets]
  | succ n ih =>
    refine forall_mem_append.mpr ⟨openTypeOffsets_le, ?_⟩
    split
    · simp
    · exact ih

theorem fecOffsets_le : ∀ p ∈ fecOffsets buf n ptr, p ≤ buf.length := by
  induction n generalizing ptr with
  | zero => simp [fecOffsets]
  | succ n ih =>
    refine forall_mem_append.mpr ⟨openTypeOffsets_le, ?_⟩
    split
    · simp
    · split_ifs
      · simp
      · exact ih

theorem secondariesOffsets_le : ∀ p ∈ secondariesOffsets buf ptr, p ≤ buf.length := by
  fun_induction secondariesOffsets buf ptr with
  | case1 => simp
  | case2 ptr n hn ih =>
    refine forall_mem_append.mpr ⟨forall_mem_append.mpr ⟨lengthOffsets_le hn, openTypesOffsets_le⟩,
      ?_⟩
    split
    · simp
    · split_ifs
      · exact ih _ _ ‹_›
      · simp

theorem rxFecOffsets_le : ∀ p ∈ rxFecOffsets buf msg ptr, p ≤ buf.length := by
  unfold rxFecOffsets
  split_ifs
  · simp
  · split
    · rename_i hspan
      have hlt : ptr + 1 < buf.length := (List.getElem?_eq_some_iff.mp hspan).1
      split_ifs
      · simpa using le_of_lt hlt
      · refine forall_mem_append.mpr ⟨by simpa using ⟨le_of_lt hlt, hlt⟩, ?_⟩
        split
        · simp
        · rename_i hentries
          exact forall_mem_append.mpr
            ⟨forall_mem_singleton.mpr (List.getElem?_eq_some_iff.mp hentries).1, fecOffsets_le⟩
    · simp

theorem rxOffsets_le : ∀ p ∈ rxOffsets buf, p ≤ buf.length := by
  unfold rxOffsets
  split
  · refine forall_mem_append.mpr ⟨forall_mem_append.mpr ⟨by simp, openTypeOffsets_le⟩, ?_⟩
    split
    · simp
    · split
      · simp
      · rename_i hb
        refine forall_mem_append.mpr ⟨forall_mem_singleton.mpr (List.getElem?_eq_some_iff.mp hb).1,
          ?_⟩
        split_ifs
        · exact secondariesOffsets_le
        · exact rxFecOffsets_le
  · simp

end Offsets

variable {seqNo ptr : ℕ}

section Slots

def SlotOk (r : RxBuffer) : Prop :=
  r.bufLen ≤ localFaxMaxDatagram ∧ (∀ i, r.fecLen i ≤ localFaxMaxDatagram) ∧ r.fecEntries ≤ 4

def parityLengths (buf : List UInt8) : ℕ → ℕ → List ℕ
  | 0, _ => []
  | n + 1, ptr =>
    match decodeOpenType buf ptr with
    | .error k => [k]
    | .ok o =>
      o.numOctets :: if o.numOctets > localFaxMaxDatagram then [] else parityLengths buf n o.ptr

variable {buf : List UInt8} {n i l m x span entries : ℕ} {r r' : RxBuffer}
  {s : (ℕ → RxBuffer) × (ℕ → Bool)} {rx : ℕ → RxBuffer}

theorem forall_update_le {f : ℕ → ℤ} (hf : ∀ k, f k ≤ localFaxMaxDatagram) (v : ℤ) :
    (∀ k, update f i v k ≤ localFaxMaxDatagram) ↔ v ≤ localFaxMaxDatagram := by
  rw [forall_update_iff f fun _ w => w ≤ localFaxMaxDatagram]
  exact and_iff_left fun k _ => hf k

theorem decodeFec_fecLen (hr : ∀ k, r.fecLen k ≤ localFaxMaxDatagram) :
    (∀ k, (decodeFec buf n i ptr r).1.fecLen k ≤ localFaxMaxDatagram) ↔
      ∀ k ∈ parityLengths buf n ptr, k ≤ localFaxMaxDatagram := by
  induction n generalizing i ptr r with
  | zero => simpa [decodeFec, parityLengths] using hr
  | succ n ih =>
    rw [decodeFec, parityLengths]
    cases ho : decodeOpenType buf ptr with
    | error k =>
      simp only [mem_singleton, forall_eq]
      rw [forall_update_le hr]
      exact Int.ofNat_le
    | ok o =>
      simp only [forall_mem_cons]
      split_ifs with hover
      · simp only [not_mem_nil, false_imp_iff, implies_true, and_true]
        rw [forall_update_le hr]
        exact Int.ofNat_le
      · have hle : o.numOctets ≤ localFaxMaxDatagram := le_of_not_gt hover
        rw [ih]
        · exact (and_iff_right hle).symm
        · exact (forall_update_le hr _).mpr (Int.ofNat_le.mpr hle)

def KeepsSlots (s t : ℕ → RxBuffer) : Prop :=
  (∀ k, (t k).fecLen = (s k).fecLen ∧ (t k).fecEntries = (s k).fecEntries) ∧
    ((∀ k, SlotOk (s k)) → ∀ k, SlotOk (t k))

theorem KeepsSlots.refl (s : ℕ → RxBuffer) : KeepsSlots s s := ⟨fun _ => ⟨rfl, rfl⟩, id⟩

theorem KeepsSlots.trans {s t u : ℕ → RxBuffer} (h : KeepsSlots s t) (h' : KeepsSlots t u) :
    KeepsSlots s u :=
  ⟨fun k => ⟨(h'.1 k).1.trans (h.1 k).1, (h'.1 k).2.trans (h.1 k).2⟩, fun hs => h'.2 (h.2 hs)⟩

theorem keepsSlots_foldl {α : Type}
    {f : (ℕ → RxBuffer) × (ℕ → Bool) → α → (ℕ → RxBuffer) × (ℕ → Bool)}
    (hf : ∀ s a, KeepsSlots s.1 (f s a).1) (as : List α) (s : (ℕ → RxBuffer) × (ℕ → Bool)) :
    KeepsSlots s.1 (as.foldl f s).1 := by
  induction as generalizing s with
  | nil => exact .refl _
  | cons a as ih => exact (hf s a).trans (ih (f s a))

theorem repairGroup_keepsSlots : KeepsSlots s.1 (repairGroup l m s).1 := by
  unfold repairGroup
  simp only
  split_ifs
  · refine ⟨fun k => ?_, fun hs k => ?_⟩ <;> simp only [update_apply] <;> split_ifs with hk
    · subst hk
      exact ⟨rfl, rfl⟩
    · exact ⟨rfl, rfl⟩
    · subst hk
      exact ⟨(hs l).2.1 m, (hs _).2⟩
    · exact hs k
  · exact .refl _

theorem repair_keepsSlots : KeepsSlots s.1 (repair x span entries s).1 := by
  refine keepsSlots_foldl (fun s l => ?_) _ s
  unfold repairSlot
  split_ifs
  · exact .refl _
  · exact keepsSlots_foldl (fun s m => repairGroup_keepsSlots) _ s

def FecFits (buf msg : List UInt8) (ptr : ℕ) : Prop :=
  msg.length ≤ localFaxMaxDatagram → buf[ptr]? = some 1 → ∀ entries, buf[ptr + 2]? = some entries →
    entries.toNat ≤ 4 ∧ ∀ k ∈ parityLengths buf entries.toNat (ptr + 3), k ≤ localFaxMaxDatagram

theorem update_slotOk (hs : ∀ k, SlotOk (rx k)) (x : ℕ) (r : RxBuffer) :
    (∀ k, SlotOk (update rx x r k)) ↔ SlotOk r := by
  rw [forall_update_iff rx fun _ => SlotOk]
  exact and_iff_left fun k _ => hs k

theorem missSlots_slotOk {s : CwUdptl} (hs : ∀ k, SlotOk (s.rx k)) (seqNo k : ℕ) :
    SlotOk ((missSlots s seqNo).rx k) := by
  unfold missSlots
  generalize range (seqNo - s.rxSeqNo) = l
  induction l generalizing s with
  | nil => exact hs k
  | cons a l ih =>
    refine ih fun k => ?_
    refine (update_slotOk hs _ _).mpr ⟨?_, ?_, zero_le 4⟩ k
    · change (-1 : ℤ) ≤ localFaxMaxDatagram
      decide
    · exact (forall_update_le (hs _).2.1 _).mpr (by decide)

theorem decodeFec_slotOk {q : Option ℕ} (h : decodeFec buf n i ptr r = (r', q))
    (hlen : r.bufLen ≤ localFaxMaxDatagram) (hfec : ∀ k, r.fecLen k ≤ localFaxMaxDatagram) :
    r'.bufLen ≤ localFaxMaxDatagram ∧ (SlotOk r' ↔
      r.fecEntries ≤ 4 ∧ ∀ k ∈ parityLengths buf n ptr, k ≤ localFaxMaxDatagram) := by
  have hiff := @decodeFec_fecLen ptr buf n i r hfec
  obtain ⟨hlen', -, -, hentries, -⟩ := decodeFec_keepsBelow h
  rw [h] at hiff
  rw [SlotOk, hlen', hentries, hiff]
  exact ⟨hlen, fun h => ⟨h.2.2, h.2.1⟩, fun h => ⟨hlen, h.2, h.1⟩⟩

theorem repair_update_slotOk {repaired : ℕ → Bool} (hs : ∀ k, SlotOk (rx k))
    (hr : r.bufLen ≤ localFaxMaxDatagram) :
    (∀ k, SlotOk ((repair x span entries (update rx x r, repaired)).1 k)) ↔ SlotOk r := by
  obtain ⟨hfec, hok⟩ := @repair_keepsSlots x span entries (update rx x r, repaired)
  constructor
  · intro h
    obtain ⟨hlen, hentries⟩ := hfec x
    have hx := (h x).2
    rw [hlen, hentries] at hx
    simp only [update_self] at hx
    exact ⟨hr, hx⟩
  · intro h
    exact hok ((update_slotOk hs x r).mpr h)

theorem storeRest_slotOk (hr : SlotOk r) : SlotOk (storeRest buf ptr r) ↔
    (buf[ptr]? = some 1 → ∀ entries, buf[ptr + 2]? = some entries →
      entries.toNat ≤ 4 ∧ ∀ k ∈ parityLengths buf entries.toNat (ptr + 3),
      k ≤ localFaxMaxDatagram) := by
  rw [storeRest]
  cases hone : buf[ptr]? with
  | none => simpa using hr
  | some one =>
    cases hspan : buf[ptr + 1]? with
    | none =>
      have hnone : buf[ptr + 2]? = none := by
        rw [getElem?_eq_none_iff] at hspan ⊢
        omega
      simpa [hnone] using hr
    | some span =>
      by_cases h1 : one = 1
      · cases buf[ptr + 2]? with
        | none =>
          simp only [h1, ne_eq, not_true_eq_false, if_false, reduceCtorEq, false_imp_iff,
            implies_true, iff_true]
          exact hr
        | some entries =>
          simp only [h1, ne_eq, not_true_eq_false, if_false, true_imp_iff, some_inj, forall_eq']
          refine (decodeFec_slotOk rfl ?_ ?_).2
          · exact hr.1
          · exact hr.2.1
      · simpa [h1] using hr

theorem storedSlot_slotOk {s : CwUdptl} (hs : ∀ k, SlotOk (s.rx k))
    (hmsg : msg.length ≤ localFaxMaxDatagram) :
    SlotOk (storedSlot s buf seqNo msg ptr) ↔ FecFits buf msg ptr := by
  rw [FecFits, forall_prop_of_true hmsg]
  exact storeRest_slotOk ⟨Int.ofNat_le.mpr hmsg, (missSlots_slotOk hs seqNo _).2⟩

theorem rxFec_slotOk {s : CwUdptl} (hs : ∀ k, SlotOk (s.rx k)) :
    (∀ k, SlotOk ((rxFec s buf seqNo msg ptr).1.rx k)) ↔ FecFits buf msg ptr := by
  have hs' := missSlots_slotOk hs seqNo
  rcases rxFec_cases s buf seqNo msg ptr with ⟨hlong, he⟩ | ⟨hmsg, -, he⟩ | ⟨hmsg, -, he⟩
  · rw [he]
    exact iff_of_true hs fun hle => absurd hle (not_le_of_gt hlong)
  · rw [he]
    exact (repair_update_slotOk hs' (storeRest_message.1.trans_le (Int.ofNat_le.mpr hmsg))).trans
      (storedSlot_slotOk hs hmsg)
  · rw [he]
    exact (update_slotOk hs' _ _).trans (storedSlot_slotOk hs hmsg)

end Slots

variable {l : List (List UInt8)} {m : Length} {s : CwUdptl}

section Counts

variable {buf : List UInt8} {n p : ℕ}

def announcedIn (buf : List UInt8) : ℕ → ℕ → ℕ
  | 0, _ => 0
  | n + 1, ptr =>
    match decodeOpenType buf ptr with
    | .error _ => 1
    | .ok o => announcedIn buf n o.ptr + 1

def announced (buf : List UInt8) (ptr : ℕ) : ℕ :=
  match _h : decodeLength buf ptr with
  | none => 0
  | some n =>
    announcedIn buf n.value n.ptr +
      match _h' : decodeOpenTypes buf n.value n.ptr with
      | none => 0
      | some (_, p) => if n.fragment then announced buf p else 0
termination_by buf.length - ptr
decreasing_by
  have hlt := decodeLength_lt _h
  have hle := decodeOpenTypes_le _h'
  omega

theorem announcedIn_eq (h : decodeOpenTypes buf n ptr = some (l, p)) :
    announcedIn buf n ptr = l.length ∧ l.length = n := by
  induction n generalizing ptr l p with
  | zero => cases h; exact ⟨rfl, rfl⟩
  | succ n ih =>
    rw [decodeOpenTypes] at h
    rw [announcedIn]
    cases ho : decodeOpenType buf ptr with
    | error => rw [ho] at h; cases h
    | ok o =>
      rw [ho] at h
      obtain ⟨⟨l', p'⟩, hp, he⟩ := map_eq_some_iff.mp h
      cases he
      simp only [ih hp, length_cons, and_self]

theorem announced_of_length (hn : decodeLength buf ptr = some m) :
    announced buf ptr = announcedIn buf m.value m.ptr +
      ((decodeOpenTypes buf m.value m.ptr).elim 0 fun q =>
        if m.fragment then announced buf q.2 else 0) := by
  rw [announced]
  split
  · rename_i hnone
    rw [hn] at hnone
    cases hnone
  · rename_i m' hm'
    obtain rfl := some_inj.mp (hn.symm.trans hm')
    split <;> rename_i h <;> simp [h]

theorem announced_of_some (hn : decodeLength buf ptr = some m)
    (h : decodeOpenTypes buf m.value m.ptr = some (l, p)) :
    announced buf ptr = l.length + if m.fragment then announced buf p else 0 := by
  rw [announced_of_length hn, (announcedIn_eq h).1, h]
  rfl

theorem announced_eq (h : decodeSecondaries buf ptr = some (l, p)) :
    announced buf ptr = l.length := by
  fun_induction decodeSecondaries buf ptr generalizing l p with
  | case1 => cases h
  | case2 => cases h
  | case3 ptr n hn l₁ p₁ h₁ hfrag ih =>
    obtain ⟨⟨l₂, p₂⟩, h₂, he⟩ := map_eq_some_iff.mp h
    cases he
    rw [announced_of_some hn h₁, if_pos hfrag, ih h₂, length_append]
  | case4 ptr n hn l₁ p₁ h₁ hfrag =>
    cases h
    rw [announced_of_some hn h₁, if_neg hfrag, add_zero]

def indicesIn (buf : List UInt8) : ℕ → ℕ → ℕ → List ℕ
  | 0, _, _ => []
  | n + 1, k, ptr =>
    k :: match decodeOpenType buf ptr with
      | .error _ => []
      | .ok o => indicesIn buf n (k + 1) o.ptr

def secondaryIndices (buf : List UInt8) (totalCount ptr : ℕ) : List ℕ :=
  match _h : decodeLength buf ptr with
  | none => []
  | some n =>
    indicesIn buf n.value totalCount n.ptr ++ match _h' : decodeOpenTypes buf n.value n.ptr with
      | none => []
      | some (_, p) => if n.fragment then secondaryIndices buf (totalCount + n.value) p else []
termination_by buf.length - ptr
decreasing_by
  have hlt := decodeLength_lt _h
  have hle := decodeOpenTypes_le _h'
  omega

theorem indicesIn_eq (k : ℕ) : indicesIn buf n k ptr = range' k (announcedIn buf n ptr) := by
  induction n generalizing k ptr with
  | zero => rfl
  | succ n ih =>
    rw [indicesIn, announcedIn]
    split
    · rfl
    · rw [ih, range'_succ]

theorem secondaryIndices_eq (k : ℕ) :
    secondaryIndices buf k ptr = range' k (announced buf ptr) := by
  fun_induction secondaryIndices buf k ptr with
  | case1 k ptr hn =>
    rw [announced]
    split
    · rfl
    · rename_i hn'
      rw [hn] at hn'
      cases hn'
  | case2 k ptr n hn ih =>
    rw [indicesIn_eq]
    split
    · rename_i hnone
      rw [append_nil, announced_of_length hn, hnone]
      rfl
    · rename_i l p h
      obtain ⟨hcount, hlen⟩ := announcedIn_eq h
      rw [announced_of_some hn h, hcount, hlen]
      split_ifs
      · rw [ih l p h, ← range'_append_1]
      · rw [append_nil, add_zero]

theorem length_unseen {α : Type} (g : ℕ → α) (rx seqNo n : ℕ) :
    ((range n).reverse.filterMap fun i : ℕ =>
      if (seqNo : ℤ) - (i + 1) ≥ rx then some (g i) else none).length = min n (seqNo - rx) := by
  induction n with
  | zero => simp
  | succ n ih =>
    rw [range_succ, reverse_append, reverse_singleton, singleton_append, filterMap_cons]
    split_ifs with hseq
    · rw [length_cons, ih]
      omega
    · rw [ih]
      omega

def RedundancyFits (rxSeqNo : ℕ) (buf : List UInt8) (seqNo ptr : ℕ) : Prop :=
  announced buf ptr ≤ 16 ∧
    ((decodeSecondaries buf ptr).map Prod.snd = some buf.length →
      min (announced buf ptr) (seqNo - rxSeqNo) < 16)

theorem finish_length {frames : List Frame} :
    (∀ frames', (finish s seqNo msg frames).2 = some frames' → frames'.length ≤ 16) ↔
      frames.length + (if seqNo ≥ s.rxSeqNo then 1 else 0) ≤ 16 := by
  simp only [finish, some_inj, forall_eq', length_append]
  split_ifs <;> rfl

theorem rxRedundancy_length : ((∀ i ∈ secondaryIndices buf 0 ptr, i < 16) ∧
      ∀ frames, (rxRedundancy s buf seqNo msg ptr).2 = some frames → frames.length ≤ 16) ↔
      RedundancyFits s.rxSeqNo buf seqNo ptr := by
  have hindices : (∀ i ∈ secondaryIndices buf 0 ptr, i < 16) ↔ announced buf ptr ≤ 16 := by
    rw [secondaryIndices_eq]
    simp only [mem_range'_1, zero_le, true_and, zero_add]
    exact ⟨fun h => le_of_not_gt fun hgt => absurd (h 16 hgt) (by decide), fun hle i hi => by omega⟩
  rw [hindices]
  refine and_congr_right fun hle => ?_
  unfold rxRedundancy
  cases hsec : decodeSecondaries buf ptr with
  | none => simp
  | some q =>
    simp only [map_some, some_inj]
    rw [announced_eq hsec] at hle ⊢
    split_ifs with hp hseq
    · exact iff_of_true (fun frames h => by cases h) fun h => absurd h hp
    · -- with sixteen new secondary packets there is no frame left for the primary one
      rw [finish_length, length_unseen, if_pos (le_of_lt hseq), forall_prop_of_true (not_not.mp hp)]
      omega
    · refine iff_of_true (finish_length.mpr ?_) fun _ => ?_
      · split_ifs <;> decide
      · omega

theorem playRepaired_length (seqNo : ℕ) (t : (ℕ → RxBuffer) × (ℕ → Bool)) :
    (playRepaired seqNo (bufMask seqNo) t).length ≤ 15 := by
  rw [playRepaired_eq]
  exact le_trans (length_filterMap_le _ _) (le_of_eq length_range)

theorem rxFec_length (s : CwUdptl) (seqNo : ℕ) (msg : List UInt8) :
    ∀ frames, (rxFec s buf seqNo msg ptr).2 = some frames → frames.length ≤ 16 := by
  rcases rxFec_cases s buf seqNo msg ptr with ⟨-, he⟩ | ⟨-, -, he⟩ | ⟨-, -, he⟩
  · rw [he]
    exact fun frames h => nomatch h
  · rw [he, finish_length]
    refine le_trans (Nat.add_le_add (playRepaired_length seqNo _) ?_) (le_refl (15 + 1))
    split_ifs <;> decide
  · rw [he]
    exact fun frames h => nomatch h

end Counts

section Sessions

inductive Call where
  | receive (buf : List UInt8)
  | send (msg : List UInt8)

def callStep (s : CwUdptl) : Call → Option CwUdptl
  | .receive buf => some (udptlRxPacket s buf).1
  | .send msg => some (udptlBuildPacket s msg).1

/-- The elements of `bufs` and `lengths` that `udptl_rx_packet` passes on. That `decode_open_type`
stores the later fragments of a message at `p_object[octet_idx]`, behind the element it got, is left
out. -/
def rxIndices (buf : List UInt8) : List ℕ :=
  match buf with
  | _ :: _ :: _ =>
    match decodeOpenType buf 2 with
    | .error _ => []
    | .ok o =>
      match buf[o.ptr]? with
      | none => []
      | some b => if b &&& 0x80 = 0 then secondaryIndices buf 0 (o.ptr + 1) else []
  | _ => []

def Bounded (s : CwUdptl) (c : Call) (t : CwUdptl) : Prop :=
  match c with
  | .receive buf =>
    (∀ p ∈ rxOffsets buf, p ≤ buf.length) ∧ (∀ i ∈ rxIndices buf, i < 16) ∧
      (∀ frames, (udptlRxPacket s buf).2 = some frames → frames.length ≤ 16) ∧ ∀ k, SlotOk (t.rx k)
  | .send _ => True

def Fits (s : CwUdptl) (c : Call) : Prop :=
  match c with
  | .receive (hi :: lo :: bs) =>
    let buf := hi :: lo :: bs
    match decodeOpenType buf 2 with
    | .error _ => True
    | .ok o =>
      match buf[o.ptr]? with
      | none => True
      | some b =>
        if b &&& 0x80 = 0 then
          RedundancyFits s.rxSeqNo buf (hi.toNat <<< 8 ||| lo.toNat) (o.ptr + 1)
        else FecFits buf (o.bytes buf) (o.ptr + 1)
  | _ => True

variable {t : CwUdptl} {buf : List UInt8}

theorem udptlBuildPacket_rx : (udptlBuildPacket s msg).1.rx = s.rx := by
  unfold udptlBuildPacket
  simp only
  split <;> rfl

theorem rxRedundancy_rx : (rxRedundancy s buf seqNo msg ptr).1.rx = s.rx := by
  unfold rxRedundancy
  split
  · rfl
  · split_ifs <;> rfl

theorem receive_bounded_iff (hs : ∀ k, SlotOk (s.rx k)) :
    Bounded s (.receive buf) (udptlRxPacket s buf).1 ↔ Fits s (.receive buf) := by
  rw [Bounded, and_iff_right rxOffsets_le]
  match buf with
  | [] | [b] => simpa [Fits, rxIndices, udptlRxPacket] using hs
  | hi :: lo :: bs =>
    simp only [Fits, rxIndices, udptlRxPacket]
    cases decodeOpenType (hi :: lo :: bs) 2 with
    | error k => simpa using hs
    | ok o =>
      simp only
      cases (hi :: lo :: bs)[o.ptr]? with
      | none => simpa using hs
      | some b =>
        simp only
        split_ifs
        · simp only [rxRedundancy_rx, ← and_assoc]
          rw [and_iff_left hs]
          exact rxRedundancy_length
        · rw [and_iff_right fun i hi => absurd hi not_mem_nil, and_iff_right (rxFec_length _ _ _)]
          exact rxFec_slotOk hs

/-- The parser stays within its bounds in every session whose packets announce no more secondary
packets and parity strings than it has room for, and in no other one. -/
theorem rx_bounded_iff (scheme : ErrorCorrection) (entries span : ℕ) (calls : List Call)
    (t : CwUdptl) : Runs callStep Bounded (cwUdptlNew scheme entries span) calls t ↔
      Runs callStep (fun s c _ => Fits s c) (cwUdptlNew scheme entries span) calls t := by
  refine Runs.iff_of_invariant (I := fun s => ∀ k, SlotOk (s.rx k)) ?_ fun k => ?_
  · intro s c t hs hstep
    cases c with
    | receive buf =>
      cases hstep
      exact ⟨receive_bounded_iff hs, fun h => h.2.2.2⟩
    | send msg =>
      cases hstep
      rw [udptlBuildPacket_rx]
      exact ⟨iff_of_true trivial trivial, fun _ => hs⟩
  · refine ⟨?_, fun i => ?_, zero_le 4⟩
    · change (-1 : ℤ) ≤ localFaxMaxDatagram
      decide
    · change (0 : ℤ) ≤ localFaxMaxDatagram
      decide

/-- Seventeen secondary packets and eighteen frames, and then five parity strings, are accepted. -/
theorem secondaries_overflow :
    rxIndices ([0, 17, 1, 7, 0, 17] ++ replicate 17 0) = range 17 ∧
      ((udptlRxPacket (cwUdptlNew .redundancy 3 3)
        ([0, 17, 1, 7, 0, 17] ++ replicate 17 0)).2.map length) = some 18 ∧
      (udptlRxPacket (cwUdptlNew .fec 3 3) [0, 0, 1, 7, 0x80, 1, 1, 5, 0, 0, 0, 0, 0]).2.isSome ∧
      ((udptlRxPacket (cwUdptlNew .fec 3 3) [0, 0, 1, 7, 0x80, 1, 1, 5, 0, 0, 0, 0, 0]).1.rx
        0).fecEntries = 5 := by
  decide +kernel

end Sessions

end CallWeaver.Udptl
