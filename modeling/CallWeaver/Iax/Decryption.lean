import CallWeaver.Core.Strings
import CallWeaver.Iax.Retransmission

/-! # Accepting encrypted frames

A packet of an encrypted call is decrypted block by block, with the key of the call or, before that
is known, with the keys that its secrets give. It is rejected if it is too short for its header and
padding, but need not have whole blocks: then the last block reaches beyond the packet and the
workspace. Nothing in a packet tells the right key from a wrong one.
-/

namespace CallWeaver.Iax.Encryption

open List

variable {aes : Aes} {f : ℕ × BitVec 32} {packet : List UInt8} {enc hdr n : ℕ}

/-- What `decode_frame` returns, and the type and the packet of `*datalen` bytes that it leaves. -/
structure Decoded where
  res : ℤ
  f : ℕ × BitVec 32
  packet : List UInt8
  deriving DecidableEq, Repr

/-- `decode_frame` with its return value. -/
def decodeResult (aes : Aes) (f : ℕ × BitVec 32) (packet : List UInt8) : Decoded :=
  match decodeFrame aes packet f with
  | none => ⟨-1, f, packet⟩
  | some p => ⟨0, p.1, p.2⟩

/-- The key of a call, whether it is known (`IAX_KEYPOPULATED`), and those that its secrets give. -/
structure CallKey where
  keypopulated : Bool
  dcx : Aes
  candidates : List Aes

/-- The search of `decrypt_frame` for a key. -/
def tryKeys (f : ℕ × BitVec 32) (packet : List UInt8) : List Aes → CallKey → Decoded × CallKey
  | [], key => (⟨-1, f, packet⟩, key)
  | aes :: candidates, key =>
    let key := { key with dcx := aes }
    let d := decodeResult aes f packet
    if d.res = 0 then (d, { key with keypopulated := true }) else tryKeys f packet candidates key

def decryptFrame (key : CallKey) (f : ℕ × BitVec 32) (packet : List UInt8) : Decoded × CallKey :=
  if key.keypopulated then (decodeResult key.dcx f packet, key)
  else tryKeys f packet key.candidates key

section Lengths

/-- The size of `cw_iax2_full_enc_hdr` or `cw_iax2_mini_enc_hdr` -/
def encHdr (packet : List UInt8) : ℕ := if isFull packet then 4 else 2

def plainHdr (packet : List UInt8) : ℕ := if isFull packet then 12 else 4

theorem encHdr_bounds (packet : List UInt8) :
    2 ≤ encHdr packet ∧ encHdr packet < plainHdr packet := by
  simp only [encHdr, plainHdr]
  split_ifs <;> omega

variable (aes : Aes)

theorem decodeFrame_eq :
    decodeFrame aes packet f = (decodeBody aes (encHdr packet) (plainHdr packet) packet).map
    fun p => (if isFull packet then fullType p else f, p) := by
  simp only [decodeFrame, encHdr, plainHdr]
  split_ifs <;> rfl

theorem length_decryptRounds (n : ℕ) (lastblock : Block) (src : List UInt8) :
    (decryptRounds aes n lastblock src).length = n * 16 := by
  induction n generalizing lastblock src with
  | zero => simp [decryptRounds]
  | succ n ih =>
    rw [decryptRounds, length_append, length_ofFn, ih]
    omega

theorem length_memcpyDecrypt (src : List UInt8) :
    (memcpyDecrypt aes src).length = (src.length + 15) / 16 * 16 := by
  rw [memcpyDecrypt, length_decryptRounds]

def padding (aes : Aes) (enc : ℕ) (packet : List UInt8) : ℕ :=
  16 + ((memcpyDecrypt aes (packet.drop enc)).getD 15 0 &&& 0xF).toNat

theorem decodeBody_cases (packet : List UInt8) (henc : enc ≤ hdr) :
    (decodeBody aes enc hdr packet = none ∧ packet.length < padding aes enc packet + hdr) ∨
      ∃ p, decodeBody aes enc hdr packet = some p ∧ padding aes enc packet + hdr ≤ packet.length ∧
        hdr ≤ p.length ∧ p.length + 16 ≤ packet.length := by
  have hlen :
      (memcpyDecrypt aes (packet.drop enc)).length = (packet.length - enc + 15) / 16 * 16 := by
    rw [length_memcpyDecrypt, length_drop]
  have hge : 16 ≤ padding aes enc packet := Nat.le_add_right 16 _
  have hbody : decodeBody aes enc hdr packet = if packet.length < 16 + hdr then none
      else if packet.length < padding aes enc packet + hdr then none
      else some (packet.take enc ++ ((memcpyDecrypt aes (packet.drop enc)).drop
        (padding aes enc packet)).take (packet.length - padding aes enc packet - enc)) := rfl
  rw [hbody]
  by_cases hshort : packet.length < 16 + hdr
  · exact .inl ⟨if_pos hshort, by omega⟩
  rw [if_neg hshort]
  by_cases hpad : packet.length < padding aes enc packet + hdr
  · exact .inl ⟨if_pos hpad, hpad⟩
  · rw [if_neg hpad]
    refine .inr ⟨_, rfl, not_lt.mp hpad, ?_, ?_⟩
    all_goals
      simp only [length_append, length_take, length_drop]
      omega

def LongEnough (aes : Aes) (packet : List UInt8) : Prop :=
  padding aes (encHdr packet) packet + plainHdr packet ≤ packet.length

theorem decodeResult_cases (f : ℕ × BitVec 32) (packet : List UInt8) :
    (decodeResult aes f packet = ⟨-1, f, packet⟩ ∧ ¬ LongEnough aes packet) ∨
      ((decodeResult aes f packet).res = 0 ∧ LongEnough aes packet ∧
        plainHdr packet ≤ (decodeResult aes f packet).packet.length ∧
        (decodeResult aes f packet).packet.length + 16 ≤ packet.length) := by
  rw [decodeResult, decodeFrame_eq]
  rcases decodeBody_cases aes packet (encHdr_bounds packet).2.le with ⟨hnone, hlt⟩ |
    ⟨p, hsome, hlen, hlow, hhigh⟩
  · rw [hnone]
    exact .inl ⟨rfl, not_le.mpr hlt⟩
  · rw [hsome]
    exact .inr ⟨rfl, hlen, hlow, hhigh⟩

end Lengths

/-- A packet is accepted only if whole blocks are encrypted, exactly these are decrypted, and what
is left has a header and is at least a block shorter. Otherwise it keeps its length. -/
def Sound (aes : Aes) (packet : List UInt8) (d : Decoded) : Prop :=
  (d.res = 0 ∧ 0 < packet.length - encHdr packet ∧ 16 ∣ packet.length - encHdr packet ∧
      (memcpyDecrypt aes (packet.drop (encHdr packet))).length = packet.length - encHdr packet ∧
      plainHdr packet ≤ d.packet.length ∧ d.packet.length + 16 ≤ packet.length) ∨
    (d.res = -1 ∧ d.packet.length = packet.length)

theorem decode_sound_iff (aes : Aes) (f : ℕ × BitVec 32) (packet : List UInt8) :
    Sound aes packet (decodeResult aes f packet) ↔
      (LongEnough aes packet → 16 ∣ packet.length - encHdr packet) := by
  rcases decodeResult_cases aes f packet with ⟨hnone, hshort⟩ | ⟨hres, hlong, hlow, hhigh⟩
  · rw [hnone]
    exact iff_of_true (.inr ⟨rfl, rfl⟩) fun hlong => absurd hlong hshort
  · have hhdr := encHdr_bounds packet
    rw [forall_prop_of_true hlong]
    simp only [Sound, hres, length_memcpyDecrypt, length_drop, true_and]
    constructor
    · rintro (⟨-, hdvd, -⟩ | ⟨h, -⟩)
      · exact hdvd
      · cases h
    · intro hdvd
      exact .inl ⟨by omega, hdvd, by omega, hlow, hhigh⟩

theorem tryKeys_cases (f : ℕ × BitVec 32) (packet : List UInt8) (candidates : List Aes)
    (key : CallKey) :
    ((tryKeys f packet candidates key).1 = ⟨-1, f, packet⟩ ∧
      ∀ aes ∈ candidates, ¬ LongEnough aes packet) ∨
      ∃ aes ∈ candidates, LongEnough aes packet ∧ (tryKeys f packet candidates key).2.dcx = aes ∧
        (tryKeys f packet candidates key).1 = decodeResult aes f packet := by
  induction candidates generalizing key with
  | nil => exact .inl ⟨rfl, by simp⟩
  | cons aes candidates ih =>
    simp only [tryKeys]
    rcases decodeResult_cases aes f packet with ⟨hnone, hshort⟩ | ⟨hres, hlong, -⟩
    · rw [if_neg (by simp [hnone])]
      rcases ih { key with dcx := aes } with ⟨heq, hall⟩ | ⟨aes', hmem, hlong, hkey, heq⟩
      · exact .inl ⟨heq, forall_mem_cons.mpr ⟨hshort, hall⟩⟩
      · exact .inr ⟨aes', mem_cons_of_mem _ hmem, hlong, hkey, heq⟩
    · rw [if_pos hres]
      exact .inr ⟨aes, mem_cons_self, hlong, rfl, rfl⟩

/-- With any key, and any search for one: the acceptance of a packet is sound if and only if it is
too short for its padding or consists of whole blocks behind its call numbers. -/
theorem decrypt_sound_iff (f : ℕ × BitVec 32) (packet : List UInt8) :
    (∀ aes, Sound aes packet (decodeResult aes f packet) ↔
      (LongEnough aes packet → 16 ∣ packet.length - encHdr packet)) ∧
    ∀ key, Sound (decryptFrame key f packet).2.dcx packet (decryptFrame key f packet).1 ↔
      ((∃ aes ∈ if key.keypopulated then [key.dcx] else key.candidates, LongEnough aes packet) →
        16 ∣ packet.length - encHdr packet) := by
  refine ⟨fun aes => decode_sound_iff aes f packet, fun key => ?_⟩
  simp only [decryptFrame]
  split_ifs
  · simp only [mem_singleton, exists_eq_left]
    exact decode_sound_iff key.dcx f packet
  · rcases tryKeys_cases f packet key.candidates key with ⟨heq, hall⟩ |
      ⟨aes, hmem, hlong, hkey, heq⟩
    · rw [heq]
      refine iff_of_true (.inr ⟨rfl, rfl⟩) ?_
      rintro ⟨aes, hmem, hlong⟩
      exact absurd hlong (hall aes hmem)
    · rw [heq, hkey, decode_sound_iff, forall_prop_of_true hlong,
        forall_prop_of_true ⟨aes, hmem, hlong⟩]

/-- A full frame with 25 bytes behind its call numbers is accepted. 32 bytes are decrypted, three
more than the workspace has. -/
theorem incomplete_block_accepted :
    decodeResult .plain (0, 0) (0x80 :: replicate 28 0) = ⟨0, (0, 0), 0x80 :: replicate 12 0⟩ ∧
      (memcpyDecrypt .plain ((0x80 :: replicate 28 0).drop 4)).length = 32 ∧
      ¬ Sound .plain (0x80 :: replicate 28 0)
      (decodeResult .plain (0, 0) (0x80 :: replicate 28 0)) := by
  refine ⟨by decide +kernel, by decide +kernel, ?_⟩
  rw [decode_sound_iff]
  unfold LongEnough
  decide +kernel

section RoundTrip

variable {poo behind bytes : List UInt8}

theorem memcpyDecrypt_memcpyEncrypt (hlen : bytes.length = n * 16) :
    memcpyDecrypt aes (memcpyEncrypt aes bytes) = bytes := by
  obtain ⟨bs, rfl, -⟩ := exists_joined 0 hlen
  rw [memcpyEncrypt_joined, memcpyDecrypt_joined, unchain_chain aes.decrypt_encrypt xorBlock_cancel]

theorem length_workspace_blocks (hpoo : poo.length = 32) (body : List UInt8) :
    (workspace poo body).length = (workspace poo body).length / 16 * 16 := by
  have hpad := paddingOf_eq body.length
  rw [length_workspace hpoo]
  omega

theorem drop_paddingOf (hpoo : poo.length = 32) (body : List UInt8) :
    (workspace poo body).drop (paddingOf body.length) = body := by
  have hpad := paddingOf_eq body.length
  obtain ⟨pad, hlen, hdrop⟩ := drop_workspace hpoo body
  have hsum : paddingOf body.length = 16 + pad.length := by omega
  rw [hsum, ← drop_drop, hdrop, drop_left]

theorem decodeBody_workspace (hpoo : poo.length = 32) (henc : enc ≤ hdr)
    (hlen : hdr ≤ packet.length) :
    decodeBody aes enc hdr
      (packet.take enc ++ memcpyEncrypt aes (workspace poo (packet.drop enc))) = some packet := by
  have hhead : (packet.take enc).length = enc := length_take_of_le (henc.trans hlen)
  have hblocks := length_workspace_blocks hpoo (packet.drop enc)
  have hbytes : memcpyDecrypt aes (memcpyEncrypt aes (workspace poo (packet.drop enc))) = _ :=
    memcpyDecrypt_memcpyEncrypt hblocks
  have hlength : (packet.take enc ++ memcpyEncrypt aes (workspace poo (packet.drop enc))).length =
      packet.length + paddingOf (packet.drop enc).length := by
    rw [length_append, hhead, length_memcpyEncrypt hblocks, length_workspace hpoo, length_drop]
    omega
  have hge : 16 ≤ paddingOf (packet.drop enc).length := Nat.le_add_right 16 _
  have hrest : (packet.drop enc).take (packet.length + paddingOf (packet.drop enc).length -
      paddingOf (packet.drop enc).length - enc) = packet.drop enc :=
    take_of_length_le (by rw [length_drop]; omega)
  simp only [decodeBody, drop_left' hhead, take_left' hhead, hbytes, hlength,
    workspace_nibble hpoo, drop_paddingOf hpoo]
  rw [if_neg (by omega), if_neg (by omega), hrest, take_append_drop]

theorem isFull_take_append (hn : 2 ≤ n) (hlen : n ≤ packet.length) (l : List UInt8) :
    isFull (packet.take n ++ l) = isFull packet := by
  obtain ⟨n, rfl⟩ := Nat.exists_eq_add_of_le' hn
  obtain _ | ⟨a, _ | ⟨b, rest⟩⟩ := packet
  · simp at hlen
  · simp at hlen
  · rfl

theorem decodeResult_encryptFrame (aes : Aes) (f : ℕ × BitVec 32) (behind : List UInt8)
    (hpoo : poo.length = 32) (hlen : plainHdr packet ≤ packet.length) :
    decodeResult aes f (encryptFrame aes packet poo behind).1 =
      ⟨0, if isFull packet then fullType packet else f, packet⟩ := by
  obtain ⟨htwo, hhdr⟩ := encHdr_bounds packet
  have hfull : isFull (encryptFrame aes packet poo behind).1 = isFull packet :=
    isFull_take_append htwo (hhdr.le.trans hlen) _
  have hbody : decodeBody aes (encHdr packet) (plainHdr packet)
      (encryptFrame aes packet poo behind).1 = some packet :=
    decodeBody_workspace hpoo hhdr.le hlen
  simp only [encHdr, plainHdr] at hbody
  simp only [decodeResult, decodeFrame_eq, encHdr, plainHdr, hfull, hbody, Option.map_some]

/-- What was encrypted is decoded to the frame it was, and consists of whole blocks. -/
theorem decode_encrypt (aes : Aes) (f : ℕ × BitVec 32) (hpoo : poo.length = 32)
    (hlen : plainHdr packet ≤ packet.length) :
    decodeResult aes f (encryptFrame aes packet poo behind).1 =
        ⟨0, if isFull packet then fullType packet else f, packet⟩ ∧
      16 ∣ (encryptFrame aes packet poo behind).1.length - encHdr packet := by
  refine ⟨decodeResult_encryptFrame aes f behind hpoo hlen, ?_⟩
  have hblocks := length_workspace_blocks hpoo (packet.drop (encHdr packet))
  have hhead : (packet.take (encHdr packet)).length = encHdr packet :=
    length_take_of_le ((encHdr_bounds packet).2.le.trans hlen)
  change 16 ∣ (packet.take (encHdr packet) ++
    memcpyEncrypt aes (workspace poo (packet.drop (encHdr packet)))).length - encHdr packet
  rw [length_append, hhead, Nat.add_sub_cancel_left, length_memcpyEncrypt hblocks, hblocks]
  exact Nat.dvd_mul_left _ _

def command : List UInt8 := 0x80 :: replicate 11 0

theorem decode_encrypt_command :
    decodeResult .plain (0, 0) (encryptFrame .plain command (replicate 32 0) []).1 =
        ⟨0, if isFull command then fullType command else (0, 0), command⟩ ∧
      16 ∣ (encryptFrame .plain command (replicate 32 0) []).1.length - encHdr command :=
  decode_encrypt .plain (0, 0) (by decide) (by decide)

end RoundTrip

section KeySearch

variable {poo behind : List UInt8}

/-- The keys that the secrets of a call give, in order. The key of a secret comes from its digest
with the challenge and serves for `ecx` and `dcx`. -/
def secretKeys (keyOf : CStr → Aes) (secret : CStr) : List Aes :=
  (secret.splitOn (chr ';')).map keyOf

theorem tryKeys_append (first rest : List Aes) (key : CallKey) :
    ((∀ aes ∈ first, ¬ LongEnough aes packet) ∧
        ∃ dcx,
        tryKeys f packet (first ++ rest) key = tryKeys f packet rest { key with dcx := dcx }) ∨
      (∃ aes ∈ first, LongEnough aes packet) ∧
      (tryKeys f packet (first ++ rest) key).2.dcx ∈ first := by
  induction first generalizing key with
  | nil => exact .inl ⟨by simp, key.dcx, rfl⟩
  | cons aes first ih =>
    simp only [cons_append, tryKeys]
    rcases decodeResult_cases aes f packet with ⟨hnone, hshort⟩ | ⟨hres, hlong, -⟩
    · rw [if_neg (by simp [hnone])]
      rcases ih { key with dcx := aes } with ⟨hall, hdcx⟩ | ⟨⟨aes', hmem, hlong⟩, hdcx⟩
      · exact .inl ⟨forall_mem_cons.mpr ⟨hshort, hall⟩, hdcx⟩
      · exact .inr ⟨⟨aes', mem_cons_of_mem _ hmem, hlong⟩, mem_cons_of_mem _ hdcx⟩
    · rw [if_pos hres]
      exact .inr ⟨⟨aes, mem_cons_self, hlong⟩, mem_cons_self⟩

/-- A frame of the peer is decoded and its key kept if and only if the packet is too short for every
key in front of the right one. -/
theorem key_search_iff (keyOf : CStr → Aes) {secret s : CStr} {first rest : List CStr} (dcx : Aes)
    (f : ℕ × BitVec 32) (hsecret : secret.splitOn (chr ';') = first ++ s :: rest)
    (hfirst : ∀ s' ∈ first, keyOf s' ≠ keyOf s) (hpoo : poo.length = 32)
    (hlen : plainHdr packet ≤ packet.length) :
    decryptFrame ⟨false, dcx, secretKeys keyOf secret⟩ f
      (encryptFrame (keyOf s) packet poo behind).1 =
        (⟨0, if isFull packet then fullType packet else f, packet⟩,
          ⟨true, keyOf s, secretKeys keyOf secret⟩) ↔
      ∀ s' ∈ first, ¬ LongEnough (keyOf s') (encryptFrame (keyOf s) packet poo behind).1 := by
  have hkeys : secretKeys keyOf secret = first.map keyOf ++ keyOf s :: rest.map keyOf := by
    rw [secretKeys, hsecret, map_append, map_cons]
  have hdecode := decodeResult_encryptFrame (keyOf s) f behind hpoo hlen
  simp only [decryptFrame, Bool.false_eq_true, if_false]
  rw [hkeys, ← forall_mem_map (P := fun aes => ¬ LongEnough aes _)]
  rcases tryKeys_append (first.map keyOf) (keyOf s :: rest.map keyOf) ⟨false, dcx, _⟩ with
    ⟨hall, dcx', heq⟩ | ⟨⟨aes, hmem, hlong⟩, hdcx⟩
  · rw [heq, tryKeys, hdecode]
    exact iff_of_true rfl hall
  · refine iff_of_false (fun h => ?_) fun hall => hall aes hmem hlong
    rw [h] at hdcx
    obtain ⟨s', hs', heq⟩ := mem_map.mp hdcx
    exact hfirst s' hs' heq

def Aes.inverted : Aes where
  encrypt b x := b x ^^^ 0xFF
  decrypt b x := b x ^^^ 0xFF
  decrypt_encrypt b := by
    funext x
    rw [UInt8.xor_assoc, UInt8.xor_self, UInt8.xor_zero]

/-- The key of the secret `a` is one, that of any other secret another one. -/
def keyOfSecret (s : CStr) : Aes := if s = [chr 'a'] then .inverted else .plain

/-- What the receiver makes of a frame encrypted with the key of another secret than `a`. -/
def searched (secret : CStr) : Decoded × CallKey :=
  decryptFrame ⟨false, .plain, secretKeys keyOfSecret secret⟩ (0, 0)
    (encryptFrame (keyOfSecret [chr 'b']) command (replicate 32 0) []).1

/-- With two bytes of data the packet is too short for the padding that the key of `a` gives. -/
theorem key_search_iff_second :
    decryptFrame ⟨false, .plain, secretKeys keyOfSecret [chr 'a', chr ';', chr 'b']⟩ (0, 0)
        (encryptFrame (keyOfSecret [chr 'b']) (command ++ [0, 0]) (replicate 32 0) []).1 =
      (⟨0, if isFull (command ++ [0, 0]) then fullType (command ++ [0, 0]) else (0, 0),
        command ++ [0, 0]⟩,
      ⟨true, keyOfSecret [chr 'b'], secretKeys keyOfSecret [chr 'a', chr ';', chr 'b']⟩) := by
  refine (key_search_iff keyOfSecret .plain (0, 0)
    (show splitOn (chr ';') _ = [[chr 'a']] ++ [chr 'b'] :: [] by decide) ?_ (by decide)
    (by decide)).mpr ?_
  · rintro s hs heq
    obtain rfl := mem_singleton.mp hs
    have hbyte := congrArg (fun aes => aes.decrypt (fun _ => 0) 0) heq
    exact absurd hbyte (by decide)
  · unfold LongEnough
    decide +kernel

theorem wrong_key_accepted :
    (searched [chr 'a', chr ';', chr 'b']).1.res = 0 ∧
      (searched [chr 'a', chr ';', chr 'b']).1.packet ≠ command ∧
      (searched [chr 'a', chr ';', chr 'b']).2.keypopulated = true ∧
      (searched [chr 'a', chr ';', chr 'b']).2.dcx.decrypt (fun _ => 0) 0 ≠
        (keyOfSecret [chr 'b']).decrypt (fun _ => 0) 0 := by
  decide +kernel

end KeySearch

end CallWeaver.Iax.Encryption
