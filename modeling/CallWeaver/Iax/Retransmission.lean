import CallWeaver.Base.Runs
import CallWeaver.Iax.Encryption

/-! # Retransmission of encrypted frames

The new `iseqno` is written where the plain header has it. In an encrypted frame that is a byte of
the first cipher block, so the receiver decrypts another first block, with another number of random
bytes, and finds one byte of the second block changed.
-/

namespace CallWeaver.Iax.Encryption

open List Option Function

variable {bytes : List UInt8} {n : ℕ}

section Chaining

variable {aes : Aes} {b c : Block} {bs : List Block} (a b : Block)

theorem xorBlock_cancel : xorBlock (xorBlock a b) a = b := by
  funext x
  simp only [xorBlock]
  rw [UInt8.xor_comm (a x) (b x), UInt8.xor_assoc, UInt8.xor_self, UInt8.xor_zero]

theorem xorBlock_zero (a : Block) : xorBlock a (fun _ => 0) = a := by
  funext x
  exact UInt8.xor_zero

variable (bs : List Block)

theorem cipherRounds_joined (b : Block) :
    encryptRounds aes bs.length b (joined bs) = joined (chain aes.encrypt xorBlock b bs) ∧
      decryptRounds aes bs.length b (joined bs) = joined (unchain aes.decrypt xorBlock b bs) := by
  induction bs generalizing b with
  | nil => exact ⟨rfl, rfl⟩
  | cons c bs ih =>
    have hdrop : (ofFn c ++ joined bs).drop 16 = joined bs := by simp
    rw [length_cons, encryptRounds, decryptRounds, joined_cons, blockAt_append, hdrop,
      (ih _).1, (ih _).2]
    exact ⟨(joined_cons ..).symm, (joined_cons ..).symm⟩

theorem rounds_joined : ((joined bs).length + 15) / 16 = bs.length := by
  rw [length_joined]
  omega

theorem memcpyEncrypt_joined :
    memcpyEncrypt aes (joined bs) = joined (chain aes.encrypt xorBlock (fun _ => 0) bs) := by
  rw [memcpyEncrypt, rounds_joined, (cipherRounds_joined bs _).1]

theorem memcpyDecrypt_joined :
    memcpyDecrypt aes (joined bs) = joined (unchain aes.decrypt xorBlock (fun _ => 0) bs) := by
  rw [memcpyDecrypt, rounds_joined, (cipherRounds_joined bs _).2]

theorem xorBlock_update (i : Fin 16) (x : UInt8) :
    xorBlock (xorBlock a b) (update a i x) = update b i (b i ^^^ (a i ^^^ x)) := by
  funext j
  by_cases hj : j = i
  · subst hj
    simp only [xorBlock, update_self]
    rw [UInt8.xor_comm (a j), UInt8.xor_assoc]
  · rw [update_of_ne hj, ← congrFun (xorBlock_cancel a b) j]
    simp only [xorBlock, update_of_ne hj]

theorem decrypt_first (hlen : bytes.length = (n + 1) * 16) :
    aes.decrypt (blockAt 0 (memcpyEncrypt aes bytes)) = blockAt 0 bytes := by
  obtain ⟨bs, rfl, hbs⟩ := exists_joined 0 hlen
  cases bs with
  | nil => simp at hbs
  | cons b bs =>
    rw [memcpyEncrypt_joined, chain, joined_cons, joined_cons, blockAt_append, blockAt_append,
      aes.decrypt_encrypt]
    funext x
    exact UInt8.zero_xor

theorem memcpyDecrypt_set (hlen : bytes.length = (n + 2) * 16)
    (hc : c = blockAt 0 (memcpyEncrypt aes bytes)) (i : Fin 16) (x : UInt8) :
    memcpyDecrypt aes ((memcpyEncrypt aes bytes).set i x) = ofFn (aes.decrypt (update c i x)) ++
        (bytes.drop 16).set i ((bytes.drop 16).getD i 0 ^^^ (c i ^^^ x)) := by
  obtain ⟨bs, rfl, hbs⟩ := exists_joined 0 hlen
  obtain _ | ⟨b, _ | ⟨b', bs⟩⟩ := bs
  · simp at hbs
  · simp at hbs
  · have hdrop : (joined (b :: b' :: bs)).drop 16 = joined (b' :: bs) := by
      rw [joined_cons, drop_left' (by simp)]
    have hbyte : (joined (b' :: bs)).getD i 0 = b' i :=
      congrFun (blockAt_append 0 b' (joined bs)) i
    rw [memcpyEncrypt_joined, chain, joined_cons, blockAt_append] at hc
    rw [memcpyEncrypt_joined, chain, ← hc, joined_set, memcpyDecrypt_joined,
      unchain_replace aes.decrypt_encrypt xorBlock_cancel, xorBlock_zero, xorBlock_update, hdrop,
      joined_set, hbyte, joined_cons]

end Chaining

section Padding

theorem paddingOf_eq (len : ℕ) : paddingOf len = 16 + (16 - len % 16) % 16 := by
  rw [paddingOf, Nat.and_two_pow_sub_one_eq_mod _ 4]

variable {poo body : List UInt8} (hpoo : poo.length = 32)

include hpoo

theorem length_workspace (body : List UInt8) :
    (workspace poo body).length = paddingOf body.length + body.length := by
  have hpad := paddingOf_eq body.length
  simp only [workspace, length_set, length_append, length_take]
  omega

theorem workspace_blocks (hbody : 8 ≤ body.length) :
    ∃ n, (workspace poo body).length = (n + 2) * 16 := by
  have hpad := paddingOf_eq body.length
  refine ⟨(workspace poo body).length / 16 - 2, ?_⟩
  rw [length_workspace hpoo]
  omega

theorem drop_workspace (body : List UInt8) :
    ∃ pad, pad.length = paddingOf body.length - 16 ∧
      (workspace poo body).drop 16 = pad ++ body := by
  have hpad := paddingOf_eq body.length
  refine ⟨(poo.take (paddingOf body.length)).drop 16, ?_, ?_⟩
  · simp only [length_drop, length_take]
    omega
  · rw [workspace, drop_set_of_lt (by decide), drop_append_of_le_length]
    rw [length_take]
    omega

theorem workspace_nibble (body : List UInt8) :
    16 + ((workspace poo body).getD 15 0 &&& 0xF).toNat = paddingOf body.length := by
  have hpad := paddingOf_eq body.length
  have hset : (workspace poo body).getD 15 0 =
      (poo.take (paddingOf body.length) ++ body).getD 15 0 &&& 0xF0 |||
        UInt8.ofNat (paddingOf body.length &&& 0xF) := by
    rw [workspace, getD_eq_getElem _ _ (by simp; omega), getElem_set_self]
  have hbyte : ∀ (y : UInt8), ∀ k < 16, ((y &&& 0xF0 ||| UInt8.ofNat k) &&& 0xF).toNat = k := by
    have hlow : ∀ k < 16, (UInt8.ofNat k &&& 0xF).toNat = k := by decide
    intro y k hk
    rw [UInt8.toNat_and, UInt8.toNat_or, UInt8.toNat_and, Nat.and_or_distrib_right, Nat.and_assoc,
      ← UInt8.toNat_and (UInt8.ofNat k), hlow k hk]
    simp
  rw [hset, Nat.and_two_pow_sub_one_eq_mod _ 4, hbyte _ _ (Nat.mod_lt _ (by decide))]
  omega

end Padding

section Decoding

variable {aes : Aes} {poo body hdr packet : List UInt8} {c : Block} {x : UInt8}

theorem length_memcpyEncrypt (hlen : bytes.length = n * 16) :
    (memcpyEncrypt aes bytes).length = bytes.length := by
  obtain ⟨bs, rfl, hbs⟩ := exists_joined 0 hlen
  rw [memcpyEncrypt_joined, length_joined, length_joined, length_chain]

/-- The number of random bytes that the receiver finds after `x` was written into the first cipher
block `c`. -/
def paddingRead (aes : Aes) (c : Block) (x : UInt8) : ℕ :=
  16 + (aes.decrypt (update c 5 x) 15 &&& 0xF).toNat

def garbled (poo body : List UInt8) (c : Block) (x : UInt8) : List UInt8 :=
  ((workspace poo body).drop 16).set 5 (((workspace poo body).drop 16).getD 5 0 ^^^ (c 5 ^^^ x))

def bodyFields (body : List UInt8) : Received :=
  { frametype := (body.getD 6 0).toNat
    subclass := unpackSubclass (body.getD 6 0).toNat (body.getD 7 0)
    ts := ntohl (body.getD 0 0) (body.getD 1 0) (body.getD 2 0) (body.getD 3 0)
    oseqno := body.getD 4 0, data := body.drop 8 }

theorem receiveFull_of_decodeBody (hhdr : hdr.length = 4) (hfull : isFull packet = true)
    (h : decodeBody aes 4 12 packet = some (hdr ++ body)) :
    receiveFull aes packet = some (bodyFields body) := by
  have hget : ∀ i, (hdr ++ body).getD (4 + i) 0 = body.getD i 0 := by
    intro i
    rw [getD_append_right _ _ _ _ (by omega), hhdr, Nat.add_sub_cancel_left]
  have hdrop : (hdr ++ body).drop 12 = body.drop 8 := by
    rw [drop_append, drop_of_length_le (by omega), hhdr, nil_append]
  simp only [receiveFull, decodeFrame, hfull, if_true, h, map_some, fullType, bodyFields,
    hdrop, ← hget]

variable (hpoo : poo.length = 32)

include hpoo

theorem length_garbled (body : List UInt8) (c : Block) (x : UInt8) :
    (garbled poo body c x).length = paddingOf body.length + body.length - 16 := by
  rw [garbled, length_set, length_drop, length_workspace hpoo]

theorem decodeBody_set (hbody : 8 ≤ body.length) (hhdr : hdr.length = 4)
    (hc : c = blockAt 0 (memcpyEncrypt aes (workspace poo body))) (x : UInt8) :
    decodeBody aes 4 12 (hdr ++ (memcpyEncrypt aes (workspace poo body)).set 5 x) =
      if paddingOf body.length + body.length < paddingRead aes c x + 8 then none
      else some (hdr ++ (garbled poo body c x).drop (paddingRead aes c x - 16)) := by
  obtain ⟨n, hn⟩ := workspace_blocks hpoo hbody
  have hlen := length_workspace hpoo body
  have hpacket : (hdr ++ (memcpyEncrypt aes (workspace poo body)).set 5 x).length =
      4 + (paddingOf body.length + body.length) := by
    rw [length_append, length_set, length_memcpyEncrypt hn, hhdr, hlen]
  have hdecrypt : memcpyDecrypt aes ((memcpyEncrypt aes (workspace poo body)).set 5 x) =
      ofFn (aes.decrypt (update c 5 x)) ++ garbled poo body c x :=
    memcpyDecrypt_set hn hc 5 x
  have hnibble : (ofFn (aes.decrypt (update c 5 x)) ++ garbled poo body c x).getD 15 0 =
      aes.decrypt (update c 5 x) 15 := congrFun (blockAt_append 0 _ _) 15
  rw [decodeBody, if_neg (by rw [hpacket, ← hlen]; omega)]
  simp only [drop_left' hhdr, take_left' hhdr, hdecrypt, hnibble, hpacket]
  rw [← paddingRead]
  have hge : 16 ≤ paddingRead aes c x := Nat.le_add_right _ _
  have hcut : (ofFn (aes.decrypt (update c 5 x)) ++ garbled poo body c x).drop
      (paddingRead aes c x) = (garbled poo body c x).drop (paddingRead aes c x - 16) := by
    rw [drop_append, drop_of_length_le (by simpa using hge), nil_append, length_ofFn]
  have htake : ((garbled poo body c x).drop (paddingRead aes c x - 16)).take
      (4 + (paddingOf body.length + body.length) - paddingRead aes c x - 4) =
        (garbled poo body c x).drop (paddingRead aes c x - 16) := by
    apply take_of_length_le
    rw [length_drop, length_garbled hpoo]
    omega
  rw [hcut, htake]
  by_cases hshort : paddingOf body.length + body.length < paddingRead aes c x + 8
  · rw [if_pos hshort, if_pos (by omega)]
  · rw [if_neg hshort, if_neg (by omega)]

theorem drop_garbled (body : List UInt8) (c : Block) (x : UInt8) :
    (garbled poo body c x).drop (paddingOf body.length - 16) =
      if paddingOf body.length ≤ 21 then
        body.set (21 - paddingOf body.length)
        (body.getD (21 - paddingOf body.length) 0 ^^^ (c 5 ^^^ x))
      else body := by
  obtain ⟨pad, hpad, hdrop⟩ := drop_workspace hpoo body
  have hge := paddingOf_eq body.length
  rw [garbled, hdrop, ← hpad]
  by_cases hle : paddingOf body.length ≤ 21
  · have hi : 5 - pad.length = 21 - paddingOf body.length := by omega
    rw [if_pos hle, set_append_right _ _ (by omega), getD_append_right _ _ _ _ (by omega),
      hi, drop_left]
  · rw [if_neg hle, set_append_left _ _ (by omega), drop_left' (by simp)]

theorem paddingRead_self (hbody : 8 ≤ body.length)
    (hc : c = blockAt 0 (memcpyEncrypt aes (workspace poo body))) :
    paddingRead aes c (c 5) = paddingOf body.length := by
  obtain ⟨n, hn⟩ := workspace_blocks hpoo hbody
  rw [paddingRead, update_eq_self, hc, decrypt_first (n := n + 1) hn]
  exact workspace_nibble hpoo body

end Decoding

section Frames

variable {aes : Aes} {poo hdr body : List UInt8} {c : Block} {x : UInt8} {f : Frame} {ts j : ℕ}
  {oseqno iseqno : UInt8}

def Frame.Representable (f : Frame) : Prop :=
  f.frametype < 256 ∧ unpackSubclass f.frametype (packSubclass f.frametype f.subclass) = f.subclass
  deriving Decidable

def Frame.received (f : Frame) (ts : ℕ) (oseqno : UInt8) : Received :=
  ⟨f.frametype, f.subclass, ts, oseqno, f.data⟩

theorem Frame.representable_iff (f : Frame) :
    f.Representable ↔ (UInt8.ofNat f.frametype).toNat = f.frametype ∧
      unpackSubclass (UInt8.ofNat f.frametype).toNat (packSubclass f.frametype f.subclass) =
        f.subclass := by
  have hlt : f.frametype < 256 ↔ (UInt8.ofNat f.frametype).toNat = f.frametype := by
    rw [UInt8.toNat_ofNat']
    omega
  rw [Frame.Representable, hlt]
  exact and_congr_right fun h => by rw [h]

theorem ntohl_htonl_iff (hts : ts < 4294967296) (b₃ b₂ b₁ b₀ : UInt8) :
    ntohl b₃ b₂ b₁ b₀ = ts ↔ b₃ = UInt8.ofNat (ts / 65536 / 256) ∧ b₂ = UInt8.ofNat (ts / 65536) ∧
      b₁ = UInt8.ofNat (ts / 256) ∧ b₀ = UInt8.ofNat ts := by
  have h₂ := b₂.toNat_lt
  have h₁ := b₁.toNat_lt
  have h₀ := b₀.toNat_lt
  simp only [ntohl, ntohs, ← UInt8.toNat_inj, UInt8.toNat_ofNat']
  omega

/-- One of the first six bytes of a frame is exchanged. All but the last one are needed. -/
theorem bodyFields_set (oseqno iseqno : UInt8) (f : Frame) (hts : ts < 4294967296) (hj : j ≤ 5)
    (y : UInt8) :
    bodyFields ((fullBody ts oseqno iseqno f).set j y) = f.received ts oseqno ↔
      f.Representable ∧ (j = 5 ∨ y = (fullBody ts oseqno iseqno f).getD j 0) := by
  rw [f.representable_iff]
  obtain rfl | rfl | rfl | rfl | rfl | rfl :
      j = 0 ∨ j = 1 ∨ j = 2 ∨ j = 3 ∨ j = 4 ∨ j = 5 := by
    omega
  all_goals
    simp [bodyFields, fullBody, htonl, htons, Frame.received, ntohl_htonl_iff hts, and_assoc]

theorem bodyFields_fullBody (hts : ts < 4294967296) :
    bodyFields (fullBody ts oseqno iseqno f) = f.received ts oseqno ↔ f.Representable := by
  have h := bodyFields_set oseqno iseqno f hts (le_refl 5) iseqno
  rw [or_iff_left_of_imp (fun _ => rfl), and_iff_left rfl] at h
  exact h

/-- When a frame is read with `x` in its first cipher block `c`, where `len` bytes were encrypted
with their random bytes: the byte is the same as before; or the receiver finds the right number of
random bytes, and the byte that changes in the second block is the `iseqno` or a random one. -/
def Survives (aes : Aes) (c : Block) (len : ℕ) (x : UInt8) : Prop :=
  x = c 5 ∨ paddingRead aes c x = paddingOf len ∧ (paddingOf len = 16 ∨ 22 ≤ paddingOf len)
  deriving Decidable

theorem length_fullBody (ts : ℕ) (oseqno iseqno : UInt8) (f : Frame) :
    (fullBody ts oseqno iseqno f).length = 8 + f.data.length := by
  simp [fullBody]
  omega

theorem xor_change_iff (a b x : UInt8) : a ^^^ (b ^^^ x) = a ↔ x = b := by
  calc a ^^^ (b ^^^ x) = a ↔ a ^^^ (b ^^^ x) = a ^^^ 0 := by rw [UInt8.xor_zero]
    _ ↔ b ^^^ x = 0 := UInt8.xor_right_inj a
    _ ↔ x = b := by rw [UInt8.xor_eq_zero_iff, eq_comm]

theorem receiveFull_set_iff (hpoo : poo.length = 32) (hts : ts < 4294967296) (hhdr : hdr.length = 4)
    (hfull : ∀ l, isFull (hdr ++ l) = true) (hb : body = fullBody ts oseqno iseqno f)
    (hc : c = blockAt 0 (memcpyEncrypt aes (workspace poo body))) (x : UInt8) :
    receiveFull aes (hdr ++ (memcpyEncrypt aes (workspace poo body)).set 5 x) =
      some (f.received ts oseqno) ↔ f.Representable ∧ Survives aes c (8 + f.data.length) x := by
  have hlen := length_fullBody ts oseqno iseqno f
  rw [← hb] at hlen
  have hself := paddingRead_self hpoo (by omega) hc
  have hdecode := decodeBody_set hpoo (by omega) hhdr hc x
  rw [← hlen]
  have hge := paddingOf_eq body.length
  by_cases hpad : paddingRead aes c x = paddingOf body.length
  · rw [hpad, if_neg (by omega), drop_garbled hpoo] at hdecode
    rw [receiveFull_of_decodeBody hhdr (hfull _) hdecode, some_inj, Survives, hpad]
    by_cases hle : paddingOf body.length ≤ 21 <;> subst hb
    · rw [if_pos hle, bodyFields_set _ _ _ hts (by omega), xor_change_iff]
      apply and_congr_right'
      rw [or_comm]
      exact or_congr_right (by omega)
    · rw [if_neg hle, bodyFields_fullBody hts]
      exact (and_iff_left (.inr ⟨rfl, .inr (by omega)⟩)).symm
  · have hdead : ¬ Survives aes c body.length x := by
      rintro (rfl | ⟨h, -⟩)
      · exact hpad hself
      · exact hpad h
    -- another number of random bytes leaves another number of bytes for the payload
    refine iff_of_false ?_ (fun h => hdead h.2)
    intro heq
    by_cases hshort : paddingOf body.length + body.length < paddingRead aes c x + 8
    · rw [if_pos hshort] at hdecode
      simp [receiveFull, decodeFrame, hfull, hdecode] at heq
    · rw [if_neg hshort] at hdecode
      rw [receiveFull_of_decodeBody hhdr (hfull _) hdecode] at heq
      have hdata := congrArg (length ∘ Received.data) (some.inj heq)
      simp only [comp, bodyFields, Frame.received, length_drop, length_garbled hpoo] at hdata
      have : 16 ≤ paddingRead aes c x := Nat.le_add_right _ _
      omega

end Frames

section Runs

variable {aes : Aes} {pvt : Pvt} {f : Frame} {fts callno : ℕ} {seqno : Option UInt8}
  {transfer : Bool}
  {behind poo enc : List UInt8} {oseqno iseqno : UInt8} {maxRetries : ℤ} {s t : Pending} {op : Op}
  {ops : List Op} {fr : IaxFrame}

theorem isFull_htons (n : ℕ) (l : List UInt8) : isFull (htons (n ||| 0x8000) ++ l) = true := by
  have hbit : ((n ||| 0x8000) % 65536 &&& 0x8000).testBit 15 = true := by
    have hflag : Nat.testBit 0x8000 15 = true := by decide
    simp [Nat.testBit_and, Nat.testBit_or, Nat.testBit_mod_two_pow (j := 16), hflag]
  have hne : (n ||| 0x8000) % 65536 &&& 0x8000 ≠ 0 := by
    intro h
    rw [h] at hbit
    simp at hbit
  simp only [isFull, htons, cons_append, getD_cons_zero, getD_cons_succ, ntohs_htons]
  exact decide_eq_true hne

/-- The queued frame differs from the encrypted one in the destination and the `iseqno` byte only.
-/
def IaxFrame.Kept (callno : ℕ) (enc : List UInt8) (fr : IaxFrame) : Prop :=
  ∃ dcallno enc', fr.data = htons (callno ||| 0x8000) ++ htons dcallno ++ enc' ∧
    ∀ x, enc'.set 5 x = enc.set 5 x

theorem iax2Send_data (aes : Aes) (pvt : Pvt) (f : Frame) (fts : ℕ) (seqno : Option UInt8)
    (transfer : Bool) (behind : List UInt8) :
    (iax2Send aes pvt f fts seqno transfer behind).2.data =
      htons (pvt.callno ||| 0x8000) ++
      htons (iax2Send aes pvt f fts seqno transfer behind).2.dcallno ++
        memcpyEncrypt aes (workspace pvt.semirand (fullBody fts (seqno.getD pvt.oseqno)
          (if transfer then 0 else pvt.iseqno) f)) := by
  simp only [iax2Send, encryptFrame]
  rw [append_assoc, isFull_htons, if_pos rfl]
  rfl

theorem IaxFrame.Kept.updatePacket (h : fr.Kept callno enc) (x : UInt8) :
    (updatePacket x fr).data =
      htons (callno ||| 0x8000) ++ htons (0x8000 ||| fr.dcallno) ++ enc.set 5 x := by
  obtain ⟨dcallno, enc', hdata, hset⟩ := h
  rw [← hset]
  simp only [Encryption.updatePacket, hdata]
  rfl

theorem IaxFrame.Kept.attempted (h : fr.Kept callno enc) (x : UInt8) :
    (Encryption.updatePacket x fr).Kept callno enc :=
  ⟨_, _, h.updatePacket x, fun y => by rw [set_set]⟩

def IaxFrame.firstBlock (fr : IaxFrame) : Block := blockAt 0 (fr.data.drop 4)

/-- Every packet sent survives the `iseqno` written into it; `c` is the first cipher block. -/
def Intact (aes : Aes) (maxRetries : ℤ) (f : Frame) (c : Block) (s : Pending) (op : Op) : Prop :=
  match op with
  | .attempt (some iseqno) => ∀ fr ∈ s.frame, 0 ≤ fr.retries → fr.retries < maxRetries →
      f.Representable ∧ Survives aes c (8 + f.data.length) iseqno
  | _ => True

/-- A packet is sent again, or the frame is freed, or it is acknowledged. -/
theorem step_cases (h : step maxRetries s op = some t) :
    (∃ x fr, op = .attempt (some x) ∧ s.frame = some fr ∧ 0 ≤ fr.retries ∧ fr.retries < maxRetries ∧
      t = ⟨some { updatePacket x fr with retries := fr.retries + 1 },
        s.sent ++ [(updatePacket x fr).data]⟩) ∨
    (∃ call, op = .attempt call ∧
      (∀ fr ∈ s.frame, call.isSome → fr.retries < 0 ∨ maxRetries ≤ fr.retries) ∧
      t = ⟨none, s.sent⟩) ∨
    (op = .ack ∧ t = { s with frame := s.frame.map ({ · with retries := -1 }) }) := by
  cases op with
  | ack => exact .inr (.inr ⟨rfl, (some.inj h).symm⟩)
  | attempt call =>
    obtain ⟨fr, hfr, ht⟩ := map_eq_some_iff.mp h
    cases call with
    | none =>
      refine .inr (.inl ⟨none, rfl, ?_, ?_⟩)
      · simp
      · rw [← ht]
        simp [attemptTransmit]
    | some x =>
      by_cases hdone : fr.retries < 0 ∨ fr.retries ≥ maxRetries
      · rw [attemptTransmit, if_pos hdone] at ht
        refine .inr (.inl ⟨some x, rfl, ?_, ?_⟩)
        · intro fr' hfr' _
          obtain rfl := some.inj (hfr.symm.trans hfr')
          exact hdone
        · rw [← ht]
          simp
      · rw [attemptTransmit, if_neg hdone] at ht
        exact .inl ⟨x, fr, rfl, hfr, by omega, by omega, ht.symm⟩

theorem kept_step (hpoo : poo.length = 32) (hts : fts < 4294967296)
    (henc : enc = memcpyEncrypt aes (workspace poo (fullBody fts oseqno iseqno f)))
    (hi : ∀ fr ∈ s.frame, fr.Kept callno enc) (h : step maxRetries s op = some t) :
    (∀ fr ∈ t.frame, fr.Kept callno enc) ∧
      ((∀ p ∈ t.sent, receiveFull aes p = some (f.received fts oseqno)) ↔
        (∀ p ∈ s.sent, receiveFull aes p = some (f.received fts oseqno)) ∧
          Intact aes maxRetries f (blockAt 0 enc) s op) := by
  obtain ⟨x, fr, rfl, hfr, hlow, hhigh, rfl⟩ | ⟨call, rfl, hdone, rfl⟩ | ⟨rfl, rfl⟩ := step_cases h
  · have hkept := hi fr hfr
    constructor
    · rintro fr' hfr'
      obtain rfl := some.inj hfr'
      exact hkept.attempted x
    · have hread : receiveFull aes (updatePacket x fr).data = some (f.received fts oseqno) ↔
          f.Representable ∧ Survives aes (blockAt 0 enc) (8 + f.data.length) x := by
        rw [hkept.updatePacket, henc]
        exact receiveFull_set_iff hpoo hts rfl
          (fun l => by rw [append_assoc, isFull_htons]) rfl rfl x
      simp only [forall_mem_append, forall_mem_singleton, hread, Intact, hfr, mem_some_iff,
        forall_eq', hlow, hhigh, true_implies]
  · have hintact : Intact aes maxRetries f (blockAt 0 enc) s (.attempt call) := by
      cases call with
      | none => trivial
      | some x =>
        intro fr hfr hlow hhigh
        have := hdone fr hfr rfl
        omega
    exact ⟨by simp, (and_iff_left hintact).symm⟩
  · constructor
    · intro fr hfr
      obtain ⟨fr', hfr', rfl⟩ := map_eq_some_iff.mp hfr
      exact hi fr' hfr'
    · exact (and_iff_left trivial).symm

theorem retransmission_iff (hpoo : pvt.semirand.length = 32) (hts : fts < 4294967296)
    (h : Runs (step maxRetries) anyStep ⟨some (iax2Send aes pvt f fts seqno transfer behind).2, []⟩
      ops t) :
    (∀ p ∈ t.sent, receiveFull aes p =
        some (f.received fts (iax2Send aes pvt f fts seqno transfer behind).2.oseqno)) ↔
      Runs (step maxRetries) (fun s op _ => Intact aes maxRetries f
          (iax2Send aes pvt f fts seqno transfer behind).2.firstBlock s op)
        ⟨some (iax2Send aes pvt f fts seqno transfer behind).2, []⟩ ops t := by
  have hdata := iax2Send_data aes pvt f fts seqno transfer behind
  have hseqno : (iax2Send aes pvt f fts seqno transfer behind).2.oseqno = seqno.getD pvt.oseqno :=
    rfl
  generalize henc : memcpyEncrypt aes (workspace pvt.semirand (fullBody fts (seqno.getD pvt.oseqno)
    (if transfer then 0 else pvt.iseqno) f)) = enc at hdata
  generalize (iax2Send aes pvt f fts seqno transfer behind).2 = fr at hdata hseqno h ⊢
  have hblock : fr.firstBlock = blockAt 0 enc := by
    rw [IaxFrame.firstBlock, hdata]
    rfl
  have hkept : ∀ fr' ∈ some fr, fr'.Kept pvt.callno enc := by
    rintro _ ⟨⟩
    exact ⟨_, _, hdata, fun x => rfl⟩
  have hiff := h.iff_all (I := fun s => ∀ fr ∈ s.frame, fr.Kept pvt.callno enc)
    (P := fun s => ∀ p ∈ s.sent, receiveFull aes p = some (f.received fts (seqno.getD pvt.oseqno)))
    (C := fun s op _ => Intact aes maxRetries f (blockAt 0 enc) s op)
    (fun s op t hi hstep _ => kept_step hpoo hts henc.symm hi hstep) hkept
  rw [hblock, hseqno]
  simpa only [anyStep, true_and, not_mem_nil, false_implies, implies_true] using hiff

def Aes.plain : Aes := ⟨id, id, fun _ => rfl⟩

def newPvt : Pvt := ⟨1, 2, 0, 0, 0, 0, replicate 32 0⟩

/-- A command without payload is sent again with another `iseqno`. -/
theorem retransmission_iff_command : ∃ t,
    Runs (step 4) anyStep ⟨some (iax2Send .plain newPvt ⟨6, 2, []⟩ 1000 none false []).2, []⟩
        [.attempt (some 7)] t ∧
      ((∀ p ∈ t.sent, receiveFull .plain p = some (Frame.received ⟨6, 2, []⟩ 1000 0)) ↔
        Runs (step 4) (fun s op _ => Intact .plain 4 ⟨6, 2, []⟩
            (iax2Send .plain newPvt ⟨6, 2, []⟩ 1000 none false []).2.firstBlock s op)
          ⟨some (iax2Send .plain newPvt ⟨6, 2, []⟩ 1000 none false []).2, []⟩
          [.attempt (some 7)] t) :=
  exists_run_of_exec rfl (retransmission_iff rfl (by decide))

/-- The receiver takes the frame with the number 0 for the one with the number 7. -/
theorem retransmission_garbled : ∃ t, Runs (step 4) anyStep
        ⟨some (iax2Send .plain newPvt ⟨6, 2, replicate 7 1⟩ 1000 none false []).2, []⟩
        [.attempt (some 7)] t ∧
      ∃ p ∈ t.sent, receiveFull .plain p ≠ some (Frame.received ⟨6, 2, replicate 7 1⟩ 1000 0) ∧
        receiveFull .plain p = some (Frame.received ⟨6, 2, replicate 7 1⟩ 1000 7) :=
  exists_runs_of_exec (by decide +kernel)

end Runs

end CallWeaver.Iax.Encryption
