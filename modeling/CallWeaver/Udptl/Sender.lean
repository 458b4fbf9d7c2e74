import Mathlib.Data.List.Forall2
import CallWeaver.Udptl.Packet

/-! # The sending end

The ring of the sender holds its last sixteen messages, and each packet opens
with its number and its own message.
-/

namespace CallWeaver.Udptl

open List

theorem bufMask_eq_iff {a b : ℤ} : bufMask a = bufMask b ↔ a % 16 = b % 16 := by
  unfold bufMask
  omega

theorem bufMask_add (a b : ℤ) : bufMask (bufMask a + b) = bufMask (a + b) := by
  unfold bufMask
  omega

theorem mapM_eq_map {α β : Type*} {f : α → Option β} {g : α → β} {l : List α}
    (h : ∀ a ∈ l, f a = some (g a)) : l.mapM f = some (l.map g) := by
  induction l with
  | nil => rfl
  | cons a l ih => simp [mapM_cons, h a (by simp), ih fun b hb => h b (by simp [hb])]

def IsMessage (d : List UInt8) : Prop := d ≠ [] ∧ d.length ≤ localFaxMaxDatagram
  deriving Decidable

variable {msgs : List (List UInt8)}

theorem forall_getD {P : List UInt8 → Prop} (h : ∀ d ∈ msgs, P d) :
    ∀ j < msgs.length, P (msgs.getD j []) := by
  intro j hj
  rw [getD_eq_getElem?_getD, getElem?_eq_getElem hj]
  exact h _ (getElem_mem hj)

theorem map_getD_range' (msgs : List (List UInt8)) :
    (range' 0 msgs.length).map (fun j => msgs.getD j []) = msgs := by
  rw [← range_eq_range']
  exact ext_getElem (by simp) fun i h₁ h₂ => by simp [h₂]

def TxBuffer.Holds (t : TxBuffer) (d : List UInt8) : Prop :=
  t.bufLen = d.length ∧ t.buf.take d.length = d

def TxRing (m : ℕ → List UInt8) (k : ℕ) (tx : ℕ → TxBuffer) : Prop :=
  ∀ j < k, k ≤ j + 16 → (tx (bufMask j)).Holds (m j)

structure TxOk (scheme : ErrorCorrection) (entries span : ℕ) (m : ℕ → List UInt8) (k n : ℕ)
    (s : CwUdptl) : Prop where
  scheme : s.errorCorrectionScheme = scheme
  entries : s.errorCorrectionEntries = entries
  span : s.errorCorrectionSpan = span
  seq : s.txSeqNo = k
  ring : TxRing m n s.tx

variable {scheme : ErrorCorrection} {entries span : ℕ} {m : ℕ → List UInt8} {k : ℕ} {s : CwUdptl}

theorem TxOk.new : TxOk scheme entries span m 0 0 (cwUdptlNew scheme entries span) :=
  ⟨rfl, rfl, rfl, rfl, fun j hj => absurd hj (Nat.not_lt_zero j)⟩

theorem TxRing.save (h : TxRing m k s.tx) :
    TxRing m (k + 1) (saveMessage s (bufMask k) (m k)).tx := by
  intro j hj hk
  rcases Nat.lt_succ_iff_lt_or_eq.mp hj with hlt | rfl
  · have hne : bufMask j ≠ bufMask k := mt bufMask_eq_iff.mp (by omega)
    simp only [saveMessage, Function.update_of_ne hne]
    exact h j hlt (by omega)
  · simp [saveMessage, TxBuffer.Holds]

theorem TxOk.save (h : TxOk scheme entries span m k k s) :
    TxOk scheme entries span m k (k + 1) (saveMessage s (bufMask k) (m k)) :=
  ⟨h.scheme, h.entries, h.span, h.seq, h.ring.save⟩

theorem TxOk.sent (h : TxOk scheme entries span m k (k + 1) s) :
    TxOk scheme entries span m (k + 1) (k + 1) { s with txSeqNo := k + 1 } :=
  ⟨h.scheme, h.entries, h.span, rfl, h.ring⟩

def header (k : ℕ) : List UInt8 := [UInt8.ofNat (k >>> 8), UInt8.ofNat k]

def packetOf (m r : ℕ → List UInt8) (k : ℕ) : List UInt8 := header k ++ openType (m k) ++ r k

theorem header_mod (k : ℕ) : header (k % 65536) = header k := by
  have hhi : UInt8.ofNat ((k % 65536) >>> 8) = UInt8.ofNat (k >>> 8) := by
    apply UInt8.toNat_inj.mp
    rw [UInt8.toNat_ofNat', UInt8.toNat_ofNat', Nat.shiftRight_eq_div_pow,
      Nat.shiftRight_eq_div_pow]
    omega
  have hlo : UInt8.ofNat (k % 65536) = UInt8.ofNat k := by
    apply UInt8.toNat_inj.mp
    rw [UInt8.toNat_ofNat', UInt8.toNat_ofNat']
    omega
  rw [header, header, hhi, hlo]

def wireMessage (d : List UInt8) : List UInt8 := if d = [] then [0] else d

variable {d data primary rec : List UInt8}

theorem wireMessage_of_ne (h : d ≠ []) : wireMessage d = d := if_neg h

theorem isMessage_wireMessage (h : d.length ≤ localFaxMaxDatagram) : IsMessage (wireMessage d) := by
  unfold wireMessage
  split_ifs with hd
  · decide
  · exact ⟨hd, h⟩

theorem encodeOpenType_wireMessage {n : ℤ} (h : d.length ≤ localFaxMaxDatagram) (hn : n = d.length)
    (hd : data.take d.length = d) : encodeOpenType data n = some (openType (wireMessage d)) := by
  by_cases hne : d = []
  · subst hne hn
    have hone : encodeOpenType [0] 1 = some (openType [0]) :=
      encodeOpenType_eq (by decide) (by decide) rfl rfl
    exact hone
  · rw [wireMessage_of_ne hne]
    exact encodeOpenType_eq hne (Nat.lt_of_le_of_lt h (by decide)) hn hd

theorem udptlBuildPacket_of_encode (hk : s.txSeqNo = k)
    (hp : encodeOpenType d d.length = some primary)
    (hr : buildRecovery (saveMessage s (bufMask k) d) (k % 65536) (bufMask k) = some rec) :
    udptlBuildPacket s d = ({ saveMessage s (bufMask k) d with txSeqNo := k + 1 },
      some (header k ++ primary ++ rec)) := by
  have hmask : bufMask ((k % 65536 : ℕ) : ℤ) = bufMask k := by
    rw [bufMask_eq_iff]
    omega
  have hseq : (saveMessage s (bufMask k) d).txSeqNo = k := hk
  simp only [udptlBuildPacket, hk, hmask, hr, hp, hseq]
  rw [← header_mod k]
  simp [header]

theorem udptlBuildPacket_eq (hk : s.txSeqNo = k) (hd : d.length ≤ localFaxMaxDatagram)
    (hr : buildRecovery (saveMessage s (bufMask k) d) (k % 65536) (bufMask k) = some rec) :
    udptlBuildPacket s d = ({ saveMessage s (bufMask k) d with txSeqNo := k + 1 },
      some (header k ++ openType (wireMessage d) ++ rec)) :=
  udptlBuildPacket_of_encode hk (encodeOpenType_wireMessage hd rfl take_length) hr

variable {r : ℕ → List UInt8}

theorem TxOk.step_mod (h : TxOk scheme entries span m k k s) (hm : IsMessage (m k))
    (hr : ∀ s, TxOk scheme entries span m k (k + 1) s →
      buildRecovery s (k % 65536) (bufMask k) = some (r k)) :
    ∃ s' packet, udptlBuildPacket s (m k) = (s', some packet) ∧ packetOf m r k = packet ∧
      TxOk scheme entries span m (k + 1) (k + 1) s' := by
  refine ⟨_, _, udptlBuildPacket_eq h.seq hm.2 (hr _ h.save), ?_, h.save.sent⟩
  rw [wireMessage_of_ne hm.1, packetOf]

variable {n : ℕ}

theorem TxOk.run {P : ℕ → List UInt8 → Prop}
    (hstep : ∀ k < n, ∀ s, TxOk scheme entries span m k k s →
      ∃ s' packet, udptlBuildPacket s (m k) = (s', some packet) ∧ P k packet ∧
    TxOk scheme entries span m (k + 1) (k + 1) s') :
    ∀ (l k : ℕ) (s : CwUdptl), k + l = n → TxOk scheme entries span m k k s →
      ∃ packets, udptlBuildPackets s ((range' k l).map m) = some packets ∧
      Forall₂ P (range' k l) packets
  | 0, _, _, _, _ => ⟨[], rfl, .nil⟩
  | l + 1, k, s, hl, h => by
    obtain ⟨s', packet, hb, hp, h'⟩ := hstep k (by omega) s h
    obtain ⟨packets, hbs, hps⟩ := TxOk.run hstep l (k + 1) s' (by omega) h'
    refine ⟨packet :: packets, ?_, .cons hp hps⟩
    simp only [range'_succ, map_cons, udptlBuildPackets, hb, hbs, Option.map_some]

theorem udptlBuildPackets_mod (hmsgs : ∀ d ∈ msgs, IsMessage d)
    (hr : ∀ k < msgs.length, ∀ s, TxOk scheme entries span (fun j => msgs.getD j []) k (k + 1) s →
      buildRecovery s (k % 65536) (bufMask k) = some (r k)) :
    udptlBuildPackets (cwUdptlNew scheme entries span) msgs =
      some ((range msgs.length).map (packetOf (fun j => msgs.getD j []) r)) := by
  obtain ⟨packets, hbuild, hpackets⟩ :=
    TxOk.run (fun k hk s hs => hs.step_mod (forall_getD hmsgs k hk) (hr k hk))
    msgs.length 0 _ (Nat.zero_add _) TxOk.new
  rw [← forall₂_map_left_iff, forall₂_eq_eq_eq] at hpackets
  rw [range_eq_range', hpackets, ← hbuild, map_getD_range']

theorem map_getD_packets (f : ℕ → List UInt8) {ns : List ℕ} (hns : ∀ k ∈ ns, k < n) :
    (ns.map fun k => ((range n).map f).getD k []) = ns.map f :=
  map_congr_left fun k hk => by simp [getD_eq_getElem?_getD, hns k hk]

theorem header_seqNo (hk : k < 65536) :
    (UInt8.ofNat (k >>> 8)).toNat <<< 8 ||| (UInt8.ofNat k).toNat = k := by
  rw [UInt8.toNat_ofNat', UInt8.toNat_ofNat', Nat.shiftRight_eq_div_pow, Nat.shiftLeft_eq,
    Nat.mul_comm, ← Nat.two_pow_add_eq_or_of_lt (by omega)]
  omega

theorem udptlRxPacket_eq (s : CwUdptl) (b : UInt8) (bs : List UInt8) (hk : k < 65536)
    (hd : IsMessage d) :
    ∃ ptr, Rest (header k ++ openType d ++ b :: bs) ptr bs ∧
      udptlRxPacket s (header k ++ openType d ++ b :: bs) =
        if b &&& 0x80 = 0 then rxRedundancy s (header k ++ openType d ++ b :: bs) k d ptr
        else rxFec s (header k ++ openType d ++ b :: bs) k d ptr := by
  have hlen : d.length < 0x4000 := Nat.lt_of_le_of_lt hd.2 (by decide)
  have h2 : Rest (header k ++ openType d ++ b :: bs) 2 (openType d ++ b :: bs) :=
    ⟨header k, by simp, rfl⟩
  obtain ⟨o, ho, hptr, _, hbytes⟩ := decodeOpenType_openType hd.1 hlen h2
  have hb : Rest (header k ++ openType d ++ b :: bs) o.ptr (b :: bs) := by
    rw [hptr]; exact h2.advance
  refine ⟨o.ptr + 1, hb.next, ?_⟩
  have hhead : header k ++ openType d ++ b :: bs =
      UInt8.ofNat (k >>> 8) :: UInt8.ofNat k :: (openType d ++ b :: bs) := by simp [header]
  unfold udptlRxPacket
  split
  · rename_i hi lo _ he
    rw [hhead] at he
    cases he
    simp only [ho, hb.getElem?, hbytes, header_seqNo hk]
  · rename_i hne
    exact absurd hhead (hne _ _ _)

def framesFrom (m : ℕ → List UInt8) (r n : ℕ) : List Frame :=
  (range' r n).map fun j : ℕ => t38Frame j (m j)

theorem framesFrom_add (m : ℕ → List UInt8) (r a b : ℕ) :
    framesFrom m r (a + b) = framesFrom m r a ++ framesFrom m (r + a) b := by
  rw [framesFrom, framesFrom, framesFrom, ← map_append, ← range'_append_1]

end CallWeaver.Udptl
