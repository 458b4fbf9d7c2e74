import CallWeaver.Base.Bytes
import CallWeaver.Base.Runs

/-! # Information elements

An information element is a tag, a byte for the length modulo 256, and the data. It is appended to
a buffer of 1024 bytes after a check that there is room for the data, but not for the two bytes in
front of it. Behind the buffer is the position itself, so nothing is said of a call that writes
there.
-/

namespace CallWeaver.Iax.Elements

open List Option

/-- The size of `buf` in `struct iax_ie_data`. -/
def sizeofBuf : ℕ := 1024

structure Element where
  ie : UInt8
  data : List UInt8
  deriving DecidableEq, Repr

/-- The bytes that `iax_ie_append_raw` writes. -/
def encode (e : Element) : List UInt8 := e.ie :: UInt8.ofNat e.data.length :: e.data

/-- The elements are those in the buffer, of the length `pos`. There is no outcome when something is
written behind the buffer. -/
def iaxIeAppendRaw (buf : List UInt8) (e : Element) : Option (List UInt8 × ℤ) :=
  if (e.data.length : ℤ) > sizeofBuf - buf.length then some (buf, -1)
  else if buf.length + 2 + e.data.length > sizeofBuf then none
  else some (buf ++ encode e, 0)

/-- The calls of `iax_ie_append_int`, `_short`, `_str`, `_byte` and `_raw`. -/
inductive Append where
  | raw (ie : UInt8) (data : List UInt8)
  | str (ie : UInt8) (s : List UInt8)
  | int (ie : UInt8) (value : UInt32)
  | short (ie : UInt8) (value : UInt16)
  | byte (ie dat : UInt8)
  deriving DecidableEq, Repr

/-- What the call passes to `iax_ie_append_raw`. -/
def Append.element : Append → Element
  | .raw ie data => ⟨ie, data⟩
  | .str ie s => ⟨ie, s.takeWhile (· ≠ 0)⟩
  | .int ie value => ⟨ie, htonl value.toNat⟩
  | .short ie value => ⟨ie, htons value.toNat⟩
  | .byte ie dat => ⟨ie, [dat]⟩

def step (buf : List UInt8) (call : Append) : Option (List UInt8) :=
  (iaxIeAppendRaw buf call.element).map Prod.fst

inductive ParseEnd where
  | consumed
  | lengthExceeds
  | strangeBoundary
  deriving DecidableEq, Repr

/-- The loop of `iax_parse_ies` with the elements that it comes to. -/
def iaxParseIes (data : List UInt8) : List Element × ParseEnd :=
  match data with
  | ie :: len :: rest =>
    if len.toNat > rest.length then ([], .lengthExceeds)
    else
      let (es, stop) := iaxParseIes (rest.drop len.toNat)
      (⟨ie, rest.take len.toNat⟩ :: es, stop)
  | [] => ([], .consumed)
  | [_] => ([], .strangeBoundary)
termination_by data.length
decreasing_by
  rw [length_cons, length_cons, length_drop]
  omega

/-- The call returns 0. -/
def Accepted (buf : List UInt8) (call : Append) (_ : List UInt8) : Prop :=
  (iaxIeAppendRaw buf call.element).map Prod.snd = some 0

def lengths (calls : List Append) : List ℕ := calls.map fun call => call.element.data.length

/-- From a position on, where there is room for data of these lengths there is also room for the two
bytes in front. -/
def Room : ℕ → List ℕ → Prop
  | _, [] => True
  | pos, n :: ns =>
    if sizeofBuf < pos + n then Room pos ns
    else pos + 2 + n ≤ sizeofBuf ∧ Room (pos + 2 + n) ns

/-- The size of elements with data of these lengths. -/
def size (ns : List ℕ) : ℕ := (ns.map (2 + ·)).sum

variable {s t : List UInt8} {call : Append} {calls : List Append} {es : List Element}

theorem length_append_encode (buf : List UInt8) (e : Element) :
    (buf ++ encode e).length = buf.length + 2 + e.data.length := by
  simp only [encode, length_append, length_cons]
  omega

theorem iaxIeAppendRaw_of_room {e : Element} (h : s.length + 2 + e.data.length ≤ sizeofBuf) :
    iaxIeAppendRaw s e = some (s ++ encode e, 0) := by
  rw [iaxIeAppendRaw, if_neg (by omega), if_neg (by omega)]

theorem room_of_accepted (h : Accepted s call t) :
    s.length + 2 + call.element.data.length ≤ sizeofBuf := by
  unfold Accepted iaxIeAppendRaw at h
  split_ifs at h with h₁ h₂
  · cases h
  · cases h
  · exact not_lt.mp h₂

theorem step_of_room (h : s.length + 2 + call.element.data.length ≤ sizeofBuf) :
    step s call = some (s ++ encode call.element) := by
  rw [step, iaxIeAppendRaw_of_room h, map_some]

theorem exists_runs_iff : (∃ t, Runs step anyStep s calls t) ↔ Room s.length (lengths calls) := by
  induction calls generalizing s with
  | nil => exact iff_of_true ⟨s, .nil s⟩ trivial
  | cons call calls ih =>
    have hcons : ∀ u, step s call = some u →
        ((∃ t, Runs step anyStep s (call :: calls) t) ↔ Room u.length (lengths calls)) := by
      intro u hu
      simp only [← ih, Runs.cons_iff hu, anyStep, true_and]
    rw [lengths, map_cons, Room]
    split_ifs with hlt
    · -- the call is refused
      apply hcons s
      rw [step, iaxIeAppendRaw, if_pos (by omega), map_some]
    by_cases hfit : s.length + 2 + call.element.data.length ≤ sizeofBuf
    · rw [and_iff_right hfit, ← length_append_encode]
      exact hcons _ (step_of_room hfit)
    · -- the call writes behind the buffer
      refine iff_of_false ?_ fun h => hfit h.1
      rintro ⟨t, h⟩
      cases h with
      | cons hs _ _ =>
        rw [step, iaxIeAppendRaw, if_neg (by omega), if_pos (by omega)] at hs
        cases hs

theorem accepted_iff (hs : s.length ≤ sizeofBuf) :
    Runs step Accepted s calls t ↔ s.length + size (lengths calls) ≤ sizeofBuf ∧
      t = s ++ calls.flatMap fun call => encode call.element := by
  induction calls generalizing s with
  | nil =>
    constructor
    · intro h
      cases h
      exact ⟨hs, (append_nil _).symm⟩
    · rintro ⟨-, rfl⟩
      rw [flatMap_nil, append_nil]
      exact .nil s
  | cons call calls ih =>
    have hsize : s.length + size (lengths (call :: calls)) =
        (s ++ encode call.element).length + size (lengths calls) := by
      rw [length_append_encode]
      simp only [size, lengths, map_cons, sum_cons]
      omega
    rw [hsize, flatMap_cons, ← append_assoc]
    by_cases hfit : s.length + 2 + call.element.data.length ≤ sizeofBuf
    · rw [Runs.cons_iff (step_of_room hfit), ← ih (by rwa [length_append_encode])]
      exact and_iff_right (by rw [Accepted, iaxIeAppendRaw_of_room hfit, map_some])
    · refine iff_of_false ?_ fun h => hfit ?_
      · intro h
        cases h with
        | cons _ ha _ => exact hfit (room_of_accepted ha)
      · rw [← length_append_encode]
        omega

theorem iaxParseIes_encode (h : ∀ e ∈ es, e.data.length < 256) :
    iaxParseIes (es.flatMap encode) = (es, .consumed) := by
  induction es with
  | nil => simp [iaxParseIes]
  | cons e es ih =>
    rw [forall_mem_cons] at h
    have hlen : (UInt8.ofNat e.data.length).toNat = e.data.length := by
      rw [UInt8.toNat_ofNat', Nat.mod_eq_of_lt h.1]
    rw [flatMap_cons, encode, cons_append, cons_append, iaxParseIes]
    simp [hlen, ih h.2]

theorem length_lt_of_parsed (data : List UInt8) :
    ∀ e ∈ (iaxParseIes data).1, e.data.length < 256 := by
  fun_induction iaxParseIes data with
  | case2 ie len rest hle es stop hrest ih =>
    rw [hrest] at ih
    simpa [len.toNat_lt] using ih
  | _ => simp

theorem iaxParseIes_iff :
    iaxParseIes (es.flatMap encode) = (es, .consumed) ↔ ∀ e ∈ es, e.data.length < 256 := by
  refine ⟨fun h => ?_, iaxParseIes_encode⟩
  have hlen := length_lt_of_parsed (es.flatMap encode)
  rwa [h] at hlen

/-- No call writes behind the buffer, and the elements are read back if all are accepted, if and
only if there is room for each whole element where there is room for its data, and each length fits
into its byte where all elements fit into the buffer. -/
theorem elements_iff (calls : List Append) :
    ((∃ t, Runs step anyStep [] calls t) ∧
        ∀ t, Runs step Accepted [] calls t →
          iaxParseIes t = (calls.map Append.element, .consumed)) ↔
      Room 0 (lengths calls) ∧
        (size (lengths calls) ≤ sizeofBuf → ∀ n ∈ lengths calls, n < 256) := by
  refine and_congr exists_runs_iff ?_
  have hacc : ∀ t, Runs step Accepted [] calls t ↔ size (lengths calls) ≤ sizeofBuf ∧
      t = (calls.map Append.element).flatMap encode := by
    intro t
    rw [accepted_iff (Nat.zero_le _), length_nil, Nat.zero_add, nil_append, flatMap_map]
  constructor
  · intro h hsize
    simpa [lengths] using iaxParseIes_iff.mp (h _ ((hacc _).mpr ⟨hsize, rfl⟩))
  · intro h t ht
    obtain ⟨hsize, rfl⟩ := (hacc t).mp ht
    exact iaxParseIes_iff.mpr (by simpa [lengths] using h hsize)

/-- Data of 256 bytes is accepted with the length 0, and the scan comes to an element without data
first. Data of 1023 bytes passes the check and is written behind the buffer. -/
theorem elements_misread :
    (∃ t, Runs step Accepted [] [.raw 32 (replicate 256 0)] t ∧
        (iaxParseIes t).1.head? = some ⟨32, []⟩) ∧
      step [] (.raw 32 (replicate 1023 0)) = none := by
  have hacc : ∀ d : List UInt8, d.length = 256 →
      Runs step Accepted [] [.raw 32 d] (32 :: 0 :: d) := by
    intro d hd
    refine (accepted_iff (Nat.zero_le _)).mpr ⟨?_, ?_⟩
    · simp [size, lengths, Append.element, hd, sizeofBuf]
    · simp [encode, Append.element, hd]
  have hover : ∀ d : List UInt8, d.length = 1023 → step [] (.raw 32 d) = none := by
    intro d hd
    simp [step, iaxIeAppendRaw, Append.element, hd, sizeofBuf]
  have hread : ∀ d : List UInt8, (iaxParseIes (32 :: 0 :: d)).1.head? = some ⟨32, []⟩ := by
    intro d
    rw [iaxParseIes]
    simp
  exact ⟨⟨_, hacc _ length_replicate, hread _⟩, hover _ length_replicate⟩

end CallWeaver.Iax.Elements
