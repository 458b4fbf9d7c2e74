import CallWeaver.Base.Bytes
import CallWeaver.Base.Runs

/-! # The signed-linear factory

Frames of audio are fed into a queue and read back as a stream of bytes. What a read leaves of a
frame is held in a buffer. A read that empties this buffer copies from its start, although earlier
reads may have consumed some of it, so only the length of the stream is right in general.
-/

namespace CallWeaver.Media

open List Option Int

variable {τ β : Type}

def slinear : ℕ := 64

def holdSize : ℕ := 2560

structure CwFrame (β : Type) where
  subclass : ℕ
  data : List β
  deriving DecidableEq, Repr

/-- The translators to signed linear: `cw_translator_build_path` and `cw_translate`. -/
structure Translators (τ β : Type) where
  buildPath : ℕ → Option τ
  translate : τ → List β → τ × Option (List β)

structure CwSlinfactory (τ β : Type) where
  queue : List (List β)
  trans : Option τ
  hold : List β
  offset : ℕ
  holdlen : ℕ
  size : ℤ
  format : ℕ

def cwSlinfactoryInit (zero : β) : CwSlinfactory τ β :=
  { queue := [], trans := none, hold := .replicate holdSize zero
    offset := 0, holdlen := 0, size := 0, format := 0 }

/-- The choice of a translator in `cw_slinfactory_feed`. -/
def selectTrans (lib : Translators τ β) (sf : CwSlinfactory τ β) (subclass : ℕ) :
    CwSlinfactory τ β × Bool :=
  if subclass ≠ slinear then
    match (if sf.trans.isSome ∧ subclass ≠ sf.format then none else sf.trans) with
    | some t => ({ sf with trans := some t }, true)
    | none => match lib.buildPath subclass with
      | none => ({ sf with trans := none }, false)
      | some t => ({ sf with trans := some t, format := subclass }, true)
  else (sf, true)

/-- With whether `cw_frdup` gets memory. The result is the number of frames that the loop to the end
of the queue has passed, and the size wraps as an `int`. -/
def cwSlinfactoryFeed (lib : Translators τ β) (sf : CwSlinfactory τ β) (f : Option (CwFrame β))
    (mem : Bool) : CwSlinfactory τ β × ℕ :=
  match f with
  | none => (sf, 0)
  | some f =>
    let (sf, found) := selectTrans lib sf f.subclass
    if found then
      let (sf, frame) := match sf.trans with
        | some t =>
          ({ sf with trans := some (lib.translate t f.data).1 }, (lib.translate t f.data).2)
        | none => (sf, some f.data)
      match if mem then frame else none with
      | none => (sf, 0)
      | some frame =>
        ({ sf with queue := sf.queue ++ [frame], size := (sf.size + frame.length).bmod (2 ^ 32) },
          sf.queue.length - 1)
    else (sf, 0)

/-- The loop of `cw_slinfactory_read`, with the bytes it has written. Offsets advance by whole
samples. Held bytes that do not fit into `hold` have no outcome. -/
def readLoop (bytes : ℕ) : ℕ → CwSlinfactory τ β → List β → Option (CwSlinfactory τ β × List β)
  | 0, _, _ => none
  | fuel + 1, sf, out =>
    if out.length < bytes then
      let ineed := bytes - out.length
      if sf.holdlen ≠ 0 then
        if sf.holdlen ≤ ineed then
          readLoop bytes fuel { sf with holdlen := 0, offset := 0 } (out ++ sf.hold.take sf.holdlen)
        else
          readLoop bytes fuel
            { sf with offset := sf.offset + 2 * (ineed / 2), holdlen := sf.holdlen - ineed }
            (out ++ (sf.hold.drop sf.offset).take ineed)
      else match sf.queue with
        | [] => some (sf, out)
        | frame :: queue =>
          if frame.length ≤ ineed then readLoop bytes fuel { sf with queue := queue } (out ++ frame)
          else
            let remain := frame.length - ineed
            if remain ≤ holdSize then
              readLoop bytes fuel
                { sf with
                  queue := queue, hold :=
                    memcpy sf.hold ((frame.drop (2 * (ineed / 2))).take remain)
                  holdlen := remain }
                (out ++ frame.take ineed)
            else none
    else some (sf, out)

def cwSlinfactoryRead (sf : CwSlinfactory τ β) (bytes fuel : ℕ) :
    Option (CwSlinfactory τ β × List β) := do
  let (sf, out) ← readLoop bytes fuel sf []
  some ({ sf with size := (sf.size - out.length).bmod (2 ^ 32) }, out)

/-- A factory in use, with the bytes that were fed and those that were read. -/
structure Session (τ β : Type) where
  sf : CwSlinfactory τ β
  fed : List β
  out : List β

inductive Op (β : Type) where
  | feed (data : List β) (mem : Bool)
  | read (bytes : ℕ)
  deriving DecidableEq, Repr

def Session.new (zero : β) : Session τ β := ⟨cwSlinfactoryInit zero, [], []⟩

/-- One call with signed-linear frames, and its fuel. -/
def step (lib : Translators τ β) (s : Session τ β) : ℕ × Op β → Option (Session τ β)
  | (_, .feed data mem) =>
    some { s with
      sf := (cwSlinfactoryFeed lib s.sf (some ⟨slinear, data⟩) mem).1
      fed := s.fed ++ if mem then data else [] }
  | (fuel, .read bytes) => do
    let (sf, out) ← cwSlinfactoryRead s.sf bytes fuel
    some { s with sf := sf, out := s.out ++ out }

/-- Frames fit into `hold`, all counts are even, and the counts of reads fit into an `int`. -/
def Op.Allowed : Op β → Prop
  | .feed data _ => 0 < data.length ∧ data.length ≤ holdSize ∧ data.length % 2 = 0
  | .read bytes => bytes % 2 = 0 ∧ bytes < 2 ^ 31

instance : (op : Op β) → Decidable op.Allowed
  | .feed _ _ => inferInstanceAs (Decidable (_ ∧ _))
  | .read _ => inferInstanceAs (Decidable (_ ∧ _))

section Read

variable {sf sf' sf₁ : CwSlinfactory τ β} {out out' r p r₀ : List β} {bytes need fuel : ℕ}

def CwSlinfactory.pending (sf : CwSlinfactory τ β) : List β :=
  (sf.hold.drop sf.offset).take sf.holdlen ++ sf.queue.flatten

structure Valid (sf : CwSlinfactory τ β) : Prop where
  hold : sf.hold.length = holdSize
  inside : sf.offset + sf.holdlen ≤ holdSize
  start : sf.holdlen = 0 → sf.offset = 0
  even : sf.holdlen % 2 = 0
  frames : ∀ f ∈ sf.queue, f.length ≤ holdSize ∧ f.length % 2 = 0
  trans : sf.trans = none

/-- A read that empties `hold` finds the bytes it should copy at its start. -/
def Faithful (sf : CwSlinfactory τ β) (bytes : ℕ) : Prop :=
  sf.holdlen ≤ bytes → sf.hold.take sf.holdlen = (sf.hold.drop sf.offset).take sf.holdlen

instance [DecidableEq β] (sf : CwSlinfactory τ β) (bytes : ℕ) : Decidable (Faithful sf bytes) :=
  inferInstanceAs (Decidable (_ → _))

theorem pending_init (zero : β) : (cwSlinfactoryInit zero : CwSlinfactory τ β).pending = [] := by
  simp [CwSlinfactory.pending, cwSlinfactoryInit]

theorem valid_init (zero : β) : Valid (cwSlinfactoryInit zero : CwSlinfactory τ β) := by
  constructor
  · exact length_replicate
  · exact Nat.zero_le _
  · exact fun _ => rfl
  · rfl
  · exact fun f hf => absurd hf not_mem_nil
  · rfl

theorem length_held (hv : Valid sf) (h : need ≤ sf.holdlen) :
    ((sf.hold.drop sf.offset).take need).length = need := by
  have hhold := hv.hold
  have hinside := hv.inside
  rw [length_take, length_drop]
  omega

/-- What a read returns has the right length, and leaves what comes next. It is what comes next in
turn if and only if the read is faithful. -/
structure Reads (sf : CwSlinfactory τ β) (need : ℕ) (sf' : CwSlinfactory τ β) (r : List β) :
    Prop where
  valid : Valid sf'
  size : sf'.size = sf.size
  length : r.length = min need sf.pending.length
  rest : sf'.pending = sf.pending.drop r.length
  right : r = sf.pending.take r.length ↔ Faithful sf need

theorem faithful_of_holdlen_eq_zero (h : sf.holdlen = 0) : Faithful sf need := fun _ => by simp [h]

theorem Reads.nil (hv : Valid sf) (h : need = 0 ∨ sf.pending = []) (hf : Faithful sf need) :
    Reads sf need sf [] := by
  refine ⟨hv, rfl, ?_, rfl, by simpa using hf⟩
  rcases h with rfl | h
  · simp
  · simp [h]

/-- The turns that the loop still takes at most: one for the buffer, one for each frame, and the
last. -/
def turns (bytes : ℕ) (sf : CwSlinfactory τ β) (out : List β) : ℕ :=
  if out.length < bytes then sf.queue.length + (if sf.holdlen = 0 then 0 else 1) + 1 else 0

/-- A turn of the loop copies `r` in the place of `p`, which comes next. -/
structure Turn (sf : CwSlinfactory τ β) (need : ℕ) (sf' : CwSlinfactory τ β) (p r : List β) :
    Prop where
  valid : Valid sf'
  size : sf'.size = sf.size
  pending : sf.pending = p ++ sf'.pending
  length : r.length = p.length
  le : p.length ≤ need
  even : p.length % 2 = 0
  right : r = p ↔ Faithful sf need
  faithful : Faithful sf' (need - p.length)
  fewer : p.length < need → sf'.queue.length + (if sf'.holdlen = 0 then 0 else 1) <
    sf.queue.length + (if sf.holdlen = 0 then 0 else 1)

theorem Turn.reads (h : Turn sf need sf₁ p r₀) (hr : Reads sf₁ (need - p.length) sf' r) :
    Reads sf need sf' (r₀ ++ r) := by
  have hle := h.le
  refine ⟨hr.valid, hr.size.trans h.size, ?_, ?_, ?_⟩
  · rw [h.pending, length_append, length_append, hr.length, h.length]
    omega
  · rw [hr.rest, h.pending, length_append, h.length, drop_append]
    simp
  · have htake : sf.pending.take (r₀ ++ r).length = p ++ sf₁.pending.take r.length := by
      rw [h.pending, length_append, h.length, take_length_add_append]
    rw [htake, ← h.right]
    constructor
    · exact fun he => (append_inj he h.length).1
    · intro he
      rw [he, ← hr.right.mpr h.faithful]

theorem turn_hold (hv : Valid sf) (hz : sf.holdlen ≠ 0) (hle : sf.holdlen ≤ need) :
    Turn sf need { sf with holdlen := 0, offset := 0 } ((sf.hold.drop sf.offset).take sf.holdlen)
      (sf.hold.take sf.holdlen) := by
  have hheld := length_held hv le_rfl
  have hhold := hv.hold
  have hinside := hv.inside
  exact {
    valid := { hv with inside := Nat.zero_le _, start := fun _ => rfl, even := rfl }
    size := rfl
    pending := by simp [CwSlinfactory.pending]
    length := by
      rw [hheld, length_take]
      omega
    le := hheld.trans_le hle
    even := hheld.symm ▸ hv.even
    right := ⟨fun he _ => he, fun hf => hf hle⟩
    faithful := faithful_of_holdlen_eq_zero rfl
    fewer := fun _ => by simp [hz] }

theorem turn_partHold (hv : Valid sf) (hneed : need % 2 = 0) (hlt : need < sf.holdlen) :
    Turn sf need { sf with offset := sf.offset + need, holdlen := sf.holdlen - need }
      ((sf.hold.drop sf.offset).take need) ((sf.hold.drop sf.offset).take need) := by
  have hheld := length_held hv hlt.le
  have hsplit : (sf.hold.drop sf.offset).take sf.holdlen = (sf.hold.drop sf.offset).take need ++
      (sf.hold.drop (sf.offset + need)).take (sf.holdlen - need) := by
    rw [← drop_drop, ← take_add]
    congr 1
    omega
  have hinside := hv.inside
  have heven := hv.even
  exact {
    valid := { hv with inside := by grind, start := by grind, even := by grind }
    size := rfl
    pending := by simp only [CwSlinfactory.pending, hsplit, append_assoc]
    length := rfl
    le := hheld.le
    even := hheld.symm ▸ hneed
    right := ⟨fun _ hle => absurd hle (not_le.mpr hlt), fun _ => rfl⟩
    faithful := fun hle => by
      simp only at hle
      omega
    fewer := fun h => absurd hheld h.ne }

section Queue

variable {frame : List β} {queue : List (List β)} (hv : Valid sf) (hz : sf.holdlen = 0)
  (hq : sf.queue = frame :: queue)

include hv hz hq

theorem turn_frame (hle : frame.length ≤ need) :
    Turn sf need { sf with queue := queue } frame frame where
  valid := { hv with frames := fun f hf => hv.frames f (by simp [hq, hf]) }
  size := rfl
  pending := by simp [CwSlinfactory.pending, hz, hq]
  length := rfl
  le := hle
  even := (hv.frames frame (by simp [hq])).2
  right := ⟨fun _ => faithful_of_holdlen_eq_zero hz, fun _ => rfl⟩
  faithful := faithful_of_holdlen_eq_zero hz
  fewer := fun _ => by simp [hq]

theorem turn_partFrame (hneed : need % 2 = 0) (hlt : need < frame.length) :
    Turn sf need { sf with
      queue := queue, hold := memcpy sf.hold (frame.drop need), holdlen := frame.length - need }
      (frame.take need) (frame.take need) := by
  obtain ⟨hflen, hfeven⟩ := hv.frames frame (by simp [hq])
  have hlen : (frame.take need).length = need := length_take_of_le hlt.le
  have hheld : (memcpy sf.hold (frame.drop need)).take (frame.length - need) = frame.drop need := by
    rw [← length_drop, take_memcpy]
  have hstart := hv.start hz
  have hhold := hv.hold
  exact {
    valid := {
      hold := by
        simp only [memcpy, length_append, length_drop]
        omega
      inside := by
        simp only
        omega
      start := fun _ => hstart
      even := by
        simp only
        omega
      frames := (turn_frame hv hz hq le_rfl).valid.frames
      trans := hv.trans }
    size := rfl
    pending := by simp [CwSlinfactory.pending, hz, hq, hstart, hheld, ← append_assoc]
    length := rfl
    le := hlen.le
    even := hlen.symm ▸ hneed
    right := ⟨fun _ => faithful_of_holdlen_eq_zero hz, fun _ => rfl⟩
    faithful := fun hle => by
      simp only at hle
      omega
    fewer := fun h => absurd hlen h.ne }

end Queue

variable (hv : Valid sf) (hneed : (bytes - out.length) % 2 = 0)

include hv hneed

theorem readLoop_turn :
    ((∀ fuel, readLoop bytes (fuel + 1) sf out = some (sf, out)) ∧
      Reads sf (bytes - out.length) sf []) ∨
      out.length < bytes ∧
      ∃ sf₁ p r₀, (∀ fuel, readLoop bytes (fuel + 1) sf out = readLoop bytes fuel sf₁ (out ++ r₀)) ∧
        Turn sf (bytes - out.length) sf₁ p r₀ := by
  have hwhole : 2 * ((bytes - out.length) / 2) = bytes - out.length := by omega
  by_cases hlt : out.length < bytes
  swap
  · refine .inl ⟨fun fuel => by rw [readLoop, if_neg hlt], .nil hv (.inl (by omega)) fun hle => ?_⟩
    have hzero : sf.holdlen = 0 := by omega
    simp [hzero]
  by_cases hz : sf.holdlen = 0
  · cases hq : sf.queue with
    | nil =>
      refine .inl ⟨fun fuel => ?_, .nil hv (.inr ?_) (faithful_of_holdlen_eq_zero hz)⟩
      · simp [readLoop, hlt, hz, hq]
      · simp [CwSlinfactory.pending, hz, hq]
    | cons frame queue =>
      by_cases hle : frame.length ≤ bytes - out.length
      · refine .inr ⟨hlt, _, _, _, fun fuel => ?_, turn_frame hv hz hq hle⟩
        simp [readLoop, hlt, hz, hq, hle]
      · have hrest : (frame.drop (bytes - out.length)).take (frame.length - (bytes - out.length)) =
            frame.drop (bytes - out.length) := take_of_length_le (by rw [length_drop])
        have hfits : frame.length - (bytes - out.length) ≤ holdSize :=
          (Nat.sub_le ..).trans (hv.frames frame (by simp [hq])).1
        refine .inr ⟨hlt, _, _, _, fun fuel => ?_, turn_partFrame hv hz hq hneed (by omega)⟩
        simp [readLoop, hlt, hz, hq, hle, hwhole, hrest, hfits]
  · by_cases hle : sf.holdlen ≤ bytes - out.length
    · refine .inr ⟨hlt, _, _, _, fun fuel => ?_, turn_hold hv hz hle⟩
      simp [readLoop, hlt, hz, hle]
    · refine .inr ⟨hlt, _, _, _, fun fuel => ?_, turn_partHold hv hneed (by omega)⟩
      simp [readLoop, hlt, hz, hle, hwhole]

/-- The loop returns if and only if it may take the turns it needs. -/
theorem readLoop_spec :
    ∃ sf' r n,
      (∀ fuel, readLoop bytes fuel sf out = if n ≤ fuel then some (sf', out ++ r) else none) ∧
      Reads sf (bytes - out.length) sf' r := by
  induction hn : turns bytes sf out using Nat.strong_induction_on generalizing sf out with
  | _ k ih =>
    obtain ⟨hend, hr⟩ | ⟨hlt, sf₁, p, r₀, hturn, ht⟩ := readLoop_turn hv hneed
    · refine ⟨sf, [], 1, fun fuel => ?_, hr⟩
      cases fuel with
      | zero => rfl
      | succ fuel => simp [hend fuel]
    · have hlen : (out ++ r₀).length = out.length + p.length := by rw [length_append, ht.length]
      have heven := ht.even
      have hless : turns bytes sf₁ (out ++ r₀) < k := by
        have hfewer := ht.fewer
        rw [← hn, turns, turns, if_pos hlt, hlen]
        split <;> omega
      obtain ⟨sf', r, n, hloop, hr⟩ := ih _ hless ht.valid (by omega) rfl
      rw [hlen, ← Nat.sub_sub] at hr
      refine ⟨sf', r₀ ++ r, n + 1, fun fuel => ?_, ht.reads hr⟩
      cases fuel with
      | zero => rfl
      | succ fuel => simp [hturn fuel, hloop fuel]

end Read

section Runs

variable {lib : Translators τ β} {s t : Session τ β} {op : Op β} {fuel bytes : ℕ}

theorem cwSlinfactoryFeed_slinear {sf : CwSlinfactory τ β} (ht : sf.trans = none) (data : List β)
    (mem : Bool) : cwSlinfactoryFeed lib sf (some ⟨slinear, data⟩) mem =
      if mem then ({ sf with
        queue := sf.queue ++ [data], size := (sf.size + data.length).bmod (2 ^ 32) },
        sf.queue.length - 1) else (sf, 0) := by
  cases mem <;> simp [cwSlinfactoryFeed, selectTrans, ht]

structure Stream (s : Session τ β) : Prop where
  valid : Valid s.sf
  pending : s.sf.pending = s.fed.drop s.out.length
  le : s.out.length ≤ s.fed.length
  size : s.sf.size = ((s.fed.length : ℤ) - s.out.length).bmod (2 ^ 32)

theorem stream_new (zero : β) : Stream (Session.new zero : Session τ β) :=
  ⟨valid_init zero, pending_init zero, Nat.le_refl 0, by simp [Session.new, cwSlinfactoryInit]⟩

def Op.Faithful (s : Session τ β) : Op β → Prop
  | .feed _ _ => True
  | .read bytes => Media.Faithful s.sf bytes

instance [DecidableEq β] (s : Session τ β) : (op : Op β) → Decidable (op.Faithful s)
  | .feed _ _ => inferInstanceAs (Decidable True)
  | .read _ => inferInstanceAs (Decidable (Media.Faithful _ _))

theorem Stream.feed {data : List β} {mem : Bool} (hs : Stream s) (ha : (Op.feed data mem).Allowed)
    (h : step lib s (fuel, .feed data mem) = some t) :
    Stream t ∧ (t.out <+: t.fed ↔ s.out <+: s.fed) := by
  obtain ⟨hpos, hlen, heven⟩ := ha
  obtain ⟨hv, hpending, hle, hsize⟩ := hs
  simp only [step, cwSlinfactoryFeed_slinear hv.trans, some.injEq] at h
  subst h
  cases mem with
  | false => simpa using ⟨hv, hpending, hle, hsize⟩
  | true =>
    refine ⟨⟨⟨hv.hold, hv.inside, hv.start, hv.even, ?_, hv.trans⟩, ?_, ?_, ?_⟩, ?_⟩
    · intro f hf
      rcases mem_append.mp hf with hf | hf
      · exact hv.frames f hf
      · rw [mem_singleton.mp hf]
        exact ⟨hlen, heven⟩
    · have hflat : (s.sf.queue ++ [data]).flatten = s.sf.queue.flatten ++ data := by simp
      have happ : (s.fed ++ data).drop s.out.length = s.fed.drop s.out.length ++ data := by
        rw [drop_append_of_le_length hle]
      simp only [if_true, CwSlinfactory.pending, hflat, happ, ← hpending, append_assoc]
    · simp only [if_true, length_append]
      omega
    · simp only [if_true, hsize, length_append, bmod_add_bmod]
      congr 1
      omega
    · constructor
      · intro hp
        exact prefix_of_prefix_length_le hp (prefix_append ..) hle
      · exact fun hp => hp.trans (prefix_append ..)

theorem Stream.read (hs : Stream s) (ha : (Op.read bytes : Op β).Allowed)
    (h : step lib s (fuel, .read bytes) = some t) :
    Stream t ∧ (t.out <+: t.fed ↔ s.out <+: s.fed ∧ Media.Faithful s.sf bytes) := by
  obtain ⟨hv, hpending, hle, hsize⟩ := hs
  obtain ⟨⟨sf, out⟩, hread, h⟩ := bind_eq_some_iff.mp h
  obtain ⟨⟨sf₁, r₁⟩, hloop, hread⟩ := bind_eq_some_iff.mp hread
  simp only [some.injEq, Prod.mk.injEq] at hread h
  obtain ⟨rfl, rfl⟩ := hread
  subst h
  obtain ⟨sf', r, n, hspec, hr⟩ :=
    readLoop_spec hv (show (bytes - ([] : List β).length) % 2 = 0 from ha.1)
  rw [hspec, nil_append] at hloop
  split_ifs at hloop
  obtain ⟨rfl, rfl⟩ := Prod.mk.inj (some.inj hloop)
  have hlen : r.length ≤ (s.fed.drop s.out.length).length := by
    rw [← hpending, hr.length]
    exact Nat.min_le_right ..
  have hlen' : s.out.length + r.length ≤ s.fed.length := by
    rw [length_drop] at hlen
    omega
  refine ⟨⟨{ hr.valid with }, ?_, ?_, ?_⟩, ?_⟩
  · have hrest := hr.rest
    rw [hpending, drop_drop] at hrest
    rw [length_append]
    exact hrest
  · simpa using hlen'
  · simp only [hr.size, hsize, length_append, bmod_sub_bmod]
    congr 1
    omega
  · have hright := hr.right
    rw [hpending] at hright
    simp only [length_nil, Nat.sub_zero] at hright
    rw [← hright]
    constructor
    · intro hp
      have hout : s.out <+: s.fed := (prefix_append ..).trans hp
      obtain ⟨z, hz⟩ := hout
      rw [← hz, drop_left]
      rw [← hz] at hp
      exact ⟨⟨z, rfl⟩, prefix_iff_eq_take.mp ((prefix_append_right_inj s.out).mp hp)⟩
    · rintro ⟨⟨z, hz⟩, hr'⟩
      rw [← hz, drop_left] at hr'
      rw [← hz]
      exact (prefix_append_right_inj s.out).mpr (prefix_iff_eq_take.mpr hr')

theorem Stream.step (hs : Stream s) (ha : op.Allowed) (h : step lib s (fuel, op) = some t) :
    Stream t ∧ (t.out <+: t.fed ↔ s.out <+: s.fed ∧ op.Faithful s) := by
  cases op with
  | feed data mem =>
    obtain ⟨ht, hiff⟩ := hs.feed ha h
    exact ⟨ht, by rw [hiff, Op.Faithful, and_true]⟩
  | read bytes => exact hs.read ha h

theorem step_total (hs : Stream s) (ha : op.Allowed) :
    ∃ n, ∀ fuel, n ≤ fuel → ∃ t, Media.step lib s (fuel, op) = some t := by
  cases op with
  | feed data mem => exact ⟨0, fun fuel _ => ⟨_, rfl⟩⟩
  | read bytes =>
    obtain ⟨sf', r, n, hspec, -⟩ :=
      readLoop_spec hs.valid (show (bytes - ([] : List β).length) % 2 = 0 from ha.1)
    refine ⟨n, fun fuel hfuel => ?_⟩
    simp only [Media.step, cwSlinfactoryRead, hspec, if_pos hfuel, bind_eq_bind, bind_some]
    exact ⟨_, rfl⟩

theorem size_eq_iff {d : ℤ} (hd : 0 ≤ d) : d.bmod (2 ^ 32) = d ↔ d < 2 ^ 31 := by
  constructor
  · intro h
    rw [← h]
    exact bmod_lt (by decide)
  · intro h
    apply bmod_eq_of_le
    · omega
    · omega

/-- After a run, the bytes that were read are a prefix of those that were fed and the size is their
difference, if and only if every read of the run is faithful and the difference fits into an `int`.
Every further call returns. -/
theorem slin_stream_iff (lib : Translators τ β) (zero : β) {ops : List (ℕ × Op β)}
    (hr : Runs (step lib) (fun _ a _ => a.2.Allowed) (Session.new zero) ops s) :
    ((s.out <+: s.fed ∧ s.sf.size = (s.fed.length : ℤ) - s.out.length) ↔
      Runs (step lib) (fun s a _ => a.2.Allowed ∧ a.2.Faithful s) (Session.new zero) ops s ∧
        (s.fed.length : ℤ) - s.out.length < 2 ^ 31) ∧
    ∀ op : Op β, op.Allowed → ∃ n, ∀ fuel, n ≤ fuel → ∃ t, step lib s (fuel, op) = some t := by
  have hs : Stream s := by
    refine hr.invariant (fun s a t hs h ha => ?_) (stream_new zero)
    exact (hs.step ha h).1
  have hiff : s.out <+: s.fed ↔
    (Session.new zero : Session τ β).out <+: (Session.new zero : Session τ β).fed ∧
      Runs (step lib) (fun s a _ => a.2.Allowed ∧ a.2.Faithful s) (Session.new zero) ops s :=
    hr.iff_all (fun s a t hs h ha => hs.step ha h) (stream_new zero)
  refine ⟨?_, fun op ha => step_total hs ha⟩
  have hle := hs.le
  rw [hs.size, size_eq_iff (by omega), hiff]
  simp [Session.new]

/-- Two frames are read in three pieces, which empties the buffer that the first of them left. -/
theorem slin_stream_iff_two_frames :
    ∃ s : Session Unit ℕ,
      Runs (step ⟨fun _ => none, fun t _ => (t, none)⟩) (fun _ a _ => a.2.Allowed) (Session.new 0)
        [(0, .feed [1, 2, 3, 4] true), (0, .feed [5, 6, 7, 8] true), (4, .read 2), (4, .read 4),
          (4, .read 2)]
        s ∧
      s.out = [1, 2, 3, 4, 5, 6, 7, 8] ∧
      ((s.out <+: s.fed ∧ s.sf.size = (s.fed.length : ℤ) - s.out.length) ↔
        Runs (step ⟨fun _ => none, fun t _ => (t, none)⟩) (fun s a _ =>
          a.2.Allowed ∧ a.2.Faithful s) (Session.new 0)
          [(0, .feed [1, 2, 3, 4] true), (0, .feed [5, 6, 7, 8] true), (4, .read 2), (4, .read 4),
            (4, .read 2)] s ∧
          (s.fed.length : ℤ) - s.out.length < 2 ^ 31) := by
  refine ⟨_, exec_eq_some_iff.mp (Eq.refl _), rfl, ?_⟩
  exact (slin_stream_iff _ _ (exec_eq_some_iff.mp (Eq.refl _))).1

/-- Eight bytes are read in pieces of two, two and four. The last piece repeats the two bytes before
it. -/
theorem read_repeats_held_bytes :
    ∃ s : Session Unit ℕ,
      Runs (step ⟨fun _ => none, fun t _ => (t, none)⟩) (fun _ a _ => a.2.Allowed) (Session.new 0)
        [(0, .feed [1, 2, 3, 4, 5, 6, 7, 8] true), (4, .read 2), (4, .read 2), (4, .read 4)] s ∧
      s.out = [1, 2, 3, 4, 3, 4, 5, 6] ∧ ¬ s.out <+: s.fed := by
  refine ⟨_, exec_eq_some_iff.mp (Eq.refl _), rfl, ?_⟩
  have hne : ¬ [1, 2, 3, 4, 3, 4, 5, 6] <+: [1, 2, 3, 4, 5, 6, 7, 8] := by decide
  exact hne

end Runs

end CallWeaver.Media
