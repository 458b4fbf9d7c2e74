import CallWeaver.Channel.Variables

/-! # Substitution of variables and expressions

The loop of `pbx_substitute_variables_helper_full` copies text up to the next dollar sign and then
inserts the value of a variable, a function or an expression. Names with constructs in them are
expanded first, into buffers of a fixed size. There is no result when something is written outside
the buffers.
-/

namespace CallWeaver.Pbx

open List

def varBufSize : ℕ := 4096

/-- The characters that are passed in search of a closing bracket, and the constructs among them. -/
structure Scan where
  taken : ℕ
  needsub : ℕ
  deriving Repr, DecidableEq

/-- The search for the closing bracket of a variable. -/
def scanVariable : CStr → ℕ → ℕ → ℕ → Scan
  | _, 0, needsub, taken => ⟨taken, needsub⟩
  | [], _, needsub, taken => ⟨taken, needsub⟩
  | c :: s, brackets + 1, needsub, taken =>
    if c = chr '$' ∧ s.head? = some (chr '{') then
      scanVariable s (brackets + 1) (needsub + 1) (taken + 1)
    else if c = chr '{' then scanVariable s (brackets + 2) needsub (taken + 1)
    else if c = chr '}' then scanVariable s brackets needsub (taken + 1)
    else if c = chr '$' ∧ s.head? = some (chr '[') then
      scanVariable s (brackets + 1) (needsub + 1) (taken + 1)
    else scanVariable s (brackets + 1) needsub (taken + 1)

/-- The search for the closing bracket of an expression. -/
def scanExpression : CStr → ℕ → ℕ → ℕ → Scan
  | _, 0, needsub, taken => ⟨taken, needsub⟩
  | [], _, needsub, taken => ⟨taken, needsub⟩
  | [_], _ + 1, needsub, taken => ⟨taken + 1, needsub⟩
  | c :: d :: s, brackets + 1, needsub, taken =>
    if c = chr '$' ∧ d = chr '[' then scanExpression s (brackets + 2) (needsub + 1) (taken + 2)
    else if c = chr '[' then scanExpression (d :: s) (brackets + 2) needsub (taken + 1)
    else if c = chr ']' then scanExpression (d :: s) brackets needsub (taken + 1)
    else if c = chr '$' ∧ d = chr '{' then scanExpression s (brackets + 1) (needsub + 1) (taken + 2)
    else scanExpression (d :: s) (brackets + 1) needsub (taken + 1)

/-- `nextvar` and `nextexp`. -/
inductive Kind where
  | var
  | exp
  deriving Repr, DecidableEq

/-- A construct behind its opening bracket. The last character passed is the closing bracket, or the
last one of the name if it is not closed. -/
structure Construct where
  kind : Kind
  name : CStr
  taken : ℕ
  needsub : Bool
  deriving Repr, DecidableEq

def construct (kind : Kind) (s : CStr) : Construct :=
  let scan := match kind with
    | .var => scanVariable s 1 0 0
    | .exp => scanExpression s 1 0 0
  { kind := kind, name := s.take (scan.taken - 1), taken := scan.taken,
    needsub := scan.needsub != 0 }

structure Round where
  text : CStr
  construct : Option Construct
  deriving Repr, DecidableEq

def nextRound (w : CStr) : Round :=
  let text := w.takeWhile (· ≠ chr '$')
  match w.dropWhile (· ≠ chr '$') with
  | [] => ⟨text, none⟩
  | dollar :: rest =>
    match rest with
    | [] => ⟨text ++ [dollar], none⟩
    | c :: s =>
      if c = chr '{' then ⟨text, some (construct .var s)⟩
      else if c = chr '[' then ⟨text, some (construct .exp s)⟩
      else ⟨text ++ [dollar], none⟩

def Round.skip (r : Round) : ℕ :=
  match r.construct with
  | none => 0
  | some k => k.taken + 2

/-- A round takes the text and the construct from the front of the template, and one of them is
there. -/
structure Round.Of (r : Round) (w : CStr) : Prop where
  text : r.text <+: w
  progress : 0 < r.text.length + r.skip
  name_lt : ∀ k ∈ r.construct, k.name.length < w.length

theorem round_of_construct {text r : CStr} {c d : UInt8} (kind : Kind) :
    (⟨text, some (construct kind r)⟩ : Round).Of (text ++ c :: d :: r) where
  text := List.prefix_append _ _
  progress := by
    simp only [Round.skip]
    omega
  name_lt := by
    rintro k ⟨⟩
    have hle : (construct kind r).name.length ≤ r.length := length_take_le' _ _
    simp only [length_append, length_cons]
    omega

theorem nextRound_of {w : CStr} (hw : w ≠ []) : (nextRound w).Of w := by
  have hsplit := takeWhile_append_dropWhile (p := fun c => decide (c ≠ chr '$')) (l := w)
  rw [nextRound]
  generalize w.takeWhile (fun c => decide (c ≠ chr '$')) = text at hsplit ⊢
  generalize w.dropWhile (fun c => decide (c ≠ chr '$')) = r at hsplit ⊢
  have hplain : ∀ t, t ≠ [] → t <+: w → (⟨t, none⟩ : Round).Of w := fun t ht hp =>
    ⟨hp, by simp [Round.skip, length_pos_iff, ht], by simp⟩
  match r with
  | [] =>
    rw [append_nil] at hsplit
    exact hplain text (hsplit ▸ hw) (hsplit ▸ prefix_refl _)
  | [d] => exact hplain _ (by simp) (hsplit ▸ prefix_refl _)
  | d :: c :: r =>
    have hdollar : text ++ [d] <+: w := hsplit ▸ ⟨c :: r, by simp⟩
    simp only []
    split_ifs
    · exact hsplit ▸ round_of_construct .var
    · exact hsplit ▸ round_of_construct .exp
    · exact hplain _ (by simp) hdollar

inductive Value where
  | none
  | integer (digits : CStr)
  | string (s : CStr)
  deriving Repr, DecidableEq

def Value.text : Value → CStr
  | .none => [chr '0']
  | .integer digits => digits
  | .string s => s

/-- What the substitution finds: the variables of the channel or of the list it gets, what a
function yields if it is registered, the values of expressions, and how long the strings were that
the output buffer held. -/
structure Environment where
  globals : Channel.Environment
  c : Option (Channel.Fields × List Channel.Var)
  headp : Option (List Channel.Var)
  funcRead : CStr → Option (Option CStr)
  evaluate : CStr → Value
  old : CStr → ℕ → ℕ

def Environment.find (env : Environment) (name : CStr) : Option CStr :=
  Channel.findValue env.globals env.c env.headp name

def absInt (n : ℤ) : ℤ := if n = -2147483648 then n else |n|

/-- The slicing branch of `pbx_retrieve_variable`: where the slice of `n` characters starts, and at
which distance its terminating zero is written. The numbers are those that `atoi` has read. -/
def variableBounds (n : ℤ) (pos : ℤ) (length : Option ℤ) : ℤ × ℤ :=
  let offset2 := length.getD (if pos ≥ 0 then n - pos else absInt pos)
  -- lengths are unsigned, so that a negative number is beyond each of them
  let offset := if absInt pos < 0 ∨ n < absInt pos then if pos ≥ 0 then n else -n else pos
  let offset2 :=
    if offset < 0 ∧ offset2 > -offset ∨
      offset ≥ 0 ∧ (offset + offset2 < 0 ∨ n < offset + offset2) then
      if offset ≥ 0 then n - offset else n + offset
    else offset2
  (if offset ≥ 0 then offset else n + offset, offset2)

/-- What stands between the start of the slice and the zero, or the end of the value. -/
def between (bounds : ℤ × ℤ) (s : CStr) : CStr :=
  (s.drop bounds.1.toNat).take (if bounds.2 < 0 then s.length else bounds.2.toNat)

/-- The slice of a value fetched into a buffer of the given size, one byte of which is kept back.
There is no result when the zero is written outside the buffer. -/
def variableSlice (size : ℕ) (pos : ℤ) (length : Option ℤ) (s : CStr) : Option CStr :=
  let s := s.take (size - 2)
  let bounds := variableBounds s.length pos length
  if bounds.1 + bounds.2 < 0 ∨ size ≤ bounds.1 + bounds.2 then none else some (between bounds s)

/-- `strchr` for the colon in front of an offset or a length. -/
def fromColon (s : CStr) : CStr := s.dropWhile (· ≠ chr ':')

def sliceLength (first : CStr) : Option ℤ :=
  match fromColon first with
  | [] => none
  | _ :: second => some (atoi second)

def sizeofTmpvar : ℕ := 80

/-- `pbx_retrieve_variable` with a workspace of the given size. -/
def pbxRetrieveVariable (env : Environment) (size : ℕ) (var : CStr) : Option (Option CStr) :=
  match fromColon var with
  | [] => some ((env.find var).map (·.take (size - 1)))
  | _ :: _ =>
    let tmpvar := var.take (sizeofTmpvar - 1)
    match env.find (tmpvar.takeWhile (· ≠ chr ':')) with
    | none => some none
    | some s =>
      match fromColon tmpvar with
      -- the offset is read behind `tmpvar`
      | [] => none
      | _ :: first => (variableSlice size (atoi first) (sliceLength first) s).map some

def lastParen (vars : CStr) : Option (CStr × CStr) :=
  let tail := vars.reverse.takeWhile (· ≠ chr ')')
  if tail.length = vars.length then none
  else
    let n := vars.length - tail.length
    some (vars.take n, vars.drop (n - 1))

def offset (pos : ℤ) (n : ℕ) : ℕ := if pos < 0 then (n + pos).toNat else min n pos.toNat

/-- Keep `length` characters of the value of a function from `pos` on. A negative length ends it in
front of the first of them. -/
def cut (pos length : ℤ) (s : CStr) : Option CStr :=
  let b := offset pos s.length
  if b + length < s.length then
    if b + length < 0 then none
    else if length < 0 then some (s.drop b)
    else some ((s.drop b).take length.toNat)
  else some (s.drop b)

/-- What `sscanf` reads with the format `):%d:%d`. -/
def scanBounds (arg : CStr) : ℤ × Option ℤ :=
  match arg with
  | _ :: colon :: s =>
    if colon = chr ':' then
      match scanInt s with
      | none => (0, none)
      | some (pos, []) => (pos, none)
      | some (pos, c :: t) => (pos, if c = chr ':' then (scanInt t).map Prod.fst else none)
    else (0, none)
  | _ => (0, none)

/-- The text that `cw_func_read` returns for a function that is not registered. -/
def unregistered : CStr := [chr '0']

/-- The value of a function from the offset on, as far as its length goes. -/
def functionValue (env : Environment) (name arg : CStr) : Option (Option CStr) :=
  let pos := (scanBounds arg).1
  let length := (scanBounds arg).2.getD varBufSize
  match env.funcRead name with
  | none =>
    -- this text is a literal, in which no zero can be written
    let b := offset pos unregistered.length
    if b + length < unregistered.length then none else some (some (unregistered.drop b))
  | some none => some none
  | some (some s) => (cut pos length s).map some

def value (env : Environment) (vars : CStr) : Option (Option CStr) :=
  match lastParen vars with
  | none => pbxRetrieveVariable env varBufSize vars
  | some (name, arg) => functionValue env name arg

/-- The string in the output buffer, how much is left of it, and the lengths of the strings it held
before. Once a zero was written in front of the position there is no room left, and nothing more is
written. -/
structure Output where
  out : CStr
  count : ℤ
  old : ℕ → ℕ

/-- Copy a string as far as there is room; a negative length is no length for `memcpy`. -/
def copyValue (s : Output) (v : CStr) : Option Output :=
  if s.count < 0 then none
  else some
    { s with out := s.out ++ v.take s.count.toNat, count := s.count - min (v.length : ℤ) s.count }

def copyText (s : Output) (text : CStr) : Option Output :=
  if text = [] then some s else copyValue s text

/-- `cw_copy_string` into the output buffer with `count` as its size, and `strlen` of the result. -/
def copyString (s : Output) (v : CStr) : Option Output :=
  if s.count < 0 then none
  else if s.count = 0 then
    -- the zero is written in front of the position, and the length is that of an old string
    if s.out = [] then none else some { s with out := s.out.dropLast, count := -s.old s.out.length }
  else if v.length < s.count then some { s with out := s.out ++ v, count := s.count - v.length }
  else some { s with out := s.out ++ v.take (s.count.toNat - 1), count := 1 }

/-- `snprintf` into the output buffer with `count` as its size, and the length it returns. -/
def printInteger (s : Output) (digits : CStr) : Option Output :=
  if s.count < 0 then none
  else if s.count = 0 then some s
  else if digits.length < s.count then
    some { s with out := s.out ++ digits, count := s.count - digits.length }
  else some { s with out := s.out ++ digits.take (s.count.toNat - 1), count := 0 }

def cwExpr (s : Output) : Value → Option Output
  | .none =>
    some (if s.count > 1 then { s with out := s.out ++ [chr '0'], count := s.count - 1 } else s)
  | .integer digits => printInteger s digits
  | .string v => copyString s v

def insert (env : Environment) (s : Output) (vars : CStr) : Kind → Option Output
  | .var => (value env vars).bind fun v => v.elim (some s) (copyValue s)
  | .exp => cwExpr s (env.evaluate vars)

def Kind.size : Kind → ℕ
  | .var => varBufSize
  | .exp => varBufSize - 1

/-- One turn of the loop. -/
def round (env : Environment) (nested : CStr → ℕ → Option CStr) (w : CStr) (s : Output) :
    Option (CStr × Output) :=
  let r := nextRound w
  let pos := min r.text.length s.count.toNat
  (copyText s r.text).bind fun s =>
    match r.construct with
    | none => some (w.drop pos, s)
    | some k =>
      -- the buffer for the name gets `len + 1` characters, which are compared with nothing
      if k.taken = 0 ∨ k.taken > varBufSize then none
      else
        (if k.needsub then nested k.name k.kind.size else some k.name).bind fun vars =>
          (insert env s vars k.kind).map fun s => (w.drop (pos + (k.taken + 2)), s)

def start (env : Environment) (w : CStr) (count : ℕ) : Output := ⟨[], (count : ℤ) - 1, env.old w⟩

/-- The loop of `pbx_substitute_variables_helper_full`. -/
def expand (env : Environment) : ℕ → CStr → Output → Option Output
  | 0, _, _ => none
  | fuel + 1, w, s =>
    if w = [] ∨ s.count = 0 then some s
    else
      (round env (fun name size => (expand env fuel name (start env name size)).map Output.out) w
        s).bind fun (w, s) => expand env fuel w s

/-- Each round and each level leaves less of the template. -/
def pbxSubstituteVariablesHelperFull (env : Environment) (cp1 : CStr) (count : ℕ) : Option Output :=
  expand env (cp1.length + 1) cp1 (start env cp1 count)

def counts (env : Environment) : ℕ → CStr → Output → List ℤ
  | 0, _, _ => []
  | fuel + 1, w, s =>
    s.count ::
      if w = [] ∨ s.count = 0 then []
      else
        match round env (fun name size =>
          (expand env fuel name (start env name size)).map Output.out) w s with
        | none => []
        | some (w, s) => counts env fuel w s

end CallWeaver.Pbx
