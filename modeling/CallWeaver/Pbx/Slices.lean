import CallWeaver.Pbx.Substitution

/-! # Slices of variables and functions

The offset and the length behind a name select a part of the value, for a variable in
`pbx_retrieve_variable` and for a function in the substitution. Both treat negative numbers, and
numbers beyond the value, in their own ways. A variable is cut before it is sliced.
-/

namespace CallWeaver.Pbx

open Option List Int

variable {size n : ℕ} {pos : ℤ} {length : Option ℤ} {s : CStr}

end CallWeaver.Pbx
