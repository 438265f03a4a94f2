import Mathlib

/-! # JSON values

Values as a parser returns them, and the partial lookups in them. The entries of an object have
distinct keys.
-/

inductive JsonValue where
  | null
  | bool (b : Bool)
  | uint (n : UInt64)
  | negZero
  | number (q : ℚ)
  | str (s : String)
  | array (items : List JsonValue)
  | object (entries : List (String × JsonValue))

namespace JsonValue

def get? (v : JsonValue) (key : String) : Option JsonValue :=
  match v with
  | .object entries => entries.lookup key
  | _ => none

def item? (v : JsonValue) (i : Nat) : Option JsonValue :=
  match v with
  | .array items => items[i]?
  | _ => none

def asStr? : JsonValue → Option String
  | .str s => some s
  | _ => none

def asU64? : JsonValue → Option UInt64
  | .uint n => some n
  | _ => none

end JsonValue
