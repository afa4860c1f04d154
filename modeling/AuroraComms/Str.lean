import AuroraComms.Meta.Map

/-! Byte strings (`str.c`). A `char` is a byte; where the source compares it as
a number the bytes from 0x80 on are rejected whether `char` is signed or not. -/
namespace AuroraComms

abbrev Bytes := List UInt8

/-- The bytes of an ASCII literal. -/
def bytes (s : String) : Bytes := s.toList.map fun c => UInt8.ofNat c.toNat

/-- `ac_string_hash`: 64-bit FNV-1a. -/
def stringHash (key : Bytes) : Nat :=
  (key.foldl (fun (hash : UInt64) b => (hash ^^^ b.toUInt64) * 1099511628211)
    14695981039346656037).toNat

/-- `ac_string_eq`: equal lengths and equal contents. -/
def stringEq (a b : Bytes) : Bool := decide (a = b)

/-- `tolower` in the C locale. -/
def tolower (b : UInt8) : UInt8 := if 65 ≤ b ∧ b ≤ 90 then b + 32 else b

/-- `ac_string_eq_ignore_case` -/
def stringEqIgnoreCase (a b : Bytes) : Bool :=
  if a.length ≠ b.length then false
  else (a.zip b).all fun (x, y) => tolower x == tolower y

end AuroraComms
