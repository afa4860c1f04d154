import AuroraComms.Library.Words

/-! Arrays of string literals (`meta.h`, `hex.h`). The preprocessor writes the
two header words in front of the text as bytes, one branch for each byte order
and one for each width of a `size_t`. -/
namespace AuroraComms.Meta
open Library.Words

/-- The widths of a `size_t` the header knows. -/
inductive Width where
  | four
  | eight
  | sixteen
  deriving DecidableEq, Repr

/-- `sizeof(size_t)` -/
def Width.bytes : Width → Nat
  | .four => 4
  | .eight => 8
  | .sixteen => 16

/-- What the preprocessor branches on. -/
structure Target where
  width : Width
  order : ByteOrder
  deriving DecidableEq, Repr

/-- `AC_ZEROES` -/
def zeroes : Width → List UInt8
  | .eight => [0, 0, 0, 0, 0, 0]
  | .sixteen => [0, 0, 0, 0, 0, 0, 0, 0, 0, 0, 0, 0, 0, 0]
  | .four => [0, 0]

/-- The rows of `hex.h`, which holds one macro for each byte. -/
def hexTable : List UInt8 :=
  [0x00, 0x01, 0x02, 0x03, 0x04, 0x05, 0x06, 0x07, 0x08, 0x09, 0x0a, 0x0b, 0x0c, 0x0d, 0x0e, 0x0f,
    0x10, 0x11, 0x12, 0x13, 0x14, 0x15, 0x16, 0x17, 0x18, 0x19, 0x1a, 0x1b, 0x1c, 0x1d, 0x1e, 0x1f,
    0x20, 0x21, 0x22, 0x23, 0x24, 0x25, 0x26, 0x27, 0x28, 0x29, 0x2a, 0x2b, 0x2c, 0x2d, 0x2e, 0x2f,
    0x30, 0x31, 0x32, 0x33, 0x34, 0x35, 0x36, 0x37, 0x38, 0x39, 0x3a, 0x3b, 0x3c, 0x3d, 0x3e, 0x3f,
    0x40, 0x41, 0x42, 0x43, 0x44, 0x45, 0x46, 0x47, 0x48, 0x49, 0x4a, 0x4b, 0x4c, 0x4d, 0x4e, 0x4f,
    0x50, 0x51, 0x52, 0x53, 0x54, 0x55, 0x56, 0x57, 0x58, 0x59, 0x5a, 0x5b, 0x5c, 0x5d, 0x5e, 0x5f,
    0x60, 0x61, 0x62, 0x63, 0x64, 0x65, 0x66, 0x67, 0x68, 0x69, 0x6a, 0x6b, 0x6c, 0x6d, 0x6e, 0x6f,
    0x70, 0x71, 0x72, 0x73, 0x74, 0x75, 0x76, 0x77, 0x78, 0x79, 0x7a, 0x7b, 0x7c, 0x7d, 0x7e, 0x7f,
    0x80, 0x81, 0x82, 0x83, 0x84, 0x85, 0x86, 0x87, 0x88, 0x89, 0x8a, 0x8b, 0x8c, 0x8d, 0x8e, 0x8f,
    0x90, 0x91, 0x92, 0x93, 0x94, 0x95, 0x96, 0x97, 0x98, 0x99, 0x9a, 0x9b, 0x9c, 0x9d, 0x9e, 0x9f,
    0xa0, 0xa1, 0xa2, 0xa3, 0xa4, 0xa5, 0xa6, 0xa7, 0xa8, 0xa9, 0xaa, 0xab, 0xac, 0xad, 0xae, 0xaf,
    0xb0, 0xb1, 0xb2, 0xb3, 0xb4, 0xb5, 0xb6, 0xb7, 0xb8, 0xb9, 0xba, 0xbb, 0xbc, 0xbd, 0xbe, 0xbf,
    0xc0, 0xc1, 0xc2, 0xc3, 0xc4, 0xc5, 0xc6, 0xc7, 0xc8, 0xc9, 0xca, 0xcb, 0xcc, 0xcd, 0xce, 0xcf,
    0xd0, 0xd1, 0xd2, 0xd3, 0xd4, 0xd5, 0xd6, 0xd7, 0xd8, 0xd9, 0xda, 0xdb, 0xdc, 0xdd, 0xde, 0xdf,
    0xe0, 0xe1, 0xe2, 0xe3, 0xe4, 0xe5, 0xe6, 0xe7, 0xe8, 0xe9, 0xea, 0xeb, 0xec, 0xed, 0xee, 0xef,
    0xf0, 0xf1, 0xf2, 0xf3, 0xf4, 0xf5, 0xf6, 0xf7, 0xf8, 0xf9, 0xfa, 0xfb, 0xfc, 0xfd, 0xfe, 0xff]

/-- `AC_HEX_` and a number; there are no other such macros. -/
def hex (n : Nat) : Option (List UInt8) := hexTable[n]?.map fun byte => [byte]

/-- `ac_literal` -/
def literal (target : Target) (lo hi : Nat) : Option (List UInt8) := do
  let lo ← hex lo
  let hi ← hex hi
  match target.order with
  | .little => return lo ++ hi ++ zeroes target.width
  | .big => return hi ++ lo ++ zeroes target.width

/-- A pointer into a string literal. -/
structure Embedded where
  literal : List UInt8
  offset : Nat
  deriving DecidableEq, Repr

/-- `ac_arr_from_string_literal`; nothing when it does not compile. -/
def arrFromStringLiteral (target : Target) (text : List UInt8) (lo hi : Nat) : Option Embedded := do
  guard (text.length = hi <<< 8 ||| lo)
  let header ← literal target lo hi
  return ⟨header ++ header ++ text ++ [0], 2 * target.width.bytes⟩

namespace Embedded

/-- `((size_t *)(A))[-back]` -/
def wordBefore (a : Embedded) (target : Target) (back : Nat) : Nat :=
  target.order.word
    ((a.literal.drop (a.offset - back * target.width.bytes)).take target.width.bytes)

/-- `ac_alen` -/
def alen (a : Embedded) (target : Target) : Nat := a.wordBefore target 2

/-- `ac_acap` -/
def acap (a : Embedded) (target : Target) : Nat := a.wordBefore target 1

/-- `A[I]` -/
def get (a : Embedded) (i : Nat) : Option UInt8 := a.literal[a.offset + i]?

/-- The array is this text, to whoever reads its header on the target. -/
structure Reads (a : Embedded) (target : Target) (text : List UInt8) : Prop where
  alen : a.alen target = text.length
  acap : a.acap target = text.length
  elements : ∀ i, i < text.length → a.get i = text[i]?

end Embedded

/-! ## The header words -/

section Header
variable {target : Target} {text : List UInt8}

theorem hexTable_eq : hexTable = (List.range 256).map UInt8.ofNat := by
  decide +kernel

theorem hex_eq {n : Nat} (byte : n < 256) : hex n = some [UInt8.ofNat n] := by
  simp [hex, hexTable_eq, byte]

theorem zeroes_eq (width : Width) : zeroes width = List.replicate (width.bytes - 2) 0 := by
  cases width <;> rfl

/-- A length is put together again from its low byte and the rest. -/
theorem length_parts (n : Nat) : n = (n / 256) <<< 8 ||| n % 256 := by
  have low : n % 256 < 2 ^ 8 := Nat.mod_lt _ (by decide)
  rw [← Nat.shiftLeft_add_eq_or_of_lt low, Nat.shiftLeft_eq]
  omega

/-- The two significant bytes of a length, in the order of the target. -/
def lengthBytes (order : ByteOrder) (n : Nat) : List UInt8 :=
  match order with
  | .little => [UInt8.ofNat (n % 256), UInt8.ofNat (n / 256)]
  | .big => [UInt8.ofNat (n / 256), UInt8.ofNat (n % 256)]

theorem literal_eq (target : Target) {n : Nat} (short : n < 65536) :
    literal target (n % 256) (n / 256) =
      some (lengthBytes target.order n ++ List.replicate (target.width.bytes - 2) 0) := by
  rw [literal, hex_eq (Nat.mod_lt _ (by decide)), hex_eq (by omega), ← zeroes_eq]
  cases target.order <;> rfl

theorem word_lengthBytes (order : ByteOrder) {n : Nat} (short : n < 65536) :
    order.word (lengthBytes order n) = n := by
  have low : (UInt8.ofNat (n % 256)).toNat = n % 256 := by
    rw [UInt8.toNat_ofNat']
    exact Nat.mod_eq_of_lt (Nat.mod_lt _ (by decide))
  have high : (UInt8.ofNat (n / 256)).toNat = n / 256 := by
    rw [UInt8.toNat_ofNat']
    exact Nat.mod_eq_of_lt (by omega)
  cases order with
  | little => rw [lengthBytes, little_word_pair, low, high, Nat.mod_add_div]
  | big => rw [lengthBytes, big_word_pair, low, high, Nat.mod_add_div]

/-- What a header word reads as: the zeroes stand behind the significant bytes
in either order, where they belong on a little-endian host only. -/
theorem word_literal (target : Target) {n : Nat} (short : n < 65536) :
    target.order.word (lengthBytes target.order n ++ List.replicate (target.width.bytes - 2) 0) =
      match target.order with
      | .little => n
      | .big => 256 ^ (target.width.bytes - 2) * n := by
  cases order : target.order with
  | little => rw [little_word_zeroes, word_lengthBytes _ short]
  | big => rw [big_word_zeroes, word_lengthBytes _ short]

theorem width_bytes_gt (width : Width) : 2 < width.bytes := by
  cases width <;> decide

end Header

/-! ## The array -/

section Arrays
variable {target : Target} {text : List UInt8}

/-- The array is laid out as two equal header words and the text. -/
theorem arrFromStringLiteral_eq (target : Target) (short : text.length < 65536) :
    ∃ header a, arrFromStringLiteral target text (text.length % 256) (text.length / 256) = some a ∧
      header = lengthBytes target.order text.length ++ List.replicate (target.width.bytes - 2) 0 ∧
      a.alen target = target.order.word header ∧ a.acap target = target.order.word header ∧
      ∀ i, i < text.length → a.get i = text[i]? := by
  have wide := width_bytes_gt target.width
  have made := literal_eq target short
  generalize header_eq : lengthBytes target.order text.length ++
    List.replicate (target.width.bytes - 2) 0 = header at made
  have length : header.length = target.width.bytes := by
    rw [← header_eq, List.length_append, List.length_replicate]
    cases target.order <;> simp [lengthBytes] <;> omega
  refine ⟨header, ⟨header ++ header ++ text ++ [0], 2 * target.width.bytes⟩, ?_, rfl, ?_, ?_, ?_⟩
  · have asserted := length_parts text.length
    simp [arrFromStringLiteral, made, guard, ← asserted]
  · simp [Embedded.alen, Embedded.wordBefore, ← length]
  · have second : 2 * header.length - header.length = header.length := by omega
    simp [Embedded.acap, Embedded.wordBefore, ← length, second]
  · intro i inside
    have front : (header ++ header).length = 2 * target.width.bytes := by
      rw [List.length_append, length, Nat.two_mul]
    simp only [Embedded.get]
    rw [List.append_assoc, List.getElem?_append_right (by omega), front, Nat.add_sub_cancel_left,
      List.getElem?_append_left inside]

/-- For every target and every text shorter than 65536 bytes the macro compiles,
and the array is the text exactly on a little-endian target, or when the text is
empty. -/
theorem literal_reads_iff_little_or_empty (target : Target) (short : text.length < 65536) :
    ∃ a, arrFromStringLiteral target text (text.length % 256) (text.length / 256) = some a ∧
      (a.Reads target text ↔ target.order = .little ∨ text = []) := by
  obtain ⟨header, a, compiled, rfl, alen, acap, elements⟩ := arrFromStringLiteral_eq target short
  rw [word_literal target short] at alen acap
  refine ⟨a, compiled, ?_⟩
  constructor
  · intro reads
    cases order : target.order with
    | little => exact .inl rfl
    | big =>
      right
      have scaled := reads.alen
      rw [alen, order] at scaled
      have wide := width_bytes_gt target.width
      have factor : 1 < 256 ^ (target.width.bytes - 2) := Nat.one_lt_pow (by omega) (by decide)
      by_contra nonempty
      have positive := List.length_pos_iff.mpr nonempty
      exact absurd scaled (Nat.ne_of_gt ((Nat.lt_mul_iff_one_lt_left positive).mpr factor))
  · rintro (order | rfl)
    · rw [order] at alen acap
      exact ⟨alen, acap, elements⟩
    · refine ⟨?_, ?_, elements⟩
      · rw [alen]
        cases target.order <;> simp
      · rw [acap]
        cases target.order <;> simp

/-- "hello world" -/
private def hello : List UInt8 := [104, 101, 108, 108, 111, 32, 119, 111, 114, 108, 100]

/-- It is read on a little-endian host with words of eight bytes. -/
theorem literal_reads_hello : ∃ a, arrFromStringLiteral ⟨.eight, .little⟩ hello 11 0 = some a ∧
    a.Reads ⟨.eight, .little⟩ hello := by
  have short : hello.length < 65536 := by decide
  obtain ⟨a, compiled, reads⟩ := literal_reads_iff_little_or_empty ⟨.eight, .little⟩ short
  exact ⟨a, compiled, reads.mpr (.inl rfl)⟩

/-- The prompt on a big-endian host: its length reads as 2 ^ 48. -/
theorem prompt_misread_big_endian : ∃ a,
    arrFromStringLiteral ⟨.eight, .big⟩ [62] 1 0 = some a ∧ a.alen ⟨.eight, .big⟩ = 2 ^ 48 ∧
      a.acap ⟨.eight, .big⟩ = 2 ^ 48 ∧ ¬ a.Reads ⟨.eight, .big⟩ [62] := by
  refine ⟨⟨[0, 1, 0, 0, 0, 0, 0, 0, 0, 1, 0, 0, 0, 0, 0, 0, 62, 0], 16⟩, by decide +kernel,
    by decide +kernel, by decide +kernel, fun reads => ?_⟩
  exact absurd reads.alen (by decide +kernel)

end Arrays
end AuroraComms.Meta
