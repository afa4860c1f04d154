import Mathlib.Data.Nat.Digits.Defs

/-! Words in memory: the value of a run of bytes in the order of a host. -/
namespace AuroraComms.Library.Words

inductive ByteOrder where
  | little
  | big
  deriving DecidableEq, Repr

/-- The value of the word that is kept as these bytes. -/
def ByteOrder.word (order : ByteOrder) (bytes : List UInt8) : Nat :=
  match order with
  | .little => Nat.ofDigits 256 (bytes.map UInt8.toNat)
  | .big => Nat.ofDigits 256 (bytes.reverse.map UInt8.toNat)

/-- Zero bytes behind a little-endian word are its high bytes. -/
theorem little_word_zeroes (bytes : List UInt8) (k : Nat) :
    ByteOrder.little.word (bytes ++ List.replicate k 0) = ByteOrder.little.word bytes := by
  simp only [ByteOrder.word, List.map_append, List.map_replicate, UInt8.toNat_zero]
  exact Nat.ofDigits_append_replicate_zero _

/-- Zero bytes behind a big-endian word are its low bytes. -/
theorem big_word_zeroes (bytes : List UInt8) (k : Nat) :
    ByteOrder.big.word (bytes ++ List.replicate k 0) = 256 ^ k * ByteOrder.big.word bytes := by
  simp only [ByteOrder.word, List.reverse_append, List.reverse_replicate, List.map_append,
    List.map_replicate, UInt8.toNat_zero, Nat.ofDigits_append, Nat.ofDigits_replicate_zero,
    List.length_replicate, Nat.zero_add]

theorem little_word_pair (lo hi : UInt8) : ByteOrder.little.word [lo, hi] = lo.toNat + 256 * hi.toNat := by
  simp [ByteOrder.word, Nat.ofDigits_cons]

theorem big_word_pair (hi lo : UInt8) : ByteOrder.big.word [hi, lo] = lo.toNat + 256 * hi.toNat := by
  simp [ByteOrder.word, Nat.ofDigits_cons]

end AuroraComms.Library.Words
