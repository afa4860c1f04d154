import AuroraComms.Str
import Mathlib.Data.List.TakeWhile

/-! Reading one line out of a client's input (`io.c`). The loops find the first
terminator, keep the printable bytes in front of it, swallow the run of
terminators that has arrived so far, and trim the result. -/
namespace AuroraComms
open Meta Library.Run

/-- `ac_arr_remove_n` on the elements of an array, asserts included. -/
def arrRemoveN {α : Type} (xs : List α) (i n : Nat) : Except Fault (List α) :=
  if i < xs.length ∧ i + n ≤ xs.length then .ok (xs.take i ++ xs.drop (i + n))
  else .error .assertion

def isNewline (b : UInt8) : Bool := b == 13 || b == 10

def isSpace (b : UInt8) : Bool := b == 32

/-- The filter of `ac_get_line`. -/
def isPrintable (b : UInt8) : Bool := 0x20 ≤ b && b ≤ 0x7e

/-- `ac_has_complete_line`: the index left in `len` when it returns true. -/
def hasCompleteLine (inBuf : Bytes) : Option Nat := inBuf.findIdx? isNewline

/-- `ac_trim_whitespace` -/
def trimWhitespace (str : Bytes) : Except Fault Bytes := do
  if str.length = 0 then return str
  let start := (str.takeWhile isSpace).length
  if start = str.length then return []
  let str ← arrRemoveN str 0 start
  let stop := str.length - (str.reverse.takeWhile isSpace).length
  return str.take stop

/-- `ac_get_line` with an empty line buffer: the sanitized line and what is
left of the input, or nothing while no terminator has arrived. -/
def getLine (inBuf : Bytes) : Except Fault (Option (Bytes × Bytes)) := do
  match hasCompleteLine inBuf with
  | none => return none
  | some len =>
    let line := (inBuf.take len).filter isPrintable
    let len := len + ((inBuf.drop len).takeWhile isNewline).length
    let inBuf ← arrRemoveN inBuf 0 len
    let line ← trimWhitespace line
    return some (line, inBuf)

/-! ## What a line is -/

/-- Spaces off both ends. -/
def trim (str : Bytes) : Bytes := ((str.dropWhile isSpace).reverse.dropWhile isSpace).reverse

/-- What the server makes of the bytes in front of a terminator. -/
def sanitize (raw : Bytes) : Bytes := trim (raw.filter isPrintable)

/-- Removal on a represented array is removal on its elements. -/
theorem arrRemoveN_refined {α : Type} {a : Arr α} {xs ys : List α} (held : a.Holds xs) {i n : Nat}
    (ran : arrRemoveN xs i n = .ok ys) : ∃ b, a.removeN i n = .ok b ∧ b.Holds ys := by
  unfold arrRemoveN at ran
  split at ran
  · rename_i inside
    cases ran
    obtain ⟨b, removed, refined⟩ := Arr.removeN_refines held (i := i) (n := n)
      (by simpa using inside.1) (by simpa using inside.2)
    exact ⟨b, removed, by simpa [Arr.Holds] using refined⟩
  · cases ran

private theorem take_stop (str : Bytes) :
    str.take (str.length - (str.reverse.takeWhile isSpace).length) =
      (str.reverse.dropWhile isSpace).reverse := by
  have split := List.takeWhile_append_dropWhile (p := isSpace) (l := str.reverse)
  have whole := congrArg List.reverse split
  rw [List.reverse_append, List.reverse_reverse] at whole
  have length := congrArg List.length split
  rw [List.length_append, List.length_reverse] at length
  conv_lhs => arg 2; rw [← whole]
  apply List.take_left'
  rw [List.length_reverse]
  omega

/-- Trimming never trips an assert. -/
theorem trimWhitespace_eq (str : Bytes) : trimWhitespace str = .ok (trim str) := by
  have split := List.takeWhile_append_dropWhile (p := isSpace) (l := str)
  have length := congrArg List.length split
  rw [List.length_append] at length
  unfold trimWhitespace
  by_cases empty : str.length = 0
  · rw [List.length_eq_zero_iff.mp empty]
    rfl
  · rw [if_neg empty]
    by_cases blank : (str.takeWhile isSpace).length = str.length
    · have nothing : str.dropWhile isSpace = [] := List.length_eq_zero_iff.mp (by omega)
      simp [blank, trim, nothing]
    · have rest : str.drop (str.takeWhile isSpace).length = str.dropWhile isSpace := by
        conv_lhs => arg 2; rw [← split]
        exact List.drop_left
      have removed : arrRemoveN str 0 (str.takeWhile isSpace).length = .ok (str.dropWhile isSpace) := by
        rw [arrRemoveN, if_pos ⟨by omega, by omega⟩, Nat.zero_add, rest]
        rfl
      simp only [blank, ↓reduceIte, removed, ok_bind, pure_eq_ok, take_stop, trim]

/-- What one call makes of an input with a terminator in it. -/
theorem getLine_complete {raw newlines rest : Bytes} (plain : ∀ b ∈ raw, isNewline b = false)
    (ended : newlines ≠ []) (run : ∀ b ∈ newlines, isNewline b = true)
    (stops : ∀ b ∈ rest.head?, isNewline b = false) :
    getLine (raw ++ newlines ++ rest) = .ok (some (sanitize raw, rest)) := by
  obtain ⟨first, more, rfl⟩ := List.exists_cons_of_ne_nil ended
  have found : hasCompleteLine (raw ++ (first :: more) ++ rest) = some raw.length := by
    have firstRun := run first (by simp)
    rw [hasCompleteLine, List.append_assoc, List.findIdx?_append,
      List.findIdx?_eq_none_iff.mpr plain]
    simp [List.findIdx?_cons, firstRun]
  have swallowed : (((raw ++ (first :: more) ++ rest).drop raw.length).takeWhile isNewline) =
      first :: more := by
    rw [List.append_assoc, List.drop_left, List.takeWhile_append_of_pos run]
    cases rest with
    | nil => simp
    | cons b tail => simp [stops b (by simp)]
  have front : (raw ++ (first :: more) ++ rest).take raw.length = raw := by
    rw [List.append_assoc, List.take_left]
  have length : (raw ++ (first :: more)).length = raw.length + (first :: more).length :=
    List.length_append
  have removed : arrRemoveN (raw ++ (first :: more) ++ rest) 0
      (raw.length + (first :: more).length) = .ok rest := by
    have inside : 0 < (raw ++ (first :: more) ++ rest).length ∧ 0 + (raw.length + (first :: more).length) ≤
        (raw ++ (first :: more) ++ rest).length := by
      simp only [List.length_append, List.length_cons]
      omega
    rw [arrRemoveN, if_pos inside, Nat.zero_add, ← length, List.drop_left]
    rfl
  simp only [getLine, found, swallowed, front, removed, trimWhitespace_eq, ok_bind, pure_eq_ok,
    sanitize]

/-- An input without a terminator yields nothing. -/
theorem getLine_unfinished {inBuf : Bytes} (plain : ∀ b ∈ inBuf, isNewline b = false) :
    getLine inBuf = .ok none := by
  simp [getLine, hasCompleteLine, List.findIdx?_eq_none_iff.mpr plain]

/-- Every input is a partial line, or a line, its run of terminators and a rest
that starts no further terminator. -/
theorem line_cases (inBuf : Bytes) :
    (∀ b ∈ inBuf, isNewline b = false) ∨
    ∃ raw newlines rest, inBuf = raw ++ newlines ++ rest ∧ (∀ b ∈ raw, isNewline b = false) ∧
      newlines ≠ [] ∧ (∀ b ∈ newlines, isNewline b = true) ∧
      ∀ b ∈ rest.head?, isNewline b = false := by
  have outer := List.takeWhile_append_dropWhile (p := fun b => !isNewline b) (l := inBuf)
  have plain : ∀ b ∈ inBuf.takeWhile (fun b => !isNewline b), isNewline b = false := by
    intro b member
    simpa using List.mem_takeWhile_imp member
  cases tail : inBuf.dropWhile (fun b => !isNewline b) with
  | nil =>
    rw [tail, List.append_nil] at outer
    rw [outer] at plain
    exact Or.inl plain
  | cons first more =>
    have inner := List.takeWhile_append_dropWhile (p := isNewline) (l := first :: more)
    have firstEnds : isNewline first = true := by
      have stop := List.head?_dropWhile_not (fun b => !isNewline b) inBuf
      rw [tail] at stop
      simpa using stop
    refine Or.inr ⟨_, (first :: more).takeWhile isNewline, (first :: more).dropWhile isNewline,
      ?_, plain, by simp [firstEnds], fun b member => List.mem_takeWhile_imp member, ?_⟩
    · rw [List.append_assoc, inner, ← tail, outer]
    · intro b member
      have stop := List.head?_dropWhile_not isNewline (first :: more)
      rw [Option.mem_def] at member
      rw [member] at stop
      simpa using stop

/-- Reading a line cannot fail. -/
theorem getLine_total (inBuf : Bytes) : ∃ result, getLine inBuf = .ok result := by
  rcases line_cases inBuf with plain | ⟨raw, newlines, rest, rfl, plain, ended, run, stops⟩
  · exact ⟨none, getLine_unfinished plain⟩
  · exact ⟨_, getLine_complete plain ended run stops⟩

end AuroraComms
