import AuroraComms.Line

/-! `ac_get_line` with every index it uses. The loops are those of the source,
each read is refused from the length of its buffer on, and the result is that
of `getLine`. -/
namespace AuroraComms.Indexed
open Meta Library.Run

/-- `str[i]` -/
def byteAt (str : Bytes) (i : Nat) : Except Fault UInt8 :=
  match str[i]? with
  | some b => .ok b
  | none => .error .outOfBounds

/-- `for (; i < ac_alen(str) && test(str[i]); i++)`, in at most `fuel` turns. -/
def scan (test : UInt8 → Bool) (str : Bytes) : Nat → Nat → Except Fault Nat
  | 0, _ => throw .unfinished
  | fuel + 1, i => do
    if i < str.length then
      if test (← byteAt str i) then scan test str fuel (i + 1) else return i
    else return i

/-- `ac_has_complete_line`, with the index left in `len`. -/
def hasCompleteLine (inBuf : Bytes) : Nat → Nat → Except Fault (Bool × Nat)
  | 0, _ => throw .unfinished
  | fuel + 1, len => do
    if len < inBuf.length then
      if isNewline (← byteAt inBuf len) then return (true, len)
      else hasCompleteLine inBuf fuel (len + 1)
    else return (false, len)

/-- `while (end > 0 && str[end - 1] == ' ') end--;` -/
def trimEnd (str : Bytes) : Nat → Except Fault Nat
  | 0 => return 0
  | stop + 1 => do
    if isSpace (← byteAt str stop) then trimEnd str stop else return stop + 1

/-- `ac_trim_whitespace` -/
def trimWhitespace (str : Bytes) : Except Fault Bytes := do
  if str.length = 0 then return str
  let start ← scan isSpace str (str.length + 1) 0
  if start = str.length then return []
  let str ← arrRemoveN str 0 start
  let stop ← trimEnd str str.length
  return str.take stop

/-- One turn of the loop that appends printable characters. -/
def appendPrintable (inBuf line : Bytes) (i : Nat) : Except Fault Bytes := do
  let b ← byteAt inBuf i
  return if isPrintable b then line ++ [b] else line

/-- `ac_get_line`: what it returns, and what it leaves in `line` and `in`. -/
def getLine (line inBuf : Bytes) : Except Fault (Bool × Bytes × Bytes) := do
  let (complete, len) ← hasCompleteLine inBuf (inBuf.length + 1) 0
  if !complete then return (false, line, inBuf)
  let line ← (List.range len).foldlM (appendPrintable inBuf) line
  let len ← scan isNewline inBuf (inBuf.length + 1) len
  let inBuf ← arrRemoveN inBuf 0 len
  let line ← trimWhitespace line
  return (true, line, inBuf)

/-! ## The loops -/

theorem byteAt_inside {str : Bytes} {i : Nat} (inside : i < str.length) : byteAt str i = .ok str[i] := by
  rw [byteAt, List.getElem?_eq_getElem inside]

/-- A scan stops behind the bytes that pass the test, wherever it starts. -/
theorem scan_eq (test : UInt8 → Bool) (str : Bytes) (fuel i : Nat) (enough : str.length - i < fuel) :
    scan test str fuel i = .ok (i + ((str.drop i).takeWhile test).length) := by
  induction fuel generalizing i with
  | zero => omega
  | succ fuel ih =>
    unfold scan
    by_cases inside : i < str.length
    · rw [if_pos inside, byteAt_inside inside, ok_bind, List.drop_eq_getElem_cons inside,
        List.takeWhile_cons]
      cases passed : test str[i] with
      | true =>
        simp only [↓reduceIte, List.length_cons]
        rw [ih (i + 1) (by omega)]
        congr 1
        omega
      | false => rfl
    · rw [if_neg inside, List.drop_of_length_le (by omega)]
      rfl

theorem hasCompleteLine_eq (inBuf : Bytes) (fuel len : Nat) (enough : inBuf.length - len < fuel) :
    hasCompleteLine inBuf fuel len =
      .ok (match (inBuf.drop len).findIdx? isNewline with
        | some i => (true, len + i)
        | none => (false, max len inBuf.length)) := by
  induction fuel generalizing len with
  | zero => omega
  | succ fuel ih =>
    unfold hasCompleteLine
    by_cases inside : len < inBuf.length
    · rw [if_pos inside, byteAt_inside inside, ok_bind, List.drop_eq_getElem_cons inside,
        List.findIdx?_cons]
      cases ends : isNewline inBuf[len] with
      | true => rfl
      | false =>
        simp only [Bool.false_eq_true, ↓reduceIte]
        rw [ih (len + 1) (by omega)]
        cases (inBuf.drop (len + 1)).findIdx? isNewline with
        | some i =>
          simp only [Option.map_some]
          congr 2
          omega
        | none =>
          simp only [Option.map_none]
          congr 2
          omega
    · rw [if_neg inside, List.drop_of_length_le (by omega)]
      simp only [List.findIdx?_nil]
      congr 2
      omega

/-- The loop from the end stops behind the last byte that is no space. -/
theorem trimEnd_eq (str : Bytes) (stop : Nat) (bound : stop ≤ str.length) :
    trimEnd str stop = .ok (stop - ((str.take stop).reverse.takeWhile isSpace).length) := by
  induction stop with
  | zero => rfl
  | succ stop ih =>
    have inside : stop < str.length := bound
    rw [trimEnd, byteAt_inside inside, ok_bind, List.take_succ_eq_append_getElem inside,
      List.reverse_append, List.reverse_singleton, List.singleton_append, List.takeWhile_cons]
    cases space : isSpace str[stop] with
    | true =>
      simp only [↓reduceIte, List.length_cons]
      rw [ih (by omega), Nat.add_sub_add_right]
    | false => rfl

theorem trimWhitespace_eq (str : Bytes) : trimWhitespace str = AuroraComms.trimWhitespace str := by
  unfold trimWhitespace AuroraComms.trimWhitespace
  split
  · rfl
  · simp only [scan_eq isSpace str (str.length + 1) 0 (by omega), ok_bind, List.drop_zero, Nat.zero_add]
    split
    · rfl
    · cases removed : arrRemoveN str 0 (str.takeWhile isSpace).length with
      | error fault => rfl
      | ok rest =>
        simp only [ok_bind, trimEnd_eq rest rest.length (Nat.le_refl _), List.take_length]

/-- The append loop filters the part in front of the terminator. -/
theorem appendPrintable_eq (inBuf line : Bytes) (len : Nat) (bound : len ≤ inBuf.length) :
    (List.range len).foldlM (appendPrintable inBuf) line =
      .ok (line ++ (inBuf.take len).filter isPrintable) := by
  induction len with
  | zero => simp
  | succ len ih =>
    have inside : len < inBuf.length := bound
    rw [List.range_succ, List.foldlM_append, ih (by omega), ok_bind, List.foldlM_cons,
      appendPrintable, byteAt_inside inside, ok_bind, List.take_succ_eq_append_getElem inside,
      List.filter_append, ← List.append_assoc, List.filter_singleton]
    cases isPrintable inBuf[len] <;> simp

/-- With an empty line buffer, `ac_get_line` stays inside its buffers and does
what `getLine` says. -/
theorem getLine_eq (inBuf : Bytes) :
    getLine [] inBuf = (AuroraComms.getLine inBuf).map fun
      | some (line, rest) => (true, line, rest)
      | none => (false, [], inBuf) := by
  unfold getLine AuroraComms.getLine
  rw [hasCompleteLine_eq inBuf _ 0 (by omega), List.drop_zero, AuroraComms.hasCompleteLine]
  cases found : inBuf.findIdx? isNewline with
  | none => rfl
  | some len =>
    have inside : len < inBuf.length := (List.findIdx?_eq_some_iff_getElem.mp found).1
    simp only [ok_bind, Nat.zero_add, Bool.not_true, Bool.false_eq_true, ↓reduceIte,
      appendPrintable_eq inBuf [] len (by omega), List.nil_append,
      scan_eq isNewline inBuf (inBuf.length + 1) len (by omega), trimWhitespace_eq]
    cases arrRemoveN inBuf 0 (len + ((inBuf.drop len).takeWhile isNewline).length) with
    | error fault => rfl
    | ok rest =>
      cases AuroraComms.trimWhitespace ((inBuf.take len).filter isPrintable) with
      | error fault => rfl
      | ok line => rfl

end AuroraComms.Indexed
