import AuroraComms.Indexed

/-! What the calls of `ac_get_line` make of a stream, however its bytes arrive
between the calls. Both what is still to be returned and what will be left over
depend only on the bytes that no call has taken yet. -/
namespace AuroraComms
open Meta Library.Run

/-- What the owner of an in buffer does with it. -/
inductive Access where
  | append (chunk : Bytes)
  | call
  deriving DecidableEq, Repr

/-- The accesses of an in buffer in order: what the calls put in the empty line
buffer, or nothing where they return false, and what is left of the input. -/
def accesses (inBuf : Bytes) : List Access → Except Fault (List (Option Bytes) × Bytes)
  | [] => return ([], inBuf)
  | .append chunk :: rest => accesses (inBuf ++ chunk) rest
  | .call :: rest => do
    let (complete, line, inBuf) ← Indexed.getLine [] inBuf
    let (answers, inBuf) ← accesses inBuf rest
    return ((if complete then some line else none) :: answers, inBuf)

/-- All bytes that arrive. -/
def arriving : List Access → Bytes
  | [] => []
  | .append chunk :: rest => chunk ++ arriving rest
  | .call :: rest => arriving rest

/-! ## The law of a stream -/

/-- The stream up to its last terminator, cut at every terminator, each piece
sanitized, less the pieces of which nothing is left. -/
def linesOf (stream : Bytes) : List Bytes :=
  ((stream.splitOnP isNewline).dropLast.map sanitize).filter (· ≠ [])

/-- The bytes behind the last terminator. -/
def unterminated (stream : Bytes) : Bytes := (stream.splitOnP isNewline).getLastD []

theorem linesOf_terminated {b : UInt8} (ends : isNewline b = true) (front rest : Bytes) :
    linesOf (front ++ b :: rest) =
      ((front.splitOnP isNewline).map sanitize).filter (· ≠ []) ++ linesOf rest := by
  unfold linesOf
  rw [List.splitOnP_append_cons front rest ends, List.dropLast_append_of_ne_nil (List.splitOnP_ne_nil _ _),
    List.map_append, List.filter_append]

theorem unterminated_terminated {b : UInt8} (ends : isNewline b = true) (front rest : Bytes) :
    unterminated (front ++ b :: rest) = unterminated rest := by
  unfold unterminated
  rw [List.splitOnP_append_cons front rest ends, List.getLastD_eq_getLast?, List.getLastD_eq_getLast?,
    List.getLast?_append_of_ne_nil _ (List.splitOnP_ne_nil _ _)]

theorem linesOf_plain {plain : Bytes} (inside : ∀ b ∈ plain, isNewline b = false) :
    linesOf plain = [] := by
  rw [linesOf, List.splitOnP_eq_singleton inside]
  rfl

theorem unterminated_plain {plain : Bytes} (inside : ∀ b ∈ plain, isNewline b = false) :
    unterminated plain = plain := by
  rw [unterminated, List.splitOnP_eq_singleton inside]
  rfl

/-- A run of terminators adds no line. -/
theorem linesOf_run {run : Bytes} (terminal : ∀ b ∈ run, isNewline b = true) (rest : Bytes) :
    linesOf (run ++ rest) = linesOf rest ∧ unterminated (run ++ rest) = unterminated rest := by
  induction run with
  | nil => exact ⟨rfl, rfl⟩
  | cons b run ih =>
    have ends := terminal b List.mem_cons_self
    obtain ⟨lines, left⟩ := ih fun c member => terminal c (List.mem_cons_of_mem b member)
    constructor
    · refine (linesOf_terminated ends [] (run ++ rest)).trans ?_
      rw [List.splitOnP_nil, lines]
      rfl
    · exact (unterminated_terminated ends [] (run ++ rest)).trans left

/-- One line and the run of terminators behind it. -/
theorem linesOf_line {raw run : Bytes} (inside : ∀ b ∈ raw, isNewline b = false) (filled : run ≠ [])
    (terminal : ∀ b ∈ run, isNewline b = true) (rest : Bytes) :
    linesOf (raw ++ run ++ rest) = [sanitize raw].filter (· ≠ []) ++ linesOf rest ∧
      unterminated (raw ++ run ++ rest) = unterminated rest := by
  obtain ⟨b, more, rfl⟩ := List.exists_cons_of_ne_nil filled
  have ends := terminal b List.mem_cons_self
  obtain ⟨lines, left⟩ := linesOf_run (fun c member => terminal c (List.mem_cons_of_mem b member)) rest
  rw [List.append_assoc, List.cons_append]
  constructor
  · rw [linesOf_terminated ends, List.splitOnP_eq_singleton inside, lines]
    rfl
  · rw [unterminated_terminated ends, left]

/-! ## One call, then all accesses -/

/-- The lines that are not empty. -/
def spokenLines (answers : List (Option Bytes)) : List Bytes := (answers.filterMap id).filter (· ≠ [])

/-- A call takes one line off the law of the stream, or finds no terminator and
changes nothing. -/
theorem call_cases (inBuf : Bytes) :
    (Indexed.getLine [] inBuf = .ok (false, [], inBuf) ∧ ∀ b ∈ inBuf, isNewline b = false) ∨
    ∃ line rest, Indexed.getLine [] inBuf = .ok (true, line, rest) ∧ rest.length < inBuf.length ∧
      ∀ more, linesOf (inBuf ++ more) = [line].filter (· ≠ []) ++ linesOf (rest ++ more) ∧
        unterminated (inBuf ++ more) = unterminated (rest ++ more) := by
  obtain plain | ⟨raw, run, rest, rfl, plain, filled, terminal, stops⟩ := line_cases inBuf
  · refine .inl ⟨?_, plain⟩
    rw [Indexed.getLine_eq, getLine_unfinished plain]
    rfl
  · refine .inr ⟨sanitize raw, rest, ?_, ?_, fun more => ?_⟩
    · rw [Indexed.getLine_eq, getLine_complete plain filled terminal stops]
      rfl
    · have positive := List.length_pos_iff.mpr filled
      simp only [List.length_append]
      omega
    · rw [List.append_assoc (raw ++ run) rest more]
      exact linesOf_line plain filled terminal (rest ++ more)

/-- No access fails. What the calls returned and what is left account for all
that has arrived, whatever arrives later. -/
theorem accesses_law (requests : List Access) (inBuf : Bytes) :
    ∃ answers rest, accesses inBuf requests = .ok (answers, rest) ∧
      ∀ more, linesOf (inBuf ++ arriving requests ++ more) = spokenLines answers ++ linesOf (rest ++ more) ∧
        unterminated (inBuf ++ arriving requests ++ more) = unterminated (rest ++ more) := by
  induction requests generalizing inBuf with
  | nil => exact ⟨[], inBuf, rfl, fun more => by simp [arriving, spokenLines]⟩
  | cons request requests ih =>
    cases request with
    | append chunk =>
      obtain ⟨answers, rest, ran, law⟩ := ih (inBuf ++ chunk)
      refine ⟨answers, rest, ran, fun more => ?_⟩
      rw [arriving, ← List.append_assoc inBuf]
      exact law more
    | call =>
      obtain ⟨ran, _⟩ | ⟨line, left, ran, _, one⟩ := call_cases inBuf
      · obtain ⟨answers, rest, others, law⟩ := ih inBuf
        exact ⟨none :: answers, rest, by simp [accesses, ran, others], law⟩
      · obtain ⟨answers, rest, others, law⟩ := ih left
        refine ⟨some line :: answers, rest, by simp [accesses, ran, others], fun more => ?_⟩
        obtain ⟨lines, tail⟩ := one (arriving requests ++ more)
        rw [arriving, List.append_assoc inBuf, lines, tail, ← List.append_assoc left, (law more).1,
          (law more).2, ← List.append_assoc]
        exact ⟨congrArg (· ++ _) (List.filter_append (p := (· ≠ [])) [line] _).symm, rfl⟩

theorem accesses_append {inBuf middle rest : Bytes} {front back : List Access}
    {answers others : List (Option Bytes)} (first : accesses inBuf front = .ok (answers, middle))
    (second : accesses middle back = .ok (others, rest)) :
    accesses inBuf (front ++ back) = .ok (answers ++ others, rest) := by
  induction front generalizing inBuf answers with
  | nil =>
    cases first
    exact second
  | cons request front ih =>
    cases request with
    | append chunk => exact ih first
    | call =>
      rw [accesses] at first
      obtain ⟨⟨complete, line, left⟩, ran, first⟩ := bind_eq_ok.mp first
      obtain ⟨⟨later, reached⟩, onward, first⟩ := bind_eq_ok.mp first
      cases first
      simp [accesses, ran, ih onward]

/-- Calling on ends with a call that returns false. -/
theorem calls_end (inBuf : Bytes) :
    ∃ n answers rest, accesses inBuf (List.replicate n .call ++ [.call]) = .ok (answers, rest) ∧
      answers.getLast? = some none := by
  induction size : inBuf.length using Nat.strong_induction_on generalizing inBuf with
  | _ size ih =>
    obtain ⟨ran, _⟩ | ⟨line, left, ran, shorter, _⟩ := call_cases inBuf
    · exact ⟨0, [none], inBuf, by simp [accesses, ran], rfl⟩
    · obtain ⟨n, answers, rest, onward, last⟩ := ih left.length (by omega) left rfl
      refine ⟨n + 1, some line :: answers, rest, ?_, ?_⟩
      · simp [List.replicate_succ, accesses, ran, onward]
      · simp [List.getLast?_cons, last]

/-- However a stream is cut into chunks and the calls are placed between them,
no access fails; calling on ends with a call that returns false; and once it
does, the nonempty lines returned are the lines of the stream and the input
holds what follows its last terminator. A call that returns false changes
nothing. -/
theorem stream_read_as_lines (requests : List Access) :
    (∃ answers rest, accesses [] requests = .ok (answers, rest)) ∧
    (∀ earlier answers rest, requests = earlier ++ [.call] → accesses [] requests = .ok (answers, rest) →
      answers.getLast? = some none →
      spokenLines answers = linesOf (arriving requests) ∧ rest = unterminated (arriving requests)) ∧
    (∃ n answers rest, accesses [] (requests ++ (List.replicate n .call ++ [.call])) =
      .ok (answers, rest) ∧ answers.getLast? = some none) ∧
    ∀ inBuf line rest, Indexed.getLine [] inBuf = .ok (false, line, rest) → line = [] ∧ rest = inBuf := by
  obtain ⟨answers, rest, ran, law⟩ := accesses_law requests []
  refine ⟨⟨answers, rest, ran⟩, ?_, ?_, ?_⟩
  · rintro earlier others left rfl again last
    rw [ran] at again
    cases again
    obtain ⟨before, middle, came, _⟩ := accesses_law earlier []
    obtain ⟨call, plain⟩ | ⟨line, left, call, _⟩ := call_cases middle
    · have whole := accesses_append came (show accesses middle [.call] = .ok ([none], middle) by
        simp [accesses, call])
      rw [ran] at whole
      cases whole
      obtain ⟨lines, tail⟩ := law []
      simp only [List.nil_append, List.append_nil] at lines tail
      rw [lines, tail, linesOf_plain plain, unterminated_plain plain, List.append_nil]
      exact ⟨rfl, rfl⟩
    · have whole := accesses_append came (show accesses middle [.call] = .ok ([some line], left) by
        simp [accesses, call])
      rw [ran] at whole
      cases whole
      simp at last
  · obtain ⟨n, others, final, onward, last⟩ := calls_end rest
    refine ⟨n, answers ++ others, final, accesses_append ran onward, ?_⟩
    rw [List.getLast?_append, last]
    rfl
  · intro inBuf line left refused
    obtain ⟨call, _⟩ | ⟨_, _, call, _⟩ := call_cases inBuf
    · rw [call] at refused
      cases refused
      exact ⟨rfl, rfl⟩
    · rw [call] at refused
      cases refused

/-- A terminator split over two chunks, an empty line and bytes outside the
printable range. -/
example : accesses [] [.append (bytes " hi\t\x7f \r"), .call, .append (bytes "\n\n \nyo"), .call, .call,
    .append (bytes "u\r"), .call, .call] =
      .ok ([some (bytes "hi"), some [], some [], some (bytes "you"), none], []) := by
  decide +kernel

end AuroraComms
