import Mathlib.Data.List.Basic

/-! A stream cut at its terminators. Only the segments that have elements are
kept, so a run of terminators counts as one, however much of it has arrived. -/
namespace AuroraComms.Library.Segments

variable {α : Type} (ends : α → Bool)

/-- The nonempty segments a stream closes, the first of them begun as `opened`. -/
def closed (opened : List α) : List α → List (List α)
  | [] => []
  | a :: rest =>
    if ends a then (if opened.isEmpty then closed [] rest else opened :: closed [] rest)
    else closed (opened ++ [a]) rest

def segments (stream : List α) : List (List α) := closed ends [] stream

variable {ends}

private theorem closed_terminated {a : α} (terminal : ends a = true) (opened front rest : List α) :
    closed ends opened (front ++ a :: rest) =
      closed ends opened (front ++ [a]) ++ closed ends [] rest := by
  induction front generalizing opened with
  | nil =>
    simp only [List.nil_append, closed, terminal, if_true]
    split <;> simp
  | cons b front ih =>
    simp only [List.cons_append, closed]
    split
    · split
      · exact ih []
      · rw [ih [], List.cons_append]
    · exact ih (opened ++ [b])

private theorem closed_plain {plain : List α} (inside : ∀ a ∈ plain, ends a = false)
    (opened rest : List α) :
    closed ends opened (plain ++ rest) = closed ends (opened ++ plain) rest := by
  induction plain generalizing opened with
  | nil => rw [List.nil_append, List.append_nil]
  | cons a plain ih =>
    have first := inside a List.mem_cons_self
    rw [List.cons_append, closed, first, if_neg Bool.false_ne_true,
      ih (fun b member => inside b (List.mem_cons_of_mem _ member)), List.append_assoc,
      List.singleton_append]

/-- A stream that stops at a terminator, and what follows it. -/
theorem segments_append {front rest : List α} (whole : ∀ a ∈ front.getLast?, ends a = true) :
    segments ends (front ++ rest) = segments ends front ++ segments ends rest := by
  rcases List.eq_nil_or_concat front with rfl | ⟨front, a, rfl⟩
  · rfl
  · have terminal := whole a (by simp)
    rw [List.concat_eq_append, List.append_assoc]
    exact closed_terminated terminal [] front rest

theorem segments_plain {plain : List α} (inside : ∀ a ∈ plain, ends a = false) :
    segments ends plain = [] := by
  have run := closed_plain inside [] []
  rw [List.append_nil] at run
  exact run

theorem segments_run {run : List α} (terminal : ∀ a ∈ run, ends a = true) : segments ends run = [] := by
  induction run with
  | nil => rfl
  | cons a run ih =>
    rw [segments, closed, terminal a List.mem_cons_self, if_pos rfl]
    exact ih fun b member => terminal b (List.mem_cons_of_mem _ member)

/-- A segment and the run of terminators that closes it. -/
theorem segments_line {plain run : List α} (inside : ∀ a ∈ plain, ends a = false) (filled : plain ≠ [])
    (nonempty : run ≠ []) (terminal : ∀ a ∈ run, ends a = true) :
    segments ends (plain ++ run) = [plain] := by
  obtain ⟨a, rest, rfl⟩ := List.exists_cons_of_ne_nil nonempty
  have tail : segments ends rest = [] :=
    segments_run fun b member => terminal b (List.mem_cons_of_mem a member)
  rw [segments, closed_plain inside, List.nil_append, closed, terminal a List.mem_cons_self, if_pos rfl,
    if_neg (by simpa using filled)]
  exact congrArg _ tail

end AuroraComms.Library.Segments
