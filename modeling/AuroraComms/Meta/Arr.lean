import AuroraComms.Library.Run
import Mathlib.Data.List.Basic

/-! The dynamic array of `meta.h`. The header keeps a length and a capacity in
front of the elements and every macro moves cells of one allocation, so the
model keeps the cells themselves: an allocated cell that was never written is
`none`, and an access outside the allocation is a fault rather than a value. -/
namespace AuroraComms.Meta
open Library.Run

/-- The ways a run can leave the language: a failed `assert` (the one of
`ac_map_get` apart), a bad memory access, or a loop that does not end. -/
inductive Fault where
  | assertion
  | lookup
  | outOfBounds
  | indeterminate
  | useAfterFree
  | doubleFree
  | unfinished
  deriving DecidableEq, Repr

structure Arr (α : Type) where
  alen : Nat
  acap : Nat
  cells : List (Option α)
  deriving DecidableEq, Repr

variable {α : Type}

/-! ## Memory primitives -/

/-- `memcpy` of known contents to `cells + at`. -/
def memcpy (cells : List (Option α)) (dst : Nat) (src : List (Option α)) :
    Except Fault (List (Option α)) :=
  if dst + src.length ≤ cells.length then
    .ok (cells.take dst ++ src ++ cells.drop (dst + src.length))
  else .error .outOfBounds

/-- `memmove` of `n` cells inside one allocation. -/
def memmove (cells : List (Option α)) (dst src n : Nat) : Except Fault (List (Option α)) :=
  if src + n ≤ cells.length then memcpy cells dst ((cells.drop src).take n)
  else .error .outOfBounds

/-- `realloc` keeps the common prefix; added cells are indeterminate. -/
def realloc (cells : List (Option α)) (n : Nat) : List (Option α) :=
  cells.take n ++ List.replicate (n - cells.length) none

theorem memcpy_fits (cells : List (Option α)) (dst : Nat) (src : List (Option α))
    (fits : dst + src.length ≤ cells.length) :
    memcpy cells dst src = .ok (cells.take dst ++ src ++ cells.drop (dst + src.length)) :=
  if_pos fits

theorem memmove_fits (cells : List (Option α)) (dst src n : Nat)
    (reads : src + n ≤ cells.length) (writes : dst + n ≤ cells.length) :
    memmove cells dst src n =
      .ok (cells.take dst ++ (cells.drop src).take n ++ cells.drop (dst + n)) := by
  have length : ((cells.drop src).take n).length = n := by
    simp only [List.length_take, List.length_drop]
    omega
  rw [memmove, if_pos reads, memcpy_fits _ _ _ (by omega), length]

@[simp] theorem realloc_length (cells : List (Option α)) (n : Nat) :
    (realloc cells n).length = n := by
  simp only [realloc, List.length_append, List.length_take, List.length_replicate]
  omega

theorem realloc_take (cells : List (Option α)) (n m : Nat) (inside : m ≤ cells.length)
    (kept : m ≤ n) : (realloc cells n).take m = cells.take m := by
  rw [realloc, List.take_append_of_le_length (by simp; omega), List.take_take, Nat.min_eq_left kept]

/-! ## The macros -/

namespace Arr

/-- `ac_arr_new` -/
def new : Arr α := ⟨0, 0, []⟩

/-- `ac_arr_new_n` -/
def newN (n : Nat) : Arr α := ⟨n, n, List.replicate n none⟩

/-- `ac_arr_new_reserve` -/
def newReserve (n : Nat) : Arr α := ⟨0, n, List.replicate n none⟩

/-- `ac_arr_resize` -/
def resize (a : Arr α) (n : Nat) : Arr α := ⟨n, n, realloc a.cells n⟩

/-- `A[I]` as a value. The length is not consulted, as in C. -/
def get (a : Arr α) (i : Nat) : Except Fault α :=
  match a.cells[i]? with
  | some (some x) => .ok x
  | some none => .error .indeterminate
  | none => .error .outOfBounds

/-- `A[I] = x` -/
def put (a : Arr α) (i : Nat) (x : α) : Except Fault (Arr α) :=
  if i < a.cells.length then .ok { a with cells := a.cells.set i (some x) }
  else .error .outOfBounds

/-- The growing branch of `ac_arr_insert_raw_n`. -/
def makeRoom (a : Arr α) (n : Nat) : Arr α :=
  if a.alen + n > a.acap then
    { a with acap := (a.alen + n) * 2, cells := realloc a.cells ((a.alen + n) * 2) }
  else a

/-- `ac_arr_insert_raw_n` -/
def insertRawN (a : Arr α) (i n : Nat) : Except Fault (Arr α) :=
  if i ≤ a.alen then do
    let a := a.makeRoom n
    let cells ← if i ≠ a.alen then memmove a.cells (i + n) i (a.alen - i) else pure a.cells
    return { a with alen := a.alen + n, cells := cells }
  else throw .assertion

/-- `ac_arr_insert_n`, the source given by its `n` elements. -/
def insertN (a : Arr α) (i : Nat) (src : List α) : Except Fault (Arr α) := do
  let a ← a.insertRawN i src.length
  let cells ← memcpy a.cells i (src.map some)
  return { a with cells := cells }

/-- `ac_arr_append_n_raw` -/
def appendNRaw (a : Arr α) (n : Nat) : Except Fault (Arr α) := a.insertRawN a.alen n

/-- `ac_arr_append_n` -/
def appendN (a : Arr α) (src : List α) : Except Fault (Arr α) := a.insertN a.alen src

/-- `ac_arr_remove_n` -/
def removeN (a : Arr α) (i n : Nat) : Except Fault (Arr α) :=
  if i < a.alen ∧ i + n ≤ a.alen then do
    let cells ← if i + n < a.alen then memmove a.cells i (i + n) (a.alen - i - n) else pure a.cells
    return { a with alen := a.alen - n, cells := cells }
  else throw .assertion

/-! ## Refinement of lists -/

/-- The array holds this list: the live cells are the list and the capacity is
the allocation. Cells past the length are not constrained. -/
structure Refines (a : Arr α) (xs : List (Option α)) : Prop where
  alen : a.alen = xs.length
  within : a.alen ≤ a.acap
  allocated : a.cells.length = a.acap
  live : a.cells.take a.alen = xs

/-- Every live cell of the array was written. -/
abbrev Holds (a : Arr α) (xs : List α) : Prop := a.Refines (xs.map some)

/-- The written cells in front of the length. -/
def toList (a : Arr α) : List α := (a.cells.take a.alen).filterMap id

variable {a : Arr α} {xs : List (Option α)} {ys : List α}

theorem new_refines : (new : Arr α).Refines [] := ⟨rfl, Nat.le_refl _, rfl, rfl⟩

theorem newN_refines (n : Nat) : (newN n : Arr α).Refines (List.replicate n none) := by
  constructor <;> simp [newN]

theorem newReserve_refines (n : Nat) : (newReserve n : Arr α).Refines [] := by
  constructor <;> simp [newReserve]

theorem Refines.cell (held : a.Refines xs) {i : Nat} (bound : i < xs.length) :
    a.cells[i]? = xs[i]? := by
  have alen := held.alen
  rw [← held.live, List.getElem?_take, if_pos (by omega)]

theorem Holds.get (held : a.Holds ys) {i : Nat} (bound : i < ys.length) :
    a.get i = .ok ys[i] := by
  have cell := Refines.cell held (by simpa using bound)
  rw [List.getElem?_map, List.getElem?_eq_getElem bound] at cell
  simp [Arr.get, cell]

theorem Refines.put (held : a.Refines xs) {i : Nat} (bound : i < xs.length) (y : α) :
    ∃ b, a.put i y = .ok b ∧ b.Refines (xs.set i (some y)) := by
  have alen := held.alen
  have within := held.within
  have allocated := held.allocated
  refine ⟨{ a with cells := a.cells.set i (some y) }, if_pos (by omega), ?_⟩
  refine ⟨by simpa using alen, within, by simpa using allocated, ?_⟩
  rw [← held.live, ← List.take_set]

theorem Holds.put (held : a.Holds ys) {i : Nat} (bound : i < ys.length) (y : α) :
    ∃ b, a.put i y = .ok b ∧ b.Holds (ys.set i y) := by
  obtain ⟨b, ran, refined⟩ := Refines.put held (by simpa using bound) y
  exact ⟨b, ran, by rwa [Holds, List.map_set]⟩

theorem Holds.toList_eq (held : a.Holds ys) : a.toList = ys := by
  rw [toList, held.live, List.filterMap_map]
  exact List.filterMap_some

theorem Holds.alen_eq (held : a.Holds ys) : a.alen = ys.length := by
  simpa using held.alen

private theorem makeRoom_refines (held : a.Refines xs) (n : Nat) :
    (a.makeRoom n).Refines xs ∧ (a.makeRoom n).alen + n ≤ (a.makeRoom n).acap := by
  have within := held.within
  have allocated := held.allocated
  unfold makeRoom
  split
  · refine ⟨⟨held.alen, ?_, by simp, ?_⟩, ?_⟩
    · show a.alen ≤ (a.alen + n) * 2
      omega
    · rw [← held.live]
      exact realloc_take a.cells _ a.alen (by omega) (by omega)
    · show a.alen + n ≤ (a.alen + n) * 2
      omega
  · exact ⟨held, by omega⟩

/-- Insertion opens a gap of indeterminate cells and moves nothing else. -/
theorem insertRawN_refines (held : a.Refines xs) {i : Nat} (bound : i ≤ xs.length) (n : Nat) :
    ∃ b gap, a.insertRawN i n = .ok b ∧ gap.length = n ∧
      b.Refines (xs.take i ++ gap ++ xs.drop i) := by
  obtain ⟨roomy, fits⟩ := makeRoom_refines held n
  have alen := held.alen
  have roomAlen := roomy.alen
  have allocated := roomy.allocated
  have live := roomy.live
  rw [insertRawN, if_pos (by omega)]
  generalize a.makeRoom n = room at *
  simp only
  by_cases atEnd : i = room.alen
  · refine ⟨{ room with alen := room.alen + n }, (room.cells.drop i).take n, ?_, by simp; omega, ?_⟩
    · simp [atEnd]
    · refine ⟨by simp; omega, fits, allocated, ?_⟩
      have whole : xs.take i = xs := List.take_of_length_le (by omega)
      have rest : xs.drop i = [] := List.drop_of_length_le (by omega)
      rw [whole, rest, List.append_nil, atEnd, ← live]
      exact List.take_add
  · have moved := memmove_fits room.cells (i + n) i (room.alen - i) (by omega) (by omega)
    have reach : i + n + (room.alen - i) = room.alen + n := by omega
    rw [reach] at moved
    refine ⟨{ room with alen := room.alen + n, cells := room.cells.take (i + n) ++
      (room.cells.drop i).take (room.alen - i) ++ room.cells.drop (room.alen + n) },
      (room.cells.drop i).take n, ?_, by simp; omega, ?_⟩
    · simp [atEnd, moved]
    · refine ⟨by simp; omega, fits, by simp; omega, ?_⟩
      have front : xs.take i = room.cells.take i := by
        rw [← live, List.take_take, Nat.min_eq_left (by omega)]
      have back : xs.drop i = (room.cells.drop i).take (room.alen - i) := by
        rw [← live, List.drop_take]
      rw [front, back, ← List.take_add]
      exact List.take_left' (by simp; omega)

theorem insertN_refines (held : a.Refines xs) {i : Nat} (bound : i ≤ xs.length) (src : List α) :
    ∃ b, a.insertN i src = .ok b ∧ b.Refines (xs.take i ++ src.map some ++ xs.drop i) := by
  obtain ⟨gapped, gap, ran, gapLength, refined⟩ := insertRawN_refines held bound src.length
  have alen := refined.alen
  have within := refined.within
  have allocated := refined.allocated
  simp only [List.length_append, List.length_take, List.length_drop] at alen
  have copied := memcpy_fits gapped.cells i (src.map some) (by simp; omega)
  refine ⟨_, by rw [insertN, ran, ok_bind, copied]; rfl, ?_⟩
  refine ⟨by simp; omega, within, by simp; omega, ?_⟩
  have live := refined.live
  have front : gapped.cells.take i = xs.take i := by
    have cut := congrArg (List.take i) live
    rw [List.take_take, Nat.min_eq_left (by omega), List.append_assoc] at cut
    rw [cut]
    exact List.take_left' (by simp; omega)
  have back : (gapped.cells.drop (i + src.length)).take (xs.length - i) = xs.drop i := by
    have cut := congrArg (List.drop (i + src.length)) live
    have reach : gapped.alen - (i + src.length) = xs.length - i := by omega
    rw [List.drop_take, reach] at cut
    rw [cut]
    exact List.drop_left' (by simp; omega)
  have front_length : (gapped.cells.take i ++ src.map some).length = i + src.length := by
    simp
    omega
  have reach : gapped.alen = i + src.length + (xs.length - i) := by omega
  simp only [List.length_map]
  rw [reach, ← front_length, List.take_length_add_append, front_length, back, front]

theorem appendN_refines (held : a.Refines xs) (src : List α) :
    ∃ b, a.appendN src = .ok b ∧ b.Refines (xs ++ src.map some) := by
  obtain ⟨b, ran, refined⟩ := insertN_refines held (Nat.le_refl xs.length) src
  refine ⟨b, by rw [appendN, held.alen]; exact ran, by simpa using refined⟩

/-- Appending a cell and writing it appends the element. -/
theorem Holds.append (held : a.Holds ys) (y : α) :
    ∃ b c, a.appendNRaw 1 = .ok b ∧ b.put (b.alen - 1) y = .ok c ∧ c.Holds (ys ++ [y]) := by
  obtain ⟨b, gap, ran, single, opened⟩ := insertRawN_refines held (Nat.le_refl _) 1
  obtain ⟨cell, rfl⟩ := List.length_eq_one_iff.mp single
  have shape : (ys.map some).take (ys.map some).length ++ [cell] ++
      (ys.map some).drop (ys.map some).length = ys.map some ++ [cell] := by
    rw [List.take_length, List.drop_length, List.append_nil]
  rw [shape] at opened
  have alen := opened.alen
  simp only [List.length_append, List.length_map, List.length_singleton] at alen
  obtain ⟨c, wrote, closed⟩ := opened.put (i := b.alen - 1) (by simp [alen]) y
  refine ⟨b, c, by rw [appendNRaw, held.alen]; exact ran, wrote, ?_⟩
  rw [alen, Nat.add_sub_cancel, List.set_append_right _ _ (by simp)] at closed
  simpa [Holds] using closed

/-- Removal closes the gap. -/
theorem removeN_refines (held : a.Refines xs) {i n : Nat} (inside : i < xs.length)
    (bound : i + n ≤ xs.length) :
    ∃ b, a.removeN i n = .ok b ∧ b.Refines (xs.take i ++ xs.drop (i + n)) := by
  have alen := held.alen
  have within := held.within
  have allocated := held.allocated
  have live := held.live
  rw [removeN, if_pos (by omega)]
  by_cases atEnd : i + n < a.alen
  · have moved := memmove_fits a.cells i (i + n) (a.alen - i - n) (by omega) (by omega)
    have reach : i + (a.alen - i - n) = a.alen - n := by omega
    refine ⟨{ a with alen := a.alen - n, cells := a.cells.take i ++
      (a.cells.drop (i + n)).take (a.alen - i - n) ++ a.cells.drop (i + (a.alen - i - n)) },
      by simp [atEnd, moved], ?_⟩
    refine ⟨by simp; omega, Nat.le_trans (Nat.sub_le _ _) within, by simp; omega, ?_⟩
    have front : xs.take i = a.cells.take i := by
      rw [← live, List.take_take, Nat.min_eq_left (by omega)]
    have back : xs.drop (i + n) = (a.cells.drop (i + n)).take (a.alen - i - n) := by
      rw [← live, List.drop_take, Nat.sub_sub]
    rw [front, back]
    exact List.take_left' (by simp; omega)
  · refine ⟨{ a with alen := a.alen - n }, by simp [atEnd], ?_⟩
    refine ⟨by simp; omega, Nat.le_trans (Nat.sub_le _ _) within, allocated, ?_⟩
    have rest : xs.drop (i + n) = [] := List.drop_of_length_le (by omega)
    have reach : a.alen - n = i := by omega
    rw [rest, List.append_nil, ← live, List.take_take, reach, Nat.min_eq_left (by omega)]

/-- What the vacated cell holds after the removal of one element: the element
that moved into it, or still the removed one when nothing moved. -/
theorem removeN_vacated (held : a.Holds ys) {i : Nat} (inside : i < ys.length) {b : Arr α}
    (removed : a.removeN i 1 = .ok b) :
    b.get i = .ok (ys[i + 1]?.getD ys[i]) := by
  have alen := held.alen_eq
  have within := held.within
  have allocated := held.allocated
  rw [removeN, if_pos (by omega)] at removed
  by_cases after : i + 1 < ys.length
  · have moved := memmove_fits a.cells i (i + 1) (a.alen - i - 1) (by omega) (by omega)
    have cell := Refines.cell held (i := i + 1) (by simpa using after)
    rw [List.getElem?_map, List.getElem?_eq_getElem after, Option.map_some] at cell
    simp only [alen, after, ↓reduceIte] at removed moved
    rw [moved] at removed
    cases removed
    have front : (a.cells.take i).length = i := by simp; omega
    have vacated : (a.cells.take i ++ (a.cells.drop (i + 1)).take (ys.length - i - 1) ++
        a.cells.drop (i + (ys.length - i - 1)))[i]? = some (some ys[i + 1]) := by
      rw [List.append_assoc, List.getElem?_append_right (by omega), front, Nat.sub_self,
        List.getElem?_append_left (by simp; omega), List.getElem?_take, if_pos (by omega),
        List.getElem?_drop]
      exact cell
    rw [Arr.get, vacated, List.getElem?_eq_getElem after]
    rfl
  · simp only [alen, after, ↓reduceIte] at removed
    cases removed
    rw [List.getElem?_eq_none (by omega)]
    exact held.get inside

end Arr
end AuroraComms.Meta
