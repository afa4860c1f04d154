import AuroraComms.Meta.Arr

/-! Whole runs of the array macros. The header and every size are computed in
`size_t`, so the macros are given a second time with its arithmetic. As long as
no size exceeds the address space they do what they do on numbers without a
bound, and a run refines the list of its insertions and removals. -/
namespace AuroraComms.Meta
open Library.Run

/-- A host and the type of the elements. -/
structure Layout where
  /-- `sizeof(size_t)` -/
  word : Nat
  /-- `sizeof((A)[0])` -/
  elem : Nat
  /-- The number of values of a `size_t`. -/
  space : Nat
  elem_pos : 0 < elem

namespace Layout
variable {α : Type} (l : Layout)

/-- A number as a `size_t`. -/
def wrap (n : Nat) : Nat := n % l.space

/-- Subtraction in `size_t`. -/
def sub (a b : Nat) : Nat := if b ≤ a then a - b else a + l.space - b

/-- The bytes asked of the allocator for a header and `n` elements. -/
def request (n : Nat) : Nat := l.wrap (2 * l.word + n * l.elem)

/-- The elements that have room behind the header in an allocation. -/
def room (bytes : Nat) : Nat := (bytes - 2 * l.word) / l.elem

/-- The elements that `n * sizeof((A)[0])` bytes cover. -/
def count (n : Nat) : Nat := l.wrap (n * l.elem) / l.elem

/-- An array of `n` elements does not exceed the address space. -/
def Fits (n : Nat) : Prop := 2 * l.word + n * l.elem < l.space

instance (n : Nat) : Decidable (l.Fits n) := inferInstanceAs (Decidable (_ < _))

/-! ## The macros -/

/-- `ac_arr_new_n` -/
def newN (n : Nat) : Arr α := ⟨l.wrap n, l.wrap n, List.replicate (l.room (l.request n)) none⟩

/-- `ac_arr_new_reserve` -/
def newReserve (n : Nat) : Arr α := ⟨0, l.wrap n, List.replicate (l.room (l.request n)) none⟩

/-- The growing branch of `ac_arr_insert_raw_n`. The capacity in the header is
set first and read again for the size of the new allocation. -/
def makeRoom (a : Arr α) (n : Nat) : Arr α :=
  if l.wrap (a.alen + n) > a.acap then
    let a := { a with acap := l.wrap (l.wrap (a.alen + n) * 2) }
    { a with cells := realloc a.cells (l.room (l.request a.acap)) }
  else a

/-- `ac_arr_insert_raw_n` -/
def insertRawN (a : Arr α) (i n : Nat) : Except Fault (Arr α) :=
  if i ≤ a.alen then do
    let a := l.makeRoom a n
    let cells ←
      if i ≠ a.alen then memmove a.cells (i + n) i (l.count (l.sub a.alen i)) else pure a.cells
    return { a with alen := l.wrap (a.alen + n), cells := cells }
  else throw .assertion

/-- `ac_arr_insert_n` -/
def insertN (a : Arr α) (i : Nat) (src : List α) : Except Fault (Arr α) := do
  let a ← l.insertRawN a i src.length
  let cells ← memcpy a.cells i ((src.take (l.count src.length)).map some)
  return { a with cells := cells }

/-- `ac_arr_append_n` -/
def appendN (a : Arr α) (src : List α) : Except Fault (Arr α) := l.insertN a a.alen src

/-- `ac_arr_remove_n` -/
def removeN (a : Arr α) (i n : Nat) : Except Fault (Arr α) :=
  if i < a.alen ∧ l.wrap (i + n) ≤ a.alen then do
    let cells ←
      if l.wrap (i + n) < a.alen then
        memmove a.cells i (i + n) (l.count (l.sub (l.sub a.alen i) n))
      else pure a.cells
    return { a with alen := l.sub a.alen n, cells := cells }
  else throw .assertion

/-! ## Sizes within the address space -/

section Sizes
variable {l}

theorem Fits.lt_space {n : Nat} (fits : l.Fits n) : n < l.space := by
  have covered : n ≤ n * l.elem := Nat.le_mul_of_pos_right n l.elem_pos
  unfold Fits at fits
  omega

theorem Fits.mono {m n : Nat} (fits : l.Fits n) (below : m ≤ n) : l.Fits m := by
  have scaled := Nat.mul_le_mul_right l.elem below
  unfold Fits at *
  omega

theorem Fits.wrap_eq {n : Nat} (fits : l.Fits n) : l.wrap n = n := Nat.mod_eq_of_lt fits.lt_space

theorem Fits.room_request {n : Nat} (fits : l.Fits n) : l.room (l.request n) = n := by
  rw [request, wrap, Nat.mod_eq_of_lt fits, room, Nat.add_sub_cancel_left, Nat.mul_div_cancel n l.elem_pos]

theorem Fits.count_eq {n : Nat} (fits : l.Fits n) : l.count n = n := by
  unfold Fits at fits
  rw [count, wrap, Nat.mod_eq_of_lt (by omega), Nat.mul_div_cancel n l.elem_pos]

theorem sub_eq {a b : Nat} (below : b ≤ a) : l.sub a b = a - b := if_pos below

theorem newN_eq {n : Nat} (fits : l.Fits n) : (l.newN n : Arr α) = Arr.newN n := by
  rw [newN, fits.wrap_eq, fits.room_request, Arr.newN]

theorem newReserve_eq {n : Nat} (fits : l.Fits n) : (l.newReserve n : Arr α) = Arr.newReserve n := by
  rw [newReserve, fits.wrap_eq, fits.room_request, Arr.newReserve]

variable {a : Arr α}

/-- The array has room for `n` more elements once room was made. -/
theorem makeRoom_acap_ge (a : Arr α) (n : Nat) : a.alen + n ≤ (a.makeRoom n).acap := by
  unfold Arr.makeRoom
  split
  · show a.alen + n ≤ (a.alen + n) * 2
    omega
  · omega

theorem makeRoom_eq {n : Nat} (fits : l.Fits (a.makeRoom n).acap) : l.makeRoom a n = a.makeRoom n := by
  have longer := (fits.mono (makeRoom_acap_ge a n)).wrap_eq
  unfold makeRoom Arr.makeRoom at *
  rw [longer]
  split
  · rename_i grows
    rw [if_pos grows] at fits
    simp only [fits.wrap_eq, fits.room_request]
  · rfl

theorem insertRawN_eq {i n : Nat} (fits : l.Fits (a.makeRoom n).acap) :
    l.insertRawN a i n = a.insertRawN i n := by
  have still : (a.makeRoom n).alen = a.alen := by
    unfold Arr.makeRoom
    split <;> rfl
  have longer := fits.mono (makeRoom_acap_ge a n)
  unfold insertRawN Arr.insertRawN
  rw [makeRoom_eq fits]
  split
  · rename_i inside
    have moved : l.count (l.sub a.alen i) = a.alen - i := by
      rw [sub_eq inside]
      exact (longer.mono (by omega)).count_eq
    simp only [still, moved, longer.wrap_eq]
  · rfl

theorem insertN_eq {i : Nat} {src : List α} (fits : l.Fits (a.makeRoom src.length).acap) :
    l.insertN a i src = a.insertN i src := by
  have copied := fits.mono (Nat.le_trans (Nat.le_add_left src.length a.alen) (makeRoom_acap_ge a _))
  unfold insertN Arr.insertN
  rw [insertRawN_eq fits, copied.count_eq, List.take_length]

theorem appendN_eq {src : List α} (fits : l.Fits (a.makeRoom src.length).acap) :
    l.appendN a src = a.appendN src := insertN_eq fits

theorem removeN_eq {i n : Nat} (fits : l.Fits a.alen) (whole : i + n < l.space) :
    l.removeN a i n = a.removeN i n := by
  have reach : l.wrap (i + n) = i + n := Nat.mod_eq_of_lt whole
  unfold removeN Arr.removeN
  rw [reach]
  split
  · rename_i asserted
    have moved : l.count (l.sub (l.sub a.alen i) n) = a.alen - i - n := by
      have before : i ≤ a.alen := by omega
      have behind : n ≤ a.alen - i := by omega
      rw [sub_eq before, sub_eq behind]
      exact (fits.mono (by omega)).count_eq
    rw [moved, sub_eq (by omega)]
  · rfl

end Sizes
end Layout

/-! ## Sequences of calls -/

/-- The calls that make an array. -/
inductive Creation where
  | new
  | newN (n : Nat)
  | newReserve (n : Nat)
  deriving DecidableEq, Repr

inductive Op (α : Type) where
  | create (creation : Creation)
  | appendN (src : List α)
  | insertN (i : Nat) (src : List α)
  | removeN (i n : Nat)
  deriving DecidableEq, Repr

variable {α : Type}

def Layout.create (l : Layout) : Creation → Arr α
  | .new => Arr.new
  | .newN n => l.newN n
  | .newReserve n => l.newReserve n

def Layout.exec (l : Layout) (a : Arr α) : Op α → Except Fault (Arr α)
  | .create creation => return l.create creation
  | .appendN src => l.appendN a src
  | .insertN i src => l.insertN a i src
  | .removeN i n => l.removeN a i n

def Layout.run (l : Layout) (a : Arr α) (ops : List (Op α)) : Except Fault (Arr α) :=
  ops.foldlM l.exec a

/-! ## The list -/

/-- The list an array stands for, and the elements it has room for. An element
that was never written is `none`. -/
structure Contents (α : Type) where
  list : List (Option α)
  room : Nat

/-- The room after `n` more elements, which doubles what is needed. -/
def Contents.roomFor (c : Contents α) (n : Nat) : Nat :=
  if c.list.length + n > c.room then (c.list.length + n) * 2 else c.room

def Creation.contents : Creation → Contents α
  | .new => ⟨[], 0⟩
  | .newN n => ⟨List.replicate n none, n⟩
  | .newReserve n => ⟨[], n⟩

/-- Appending, splicing and deleting. -/
def Op.apply (c : Contents α) : Op α → Contents α
  | .create creation => creation.contents
  | .appendN src => ⟨c.list ++ src.map some, c.roomFor src.length⟩
  | .insertN i src => ⟨c.list.take i ++ src.map some ++ c.list.drop i, c.roomFor src.length⟩
  | .removeN i n => ⟨c.list.take i ++ c.list.drop (i + n), c.room⟩

/-- The room a creation asks for does not exceed the address space. -/
def Creation.Sized (l : Layout) : Creation → Prop
  | .new => l.Fits 0
  | .newN n | .newReserve n => l.Fits n

/-- The arguments satisfy the asserts of the macro, and no size exceeds the
address space. -/
def Op.Legal (l : Layout) (c : Contents α) : Op α → Prop
  | .create creation => creation.Sized l
  | .appendN src => l.Fits (c.roomFor src.length)
  | .insertN i src => i ≤ c.list.length ∧ l.Fits (c.roomFor src.length)
  | .removeN i n => (i < c.list.length ∧ l.wrap (i + n) ≤ c.list.length) ∧ i + n < l.space

/-- Every call of a sequence is legal where it comes. -/
def Legal (l : Layout) (c : Contents α) : List (Op α) → Prop
  | [] => True
  | op :: rest => op.Legal l c ∧ Legal l (op.apply c) rest

/-! ## One call, then the run -/

/-- The array stands for these contents, and its allocation fits. -/
structure Arr.Stands (l : Layout) (a : Arr α) (c : Contents α) : Prop extends a.Refines c.list where
  acap : a.acap = c.room
  fits : l.Fits c.room

section Runs
variable {l : Layout} {a : Arr α} {c : Contents α}

theorem create_stands {creation : Creation} (sized : creation.Sized l) :
    (l.create creation : Arr α).Stands l creation.contents := by
  cases creation with
  | new => exact ⟨Arr.new_refines, rfl, sized⟩
  | newN n =>
    have made : (l.create (.newN n) : Arr α) = Arr.newN n := Layout.newN_eq sized
    rw [made]
    exact ⟨Arr.newN_refines n, rfl, sized⟩
  | newReserve n =>
    have made : (l.create (.newReserve n) : Arr α) = Arr.newReserve n := Layout.newReserve_eq sized
    rw [made]
    exact ⟨Arr.newReserve_refines n, rfl, sized⟩

theorem Arr.Stands.roomFor_eq (stands : a.Stands l c) (n : Nat) :
    c.roomFor n = (a.makeRoom n).acap := by
  rw [Contents.roomFor, ← stands.alen, ← stands.acap, Arr.makeRoom]
  split <;> rfl

/-- An insertion leaves the capacity that was made for it. -/
theorem insertN_acap {i : Nat} {src : List α} {b : Arr α} (ran : a.insertN i src = .ok b) :
    b.acap = (a.makeRoom src.length).acap := by
  obtain ⟨opened, raw, ran⟩ := bind_eq_ok.mp ran
  obtain ⟨cells, _, same⟩ := bind_eq_ok.mp ran
  cases same
  unfold Arr.insertRawN at raw
  dsimp only at raw
  split at raw
  · split at raw <;>
    · obtain ⟨_, _, same⟩ := bind_eq_ok.mp raw
      cases same
      rfl
  · cases raw

theorem removeN_acap {i n : Nat} {b : Arr α} (ran : a.removeN i n = .ok b) : b.acap = a.acap := by
  unfold Arr.removeN at ran
  dsimp only at ran
  split at ran
  · split at ran <;>
    · obtain ⟨_, _, same⟩ := bind_eq_ok.mp ran
      cases same
      rfl
  · cases ran

/-- A legal call succeeds, and does to the list what it is for. -/
theorem exec_stands (stands : a.Stands l c) {op : Op α} (legal : op.Legal l c) :
    ∃ b, l.exec a op = .ok b ∧ b.Stands l (op.apply c) := by
  cases op with
  | create creation => exact ⟨_, rfl, create_stands legal⟩
  | appendN src =>
    have fits : l.Fits (c.roomFor src.length) := legal
    obtain ⟨b, ran, refined⟩ := Arr.appendN_refines stands.toRefines src
    have room := stands.roomFor_eq src.length
    refine ⟨b, ?_, refined, (insertN_acap ran).trans room.symm, fits⟩
    rw [room] at fits
    exact (Layout.appendN_eq fits).trans ran
  | insertN i src =>
    obtain ⟨inside, fits⟩ := legal
    obtain ⟨b, ran, refined⟩ := Arr.insertN_refines stands.toRefines inside src
    have room := stands.roomFor_eq src.length
    refine ⟨b, ?_, refined, (insertN_acap ran).trans room.symm, fits⟩
    rw [room] at fits
    exact (Layout.insertN_eq fits).trans ran
  | removeN i n =>
    obtain ⟨⟨inside, asserted⟩, whole⟩ := legal
    have reach : l.wrap (i + n) = i + n := Nat.mod_eq_of_lt whole
    rw [reach] at asserted
    obtain ⟨b, ran, refined⟩ := Arr.removeN_refines stands.toRefines inside asserted
    have held : l.Fits a.alen := stands.fits.mono (by
      rw [← stands.acap]
      exact stands.within)
    exact ⟨b, (Layout.removeN_eq held whole).trans ran, refined, (removeN_acap ran).trans stands.acap,
      stands.fits⟩

theorem run_stands (ops : List (Op α)) (stands : a.Stands l c) (legal : Legal l c ops) :
    ∃ b, l.run a ops = .ok b ∧ b.Stands l (ops.foldl Op.apply c) := by
  induction ops generalizing a c with
  | nil => exact ⟨a, rfl, stands⟩
  | cons op rest ih =>
    obtain ⟨here, later⟩ := legal
    obtain ⟨next, ran, nextStands⟩ := exec_stands stands here
    obtain ⟨last, others, lastStands⟩ := ih nextStands later
    refine ⟨last, ?_, lastStands⟩
    rw [Layout.run, List.foldlM_cons, ran]
    exact others

theorem Legal.front {before after : List (Op α)} (legal : Legal l c (before ++ after)) :
    Legal l c before := by
  induction before generalizing c with
  | nil => exact trivial
  | cons op rest ih => exact ⟨legal.1, ih legal.2⟩

/-- For every type of elements and every host: from the making of an array on,
as long as the calls satisfy the asserts of the macros and no size exceeds the
address space, no call fails, so that no element is read or written outside the
allocation, and after each call the live elements are the list, the length is at
most the capacity, and the capacity is the allocation. -/
theorem arr_refines_list (l : Layout) (first : Creation) (ops : List (Op α)) (sized : first.Sized l)
    (legal : Legal l first.contents ops) (before after : List (Op α)) (cut : before ++ after = ops) :
    ∃ a, l.run (l.create first) before = .ok a ∧
      a.alen = (before.foldl Op.apply first.contents).list.length ∧
      a.cells.take a.alen = (before.foldl Op.apply first.contents).list ∧
      a.alen ≤ a.acap ∧ a.cells.length = a.acap := by
  subst cut
  obtain ⟨a, ran, stands⟩ := run_stands before (create_stands sized) legal.front
  exact ⟨a, ran, stands.alen, stands.live, stands.within, stands.allocated⟩

/-- Bytes on a host of 64 bits. -/
private def chars : Layout := ⟨8, 1, 1 <<< 64, by decide⟩

/-- Two words put together from no capacity at all, and the first taken away again. -/
theorem arr_refines_list_concat : ∃ a, chars.run (chars.create .new)
    [.appendN "hello".toList, .appendN " world".toList, .removeN 0 6] = .ok a ∧
      a.alen = 5 ∧ a.cells.take a.alen = "world".toList.map some ∧ a.alen ≤ a.acap := by
  obtain ⟨a, ran, alen, live, within, _⟩ := arr_refines_list chars .new
    [.appendN "hello".toList, .appendN " world".toList, .removeN 0 6] (by decide +kernel : chars.Fits 0)
    ⟨(by decide +kernel : chars.Fits 10), (by decide +kernel : chars.Fits 22),
      ⟨⟨by decide +kernel, by decide +kernel⟩, by decide +kernel⟩, trivial⟩ _ [] (List.append_nil _)
  exact ⟨a, ran, alen.trans (by decide +kernel), live.trans (by decide +kernel), within⟩

end Runs
end AuroraComms.Meta
