import AuroraComms.Meta.Arr
import AuroraComms.Library.Chain
import Mathlib.Algebra.Ring.Nat

/-! The hash map of `meta.h`. The bucket array is an ordinary dynamic array of
pointers to buckets; a bucket is an array of entries, and a freed bucket keeps
its pointer in the slot but has no contents left. Keys are hashed into
`ac_acap(bkts)` slots while the loops of the other macros run to
`ac_alen(bkts)`, so both header words are kept apart here as they are there. -/
namespace AuroraComms.Meta
open Library.Run Library.Chain

/-- A bucket pointer: to an allocated array, or dangling. -/
inductive Bkt (K V : Type) where
  | live (arr : Arr (Entry K V))
  | freed
  deriving DecidableEq, Repr

structure Map (K V : Type) where
  bkts : Arr (Bkt K V)
  /-- Number of entries. -/
  len : Nat
  /-- Number of populated buckets. -/
  popBkts : Nat
  deriving DecidableEq, Repr

/-- A pointer to the value at `bkts[bkt][idx]`. -/
structure Slot where
  bkt : Nat
  idx : Nat
  deriving DecidableEq, Repr

namespace Map

variable {K V σ : Type}

/-! ## Buckets and slots -/

/-- `(M).bkts[i]`, dereferenced. -/
def bkt (m : Map K V) (i : Nat) : Except Fault (Arr (Entry K V)) := do
  match ← m.bkts.get i with
  | .live arr => return arr
  | .freed => throw .useAfterFree

/-- Store the array header a macro left in bucket `i`. -/
def setBkt (m : Map K V) (i : Nat) (arr : Arr (Entry K V)) : Except Fault (Map K V) := do
  return { m with bkts := ← m.bkts.put i (.live arr) }

/-- `ac_arr_free((M).bkts[i])` -/
def freeBkt (m : Map K V) (i : Nat) : Except Fault (Map K V) := do
  match ← m.bkts.get i with
  | .live _ => return { m with bkts := ← m.bkts.put i .freed }
  | .freed => throw .doubleFree

/-- The entry a slot pointer points into. The length of the bucket is not
consulted, so a pointer kept across a removal reads whatever the cell holds by
then. -/
def entry (m : Map K V) (s : Slot) : Except Fault (Entry K V) := do
  (← m.bkt s.bkt).get s.idx

/-- `*V` through a slot pointer. -/
def val (m : Map K V) (s : Slot) : Except Fault V := do
  return (← m.entry s).val

/-- `*V = v` -/
def setVal (m : Map K V) (s : Slot) (v : V) : Except Fault (Map K V) := do
  let arr ← m.bkt s.bkt
  let e ← arr.get s.idx
  m.setBkt s.bkt (← arr.put s.idx { e with val := v })

/-- `ac_map_new_reserve`: `N` buckets, each with room for two entries. -/
def newReserve (n : Nat) : Map K V :=
  ⟨⟨n, n, List.replicate n (some (.live (Arr.newReserve 2)))⟩, 0, 0⟩

/-! ## Lookups -/

/-- The loop that compares a key with the `n` entries from index `j` on and
stops at the first match. -/
def scan (eq : K → K → Bool) (arr : Arr (Entry K V)) (k : K) : Nat → Nat → Except Fault (Option Nat)
  | _, 0 => return none
  | j, n + 1 => do
    if eq (← arr.get j).key k then return some j else scan eq arr k (j + 1) n

variable (hash : K → Nat) (eq : K → K → Bool)

/-- `ac_map_get_maybe_null` -/
def getMaybeNull (m : Map K V) (k : K) : Except Fault (Option Slot) := do
  let home := hash k % m.bkts.acap
  let arr ← m.bkt home
  return (← scan eq arr k 0 arr.alen).map (Slot.mk home)

/-- `ac_map_get` -/
def get (m : Map K V) (k : K) : Except Fault Slot := do
  match ← m.getMaybeNull hash eq k with
  | some s => return s
  | none => throw .lookup

/-- `ac_map_contains` -/
def contains (m : Map K V) (k : K) : Except Fault Bool := do
  return (← m.getMaybeNull hash eq k).isSome

/-! ## Updates -/

/-- `ac_map_set_no_rehash` -/
def setNoRehash (cap : Nat) (m : Map K V) (k : K) (v : V) : Except Fault (Map K V) := do
  let home := hash k % cap
  let arr ← m.bkt home
  match ← scan eq arr k 0 arr.alen with
  | some j =>
    let e ← arr.get j
    m.setBkt home (← arr.put j { e with val := v })
  | none =>
    let m := { m with
      len := m.len + 1
      popBkts := if arr.alen = 0 then m.popBkts + 1 else m.popBkts }
    let arr ← arr.appendNRaw 1
    m.setBkt home (← arr.put (arr.alen - 1) ⟨k, v⟩)

/-- One entry of an old bucket, read out of the third region of the array. -/
def rehashEntry (newCap b : Nat) (m : Map K V) (j : Nat) : Except Fault (Map K V) := do
  let e ← (← m.bkt (newCap + b)).get j
  m.setNoRehash hash eq newCap e.key e.val

/-- One old bucket: move its entries, then free it. -/
def rehashBkt (newCap : Nat) (m : Map K V) (b : Nat) : Except Fault (Map K V) := do
  let old ← m.bkt (newCap + b)
  let m ← (List.range old.alen).foldlM (rehashEntry hash eq newCap b) m
  m.freeBkt (newCap + b)

/-- The growing branch of `ac_map_set`. Only the capacity word is shrunk back
to the new number of buckets; the length word keeps counting the region that
held the old ones. -/
def grow (m : Map K V) : Except Fault (Map K V) := do
  let oldCap := m.bkts.acap
  let newCap := m.bkts.acap * 2
  let bkts := m.bkts.resize (newCap + oldCap)
  let cells ← memcpy bkts.cells newCap (bkts.cells.take oldCap)
  let m : Map K V :=
    { bkts := { bkts with
        cells := List.replicate newCap (some (.live (Arr.newReserve 2))) ++ cells.drop newCap }
      len := 0
      popBkts := 0 }
  let m ← (List.range oldCap).foldlM (rehashBkt hash eq newCap) m
  return { m with bkts := { m.bkts with acap := newCap } }

/-- `ac_map_set` -/
def set (m : Map K V) (k : K) (v : V) : Except Fault (Map K V) := do
  let m ← if m.popBkts = m.bkts.acap / 2 then m.grow hash eq else pure m
  m.setNoRehash hash eq m.bkts.acap k v

/-- `ac_map_remove` -/
def remove (m : Map K V) (k : K) : Except Fault (Map K V) := do
  let home := hash k % m.bkts.acap
  let arr ← m.bkt home
  match ← scan eq arr k 0 arr.alen with
  | none => return m
  | some j =>
    let arr ← arr.removeN j 1
    let m ← m.setBkt home arr
    return { m with
      len := m.len - 1
      popBkts := if arr.alen = 0 then m.popBkts - 1 else m.popBkts }

/-! ## Whole-map loops -/

/-- `ac_map_free`, up to the release of the bucket array itself: the slots
whose bucket is freed, in order. -/
def free (m : Map K V) : Except Fault (List Nat) := do
  let _ ← (List.range m.bkts.alen).foldlM freeBkt m
  return List.range m.bkts.alen

/-- `ac_alen((M).bkts[i])` as the inner loop of `ac_map_foreach` reads it. The
length word of a freed bucket is whatever the allocator left there: the read
stops the program, or, if `quiet`, happens to find zero. -/
def alenAt (quiet : Bool) (m : Map K V) (i : Nat) : Except Fault Nat := do
  match ← m.bkts.get i with
  | .live arr => return arr.alen
  | .freed => if quiet then return 0 else throw .useAfterFree

/-- Where the two loops of `ac_map_foreach` go from indices `i` and `j`. -/
inductive Turn where
  | body (s : Slot)
  | nextBkt
  | done
  deriving DecidableEq, Repr

def turn (quiet : Bool) (m : Map K V) (i j : Nat) : Except Fault Turn := do
  if i < m.bkts.alen then
    if j < (← m.alenAt quiet i) then return .body ⟨i, j⟩ else return .nextBkt
  else return .done

/-- `ac_map_foreach` over a table inside a larger state. Both bounds are read
again on every turn, as in C; `fuel` bounds the number of turns. -/
def foreachFrom (quiet : Bool) (tbl : σ → Map K V) (body : Slot → σ → Except Fault σ) :
    Nat → Nat → Nat → σ → Except Fault σ
  | 0, _, _, _ => throw .unfinished
  | fuel + 1, i, j, s => do
    match ← (tbl s).turn quiet i j with
    | .done => return s
    | .nextBkt => foreachFrom quiet tbl body fuel (i + 1) 0 s
    | .body slot => foreachFrom quiet tbl body fuel i (j + 1) (← body slot s)

/-- The turns the loops take over one slot of the bucket array. -/
def cellTurns : Option (Bkt K V) → Nat
  | some (.live arr) => arr.alen + 1
  | _ => 1

/-- Enough turns for a loop whose body adds no entry to the table. -/
def turns (m : Map K V) : Nat := (m.bkts.cells.map cellTurns).sum + 1

def foreach (quiet : Bool) (tbl : σ → Map K V) (body : Slot → σ → Except Fault σ) (s : σ) :
    Except Fault σ :=
  foreachFrom quiet tbl body (tbl s).turns 0 0 s

/-- A loop body that only notes the entry its key and value pointers are in. -/
def visit (m : Map K V) (s : Slot) (seen : List (Entry K V)) : Except Fault (List (Entry K V)) := do
  return seen ++ [← m.entry s]

/-- The entries `ac_map_foreach` hands to its body, in order. -/
def visits (quiet : Bool) (m : Map K V) : Except Fault (List (Entry K V)) :=
  foreach quiet (fun _ => m) (visit m) []

end Map
end AuroraComms.Meta
