import AuroraComms.Meta.Map

/-! What the hash map macros do to the chained table a map stands for. Each
macro has one theorem here: it succeeds, and the map it leaves represents the
updated table. The growth theorem is the only one that opens the re-hash loop;
everything above this module works with tables. -/
namespace AuroraComms.Meta
open Library.Run Library.Chain

variable {K V : Type} {hash : K → Nat} {eq : K → K → Bool}

/-- The entries of a slot of the bucket array. -/
def Bkt.entries : Option (Bkt K V) → Bucket K V
  | some (.live arr) => arr.toList
  | _ => []

namespace Map

variable {m : Map K V} {t : Table K V}

/-- The table in front of the capacity. -/
def table (m : Map K V) : Table K V := (m.bkts.cells.take m.bkts.acap).map Bkt.entries

/-- The first slots of the bucket array own exactly these buckets. -/
def Buckets (m : Map K V) (t : Table K V) : Prop :=
  ∀ (i : Nat) b, t[i]? = some b → ∃ arr, m.bkts.cells[i]? = some (some (.live arr)) ∧ arr.Holds b

/-- Both counters are those of the table. -/
def Counts (m : Map K V) (t : Table K V) : Prop :=
  m.len = t.flatten.length ∧ m.popBkts = populated t

/-- The map stands for the table: the buckets in front of the capacity are
live, and every slot from there to the length dangles. -/
structure Represents (m : Map K V) (t : Table K V) : Prop where
  buckets : m.Buckets t
  counts : m.Counts t
  acap : m.bkts.acap = t.length
  within : t.length ≤ m.bkts.alen
  allocated : m.bkts.cells.length = m.bkts.alen
  stale : ∀ i, t.length ≤ i → i < m.bkts.alen → m.bkts.cells[i]? = some (some .freed)

/-- Nothing from slot `n` on changed, nor did the array header. -/
structure SameFrom (n : Nat) (m m' : Map K V) : Prop where
  alen : m'.bkts.alen = m.bkts.alen
  acap : m'.bkts.acap = m.bkts.acap
  length : m'.bkts.cells.length = m.bkts.cells.length
  cells : ∀ i, n ≤ i → m'.bkts.cells[i]? = m.bkts.cells[i]?

theorem SameFrom.refl (n : Nat) (m : Map K V) : SameFrom n m m := ⟨rfl, rfl, rfl, fun _ _ => rfl⟩

theorem SameFrom.trans {n : Nat} {m m' m'' : Map K V} (first : SameFrom n m m')
    (second : SameFrom n m' m'') : SameFrom n m m'' where
  alen := second.alen.trans first.alen
  acap := second.acap.trans first.acap
  length := second.length.trans first.length
  cells i bound := (second.cells i bound).trans (first.cells i bound)

/-- The table can be read off the map. -/
theorem Represents.table_eq (held : m.Represents t) : m.table = t := by
  apply List.ext_getElem?
  intro i
  rw [table, List.getElem?_map, List.getElem?_take, held.acap]
  by_cases bound : i < t.length
  · obtain ⟨arr, cell, holds⟩ := held.buckets i _ (List.getElem?_eq_getElem bound)
    rw [if_pos bound, cell, List.getElem?_eq_getElem bound]
    simp [Bkt.entries, holds.toList_eq]
  · rw [if_neg bound, List.getElem?_eq_none (by omega)]
    rfl

/-! ## One bucket at a time -/

theorem bkt_live {i : Nat} {arr : Arr (Entry K V)}
    (cell : m.bkts.cells[i]? = some (some (.live arr))) : m.bkt i = .ok arr := by
  simp [Map.bkt, Arr.get, cell]

/-- Freeing a live bucket leaves its pointer dangling. -/
theorem freeBkt_live {i : Nat} {arr : Arr (Entry K V)}
    (cell : m.bkts.cells[i]? = some (some (.live arr))) :
    m.freeBkt i =
      .ok { m with bkts := { m.bkts with cells := m.bkts.cells.set i (some .freed) } } := by
  have loaded : m.bkts.get i = .ok (.live arr) := by simp [Arr.get, cell]
  have inside : i < m.bkts.cells.length := (List.getElem?_eq_some_iff.mp cell).1
  simp [freeBkt, loaded, Arr.put, inside]

theorem Buckets.bkt (owned : m.Buckets t) {i : Nat} {b : Bucket K V} (stored : t[i]? = some b) :
    ∃ arr, m.bkt i = .ok arr ∧ arr.Holds b := by
  obtain ⟨arr, cell, holds⟩ := owned i b stored
  exact ⟨arr, bkt_live cell, holds⟩

/-- Storing an array header updates its bucket and no other slot. -/
theorem Buckets.setBkt (owned : m.Buckets t) {i : Nat} {b : Bucket K V} (stored : t[i]? = some b)
    {f : Bucket K V → Bucket K V} {arr : Arr (Entry K V)} (holds : arr.Holds (f b)) :
    ∃ m', m.setBkt i arr = .ok m' ∧ m'.Buckets (t.modify i f) ∧ SameFrom t.length m m' ∧
      m'.len = m.len ∧ m'.popBkts = m.popBkts := by
  obtain ⟨old, cell, _⟩ := owned i b stored
  have inside : i < m.bkts.cells.length := (List.getElem?_eq_some_iff.mp cell).1
  have bound : i < t.length := (List.getElem?_eq_some_iff.mp stored).1
  refine ⟨{ m with bkts := { m.bkts with cells := m.bkts.cells.set i (some (.live arr)) } },
    by simp [Map.setBkt, Arr.put, inside], ?_, ⟨rfl, rfl, by simp, ?_⟩, rfl, rfl⟩
  · intro j c other
    rw [List.getElem?_modify] at other
    by_cases here : i = j
    · subst here
      simp only [stored, ↓reduceIte, Option.map_eq_map, Option.map_some, Option.some.injEq] at other
      subst other
      exact ⟨arr, by simp [inside], holds⟩
    · simp only [here, ↓reduceIte, Option.map_eq_map, Option.map_id_fun', id_eq] at other
      obtain ⟨kept, keptCell, keptHolds⟩ := owned j c other
      exact ⟨kept, by simp [List.getElem?_set_ne here, keptCell], keptHolds⟩
  · intro j beyond
    exact List.getElem?_set_ne (by omega)

/-- The comparison loop finds the first entry with the key. -/
theorem scan_from (k : K) {arr : Arr (Entry K V)} {b : Bucket K V} (holds : arr.Holds b) (j n : Nat)
    (rest : j + n = b.length) :
    scan eq arr k j n = .ok ((position eq k (b.drop j)).map (j + ·)) := by
  induction n generalizing j with
  | zero =>
    rw [List.drop_of_length_le (by omega)]
    rfl
  | succ n ih =>
    have bound : j < b.length := by omega
    rw [scan, holds.get bound, ok_bind, List.drop_eq_getElem_cons bound, position_cons]
    split
    · simp
    · rw [ih (j + 1) (by omega), Option.map_map]
      congr 2
      funext i
      simp only [Function.comp_apply]
      omega

theorem scan_spec (k : K) {arr : Arr (Entry K V)} {b : Bucket K V} (holds : arr.Holds b) :
    scan eq arr k 0 arr.alen = .ok (position eq k b) := by
  rw [scan_from k holds 0 arr.alen (by rw [holds.alen_eq, Nat.zero_add])]
  simp

/-! ## Lookups -/

/-- Where the key's value lives, if anywhere. -/
def slotOf (hash : K → Nat) (eq : K → K → Bool) (t : Table K V) (k : K) : Option Slot :=
  (position eq k (t.getD (home hash t k) [])).map (Slot.mk (home hash t k))

/-- The entry a slot points at. -/
def entryAt (t : Table K V) (s : Slot) : Option (Entry K V) :=
  t[s.bkt]?.bind (·[s.idx]?)

theorem getMaybeNull_spec (held : m.Represents t) (valid : Valid hash eq t) (k : K) :
    m.getMaybeNull hash eq k = .ok (slotOf hash eq t k) := by
  obtain ⟨b, stored, _, _⟩ := valid.home_bucket k
  obtain ⟨arr, loaded, holds⟩ := held.buckets.bkt stored
  rw [home] at stored loaded
  simp only [getMaybeNull, held.acap, loaded, ok_bind, scan_spec k holds, pure_eq_ok, slotOf, home,
    List.getD_eq_getElem?_getD, stored, Option.getD_some]

/-- The slot found holds the value the table answers with. -/
theorem slotOf_eq_some (valid : Valid hash eq t) {k : K} {s : Slot}
    (found : slotOf hash eq t k = some s) :
    ∃ e, entryAt t s = some e ∧ eq e.key k = true ∧ find? hash eq t k = some e.val ∧
      s.bkt = home hash t k := by
  obtain ⟨b, stored, _, answer⟩ := valid.home_bucket k
  simp only [slotOf, List.getD_eq_getElem?_getD, stored, Option.getD_some,
    Option.map_eq_some_iff] at found
  obtain ⟨j, at_j, rfl⟩ := found
  obtain ⟨e, cell, same, value, _, _⟩ := position_eq_some at_j
  exact ⟨e, by simp [entryAt, stored, cell], same, answer.trans value, rfl⟩

theorem slotOf_eq_none (valid : Valid hash eq t) {k : K} :
    slotOf hash eq t k = none ↔ find? hash eq t k = none := by
  obtain ⟨b, stored, _, answer⟩ := valid.home_bucket k
  rw [answer, ← position_eq_none]
  simp [slotOf, stored]

theorem slotOf_isSome (valid : Valid hash eq t) (k : K) :
    (slotOf hash eq t k).isSome = (find? hash eq t k).isSome := by
  cases slot : slotOf hash eq t k with
  | none => rw [(slotOf_eq_none valid).mp slot]; rfl
  | some s =>
    obtain ⟨e, _, _, answer, _⟩ := slotOf_eq_some valid slot
    rw [answer]; rfl

theorem contains_spec (held : m.Represents t) (valid : Valid hash eq t) (k : K) :
    m.contains hash eq k = .ok (find? hash eq t k).isSome := by
  simp only [contains, getMaybeNull_spec held valid, ok_bind, pure_eq_ok, slotOf_isSome valid]

theorem get_spec (held : m.Represents t) (valid : Valid hash eq t) (k : K) :
    m.get hash eq k = match slotOf hash eq t k with
      | some s => .ok s
      | none => .error .lookup := by
  rw [get, getMaybeNull_spec held valid, ok_bind]
  cases slotOf hash eq t k <;> rfl

theorem entry_spec (held : m.Represents t) {s : Slot} {e : Entry K V} (live : entryAt t s = some e) :
    m.entry s = .ok e := by
  obtain ⟨b, stored, cell⟩ := Option.bind_eq_some_iff.mp live
  obtain ⟨arr, loaded, holds⟩ := held.buckets.bkt stored
  obtain ⟨bound, value⟩ := List.getElem?_eq_some_iff.mp cell
  simp [entry, loaded, holds.get bound, value]

theorem val_spec (held : m.Represents t) {s : Slot} {e : Entry K V} (live : entryAt t s = some e) :
    m.val s = .ok e.val := by
  simp [val, entry_spec held live]

/-! ## Updates -/

theorem setVal_spec (held : m.Represents t) {s : Slot} {e : Entry K V} (live : entryAt t s = some e)
    (v : V) :
    ∃ m', m.setVal s v = .ok m' ∧
      m'.Represents (t.modify s.bkt (·.set s.idx { e with val := v })) ∧
      m'.bkts.alen = m.bkts.alen := by
  obtain ⟨b, stored, cell⟩ := Option.bind_eq_some_iff.mp live
  obtain ⟨arr, loaded, holds⟩ := held.buckets.bkt stored
  obtain ⟨bound, value⟩ := List.getElem?_eq_some_iff.mp cell
  obtain ⟨arr', wrote, holds'⟩ := holds.put bound { e with val := v }
  obtain ⟨m', ran, owned, frame, len, pop⟩ :=
    held.buckets.setBkt stored (f := (·.set s.idx { e with val := v })) holds'
  refine ⟨m', by simp [setVal, loaded, holds.get bound, value, wrote, ran], ?_, frame.alen⟩
  have size := flatten_modify_length (·.set s.idx { e with val := v }) _ b stored
  have crowd := populated_modify (·.set s.idx { e with val := v }) _ b stored
  rw [List.length_set] at size
  have nonempty : b ≠ [] := List.ne_nil_of_length_pos (by omega)
  have stillNonempty : b.set s.idx { e with val := v } ≠ [] := by simpa using nonempty
  rw [if_neg nonempty, if_neg stillNonempty] at crowd
  have counts := held.counts
  exact {
    buckets := owned
    counts := ⟨by rw [len, counts.1]; omega, by rw [pop, counts.2]; omega⟩
    acap := by rw [frame.acap, held.acap, List.length_modify]
    within := by rw [frame.alen, List.length_modify]; exact held.within
    allocated := by rw [frame.length, frame.alen, held.allocated]
    stale := fun i from_t below => by
      rw [List.length_modify] at from_t
      rw [frame.cells i from_t]
      exact held.stale i from_t (by rw [← frame.alen]; exact below) }

/-- The unconditional part of a set, over the first `t.length` slots. -/
theorem setNoRehash_spec (hash : K → Nat) (eq : K → K → Bool) (owned : m.Buckets t)
    (counts : m.Counts t) (positive : 0 < t.length)
    (k : K) (v : V) :
    ∃ m', m.setNoRehash hash eq t.length k v = .ok m' ∧ m'.Buckets (store hash eq t k v) ∧
      m'.Counts (store hash eq t k v) ∧ SameFrom t.length m m' := by
  have bound : home hash t k < t.length := Nat.mod_lt _ positive
  have stored := List.getElem?_eq_getElem bound
  generalize t[home hash t k] = b at stored
  obtain ⟨arr, loaded, holds⟩ := owned.bkt stored
  simp only [home] at loaded
  have size := flatten_modify_length (put eq k v) _ b stored
  have crowd := populated_modify (put eq k v) _ b stored
  cases found : position eq k b with
  | some j =>
    obtain ⟨e, cell, same, value, replaced, _⟩ := position_eq_some found
    obtain ⟨inside, loadedEntry⟩ := List.getElem?_eq_some_iff.mp cell
    obtain ⟨arr', wrote, holds'⟩ := holds.put inside { e with val := v }
    rw [← replaced v] at holds'
    obtain ⟨m', ran, owned', frame, len, pop⟩ := owned.setBkt stored holds'
    simp only [home] at ran
    refine ⟨m', ?_, owned', ?_, frame⟩
    · simpa [setNoRehash, loaded, scan_spec k holds, found, holds.get inside, loadedEntry, wrote]
        using ran
    · have nonempty : b ≠ [] := List.ne_nil_of_length_pos (by omega)
      have stillNonempty : put eq k v b ≠ [] := by rw [replaced v]; simpa using nonempty
      rw [if_neg nonempty, if_neg stillNonempty] at crowd
      rw [replaced v, List.length_set] at size
      exact ⟨by rw [len, counts.1, store]; omega, by rw [pop, counts.2, store]; omega⟩
  | none =>
    have absent := position_eq_none.mp found
    obtain ⟨longer, written, appended, wrote, holds'⟩ := holds.append ⟨k, v⟩
    rw [← put_absent absent] at holds'
    have owned_counted : Buckets { m with
        len := m.len + 1
        popBkts := if arr.alen = 0 then m.popBkts + 1 else m.popBkts } t := owned
    obtain ⟨m', ran, owned', frame, len, pop⟩ := owned_counted.setBkt stored holds'
    change m'.len = m.len + 1 at len
    change m'.popBkts = (if arr.alen = 0 then m.popBkts + 1 else m.popBkts) at pop
    simp only [home] at ran
    refine ⟨m', ?_, owned', ?_, ⟨frame.alen, frame.acap, frame.length, frame.cells⟩⟩
    · simpa [setNoRehash, loaded, scan_spec k holds, found, appended, wrote] using ran
    · have grown : put eq k v b ≠ [] := by rw [put_absent absent]; simp
      rw [put_length, absent] at size
      simp only [Option.isSome_none, Bool.false_eq_true, ↓reduceIte] at size
      rw [if_neg grown] at crowd
      refine ⟨by rw [len, counts.1, store]; omega, ?_⟩
      rw [pop, counts.2, store, holds.alen_eq]
      by_cases empty : b = []
      · simp only [empty, List.length_nil, ↓reduceIte] at crowd ⊢
        omega
      · have length : b.length ≠ 0 := fun zero => empty (List.length_eq_zero_iff.mp zero)
        rw [if_neg empty] at crowd
        rw [if_neg length]
        omega

end Map
end AuroraComms.Meta
