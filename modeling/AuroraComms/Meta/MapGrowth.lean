import AuroraComms.Meta.MapRepresentation

/-! Growth, and with it the full set and remove. The re-hash loop reads the old
buckets out of a third region of the array while it fills the doubled table in
front of it; the loop invariant says which old buckets are still there and
which entries have already moved. -/
namespace AuroraComms.Meta.Map
open Library.Run Library.Chain

variable {K V : Type} {hash : K → Nat} {eq : K → K → Bool} {m : Map K V} {t : Table K V}

/-- The third region during a re-hash: the first `done` old buckets are freed,
the others still hold their entries. -/
def ThirdRegion (newCap : Nat) (t : Table K V) (done : Nat) (m : Map K V) : Prop :=
  ∀ (i : Nat) b, t[i]? = some b →
    if i < done then m.bkts.cells[newCap + i]? = some (some .freed)
    else ∃ arr, m.bkts.cells[newCap + i]? = some (some (.live arr)) ∧ arr.Holds b

/-- The state between two old buckets. -/
structure Rehashing (hash : K → Nat) (eq : K → K → Bool) (newCap : Nat) (t : Table K V) (done : Nat)
    (m : Map K V) : Prop where
  buckets : m.Buckets (storeAll hash eq (List.replicate newCap []) (t.take done).flatten)
  counts : m.Counts (storeAll hash eq (List.replicate newCap []) (t.take done).flatten)
  third : ThirdRegion newCap t done m
  alen : m.bkts.alen = newCap + t.length
  length : m.bkts.cells.length = newCap + t.length

private theorem third_region_kept {newCap done : Nat} {m' : Map K V}
    (third : ThirdRegion newCap t done m) (frame : SameFrom newCap m m') :
    ThirdRegion newCap t done m' := by
  intro i b stored
  rw [frame.cells _ (Nat.le_add_right newCap i)]
  exact third i b stored

/-- Moving the entries of one old bucket, before it is freed. -/
private theorem rehash_entries {newCap done : Nat} (positive : 0 < newCap)
    (state : Rehashing hash eq newCap t done m) {b : Bucket K V} (stored : t[done]? = some b) :
    ∃ m', (List.range b.length).foldlM (rehashEntry hash eq newCap done) m = .ok m' ∧
      m'.Buckets (storeAll hash eq (List.replicate newCap []) (t.take (done + 1)).flatten) ∧
      m'.Counts (storeAll hash eq (List.replicate newCap []) (t.take (done + 1)).flatten) ∧
      SameFrom newCap m m' := by
  have width : ∀ entries, (storeAll hash eq (List.replicate newCap ([] : Bucket K V)) entries).length
      = newCap := by simp
  have untouched := state.third done b stored
  rw [if_neg (Nat.lt_irrefl done)] at untouched
  obtain ⟨arr, cell, holds⟩ := untouched
  have bound : done < t.length := (List.getElem?_eq_some_iff.mp stored).1
  have whole : (t.take (done + 1)).flatten = (t.take done).flatten ++ b.take b.length := by
    rw [List.take_add_one, stored, List.flatten_append, List.take_length]
    simp
  rw [whole]
  refine foldlM_range (fun j m' => m'.Buckets (storeAll hash eq (List.replicate newCap [])
      ((t.take done).flatten ++ b.take j)) ∧ m'.Counts (storeAll hash eq (List.replicate newCap [])
      ((t.take done).flatten ++ b.take j)) ∧ SameFrom newCap m m') b.length m ?_ ?_
  · exact ⟨by simpa using state.buckets, by simpa using state.counts, .refl newCap m⟩
  · rintro j m' inside ⟨owned, counts, frame⟩
    have here : m'.bkts.cells[newCap + done]? = some (some (.live arr)) := by
      rw [frame.cells _ (Nat.le_add_right newCap done), cell]
    obtain ⟨next, ran, nextOwned, nextCounts, nextFrame⟩ :=
      setNoRehash_spec hash eq owned counts (by rw [width]; exact positive) b[j].key b[j].val
    rw [width] at ran nextFrame
    have moved : storeAll hash eq (List.replicate newCap []) ((t.take done).flatten ++ b.take (j + 1)) =
        store hash eq (storeAll hash eq (List.replicate newCap []) ((t.take done).flatten ++ b.take j))
          b[j].key b[j].val := by
      rw [List.take_succ_eq_append_getElem inside, ← List.append_assoc, storeAll_append,
        storeAll_singleton]
    refine ⟨next, ?_, by rw [moved]; exact nextOwned, by rw [moved]; exact nextCounts,
      frame.trans nextFrame⟩
    simp [rehashEntry, bkt_live here, holds.get inside, ran]

/-- One turn of the outer loop. -/
private theorem rehash_bucket {newCap done : Nat} (positive : 0 < newCap) (bound : done < t.length)
    (state : Rehashing hash eq newCap t done m) :
    ∃ m', rehashBkt hash eq newCap m done = .ok m' ∧ Rehashing hash eq newCap t (done + 1) m' := by
  have stored := List.getElem?_eq_getElem bound
  generalize t[done] = b at stored
  have untouched := state.third done b stored
  rw [if_neg (Nat.lt_irrefl done)] at untouched
  obtain ⟨arr, cell, holds⟩ := untouched
  obtain ⟨moved, ran, owned, counts, frame⟩ := rehash_entries positive state stored
  have here : moved.bkts.cells[newCap + done]? = some (some (.live arr)) := by
    rw [frame.cells _ (Nat.le_add_right newCap done), cell]
  have length : moved.bkts.cells.length = newCap + t.length := by rw [frame.length, state.length]
  have third := third_region_kept state.third frame
  refine ⟨{ moved with bkts := { moved.bkts with
    cells := moved.bkts.cells.set (newCap + done) (some .freed) } }, ?_, ?_⟩
  · simp [rehashBkt, bkt_live cell, holds.alen_eq, ran, freeBkt_live here]
  · refine ⟨?_, counts, ?_, by rw [← state.alen, ← frame.alen], by simpa using length⟩
    · intro i c other
      obtain ⟨kept, keptCell, keptHolds⟩ := owned i c other
      have front : i < newCap := by
        have inside := (List.getElem?_eq_some_iff.mp other).1
        simpa using inside
      exact ⟨kept, by simp [List.getElem?_set_ne (show newCap + done ≠ i by omega), keptCell],
        keptHolds⟩
    · intro i c other
      have was := third i c other
      by_cases freed : i = done
      · subst freed
        rw [if_pos (Nat.lt_succ_self i)]
        simp [length, bound]
      · have same : (moved.bkts.cells.set (newCap + done) (some .freed))[newCap + i]? =
            moved.bkts.cells[newCap + i]? := List.getElem?_set_ne (by omega)
        by_cases earlier : i < done
        · rw [if_pos earlier] at was
          rw [if_pos (by omega)]
          exact same.trans was
        · rw [if_neg earlier] at was
          obtain ⟨kept, keptCell, keptHolds⟩ := was
          rw [if_neg (by omega)]
          exact ⟨kept, same.trans keptCell, keptHolds⟩

/-- Growth doubles the table, keeps its entries, and leaves a length word that
is half as large again as the capacity. -/
theorem grow_spec (hash : K → Nat) (eq : K → K → Bool) (held : m.Represents t) (positive : 0 < t.length) :
    ∃ m', m.grow hash eq = .ok m' ∧ m'.Represents (rehash hash eq (t.length * 2) t) ∧
      m'.bkts.alen = t.length * 2 + t.length := by
  have within := held.within
  have allocated := held.allocated
  generalize resized : (m.bkts.resize (t.length * 2 + t.length)).cells = cells
  have resizedLength : cells.length = t.length * 2 + t.length := by
    rw [← resized]; exact realloc_length _ _
  have oldPart : cells.take t.length = m.bkts.cells.take t.length := by
    rw [← resized]; exact realloc_take _ _ _ (by omega) (by omega)
  have oldLength : (cells.take t.length).length = t.length := by
    rw [List.length_take]; omega
  have copied := memcpy_fits cells (t.length * 2) (cells.take t.length) (by omega)
  rw [oldLength, List.drop_of_length_le (by omega), List.append_nil] at copied
  have tail : (cells.take (t.length * 2) ++ cells.take t.length).drop (t.length * 2) =
      cells.take t.length := List.drop_left' (by simp; omega)
  let start : Map K V := {
    bkts := {
      alen := t.length * 2 + t.length
      acap := t.length * 2 + t.length
      cells := List.replicate (t.length * 2) (some (.live (Arr.newReserve 2))) ++
        cells.take t.length }
    len := 0
    popBkts := 0 }
  have entry : Rehashing hash eq (t.length * 2) t 0 start := by
    refine ⟨?_, ?_, ?_, rfl, by simp [start]; omega⟩
    · intro i b stored
      simp only [List.take_zero, List.flatten_nil, storeAll, List.foldl_nil,
        List.getElem?_replicate, Option.ite_none_right_eq_some, Option.some.injEq] at stored
      obtain ⟨inside, rfl⟩ := stored
      refine ⟨Arr.newReserve 2, ?_, Arr.newReserve_refines 2⟩
      simp [start, List.getElem?_append_left, inside]
    · simp [Counts, start, storeAll]
    · intro i b stored
      have inside := (List.getElem?_eq_some_iff.mp stored).1
      obtain ⟨arr, cell, holds⟩ := held.buckets i b stored
      rw [if_neg (Nat.not_lt_zero i)]
      refine ⟨arr, ?_, holds⟩
      simp only [start]
      rw [List.getElem?_append_right (by simp), List.length_replicate, Nat.add_sub_cancel_left,
        oldPart, List.getElem?_take, if_pos inside, cell]
  obtain ⟨moved, ran, final⟩ := foldlM_range (f := rehashBkt hash eq (t.length * 2))
    (Rehashing hash eq (t.length * 2) t) t.length start entry fun done s bound state =>
      rehash_bucket (by omega) bound state
  have owned := final.buckets
  have counts := final.counts
  rw [List.take_length] at owned counts
  have width : (rehash hash eq (t.length * 2) t).length = t.length * 2 := by simp [rehash]
  refine ⟨{ moved with bkts := { moved.bkts with acap := t.length * 2 } }, ?_, ?_, final.alen⟩
  · rw [grow, held.acap, resized, copied, ok_bind]
    simp only [tail]
    exact (congrArg (· >>= _) ran).trans rfl
  · refine ⟨owned, counts, width.symm, ?_, ?_, ?_⟩
    · rw [width, final.alen]; omega
    · simp only; rw [final.length, final.alen]
    · intro i beyond below
      rw [width] at beyond
      simp only at below
      rw [final.alen] at below
      have inside : i - t.length * 2 < t.length := by omega
      have freed := final.third (i - t.length * 2) _ (List.getElem?_eq_getElem inside)
      rw [if_pos inside, Nat.add_sub_of_le beyond] at freed
      exact freed

/-! ## The whole set and remove -/

theorem newReserve_represents (n : Nat) :
    (newReserve n : Map K V).Represents (List.replicate n []) where
  buckets i b stored := by
    simp only [List.getElem?_replicate, Option.ite_none_right_eq_some, Option.some.injEq] at stored
    obtain ⟨inside, rfl⟩ := stored
    exact ⟨Arr.newReserve 2, by simp [newReserve, inside], Arr.newReserve_refines 2⟩
  counts := by simp [Counts, newReserve]
  acap := by simp [newReserve]
  within := by simp [newReserve]
  allocated := by simp [newReserve]
  stale i beyond below := by
    simp only [List.length_replicate] at beyond
    exact absurd below (Nat.not_lt_of_le beyond)

/-- The equality test that decides whether a set grows the table first. -/
def Crowded (t : Table K V) : Prop := populated t = t.length / 2

instance (t : Table K V) : Decidable (Crowded t) := inferInstanceAs (Decidable (_ = _))

/-- The table a set stores into. -/
def roomy (hash : K → Nat) (eq : K → K → Bool) (t : Table K V) : Table K V :=
  if Crowded t then rehash hash eq (t.length * 2) t else t

theorem set_spec (held : m.Represents t) (valid : Valid hash eq t) (k : K) (v : V) :
    ∃ m', m.set hash eq k v = .ok m' ∧ m'.Represents (store hash eq (roomy hash eq t) k v) ∧
      m'.bkts.alen = if Crowded t then t.length * 2 + t.length else m.bkts.alen := by
  have finish : ∀ (base : Map K V) (s : Table K V), base.Represents s → 0 < s.length →
      ∃ m', base.setNoRehash hash eq base.bkts.acap k v = .ok m' ∧
        m'.Represents (store hash eq s k v) ∧ m'.bkts.alen = base.bkts.alen := by
    intro base s represents positive
    obtain ⟨m', ran, owned, counts, frame⟩ :=
      setNoRehash_spec hash eq represents.buckets represents.counts positive k v
    rw [← represents.acap] at ran
    refine ⟨m', ran, ⟨owned, counts, ?_, ?_, ?_, ?_⟩, frame.alen⟩
    · rw [frame.acap, represents.acap, store_length]
    · rw [frame.alen, store_length]; exact represents.within
    · rw [frame.length, frame.alen, represents.allocated]
    · intro i beyond below
      rw [store_length] at beyond
      rw [frame.alen] at below
      rw [frame.cells i beyond]
      exact represents.stale i beyond below
  have test : m.popBkts = m.bkts.acap / 2 ↔ Crowded t := by
    rw [held.counts.2, held.acap, Crowded]
  by_cases crowded : Crowded t
  · obtain ⟨base, grew, represents, alen⟩ := grow_spec hash eq held valid.inhabited
    have width : (rehash hash eq (t.length * 2) t).length = t.length * 2 := by simp [rehash]
    have inhabited := valid.inhabited
    obtain ⟨m', ran, final, sameAlen⟩ := finish base _ represents (by omega)
    refine ⟨m', ?_, ?_, ?_⟩
    · rw [set, if_pos (test.mpr crowded), grew, ok_bind]
      exact ran
    · rw [roomy, if_pos crowded]; exact final
    · rw [if_pos crowded, sameAlen, alen]
  · obtain ⟨m', ran, final, sameAlen⟩ := finish m t held valid.inhabited
    refine ⟨m', ?_, ?_, ?_⟩
    · rw [set, if_neg (mt test.mp crowded), pure_eq_ok, ok_bind]
      exact ran
    · rw [roomy, if_neg crowded]; exact final
    · rw [if_neg crowded, sameAlen]

/-- Growth is invisible to lookups, and the set stores its key. -/
theorem roomy_keeps (laws : KeyLaws hash eq) (valid : Valid hash eq t) :
    Valid hash eq (roomy hash eq t) ∧
      (roomy hash eq t).flatten.length = t.flatten.length ∧
      ∀ k, find? hash eq (roomy hash eq t) k = find? hash eq t k := by
  unfold roomy
  split
  · have inhabited := valid.inhabited
    obtain ⟨kept, _, size, answers⟩ := rehash_keeps laws valid
      (show 0 < t.length * 2 by omega)
    exact ⟨kept, size, answers⟩
  · exact ⟨valid, rfl, fun _ => rfl⟩

theorem remove_spec (held : m.Represents t) (valid : Valid hash eq t) (k : K) :
    ∃ m', m.remove hash eq k = .ok m' ∧ m'.Represents (erase hash eq t k) ∧
      m'.bkts.alen = m.bkts.alen ∧ (find? hash eq t k = none → m' = m) := by
  obtain ⟨b, stored, _, answer⟩ := valid.home_bucket k
  obtain ⟨arr, loaded, holds⟩ := held.buckets.bkt stored
  have size := flatten_modify_length (drop eq k) _ b stored
  have crowd := populated_modify (drop eq k) _ b stored
  simp only [home] at loaded
  rw [answer, ← position_eq_none]
  cases found : position eq k b with
  | none =>
    have absent : find? hash eq t k = none := by rw [answer, position_eq_none.mp found]
    refine ⟨m, ?_, ?_, rfl, fun _ => rfl⟩
    · simp [remove, held.acap, loaded, scan_spec k holds, found]
    · rw [erase_absent valid absent]; exact held
  | some j =>
    obtain ⟨e, cell, same, value, _, dropped⟩ := position_eq_some found
    have inside := (List.getElem?_eq_some_iff.mp cell).1
    obtain ⟨shorter, removed, refined⟩ := Arr.removeN_refines holds (i := j) (n := 1)
      (by simpa using inside) (by rw [List.length_map]; omega)
    have holds' : shorter.Holds (drop eq k b) := by
      rw [dropped, Arr.Holds, List.map_append, List.map_take, List.map_drop]
      exact refined
    obtain ⟨m', ran, owned, frame, len, pop⟩ := held.buckets.setBkt stored holds'
    simp only [home] at ran
    refine ⟨{ m' with
      len := m'.len - 1
      popBkts := if shorter.alen = 0 then m'.popBkts - 1 else m'.popBkts }, ?_, ?_, frame.alen, ?_⟩
    · simp [remove, held.acap, loaded, scan_spec k holds, found, removed, ran]
    · have nonempty : b ≠ [] := List.ne_nil_of_length_pos (by omega)
      have counts := held.counts
      refine ⟨owned, ⟨?_, ?_⟩, ?_, ?_, ?_, ?_⟩
      · rw [drop_length, value, Option.isSome_some, if_pos rfl] at size
        simp only [len, counts.1, erase]
        omega
      · rw [if_neg nonempty] at crowd
        simp only [pop, counts.2, erase, holds'.alen_eq]
        by_cases emptied : drop eq k b = []
        · rw [if_pos emptied] at crowd
          simp only [emptied, List.length_nil, ↓reduceIte]
          omega
        · have length : (drop eq k b).length ≠ 0 := fun zero =>
            emptied (List.length_eq_zero_iff.mp zero)
          rw [if_neg emptied] at crowd
          rw [if_neg length]
          omega
      · rw [erase_length]; exact frame.acap.trans held.acap
      · rw [erase_length]; exact frame.alen ▸ held.within
      · exact frame.length.trans (held.allocated.trans frame.alen.symm)
      · intro i beyond below
        rw [erase_length] at beyond
        exact (frame.cells i beyond).trans (held.stale i beyond (frame.alen ▸ below))
    · intro impossible
      cases impossible

end AuroraComms.Meta.Map
