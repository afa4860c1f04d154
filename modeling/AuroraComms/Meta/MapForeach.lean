import AuroraComms.Meta.MapGrowth

/-! The whole-map loops. When the body leaves the lengths of the iterated
table alone, `ac_map_foreach` is a fold over the table's slots in order; when a
slot dangles and the allocator is not kind, it cannot finish at all. -/
namespace AuroraComms.Meta.Map
open Library.Run Library.Chain

variable {K V σ : Type} {hash : K → Nat} {eq : K → K → Bool} {m : Map K V} {t : Table K V}

/-- The slots of consecutive buckets of these lengths. -/
def slotsFrom (i : Nat) : List Nat → List Slot
  | [] => []
  | n :: shape => (List.range n).map (Slot.mk i) ++ slotsFrom (i + 1) shape

/-- Every slot of a table, in the order the loops visit them. -/
def slots (t : Table K V) : List Slot := slotsFrom 0 (t.map List.length)

/-- The loops read exactly these bucket lengths. -/
structure Shaped (quiet : Bool) (m : Map K V) (shape : List Nat) : Prop where
  alen : m.bkts.alen = shape.length
  lengths : ∀ (i : Nat) n, shape[i]? = some n → m.alenAt quiet i = .ok n
  enough : (shape.map (· + 1)).sum + 1 ≤ m.turns

/-- No slot dangles, or the allocator is kind about it. -/
def Readable (quiet : Bool) (m : Map K V) : Prop := quiet = true ∨ m.bkts.alen = m.bkts.acap

instance (quiet : Bool) (m : Map K V) : Decidable (Readable quiet m) :=
  inferInstanceAs (Decidable (_ ∨ _))

theorem slotsFrom_append (i : Nat) (left right : List Nat) :
    slotsFrom i (left ++ right) = slotsFrom i left ++ slotsFrom (i + left.length) right := by
  induction left generalizing i with
  | nil => rfl
  | cons n rest ih =>
    simp only [List.cons_append, slotsFrom, ih, List.append_assoc, List.length_cons]
    rw [Nat.add_right_comm, Nat.add_assoc]

theorem slotsFrom_zeros (i n : Nat) : slotsFrom i (List.replicate n 0) = [] := by
  induction n generalizing i with
  | zero => rfl
  | succ n ih => simp [List.replicate_succ, slotsFrom, ih]

/-! ## The loop rule -/

section Loop
variable {quiet : Bool} {tbl : σ → Map K V} {body : Slot → σ → Except Fault σ} {shape : List Nat}
  {inv : List Slot → σ → Prop}

/-- The inner loop, from index `j` of bucket `i` to its end. -/
private theorem foreach_bucket (ready : ∀ todo s, inv todo s → Shaped quiet (tbl s) shape)
    (turns : ∀ slot todo s, inv (slot :: todo) s → ∃ s', body slot s = .ok s' ∧ inv todo s')
    {i n : Nat} (at_i : shape[i]? = some n) (later : List Slot) (left j fuel : Nat) (s : σ)
    (count : j + left = n) (held : inv ((List.range' j left).map (Slot.mk i) ++ later) s) :
    ∃ s', foreachFrom quiet tbl body (fuel + left + 1) i j s =
      foreachFrom quiet tbl body fuel (i + 1) 0 s' ∧ inv later s' := by
  have shaped := ready _ _ held
  have inside : i < (tbl s).bkts.alen := by
    rw [shaped.alen]; exact (List.getElem?_eq_some_iff.mp at_i).1
  induction left generalizing j s with
  | zero =>
    have past : ¬ j < n := by omega
    exact ⟨s, by simp [foreachFrom, turn, inside, shaped.lengths i n at_i, past], held⟩
  | succ left ih =>
    have more : j < n := by omega
    rw [List.range'_succ, List.map_cons, List.cons_append] at held
    obtain ⟨middle, ran, kept⟩ := turns _ _ _ held
    have still := ready _ _ kept
    obtain ⟨last, rest, done⟩ := ih (j + 1) middle (by omega) kept still (by
      rw [still.alen]; exact (List.getElem?_eq_some_iff.mp at_i).1)
    refine ⟨last, ?_, done⟩
    rw [← rest, show fuel + (left + 1) + 1 = (fuel + left + 1) + 1 by omega, foreachFrom]
    simp only [turn, inside, ↓reduceIte, shaped.lengths i n at_i, ok_bind, more, pure_eq_ok, ran]

private theorem foreach_rest (ready : ∀ todo s, inv todo s → Shaped quiet (tbl s) shape)
    (turns : ∀ slot todo s, inv (slot :: todo) s → ∃ s', body slot s = .ok s' ∧ inv todo s')
    (rest before : List Nat) (split : shape = before ++ rest) (extra : Nat) (s : σ)
    (held : inv (slotsFrom before.length rest) s) :
    ∃ s', foreachFrom quiet tbl body (extra + (rest.map (· + 1)).sum + 1) before.length 0 s = .ok s' ∧
      inv [] s' := by
  induction rest generalizing before s with
  | nil =>
    have outside : ¬ before.length < (tbl s).bkts.alen := by
      rw [(ready _ _ held).alen, split]; simp
    exact ⟨s, by simp [foreachFrom, turn, outside], held⟩
  | cons n rest ih =>
    have at_i : shape[before.length]? = some n := by rw [split]; simp
    have fuel : extra + ((n :: rest).map (· + 1)).sum + 1 =
        (extra + (rest.map (· + 1)).sum + 1) + n + 1 := by
      simp only [List.map_cons, List.sum_cons]
      omega
    rw [slotsFrom, List.range_eq_range'] at held
    obtain ⟨middle, ran, kept⟩ := foreach_bucket ready turns at_i _ n 0
      (extra + (rest.map (· + 1)).sum + 1) s (Nat.zero_add n) held
    obtain ⟨last, others, done⟩ := ih (before ++ [n]) (by rw [split]; simp) middle (by simpa using kept)
    refine ⟨last, ?_, done⟩
    rw [fuel, ran]
    simpa using others

variable (tbl body shape inv)

/-- A loop invariant over the slots still to come: when it fixes the lengths
the loops read, and one turn of the body succeeds and re-establishes it, the
loop ends in it. -/
theorem foreach_invariant (ready : ∀ todo s, inv todo s → Shaped quiet (tbl s) shape)
    (turns : ∀ slot todo s, inv (slot :: todo) s → ∃ s', body slot s = .ok s' ∧ inv todo s')
    (s : σ) (held : inv (slotsFrom 0 shape) s) :
    ∃ s', foreach quiet tbl body s = .ok s' ∧ inv [] s' := by
  obtain ⟨extra, fuel⟩ := Nat.exists_eq_add_of_le (ready _ _ held).enough
  rw [foreach, fuel, show (shape.map (· + 1)).sum + 1 + extra =
    extra + (shape.map (· + 1)).sum + 1 by omega]
  exact foreach_rest ready turns shape [] rfl extra s held

/-- A loop that has yet to read the length of a bucket it cannot read does not
return, whatever its body does to the rest of the state. -/
theorem foreach_stuck {i : Nat}
    (keep : ∀ slot s s', (i < (tbl s).bkts.alen ∧ ∀ n, (tbl s).alenAt quiet i ≠ .ok n) →
      body slot s = .ok s' → i < (tbl s').bkts.alen ∧ ∀ n, (tbl s').alenAt quiet i ≠ .ok n)
    (s s' : σ) (dangling : i < (tbl s).bkts.alen ∧ ∀ n, (tbl s).alenAt quiet i ≠ .ok n) :
    foreach quiet tbl body s ≠ .ok s' := by
  suffices stuck : ∀ fuel a b s, a ≤ i →
      (i < (tbl s).bkts.alen ∧ ∀ n, (tbl s).alenAt quiet i ≠ .ok n) →
      foreachFrom quiet tbl body fuel a b s ≠ .ok s' by
    exact stuck _ 0 0 s (Nat.zero_le i) dangling
  intro fuel
  induction fuel with
  | zero => intro a b s _ _ ran; cases ran
  | succ fuel ih =>
    intro a b s reach dangling ran
    have inside : a < (tbl s).bkts.alen := by omega
    rw [foreachFrom] at ran
    obtain ⟨next, moved, ran⟩ := bind_eq_ok.mp ran
    rw [turn, if_pos inside] at moved
    obtain ⟨n, length, moved⟩ := bind_eq_ok.mp moved
    have elsewhere : a ≠ i := by
      rintro rfl
      exact dangling.2 n length
    split at moved <;> cases moved
    · obtain ⟨middle, step, ran⟩ := bind_eq_ok.mp ran
      exact ih a (b + 1) middle reach (keep _ _ _ dangling step) ran
    · exact ih (a + 1) 0 s (by omega) dangling ran

end Loop

/-! ## Represented tables -/

theorem alenAt_live {quiet : Bool} (held : m.Represents t) {i : Nat} {b : Bucket K V}
    (stored : t[i]? = some b) : m.alenAt quiet i = .ok b.length := by
  obtain ⟨arr, cell, holds⟩ := held.buckets i b stored
  simp [alenAt, Arr.get, cell, holds.alen_eq]

theorem alenAt_stale {quiet : Bool} (held : m.Represents t) {i : Nat} (beyond : t.length ≤ i)
    (below : i < m.bkts.alen) :
    m.alenAt quiet i = if quiet then .ok 0 else .error .useAfterFree := by
  simp [alenAt, Arr.get, held.stale i beyond below]

/-- Inside the table the loops go through a bucket and then to the next one. -/
theorem turn_live {quiet : Bool} (held : m.Represents t) {i : Nat} {b : Bucket K V}
    (stored : t[i]? = some b) (j : Nat) :
    m.turn quiet i j = .ok (if j < b.length then .body ⟨i, j⟩ else .nextBkt) := by
  have within := held.within
  have bound := (List.getElem?_eq_some_iff.mp stored).1
  rw [turn, if_pos (by omega), alenAt_live held stored, ok_bind]
  split <;> rfl

/-- Behind the table they find nothing, and end. -/
theorem turn_beyond {quiet : Bool} (held : m.Represents t) (readable : Readable quiet m) {i : Nat}
    (beyond : t.length ≤ i) (j : Nat) :
    m.turn quiet i j = .ok (if i < m.bkts.alen then .nextBkt else .done) := by
  rw [turn]
  split
  · rename_i below
    have kind : quiet = true := by
      rcases readable with kind | fit
      · exact kind
      · rw [held.acap] at fit
        omega
    rw [alenAt_stale held beyond below, if_pos kind, ok_bind]
    rfl
  · rfl

/-- A map that dangles somewhere stops every loop over it. -/
theorem unreadable_slot {quiet : Bool} (held : m.Represents t) (unreadable : ¬ Readable quiet m) :
    t.length < m.bkts.alen ∧ ∀ n, m.alenAt quiet t.length ≠ .ok n := by
  obtain ⟨loud, longer⟩ := not_or.mp unreadable
  have within := held.within
  rw [held.acap] at longer
  have below : t.length < m.bkts.alen := by omega
  refine ⟨below, fun n read => ?_⟩
  rw [alenAt_stale held (Nat.le_refl _) below, if_neg loud] at read
  cases read

/-- The lengths the loops read: the table's, and nothing in the slots behind it. -/
def shape (m : Map K V) (t : Table K V) : List Nat :=
  t.map List.length ++ List.replicate (m.bkts.alen - t.length) 0

/-- The loops are given a turn for every entry, for every slot, and for the end. -/
theorem Represents.enough (held : m.Represents t) :
    m.turns = ((shape m t).map (· + 1)).sum + 1 := by
  have within := held.within
  unfold turns shape
  congr 2
  apply List.ext_getElem?
  intro i
  rw [List.getElem?_map, List.getElem?_map]
  by_cases front : i < t.length
  · obtain ⟨arr, cell, holds⟩ := held.buckets i _ (List.getElem?_eq_getElem front)
    rw [cell, List.getElem?_append_left (by simpa using front), List.getElem?_map,
      List.getElem?_eq_getElem front]
    simp [cellTurns, holds.alen_eq]
  · rw [List.getElem?_append_right (by simpa using front), List.getElem?_replicate,
      List.length_map]
    by_cases below : i < m.bkts.alen
    · rw [held.stale i (by omega) below, if_pos (by omega)]
      rfl
    · rw [List.getElem?_eq_none (by rw [held.allocated]; omega), if_neg (by omega)]
      rfl

theorem Represents.shaped {quiet : Bool} (held : m.Represents t) (readable : Readable quiet m) :
    Shaped quiet m (shape m t) := by
  have within := held.within
  refine ⟨by simp [shape]; omega, ?_, Nat.le_of_eq held.enough.symm⟩
  intro i n length
  by_cases front : i < t.length
  · rw [shape, List.getElem?_append_left (by simpa using front), List.getElem?_map,
      List.getElem?_eq_getElem front] at length
    cases length
    exact alenAt_live held (List.getElem?_eq_getElem front)
  · rw [shape, List.getElem?_append_right (by simpa using front), List.getElem?_replicate] at length
    simp only [List.length_map, Option.ite_none_right_eq_some, Option.some.injEq] at length
    obtain ⟨below, rfl⟩ := length
    rw [alenAt_stale held (by omega) (by omega)]
    rcases readable with kind | exact_fit
    · simp [kind]
    · rw [held.acap] at exact_fit
      omega

/-- Two maps with buckets of the same lengths are read alike. -/
theorem Represents.same_shape {quiet : Bool} {m' : Map K V} {t' : Table K V}
    (held : m.Represents t) (held' : m'.Represents t') (readable : Readable quiet m)
    (lengths : t'.map List.length = t.map List.length) (alen : m'.bkts.alen = m.bkts.alen) :
    Shaped quiet m' (shape m t) := by
  have width : t'.length = t.length := by simpa using congrArg List.length lengths
  have readable' : Readable quiet m' := by
    rcases readable with kind | fit
    · exact Or.inl kind
    · exact Or.inr (by rw [alen, fit, held.acap, held'.acap, width])
  have shaped := held'.shaped readable'
  rwa [shape, lengths, alen, width] at shaped

theorem slots_of_shape (m : Map K V) (t : Table K V) : slotsFrom 0 (shape m t) = slots t := by
  rw [shape, slotsFrom_append, slotsFrom_zeros, List.append_nil, slots]

/-- The entries at the slots of a table are its entries, in order. -/
theorem slotsFrom_entries (before after : Table K V) :
    (slotsFrom before.length (after.map List.length)).map (entryAt (before ++ after)) =
      after.flatten.map some := by
  induction after generalizing before with
  | nil => rfl
  | cons b rest ih =>
    have next := ih (before ++ [b])
    simp only [List.length_append, List.length_singleton, List.append_assoc,
      List.singleton_append] at next
    simp only [List.map_cons, slotsFrom, List.map_append, List.map_map, List.flatten_cons, next]
    congr 1
    apply List.ext_getElem?
    intro j
    by_cases inside : j < b.length
    · simp [entryAt, inside]
    · simp [inside]

theorem slots_entries (t : Table K V) : (slots t).map (entryAt t) = t.flatten.map some :=
  slotsFrom_entries [] t

theorem visit_spec (held : m.Represents t) {s : Slot} {e : Entry K V} (live : entryAt t s = some e)
    (seen : List (Entry K V)) : m.visit s seen = .ok (seen ++ [e]) := by
  simp [visit, entry_spec held live]

/-- Over a represented table the loops visit every entry once, in order. -/
theorem visits_spec {quiet : Bool} (held : m.Represents t) (readable : Readable quiet m) :
    m.visits quiet = .ok t.flatten := by
  have shaped := held.shaped readable
  have ends := foreach_invariant (fun _ => m) m.visit _
    (fun todo seen => todo.map (entryAt t) = (t.flatten.drop seen.length).map some ∧
      seen = t.flatten.take seen.length)
    (fun _ _ _ => shaped) (by
      rintro s todo seen ⟨ahead, behind⟩
      obtain ⟨e, more, next⟩ : ∃ e more, t.flatten.drop seen.length = e :: more := by
        cases rest : t.flatten.drop seen.length with
        | nil => simp [rest] at ahead
        | cons e more => exact ⟨e, more, rfl⟩
      have bound : seen.length < t.flatten.length := by
        by_contra outside
        rw [List.drop_of_length_le (by omega)] at next
        cases next
      rw [List.drop_eq_getElem_cons bound] at next ahead
      simp only [List.map_cons, List.cons.injEq] at ahead next
      refine ⟨seen ++ [e], ?_, ?_, ?_⟩
      · rw [← next.1]
        exact visit_spec held ahead.1 seen
      · rw [List.length_append, List.length_singleton]
        exact ahead.2
      · rw [List.length_append, List.length_singleton, List.take_add_one, ← behind,
          List.getElem?_eq_getElem bound, next.1]
        rfl) []
    (by rw [slots_of_shape]; exact ⟨slots_entries t, rfl⟩)
  obtain ⟨seen, ran, stop, whole⟩ := ends
  have length : t.flatten.length ≤ seen.length := by
    have nothing := congrArg List.length stop
    simp only [List.map_nil, List.length_nil, List.length_map, List.length_drop] at nothing
    omega
  rw [List.take_of_length_le length] at whole
  rw [visits, ran, whole]

/-- A dangling slot stops the loops. -/
theorem visits_stuck (held : m.Represents t) (unreadable : ¬ Readable false m)
    (seen : List (Entry K V)) : m.visits false ≠ .ok seen :=
  foreach_stuck (fun _ => m) _ (fun _ _ _ same _ => same) [] seen (unreadable_slot held unreadable)

/-! ## Freeing -/

/-- With no dangling slot every bucket is freed once. -/
theorem free_spec (held : m.Represents t) (fit : m.bkts.alen = m.bkts.acap) :
    m.free = .ok (List.range m.bkts.acap) := by
  have acap := held.acap
  obtain ⟨last, ran, _⟩ := foldlM_range (f := freeBkt)
    (fun done m' => ∀ i, done ≤ i → i < t.length → m'.bkts.cells[i]? = m.bkts.cells[i]?)
    m.bkts.alen m (fun _ _ _ => rfl) (by
      intro i m' inside same
      have bound : i < t.length := by omega
      obtain ⟨arr, cell, _⟩ := held.buckets i _ (List.getElem?_eq_getElem bound)
      rw [← same i (Nat.le_refl i) bound] at cell
      refine ⟨_, freeBkt_live cell, fun j after below => ?_⟩
      simp only
      rw [List.getElem?_set_ne (by omega), same j (by omega) below])
  rw [free, ran, ok_bind, fit]
  rfl

/-- A dangling slot is freed twice. -/
theorem free_stuck (held : m.Represents t) (longer : m.bkts.alen ≠ m.bkts.acap)
    (freed : List Nat) : m.free ≠ .ok freed := by
  have within := held.within
  have acap := held.acap
  intro ran
  obtain ⟨last, ran, _⟩ := bind_eq_ok.mp ran
  suffices stuck : ∀ (items : List Nat) (m' : Map K V), t.length ∈ items →
      m'.bkts.cells[t.length]? = some (some .freed) → items.foldlM freeBkt m' ≠ .ok last by
    exact stuck _ m (List.mem_range.mpr (by omega)) (held.stale _ (Nat.le_refl _) (by omega)) ran
  intro items
  induction items with
  | nil => intro _ member; cases member
  | cons i rest ih =>
    intro m' member dangling ran
    rw [List.foldlM_cons] at ran
    obtain ⟨next, step, ran⟩ := bind_eq_ok.mp ran
    obtain ⟨bkt, loaded, step⟩ := bind_eq_ok.mp step
    by_cases here : i = t.length
    · subst here
      simp only [Arr.get, dangling, Except.ok.injEq] at loaded
      subst loaded
      cases step
    · have later : t.length ∈ rest := by
        rcases List.mem_cons.mp member with same | later
        · exact absurd same.symm here
        · exact later
      refine ih next later ?_ ran
      cases bkt with
      | freed => cases step
      | live arr =>
        obtain ⟨bkts, wrote, step⟩ := bind_eq_ok.mp step
        cases step
        unfold Arr.put at wrote
        split at wrote <;> cases wrote
        simp only
        rw [List.getElem?_set_ne here, dangling]

end AuroraComms.Meta.Map
