import AuroraComms.Meta.MapExact

/-! What a successful call of a map macro tells. Unlike the outcome theorems
these need no condition on the loops: a loop that gets through a table has met
live entries only, whatever lies behind the capacity. -/
namespace AuroraComms.Meta.Map
open Library.Run Library.Chain

variable {K V σ : Type} {hash : K → Nat} {eq : K → K → Bool} {m : Map K V}

section Lookups
variable [DecidableEq K] (exact : ∀ a b, eq a b = decide (a = b)) (sound : m.Sound hash eq)
include exact sound

/-- A lookup that succeeds has found its key. -/
theorem get_eq_ok {k : K} {s : Slot} (ran : m.get hash eq k = .ok s) :
    m.keyAt s = some k ∧ ∃ v, m.find hash eq k = some v := by
  cases found : m.find hash eq k with
  | none =>
    rw [get, getMaybeNull_absent sound found] at ran
    cases ran
  | some v =>
    obtain ⟨s', again, _, here⟩ := get_found exact sound found
    rw [ran] at again
    cases again
    exact ⟨here, v, rfl⟩

/-- A set stores its value, and leaves the number of buckets or doubles it. -/
theorem set_eq_ok {k : K} {v : V} {m' : Map K V} (ran : m.set hash eq k v = .ok m') :
    m'.Sound hash eq ∧ m'.find hash eq = Function.update (m.find hash eq) k (some v) ∧
      (m'.keyTable.length = m.keyTable.length ∨ m'.keyTable.length = m.keyTable.length * 2) := by
  obtain ⟨after, again, sound', found⟩ := set_ok exact sound k v
  obtain ⟨last, once, held, _⟩ := set_spec sound.represents sound.valid k v
  rw [ran] at again once
  cases again
  cases once
  refine ⟨sound', found, ?_⟩
  rw [keyTable, keyTable, List.length_map, List.length_map, held.table_eq, store_length, roomy]
  split
  · exact .inr (by simp [rehash])
  · exact .inl rfl

/-- A removal takes the key out, and leaves the number of buckets. -/
theorem remove_eq_ok {k : K} {m' : Map K V} (ran : m.remove hash eq k = .ok m') :
    m'.Sound hash eq ∧ m'.find hash eq = Function.update (m.find hash eq) k none ∧
      m'.keyTable.length = m.keyTable.length := by
  obtain ⟨after, again, sound', found, _, table⟩ := remove_ok exact sound k
  rw [ran] at again
  cases again
  refine ⟨sound', found, ?_⟩
  rw [keyTable, keyTable, List.length_map, List.length_map, table, erase_length]

end Lookups

/-- A turn that calls the body stands at a live entry. -/
theorem turn_body {quiet : Bool} (sound : m.Sound hash eq) {i j : Nat} {s : Slot}
    (turned : m.turn quiet i j = .ok (.body s)) : s = ⟨i, j⟩ ∧ ∃ k, m.keyAt s = some k := by
  have held := sound.represents
  by_cases live : i < m.table.length
  · have stored := List.getElem?_eq_getElem live
    rw [turn_live held stored] at turned
    split at turned
    · rename_i inside
      cases turned
      refine ⟨rfl, (m.table[i][j]).key, keyAt_eq_some.mpr ⟨m.table[i][j], ?_, rfl⟩⟩
      simp [entryAt, stored, inside]
    · cases turned
  · rw [turn] at turned
    split at turned
    · rename_i below
      rw [alenAt_stale held (Nat.le_of_not_lt live) below] at turned
      cases quiet with
      | false => cases turned
      | true => cases turned
    · cases turned

/-- What every turn of a loop preserves holds when the loop is through. -/
theorem foreach_preserves {quiet : Bool} {tbl : σ → Map K V} {body : Slot → σ → Except Fault σ}
    (inv : σ → Prop)
    (turns : ∀ i j slot s s', inv s → (tbl s).turn quiet i j = .ok (.body slot) →
      body slot s = .ok s' → inv s')
    {s s' : σ} (held : inv s) (ran : foreach quiet tbl body s = .ok s') : inv s' := by
  suffices loop : ∀ fuel i j s, inv s → foreachFrom quiet tbl body fuel i j s = .ok s' → inv s' from
    loop _ 0 0 s held ran
  intro fuel
  induction fuel with
  | zero =>
    intro i j s _ ran
    cases ran
  | succ fuel ih =>
    intro i j s held ran
    rw [foreachFrom] at ran
    obtain ⟨next, turned, ran⟩ := bind_eq_ok.mp ran
    cases next with
    | done =>
      cases ran
      exact held
    | nextBkt => exact ih _ _ s held ran
    | body slot =>
      obtain ⟨middle, stepped, ran⟩ := bind_eq_ok.mp ran
      exact ih _ _ middle (turns i j slot s middle held turned stepped) ran

/-- A loop that keeps a record beside its state runs as it would without. -/
theorem foreach_image {τ : Type} {quiet : Bool} {tbl : σ → Map K V} {body : Slot → σ → Except Fault σ}
    {noting : τ → Map K V} {body' : Slot → τ → Except Fault τ} (image : τ → σ)
    (table : ∀ t, noting t = tbl (image t))
    (turns : ∀ slot t, (body' slot t).map image = body slot (image t)) (t : τ) :
    (foreach quiet noting body' t).map image = foreach quiet tbl body (image t) := by
  suffices loop : ∀ fuel i j t, (foreachFrom quiet noting body' fuel i j t).map image =
      foreachFrom quiet tbl body fuel i j (image t) by
    rw [foreach, foreach, table]
    exact loop _ 0 0 t
  intro fuel
  induction fuel with
  | zero => exact fun _ _ _ => rfl
  | succ fuel ih =>
    intro i j t
    rw [foreachFrom, foreachFrom, table]
    cases (tbl (image t)).turn quiet i j with
    | error fault => rfl
    | ok next =>
      cases next with
      | done => rfl
      | nextBkt => exact ih (i + 1) 0 t
      | body slot =>
        have turned := turns slot t
        simp only [ok_bind]
        cases stepped : body' slot t with
        | error fault =>
          rw [stepped] at turned
          rw [← turned]
          rfl
        | ok after =>
          rw [stepped] at turned
          rw [← turned]
          exact ih i (j + 1) after

end AuroraComms.Meta.Map
