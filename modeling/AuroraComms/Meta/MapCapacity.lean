import AuroraComms.Meta.MapSuccess

/-! How long a table stays in the array it was made with. Until half of its
buckets are in use, the length of the array and its capacity are the same, and the
loops over it end where they should; behind that, they take more turns, but end. -/
namespace AuroraComms.Meta.Map
open Library.Run Library.Chain

variable {K V : Type} {hash : K → Nat} {eq : K → K → Bool} {m m' : Map K V} {n : Nat}

/-- A table in an array of `n` buckets that never grew. -/
structure Unspent (n : Nat) (m : Map K V) : Prop where
  alen : m.bkts.alen = n
  acap : m.bkts.acap = n

/-- A table in an array of `n` buckets, or in the one that took its place when half of
them were in use. -/
def GrewOnce (n : Nat) (m : Map K V) : Prop :=
  m.Unspent n ∨ m.bkts.alen = 3 * n ∧ m.bkts.acap = 2 * n

/-- The array is as long and as large as it was. -/
structure SameArray (m m' : Map K V) : Prop where
  alen : m'.bkts.alen = m.bkts.alen
  acap : m'.bkts.acap = m.bkts.acap

theorem newReserve_unspent (n : Nat) : (newReserve n : Map K V).Unspent n := ⟨rfl, rfl⟩

theorem Unspent.readable (unspent : m.Unspent n) (quiet : Bool) : Readable quiet m :=
  .inr (unspent.alen.trans unspent.acap.symm)

theorem SameArray.refl (m : Map K V) : m.SameArray m := ⟨rfl, rfl⟩

theorem SameArray.trans {middle : Map K V} (first : m.SameArray middle) (second : middle.SameArray m') :
    m.SameArray m' := ⟨second.alen.trans first.alen, second.acap.trans first.acap⟩

theorem Unspent.same (unspent : m.Unspent n) (same : m.SameArray m') : m'.Unspent n :=
  ⟨same.alen.trans unspent.alen, same.acap.trans unspent.acap⟩

theorem GrewOnce.same (grew : m.GrewOnce n) (same : m.SameArray m') : m'.GrewOnce n :=
  grew.imp (·.same same) fun ⟨alen, acap⟩ => ⟨same.alen.trans alen, same.acap.trans acap⟩

theorem setBkt_sameArray {i : Nat} {arr : Arr (Entry K V)} (ran : m.setBkt i arr = .ok m') :
    m.SameArray m' := by
  obtain ⟨bkts, stored, same⟩ := bind_eq_ok.mp ran
  cases same
  unfold Arr.put at stored
  split at stored
  · cases stored
    exact ⟨rfl, rfl⟩
  · cases stored

theorem setVal_sameArray {s : Slot} {v : V} (ran : m.setVal s v = .ok m') : m.SameArray m' := by
  obtain ⟨arr, _, ran⟩ := bind_eq_ok.mp ran
  obtain ⟨e, _, ran⟩ := bind_eq_ok.mp ran
  obtain ⟨arr', _, ran⟩ := bind_eq_ok.mp ran
  exact setBkt_sameArray ran

theorem remove_sameArray {k : K} (ran : m.remove hash eq k = .ok m') : m.SameArray m' := by
  obtain ⟨arr, _, ran⟩ := bind_eq_ok.mp ran
  obtain ⟨found, _, ran⟩ := bind_eq_ok.mp ran
  cases found with
  | none =>
    cases ran
    exact .refl m
  | some j =>
    obtain ⟨shorter, _, ran⟩ := bind_eq_ok.mp ran
    obtain ⟨stored, set, same⟩ := bind_eq_ok.mp ran
    cases same
    obtain ⟨alen, acap⟩ := setBkt_sameArray set
    exact ⟨alen, acap⟩

/-! ## The set that grows -/

theorem populated_le (t : Table K V) : populated t ≤ t.flatten.length := by
  induction t with
  | nil => exact Nat.le_refl _
  | cons bucket rest ih =>
    cases bucket with
    | nil => simpa [populated] using ih
    | cons e more =>
      simp only [populated, List.countP_cons, List.isEmpty_cons, List.flatten_cons, List.length_append,
        List.length_cons] at ih ⊢
      simp only [Bool.not_false, if_true]
      omega

/-- A set leaves the array alone, or makes it twice as large and three times as long. -/
theorem set_array (sound : m.Sound hash eq) {k : K} {v : V} (ran : m.set hash eq k v = .ok m') :
    ¬ Crowded m.table ∧ m.SameArray m' ∨
      Crowded m.table ∧ m'.bkts.alen = 3 * m.bkts.acap ∧ m'.bkts.acap = 2 * m.bkts.acap := by
  obtain ⟨after, again, held, alen⟩ := set_spec sound.represents sound.valid k v
  rw [ran] at again
  cases again
  have width : m.table.length = m.bkts.acap := sound.represents.acap.symm
  have acap := held.acap
  rw [store_length, roomy] at acap
  by_cases crowded : Crowded m.table
  · rw [if_pos crowded, width] at alen
    have doubled : (rehash hash eq (m.table.length * 2) m.table).length = m.table.length * 2 := by
      simp [rehash]
    rw [if_pos crowded, doubled, width] at acap
    exact .inr ⟨crowded, by omega, by omega⟩
  · rw [if_neg crowded] at alen acap
    exact .inl ⟨crowded, alen, acap.trans width⟩

/-- Half of the buckets are not in use while there are fewer entries. -/
theorem not_crowded (sound : m.Sound hash eq) (few : m.len < m.bkts.acap / 2) : ¬ Crowded m.table := by
  have size := populated_le m.table
  rw [← sound.represents.counts.1] at size
  rw [Crowded, ← sound.represents.acap]
  omega

/-- The array grows no second time while there are fewer than `n` entries. -/
theorem set_grewOnce (sound : m.Sound hash eq) (grew : m.GrewOnce n) (few : m.len < n) {k : K} {v : V}
    (ran : m.set hash eq k v = .ok m') : m'.GrewOnce n := by
  rcases set_array sound ran with ⟨_, same⟩ | ⟨crowded, alen, acap⟩
  · exact grew.same same
  · rcases grew with unspent | ⟨_, twice⟩
    · rw [unspent.acap] at alen acap
      exact .inr ⟨alen, acap⟩
    · exact absurd crowded (not_crowded sound (by omega))

/-- The turns the loops over a table take from indices `i` and `j` on. -/
def turnsFrom (m : Map K V) (i j : Nat) : Nat := m.bkts.alen - i + (m.keysFrom i j).length + 1

/-- Every turn is one of those, and the last one ends the loops. -/
theorem turn_counted {quiet : Bool} (sound : m.Sound hash eq) (readable : Readable quiet m) (i j : Nat) :
    (m.turn quiet i j = .ok (.body ⟨i, j⟩) ∧ m.turnsFrom i j = m.turnsFrom i (j + 1) + 1) ∨
    (m.turn quiet i j = .ok .nextBkt ∧ m.turnsFrom i j = m.turnsFrom (i + 1) 0 + 1) ∨
    m.turn quiet i j = .ok .done := by
  rcases turn_keys sound readable i j with ⟨k, turned, _, todo⟩ | ⟨turned, todo⟩ | ⟨turned, _⟩
  · refine .inl ⟨turned, ?_⟩
    rw [turnsFrom, turnsFrom, todo, List.length_cons]
    omega
  · have within : i < m.bkts.alen := by
      by_contra beyond
      rw [turn, if_neg beyond] at turned
      cases turned
    refine .inr (.inl ⟨turned, ?_⟩)
    rw [turnsFrom, turnsFrom, todo]
    omega
  · exact .inr (.inr turned)

/-- A whole loop, over an array that grew at most once. -/
theorem GrewOnce.turns_le (grew : m.GrewOnce n) (sound : m.Sound hash eq) (few : m.len ≤ n) :
    m.turnsFrom 0 0 ≤ 4 * n + 1 := by
  have long : m.bkts.alen ≤ 3 * n := by
    rcases grew with unspent | ⟨alen, _⟩
    · rw [unspent.alen]
      omega
    · exact Nat.le_of_eq alen
  rw [turnsFrom, keysFrom_start, ← len_keys sound]
  omega

end AuroraComms.Meta.Map
