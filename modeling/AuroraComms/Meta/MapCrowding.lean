import AuroraComms.Library.Spread
import AuroraComms.Meta.MapRun

/-! The trigger of the growth in `ac_map_set` is an equality. It is met in time
on every run: a set that fills the last bucket the map may fill leaves a single
entry there, so the next growth spreads the old entries over fewer than half of
the new buckets. None of this depends on the hash function or on the key
comparison. -/
namespace AuroraComms.Meta.Map
open Library.Run Library.Chain

variable {K V : Type} {hash : K → Nat} {eq : K → K → Bool} {m : Map K V}

/-- The map is laid out correctly and the threshold has not been passed. -/
structure Steady (hash : K → Nat) (eq : K → K → Bool) (m : Map K V) : Prop where
  represents : m.Represents m.table
  valid : Valid hash eq m.table
  settled : Settled m.table

private theorem steady_of (t : Table K V) (held : m.Represents t) (valid : Valid hash eq t)
    (settled : Settled t) : Steady hash eq m := by
  have same := held.table_eq
  subst same
  exact ⟨held, valid, settled⟩

theorem newReserve_steady {n : Nat} (positive : 0 < n) :
    Steady hash eq (newReserve n : Map K V) := by
  apply steady_of _ (newReserve_represents n)
  · exact valid_empty positive
  · exact settled_empty n

/-- There is room for one more bucket in the table a set stores into. -/
theorem roomy_has_room (valid : Valid hash eq t) (settled : Settled t) :
    Valid hash eq (roomy hash eq t) ∧
      populated (roomy hash eq t) < (roomy hash eq t).length / 2 := by
  have inhabited := valid.inhabited
  unfold roomy
  split
  · next crowded =>
    unfold Crowded at crowded
    refine ⟨valid_storeAll (valid_empty (by omega)) _, ?_⟩
    have width : (rehash hash eq (t.length * 2) t).length = t.length * 2 := by simp [rehash]
    rw [width]
    obtain none | ⟨bucket, stored, single⟩ := settled.single crowded
    · -- One bucket and no entry: there is nothing to spread.
      have entries : t.flatten = [] := by
        rw [List.flatten_eq_nil_iff]
        intro bucket stored
        have empty := List.countP_eq_zero.mp none bucket stored
        simpa using empty
      rw [rehash, entries]
      change populated (List.replicate (t.length * 2) []) < _
      rw [populated_empty]
      omega
    · have spread := populated_rehash_lt valid stored single
      omega
  · next calm =>
    refine ⟨valid, ?_⟩
    have half := settled.half
    unfold Crowded at calm
    omega

theorem set_steady (steady : Steady hash eq m) (k : K) (v : V) :
    ∃ m', m.set hash eq k v = .ok m' ∧ Steady hash eq m' := by
  obtain ⟨m', ran, held, _⟩ := set_spec steady.represents steady.valid k v
  obtain ⟨valid, room⟩ := roomy_has_room steady.valid steady.settled
  refine ⟨m', ran, steady_of _ held ?_ ?_⟩
  · exact valid_store valid k v
  · exact settled_store valid room k v

theorem remove_steady (steady : Steady hash eq m) (k : K) :
    ∃ m', m.remove hash eq k = .ok m' ∧ Steady hash eq m' := by
  obtain ⟨m', ran, held, _⟩ := remove_spec steady.represents steady.valid k
  refine ⟨m', ran, steady_of _ held ?_ ?_⟩
  · exact valid_erase steady.valid k
  · exact settled_erase steady.valid steady.settled k

theorem lookup_total (steady : Steady hash eq m) (k : K) : ∃ found, m.lookup hash eq k = .ok found := by
  rw [lookup, getMaybeNull_spec steady.represents steady.valid, ok_bind]
  cases slot : slotOf hash eq m.table k with
  | none => exact ⟨none, rfl⟩
  | some s =>
    obtain ⟨e, live, _⟩ := slotOf_eq_some steady.valid slot
    exact ⟨some e.val, by simp [val_spec steady.represents live]⟩

theorem exec_steady (steady : Steady hash eq m) (op : Op K V) :
    ∃ m' answer, exec hash eq m op = .ok (m', answer) ∧ Steady hash eq m' := by
  cases op with
  | set k v =>
    obtain ⟨m', ran, kept⟩ := set_steady steady k v
    exact ⟨m', .done, by simp [exec, ran], kept⟩
  | remove k =>
    obtain ⟨m', ran, kept⟩ := remove_steady steady k
    exact ⟨m', .done, by simp [exec, ran], kept⟩
  | lookup k =>
    obtain ⟨found, ran⟩ := lookup_total steady k
    exact ⟨m, .value found, by simp [exec, ran], steady⟩
  | contains k =>
    have ran := contains_spec steady.represents steady.valid k
    exact ⟨m, _, by simp only [exec, ran, ok_bind]; rfl, steady⟩

theorem run_steady (ops : List (Op K V)) (steady : Steady hash eq m) :
    ∃ m' answers, run hash eq m ops = .ok (m', answers) ∧ Steady hash eq m' := by
  induction ops generalizing m with
  | nil => exact ⟨m, [], rfl, steady⟩
  | cons op rest ih =>
    obtain ⟨next, answer, ran, kept⟩ := exec_steady steady op
    obtain ⟨last, answers, others, final⟩ := ih kept
    exact ⟨last, answer :: answers, by simp [run, ran, others], final⟩

/-- The growing branch leaves room for the bucket the set is about to fill. -/
theorem grow_makes_room (steady : Steady hash eq m) (full : m.popBkts = m.bkts.acap / 2) :
    ∃ m', m.grow hash eq = .ok m' ∧ m'.popBkts = populated m'.table ∧
      m'.table.length = m'.bkts.acap ∧ m'.bkts.acap = m.bkts.acap * 2 ∧
      m'.popBkts < m'.bkts.acap / 2 := by
  have held := steady.represents
  obtain ⟨m', grew, grown, _⟩ := grow_spec hash eq held steady.valid.inhabited
  have crowded : Crowded m.table := by
    rw [Crowded, ← held.counts.2, ← held.acap, full]
  have room := (roomy_has_room steady.valid steady.settled).2
  rw [roomy, if_pos crowded] at room
  refine ⟨m', grew, ?_, ?_, ?_, ?_⟩
  · rw [grown.table_eq, grown.counts.2]
  · rw [grown.table_eq, grown.acap]
  · rw [grown.acap, held.acap]
    simp [rehash]
  · rw [grown.counts.2, grown.acap]
    exact room

/-- A removal that finds its key takes it from a populated bucket. -/
theorem removal_within (steady : Steady hash eq m) {k : K} {arr : Arr (Entry K V)} {j : Nat}
    (loaded : m.bkt (hash k % m.bkts.acap) = .ok arr) (found : scan eq arr k 0 arr.alen = .ok (some j)) :
    0 < m.popBkts ∧ 0 < m.len := by
  have held := steady.represents
  obtain ⟨bucket, stored, _⟩ := steady.valid.home_bucket k
  obtain ⟨same, again, holds⟩ := held.buckets.bkt stored
  rw [home, ← held.acap, loaded] at again
  cases again
  rw [scan_spec k holds] at found
  obtain ⟨e, cell, _⟩ := position_eq_some (Except.ok.inj found)
  have member := List.mem_of_getElem? cell
  have listed := List.mem_of_getElem? stored
  rw [held.counts.1, held.counts.2]
  constructor
  · apply List.countP_pos_iff.mpr
    refine ⟨bucket, listed, ?_⟩
    cases bucket with
    | nil => cases member
    | cons first rest => rfl
  · exact List.length_pos_of_mem (List.mem_flatten.mpr ⟨bucket, listed, member⟩)

/-- In every state a run from an empty map reaches, `pop_bkts` counts the
non-empty buckets and at most half of them are populated. So the growth a set
may start is never missed and ends below the new threshold, a removal never
takes a counter below zero, and keys are never reduced modulo zero. -/
theorem growth_never_missed (hash : K → Nat) (eq : K → K → Bool) (n : Nat) (positive : 0 < n)
    (ops : List (Op K V)) :
    ∃ m answers, run hash eq (newReserve n) ops = .ok (m, answers) ∧
      m.table.length = m.bkts.acap ∧
      m.popBkts = populated m.table ∧
      m.popBkts ≤ m.bkts.acap / 2 ∧
      0 < m.bkts.acap ∧
      (m.popBkts = m.bkts.acap / 2 → ∃ m', m.grow hash eq = .ok m' ∧
        m'.popBkts = populated m'.table ∧ m'.table.length = m'.bkts.acap ∧
        m'.bkts.acap = m.bkts.acap * 2 ∧ m'.popBkts < m'.bkts.acap / 2) ∧
      (∀ k arr j, m.bkt (hash k % m.bkts.acap) = .ok arr → scan eq arr k 0 arr.alen = .ok (some j) →
        0 < m.popBkts ∧ 0 < m.len) := by
  obtain ⟨m, answers, ran, steady⟩ := run_steady ops
    (newReserve_steady positive : Steady hash eq (newReserve n : Map K V))
  have held := steady.represents
  refine ⟨m, answers, ran, held.acap.symm, held.counts.2, ?_, ?_, ?_, ?_⟩
  · rw [held.counts.2, held.acap]
    exact steady.settled.half
  · rw [held.acap]
    exact steady.valid.inhabited
  · exact grow_makes_room steady
  · intro k arr j
    exact removal_within steady

/-- One key fills the one bucket of three that may be filled; the next one collides with
it and grows the table to six, where they lie apart. -/
theorem growth_in_time :
    ∃ m answers, run (fun k : Nat => k) (fun a b => decide (a = b)) (newReserve 3)
        [.set 1 10, .remove 1, .set 1 11, .set 4 40] = .ok (m, answers) ∧
      m.popBkts = populated m.table ∧ m.popBkts ≤ m.bkts.acap / 2 ∧ m.bkts.acap = 6 ∧ m.popBkts = 2 := by
  obtain ⟨m, answers, ran, _, counted, half, _⟩ := growth_never_missed (fun k : Nat => k)
    (fun a b => decide (a = b)) 3 (by decide) [.set 1 10, .remove 1, .set 1 11, .set 4 40]
  have grown : (run (fun k : Nat => k) (fun a b => decide (a = b)) (newReserve 3)
      [.set 1 10, .remove 1, .set 1 11, .set 4 40]).map (fun result => (result.1.bkts.acap, result.1.popBkts)) =
      .ok (6, 2) := by
    decide
  rw [ran] at grown
  obtain ⟨acap, popBkts⟩ := Prod.mk.inj (Except.ok.inj grown)
  exact ⟨m, answers, ran, counted, half, acap, popBkts⟩

end AuroraComms.Meta.Map
