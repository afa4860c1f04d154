import AuroraComms.Meta.MapForeach

/-! Whole runs of the map macros, from `ac_map_new_reserve` on. A run refines
the partial function that remembers the last set of each key, across any number
of growths. The loops that run over the length word are exact until the first
growth and never after it. -/
namespace AuroraComms.Meta.Map
open Library.Run Library.Chain

variable {K V : Type}

inductive Op (K V : Type) where
  | set (k : K) (v : V)
  | remove (k : K)
  | lookup (k : K)
  | contains (k : K)
  deriving DecidableEq, Repr

/-- What the caller of a macro gets to see. -/
inductive Answer (V : Type) where
  | done
  | value (v : Option V)
  | found (b : Bool)
  deriving DecidableEq, Repr

section Program
variable (hash : K → Nat) (eq : K → K → Bool)

/-- `ac_map_get_maybe_null`, with its result dereferenced. -/
def lookup (m : Map K V) (k : K) : Except Fault (Option V) := do
  match ← m.getMaybeNull hash eq k with
  | none => return none
  | some s => return some (← m.val s)

def exec (m : Map K V) : Op K V → Except Fault (Map K V × Answer V)
  | .set k v => do return (← m.set hash eq k v, .done)
  | .remove k => do return (← m.remove hash eq k, .done)
  | .lookup k => do return (m, .value (← m.lookup hash eq k))
  | .contains k => do return (m, .found (← m.contains hash eq k))

def run (m : Map K V) : List (Op K V) → Except Fault (Map K V × List (Answer V))
  | [] => return (m, [])
  | op :: rest => do
    let (m, answer) ← exec hash eq m op
    let (m, answers) ← run m rest
    return (m, answer :: answers)

/-- The operation takes the growing branch of `ac_map_set`. -/
def GrowsAt (m : Map K V) : Op K V → Prop
  | .set _ _ => m.popBkts = m.bkts.acap / 2
  | _ => False

/-- Some set of the run grows the map. -/
def Grew (m : Map K V) : List (Op K V) → Prop
  | [] => False
  | op :: rest => GrowsAt m op ∨
    match exec hash eq m op with
    | .ok (next, _) => Grew next rest
    | .error _ => False

instance decidableGrowsAt (m : Map K V) : (op : Op K V) → Decidable (GrowsAt m op)
  | .set _ _ => inferInstanceAs (Decidable (_ = _))
  | .remove _ | .lookup _ | .contains _ => inferInstanceAs (Decidable False)

instance decidableGrew (m : Map K V) : (ops : List (Op K V)) → Decidable (Grew hash eq m ops)
  | [] => inferInstanceAs (Decidable False)
  | op :: rest =>
    have : Decidable (match exec hash eq m op with
        | .ok (next, _) => Grew hash eq next rest
        | .error _ => False) :=
      match exec hash eq m op with
      | .ok (next, _) => decidableGrew next rest
      | .error _ => inferInstanceAs (Decidable False)
    inferInstanceAs (Decidable (_ ∨ _))

end Program

/-! ## The partial function -/

/-- The value of the last set of a key equal to `k` since its last removal,
the operations given newest first. -/
def lastSet (eq : K → K → Bool) (k : K) : List (Op K V) → Option V
  | [] => none
  | .set key v :: older => if eq key k then some v else lastSet eq k older
  | .remove key :: older => if eq key k then none else lastSet eq k older
  | .lookup _ :: older => lastSet eq k older
  | .contains _ :: older => lastSet eq k older

/-- What an operation should answer after the given ones. -/
def answer (eq : K → K → Bool) (older : List (Op K V)) : Op K V → Answer V
  | .set _ _ => .done
  | .remove _ => .done
  | .lookup k => .value (lastSet eq k older)
  | .contains k => .found (lastSet eq k older).isSome

def answersFrom (eq : K → K → Bool) (older : List (Op K V)) : List (Op K V) → List (Answer V)
  | [] => []
  | op :: rest => answer eq older op :: answersFrom eq (op :: older) rest

/-! ## One step, then the run -/

variable {hash : K → Nat} {eq : K → K → Bool} {m : Map K V} {older : List (Op K V)}

/-- The map stands for the operations performed so far. -/
structure Models (hash : K → Nat) (eq : K → K → Bool) (m : Map K V) (older : List (Op K V)) :
    Prop where
  represents : m.Represents m.table
  valid : Valid hash eq m.table
  agrees : ∀ k, find? hash eq m.table k = lastSet eq k older

theorem newReserve_models {n : Nat} (positive : 0 < n) :
    Models hash eq (newReserve n : Map K V) [] := by
  have held := newReserve_represents (K := K) (V := V) n
  rw [← held.table_eq] at held
  refine ⟨held, ?_, fun k => ?_⟩ <;> rw [(newReserve_represents n).table_eq]
  · exact valid_empty positive
  · exact find?_empty k

theorem lookup_models (models : Models hash eq m older) (k : K) :
    m.lookup hash eq k = .ok (lastSet eq k older) := by
  rw [lookup, getMaybeNull_spec models.represents models.valid, ok_bind, ← models.agrees]
  cases slot : slotOf hash eq m.table k with
  | none => rw [(slotOf_eq_none models.valid).mp slot]; rfl
  | some s =>
    obtain ⟨e, live, _, answer, _⟩ := slotOf_eq_some models.valid slot
    simp [val_spec models.represents live, answer]

theorem set_models (laws : KeyLaws hash eq) (models : Models hash eq m older) (k : K) (v : V) :
    ∃ m', m.set hash eq k v = .ok m' ∧ Models hash eq m' (.set k v :: older) ∧
      (m'.bkts.alen = m'.bkts.acap ↔ m.bkts.alen = m.bkts.acap ∧ ¬ GrowsAt m (.set k v)) := by
  obtain ⟨m', ran, held, alen⟩ := set_spec models.represents models.valid k v
  obtain ⟨valid, _, answers⟩ := roomy_keeps laws models.valid
  refine ⟨m', ran, ⟨?_, ?_, ?_⟩, ?_⟩
  · rw [held.table_eq]; exact held
  · rw [held.table_eq]; exact valid_store valid k v
  · intro probe
    rw [held.table_eq, find?_store laws valid, answers, models.agrees]
    rfl
  · have inhabited := models.valid.inhabited
    have test : GrowsAt m (.set k v) ↔ Crowded m.table := by
      rw [GrowsAt, models.represents.counts.2, models.represents.acap, Crowded]
    rw [test, alen, held.acap, store_length, models.represents.acap, roomy]
    by_cases crowded : Crowded m.table
    · rw [if_pos crowded, if_pos crowded, rehash, storeAll_length, List.length_replicate]
      simp only [crowded, not_true, and_false, iff_false]
      omega
    · simp [crowded]

theorem remove_models (laws : KeyLaws hash eq) (models : Models hash eq m older) (k : K) :
    ∃ m', m.remove hash eq k = .ok m' ∧ Models hash eq m' (.remove k :: older) ∧
      (m'.bkts.alen = m'.bkts.acap ↔ m.bkts.alen = m.bkts.acap) ∧
      (lastSet eq k older = none → m' = m) := by
  obtain ⟨m', ran, held, alen, unchanged⟩ := remove_spec models.represents models.valid k
  refine ⟨m', ran, ⟨?_, ?_, ?_⟩, ?_, ?_⟩
  · rw [held.table_eq]; exact held
  · rw [held.table_eq]; exact valid_erase models.valid k
  · intro probe
    rw [held.table_eq, find?_erase laws models.valid, models.agrees]
    rfl
  · rw [alen, held.acap, erase_length, models.represents.acap]
  · rw [← models.agrees k]; exact unchanged

/-- Every operation succeeds, answers for the operations before it, and spoils
the length word exactly when it grows the map. -/
theorem exec_models (laws : KeyLaws hash eq) (models : Models hash eq m older) (op : Op K V) :
    ∃ m', exec hash eq m op = .ok (m', answer eq older op) ∧ Models hash eq m' (op :: older) ∧
      (m'.bkts.alen = m'.bkts.acap ↔ m.bkts.alen = m.bkts.acap ∧ ¬ GrowsAt m op) := by
  cases op with
  | set k v =>
    obtain ⟨m', ran, next, fit⟩ := set_models laws models k v
    exact ⟨m', by simp [exec, ran, answer], next, fit⟩
  | remove k =>
    obtain ⟨m', ran, next, fit, _⟩ := remove_models laws models k
    exact ⟨m', by simp [exec, ran, answer], next, by simpa [GrowsAt] using fit⟩
  | lookup k =>
    exact ⟨m, by simp [exec, lookup_models models, answer],
      ⟨models.represents, models.valid, models.agrees⟩, by simp [GrowsAt]⟩
  | contains k =>
    have found := contains_spec models.represents models.valid k
    exact ⟨m, by simp [exec, found, answer, models.agrees],
      ⟨models.represents, models.valid, models.agrees⟩, by simp [GrowsAt]⟩

theorem run_models (laws : KeyLaws hash eq) (ops : List (Op K V)) (models : Models hash eq m older) :
    ∃ m', run hash eq m ops = .ok (m', answersFrom eq older ops) ∧
      Models hash eq m' (ops.reverse ++ older) ∧
      (m'.bkts.alen = m'.bkts.acap ↔ m.bkts.alen = m.bkts.acap ∧ ¬ Grew hash eq m ops) := by
  induction ops generalizing m older with
  | nil => exact ⟨m, rfl, models, by simp [Grew]⟩
  | cons op rest ih =>
    obtain ⟨next, ran, nextModels, nextFit⟩ := exec_models laws models op
    obtain ⟨last, others, lastModels, lastFit⟩ := ih nextModels
    refine ⟨last, by simp [run, ran, others, answersFrom], by simpa using lastModels, ?_⟩
    have later : Grew hash eq m (op :: rest) ↔ GrowsAt m op ∨ Grew hash eq next rest := by
      rw [Grew, ran]
    rw [lastFit, nextFit, later, not_or, and_assoc]

/-! ## The map is a finite partial function -/

/-- From an empty map of any capacity, any operations succeed and are answered
as the last set of each key demands; keys never repeat, they are counted, and
an operation on one key is invisible at every other. -/
theorem map_refines_partial_function (laws : KeyLaws hash eq) (n : Nat) (positive : 0 < n)
    (ops : List (Op K V)) :
    ∃ m answers, run hash eq (newReserve n) ops = .ok (m, answers) ∧
      answers = answersFrom eq [] ops ∧
      (∀ k, m.lookup hash eq k = .ok (lastSet eq k ops.reverse)) ∧
      (∀ b ∈ m.table, Distinct eq b) ∧
      (∃ keys : List K, keys.Pairwise (fun a b => eq a b = false) ∧
        (∀ k, (lastSet eq k ops.reverse).isSome = true ↔ ∃ key ∈ keys, eq key k = true) ∧
        m.len = keys.length) ∧
      (∀ k v probe, eq k probe = false →
        ∃ m', m.set hash eq k v = .ok m' ∧ m'.lookup hash eq probe = m.lookup hash eq probe) ∧
      (∀ k probe, eq k probe = false →
        ∃ m', m.remove hash eq k = .ok m' ∧ m'.lookup hash eq probe = m.lookup hash eq probe) ∧
      (∀ k, lastSet eq k ops.reverse = none → m.remove hash eq k = .ok m) := by
  obtain ⟨m, ran, models, _⟩ := run_models laws ops (newReserve_models positive)
  rw [List.append_nil] at models
  refine ⟨m, _, ran, rfl, lookup_models models, models.valid.distinct,
    ⟨m.table.flatten.map Entry.key, ?_, ?_, ?_⟩, ?_, ?_, ?_⟩
  · exact List.pairwise_map.mpr (models.valid.flatten_distinct laws)
  · intro k
    rw [← models.agrees, Option.isSome_iff_exists]
    simp only [models.valid.find?_eq_some laws, List.mem_map]
    constructor
    · rintro ⟨_, e, member, same, rfl⟩
      exact ⟨e.key, ⟨e, member, rfl⟩, same⟩
    · rintro ⟨_, ⟨e, member, rfl⟩, same⟩
      exact ⟨e.val, e, member, same, rfl⟩
  · rw [models.represents.counts.1, List.length_map]
  · intro k v probe different
    obtain ⟨m', stored, next, _⟩ := set_models laws models k v
    refine ⟨m', stored, ?_⟩
    rw [lookup_models next, lookup_models models, lastSet, different]
    rfl
  · intro k probe different
    obtain ⟨m', removed, next, _, _⟩ := remove_models laws models k
    refine ⟨m', removed, ?_⟩
    rw [lookup_models next, lookup_models models, lastSet, different]
    rfl
  · intro k absent
    obtain ⟨m', removed, _, _, unchanged⟩ := remove_models laws models k
    rw [removed, unchanged absent]

/-- Two colliding keys through the growth that the second of them triggers, and a
replacement behind it. -/
theorem map_refines_partial_function_collision :
    ∃ m answers, run (fun k : Nat => k % 4) (fun a b => decide (a = b)) (newReserve 2)
        [.set 1 10, .set 5 50, .set 1 11, .lookup 5, .remove 5, .lookup 1, .contains 5] =
          .ok (m, answers) ∧
      answers = [.done, .done, .done, .value (some 50), .done, .value (some 11), .found false] := by
  obtain ⟨m, answers, ran, exact_answers, _⟩ :=
    map_refines_partial_function (KeyLaws.of_decide fun k : Nat => k % 4) 2 (by decide)
      [.set 1 10, .set 5 50, .set 1 11, .lookup 5, .remove 5, .lookup 1, .contains 5]
  exact ⟨m, answers, ran, exact_answers.trans (by decide)⟩

/-! ## The loops over the length word -/

/-- `ac_map_foreach` and `ac_map_free` run over the buckets keys are hashed
into: each live entry is visited once, each bucket is freed once, and no read
or free goes through a dangling pointer. -/
structure LoopsExact (eq : K → K → Bool) (m : Map K V) (older : List (Op K V)) : Prop where
  range : m.bkts.alen = m.bkts.acap
  visited : ∃ seen, m.visits false = .ok seen ∧ Distinct eq seen ∧
    ∀ k v, lastSet eq k older = some v ↔ ∃ e ∈ seen, eq e.key k = true ∧ e.val = v
  freed : m.free = .ok (List.range m.bkts.acap)

theorem loops_exact_iff_fit (laws : KeyLaws hash eq) (models : Models hash eq m older) :
    LoopsExact eq m older ↔ m.bkts.alen = m.bkts.acap := by
  constructor
  · exact LoopsExact.range
  · intro fit
    refine ⟨fit, ⟨m.table.flatten, visits_spec models.represents (Or.inr fit),
      models.valid.flatten_distinct laws, fun k v => ?_⟩, free_spec models.represents fit⟩
    rw [← models.agrees, models.valid.find?_eq_some laws]

/-- The loops are exact in the state a run reaches exactly when no set of the
run grew the map. -/
theorem loops_exact_iff_never_grew (laws : KeyLaws hash eq) (n : Nat) (positive : 0 < n)
    (ops : List (Op K V)) :
    ∃ m answers, run hash eq (newReserve n) ops = .ok (m, answers) ∧
      (LoopsExact eq m ops.reverse ↔ ¬ Grew hash eq (newReserve n) ops) := by
  obtain ⟨m, ran, models, fit⟩ := run_models laws ops (newReserve_models positive)
  rw [List.append_nil] at models
  refine ⟨m, _, ran, ?_⟩
  rw [loops_exact_iff_fit laws models, fit]
  simp [newReserve]

/-- From the first growth of a run on both loops run into a freed bucket, and not
before. -/
theorem loops_fault_iff_grew (laws : KeyLaws hash eq) (n : Nat) (positive : 0 < n) (ops : List (Op K V)) :
    ∃ m answers, run hash eq (newReserve n) ops = .ok (m, answers) ∧
      ((∀ seen, m.visits false ≠ .ok seen) ↔ Grew hash eq (newReserve n) ops) ∧
      ((∀ freed, m.free ≠ .ok freed) ↔ Grew hash eq (newReserve n) ops) := by
  obtain ⟨m, ran, models, fit⟩ := run_models laws ops (newReserve_models positive)
  rw [List.append_nil] at models
  have grew : m.bkts.alen ≠ m.bkts.acap ↔ Grew hash eq (newReserve n) ops := by
    rw [Ne, fit]
    simp [newReserve]
  refine ⟨m, _, ran, ?_, ?_⟩
  · rw [← grew]
    constructor
    · exact fun stuck whole => stuck _ (visits_spec models.represents (Or.inr whole))
    · intro longer seen
      exact visits_stuck models.represents (by simpa [Readable] using longer) seen
  · rw [← grew]
    constructor
    · exact fun stuck whole => stuck _ (free_spec models.represents whole)
    · exact free_stuck models.represents

private def grownRun : Except Fault (Map Nat Nat × List (Answer Nat)) :=
  run id (fun a b => decide (a = b)) (newReserve 2) [.set 0 0, .set 1 1]

/-- Two buckets, two keys: the second set grows the map, and from then on both
loops run past the four live buckets into the two freed ones. -/
theorem loops_overrun_after_growth :
    ∃ m answers, run id (fun a b => decide (a = b)) (newReserve 2)
        [.set (0 : Nat) (0 : Nat), .set 1 1] = .ok (m, answers) ∧
      m.bkts.acap = 4 ∧ m.bkts.alen = 6 ∧ m.visits false = .error .useAfterFree ∧
      m.free = .error .doubleFree ∧
      ¬ LoopsExact (fun a b => decide (a = b)) m [.set (0 : Nat) (0 : Nat), .set 1 1].reverse := by
  have overrun : ∃ m answers, grownRun = .ok (m, answers) ∧ m.bkts.acap = 4 ∧ m.bkts.alen = 6 ∧
      m.visits false = .error .useAfterFree ∧ m.free = .error .doubleFree :=
    ⟨_, _, rfl, by decide, by decide, by decide, by decide⟩
  obtain ⟨m, answers, ran, acap, alen, visited, freed⟩ := overrun
  refine ⟨m, answers, ran, acap, alen, visited, freed, fun exact_loops => ?_⟩
  have range := exact_loops.range
  omega

/-- Before the first growth the loops are exact. -/
theorem loops_exact_without_growth :
    ∃ m answers, run id (fun a b => decide (a = b)) (newReserve 4)
        [.set (0 : Nat) (7 : Nat), .set 4 8, .remove 0] = .ok (m, answers) ∧
      LoopsExact (fun a b => decide (a = b)) m [.set (0 : Nat) (7 : Nat), .set 4 8, .remove 0].reverse := by
  obtain ⟨m, answers, ran, loops⟩ := loops_exact_iff_never_grew
    (KeyLaws.of_decide (id : Nat → Nat)) 4 (by decide) [.set (0 : Nat) (7 : Nat), .set 4 8, .remove 0]
  exact ⟨m, answers, ran, loops.mpr (by decide)⟩

end AuroraComms.Meta.Map
