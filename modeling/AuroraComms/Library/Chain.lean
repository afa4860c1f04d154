import Mathlib.Data.List.Basic
import Mathlib.Data.List.Pairwise

/-! Separate chaining as a partial function. A table is a list of buckets, a
key lives in the bucket of its hash modulo the number of buckets, and equality
of keys is any boolean equivalence the hash respects. Nothing here mentions a
memory layout; a concrete table is related to this one by its buckets. -/
namespace AuroraComms.Library.Chain

structure Entry (K V : Type) where
  key : K
  val : V
  deriving DecidableEq, Repr

/-- Keys are compared by an equivalence, and equal keys hash alike. -/
structure KeyLaws {K : Type} (hash : K → Nat) (eq : K → K → Bool) : Prop where
  refl : ∀ a, eq a a = true
  symm : ∀ a b, eq a b = true → eq b a = true
  trans : ∀ a b c, eq a b = true → eq b c = true → eq a c = true
  hash_eq : ∀ a b, eq a b = true → hash a = hash b

variable {K V : Type} {hash : K → Nat} {eq : K → K → Bool}

/-- Real equality is lawful for every hash. -/
theorem KeyLaws.of_decide [DecidableEq K] (hash : K → Nat) :
    KeyLaws hash (fun a b => decide (a = b)) where
  refl a := by simp
  symm a b same := by simpa using (of_decide_eq_true same).symm
  trans a b c left right := by simpa using (of_decide_eq_true left).trans (of_decide_eq_true right)
  hash_eq a b same := congrArg hash (of_decide_eq_true same)

theorem KeyLaws.comm (laws : KeyLaws hash eq) (a b : K) : eq a b = eq b a := by
  cases forward : eq a b with
  | true => exact (laws.symm a b forward).symm
  | false =>
    cases backward : eq b a with
    | true => simp [laws.symm b a backward] at forward
    | false => rfl

/-- Equal keys are interchangeable on the left of a comparison. -/
theorem KeyLaws.congr_left (laws : KeyLaws hash eq) {a b : K} (same : eq a b = true) (c : K) :
    eq a c = eq b c := by
  cases left : eq a c with
  | true => exact (laws.trans b a c (laws.symm a b same) left).symm
  | false =>
    cases right : eq b c with
    | true => simp [laws.trans a b c same right] at left
    | false => rfl

/-! ## One bucket -/

abbrev Bucket (K V : Type) := List (Entry K V)

def findVal (eq : K → K → Bool) (k : K) (bucket : Bucket K V) : Option V :=
  (bucket.find? (fun e => eq e.key k)).map Entry.val

/-- Replace the value of the first matching entry, or append a new one. -/
def put (eq : K → K → Bool) (k : K) (v : V) : Bucket K V → Bucket K V
  | [] => [⟨k, v⟩]
  | e :: rest => if eq e.key k then { e with val := v } :: rest else e :: put eq k v rest

def drop (eq : K → K → Bool) (k : K) (bucket : Bucket K V) : Bucket K V :=
  bucket.eraseP (fun e => eq e.key k)

/-- No two entries of the list hold equal keys. -/
def Distinct (eq : K → K → Bool) (bucket : Bucket K V) : Prop :=
  bucket.Pairwise (fun a b => eq a.key b.key = false)

@[simp] theorem findVal_nil (k : K) : findVal eq k ([] : Bucket K V) = none := rfl

theorem findVal_cons (k : K) (e : Entry K V) (rest : Bucket K V) :
    findVal eq k (e :: rest) = if eq e.key k then some e.val else findVal eq k rest := by
  unfold findVal
  rw [List.find?_cons]
  split <;> simp [*]

theorem findVal_eq_none {k : K} {bucket : Bucket K V} :
    findVal eq k bucket = none ↔ ∀ e ∈ bucket, eq e.key k = false := by
  simp [findVal]

/-- In a list of distinct keys the entry found is the only one that matches. -/
theorem findVal_eq_some (laws : KeyLaws hash eq) {k : K} {v : V} {bucket : Bucket K V}
    (distinct : Distinct eq bucket) :
    findVal eq k bucket = some v ↔ ∃ e ∈ bucket, eq e.key k = true ∧ e.val = v := by
  induction bucket with
  | nil => simp
  | cons e rest ih =>
    obtain ⟨apart, below⟩ := List.pairwise_cons.mp distinct
    rw [findVal_cons]
    by_cases same : eq e.key k = true
    · rw [if_pos same]
      constructor
      · intro found
        exact ⟨e, by simp, same, Option.some.inj found⟩
      · rintro ⟨other, member, matches_k, rfl⟩
        rcases List.mem_cons.mp member with rfl | member
        · rfl
        · have clash := laws.trans _ _ _ same (laws.symm _ _ matches_k)
          rw [apart other member] at clash
          cases clash
    · rw [if_neg same, ih below]
      constructor
      · rintro ⟨other, member, found⟩
        exact ⟨other, List.mem_cons_of_mem e member, found⟩
      · rintro ⟨other, member, found⟩
        rcases List.mem_cons.mp member with rfl | member
        · exact absurd found.1 same
        · exact ⟨other, member, found⟩

theorem findVal_put (laws : KeyLaws hash eq) (k probe : K) (v : V) (bucket : Bucket K V) :
    findVal eq probe (put eq k v bucket) =
      if eq k probe then some v else findVal eq probe bucket := by
  induction bucket with
  | nil => simp [put, findVal_cons]
  | cons e rest ih =>
    by_cases same : eq e.key k = true
    · simp only [put, if_pos same, findVal_cons, laws.congr_left same probe]
      split <;> rfl
    · simp only [put, if_neg same, findVal_cons, ih]
      by_cases probed : eq e.key probe = true
      · have other : ¬ eq k probe = true := by
          intro reached
          exact same (laws.trans _ _ _ probed (laws.symm _ _ reached))
        simp [probed, other]
      · simp [probed]

theorem findVal_drop (laws : KeyLaws hash eq) (k probe : K) {bucket : Bucket K V}
    (distinct : Distinct eq bucket) :
    findVal eq probe (drop eq k bucket) =
      if eq k probe then none else findVal eq probe bucket := by
  induction bucket with
  | nil => simp [drop]
  | cons e rest ih =>
    obtain ⟨apart, below⟩ := List.pairwise_cons.mp distinct
    by_cases same : eq e.key k = true
    · have dropped : drop eq k (e :: rest) = rest := by
        simp [drop, same]
      rw [dropped, findVal_cons, laws.congr_left same probe]
      by_cases probed : eq k probe = true
      · simp only [probed, ↓reduceIte]
        apply findVal_eq_none.mpr
        intro other member
        have apartFrom := apart other member
        rw [laws.congr_left (laws.trans _ _ _ same probed) other.key, laws.comm] at apartFrom
        exact apartFrom
      · simp [probed]
    · have kept : drop eq k (e :: rest) = e :: drop eq k rest := by
        simp [drop, same]
      rw [kept, findVal_cons, findVal_cons, ih below]
      by_cases probed : eq e.key probe = true
      · have other : ¬ eq k probe = true := by
          intro reached
          exact same (laws.trans _ _ _ probed (laws.symm _ _ reached))
        simp [probed, other]
      · simp [probed]

/-- Dropping an absent key leaves the bucket as it was. -/
theorem drop_absent {k : K} {bucket : Bucket K V} (absent : findVal eq k bucket = none) :
    drop eq k bucket = bucket := by
  apply List.eraseP_of_forall_not
  intro e member
  simp [findVal_eq_none.mp absent e member]

/-- Every key of the updated bucket was there already or is the one put. -/
theorem mem_put {k : K} {v : V} {bucket : Bucket K V} {e : Entry K V}
    (member : e ∈ put eq k v bucket) : e.key = k ∨ ∃ old ∈ bucket, e.key = old.key := by
  induction bucket with
  | nil =>
    simp only [put, List.mem_singleton] at member
    exact Or.inl (congrArg Entry.key member)
  | cons first rest ih =>
    simp only [put] at member
    split at member
    · rcases List.mem_cons.mp member with rfl | member
      · exact Or.inr ⟨first, by simp, rfl⟩
      · exact Or.inr ⟨e, by simp [member], rfl⟩
    · rcases List.mem_cons.mp member with rfl | member
      · exact Or.inr ⟨e, by simp, rfl⟩
      · rcases ih member with new | ⟨old, held, same⟩
        · exact Or.inl new
        · exact Or.inr ⟨old, by simp [held], same⟩

/-- A key with no entry is appended. -/
theorem put_absent {k : K} {v : V} {bucket : Bucket K V} (absent : findVal eq k bucket = none) :
    put eq k v bucket = bucket ++ [⟨k, v⟩] := by
  induction bucket with
  | nil => rfl
  | cons e rest ih =>
    have apart := findVal_eq_none.mp absent
    have below : findVal eq k rest = none := findVal_eq_none.mpr fun e member =>
      apart e (List.mem_cons_of_mem _ member)
    simp [put, apart e, ih below]

theorem put_length (k : K) (v : V) (bucket : Bucket K V) :
    (put eq k v bucket).length =
      if (findVal eq k bucket).isSome then bucket.length else bucket.length + 1 := by
  induction bucket with
  | nil => simp [put]
  | cons e rest ih =>
    by_cases same : eq e.key k = true
    · simp [put, same, findVal_cons]
    · simp only [put, same, findVal_cons, Bool.false_eq_true, ↓reduceIte, List.length_cons, ih]
      split <;> rfl

theorem drop_length (k : K) (bucket : Bucket K V) :
    (drop eq k bucket).length =
      if (findVal eq k bucket).isSome then bucket.length - 1 else bucket.length := by
  cases found : findVal eq k bucket with
  | none => simp [drop_absent found]
  | some v =>
    have hit : ∃ e ∈ bucket, eq e.key k = true := by
      by_contra none_match
      have absent : findVal eq k bucket = none := findVal_eq_none.mpr fun e member => by
        simpa using fun same => none_match ⟨e, member, same⟩
      simp [absent] at found
    obtain ⟨e, member, same⟩ := hit
    simpa [drop] using List.length_eraseP_of_mem member same

theorem distinct_put (k : K) (v : V) {bucket : Bucket K V}
    (distinct : Distinct eq bucket) : Distinct eq (put eq k v bucket) := by
  induction bucket with
  | nil => simp [put, Distinct]
  | cons e rest ih =>
    obtain ⟨apart, below⟩ := List.pairwise_cons.mp distinct
    by_cases same : eq e.key k = true
    · simp only [put, if_pos same]
      exact List.pairwise_cons.mpr ⟨apart, below⟩
    · simp only [put, if_neg same]
      refine List.pairwise_cons.mpr ⟨?_, ih below⟩
      intro other member
      rcases mem_put member with new | ⟨old, held, sameKey⟩
      · rw [new]; simpa using same
      · rw [sameKey]; exact apart old held

theorem distinct_drop (k : K) {bucket : Bucket K V} (distinct : Distinct eq bucket) :
    Distinct eq (drop eq k bucket) :=
  List.Pairwise.sublist List.eraseP_sublist distinct

/-! ### Positions -/

/-- Index of the first entry with this key. -/
def position (eq : K → K → Bool) (k : K) (bucket : Bucket K V) : Option Nat :=
  bucket.findIdx? (fun e => eq e.key k)

theorem position_eq_none {k : K} {bucket : Bucket K V} :
    position eq k bucket = none ↔ findVal eq k bucket = none := by
  simp [position, findVal, List.findIdx?_eq_none_iff]

theorem position_cons (k : K) (e : Entry K V) (rest : Bucket K V) :
    position eq k (e :: rest) =
      if eq e.key k then some 0 else (position eq k rest).map (· + 1) := by
  simp [position, List.findIdx?_cons]

/-- At its position a key is found, replaced and dropped. -/
theorem position_eq_some {k : K} {j : Nat} {bucket : Bucket K V}
    (found : position eq k bucket = some j) :
    ∃ e, bucket[j]? = some e ∧ eq e.key k = true ∧ findVal eq k bucket = some e.val ∧
      (∀ v, put eq k v bucket = bucket.set j { e with val := v }) ∧
      drop eq k bucket = bucket.take j ++ bucket.drop (j + 1) := by
  induction bucket generalizing j with
  | nil => simp [position] at found
  | cons first rest ih =>
    rw [position_cons] at found
    by_cases same : eq first.key k = true
    · rw [if_pos same] at found
      cases found
      exact ⟨first, rfl, same, by simp [findVal_cons, same], fun v => by simp [put, same],
        by simp [drop, same]⟩
    · rw [if_neg same] at found
      cases below : position eq k rest with
      | none => simp [below] at found
      | some i =>
        simp only [below, Option.map_some, Option.some.injEq] at found
        subst found
        obtain ⟨e, held, matches_k, value, replaced, dropped⟩ := ih below
        refine ⟨e, by simpa using held, matches_k, by simp [findVal_cons, same, value],
          fun v => by simp [put, same, replaced v], ?_⟩
        have kept : drop eq k (first :: rest) = first :: drop eq k rest := by
          simp [drop, same]
        rw [kept, dropped]
        rfl

/-! ## The table -/

abbrev Table (K V : Type) := List (Bucket K V)

/-- The bucket a key belongs to. -/
def home (hash : K → Nat) (table : Table K V) (k : K) : Nat := hash k % table.length

def find? (hash : K → Nat) (eq : K → K → Bool) (table : Table K V) (k : K) : Option V :=
  findVal eq k (table.getD (home hash table k) [])

def store (hash : K → Nat) (eq : K → K → Bool) (table : Table K V) (k : K) (v : V) : Table K V :=
  table.modify (home hash table k) (put eq k v)

def erase (hash : K → Nat) (eq : K → K → Bool) (table : Table K V) (k : K) : Table K V :=
  table.modify (home hash table k) (drop eq k)

def storeAll (hash : K → Nat) (eq : K → K → Bool) (table : Table K V) (entries : Bucket K V) :
    Table K V :=
  entries.foldl (fun t e => store hash eq t e.key e.val) table

/-- Move every entry, bucket by bucket, into a table of another width. -/
def rehash (hash : K → Nat) (eq : K → K → Bool) (width : Nat) (table : Table K V) : Table K V :=
  storeAll hash eq (List.replicate width []) table.flatten

/-- Every entry is in its home bucket and no bucket repeats a key. -/
structure Valid (hash : K → Nat) (eq : K → K → Bool) (table : Table K V) : Prop where
  inhabited : 0 < table.length
  placed : ∀ i bucket, table[i]? = some bucket → ∀ e ∈ bucket, hash e.key % table.length = i
  distinct : ∀ bucket ∈ table, Distinct eq bucket

variable {table : Table K V} {width : Nat}

@[simp] theorem store_length (k : K) (v : V) : (store hash eq table k v).length = table.length := by
  simp [store]

@[simp] theorem erase_length (k : K) : (erase hash eq table k).length = table.length := by
  simp [erase]

theorem Valid.home_lt (valid : Valid hash eq table) (k : K) : home hash table k < table.length :=
  Nat.mod_lt _ valid.inhabited

/-- The bucket stored at a key's home. -/
theorem Valid.home_bucket (valid : Valid hash eq table) (k : K) :
    ∃ bucket, table[home hash table k]? = some bucket ∧ Distinct eq bucket ∧
      find? hash eq table k = findVal eq k bucket := by
  have bound := valid.home_lt k
  refine ⟨table[home hash table k], List.getElem?_eq_getElem bound,
    valid.distinct _ (List.getElem_mem bound), ?_⟩
  simp [find?, List.getElem?_eq_getElem bound]

theorem valid_empty (positive : 0 < width) :
    Valid hash eq (List.replicate width ([] : Bucket K V)) where
  inhabited := by simpa using positive
  placed i bucket held e member := by
    have empty := List.eq_of_mem_replicate (List.mem_of_getElem? held)
    simp [empty] at member
  distinct bucket member := by
    rw [List.eq_of_mem_replicate member]
    exact List.Pairwise.nil

@[simp] theorem find?_empty (k : K) :
    find? hash eq (List.replicate width ([] : Bucket K V)) k = none := by
  simp only [find?, List.getD_eq_getElem?_getD, List.getElem?_replicate]
  split <;> simp

theorem valid_store (valid : Valid hash eq table) (k : K) (v : V) :
    Valid hash eq (store hash eq table k v) where
  inhabited := by simpa using valid.inhabited
  placed i bucket held e member := by
    rw [store_length]
    rw [store, List.getElem?_modify] at held
    by_cases here : home hash table k = i
    · obtain ⟨old, stored, _, _⟩ := valid.home_bucket k
      rw [← here, stored] at held
      simp only [↓reduceIte, Option.map_eq_map, Option.map_some, Option.some.injEq] at held
      subst held
      rcases mem_put member with new | ⟨other, was, same⟩
      · rw [new]; exact here
      · rw [same, ← here]; exact valid.placed _ _ stored other was
    · simp only [here, ↓reduceIte, Option.map_eq_map, Option.map_id_fun', id_eq] at held
      exact valid.placed i bucket held e member
  distinct bucket member := by
    obtain ⟨i, _, rfl⟩ := List.getElem_of_mem member
    rw [store_length] at *
    rename_i bound
    simp only [store, List.getElem_modify]
    split
    · exact distinct_put k v (valid.distinct _ (List.getElem_mem bound))
    · exact valid.distinct _ (List.getElem_mem bound)

theorem valid_erase (valid : Valid hash eq table) (k : K) :
    Valid hash eq (erase hash eq table k) where
  inhabited := by simpa using valid.inhabited
  placed i bucket held e member := by
    rw [erase_length]
    rw [erase, List.getElem?_modify] at held
    by_cases here : home hash table k = i
    · obtain ⟨old, stored, _, _⟩ := valid.home_bucket k
      rw [← here, stored] at held
      simp only [↓reduceIte, Option.map_eq_map, Option.map_some, Option.some.injEq] at held
      subst held
      rw [← here]
      exact valid.placed _ _ stored e (List.mem_of_mem_eraseP member)
    · simp only [here, ↓reduceIte, Option.map_eq_map, Option.map_id_fun', id_eq] at held
      exact valid.placed i bucket held e member
  distinct bucket member := by
    obtain ⟨i, _, rfl⟩ := List.getElem_of_mem member
    rw [erase_length] at *
    rename_i bound
    simp only [erase, List.getElem_modify]
    split
    · exact distinct_drop k (valid.distinct _ (List.getElem_mem bound))
    · exact valid.distinct _ (List.getElem_mem bound)

/-- Only keys of the modified bucket can be answered differently. -/
private theorem find?_modify (valid : Valid hash eq table) (i : Nat) (probe : K)
    (f : Bucket K V → Bucket K V) :
    find? hash eq (table.modify i f) probe =
      if i = home hash table probe then findVal eq probe (f (table.getD i []))
      else find? hash eq table probe := by
  obtain ⟨bucket, stored, _, _⟩ := valid.home_bucket probe
  have sameHome : home hash (table.modify i f) probe = home hash table probe := by
    simp [home]
  rw [find?, sameHome, List.getD_eq_getElem?_getD, List.getElem?_modify, stored]
  by_cases here : i = home hash table probe
  · simp [here, stored]
  · simp [here, find?, stored]

/-- Equal keys share their home, so distinct homes separate keys. -/
theorem home_congr (laws : KeyLaws hash eq) {a b : K} (same : eq a b = true) :
    home hash table a = home hash table b :=
  congrArg (· % table.length) (laws.hash_eq a b same)

/-- An insertion answers for its own key and for no other. -/
theorem find?_store (laws : KeyLaws hash eq) (valid : Valid hash eq table) (k probe : K) (v : V) :
    find? hash eq (store hash eq table k v) probe =
      if eq k probe then some v else find? hash eq table probe := by
  rw [store, find?_modify valid, findVal_put laws]
  by_cases here : home hash table k = home hash table probe
  · simp [here, find?]
  · have different : ¬ eq k probe = true := fun same => here (home_congr laws same)
    simp [here, different]

/-- An erasure clears its own key and no other. -/
theorem find?_erase (laws : KeyLaws hash eq) (valid : Valid hash eq table) (k probe : K) :
    find? hash eq (erase hash eq table k) probe =
      if eq k probe then none else find? hash eq table probe := by
  obtain ⟨bucket, stored, distinct, _⟩ := valid.home_bucket k
  have atHome : table.getD (home hash table k) [] = bucket := by
    simp [List.getD_eq_getElem?_getD, stored]
  rw [erase, find?_modify valid, atHome, findVal_drop laws k probe distinct]
  by_cases here : home hash table k = home hash table probe
  · simp [← here, find?, stored]
  · have different : ¬ eq k probe = true := fun same => here (home_congr laws same)
    simp [here, different]

/-- Erasing an absent key is the identity. -/
theorem erase_absent (valid : Valid hash eq table) {k : K}
    (absent : find? hash eq table k = none) : erase hash eq table k = table := by
  obtain ⟨bucket, stored, _, found⟩ := valid.home_bucket k
  rw [found] at absent
  apply List.ext_getElem?
  intro i
  rw [erase, List.getElem?_modify]
  split
  · rename_i here
    subst here
    simp [stored, drop_absent absent]
  · simp

/-! ## Every entry once -/

/-- Keys in different buckets hash apart, so the whole table is distinct. -/
theorem Valid.flatten_distinct (laws : KeyLaws hash eq) (valid : Valid hash eq table) :
    Distinct eq table.flatten := by
  refine List.pairwise_flatten.mpr ⟨valid.distinct, ?_⟩
  refine List.pairwise_iff_getElem.mpr ?_
  intro i j iBound jBound below a inLeft b inRight
  have left := valid.placed i _ (List.getElem?_eq_getElem iBound) a inLeft
  have right := valid.placed j _ (List.getElem?_eq_getElem jBound) b inRight
  cases same : eq a.key b.key with
  | false => rfl
  | true =>
    have together := laws.hash_eq _ _ same
    rw [together] at left
    omega

/-- Looking in the home bucket is looking through the whole table. -/
theorem Valid.find?_eq_flatten (laws : KeyLaws hash eq) (valid : Valid hash eq table) (k : K) :
    find? hash eq table k = findVal eq k table.flatten := by
  obtain ⟨bucket, stored, distinct, found⟩ := valid.home_bucket k
  have whole := valid.flatten_distinct laws
  rw [found]
  apply Option.ext
  intro v
  rw [findVal_eq_some laws distinct, findVal_eq_some laws whole]
  constructor
  · rintro ⟨e, member, matches_k⟩
    exact ⟨e, List.mem_flatten.mpr ⟨bucket, List.mem_of_getElem? stored, member⟩, matches_k⟩
  · rintro ⟨e, member, same, value⟩
    obtain ⟨other, held, inside⟩ := List.mem_flatten.mp member
    obtain ⟨i, bound, rfl⟩ := List.getElem_of_mem held
    have placed := valid.placed i _ (List.getElem?_eq_getElem bound) e inside
    have sameHome : home hash table k = i := by
      rw [← placed, laws.hash_eq _ _ same]; rfl
    rw [sameHome, List.getElem?_eq_getElem bound] at stored
    exact ⟨e, Option.some.inj stored ▸ inside, same, value⟩

theorem Valid.find?_eq_some (laws : KeyLaws hash eq) (valid : Valid hash eq table) {k : K} {v : V} :
    find? hash eq table k = some v ↔ ∃ e ∈ table.flatten, eq e.key k = true ∧ e.val = v := by
  rw [valid.find?_eq_flatten laws, findVal_eq_some laws (valid.flatten_distinct laws)]

theorem Valid.find?_eq_none (laws : KeyLaws hash eq) (valid : Valid hash eq table) {k : K} :
    find? hash eq table k = none ↔ ∀ e ∈ table.flatten, eq e.key k = false := by
  rw [valid.find?_eq_flatten laws, findVal_eq_none]

theorem flatten_modify_length (f : Bucket K V → Bucket K V) (i : Nat) (bucket : Bucket K V)
    (stored : table[i]? = some bucket) :
    (table.modify i f).flatten.length + bucket.length =
      table.flatten.length + (f bucket).length := by
  induction table generalizing i with
  | nil => simp at stored
  | cons first rest ih =>
    cases i with
    | zero =>
      simp only [List.getElem?_cons_zero, Option.some.injEq] at stored
      subst stored
      simp only [List.modify_zero_cons, List.flatten_cons, List.length_append]
      omega
    | succ i =>
      have below := ih i (by simpa using stored)
      simp only [List.modify_succ_cons, List.flatten_cons, List.length_append]
      omega

/-- Number of buckets that hold something. -/
def populated (table : Table K V) : Nat := table.countP (fun bucket => !bucket.isEmpty)

@[simp] theorem populated_empty (width : Nat) :
    populated (List.replicate width ([] : Bucket K V)) = 0 := by
  simp [populated, List.countP_replicate]

theorem populated_modify (f : Bucket K V → Bucket K V) (i : Nat) (bucket : Bucket K V)
    (stored : table[i]? = some bucket) :
    populated (table.modify i f) + (if bucket = [] then 0 else 1) =
      populated table + (if f bucket = [] then 0 else 1) := by
  induction table generalizing i with
  | nil => simp at stored
  | cons first rest ih =>
    cases i with
    | zero =>
      simp only [List.getElem?_cons_zero, Option.some.injEq] at stored
      subst stored
      simp only [populated, List.modify_zero_cons, List.countP_cons, Bool.not_eq_eq_eq_not,
        Bool.not_true, List.isEmpty_eq_false_iff, ne_eq, ite_not]
      omega
    | succ i =>
      have below := ih i (by simpa using stored)
      simp only [populated, List.modify_succ_cons, List.countP_cons] at below ⊢
      omega

theorem store_size (valid : Valid hash eq table) (k : K) (v : V) :
    (store hash eq table k v).flatten.length =
      if (find? hash eq table k).isSome then table.flatten.length
      else table.flatten.length + 1 := by
  obtain ⟨bucket, stored, _, found⟩ := valid.home_bucket k
  have counted := flatten_modify_length (put eq k v) _ bucket stored
  rw [put_length] at counted
  rw [found]
  unfold store
  by_cases present : (findVal eq k bucket).isSome
  · rw [if_pos present] at counted ⊢
    omega
  · rw [if_neg present] at counted ⊢
    omega

/-! ## Rehashing -/

@[simp] theorem storeAll_length (entries : Bucket K V) :
    (storeAll hash eq table entries).length = table.length := by
  induction entries generalizing table with
  | nil => rfl
  | cons e rest ih =>
    rw [storeAll, List.foldl_cons, ← storeAll, ih, store_length]

theorem storeAll_append (left right : Bucket K V) :
    storeAll hash eq table (left ++ right) =
      storeAll hash eq (storeAll hash eq table left) right := by
  simp [storeAll, List.foldl_append]

theorem storeAll_singleton (e : Entry K V) :
    storeAll hash eq table [e] = store hash eq table e.key e.val := rfl

private theorem storeAll_keeps (laws : KeyLaws hash eq) (entries : Bucket K V)
    (valid : Valid hash eq table) (distinct : Distinct eq entries)
    (fresh : ∀ e ∈ entries, find? hash eq table e.key = none) :
    Valid hash eq (storeAll hash eq table entries) ∧
      (storeAll hash eq table entries).flatten.length = table.flatten.length + entries.length ∧
      ∀ k, find? hash eq (storeAll hash eq table entries) k =
        (findVal eq k entries).or (find? hash eq table k) := by
  induction entries generalizing table with
  | nil => exact ⟨valid, rfl, fun k => by simp [storeAll]⟩
  | cons e rest ih =>
    obtain ⟨apart, below⟩ := List.pairwise_cons.mp distinct
    have stillFresh : ∀ other ∈ rest, find? hash eq (store hash eq table e.key e.val) other.key = none := by
      intro other member
      rw [find?_store laws valid, apart other member]
      simpa using fresh other (List.mem_cons_of_mem e member)
    obtain ⟨nextValid, size, answers⟩ := ih (valid_store valid e.key e.val) below stillFresh
    refine ⟨nextValid, ?_, ?_⟩
    · have grown := store_size valid e.key e.val
      rw [fresh e (by simp)] at grown
      simp only [Option.isSome_none, Bool.false_eq_true, ↓reduceIte] at grown
      simp only [storeAll, List.foldl_cons, List.length_cons] at size ⊢
      omega
    · intro k
      have answer := answers k
      simp only [storeAll, List.foldl_cons] at answer ⊢
      rw [answer, find?_store laws valid, findVal_cons]
      by_cases same : eq e.key k = true
      · have absent : findVal eq k rest = none := findVal_eq_none.mpr fun other member => by
          rw [laws.comm, ← laws.congr_left same]
          exact apart other member
        simp [same, absent]
      · simp [same]

/-- Rehashing keeps every answer, the number of entries and the invariant. -/
theorem rehash_keeps (laws : KeyLaws hash eq) (valid : Valid hash eq table) (positive : 0 < width) :
    Valid hash eq (rehash hash eq width table) ∧
      (rehash hash eq width table).length = width ∧
      (rehash hash eq width table).flatten.length = table.flatten.length ∧
      ∀ k, find? hash eq (rehash hash eq width table) k = find? hash eq table k := by
  obtain ⟨nextValid, size, answers⟩ := storeAll_keeps laws table.flatten
    (valid_empty positive) (valid.flatten_distinct laws) (fun e _ => find?_empty e.key)
  refine ⟨nextValid, by simp [rehash], by simpa [rehash] using size, fun k => ?_⟩
  rw [rehash, answers k, find?_empty, Option.or_none, valid.find?_eq_flatten laws]

end AuroraComms.Library.Chain
