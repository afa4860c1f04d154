import AuroraComms.Library.Chain
import Mathlib.Algebra.Order.BigOperators.Group.Finset
import Mathlib.Algebra.BigOperators.Ring.Nat
import Mathlib.Data.Finset.Card
import Mathlib.Data.List.GetD

/-! How far re-hashing spreads a chained table. A bucket whose entries are
re-hashed into twice the width falls apart into at most two buckets, and a
bucket with a single entry does not fall apart at all. -/
namespace AuroraComms.Library.Chain

variable {K V : Type} {hash : K → Nat} {eq : K → K → Bool} {table : Table K V}

/-- The indices of the buckets that hold something. -/
def occupied (table : Table K V) : Finset Nat :=
  (Finset.range table.length).filter fun i => table.getD i [] ≠ []

theorem mem_occupied {i : Nat} : i ∈ occupied table ↔ ∃ e, e ∈ table.getD i [] := by
  rw [occupied, Finset.mem_filter, Finset.mem_range]
  constructor
  · rintro ⟨_, filled⟩
    exact List.exists_mem_of_ne_nil _ filled
  · rintro ⟨e, member⟩
    refine ⟨?_, List.ne_nil_of_mem member⟩
    apply Decidable.byContradiction
    intro beyond
    rw [List.getD_eq_default _ _ (by omega)] at member
    cases member

theorem occupied_card (table : Table K V) : (occupied table).card = populated table := by
  induction table using List.reverseRecOn with
  | nil => rfl
  | append_singleton table bucket ih =>
    have front : ∀ i ∈ Finset.range table.length,
        ((table ++ [bucket]).getD i [] ≠ [] ↔ table.getD i [] ≠ []) := by
      intro i inside
      rw [List.getD_append _ _ _ _ (Finset.mem_range.mp inside)]
    have last : (table ++ [bucket]).getD table.length [] = bucket := by simp
    rw [occupied, List.length_append, List.length_singleton, Finset.range_add_one,
      Finset.filter_insert, Finset.filter_congr front, last, populated, List.countP_append,
      List.countP_singleton]
    change _ = populated table + _
    change (if _ then insert _ (occupied table) else occupied table).card = _
    have fresh : table.length ∉ occupied table := by simp [occupied]
    cases bucket with
    | nil => simpa using ih
    | cons e rest =>
      rw [if_pos (List.cons_ne_nil e rest), Finset.card_insert_of_notMem fresh, ih]
      rfl

/-- Storing brings in no key but the one stored. -/
theorem mem_storeAll {entries : Bucket K V} {i : Nat} {e : Entry K V}
    (member : e ∈ (storeAll hash eq table entries).getD i []) :
    (∃ stored ∈ entries, e.key = stored.key) ∨ ∃ old ∈ table.getD i [], e.key = old.key := by
  induction entries generalizing table with
  | nil => exact .inr ⟨e, member, rfl⟩
  | cons first rest ih =>
    obtain ⟨stored, listed, same⟩ | ⟨old, held, same⟩ := ih member
    · exact .inl ⟨stored, List.mem_cons_of_mem first listed, same⟩
    · unfold store at held
      rw [List.getD_eq_getElem?_getD, List.getElem?_modify] at held
      cases bucket : table[i]? with
      | none => simp [bucket] at held
      | some b =>
        rw [bucket] at held
        by_cases here : home hash table first.key = i
        · simp only [here, ↓reduceIte, Option.map_eq_map, Option.map_some, Option.getD_some] at held
          obtain kept | ⟨older, inside, kept⟩ := mem_put held
          · exact .inl ⟨first, List.mem_cons_self, same.trans kept⟩
          · refine .inr ⟨older, ?_, same.trans kept⟩
            simpa [List.getD_eq_getElem?_getD, bucket] using inside
        · simp only [here, ↓reduceIte, Option.map_eq_map, Option.map_id_fun', id_eq,
            Option.getD_some] at held
          exact .inr ⟨old, by simpa [List.getD_eq_getElem?_getD, bucket] using held, same⟩

/-- A table filled by stores is laid out correctly, whatever the keys. -/
theorem valid_storeAll (valid : Valid hash eq table) (entries : Bucket K V) :
    Valid hash eq (storeAll hash eq table entries) := by
  induction entries generalizing table with
  | nil => exact valid
  | cons first rest ih => exact ih (valid_store valid first.key first.val)

theorem Valid.home_of_mem (valid : Valid hash eq table) {i : Nat} {e : Entry K V}
    (member : e ∈ table.getD i []) : hash e.key % table.length = i := by
  rw [List.getD_eq_getElem?_getD] at member
  cases bucket : table[i]? with
  | none => simp [bucket] at member
  | some b => exact valid.placed i b bucket e (by simpa [bucket] using member)

/-- The buckets of a table of the given width that the entries of bucket `i` go to. -/
def targets (hash : K → Nat) (width : Nat) (table : Table K V) (i : Nat) : Finset Nat :=
  ((table.getD i []).map fun e => hash e.key % width).toFinset

theorem targets_card_le (width i : Nat) :
    (targets hash width table i).card ≤ (table.getD i []).length := by
  have bound := List.toFinset_card_le ((table.getD i []).map fun e => hash e.key % width)
  rwa [List.length_map] at bound

/-- Doubling the width splits a bucket in two at most. -/
theorem targets_split (valid : Valid hash eq table) (i : Nat) :
    (targets hash (table.length * 2) table i).card ≤ 2 := by
  have pair : targets hash (table.length * 2) table i ⊆ {i, i + table.length} := by
    intro j member
    simp only [targets, List.mem_toFinset, List.mem_map] at member
    obtain ⟨e, held, rfl⟩ := member
    have was := valid.home_of_mem held
    have split := Nat.mod_mul (x := hash e.key) (a := table.length) (b := 2)
    rw [was] at split
    rw [split, Finset.mem_insert, Finset.mem_singleton]
    obtain low | high := Nat.mod_two_eq_zero_or_one (hash e.key / table.length)
    · exact .inl (by rw [low, Nat.mul_zero, Nat.add_zero])
    · exact .inr (by rw [high, Nat.mul_one])
  exact (Finset.card_le_card pair).trans Finset.card_le_two

/-- The occupied buckets after a re-hash are targets of occupied old ones. -/
theorem occupied_rehash (width : Nat) (positive : 0 < width) :
    occupied (rehash hash eq width table) ⊆ (occupied table).biUnion (targets hash width table) := by
  intro j member
  obtain ⟨e, held⟩ := mem_occupied.mp member
  have valid : Valid hash eq (rehash hash eq width table) := valid_storeAll (valid_empty positive) _
  have placed := valid.home_of_mem held
  rw [rehash, storeAll_length, List.length_replicate] at placed
  obtain ⟨stored, listed, same⟩ | ⟨old, empty, _⟩ := mem_storeAll held
  · obtain ⟨bucket, inTable, inBucket⟩ := List.mem_flatten.mp listed
    obtain ⟨i, inside, rfl⟩ := List.mem_iff_getElem.mp inTable
    have here : stored ∈ table.getD i [] := by rwa [List.getD_eq_getElem _ _ inside]
    rw [Finset.mem_biUnion]
    refine ⟨i, mem_occupied.mpr ⟨stored, here⟩, ?_⟩
    rw [targets, List.mem_toFinset, List.mem_map]
    exact ⟨stored, here, by rw [← same, placed]⟩
  · rw [List.getD_eq_getElem?_getD, List.getElem?_replicate] at empty
    split at empty <;> simp at empty

/-- If some bucket holds a single entry, doubling the width leaves fewer than
twice as many buckets populated. -/
theorem populated_rehash_lt (valid : Valid hash eq table) {bucket : Bucket K V}
    (stored : bucket ∈ table) (single : bucket.length = 1) :
    populated (rehash hash eq (table.length * 2) table) < 2 * populated table := by
  obtain ⟨i, inside, rfl⟩ := List.mem_iff_getElem.mp stored
  have inhabited := valid.inhabited
  have here : table.getD i [] = table[i] := List.getD_eq_getElem _ _ inside
  have listed : i ∈ occupied table := by
    obtain ⟨e, member⟩ := List.exists_mem_of_length_pos (show 0 < table[i].length by omega)
    exact mem_occupied.mpr ⟨e, by rwa [here]⟩
  have whole : (targets hash (table.length * 2) table i).card < 2 := by
    have bound : (targets hash (table.length * 2) table i).card ≤ (table.getD i []).length :=
      targets_card_le (table.length * 2) i
    rw [here] at bound
    omega
  rw [← occupied_card, ← occupied_card]
  calc (occupied (rehash hash eq (table.length * 2) table)).card
      ≤ ((occupied table).biUnion (targets hash (table.length * 2) table)).card :=
        Finset.card_le_card (occupied_rehash _ (by omega))
    _ ≤ ∑ j ∈ occupied table, (targets hash (table.length * 2) table j).card :=
        Finset.card_biUnion_le
    _ < ∑ _j ∈ occupied table, 2 :=
        Finset.sum_lt_sum (fun j _ => targets_split valid j) ⟨i, listed, whole⟩
    _ = 2 * (occupied table).card := by rw [Finset.sum_const_nat fun _ _ => rfl, Nat.mul_comm]

/-! ## The threshold -/

/-- No more than half of the buckets are populated, and where it is half of
them, one holds a single entry (or there is none). -/
structure Settled (table : Table K V) : Prop where
  half : populated table ≤ table.length / 2
  single : populated table = table.length / 2 → populated table = 0 ∨ ∃ bucket ∈ table, bucket.length = 1

theorem settled_empty (width : Nat) : Settled (List.replicate width ([] : Bucket K V)) where
  half := by rw [populated_empty]; exact Nat.zero_le _
  single _ := .inl (populated_empty width)

/-- A store into a table below the threshold may reach it, through a bucket of
its own. -/
theorem settled_store (valid : Valid hash eq table) (room : populated table < table.length / 2)
    (k : K) (v : V) : Settled (store hash eq table k v) := by
  obtain ⟨bucket, stored, _, _⟩ := valid.home_bucket k
  have crowd := populated_modify (put eq k v) _ bucket stored
  have filled : put eq k v bucket ≠ [] := by
    cases bucket with
    | nil => simp [put]
    | cons e rest => unfold put; split <;> simp
  rw [if_neg filled] at crowd
  change populated (store hash eq table k v) + _ = _ at crowd
  by_cases empty : bucket = []
  · rw [if_pos empty] at crowd
    refine ⟨by rw [store_length]; omega, fun _ => .inr ⟨[⟨k, v⟩], ?_, rfl⟩⟩
    apply List.mem_of_getElem? (i := home hash table k)
    simp [store, stored, empty, put]
  · rw [if_neg empty] at crowd
    refine ⟨by rw [store_length]; omega, fun full => ?_⟩
    rw [store_length] at full
    omega

/-- A removal from a table at the threshold leaves the bucket with a single
entry alone, or falls below the threshold. -/
theorem settled_erase (valid : Valid hash eq table) (settled : Settled table) (k : K) :
    Settled (erase hash eq table k) := by
  obtain ⟨bucket, stored, _, _⟩ := valid.home_bucket k
  have crowd := populated_modify (drop eq k) _ bucket stored
  change populated (erase hash eq table k) + _ = _ at crowd
  have half := settled.half
  have fewer : bucket = [] → drop eq k bucket = [] := by
    rintro rfl
    rfl
  have below : populated (erase hash eq table k) ≤ populated table := by
    by_cases empty : bucket = []
    · rw [if_pos empty, if_pos (fewer empty)] at crowd
      omega
    · rw [if_neg empty] at crowd
      split at crowd <;> omega
  refine ⟨by rw [erase_length]; omega, fun full => ?_⟩
  rw [erase_length] at full
  have same : populated (erase hash eq table k) = populated table := by omega
  obtain none | ⟨kept, member, single⟩ := settled.single (by omega)
  · exact .inl (by omega)
  · refine .inr ⟨kept, ?_, single⟩
    obtain ⟨i, inside, rfl⟩ := List.mem_iff_getElem.mp member
    apply List.mem_of_getElem? (i := i)
    rw [erase, List.getElem?_modify, List.getElem?_eq_getElem inside]
    by_cases here : home hash table k = i
    · -- Its only entry stays: without it the bucket would be empty.
      subst here
      rw [List.getElem?_eq_getElem inside, Option.some.injEq] at stored
      subst stored
      have nonempty : table[home hash table k] ≠ [] := List.ne_nil_of_length_pos (by omega)
      have stays : drop eq k table[home hash table k] ≠ [] := by
        intro gone
        rw [if_neg nonempty, if_pos gone] at crowd
        omega
      have length := List.length_eraseP_le (l := table[home hash table k]) (p := fun e => eq e.key k)
      have whole : drop eq k table[home hash table k] = table[home hash table k] := by
        apply List.Sublist.eq_of_length List.eraseP_sublist
        have positive := List.length_pos_iff.mpr stays
        unfold drop at positive
        omega
      simp only [if_pos, Option.map_eq_map, Option.map_some, whole]
    · simp [here]

end AuroraComms.Library.Chain
