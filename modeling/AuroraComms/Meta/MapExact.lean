import AuroraComms.Meta.MapForeach
import Mathlib.Data.List.Nodup
import Mathlib.Logic.Function.Basic

/-! The map macros for keys compared by equality, as their callers see them: a
sound map is a partial function from keys to values, laid out over slots. Every
theorem here gives the outcome of one macro; no caller opens a bucket. -/
namespace AuroraComms.Meta.Map
open Library.Run Library.Chain

variable {K V σ : Type} {hash : K → Nat} {eq : K → K → Bool} {m m' : Map K V} {t : Table K V}

/-- The map is laid out correctly over its own table. -/
structure Sound (hash : K → Nat) (eq : K → K → Bool) (m : Map K V) : Prop where
  represents : m.Represents m.table
  valid : Valid hash eq m.table

/-- The partial function the map stands for. -/
def find (hash : K → Nat) (eq : K → K → Bool) (m : Map K V) (k : K) : Option V :=
  find? hash eq m.table k

/-- The keys, bucket by bucket. -/
def keyTable (m : Map K V) : List (List K) := m.table.map (·.map Entry.key)

/-- The keys in the order of the loops. -/
def keys (m : Map K V) : List K := m.keyTable.flatten

/-- The key stored at a slot. -/
def keyAt (m : Map K V) (s : Slot) : Option K := m.keyTable[s.bkt]?.bind (·[s.idx]?)

theorem sound_of_represents (held : m.Represents t) (valid : Valid hash eq t) :
    m.Sound hash eq ∧ m.table = t := by
  have same := held.table_eq
  exact ⟨⟨by rw [same]; exact held, by rw [same]; exact valid⟩, same⟩

theorem newReserve_sound {n : Nat} (positive : 0 < n) :
    (newReserve n : Map K V).Sound hash eq ∧
      ∀ k, (newReserve n : Map K V).find hash eq k = none := by
  have held := newReserve_represents (K := K) (V := V) n
  have empty : Valid hash eq (List.replicate n ([] : Bucket K V)) := valid_empty positive
  have sound := sound_of_represents held empty
  refine ⟨sound.1, fun k => ?_⟩
  rw [find, sound.2]
  exact find?_empty k

/-! ## Slots -/

section Slots
variable (laws : KeyLaws hash eq) (valid : Valid hash eq t) {s : Slot} {e : Entry K V}
include laws valid

/-- An entry of a valid table is found where it stands. -/
theorem slotOf_entryAt (live : entryAt t s = some e) : slotOf hash eq t e.key = some s := by
  obtain ⟨b, stored, cell⟩ := Option.bind_eq_some_iff.mp live
  have placed := valid.placed _ _ stored e (List.mem_of_getElem? cell)
  have distinct := valid.distinct b (List.mem_of_getElem? stored)
  obtain ⟨inside, value⟩ := List.getElem?_eq_some_iff.mp cell
  have found : position eq e.key b = some s.idx := by
    rw [position, List.findIdx?_eq_some_iff_getElem]
    refine ⟨inside, by rw [value]; exact laws.refl _, ?_⟩
    intro j before
    have apart := List.pairwise_iff_getElem.mp distinct j s.idx (by omega) inside before
    rw [value] at apart
    simp [apart]
  have here : home hash t e.key = s.bkt := placed
  simp [slotOf, here, stored, found]

theorem find?_entryAt (live : entryAt t s = some e) : find? hash eq t e.key = some e.val := by
  obtain ⟨other, there, _, answer, _⟩ := slotOf_eq_some valid (slotOf_entryAt laws valid live)
  rw [live] at there
  cases there
  exact answer

/-- Around an entry: its bucket, where the macros find and replace it. -/
theorem position_entryAt (live : entryAt t s = some e) :
    ∃ b, t[s.bkt]? = some b ∧ home hash t e.key = s.bkt ∧ position eq e.key b = some s.idx ∧
      b[s.idx]? = some e ∧ ∀ v, put eq e.key v b = b.set s.idx { e with val := v } := by
  have slot := slotOf_entryAt laws valid live
  obtain ⟨b, stored, cell⟩ := Option.bind_eq_some_iff.mp live
  obtain ⟨_, _, _, _, here⟩ := slotOf_eq_some valid slot
  simp only [slotOf, ← here, List.getD_eq_getElem?_getD, stored, Option.getD_some,
    Option.map_eq_some_iff] at slot
  obtain ⟨j, found, same⟩ := slot
  have idx : j = s.idx := congrArg Slot.idx same
  subst idx
  obtain ⟨other, there, _, _, replaced, _⟩ := position_eq_some found
  rw [cell] at there
  cases there
  exact ⟨b, stored, here.symm, found, cell, replaced⟩

/-- Writing through a slot is storing under its key. -/
theorem modify_slot (live : entryAt t s = some e) (v : V) :
    t.modify s.bkt (·.set s.idx { e with val := v }) = store hash eq t e.key v := by
  obtain ⟨b, stored, here, _, _, replaced⟩ := position_entryAt laws valid live
  apply List.ext_getElem?
  intro i
  rw [store, here, List.getElem?_modify, List.getElem?_modify]
  by_cases same : s.bkt = i
  · subst same
    simp only [stored, ↓reduceIte, Option.map_eq_map, Option.map_some, replaced v]
  · simp [same]

/-- Removing an entry's key takes it out of its slot. -/
theorem erase_slot (live : entryAt t s = some e) :
    erase hash eq t e.key = t.modify s.bkt (·.eraseIdx s.idx) := by
  obtain ⟨b, stored, here, found, _, _⟩ := position_entryAt laws valid live
  obtain ⟨_, _, _, _, _, dropped⟩ := position_eq_some found
  apply List.ext_getElem?
  intro i
  rw [erase, here, List.getElem?_modify, List.getElem?_modify]
  by_cases same : s.bkt = i
  · subst same
    simp only [stored, ↓reduceIte, Option.map_eq_map, Option.map_some, dropped,
      List.eraseIdx_eq_take_drop_succ]
  · simp [same]

/-- A pointer kept across the removal of its entry reads the entry that moved
into the slot, or the removed one when it was the last of its bucket. -/
theorem remove_vacated (held : m.Represents t) (live : entryAt t s = some e)
    (ran : m.remove hash eq e.key = .ok m') :
    m'.entry s = .ok ((entryAt t ⟨s.bkt, s.idx + 1⟩).getD e) := by
  obtain ⟨b, stored, here, found, cell, _⟩ := position_entryAt laws valid live
  obtain ⟨arr, loaded, holds⟩ := held.buckets.bkt stored
  obtain ⟨inside, value⟩ := List.getElem?_eq_some_iff.mp cell
  simp only [home] at here
  simp only [remove, held.acap, here, loaded, ok_bind, scan_spec e.key holds, found] at ran
  obtain ⟨shorter, removed, ran⟩ := bind_eq_ok.mp ran
  obtain ⟨m₁, written, ran⟩ := bind_eq_ok.mp ran
  obtain ⟨bkts, put, same⟩ := bind_eq_ok.mp written
  cases same
  cases ran
  unfold Arr.put at put
  split at put
  · rename_i bound
    cases put
    have vacated := Arr.removeN_vacated holds inside removed
    have next : entryAt t ⟨s.bkt, s.idx + 1⟩ = b[s.idx + 1]? := by
      rw [entryAt, stored]
      rfl
    rw [next, ← value, ← vacated]
    simp [entry, Map.bkt, Arr.get, bound]
  · cases put

end Slots

/-- Replacing a value moves no key. -/
theorem store_keyTable (valid : Valid hash eq t) {k : K} (v : V)
    (present : (find? hash eq t k).isSome) :
    (store hash eq t k v).map (·.map Entry.key) = t.map (·.map Entry.key) := by
  obtain ⟨b, stored, _, answer⟩ := valid.home_bucket k
  apply List.ext_getElem?
  intro i
  rw [List.getElem?_map, List.getElem?_map, store, List.getElem?_modify]
  by_cases same : home hash t k = i
  · subst same
    cases found : position eq k b with
    | none =>
      rw [answer, position_eq_none.mp found] at present
      cases present
    | some j =>
      obtain ⟨e, cell, _, _, replaced, _⟩ := position_eq_some found
      obtain ⟨inside, value⟩ := List.getElem?_eq_some_iff.mp cell
      have unmoved : (b.map Entry.key).set j e.key = b.map Entry.key := by
        have mapped : j < (b.map Entry.key).length := by simpa using inside
        have key : e.key = (b.map Entry.key)[j] := by rw [List.getElem_map, value]
        rw [key]
        exact List.set_getElem_self mapped
      simp only [stored, ↓reduceIte, Option.map_eq_map, Option.map_some, replaced v, List.map_set,
        unmoved]
  · simp [same]

/-! ## The macros -/

section Macros
variable [DecidableEq K] (exact : ∀ a b, eq a b = decide (a = b)) (sound : m.Sound hash eq)

omit [DecidableEq K] in
theorem keyAt_eq_some {s : Slot} {k : K} :
    m.keyAt s = some k ↔ ∃ e, entryAt m.table s = some e ∧ e.key = k := by
  unfold keyAt keyTable entryAt
  rw [List.getElem?_map]
  cases m.table[s.bkt]? <;> simp

include exact in
theorem laws_of_exact : KeyLaws hash eq := by
  have same : eq = fun a b => decide (a = b) := funext fun a => funext fun b => exact a b
  rw [same]
  exact KeyLaws.of_decide hash

include exact sound

/-- A slot holds its key and the value the key is mapped to. -/
theorem entryAt_keyAt {s : Slot} {k : K} (here : m.keyAt s = some k) :
    ∃ v, m.find hash eq k = some v ∧ entryAt m.table s = some ⟨k, v⟩ := by
  obtain ⟨e, live, rfl⟩ := keyAt_eq_some.mp here
  exact ⟨e.val, find?_entryAt (laws_of_exact exact) sound.valid live, live⟩

theorem entry_keyAt {s : Slot} {k : K} (here : m.keyAt s = some k) :
    ∃ v, m.find hash eq k = some v ∧ m.entry s = .ok ⟨k, v⟩ ∧ m.val s = .ok v := by
  obtain ⟨v, found, live⟩ := entryAt_keyAt exact sound here
  exact ⟨v, found, entry_spec sound.represents live, val_spec sound.represents live⟩

/-- A key stands at one slot. -/
theorem keyAt_unique {s s' : Slot} {k : K} (here : m.keyAt s = some k) (there : m.keyAt s' = some k) :
    s = s' := by
  have laws : KeyLaws hash eq := laws_of_exact exact
  obtain ⟨_, _, live⟩ := entryAt_keyAt exact sound here
  obtain ⟨_, _, live'⟩ := entryAt_keyAt exact sound there
  have slot := slotOf_entryAt laws sound.valid live
  rw [slotOf_entryAt laws sound.valid live'] at slot
  exact (Option.some.inj slot).symm

theorem get_found {k : K} {v : V} (found : m.find hash eq k = some v) :
    ∃ s, m.get hash eq k = .ok s ∧ m.getMaybeNull hash eq k = .ok (some s) ∧ m.keyAt s = some k := by
  cases slot : slotOf hash eq m.table k with
  | none =>
    rw [find, (slotOf_eq_none sound.valid).mp slot] at found
    cases found
  | some s =>
    obtain ⟨e, live, same, _, _⟩ := slotOf_eq_some sound.valid slot
    rw [exact, decide_eq_true_eq] at same
    refine ⟨s, ?_, ?_, keyAt_eq_some.mpr ⟨e, live, same⟩⟩
    · rw [get_spec sound.represents sound.valid, slot]
    · rw [getMaybeNull_spec sound.represents sound.valid, slot]

omit [DecidableEq K] exact in
theorem getMaybeNull_absent {k : K} (absent : m.find hash eq k = none) :
    m.getMaybeNull hash eq k = .ok none := by
  rw [getMaybeNull_spec sound.represents sound.valid, (slotOf_eq_none sound.valid).mpr absent]

omit [DecidableEq K] exact in
theorem contains_found (k : K) : m.contains hash eq k = .ok (m.find hash eq k).isSome :=
  contains_spec sound.represents sound.valid k

omit sound in
theorem find_update {k : K} {v : V} {t' : Table K V} (valid : Valid hash eq t')
    (same : ∀ probe, find? hash eq t' probe = find? hash eq m.table probe) :
    find? hash eq (store hash eq t' k v) = Function.update (m.find hash eq) k (some v) := by
  funext probe
  rw [find?_store (laws_of_exact exact) valid, exact, same, Function.update_apply]
  simp [eq_comm, find]

/-- Assigning through a slot changes the value of its key, and no layout. -/
theorem setVal_keyAt {s : Slot} {k : K} (here : m.keyAt s = some k) (v : V) :
    ∃ m', m.setVal s v = .ok m' ∧ m'.Sound hash eq ∧
      m'.find hash eq = Function.update (m.find hash eq) k (some v) ∧
      m'.keyTable = m.keyTable ∧ m'.bkts.alen = m.bkts.alen := by
  obtain ⟨old, found, live⟩ := entryAt_keyAt exact sound here
  obtain ⟨m', ran, held, alen⟩ := setVal_spec sound.represents live v
  rw [modify_slot (laws_of_exact exact) sound.valid live] at held
  obtain ⟨sound', same⟩ := sound_of_represents held (valid_store sound.valid k v)
  refine ⟨m', ran, sound', ?_, ?_, alen⟩
  · unfold find at found ⊢
    rw [same]
    exact find_update exact sound.valid fun _ => rfl
  · rw [find] at found
    rw [keyTable, same]
    exact store_keyTable sound.valid v (by rw [found]; rfl)

/-- A set maps its key, whether the map grows for it or not. -/
theorem set_ok (k : K) (v : V) :
    ∃ m', m.set hash eq k v = .ok m' ∧ m'.Sound hash eq ∧
      m'.find hash eq = Function.update (m.find hash eq) k (some v) := by
  obtain ⟨m', ran, held, _⟩ := set_spec sound.represents sound.valid k v
  obtain ⟨valid, _, answers⟩ := roomy_keeps (laws_of_exact exact) sound.valid
  obtain ⟨sound', same⟩ := sound_of_represents held (valid_store valid k v)
  refine ⟨m', ran, sound', ?_⟩
  unfold find
  rw [same]
  exact find_update exact valid answers

/-- A removal unmaps its key and takes it out of its bucket. -/
theorem remove_ok (k : K) :
    ∃ m', m.remove hash eq k = .ok m' ∧ m'.Sound hash eq ∧
      m'.find hash eq = Function.update (m.find hash eq) k none ∧ m'.bkts.alen = m.bkts.alen ∧
      m'.table = erase hash eq m.table k := by
  obtain ⟨m', ran, held, alen, _⟩ := remove_spec sound.represents sound.valid k
  obtain ⟨sound', same⟩ := sound_of_represents held (valid_erase sound.valid k)
  refine ⟨m', ran, sound', ?_, alen, same⟩
  funext probe
  rw [find, same, find?_erase (laws_of_exact exact) sound.valid, exact, Function.update_apply]
  simp [eq_comm, find]

/-- The pointer of a removed key reads the value of the key behind it in the
bucket, or its own when there is none. -/
theorem val_vacated {s : Slot} {k : K} (here : m.keyAt s = some k)
    (ran : m.remove hash eq k = .ok m') :
    ∃ v, m.find hash eq ((m.keyAt ⟨s.bkt, s.idx + 1⟩).getD k) = some v ∧ m'.val s = .ok v := by
  have laws : KeyLaws hash eq := laws_of_exact exact
  obtain ⟨own, found, live⟩ := entryAt_keyAt exact sound here
  have read := remove_vacated laws sound.valid sound.represents live ran
  cases behind : m.keyAt ⟨s.bkt, s.idx + 1⟩ with
  | none =>
    have nothing : entryAt m.table ⟨s.bkt, s.idx + 1⟩ = none := by
      cases there : entryAt m.table ⟨s.bkt, s.idx + 1⟩ with
      | none => rfl
      | some e => rw [keyAt_eq_some.mpr ⟨e, there, rfl⟩] at behind; cases behind
    rw [nothing] at read
    exact ⟨own, found, by rw [val, read]; rfl⟩
  | some next =>
    obtain ⟨v, value, there⟩ := entryAt_keyAt exact sound behind
    rw [there] at read
    exact ⟨v, value, by rw [val, read]; rfl⟩

omit [DecidableEq K] exact sound in
theorem keys_eq_flatten : m.keys = m.table.flatten.map Entry.key := by
  rw [keys, keyTable, List.map_flatten]

/-- The mapped keys are the keys in the table, each of them once. -/
theorem mem_keys {k : K} : k ∈ m.keys ↔ (m.find hash eq k).isSome := by
  have laws : KeyLaws hash eq := laws_of_exact exact
  rw [keys_eq_flatten, find, Option.isSome_iff_ne_none, Ne, sound.valid.find?_eq_none laws,
    List.mem_map]
  simp only [exact, decide_eq_false_iff_not, not_forall, not_not, exists_prop]

theorem keys_nodup : m.keys.Nodup := by
  have laws : KeyLaws hash eq := laws_of_exact exact
  have distinct := sound.valid.flatten_distinct laws
  rw [keys_eq_flatten, List.Nodup, List.pairwise_map]
  refine List.Pairwise.imp ?_ distinct
  intro a b apart
  simpa [exact] using apart

omit [DecidableEq K] exact in
/-- `len` counts the keys. -/
theorem len_keys : m.len = m.keys.length := by
  rw [sound.represents.counts.1, keys_eq_flatten, List.length_map]

end Macros

/-! ## Positions in a bucket -/

/-- No other key follows this one in its bucket. -/
def LastInBucket [DecidableEq K] (m : Map K V) (k : K) : Prop :=
  ∀ bucket ∈ m.keyTable, k ∈ bucket → bucket.getLast? = some k

instance [DecidableEq K] (m : Map K V) (k : K) : Decidable (m.LastInBucket k) :=
  inferInstanceAs (Decidable (∀ bucket ∈ m.keyTable, k ∈ bucket → bucket.getLast? = some k))

/-- No two keys share a bucket. -/
def Unshared (m : Map K V) : Prop := ∀ bucket ∈ m.keyTable, bucket.length ≤ 1

instance (m : Map K V) : Decidable m.Unshared :=
  inferInstanceAs (Decidable (∀ bucket ∈ m.keyTable, bucket.length ≤ 1))

theorem Unshared.lastInBucket [DecidableEq K] (unshared : m.Unshared) (k : K) : m.LastInBucket k := by
  intro bucket stored member
  have short := unshared bucket stored
  match bucket with
  | [] => cases member
  | [only] => simpa [eq_comm] using member
  | first :: second :: rest => simp at short

/-- A key is in the bucket of its hash only. -/
theorem bucket_of_key (sound : m.Sound hash eq) {i : Nat} {bucket : List K} {k : K}
    (stored : m.keyTable[i]? = some bucket) (member : k ∈ bucket) :
    i = hash k % m.table.length := by
  rw [keyTable, List.getElem?_map, Option.map_eq_some_iff] at stored
  obtain ⟨b, stored, rfl⟩ := stored
  obtain ⟨e, inside, rfl⟩ := List.mem_map.mp member
  exact (sound.valid.placed i b stored e inside).symm

theorem lastInBucket_iff [DecidableEq K] (exact : ∀ a b, eq a b = decide (a = b))
    (sound : m.Sound hash eq) {s : Slot} {k : K} (here : m.keyAt s = some k) :
    m.LastInBucket k ↔ m.keyAt ⟨s.bkt, s.idx + 1⟩ = none := by
  have distinct := keys_nodup exact sound
  obtain ⟨bucket, stored, cell⟩ := Option.bind_eq_some_iff.mp here
  obtain ⟨inside, value⟩ := List.getElem?_eq_some_iff.mp cell
  have held := List.mem_of_getElem? stored
  have own : bucket.Nodup := (List.nodup_flatten.mp distinct).1 bucket held
  have next : m.keyAt ⟨s.bkt, s.idx + 1⟩ = bucket[s.idx + 1]? := by
    rw [keyAt, stored]
    rfl
  rw [next, List.getElem?_eq_none_iff]
  constructor
  · intro last
    have final := last bucket held (List.mem_of_getElem? cell)
    rw [List.getLast?_eq_getElem?] at final
    obtain ⟨bound, same⟩ := List.getElem?_eq_some_iff.mp final
    have index := (List.Nodup.getElem_inj_iff own).mp (value.trans same.symm)
    omega
  · intro short other otherHeld member
    obtain ⟨i, otherStored⟩ := List.getElem?_of_mem otherHeld
    have only : other = bucket := by
      rw [bucket_of_key sound otherStored member,
        ← bucket_of_key sound stored (List.mem_of_getElem? cell), stored] at otherStored
      exact (Option.some.inj otherStored).symm
    rw [only, List.getLast?_eq_getElem?, show bucket.length - 1 = s.idx by omega]
    exact cell

/-! ## Loops over keys -/

theorem slots_keyAt (m : Map K V) : (slots m.table).map m.keyAt = m.keys.map some := by
  have entries := congrArg (List.map (Option.map Entry.key)) (slots_entries m.table)
  rw [List.map_map, List.map_map] at entries
  rw [keys_eq_flatten, List.map_map]
  refine Eq.trans (List.map_congr_left fun s _ => ?_) entries
  rw [Function.comp_apply, keyAt, keyTable, entryAt, List.getElem?_map]
  cases m.table[s.bkt]? <;> simp

/-- A loop invariant over the keys still to come. The body may assign values
and change anything outside the table. -/
theorem foreach_keys (hash : K → Nat) (eq : K → K → Bool) {quiet : Bool} (tbl : σ → Map K V)
    (body : Slot → σ → Except Fault σ) (inv : List K → σ → Prop) (s : σ) (readable : Readable quiet (tbl s))
    (layout : ∀ todo s', inv todo s' → (tbl s').Sound hash eq ∧
      (tbl s').keyTable = (tbl s).keyTable ∧ (tbl s').bkts.alen = (tbl s).bkts.alen)
    (turns : ∀ slot k todo s', inv (k :: todo) s' → (tbl s').keyAt slot = some k →
      ∃ s'', body slot s' = .ok s'' ∧ inv todo s'')
    (held : inv (tbl s).keys s) :
    ∃ s', foreach quiet tbl body s = .ok s' ∧ inv [] s' := by
  obtain ⟨sound, _, _⟩ := layout _ _ held
  obtain ⟨s', ran, todo, empty, done⟩ := foreach_invariant tbl body
    (shape (tbl s) (tbl s).table)
    (fun ahead s' => ∃ todo, ahead.map (tbl s).keyAt = todo.map some ∧ inv todo s')
    (show ∀ _ s', _ → Shaped quiet (tbl s') _ by
      rintro _ s' ⟨todo, _, held'⟩
      obtain ⟨sound', keyed, alen⟩ := layout _ _ held'
      refine sound.represents.same_shape sound'.represents readable ?_ alen
      have lengths := congrArg (List.map List.length) keyed
      simpa [keyTable, Function.comp_def] using lengths)
    (by
      rintro slot ahead s' ⟨todo, same, held'⟩
      cases todo with
      | nil => simp at same
      | cons k todo =>
        simp only [List.map_cons, List.cons.injEq] at same
        obtain ⟨_, keyed, _⟩ := layout _ _ held'
        obtain ⟨next, ran, kept⟩ := turns slot k todo s' held' (by
          rw [← same.1, keyAt, keyAt, keyed])
        exact ⟨next, ran, todo, same.2, kept⟩)
    s (by
      rw [slots_of_shape]
      exact ⟨_, slots_keyAt (tbl s), held⟩)
  cases todo with
  | nil => exact ⟨s', ran, done⟩
  | cons k todo => simp at empty

/-! ## A loop taken one turn at a time -/

/-- The keys a loop at indices `i` and `j` has yet to come to. -/
def keysFrom (m : Map K V) (i j : Nat) : List K :=
  (m.keyTable[i]?.getD []).drop j ++ (m.keyTable.drop (i + 1)).flatten

theorem keysFrom_start (m : Map K V) : m.keysFrom 0 0 = m.keys := by
  rw [keysFrom, keys, List.drop_zero]
  cases m.keyTable <;> rfl

/-- A turn comes to the next key, or moves on to the next bucket, or ends. -/
theorem turn_keys {quiet : Bool} (sound : m.Sound hash eq) (readable : Readable quiet m) (i j : Nat) :
    (∃ k, m.turn quiet i j = .ok (.body ⟨i, j⟩) ∧ m.keyAt ⟨i, j⟩ = some k ∧
      m.keysFrom i j = k :: m.keysFrom i (j + 1)) ∨
    (m.turn quiet i j = .ok .nextBkt ∧ m.keysFrom i j = m.keysFrom (i + 1) 0) ∨
    (m.turn quiet i j = .ok .done ∧ m.keysFrom i j = []) := by
  have width : m.keyTable.length = m.table.length := List.length_map ..
  by_cases live : i < m.table.length
  · have stored := List.getElem?_eq_getElem live
    have turned : m.turn quiet i j = _ := turn_live sound.represents stored j
    have bucket : m.keyTable[i]? = some (m.table[i].map Entry.key) := by
      rw [keyTable, List.getElem?_map, stored]
      rfl
    by_cases more : j < m.table[i].length
    · refine Or.inl ⟨m.table[i][j].key, by rw [turned, if_pos more], ?_, ?_⟩
      · simp [keyAt, bucket, more]
      · have here : j < (m.table[i].map Entry.key).length := by simpa using more
        rw [keysFrom, keysFrom, bucket, Option.getD_some, List.drop_eq_getElem_cons here,
          List.getElem_map]
        rfl
    · refine Or.inr (Or.inl ⟨by rw [turned, if_neg more], ?_⟩)
      rw [keysFrom, keysFrom, bucket, Option.getD_some, List.drop_zero,
        List.drop_of_length_le (by simpa using more), List.nil_append]
      by_cases last : i + 1 < m.keyTable.length
      · rw [List.getElem?_eq_getElem last, List.drop_eq_getElem_cons last]
        rfl
      · rw [List.drop_of_length_le (by omega), List.drop_of_length_le (by omega),
          List.getElem?_eq_none (by omega)]
        rfl
  · have turned := turn_beyond sound.represents readable (Nat.le_of_not_lt live) j
    have nothing : ∀ i' j', m.table.length ≤ i' → m.keysFrom i' j' = [] := by
      intro i' j' beyond
      have past : m.keyTable.drop (i' + 1) = [] := List.drop_of_length_le (by omega)
      rw [keysFrom, List.getElem?_eq_none (by omega), past]
      simp
    have spent := nothing i j (Nat.le_of_not_lt live)
    by_cases below : i < m.bkts.alen
    · exact Or.inr (Or.inl ⟨by rw [turned, if_pos below], by rw [spent, nothing _ _ (by omega)]⟩)
    · exact Or.inr (Or.inr ⟨by rw [turned, if_neg below], spent⟩)

end AuroraComms.Meta.Map
