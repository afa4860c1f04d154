import AuroraComms.Departure

/-! The sweep of `ac_server_poll`. It removes entries from the bucket it is in,
and the entry that moves into a vacated slot is passed over: not put online, not
polled, and not removed if it had to be. -/
namespace AuroraComms
open Meta Library.Run Library.Chain

/-! ## One bucket -/

/-- What the sweep does with an entry. -/
inductive Mark where
  | kept
  | gone
  | skipped
  deriving DecidableEq, Repr

/-- A connection that the sweep has to close. -/
def Client.leaving (client : Client) : Bool := client.state == .toBeRemoved

/-- The marks of a bucket's entries. Behind every removed entry one is skipped. -/
def walk : Bucket Handle Client → List (Mark × Entry Handle Client)
  | [] => []
  | [e] => [(if e.val.leaving then .gone else .kept, e)]
  | e :: next :: rest =>
    if e.val.leaving then (.gone, e) :: (.skipped, next) :: walk rest
    else (.kept, e) :: walk (next :: rest)

/-- An entry that the sweep leaves online. -/
def settled (e : Entry Handle Client) : Entry Handle Client :=
  { e with val := { e.val with state := .online } }

/-- What is left of an entry in the table. -/
def remains : Mark × Entry Handle Client → Option (Entry Handle Client)
  | (.kept, e) => some (settled e)
  | (.gone, _) => none
  | (.skipped, e) => some e

/-- The keys of the entries with a mark. -/
def marked (mark : Mark) (pairs : List (Mark × Entry Handle Client)) : List Handle :=
  pairs.filterMap fun pair => if pair.1 = mark then some pair.2.key else none

def sweepBucket (bucket : Bucket Handle Client) : Bucket Handle Client :=
  (walk bucket).filterMap remains

@[simp] theorem remains_kept (e : Entry Handle Client) : remains (.kept, e) = some (settled e) := rfl

@[simp] theorem remains_gone (e : Entry Handle Client) : remains (.gone, e) = none := rfl

@[simp] theorem remains_skipped (e : Entry Handle Client) : remains (.skipped, e) = some e := rfl

theorem walk_entries (bucket : Bucket Handle Client) : (walk bucket).map Prod.snd = bucket := by
  induction bucket using walk.induct with
  | case1 => rfl
  | case2 e => rfl
  | case3 e next rest leaving ih => simp [walk, leaving, ih]
  | case4 e next rest staying ih => simp [walk, staying, ih]

/-! ## The loop -/

section Loop
variable {quiet : Bool} {app app' : App} {t : Table Handle Client} {polled : List Handle}

/-- The clients stand for a table in which each is entered under its handle. -/
structure Holding (app : App) (t : Table Handle Client) : Prop where
  represents : app.clients.Represents t
  valid : Valid handleHash handleEq t
  keyed : ∀ bucket ∈ t, ∀ e ∈ bucket, e.val.handle = e.key

/-- Only clients and trace differ. -/
structure Elsewhere (app app' : App) : Prop where
  fromHandle : app'.fromHandle = app.fromHandle
  fromUsername : app'.fromUsername = app.fromUsername
  heap : app'.heap = app.heap
  appStartTime : app'.appStartTime = app.appStartTime
  listener : app'.server.listener = app.server.listener

theorem Elsewhere.refl (app : App) : Elsewhere app app := ⟨rfl, rfl, rfl, rfl, rfl⟩

theorem Elsewhere.trans {app'' : App} (first : Elsewhere app app') (second : Elsewhere app' app'') :
    Elsewhere app app'' where
  fromHandle := second.fromHandle.trans first.fromHandle
  fromUsername := second.fromUsername.trans first.fromUsername
  heap := second.heap.trans first.heap
  appStartTime := second.appStartTime.trans first.appStartTime
  listener := second.listener.trans first.listener

theorem handleLaws : KeyLaws handleHash handleEq := Map.laws_of_exact handleEq_exact

variable {s : Slot} {e : Entry Handle Client}

private theorem mem_modify {α : Type} {f : α → α} {xs : List α} {i : Nat} {x : α}
    (member : x ∈ xs.modify i f) : x ∈ xs ∨ ∃ y, xs[i]? = some y ∧ x = f y := by
  obtain ⟨j, at_j⟩ := List.getElem?_of_mem member
  rw [List.getElem?_modify, Option.map_eq_map, Option.map_eq_some_iff] at at_j
  obtain ⟨y, stored, same⟩ := at_j
  split at same
  · rename_i here
    subst here
    exact Or.inr ⟨y, stored, same.symm⟩
  · exact Or.inl (by rw [← same]; exact List.mem_of_getElem? stored)

/-- The turn at a client that leaves. -/
theorem sweepTurn_leaving (polled : List Handle) (holding : Holding app t) (live : Map.entryAt t s = some e)
    (leaving : e.val.leaving = true) :
    ∃ app', sweepTurn s (polled, app) = .ok (polled, app') ∧
      Holding app' (t.modify s.bkt (·.eraseIdx s.idx)) ∧
      app'.clients.bkts.alen = app.clients.bkts.alen ∧
      app'.trace = app.trace ++ [.closed e.key] ∧ Elsewhere app app' := by
  obtain ⟨b, stored, cell⟩ := Option.bind_eq_some_iff.mp live
  have keyed := holding.keyed b (List.mem_of_getElem? stored) e (List.mem_of_getElem? cell)
  have loaded : app.client s = .ok e.val := Map.val_spec holding.represents live
  have state : e.val.state = .toBeRemoved := by simpa [Client.leaving] using leaving
  obtain ⟨clients, removed, represents, alen, _⟩ :=
    Map.remove_spec holding.represents holding.valid e.key
  refine ⟨(app.note (.closed e.key)).setClients clients, ?_, ⟨?_, ?_, ?_⟩, alen, rfl,
    ⟨rfl, rfl, rfl, rfl, rfl⟩⟩
  · simp only [sweepTurn, loaded, ok_bind, state, disconnectClient, keyed]
    change (do
      let app ← (do
        let clients ← app.clients.remove handleHash handleEq e.key
        return (app.note (.closed e.key)).setClients clients)
      return (polled, app)) = _
    rw [removed]
    rfl
  · rw [← Map.erase_slot handleLaws holding.valid live]
    exact represents
  · rw [← Map.erase_slot handleLaws holding.valid live]
    exact valid_erase holding.valid e.key
  · intro bucket member other inside
    rcases mem_modify member with old | ⟨b', stored', rfl⟩
    · exact holding.keyed bucket old other inside
    · exact holding.keyed b' (List.mem_of_getElem? stored') other
        (List.mem_of_mem_eraseIdx inside)

/-- The turn at a client that stays. -/
theorem sweepTurn_staying (polled : List Handle) (holding : Holding app t) (live : Map.entryAt t s = some e)
    (staying : e.val.leaving = false) :
    ∃ app', sweepTurn s (polled, app) = .ok (polled ++ [e.key], app') ∧
      Holding app' (t.modify s.bkt (·.set s.idx (settled e))) ∧
      app'.clients.bkts.alen = app.clients.bkts.alen ∧ app'.trace = app.trace ∧
      Elsewhere app app' := by
  obtain ⟨b, stored, cell⟩ := Option.bind_eq_some_iff.mp live
  obtain ⟨inside, value⟩ := List.getElem?_eq_some_iff.mp cell
  have keyed := holding.keyed b (List.mem_of_getElem? stored) e (List.mem_of_getElem? cell)
  have loaded : app.client s = .ok e.val := Map.val_spec holding.represents live
  cases state : e.val.state with
  | toBeRemoved => simp [Client.leaving, state] at staying
  | online =>
    have same : settled e = e := by
      unfold settled
      rw [← state]
    have unchanged : b.set s.idx e = b := by
      conv_rhs => rw [← List.set_getElem_self inside, value]
    have table : t.modify s.bkt (·.set s.idx (settled e)) = t := by
      apply List.ext_getElem?
      intro i
      rw [List.getElem?_modify]
      by_cases here : s.bkt = i
      · subst here
        simp only [stored, ↓reduceIte, Option.map_eq_map, Option.map_some, same, unchanged]
      · simp [here]
    refine ⟨app, by simp only [sweepTurn, loaded, ok_bind, state, keyed, pure_eq_ok], ?_, rfl, rfl,
      Elsewhere.refl app⟩
    rw [table]
    exact holding
  | new =>
    obtain ⟨clients, written, represents, alen⟩ :=
      Map.setVal_spec holding.represents live { e.val with state := .online }
    refine ⟨app.setClients clients, ?_, ⟨represents, ?_, ?_⟩, alen, rfl, ⟨rfl, rfl, rfl, rfl, rfl⟩⟩
    · simp only [keyed] at written
      simp only [sweepTurn, loaded, ok_bind, state, App.setClient, written, keyed, pure_eq_ok]
    · rw [show settled e = { e with val := { e.val with state := .online } } from rfl,
        Map.modify_slot handleLaws holding.valid live]
      exact valid_store holding.valid e.key _
    · intro bucket member other inside
      rcases mem_modify member with old | ⟨b', stored', rfl⟩
      · exact holding.keyed bucket old other inside
      · rw [stored] at stored'
        cases stored'
        rcases List.mem_or_eq_of_mem_set inside with old | rfl
        · exact holding.keyed b (List.mem_of_getElem? stored) other old
        · exact keyed

private theorem modify_middle {α : Type} (before after : List α) (x : α) (f : α → α) :
    (before ++ x :: after).modify before.length f = before ++ f x :: after := by
  induction before with
  | nil => rfl
  | cons first rest ih => simp [ih]

private theorem middle {α : Type} (before after : List α) (x : α) :
    (before ++ x :: after)[before.length]? = some x := by
  simp

/-- The loop of the sweep, from indices `i` and `j`. -/
private abbrev sweepFrom (quiet : Bool) (fuel i j : Nat) (state : List Handle × App) :
    Except Fault (List Handle × App) :=
  Map.foreachFrom quiet (fun state => state.2.clients) sweepTurn fuel i j state

section Turns
variable {done rest : Bucket Handle Client} {before after : Table Handle Client} {fuel : Nat}

private theorem sweep_past (holding : Holding app (before ++ done :: after)) {j : Nat}
    (past : done.length ≤ j) :
    sweepFrom quiet (fuel + 1) before.length j (polled, app) =
      sweepFrom quiet fuel (before.length + 1) 0 (polled, app) := by
  rw [sweepFrom, Map.foreachFrom, Map.turn_live holding.represents (middle before after done),
    if_neg (by omega), ok_bind]

private theorem sweep_leaving (quiet : Bool) (polled : List Handle) (fuel : Nat)
    (holding : Holding app (before ++ (done ++ e :: rest) :: after))
    (leaving : e.val.leaving = true) :
    ∃ app', sweepFrom quiet (fuel + 1) before.length done.length (polled, app) =
        sweepFrom quiet fuel before.length (done.length + 1) (polled, app') ∧
      Holding app' (before ++ (done ++ rest) :: after) ∧
      app'.clients.bkts.alen = app.clients.bkts.alen ∧
      app'.trace = app.trace ++ [.closed e.key] ∧ Elsewhere app app' := by
  have stored := middle before after (done ++ e :: rest)
  have live : Map.entryAt (before ++ (done ++ e :: rest) :: after) ⟨before.length, done.length⟩ =
      some e := by
    simp [Map.entryAt]
  obtain ⟨app', ran, holding', alen, trace, elsewhere⟩ :=
    sweepTurn_leaving polled holding live leaving
  have erased : (done ++ e :: rest).eraseIdx done.length = done ++ rest := by
    rw [List.eraseIdx_append_of_length_le (Nat.le_refl _), Nat.sub_self]
    rfl
  rw [modify_middle, erased] at holding'
  refine ⟨app', ?_, holding', alen, trace, elsewhere⟩
  rw [sweepFrom, Map.foreachFrom, Map.turn_live holding.represents stored, if_pos (by simp), ok_bind]
  simp only [ran, ok_bind]

private theorem sweep_staying (quiet : Bool) (polled : List Handle) (fuel : Nat)
    (holding : Holding app (before ++ (done ++ e :: rest) :: after))
    (staying : e.val.leaving = false) :
    ∃ app', sweepFrom quiet (fuel + 1) before.length done.length (polled, app) =
        sweepFrom quiet fuel before.length (done.length + 1) (polled ++ [e.key], app') ∧
      Holding app' (before ++ (done ++ settled e :: rest) :: after) ∧
      app'.clients.bkts.alen = app.clients.bkts.alen ∧ app'.trace = app.trace ∧
      Elsewhere app app' := by
  have stored := middle before after (done ++ e :: rest)
  have live : Map.entryAt (before ++ (done ++ e :: rest) :: after) ⟨before.length, done.length⟩ =
      some e := by
    simp [Map.entryAt]
  obtain ⟨app', ran, holding', alen, trace, elsewhere⟩ :=
    sweepTurn_staying polled holding live staying
  have replaced : (done ++ e :: rest).set done.length (settled e) = done ++ settled e :: rest := by
    simp
  rw [modify_middle, replaced] at holding'
  refine ⟨app', ?_, holding', alen, trace, elsewhere⟩
  rw [sweepFrom, Map.foreachFrom, Map.turn_live holding.represents stored, if_pos (by simp), ok_bind]
  simp only [ran, ok_bind]

end Turns

/-- What the sweep of some entries leaves: the sockets to poll and the
connections closed. -/
structure SweptTo (app : App) (polled : List Handle) (pairs : List (Mark × Entry Handle Client))
    (polled' : List Handle) (app' : App) : Prop where
  polled : polled' = polled ++ marked .kept pairs
  alen : app'.clients.bkts.alen = app.clients.bkts.alen
  trace : app'.trace = app.trace ++ (marked .gone pairs).map .closed
  elsewhere : Elsewhere app app'

theorem SweptTo.refl (app : App) (polled : List Handle) : SweptTo app polled [] polled app :=
  ⟨by simp [marked], rfl, by simp [marked], Elsewhere.refl app⟩

theorem SweptTo.trans {app'' : App} {polled' polled'' : List Handle}
    {pairs pairs' : List (Mark × Entry Handle Client)}
    (first : SweptTo app polled pairs polled' app')
    (second : SweptTo app' polled' pairs' polled'' app'') :
    SweptTo app polled (pairs ++ pairs') polled'' app'' where
  polled := by simp [second.polled, first.polled, marked]
  alen := second.alen.trans first.alen
  trace := by simp [second.trace, first.trace, marked]
  elsewhere := first.elsewhere.trans second.elsewhere

/-- The loop through the rest of one bucket. -/
private theorem sweep_bucket (quiet : Bool) (rest : Bucket Handle Client) (done : Bucket Handle Client)
    (before after : Table Handle Client) (polled : List Handle) (app : App) (fuel : Nat)
    (holding : Holding app (before ++ (done ++ rest) :: after)) :
    ∃ polled' app' fuel', fuel ≤ fuel' ∧
      sweepFrom quiet (fuel + rest.length + 1) before.length done.length (polled, app) =
        sweepFrom quiet fuel' (before.length + 1) 0 (polled', app') ∧
      Holding app' (before ++ (done ++ sweepBucket rest) :: after) ∧
      SweptTo app polled (walk rest) polled' app' := by
  induction rest using walk.induct generalizing done polled app fuel with
  | case1 =>
    exact ⟨polled, app, fuel, Nat.le_refl _, sweep_past holding (by simp), holding,
      SweptTo.refl app polled⟩
  | case2 e =>
    cases leaving : e.val.leaving with
    | true =>
      obtain ⟨app', ran, holding', alen, trace, elsewhere⟩ :=
        sweep_leaving quiet polled (fuel + 1) holding leaving
      refine ⟨polled, app', fuel, Nat.le_refl _, ran.trans (sweep_past holding' (by simp)), ?_,
        by simp [marked, walk, leaving], alen, by simp [marked, walk, leaving, trace], elsewhere⟩
      simpa [sweepBucket, walk, leaving, List.filterMap_cons] using holding'
    | false =>
      obtain ⟨app', ran, holding', alen, trace, elsewhere⟩ :=
        sweep_staying quiet polled (fuel + 1) holding leaving
      refine ⟨polled ++ [e.key], app', fuel, Nat.le_refl _,
        ran.trans (sweep_past holding' (by simp)), ?_, by simp [marked, walk, leaving], alen,
        by simp [marked, walk, leaving, trace], elsewhere⟩
      simpa [sweepBucket, walk, leaving, List.filterMap_cons] using holding'
  | case3 e next rest leaving ih =>
    obtain ⟨first, ran, holding', alen, trace, elsewhere⟩ := sweep_leaving quiet polled
      ((fuel + 1) + rest.length + 1) holding leaving
    obtain ⟨polled', last, fuel', more, others, final, swept⟩ :=
      ih (done ++ [next]) polled first (fuel + 1) (by simpa using holding')
    refine ⟨polled', last, fuel', by omega, ?_, ?_, ?_⟩
    · rw [← others, List.length_append, List.length_singleton, ← ran]
      congr 1
      simp only [List.length_cons]
      omega
    · simpa [sweepBucket, walk, leaving, List.filterMap_cons] using final
    · exact ⟨by simp [swept.polled, marked, walk, leaving], swept.alen.trans alen,
        by simp [swept.trace, trace, marked, walk, leaving], elsewhere.trans swept.elsewhere⟩
  | case4 e next rest staying ih =>
    have stays : e.val.leaving = false := by simpa using staying
    obtain ⟨first, ran, holding', alen, trace, elsewhere⟩ := sweep_staying quiet polled
      (fuel + (next :: rest).length + 1) holding stays
    obtain ⟨polled', last, fuel', more, others, final, swept⟩ :=
      ih (done ++ [settled e]) (polled ++ [e.key]) first fuel (by simpa using holding')
    refine ⟨polled', last, fuel', more, ?_, ?_, ?_⟩
    · rw [← others, List.length_append, List.length_singleton, ← ran]
      rfl
    · simpa [sweepBucket, walk, stays] using final
    · exact ⟨by simp [swept.polled, marked, walk, stays], swept.alen.trans alen,
        by simp [swept.trace, trace, marked, walk, stays], elsewhere.trans swept.elsewhere⟩

/-- The loop through the rest of the table. -/
private theorem sweep_buckets (quiet : Bool) (after before : Table Handle Client)
    (polled : List Handle) (app : App)
    (fuel : Nat) (holding : Holding app (before ++ after)) :
    ∃ polled' app' fuel', fuel ≤ fuel' ∧
      sweepFrom quiet (fuel + (after.map fun bucket => bucket.length + 1).sum) before.length 0
        (polled, app) = sweepFrom quiet fuel' (before.length + after.length) 0 (polled', app') ∧
      Holding app' (before ++ after.map sweepBucket) ∧
      SweptTo app polled (after.flatMap walk) polled' app' := by
  induction after generalizing before polled app fuel with
  | nil =>
    exact ⟨polled, app, fuel, Nat.le_refl _, rfl, holding, SweptTo.refl app polled⟩
  | cons bucket after ih =>
    obtain ⟨polled₁, app₁, fuel₁, more, ran, holding₁, swept⟩ := sweep_bucket quiet bucket [] before
      after polled app (fuel + (after.map fun bucket => bucket.length + 1).sum)
      (by simpa using holding)
    obtain ⟨extra, rfl⟩ := Nat.exists_eq_add_of_le more
    obtain ⟨polled₂, app₂, fuel₂, more₂, others, holding₂, swept₂⟩ :=
      ih (before ++ [sweepBucket bucket]) polled₁ app₁ (fuel + extra) (by simpa using holding₁)
    refine ⟨polled₂, app₂, fuel₂, by omega, ?_, by simpa using holding₂, swept.trans swept₂⟩
    calc
      _ = sweepFrom quiet (fuel + (after.map fun bucket => bucket.length + 1).sum + bucket.length + 1)
            before.length 0 (polled, app) := by
        congr 1
        simp only [List.map_cons, List.sum_cons]
        omega
      _ = sweepFrom quiet (fuel + (after.map fun bucket => bucket.length + 1).sum + extra)
            (before.length + 1) 0 (polled₁, app₁) := ran
      _ = sweepFrom quiet (fuel + extra + (after.map fun bucket => bucket.length + 1).sum)
            (before ++ [sweepBucket bucket]).length 0 (polled₁, app₁) := by
        rw [List.length_append, List.length_singleton, Nat.add_right_comm]
      _ = _ := others
      _ = _ := by
        congr 1
        simp only [List.length_append, List.length_cons, List.length_nil]
        omega

/-- Behind the table the loop comes to its end. -/
private theorem sweep_ends (holding : Holding app t) (readable : Map.Readable quiet app.clients)
    (left i fuel : Nat) (beyond : t.length ≤ i) (count : i + left = app.clients.bkts.alen)
    (enough : left < fuel) : sweepFrom quiet fuel i 0 (polled, app) = .ok (polled, app) := by
  induction left generalizing i fuel with
  | zero =>
    obtain ⟨fuel, rfl⟩ := Nat.exists_eq_add_of_lt enough
    rw [sweepFrom, Map.foreachFrom, Map.turn_beyond holding.represents readable beyond,
      if_neg (by omega), ok_bind]
    rfl
  | succ left ih =>
    obtain ⟨fuel, rfl⟩ := Nat.exists_eq_add_of_lt enough
    rw [sweepFrom, Map.foreachFrom, Map.turn_beyond holding.represents readable beyond,
      if_pos (by omega), ok_bind]
    exact ih (i + 1) _ (by omega) (by omega) (by omega)

/-- Nor does it get past a slot there that it cannot read. -/
private theorem sweep_stuck (polled : List Handle) (holding : Holding app t)
    (unreadable : ¬ Map.Readable quiet app.clients)
    (fuel : Nat) (result : List Handle × App) :
    sweepFrom quiet fuel t.length 0 (polled, app) ≠ .ok result := by
  intro ran
  obtain ⟨below, dangling⟩ := Map.unreadable_slot holding.represents unreadable
  cases fuel with
  | zero => cases ran
  | succ fuel =>
    obtain ⟨next, moved, _⟩ := bind_eq_ok.mp ran
    rw [Map.turn, if_pos below] at moved
    obtain ⟨n, length, _⟩ := bind_eq_ok.mp moved
    exact dangling n length

theorem Holding.readable (quiet : Bool) {t' : Table Handle Client} (holding : Holding app t)
    (holding' : Holding app' t') (width : t'.length = t.length)
    (alen : app'.clients.bkts.alen = app.clients.bkts.alen) :
    Map.Readable quiet app'.clients ↔ Map.Readable quiet app.clients := by
  rw [Map.Readable, Map.Readable, holding'.represents.acap, holding.represents.acap, width, alen]

/-- The sweep marks every bucket, if it can read the whole array. -/
theorem sweep_marks (env : Env) (holding : Holding app t) : ∃ polled' app',
    Holding app' (t.map sweepBucket) ∧
    SweptTo app [app.server.listener] (t.flatMap walk) polled' app' ∧
    (Map.Readable env.quiet app.clients → sweep env app = .ok (polled', app')) ∧
    (¬ Map.Readable env.quiet app.clients → ∀ result, sweep env app ≠ .ok result) := by
  have within := holding.represents.within
  have turns := holding.represents.enough
  obtain ⟨polled', app', fuel', more, ran, holding', swept⟩ := sweep_buckets env.quiet t []
    [app.server.listener] app (app.clients.bkts.alen - t.length + 1) holding
  have whole : sweep env app = sweepFrom env.quiet fuel' t.length 0 (polled', app') := by
    have given : app.clients.turns = app.clients.bkts.alen - t.length + 1 +
        (t.map fun bucket => bucket.length + 1).sum := by
      rw [turns, Map.shape, List.map_append, List.sum_append, List.map_map, List.map_replicate,
        List.sum_replicate_nat, Nat.zero_add, Nat.mul_one, Nat.add_assoc, Nat.add_comm]
      rfl
    rw [List.length_nil, Nat.zero_add, ← given] at ran
    exact ran
  have alike := holding.readable env.quiet holding' (by simp) swept.alen
  refine ⟨polled', app', holding', swept, ?_, ?_⟩
  · intro readable
    rw [whole]
    exact sweep_ends holding' (alike.mpr readable) (app.clients.bkts.alen - t.length) _ _
      (by simp) (by rw [swept.alen]; omega) (by omega)
  · intro unreadable result
    rw [whole]
    have unread : ¬ Map.Readable env.quiet app'.clients :=
      fun readable => unreadable (alike.mp readable)
    simpa using sweep_stuck polled' holding' unread fuel' result

end Loop

/-! ## Skipped entries -/

/-- The entries as marked when none is skipped. -/
def tidily (entries : List (Entry Handle Client)) : List (Mark × Entry Handle Client) :=
  entries.map fun e => (if e.val.leaving then .gone else .kept, e)

/-- Where an entry to be removed is the last of its bucket, none is skipped. -/
theorem walk_tidy {bucket : Bucket Handle Client}
    (tidy : ∀ e ∈ bucket.dropLast, e.val.leaving = false) :
    walk bucket = tidily bucket := by
  induction bucket using walk.induct with
  | case1 => rfl
  | case2 e => rfl
  | case3 e next rest leaving ih => simp [leaving] at tidy
  | case4 e next rest staying ih =>
    have later : ∀ e ∈ (next :: rest).dropLast, e.val.leaving = false :=
      fun other member => tidy other (List.mem_cons_of_mem _ member)
    rw [walk, if_neg staying, ih later]
    simp [tidily, staying]

/-- Anywhere else, one is. -/
theorem walk_skips {bucket : Bucket Handle Client} {e : Entry Handle Client}
    (member : e ∈ bucket.dropLast) (leaving : e.val.leaving = true) :
    ∃ other, (.skipped, other) ∈ walk bucket := by
  induction bucket using walk.induct with
  | case1 => cases member
  | case2 only => cases member
  | case3 first next rest goes ih => exact ⟨next, by simp [walk, goes]⟩
  | case4 first next rest stays ih =>
    have later : e ∈ (next :: rest).dropLast := by
      rcases List.mem_cons.mp member with rfl | later
      · exact absurd leaving stays
      · exact later
    obtain ⟨other, skipped⟩ := ih later
    exact ⟨other, by rw [walk, if_neg stays]; exact List.mem_cons_of_mem _ skipped⟩

theorem walks_entries (t : Table Handle Client) : (t.flatMap walk).map Prod.snd = t.flatten := by
  rw [List.map_flatMap]
  simp only [walk_entries]
  exact List.flatMap_id'

theorem sweepBucket_flatten (t : Table Handle Client) :
    (t.map sweepBucket).flatten = (t.flatMap walk).filterMap remains := by
  rw [List.filterMap_flatMap]
  rfl

theorem walks_tidy {t : Table Handle Client}
    (tidy : ∀ bucket ∈ t, ∀ e ∈ bucket.dropLast, e.val.leaving = false) :
    t.flatMap walk = tidily t.flatten := by
  rw [tidily, List.map_flatten, ← List.flatMap_def]
  exact List.flatMap_congr fun bucket stored => walk_tidy (tidy bucket stored)

private theorem tidily_remain (entries : List (Entry Handle Client)) :
    (tidily entries).filterMap remains =
      (entries.filter fun e => !e.val.leaving).map settled ∧
    marked .kept (tidily entries) = (entries.filter fun e => !e.val.leaving).map Entry.key ∧
    marked .gone (tidily entries) = (entries.filter fun e => e.val.leaving).map Entry.key := by
  induction entries with
  | nil => exact ⟨rfl, rfl, rfl⟩
  | cons e rest ih =>
    obtain ⟨left, kept, gone⟩ := ih
    unfold marked tidily at *
    cases leaving : e.val.leaving <;> simp [leaving, left, kept, gone, List.filterMap_cons]

/-- What the sweep is for: the clients to be removed are gone, the others are
online, and the polled sockets are the listener's and each remaining client's. -/
structure Swept (app : App) (polled : List Handle) (app' : App) : Prop where
  clientOf : ∀ h, app'.clientOf h = (app.clientOf h).bind fun client =>
    if client.state = .toBeRemoved then none else some { client with state := .online }
  sockets : ∃ rest, polled = app.server.listener :: rest ∧ rest.Nodup ∧
    ∀ h, h ∈ rest ↔ (app'.clientOf h).isSome

/-- The connections the sweep closes. -/
def Closes (app app' : App) : Prop :=
  ∃ gone : List Handle, app'.trace = app.trace ++ gone.map .closed ∧ gone.Nodup ∧
    ∀ h, h ∈ gone ↔ ∃ client, app.clientOf h = some client ∧ client.state = .toBeRemoved

section Exact
variable {app : App} (sound : app.clients.Sound handleHash handleEq)
include sound

/-- A client is last in its bucket if its entry is. -/
theorem leaving_last_iff :
    (∀ h client, app.clientOf h = some client → client.leaving = true → app.clients.LastInBucket h) ↔
      ∀ bucket ∈ app.clients.table, ∀ e ∈ bucket.dropLast, e.val.leaving = false := by
  constructor
  · intro last bucket stored e inner
    obtain ⟨i, at_i⟩ := List.getElem?_of_mem stored
    obtain ⟨j, at_j⟩ := List.getElem?_of_mem inner
    obtain ⟨short, value⟩ := List.getElem?_eq_some_iff.mp at_j
    rw [List.length_dropLast] at short
    have live : Map.entryAt app.clients.table ⟨i, j⟩ = some e := by
      rw [Map.entryAt, at_i, Option.bind_some, ← value, List.getElem_dropLast]
      exact List.getElem?_eq_getElem (show j < bucket.length by omega)
    cases leaving : e.val.leaving with
    | false => rfl
    | true =>
      have found := Map.find?_entryAt handleLaws sound.valid live
      have here := Map.keyAt_eq_some.mpr ⟨e, live, rfl⟩
      have final := (Map.lastInBucket_iff handleEq_exact sound here).mp
        (last e.key e.val found leaving)
      simp only [Map.keyAt, Map.keyTable, List.getElem?_map, at_i, Option.map_some,
        Option.bind_some, Option.map_eq_none_iff, List.getElem?_eq_none_iff] at final
      change bucket.length ≤ j + 1 at final
      omega
  · intro tidy h client stored leaving
    obtain ⟨s, _, _, here⟩ := Map.get_found handleEq_exact sound stored
    rw [Map.lastInBucket_iff handleEq_exact sound here]
    obtain ⟨v, found, live⟩ := Map.entryAt_keyAt handleEq_exact sound here
    rw [App.clientOf, found] at stored
    cases stored
    obtain ⟨bucket, at_i, at_j⟩ := Option.bind_eq_some_iff.mp live
    obtain ⟨bound, value⟩ := List.getElem?_eq_some_iff.mp at_j
    simp only [Map.keyAt, Map.keyTable, List.getElem?_map, at_i, Option.map_some,
      Option.bind_some, Option.map_eq_none_iff, List.getElem?_eq_none_iff]
    by_contra inner
    have inside : s.idx < bucket.dropLast.length := by
      rw [List.length_dropLast]
      omega
    have member : (⟨h, client⟩ : Entry Handle Client) ∈ bucket.dropLast := by
      rw [← value, ← List.getElem_dropLast inside]
      exact List.getElem_mem inside
    rw [tidy bucket (List.mem_of_getElem? at_i) _ member] at leaving
    cases leaving

theorem clientOf_eq_some (h : Handle) (client : Client) : app.clientOf h = some client ↔
    ∃ e ∈ app.clients.table.flatten, e.key = h ∧ e.val = client := by
  rw [App.clientOf, Map.find, sound.valid.find?_eq_some handleLaws]
  simp only [handleEq_exact, decide_eq_true_eq]

variable (keyed : ∀ h client, app.clientOf h = some client → client.handle = h)
include keyed

theorem holding_table : Holding app app.clients.table where
  represents := sound.represents
  valid := sound.valid
  keyed bucket member e inside := keyed e.key e.val
    ((clientOf_eq_some sound _ _).mpr ⟨e, List.mem_flatten.mpr ⟨bucket, member, inside⟩, rfl, rfl⟩)

/-- When every client to be removed is the last of its bucket, the sweep does
what it is for. -/
theorem sweep_exact (env : Env) (readable : Map.Readable env.quiet app.clients)
    (last : ∀ h client, app.clientOf h = some client → client.leaving = true →
      app.clients.LastInBucket h) :
    ∃ polled app', sweep env app = .ok (polled, app') ∧ Swept app polled app' ∧ Closes app app' ∧
      app'.clients.Sound handleHash handleEq ∧
      (∀ h client, app'.clientOf h = some client → client.handle = h) ∧ Elsewhere app app' := by
  obtain ⟨polled, app', holding', swept, ran, _⟩ := sweep_marks env (holding_table sound keyed)
  have walks := walks_tidy ((leaving_last_iff sound).mp last)
  obtain ⟨left, kept, gone⟩ := tidily_remain app.clients.table.flatten
  rw [← walks] at left kept gone
  rw [← sweepBucket_flatten] at left
  obtain ⟨sound', table⟩ := Map.sound_of_represents holding'.represents holding'.valid
  rw [← table] at left
  have stored : ∀ h client, app'.clientOf h = some client ↔
      ∃ e ∈ app.clients.table.flatten, e.val.leaving = false ∧ e.key = h ∧
        { e.val with state := .online } = client := by
    intro h client
    rw [clientOf_eq_some sound' h client, left]
    simp only [List.mem_map, List.mem_filter, Bool.not_eq_eq_eq_not, Bool.not_true]
    constructor
    · rintro ⟨_, ⟨e, ⟨member, stays⟩, rfl⟩, same, value⟩
      exact ⟨e, member, stays, same, value⟩
    · rintro ⟨e, member, stays, same, value⟩
      exact ⟨settled e, ⟨e, ⟨member, stays⟩, rfl⟩, same, value⟩
  have distinct : (app.clients.table.flatten.map Entry.key).Nodup := by
    rw [← Map.keys_eq_flatten]
    exact Map.keys_nodup handleEq_exact sound
  refine ⟨polled, app', ran readable, ⟨?_, ?_⟩, ?_, sound', ?_, swept.elsewhere⟩
  · intro h
    apply Option.ext
    intro client
    rw [stored, Option.bind_eq_some_iff]
    constructor
    · rintro ⟨e, member, stays, same, value⟩
      refine ⟨e.val, (clientOf_eq_some sound h e.val).mpr ⟨e, member, same, rfl⟩, ?_⟩
      rw [Client.leaving, beq_eq_false_iff_ne] at stays
      rw [if_neg stays, value]
    · rintro ⟨old, found, value⟩
      obtain ⟨e, member, same, rfl⟩ := (clientOf_eq_some sound h old).mp found
      split at value
      · cases value
      · rename_i stays
        cases value
        exact ⟨e, member, by rw [Client.leaving, beq_eq_false_iff_ne]; exact stays, same, rfl⟩
  · refine ⟨marked .kept (app.clients.table.flatMap walk), swept.polled, ?_, fun h => ?_⟩
    · rw [kept]
      exact distinct.sublist (List.filter_sublist.map _)
    · rw [kept, Option.isSome_iff_exists]
      simp only [stored, List.mem_map, List.mem_filter, Bool.not_eq_eq_eq_not, Bool.not_true]
      constructor
      · rintro ⟨e, ⟨member, stays⟩, same⟩
        exact ⟨_, e, member, stays, same, rfl⟩
      · rintro ⟨_, e, member, stays, same, _⟩
        exact ⟨e, ⟨member, stays⟩, same⟩
  · refine ⟨marked .gone (app.clients.table.flatMap walk), swept.trace, ?_, fun h => ?_⟩
    · rw [gone]
      exact distinct.sublist (List.filter_sublist.map _)
    · rw [gone]
      simp only [clientOf_eq_some sound, List.mem_map, List.mem_filter]
      constructor
      · rintro ⟨e, ⟨member, goes⟩, same⟩
        exact ⟨e.val, ⟨e, member, same, rfl⟩, eq_of_beq goes⟩
      · rintro ⟨_, ⟨e, member, same, rfl⟩, goes⟩
        exact ⟨e, ⟨member, beq_iff_eq.mpr goes⟩, same⟩
  · intro h client found
    obtain ⟨e, member, _, same, rfl⟩ := (stored h client).mp found
    exact keyed h e.val ((clientOf_eq_some sound h e.val).mpr ⟨e, member, same, rfl⟩)

/-- The sweep leaves exactly the clients that are not to be removed, online and
each polled once, if and only if every client to be removed is the last of its
bucket and the loop meets no freed bucket. -/
theorem sweep_exact_iff_last_in_bucket (env : Env) :
    (∃ polled app', sweep env app = .ok (polled, app') ∧ Swept app polled app') ↔
      (∀ h client, app.clientOf h = some client → client.state = .toBeRemoved →
        app.clients.LastInBucket h) ∧ Map.Readable env.quiet app.clients := by
  constructor
  · rintro ⟨polled, app', ran, swept⟩
    obtain ⟨polled₁, app₁, holding', sweptTo, finished, stuck⟩ :=
      sweep_marks env (holding_table sound keyed)
    have readable : Map.Readable env.quiet app.clients := by
      by_contra unreadable
      exact stuck unreadable _ ran
    rw [finished readable] at ran
    cases ran
    refine ⟨?_, readable⟩
    by_contra loose
    obtain ⟨other, skipped⟩ : ∃ other, (.skipped, other) ∈ app.clients.table.flatMap walk := by
      by_contra unskipped
      refine loose fun h client found goes => (leaving_last_iff sound).mpr ?_ h client found
        (beq_iff_eq.mpr goes)
      intro bucket member e inner
      rw [← Bool.not_eq_true]
      intro leaving
      obtain ⟨other, skipped⟩ := walk_skips inner leaving
      exact unskipped ⟨other, List.mem_flatMap.mpr ⟨bucket, member, skipped⟩⟩
    obtain ⟨sound', table⟩ := Map.sound_of_represents holding'.represents holding'.valid
    have present : (app'.clientOf other.key).isSome := by
      rw [Option.isSome_iff_exists]
      refine ⟨other.val, (clientOf_eq_some sound' _ _).mpr ⟨other, ?_, rfl, rfl⟩⟩
      rw [table, sweepBucket_flatten]
      exact List.mem_filterMap.mpr ⟨_, skipped, rfl⟩
    obtain ⟨rest, split, _, sockets⟩ := swept.sockets
    rw [sweptTo.polled, List.singleton_append, List.cons.injEq] at split
    have polledOther := (sockets other.key).mpr present
    rw [← split.2, marked, List.mem_filterMap] at polledOther
    obtain ⟨pair, walked, kept⟩ := polledOther
    rw [Option.ite_none_right_eq_some, Option.some.injEq] at kept
    have distinct : ((app.clients.table.flatMap walk).map fun pair => pair.2.key).Nodup := by
      have keys := Map.keys_nodup handleEq_exact sound
      rw [Map.keys_eq_flatten, ← walks_entries, List.map_map] at keys
      exact keys
    rw [List.inj_on_of_nodup_map distinct walked skipped kept.2] at kept
    cases kept.1
  · rintro ⟨last, readable⟩
    obtain ⟨polled, app', ran, swept, _⟩ := sweep_exact sound keyed env readable
      fun h client found goes => last h client found (eq_of_beq goes)
    exact ⟨polled, app', ran, swept⟩

end Exact

/-- Handles 4 and 54 share a bucket of 50: closing 4 leaves 54 unpolled. -/
theorem sweep_skips_a_client : ∃ app, twoUsers 4 54 = .ok app ∧
    app.clients.Sound handleHash handleEq ∧
    (∀ h client, app.clientOf h = some client → client.handle = h) ∧
    ¬ ∃ polled app', sweep .idle app = .ok (polled, app') ∧ Swept app polled app' := by
  obtain ⟨app, built, formed, _⟩ := twoUsers_formed (show (4 : Handle) ≠ 54 by decide)
  have outcome : (twoUsers 4 54 >>= sweep .idle).map
      (fun swept => (swept.1, (swept.2.clientOf 54).isSome)) = .ok ([3], true) := by
    decide +kernel
  rw [built] at outcome
  refine ⟨app, built, formed.clients, formed.keyed, ?_⟩
  rintro ⟨polled, app', ran, swept⟩
  rw [ok_bind, ran] at outcome
  obtain ⟨alone, present⟩ := Prod.mk.inj (Except.ok.inj outcome)
  obtain ⟨rest, split, _, sockets⟩ := swept.sockets
  have polledOther := (sockets 54).mpr present
  rw [show polled = [3] from alone] at split
  obtain ⟨_, rfl⟩ := List.cons.inj split
  cases polledOther

/-- Handles in different buckets: 4 is closed, 5 is polled. -/
theorem sweep_exact_apart : ∃ app polled app', twoUsers 4 5 = .ok app ∧
    sweep .idle app = .ok (polled, app') ∧ Swept app polled app' := by
  obtain ⟨app, built, formed, _⟩ := twoUsers_formed (show (4 : Handle) ≠ 5 by decide)
  have unshared : (twoUsers 4 5).map (fun app => decide app.clients.Unshared) = .ok true := by
    decide +kernel
  rw [built] at unshared
  have apart : app.clients.Unshared := of_decide_eq_true (Except.ok.inj unshared)
  obtain ⟨polled, app', ran, swept⟩ :=
    (sweep_exact_iff_last_in_bucket formed.clients formed.keyed .idle).mpr
      ⟨fun h _ _ _ => apart.lastInBucket h, Or.inl rfl⟩
  exact ⟨app, polled, app', built, ran, swept⟩

end AuroraComms
