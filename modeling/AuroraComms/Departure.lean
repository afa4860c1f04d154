import AuroraComms.Turn
import AuroraComms.Effects

/-! Users come and go. A user is removed through a pointer into the bucket its
entry was found in; when another entry follows it there, the removal moves that
entry under the pointer, and the rest of the work is done on the wrong user. -/
namespace AuroraComms
open Meta Library.Run

/-! ## Arrival -/

section Arrival
variable {env : Env} {app : App} {h : Handle}

/-- A new object changes no object there was. -/
private theorem userAt_alloc (app : App) (new : User) :
    ({ app with heap := app.heap ++ [some new] } : App).userAt app.heap.length = some new ∧
      ∀ q user, app.userAt q = some user →
        ({ app with heap := app.heap ++ [some new] } : App).userAt q = some user := by
  refine ⟨by simp [App.userAt], fun q user live => ?_⟩
  obtain ⟨cell, stored, rfl⟩ := Option.bind_eq_some_iff.mp live
  have inside := (List.getElem?_eq_some_iff.mp stored).1
  rw [App.userAt, List.getElem?_append_left inside, stored]
  rfl

private theorem alloc_sound (sound : app.Sound) (new : User) :
    ({ app with heap := app.heap ++ [some new] } : App).Sound := by
  have kept := (userAt_alloc app new).2
  refine ⟨⟨sound.clients, sound.handles, sound.names, sound.keyed, ?_⟩, ?_⟩
  · intro k q held
    obtain ⟨user, live, keyed⟩ := sound.linked k q held
    exact ⟨user, kept q user live, keyed⟩
  · intro name q registered
    obtain ⟨user, live, held⟩ := sound.registered name q registered
    exact ⟨user, kept q user live, held⟩

private theorem alloc_room (sound : app.Sound) (new : User) :
    ({ app with heap := app.heap ++ [some new] } : App).room = app.room := by
  have kept := (userAt_alloc app new).2
  apply Room.ext
  · rfl
  · rfl
  · funext k
    show (app.ptrOf k).bind _ = (app.ptrOf k).bind _
    cases held : app.ptrOf k with
    | none => rfl
    | some q =>
      obtain ⟨user, live, _⟩ := sound.linked k q held
      rw [Option.bind_some, Option.bind_some, live]
      exact kept q user live
  · funext name
    show ((app.named name).bind _).map _ = ((app.named name).bind _).map _
    cases registered : app.named name with
    | none => rfl
    | some q =>
      obtain ⟨user, live, _⟩ := sound.registered name q registered
      rw [Option.bind_some, Option.bind_some, live, kept q user live]

/-- A user without an entry is entered under its handle. -/
private theorem enroll_ok (sound : app.Sound) {p : UserPtr} {user : User} (live : app.userAt p = some user)
    (unknown : app.ptrOf user.handle = none) :
    ∃ handles, app.fromHandle.set handleHash handleEq user.handle p = .ok handles ∧
      ({ app with fromHandle := handles } : App).Sound ∧
      ({ app with fromHandle := handles } : App).room = { app.room with
        roster := handles.keys
        user := Function.update app.room.user user.handle (some user) } := by
  obtain ⟨handles, stored, laid, found⟩ := Map.set_ok handleEq_exact sound.handles user.handle p
  have ptrOf : ({ app with fromHandle := handles } : App).ptrOf =
      Function.update app.ptrOf user.handle (some p) := found
  refine ⟨handles, stored, ⟨⟨sound.clients, laid, sound.names, sound.keyed, ?_⟩, ?_⟩, ?_⟩
  · intro k q held
    rw [ptrOf, Function.update_apply] at held
    split at held
    · rename_i here
      cases held
      exact ⟨user, live, here.symm⟩
    · exact sound.linked k q held
  · intro name q registered
    obtain ⟨other, there, held⟩ := sound.registered name q registered
    refine ⟨other, there, ?_⟩
    rw [ptrOf, Function.update_of_ne]
    · exact held
    · intro same
      rw [same, unknown] at held
      cases held
  · apply Room.ext
    · rfl
    · rfl
    · funext k
      show (({ app with fromHandle := handles } : App).ptrOf k).bind app.userAt =
        Function.update app.room.user user.handle (some user) k
      rw [ptrOf, Function.update_apply, Function.update_apply]
      split
      · exact live
      · rfl
    · rfl

/-- A new user is greeted and entered under its handle. -/
theorem createUser_ok (env : Env) (sound : app.Sound) (connected : (app.clientOf h).isSome)
    (unknown : app.ptrOf h = none) :
    ∃ app', createUser env h app = .ok app' ∧ app'.Sound ∧
      app'.room = { app.room with
        roster := app'.fromHandle.keys
        user := Function.update app.room.user h (some ⟨h, .login, []⟩) } ∧
      app'.trace = app.trace ++
        (frame h .afterEnter (.greeting app.room.roster.length (uptimeDays env app)) ++ [.userNew h]) ∧
      app'.clients.keyTable = app.clients.keyTable ∧
      app'.clients.bkts.alen = app.clients.bkts.alen := by
  have allocated := (userAt_alloc app ⟨h, .login, []⟩).1
  have sound₁ := alloc_sound sound ⟨h, .login, []⟩
  obtain ⟨second, greeted, moved⟩ := printFmt_emits env sound₁.toLaid allocated connected .afterEnter
    (.greeting app.room.roster.length (uptimeDays env app))
  have sound₂ := moved.sound sound₁
  have live : second.userAt app.heap.length = some ⟨h, .login, []⟩ := by
    rw [moved.userAt]
    exact allocated
  obtain ⟨handles, stored, sound₃, room⟩ := enroll_ok sound₂ live (by rw [moved.ptrOf]; exact unknown)
  refine ⟨{ second with fromHandle := handles }.note (.userNew h), ?_, ?_, ?_, ?_, ?_, ?_⟩
  · have days : uptimeDays env { app with heap := app.heap ++ [some ⟨h, .login, []⟩] } =
        uptimeDays env app := rfl
    simp only [createUser, userNew, App.allocUser, stateNew, App.user_of_userAt allocated, ok_bind]
    rw [roster_eq sound.toLaid] at greeted
    simp only [days, greeted, ok_bind, pure_eq_ok, App.user_of_userAt live, stored]
  · exact (note_outputs sound₃.toLaid (.userNew h)).sound sound₃
  · rw [moved.room, alloc_room sound] at room
    exact room
  · show second.trace ++ _ = _
    rw [moved.trace, List.append_assoc]
  · exact moved.keyTable
  · exact moved.alen

end Arrival

/-! ## Departure -/

/-- The notices of a departure: one to each user of the roster that is in the
chat. -/
def farewells (room : Room) (roster : List Handle) (name : Bytes) : List Event :=
  roster.flatMap fun k => if room.inChat k then frame k .interrupt (.left name) else []

/-- What the removal of the entry of `h` comes to when the rest of the work is
done on the user at `q`. -/
structure Removes (env : Env) (app app' : App) (h : Handle) (q : UserPtr) (gone : User) : Prop where
  ptrOf : app'.ptrOf = Function.update app.ptrOf h none
  named : app'.named = Function.update app.named gone.username none
  userAt : app'.userAt = Function.update app.userAt q none
  clientOf : ∀ k, app'.clientOf k = (app.clientOf k).map
    (·.push ((farewells app.room app'.fromHandle.keys gone.username).flatMap (render env k)))
  trace : app'.trace = app.trace ++
    .userRemoved h :: farewells app.room app'.fromHandle.keys gone.username

/-- The tables, after a step that may have freed anything. -/
structure Tables (app app' : App) : Prop where
  clients : app'.clients.Sound handleHash handleEq
  handles : app'.fromHandle.Sound handleHash handleEq
  names : app'.fromUsername.Sound stringHash stringEq
  keyTable : app'.clients.keyTable = app.clients.keyTable
  alen : app'.clients.bkts.alen = app.clients.bkts.alen

section Removal
variable {env : Env} {app : App} {h : Handle} {p : UserPtr} {user : User}

/-- Dropping the name of the user a pointer leads to. -/
private theorem dropUsername_ok (laid : app.Laid) {s : Slot} (stale : staleUser s app = .ok user) :
    ∃ names, dropUsername s app = .ok { app with fromUsername := names } ∧
      names.Sound stringHash stringEq ∧
      names.find stringHash stringEq = Function.update app.named user.username none := by
  have contained := Map.contains_found laid.names user.username
  simp only [dropUsername, stale, ok_bind, contained]
  cases registered : app.named user.username with
  | none =>
    have absent : app.fromUsername.find stringHash stringEq user.username = none := registered
    refine ⟨app.fromUsername, by simp [absent], laid.names, ?_⟩
    rw [← registered, Function.update_eq_self]
    rfl
  | some q =>
    have present : app.fromUsername.find stringHash stringEq user.username = some q := registered
    obtain ⟨names, ran, sound, found, _, _⟩ :=
      Map.remove_ok stringEq_exact laid.names user.username
    exact ⟨names, by simp [present, ran], sound, found⟩

/-- Taking an entry out of the table of handles. -/
private theorem erase_laid (laid : app.Laid) {handles : Map Handle UserPtr}
    (sound : handles.Sound handleHash handleEq)
    (found : handles.find handleHash handleEq = Function.update app.ptrOf h none) :
    ({ app with fromHandle := handles } : App).Laid := by
  refine ⟨laid.clients, sound, laid.names, laid.keyed, ?_⟩
  intro k q held
  rw [App.ptrOf, found, Function.update_apply] at held
  split at held
  · cases held
  · exact laid.linked k q held

/-- The loop that announces a departure tells everyone in the chat. -/
private theorem farewell_emits (env : Env) (laid : app.Laid) (seated : app.Seated)
    (readable : Map.Readable env.quiet app.fromHandle) {s : Slot} (stale : staleUser s app = .ok user) :
    ∃ app', Map.foreach env.quiet App.fromHandle (farewellTurn env s) app = .ok app' ∧
      Emits env (farewells app.room app.fromHandle.keys user.username) app app' := by
  refine foreach_emits laid readable _ _ ?_
  intro slot k done app' moved here
  obtain ⟨q, other, _, read, held, there, keyed, known⟩ := user_at moved.laid here
  rw [moved.room] at known
  have still : staleUser s app' = .ok user := by
    rw [← stale, staleUser, staleUser, moved.fromHandle]
    have same : app'.user = app.user := by
      funext r
      rw [App.user, App.user, moved.heap]
    rw [same]
  by_cases chatting : other.state = .chat
  · obtain ⟨app'', ran, more⟩ := printFmt_emits env moved.laid there
      (by rw [keyed]; exact moved.seated seated k (by rw [held]; rfl)) .interrupt
      (.left user.username)
    rw [keyed] at more
    refine ⟨app'', ?_, more.same ?_ ?_⟩
    · simp [farewellTurn, read, App.user_of_userAt there, chatting, still, ran]
    · simp [Room.inChat, known, chatting]
    · simp [Room.inChat, known, chatting]
  · refine ⟨app', ?_, (Outputs.refl moved.laid).same ?_ ?_⟩
    · simp [farewellTurn, read, App.user_of_userAt there, chatting]
    · simp [Room.inChat, known, chatting]
    · simp [Room.inChat, known, chatting]

/-- Those who are left are told the same as before. -/
private theorem farewells_erased {handles : Map Handle UserPtr} (names : Map Bytes UserPtr) (event : Event)
    (sound : handles.Sound handleHash handleEq)
    (erased : handles.find handleHash handleEq = Function.update (app.fromHandle.find handleHash handleEq) h none)
    (name : Bytes) :
    farewells ({ { app with fromHandle := handles }.note event with fromUsername := names } : App).room
      handles.keys name = farewells app.room handles.keys name := by
  refine List.flatMap_congr fun k member => ?_
  have same : ({ { app with fromHandle := handles }.note event with fromUsername := names } : App).room.user k =
      app.room.user k := by
    show (handles.find handleHash handleEq k).bind app.userAt = (app.ptrOf k).bind app.userAt
    have present := (Map.mem_keys handleEq_exact sound).mp member
    rw [erased, Function.update_apply] at present ⊢
    split at present
    · cases present
    · rename_i other
      rw [if_neg other]
      rfl
  rw [Room.inChat, same]
  rfl

/-- What the removing branch does: the entry goes, and the rest of the work is
done on the user whose entry moved into its slot, if one did. -/
theorem removeUser_ok (laid : app.Laid) (seated : app.Seated)
    (readable : Map.Readable env.quiet app.fromHandle) {s : Slot}
    (found : app.fromHandle.get handleHash handleEq h = .ok s)
    (here : app.fromHandle.keyAt s = some h) :
    ∃ app' q gone, removeUser env h app = .ok app' ∧
      app.ptrOf ((app.fromHandle.keyAt ⟨s.bkt, s.idx + 1⟩).getD h) = some q ∧
      app.userAt q = some gone ∧ Removes env app app' h q gone ∧ Tables app app' := by
  obtain ⟨p, user, _, read, held, live, keyed, known⟩ := user_at laid here
  obtain ⟨handles, removed, sound, erased, alen, table⟩ :=
    Map.remove_ok handleEq_exact laid.handles h
  obtain ⟨q, heir, vacated⟩ := Map.val_vacated handleEq_exact laid.handles here removed
  obtain ⟨gone, there, _⟩ := laid.linked _ q heir
  -- the state once the entry is gone
  have laid₁ := erase_laid laid sound erased
  have noted := note_outputs laid₁ (.userRemoved h)
  have stale₁ : staleUser s ({ app with fromHandle := handles }.note (.userRemoved h)) = .ok gone := by
    show (handles.val s >>= App.user _) = .ok gone
    rw [vacated]
    exact App.user_of_userAt there
  obtain ⟨names, dropped, namesSound, unnamed⟩ := dropUsername_ok noted.laid stale₁
  have laid₂ : ({ { app with fromHandle := handles }.note (.userRemoved h) with
      fromUsername := names } : App).Laid :=
    ⟨laid.clients, sound, namesSound, laid.keyed, laid₁.linked⟩
  have fit : handles.bkts.acap = app.fromHandle.bkts.acap := by
    rw [sound.represents.acap, table, Library.Chain.erase_length, ← laid.handles.represents.acap]
  obtain ⟨third, told, moved⟩ := farewell_emits env laid₂
    (by
      intro k seat
      change (handles.find handleHash handleEq k).isSome at seat
      rw [erased, Function.update_apply] at seat
      split at seat
      · cases seat
      · exact seated k seat)
    (by
      rcases readable with kind | same
      · exact Or.inl kind
      · exact Or.inr (by
          show handles.bkts.alen = handles.bkts.acap
          rw [alen, fit, same]))
    stale₁
  have freed : third.freeUser q = .ok { third with heap := third.heap.set q none } :=
    App.freeUser_of_userAt (by rw [moved.userAt]; exact there)
  have left := farewells_erased names (.userRemoved h) sound erased gone.username
  have keys : third.fromHandle.keys = handles.keys := by rw [moved.fromHandle]; rfl
  refine ⟨{ third with heap := third.heap.set q none }, q, gone, ?_, heir, there, ⟨?_, ?_, ?_, ?_, ?_⟩, ?_⟩
  · have stale : staleUser s app = .ok user := by
      rw [staleUser, read]
      exact App.user_of_userAt live
    have last : third.fromHandle.val s = .ok q := by
      rw [moved.fromHandle]
      exact vacated
    simp only [removeUser, found, ok_bind, stale, keyed, removed, dropped, told, last, freed]
  · show third.fromHandle.find handleHash handleEq = _
    rw [moved.fromHandle]
    exact erased
  · show third.fromUsername.find stringHash stringEq = _
    rw [moved.fromUsername]
    exact unnamed
  · funext r
    show (third.heap.set q none)[r]?.join = _
    have all := App.userAt_set there none r
    rw [moved.heap]
    show (app.heap.set q none)[r]?.join = _
    rw [all, Function.update_apply]
    simp only [eq_comm]
  · intro k
    show third.clientOf k = (app.clientOf k).map
      (·.push ((farewells app.room third.fromHandle.keys gone.username).flatMap (render env k)))
    rw [keys, ← left]
    exact moved.clientOf k
  · show third.trace = app.trace ++
      .userRemoved h :: farewells app.room third.fromHandle.keys gone.username
    rw [keys, ← left, moved.trace]
    exact List.append_assoc _ _ _
  · exact ⟨moved.laid.clients, by rw [moved.fromHandle]; exact sound,
      by rw [moved.fromUsername]; exact namesSound, moved.keyTable, moved.alen⟩

private theorem dropUsername_fromHandle {app' : App} {s : Slot} (ran : dropUsername s app = .ok app') :
    app'.fromHandle = app.fromHandle := by
  obtain ⟨user, _, ran⟩ := bind_eq_ok.mp ran
  obtain ⟨found, _, ran⟩ := bind_eq_ok.mp ran
  cases found with
  | false => cases ran; rfl
  | true =>
    obtain ⟨user, _, ran⟩ := bind_eq_ok.mp ran
    obtain ⟨names, _, ran⟩ := bind_eq_ok.mp ran
    cases ran
    rfl

private theorem farewellTurn_fromHandle {app' : App} {gone s : Slot}
    (ran : farewellTurn env gone s app = .ok app') : app'.fromHandle = app.fromHandle := by
  obtain ⟨q, _, ran⟩ := bind_eq_ok.mp ran
  obtain ⟨other, _, ran⟩ := bind_eq_ok.mp ran
  split at ran
  · obtain ⟨user, _, ran⟩ := bind_eq_ok.mp ran
    exact (printFmt_sameUsers ran).2
  · cases ran
    rfl

/-- The removing branch does not return from a table it cannot read. -/
theorem removeUser_readable (laid : app.Laid) {app' : App} (ran : removeUser env h app = .ok app') :
    Map.Readable env.quiet app.fromHandle := by
  by_contra unreadable
  obtain ⟨s, _, ran⟩ := bind_eq_ok.mp ran
  obtain ⟨user, _, ran⟩ := bind_eq_ok.mp ran
  obtain ⟨handles, removed, ran⟩ := bind_eq_ok.mp ran
  obtain ⟨second, dropped, ran⟩ := bind_eq_ok.mp ran
  obtain ⟨third, told, _⟩ := bind_eq_ok.mp ran
  obtain ⟨handles', ran', sound, _, alen, table⟩ :=
    Map.remove_ok handleEq_exact laid.handles user.handle
  rw [removed] at ran'
  cases ran'
  have same : second.fromHandle = handles := dropUsername_fromHandle dropped
  have fit : handles.bkts.acap = app.fromHandle.bkts.acap := by
    rw [sound.represents.acap, table, Library.Chain.erase_length, ← laid.handles.represents.acap]
  have unread : ¬ Map.Readable env.quiet handles := by
    rw [Map.Readable, alen, fit]
    exact unreadable
  have dangling := Map.unreadable_slot sound.represents unread
  refine Map.foreach_stuck App.fromHandle _ ?_ second third (by rw [same]; exact dangling) told
  intro slot before after stuck turned
  rw [farewellTurn_fromHandle turned]
  exact stuck

/-! ## Exactly that user -/

/-- An application state: every user is connected, and a registered name is
that of the user it leads to. -/
structure App.Formed (app : App) : Prop extends App.Sound app where
  seated : app.Seated
  owned : ∀ name p user, app.named name = some p → app.userAt p = some user → user.username = name

/-- The removal of the user at `p`, and of nothing that a table still leads to. -/
structure RemovesExactly (env : Env) (app app' : App) (h : Handle) (p : UserPtr) (user : User) : Prop
    extends Removes env app app' h p user where
  sound : app'.Sound

/-- When the slot is not the last of its bucket, another user takes its place. -/
private theorem heir_apart (laid : app.Laid) {s : Slot} {q : UserPtr} {gone : User} {k : Handle}
    (here : app.fromHandle.keyAt s = some h) (live : app.userAt p = some user)
    (keyed : user.handle = h) (next : app.fromHandle.keyAt ⟨s.bkt, s.idx + 1⟩ = some k)
    (heir : app.ptrOf k = some q) (there : app.userAt q = some gone) : q ≠ p := by
  rintro rfl
  obtain ⟨other, same, keyed'⟩ := laid.linked k q heir
  rw [there] at same live
  cases same
  cases live
  rw [← keyed', keyed] at next
  have clash := congrArg Slot.idx (Map.keyAt_unique handleEq_exact laid.handles here next)
  simp at clash

theorem removes_sound (formed : app.Formed) {app' : App} (held : app.ptrOf h = some p)
    (live : app.userAt p = some user) (removes : Removes env app app' h p user)
    (tables : Tables app app') : app'.Sound := by
  have apart : ∀ k q, app.ptrOf k = some q → k ≠ h → p ≠ q := by
    rintro k q there other rfl
    obtain ⟨one, liveOne, keyedOne⟩ := formed.linked k _ there
    obtain ⟨two, liveTwo, keyedTwo⟩ := formed.linked h _ held
    rw [liveOne] at liveTwo
    cases liveTwo
    exact other (keyedOne.symm.trans keyedTwo)
  refine ⟨⟨tables.clients, tables.handles, tables.names, ?_, ?_⟩, ?_⟩
  · intro k client stored
    rw [removes.clientOf, Option.map_eq_some_iff] at stored
    obtain ⟨before, stored, rfl⟩ := stored
    exact formed.keyed k before stored
  · intro k q there
    rw [removes.ptrOf, Function.update_apply] at there
    split at there
    · cases there
    · rename_i other
      obtain ⟨one, liveOne, keyedOne⟩ := formed.linked k q there
      refine ⟨one, ?_, keyedOne⟩
      rw [removes.userAt, Function.update_of_ne (apart k q there other).symm]
      exact liveOne
  · intro name q registered
    rw [removes.named, Function.update_apply] at registered
    split at registered
    · cases registered
    · rename_i other
      obtain ⟨one, liveOne, back⟩ := formed.registered name q registered
      have own := formed.owned name q one registered liveOne
      have different : p ≠ q := by
        rintro rfl
        rw [live] at liveOne
        cases liveOne
        exact other own.symm
      refine ⟨one, ?_, ?_⟩
      · rw [removes.userAt, Function.update_of_ne different.symm]
        exact liveOne
      · rw [removes.ptrOf, Function.update_of_ne]
        · exact back
        · intro mine
          rw [mine, held] at back
          exact different (Option.some.inj back)

/-- A removal from the last slot of a bucket is exact. -/
theorem removeUser_exact (formed : app.Formed) (readable : Map.Readable env.quiet app.fromHandle)
    (last : app.fromHandle.LastInBucket h) (held : app.ptrOf h = some p)
    (live : app.userAt p = some user) :
    ∃ app', removeUser env h app = .ok app' ∧ RemovesExactly env app app' h p user ∧
      Tables app app' := by
  obtain ⟨s, found, _, here⟩ := Map.get_found handleEq_exact formed.handles held
  obtain ⟨app', q, gone, ran, heir, there, removes, tables⟩ :=
    removeUser_ok formed.toLaid formed.seated readable found here
  rw [(Map.lastInBucket_iff handleEq_exact formed.handles here).mp last, Option.getD_none, held] at heir
  cases heir
  rw [live] at there
  cases there
  exact ⟨app', ran, ⟨removes, removes_sound formed held live removes tables⟩, tables⟩

/-- Handling a client that is to be removed removes exactly its user if and
only if the user's entry is the last of its bucket and no loop over the table
of handles meets a freed bucket. -/
theorem removal_exact_iff_last_in_bucket (env : Env) (app : App) (formed : app.Formed) (s : Slot)
    (h : Handle) (client : Client) (here : app.clients.keyAt s = some h)
    (stored : app.clientOf h = some client) (flagged : client.state = .toBeRemoved) (p : UserPtr)
    (user : User) (held : app.ptrOf h = some p) (live : app.userAt p = some user) :
    (∃ app', updateClient env s app = .ok app' ∧ RemovesExactly env app app' h p user) ↔
      app.fromHandle.LastInBucket h ∧ Map.Readable env.quiet app.fromHandle := by
  obtain ⟨other, same, _, loaded⟩ := Map.entry_keyAt handleEq_exact formed.clients here
  rw [App.clientOf, same] at stored
  cases stored
  have branch : updateClient env s app = removeUser env h app := by
    have own := formed.keyed h client same
    change app.client s = .ok client at loaded
    simp only [updateClient, loaded, ok_bind, flagged, own]
  rw [branch]
  constructor
  · rintro ⟨app', ran, exactly⟩
    have readable := removeUser_readable formed.toLaid ran
    refine ⟨?_, readable⟩
    obtain ⟨slot, found, _, at_h⟩ := Map.get_found handleEq_exact formed.handles held
    obtain ⟨app'', q, gone, ran', heir, there, removes, _⟩ :=
      removeUser_ok formed.toLaid formed.seated readable found at_h
    rw [ran] at ran'
    cases ran'
    rw [Map.lastInBucket_iff handleEq_exact formed.handles at_h]
    cases next : app.fromHandle.keyAt ⟨slot.bkt, slot.idx + 1⟩ with
    | none => rfl
    | some k =>
      rw [next, Option.getD_some] at heir
      obtain ⟨_, live', keyed⟩ := formed.linked h p held
      rw [live] at live'
      cases live'
      have apart := heir_apart formed.toLaid at_h live keyed next heir there
      have both := congrFun (removes.userAt.symm.trans exactly.userAt) p
      rw [Function.update_of_ne apart.symm, Function.update_self, live] at both
      cases both
  · rintro ⟨last, readable⟩
    obtain ⟨app', ran, exactly, _⟩ := removeUser_exact formed readable last held live
    exact ⟨app', ran, exactly⟩

/-- Two connected clients and their users, the first client to be removed. -/
def twoUsers (a b : Handle) : Except Fault App := do
  let clients ← (Map.newReserve clientsMax).set handleHash handleEq a ⟨a, .toBeRemoved, [], []⟩
  let clients ← clients.set handleHash handleEq b ⟨b, .online, [], []⟩
  let fromHandle ← (Map.newReserve clientsMax).set handleHash handleEq a 0
  let fromHandle ← fromHandle.set handleHash handleEq b 1
  return {
    server := ⟨3, clients⟩
    fromHandle := fromHandle
    fromUsername := Map.newReserve clientsMax
    heap := [some ⟨a, .login, []⟩, some ⟨b, .login, []⟩]
    appStartTime := 0
    trace := [] }

theorem twoUsers_formed {a b : Handle} (apart : a ≠ b) :
    ∃ app, twoUsers a b = .ok app ∧ app.Formed ∧ app.ptrOf a = some 0 ∧
      app.userAt 0 = some ⟨a, .login, []⟩ ∧ app.clientOf a = some ⟨a, .toBeRemoved, [], []⟩ := by
  have noClients : (Map.newReserve clientsMax : Map Handle Client).Sound handleHash handleEq ∧
      ∀ h, (Map.newReserve clientsMax : Map Handle Client).find handleHash handleEq h = none :=
    Map.newReserve_sound (by decide)
  have noUsers : (Map.newReserve clientsMax : Map Handle UserPtr).Sound handleHash handleEq ∧
      ∀ h, (Map.newReserve clientsMax : Map Handle UserPtr).find handleHash handleEq h = none :=
    Map.newReserve_sound (by decide)
  have noNames : (Map.newReserve clientsMax : Map Bytes UserPtr).Sound stringHash stringEq ∧
      ∀ name, (Map.newReserve clientsMax : Map Bytes UserPtr).find stringHash stringEq name = none :=
    Map.newReserve_sound (by decide)
  obtain ⟨c₁, ran₁, sound₁, find₁⟩ :=
    Map.set_ok handleEq_exact noClients.1 a ⟨a, .toBeRemoved, [], []⟩
  obtain ⟨c₂, ran₂, sound₂, find₂⟩ := Map.set_ok handleEq_exact sound₁ b ⟨b, .online, [], []⟩
  obtain ⟨u₁, ran₃, sound₃, find₃⟩ := Map.set_ok handleEq_exact noUsers.1 a 0
  obtain ⟨u₂, ran₄, sound₄, find₄⟩ := Map.set_ok handleEq_exact sound₃ b 1
  have clients : ∀ h, c₂.find handleHash handleEq h = if h = b then some ⟨b, .online, [], []⟩
      else if h = a then some ⟨a, .toBeRemoved, [], []⟩ else none := by
    intro h
    rw [find₂, find₁, Function.update_apply, Function.update_apply, noClients.2]
  have users : ∀ h, u₂.find handleHash handleEq h =
      if h = b then some 1 else if h = a then some 0 else none := by
    intro h
    rw [find₄, find₃, Function.update_apply, Function.update_apply, noUsers.2]
  refine ⟨⟨⟨3, c₂⟩, u₂, Map.newReserve clientsMax, [some ⟨a, .login, []⟩, some ⟨b, .login, []⟩], 0, []⟩,
    by rw [twoUsers, ran₁, ok_bind, ran₂, ok_bind, ran₃, ok_bind, ran₄, ok_bind]; rfl,
    ⟨⟨⟨sound₂, sound₄, noNames.1, ?_, ?_⟩, ?_⟩, ?_, ?_⟩, ?_, rfl, ?_⟩
  · intro h client stored
    change c₂.find handleHash handleEq h = some client at stored
    rw [clients] at stored
    split at stored
    · rename_i same
      cases stored
      exact same.symm
    · split at stored
      · rename_i same
        cases stored
        exact same.symm
      · cases stored
  · intro h p held
    change u₂.find handleHash handleEq h = some p at held
    rw [users] at held
    split at held
    · rename_i same
      cases held
      exact ⟨_, rfl, same.symm⟩
    · split at held
      · rename_i same
        cases held
        exact ⟨_, rfl, same.symm⟩
      · cases held
  · intro name p registered
    change (Map.newReserve clientsMax : Map Bytes UserPtr).find stringHash stringEq name = _ at registered
    rw [noNames.2] at registered
    cases registered
  · intro h seat
    change (u₂.find handleHash handleEq h).isSome at seat
    show (c₂.find handleHash handleEq h).isSome
    rw [users] at seat
    rw [clients]
    split
    · rfl
    · rename_i other
      rw [if_neg other] at seat
      split
      · rfl
      · rename_i another
        rw [if_neg another] at seat
        cases seat
  · intro name p user registered
    change (Map.newReserve clientsMax : Map Bytes UserPtr).find stringHash stringEq name = _ at registered
    rw [noNames.2] at registered
    cases registered
  · show u₂.find handleHash handleEq a = some 0
    rw [users, if_neg apart, if_pos rfl]
  · show c₂.find handleHash handleEq a = _
    rw [clients, if_neg apart, if_pos rfl]

/-- Handles 4 and 54 share a bucket of 50: the user of 54 is freed in place of
the user of 4. -/
theorem removal_frees_another_user : ∃ app, twoUsers 4 54 = .ok app ∧ app.Formed ∧
    app.clients.keyAt ⟨4, 0⟩ = some 4 ∧ app.ptrOf 4 = some 0 ∧
    app.userAt 0 = some ⟨4, .login, []⟩ ∧ app.clientOf 4 = some ⟨4, .toBeRemoved, [], []⟩ ∧
    ¬ ∃ app', updateClient .idle ⟨4, 0⟩ app = .ok app' ∧
      RemovesExactly .idle app app' 4 0 ⟨4, .login, []⟩ := by
  obtain ⟨app, built, formed, held, live, stored⟩ := twoUsers_formed (show (4 : Handle) ≠ 54 by decide)
  have placed : (twoUsers 4 54).map (fun app => app.clients.keyAt ⟨4, 0⟩) = .ok (some 4) := by
    decide +kernel
  have outcome : (twoUsers 4 54 >>= updateClient .idle ⟨4, 0⟩).map (fun app => app.userAt 0) =
      .ok (some ⟨4, .login, []⟩) := by
    decide +kernel
  rw [built] at placed outcome
  refine ⟨app, built, formed, Except.ok.inj placed, held, live, stored, ?_⟩
  rintro ⟨app', ran, exactly⟩
  rw [ok_bind, ran] at outcome
  have kept : app'.userAt 0 = some ⟨4, .login, []⟩ := Except.ok.inj outcome
  rw [exactly.userAt, Function.update_self] at kept
  cases kept

/-- Handles in different buckets: the user of 4 goes, and only that one. -/
theorem removal_exact_apart : ∃ app app', twoUsers 4 5 = .ok app ∧
    updateClient .idle ⟨4, 0⟩ app = .ok app' ∧ RemovesExactly .idle app app' 4 0 ⟨4, .login, []⟩ := by
  obtain ⟨app, built, formed, held, live, stored⟩ := twoUsers_formed (show (4 : Handle) ≠ 5 by decide)
  have placed : (twoUsers 4 5).map (fun app => app.clients.keyAt ⟨4, 0⟩) = .ok (some 4) := by
    decide +kernel
  have last : (twoUsers 4 5).map (fun app => decide (app.fromHandle.LastInBucket 4)) = .ok true := by
    decide +kernel
  rw [built] at placed last
  obtain ⟨app', ran, exactly⟩ := (removal_exact_iff_last_in_bucket .idle app formed ⟨4, 0⟩ 4 _
    (Except.ok.inj placed) stored rfl 0 _ held live).mpr
    ⟨of_decide_eq_true (Except.ok.inj last), Or.inl rfl⟩
  exact ⟨app, app', built, ran, exactly⟩

end Removal
end AuroraComms
