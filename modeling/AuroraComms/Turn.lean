import AuroraComms.Reaction

/-! A line handled by the program is a turn of the room, in each of the three
states a user can be in. -/
namespace AuroraComms
open Meta Library.Run

section Lines
variable {env : Env} {app app' : App} {p : UserPtr} {user : User} {line : Bytes} {h : Handle}

/-- A user whose object is at `p`, in its place in the table and connected. -/
structure Present (app : App) (p : UserPtr) (user : User) : Prop where
  held : app.ptrOf user.handle = some p
  live : app.userAt p = some user
  connected : (app.clientOf user.handle).isSome

theorem Outputs.present {out : Handle → Bytes} {events : List Event}
    (moved : Outputs out events app app') (here : Present app p user) : Present app' p user where
  held := by rw [moved.ptrOf]; exact here.held
  live := by rw [moved.userAt]; exact here.live
  connected := by rw [moved.isSome]; exact here.connected

/-- Assigning to a user object under its own handle. -/
theorem setUser_acts (sound : app.Sound) (here : Present app p user) (new : User)
    (same : new.handle = user.handle) :
    ∃ app', app.setUser p new = .ok app' ∧ Acts (app.room.setUser new, []) app app' ∧
      Present app' p new ∧ app' = { app with heap := app'.heap } := by
  have objects : ∀ q, ({ app with heap := app.heap.set p (some new) } : App).userAt q =
      if p = q then some new else app.userAt q := App.userAt_set here.live (some new)
  have elsewhere : ∀ h q, app.ptrOf h = some q → p = q → h = user.handle := by
    rintro h q held rfl
    obtain ⟨other, there, keyed⟩ := sound.linked h _ held
    rw [here.live] at there
    cases there
    exact keyed.symm
  refine ⟨{ app with heap := app.heap.set p (some new) }, App.setUser_of_userAt here.live new, ?_,
    ⟨by rw [same]; exact here.held, by rw [objects, if_pos rfl],
      by rw [same]; exact here.connected⟩, rfl⟩
  refine ⟨⟨⟨sound.clients, sound.handles, sound.names, sound.keyed, ?_⟩, ?_⟩, ?_,
    (List.append_nil _).symm, rfl, rfl, rfl, rfl, rfl⟩
  · intro h q held
    rw [objects]
    by_cases own : p = q
    · exact ⟨new, if_pos own, by rw [same, elsewhere h q held own]⟩
    · rw [if_neg own]
      exact sound.linked h q held
  · intro name q registered
    obtain ⟨other, live, held⟩ := sound.registered name q registered
    rw [objects]
    by_cases own : p = q
    · subst own
      rw [here.live] at live
      cases live
      exact ⟨new, if_pos rfl, by rw [same]; exact held⟩
    · rw [if_neg own]
      exact ⟨other, live, held⟩
  · apply Room.ext
    · rfl
    · rfl
    · funext h
      show (app.ptrOf h).bind _ = Function.update (fun h => (app.ptrOf h).bind app.userAt) _ _ h
      rw [Function.update_apply]
      by_cases mine : h = new.handle
      · rw [if_pos mine, mine, same, here.held, Option.bind_some, objects, if_pos rfl]
      · rw [if_neg mine]
        cases held : app.ptrOf h with
        | none => rfl
        | some q =>
          rw [Option.bind_some, Option.bind_some, objects, if_neg]
          intro own
          exact mine ((elsewhere h q held own).trans same.symm)
    · funext name
      show ((app.named name).bind _).map _ = ((app.named name).bind app.userAt).map _
      cases registered : app.named name with
      | none => rfl
      | some q =>
        rw [Option.bind_some, Option.bind_some, objects]
        by_cases own : p = q
        · rw [if_pos own, ← own, here.live, Option.map_some, Option.map_some, same]
        · rw [if_neg own]

theorem stateSwitch_acts (env : Env) (sound : app.Sound) (here : Present app p user) (state : State)
    (entered : state ≠ .login) :
    ∃ app', stateSwitch env p state app = .ok app' ∧
      Acts (app.room.setUser { user with state := state },
        frame user.handle .afterEnter (if state = .chat then .welcome user.username else .confirmExit))
        app app' ∧
      Present app' p { user with state := state } := by
  obtain ⟨first, assigned, acted, there, _⟩ := setUser_acts sound here { user with state := state } rfl
  obtain ⟨last, printed, moved⟩ := printFmt_emits env acted.sound.toLaid there.live there.connected
    .afterEnter (if state = .chat then .welcome user.username else .confirmExit)
  have result := acted.trans (moved.acts acted.sound)
  rw [acted.room] at result
  refine ⟨last, ?_, result, moved.present there⟩
  simp only [stateSwitch, App.user_of_userAt here.live, ok_bind, assigned, stateNew,
    App.user_of_userAt there.live]
  cases state with
  | login => exact absurd rfl entered
  | chat => exact printed
  | exit => exact printed

theorem handleCommand_acts (sound : app.Sound) (seated : app.Seated)
    (readable : Map.Readable env.quiet app.fromHandle) (here : Present app p user)
    (chatting : user.state = .chat) (command : isCommand line = true) :
    ∃ app', handleCommand env p line app = .ok app' ∧
      Acts (app.room.command (uptimeDays env app) user line) app app' := by
  have help : ∃ app', handleHelpCmd env p app = .ok app' ∧
      Acts (app.room, frame user.handle .afterEnter .help) app app' := by
    obtain ⟨app', ran, moved⟩ :=
      printFmt_emits env sound.toLaid here.live here.connected .afterEnter .help
    exact ⟨app', ran, moved.acts sound⟩
  rw [handleCommand_eq env p app command, Room.command]
  cases commandOf (commandWord line) with
  | none => exact help
  | some cmd =>
    cases cmd with
    | help => exact help
    | exit =>
      obtain ⟨app', ran, acted, _⟩ := stateSwitch_acts env sound here .exit (by decide)
      exact ⟨app', ran, acted⟩
    | info =>
      obtain ⟨app', ran, moved⟩ := printFmt_emits env sound.toLaid here.live here.connected .afterEnter
        (.info (uptimeDays env app) app.room.roster.length)
      rw [roster_eq sound.toLaid] at moved ran ⊢
      exact ⟨app', ran, moved.acts sound⟩
    | list =>
      obtain ⟨app', ran, moved⟩ :=
        handleListCmd_emits sound.toLaid readable here.live here.connected chatting
      exact ⟨app', ran, moved.acts sound⟩
    | whisper =>
      obtain ⟨app', ran, moved⟩ := handleWhisperCmd_emits sound seated here.live here.connected
      exact ⟨app', ran, moved.acts sound⟩

theorem owner_isSome (sound : app.Sound) (name : Bytes) :
    (app.named name).isSome = (app.room.owner name).isSome := by
  show _ = (((app.named name).bind app.userAt).map User.handle).isSome
  cases registered : app.named name with
  | none => rfl
  | some q =>
    obtain ⟨other, live, _⟩ := sound.registered name q registered
    rw [Option.bind_some, live]
    rfl

theorem seated_of_room (sound : app.Sound)
    (seated : ∀ h, (app.room.user h).isSome → (app.room.conn h).isSome) : app.Seated := by
  intro h held
  obtain ⟨q, found⟩ := Option.isSome_iff_exists.mp held
  obtain ⟨other, _, _, known⟩ := room_user sound.toLaid found
  have connected := seated h (by rw [known]; rfl)
  change ((app.clientOf h).map _).isSome at connected
  rwa [Option.isSome_map] at connected

theorem room_of_seated (seated : app.Seated) (h : Handle) (known : (app.room.user h).isSome) :
    (app.room.conn h).isSome := by
  change ((app.ptrOf h).bind app.userAt).isSome at known
  show ((app.clientOf h).map _).isSome
  rw [Option.isSome_map]
  refine seated h ?_
  cases held : app.ptrOf h with
  | none => rw [held] at known; cases known
  | some q => rfl

/-- Registering the name of a user. -/
theorem register_acts (sound : app.Sound) (here : Present app p user) :
    ∃ names, app.fromUsername.set stringHash stringEq user.username p = .ok names ∧
      Acts ({ app.room with
          owner := Function.update app.room.owner user.username (some user.handle) }, [])
        app { app with fromUsername := names } ∧
      Present { app with fromUsername := names } p user := by
  obtain ⟨names, ran, laid, found⟩ := Map.set_ok stringEq_exact sound.names user.username p
  have named : ∀ name, ({ app with fromUsername := names } : App).named name =
      if name = user.username then some p else app.named name := by
    intro name
    rw [App.named, found, Function.update_apply]
    rfl
  refine ⟨names, ran, ?_, ⟨here.held, here.live, here.connected⟩⟩
  refine ⟨⟨⟨sound.clients, sound.handles, laid, sound.keyed, sound.linked⟩, ?_⟩, ?_,
    (List.append_nil _).symm, rfl, rfl, rfl, rfl, rfl⟩
  · intro name q registered
    rw [named] at registered
    split at registered
    · cases registered
      exact ⟨user, here.live, here.held⟩
    · exact sound.registered name q registered
  · apply Room.ext
    · rfl
    · rfl
    · rfl
    · funext name
      show ((({ app with fromUsername := names } : App).named name).bind app.userAt).map _ =
        Function.update app.room.owner user.username (some user.handle) name
      rw [named, Function.update_apply]
      split
      · rw [Option.bind_some, here.live]
        rfl
      · rfl

theorem loginLine_acts (sound : app.Sound) (seated : app.Seated)
    (readable : Map.Readable env.quiet app.fromHandle) (here : Present app p user)
    (fresh : user.state = .login) (days : Int) :
    ∃ app', loginLine env p line app = .ok app' ∧ Acts (app.room.speak days user line) app app' := by
  have quiet : ∀ msg, ∃ app', printFmt env p .afterEnter msg app = .ok app' ∧
      Acts (app.room, frame user.handle .afterEnter msg) app app' := by
    intro msg
    obtain ⟨app', ran, moved⟩ := printFmt_emits env sound.toLaid here.live here.connected .afterEnter msg
    exact ⟨app', ran, moved.acts sound⟩
  have contained := Map.contains_found sound.names line
  change app.fromUsername.contains stringHash stringEq line = .ok (app.named line).isSome at contained
  rw [owner_isSome sound] at contained
  simp only [loginLine, Room.speak, fresh, List.length_eq_zero_iff, contained, ok_bind]
  by_cases blank : line = []
  · rw [if_pos blank, if_pos blank]
    obtain ⟨app', ran, moved⟩ := prompt_emits env sound.toLaid here.live here.connected
    exact ⟨app', ran, moved.acts sound⟩
  · rw [if_neg blank, if_neg blank]
    by_cases taken : (app.room.owner line).isSome
    · rw [if_pos taken, if_pos taken]
      exact quiet .taken
    · rw [if_neg taken, if_neg taken]
      by_cases invalid : (!validateUsername line) = true
      · rw [if_pos invalid, if_pos invalid]
        exact quiet .invalid
      · rw [if_neg invalid, if_neg invalid]
        obtain ⟨first, assigned, named, here₁, _⟩ := setUser_acts sound here
          { user with username := user.username ++ line } rfl
        obtain ⟨names, stored, owned, here₂⟩ := register_acts named.sound here₁
        obtain ⟨third, switched, entered, here₃⟩ := stateSwitch_acts env owned.sound here₂ .chat (by decide)
        have acted := (named.trans owned).trans entered
        have room : third.room = app.room.join
            { user with state := .chat, username := user.username ++ line } := by
          rw [entered.room, owned.room, named.room]
          simp [Room.join, Room.setUser]
        obtain ⟨last, told, moved⟩ := broadcast_emits entered.sound.toLaid
          (seated_of_room entered.sound (by
            intro h known
            rw [room] at known ⊢
            change (Function.update app.room.user user.handle _ h).isSome at known
            show (app.room.conn h).isSome
            rw [Function.update_apply] at known
            split at known
            · rename_i mine
              rw [mine]
              exact room_of_seated seated _ (by
                obtain ⟨_, _, _, known⟩ := room_user sound.toLaid here.held
                rw [known]
                rfl)
            · exact room_of_seated seated h known))
          (by rw [entered.fromHandle, owned.fromHandle, named.fromHandle]; exact readable)
          here₃.live (fun user => .joins user.username)
        refine ⟨last, ?_, ?_⟩
        · simp only [App.user_of_userAt here.live, ok_bind, assigned, stored, switched, told]
        · have result := acted.trans (moved.acts entered.sound)
          rw [room] at result
          exact result

theorem chatLine_acts (sound : app.Sound) (seated : app.Seated)
    (readable : Map.Readable env.quiet app.fromHandle) (here : Present app p user)
    (chatting : user.state = .chat) :
    ∃ app', chatLine env p line app = .ok app' ∧
      Acts (app.room.speak (uptimeDays env app) user line) app app' := by
  simp only [chatLine, Room.speak, chatting, List.length_eq_zero_iff]
  by_cases blank : line = []
  · rw [if_pos blank, if_pos blank]
    obtain ⟨app', ran, moved⟩ := prompt_emits env sound.toLaid here.live here.connected
    exact ⟨app', ran, moved.acts sound⟩
  · rw [if_neg blank, if_neg blank]
    by_cases command : isCommand line = true
    · rw [if_pos command, if_pos command]
      exact handleCommand_acts sound seated readable here chatting command
    · rw [if_neg command, if_neg command]
      obtain ⟨first, told, moved⟩ := broadcast_emits sound.toLaid seated readable here.live
        (fun user => .chat user.username line)
      have there := moved.present here
      obtain ⟨last, acknowledged, more⟩ :=
        printFmt_emits env moved.laid there.live there.connected .afterEnter (.chatAck line)
      exact ⟨last, by rw [told, ok_bind, acknowledged], (Emits.trans moved more).acts sound⟩

/-- Assigning to a connected client, its output aside, seen from the room. -/
theorem setClient_acts (sound : app.Sound) {s : Slot} (at_h : app.clients.keyAt s = some h)
    (client : Client) (keyed : client.handle = h) :
    ∃ app', app.setClient s client = .ok app' ∧
      Acts (app.room.setConn h ⟨client.state, client.inBuf⟩, []) app app' ∧
      ∀ p user, Present app p user → Present app' p user := by
  obtain ⟨app', ran, laid', updated, keyTable, alen, same⟩ :=
    setClient_keyAt sound.toLaid at_h client keyed
  have sound' : app'.Sound := ⟨laid', by rw [same]; exact sound.registered⟩
  refine ⟨app', ran, ⟨sound', ?_, ?_, ?_, keyTable, alen, ?_, ?_⟩, ?_⟩
  case refine_6 =>
    intro p user here
    refine ⟨?_, ?_, ?_⟩
    · rw [same]
      exact here.held
    · rw [same]
      exact here.live
    · rw [updated, Function.update_apply]
      split
      · rfl
      · exact here.connected
  · apply Room.ext
    · show app'.fromHandle.keys = _
      rw [same]
      rfl
    · funext other
      show (app'.clientOf other).map _ = Function.update app.room.conn h _ other
      rw [updated, Function.update_apply, Function.update_apply]
      split <;> rfl
    · funext other
      show (app'.ptrOf other).bind app'.userAt = _
      rw [same]
      rfl
    · funext name
      show ((app'.named name).bind app'.userAt).map _ = _
      rw [same]
      rfl
  all_goals rw [same]
  all_goals first | rfl | exact (List.append_nil _).symm

theorem serverRemoveClient_acts (sound : app.Sound) (connected : (app.clientOf h).isSome) :
    ∃ app', serverRemoveClient h app = .ok app' ∧
      Acts (app.room.flag h, [.goodbye h]) app app' := by
  obtain ⟨client, stored⟩ := Option.isSome_iff_exists.mp connected
  obtain ⟨s, found, at_h, loaded, keyed⟩ := client_found sound.toLaid stored
  have noted := note_outputs sound.toLaid (.goodbye h)
  obtain ⟨app', ran, acted, _⟩ := setClient_acts (noted.sound sound) at_h
    { client with state := .toBeRemoved } keyed
  refine ⟨app', ?_, ?_⟩
  · simp only [serverRemoveClient, found, ok_bind, loaded]
    exact ran
  · have result := (noted.acts sound).trans acted
    rw [noted.room] at result
    have flagged : app.room.setConn h ⟨.toBeRemoved, client.inBuf⟩ = app.room.flag h := by
      rw [Room.setConn, Room.flag, room_conn stored]
      rfl
    rw [flagged] at result
    exact result

theorem exitLine_acts (sound : app.Sound) (here : Present app p user) (leaving : user.state = .exit)
    (days : Int) :
    ∃ app', exitLine env p line app = .ok app' ∧ Acts (app.room.speak days user line) app app' := by
  simp only [exitLine, Room.speak, leaving]
  by_cases confirmed : stringEqIgnoreCase line (bytes "y") = true
  · rw [if_pos confirmed, if_pos confirmed]
    obtain ⟨app', ran, acted⟩ := serverRemoveClient_acts sound here.connected
    exact ⟨app', by rw [App.user_of_userAt here.live, ok_bind, ran], acted⟩
  · rw [if_neg confirmed, if_neg confirmed]
    obtain ⟨app', ran, acted, _⟩ := stateSwitch_acts env sound here .chat (by decide)
    exact ⟨app', ran, acted⟩

/-! ## One user's turn -/

/-- Every user that is updated takes its turn, and no lookup on the way fails. -/
theorem updateUser_acts (sound : app.Sound) (seated : app.Seated)
    (readable : Map.Readable env.quiet app.fromHandle) {s : Slot}
    (at_h : app.fromHandle.keyAt s = some h) :
    ∃ app', updateUser env s app = .ok app' ∧
      Acts (app.room.turn (uptimeDays env app) h) app app' := by
  obtain ⟨p, user, _, read, held, live, rfl, known⟩ := user_at sound.toLaid at_h
  obtain ⟨client, stored⟩ := Option.isSome_iff_exists.mp (seated _ (by rw [held]; rfl))
  obtain ⟨slot, found, at_client, loaded, own⟩ := client_found sound.toLaid stored
  simp only [updateUser, read, ok_bind, App.user_of_userAt live, found, stateUpdate, takeLine, loaded,
    getLine_eq_nextLine, Room.turn, known, room_conn stored]
  cases next : nextLine client.inBuf with
  | none => exact ⟨app, rfl, (Outputs.refl sound.toLaid).acts sound⟩
  | some result =>
    obtain ⟨line, rest⟩ := result
    simp only [own]
    have noted := note_outputs sound.toLaid (.handled user.handle (takenFrom client.inBuf rest) line)
    obtain ⟨first, ran, acted, stay⟩ :=
      setClient_acts (noted.sound sound) at_client { client with inBuf := rest } own
    have here := stay p user (noted.present ⟨held, live, by rw [stored]; rfl⟩)
    have opened := (noted.acts sound).trans acted
    have room : first.room = app.room.setConn user.handle ⟨client.state, rest⟩ := by
      rw [acted.room, noted.room]
    have seated₁ : first.Seated := seated_of_room acted.sound (by
      intro h known
      rw [room] at known ⊢
      show (Function.update app.room.conn user.handle _ h).isSome
      rw [Function.update_apply]
      split
      · rfl
      · exact room_of_seated seated h known)
    have days : uptimeDays env first = uptimeDays env app := by
      rw [uptimeDays, uptimeDays, opened.appStartTime]
    have readable₁ : Map.Readable env.quiet first.fromHandle := by
      rw [opened.fromHandle]; exact readable
    have answered : ∀ app', Acts (first.room.speak (uptimeDays env app) user line) first app' →
        Acts ((app.room.setConn user.handle ⟨client.state, rest⟩).speak (uptimeDays env app) user line |>.1,
          .handled user.handle (takenFrom client.inBuf rest) line ::
            ((app.room.setConn user.handle ⟨client.state, rest⟩).speak (uptimeDays env app) user line).2)
          app app' := by
      intro app' said
      rw [← room]
      exact opened.trans said
    change (app.note (.handled user.handle
      (client.inBuf.take (client.inBuf.length - rest.length)) line)).setClient slot _ = _ at ran
    simp only [own] at ran
    simp only [ok_bind, ran, pure_eq_ok]
    cases state : user.state with
    | login =>
      obtain ⟨last, handled, said⟩ := loginLine_acts acted.sound seated₁ readable₁ here state
        (uptimeDays env app)
      exact ⟨last, handled, answered last said⟩
    | chat =>
      obtain ⟨last, handled, said⟩ := chatLine_acts acted.sound seated₁ readable₁ here state
      rw [days] at said
      exact ⟨last, handled, answered last said⟩
    | exit =>
      obtain ⟨last, handled, said⟩ := exitLine_acts acted.sound here state (uptimeDays env app)
      exact ⟨last, handled, answered last said⟩

end Lines
end AuroraComms
