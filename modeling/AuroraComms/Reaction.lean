import AuroraComms.Room

/-! The pieces of a reaction. The loops over users are unrolled against the
roster, the words of a command are cut where the room cuts them, and the table
of commands answers as the list of its aliases. -/
namespace AuroraComms
open Meta Library.Run

/-- From one state to another by what the room makes of it. The layout of the
tables the main loop iterates over stays. -/
structure Acts (result : Room × List Event) (app app' : App) : Prop where
  sound : app'.Sound
  room : app'.room = result.1
  trace : app'.trace = app.trace ++ result.2
  fromHandle : app'.fromHandle = app.fromHandle
  keyTable : app'.clients.keyTable = app.clients.keyTable
  alen : app'.clients.bkts.alen = app.clients.bkts.alen
  appStartTime : app'.appStartTime = app.appStartTime
  listener : app'.server.listener = app.server.listener

/-- Every user is connected. -/
def App.Seated (app : App) : Prop := ∀ h, (app.ptrOf h).isSome → (app.clientOf h).isSome

section Acts
variable {env : Env} {app app' app'' : App} {out : Handle → Bytes} {events : List Event}
  {result : Room × List Event}

theorem Outputs.room (moved : Outputs out events app app') : app'.room = app.room := by
  apply Room.ext
  · show app'.fromHandle.keys = _
    rw [moved.fromHandle]
    rfl
  · funext h
    show (app'.clientOf h).map _ = (app.clientOf h).map _
    rw [moved.clientOf, Option.map_map]
    rfl
  · funext h
    show (app'.ptrOf h).bind app'.userAt = (app.ptrOf h).bind app.userAt
    rw [moved.ptrOf, funext moved.userAt]
  · funext name
    show ((app'.named name).bind app'.userAt).map _ = ((app.named name).bind app.userAt).map _
    rw [moved.named, funext moved.userAt]

theorem Outputs.acts (moved : Outputs out events app app') (sound : app.Sound) :
    Acts (app.room, events) app app' where
  sound := moved.sound sound
  room := moved.room
  trace := moved.trace
  fromHandle := moved.fromHandle
  keyTable := moved.keyTable
  alen := moved.alen
  appStartTime := moved.appStartTime
  listener := moved.listener

theorem Outputs.seated (moved : Outputs out events app app') (seated : app.Seated) : app'.Seated := by
  intro h
  rw [moved.ptrOf, moved.isSome]
  exact seated h

theorem Acts.trans {room : Room} {second : Room × List Event} (first : Acts (room, events) app app')
    (next : Acts second app' app'') : Acts (second.1, events ++ second.2) app app'' where
  sound := next.sound
  room := next.room
  trace := by rw [next.trace, first.trace, List.append_assoc]
  fromHandle := next.fromHandle.trans first.fromHandle
  keyTable := next.keyTable.trans first.keyTable
  alen := next.alen.trans first.alen
  appStartTime := next.appStartTime.trans first.appStartTime
  listener := next.listener.trans first.listener

theorem roster_eq (laid : app.Laid) : app.room.roster.length = app.fromHandle.len :=
  (Map.len_keys laid.handles).symm

theorem room_conn {h : Handle} {client : Client} (stored : app.clientOf h = some client) :
    app.room.conn h = some ⟨client.state, client.inBuf⟩ := by
  show (app.clientOf h).map _ = _
  rw [stored]
  rfl

theorem room_user (laid : app.Laid) {h : Handle} {p : UserPtr} (held : app.ptrOf h = some p) :
    ∃ user, app.userAt p = some user ∧ user.handle = h ∧ app.room.user h = some user := by
  obtain ⟨user, live, keyed⟩ := laid.linked h p held
  refine ⟨user, live, keyed, ?_⟩
  show (app.ptrOf h).bind app.userAt = some user
  rw [held]
  exact live

theorem room_user_eq_some (laid : app.Laid) {h : Handle} {user : User}
    (known : app.room.user h = some user) :
    ∃ p, app.ptrOf h = some p ∧ app.userAt p = some user ∧ user.handle = h := by
  obtain ⟨p, held, live⟩ := Option.bind_eq_some_iff.mp known
  obtain ⟨other, there, keyed⟩ := laid.linked h p held
  rw [live] at there
  cases there
  exact ⟨p, held, live, keyed⟩

/-! ## Loops over users -/

/-- A loop over users whose turns only print. -/
theorem foreach_emits (laid : app.Laid) (readable : Map.Readable env.quiet app.fromHandle)
    (body : Slot → App → Except Fault App) (said : Handle → List Event)
    (turn : ∀ slot k done app', Emits env done app app' → app'.fromHandle.keyAt slot = some k →
      ∃ app'', body slot app' = .ok app'' ∧ Emits env (said k) app' app'') :
    ∃ app', Map.foreach env.quiet App.fromHandle body app = .ok app' ∧
      Emits env (app.room.roster.flatMap said) app app' := by
  obtain ⟨app', ran, before, all, moved⟩ := Map.foreach_keys handleHash handleEq App.fromHandle body
    (fun todo app' => ∃ before, app.fromHandle.keys = before ++ todo ∧
      Emits env (before.flatMap said) app app') app readable
    (by
      rintro todo app' ⟨_, _, moved⟩
      rw [moved.fromHandle]
      exact ⟨laid.handles, rfl, rfl⟩)
    (by
      rintro slot k todo app' ⟨before, all, moved⟩ here
      obtain ⟨app'', ran, more⟩ := turn slot k _ app' moved here
      refine ⟨app'', ran, before ++ [k], by rw [all, List.append_assoc]; rfl, ?_⟩
      rw [List.flatMap_append, List.flatMap_singleton]
      exact Emits.trans moved more)
    ⟨[], rfl, Outputs.refl laid⟩
  rw [List.append_nil] at all
  refine ⟨app', ran, ?_⟩
  show Emits env (app.fromHandle.keys.flatMap said) app app'
  rw [all]
  exact moved

end Acts

section Loops
variable {env : Env} {app : App} {p : UserPtr} {user : User}

/-- The entry a loop over users stands at: a pointer to the user of its handle. -/
theorem user_at (laid : app.Laid) {s : Slot} {k : Handle}
    (here : app.fromHandle.keyAt s = some k) :
    ∃ q other, app.fromHandle.entry s = .ok ⟨k, q⟩ ∧ app.fromHandle.val s = .ok q ∧
      app.ptrOf k = some q ∧ app.userAt q = some other ∧ other.handle = k ∧
      app.room.user k = some other := by
  obtain ⟨q, found, loaded, read⟩ := Map.entry_keyAt handleEq_exact laid.handles here
  obtain ⟨other, live, keyed, known⟩ := room_user laid found
  exact ⟨q, other, loaded, read, found, live, keyed, known⟩

theorem broadcast_emits (laid : app.Laid) (seated : app.Seated)
    (readable : Map.Readable env.quiet app.fromHandle) (live : app.userAt p = some user)
    (msg : User → Msg) :
    ∃ app', broadcast env p msg app = .ok app' ∧
      Emits env (app.room.toOthers user.handle (msg user)) app app' := by
  refine foreach_emits laid readable _ _ ?_
  intro slot k done app' moved here
  obtain ⟨q, other, loaded, _, found, there, keyed, known⟩ := user_at moved.laid here
  rw [moved.room] at known
  have self : app'.user p = .ok user := App.user_of_userAt (by rw [moved.userAt]; exact live)
  by_cases own : user.handle = k
  · refine ⟨app', by simp [broadcastTurn, loaded, self, own], (Outputs.refl moved.laid).same ?_ ?_⟩
    · simp [own]
    · simp [own]
  · by_cases chatting : other.state = .chat
    · obtain ⟨app'', ran, more⟩ := printFmt_emits env moved.laid there
        (by rw [keyed]; exact moved.seated seated k (by rw [found]; rfl)) .interrupt (msg user)
      rw [keyed] at more
      refine ⟨app'', ?_, more.same ?_ ?_⟩
      · simp [broadcastTurn, loaded, self, own, App.user_of_userAt there, chatting, ran]
      · simp [Room.inChat, known, chatting, Ne.symm own]
      · simp [Room.inChat, known, chatting, Ne.symm own]
    · refine ⟨app', ?_, (Outputs.refl moved.laid).same ?_ ?_⟩
      · simp [broadcastTurn, loaded, self, own, App.user_of_userAt there, chatting]
      · simp [Room.inChat, known, chatting]
      · simp [Room.inChat, known, chatting]

theorem handleListCmd_emits (laid : app.Laid)
    (readable : Map.Readable env.quiet app.fromHandle) (live : app.userAt p = some user)
    (connected : (app.clientOf user.handle).isSome) (chatting : user.state = .chat) :
    ∃ app', handleListCmd env p app = .ok app' ∧ Emits env (app.room.listing user) app app' := by
  obtain ⟨first, header, moved⟩ := sendFmt_emits env laid live connected .listHeader
  have live₁ : first.userAt p = some user := by rw [moved.userAt]; exact live
  obtain ⟨second, own, more⟩ := sendFmt_emits env moved.laid live₁
    (by rw [moved.isSome]; exact connected) (.listSelf user.username)
  have opened := Emits.trans moved more
  have live₂ : second.userAt p = some user := by rw [opened.userAt]; exact live
  obtain ⟨third, loop, listed⟩ := foreach_emits opened.laid
    (by rw [opened.fromHandle]; exact readable) (listTurn env p)
    (fun h => if h = user.handle then [] else
      (app.room.user h).toList.map fun other => .sent user.handle (.listOther other.username)) (by
      intro slot k done app' kept here
      have since := opened.trans kept
      obtain ⟨q, other, loaded, _, found, there, keyed, known⟩ := user_at kept.laid here
      rw [kept.room, opened.room] at known
      have self : app'.userAt p = some user := by rw [kept.userAt]; exact live₂
      by_cases mine : user.handle = k
      · refine ⟨app', ?_, (Outputs.refl kept.laid).same ?_ ?_⟩
        · simp [listTurn, loaded, App.user_of_userAt self, mine]
        · simp [mine]
        · simp [mine]
      · obtain ⟨app'', ran, line⟩ := sendFmt_emits env kept.laid self
          (by rw [since.isSome]; exact connected) (.listOther other.username)
        refine ⟨app'', ?_, line.same ?_ ?_⟩
        · simp [listTurn, loaded, App.user_of_userAt self, mine, chatting,
            App.user_of_userAt there, ran]
        · simp [Ne.symm mine, known]
        · simp [Ne.symm mine, known])
  have body := Emits.trans opened listed
  obtain ⟨last, prompted, closed⟩ := prompt_emits env body.laid
    (by rw [body.userAt]; exact live) (by rw [body.isSome]; exact connected)
  refine ⟨last, ?_, (Emits.trans body closed).same ?_ ?_⟩
  · simp only [handleListCmd, header, ok_bind, App.user_of_userAt live₁, own, loop, prompted]
  · intro h
    rw [opened.room]
    rfl
  · rw [opened.room]
    rfl

end Loops

/-! ## Commands -/

section Commands
variable {env : Env} {app app' : App} {p : UserPtr} {user : User} {line : Bytes}

theorem drop_scanWhile (test : UInt8 → Bool) (line : Bytes) (i : Nat) :
    line.drop (scanWhile test line i) = (line.drop i).dropWhile test := by
  have split := List.takeWhile_append_dropWhile (p := test) (l := line.drop i)
  rw [scanWhile, ← List.drop_drop]
  conv_lhs => arg 2; rw [← split]
  exact List.drop_left

/-- The bytes a scan moved over, as the program cuts them out. -/
theorem slice_scanWhile (test : UInt8 → Bool) (line : Bytes) (i : Nat) :
    slice line i (sizeSub (scanWhile test line i) i) = .ok ((line.drop i).takeWhile test) := by
  have size : sizeSub (scanWhile test line i) i = ((line.drop i).takeWhile test).length := by
    rw [sizeSub, scanWhile, if_pos (Nat.le_add_right _ _), Nat.add_sub_cancel_left]
  have short := (List.takeWhile_sublist test (l := line.drop i)).length_le
  rw [List.length_drop] at short
  rw [size, slice]
  by_cases empty : ((line.drop i).takeWhile test).length = 0
  · rw [if_pos empty, List.length_eq_zero_iff.mp empty]
  · rw [if_neg empty, if_pos (by omega)]
    have split := List.takeWhile_append_dropWhile (p := test) (l := line.drop i)
    conv_lhs => arg 1; arg 2; rw [← split]
    rw [List.take_left]

/-- The rest of a line, cut out from an index inside it. -/
theorem slice_rest {line : Bytes} {start : Nat} (inside : start < line.length) :
    slice line start (sizeSub line.length start) = .ok (line.drop start) := by
  have size : sizeSub line.length start = line.length - start := by rw [sizeSub, if_pos (by omega)]
  rw [size, slice, if_neg (by omega), if_pos (by omega)]
  rw [List.take_of_length_le (by simp)]

private theorem initAliases_ok {commands : Map Bytes Cmd} (sound : commands.Sound stringHash stringEq)
    (words : List String) (cmd : Cmd) :
    ∃ commands', initAliases words cmd commands = .ok commands' ∧
      commands'.Sound stringHash stringEq ∧
      ∀ word, commands'.find stringHash stringEq word =
        if word ∈ words.map bytes then some cmd else commands.find stringHash stringEq word := by
  induction words generalizing commands with
  | nil => exact ⟨commands, rfl, sound, fun _ => rfl⟩
  | cons first rest ih =>
    obtain ⟨next, stored, nextSound, nextFind⟩ := Map.set_ok stringEq_exact sound (bytes first) cmd
    obtain ⟨last, others, lastSound, lastFind⟩ := ih nextSound
    refine ⟨last, ?_, lastSound, fun word => ?_⟩
    · rw [initAliases, List.foldlM_cons, stored]
      exact others
    · rw [lastFind, nextFind, Function.update_apply]
      by_cases later : word ∈ rest.map bytes
      · simp [later]
      · by_cases here : word = bytes first
        · simp [here]
        · simp [later, here]

/-- The table of commands answers as the list of aliases does. -/
theorem initCommands_ok :
    ∃ commands, initCommands = .ok commands ∧ commands.Sound stringHash stringEq ∧
      ∀ word, commands.find stringHash stringEq word = commandOf word := by
  have empty : (Map.newReserve 16 : Map Bytes Cmd).Sound stringHash stringEq ∧
      ∀ word, (Map.newReserve 16 : Map Bytes Cmd).find stringHash stringEq word = none :=
    Map.newReserve_sound (by decide)
  obtain ⟨sound₀, find₀⟩ := empty
  obtain ⟨m₁, ran₁, sound₁, find₁⟩ := initAliases_ok sound₀ ["help", "h"] .help
  obtain ⟨m₂, ran₂, sound₂, find₂⟩ := initAliases_ok sound₁ ["exit", "e", "quit", "q"] .exit
  obtain ⟨m₃, ran₃, sound₃, find₃⟩ := initAliases_ok sound₂ ["info", "i"] .info
  obtain ⟨m₄, ran₄, sound₄, find₄⟩ := initAliases_ok sound₃ ["list", "l"] .list
  obtain ⟨m₅, ran₅, sound₅, find₅⟩ := initAliases_ok sound₄ ["whisper", "w", "msg", "m"] .whisper
  refine ⟨m₅, by simp only [initCommands, ran₁, ran₂, ran₃, ran₄, ok_bind, ran₅], sound₅, fun word => ?_⟩
  rw [find₅, find₄, find₃, find₂, find₁, find₀]
  by_cases known : word ∈ aliases.map Prod.fst
  · revert word
    decide
  · have unknown : commandOf word = none := by
      rw [commandOf, Option.map_eq_none_iff, List.find?_eq_none]
      intro pair member same
      exact known (List.mem_map.mpr ⟨pair, member, by simpa using same⟩)
    rw [unknown]
    simp only [aliases, List.map_cons, List.map_nil, List.mem_cons, List.not_mem_nil, or_false,
      not_or] at known ⊢
    simp [known]

theorem command_looked_up (word : Bytes) :
    ∃ commands, initCommands = .ok commands ∧
      match commandOf word with
      | none => commands.getMaybeNull stringHash stringEq word = .ok none
      | some cmd => ∃ s, commands.getMaybeNull stringHash stringEq word = .ok (some s) ∧
          commands.val s = .ok cmd := by
  obtain ⟨commands, ran, sound, found⟩ := initCommands_ok
  refine ⟨commands, ran, ?_⟩
  cases known : commandOf word with
  | none => exact Map.getMaybeNull_absent sound (by rw [found, known])
  | some cmd =>
    obtain ⟨s, _, slot, here⟩ := Map.get_found stringEq_exact sound (by rw [found, known])
    obtain ⟨v, held, _, read⟩ := Map.entry_keyAt stringEq_exact sound here
    rw [found, known] at held
    cases held
    exact ⟨s, slot, read⟩

theorem commandWord_single (single : line.length = 1) :
    commandOf (commandWord line) = none := by
  obtain ⟨c, rfl⟩ := List.length_eq_one_iff.mp single
  show commandOf [] = none
  decide

/-- A command is what its first word is an alias of. -/
theorem handleCommand_eq (env : Env) (p : UserPtr) (app : App) (command : isCommand line = true) :
    handleCommand env p line app = match commandOf (commandWord line) with
      | none => handleHelpCmd env p app
      | some .help => handleHelpCmd env p app
      | some .exit => stateSwitch env p .exit app
      | some .info => printFmt env p .afterEnter (.info (uptimeDays env app) app.fromHandle.len) app
      | some .list => handleListCmd env p app
      | some .whisper => handleWhisperCmd env p line (scanWhile (!isSpace ·) line 1) app := by
  simp only [handleCommand, command, Bool.not_true, Bool.false_eq_true, ↓reduceIte]
  by_cases single : line.length = 1
  · rw [if_pos single, commandWord_single single]
  · obtain ⟨commands, opened, found⟩ := command_looked_up (commandWord line)
    have word : slice line 1 (sizeSub (scanWhile (!isSpace ·) line 1) 1) = .ok (commandWord line) :=
      slice_scanWhile _ line 1
    rw [if_neg single, word, ok_bind, opened, ok_bind]
    cases known : commandOf (commandWord line) with
    | none =>
      rw [known] at found
      rw [found, ok_bind]
    | some cmd =>
      rw [known] at found
      obtain ⟨s, slot, read⟩ := found
      rw [slot, ok_bind]
      simp only [read, ok_bind]
      cases cmd <;> rfl

/-- A user and the object a name is registered to. -/
theorem owner_found (sound : app.Sound) (name : Bytes) :
    match (app.room.owner name).bind app.room.user with
    | none => app.fromUsername.getMaybeNull stringHash stringEq name = .ok none
    | some other => ∃ s q, app.fromUsername.getMaybeNull stringHash stringEq name = .ok (some s) ∧
        app.fromUsername.val s = .ok q ∧ app.userAt q = some other ∧
        app.ptrOf other.handle = some q := by
  cases registered : app.named name with
  | none =>
    have nobody : app.room.owner name = none := by
      show ((app.named name).bind app.userAt).map _ = none
      rw [registered]
      rfl
    rw [nobody]
    exact Map.getMaybeNull_absent sound.names registered
  | some q =>
    obtain ⟨other, live, held⟩ := sound.registered name q registered
    have owned : app.room.owner name = some other.handle := by
      show ((app.named name).bind app.userAt).map _ = _
      rw [registered, Option.bind_some, live]
      rfl
    have known : app.room.user other.handle = some other := by
      show (app.ptrOf other.handle).bind app.userAt = _
      rw [held]
      exact live
    rw [owned, Option.bind_some, known]
    obtain ⟨s, _, slot, here⟩ := Map.get_found stringEq_exact sound.names registered
    obtain ⟨v, stored, _, read⟩ := Map.entry_keyAt stringEq_exact sound.names here
    rw [App.named, stored] at registered
    cases registered
    exact ⟨s, q, slot, read, live, held⟩

theorem drop_args (line : Bytes) :
    line.drop (scanWhile isSpace line (scanWhile (!isSpace ·) line 1 + 1)) = commandArgs line := by
  rw [drop_scanWhile, ← List.drop_drop, drop_scanWhile]
  rfl

/-- `recipient_end` -/
def recipientEnd (line : Bytes) : Nat :=
  scanWhile (!isSpace ·) line (scanWhile isSpace line (scanWhile (!isSpace ·) line 1 + 1))

theorem drop_text (line : Bytes) :
    line.drop (scanWhile isSpace line (recipientEnd line + 1)) = whisperText line := by
  rw [recipientEnd, drop_scanWhile, ← List.drop_drop, drop_scanWhile, drop_args]
  rfl

/-- The line ends in front of the message of a whisper if there is none. -/
theorem text_ends (line : Bytes) :
    line.length ≤ scanWhile isSpace line (recipientEnd line + 1) ↔ whisperText line = [] := by
  rw [← drop_text, List.drop_eq_nil_iff]

theorem slice_text {line : Bytes} (spoken : whisperText line ≠ []) :
    slice line (scanWhile isSpace line (recipientEnd line + 1))
      (sizeSub line.length (scanWhile isSpace line (recipientEnd line + 1))) = .ok (whisperText line) := by
  have inside := mt (text_ends line).mp spoken
  rw [slice_rest (Nat.lt_of_not_le inside), drop_text]

theorem slice_recipient (line : Bytes) :
    slice line (scanWhile isSpace line (scanWhile (!isSpace ·) line 1 + 1))
      (sizeSub (recipientEnd line) (scanWhile isSpace line (scanWhile (!isSpace ·) line 1 + 1))) =
      .ok (whisperTo line) := by
  rw [recipientEnd, slice_scanWhile, drop_args]
  rfl

theorem handleWhisperCmd_emits (sound : app.Sound) (seated : app.Seated)
    (live : app.userAt p = some user) (connected : (app.clientOf user.handle).isSome) :
    ∃ app', handleWhisperCmd env p line (scanWhile (!isSpace ·) line 1) app = .ok app' ∧
      Emits env (app.room.whisper user line) app app' := by
  have recipient := slice_recipient line
  unfold recipientEnd at recipient
  have owner := owner_found sound (whisperTo line)
  unfold handleWhisperCmd Room.whisper
  simp only [recipient, ok_bind]
  cases known : (app.room.owner (whisperTo line)).bind app.room.user with
  | none =>
    rw [known] at owner
    simp only [owner, ok_bind]
    exact printFmt_emits env sound.toLaid live connected _ _
  | some other =>
    rw [known] at owner
    obtain ⟨s, q, slot, read, there, held⟩ := owner
    simp only [slot, read, ok_bind, App.user_of_userAt there]
    by_cases absent : other.state ≠ .chat
    · simp only [absent, ↓reduceIte, ne_eq, not_false_eq_true]
      exact printFmt_emits env sound.toLaid live connected _ _
    · simp only [absent, ↓reduceIte]
      by_cases nothing : whisperText line = []
      · have short := (text_ends line).mpr nothing
        unfold recipientEnd at short
        simp only [short, nothing, ↓reduceIte]
        exact printFmt_emits env sound.toLaid live connected _ _
      · have inside := mt (text_ends line).mp nothing
        have cut := slice_text nothing
        unfold recipientEnd at inside cut
        obtain ⟨first, delivered, moved⟩ := printFmt_emits env sound.toLaid there
          (seated _ (by rw [held]; rfl)) .interrupt (.whisper user.username (whisperText line))
        have live₁ : first.userAt p = some user := by rw [moved.userAt]; exact live
        obtain ⟨last, acknowledged, more⟩ := printFmt_emits env moved.laid live₁
          (by rw [moved.isSome]; exact connected) .afterEnter
          (.whisperAck other.username (whisperText line))
        have still : first.user q = .ok other :=
          App.user_of_userAt (by rw [moved.userAt]; exact there)
        refine ⟨last, ?_, ?_⟩
        · simp only [inside, ↓reduceIte, cut, ok_bind, App.user_of_userAt live, delivered, still,
            acknowledged]
        · simp only [nothing, ↓reduceIte]
          exact Emits.trans moved more

end Commands

end AuroraComms
