import AuroraComms.Outflow
import AuroraComms.Turn
import AuroraComms.World
import AuroraComms.Framing
import AuroraComms.Refinement

/-! Who gets what when a user's line is handled. The room tells the events, and
the account of the out buffers tells what they add to them. -/
namespace AuroraComms
open Meta Library.Run

/-! ## Lines that are passed on -/

/-- A line said to everyone in the chat. -/
structure User.Chats (user : User) (line : Bytes) : Prop where
  chatting : user.state = .chat
  nonempty : line ≠ []
  plain : isCommand line = false

/-- A message whispered to another, or to oneself. -/
structure Room.Whispers (room : Room) (user other : User) (line : Bytes) : Prop where
  chatting : user.state = .chat
  command : isCommand line = true
  whisper : commandOf (commandWord line) = some .whisper
  registered : (room.owner (whisperTo line)).bind room.user = some other
  listening : other.state = .chat
  nonempty : whisperText line ≠ []

/-- A name that is taken. -/
structure Room.Enters (room : Room) (user : User) (line : Bytes) : Prop where
  entering : user.state = .login
  nonempty : line ≠ []
  free : room.owner line = none
  valid : validateUsername line = true

/-- The out buffers and the users after a line of a user was handled. -/
structure Delivers (user : User) (line : Bytes) (app app' : App) : Prop where
  chat : user.Chats line → (Msg.chat user.username line).text.length < formatCap →
    (Msg.chatAck line).text.length < formatCap → ∀ k, app'.outOf k = (app.outOf k).map (· ++
      if k = user.handle then framed .afterEnter (Msg.chatAck line).text
      else if app.room.inChat k then framed .interrupt (Msg.chat user.username line).text
      else [])
  whisper : ∀ other, app.room.Whispers user other line →
    (Msg.whisper user.username (whisperText line)).text.length < formatCap →
    (Msg.whisperAck other.username (whisperText line)).text.length < formatCap →
    ∀ k, app'.outOf k = (app.outOf k).map (· ++
      ((if k = other.handle then framed .interrupt (Msg.whisper user.username (whisperText line)).text else []) ++
        if k = user.handle then framed .afterEnter (Msg.whisperAck other.username (whisperText line)).text
        else []))
  login : app.room.Enters user line → (Msg.joins (user.username ++ line)).text.length < formatCap →
    (Msg.welcome (user.username ++ line)).text.length < formatCap → ∀ k, app'.outOf k = (app.outOf k).map (· ++
      if k = user.handle then framed .afterEnter (Msg.welcome (user.username ++ line)).text
      else if app.room.inChat k then framed .interrupt (Msg.joins (user.username ++ line)).text
      else [])
  /-- Every other line is between the user and the server. -/
  aside : ¬ user.Chats line → (∀ other, ¬ app.room.Whispers user other line) → ¬ app.room.Enters user line →
    ∀ k, k ≠ user.handle → app'.outOf k = app.outOf k
  users : ∀ k, k ≠ user.handle → app'.room.user k = app.room.user k

/-! ## What is rendered for whom -/

section Rendering
variable {env : Env} {room : Room} {user : User} {line : Bytes} {k : Handle}

/-- A message for some of the users is rendered once for each of them. -/
theorem frames_render {roster : List Handle} (once : roster.Nodup) (chosen : Handle → Prop)
    [DecidablePred chosen] (msg : Msg) :
    (roster.flatMap fun h => if chosen h then frame h .interrupt msg else []).flatMap (render env k) =
      if k ∈ roster ∧ chosen k then framed .interrupt (formatted env msg.text) else [] := by
  induction roster with
  | nil => simp
  | cons h rest ih =>
    obtain ⟨absent, once⟩ := List.nodup_cons.mp once
    rw [List.flatMap_cons, List.flatMap_append, ih once]
    by_cases here : h = k
    · subst here
      by_cases picked : chosen h
      · simp [picked, absent, frame_render]
      · simp [picked]
    · have first : (if chosen h then frame h .interrupt msg else []).flatMap (render env k) = [] := by
        split
        · rw [frame_render, if_neg here]
        · rfl
      rw [first, List.nil_append]
      simp [Ne.symm here]

theorem toOthers_render {self : Handle} (once : room.roster.Nodup)
    (listed : ∀ h, h ≠ self → room.inChat h = true → h ∈ room.roster) (msg : Msg) :
    (room.toOthers self msg).flatMap (render env k) =
      if k ≠ self ∧ room.inChat k = true then framed .interrupt (formatted env msg.text) else [] := by
  rw [Room.toOthers, frames_render once]
  apply if_congr _ rfl rfl
  exact ⟨And.right, fun picked => ⟨listed k picked.1 picked.2, picked⟩⟩

/-- The roster names every user in the chat, once. -/
structure Room.Rolled (room : Room) : Prop where
  once : room.roster.Nodup
  listed : ∀ h, room.inChat h = true → h ∈ room.roster

theorem chats_render (days : Int) (rolled : room.Rolled) (chats : user.Chats line)
    (fits : (Msg.chat user.username line).text.length < formatCap)
    (fits' : (Msg.chatAck line).text.length < formatCap) (k : Handle) :
    (room.speak days user line).2.flatMap (render env k) =
      if k = user.handle then framed .afterEnter (Msg.chatAck line).text
      else if room.inChat k then framed .interrupt (Msg.chat user.username line).text
      else [] := by
  have events : (room.speak days user line).2 = room.toOthers user.handle (.chat user.username line) ++
      frame user.handle .afterEnter (.chatAck line) := by
    simp [Room.speak, chats.chatting, chats.nonempty, chats.plain]
  rw [events, List.flatMap_append, toOthers_render rolled.once (fun h _ => rolled.listed h), frame_render,
    formatted_of_fits env fits, formatted_of_fits env fits']
  by_cases own : k = user.handle
  · simp [own]
  · simp [own, Ne.symm own]

theorem whispers_render (days : Int) {other : User} (whispers : room.Whispers user other line)
    (fits : (Msg.whisper user.username (whisperText line)).text.length < formatCap)
    (fits' : (Msg.whisperAck other.username (whisperText line)).text.length < formatCap) (k : Handle) :
    (room.speak days user line).2.flatMap (render env k) =
      (if k = other.handle then framed .interrupt (Msg.whisper user.username (whisperText line)).text
        else []) ++
      if k = user.handle then framed .afterEnter (Msg.whisperAck other.username (whisperText line)).text
      else [] := by
  have nonempty : line ≠ [] := by
    rintro rfl
    cases whispers.command
  have events : (room.speak days user line).2 =
      frame other.handle .interrupt (.whisper user.username (whisperText line)) ++
        frame user.handle .afterEnter (.whisperAck other.username (whisperText line)) := by
    simp [Room.speak, whispers.chatting, nonempty, whispers.command, Room.command, whispers.whisper,
      Room.whisper, whispers.registered, whispers.listening, whispers.nonempty]
  rw [events, List.flatMap_append, frame_render, frame_render, formatted_of_fits env fits,
    formatted_of_fits env fits']
  simp only [eq_comm]

theorem enters_render (days : Int) (rolled : room.Rolled) (enters : room.Enters user line)
    (fits : (Msg.joins (user.username ++ line)).text.length < formatCap)
    (fits' : (Msg.welcome (user.username ++ line)).text.length < formatCap) (k : Handle) :
    (room.speak days user line).2.flatMap (render env k) =
      if k = user.handle then framed .afterEnter (Msg.welcome (user.username ++ line)).text
      else if room.inChat k then framed .interrupt (Msg.joins (user.username ++ line)).text
      else [] := by
  let entered := room.join { user with state := .chat, username := user.username ++ line }
  have events : (room.speak days user line).2 =
      frame user.handle .afterEnter (.welcome (user.username ++ line)) ++
        entered.toOthers user.handle (.joins (user.username ++ line)) := by
    simp [Room.speak, enters.entering, enters.nonempty, enters.free, enters.valid, entered]
  have same : ∀ h, h ≠ user.handle → entered.inChat h = room.inChat h := fun h apart =>
    congrArg (Option.any _) (Function.update_of_ne apart _ room.user)
  have listed : ∀ h, h ≠ user.handle → entered.inChat h = true → h ∈ entered.roster := by
    intro h apart chatting
    rw [same h apart] at chatting
    exact rolled.listed h chatting
  have once : entered.roster.Nodup := rolled.once
  rw [events, List.flatMap_append, toOthers_render once listed, frame_render,
    formatted_of_fits env fits, formatted_of_fits env fits']
  by_cases own : k = user.handle
  · simp [own]
  · rw [same k own]
    simp [own, Ne.symm own]

/-- What is for the user alone. -/
def Own (self : Handle) (events : List Event) : Prop :=
  ∀ env k, k ≠ self → events.flatMap (render env k) = []

theorem own_frame (self : Handle) (action : Print) (msg : Msg) : Own self (frame self action msg) :=
  fun env k apart => by rw [frame_render, if_neg (Ne.symm apart)]

theorem own_listing (room : Room) (user : User) : Own user.handle (room.listing user) := by
  intro env k apart
  rw [List.flatMap_eq_nil_iff]
  intro e member
  simp only [Room.listing, List.mem_append, List.mem_cons, List.mem_flatMap, List.not_mem_nil,
    or_false] at member
  rcases member with ((rfl | rfl) | ⟨h, _, inside⟩) | rfl
  · simp [render, Ne.symm apart]
  · simp [render, Ne.symm apart]
  · split at inside
    · cases inside
    · obtain ⟨other, _, rfl⟩ := List.mem_map.mp inside
      simp [render, Ne.symm apart]
  · simp [render, Ne.symm apart]

/-- A command is answered to the user alone, unless it is a whisper that arrives. -/
theorem own_command (days : Int) (chatting : user.state = .chat) (command : isCommand line = true)
    (nobody : ∀ other, ¬ room.Whispers user other line) : Own user.handle (room.command days user line).2 := by
  unfold Room.command
  cases known : commandOf (commandWord line) with
  | none => exact own_frame _ _ _
  | some cmd =>
    cases cmd with
    | list => exact own_listing room user
    | help | exit | info => exact own_frame _ _ _
    | whisper =>
      simp only [Room.whisper]
      cases registered : (room.owner (whisperTo line)).bind room.user with
      | none => exact own_frame _ _ _
      | some other =>
        by_cases listening : other.state = .chat
        · by_cases nonempty : whisperText line = []
          · simpa [listening, nonempty] using own_frame _ _ _
          · exact absurd ⟨chatting, command, known, registered, listening, nonempty⟩ (nobody other)
        · simpa [listening] using own_frame _ _ _

/-- So is every line that is not passed on. -/
theorem own_speak (days : Int) (silent : ¬ user.Chats line) (nobody : ∀ other, ¬ room.Whispers user other line)
    (outside : ¬ room.Enters user line) : Own user.handle (room.speak days user line).2 := by
  have prompted : Own user.handle [.prompted user.handle] := by
    intro env k apart
    simp [render, Ne.symm apart]
  unfold Room.speak
  cases state : user.state with
  | login =>
    by_cases blank : line = []
    · simpa [blank] using prompted
    · by_cases taken : (room.owner line).isSome
      · simpa [blank, taken] using own_frame _ _ _
      · by_cases valid : validateUsername line = true
        · exact absurd ⟨state, blank, by simpa using taken, valid⟩ outside
        · simpa [blank, taken, valid] using own_frame _ _ _
  | chat =>
    by_cases blank : line = []
    · simpa [blank] using prompted
    · by_cases command : isCommand line = true
      · simpa [blank, command] using own_command days state command nobody
      · exact absurd ⟨state, blank, by simpa using command⟩ silent
  | exit =>
    by_cases yes : stringEqIgnoreCase line (bytes "y") = true
    · simp only [yes]
      exact fun env k apart => rfl
    · simpa [yes] using own_frame _ _ _

end Rendering

/-! ## A user's turn -/

section Turns
variable {env : Env} {app : App} {h : Handle}

/-- A turn adds to the out buffers what its events say. -/
theorem updateUser_charges (sound : app.Sound) (seated : app.Seated)
    (readable : Map.Readable env.quiet app.fromHandle) {s : Slot} (at_h : app.fromHandle.keyAt s = some h) :
    ∃ app', updateUser env s app = .ok app' ∧ Acts (app.room.turn (uptimeDays env app) h) app app' ∧
      Charges env (app.room.turn (uptimeDays env app) h).2 app app' := by
  obtain ⟨app', ran, acts⟩ := updateUser_acts sound seated readable at_h
  obtain ⟨events, charged⟩ := updateUser_noted sound.wired ran
  have noted := acts.trace
  rw [charged.trace, List.append_cancel_left_eq] at noted
  rw [← noted]
  exact ⟨app', ran, acts, charged⟩

/-- A turn with a line waiting. -/
theorem turn_of_line {user : User} (known : app.room.user h = some user) {client : Client}
    (stored : app.clientOf h = some client) {line rest : Bytes} (next : nextLine client.inBuf = some (line, rest))
    {days : Int} :
    app.room.turn days h = (((app.room.setConn h ⟨client.state, rest⟩).speak days user line).1,
      .handled h (takenFrom client.inBuf rest) line ::
        ((app.room.setConn h ⟨client.state, rest⟩).speak days user line).2) := by
  simp only [Room.turn, known, room_conn stored, next]

theorem room_rolled (sound : app.Sound) : app.room.Rolled where
  once := Map.keys_nodup handleEq_exact sound.handles
  listed k chatting := by
    cases known : app.room.user k with
    | none =>
      rw [Room.inChat, known] at chatting
      cases chatting
    | some user =>
      obtain ⟨p, held, _, _⟩ := room_user_eq_some sound.toLaid known
      exact (Map.mem_keys handleEq_exact sound.handles).mpr (Option.isSome_iff_exists.mpr ⟨p, held⟩)

/-- In every sound state in which every user is connected (`run_good`: every state
of an orderly run) and the loops visit each entry once, and for every line: a line
that is said, a whisper and a name that is taken go, in one frame each, to exactly
those they are for; whatever else a user types is between it and the server; and no
one else's state or name changes. -/
theorem delivery_exact (sound : app.Sound) (seated : app.Seated)
    (readable : Map.Readable env.quiet app.fromHandle) {s : Slot} (at_h : app.fromHandle.keyAt s = some h)
    {user : User} (known : app.room.user h = some user) {client : Client} (stored : app.clientOf h = some client)
    {line rest : Bytes} (next : nextLine client.inBuf = some (line, rest)) :
    ∃ app', updateUser env s app = .ok app' ∧ Delivers user line app app' := by
  obtain ⟨app', ran, acts, charged⟩ := updateUser_charges sound seated readable at_h
  refine ⟨app', ran, ?_⟩
  obtain ⟨_, _, _, rfl⟩ := room_user_eq_some sound.toLaid known
  -- Taking the line out of the in buffer changes nothing that the answer depends on.
  let room := app.room.setConn user.handle ⟨client.state, rest⟩
  rw [turn_of_line known stored next] at acts charged
  have rolled : room.Rolled := ⟨(room_rolled sound).once, (room_rolled sound).listed⟩
  have said : ∀ k data, (room.speak (uptimeDays env app) user line).2.flatMap (render env k) = data →
      app'.outOf k = (app.outOf k).map (· ++ data) := by
    rintro k data rfl
    exact charged.grown k
  refine ⟨?_, ?_, ?_, ?_, ?_⟩
  · intro chats fits fits' k
    exact said k _ (chats_render _ rolled chats fits fits' k)
  · intro other whispers fits fits' k
    have here : room.Whispers user other line := { whispers with }
    exact said k _ (whispers_render _ here fits fits' k)
  · intro enters fits fits' k
    have here : room.Enters user line := { enters with }
    exact said k _ (enters_render _ rolled here fits fits' k)
  · intro silent nobody outside k apart
    have nobody' : ∀ other, ¬ room.Whispers user other line := fun other whispers =>
      nobody other { whispers with }
    have outside' : ¬ room.Enters user line := fun enters => outside { enters with }
    rw [said k [] (own_speak _ silent nobody' outside' env k apart)]
    simp
  · intro k apart
    rw [acts.room]
    exact ((Room.speak_becomes _ room user line).others apart).1

/-- Two users in the chat, and the turn of the one that sent a line. -/
private def greeted : List (Nat × Env) :=
  [(107, .connects 4), (109, .brings 4 (bytes "amy\n")), (110, .connects 5),
    (111, .brings 5 (bytes "bob\n")), (13, .brings 5 (bytes "hi\n"))]

private theorem greeted_unsent : ∀ env ∈ rounds greeted, ∀ h data, env.send h data = none :=
  rounds_unsent ⟨fun _ _ => rfl, fun _ _ => rfl, fun _ _ => rfl, fun _ _ => rfl, fun _ _ => rfl⟩

/-- The other gets one frame, and the sender its acknowledgement. -/
theorem delivery_exact_greeting : ∃ (app app' : App) (out own : Bytes),
    updateUser (.brings 5 (bytes "hi\n")) ⟨5, 0⟩ app = .ok app' ∧
      app.outOf 4 = some out ∧ app'.outOf 4 = some (out ++ framed .interrupt (bytes "[bob]: hi")) ∧
      app.outOf 5 = some own ∧ app'.outOf 5 = some (own ++ framed .afterEnter (bytes "[You]: hi")) := by
  have outcome : (drive step separate .assertion (rounds greeted) (start 3 0)).map (fun sys =>
      (decide (sys.app.fromHandle.keyAt ⟨5, 0⟩ = some 5 ∧ Map.Readable false sys.app.fromHandle ∧
          sys.app.room.inChat 4 = true ∧ (sys.app.outOf 4).isSome = true), sys.app.room.user 5,
        (sys.app.clientOf 5).bind fun client => nextLine client.inBuf)) =
      .ok (true, some ⟨5, .chat, bytes "bob"⟩, some (bytes "hi", [])) := by
    decide +kernel
  obtain ⟨sys, driven, outcome⟩ := map_eq_ok.mp outcome
  obtain ⟨ready, outcome⟩ := Prod.mk.inj outcome
  obtain ⟨known, outcome⟩ := Prod.mk.inj outcome
  obtain ⟨client, stored, next⟩ := Option.bind_eq_some_iff.mp outcome
  obtain ⟨at_h, readable, listening, connected⟩ := of_decide_eq_true ready
  have good := run_good (reaches_of_drive greeted_unsent driven) (fun _ _ => Separate.orderly) (start_good 3 0)
  have seated := good.sound.seated good.inv.linked
  obtain ⟨app', ran, delivers⟩ : ∃ app', updateUser (.brings 5 (bytes "hi\n")) ⟨5, 0⟩ sys.app = .ok app' ∧
      Delivers ⟨5, .chat, bytes "bob"⟩ (bytes "hi") sys.app app' :=
    delivery_exact good.sound seated readable at_h known stored next
  have said := delivers.chat ⟨rfl, by decide, by decide⟩ (by decide) (by decide)
  obtain ⟨out, held⟩ := Option.isSome_iff_exists.mp connected
  have own : sys.app.outOf 5 = some client.outBuf := congrArg (Option.map Client.outBuf) stored
  refine ⟨sys.app, app', out, client.outBuf, ran, held, ?_, own, ?_⟩
  · rw [said, held, if_neg (by decide), if_pos listening]
    rfl
  · rw [said, own, if_pos rfl]
    rfl

end Turns

end AuroraComms
