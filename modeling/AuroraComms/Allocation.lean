import AuroraComms.Syscalls

/-! What the main loop allocates and frees, outside its tables: the arrays of a
client, the object and the name of a user, the sockets that are polled, and what a
line is read, parsed and formatted with. A footprint is taken beside the program:
every allocation, every release and every use. -/
namespace AuroraComms
open Meta Library.Run Library.Chain Library.Protocol Library.Resource

/-- What `malloc` or `calloc` returned. -/
inductive Block where
  /-- `polled_sockets` -/
  | polled
  /-- `client->in` -/
  | input (h : Handle)
  /-- `client->out` -/
  | output (h : Handle)
  /-- The object `*user`, named by its pointer. -/
  | user (p : UserPtr)
  /-- `user->username` -/
  | username (p : UserPtr)
  /-- The line of `ac_state_update`. -/
  | line
  /-- `cmd_str`, named by the place of its line in the trace. -/
  | word (place : Nat)
  | recipient
  | msg
  /-- The text that `ac_print_fmt` or `ac_send_fmt` formats. -/
  | out
  deriving DecidableEq, Repr

/-! ## What is allocated -/

/-- The arrays of a line and of its parts that a text is formatted from. -/
def Msg.parts : Msg → List Block
  | .chat .. | .chatAck _ => [.line]
  | .notFound _ | .notInChat _ => [.recipient]
  | .whisper .. | .whisperAck .. => [.msg]
  | _ => []

def Event.parts : Event → List Block
  | .printed _ _ msg | .sent _ msg => msg.parts
  | _ => []

/-- What formatting and sending a text takes: `ac_server_send` appends to the array
of the client. -/
def formatting (h : Handle) (msg : Msg) : List (Act Block) :=
  [.acquire .out] ++ msg.parts.map .use ++ [.use (.output h), .use .out, .release .out]

/-- What is allocated, used and freed where an event is noted. -/
def Event.memory : Event → List (Act Block)
  | .accepted h => [.acquire (.input h), .acquire (.output h)]
  | .received h _ => [.use (.input h)]
  | .handled h _ _ => [.use (.input h), .use .line]
  | .printed h action msg =>
    (if action = .interrupt then [.use (.output h)] else []) ++ formatting h msg ++ [.use (.output h)]
  | .sent h msg => formatting h msg
  | .prompted h => [.use (.output h)]
  | .closed h => [.release (.input h), .release (.output h)]
  | .hungUp _ | .goodbye _ | .userNew _ | .userRemoved _ => []

/-- `AC_CMD_WHISPER`, given what its answers take. -/
def whisperMemory (line : Bytes) (cmdEnd : Nat) (app : App) (said : List (Act Block)) :
    Except Fault (List (Act Block)) := do
  let recipientStart := scanWhile isSpace line (cmdEnd + 1)
  let recipientEnd := scanWhile (!isSpace ·) line recipientStart
  let recipient ← slice line recipientStart (sizeSub recipientEnd recipientStart)
  let named := [.acquire .recipient, .use .line, .use .recipient]
  match ← app.fromUsername.getMaybeNull stringHash stringEq recipient with
  | none => return named ++ said ++ [.release .recipient]
  | some s =>
    let other ← app.user (← app.fromUsername.val s)
    let msgStart := scanWhile isSpace line (recipientEnd + 1)
    if other.state ≠ .chat ∨ msgStart ≥ line.length then return named ++ said ++ [.release .recipient]
    else return named ++ [.acquire .msg, .use .line, .use .msg] ++ said ++ [.release .msg, .release .recipient]

/-- `ac_handle_command`. It returns for an unknown command before it frees the
word. -/
def commandMemory (place : Nat) (line : Bytes) (app : App) (said : List (Act Block)) :
    Except Fault (List (Act Block)) := do
  if line.length = 1 then return [.use .line] ++ said
  else
    let cmdEnd := scanWhile (!isSpace ·) line 1
    let cmdStr ← slice line 1 (sizeSub cmdEnd 1)
    let commands ← initCommands
    let parsed := [.acquire (.word place), .use .line, .use (.word place)]
    match ← commands.getMaybeNull stringHash stringEq cmdStr with
    | none => return parsed ++ said
    | some s =>
      match ← commands.val s with
      | .whisper => return parsed ++ (← whisperMemory line cmdEnd app said) ++ [.release (.word place)]
      | _ => return parsed ++ said ++ [.release (.word place)]

/-- What a line takes beside its answer: only the chat parses it. -/
def answerMemory (place : Nat) (user : User) (line : Bytes) (app : App) (said : List (Act Block)) :
    Except Fault (List (Act Block)) :=
  if user.state = .chat ∧ isCommand line = true then commandMemory place line app said else .ok said

/-- The objects and the names that the table of users leads to. The loops over users
read the objects; a text may be formatted from any of the names, and a lookup compares
them. -/
def App.people (app : App) : List (Act Block) :=
  app.fromHandle.keys.flatMap fun h =>
    (app.ptrOf h).toList.flatMap fun p => [.use (.user p), .use (.username p)]

/-- `ac_state_update`, given what it noted. The users it may read are those there are
as it begins: it neither makes nor frees one. -/
def turnMemory (s : Slot) (app : App) (events : List Event) : Except Fault (List (Act Block)) := do
  let user ← app.user (← app.fromHandle.val s)
  match events with
  | .handled h taken line :: said =>
    let spoken ← answerMemory app.trace.length user line app (said.flatMap Event.memory)
    return app.people ++
      ([.acquire .line] ++ (Event.handled h taken line).memory ++ spoken ++ [.release .line])
  | _ => return app.people ++ [.acquire .line, .use (.input user.handle), .release .line]

/-- The body of the second loop of `ac_app_update`. It frees a user after all it reads:
the one the pointer leads to at last. -/
def clientMemory (s : Slot) (before after : App) (events : List Event) : Except Fault (List (Act Block)) := do
  let client ← before.client s
  let noted := events.flatMap Event.memory
  match client.state with
  | .new =>
    let p := before.heap.length
    return [.acquire (.user p), .acquire (.username p), .use (.user p)] ++ noted
  | .toBeRemoved =>
    let gone ← before.fromHandle.get handleHash handleEq client.handle
    let p ← after.fromHandle.val gone
    return before.people ++ noted ++ [.release (.username p), .release (.user p)]
  | .online => return []

/-- A call of `send` reads the array of a client. -/
def Syscall.memory : Syscall → List (Act Block)
  | .send h _ => [.use (.output h)]
  | _ => []

/-- The loop that sends reads the length of every client's array. -/
def App.outputs (app : App) : List (Act Block) := app.clients.keys.map fun h => .use (.output h)

/-- What an operation does to memory. -/
def memory (env : Env) (before after : Sys) : Except Fault (List (Act Block)) :=
  let events := after.app.trace.drop before.app.trace.length
  let noted := events.flatMap Event.memory
  match before.point with
  | .sweep => .ok ([.acquire .polled, .use .polled] ++ noted)
  | .wait _ | .receive _ => .ok ([.use .polled] ++ noted)
  | .exited => .ok []
  | .flush => do
    let (made, _) ← flushCalling env before.app
    return [.release .polled] ++ before.app.outputs ++ made.flatMap Syscall.memory
  | .users i j => do
    match ← before.app.fromHandle.turn env.quiet i j with
    | .body s => turnMemory s before.app events
    | _ => return []
  | .clients i j => do
    match ← before.app.clients.turn env.quiet i j with
    | .body s => clientMemory s before.app after.app events
    | _ => return []

structure Footprint where
  sys : Sys
  acts : List (Act Block)

namespace Footprint

def step (env : Env) (taken : Footprint) : Except Fault Footprint := do
  let sys ← AuroraComms.step env taken.sys
  return ⟨sys, taken.acts ++ (← memory env taken.sys sys)⟩

/-- The footprint as the program enters its main loop. -/
def start (listener : Handle) (now : Int) : Footprint := ⟨AuroraComms.start listener now, []⟩

end Footprint

/-! ## What is kept -/

/-- The line at this place of a trace was an unknown command of a user in the chat,
who was shown the commands. -/
def Forgotten (events : List Event) (place : Nat) : Prop :=
  ∃ h taken line, events[place]? = some (.handled h taken line) ∧
    events[place + 1]? = some (.printed h .afterEnter .help) ∧
    line.length ≠ 1 ∧ commandOf (commandWord line) = none

/-- Where `polled_sockets` is there. A program that exits does not free it. -/
def Point.polls : Point → Bool
  | .sweep | .users .. | .clients .. => false
  | .wait _ | .receive _ | .flush | .exited => true

/-- The blocks there are between two operations. -/
def Sys.keeps (sys : Sys) : Block → Prop
  | .polled => sys.point.polls = true
  | .input h | .output h => (sys.app.clientOf h).isSome
  | .user p | .username p => (sys.app.userAt p).isSome
  | .word place => Forgotten sys.app.trace place
  | .line | .recipient | .msg | .out => False

/-! ## Objects -/

section Objects
variable {env : Env} {self : Handle} {app app' app'' : App} {p : UserPtr} {line : Bytes} {s : Slot}

/-- The same objects are there, whatever they hold. -/
def SameLive (app app' : App) : Prop := ∀ q, (app'.userAt q).isSome = (app.userAt q).isSome

theorem SameLive.trans (first : SameLive app app') (second : SameLive app' app'') : SameLive app app'' :=
  fun q => (second q).trans (first q)

theorem SameUsers.live (same : SameUsers app app') : SameLive app app' := fun q => by
  rw [App.userAt, App.userAt, same.1]

theorem setUser_live {new : User} (ran : app.setUser p new = .ok app') : SameLive app app' := by
  obtain ⟨old, loaded, _⟩ := bind_eq_ok.mp ran
  have there := App.userAt_of_user loaded
  rw [App.setUser_of_userAt there] at ran
  cases ran
  intro q
  change ((app.heap.set p (some new))[q]?.join).isSome = _
  rw [App.userAt_set there]
  split
  · rename_i here
    rw [← here, there]
    rfl
  · rfl

theorem stateNew_live (ran : stateNew env p app = .ok app') : SameLive app app' := by
  obtain ⟨msg, printed⟩ := stateNew_runs ran
  exact (printFmt_sameUsers printed).live

theorem stateSwitch_live {state : State} (ran : stateSwitch env p state app = .ok app') : SameLive app app' := by
  obtain ⟨user, _, ran⟩ := bind_eq_ok.mp ran
  obtain ⟨switched, set, ran⟩ := bind_eq_ok.mp ran
  exact (setUser_live set).trans (stateNew_live ran)

/-- A loop whose turns leave the objects where they are. -/
theorem foreach_live {V : Type} {tbl : App → Map Handle V} {body : Slot → App → Except Fault App}
    (turns : ∀ s middle after, body s middle = .ok after → SameLive middle after)
    (ran : Map.foreach env.quiet tbl body app = .ok app') : SameLive app app' := by
  refine Map.foreach_preserves (SameLive app) ?_ (fun _ => rfl) ran
  intro i j s middle after so_far _ turned
  exact so_far.trans (turns s middle after turned)

theorem broadcast_live {msg : User → Msg} (ran : broadcast env p msg app = .ok app') : SameLive app app' := by
  refine foreach_live ?_ ran
  intro s middle after turned
  obtain rfl | ⟨_, _, _, told⟩ := broadcastTurn_runs turned
  · exact fun _ => rfl
  · exact (printFmt_sameUsers told).live

theorem handleListCmd_live (ran : handleListCmd env p app = .ok app') : SameLive app app' := by
  obtain ⟨_, _, first, second, third, header, own, loop, prompted⟩ := handleListCmd_runs ran
  have listed : SameLive second third := by
    refine foreach_live ?_ loop
    intro s middle after turned
    obtain rfl | ⟨_, sent⟩ := listTurn_runs turned
    · exact fun _ => rfl
    · exact (sendFmt_sameUsers sent).live
  exact (((sendFmt_sameUsers header).trans (sendFmt_sameUsers own)).live.trans listed).trans
    (prompt_sameUsers prompted).live

theorem handleCommand_live (ran : handleCommand env p line app = .ok app') : SameLive app app' := by
  obtain ⟨msg, printed⟩ | switched | listed | ⟨cmdEnd, whispered⟩ := handleCommand_runs ran
  · exact (printFmt_sameUsers printed).live
  · exact stateSwitch_live switched
  · exact handleListCmd_live listed
  · obtain ⟨_, printed⟩ | ⟨_, _, _, _, _, told, _, _, _, sent, printed⟩ := handleWhisperCmd_runs whispered
    · exact (printFmt_sameUsers printed).live
    · exact ((printFmt_sameUsers sent).trans (printFmt_sameUsers printed)).live

theorem loginLine_live (ran : loginLine env p line app = .ok app') : SameLive app app' := by
  obtain prompted | ⟨_, printed⟩ | ⟨_, named, fromUsername, _, _, _, set, switch, told⟩ := loginLine_runs ran
  · exact (prompt_sameUsers prompted).live
  · exact (printFmt_sameUsers printed).live
  · have registered : SameLive named { named with fromUsername := fromUsername } := fun _ => rfl
    exact (((setUser_live set).trans registered).trans (stateSwitch_live switch)).trans (broadcast_live told)

theorem chatLine_live (ran : chatLine env p line app = .ok app') : SameLive app app' := by
  obtain prompted | commanded | ⟨_, _, sent, printed⟩ := chatLine_runs ran
  · exact (prompt_sameUsers prompted).live
  · exact handleCommand_live commanded
  · exact (broadcast_live sent).trans (printFmt_sameUsers printed).live

theorem serverRemoveClient_sameUsers {h : Handle} (ran : serverRemoveClient h app = .ok app') :
    SameUsers app app' := by
  obtain ⟨_, _, ran⟩ := bind_eq_ok.mp ran
  obtain ⟨client, _, set⟩ := bind_eq_ok.mp ran
  have noted : SameUsers app (app.note (.goodbye h)) := ⟨rfl, rfl⟩
  exact noted.trans (setClient_sameUsers set)

/-- A user's turn allocates no object and frees none. -/
theorem updateUser_live (ran : updateUser env s app = .ok app') : SameLive app app' := by
  obtain ⟨p, _, ran⟩ := bind_eq_ok.mp ran
  obtain ⟨_, _, ran⟩ := bind_eq_ok.mp ran
  obtain ⟨_, _, ran⟩ := bind_eq_ok.mp ran
  obtain ⟨user, _, ran⟩ := bind_eq_ok.mp ran
  obtain ⟨⟨line, taken⟩, took, ran⟩ := bind_eq_ok.mp ran
  have first := (takeLine_sameUsers took).live
  cases line with
  | none =>
    cases ran
    exact first
  | some line =>
    cases state : user.state with
    | login => simp only [state] at ran; exact first.trans (loginLine_live ran)
    | chat => simp only [state] at ran; exact first.trans (chatLine_live ran)
    | exit =>
      simp only [state] at ran
      obtain ⟨_, _, _, removed⟩ | ⟨_, switched⟩ := exitLine_runs ran
      · exact first.trans (serverRemoveClient_sameUsers removed).live
      · exact first.trans (stateSwitch_live switched)

/-- A new user is one more object. -/
theorem createUser_live {h : Handle} (ran : createUser env h app = .ok app') (q : UserPtr) :
    (app'.userAt q).isSome ↔ (app.userAt q).isSome ∨ q = app.heap.length := by
  obtain ⟨greeted, user, fromHandle, greeting, _, _, rfl⟩ := createUser_runs ran
  change (greeted.userAt q).isSome ↔ _
  rw [stateNew_live greeting q]
  change (((app.heap ++ [some (⟨h, .login, []⟩ : User)])[q]?).join).isSome ↔ _
  rw [List.getElem?_append]
  split
  · rename_i inside
    simp [App.userAt, Nat.ne_of_lt inside]
  · rename_i outside
    have nothing : app.userAt q = none := by
      rw [App.userAt, List.getElem?_eq_none (Nat.le_of_not_lt outside)]
      rfl
    rw [nothing]
    obtain same | behind := Nat.eq_or_lt_of_le (Nat.le_of_not_lt outside)
    · simp [← same]
    · have beyond : [some (⟨h, .login, []⟩ : User)][q - app.heap.length]? = none :=
        List.getElem?_eq_none (by rw [List.length_singleton]; omega)
      rw [beyond]
      simp [Nat.ne_of_gt behind]

/-- A user that goes is one object less: the one its pointer leads to at last. -/
theorem removeUser_live {h : Handle} (ran : removeUser env h app = .ok app') :
    ∃ gone q, app.fromHandle.get handleHash handleEq h = .ok gone ∧ app'.fromHandle.val gone = .ok q ∧
      (app.userAt q).isSome ∧ ∀ r, (app'.userAt r).isSome ↔ (app.userAt r).isSome ∧ r ≠ q := by
  obtain ⟨gone, found, ran⟩ := bind_eq_ok.mp ran
  obtain ⟨user, _, ran⟩ := bind_eq_ok.mp ran
  obtain ⟨fromHandle, removed, ran⟩ := bind_eq_ok.mp ran
  obtain ⟨dropped, drop, ran⟩ := bind_eq_ok.mp ran
  obtain ⟨told, farewell, ran⟩ := bind_eq_ok.mp ran
  obtain ⟨q, last, freed⟩ := bind_eq_ok.mp ran
  have same : SameLive app told := by
    have unlisted : SameLive app dropped := by
      obtain ⟨_, rfl⟩ := dropUsername_runs drop
      exact fun _ => rfl
    refine unlisted.trans (foreach_live ?_ farewell)
    intro s middle after turned
    obtain rfl | ⟨_, _, _, _, sent⟩ := farewellTurn_runs turned
    · exact fun _ => rfl
    · exact (printFmt_sameUsers sent).live
  obtain ⟨old, there⟩ : ∃ old, told.userAt q = some old := by
    unfold App.freeUser at freed
    split at freed
    · rename_i old stored
      exact ⟨old, by rw [App.userAt, stored]; rfl⟩
    · cases freed
  rw [freeUser_heap freed]
  refine ⟨gone, q, found, last, by rw [← same, there]; rfl, fun r => ?_⟩
  change ((told.heap.set q none)[r]?.join).isSome ↔ _
  rw [App.userAt_set there, ← same r]
  by_cases mine : q = r
  · simp [mine]
  · simp [mine, Ne.symm mine]

end Objects

/-! ## Output -/

section Output
variable {env : Env} {self h : Handle} {app app' : App} {p : UserPtr} {user : User} {msg : Msg}

/-- The client to whose array an event appends. -/
def Event.outTo : Event → Option Handle
  | .printed h _ _ | .sent h _ | .prompted h => some h
  | _ => none

/-- Events that append to the arrays of clients that are there. -/
def App.Feeds (app : App) (events : List Event) : Prop := ∀ e ∈ events, ∀ h ∈ e.outTo, (app.clientOf h).isSome

theorem serverSend_connected (wired : app.Wired) {data : Bytes} (ran : serverSend h data app = .ok app') :
    (app.clientOf h).isSome := by
  obtain ⟨_, found, _⟩ := bind_eq_ok.mp ran
  obtain ⟨_, client, known⟩ := Map.get_eq_ok handleEq_exact wired.clients found
  exact Option.isSome_iff_exists.mpr ⟨client, known⟩

theorem serverSend_noted (wired : app.Wired) {event : Event} {data : Bytes}
    (ran : serverSend h data (app.note event) = .ok app') : (app.clientOf h).isSome := by
  have connected : ((app.note event).clientOf h).isSome :=
    serverSend_connected (note_pours wired event).wired ran
  exact connected

theorem printFmt_connected (wired : app.Wired) (live : app.userAt p = some user) {action : Print}
    (ran : printFmt env p action msg app = .ok app') : (app.clientOf user.handle).isSome := by
  obtain ⟨other, loaded, ran⟩ := bind_eq_ok.mp ran
  obtain rfl : user = other := Option.some.inj (live.symm.trans (App.userAt_of_user loaded))
  obtain ⟨opened, lead, ran⟩ := bind_eq_ok.mp ran
  obtain ⟨sent, text, _⟩ := bind_eq_ok.mp ran
  cases action with
  | interrupt => exact serverSend_connected wired lead
  | afterEnter =>
    cases lead
    exact serverSend_noted wired text

theorem sendFmt_connected (wired : app.Wired) (live : app.userAt p = some user)
    (ran : sendFmt env p msg app = .ok app') : (app.clientOf user.handle).isSome := by
  obtain ⟨other, loaded, ran⟩ := bind_eq_ok.mp ran
  obtain rfl : user = other := Option.some.inj (live.symm.trans (App.userAt_of_user loaded))
  exact serverSend_noted wired ran

theorem prompt_connected (wired : app.Wired) (live : app.userAt p = some user) (ran : prompt p app = .ok app') :
    (app.clientOf user.handle).isSome := by
  obtain ⟨other, loaded, ran⟩ := bind_eq_ok.mp ran
  obtain rfl : user = other := Option.some.inj (live.symm.trans (App.userAt_of_user loaded))
  exact serverSend_noted wired ran

theorem feeds_frame (connected : (app.clientOf h).isSome) (action : Print) : app.Feeds (frame h action msg) := by
  simp [App.Feeds, frame, Event.outTo, connected]

theorem feeds_silent {events : List Event} (silent : ∀ e ∈ events, e.outTo = none) : app.Feeds events := by
  intro e member h told
  rw [silent e member] at told
  cases told

/-- Whatever an operation says is appended to the array of a client. -/
theorem Effect.feeds (effect : Effect env self app app') (wired : app.Wired) :
    ∃ events, Charges env events app app' ∧ app.Feeds events := by
  cases effect with
  | answer live _ ran =>
    exact ⟨_, printFmt_charges wired live ran, feeds_frame (printFmt_connected wired live ran) _⟩
  | interrupt live _ ran =>
    exact ⟨_, printFmt_charges wired live ran, feeds_frame (printFmt_connected wired live ran) _⟩
  | send live _ ran =>
    refine ⟨_, sendFmt_charges wired live ran, ?_⟩
    simp [App.Feeds, Event.outTo, sendFmt_connected wired live ran]
  | prompt live _ ran =>
    refine ⟨_, prompt_charges wired live ran, ?_⟩
    simp [App.Feeds, Event.outTo, prompt_connected wired live ran]
  | takeLine found ran =>
    obtain ⟨here, _⟩ := Map.get_eq_ok handleEq_exact wired.clients found
    obtain ⟨events, charged, handled⟩ : ∃ events, Charges env events app app' ∧ _ :=
      takeLine_charges wired here ran
    refine ⟨events, charged, feeds_silent fun e member => ?_⟩
    obtain ⟨_, _, rfl⟩ := handled e member
    rfl
  | enroll => exact ⟨[.userNew self], pours_aside wired rfl rfl, feeds_silent (by simp [Event.outTo])⟩
  | @dismiss k => exact ⟨[.userRemoved k], pours_aside wired rfl rfl, feeds_silent (by simp [Event.outTo])⟩
  | free ran =>
    rw [freeUser_heap ran]
    exact ⟨[], pours_aside wired rfl (List.append_nil _).symm, nofun⟩
  | setUser | names | alloc => exact ⟨[], pours_aside wired rfl (List.append_nil _).symm, nofun⟩

theorem Effects.feeds (path : Effects env self app app') (wired : app.Wired) :
    ∃ events, Charges env events app app' ∧ app.Feeds events := by
  induction path with
  | refl => exact ⟨[], Pours.refl wired, nofun⟩
  | tail _ effect ih =>
    obtain ⟨before, first, fed⟩ := ih
    obtain ⟨after, second, more⟩ := effect.feeds first.wired
    refine ⟨before ++ after, Charges.trans first second, fun e member h told => ?_⟩
    obtain early | late := List.mem_append.mp member
    · exact fed e early h told
    · rw [← isSome_of_outOf first]
      exact more e late h told

theorem Confirms.feeds (confirms : Confirms p self app app') (wired : app.Wired) :
    ∃ events, Charges env events app app' ∧ app.Feeds events := by
  obtain ⟨taken, out, charged, _, handled⟩ : ∃ taken out, Charges env (taken ++ [.goodbye self]) app app' ∧ _ :=
    confirms.charges wired
  refine ⟨_, charged, feeds_silent fun e member => ?_⟩
  obtain early | late := List.mem_append.mp member
  · obtain ⟨_, _, rfl⟩ := handled e early
    rfl
  · rw [List.mem_singleton.mp late]
    rfl

end Output

/-! ## One line -/

section Line
variable {app : App} {events : List Event} {held : List Block} {room : Room} {user : User} {line : Bytes}

/-- An event that takes no memory but to be told. -/
def Event.isTold (e : Event) : Prop := e.isTalk = true ∨ e.memory = []

/-- Output may be formatted, and all of it has an array to go to. -/
structure Ready (events : List Event) (held : List Block) : Prop where
  told : ∀ e ∈ events, e.isTold
  free : .out ∉ held
  fed : ∀ e ∈ events, ∀ h ∈ e.outTo, .output h ∈ held

theorem Ready.beside (ready : Ready events held) {b : Block} (other : b ≠ .out) : Ready events (b :: held) where
  told := ready.told
  free inside := (List.mem_cons.mp inside).elim (fun same => other same.symm) ready.free
  fed e member h told := List.mem_cons_of_mem b (ready.fed e member h told)

theorem formatting_manages {h : Handle} {msg : Msg} (free : .out ∉ held) (there : .output h ∈ held)
    (parts : ∀ b ∈ msg.parts, b ∈ held) : Manages held (formatting h msg) held := by
  have read : Manages (.out :: held) (msg.parts.map .use) (.out :: held) :=
    uses_held fun b part => List.mem_cons_of_mem _ (parts b part)
  have sent : Manages (.out :: held) [.use (.output h), .use .out] (.out :: held) :=
    (use_held (List.mem_cons_of_mem _ there)).append (use_held List.mem_cons_self)
  simpa [formatting] using borrows free (read.append sent)

/-- What an answer takes is given back. -/
theorem Ready.manages (ready : Ready events held) (parts : ∀ e ∈ events, ∀ b ∈ e.parts, b ∈ held) :
    Manages held (events.flatMap Event.memory) held := by
  refine Obeys.pieces fun e member => ?_
  obtain talk | nothing := ready.told e member
  swap
  · rw [nothing]
    exact .done held
  cases e with
  | printed h action msg =>
    have there := ready.fed _ member h rfl
    have lead : Manages held (if action = .interrupt then [.use (.output h)] else []) held := by
      split
      · exact use_held there
      · exact .done held
    exact (lead.append (formatting_manages ready.free there (parts _ member))).append (use_held there)
  | sent h msg => exact formatting_manages ready.free (ready.fed _ member h rfl) (parts _ member)
  | prompted h => exact use_held (ready.fed _ member h rfl)
  | goodbye => exact .done held
  | _ => cases talk

/-- Output that is formatted from nothing but names and numbers. -/
def Wordless (events : List Event) : Prop := ∀ e ∈ events, e.parts = []

theorem Ready.manages_wordless (ready : Ready events held) (wordless : Wordless events) :
    Manages held (events.flatMap Event.memory) held :=
  ready.manages fun e member b part => by
    rw [wordless e member] at part
    cases part

theorem frame_parts {h : Handle} {action : Print} {msg : Msg} {e : Event} (member : e ∈ frame h action msg)
    {b : Block} (part : b ∈ e.parts) : b ∈ msg.parts := by
  rcases List.mem_pair.mp member with rfl | rfl
  · exact part
  · cases part

theorem frame_wordless {h : Handle} {action : Print} {msg : Msg} (nothing : msg.parts = []) :
    Wordless (frame h action msg) := by
  intro e member
  refine List.eq_nil_iff_forall_not_mem.mpr fun b part => ?_
  have inside := frame_parts member part
  rw [nothing] at inside
  cases inside

theorem toOthers_parts {self : Handle} {msg : Msg} {e : Event} (member : e ∈ room.toOthers self msg)
    {b : Block} (part : b ∈ e.parts) : b ∈ msg.parts := by
  obtain ⟨k, _, _, inside⟩ := mem_frames (fun h => h ≠ self ∧ room.inChat h) member
  exact frame_parts inside part

/-- A line that is no command is told from the array it is in. -/
theorem speak_parts (days : Int) (room : Room) (other : ¬ (user.state = .chat ∧ isCommand line = true)) :
    ∀ e ∈ (room.speak days user line).2, ∀ b ∈ e.parts, b = .line := by
  intro e member b part
  unfold Room.speak at member
  cases state : user.state with
  | login =>
    simp only [state] at member
    split_ifs at member
    · rw [List.mem_singleton.mp member] at part
      cases part
    · cases frame_parts member part
    · cases frame_parts member part
    · rcases List.mem_append.mp member with inside | inside
      · cases frame_parts inside part
      · cases toOthers_parts inside part
  | chat =>
    simp only [state] at member
    split_ifs at member with blank command
    · rw [List.mem_singleton.mp member] at part
      cases part
    · exact absurd ⟨state, command⟩ other
    · rcases List.mem_append.mp member with inside | inside
      · exact List.mem_singleton.mp (toOthers_parts inside part)
      · exact List.mem_singleton.mp (frame_parts inside part)
  | exit =>
    simp only [state] at member
    split_ifs at member
    · rw [List.mem_singleton.mp member] at part
      cases part
    · cases frame_parts member part

theorem listing_wordless (room : Room) (user : User) : Wordless (room.listing user) := by
  intro e member
  simp only [Room.listing, List.mem_append, List.mem_cons, List.mem_flatMap, List.not_mem_nil, or_false] at member
  rcases member with ((rfl | rfl) | ⟨k, _, inside⟩) | rfl
  · rfl
  · rfl
  · split at inside
    · cases inside
    · obtain ⟨other, _, rfl⟩ := List.mem_map.mp inside
      rfl
  · rfl

/-- Only a whisper tells of the words of its line. -/
theorem command_wordless (days : Int) (room : Room) (user : User)
    (other : commandOf (commandWord line) ≠ some .whisper) : Wordless (room.command days user line).2 := by
  unfold Room.command
  cases known : commandOf (commandWord line) with
  | none => exact frame_wordless rfl
  | some cmd =>
    cases cmd with
    | help | exit | info => exact frame_wordless rfl
    | list => exact listing_wordless room user
    | whisper => exact absurd known other

/-- Output that is formatted from the array that was made last. -/
theorem Ready.manages_from {b : Block} (ready : Ready events (b :: held))
    (parts : ∀ e ∈ events, ∀ part ∈ e.parts, part = b) :
    Manages (b :: held) (events.flatMap Event.memory) (b :: held) :=
  ready.manages fun e member part listed => by
    rw [parts e member part listed]
    exact List.mem_cons_self

/-- A part of a line is copied to an array of its own. -/
theorem copied_manages {b : Block} (source : .line ∈ held) :
    Manages (b :: held) [.use .line, .use b] (b :: held) :=
  (use_held (List.mem_cons_of_mem _ source)).append (use_held List.mem_cons_self)

/-- Who is refused is told the name. -/
theorem refused_manages (ready : Ready events held) (source : .line ∈ held) (new : .recipient ∉ held)
    (parts : ∀ e ∈ events, ∀ part ∈ e.parts, part = .recipient) :
    Manages held ([.acquire .recipient, .use .line, .use .recipient] ++ events.flatMap Event.memory ++
      [.release .recipient]) held :=
  borrows new ((copied_manages source).append ((ready.beside (by simp)).manages_from parts))

/-- Who is heard is told the message. -/
theorem heard_manages (ready : Ready events held) (source : .line ∈ held) (noRecipient : .recipient ∉ held)
    (noMsg : .msg ∉ held) (parts : ∀ e ∈ events, ∀ part ∈ e.parts, part = .msg) :
    Manages held ([.acquire .recipient, .use .line, .use .recipient] ++ [.acquire .msg, .use .line, .use .msg] ++
      events.flatMap Event.memory ++ [.release .msg, .release .recipient]) held := by
  have absent : .msg ∉ .recipient :: held := by simp [noMsg]
  have both := (ready.beside (b := .recipient) (by simp)).beside (b := .msg) (by simp)
  have told := borrows absent ((copied_manages (List.mem_cons_of_mem _ source)).append (both.manages_from parts))
  simpa using borrows noRecipient ((copied_manages source).append told)

/-- The words of a whisper are given back. -/
theorem whisperMemory_manages (sound : app.Sound) (owners : room.owner = app.room.owner)
    (users : room.user = app.room.user) (ready : Ready (room.whisper user line) held) (source : .line ∈ held)
    (noRecipient : .recipient ∉ held) (noMsg : .msg ∉ held) : ∃ acts,
      whisperMemory line (scanWhile (!isSpace ·) line 1) app ((room.whisper user line).flatMap Event.memory) =
        .ok acts ∧ Manages held acts held := by
  have recipient := slice_recipient line
  unfold recipientEnd at recipient
  have owner := owner_found sound (whisperTo line)
  have refused := refused_manages ready source noRecipient
  have owned : (room.owner (whisperTo line)).bind room.user =
      (app.room.owner (whisperTo line)).bind app.room.user := by
    rw [owners, users]
  unfold whisperMemory
  simp only [recipient, ok_bind]
  cases known : (app.room.owner (whisperTo line)).bind app.room.user with
  | none =>
    rw [known] at owner owned
    refine ⟨_, by rw [owner]; rfl, refused fun e member b part => ?_⟩
    simp only [Room.whisper, owned] at member
    exact List.mem_singleton.mp (frame_parts member part)
  | some other =>
    rw [known] at owner owned
    obtain ⟨s, q, slot, read, there, _⟩ := owner
    simp only [slot, read, ok_bind, App.user_of_userAt there, pure_eq_ok]
    by_cases listens : other.state = .chat
    · by_cases nothing : whisperText line = []
      · rw [if_pos (.inr ((text_ends line).mpr nothing))]
        refine ⟨_, rfl, refused fun e member b part => ?_⟩
        simp only [Room.whisper, owned, listens, nothing, ne_eq, not_true_eq_false, if_false, if_true] at member
        cases frame_parts member part
      · have spoken := mt (text_ends line).mp nothing
        unfold recipientEnd at spoken
        rw [if_neg (by simpa [listens] using spoken)]
        refine ⟨_, rfl, heard_manages ready source noRecipient noMsg fun e member b part => ?_⟩
        simp only [Room.whisper, owned, listens, nothing, ne_eq, not_true_eq_false, if_false] at member
        rcases List.mem_append.mp member with inside | inside
        · exact List.mem_singleton.mp (frame_parts inside part)
        · exact List.mem_singleton.mp (frame_parts inside part)
    · rw [if_pos (.inl listens)]
      refine ⟨_, rfl, refused fun e member b part => ?_⟩
      simp only [Room.whisper, owned, listens, ne_eq, not_false_eq_true, if_true] at member
      exact List.mem_singleton.mp (frame_parts member part)

/-- The word of a command is given back if and only if it is known. -/
theorem commandMemory_manages (days : Int) (sound : app.Sound) (owners : room.owner = app.room.owner)
    (users : room.user = app.room.user) (ready : Ready (room.command days user line).2 held)
    (source : .line ∈ held) {place : Nat}
    (new : .word place ∉ held) (noRecipient : .recipient ∉ held) (noMsg : .msg ∉ held) : ∃ acts held',
      commandMemory place line app ((room.command days user line).2.flatMap Event.memory) = .ok acts ∧
        Manages held acts held' ∧
        (line.length ≠ 1 ∧ commandOf (commandWord line) = none ∧ held' = .word place :: held ∨
          (line.length ≠ 1 → commandOf (commandWord line) ≠ none) ∧ held' = held) := by
  have beside := ready.beside (b := .word place) (by simp)
  have inside : .line ∈ .word place :: held := List.mem_cons_of_mem _ source
  have parsed : Manages (.word place :: held) [.use .line, .use (.word place)] (.word place :: held) :=
    copied_manages source
  unfold commandMemory
  by_cases single : line.length = 1
  · have word : commandWord line = [] := by
      rw [commandWord, List.drop_eq_nil_of_le (Nat.le_of_eq single)]
      rfl
    have wordless : Wordless (room.command days user line).2 :=
      command_wordless days room user (by rw [word]; decide)
    exact ⟨_, held, by rw [if_pos single]; rfl, (use_held source).append (ready.manages_wordless wordless),
      .inr ⟨fun more => absurd single more, rfl⟩⟩
  obtain ⟨commands, opened, found⟩ := command_looked_up (commandWord line)
  have word : slice line 1 (sizeSub (scanWhile (!isSpace ·) line 1) 1) = .ok (commandWord line) :=
    slice_scanWhile _ line 1
  rw [if_neg single]
  simp only [word, opened, ok_bind]
  cases known : commandOf (commandWord line) with
  | none =>
    rw [known] at found
    have wordless : Wordless (room.command days user line).2 := command_wordless days room user (by simp [known])
    have kept : Manages held ([.acquire (.word place), .use .line, .use (.word place)] ++
        (room.command days user line).2.flatMap Event.memory) (.word place :: held) :=
      .read (if_neg new) (parsed.append (beside.manages_wordless wordless))
    exact ⟨_, .word place :: held, by rw [found]; rfl, kept, .inl ⟨single, rfl, rfl⟩⟩
  | some cmd =>
    rw [known] at found
    obtain ⟨s, slot, read⟩ := found
    simp only [slot, read, ok_bind]
    cases cmd with
    | whisper =>
      have said : (room.command days user line).2 = room.whisper user line := by
        simp [Room.command, known]
      rw [said] at beside ⊢
      obtain ⟨acts, heard, manages⟩ := whisperMemory_manages sound owners users beside inside
        (by simp [noRecipient]) (by simp [noMsg])
      exact ⟨_, held, by rw [heard]; rfl, borrows new (parsed.append manages), .inr ⟨by simp, rfl⟩⟩
    | _ =>
      have wordless : Wordless (room.command days user line).2 := command_wordless days room user (by simp [known])
      exact ⟨_, held, rfl, borrows new (parsed.append (beside.manages_wordless wordless)), .inr ⟨by simp, rfl⟩⟩

end Line

/-! ## What is forgotten -/

section Forgetting
variable {trace events : List Event} {line : Bytes} {h : Handle}

/-- The text of `ac_handle_help_cmd`. -/
def Event.isHelp : Event → Bool
  | .printed _ .afterEnter .help => true
  | _ => false

def Event.isHandled : Event → Bool
  | .handled .. => true
  | _ => false

theorem Forgotten.later {place : Nat} (forgot : Forgotten trace place) : Forgotten (trace ++ events) place := by
  obtain ⟨h, taken, line, handled, shown, rest⟩ := forgot
  refine ⟨h, taken, line, ?_, ?_, rest⟩
  · rw [List.getElem?_append_left (List.getElem?_eq_some_iff.mp handled).1, handled]
  · rw [List.getElem?_append_left (List.getElem?_eq_some_iff.mp shown).1, shown]

/-- Nothing is forgotten from one operation to the next. -/
theorem forgotten_append (fresh : ∀ e ∈ events.head?, e.isHelp = false) (place : Nat) :
    Forgotten (trace ++ events) place ↔
      Forgotten trace place ∨ ∃ k, place = trace.length + k ∧ Forgotten events k := by
  constructor
  · rintro ⟨h, taken, line, handled, shown, more, unknown⟩
    obtain before | last | after := Nat.lt_trichotomy (place + 1) trace.length
    · rw [List.getElem?_append_left (by omega)] at handled
      rw [List.getElem?_append_left before] at shown
      exact .inl ⟨h, taken, line, handled, shown, more, unknown⟩
    · rw [last, List.getElem?_append_right (Nat.le_refl _), Nat.sub_self, ← List.head?_eq_getElem?] at shown
      cases fresh _ shown
    · obtain ⟨k, rfl⟩ := Nat.exists_eq_add_of_le (Nat.le_of_lt_succ after)
      rw [List.getElem?_append_right (by omega), Nat.add_sub_cancel_left] at handled
      rw [List.getElem?_append_right (by omega), Nat.add_assoc, Nat.add_sub_cancel_left] at shown
      exact .inr ⟨k, rfl, h, taken, line, handled, shown, more, unknown⟩
  · rintro (before | ⟨k, rfl, h, taken, line, handled, shown, rest⟩)
    · exact before.later
    · refine ⟨h, taken, line, ?_, ?_, rest⟩
      · rw [List.getElem?_append_right (by omega), Nat.add_sub_cancel_left, handled]
      · rw [List.getElem?_append_right (by omega), Nat.add_assoc, Nat.add_sub_cancel_left, shown]

theorem forgotten_lt {place : Nat} (forgot : Forgotten events place) : place < events.length := by
  obtain ⟨_, _, _, handled, _⟩ := forgot
  exact (List.getElem?_eq_some_iff.mp handled).1

theorem not_forgotten (none : ∀ e ∈ events, e.isHandled = false) (place : Nat) : ¬ Forgotten events place := by
  rintro ⟨h, taken, line, handled, _⟩
  cases none _ (List.mem_of_getElem? handled)

/-- Neither a line nor the commands. -/
def Event.isAside (e : Event) : Prop := e.isHelp = false ∧ e.isHandled = false

theorem forgotten_still (aside : ∀ e ∈ events, e.isAside) (place : Nat) :
    Forgotten (trace ++ events) place ↔ Forgotten trace place := by
  rw [forgotten_append fun e first => (aside e (List.mem_of_head? first)).1]
  simp [not_forgotten fun e member => (aside e member).2]

/-- An unknown command, given what it is answered with. -/
def Unanswered (h : Handle) (line : Bytes) (said : List Event) : Prop :=
  said.head? = some (.printed h .afterEnter .help) ∧ line.length ≠ 1 ∧ commandOf (commandWord line) = none

/-- A line is forgotten at the place it is noted, or not at all. -/
theorem forgotten_line {taken : Bytes} {said : List Event} (talks : ∀ e ∈ said, e.isTalk = true) (place : Nat) :
    Forgotten (trace ++ .handled h taken line :: said) place ↔
      Forgotten trace place ∨ place = trace.length ∧ Unanswered h line said := by
  have quiet : ∀ e ∈ said, e.isHandled = false := by
    intro e member
    have talk := talks e member
    cases e <;> first | rfl | cases talk
  rw [forgotten_append (by simp [Event.isHelp])]
  refine or_congr_right ⟨?_, ?_⟩
  · rintro ⟨k, rfl, self, _, _, handled, shown, rest⟩
    cases k with
    | zero =>
      cases handled
      exact ⟨rfl, by rw [List.head?_eq_getElem?]; exact shown, rest⟩
    | succ k => cases quiet _ (List.mem_of_getElem? handled)
  · rintro ⟨rfl, shown, rest⟩
    rw [List.head?_eq_getElem?] at shown
    exact ⟨0, rfl, h, taken, line, rfl, shown, rest⟩

/-- The commands are shown for a command of a user in the chat. -/
theorem help_asked (days : Int) (room : Room) (user : User) (line : Bytes)
    (shown : .printed h .afterEnter .help ∈ (room.speak days user line).2) :
    user.state = .chat ∧ isCommand line = true := by
  have told : ∀ (self : Handle) (msg : Msg) (room : Room),
      .printed h .afterEnter .help ∉ room.toOthers self msg := by
    intro self msg room member
    obtain ⟨k, _, _, inside⟩ := mem_frames (fun h => h ≠ self ∧ room.inChat h) member
    simp [frame] at inside
  unfold Room.speak at shown
  cases state : user.state with
  | login =>
    simp only [state] at shown
    split_ifs at shown <;> simp [frame, told] at shown
  | chat =>
    simp only [state] at shown
    split_ifs at shown with blank command
    · simp at shown
    · exact ⟨rfl, command⟩
    · simp [frame, told] at shown
  | exit =>
    simp only [state] at shown
    split_ifs at shown <;> simp [frame] at shown

/-- An unknown command is answered with them. -/
theorem unknown_answered (days : Int) (room : Room) (user : User) (chatting : user.state = .chat)
    (command : isCommand line = true) (unknown : commandOf (commandWord line) = none) :
    (room.speak days user line).2 = frame user.handle .afterEnter .help := by
  have filled : line ≠ [] := by
    rintro rfl
    cases command
  simp [Room.speak, chatting, filled, command, Room.command, unknown]

end Forgetting

end AuroraComms
