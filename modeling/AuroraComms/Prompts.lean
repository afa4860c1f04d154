import AuroraComms.Delivery
import AuroraComms.Accounts

/-! Every terminal stands at a prompt. Most functions print in frames, which end
with one; a list is sent in pieces and prompts behind the last. Nothing is
assumed of the tables or of the objects the pointers lead to, so this holds on
every run, also where a loop or a removal went astray. -/
namespace AuroraComms
open Meta Library.Run

/-! ## Output that ends with a prompt -/

/-- The bytes end with the prompt. -/
def AtPrompt (data : Bytes) : Prop := bytes ">" <:+ data

/-- There are no bytes, or they end with the prompt. -/
def Rests (data : Bytes) : Prop := data = [] ∨ AtPrompt data

/-- Whoever these events reach is left at a prompt, and who is made a user by
them is reached. -/
structure Restful (events : List Event) : Prop where
  rests : ∀ env h, Rests (events.flatMap (render env h))
  greets : ∀ h, .userNew h ∈ events → .prompted h ∈ events

section Rest
variable {data more : Bytes} {events later : List Event}

theorem AtPrompt.prepend (ended : AtPrompt data) (front : Bytes) : AtPrompt (front ++ data) :=
  ended.trans (List.suffix_append front data)

theorem AtPrompt.append (ended : AtPrompt data) (rests : Rests more) : AtPrompt (data ++ more) := by
  obtain rfl | again := rests
  · rw [List.append_nil]
    exact ended
  · exact again.prepend data

theorem Rests.append (rests : Rests data) (after : Rests more) : Rests (data ++ more) := by
  obtain rfl | ended := rests
  · exact after
  · exact .inr (ended.append after)

theorem Restful.append (restful : Restful events) (after : Restful later) : Restful (events ++ later) where
  rests env h := by
    rw [List.flatMap_append]
    exact (restful.rests env h).append (after.rests env h)
  greets h made := by
    obtain early | late := List.mem_append.mp made
    · exact List.mem_append_left _ (restful.greets h early)
    · exact List.mem_append_right _ (after.greets h late)

/-- Events that queue nothing and make no user. -/
theorem restful_silent (silent : ∀ e ∈ events, ∀ env h, render env h e = [] ∧ e ≠ .userNew h) :
    Restful events where
  rests env h := .inl (List.flatMap_eq_nil_iff.mpr fun e member => (silent e member env h).1)
  greets h made := absurd rfl (silent _ made .idle h).2

theorem framed_atPrompt (action : Print) (text : Bytes) : AtPrompt (framed action text) :=
  List.suffix_append _ _

theorem restful_frame (h : Handle) (action : Print) (msg : Msg) : Restful (frame h action msg) where
  rests env k := by
    rw [frame_render]
    split
    · exact .inr (framed_atPrompt action _)
    · exact .inl rfl
  greets k made := by simp [frame] at made

/-- Whatever is sent to one client before its prompt. -/
theorem restful_prompted {self : Handle} (sends : ∀ e ∈ events, ∃ msg, e = .sent self msg) :
    Restful (events ++ [.prompted self]) where
  rests env h := by
    rw [List.flatMap_append]
    by_cases own : self = h
    · have last : [Event.prompted self].flatMap (render env h) = bytes ">" := by simp [render, own]
      rw [last]
      exact .inr (List.suffix_append _ _)
    · left
      rw [List.append_eq_nil_iff, List.flatMap_eq_nil_iff]
      refine ⟨fun e member => ?_, by simp [render, own]⟩
      obtain ⟨msg, rfl⟩ := sends e member
      simp [render, own]
  greets h made := by
    obtain early | late := List.mem_append.mp made
    · obtain ⟨msg, same⟩ := sends _ early
      cases same
    · cases List.mem_singleton.mp late

/-- Who is prompted is left at the prompt. -/
theorem Restful.atPrompt (restful : Restful events) {h : Handle} (prompted : .prompted h ∈ events)
    (env : Env) : AtPrompt (events.flatMap (render env h)) := by
  obtain nothing | ended := restful.rests env h
  · have silent := List.flatMap_eq_nil_iff.mp nothing _ prompted
    simp [render, bytes] at silent
  · exact ended

end Rest

/-! ## What the functions note -/

/-- The table of users stays, and of the events noted this holds. -/
structure Notes (holds : List Event → Prop) (app app' : App) : Prop where
  handles : app'.fromHandle = app.fromHandle
  noted : ∃ events, app'.trace = app.trace ++ events ∧ holds events

/-- Everyone is left at a prompt. -/
abbrev Calms (app app' : App) : Prop := Notes Restful app app'

/-- Besides, this client gets a prompt. -/
abbrev Answers (h : Handle) (app app' : App) : Prop :=
  Notes (fun events => Restful events ∧ .prompted h ∈ events) app app'

section Functions
variable {env : Env} {self : Handle} {app app' app'' : App} {p : UserPtr} {line : Bytes}

theorem calms_still (handles : app'.fromHandle = app.fromHandle) (trace : app'.trace = app.trace) :
    Calms app app' :=
  ⟨handles, [], by rw [trace, List.append_nil], restful_silent (by simp)⟩

theorem Notes.trans {first second both : List Event → Prop} (before : Notes first app app')
    (after : Notes second app' app'') (joined : ∀ xs ys, first xs → second ys → both (xs ++ ys)) :
    Notes both app app'' := by
  obtain ⟨handles, earlier, trace, held⟩ := before
  obtain ⟨handles', later, trace', held'⟩ := after
  exact ⟨handles'.trans handles, earlier ++ later, by rw [trace', trace, List.append_assoc],
    joined earlier later held held'⟩

theorem Calms.andThen (first : Calms app app') (second : Calms app' app'') : Calms app app'' :=
  first.trans second fun _ _ => Restful.append

theorem Answers.calms (answers : Answers self app app') : Calms app app' := by
  obtain ⟨handles, events, trace, restful, _⟩ := answers
  exact ⟨handles, events, trace, restful⟩

theorem Answers.then_calms (first : Answers self app app') (second : Calms app' app'') :
    Answers self app app'' :=
  first.trans second fun _ _ answered restful =>
    ⟨answered.1.append restful, List.mem_append_left _ answered.2⟩

theorem Calms.then_answers (first : Calms app app') (second : Answers self app' app'') :
    Answers self app app'' :=
  first.trans second fun _ _ restful answered =>
    ⟨restful.append answered.1, List.mem_append_right _ answered.2⟩

theorem SameUsers.owned (same : SameUsers app app') (owned : Owned p self app) : Owned p self app' := by
  unfold Owned App.userAt at *
  rw [same.1]
  exact owned

theorem setClient_trace {s : Slot} {client : Client} (ran : app.setClient s client = .ok app') :
    app'.trace = app.trace := by
  obtain ⟨_, _, same⟩ := bind_eq_ok.mp ran
  cases same
  rfl

theorem serverSend_trace {h : Handle} {data : Bytes} (ran : serverSend h data app = .ok app') :
    app'.trace = app.trace := by
  obtain ⟨_, _, ran⟩ := bind_eq_ok.mp ran
  obtain ⟨_, _, ran⟩ := bind_eq_ok.mp ran
  exact setClient_trace ran

theorem leadingNl_trace {h : Handle} {action : Print} (ran : leadingNl h action app = .ok app') :
    app'.trace = app.trace := by
  cases action with
  | interrupt => exact serverSend_trace ran
  | afterEnter =>
    cases ran
    rfl

theorem prompt_trace (ran : prompt p app = .ok app') :
    ∃ user, app.user p = .ok user ∧ app'.trace = app.trace ++ [.prompted user.handle] := by
  obtain ⟨user, loaded, ran⟩ := bind_eq_ok.mp ran
  exact ⟨user, loaded, serverSend_trace ran⟩

theorem sendFmt_trace {msg : Msg} (ran : sendFmt env p msg app = .ok app') :
    ∃ user, app.user p = .ok user ∧ app'.trace = app.trace ++ [.sent user.handle msg] := by
  obtain ⟨user, loaded, ran⟩ := bind_eq_ok.mp ran
  exact ⟨user, loaded, serverSend_trace ran⟩

theorem printFmt_trace {action : Print} {msg : Msg} (ran : printFmt env p action msg app = .ok app') :
    ∃ user, app.user p = .ok user ∧ app'.trace = app.trace ++ frame user.handle action msg := by
  obtain ⟨user, loaded, ran⟩ := bind_eq_ok.mp ran
  obtain ⟨opened, lead, ran⟩ := bind_eq_ok.mp ran
  obtain ⟨sent, text, ran⟩ := bind_eq_ok.mp ran
  obtain ⟨ended, close, ran⟩ := bind_eq_ok.mp ran
  obtain ⟨again, reloaded, prompted⟩ := prompt_trace ran
  have heap : ended.heap = app.heap :=
    (serverSend_sameUsers close).1.trans ((serverSend_sameUsers text).1.trans (leadingNl_sameUsers lead).1)
  have same : again = user := by
    unfold App.user at loaded reloaded
    rw [heap, loaded] at reloaded
    exact (Except.ok.inj reloaded).symm
  refine ⟨user, loaded, ?_⟩
  rw [prompted, same, serverSend_trace close, serverSend_trace text]
  change (opened.trace ++ [.printed user.handle action msg]) ++ [.prompted user.handle] = _
  rw [leadingNl_trace lead, List.append_assoc]
  rfl

/-! ## Printing -/

theorem printFmt_calms {action : Print} {msg : Msg} (ran : printFmt env p action msg app = .ok app') :
    Calms app app' := by
  obtain ⟨user, _, trace⟩ := printFmt_trace ran
  exact ⟨(printFmt_sameUsers ran).2, _, trace, restful_frame user.handle action msg⟩

theorem printFmt_answers (owned : Owned p self app) {action : Print} {msg : Msg}
    (ran : printFmt env p action msg app = .ok app') : Answers self app app' := by
  obtain ⟨user, loaded, trace⟩ := printFmt_trace ran
  have own := owned.2 user (App.userAt_of_user loaded)
  exact ⟨(printFmt_sameUsers ran).2, _, trace, restful_frame _ action msg, by simp [frame, own]⟩

theorem prompt_answers (owned : Owned p self app) (ran : prompt p app = .ok app') :
    Answers self app app' := by
  obtain ⟨user, loaded, trace⟩ := prompt_trace ran
  rw [owned.2 user (App.userAt_of_user loaded)] at trace
  have alone : Restful ([] ++ [.prompted self]) := restful_prompted (by simp)
  exact ⟨(prompt_sameUsers ran).2, _, trace, alone, List.mem_singleton_self _⟩

/-! ## A user's line -/

theorem stateNew_answers (owned : Owned p self app) (ran : stateNew env p app = .ok app') :
    Answers self app app' := by
  obtain ⟨msg, printed⟩ := stateNew_runs ran
  exact printFmt_answers owned printed

theorem setUser_calms {q : UserPtr} {user : User} (ran : app.setUser q user = .ok app') : Calms app app' := by
  obtain ⟨_, _, same⟩ := bind_eq_ok.mp ran
  cases same
  exact calms_still rfl rfl

theorem stateSwitch_answers (owned : Owned p self app) {state : State}
    (ran : stateSwitch env p state app = .ok app') : Answers self app app' := by
  obtain ⟨user, loaded, ran⟩ := bind_eq_ok.mp ran
  obtain ⟨switched, set, ran⟩ := bind_eq_ok.mp ran
  have path : Effects env self app switched := by
    apply setUser_effects loaded _ _ set
    · rfl
    · exact .inl rfl
  exact (setUser_calms set).then_answers (stateNew_answers (path.owned owned) ran)

/-- A broadcast prompts everyone it reaches, and changes no user. -/
theorem broadcast_calms {msg : User → Msg} (ran : broadcast env p msg app = .ok app') :
    Calms app app' ∧ SameUsers app app' := by
  refine Map.foreach_preserves (fun middle => Calms app middle ∧ SameUsers app middle) ?_
    ⟨calms_still rfl rfl, rfl, rfl⟩ ran
  rintro i j s middle after ⟨calm, same⟩ _ turned
  obtain rfl | ⟨q, user, _, told⟩ := broadcastTurn_runs turned
  · exact ⟨calm, same⟩
  · exact ⟨calm.andThen (printFmt_calms told), same.trans (printFmt_sameUsers told)⟩

/-- From one state to another by pieces of text for one client. -/
structure Pieces (h : Handle) (app app' : App) : Prop where
  same : SameUsers app app'
  noted : Notes (fun events => ∀ e ∈ events, ∃ msg, e = .sent h msg) app app'

theorem Pieces.andThen (first : Pieces self app app') (second : Pieces self app' app'') :
    Pieces self app app'' where
  same := first.same.trans second.same
  noted := first.noted.trans second.noted fun _ _ sends sends' e member =>
    (List.mem_append.mp member).elim (sends e) (sends' e)

theorem sendFmt_pieces (owned : Owned p self app) {msg : Msg} (ran : sendFmt env p msg app = .ok app') :
    Pieces self app app' := by
  obtain ⟨user, loaded, trace⟩ := sendFmt_trace ran
  rw [owned.2 user (App.userAt_of_user loaded)] at trace
  have same := sendFmt_sameUsers ran
  exact ⟨same, same.2, _, trace, fun e member => ⟨msg, List.mem_singleton.mp member⟩⟩

/-- The list is the one answer that comes in pieces, with a prompt behind the last. -/
theorem handleListCmd_answers (owned : Owned p self app) (ran : handleListCmd env p app = .ok app') :
    Answers self app app' := by
  obtain ⟨_, _, first, second, third, header, own, loop, prompted⟩ := handleListCmd_runs ran
  have opened := sendFmt_pieces owned header
  have begun := opened.andThen (sendFmt_pieces (opened.same.owned owned) own)
  have listed : Pieces self app third := by
    refine Map.foreach_preserves (Pieces self app) ?_ begun loop
    intro i j s middle after so_far _ turned
    obtain rfl | ⟨msg, sent⟩ := listTurn_runs turned
    · exact so_far
    · exact so_far.andThen (sendFmt_pieces (so_far.same.owned owned) sent)
  obtain ⟨same, _, events, trace, sends⟩ := listed
  obtain ⟨user, loaded, noted⟩ := prompt_trace prompted
  rw [(same.owned owned).2 user (App.userAt_of_user loaded), trace, List.append_assoc] at noted
  exact ⟨(prompt_sameUsers prompted).2.trans same.2, _, noted, restful_prompted sends, by simp⟩

theorem handleWhisperCmd_answers (owned : Owned p self app) {cmdEnd : Nat}
    (ran : handleWhisperCmd env p line cmdEnd app = .ok app') : Answers self app app' := by
  obtain ⟨msg, printed⟩ | ⟨q, user, start, n, text, told, ack, _, _, sent, printed⟩ := handleWhisperCmd_runs ran
  · exact printFmt_answers owned printed
  · have still := (printFmt_sameUsers sent).owned owned
    exact (printFmt_calms sent).then_answers (printFmt_answers still printed)

theorem handleCommand_answers (owned : Owned p self app) (ran : handleCommand env p line app = .ok app') :
    Answers self app app' := by
  obtain ⟨msg, printed⟩ | switched | listed | ⟨cmdEnd, whispered⟩ := handleCommand_runs ran
  · exact printFmt_answers owned printed
  · exact stateSwitch_answers owned switched
  · exact handleListCmd_answers owned listed
  · exact handleWhisperCmd_answers owned whispered

theorem loginLine_answers (owned : Owned p self app) (ran : loginLine env p line app = .ok app') :
    Answers self app app' := by
  obtain prompted | ⟨msg, printed⟩ | ⟨user, named, fromUsername, switched, valid, loaded, set, switch, told⟩ :=
    loginLine_runs ran
  · exact prompt_answers owned prompted
  · exact printFmt_answers owned printed
  · have path : Effects env self app named := by
      apply setUser_effects loaded _ _ set
      · rfl
      · exact .inr ⟨line, valid, rfl⟩
    have registered : Calms app { named with fromUsername := fromUsername } :=
      (setUser_calms set).andThen (calms_still rfl rfl)
    have still : Owned p self { named with fromUsername := fromUsername } := path.owned owned
    exact (registered.then_answers (stateSwitch_answers still switch)).then_calms (broadcast_calms told).1

theorem chatLine_answers (owned : Owned p self app) (ran : chatLine env p line app = .ok app') :
    Answers self app app' := by
  obtain prompted | commanded | ⟨told, ack, sent, printed⟩ := chatLine_runs ran
  · exact prompt_answers owned prompted
  · exact handleCommand_answers owned commanded
  · obtain ⟨calm, same⟩ := broadcast_calms sent
    exact calm.then_answers (printFmt_answers (same.owned owned) printed)

/-- The user answers the question whether to exit with yes. -/
def User.Confirms (user : User) (line : Bytes) : Prop :=
  user.state = .exit ∧ stringEqIgnoreCase line (bytes "y") = true

theorem takeLine_calms {s : Slot} {result : Option Bytes} (ran : takeLine s app = .ok (result, app')) :
    Calms app app' := by
  have handles := (takeLine_sameUsers ran).2
  obtain ⟨client, _, ran⟩ := bind_eq_ok.mp ran
  obtain ⟨cut, _, ran⟩ := bind_eq_ok.mp ran
  cases cut with
  | none =>
    cases ran
    exact calms_still rfl rfl
  | some taken =>
    obtain ⟨after, set, same⟩ := bind_eq_ok.mp ran
    cases same
    exact ⟨handles, _, setClient_trace set, restful_silent (by simp [render])⟩

/-- A line that was consumed is answered, unless it confirms the exit. -/
theorem stateUpdate_answers {s : Slot} {user : User} {taken : App} (loaded : app.user p = .ok user)
    (took : takeLine s app = .ok (some line, taken)) (declined : ¬ user.Confirms line)
    (ran : stateUpdate env p s app = .ok app') : Answers user.handle taken app' := by
  have still : Owned p user.handle taken := (takeLine_sameUsers took).owned (owned_of_user loaded)
  rw [stateUpdate, loaded, ok_bind, took, ok_bind] at ran
  cases state : user.state with
  | login => simp only [state] at ran; exact loginLine_answers still ran
  | chat => simp only [state] at ran; exact chatLine_answers still ran
  | exit =>
    simp only [state] at ran
    obtain ⟨confirmed, _⟩ | ⟨_, switched⟩ := exitLine_runs ran
    · exact absurd ⟨state, confirmed⟩ declined
    · exact stateSwitch_answers still switched

/-- A confirmed exit queues nothing. -/
theorem serverRemoveClient_calms {h : Handle} (ran : serverRemoveClient h app = .ok app') : Calms app app' := by
  obtain ⟨s, _, ran⟩ := bind_eq_ok.mp ran
  obtain ⟨client, _, ran⟩ := bind_eq_ok.mp ran
  exact ⟨(setClient_sameUsers ran).2, _, setClient_trace ran, restful_silent (by simp [render])⟩

theorem stateUpdate_calms {s : Slot} (ran : stateUpdate env p s app = .ok app') : Calms app app' := by
  obtain ⟨user, loaded, ran'⟩ := bind_eq_ok.mp ran
  obtain ⟨⟨result, taken⟩, took, ran'⟩ := bind_eq_ok.mp ran'
  have consumed := takeLine_calms took
  cases result with
  | none =>
    cases ran'
    exact consumed
  | some line =>
    by_cases confirms : user.Confirms line
    · obtain ⟨exiting, yes⟩ := confirms
      simp only [exiting] at ran'
      obtain ⟨_, _, _, removed⟩ | ⟨no, _⟩ := exitLine_runs ran'
      · exact consumed.andThen (serverRemoveClient_calms removed)
      · rw [no] at yes
        cases yes
    · exact consumed.andThen (stateUpdate_answers loaded took confirms ran).calms

theorem updateUser_calms {s : Slot} (ran : updateUser env s app = .ok app') : Calms app app' := by
  obtain ⟨p, _, ran⟩ := bind_eq_ok.mp ran
  obtain ⟨user, _, ran⟩ := bind_eq_ok.mp ran
  obtain ⟨client, _, ran⟩ := bind_eq_ok.mp ran
  exact stateUpdate_calms ran

/-! ## Users come and go -/

/-- Everyone is left at a prompt, whoever is entered as a user included. -/
structure Keeps (app app' : App) : Prop where
  wired : app'.Wired
  handles : app'.fromHandle.Sound handleHash handleEq
  noted : ∃ events, app'.trace = app.trace ++ events ∧ Restful events ∧
    ∀ h, (app'.ptrOf h).isSome → (app.ptrOf h).isSome ∨ .prompted h ∈ events

theorem Calms.keeps (calms : Calms app app') (handles : app.fromHandle.Sound handleHash handleEq)
    (wired : app'.Wired) : Keeps app app' := by
  obtain ⟨same, events, trace, restful⟩ := calms
  refine ⟨wired, by rw [same]; exact handles, events, trace, restful, fun h entered => .inl ?_⟩
  rw [App.ptrOf, same] at entered
  exact entered

/-- A user is greeted before it is entered. -/
theorem createUser_keeps (handles : app.fromHandle.Sound handleHash handleEq) (wired : app'.Wired)
    (ran : createUser env self app = .ok app') : Keeps app app' := by
  obtain ⟨greeted, user, fromHandle, greeting, loaded, set, rfl⟩ := createUser_runs ran
  have owned := owned_alloc self app
  have own := ((stateNew_effects owned greeting).owned owned).2 user (App.userAt_of_user loaded)
  obtain ⟨kept, events, trace, restful, prompted⟩ := stateNew_answers owned greeting
  have before : greeted.fromHandle = app.fromHandle := kept
  rw [own, before] at set
  obtain ⟨sound, found, _⟩ := Map.set_eq_ok handleEq_exact handles set
  refine ⟨wired, sound, events ++ [.userNew user.handle], ?_, ?_, fun h entered => ?_⟩
  · have noted : greeted.trace = app.trace ++ events := trace
    change greeted.trace ++ [.userNew user.handle] = _
    rw [noted, List.append_assoc]
  · constructor
    · intro env h
      rw [List.flatMap_append]
      exact (restful.rests env h).append (.inl rfl)
    · intro h made
      apply List.mem_append_left
      obtain early | late := List.mem_append.mp made
      · exact restful.greets h early
      · cases List.mem_singleton.mp late
        rw [own]
        exact prompted
  · change (fromHandle.find handleHash handleEq h).isSome = true at entered
    rw [found, Function.update_apply] at entered
    split at entered
    · rename_i here
      rw [here]
      exact .inr (List.mem_append_left _ prompted)
    · exact .inl entered

theorem dropUsername_calms {s : Slot} (ran : dropUsername s app = .ok app') : Calms app app' := by
  obtain ⟨fromUsername, rfl⟩ := dropUsername_runs ran
  exact calms_still rfl rfl

theorem farewell_calms {s : Slot}
    (ran : Map.foreach env.quiet App.fromHandle (farewellTurn env s) app = .ok app') : Calms app app' := by
  refine Map.foreach_preserves (Calms app) ?_ (calms_still rfl rfl) ran
  intro i j slot middle after calm _ turned
  obtain rfl | ⟨q, r, user, _, sent⟩ := farewellTurn_runs turned
  · exact calm
  · exact calm.andThen (printFmt_calms sent)

theorem removeUser_keeps (handles : app.fromHandle.Sound handleHash handleEq) (wired : app'.Wired)
    (ran : removeUser env self app = .ok app') : Keeps app app' := by
  obtain ⟨k, fromHandle, dropped, told, q, gone, removed, drop, farewell, freeing⟩ := removeUser_runs ran
  obtain ⟨sound, found, _⟩ := Map.remove_eq_ok handleEq_exact handles removed
  have freed : Calms told app' := by
    cases freeUser_heap freeing
    exact calms_still rfl rfl
  have rest := ((dropUsername_calms drop).andThen (farewell_calms farewell)).andThen freed
  obtain ⟨wired, sound', events, trace, restful, entered⟩ := rest.keeps sound wired
  refine ⟨wired, sound', .userRemoved k :: events, ?_, ?_, fun h there => ?_⟩
  · rw [trace]
    exact List.append_assoc _ _ _
  · exact (restful_silent (by simp [render]) : Restful [.userRemoved k]).append restful
  · obtain before | prompted := entered h there
    · change (fromHandle.find handleHash handleEq h).isSome = true at before
      rw [found, Function.update_apply] at before
      split at before
      · cases before
      · exact .inl before
    · exact .inr (List.mem_cons_of_mem _ prompted)

theorem updateClient_keeps {s : Slot} (handles : app.fromHandle.Sound handleHash handleEq)
    (wired : app'.Wired) (ran : updateClient env s app = .ok app') : Keeps app app' := by
  obtain ⟨client, _, ran⟩ := bind_eq_ok.mp ran
  cases state : client.state with
  | new => rw [state] at ran; exact createUser_keeps handles wired ran
  | toBeRemoved => rw [state] at ran; exact removeUser_keeps handles wired ran
  | online =>
    rw [state] at ran
    cases ran
    exact (calms_still rfl rfl).keeps handles wired

/-! ## The network -/

theorem sweep_calms {polled : List Handle} (wired : app.Wired) (ran : sweep env app = .ok (polled, app')) :
    Calms app app' := by
  obtain ⟨gone, trace, _⟩ := (sweep_sweeps wired ran).trace
  exact ⟨(sweep_sameUsers ran).2, _, trace, restful_silent (by simp [render])⟩

theorem handleConn_calms (wired : app.Wired) (ran : handleConn env app = .ok app') :
    app'.Wired ∧ Calms app app' := by
  obtain rfl | ⟨fd, _, _, wired', _, _, trace⟩ := handleConn_enters wired ran
  · exact ⟨wired, calms_still rfl rfl⟩
  · exact ⟨wired', (handleConn_sameUsers ran).2, _, trace, restful_silent (by simp [render])⟩

theorem receiveOne_calms {fd : Handle} (wired : app.Wired) (ran : receiveOne env fd app = .ok app') :
    app'.Wired ∧ Calms app app' := by
  obtain ⟨events, charged, arrived⟩ := receiveOne_charges wired ran
  refine ⟨charged.wired, (receiveOne_sameUsers ran).2, events, charged.trace, restful_silent ?_⟩
  intro e member env h
  obtain rfl | ⟨data, rfl⟩ := arrived e member <;> simp [render]

end Functions

/-! ## Whole runs -/

/-- A run, and beside it what every user was sent so far: the payloads of
`ac_server_send` for it, from the operation on in which it was made. -/
structure Transcript where
  sys : Sys
  emitted : Handle → Bytes

namespace Transcript

def step (env : Env) (transcript : Transcript) : Except Fault Transcript := do
  let sys ← AuroraComms.step env transcript.sys
  let events := sys.app.trace.drop transcript.sys.app.trace.length
  return ⟨sys, fun h =>
    (if .userNew h ∈ events then [] else transcript.emitted h) ++ events.flatMap (render env h)⟩

/-- The transcript as the program starts. -/
def start (listener : Handle) (now : Int) : Transcript := ⟨AuroraComms.start listener now, fun _ => []⟩

end Transcript

section Runs
variable {env : Env} {sys sys' : Sys}

/-- Every operation of the main loop leaves everyone at a prompt. -/
theorem step_keeps (wired : sys.app.Wired) (handles : sys.app.fromHandle.Sound handleHash handleEq)
    (ran : step env sys = .ok sys') : Keeps sys.app sys'.app := by
  cases step_work ran with
  | still => exact (calms_still rfl rfl).keeps handles wired
  | sweeps _ sweeping => exact (sweep_calms wired sweeping).keeps handles (sweep_sweeps wired sweeping).wired
  | connects _ connecting =>
    obtain ⟨wired', calms⟩ := handleConn_calms wired connecting
    exact calms.keeps handles wired'
  | receives _ receiving =>
    obtain ⟨wired', calms⟩ := receiveOne_calms wired receiving
    exact calms.keeps handles wired'
  | flushes _ flushing =>
    obtain ⟨taken, _, sends⟩ := flush_flushed wired flushing
    exact (calms_still (flush_sameUsers flushing).2 sends.trace).keeps handles sends.wired
  | user _ _ updating =>
    obtain ⟨_, charged⟩ := updateUser_noted wired updating
    exact (updateUser_calms updating).keeps handles charged.wired
  | client _ _ updating =>
    obtain ⟨_, charged⟩ := updateClient_noted wired updating
    exact updateClient_keeps handles charged.wired updating

/-- Every user has been sent something that ends with the prompt. -/
structure Transcript.AtRest (transcript : Transcript) : Prop where
  wired : transcript.sys.app.Wired
  handles : transcript.sys.app.fromHandle.Sound handleHash handleEq
  ended : ∀ h, (transcript.sys.app.ptrOf h).isSome → AtPrompt (transcript.emitted h)

theorem start_atRest (listener : Handle) (now : Int) : (Transcript.start listener now).AtRest := by
  obtain ⟨sound, empty⟩ : (Map.newReserve clientsMax : Map Handle UserPtr).Sound handleHash handleEq ∧ _ :=
    Map.newReserve_sound (by decide)
  refine ⟨start_wired listener now, sound, fun h entered => ?_⟩
  have nobody : (Transcript.start listener now).sys.app.ptrOf h = none := empty h
  rw [nobody] at entered
  cases entered

theorem step_atRest {before after : Transcript} (atRest : before.AtRest)
    (ran : Transcript.step env before = .ok after) : after.AtRest := by
  obtain ⟨sys', stepped, same⟩ := bind_eq_ok.mp ran
  cases same
  obtain ⟨wired, handles, events, trace, restful, entered⟩ := step_keeps atRest.wired atRest.handles stepped
  refine ⟨wired, handles, fun h there => ?_⟩
  dsimp only at there ⊢
  rw [trace, List.drop_left]
  by_cases prompted : .prompted h ∈ events
  · exact (restful.atPrompt prompted env).prepend _
  · have old : .userNew h ∉ events := fun made => prompted (restful.greets h made)
    rw [if_neg old]
    obtain earlier | now := entered h there
    · exact (atRest.ended h earlier).append (restful.rests env h)
    · exact absurd now prompted

theorem run_atRest {listener : Handle} {now : Int} {transcript : Transcript}
    (reached : Reaches Transcript.step (fun _ _ => True) (Transcript.start listener now) transcript) :
    transcript.AtRest :=
  reached.invariant (start_atRest listener now) fun _ _ _ _ atRest ran => step_atRest atRest ran

end Runs

/-! ## No line is swallowed -/

section Lines
variable {room : Room} {user : User} {line : Bytes}

theorem command_prompts (days : Int) (room : Room) (user : User) (line : Bytes) :
    .prompted user.handle ∈ (room.command days user line).2 := by
  unfold Room.command
  cases commandOf (commandWord line) with
  | none => simp [frame]
  | some cmd =>
    cases cmd with
    | list => simp [Room.listing]
    | help | exit | info => simp [frame]
    | whisper =>
      simp only [Room.whisper]
      split
      · simp [frame]
      · split
        · simp [frame]
        · split <;> simp [frame]

theorem speak_prompts (days : Int) (room : Room) (declined : ¬ user.Confirms line) :
    .prompted user.handle ∈ (room.speak days user line).2 := by
  unfold Room.speak
  cases state : user.state with
  | login =>
    dsimp only
    split
    · exact List.mem_singleton_self _
    split
    · simp [frame]
    split
    · simp [frame]
    · simp [frame]
  | chat =>
    dsimp only
    split
    · exact List.mem_singleton_self _
    split
    · exact command_prompts days room user line
    · simp [frame]
  | exit =>
    dsimp only
    split
    · rename_i confirmed
      exact absurd ⟨state, confirmed⟩ declined
    · simp [frame]

end Lines

/-- On every run, every user has been sent something that ends with the prompt. In
every state, when `ac_state_update` returns from a line it consumed, the user it
handled the line for has been sent a prompt since, unless the line confirmed an
exit. It does return in every sound state in which every user is connected
(`run_good`: every state of an orderly run) and the loops visit each entry once,
and what the line adds to the out buffer of the user ends with the prompt. -/
theorem every_terminal_prompted :
    (∀ (listener : Handle) (now : Int) (transcript : Transcript),
      Reaches Transcript.step (fun _ _ => True) (Transcript.start listener now) transcript →
      ∀ h, (transcript.sys.app.ptrOf h).isSome → AtPrompt (transcript.emitted h)) ∧
    (∀ (env : Env) (p : UserPtr) (s : Slot) (app taken app' : App) (user : User) (line : Bytes),
      app.user p = .ok user → takeLine s app = .ok (some line, taken) → ¬ user.Confirms line →
      stateUpdate env p s app = .ok app' →
      ∃ events, app'.trace = taken.trace ++ events ∧ .prompted user.handle ∈ events) ∧
    (∀ (env : Env) (app : App) (s : Slot) (h : Handle) (user : User) (client : Client) (line rest : Bytes),
      app.Sound → app.Seated → Map.Readable env.quiet app.fromHandle → app.fromHandle.keyAt s = some h →
      app.room.user h = some user → app.clientOf h = some client →
      nextLine client.inBuf = some (line, rest) → ¬ user.Confirms line →
      ∃ app' events data, updateUser env s app = .ok app' ∧
        app'.trace = app.trace ++ .handled h (takenFrom client.inBuf rest) line :: events ∧
        .prompted h ∈ events ∧ app'.outOf h = (app.outOf h).map (· ++ data) ∧ AtPrompt data) := by
  refine ⟨?_, ?_, ?_⟩
  · intro listener now transcript reached h entered
    exact (run_atRest reached).ended h entered
  · intro env p s app taken app' user line loaded took declined ran
    obtain ⟨_, events, trace, _, prompted⟩ := stateUpdate_answers loaded took declined ran
    exact ⟨events, trace, prompted⟩
  · intro env app s h user client line rest sound seated readable at_h known stored next declined
    obtain ⟨app', ran, _, charged⟩ := updateUser_charges sound seated readable at_h
    obtain ⟨_, _, _, rfl⟩ := room_user_eq_some sound.toLaid known
    rw [turn_of_line known stored next] at charged
    have prompted := speak_prompts (uptimeDays env app) (app.room.setConn user.handle ⟨client.state, rest⟩)
      declined
    obtain ⟨_, events, trace, restful⟩ := updateUser_calms ran
    have noted := charged.trace
    rw [trace, List.append_cancel_left_eq] at noted
    subst noted
    exact ⟨app', _, _, ran, trace, prompted, charged.grown user.handle,
      restful.atPrompt (List.mem_cons_of_mem _ prompted) env⟩

/-- Two users in the chat, one of which has sent a line. -/
private def chatting : List (Nat × Env) :=
  [(107, .connects 4), (109, .brings 4 (bytes "amy\n")), (110, .connects 5),
    (111, .brings 5 (bytes "bob\n")), (13, .brings 5 (bytes "hi\n"))]

private theorem chatting_unsent : ∀ env ∈ rounds chatting, ∀ h data, env.send h data = none :=
  rounds_unsent ⟨fun _ _ => rfl, fun _ _ => rfl, fun _ _ => rfl, fun _ _ => rfl, fun _ _ => rfl⟩

/-- A round in which the line arrives. -/
private def speaks : Env := .brings 5 (bytes "hi\n")

/-- The line interrupts the other user. -/
private theorem interrupted : ∃ transcript : Transcript,
    Reaches Transcript.step (fun _ _ => True) (Transcript.start 3 0) transcript ∧
      (transcript.sys.app.ptrOf 4).isSome = true ∧
      .printed 4 .interrupt (.chat (bytes "bob") (bytes "hi")) ∈ transcript.sys.app.trace := by
  have outcome : (drive Transcript.step (fun _ _ => true) .assertion (rounds chatting ++ [speaks])
      (Transcript.start 3 0)).map (fun transcript => decide ((transcript.sys.app.ptrOf 4).isSome = true ∧
        .printed 4 .interrupt (.chat (bytes "bob") (bytes "hi")) ∈ transcript.sys.app.trace)) = .ok true := by
    decide +kernel
  obtain ⟨transcript, driven, outcome⟩ := map_eq_ok.mp outcome
  obtain ⟨entered, shown⟩ := of_decide_eq_true outcome
  exact ⟨transcript, drive_reaches (fun _ _ _ _ => trivial) driven, entered, shown⟩

/-- The line is consumed by a call that returns. -/
private def handling (sys : Sys) : Except Fault (User × Option Bytes) := do
  let user ← sys.app.user 1
  let (line, _) ← takeLine ⟨5, 0⟩ sys.app
  let _ ← stateUpdate speaks 1 ⟨5, 0⟩ sys.app
  return (user, line)

/-- Both are prompted, by whichever function the line is handled. -/
theorem every_terminal_prompted_chat :
    (∃ transcript : Transcript, Reaches Transcript.step (fun _ _ => True) (Transcript.start 3 0) transcript ∧
      .printed 4 .interrupt (.chat (bytes "bob") (bytes "hi")) ∈ transcript.sys.app.trace ∧
      AtPrompt (transcript.emitted 4)) ∧
    ∃ sys : Sys, Reaches step Separate (start 3 0) sys ∧
      (∃ taken app' events, stateUpdate speaks 1 ⟨5, 0⟩ sys.app = .ok app' ∧
        takeLine ⟨5, 0⟩ sys.app = .ok (some (bytes "hi"), taken) ∧
        app'.trace = taken.trace ++ events ∧ .prompted 5 ∈ events) ∧
      ∃ app' events data, updateUser speaks ⟨5, 0⟩ sys.app = .ok app' ∧
        app'.trace = sys.app.trace ++ .handled 5 (bytes "hi\n") (bytes "hi") :: events ∧
        .prompted 5 ∈ events ∧ app'.outOf 5 = (sys.app.outOf 5).map (· ++ data) ∧ AtPrompt data := by
  refine ⟨?_, ?_⟩
  · obtain ⟨transcript, reached, entered, shown⟩ := interrupted
    exact ⟨transcript, reached, shown, every_terminal_prompted.1 3 0 transcript reached 4 entered⟩
  have outcome : (drive step separate .assertion (rounds chatting) (start 3 0)).map (fun sys =>
      (decide (sys.app.fromHandle.keyAt ⟨5, 0⟩ = some 5 ∧ Map.Readable false sys.app.fromHandle ∧
          sys.app.room.user 5 = some ⟨5, .chat, bytes "bob"⟩ ∧
          handling sys = .ok (⟨5, .chat, bytes "bob"⟩, some (bytes "hi"))),
        (sys.app.clientOf 5).map Client.inBuf)) = .ok (true, some (bytes "hi\n")) := by
    decide +kernel
  obtain ⟨sys, driven, outcome⟩ := map_eq_ok.mp outcome
  obtain ⟨ready, outcome⟩ := Prod.mk.inj outcome
  obtain ⟨client, stored, arrived⟩ := Option.map_eq_some_iff.mp outcome
  obtain ⟨at_h, readable, known, handled⟩ := of_decide_eq_true ready
  have reached : Reaches step Separate (start 3 0) sys := reaches_of_drive chatting_unsent driven
  have good := run_good reached (fun _ _ => Separate.orderly) (start_good 3 0)
  refine ⟨sys, reached, ?_, ?_⟩
  · obtain ⟨user, loaded, handled⟩ := bind_eq_ok.mp handled
    obtain ⟨⟨line, taken⟩, took, handled⟩ := bind_eq_ok.mp handled
    obtain ⟨app', ran, same⟩ := bind_eq_ok.mp handled
    cases same
    have declined : ¬ User.Confirms ⟨5, .chat, bytes "bob"⟩ (bytes "hi") := fun confirms => by cases confirms.1
    obtain ⟨events, trace, prompted⟩ :=
      every_terminal_prompted.2.1 speaks 1 ⟨5, 0⟩ sys.app taken app' _ _ loaded took declined ran
    exact ⟨taken, app', events, ran, took, trace, prompted⟩
  · have next : nextLine client.inBuf = some (bytes "hi", []) := by
      rw [arrived]
      decide +kernel
    have declined : ¬ User.Confirms ⟨5, .chat, bytes "bob"⟩ (bytes "hi") := fun confirms => by cases confirms.1
    obtain ⟨app', events, data, ran, trace, rest⟩ := every_terminal_prompted.2.2 speaks sys.app ⟨5, 0⟩ 5 _ client
      _ _ good.sound (good.sound.seated good.inv.linked) readable at_h known stored next declined
    have taken : takenFrom client.inBuf [] = bytes "hi\n" := by
      rw [arrived]
      decide +kernel
    rw [taken] at trace
    exact ⟨app', events, data, ran, trace, rest⟩

end AuroraComms
