import AuroraComms.Effects

/-! What every operation does to the out buffers. It needs the table of clients
to be laid out correctly, which no operation endangers, and nothing else: the
loops may go astray and the users be anywhere. -/
namespace AuroraComms
open Meta Library.Run

namespace App

/-- The table of clients is laid out correctly, under the clients' own handles. -/
structure Wired (app : App) : Prop where
  clients : app.clients.Sound handleHash handleEq
  keyed : ∀ h client, app.clientOf h = some client → client.handle = h

/-- What is still to be sent to a client. -/
def outOf (app : App) (h : Handle) : Option Bytes := (app.clientOf h).map Client.outBuf

end App

theorem App.Sound.wired {app : App} (sound : app.Sound) : app.Wired := ⟨sound.clients, sound.keyed⟩

/-- The out buffers grow by `out`, while these events are noted. -/
structure Pours (out : Handle → Bytes) (events : List Event) (app app' : App) : Prop where
  wired : app'.Wired
  grown : ∀ h, app'.outOf h = (app.outOf h).map (· ++ out h)
  layout : app'.clients.keyTable = app.clients.keyTable
  trace : app'.trace = app.trace ++ events

/-- The out buffers grow by what the events noted say. -/
abbrev Charges (env : Env) (events : List Event) (app app' : App) : Prop :=
  Pours (fun h => events.flatMap (render env h)) events app app'

section Pours
variable {env : Env} {app app' app'' : App} {out out' : Handle → Bytes} {events events' : List Event}

theorem Pours.refl (wired : app.Wired) : Pours (fun _ => []) [] app app where
  wired := wired
  grown h := by cases app.outOf h <;> simp
  layout := rfl
  trace := (List.append_nil _).symm

theorem Pours.trans (first : Pours out events app app') (second : Pours out' events' app' app'') :
    Pours (fun h => out h ++ out' h) (events ++ events') app app'' where
  wired := second.wired
  grown h := by
    rw [second.grown, first.grown]
    cases app.outOf h <;> simp
  layout := second.layout.trans first.layout
  trace := by rw [second.trace, first.trace, List.append_assoc]

theorem Pours.same {out₂ : Handle → Bytes} {events₂ : List Event} (poured : Pours out events app app')
    (bytes : ∀ h, out h = out₂ h) (noted : events = events₂) : Pours out₂ events₂ app app' := by
  have rendered : out = out₂ := funext bytes
  rw [← rendered, ← noted]
  exact poured

theorem Charges.trans (first : Charges env events app app') (second : Charges env events' app' app'') :
    Charges env (events ++ events') app app'' :=
  (Pours.trans first second).same (fun h => by rw [List.flatMap_append]) rfl

theorem Outputs.pours (moved : Outputs out events app app') : Pours out events app app' where
  wired := ⟨moved.laid.clients, moved.laid.keyed⟩
  grown h := by
    rw [App.outOf, moved.clientOf, App.outOf, Option.map_map, Option.map_map]
    rfl
  layout := moved.keyTable
  trace := moved.trace

/-- An operation that leaves the clients alone. -/
theorem pours_aside (wired : app.Wired) (same : app'.clients = app.clients)
    (trace : app'.trace = app.trace ++ events) : Pours (fun _ => []) events app app' where
  wired := by
    refine ⟨by rw [same]; exact wired.clients, fun h client stored => wired.keyed h client ?_⟩
    rw [← stored, App.clientOf, App.clientOf, same]
  grown h := by
    have out : app'.outOf h = app.outOf h := by rw [App.outOf, App.outOf, App.clientOf, App.clientOf, same]
    rw [out]
    cases app.outOf h <;> simp
  layout := by rw [same]
  trace := trace

theorem note_pours (wired : app.Wired) (event : Event) :
    Pours (fun _ => []) [event] app (app.note event) := pours_aside wired rfl rfl

/-- The client at a slot of the table. -/
theorem App.Wired.client_at (wired : app.Wired) {s : Slot} {k : Handle} (here : app.clients.keyAt s = some k)
    {client : Client} (loaded : app.client s = .ok client) : app.clientOf k = some client := by
  obtain ⟨stored, found, _, read⟩ := Map.entry_keyAt handleEq_exact wired.clients here
  rw [App.client, read] at loaded
  cases loaded
  exact found

/-- Assigning to a client through its slot. -/
theorem setClient_wired (wired : app.Wired) {s : Slot} {k : Handle} (here : app.clients.keyAt s = some k)
    {client : Client} (ran : app.setClient s client = .ok app') (keyed : client.handle = k) :
    app'.Wired ∧ app'.clientOf = Function.update app.clientOf k (some client) ∧
      app'.clients.keyTable = app.clients.keyTable ∧ app' = app.setClients app'.clients := by
  obtain ⟨clients, stored, sound, found, layout, _⟩ := Map.setVal_keyAt handleEq_exact wired.clients here client
  rw [App.setClient, stored] at ran
  cases ran
  refine ⟨⟨sound, ?_⟩, found, layout, rfl⟩
  intro h other known
  rw [App.clientOf, show (app.setClients clients).clients = clients from rfl, found,
    Function.update_apply] at known
  split at known
  · rename_i same
    cases known
    exact keyed.trans same.symm
  · exact wired.keyed h other known

theorem setClient_pours (wired : app.Wired) {s : Slot} {k : Handle} (here : app.clients.keyAt s = some k)
    {old client : Client} (loaded : app.client s = .ok old) (ran : app.setClient s client = .ok app')
    (keyed : client.handle = old.handle) {data : Bytes} (grown : client.outBuf = old.outBuf ++ data) :
    Pours (fun h => if k = h then data else []) [] app app' := by
  have stored := wired.client_at here loaded
  obtain ⟨wired', found, layout, same⟩ :=
    setClient_wired wired here ran (keyed.trans (wired.keyed k old stored))
  refine ⟨wired', fun h => ?_, layout, by rw [same]; exact (List.append_nil _).symm⟩
  rw [App.outOf, App.outOf, found, Function.update_apply]
  by_cases same : h = k
  · simp [same, stored, grown]
  · rw [if_neg same, if_neg (Ne.symm same)]
    cases app.clientOf h <;> simp

/-- An assignment that leaves the out buffer alone. -/
theorem setClient_pours_nothing (wired : app.Wired) {s : Slot} {k : Handle}
    (here : app.clients.keyAt s = some k) {old client : Client} (loaded : app.client s = .ok old)
    (ran : app.setClient s client = .ok app') (keyed : client.handle = old.handle)
    (same : client.outBuf = old.outBuf) : Pours (fun _ => []) [] app app' := by
  have grown : client.outBuf = old.outBuf ++ [] := by rw [same, List.append_nil]
  exact (setClient_pours wired here loaded ran keyed grown).same (by simp) rfl

theorem serverSend_pours (wired : app.Wired) {k : Handle} {data : Bytes}
    (ran : serverSend k data app = .ok app') : Pours (fun h => if k = h then data else []) [] app app' := by
  obtain ⟨s, found, ran⟩ := bind_eq_ok.mp ran
  obtain ⟨client, loaded, ran⟩ := bind_eq_ok.mp ran
  obtain ⟨here, _⟩ := Map.get_eq_ok handleEq_exact wired.clients found
  exact setClient_pours wired here loaded ran rfl rfl

end Pours

/-! ## The print functions -/

section Printing
variable {env : Env} {app app' : App} {p : UserPtr} {user : User}

private theorem user_same (same : SameUsers app app') (live : app.userAt p = some user) {other : User}
    (loaded : app'.user p = .ok other) : other = user := by
  have there := App.userAt_of_user loaded
  rw [App.userAt, same.1] at there
  exact Option.some.inj (there.symm.trans live)

theorem prompt_charges (wired : app.Wired) (live : app.userAt p = some user)
    (ran : prompt p app = .ok app') : Charges env [.prompted user.handle] app app' := by
  obtain ⟨other, loaded, ran⟩ := bind_eq_ok.mp ran
  cases user_same ⟨rfl, rfl⟩ live loaded
  have noted := note_pours wired (.prompted user.handle)
  exact (noted.trans (serverSend_pours noted.wired ran)).same (by simp [render]) rfl

theorem sendFmt_charges (wired : app.Wired) (live : app.userAt p = some user) {msg : Msg}
    (ran : sendFmt env p msg app = .ok app') : Charges env [.sent user.handle msg] app app' := by
  obtain ⟨other, loaded, ran⟩ := bind_eq_ok.mp ran
  cases user_same ⟨rfl, rfl⟩ live loaded
  have noted := note_pours wired (.sent user.handle msg)
  exact (noted.trans (serverSend_pours noted.wired ran)).same (by simp [render]) rfl

theorem leadingNl_pours (wired : app.Wired) {k : Handle} {action : Print}
    (ran : leadingNl k action app = .ok app') :
    Pours (fun h => if k = h then (if action = .interrupt then crlf else []) else []) [] app app' := by
  cases action with
  | interrupt => exact (serverSend_pours wired ran).same (by simp) rfl
  | afterEnter =>
    cases ran
    exact (Pours.refl wired).same (by simp) rfl

theorem printFmt_charges (wired : app.Wired) (live : app.userAt p = some user) {action : Print} {msg : Msg}
    (ran : printFmt env p action msg app = .ok app') : Charges env (frame user.handle action msg) app app' := by
  obtain ⟨other, loaded, ran⟩ := bind_eq_ok.mp ran
  cases user_same ⟨rfl, rfl⟩ live loaded
  obtain ⟨opened, lead, ran⟩ := bind_eq_ok.mp ran
  obtain ⟨sent, text, ran⟩ := bind_eq_ok.mp ran
  obtain ⟨ended, close, ran⟩ := bind_eq_ok.mp ran
  have began := leadingNl_pours wired lead
  have noted := began.trans (note_pours began.wired (.printed user.handle action msg))
  have body := noted.trans (serverSend_pours noted.wired text)
  have framed := body.trans (serverSend_pours body.wired close)
  have still : ended.userAt p = some user := by
    have same := ((leadingNl_sameUsers lead).trans
      (⟨rfl, rfl⟩ : SameUsers opened (opened.note (.printed user.handle action msg)))).trans
        ((serverSend_sameUsers text).trans (serverSend_sameUsers close))
    rw [App.userAt, same.1]
    exact live
  have closed : Charges env [.prompted user.handle] ended app' := prompt_charges framed.wired still ran
  apply (framed.trans closed).same
  · intro h
    by_cases here : user.handle = h
    · simp [frame, render, here]
    · simp [frame, render, here]
  · rfl

end Printing

/-! ## Every operation of the application -/

section Operations
variable {env : Env} {self : Handle} {app app' : App}

theorem takeLine_charges (wired : app.Wired) {s : Slot} {k : Handle} (here : app.clients.keyAt s = some k)
    {line : Option Bytes} (ran : takeLine s app = .ok (line, app')) :
    ∃ events, Charges env events app app' ∧ ∀ e ∈ events, ∃ taken text, e = .handled k taken text := by
  obtain ⟨client, loaded, ran⟩ := bind_eq_ok.mp ran
  obtain ⟨result, _, ran⟩ := bind_eq_ok.mp ran
  cases result with
  | none =>
    cases ran
    exact ⟨[], Pours.refl wired, by simp⟩
  | some cut =>
    obtain ⟨after, set, same⟩ := bind_eq_ok.mp ran
    cases same
    have handle := wired.keyed k client (wired.client_at here loaded)
    have noted := note_pours wired (.handled client.handle
      (client.inBuf.take (client.inBuf.length - cut.2.length)) cut.1)
    have kept := setClient_pours_nothing noted.wired here loaded set rfl rfl
    refine ⟨_, (noted.trans kept).same (by simp [render]) rfl, ?_⟩
    intro e member
    rw [List.append_nil, List.mem_singleton] at member
    exact ⟨_, _, by rw [member, handle]⟩

theorem serverRemoveClient_charges (wired : app.Wired) {k : Handle}
    (ran : serverRemoveClient k app = .ok app') : Charges env [.goodbye k] app app' := by
  obtain ⟨s, found, ran⟩ := bind_eq_ok.mp ran
  obtain ⟨client, loaded, ran⟩ := bind_eq_ok.mp ran
  obtain ⟨here, _⟩ := Map.get_eq_ok handleEq_exact wired.clients found
  have noted := note_pours wired (.goodbye k)
  have kept := setClient_pours_nothing noted.wired here loaded ran rfl rfl
  exact (noted.trans kept).same (by simp [render]) rfl

/-- The events of the network itself. -/
def Event.isNetwork : Event → Bool
  | .accepted _ | .closed _ | .goodbye _ => true
  | _ => false

/-- Each operation notes what it puts into the out buffers. -/
theorem Effect.charges (effect : Effect env self app app') (wired : app.Wired) :
    ∃ events, Charges env events app app' ∧ ∀ e ∈ events, e.isNetwork = false := by
  cases effect with
  | answer live _ ran => exact ⟨_, printFmt_charges wired live ran, by simp [frame, Event.isNetwork]⟩
  | send live _ ran => exact ⟨_, sendFmt_charges wired live ran, by simp [Event.isNetwork]⟩
  | prompt live _ ran => exact ⟨_, prompt_charges wired live ran, by simp [Event.isNetwork]⟩
  | interrupt live _ ran => exact ⟨_, printFmt_charges wired live ran, by simp [frame, Event.isNetwork]⟩
  | takeLine found ran =>
    obtain ⟨here, _⟩ := Map.get_eq_ok handleEq_exact wired.clients found
    obtain ⟨events, charged, handled⟩ : ∃ events, Charges env events app app' ∧ _ :=
      takeLine_charges wired here ran
    refine ⟨events, charged, fun e member => ?_⟩
    obtain ⟨taken, text, rfl⟩ := handled e member
    rfl
  | setUser => exact ⟨[], pours_aside wired rfl (List.append_nil _).symm, by simp⟩
  | names => exact ⟨[], pours_aside wired rfl (List.append_nil _).symm, by simp⟩
  | alloc => exact ⟨[], pours_aside wired rfl (List.append_nil _).symm, by simp⟩
  | enroll => exact ⟨[.userNew self], pours_aside wired rfl rfl, by simp [Event.isNetwork]⟩
  | @dismiss h => exact ⟨[.userRemoved h], pours_aside wired rfl rfl, by simp [Event.isNetwork]⟩
  | free ran =>
    rw [freeUser_heap ran]
    exact ⟨[], pours_aside wired rfl (List.append_nil _).symm, by simp⟩

/-- So does every sequence of them. -/
theorem Effects.charges (path : Effects env self app app') (wired : app.Wired) :
    ∃ events, Charges env events app app' ∧ ∀ e ∈ events, e.isNetwork = false := by
  induction path with
  | refl => exact ⟨[], Pours.refl wired, by simp⟩
  | tail _ effect ih =>
    obtain ⟨before, first, aside⟩ := ih
    obtain ⟨after, second, aside'⟩ := effect.charges first.wired
    refine ⟨before ++ after, Charges.trans first second, fun e member => ?_⟩
    obtain early | late := List.mem_append.mp member
    · exact aside e early
    · exact aside' e late

/-- A confirmed exit queues nothing. -/
theorem Confirms.charges {p : UserPtr} (confirms : Confirms p self app app') (wired : app.Wired) :
    ∃ taken out, Charges env (taken ++ [.goodbye self]) app app' ∧ app.outOf self = some out ∧
      ∀ e ∈ taken, ∃ bytes text, e = .handled self bytes text := by
  obtain ⟨user, s, line, middle, _, _, found, took, _, removed⟩ := confirms
  obtain ⟨here, client, stored⟩ := Map.get_eq_ok handleEq_exact wired.clients found
  obtain ⟨taken, first, handled⟩ : ∃ events, Charges env events app middle ∧ _ :=
    takeLine_charges wired here took
  exact ⟨taken, client.outBuf, Charges.trans first (serverRemoveClient_charges first.wired removed),
    congrArg (Option.map Client.outBuf) stored, handled⟩

/-- A user's turn notes what it puts into the out buffers, whatever it does. -/
theorem updateUser_noted {s : Slot} (wired : app.Wired) (ran : updateUser env s app = .ok app') :
    ∃ events, Charges env events app app' := by
  obtain ⟨p, user, _, _, path | confirms⟩ := updateUser_effects ran
  · obtain ⟨events, charged, _⟩ := path.charges wired
    exact ⟨events, charged⟩
  · obtain ⟨taken, _, charged, _⟩ := confirms.charges wired
    exact ⟨_, charged⟩

/-- So does a client's turn. -/
theorem updateClient_noted {s : Slot} (wired : app.Wired) (ran : updateClient env s app = .ok app') :
    ∃ events, Charges env events app app' := by
  obtain ⟨client, _, path⟩ := updateClient_effects ran
  obtain ⟨events, charged, _⟩ := path.charges wired
  exact ⟨events, charged⟩

end Operations

/-! ## The network's operations -/

section Network
variable {env : Env} {app app' : App}

/-- Connections end, and the others keep their output. -/
structure Sweeps (app app' : App) : Prop where
  wired : app'.Wired
  kept : ∀ h out, app'.outOf h = some out → app.outOf h = some out
  capacity : app'.clients.keyTable.length = app.clients.keyTable.length
  trace : ∃ gone : List Handle, app'.trace = app.trace ++ gone.map .closed ∧
    ∀ h, (app'.outOf h).isSome ↔ (app.outOf h).isSome ∧ h ∉ gone

theorem Sweeps.refl (wired : app.Wired) : Sweeps app app :=
  ⟨wired, fun _ _ => id, rfl, [], (List.append_nil _).symm, by simp⟩

theorem Sweeps.trans {app'' : App} (first : Sweeps app app') (second : Sweeps app' app'') :
    Sweeps app app'' := by
  obtain ⟨before, noted, left⟩ := first.trace
  obtain ⟨after, more, left'⟩ := second.trace
  refine ⟨second.wired, fun h out held => first.kept h out (second.kept h out held),
    second.capacity.trans first.capacity, before ++ after, ?_, fun h => ?_⟩
  · rw [more, noted, List.append_assoc, List.map_append]
  · rw [left', left, List.mem_append, not_or, and_assoc]

theorem Pours.sweeps (poured : Pours (fun _ => []) [] app app') : Sweeps app app' := by
  refine ⟨poured.wired, fun h out held => ?_, congrArg List.length poured.layout, [], poured.trace,
    fun h => ?_⟩
  · rw [poured.grown] at held
    simpa using held
  · simp [poured.grown]

theorem disconnectClient_sweeps (wired : app.Wired) {s : Slot} (ran : disconnectClient s app = .ok app') :
    Sweeps app app' := by
  obtain ⟨client, loaded, ran⟩ := bind_eq_ok.mp ran
  obtain ⟨clients, removed, same⟩ := bind_eq_ok.mp ran
  cases same
  obtain ⟨sound, found, capacity⟩ := Map.remove_eq_ok handleEq_exact wired.clients removed
  have clientOf : ∀ h, ((app.note (.closed client.handle)).setClients clients).clientOf h =
      Function.update app.clientOf client.handle none h := fun h => congrFun found h
  refine ⟨⟨sound, fun h other known => ?_⟩, fun h out held => ?_, capacity, [client.handle], rfl,
    fun h => ?_⟩
  · rw [clientOf, Function.update_apply] at known
    split at known
    · cases known
    · exact wired.keyed h other known
  · rw [App.outOf, clientOf, Function.update_apply] at held
    split at held
    · cases held
    · exact held
  · rw [App.outOf, App.outOf, clientOf, Function.update_apply]
    by_cases gone : h = client.handle <;> simp [gone]

theorem sweep_sweeps (wired : app.Wired) {polled : List Handle} (ran : sweep env app = .ok (polled, app')) :
    Sweeps app app' := by
  refine Map.foreach_preserves (fun state => Sweeps app state.2) ?_ (Sweeps.refl wired) ran
  rintro i j s ⟨_, middle⟩ ⟨_, after⟩ so_far turned stepped
  obtain ⟨rfl, k, here⟩ := Map.turn_body so_far.wired.clients turned
  obtain ⟨client, loaded, stepped⟩ := bind_eq_ok.mp stepped
  apply so_far.trans
  cases state : client.state with
  | toBeRemoved =>
    simp only [state] at stepped
    obtain ⟨_, disconnected, same⟩ := bind_eq_ok.mp stepped
    cases same
    exact disconnectClient_sweeps so_far.wired disconnected
  | new =>
    simp only [state] at stepped
    obtain ⟨_, set, same⟩ := bind_eq_ok.mp stepped
    cases same
    exact (setClient_pours_nothing so_far.wired here loaded set rfl rfl).sweeps
  | online =>
    simp only [state] at stepped
    cases stepped
    exact Sweeps.refl so_far.wired

/-- A connection is entered with nothing to send, or nothing changes. -/
theorem handleConn_enters (wired : app.Wired) (ran : handleConn env app = .ok app') :
    app' = app ∨ ∃ fd, env.accept = .socket fd true true ∧ app.clients.len ≠ clientsMax ∧ app'.Wired ∧
      app'.clientOf = Function.update app.clientOf fd (some ⟨fd, .new, [], []⟩) ∧
      (app'.clients.keyTable.length = app.clients.keyTable.length ∨
        app'.clients.keyTable.length = app.clients.keyTable.length * 2) ∧
      app'.trace = app.trace ++ [.accepted fd] := by
  unfold handleConn at ran
  cases accepted : env.accept with
  | failed =>
    rw [accepted] at ran
    cases ran
    exact .inl rfl
  | socket fd nonblocking ntop =>
    simp only [accepted] at ran
    split at ran
    · cases ran
      exact .inl rfl
    split at ran
    · cases ran
      exact .inl rfl
    split at ran
    · cases ran
      exact .inl rfl
    · rename_i nonblocks room pton
      obtain ⟨clients, set, same⟩ := bind_eq_ok.mp ran
      cases same
      obtain ⟨sound, found, capacity⟩ := Map.set_eq_ok handleEq_exact wired.clients set
      refine .inr ⟨fd, ?_, room, ⟨sound, fun h client known => ?_⟩, found, capacity, rfl⟩
      · simp only [Bool.not_eq_true, Bool.not_eq_false'] at nonblocks pton
        rw [nonblocks, pton]
      · change clients.find handleHash handleEq h = some client at known
        rw [found, Function.update_apply] at known
        split at known
        · rename_i same
          cases known
          exact same.symm
        · exact wired.keyed h client known

/-- Receiving queues nothing. -/
theorem receiveOne_charges (wired : app.Wired) {fd : Handle} (ran : receiveOne env fd app = .ok app') :
    ∃ events, Charges env events app app' ∧ ∀ e ∈ events, e = .hungUp fd ∨ ∃ data, e = .received fd data := by
  unfold receiveOne at ran
  split at ran
  · obtain ⟨s, found, ran⟩ := bind_eq_ok.mp ran
    obtain ⟨client, loaded, ran⟩ := bind_eq_ok.mp ran
    obtain ⟨here, _⟩ := Map.get_eq_ok handleEq_exact wired.clients found
    have hangs : (app.note (.hungUp fd)).setClient s { client with state := .toBeRemoved } = .ok app' →
        ∃ events, Charges env events app app' ∧
          ∀ e ∈ events, e = .hungUp fd ∨ ∃ data, e = .received fd data := by
      intro set
      have noted := note_pours wired (.hungUp fd)
      have kept := setClient_pours_nothing noted.wired here loaded set rfl rfl
      exact ⟨_, (noted.trans kept).same (by simp [render]) rfl, by simp⟩
    cases arrived : env.recv fd with
    | again =>
      simp only [arrived] at ran
      cases ran
      exact ⟨[], Pours.refl wired, by simp⟩
    | error =>
      simp only [arrived] at ran
      exact hangs ran
    | data data =>
      simp only [arrived] at ran
      split at ran
      · exact hangs ran
      · have noted := note_pours wired (.received fd data)
        have kept := setClient_pours_nothing noted.wired here loaded ran rfl rfl
        exact ⟨_, (noted.trans kept).same (by simp [render]) rfl, by simp⟩
  · cases ran
    exact ⟨[], Pours.refl wired, by simp⟩

/-! ## Users are none of the network's business -/

theorem disconnectClient_sameUsers {s : Slot} (ran : disconnectClient s app = .ok app') :
    SameUsers app app' := by
  obtain ⟨client, _, ran⟩ := bind_eq_ok.mp ran
  obtain ⟨clients, _, same⟩ := bind_eq_ok.mp ran
  cases same
  exact ⟨rfl, rfl⟩

theorem sweep_sameUsers {polled : List Handle} (ran : sweep env app = .ok (polled, app')) :
    SameUsers app app' := by
  refine Map.foreach_preserves (fun state => SameUsers app state.2) ?_ ⟨rfl, rfl⟩ ran
  rintro i j s ⟨_, middle⟩ ⟨_, after⟩ so_far _ stepped
  obtain ⟨client, _, stepped⟩ := bind_eq_ok.mp stepped
  apply so_far.trans
  cases state : client.state with
  | toBeRemoved =>
    simp only [state] at stepped
    obtain ⟨_, disconnected, same⟩ := bind_eq_ok.mp stepped
    cases same
    exact disconnectClient_sameUsers disconnected
  | new =>
    simp only [state] at stepped
    obtain ⟨_, set, same⟩ := bind_eq_ok.mp stepped
    cases same
    exact setClient_sameUsers set
  | online =>
    simp only [state] at stepped
    cases stepped
    exact ⟨rfl, rfl⟩

theorem handleConn_sameUsers (ran : handleConn env app = .ok app') : SameUsers app app' := by
  unfold handleConn at ran
  split at ran
  · cases ran
    exact ⟨rfl, rfl⟩
  · split at ran
    · cases ran
      exact ⟨rfl, rfl⟩
    split at ran
    · cases ran
      exact ⟨rfl, rfl⟩
    split at ran
    · cases ran
      exact ⟨rfl, rfl⟩
    · obtain ⟨clients, _, same⟩ := bind_eq_ok.mp ran
      cases same
      exact ⟨rfl, rfl⟩

theorem receiveOne_sameUsers {fd : Handle} (ran : receiveOne env fd app = .ok app') :
    SameUsers app app' := by
  unfold receiveOne at ran
  split at ran
  · obtain ⟨s, _, ran⟩ := bind_eq_ok.mp ran
    obtain ⟨client, _, ran⟩ := bind_eq_ok.mp ran
    have noted : ∀ event, SameUsers app (app.note event) := fun _ => ⟨rfl, rfl⟩
    split at ran
    · cases ran
      exact ⟨rfl, rfl⟩
    · exact (noted _).trans (setClient_sameUsers ran)
    · split at ran <;> exact (noted _).trans (setClient_sameUsers ran)
  · cases ran
    exact ⟨rfl, rfl⟩

theorem flush_sameUsers (ran : flush env app = .ok app') : SameUsers app app' := by
  refine Map.foreach_preserves (SameUsers app) ?_ ⟨rfl, rfl⟩ ran
  intro i j s middle after so_far _ stepped
  obtain ⟨client, _, stepped⟩ := bind_eq_ok.mp stepped
  apply so_far.trans
  split at stepped
  · split at stepped
    · cases stepped
      exact ⟨rfl, rfl⟩
    · obtain ⟨_, _, stepped⟩ := bind_eq_ok.mp stepped
      exact setClient_sameUsers stepped
  · cases stepped
    exact ⟨rfl, rfl⟩

end Network
end AuroraComms
