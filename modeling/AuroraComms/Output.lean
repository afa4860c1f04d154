import AuroraComms.Net
import AuroraComms.Meta.MapExact

/-! Sound states, and what printing does to them. Every function that only
prints is described by one relation: the out buffers grow by the rendering of
the events noted, and nothing else changes. -/
namespace AuroraComms
open Meta Library.Run

theorem handleEq_exact (a b : Handle) : handleEq a b = decide (a = b) := rfl

theorem stringEq_exact (a b : Bytes) : stringEq a b = decide (a = b) := rfl

namespace App

/-- The live user object at a pointer. -/
def userAt (app : App) (p : UserPtr) : Option User := app.heap[p]?.join

def clientOf (app : App) (handle : Handle) : Option Client :=
  app.clients.find handleHash handleEq handle

def ptrOf (app : App) (handle : Handle) : Option UserPtr :=
  app.fromHandle.find handleHash handleEq handle

def named (app : App) (username : Bytes) : Option UserPtr :=
  app.fromUsername.find stringHash stringEq username

/-- The tables are laid out correctly, entries are stored under their own
handles, and every user in the table of handles is live. -/
structure Laid (app : App) : Prop where
  clients : app.clients.Sound handleHash handleEq
  handles : app.fromHandle.Sound handleHash handleEq
  names : app.fromUsername.Sound stringHash stringEq
  keyed : ∀ h client, app.clientOf h = some client → client.handle = h
  linked : ∀ h p, app.ptrOf h = some p → ∃ user, app.userAt p = some user ∧ user.handle = h

/-- Besides, every registered name leads to a user in the table of handles. -/
structure Sound (app : App) : Prop extends Laid app where
  registered : ∀ name p, app.named name = some p →
    ∃ user, app.userAt p = some user ∧ app.ptrOf user.handle = some p

variable {app : App} {p : UserPtr} {user : User}

theorem user_of_userAt (live : app.userAt p = some user) : app.user p = .ok user := by
  obtain ⟨cell, stored, rfl⟩ := Option.bind_eq_some_iff.mp live
  rw [App.user, stored]

theorem setUser_of_userAt (live : app.userAt p = some user) (new : User) :
    app.setUser p new = .ok { app with heap := app.heap.set p (some new) } := by
  rw [setUser, user_of_userAt live]
  rfl

theorem freeUser_of_userAt (live : app.userAt p = some user) :
    app.freeUser p = .ok { app with heap := app.heap.set p none } := by
  obtain ⟨cell, stored, rfl⟩ := Option.bind_eq_some_iff.mp live
  rw [freeUser, stored]

theorem userAt_set (live : app.userAt p = some user) (new : Option User) (q : UserPtr) :
    (app.heap.set p new)[q]?.join = if p = q then new else app.userAt q := by
  obtain ⟨cell, stored, _⟩ := Option.bind_eq_some_iff.mp live
  have inside := (List.getElem?_eq_some_iff.mp stored).1
  rw [List.getElem?_set]
  by_cases same : p = q
  · subst same
    simp [inside]
  · simp [same, userAt]

end App

/-! ## Output only -/

/-- The bytes an event puts into the out buffer of a client. -/
def render (env : Env) (handle : Handle) : Event → Bytes
  | .printed other action msg =>
    if other = handle then
      (if action = .interrupt then crlf else []) ++ formatted env msg.text ++ crlf
    else []
  | .sent other msg => if other = handle then formatted env msg.text else []
  | .prompted other => if other = handle then bytes ">" else []
  | _ => []

def Client.push (client : Client) (data : Bytes) : Client :=
  { client with outBuf := client.outBuf ++ data }

/-- From one state to another by output alone. -/
structure Outputs (out : Handle → Bytes) (events : List Event) (app app' : App) : Prop where
  laid : app'.Laid
  clientOf : ∀ h, app'.clientOf h = (app.clientOf h).map (·.push (out h))
  keyTable : app'.clients.keyTable = app.clients.keyTable
  alen : app'.clients.bkts.alen = app.clients.bkts.alen
  fromHandle : app'.fromHandle = app.fromHandle
  fromUsername : app'.fromUsername = app.fromUsername
  heap : app'.heap = app.heap
  appStartTime : app'.appStartTime = app.appStartTime
  listener : app'.server.listener = app.server.listener
  trace : app'.trace = app.trace ++ events

/-- Output of exactly what the events say. -/
abbrev Emits (env : Env) (events : List Event) (app app' : App) : Prop :=
  Outputs (fun h => events.flatMap (render env h)) events app app'

section Outputs
variable {env : Env} {app app' app'' : App} {out out' : Handle → Bytes} {events events' : List Event}

theorem Outputs.refl (laid : app.Laid) : Outputs (fun _ => []) [] app app where
  laid := laid
  clientOf h := by cases app.clientOf h <;> simp [Client.push]
  keyTable := rfl
  alen := rfl
  fromHandle := rfl
  fromUsername := rfl
  heap := rfl
  appStartTime := rfl
  listener := rfl
  trace := (List.append_nil _).symm

theorem Outputs.trans (first : Outputs out events app app') (second : Outputs out' events' app' app'') :
    Outputs (fun h => out h ++ out' h) (events ++ events') app app'' where
  laid := second.laid
  clientOf h := by
    rw [second.clientOf, first.clientOf]
    cases app.clientOf h <;> simp [Client.push]
  keyTable := second.keyTable.trans first.keyTable
  alen := second.alen.trans first.alen
  fromHandle := second.fromHandle.trans first.fromHandle
  fromUsername := second.fromUsername.trans first.fromUsername
  heap := second.heap.trans first.heap
  appStartTime := second.appStartTime.trans first.appStartTime
  listener := second.listener.trans first.listener
  trace := by rw [second.trace, first.trace, List.append_assoc]

theorem Outputs.same {out₂ : Handle → Bytes} {events₂ : List Event}
    (moved : Outputs out events app app') (bytes : ∀ h, out h = out₂ h) (noted : events = events₂) :
    Outputs out₂ events₂ app app' := by
  have rendered : out = out₂ := funext bytes
  rw [← rendered, ← noted]
  exact moved

theorem Outputs.userAt (moved : Outputs out events app app') (p : UserPtr) :
    app'.userAt p = app.userAt p := by
  rw [App.userAt, App.userAt, moved.heap]

theorem Outputs.ptrOf (moved : Outputs out events app app') (h : Handle) :
    app'.ptrOf h = app.ptrOf h := by
  rw [App.ptrOf, App.ptrOf, moved.fromHandle]

theorem Outputs.named (moved : Outputs out events app app') (name : Bytes) :
    app'.named name = app.named name := by
  rw [App.named, App.named, moved.fromUsername]

theorem Outputs.isSome (moved : Outputs out events app app') (h : Handle) :
    (app'.clientOf h).isSome = (app.clientOf h).isSome := by
  rw [moved.clientOf, Option.isSome_map]

theorem Outputs.sound (moved : Outputs out events app app') (sound : app.Sound) : app'.Sound where
  toLaid := moved.laid
  registered name p held := by
    rw [moved.named] at held
    obtain ⟨user, live, back⟩ := sound.registered name p held
    exact ⟨user, by rw [moved.userAt]; exact live, by rw [moved.ptrOf]; exact back⟩

theorem Emits.trans (first : Emits env events app app') (second : Emits env events' app' app'') :
    Emits env (events ++ events') app app'' :=
  (Outputs.trans first second).same (fun h => by rw [List.flatMap_append]) rfl

/-- Noting an event that renders to nothing by itself. -/
theorem note_outputs (laid : app.Laid) (event : Event) :
    Outputs (fun _ => []) [event] app (app.note event) where
  laid := { laid with }
  clientOf h := by
    show app.clientOf h = _
    cases app.clientOf h <;> simp [Client.push]
  keyTable := rfl
  alen := rfl
  fromHandle := rfl
  fromUsername := rfl
  heap := rfl
  appStartTime := rfl
  listener := rfl
  trace := rfl

end Outputs

/-! ## The print functions -/

section Printing
variable (env : Env) {app : App} {p : UserPtr} {user : User} {handle : Handle}

/-- Assigning to a client through its slot replaces what the table maps its
handle to, and no layout. -/
theorem setClient_keyAt (laid : app.Laid) {s : Slot} (here : app.clients.keyAt s = some handle)
    (client : Client) (keyed : client.handle = handle) :
    ∃ app', app.setClient s client = .ok app' ∧ app'.Laid ∧
      app'.clientOf = Function.update app.clientOf handle (some client) ∧
      app'.clients.keyTable = app.clients.keyTable ∧
      app'.clients.bkts.alen = app.clients.bkts.alen ∧
      app' = app.setClients app'.clients := by
  obtain ⟨clients, ran, stored, found, layout, alen⟩ :=
    Map.setVal_keyAt handleEq_exact laid.clients here client
  refine ⟨app.setClients clients, by rw [App.setClient, ran]; rfl, ?_, found, layout, alen, rfl⟩
  refine ⟨stored, laid.handles, laid.names, ?_, laid.linked⟩
  intro h other stored
  rw [App.clientOf, show (app.setClients clients).clients = clients from rfl, found,
    Function.update_apply] at stored
  split at stored
  · rename_i same
    cases stored
    rw [keyed, same]
  · exact laid.keyed h other stored

/-- A connected client, where the lookups of the network find it. -/
theorem client_found (laid : app.Laid) {client : Client} (connected : app.clientOf handle = some client) :
    ∃ s, app.clients.get handleHash handleEq handle = .ok s ∧ app.clients.keyAt s = some handle ∧
      app.client s = .ok client ∧ client.handle = handle := by
  obtain ⟨s, ran, _, here⟩ := Map.get_found handleEq_exact laid.clients connected
  obtain ⟨_, found, _, loaded⟩ := Map.entry_keyAt handleEq_exact laid.clients here
  rw [App.clientOf, found] at connected
  cases connected
  exact ⟨s, ran, here, loaded, laid.keyed _ _ found⟩

theorem serverSend_outputs (laid : app.Laid) (connected : (app.clientOf handle).isSome)
    (data : Bytes) :
    ∃ app', serverSend handle data app = .ok app' ∧
      Outputs (fun h => if handle = h then data else []) [] app app' := by
  obtain ⟨client, stored⟩ := Option.isSome_iff_exists.mp connected
  obtain ⟨s, found, here, loaded, keyed⟩ := client_found laid stored
  obtain ⟨app', ran, laid', updated, keyTable, alen, same⟩ :=
    setClient_keyAt laid here (client.push data) keyed
  refine ⟨app', by rw [serverSend, found, ok_bind, loaded]; exact ran, ?_⟩
  refine ⟨laid', ?_, keyTable, alen, ?_, ?_, ?_, ?_, ?_, ?_⟩
  · intro h
    rw [updated, Function.update_apply]
    by_cases here : h = handle
    · simp [here, stored]
    · cases app.clientOf h <;> simp [here, Ne.symm here, Client.push]
  all_goals rw [same]
  all_goals first | rfl | exact (List.append_nil _).symm

theorem sendFmt_emits (laid : app.Laid) (live : app.userAt p = some user)
    (connected : (app.clientOf user.handle).isSome) (msg : Msg) :
    ∃ app', sendFmt env p msg app = .ok app' ∧ Emits env [.sent user.handle msg] app app' := by
  have noted := note_outputs laid (.sent user.handle msg)
  obtain ⟨app', ran, sent⟩ := serverSend_outputs noted.laid (by rw [noted.isSome]; exact connected)
    (formatted env msg.text)
  refine ⟨app', by rw [sendFmt, App.user_of_userAt live]; exact ran, (noted.trans sent).same ?_ rfl⟩
  intro h
  simp [render]

theorem prompt_emits (laid : app.Laid) (live : app.userAt p = some user)
    (connected : (app.clientOf user.handle).isSome) :
    ∃ app', prompt p app = .ok app' ∧ Emits env [.prompted user.handle] app app' := by
  have noted := note_outputs laid (.prompted user.handle)
  obtain ⟨app', ran, sent⟩ := serverSend_outputs noted.laid (by rw [noted.isSome]; exact connected)
    (bytes ">")
  refine ⟨app', by rw [prompt, App.user_of_userAt live]; exact ran, (noted.trans sent).same ?_ rfl⟩
  intro h
  simp [render]

/-- The events of one framed message. -/
def frame (handle : Handle) (action : Print) (msg : Msg) : List Event :=
  [.printed handle action msg, .prompted handle]

theorem leadingNl_outputs (laid : app.Laid) (connected : (app.clientOf handle).isSome)
    (action : Print) :
    ∃ app', leadingNl handle action app = .ok app' ∧
      Outputs (fun h => if handle = h then (if action = .interrupt then crlf else []) else []) []
        app app' := by
  cases action with
  | afterEnter => exact ⟨app, rfl, (Outputs.refl laid).same (by simp) rfl⟩
  | interrupt =>
    obtain ⟨app', ran, moved⟩ := serverSend_outputs laid connected crlf
    exact ⟨app', ran, moved.same (by simp) rfl⟩

theorem printFmt_emits (laid : app.Laid) (live : app.userAt p = some user)
    (connected : (app.clientOf user.handle).isSome) (action : Print) (msg : Msg) :
    ∃ app', printFmt env p action msg app = .ok app' ∧
      Emits env (frame user.handle action msg) app app' := by
  obtain ⟨first, opened, lead⟩ := leadingNl_outputs laid connected action
  have noted := lead.trans (note_outputs lead.laid (.printed user.handle action msg))
  obtain ⟨second, sent, text⟩ := serverSend_outputs noted.laid
    (by rw [noted.isSome]; exact connected) (formatted env msg.text)
  have body := noted.trans text
  obtain ⟨third, ended, close⟩ := serverSend_outputs body.laid
    (by rw [body.isSome]; exact connected) crlf
  have framed := body.trans close
  obtain ⟨last, prompted, tail⟩ := prompt_emits env framed.laid
    (by rw [framed.userAt]; exact live) (by rw [framed.isSome]; exact connected)
  refine ⟨last, ?_, (framed.trans tail).same ?_ rfl⟩
  · simp only [printFmt, App.user_of_userAt live, ok_bind, opened, sent, ended, prompted]
  · intro h
    by_cases here : user.handle = h
    · simp [frame, render, here]
    · simp [frame, render, here]

end Printing
end AuroraComms
