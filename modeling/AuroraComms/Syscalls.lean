import AuroraComms.Library.Resource
import AuroraComms.Goodbye

/-! The system calls of the main loop on sockets. A log runs beside the program
and notes them in the order they are made, those for connections that are
refused among them. -/
namespace AuroraComms
open Meta Library.Run Library.Chain Library.Protocol Library.Resource

inductive Syscall where
  /-- A call that waits for an event, or one that returns at once. -/
  | poll (fds : List Handle) (waits : Bool)
  /-- The descriptor returned, or nothing for `-1`. -/
  | accept (fd : Option Handle)
  /-- The calls of `ac_socket_set_blocking`. -/
  | fcntl (fd : Handle)
  | recv (fd : Handle)
  | send (fd : Handle) (data : Bytes)
  | close (fd : Handle)
  deriving DecidableEq, Repr

/-! ## What is called -/

/-- The text of `ac_handle_conn` for whom there is no room. -/
def refusal : Bytes := crlf ++ bytes "Connection refused. Server is full." ++ crlf

/-- The calls of `ac_handle_conn`. -/
def handleConnCalls (env : Env) (app : App) : List Syscall :=
  match env.accept with
  | .failed => [.accept none]
  | .socket fd nonblocking ntop =>
    [.accept (some fd), .fcntl fd] ++
      if !nonblocking then [.close fd]
      else if app.clients.len = clientsMax then [.send fd refusal, .close fd]
      else if !ntop then [.close fd]
      else []

/-- The calls of the receive loop for one socket. -/
def receiveCalls (env : Env) (fd : Handle) : List Syscall := if env.pollin fd then [.recv fd] else []

/-- `sendTurn`, with its call. -/
def sendTurnCalling (env : Env) (s : Slot) (state : List Syscall × App) : Except Fault (List Syscall × App) := do
  let (calls, app) := state
  let client ← app.client s
  let calling := if client.outBuf.length > 0 then [.send client.handle client.outBuf] else []
  return (calls ++ calling, ← sendTurn env s app)

/-- `flush`, with its calls. -/
def flushCalling (env : Env) (app : App) : Except Fault (List Syscall × App) :=
  Map.foreach env.quiet (fun state => state.2.clients) (sendTurnCalling env) ([], app)

/-- The call an event is noted with, in `ac_disconnect_client` and in
`ac_server_remove_client`. -/
def Event.call : Event → Option Syscall
  | .closed h => some (.close h)
  | .goodbye h => some (.send h goodbyeText)
  | _ => none

/-- The calls of an operation. -/
def calls (env : Env) (before after : Sys) : Except Fault (List Syscall) :=
  let noted := (after.app.trace.drop before.app.trace.length).filterMap Event.call
  match before.point, after.point with
  | .sweep, .wait polled => .ok (noted ++ [.poll polled (after.app.clients.popBkts == 0)])
  | .wait _, _ => .ok (if env.poll = .ready true then handleConnCalls env before.app else [])
  | .receive (fd :: _), _ => .ok (receiveCalls env fd)
  | .flush, _ => (flushCalling env before.app).map Prod.fst
  | _, _ => .ok noted

structure Log where
  sys : Sys
  calls : List Syscall

namespace Log

def step (env : Env) (log : Log) : Except Fault Log := do
  let sys ← AuroraComms.step env log.sys
  return ⟨sys, log.calls ++ (← AuroraComms.calls env log.sys sys)⟩

/-- The log as the program enters its main loop. -/
def start (listener : Handle) (now : Int) : Log := ⟨AuroraComms.start listener now, []⟩

end Log

/-! ## The descriptors -/

/-- What a call does with descriptors. -/
def Syscall.acts : Syscall → List (Act Handle)
  | .poll fds _ => fds.map .use
  | .accept none => []
  | .accept (some fd) => [.acquire fd]
  | .fcntl fd | .recv fd | .send fd _ => [.use fd]
  | .close fd => [.release fd]

/-- The descriptors that are open after a call, if it may be made. A call of `poll`
may wait only if nothing but the listener is open, and then it has to. -/
def Syscall.next (listener : Handle) (opened : List Handle) (call : Syscall) : Option (List Handle) :=
  match call with
  | .poll fds waits =>
    if waits = decide (opened = [listener]) then (fds.map Act.use).foldlM Act.check opened else none
  | call => call.acts.foldlM Act.check opened

/-- `accept` returns a descriptor that is not open. -/
def AcceptsFresh (listener : Handle) (env : Env) (log : Log) : Prop :=
  ∀ polled fd nonblocking ntop opened, log.sys.point = .wait polled →
    env.accept = .socket fd nonblocking ntop →
    log.calls.foldlM (Syscall.next listener) [listener] = some opened → fd ∉ opened

/-! ## The listener -/

section Listener
variable {env : Env} {self : Handle} {app app' : App} {p : UserPtr} {msg : Msg}

/-- The listener is another socket than the clients', and stays the same. -/
def SameListener (app app' : App) : Prop := app'.server.listener = app.server.listener

theorem setClient_sameListener {s : Slot} {client : Client} (ran : app.setClient s client = .ok app') :
    SameListener app app' := by
  obtain ⟨clients, _, same⟩ := bind_eq_ok.mp ran
  cases same
  rfl

theorem serverSend_sameListener {h : Handle} {data : Bytes} (ran : serverSend h data app = .ok app') :
    SameListener app app' := by
  obtain ⟨s, _, ran⟩ := bind_eq_ok.mp ran
  obtain ⟨client, _, ran⟩ := bind_eq_ok.mp ran
  exact setClient_sameListener ran

theorem prompt_sameListener (ran : prompt p app = .ok app') : SameListener app app' := by
  obtain ⟨user, _, ran⟩ := bind_eq_ok.mp ran
  have sent : SameListener (app.note (.prompted user.handle)) app' := serverSend_sameListener ran
  exact sent

theorem printFmt_sameListener {action : Print} (ran : printFmt env p action msg app = .ok app') :
    SameListener app app' := by
  obtain ⟨user, _, ran⟩ := bind_eq_ok.mp ran
  obtain ⟨opened, lead, ran⟩ := bind_eq_ok.mp ran
  obtain ⟨sent, text, ran⟩ := bind_eq_ok.mp ran
  obtain ⟨ended, close, ran⟩ := bind_eq_ok.mp ran
  have first : SameListener app opened := by
    cases action with
    | interrupt => exact serverSend_sameListener lead
    | afterEnter =>
      cases lead
      rfl
  have second : SameListener (opened.note (.printed user.handle action msg)) sent :=
    serverSend_sameListener text
  exact (prompt_sameListener ran).trans ((serverSend_sameListener close).trans (second.trans first))

theorem takeLine_sameListener {s : Slot} {line : Option Bytes} (ran : takeLine s app = .ok (line, app')) :
    SameListener app app' := by
  obtain ⟨client, _, ran⟩ := bind_eq_ok.mp ran
  obtain ⟨result, _, ran⟩ := bind_eq_ok.mp ran
  cases result with
  | none =>
    cases ran
    rfl
  | some taken =>
    obtain ⟨after, set, same⟩ := bind_eq_ok.mp ran
    cases same
    have stored : SameListener (app.note _) app' := setClient_sameListener set
    exact stored

theorem Effect.sameListener (effect : Effect env self app app') : SameListener app app' := by
  cases effect with
  | answer _ _ ran | interrupt _ _ ran => exact printFmt_sameListener ran
  | send _ _ ran =>
    obtain ⟨user, _, ran⟩ := bind_eq_ok.mp ran
    have sent : SameListener (app.note (.sent user.handle _)) app' := serverSend_sameListener ran
    exact sent
  | prompt _ _ ran => exact prompt_sameListener ran
  | takeLine _ ran => exact takeLine_sameListener ran
  | free ran =>
    cases freeUser_heap ran
    rfl
  | _ => rfl

theorem Effects.sameListener (path : Effects env self app app') : SameListener app app' := by
  induction path with
  | refl => rfl
  | tail _ effect ih => exact effect.sameListener.trans ih

theorem Confirms.sameListener (confirms : Confirms p self app app') : SameListener app app' := by
  obtain ⟨user, s, line, middle, _, _, _, took, _, removed⟩ := confirms
  obtain ⟨_, _, removed⟩ := bind_eq_ok.mp removed
  obtain ⟨client, _, set⟩ := bind_eq_ok.mp removed
  have stored : SameListener (middle.note (.goodbye self)) app' := setClient_sameListener set
  have taken : SameListener app middle := takeLine_sameListener took
  exact stored.trans taken

theorem receiveOne_sameListener {fd : Handle} (ran : receiveOne env fd app = .ok app') :
    SameListener app app' := by
  unfold receiveOne at ran
  split at ran
  · obtain ⟨s, _, ran⟩ := bind_eq_ok.mp ran
    obtain ⟨client, _, ran⟩ := bind_eq_ok.mp ran
    have stored : ∀ event new, (app.note event).setClient s new = .ok app' → SameListener app app' := by
      intro event new set
      have kept : SameListener (app.note event) app' := setClient_sameListener set
      exact kept
    cases arrived : env.recv fd with
    | again =>
      simp only [arrived] at ran
      cases ran
      rfl
    | error =>
      simp only [arrived] at ran
      exact stored _ _ ran
    | data bytes =>
      simp only [arrived] at ran
      split at ran
      · exact stored _ _ ran
      · exact stored _ _ ran
  · cases ran
    rfl

end Listener

/-! ## One operation -/

section Operations
variable {env : Env} {listener : Handle} {app app' : App} {opened opened' : List Handle}

/-- The listener and the clients' sockets are open, and nothing else. -/
structure Opens (listener : Handle) (app : App) (opened : List Handle) : Prop where
  once : opened.Nodup
  all : ∀ fd, fd ∈ opened ↔ fd = listener ∨ (app.clientOf fd).isSome

/-- What the sweep closes, and what it hands to `poll`. -/
structure ClosesOnce (app app' : App) (polled gone : List Handle) : Prop where
  wired : app'.Wired
  listener : SameListener app app'
  trace : app'.trace = app.trace ++ gone.map .closed
  once : gone.Nodup
  connected : ∀ h ∈ gone, (app.clientOf h).isSome
  left : ∀ h, (app'.clientOf h).isSome ↔ (app.clientOf h).isSome ∧ h ∉ gone
  polled : ∃ stays, polled = app.server.listener :: stays ∧
    ∀ h ∈ stays, ∃ client, app'.clientOf h = some client ∧ client.state = .online

theorem sweep_closes (wired : app.Wired) {polled : List Handle} (ran : sweep env app = .ok (polled, app')) :
    ∃ gone, ClosesOnce app app' polled gone := by
  have begun : ∃ gone, ClosesOnce app app [app.server.listener] gone :=
    ⟨[], wired, rfl, (List.append_nil _).symm, List.nodup_nil, by simp, by simp, [], rfl, by simp⟩
  refine Map.foreach_preserves (fun state => ∃ gone, ClosesOnce app state.2 state.1 gone) ?_ begun ran
  rintro i j s ⟨polled, middle⟩ ⟨polled', after⟩ ⟨gone, so_far⟩ turned stepped
  change ClosesOnce app middle polled gone at so_far
  obtain ⟨rfl, k, here⟩ := Map.turn_body so_far.wired.clients turned
  obtain ⟨client, loaded, stepped⟩ := bind_eq_ok.mp stepped
  have stored := so_far.wired.client_at here loaded
  have own := so_far.wired.keyed k client stored
  obtain ⟨stays, list, online⟩ := so_far.polled
  cases state : client.state with
  | toBeRemoved =>
    simp only [state] at stepped
    obtain ⟨_, disconnected, same⟩ := bind_eq_ok.mp stepped
    cases same
    obtain ⟨other, reloaded, removing⟩ := bind_eq_ok.mp disconnected
    obtain rfl : client = other := Except.ok.inj (loaded.symm.trans reloaded)
    obtain ⟨clients, removed, same⟩ := bind_eq_ok.mp removing
    cases same
    obtain ⟨_, found, _⟩ := Map.remove_eq_ok handleEq_exact so_far.wired.clients removed
    rw [own] at found
    have present := (so_far.left k).mp (by rw [stored]; rfl)
    have clientOf : ∀ h, ((middle.note (.closed client.handle)).setClients clients).clientOf h =
        Function.update middle.clientOf k none h := fun h => congrFun found h
    refine ⟨gone ++ [k], (disconnectClient_sweeps so_far.wired disconnected).wired, so_far.listener, ?_, ?_, ?_,
      fun h => ?_, stays, list, fun h polled => ?_⟩
    · show middle.trace ++ [Event.closed client.handle] = _
      rw [so_far.trace, own, List.map_append, List.append_assoc]
      rfl
    · exact List.nodup_append.mpr ⟨so_far.once, List.nodup_singleton k, by
        rintro a old b last rfl
        rw [List.mem_singleton.mp last] at old
        exact present.2 old⟩
    · intro h member
      rcases List.mem_append.mp member with old | last
      · exact so_far.connected h old
      · rw [List.mem_singleton.mp last]
        exact present.1
    · rw [clientOf, Function.update_apply]
      by_cases mine : h = k
      · simp [mine]
      · simp [mine, so_far.left h]
    · obtain ⟨known, there, on⟩ := online h polled
      refine ⟨known, ?_, on⟩
      have apart : h ≠ k := by
        rintro rfl
        rw [stored] at there
        cases there
        exact nomatch state.symm.trans on
      rw [clientOf, Function.update_of_ne apart]
      exact there
  | new =>
    simp only [state] at stepped
    obtain ⟨_, set, same⟩ := bind_eq_ok.mp stepped
    cases same
    obtain ⟨wired', found, _, frame⟩ := setClient_wired so_far.wired here set own
    have traced : after.trace = middle.trace := by rw [frame]; rfl
    have longer : polled ++ [client.handle] = app.server.listener :: (stays ++ [k]) := by rw [list, own]; rfl
    refine ⟨gone, wired', (setClient_sameListener set).trans so_far.listener, traced.trans so_far.trace,
      so_far.once, so_far.connected, fun h => ?_, stays ++ [k], longer, fun h polled => ?_⟩
    · rw [← so_far.left h, found, Function.update_apply]
      by_cases mine : h = k
      · simp [mine, stored]
      · simp [mine]
    · rw [found, Function.update_apply]
      by_cases mine : h = k
      · simp [mine]
      · obtain old := (List.mem_append.mp polled).resolve_right fun last => mine (List.mem_singleton.mp last)
        simpa [mine] using online h old
  | online =>
    simp only [state] at stepped
    cases stepped
    have longer : polled ++ [client.handle] = app.server.listener :: (stays ++ [k]) := by rw [list, own]; rfl
    refine ⟨gone, so_far.wired, so_far.listener, so_far.trace, so_far.once, so_far.connected, so_far.left,
      stays ++ [k], longer, fun h polled => ?_⟩
    rcases List.mem_append.mp polled with old | last
    · exact online h old
    · exact ⟨client, by rw [List.mem_singleton.mp last]; exact stored, state⟩

/-- The table counts no bucket when it is empty. -/
theorem popBkts_eq_zero (wired : app.Wired) : app.clients.popBkts = 0 ↔ ∀ fd, app.clientOf fd = none := by
  have counted : app.clients.popBkts = populated app.clients.table := wired.clients.represents.counts.2
  have none_iff : ∀ fd, app.clientOf fd = none ↔ fd ∉ app.clients.keys := by
    intro fd
    rw [Map.mem_keys handleEq_exact wired.clients, Bool.not_eq_true, Option.isSome_eq_false_iff,
      Option.isNone_iff_eq_none]
    rfl
  have no_keys : (∀ fd, app.clientOf fd = none) ↔ app.clients.keys = [] := by
    simp only [none_iff, List.eq_nil_iff_forall_not_mem]
  rw [counted, no_keys, Map.keys_eq_flatten, List.map_eq_nil_iff, List.flatten_eq_nil_iff, populated,
    List.countP_eq_zero]
  simp

theorem Opens.alone (opens : Opens listener app opened) (apart : app.clientOf listener = none) :
    opened = [listener] ↔ ∀ fd, app.clientOf fd = none := by
  constructor
  · rintro rfl fd
    by_contra known
    have inside := (opens.all fd).mpr (.inr (Option.isSome_iff_ne_none.mpr known))
    rw [List.mem_singleton.mp inside] at known
    exact known apart
  · intro nobody
    refine List.perm_singleton.mp ((List.perm_ext_iff_of_nodup opens.once (List.nodup_singleton _)).mpr ?_)
    intro fd
    simp [opens.all, nobody]

theorem Opens.same (opens : Opens listener app opened)
    (present : ∀ fd, (app'.clientOf fd).isSome = (app.clientOf fd).isSome) : Opens listener app' opened :=
  ⟨opens.once, fun fd => by rw [present]; exact opens.all fd⟩

/-- A connection that is refused is closed at once, and one that is entered stays. -/
theorem handleConn_manages (wired : app.Wired) (opens : Opens listener app opened)
    (fresh : ∀ fd nonblocking ntop, env.accept = .socket fd nonblocking ntop → fd ∉ opened)
    (ran : handleConn env app = .ok app') :
    app'.Wired ∧ SameListener app app' ∧ (∀ fd, (app.clientOf fd).isSome → (app'.clientOf fd).isSome) ∧
      (app.clientOf listener = none → app'.clientOf listener = none) ∧
      ∃ opened', Manages opened ((handleConnCalls env app).flatMap Syscall.acts) opened' ∧
        Opens listener app' opened' := by
  unfold handleConn at ran
  unfold handleConnCalls
  cases accepting : env.accept with
  | failed =>
    rw [accepting] at ran
    cases ran
    exact ⟨wired, rfl, fun _ => id, id, opened, .done opened, opens⟩
  | socket fd nonblocking ntop =>
    have new := fresh fd nonblocking ntop accepting
    have used : Manages (fd :: opened) [.use fd] (fd :: opened) := use_held List.mem_cons_self
    simp only [accepting] at ran ⊢
    by_cases blocks : nonblocking = false
    · rw [if_pos (by simp [blocks])] at ran ⊢
      cases ran
      exact ⟨wired, rfl, fun _ => id, id, opened, borrows new used, opens⟩
    rw [if_neg (by simp [blocks])] at ran ⊢
    by_cases full : app.clients.len = clientsMax
    · rw [if_pos full] at ran ⊢
      cases ran
      exact ⟨wired, rfl, fun _ => id, id, opened, borrows new (used.append used), opens⟩
    rw [if_neg full] at ran ⊢
    by_cases unnamed : ntop = false
    · rw [if_pos (by simp [unnamed])] at ran ⊢
      cases ran
      exact ⟨wired, rfl, fun _ => id, id, opened, borrows new used, opens⟩
    rw [if_neg (by simp [unnamed])] at ran ⊢
    obtain ⟨clients, set, same⟩ := bind_eq_ok.mp ran
    cases same
    obtain ⟨sound, found, _⟩ := Map.set_eq_ok handleEq_exact wired.clients set
    have clientOf : ∀ h, ((app.setClients clients).note (.accepted fd)).clientOf h =
        Function.update app.clientOf fd (some ⟨fd, .new, [], []⟩) h := fun h => congrFun found h
    refine ⟨⟨sound, fun h client known => ?_⟩, rfl, fun h known => ?_, fun absent => ?_, fd :: opened,
      .read (if_neg new) used, List.nodup_cons.mpr ⟨new, opens.once⟩, fun h => ?_⟩
    · change clients.find handleHash handleEq h = some client at known
      rw [found, Function.update_apply] at known
      split at known
      · rename_i same
        cases known
        exact same.symm
      · exact wired.keyed h client known
    · rw [clientOf, Function.update_apply]
      split
      · rfl
      · exact known
    · have apart : listener ≠ fd := by
        rintro rfl
        exact new ((opens.all _).mpr (.inl rfl))
      rw [clientOf, Function.update_of_ne apart]
      exact absent
    · rw [clientOf, List.mem_cons, opens.all, Function.update_apply]
      by_cases mine : h = fd
      · simp [mine]
      · simp [mine]

/-- Sending to a client calls `send` on its socket, if there is anything to send. -/
structure Outgoing (app : App) (made : List Syscall) (app' : App) : Prop where
  wired : app'.Wired
  listener : SameListener app app'
  present : ∀ h, (app'.clientOf h).isSome = (app.clientOf h).isSome
  made : ∀ call ∈ made, ∃ h data, call = .send h data ∧ (app.clientOf h).isSome

private theorem sendTurnCalling_snd (s : Slot) (state : List Syscall × App) :
    (sendTurnCalling env s state).map Prod.snd = sendTurn env s state.2 := by
  obtain ⟨made, app⟩ := state
  unfold sendTurnCalling
  dsimp only
  cases read : app.client s with
  | error fault =>
    rw [sendTurn, read]
    rfl
  | ok client =>
    simp only [ok_bind]
    cases sendTurn env s app with
    | error fault => rfl
    | ok after => rfl

/-- The record of the calls changes nothing. -/
theorem flushCalling_snd (app : App) : (flushCalling env app).map Prod.snd = flush env app :=
  Map.foreach_image Prod.snd (fun _ => rfl) sendTurnCalling_snd ([], app)

theorem flushCalling_sends (wired : app.Wired) {made : List Syscall}
    (ran : flushCalling env app = .ok (made, app')) : Outgoing app made app' := by
  have begun : Outgoing app [] app := ⟨wired, rfl, fun _ => rfl, nofun⟩
  refine Map.foreach_preserves (fun state => Outgoing app state.1 state.2) ?_ begun ran
  rintro i j s ⟨made, middle⟩ ⟨made', after⟩ so_far turned stepped
  change Outgoing app made middle at so_far
  obtain ⟨rfl, k, here⟩ := Map.turn_body so_far.wired.clients turned
  obtain ⟨client, loaded, stepped⟩ := bind_eq_ok.mp stepped
  obtain ⟨_, sent, same⟩ := bind_eq_ok.mp stepped
  cases same
  have stored := so_far.wired.client_at here loaded
  have own := so_far.wired.keyed k client stored
  have known : (app.clientOf client.handle).isSome := by
    rw [← so_far.present, own, stored]
    rfl
  have called : ∀ call ∈ made ++ (if client.outBuf.length > 0 then [.send client.handle client.outBuf] else []),
      ∃ h data, call = .send h data ∧ (app.clientOf h).isSome := by
    intro call member
    rcases List.mem_append.mp member with old | new
    · exact so_far.made call old
    · split at new
      · exact ⟨_, _, List.mem_singleton.mp new, known⟩
      · cases new
  obtain ⟨again, reloaded, sent⟩ := bind_eq_ok.mp sent
  obtain rfl : client = again := Except.ok.inj (loaded.symm.trans reloaded)
  have untouched : Outgoing app (made ++ _) middle := ⟨so_far.wired, so_far.listener, so_far.present, called⟩
  split at sent
  · cases sending : env.send client.handle client.outBuf with
    | none =>
      simp only [sending] at sent
      cases sent
      exact untouched
    | some taken =>
      simp only [sending] at sent
      obtain ⟨rest, _, set⟩ := bind_eq_ok.mp sent
      obtain ⟨wired', found, _⟩ := setClient_wired so_far.wired here set own
      refine ⟨wired', (setClient_sameListener set).trans so_far.listener, fun h => ?_, called⟩
      rw [← so_far.present h, found, Function.update_apply]
      split
      · rename_i mine
        rw [mine, stored]
        rfl
      · rfl
  · cases sent
    exact untouched

end Operations

/-! ## The protocol -/

section Protocol
variable {env : Env} {listener : Handle} {opened opened' : List Handle} {made : List Syscall}

/-- A call other than `poll`. -/
def Syscall.isPlain : Syscall → Bool
  | .poll .. => false
  | _ => true

theorem handleConnCalls_plain (env : Env) (app : App) : ∀ call ∈ handleConnCalls env app, call.isPlain = true := by
  unfold handleConnCalls
  split
  · simp [Syscall.isPlain]
  · split_ifs <;> simp [Syscall.isPlain]

/-- What manages the descriptors obeys the protocol, but for `poll`. -/
theorem obeys_of_manages (plain : ∀ call ∈ made, call.isPlain = true)
    (manages : Manages opened (made.flatMap Syscall.acts) opened') :
    Obeys (Accepts (Syscall.next listener)) opened made opened' := by
  induction made generalizing opened with
  | nil =>
    cases manages
    exact .done _
  | cons call rest ih =>
    rw [List.flatMap_cons] at manages
    obtain ⟨middle, first, more⟩ := manages.split
    refine .read ?_ (ih (fun c member => plain c (List.mem_cons_of_mem _ member)) more)
    have ran := obeys_iff_foldlM.mp first
    cases call with
    | poll => exact nomatch plain _ List.mem_cons_self
    | _ => exact ran

theorem manages_of_obeys (obeys : Obeys (Accepts (Syscall.next listener)) opened made opened') :
    Manages opened (made.flatMap Syscall.acts) opened' := by
  induction obeys with
  | done => exact .done _
  | @read _ _ _ call rest allowed _ ih =>
    rw [List.flatMap_cons]
    refine Obeys.append (obeys_iff_foldlM.mpr ?_) ih
    cases call with
    | poll fds waits =>
      simp only [Accepts, Syscall.next] at allowed
      split at allowed
      · exact allowed
      · cases allowed
    | _ => exact allowed

theorem next_poll {fds : List Handle} {waits : Bool} (due : waits = decide (opened = [listener]))
    (here : ∀ fd ∈ fds, fd ∈ opened) : Syscall.next listener opened (.poll fds waits) = some opened := by
  rw [Syscall.next, if_pos due]
  exact obeys_iff_foldlM.mp (uses_held here)

end Protocol

/-! ## Whole runs -/

section Runs
variable {env : Env} {listener : Handle} {now : Int} {sys sys' : Sys} {log : Log} {opened : List Handle}

/-- The sockets that are still to be read. -/
def Point.reads : Point → List Handle
  | .wait polled => polled.tail
  | .receive todo => todo
  | _ => []

/-- The open descriptors, where the program stands. -/
structure Tidy (listener : Handle) (sys : Sys) (opened : List Handle) : Prop where
  wired : sys.app.Wired
  listening : sys.app.server.listener = listener
  apart : sys.app.clientOf listener = none
  reads : ∀ fd ∈ sys.point.reads, (sys.app.clientOf fd).isSome
  opens : Opens listener sys.app opened

theorem isSome_of_outOf {app app' : App} {out : Handle → Bytes} {events : List Event}
    (poured : Pours out events app app') (h : Handle) :
    (app'.clientOf h).isSome = (app.clientOf h).isSome := by
  have grown := congrArg Option.isSome (poured.grown h)
  simpa [App.outOf] using grown

/-- An operation that opens and closes nothing. -/
theorem Tidy.still (tidy : Tidy listener sys opened) {app : App} {point : Point} (wired : app.Wired)
    (same : SameListener sys.app app) (present : ∀ h, (app.clientOf h).isSome = (sys.app.clientOf h).isSome)
    (reads : ∀ fd ∈ point.reads, fd ∈ sys.point.reads) : Tidy listener ⟨app, point⟩ opened where
  wired := wired
  listening := same.trans tidy.listening
  apart := by
    have absent := present listener
    rw [tidy.apart] at absent
    exact Option.isNone_iff_eq_none.mp (Option.isSome_eq_false_iff.mp absent)
  reads fd member := by
    rw [present]
    exact tidy.reads fd (reads fd member)
  opens := tidy.opens.same present

/-- Events noted while nothing happens on the sockets. -/
theorem no_calls {events : List Event} (aside : ∀ e ∈ events, e.isNetwork = false) :
    events.filterMap Event.call = [] := by
  refine List.filterMap_eq_nil_iff.mpr fun e member => ?_
  have quiet := aside e member
  cases e <;> first | rfl | cases quiet

theorem trace_dropped {events : List Event} {before after : App} (grown : after.trace = before.trace ++ events) :
    after.trace.drop before.trace.length = events := by
  rw [grown, List.drop_left]

/-- Where the calls are those that the events are noted with. -/
theorem Tidy.talks (tidy : Tidy listener sys opened) {self : Handle} {p : UserPtr} {app : App} (point : Point)
    (reads : point.reads = [])
    (worked : Effects env self sys.app app ∨ Confirms p self sys.app app) :
    Obeys (Accepts (Syscall.next listener)) opened
      ((app.trace.drop sys.app.trace.length).filterMap Event.call) opened ∧ Tidy listener ⟨app, point⟩ opened := by
  have nothing : ∀ fd ∈ point.reads, fd ∈ sys.point.reads := by simp [reads]
  rcases worked with path | confirms
  · obtain ⟨events, charged, aside⟩ := path.charges tidy.wired
    refine ⟨?_, tidy.still charged.wired path.sameListener (isSome_of_outOf charged) nothing⟩
    rw [trace_dropped charged.trace, no_calls aside]
    exact .done opened
  · obtain ⟨taken, out, charged, connected, handled⟩ :
        ∃ taken out, Charges env (taken ++ [.goodbye self]) sys.app app ∧ _ := confirms.charges tidy.wired
    refine ⟨?_, tidy.still charged.wired confirms.sameListener (isSome_of_outOf charged) nothing⟩
    have quiet : taken.filterMap Event.call = [] := no_calls fun e member => by
      obtain ⟨_, _, rfl⟩ := handled e member
      rfl
    have present : (sys.app.clientOf self).isSome := by
      have held := congrArg Option.isSome connected
      simpa [App.outOf] using held
    rw [trace_dropped charged.trace, List.filterMap_append, quiet]
    exact obeys_of_manages (by simp [Event.call, Syscall.isPlain])
      (use_held ((tidy.opens.all self).mpr (.inr present)))

theorem Tidy.sweep {app app' : App} (tidy : Tidy listener ⟨app, .sweep⟩ opened) {polled : List Handle}
    (ran : sweep env app = .ok (polled, app')) :
    ∃ opened', Obeys (Accepts (Syscall.next listener)) opened
      ((app'.trace.drop app.trace.length).filterMap Event.call ++
        [.poll polled (app'.clients.popBkts == 0)]) opened' ∧ Tidy listener ⟨app', .wait polled⟩ opened' := by
  obtain ⟨gone, closes⟩ := sweep_closes tidy.wired ran
  obtain ⟨stays, rfl, online⟩ := closes.polled
  have known : ∀ h ∈ stays, (app'.clientOf h).isSome := by
    intro h member
    obtain ⟨client, there, _⟩ := online h member
    rw [there]
    rfl
  obtain ⟨opened', released, kept⟩ := releases_held closes.once
    (fun h member => (tidy.opens.all h).mpr (.inr (closes.connected h member))) tidy.opens.once
  have absent : listener ∉ gone := by
    intro member
    have connected := closes.connected listener member
    rw [tidy.apart] at connected
    cases connected
  have opens : Opens listener app' opened' := by
    refine ⟨Manages.nodup released tidy.opens.once, fun h => ?_⟩
    rw [kept, tidy.opens.all, closes.left]
    constructor
    · rintro ⟨rfl | there, stays⟩
      · exact .inl rfl
      · exact .inr ⟨there, stays⟩
    · rintro (rfl | ⟨there, stays⟩)
      · exact ⟨.inl rfl, absent⟩
      · exact ⟨.inr there, stays⟩
  have apart : app'.clientOf listener = none := by
    by_contra there
    have left := (closes.left listener).mp (Option.isSome_iff_ne_none.mpr there)
    rw [tidy.apart] at left
    cases left.1
  have closing : (gone.map Event.closed).filterMap Event.call = gone.map Syscall.close := by
    rw [List.filterMap_map]
    exact congrFun (List.filterMap_eq_map (f := Syscall.close)) gone
  have acts : (gone.map Syscall.close).flatMap Syscall.acts = gone.map Act.release := by
    rw [List.flatMap_map]
    exact (List.map_eq_flatMap (f := Act.release) (l := gone)).symm
  have due : (app'.clients.popBkts == 0) = decide (opened' = [listener]) := by
    rw [Bool.eq_iff_iff, beq_iff_eq, decide_eq_true_eq, popBkts_eq_zero closes.wired, opens.alone apart]
  have here : ∀ fd ∈ app.server.listener :: stays, fd ∈ opened' := by
    intro fd member
    rcases List.mem_cons.mp member with rfl | later
    · exact (opens.all _).mpr (.inl tidy.listening)
    · exact (opens.all _).mpr (.inr (known fd later))
  refine ⟨opened', ?_, closes.wired, closes.listener.trans tidy.listening, apart, known, opens⟩
  rw [trace_dropped closes.trace, closing]
  refine (obeys_of_manages ?_ ?_).append (.one (next_poll due here))
  · intro call member
    obtain ⟨h, _, rfl⟩ := List.mem_map.mp member
    rfl
  · rw [acts]
    exact released

theorem Tidy.receive (tidy : Tidy listener sys opened) {fd : Handle} {rest : List Handle} {app : App}
    (here : sys.point = .receive (fd :: rest)) (ran : receiveOne env fd sys.app = .ok app) :
    Obeys (Accepts (Syscall.next listener)) opened (receiveCalls env fd) opened ∧
      Tidy listener ⟨app, .receive rest⟩ opened := by
  obtain ⟨events, charged, _⟩ := receiveOne_charges tidy.wired ran
  refine ⟨?_, tidy.still charged.wired (receiveOne_sameListener ran) (isSome_of_outOf charged) fun k member => ?_⟩
  · have known := tidy.reads fd (by rw [here]; exact List.mem_cons_self)
    unfold receiveCalls
    split
    · exact obeys_of_manages (by simp [Syscall.isPlain]) (use_held ((tidy.opens.all fd).mpr (.inr known)))
    · exact .done opened
  · rw [here]
    exact List.mem_cons_of_mem fd member

theorem Tidy.flush (tidy : Tidy listener sys opened) {app : App} (ran : flush env sys.app = .ok app) :
    ∃ made, (flushCalling env sys.app).map Prod.fst = .ok made ∧
      Obeys (Accepts (Syscall.next listener)) opened made opened ∧ Tidy listener ⟨app, .users 0 0⟩ opened := by
  have image : (flushCalling env sys.app).map Prod.snd = AuroraComms.flush env sys.app := flushCalling_snd sys.app
  rw [ran] at image
  obtain ⟨⟨made, _⟩, calling, same⟩ := map_eq_ok.mp image
  cases same
  have outgoing := flushCalling_sends tidy.wired calling
  refine ⟨made, by rw [calling]; rfl, Obeys.still fun call member => ?_,
    tidy.still outgoing.wired outgoing.listener outgoing.present nofun⟩
  obtain ⟨h, data, rfl, known⟩ := outgoing.made call member
  exact obeys_iff_foldlM.mp (use_held ((tidy.opens.all h).mpr (.inr known)))

/-- Every operation makes calls that the protocol allows. -/
theorem Tidy.step (tidy : Tidy listener sys opened)
    (fresh : ∀ polled fd nonblocking ntop, sys.point = .wait polled →
      env.accept = .socket fd nonblocking ntop → fd ∉ opened)
    (ran : AuroraComms.step env sys = .ok sys') :
    ∃ made opened', calls env sys sys' = .ok made ∧
      Obeys (Accepts (Syscall.next listener)) opened made opened' ∧ Tidy listener sys' opened' := by
  obtain ⟨app, point⟩ := sys
  -- Nothing happens, and the program goes on.
  have moves : ∀ point', (∀ fd ∈ point'.reads, fd ∈ point.reads) → Tidy listener ⟨app, point'⟩ opened :=
    fun point' reads => tidy.still tidy.wired rfl (fun _ => rfl) reads
  have rests : ∀ point', point'.reads = [] → Tidy listener ⟨app, point'⟩ opened :=
    fun point' none => moves point' (by simp [none])
  have silent : (app.trace.drop app.trace.length).filterMap Event.call = [] := by simp
  cases point with
  | sweep =>
    obtain ⟨⟨polled, swept⟩, sweeping, same⟩ := bind_eq_ok.mp ran
    cases same
    obtain ⟨opened', obeys, tidy'⟩ := tidy.sweep sweeping
    exact ⟨_, opened', rfl, obeys, tidy'⟩
  | wait polled =>
    cases polling : env.poll with
    | error =>
      simp only [AuroraComms.step, polling] at ran
      cases ran
      exact ⟨[], opened, by simp [calls, polling], .done opened, rests _ rfl⟩
    | timeout =>
      simp only [AuroraComms.step, polling] at ran
      cases ran
      exact ⟨[], opened, by simp [calls, polling], .done opened, rests _ rfl⟩
    | ready listening =>
      simp only [AuroraComms.step, polling] at ran
      obtain ⟨connected, connecting, same⟩ := bind_eq_ok.mp ran
      cases same
      cases listening with
      | false =>
        cases connecting
        exact ⟨[], opened, by simp [calls, polling], .done opened, moves _ fun _ => id⟩
      | true =>
        obtain ⟨wired, listened, grows, apart, opened', manages, opens⟩ :=
          handleConn_manages tidy.wired tidy.opens
            (fun fd nonblocking ntop => fresh polled fd nonblocking ntop rfl) connecting
        exact ⟨handleConnCalls env app, opened', by simp [calls, polling],
          obeys_of_manages (handleConnCalls_plain env app) manages, wired, listened.trans tidy.listening,
          apart tidy.apart, fun fd member => grows fd (tidy.reads fd member), opens⟩
  | receive todo =>
    cases todo with
    | nil =>
      cases ran
      exact ⟨_, opened, rfl, by rw [silent]; exact .done opened, rests _ rfl⟩
    | cons fd rest =>
      obtain ⟨received, receiving, same⟩ := bind_eq_ok.mp ran
      cases same
      obtain ⟨obeys, tidy'⟩ := tidy.receive rfl receiving
      exact ⟨_, opened, rfl, obeys, tidy'⟩
  | flush =>
    obtain ⟨flushed, flushing, same⟩ := bind_eq_ok.mp ran
    cases same
    obtain ⟨made, made_so, obeys, tidy'⟩ := tidy.flush flushing
    exact ⟨made, opened, made_so, obeys, tidy'⟩
  | users i j =>
    obtain ⟨next, turned, ran⟩ := bind_eq_ok.mp ran
    cases next with
    | done | nextBkt =>
      cases ran
      exact ⟨_, opened, rfl, by rw [silent]; exact .done opened, rests _ rfl⟩
    | body s =>
      obtain ⟨updated, updating, same⟩ := bind_eq_ok.mp ran
      cases same
      obtain ⟨p, user, _, _, worked⟩ := updateUser_effects updating
      obtain ⟨obeys, tidy'⟩ := tidy.talks (.users i (j + 1)) rfl worked
      exact ⟨_, opened, rfl, obeys, tidy'⟩
  | clients i j =>
    obtain ⟨next, turned, ran⟩ := bind_eq_ok.mp ran
    cases next with
    | done | nextBkt =>
      cases ran
      exact ⟨_, opened, rfl, by rw [silent]; exact .done opened, rests _ rfl⟩
    | body s =>
      obtain ⟨updated, updating, same⟩ := bind_eq_ok.mp ran
      cases same
      obtain ⟨client, _, path⟩ := updateClient_effects updating
      obtain ⟨obeys, tidy'⟩ := tidy.talks (p := 0) (.clients i (j + 1)) rfl (.inl path)
      exact ⟨_, opened, rfl, obeys, tidy'⟩
  | exited =>
    cases ran
    exact ⟨_, opened, rfl, by rw [silent]; exact .done opened, tidy⟩

theorem start_tidy (listener : Handle) (now : Int) :
    Tidy listener (AuroraComms.start listener now) [listener] := by
  have nobody : ∀ fd, (AuroraComms.start listener now).app.clientOf fd = none := by
    obtain ⟨_, empty⟩ : (Map.newReserve clientsMax : Map Handle Client).Sound handleHash handleEq ∧ _ :=
      Map.newReserve_sound (by decide)
    exact empty
  exact ⟨start_wired listener now, rfl, nobody listener, nofun, List.nodup_singleton listener, by simp [nobody]⟩

theorem run_tidy (reached : Reaches Log.step (AcceptsFresh listener) (Log.start listener now) log) :
    ∃ opened, Obeys (Accepts (Syscall.next listener)) [listener] log.calls opened ∧
      Tidy listener log.sys opened := by
  apply reached.invariant
  · exact ⟨[listener], .done _, start_tidy listener now⟩
  · rintro env before after fresh ⟨opened, obeys, tidy⟩ ran
    obtain ⟨sys', stepped, ran⟩ := bind_eq_ok.mp ran
    obtain ⟨made, recorded, same⟩ := bind_eq_ok.mp ran
    cases same
    obtain ⟨made', opened', recorded', more, tidy'⟩ := tidy.step
      (fun polled fd nonblocking ntop here accepting =>
        fresh polled fd nonblocking ntop opened here accepting (obeys_iff_foldlM.mp obeys)) stepped
    obtain rfl : made = made' := Except.ok.inj (recorded.symm.trans recorded')
    exact ⟨opened', obeys.append more, tidy'⟩

theorem count_acquired (made : List Syscall) (fd : Handle) :
    (made.flatMap Syscall.acts).count (.acquire fd) = made.count (.accept (some fd)) := by
  induction made with
  | nil => rfl
  | cons call rest ih =>
    rw [List.flatMap_cons, List.count_append, ih, List.count_cons, Nat.add_comm]
    congr 1
    cases call with
    | accept returned => cases returned <;> simp [Syscall.acts, List.count_cons]
    | poll fds waits => simp [Syscall.acts, List.count_eq_zero]
    | _ => simp [Syscall.acts]

theorem count_released (made : List Syscall) (fd : Handle) :
    (made.flatMap Syscall.acts).count (.release fd) = made.count (.close fd) := by
  induction made with
  | nil => rfl
  | cons call rest ih =>
    rw [List.flatMap_cons, List.count_append, ih, List.count_cons, Nat.add_comm]
    congr 1
    cases call with
    | accept returned => cases returned <;> simp [Syscall.acts]
    | poll fds waits => simp [Syscall.acts, List.count_eq_zero]
    | close other => simp [Syscall.acts, List.count_cons]
    | _ => simp [Syscall.acts]

/-- The server uses only sockets that are open, closes none twice, and calls `poll`
to wait if and only if no client is connected. A descriptor that `accept` returned
was closed as often as it was returned, but for the sockets of the clients there
are; and whatever the program does next, it makes calls again. -/
theorem descriptors_well_used
    (reached : Reaches Log.step (AcceptsFresh listener) (Log.start listener now) log) :
    (∃ opened, log.calls.foldlM (Syscall.next listener) [listener] = some opened ∧
      ∀ fd, fd ∈ opened ↔ fd = listener ∨ (log.sys.app.clientOf fd).isSome) ∧
    (∀ fd, log.calls.count (.accept (some fd)) =
      log.calls.count (.close fd) + if (log.sys.app.clientOf fd).isSome then 1 else 0) ∧
    ∀ env sys', AcceptsFresh listener env log → AuroraComms.step env log.sys = .ok sys' →
      ∃ log', Log.step env log = .ok log' ∧ log'.sys = sys' := by
  obtain ⟨opened, obeys, tidy⟩ := run_tidy reached
  have folded := obeys_iff_foldlM.mp obeys
  refine ⟨⟨opened, folded, tidy.opens.all⟩, fun fd => ?_, fun env sys' fresh ran => ?_⟩
  · have balance := (manages_of_obeys obeys).balance fd
    rw [count_acquired, count_released, tidy.opens.once.count] at balance
    by_cases mine : fd = listener
    · subst mine
      simp [tidy.opens.all, tidy.apart] at balance ⊢
      omega
    · simp only [List.count_singleton, tidy.opens.all, mine, false_or] at balance
      simpa [Ne.symm mine] using balance
  · obtain ⟨made, _, recorded, _⟩ := tidy.step (fun polled fd nonblocking ntop here accepting =>
      fresh polled fd nonblocking ntop opened here accepting folded) ran
    exact ⟨⟨sys', log.calls ++ made⟩, by simp [Log.step, ran, recorded], rfl⟩

/-- The check of `AcceptsFresh`. -/
private def fresh (listener : Handle) (env : Env) (log : Log) : Bool :=
  match log.sys.point, env.accept with
  | .wait _, .socket fd _ _ =>
    (log.calls.foldlM (Syscall.next listener) [listener]).all fun opened => decide (fd ∉ opened)
  | _, _ => true

private theorem acceptsFresh_of_check (checked : fresh listener env log = true) :
    AcceptsFresh listener env log := by
  intro polled fd nonblocking ntop opened here accepting folded
  rw [fresh, here, accepting, folded] at checked
  exact of_decide_eq_true checked

/-- A client comes, another one cannot be made non-blocking, and the first one goes. -/
private def passes : List (Nat × Env) :=
  [(107, .connects 4), (109, { Env.connects 5 with accept := .socket 5 false true }), (111, .ends 4)]

/-- Both sockets are closed, one of them at once. -/
theorem descriptors_well_used_refused : ∃ log : Log,
    log.calls.count (.close 4) = 1 ∧ log.calls.count (.accept (some 5)) = 1 ∧ log.calls.count (.close 5) = 1 ∧
      ∃ opened, log.calls.foldlM (Syscall.next 3) [3] = some opened ∧ .poll [3] true ∈ log.calls := by
  have outcome : (drive Log.step (fresh 3) .assertion (rounds passes) (Log.start 3 0)).map (fun log =>
      (log.calls.count (.close 4), log.calls.count (.accept (some 5)), (log.sys.app.clientOf 5).isSome,
        decide (.poll [3] true ∈ log.calls))) = .ok (1, 1, false, true) := by
    decide +kernel
  obtain ⟨log, driven, outcome⟩ := map_eq_ok.mp outcome
  obtain ⟨closed, outcome⟩ := Prod.mk.inj outcome
  obtain ⟨accepted, outcome⟩ := Prod.mk.inj outcome
  obtain ⟨refused, waited⟩ := Prod.mk.inj outcome
  have reached : Reaches Log.step (AcceptsFresh 3) (Log.start 3 0) log :=
    drive_reaches (fun _ _ _ => acceptsFresh_of_check) driven
  obtain ⟨⟨opened, folded, _⟩, balanced, _⟩ := descriptors_well_used reached
  have once : log.calls.count (.accept (some 5)) = log.calls.count (.close 5) := by
    rw [balanced, refused]
    rfl
  exact ⟨log, closed, accepted, once.symm.trans accepted, opened, folded, of_decide_eq_true waited⟩

end Runs
end AuroraComms
