import AuroraComms.Update

/-! The network's half of the main loop (`net.c`), and the loop itself. The
sweep that opens `ac_server_poll` removes entries from the table it iterates
over. -/
namespace AuroraComms
open Meta Library.Run

/-- `ac_disconnect_client` -/
def disconnectClient (s : Slot) (app : App) : Except Fault App := do
  let client ← app.client s
  let app := app.note (.closed client.handle)
  return app.setClients (← app.clients.remove handleHash handleEq client.handle)

/-- One turn of the sweep, with the sockets collected in `polled_sockets`. -/
def sweepTurn (s : Slot) (state : List Handle × App) : Except Fault (List Handle × App) := do
  let (polled, app) := state
  let client ← app.client s
  match client.state with
  | .toBeRemoved => return (polled, ← disconnectClient s app)
  | .new =>
    let app ← app.setClient s { client with state := .online }
    return (polled ++ [client.handle], app)
  | .online => return (polled ++ [client.handle], app)

/-- The sweep: the listener and then the clients that stay. -/
def sweep (env : Env) (app : App) : Except Fault (List Handle × App) :=
  Map.foreach env.quiet (fun state => state.2.clients) sweepTurn ([app.server.listener], app)

/-- `ac_handle_conn` -/
def handleConn (env : Env) (app : App) : Except Fault App :=
  match env.accept with
  | .failed => return app
  | .socket fd nonblocking ntop =>
    if !nonblocking then return app
    else if app.clients.len = clientsMax then return app
    else if !ntop then return app
    else do
      let client : Client := { handle := fd, state := .new, inBuf := [], outBuf := [] }
      let clients ← app.clients.set handleHash handleEq client.handle client
      return (app.setClients clients).note (.accepted fd)

/-- The check of the listener, given whether it has an event. -/
def checkListener (env : Env) (listener : Bool) (app : App) : Except Fault App :=
  if listener then handleConn env app else return app

/-- The receive loop on one polled socket. -/
def receiveOne (env : Env) (fd : Handle) (app : App) : Except Fault App := do
  if env.pollin fd then
    let s ← app.clients.get handleHash handleEq fd
    let client ← app.client s
    match env.recv fd with
    | .again => return app
    | .error => (app.note (.hungUp fd)).setClient s { client with state := .toBeRemoved }
    | .data data =>
      if data.length = 0 then
        (app.note (.hungUp fd)).setClient s { client with state := .toBeRemoved }
      else (app.note (.received fd data)).setClient s { client with inBuf := client.inBuf ++ data }
  else return app

/-- One turn of the loop that sends outgoing data. -/
def sendTurn (env : Env) (s : Slot) (app : App) : Except Fault App := do
  let client ← app.client s
  if client.outBuf.length > 0 then
    match env.send client.handle client.outBuf with
    | none => return app
    | some sent => app.setClient s { client with outBuf := ← arrRemoveN client.outBuf 0 sent }
  else return app

def flush (env : Env) (app : App) : Except Fault App :=
  Map.foreach env.quiet App.clients (sendTurn env) app

/-- `ac_server_poll`; nothing is left when `poll` fails and the program exits. -/
def serverPoll (env : Env) (app : App) : Except Fault (Option App) := do
  let (polled, app) ← sweep env app
  match env.poll with
  | .error => return none
  | .timeout => return some (← flush env app)
  | .ready listener =>
    let app ← checkListener env listener app
    let app ← polled.tail.foldlM (fun app fd => receiveOne env fd app) app
    return some (← flush env app)

/-! ## The loop of `main`, one operation at a time -/

/-- Where the program stands. The two loops of `ac_app_update` keep their two
indices, the receive loop the sockets it has yet to look at. -/
inductive Point where
  | sweep
  | wait (polled : List Handle)
  | receive (polled : List Handle)
  | flush
  | users (i j : Nat)
  | clients (i j : Nat)
  | exited
  deriving DecidableEq, Repr

structure Sys where
  app : App
  point : Point
  deriving DecidableEq, Repr

/-- One operation of the main loop: the sweep, the call of `poll` with the
connection it may announce, one socket, the sends, one user, or one client. -/
def step (env : Env) (sys : Sys) : Except Fault Sys := do
  let app := sys.app
  match sys.point with
  | .sweep =>
    let (polled, app) ← sweep env app
    return ⟨app, .wait polled⟩
  | .wait polled =>
    match env.poll with
    | .error => return ⟨app, .exited⟩
    | .timeout => return ⟨app, .flush⟩
    | .ready listener =>
      let app ← checkListener env listener app
      return ⟨app, .receive polled.tail⟩
  | .receive [] => return ⟨app, .flush⟩
  | .receive (fd :: rest) => return ⟨← receiveOne env fd app, .receive rest⟩
  | .flush => return ⟨← flush env app, .users 0 0⟩
  | .users i j =>
    match ← app.fromHandle.turn env.quiet i j with
    | .body s => return ⟨← updateUser env s app, .users i (j + 1)⟩
    | .nextBkt => return ⟨app, .users (i + 1) 0⟩
    | .done => return ⟨app, .clients 0 0⟩
  | .clients i j =>
    match ← app.clients.turn env.quiet i j with
    | .body s => return ⟨← updateClient env s app, .clients i (j + 1)⟩
    | .nextBkt => return ⟨app, .clients (i + 1) 0⟩
    | .done => return ⟨app, .sweep⟩
  | .exited => return sys

/-- The state `main` enters its loop in. -/
def start (listener : Handle) (now : Int) : Sys := ⟨App.new listener now, .sweep⟩

/-! ## The loop is its operations -/

section Loop
variable {env : Env}

/-- A run of operations under one answer of the system. -/
abbrev Runs (env : Env) : Sys → Sys → Prop := Reaches step (fun answer _ => answer = env)

theorem Runs.one {sys next : Sys} (ran : step env sys = .ok next) : Runs env sys next :=
  .next .start env rfl ran

/-- A loop over a table, from what its operations do. -/
private theorem loop_runs {V : Type} {tbl : App → Map Handle V} {body : Slot → App → Except Fault App}
    (stand : Nat → Nat → Point) (after : Point)
    (done : ∀ i j app, (tbl app).turn env.quiet i j = .ok .done →
      step env ⟨app, stand i j⟩ = .ok ⟨app, after⟩)
    (nextBkt : ∀ i j app, (tbl app).turn env.quiet i j = .ok .nextBkt →
      step env ⟨app, stand i j⟩ = .ok ⟨app, stand (i + 1) 0⟩)
    (turns : ∀ i j s app app', (tbl app).turn env.quiet i j = .ok (.body s) → body s app = .ok app' →
      step env ⟨app, stand i j⟩ = .ok ⟨app', stand i (j + 1)⟩)
    (fuel i j : Nat) (app app' : App)
    (ran : Map.foreachFrom env.quiet tbl body fuel i j app = .ok app') :
    Runs env ⟨app, stand i j⟩ ⟨app', after⟩ := by
  induction fuel generalizing i j app with
  | zero => cases ran
  | succ fuel ih =>
    rw [Map.foreachFrom] at ran
    obtain ⟨next, moved, ran⟩ := bind_eq_ok.mp ran
    cases next with
    | done =>
      cases ran
      exact Runs.one (done i j _ moved)
    | nextBkt => exact (Runs.one (nextBkt i j app moved)).trans (ih _ _ _ ran)
    | body s =>
      obtain ⟨middle, turned, ran⟩ := bind_eq_ok.mp ran
      exact (Runs.one (turns i j s app middle moved turned)).trans (ih _ _ _ ran)

private theorem users_runs (fuel i j : Nat) (app app' : App)
    (ran : Map.foreachFrom env.quiet App.fromHandle (updateUser env) fuel i j app = .ok app') :
    Runs env ⟨app, .users i j⟩ ⟨app', .clients 0 0⟩ :=
  loop_runs .users (.clients 0 0) (fun _ _ _ moved => by simp [step, moved])
    (fun _ _ _ moved => by simp [step, moved])
    (fun _ _ _ _ _ moved turned => by simp [step, moved, turned]) fuel i j app app' ran

private theorem clients_runs (fuel i j : Nat) (app app' : App)
    (ran : Map.foreachFrom env.quiet App.clients (updateClient env) fuel i j app = .ok app') :
    Runs env ⟨app, .clients i j⟩ ⟨app', .sweep⟩ :=
  loop_runs .clients .sweep (fun _ _ _ moved => by simp [step, moved])
    (fun _ _ _ moved => by simp [step, moved])
    (fun _ _ _ _ _ moved turned => by simp [step, moved, turned]) fuel i j app app' ran

private theorem receive_runs (polled : List Handle) (app app' : App)
    (ran : polled.foldlM (fun app fd => receiveOne env fd app) app = .ok app') :
    Runs env ⟨app, .receive polled⟩ ⟨app', .flush⟩ := by
  induction polled generalizing app with
  | nil =>
    cases ran
    exact Runs.one rfl
  | cons fd rest ih =>
    rw [List.foldlM_cons] at ran
    obtain ⟨middle, received, ran⟩ := bind_eq_ok.mp ran
    exact (Runs.one (by simp [step, received])).trans (ih _ ran)

/-- A call of `ac_server_poll` that returns is a run of the operations. -/
theorem serverPoll_runs (app app' : App) (ran : serverPoll env app = .ok (some app')) :
    Runs env ⟨app, .sweep⟩ ⟨app', .users 0 0⟩ := by
  obtain ⟨⟨polled, swept⟩, sweeping, ran⟩ := bind_eq_ok.mp ran
  have first : Runs env ⟨app, .sweep⟩ ⟨swept, .wait polled⟩ := Runs.one (by simp [step, sweeping])
  refine first.trans ?_
  cases polling : env.poll with
  | error => simp [polling] at ran
  | timeout =>
    simp only [polling] at ran
    obtain ⟨flushed, flushing, same⟩ := bind_eq_ok.mp ran
    cases same
    have waited : Runs env ⟨swept, .wait polled⟩ ⟨swept, .flush⟩ :=
      Runs.one (by simp [step, polling])
    exact waited.trans (Runs.one (by simp [step, flushing]))
  | ready listener =>
    simp only [polling] at ran
    obtain ⟨connected, connecting, ran⟩ := bind_eq_ok.mp ran
    obtain ⟨received, receiving, ran⟩ := bind_eq_ok.mp ran
    obtain ⟨flushed, flushing, same⟩ := bind_eq_ok.mp ran
    cases same
    have waited : Runs env ⟨swept, .wait polled⟩ ⟨connected, .receive polled.tail⟩ :=
      Runs.one (by simp [step, polling, connecting])
    exact (waited.trans (receive_runs _ _ _ receiving)).trans (Runs.one (by simp [step, flushing]))

/-- A call of `ac_app_update` that returns is a run of the operations. -/
theorem appUpdate_runs (app app' : App) (ran : appUpdate env app = .ok app') :
    Runs env ⟨app, .users 0 0⟩ ⟨app', .sweep⟩ := by
  obtain ⟨middle, users, clients⟩ := bind_eq_ok.mp ran
  exact (users_runs _ _ _ _ _ users).trans (clients_runs _ _ _ _ _ clients)

end Loop
end AuroraComms
