import AuroraComms.Operations

/-! The account of every client's output. A tape runs beside the program and
notes, in order, what is queued for each client and what the sends of a poll
put on its socket; further calls of `ac_server_send` may come at any point. -/
namespace AuroraComms
open Meta Library.Run

/-! ## The sends of a poll, recorded -/

/-- `sendTurn`, with what `send` took. -/
def sendTurnNoting (env : Env) (s : Slot) (state : List (Handle × Bytes) × App) :
    Except Fault (List (Handle × Bytes) × App) := do
  let (taken, app) := state
  let client ← app.client s
  if client.outBuf.length > 0 then
    match env.send client.handle client.outBuf with
    | none => return (taken, app)
    | some sent =>
      let app ← app.setClient s { client with outBuf := ← arrRemoveN client.outBuf 0 sent }
      return (taken ++ [(client.handle, client.outBuf.take sent)], app)
  else return (taken, app)

/-- `flush`, with what each `send` took. -/
def flushNoting (env : Env) (app : App) : Except Fault (List (Handle × Bytes) × App) :=
  Map.foreach env.quiet (fun state => state.2.clients) (sendTurnNoting env) ([], app)

section Noting
variable {env : Env}

private theorem sendTurnNoting_snd (s : Slot) (state : List (Handle × Bytes) × App) :
    (sendTurnNoting env s state).map Prod.snd = sendTurn env s state.2 := by
  obtain ⟨taken, app⟩ := state
  unfold sendTurnNoting sendTurn
  dsimp only
  cases app.client s with
  | error fault => rfl
  | ok client =>
    simp only [ok_bind]
    split
    · cases env.send client.handle client.outBuf with
      | none => rfl
      | some sent =>
        dsimp only
        cases cut : arrRemoveN client.outBuf 0 sent with
        | error fault => rfl
        | ok rest =>
          simp only [ok_bind]
          cases app.setClient s { client with outBuf := rest } with
          | error fault => rfl
          | ok after => rfl
    · rfl

/-- The record changes nothing. -/
theorem flushNoting_snd (app : App) : (flushNoting env app).map Prod.snd = flush env app :=
  Map.foreach_image Prod.snd (fun _ => rfl) sendTurnNoting_snd ([], app)

/-- What the record says was put on one client's socket. -/
def takenFor (h : Handle) (taken : List (Handle × Bytes)) : Bytes :=
  taken.flatMap fun put => if put.1 = h then put.2 else []

/-- What was put on the sockets came off the front of the out buffers. -/
structure Flushed (app : App) (taken : List (Handle × Bytes)) (app' : App) : Prop where
  wired : app'.Wired
  whole : ∀ h, app.outOf h = (app'.outOf h).map (takenFor h taken ++ ·)
  layout : app'.clients.keyTable = app.clients.keyTable
  trace : app'.trace = app.trace

theorem arrRemoveN_front {α : Type} {xs ys : List α} {n : Nat} (ran : arrRemoveN xs 0 n = .ok ys) :
    xs = xs.take n ++ ys := by
  unfold arrRemoveN at ran
  split at ran
  · cases ran
    simp
  · cases ran

theorem flushNoting_flushed {app app' : App} (wired : app.Wired) {taken : List (Handle × Bytes)}
    (ran : flushNoting env app = .ok (taken, app')) : Flushed app taken app' := by
  have begun : Flushed app [] app :=
    ⟨wired, fun h => by cases app.outOf h <;> simp [takenFor], rfl, rfl⟩
  refine Map.foreach_preserves (fun state => Flushed app state.1 state.2) ?_ begun ran
  rintro i j s ⟨taken, middle⟩ ⟨taken', after⟩ so_far turned stepped
  obtain ⟨rfl, k, here⟩ := Map.turn_body so_far.wired.clients turned
  obtain ⟨client, loaded, stepped⟩ := bind_eq_ok.mp stepped
  have stored := so_far.wired.client_at here loaded
  split at stepped
  · cases sending : env.send client.handle client.outBuf with
    | none =>
      simp only [sending] at stepped
      cases stepped
      exact so_far
    | some sent =>
      simp only [sending] at stepped
      obtain ⟨rest, cut, stepped⟩ := bind_eq_ok.mp stepped
      obtain ⟨_, set, same⟩ := bind_eq_ok.mp stepped
      cases same
      have handle := so_far.wired.keyed k client stored
      obtain ⟨wired', found, layout, frame⟩ := setClient_wired so_far.wired here set handle
      refine ⟨wired', fun h => ?_, layout.trans so_far.layout, by rw [frame]; exact so_far.trace⟩
      rw [so_far.whole h, App.outOf, App.outOf, found, Function.update_apply, handle]
      by_cases mine : h = k
      · have whole := arrRemoveN_front cut
        simp only [mine, stored, ↓reduceIte, Option.map_some, takenFor, List.flatMap_append,
          List.flatMap_cons, List.flatMap_nil, List.append_nil, List.append_assoc, Option.some.injEq]
        rw [← whole]
      · simp only [mine, Ne.symm mine, ↓reduceIte, takenFor, List.flatMap_append, List.flatMap_cons,
          List.flatMap_nil, List.append_nil]
  · cases stepped
    exact so_far

/-- The sends of a poll, whatever they took. -/
theorem flush_flushed {app app' : App} (wired : app.Wired) (ran : flush env app = .ok app') :
    ∃ taken, flushNoting env app = .ok (taken, app') ∧ Flushed app taken app' := by
  have image : (flushNoting env app).map Prod.snd = flush env app := flushNoting_snd app
  rw [ran] at image
  obtain ⟨⟨taken, _⟩, noting, same⟩ := map_eq_ok.mp image
  cases same
  exact ⟨taken, noting, flushNoting_flushed wired noting⟩

end Noting

/-! ## The tape -/

/-- What the socket of a client takes of what it is sent. There is no call of `send` for
no bytes. -/
def Env.takes (env : Env) (h : Handle) (data : Bytes) : Bytes :=
  if data.length > 0 then ((env.send h data).map fun n => data.take n).getD [] else []

/-- What a tape notes of the output. -/
inductive Posting where
  | accepted (handle : Handle)
  /-- A payload of `ac_server_send`, or the payloads of one print. -/
  | queued (handle : Handle) (data : Bytes)
  /-- A send of the flush loop, with the bytes it took. -/
  | put (handle : Handle) (data : Bytes)
  /-- A call of `ac_server_remove_client`, which writes its goodbye to the socket
  at once, with what was in the out buffer and what the socket took. -/
  | removed (handle : Handle) (pending taken : Bytes)
  | closed (handle : Handle)
  deriving DecidableEq, Repr

/-- What is noted of an event, in the state before the operation. -/
def Event.entries (env : Env) (app : App) (event : Event) : List Posting :=
  match event with
  | .accepted h => [.accepted h]
  | .printed h _ _ => [.queued h (render env h event)]
  | .sent h _ => [.queued h (render env h event)]
  | .prompted h => [.queued h (render env h event)]
  | .goodbye h => [.removed h ((app.outOf h).getD []) (env.takes h goodbyeText)]
  | .closed h => [.closed h]
  | _ => []

structure Tape where
  sys : Sys
  entries : List Posting

/-- An operation of the main loop, or a further call of `ac_server_send`. -/
inductive Call where
  | main (env : Env)
  | send (handle : Handle) (data : Bytes)

namespace Tape

/-- What the sends of an operation put on the sockets. -/
def puts (env : Env) (sys : Sys) : Except Fault (List (Handle × Bytes)) :=
  if sys.point = .flush then (flushNoting env sys.app).map Prod.fst else .ok []

def step : Call → Tape → Except Fault Tape
  | .main env, tape => do
    let sys ← AuroraComms.step env tape.sys
    let taken ← puts env tape.sys
    let events := sys.app.trace.drop tape.sys.app.trace.length
    return ⟨sys, tape.entries ++ events.flatMap (Event.entries env tape.sys.app) ++
      taken.map fun put => .put put.1 put.2⟩
  | .send h data, tape => do
    let app ← serverSend h data tape.sys.app
    return ⟨{ tape.sys with app := app }, tape.entries ++ [.queued h data]⟩

/-- The tape as the program starts. -/
def start (listener : Handle) (now : Int) : Tape := ⟨AuroraComms.start listener now, []⟩

end Tape

/-- What was put on a client's socket, and what was queued for it, since its
last accept. -/
structure Account where
  put : Bytes
  queued : Bytes
  deriving DecidableEq, Repr

def Account.note (h : Handle) (account : Account) : Posting → Account
  | .accepted k => if k = h then ⟨[], []⟩ else account
  | .put k data => if k = h then { account with put := account.put ++ data } else account
  | .queued k data => if k = h then { account with queued := account.queued ++ data } else account
  | .removed _ _ _ => account
  | .closed _ => account

def accountOf (h : Handle) (entries : List Posting) : Account := entries.foldl (Account.note h) ⟨[], []⟩

/-! ## One operation -/

/-- What an operation does to the output: which events it notes, and what its
sends put on the sockets. -/
inductive Outcome (env : Env) (app app' : App) : List Event → List (Handle × Bytes) → Prop where
  | ordinary {events : List Event} (charged : Charges env events app app')
    (aside : ∀ e ∈ events, e.isNetwork = false) : Outcome env app app' events []
  | confirms {events : List Event} {self : Handle}
    {out : Bytes} (charged : Charges env (events ++ [.goodbye self]) app app')
    (connected : app.outOf self = some out) (handled : ∀ e ∈ events, ∃ taken text, e = .handled self taken text) :
    Outcome env app app' (events ++ [.goodbye self]) []
  | sweeps {events : List Event} (swept : Sweeps app app') (closed : ∀ e ∈ events, ∃ h, e = .closed h) :
    Outcome env app app' events []
  | accepts {fd : Handle} (wired : app'.Wired)
    (entered : app'.clientOf = Function.update app.clientOf fd (some ⟨fd, .new, [], []⟩)) :
    Outcome env app app' [.accepted fd] []
  | flushes {taken : List (Handle × Bytes)} (flushed : Flushed app taken app') : Outcome env app app' [] taken

section Steps
variable {env : Env} {sys sys' : Sys} {taken : List (Handle × Bytes)}

theorem Outcome.nothing {app : App} (wired : app.Wired) : Outcome env app app [] [] :=
  .ordinary (Pours.refl wired) nofun

private theorem puts_elsewhere (elsewhere : sys.point ≠ .flush) (recorded : Tape.puts env sys = .ok taken) :
    taken = [] := by
  rw [Tape.puts, if_neg elsewhere] at recorded
  cases recorded
  rfl

/-- Every operation of the main loop that succeeds has one of these outcomes. -/
theorem step_outcome (wired : sys.app.Wired) (ran : step env sys = .ok sys')
    (recorded : Tape.puts env sys = .ok taken) :
    ∃ events, sys'.app.trace = sys.app.trace ++ events ∧ Outcome env sys.app sys'.app events taken := by
  obtain ⟨_, _, operation⟩ := step_operation ran
  cases operation with
  | still elsewhere =>
    cases puts_elsewhere elsewhere recorded
    exact ⟨[], (List.append_nil _).symm, .nothing wired⟩
  | sweeps elsewhere sweeping =>
    cases puts_elsewhere elsewhere recorded
    have swept := sweep_sweeps wired sweeping
    obtain ⟨gone, trace, _⟩ := swept.trace
    exact ⟨_, trace, .sweeps swept (by simp)⟩
  | connects waiting connecting =>
    cases puts_elsewhere (by simp [waiting]) recorded
    obtain rfl | ⟨fd, _, _, wired', entered, _, trace⟩ := handleConn_enters wired connecting
    · exact ⟨[], (List.append_nil _).symm, .nothing wired⟩
    · exact ⟨[.accepted fd], trace, .accepts wired' entered⟩
  | receives elsewhere receiving =>
    cases puts_elsewhere elsewhere recorded
    obtain ⟨events, charged, arrived⟩ := receiveOne_charges wired receiving
    refine ⟨events, charged.trace, .ordinary charged fun e member => ?_⟩
    obtain rfl | ⟨data, rfl⟩ := arrived e member <;> rfl
  | flushes flushing sends =>
    obtain ⟨record, noting, flushed⟩ := flush_flushed wired sends
    rw [Tape.puts, if_pos flushing, noting] at recorded
    cases recorded
    exact ⟨[], by rw [flushed.trace, List.append_nil], .flushes flushed⟩
  | speaks elsewhere _ path =>
    cases puts_elsewhere elsewhere recorded
    obtain ⟨events, charged, aside⟩ := path.charges wired
    exact ⟨events, charged.trace, .ordinary charged aside⟩
  | confirms elsewhere _ confirms =>
    cases puts_elsewhere elsewhere recorded
    obtain ⟨events, out, charged, connected, handled⟩ := confirms.charges wired
    exact ⟨_, charged.trace, .confirms charged connected handled⟩
  | renews elsewhere _ _ path =>
    cases puts_elsewhere elsewhere recorded
    obtain ⟨events, charged, aside⟩ := path.charges wired
    exact ⟨events, charged.trace, .ordinary charged aside⟩

end Steps

/-! ## The account balances -/

section Balance
variable {env : Env} {h : Handle}

theorem accountOf_append (h : Handle) (before after : List Posting) :
    accountOf h (before ++ after) = after.foldl (Account.note h) (accountOf h before) := List.foldl_append

/-- Events of the application queue what they render to. -/
theorem account_events (app : App) (events : List Event) (old : ∀ k, .accepted k ∉ events) (account : Account) :
    (events.flatMap (Event.entries env app)).foldl (Account.note h) account =
      { account with queued := account.queued ++ events.flatMap (render env h) } := by
  induction events generalizing account with
  | nil => simp
  | cons e rest ih =>
    have later : ∀ k, .accepted k ∉ rest := fun k member => old k (List.mem_cons_of_mem e member)
    rw [List.flatMap_cons, List.foldl_append, ih later, List.flatMap_cons, ← List.append_assoc]
    have one : ((e.entries env app).foldl (Account.note h) account) =
        { account with queued := account.queued ++ render env h e } := by
      cases e with
      | accepted k => exact absurd List.mem_cons_self (old k)
      | printed k action msg => by_cases here : k = h <;> simp [Event.entries, Account.note, render, here]
      | sent k msg => by_cases here : k = h <;> simp [Event.entries, Account.note, render, here]
      | prompted k => by_cases here : k = h <;> simp [Event.entries, Account.note, render, here]
      | _ => simp [Event.entries, Account.note, render]
    rw [one]

theorem account_puts (taken : List (Handle × Bytes)) (account : Account) :
    (taken.map fun put => Posting.put put.1 put.2).foldl (Account.note h) account =
      { account with put := account.put ++ takenFor h taken } := by
  induction taken generalizing account with
  | nil => simp [takenFor]
  | cons put rest ih =>
    rw [List.map_cons, List.foldl_cons, ih]
    by_cases here : put.1 = h <;> simp [Account.note, takenFor, here]

/-- What was put on each client's socket and what is left to send make up what
was queued. -/
def Balances (app : App) (entries : List Posting) : Prop :=
  ∀ h out, app.outOf h = some out → (accountOf h entries).put ++ out = (accountOf h entries).queued

/-- An operation keeps the accounts balanced. -/
theorem Outcome.balances {app app' : App} {events : List Event} {taken : List (Handle × Bytes)}
    (outcome : Outcome env app app' events taken) {entries : List Posting} (balanced : Balances app entries) :
    app'.Wired ∧ Balances app' (entries ++ events.flatMap (Event.entries env app) ++
      taken.map fun put => .put put.1 put.2) := by
  have charging : ∀ events', Charges env events' app app' → (∀ k, .accepted k ∉ events') →
      app'.Wired ∧ Balances app' (entries ++ events'.flatMap (Event.entries env app) ++ []) := by
    intro events' charged old
    refine ⟨charged.wired, fun h out held => ?_⟩
    rw [charged.grown] at held
    obtain ⟨earlier, stored, rfl⟩ := Option.map_eq_some_iff.mp held
    rw [List.append_nil, accountOf_append, account_events app events' old, ← List.append_assoc,
      balanced h earlier stored]
  cases outcome with
  | ordinary charged aside =>
    apply charging _ charged
    intro k member
    exact absurd (aside _ member) (by simp [Event.isNetwork])
  | confirms charged _ handled =>
    apply charging _ charged
    intro k member
    obtain early | late := List.mem_append.mp member
    · obtain ⟨_, _, same⟩ := handled _ early
      cases same
    · cases List.mem_singleton.mp late
  | sweeps swept closed =>
    refine ⟨swept.wired, fun h out held => ?_⟩
    have quiet : events.flatMap (render env h) = [] := by
      rw [List.flatMap_eq_nil_iff]
      intro e member
      obtain ⟨k, rfl⟩ := closed e member
      rfl
    have old : ∀ k, .accepted k ∉ events := by
      intro k member
      obtain ⟨_, same⟩ := closed _ member
      cases same
    rw [List.map_nil, List.append_nil, accountOf_append, account_events app events old, quiet,
      List.append_nil]
    exact balanced h out (swept.kept h out held)
  | @accepts fd wired entered =>
    refine ⟨wired, fun h out held => ?_⟩
    rw [App.outOf, entered, Function.update_apply] at held
    rw [List.map_nil, List.append_nil, accountOf_append]
    by_cases new : h = fd
    · rw [if_pos new] at held
      cases held
      simp [Event.entries, Account.note, new]
    · rw [if_neg new] at held
      simpa [Event.entries, Account.note, Ne.symm new] using balanced h out held
  | flushes flushed =>
    refine ⟨flushed.wired, fun h out held => ?_⟩
    have stored := flushed.whole h
    rw [held, Option.map_some] at stored
    rw [List.flatMap_nil, List.append_nil, accountOf_append, account_puts, List.append_assoc]
    exact balanced h _ stored

/-- A further call of `ac_server_send` keeps them balanced too. -/
theorem serverSend_balances {app app' : App} {k : Handle} {data : Bytes} (wired : app.Wired)
    {entries : List Posting} (balanced : Balances app entries) (ran : serverSend k data app = .ok app') :
    app'.Wired ∧ Balances app' (entries ++ [.queued k data]) := by
  have poured := serverSend_pours wired ran
  refine ⟨poured.wired, fun h out held => ?_⟩
  rw [poured.grown] at held
  obtain ⟨earlier, stored, rfl⟩ := Option.map_eq_some_iff.mp held
  have before := balanced h earlier stored
  rw [accountOf_append]
  by_cases here : k = h
  · simp [Account.note, here, ← before]
  · simp [Account.note, here, before]

end Balance

/-! ## Whole runs -/

section Runs
variable {listener : Handle} {now : Int} {tape : Tape}

theorem start_wired (listener : Handle) (now : Int) : (AuroraComms.start listener now).app.Wired := by
  obtain ⟨sound, empty⟩ : (Map.newReserve clientsMax : Map Handle Client).Sound handleHash handleEq ∧ _ :=
    Map.newReserve_sound (by decide)
  refine ⟨sound, fun h client known => ?_⟩
  exact nomatch (empty h).symm.trans known

theorem start_balances (listener : Handle) (now : Int) :
    Balances (AuroraComms.start listener now).app [] := by
  intro h out held
  obtain ⟨_, empty⟩ : (Map.newReserve clientsMax : Map Handle Client).Sound handleHash handleEq ∧ _ :=
    Map.newReserve_sound (by decide)
  have nobody : (AuroraComms.start listener now).app.outOf h = none :=
    congrArg (Option.map Client.outBuf) (empty h)
  rw [nobody] at held
  cases held

/-- The accounts of every run balance. -/
theorem run_balances (reached : Reaches Tape.step (fun _ _ => True) (Tape.start listener now) tape) :
    tape.sys.app.Wired ∧ Balances tape.sys.app tape.entries := by
  apply reached.invariant
  · exact ⟨start_wired listener now, start_balances listener now⟩
  · rintro call before after - ⟨wired, balanced⟩ ran
    cases call with
    | main env =>
      obtain ⟨sys', stepped, ran⟩ := bind_eq_ok.mp ran
      obtain ⟨taken, recorded, same⟩ := bind_eq_ok.mp ran
      cases same
      obtain ⟨events, trace, outcome⟩ := step_outcome wired stepped recorded
      dsimp only
      rw [trace, List.drop_left]
      exact outcome.balances balanced
    | send k data =>
      obtain ⟨app', sent, same⟩ := bind_eq_ok.mp ran
      cases same
      exact serverSend_balances wired balanced sent

/-- On every run, with any further calls of `ac_server_send` between the
operations of the program, whatever the sends of the polls took: what was put on
a client's socket since its accept, and then its out buffer, are the payloads
queued for it since, in order. -/
theorem output_accounted
    (reached : Reaches Tape.step (fun _ _ => True) (Tape.start listener now) tape) (h : Handle) (out : Bytes)
    (connected : tape.sys.app.outOf h = some out) :
    (accountOf h tape.entries).put ++ out = (accountOf h tape.entries).queued :=
  (run_balances reached).2 h out connected

/-- A payload of which the first poll takes two bytes. -/
theorem output_accounted_partly : ∃ tape : Tape,
    Reaches Tape.step (fun _ _ => True) (Tape.start 3 0) tape ∧
      tape.sys.app.outOf 4 = some (bytes "llo") ∧ (accountOf 4 tape.entries).put = bytes "he" ∧
      bytes "he" ++ bytes "llo" = (accountOf 4 tape.entries).queued := by
  let connects : Env := { Env.idle with poll := .ready true, accept := .socket 4 true true }
  let sends : Env := { Env.idle with send := fun _ _ => some 2 }
  have outcome : (drive Tape.step (fun _ _ => true) .assertion [.main connects, .main connects,
      .send 4 (bytes "hello"), .main sends, .main sends] (Tape.start 3 0)).map (fun tape =>
        (tape.sys.app.outOf 4, (accountOf 4 tape.entries).put)) =
      .ok (some (bytes "llo"), bytes "he") := by
    decide +kernel
  obtain ⟨tape, driven, outcome⟩ := map_eq_ok.mp outcome
  obtain ⟨left, put⟩ := Prod.mk.inj outcome
  have reached : Reaches Tape.step (fun _ _ => True) (Tape.start 3 0) tape :=
    drive_reaches (fun _ _ _ _ => trivial) driven
  refine ⟨tape, reached, left, put, ?_⟩
  rw [← put]
  exact output_accounted reached 4 _ left

end Runs

end AuroraComms
