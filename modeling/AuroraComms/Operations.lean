import AuroraComms.Outflow

/-! One operation of the main loop, by what it runs. Every invariant of a run
starts from these cases. -/
namespace AuroraComms
open Meta Library.Run

/-- The client whose turn the next operation is, if it is anyone's. -/
def Sys.actor (env : Env) (sys : Sys) : Except Fault (Option Handle) := do
  match sys.point with
  | .users i j =>
    match ← sys.app.fromHandle.turn env.quiet i j with
    | .body s =>
      let user ← sys.app.user (← sys.app.fromHandle.val s)
      return some user.handle
    | _ => return none
  | .clients i j =>
    match ← sys.app.clients.turn env.quiet i j with
    | .body s =>
      let client ← sys.app.client s
      return some client.handle
    | _ => return none
  | _ => return none

/-- What an operation runs, by where the program stands. -/
inductive Work (env : Env) (sys : Sys) : Sys → Prop where
  | still {point : Point} (elsewhere : sys.point ≠ .flush) (nobody : sys.actor env = .ok none) :
    Work env sys ⟨sys.app, point⟩
  | sweeps {polled : List Handle} {app : App} {point : Point} (here : sys.point = .sweep)
    (ran : sweep env sys.app = .ok (polled, app)) : Work env sys ⟨app, point⟩
  | connects {polled : List Handle} {app : App} {point : Point} (here : sys.point = .wait polled)
    (ran : handleConn env sys.app = .ok app) : Work env sys ⟨app, point⟩
  | receives {fd : Handle} {rest : List Handle} {app : App} {point : Point}
    (here : sys.point = .receive (fd :: rest)) (ran : receiveOne env fd sys.app = .ok app) :
    Work env sys ⟨app, point⟩
  | flushes {app : App} {point : Point} (here : sys.point = .flush) (ran : flush env sys.app = .ok app) :
    Work env sys ⟨app, point⟩
  | user {i j : Nat} {s : Slot} {app : App} {point : Point} (here : sys.point = .users i j)
    (turned : sys.app.fromHandle.turn env.quiet i j = .ok (.body s))
    (ran : updateUser env s sys.app = .ok app) : Work env sys ⟨app, point⟩
  | client {i j : Nat} {s : Slot} {app : App} {point : Point} (here : sys.point = .clients i j)
    (turned : sys.app.clients.turn env.quiet i j = .ok (.body s))
    (ran : updateClient env s sys.app = .ok app) : Work env sys ⟨app, point⟩

/-- Every operation that succeeds runs one of these. -/
theorem step_work {env : Env} {sys sys' : Sys} (ran : step env sys = .ok sys') : Work env sys sys' := by
  obtain ⟨app, point⟩ := sys
  cases point with
  | sweep =>
    obtain ⟨⟨polled, swept⟩, sweeping, same⟩ := bind_eq_ok.mp ran
    cases same
    exact .sweeps rfl sweeping
  | wait polled =>
    cases polling : env.poll with
    | error => simp only [step, polling] at ran; cases ran; exact .still (by simp) rfl
    | timeout => simp only [step, polling] at ran; cases ran; exact .still (by simp) rfl
    | ready listener =>
      simp only [step, polling] at ran
      obtain ⟨connected, connecting, same⟩ := bind_eq_ok.mp ran
      cases same
      cases listener with
      | false =>
        cases connecting
        exact .still (by simp) rfl
      | true => exact .connects rfl connecting
  | receive todo =>
    cases todo with
    | nil => cases ran; exact .still (by simp) rfl
    | cons fd rest =>
      obtain ⟨received, receiving, same⟩ := bind_eq_ok.mp ran
      cases same
      exact .receives rfl receiving
  | flush =>
    obtain ⟨flushed, flushing, same⟩ := bind_eq_ok.mp ran
    cases same
    exact .flushes rfl flushing
  | users i j =>
    obtain ⟨next, turned, ran⟩ := bind_eq_ok.mp ran
    change app.fromHandle.turn env.quiet i j = .ok next at turned
    cases next with
    | done => cases ran; exact .still (by simp) (by simp [Sys.actor, turned])
    | nextBkt => cases ran; exact .still (by simp) (by simp [Sys.actor, turned])
    | body s =>
      obtain ⟨updated, updating, same⟩ := bind_eq_ok.mp ran
      cases same
      exact .user rfl turned updating
  | clients i j =>
    obtain ⟨next, turned, ran⟩ := bind_eq_ok.mp ran
    change app.clients.turn env.quiet i j = .ok next at turned
    cases next with
    | done => cases ran; exact .still (by simp) (by simp [Sys.actor, turned])
    | nextBkt => cases ran; exact .still (by simp) (by simp [Sys.actor, turned])
    | body s =>
      obtain ⟨updated, updating, same⟩ := bind_eq_ok.mp ran
      cases same
      exact .client rfl turned updating
  | exited => cases ran; exact .still (by simp) rfl

/-- What an operation does, and for whom. -/
inductive Operation (env : Env) (sys : Sys) : Option Handle → Sys → Prop where
  | still {point : Point} (elsewhere : sys.point ≠ .flush) : Operation env sys none ⟨sys.app, point⟩
  | sweeps {polled : List Handle} {app : App} {point : Point} (elsewhere : sys.point ≠ .flush)
    (ran : sweep env sys.app = .ok (polled, app)) : Operation env sys none ⟨app, point⟩
  | connects {polled : List Handle} {app : App} {point : Point} (waiting : sys.point = .wait polled)
    (ran : handleConn env sys.app = .ok app) : Operation env sys none ⟨app, point⟩
  | receives {fd : Handle} {app : App} {point : Point} (elsewhere : sys.point ≠ .flush)
    (ran : receiveOne env fd sys.app = .ok app) : Operation env sys none ⟨app, point⟩
  | flushes {app : App} {point : Point} (flushing : sys.point = .flush) (ran : flush env sys.app = .ok app) :
    Operation env sys none ⟨app, point⟩
  | speaks {p : UserPtr} {user : User} {app : App} {point : Point} (elsewhere : sys.point ≠ .flush)
    (loaded : sys.app.user p = .ok user) (path : Effects env user.handle sys.app app) :
    Operation env sys (some user.handle) ⟨app, point⟩
  | confirms {p : UserPtr} {user : User} {app : App} {point : Point} (elsewhere : sys.point ≠ .flush)
    (loaded : sys.app.user p = .ok user) (confirms : Confirms p user.handle sys.app app) :
    Operation env sys (some user.handle) ⟨app, point⟩
  | renews {i j : Nat} {s : Slot} {client : Client} {app : App} {point : Point} (elsewhere : sys.point ≠ .flush)
    (turned : sys.app.clients.turn env.quiet i j = .ok (.body s)) (loaded : sys.app.client s = .ok client)
    (path : Effects env client.handle sys.app app) : Operation env sys (some client.handle) ⟨app, point⟩

/-- Every operation that succeeds is one of these. -/
theorem step_operation {env : Env} {sys sys' : Sys} (ran : step env sys = .ok sys') :
    ∃ actor, sys.actor env = .ok actor ∧ Operation env sys actor sys' := by
  cases step_work ran with
  | still elsewhere nobody => exact ⟨none, nobody, .still elsewhere⟩
  | sweeps here sweeping => exact ⟨none, by simp [Sys.actor, here], .sweeps (by simp [here]) sweeping⟩
  | connects here connecting => exact ⟨none, by simp [Sys.actor, here], .connects here connecting⟩
  | receives here receiving => exact ⟨none, by simp [Sys.actor, here], .receives (by simp [here]) receiving⟩
  | flushes here flushing => exact ⟨none, by simp [Sys.actor, here], .flushes here flushing⟩
  | user here turned updating =>
    have elsewhere : sys.point ≠ .flush := by simp [here]
    obtain ⟨p, user, pointed, loaded, path | confirms⟩ := updateUser_effects updating
    · exact ⟨some user.handle, by simp [Sys.actor, here, turned, pointed, loaded],
        .speaks elsewhere loaded path⟩
    · exact ⟨some user.handle, by simp [Sys.actor, here, turned, pointed, loaded],
        .confirms elsewhere loaded confirms⟩
  | client here turned updating =>
    obtain ⟨client, loaded, path⟩ := updateClient_effects updating
    exact ⟨some client.handle, by simp [Sys.actor, here, turned, loaded],
      .renews (by simp [here]) turned loaded path⟩

end AuroraComms
