import AuroraComms.State

/-! The application's half of the main loop (`app.c`): every user handles at
most one line, then users are created for new clients and removed with the
clients that go. -/
namespace AuroraComms
open Meta Library.Run

/-- `ac_user_new` for a user object just allocated at `p`. -/
def userNew (env : Env) (handle : Handle) (app : App) : Except Fault (UserPtr × App) := do
  let (p, app) := app.allocUser { handle := handle, state := .login, username := [] }
  return (p, ← stateNew env p app)

/-- The body of the first loop of `ac_app_update`. -/
def updateUser (env : Env) (s : Slot) (app : App) : Except Fault App := do
  let p ← app.fromHandle.val s
  let user ← app.user p
  let client ← app.clients.get handleHash handleEq user.handle
  stateUpdate env p client app

/-- The branch that creates a user for a new client. -/
def createUser (env : Env) (handle : Handle) (app : App) : Except Fault App := do
  let (p, app) ← userNew env handle app
  let user ← app.user p
  let fromHandle ← app.fromHandle.set handleHash handleEq user.handle p
  return { app with fromHandle := fromHandle }.note (.userNew user.handle)

/-- `*user` of the removing branch. The pointer leads into the bucket the entry
was found in, and is followed again at every use. -/
def staleUser (s : Slot) (app : App) : Except Fault User := do
  app.user (← app.fromHandle.val s)

/-- Release of the name of a user that goes, if it is registered. -/
def dropUsername (s : Slot) (app : App) : Except Fault App := do
  let user ← staleUser s app
  if ← app.fromUsername.contains stringHash stringEq user.username then
    let user ← staleUser s app
    let fromUsername ← app.fromUsername.remove stringHash stringEq user.username
    return { app with fromUsername := fromUsername }
  else return app

/-- One turn of the loop that announces the departure. -/
def farewellTurn (env : Env) (gone : Slot) (s : Slot) (app : App) : Except Fault App := do
  let otherUser ← app.fromHandle.val s
  let other ← app.user otherUser
  if other.state = .chat then
    let user ← staleUser gone app
    printFmt env otherUser .interrupt (.left user.username) app
  else return app

/-- The branch that removes the user of a client about to go. -/
def removeUser (env : Env) (handle : Handle) (app : App) : Except Fault App := do
  let s ← app.fromHandle.get handleHash handleEq handle
  let user ← staleUser s app
  let fromHandle ← app.fromHandle.remove handleHash handleEq user.handle
  let app := { app with fromHandle := fromHandle }.note (.userRemoved user.handle)
  let app ← dropUsername s app
  let app ← Map.foreach env.quiet App.fromHandle (farewellTurn env s) app
  app.freeUser (← app.fromHandle.val s)

/-- The body of the second loop of `ac_app_update`. -/
def updateClient (env : Env) (s : Slot) (app : App) : Except Fault App := do
  let client ← app.client s
  match client.state with
  | .new => createUser env client.handle app
  | .toBeRemoved => removeUser env client.handle app
  | .online => return app

/-- `ac_app_update` -/
def appUpdate (env : Env) (app : App) : Except Fault App := do
  let app ← Map.foreach env.quiet App.fromHandle (updateUser env) app
  Map.foreach env.quiet App.clients (updateClient env) app

end AuroraComms
