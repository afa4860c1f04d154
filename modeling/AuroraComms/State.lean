import AuroraComms.Print
import AuroraComms.Line

/-! The states of a user (`state.c`) and the commands of the chat (`io.c`). -/
namespace AuroraComms
open Meta Library.Run

/-- Days of uptime, by integer division and cast to `int`. -/
def uptimeDays (env : Env) (app : App) : Int := ((env.now - app.appStartTime).tdiv 86400).bmod (2 ^ 32)

/-- `ac_state_new` -/
def stateNew (env : Env) (p : UserPtr) (app : App) : Except Fault App := do
  let user ← app.user p
  match user.state with
  | .login => printFmt env p .afterEnter (.greeting app.fromHandle.len (uptimeDays env app)) app
  | .chat => printFmt env p .afterEnter (.welcome user.username) app
  | .exit => printFmt env p .afterEnter .confirmExit app

/-- `ac_state_switch`; `ac_state_free` does nothing in any state. -/
def stateSwitch (env : Env) (p : UserPtr) (state : State) (app : App) : Except Fault App := do
  let user ← app.user p
  let app ← app.setUser p { user with state := state }
  stateNew env p app

/-- One turn of the loops that print to every other user in the chat. -/
def broadcastTurn (env : Env) (p : UserPtr) (msg : User → Msg) (s : Slot) (app : App) :
    Except Fault App := do
  let e ← app.fromHandle.entry s
  let user ← app.user p
  if user.handle = e.key then return app
  else
    let other ← app.user e.val
    if other.state = .chat then printFmt env e.val .interrupt (msg user) app else return app

def broadcast (env : Env) (p : UserPtr) (msg : User → Msg) (app : App) : Except Fault App :=
  Map.foreach env.quiet App.fromHandle (broadcastTurn env p msg) app

/-- A letter, a digit or an underscore. -/
def isNameChar (c : UInt8) : Bool :=
  (97 ≤ c && c ≤ 122) || (65 ≤ c && c ≤ 90) || (48 ≤ c && c ≤ 57) || c == 95

/-- `ac_validate_username` -/
def validateUsername (username : Bytes) : Bool :=
  if username.length < 2 || username.length > 16 then false else username.all isNameChar

/-- What `ac_server_remove_client` sends. -/
def goodbyeText : Bytes := crlf ++ bytes "Goodbye!" ++ crlf

/-- `ac_server_remove_client`. It ignores what `send` returns, and so does the state;
what the socket takes of the goodbye is `Env.takes`. -/
def serverRemoveClient (handle : Handle) (app : App) : Except Fault App := do
  let s ← app.clients.get handleHash handleEq handle
  let client ← app.client s
  let app := app.note (.goodbye handle)
  app.setClient s { client with state := .toBeRemoved }

/-! ## Commands -/

/-- `ac_cmd_t` -/
inductive Cmd where
  | help
  | exit
  | info
  | list
  | whisper
  deriving DecidableEq, Repr

/-- `ac_init_aliases` -/
def initAliases (aliases : List String) (cmd : Cmd) (commands : Map Bytes Cmd) :
    Except Fault (Map Bytes Cmd) :=
  aliases.foldlM (fun commands word => commands.set stringHash stringEq (bytes word) cmd) commands

/-- `ac_init_commands` -/
def initCommands : Except Fault (Map Bytes Cmd) := do
  let commands ← initAliases ["help", "h"] .help (Map.newReserve 16)
  let commands ← initAliases ["exit", "e", "quit", "q"] .exit commands
  let commands ← initAliases ["info", "i"] .info commands
  let commands ← initAliases ["list", "l"] .list commands
  initAliases ["whisper", "w", "msg", "m"] .whisper commands

/-- `ac_is_command` -/
def isCommand (line : Bytes) : Bool := line.head? == some 47

/-- A loop that moves an index over the bytes that satisfy a test. -/
def scanWhile (test : UInt8 → Bool) (line : Bytes) (i : Nat) : Nat :=
  i + ((line.drop i).takeWhile test).length

/-- Subtraction in `size_t`. -/
def sizeSub (a b : Nat) : Nat := if b ≤ a then a - b else a + 2 ^ 64 - b

/-- A new array of the `n` bytes from `line + start` on. -/
def slice (line : Bytes) (start n : Nat) : Except Fault Bytes :=
  if n = 0 then .ok []
  else if start + n ≤ line.length then .ok ((line.drop start).take n)
  else .error .outOfBounds

/-- `ac_handle_help_cmd` -/
def handleHelpCmd (env : Env) (p : UserPtr) (app : App) : Except Fault App :=
  printFmt env p .afterEnter .help app

/-- One turn of the loop of `AC_CMD_LIST`. It tests the state of the user who
asked, not of the user about to be listed. -/
def listTurn (env : Env) (p : UserPtr) (s : Slot) (app : App) : Except Fault App := do
  let e ← app.fromHandle.entry s
  let user ← app.user p
  if user.handle = e.key then return app
  else if user.state ≠ .chat then return app
  else
    let other ← app.user e.val
    sendFmt env p (.listOther other.username) app

/-- `AC_CMD_LIST` -/
def handleListCmd (env : Env) (p : UserPtr) (app : App) : Except Fault App := do
  let app ← sendFmt env p .listHeader app
  let user ← app.user p
  let app ← sendFmt env p (.listSelf user.username) app
  let app ← Map.foreach env.quiet App.fromHandle (listTurn env p) app
  prompt p app

/-- `AC_CMD_WHISPER` -/
def handleWhisperCmd (env : Env) (p : UserPtr) (line : Bytes) (cmdEnd : Nat) (app : App) :
    Except Fault App := do
  let recipientStart := scanWhile isSpace line (cmdEnd + 1)
  let recipientEnd := scanWhile (!isSpace ·) line recipientStart
  let recipient ← slice line recipientStart (sizeSub recipientEnd recipientStart)
  match ← app.fromUsername.getMaybeNull stringHash stringEq recipient with
  | none => printFmt env p .afterEnter (.notFound recipient) app
  | some s =>
    let otherUser ← app.fromUsername.val s
    let other ← app.user otherUser
    if other.state ≠ .chat then printFmt env p .afterEnter (.notInChat recipient) app
    else
      let msgStart := scanWhile isSpace line (recipientEnd + 1)
      if msgStart ≥ line.length then printFmt env p .afterEnter .usage app
      else
        let msg ← slice line msgStart (sizeSub line.length msgStart)
        let user ← app.user p
        let app ← printFmt env otherUser .interrupt (.whisper user.username msg) app
        let other ← app.user otherUser
        printFmt env p .afterEnter (.whisperAck other.username msg) app

/-- `ac_handle_command` -/
def handleCommand (env : Env) (p : UserPtr) (line : Bytes) (app : App) : Except Fault App := do
  if !isCommand line then throw .assertion
  else if line.length = 1 then handleHelpCmd env p app
  else
    let cmdEnd := scanWhile (!isSpace ·) line 1
    let cmdStr ← slice line 1 (sizeSub cmdEnd 1)
    let commands ← initCommands
    match ← commands.getMaybeNull stringHash stringEq cmdStr with
    | none => handleHelpCmd env p app
    | some s =>
      match ← commands.val s with
      | .help => handleHelpCmd env p app
      | .exit => stateSwitch env p .exit app
      | .info =>
        printFmt env p .afterEnter (.info (uptimeDays env app) app.fromHandle.len) app
      | .list => handleListCmd env p app
      | .whisper => handleWhisperCmd env p line cmdEnd app

/-! ## Lines -/

/-- `ac_get_line` on the in buffer of the client at a slot. -/
def takeLine (s : Slot) (app : App) : Except Fault (Option Bytes × App) := do
  let client ← app.client s
  match ← getLine client.inBuf with
  | none => return (none, app)
  | some (line, rest) =>
    let taken := client.inBuf.take (client.inBuf.length - rest.length)
    let app := app.note (.handled client.handle taken line)
    return (some line, ← app.setClient s { client with inBuf := rest })

/-- `AC_STATE_LOGIN` of `ac_state_update` -/
def loginLine (env : Env) (p : UserPtr) (line : Bytes) (app : App) : Except Fault App := do
  if line.length = 0 then prompt p app
  else if ← app.fromUsername.contains stringHash stringEq line then
    printFmt env p .afterEnter .taken app
  else if !validateUsername line then printFmt env p .afterEnter .invalid app
  else
    let user ← app.user p
    let username := user.username ++ line
    let app ← app.setUser p { user with username := username }
    let fromUsername ← app.fromUsername.set stringHash stringEq username p
    let app ← stateSwitch env p .chat { app with fromUsername := fromUsername }
    broadcast env p (fun user => .joins user.username) app

/-- `AC_STATE_CHAT` of `ac_state_update` -/
def chatLine (env : Env) (p : UserPtr) (line : Bytes) (app : App) : Except Fault App := do
  if line.length = 0 then prompt p app
  else if isCommand line then handleCommand env p line app
  else
    let app ← broadcast env p (fun user => .chat user.username line) app
    printFmt env p .afterEnter (.chatAck line) app

/-- `AC_STATE_EXIT` of `ac_state_update` -/
def exitLine (env : Env) (p : UserPtr) (line : Bytes) (app : App) : Except Fault App := do
  if stringEqIgnoreCase line (bytes "y") then
    let user ← app.user p
    serverRemoveClient user.handle app
  else stateSwitch env p .chat app

/-- `ac_state_update`; `s` is the client whose in buffer it is given. -/
def stateUpdate (env : Env) (p : UserPtr) (s : Slot) (app : App) : Except Fault App := do
  let user ← app.user p
  let (line, app) ← takeLine s app
  match line with
  | none => return app
  | some line =>
    match user.state with
    | .login => loginLine env p line app
    | .chat => chatLine env p line app
    | .exit => exitLine env p line app

end AuroraComms
