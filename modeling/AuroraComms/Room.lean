import AuroraComms.Output
import Mathlib.Logic.Function.Basic

/-! The chat without its data structures: who is connected, who is a user, who
owns which name, and what one line does. The roster is the order in which the
loops over users find them; nothing else is left of the tables. -/
namespace AuroraComms
open Meta Library.Run

/-- A connection, less its output. -/
structure Conn where
  state : ClientState
  inBuf : Bytes
  deriving DecidableEq, Repr

structure Room where
  roster : List Handle
  conn : Handle → Option Conn
  user : Handle → Option User
  /-- The handle of the user a name is registered to. -/
  owner : Bytes → Option Handle

@[ext] theorem Room.ext {a b : Room} (roster : a.roster = b.roster) (conn : a.conn = b.conn)
    (user : a.user = b.user) (owner : a.owner = b.owner) : a = b := by
  cases a
  cases b
  simp_all

/-! ## Reading a command -/

/-- The first word after the prefix. -/
def commandWord (line : Bytes) : Bytes := (line.drop 1).takeWhile (!isSpace ·)

/-- What follows the first word. -/
def commandArgs (line : Bytes) : Bytes :=
  (((line.drop 1).dropWhile (!isSpace ·)).drop 1).dropWhile isSpace

def whisperTo (line : Bytes) : Bytes := (commandArgs line).takeWhile (!isSpace ·)

def whisperText (line : Bytes) : Bytes :=
  (((commandArgs line).dropWhile (!isSpace ·)).drop 1).dropWhile isSpace

def aliases : List (Bytes × Cmd) :=
  [(bytes "help", .help), (bytes "h", .help), (bytes "exit", .exit), (bytes "e", .exit),
    (bytes "quit", .exit), (bytes "q", .exit), (bytes "info", .info), (bytes "i", .info),
    (bytes "list", .list), (bytes "l", .list), (bytes "whisper", .whisper), (bytes "w", .whisper),
    (bytes "msg", .whisper), (bytes "m", .whisper)]

def commandOf (word : Bytes) : Option Cmd := (aliases.find? (·.1 == word)).map Prod.snd

/-- The next line of an input and what is left of it. -/
def nextLine (inBuf : Bytes) : Option (Bytes × Bytes) :=
  match getLine inBuf with
  | .ok result => result
  | .error _ => none

theorem getLine_eq_nextLine (inBuf : Bytes) : getLine inBuf = .ok (nextLine inBuf) := by
  obtain ⟨result, ran⟩ := getLine_total inBuf
  rw [nextLine, ran]

/-- The bytes a line took out of its input. -/
def takenFrom (inBuf rest : Bytes) : Bytes := inBuf.take (inBuf.length - rest.length)

theorem takenFrom_append (taken rest : Bytes) : takenFrom (taken ++ rest) rest = taken := by
  simp [takenFrom]

theorem nextLine_complete {raw newlines rest : Bytes} (plain : ∀ b ∈ raw, isNewline b = false)
    (ended : newlines ≠ []) (run : ∀ b ∈ newlines, isNewline b = true)
    (stops : ∀ b ∈ rest.head?, isNewline b = false) :
    nextLine (raw ++ newlines ++ rest) = some (sanitize raw, rest) := by
  rw [nextLine, getLine_complete plain ended run stops]

/-- There is a line as soon as a terminator has arrived. -/
theorem nextLine_none_iff (inBuf : Bytes) : nextLine inBuf = none ↔ ∀ b ∈ inBuf, isNewline b = false := by
  constructor
  · intro none
    rcases line_cases inBuf with plain | ⟨raw, newlines, rest, rfl, plain, ended, run, stops⟩
    · exact plain
    · rw [nextLine_complete plain ended run stops] at none
      cases none
  · intro plain
    rw [nextLine, getLine_unfinished plain]

/-- A line is what precedes a run of terminators, sanitized. -/
theorem nextLine_some {inBuf line rest : Bytes} (next : nextLine inBuf = some (line, rest)) :
    ∃ raw newlines, inBuf = raw ++ newlines ++ rest ∧ takenFrom inBuf rest = raw ++ newlines ∧
      (∀ b ∈ raw, isNewline b = false) ∧ newlines ≠ [] ∧ (∀ b ∈ newlines, isNewline b = true) ∧
      (∀ b ∈ rest.head?, isNewline b = false) ∧ line = sanitize raw := by
  rcases line_cases inBuf with plain | ⟨raw, newlines, after, rfl, plain, ended, run, stops⟩
  · rw [(nextLine_none_iff inBuf).mpr plain] at next
    cases next
  · rw [nextLine_complete plain ended run stops] at next
    cases next
    exact ⟨raw, newlines, rfl, takenFrom_append _ _, plain, ended, run, stops, rfl⟩

namespace Room

def setUser (room : Room) (user : User) : Room :=
  { room with user := Function.update room.user user.handle (some user) }

def setConn (room : Room) (h : Handle) (conn : Conn) : Room :=
  { room with conn := Function.update room.conn h (some conn) }

/-- Mark a connection for removal. -/
def flag (room : Room) (h : Handle) : Room :=
  { room with
    conn := Function.update room.conn h
      ((room.conn h).map fun conn => { conn with state := .toBeRemoved }) }

def inChat (room : Room) (h : Handle) : Bool :=
  (room.user h).any fun user => user.state == .chat

/-- A message to every user in the chat but one. -/
def toOthers (room : Room) (self : Handle) (msg : Msg) : List Event :=
  room.roster.flatMap fun h => if h ≠ self ∧ room.inChat h then frame h .interrupt msg else []

/-- The answer to a request for the list, which names every other user. -/
def listing (room : Room) (user : User) : List Event :=
  [.sent user.handle .listHeader, .sent user.handle (.listSelf user.username)] ++
    (room.roster.flatMap fun h => if h = user.handle then [] else
      (room.user h).toList.map fun other => .sent user.handle (.listOther other.username)) ++
    [.prompted user.handle]

def whisper (room : Room) (user : User) (line : Bytes) : List Event :=
  match (room.owner (whisperTo line)).bind room.user with
  | none => frame user.handle .afterEnter (.notFound (whisperTo line))
  | some other =>
    if other.state ≠ .chat then frame user.handle .afterEnter (.notInChat (whisperTo line))
    else if whisperText line = [] then frame user.handle .afterEnter .usage
    else frame other.handle .interrupt (.whisper user.username (whisperText line)) ++
      frame user.handle .afterEnter (.whisperAck other.username (whisperText line))

def command (days : Int) (room : Room) (user : User) (line : Bytes) : Room × List Event :=
  match commandOf (commandWord line) with
  | none => (room, frame user.handle .afterEnter .help)
  | some .help => (room, frame user.handle .afterEnter .help)
  | some .exit =>
    (room.setUser { user with state := .exit }, frame user.handle .afterEnter .confirmExit)
  | some .info => (room, frame user.handle .afterEnter (.info days room.roster.length))
  | some .list => (room, room.listing user)
  | some .whisper => (room, room.whisper user line)

/-- The room once a user has taken a name. -/
def join (room : Room) (user : User) : Room :=
  { room.setUser user with
    owner := Function.update room.owner user.username (some user.handle) }

/-- What a line does, by the state of the user it came from. -/
def speak (days : Int) (room : Room) (user : User) (line : Bytes) : Room × List Event :=
  match user.state with
  | .login =>
    if line = [] then (room, [.prompted user.handle])
    else if (room.owner line).isSome then (room, frame user.handle .afterEnter .taken)
    else if !validateUsername line then (room, frame user.handle .afterEnter .invalid)
    else
      let user := { user with state := .chat, username := user.username ++ line }
      let room := room.join user
      (room, frame user.handle .afterEnter (.welcome user.username) ++
        room.toOthers user.handle (.joins user.username))
  | .chat =>
    if line = [] then (room, [.prompted user.handle])
    else if isCommand line then room.command days user line
    else (room, room.toOthers user.handle (.chat user.username line) ++
      frame user.handle .afterEnter (.chatAck line))
  | .exit =>
    if stringEqIgnoreCase line (bytes "y") then
      (room.flag user.handle, [.goodbye user.handle])
    else
      (room.setUser { user with state := .chat },
        frame user.handle .afterEnter (.welcome user.username))

/-- One user's turn: at most one line of what it has sent. -/
def turn (days : Int) (room : Room) (h : Handle) : Room × List Event :=
  match room.user h, room.conn h with
  | some user, some conn =>
    match nextLine conn.inBuf with
    | none => (room, [])
    | some (line, rest) =>
      let (room, events) := speak days (room.setConn h { conn with inBuf := rest }) user line
      (room, .handled h (takenFrom conn.inBuf rest) line :: events)
  | _, _ => (room, [])

end Room

/-- The room a state of the program stands for. -/
def App.room (app : App) : Room where
  roster := app.fromHandle.keys
  conn h := (app.clientOf h).map fun client => ⟨client.state, client.inBuf⟩
  user h := (app.ptrOf h).bind app.userAt
  owner name := ((app.named name).bind app.userAt).map User.handle

end AuroraComms
