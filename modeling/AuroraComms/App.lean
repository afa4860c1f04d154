import AuroraComms.Meta.Map
import AuroraComms.Message
import Mathlib.Algebra.Ring.Int.Defs

/-! The state of the server (`net.h`, `app.h`). Users are separate objects that
two tables point to; a freed object stays in the heap as an empty cell, so a
dangling pointer is told from a live one. The keys of the name table are the
owners' own buffers, kept here by value, and a client's address text is left
out. The trace records what happens and is read by no function. -/
namespace AuroraComms
open Meta Library.Run

/-- `ac_client_handle_t` and `ac_socket_t`, the two sides of one union. -/
abbrev Handle := Int

/-- `ac_user_t *` -/
abbrev UserPtr := Nat

/-- `ac_handle_hash`: the cast of an `int` to `uint64_t`. -/
def handleHash (handle : Handle) : Nat := (handle % 2 ^ 64).toNat

/-- `ac_handle_eq` -/
def handleEq (a b : Handle) : Bool := decide (a = b)

/-- `AC_CLIENTS_MAX` -/
def clientsMax : Nat := 50

/-- `ac_client_state_t` -/
inductive ClientState where
  | new
  | online
  | toBeRemoved
  deriving DecidableEq, Repr

/-- `ac_client_t` -/
structure Client where
  handle : Handle
  state : ClientState
  inBuf : Bytes
  outBuf : Bytes
  deriving DecidableEq, Repr

/-- `ac_state_t` -/
inductive State where
  | login
  | chat
  | exit
  deriving DecidableEq, Repr

/-- `ac_user_t` -/
structure User where
  handle : Handle
  state : State
  username : Bytes
  deriving DecidableEq, Repr

/-- `ac_print_type_t` -/
inductive Print where
  | afterEnter
  | interrupt
  deriving DecidableEq, Repr

inductive Event where
  /-- A client is entered into the table of clients. -/
  | accepted (handle : Handle)
  | received (handle : Handle) (data : Bytes)
  | hungUp (handle : Handle)
  /-- The bytes a call of `ac_get_line` consumed, and the line it made of them. -/
  | handled (handle : Handle) (taken line : Bytes)
  | printed (handle : Handle) (action : Print) (msg : Msg)
  | sent (handle : Handle) (msg : Msg)
  | prompted (handle : Handle)
  /-- A user confirmed its exit. -/
  | goodbye (handle : Handle)
  | userNew (handle : Handle)
  | userRemoved (handle : Handle)
  | closed (handle : Handle)
  deriving DecidableEq, Repr

/-- `ac_server_t` -/
structure Server where
  listener : Handle
  clients : Map Handle Client
  deriving DecidableEq, Repr

/-- `ac_app_t`, the heap of user objects and the trace. -/
structure App where
  server : Server
  fromHandle : Map Handle UserPtr
  fromUsername : Map Bytes UserPtr
  heap : List (Option User)
  appStartTime : Int
  trace : List Event
  deriving DecidableEq, Repr

/-! ## The environment -/

/-- What `poll` reports; `ready` tells whether the listener has an event. -/
inductive PollResult where
  | error
  | timeout
  | ready (listener : Bool)
  deriving DecidableEq, Repr

/-- `accept` and the calls that follow it on a new socket. -/
inductive AcceptResult where
  | failed
  | socket (fd : Handle) (nonblocking ntop : Bool)
  deriving DecidableEq, Repr

/-- `recv`: nothing to read yet, an error, or this many bytes (none at the end
of the stream). -/
inductive RecvResult where
  | again
  | error
  | data (bytes : Bytes)
  deriving DecidableEq, Repr

/-- One round of answers from the system. -/
structure Env where
  /-- A freed bucket's length word reads as zero. -/
  quiet : Bool
  /-- What lies in memory past the formatting buffer. -/
  beyond : Nat → UInt8
  /-- `time(NULL)` -/
  now : Int
  poll : PollResult
  accept : AcceptResult
  /-- Sockets with `POLLIN` among their returned events. -/
  pollin : Handle → Bool
  recv : Handle → RecvResult
  /-- `send` of these bytes: how many it takes, or nothing for `-1`. A signal that ends
  the process is no answer: `SIGPIPE`, which the program leaves as it is, is taken to
  be ignored. -/
  send : Handle → Bytes → Option Nat

/-- Nothing happens, and freed memory reads as zero. -/
def Env.idle : Env where
  quiet := true
  beyond _ := 0
  now := 0
  poll := .timeout
  accept := .failed
  pollin _ := false
  recv _ := .again
  send _ _ := none

/-! ## Access -/

namespace App

def clients (app : App) : Map Handle Client := app.server.clients

def setClients (app : App) (clients : Map Handle Client) : App :=
  { app with server := { app.server with clients := clients } }

def note (app : App) (event : Event) : App := { app with trace := app.trace ++ [event] }

/-- `*client` -/
def client (app : App) (s : Slot) : Except Fault Client := app.clients.val s

def setClient (app : App) (s : Slot) (client : Client) : Except Fault App := do
  return app.setClients (← app.clients.setVal s client)

/-- `*user` -/
def user (app : App) (p : UserPtr) : Except Fault User :=
  match app.heap[p]? with
  | some (some user) => .ok user
  | _ => .error .useAfterFree

def setUser (app : App) (p : UserPtr) (user : User) : Except Fault App := do
  let _ ← app.user p
  return { app with heap := app.heap.set p (some user) }

/-- `malloc(sizeof(ac_user_t))`, filled in. -/
def allocUser (app : App) (user : User) : UserPtr × App :=
  (app.heap.length, { app with heap := app.heap ++ [some user] })

/-- `ac_user_free` and `free`. -/
def freeUser (app : App) (p : UserPtr) : Except Fault App :=
  match app.heap[p]? with
  | some (some _) => .ok { app with heap := app.heap.set p none }
  | _ => .error .doubleFree

/-- `ac_app_new` and `ac_server_new`, at time `now`. -/
def new (listener : Handle) (now : Int) : App where
  server := ⟨listener, Map.newReserve clientsMax⟩
  fromHandle := Map.newReserve clientsMax
  fromUsername := Map.newReserve clientsMax
  heap := []
  appStartTime := now
  trace := []

end App
end AuroraComms
