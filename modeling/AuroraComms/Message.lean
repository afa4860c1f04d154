import AuroraComms.Str
import Mathlib.Data.List.TakeWhile

/-! Every text the server formats, with its variable parts. The constants are
those of the source; `%.*s` stops at a NUL as well as at its precision, so no
formatted text contains one. -/
namespace AuroraComms

inductive Msg where
  /-- `ac_state_new` for a user at the login: users online, days of uptime. -/
  | greeting (users : Nat) (days : Int)
  | welcome (username : Bytes)
  | confirmExit
  | taken
  | invalid
  | joins (username : Bytes)
  | left (username : Bytes)
  | chat (username line : Bytes)
  | chatAck (line : Bytes)
  | help
  | info (days : Int) (users : Nat)
  | listHeader
  | listSelf (username : Bytes)
  | listOther (username : Bytes)
  | notFound (recipient : Bytes)
  | notInChat (recipient : Bytes)
  | usage
  | whisper (username msg : Bytes)
  | whisperAck (username msg : Bytes)
  deriving DecidableEq, Repr

def crlf : Bytes := [13, 10]

/-- `%s` and `%.*s` -/
def cstr (s : Bytes) : Bytes := s.takeWhile (· != 0)

/-- `%d` -/
def decimal : Int → Bytes
  | .ofNat n => (Nat.toDigits 10 n).map fun c => UInt8.ofNat c.toNat
  | .negSucc n => 45 :: (Nat.toDigits 10 (n + 1)).map fun c => UInt8.ofNat c.toNat

/-- `snprintf` into an array of `size` chars, read back as a C string. -/
def snprintf (size : Nat) (text : Bytes) : Bytes := text.take (size - 1)

/-- `uptime[16]` -/
def uptime (days : Int) : Bytes := snprintf 16 (decimal days ++ bytes " days")

/-- `user_count_msg[64]` -/
def userCount (users : Nat) : Bytes :=
  if users = 1 then snprintf 64 (bytes "There is currently 1 user online.")
  else snprintf 64 (bytes "There are currently " ++ decimal users ++ bytes " users online.")

/-- The complete formatted text. -/
def Msg.text : Msg → Bytes
  | .greeting users days =>
    bytes "[ AuroraComms - Multi-User Communications Server ]\r\n" ++ cstr (userCount users) ++
      bytes "\r\nServer uptime: " ++ cstr (uptime days) ++
      bytes "\r\n\r\nEnter a username between 2-16 characters long.\r\n" ++
      bytes "It may include letters, numbers and underscores."
  | .welcome username => bytes "You may now chat with others, " ++ cstr username ++ bytes "!"
  | .confirmExit => bytes "Are you sure you want to exit? (y/n)"
  | .taken => bytes "Username is taken. Please choose another one."
  | .invalid =>
    bytes "Username must be between 2-16 characters long and may only contain letters, " ++
      bytes "numbers, and underscores. Please try again."
  | .joins username => cstr username ++ bytes " joins the chat!"
  | .left username => cstr username ++ bytes " has left the chat."
  | .chat username line => bytes "[" ++ cstr username ++ bytes "]: " ++ cstr line
  | .chatAck line => bytes "[You]: " ++ cstr line
  | .help =>
    bytes "Available commands:\n - help (h): Show this help message.\n" ++
      bytes " - exit (e / quit / q): Exit AuroraComms.\n" ++
      bytes " - info (i): Show server information.\n - list (l): List online users.\n" ++
      bytes " - whisper (w / msg / m): Send a private message."
  | .info days users =>
    bytes "AuroraComms Server\n - Uptime: " ++ cstr (uptime days) ++
      bytes "\n - Connected users: " ++ decimal users
  | .listHeader => bytes "Online users:\r\n"
  | .listSelf username => bytes " - " ++ cstr username ++ bytes " (You)\r\n"
  | .listOther username => bytes " - " ++ cstr username ++ bytes "\r\n"
  | .notFound recipient => bytes "User '" ++ cstr recipient ++ bytes "' not found."
  | .notInChat recipient => bytes "User '" ++ cstr recipient ++ bytes "' is not in the chat."
  | .usage => bytes "Usage: /whisper <username> <message>"
  | .whisper username msg => bytes "[" ++ cstr username ++ bytes " -> You]: " ++ cstr msg
  | .whisperAck username msg => bytes "[You -> " ++ cstr username ++ bytes "]: " ++ cstr msg

theorem cstr_no_nul (s : Bytes) : 0 ∉ cstr s := by
  intro member
  have kept := List.mem_takeWhile_imp member
  simp at kept

private theorem decimal_no_nul (n : Int) : 0 ∉ decimal n := by
  have digits : ∀ n, (0 : UInt8) ∉ (Nat.toDigits 10 n).map fun c => UInt8.ofNat c.toNat := by
    intro n member
    obtain ⟨c, inside, zero⟩ := List.mem_map.mp member
    have digit := Nat.isDigit_of_mem_toDigits (by decide) (by decide) inside
    simp only [Char.isDigit, Bool.and_eq_true, decide_eq_true_eq, UInt32.le_iff_toNat_le] at digit
    have value := congrArg UInt8.toNat zero
    have low : ('0').val.toNat = 48 := rfl
    have high : ('9').val.toNat = 57 := rfl
    have code : c.toNat = c.val.toNat := rfl
    simp only [UInt8.toNat_ofNat', UInt8.toNat_zero] at value
    omega
  cases n with
  | ofNat n => exact digits n
  | negSucc n =>
    intro member
    rcases List.mem_cons.mp member with sign | digit
    · cases sign
    · exact digits (n + 1) digit

/-- A formatted text is a C string: the NUL `vsnprintf` adds is its only one. -/
theorem Msg.text_no_nul (msg : Msg) : 0 ∉ msg.text := by
  have fields := cstr_no_nul
  have numbers := decimal_no_nul
  cases msg <;> simp only [Msg.text, List.mem_append, not_or, fields, numbers, not_false_eq_true,
    and_true, true_and] <;> decide +kernel

end AuroraComms
