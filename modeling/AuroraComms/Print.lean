import AuroraComms.App

/-! Output to a client (`io.c`, and `ac_server_send` of `net.c`). A formatted
text goes through an array of 1024 bytes whose length is then taken from the
return value of `vsnprintf`. -/
namespace AuroraComms
open Meta Library.Run

/-- `ac_server_send` -/
def serverSend (handle : Handle) (data : Bytes) (app : App) : Except Fault App := do
  let s ← app.clients.get handleHash handleEq handle
  let client ← app.client s
  app.setClient s { client with outBuf := client.outBuf ++ data }

/-- The capacity of `out` in `ac_send_fmt` and `ac_print_fmt`. -/
def formatCap : Nat := 1024

/-- The bytes an array has in front of its length when `vsnprintf` wrote the
text into its capacity and returned the length of the full text: what was
written, its NUL, and whatever lies behind. -/
def formatted (env : Env) (text : Bytes) : Bytes :=
  (text.take (formatCap - 1) ++ [0] ++
    (List.range (text.length - formatCap)).map env.beyond).take text.length

/-- `ac_send_fmt`, and `ac_send` -/
def sendFmt (env : Env) (p : UserPtr) (msg : Msg) (app : App) : Except Fault App := do
  let user ← app.user p
  let app := app.note (.sent user.handle msg)
  serverSend user.handle (formatted env msg.text) app

/-- `ac_prompt` -/
def prompt (p : UserPtr) (app : App) : Except Fault App := do
  let user ← app.user p
  let app := app.note (.prompted user.handle)
  serverSend user.handle (bytes ">") app

/-- The leading newline of `ac_print_fmt`. -/
def leadingNl (handle : Handle) : Print → App → Except Fault App
  | .interrupt, app => serverSend handle crlf app
  | .afterEnter, app => return app

/-- `ac_print_fmt`, and `ac_print` -/
def printFmt (env : Env) (p : UserPtr) (action : Print) (msg : Msg) (app : App) :
    Except Fault App := do
  let user ← app.user p
  let app ← leadingNl user.handle action app
  let app := app.note (.printed user.handle action msg)
  let app ← serverSend user.handle (formatted env msg.text) app
  let app ← serverSend user.handle crlf app
  prompt p app

/-! ## The formatting buffer -/

theorem formatted_length (env : Env) (text : Bytes) : (formatted env text).length = text.length := by
  simp only [formatted, formatCap, List.length_take, List.length_append, List.length_singleton,
    List.length_map, List.length_range]
  omega

/-- A text that fits comes out whole. -/
theorem formatted_of_fits (env : Env) {text : Bytes} (fits : text.length < formatCap) :
    formatted env text = text := by
  have whole : text.take (formatCap - 1) = text := List.take_of_length_le (by omega)
  rw [formatted, whole, List.append_assoc, List.take_left]

/-- A text that does not fit comes out with its NUL in the middle. -/
theorem nul_mem_formatted (env : Env) {text : Bytes} (long : formatCap ≤ text.length) :
    0 ∈ formatted env text := by
  apply List.mem_of_getElem? (i := formatCap - 1)
  unfold formatCap at long
  have front : (text.take (formatCap - 1)).length = formatCap - 1 := by
    rw [List.length_take, formatCap]; omega
  rw [formatted, List.getElem?_take, if_pos (by rw [formatCap]; omega), List.append_assoc,
    List.getElem?_append_right (by rw [front]), front, Nat.sub_self]
  rfl

theorem formatted_eq_iff (env : Env) (msg : Msg) :
    formatted env msg.text = msg.text ↔ msg.text.length < formatCap := by
  constructor
  · intro whole
    by_contra long
    have inside := nul_mem_formatted env (Nat.le_of_not_lt long)
    rw [whole] at inside
    exact msg.text_no_nul inside
  · exact formatted_of_fits env

end AuroraComms
