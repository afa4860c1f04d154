import AuroraComms.Departure

/-! A message in the out buffer of its recipient. The length of a formatted
text is that of the full text, whatever part of it the array holds, so a text
comes out whole only when it fits. -/
namespace AuroraComms
open Meta Library.Run

/-- A printed text as its recipient should get it. -/
def framed (action : Print) (text : Bytes) : Bytes :=
  (if action = .interrupt then crlf else []) ++ text ++ crlf ++ bytes ">"

theorem framed_inj {action : Print} {text text' : Bytes} :
    framed action text = framed action text' ↔ text = text' := by
  simp [framed]

/-- A printed message reaches its recipient in a frame, and no one else. -/
theorem frame_render (env : Env) (h k : Handle) (action : Print) (msg : Msg) :
    (frame k action msg).flatMap (render env h) =
      if k = h then framed action (formatted env msg.text) else [] := by
  by_cases here : k = h <;> simp [frame, render, framed, here]

section Framing
variable (env : Env) (app : App) (p : UserPtr) (user : User) (client : Client)

/-- The state after a function that appends these bytes to the out buffer of
the user's client, and to no other. -/
def Appends (function : App → Except Fault App) (data : Bytes) : Prop :=
  ∃ app', function app = .ok app' ∧
    app'.clientOf = Function.update app.clientOf user.handle (some (client.push data))

variable {env app p user client}

/-- Output to one user is what its events render to. -/
private theorem appends_iff {function : App → Except Fault App} {events : List Event} {app' : App}
    (connected : app.clientOf user.handle = some client) (ran : function app = .ok app')
    (emitted : Emits env events app app')
    (alone : ∀ h, h ≠ user.handle → events.flatMap (render env h) = []) (data : Bytes) :
    Appends app user client function data ↔ events.flatMap (render env user.handle) = data := by
  constructor
  · rintro ⟨other, same, updated⟩
    rw [ran] at same
    cases same
    have own := emitted.clientOf user.handle
    rw [updated, Function.update_self, connected, Option.map_some, Option.some.injEq] at own
    have buffers := congrArg Client.outBuf own
    simp only [Client.push, List.append_cancel_left_eq] at buffers
    exact buffers.symm
  · intro rendered
    refine ⟨app', ran, funext fun h => ?_⟩
    rw [emitted.clientOf, Function.update_apply]
    split
    · rename_i same
      rw [same, connected, rendered]
      rfl
    · rename_i other
      rw [alone h other]
      cases app.clientOf h <;> simp [Client.push]

variable (env)

theorem printFmt_whole_iff (laid : app.Laid) (live : app.userAt p = some user)
    (connected : app.clientOf user.handle = some client) (action : Print) (msg : Msg) :
    Appends app user client (printFmt env p action msg) (framed action msg.text) ↔
      msg.text.length < formatCap := by
  obtain ⟨app', ran, emitted⟩ := printFmt_emits env laid live (by rw [connected]; rfl) action msg
  have alone : ∀ h, h ≠ user.handle → (frame user.handle action msg).flatMap (render env h) = [] := by
    intro h other
    simp [frame, render, Ne.symm other]
  have own : (frame user.handle action msg).flatMap (render env user.handle) =
      framed action (formatted env msg.text) := by
    simp [frame, render, framed]
  rw [appends_iff connected ran emitted alone, own, framed_inj, formatted_eq_iff]

theorem sendFmt_whole_iff (laid : app.Laid) (live : app.userAt p = some user)
    (connected : app.clientOf user.handle = some client) (msg : Msg) :
    Appends app user client (sendFmt env p msg) msg.text ↔ msg.text.length < formatCap := by
  obtain ⟨app', ran, emitted⟩ := sendFmt_emits env laid live (by rw [connected]; rfl) msg
  have alone : ∀ h, h ≠ user.handle →
      [Event.sent user.handle msg].flatMap (render env h) = [] := by
    intro h other
    simp [render, Ne.symm other]
  have own : [Event.sent user.handle msg].flatMap (render env user.handle) =
      formatted env msg.text := by
    simp [render]
  rw [appends_iff connected ran emitted alone, own, formatted_eq_iff]

/-- A message is printed whole in its frame, or sent whole, if and only if its
text leaves room for the NUL in the formatting array; no other text has an
array length within the characters that were written. -/
theorem output_whole_iff_fits (env : Env) (app : App) (laid : app.Laid) (p : UserPtr) (user : User)
    (live : app.userAt p = some user) (client : Client)
    (connected : app.clientOf user.handle = some client) (msg : Msg) :
    (∀ action, Appends app user client (printFmt env p action msg) (framed action msg.text) ↔
      msg.text.length < formatCap) ∧
    (Appends app user client (sendFmt env p msg) msg.text ↔ msg.text.length < formatCap) ∧
    ((formatted env msg.text).length ≤ (msg.text.take (formatCap - 1)).length ↔
      msg.text.length < formatCap) := by
  refine ⟨fun action => printFmt_whole_iff env laid live connected action msg,
    sendFmt_whole_iff env laid live connected msg, ?_⟩
  rw [formatted_length, List.length_take, formatCap]
  omega

end Framing

/-- The acknowledgement of a chat line of 1017 bytes is one byte too long. -/
theorem long_line_cut : ∃ app, twoUsers 4 5 = .ok app ∧ app.Laid ∧
    app.userAt 1 = some ⟨5, .login, []⟩ ∧ app.clientOf 5 = some ⟨5, .online, [], []⟩ ∧
    ¬ Appends app ⟨5, .login, []⟩ ⟨5, .online, [], []⟩
      (printFmt .idle 1 .afterEnter (.chatAck (List.replicate 1017 97)))
      (framed .afterEnter (Msg.chatAck (List.replicate 1017 97)).text) := by
  obtain ⟨app, built, formed, _⟩ := twoUsers_formed (show (4 : Handle) ≠ 5 by decide)
  have state : (twoUsers 4 5).map (fun app => (app.userAt 1, app.clientOf 5)) =
      .ok (some ⟨5, .login, []⟩, some ⟨5, .online, [], []⟩) := by
    decide +kernel
  rw [built] at state
  obtain ⟨live, connected⟩ := Prod.mk.inj (Except.ok.inj state)
  refine ⟨app, built, formed.toLaid, live, connected, ?_⟩
  rw [printFmt_whole_iff .idle formed.toLaid live connected]
  decide +kernel

/-- A short line comes out whole. -/
theorem short_line_whole : ∃ app, twoUsers 4 5 = .ok app ∧
    Appends app ⟨5, .login, []⟩ ⟨5, .online, [], []⟩ (printFmt .idle 1 .interrupt (.chat [97, 98] [104]))
      (framed .interrupt (bytes "[ab]: h")) := by
  obtain ⟨app, built, formed, _⟩ := twoUsers_formed (show (4 : Handle) ≠ 5 by decide)
  have state : (twoUsers 4 5).map (fun app => (app.userAt 1, app.clientOf 5)) =
      .ok (some ⟨5, .login, []⟩, some ⟨5, .online, [], []⟩) := by
    decide +kernel
  rw [built] at state
  obtain ⟨live, connected⟩ := Prod.mk.inj (Except.ok.inj state)
  exact ⟨app, built, ((output_whole_iff_fits .idle app formed.toLaid 1 _ live _ connected
    (.chat [97, 98] [104])).1 .interrupt).mpr (by decide)⟩

end AuroraComms
