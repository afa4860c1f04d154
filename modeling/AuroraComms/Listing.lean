import AuroraComms.Delivery
import Mathlib.Data.List.Flatten
import Mathlib.Data.List.Perm.Subperm

/-! The answer to `/list`. The loop tests the state of the user who asked, so
everyone in the table is listed. -/
namespace AuroraComms
open Meta Library.Run

/-- The line that lists a user. -/
def listLine (env : Env) (room : Room) (k : Handle) : Bytes :=
  (room.user k).elim [] fun other => formatted env (Msg.listOther other.username).text

/-- The bytes of an answer that lists these users. -/
def listText (env : Env) (room : Room) (user : User) (others : List Handle) : Bytes :=
  formatted env Msg.listHeader.text ++ formatted env (Msg.listSelf user.username).text ++
    others.flatMap (listLine env room) ++ bytes ">"

/-- The answer that a user should get: its own name, and each other user in the
chat once, in whatever order. -/
def Lists (env : Env) (user : User) (app app' : App) : Prop :=
  ∃ others : List Handle, others.Nodup ∧
    (∀ k, k ∈ others ↔ k ≠ user.handle ∧ app.room.inChat k = true) ∧
    app'.outOf user.handle = (app.outOf user.handle).map (· ++ listText env app.room user others)

section Lines
variable {env : Env} {room : Room} {user : User}

theorem listLine_nonempty {k : Handle} {other : User} (known : room.user k = some other) :
    0 < (listLine env room k).length := by
  rw [listLine, known, Option.elim_some, formatted_length]
  simp [Msg.text, bytes]

/-- More users make a longer text. -/
theorem lines_length {few many : List Handle} (once : few.Nodup) (inside : few ⊆ many) :
    (few.flatMap (listLine env room)).length ≤ (many.flatMap (listLine env room)).length := by
  obtain ⟨middle, same, part⟩ := List.subperm_of_subset once inside
  rw [← (same.flatMap_right (listLine env room)).length_eq]
  exact (part.flatMap (listLine env room)).length_le

/-- Everyone else in the table. -/
def Room.others (room : Room) (self : Handle) : List Handle := room.roster.filter fun k => k ≠ self

theorem listing_render :
    (room.listing user).flatMap (render env user.handle) = listText env room user (room.others user.handle) := by
  have lines : ∀ roster : List Handle, (roster.flatMap fun h => if h = user.handle then [] else
      (room.user h).toList.map fun other => .sent user.handle (.listOther other.username)).flatMap
        (render env user.handle) =
      (roster.filter fun k => k ≠ user.handle).flatMap (listLine env room) := by
    intro roster
    induction roster with
    | nil => rfl
    | cons h rest ih =>
      rw [List.flatMap_cons, List.flatMap_append, ih, List.filter_cons]
      by_cases own : h = user.handle
      · simp [own]
      · cases known : room.user h <;> simp [own, listLine, known, render]
  simp only [Room.listing, List.flatMap_append, lines]
  simp [listText, Room.others, render]

end Lines

section Turns
variable {env : Env} {app app' : App} {h : Handle} {user : User}

/-- The users of the table. -/
theorem mem_others (sound : app.Sound) {k : Handle} :
    k ∈ app.room.others user.handle ↔ (app.room.user k).isSome ∧ k ≠ user.handle := by
  rw [Room.others, List.mem_filter, decide_eq_true_eq]
  refine and_congr_left fun _ => ?_
  rw [mem_roster sound.toLaid, user_isSome sound.toLaid]

/-- A text that lists everyone lists the chat if and only if everyone is in it. -/
theorem lists_iff (sound : app.Sound) (connected : (app.outOf user.handle).isSome)
    (answered : app'.outOf user.handle = (app.outOf user.handle).map
      (· ++ listText env app.room user (app.room.others user.handle))) :
    Lists env user app app' ↔
      ∀ k other, app.room.user k = some other → k ≠ user.handle → other.state = .chat := by
  have inChat : ∀ k other, app.room.user k = some other → (app.room.inChat k = true ↔ other.state = .chat) := by
    intro k other known
    rw [Room.inChat, known]
    simp
  constructor
  · rintro ⟨others, once, all, listed⟩ k other known apart
    by_contra outside
    obtain ⟨out, held⟩ := Option.isSome_iff_exists.mp connected
    rw [answered, held, Option.map_some, Option.map_some, Option.some.injEq, List.append_cancel_left_eq] at listed
    simp only [listText, List.append_cancel_right_eq, List.append_cancel_left_eq] at listed
    have absent : k ∉ others := fun member =>
      outside ((inChat k other known).mp ((all k).mp member).2)
    have inside : k :: others ⊆ app.room.others user.handle := by
      intro j member
      rw [mem_others sound]
      obtain rfl | member := List.mem_cons.mp member
      · exact ⟨Option.isSome_iff_exists.mpr ⟨other, known⟩, apart⟩
      · obtain ⟨there, chatting⟩ := (all j).mp member
        refine ⟨?_, there⟩
        rw [Room.inChat] at chatting
        exact Option.isSome_of_any chatting
    have longer : ((k :: others).flatMap (listLine env app.room)).length ≤ _ :=
      lines_length (List.nodup_cons.mpr ⟨absent, once⟩) inside
    have line : 0 < (listLine env app.room k).length := listLine_nonempty known
    rw [listed, List.flatMap_cons, List.length_append] at longer
    omega
  · intro everyone
    refine ⟨app.room.others user.handle, (room_rolled sound).once.filter _, fun k => ?_, answered⟩
    rw [mem_others sound]
    constructor
    · rintro ⟨there, apart⟩
      obtain ⟨other, known⟩ := Option.isSome_iff_exists.mp there
      exact ⟨apart, (inChat k other known).mpr (everyone k other known apart)⟩
    · rintro ⟨apart, chatting⟩
      rw [Room.inChat] at chatting
      exact ⟨Option.isSome_of_any chatting, apart⟩

/-- What the request adds to the output of who asked. -/
theorem list_turn (sound : app.Sound) (seated : app.Seated)
    (readable : Map.Readable env.quiet app.fromHandle) {s : Slot} (at_h : app.fromHandle.keyAt s = some h)
    (known : app.room.user h = some user) (chatting : user.state = .chat) {client : Client}
    (stored : app.clientOf h = some client) {line rest : Bytes}
    (next : nextLine client.inBuf = some (line, rest)) (command : isCommand line = true)
    (list : commandOf (commandWord line) = some .list) :
    ∃ app', updateUser env s app = .ok app' ∧ app'.outOf user.handle = (app.outOf user.handle).map
      (· ++ listText env app.room user (app.room.others user.handle)) := by
  obtain ⟨app', ran, _, charged⟩ := updateUser_charges sound seated readable at_h
  refine ⟨app', ran, ?_⟩
  obtain ⟨_, _, _, rfl⟩ := room_user_eq_some sound.toLaid known
  let room := app.room.setConn user.handle ⟨client.state, rest⟩
  have nonempty : line ≠ [] := by
    rintro rfl
    cases command
  have answer : room.speak (uptimeDays env app) user line = (room, room.listing user) := by
    simp [Room.speak, chatting, nonempty, command, Room.command, list]
  rw [turn_of_line known stored next, answer] at charged
  have listed : (room.listing user).flatMap (render env user.handle) = listText env app.room user _ :=
    listing_render
  have grown : app'.outOf user.handle = (app.outOf user.handle).map
      (· ++ (room.listing user).flatMap (render env user.handle)) := charged.grown user.handle
  rw [grown, listed]
  rfl

/-- In every sound state in which every user is connected and the loops visit
each entry once, a user in the chat that asks for the list gets what it should if
and only if every other user in the table is in the chat. -/
theorem list_names_chat_iff (sound : app.Sound) (seated : app.Seated)
    (readable : Map.Readable env.quiet app.fromHandle) {s : Slot} (at_h : app.fromHandle.keyAt s = some h)
    (known : app.room.user h = some user) (chatting : user.state = .chat) {client : Client}
    (stored : app.clientOf h = some client) {line rest : Bytes}
    (next : nextLine client.inBuf = some (line, rest)) (command : isCommand line = true)
    (list : commandOf (commandWord line) = some .list) :
    ∃ app', updateUser env s app = .ok app' ∧ (Lists env user app app' ↔
      ∀ k other, app.room.user k = some other → k ≠ user.handle → other.state = .chat) := by
  obtain ⟨app', ran, answered⟩ := list_turn sound seated readable at_h known chatting stored next command list
  obtain ⟨_, _, _, rfl⟩ := room_user_eq_some sound.toLaid known
  have connected : (app.outOf user.handle).isSome := by
    rw [App.outOf, stored]
    rfl
  exact ⟨app', ran, lists_iff sound connected answered⟩

/-- Two users in the chat, one of whom asks for the list. -/
private def meets : List (Nat × Env) :=
  [(107, .connects 4), (109, .brings 4 (bytes "amy\n")), (110, .connects 5),
    (111, .brings 5 (bytes "bob\n")), (13, .brings 5 (bytes "/list\n"))]

private theorem meets_unsent : ∀ env ∈ rounds meets, ∀ h data, env.send h data = none :=
  rounds_unsent ⟨fun _ _ => rfl, fun _ _ => rfl, fun _ _ => rfl, fun _ _ => rfl, fun _ _ => rfl⟩

/-- It gets what it should. -/
theorem list_names_chat_iff_both : ∃ app app' : App,
    app.room.user 4 = some ⟨4, .chat, bytes "amy"⟩ ∧
      updateUser (.brings 5 (bytes "/list\n")) ⟨5, 0⟩ app = .ok app' ∧
      Lists (.brings 5 (bytes "/list\n")) ⟨5, .chat, bytes "bob"⟩ app app' := by
  have outcome : (drive step separate .assertion (rounds meets) (start 3 0)).map (fun sys =>
      (decide (sys.app.fromHandle.keyAt ⟨5, 0⟩ = some 5 ∧ Map.Readable false sys.app.fromHandle ∧
          sys.app.room.roster = [4, 5] ∧ sys.app.room.user 4 = some ⟨4, .chat, bytes "amy"⟩ ∧
          sys.app.room.user 5 = some ⟨5, .chat, bytes "bob"⟩),
        (sys.app.clientOf 5).bind fun client => nextLine client.inBuf)) =
      .ok (true, some (bytes "/list", [])) := by
    decide +kernel
  obtain ⟨sys, driven, outcome⟩ := map_eq_ok.mp outcome
  obtain ⟨ready, outcome⟩ := Prod.mk.inj outcome
  obtain ⟨client, stored, next⟩ := Option.bind_eq_some_iff.mp outcome
  obtain ⟨at_h, readable, roster, other, known⟩ := of_decide_eq_true ready
  have good := run_good (reaches_of_drive meets_unsent driven) (fun _ _ => Separate.orderly) (start_good 3 0)
  obtain ⟨app', ran, iff⟩ : ∃ app', updateUser (.brings 5 (bytes "/list\n")) ⟨5, 0⟩ sys.app = .ok app' ∧ _ :=
    list_names_chat_iff good.sound (good.sound.seated good.inv.linked) readable at_h known rfl stored next
      (by decide) (by decide)
  refine ⟨sys.app, app', other, ran, iff.mpr fun k user there apart => ?_⟩
  have listed : k ∈ sys.app.room.roster := by
    rw [mem_roster good.sound.toLaid, ← user_isSome good.sound.toLaid, there]
    rfl
  rw [roster, List.mem_pair] at listed
  obtain rfl | rfl := listed
  · rw [other] at there
    cases there
    rfl
  · exact absurd rfl apart

/-- A user in the chat asks for the list, while another client is at the login. -/
private def asks : List (Nat × Env) :=
  [(107, .connects 4), (109, .brings 4 (bytes "amy\n")), (110, .connects 5), (10, .brings 4 (bytes "/list\n"))]

private theorem asks_unsent : ∀ env ∈ rounds asks, ∀ h data, env.send h data = none :=
  rounds_unsent ⟨fun _ _ => rfl, fun _ _ => rfl, fun _ _ => rfl, fun _ _ => rfl⟩

/-- It gets a line without a name. -/
theorem nameless_listed : ∃ (sys : Sys) (app' : App) (out : Bytes),
    Reaches step Separate (start 3 0) sys ∧ sys.app.room.user 4 = some ⟨4, .chat, bytes "amy"⟩ ∧
      sys.app.room.user 5 = some ⟨5, .login, []⟩ ∧
      updateUser (.brings 4 (bytes "/list\n")) ⟨4, 0⟩ sys.app = .ok app' ∧ sys.app.outOf 4 = some out ∧
      app'.outOf 4 = some (out ++ bytes "Online users:\r\n - amy (You)\r\n - \r\n>") ∧
      ¬ Lists (.brings 4 (bytes "/list\n")) ⟨4, .chat, bytes "amy"⟩ sys.app app' := by
  have outcome : (drive step separate .assertion (rounds asks) (start 3 0)).map (fun sys =>
      (decide (sys.app.fromHandle.keyAt ⟨4, 0⟩ = some 4 ∧ Map.Readable false sys.app.fromHandle ∧
          sys.app.room.roster = [4, 5] ∧ sys.app.room.user 4 = some ⟨4, .chat, bytes "amy"⟩ ∧
          sys.app.room.user 5 = some ⟨5, .login, []⟩),
        (sys.app.clientOf 4).bind fun client => nextLine client.inBuf)) =
      .ok (true, some (bytes "/list", [])) := by
    decide +kernel
  obtain ⟨sys, driven, outcome⟩ := map_eq_ok.mp outcome
  obtain ⟨ready, outcome⟩ := Prod.mk.inj outcome
  obtain ⟨client, stored, next⟩ := Option.bind_eq_some_iff.mp outcome
  obtain ⟨at_h, readable, roster, known, nameless⟩ := of_decide_eq_true ready
  have reached : Reaches step Separate (start 3 0) sys := reaches_of_drive asks_unsent driven
  have good := run_good reached (fun _ _ => Separate.orderly) (start_good 3 0)
  have held : sys.app.outOf 4 = some client.outBuf := congrArg (Option.map Client.outBuf) stored
  obtain ⟨app', ran, answered⟩ : ∃ app', updateUser (.brings 4 (bytes "/list\n")) ⟨4, 0⟩ sys.app = .ok app' ∧ _ :=
    list_turn good.sound (good.sound.seated good.inv.linked) readable at_h known rfl stored next (by decide)
      (by decide)
  refine ⟨sys, app', client.outBuf, reached, known, nameless, ran, held, ?_, fun lists => ?_⟩
  · have line : listLine (.brings 4 (bytes "/list\n")) sys.app.room 5 = bytes " - \r\n" := by
      rw [listLine, nameless]
      rfl
    have only : sys.app.room.others 4 = [5] := by
      rw [Room.others, roster]
      rfl
    rw [answered, held, only, listText, List.flatMap_singleton, line]
    rfl
  · have everyone := (lists_iff good.sound (by rw [held]; rfl) answered).mp lists
    cases everyone 5 _ nameless (by decide)

end Turns

end AuroraComms
