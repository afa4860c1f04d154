import AuroraComms.Simulation

/-! What the users in the chat see of each other. A line of the chat goes to every
other user and comes back to its author as an acknowledgement; joins and leaves go
to everyone. Whoever stays in the chat sees the same of it, in the same order. -/
namespace AuroraComms
open Meta Library.Run Library.Protocol

/-- A user in the chat under a name. -/
def Room.Attends (room : Room) (o : Handle) (name : Bytes) : Prop :=
  ∃ user, room.user o = some user ∧ user.state = .chat ∧ user.username = name

instance (room : Room) (o : Handle) (name : Bytes) : Decidable (room.Attends o name) :=
  decidable_of_iff ((room.user o).any (fun user => user.state == .chat && user.username == name) = true) (by
    simp [Room.Attends, Option.any_eq_true])

/-- The public part of what is shown to a user. Its own lines are acknowledged. -/
def Msg.publicly (name : Bytes) : Print → Msg → Option Msg
  | .interrupt, .joins other => some (.joins other)
  | .interrupt, .left other => some (.left other)
  | .interrupt, .chat other line => some (.chat other line)
  | .afterEnter, .chatAck line => some (.chat name line)
  | _, _ => none

def Event.follows (o : Handle) (name : Bytes) : Event → Option Msg
  | .printed h action msg => if h = o then msg.publicly name action else none
  | _ => none

/-- The conversation as a user sees it. -/
def conversation (o : Handle) (name : Bytes) (events : List Event) : List Msg :=
  events.filterMap (Event.follows o name)

/-- The line of an acknowledgement. -/
def Event.acknowledged : Event → Option Bytes
  | .printed _ .afterEnter (.chatAck line) => some line
  | _ => none

/-- The line of a message of the chat. -/
def Msg.line : Msg → Option Bytes
  | .chat _ line => some line
  | _ => none

/-- An event that is no part of the conversation. -/
def Event.isPrivate : Event → Bool
  | .printed _ _ (.joins _) | .printed _ _ (.left _) => false
  | .printed _ _ (.chat ..) | .printed _ _ (.chatAck _) => false
  | _ => true

section Views
variable {o : Handle} {name : Bytes} {events : List Event}

theorem private_unseen (unseen : ∀ e ∈ events, e.isPrivate = true) :
    (∀ o name, conversation o name events = []) ∧ events.filterMap Event.acknowledged = [] := by
  refine ⟨fun o name => List.filterMap_eq_nil_iff.mpr fun e member => ?_,
    List.filterMap_eq_nil_iff.mpr fun e member => ?_⟩
  · have hidden := unseen e member
    cases e with
    | printed h action msg =>
      have nothing : msg.publicly name action = none := by
        cases msg <;> cases action <;> first | rfl | cases hidden
      rw [Event.follows, nothing, ite_self]
    | _ => rfl
  · have hidden := unseen e member
    cases e with
    | printed h action msg => cases msg <;> cases action <;> first | rfl | cases hidden
    | _ => rfl

theorem frame_private (h : Handle) (action : Print) {msg : Msg}
    (hidden : (Event.printed h action msg).isPrivate = true) :
    ∀ e ∈ frame h action msg, e.isPrivate = true := by
  intro e member
  simp only [frame, List.mem_cons, List.not_mem_nil, or_false] at member
  rcases member with rfl | rfl
  · exact hidden
  · rfl

theorem conversation_append (more : List Event) :
    conversation o name (events ++ more) = conversation o name events ++ conversation o name more :=
  List.filterMap_append

theorem conversation_frame (h : Handle) (action : Print) (msg : Msg) :
    conversation o name (frame h action msg) = if h = o then (msg.publicly name action).toList else [] := by
  by_cases mine : h = o
  · cases seen : msg.publicly name action <;>
      simp [conversation, frame, Event.follows, List.filterMap_cons, mine, seen]
  · simp [conversation, frame, Event.follows, mine]

/-- A message to some of the users is seen once by each of them. -/
theorem conversation_frames {roster : List Handle} (once : roster.Nodup) (chosen : Handle → Prop)
    [DecidablePred chosen] (msg : Msg) :
    conversation o name (roster.flatMap fun h => if chosen h then frame h .interrupt msg else []) =
      if o ∈ roster ∧ chosen o then (msg.publicly name .interrupt).toList else [] := by
  induction roster with
  | nil => rfl
  | cons k rest ih =>
    obtain ⟨absent, onceRest⟩ := List.nodup_cons.mp once
    have rest_seen := ih onceRest
    rw [List.flatMap_cons, conversation_append, rest_seen]
    by_cases mine : k = o
    · subst mine
      by_cases picked : chosen k
      · simp [absent, picked, conversation_frame]
      · simp [absent, picked, conversation]
    · have apart : conversation o name (if chosen k then frame k .interrupt msg else []) = [] := by
        split
        · rw [conversation_frame, if_neg mine]
        · rfl
      rw [apart, List.nil_append]
      simp [Ne.symm mine]

end Views

/-! ## Turns -/

namespace Room

variable {room : Room} {user : User} {line : Bytes}

theorem listing_private (room : Room) (user : User) : ∀ e ∈ room.listing user, e.isPrivate = true := by
  intro e member
  simp only [listing, List.mem_append, List.mem_cons, List.mem_flatMap, List.not_mem_nil, or_false] at member
  rcases member with ((rfl | rfl) | ⟨k, _, inside⟩) | rfl
  · rfl
  · rfl
  · split at inside
    · cases inside
    · obtain ⟨other, _, rfl⟩ := List.mem_map.mp inside
      rfl
  · rfl

theorem whisper_private (room : Room) (user : User) (line : Bytes) :
    ∀ e ∈ room.whisper user line, e.isPrivate = true := by
  unfold whisper
  cases (room.owner (whisperTo line)).bind room.user with
  | none => exact frame_private _ _ rfl
  | some other =>
    intro e member
    simp only at member
    split at member
    · exact frame_private _ _ rfl e member
    · split at member
      · exact frame_private _ _ rfl e member
      · rcases List.mem_append.mp member with inside | inside
        · exact frame_private _ _ rfl e inside
        · exact frame_private _ _ rfl e inside

/-- Commands are between a user and the server, or between two users. -/
theorem command_private (days : Int) (room : Room) (user : User) (line : Bytes) :
    ∀ e ∈ (room.command days user line).2, e.isPrivate = true := by
  unfold command
  cases commandOf (commandWord line) with
  | none => exact frame_private _ _ rfl
  | some cmd =>
    cases cmd with
    | help | exit | info => exact frame_private _ _ rfl
    | list => exact room.listing_private user
    | whisper => exact room.whisper_private user line

/-- Only answers acknowledge. -/
theorem toOthers_unacknowledged (room : Room) (self : Handle) (msg : Msg) :
    (room.toOthers self msg).filterMap Event.acknowledged = [] := by
  refine List.filterMap_eq_nil_iff.mpr fun e member => ?_
  obtain ⟨k, _, _, inside⟩ := mem_frames (fun h => h ≠ self ∧ room.inChat h = true) member
  simp only [frame, List.mem_cons, List.not_mem_nil, or_false] at inside
  rcases inside with rfl | rfl <;> rfl

theorem Attends.inChat {o : Handle} {name : Bytes} (attends : room.Attends o name) : room.inChat o = true := by
  obtain ⟨other, known, chatting, _⟩ := attends
  rw [Room.inChat, known]
  exact beq_iff_eq.mpr chatting

theorem Attends.listed {o : Handle} {name : Bytes} (attends : room.Attends o name) (linked : room.Linked) :
    o ∈ room.roster := by
  obtain ⟨other, known, _⟩ := attends
  exact (linked.listed o).mpr (Option.isSome_iff_exists.mpr ⟨other, known⟩)

/-- A message to all others is seen by all others. -/
theorem conversation_toOthers {o self : Handle} {name : Bytes} (msg : Msg) (linked : room.Linked)
    (attends : room.Attends o name) : conversation o name (room.toOthers self msg) =
      if o = self then [] else (msg.publicly name .interrupt).toList := by
  refine (conversation_frames linked.once (fun h => h ≠ self ∧ room.inChat h = true) msg).trans ?_
  simp [attends.listed linked, attends.inChat]

/-- What a line adds to the conversation, if anything. -/
def Publishes (room : Room) (events : List Event) : Prop :=
  ∃ record : List Msg, record.filterMap Msg.line = events.filterMap Event.acknowledged ∧
    ∀ o name, room.Attends o name → conversation o name events = record

theorem publishes_nothing {events : List Event} (unseen : ∀ e ∈ events, e.isPrivate = true) :
    room.Publishes events :=
  ⟨[], (private_unseen unseen).2.symm, fun o name _ => (private_unseen unseen).1 o name⟩

private theorem join_publishes (here : room.user user.handle = some user) (entering : user.state = .login)
    {name : Bytes} (linked : (room.join { user with state := .chat, username := name }).Linked) :
    room.Publishes (frame user.handle .afterEnter (.welcome name) ++
      (room.join { user with state := .chat, username := name }).toOthers user.handle (.joins name)) := by
  refine ⟨[.joins name], ?_, fun o own attends => ?_⟩
  · rw [List.filterMap_append, toOthers_unacknowledged]
    rfl
  · have apart : o ≠ user.handle := by
      rintro rfl
      obtain ⟨other, known, chatting, _⟩ := attends
      rw [here] at known
      cases known
      exact nomatch entering.symm.trans chatting
    have still : (room.join { user with state := .chat, username := name }).Attends o own := by
      obtain ⟨other, known, rest⟩ := attends
      exact ⟨other, (Function.update_of_ne apart _ _).trans known, rest⟩
    rw [conversation_append, conversation_frame, conversation_toOthers _ linked still, if_neg apart,
      if_neg (Ne.symm apart)]
    rfl

private theorem chat_publishes (linked : room.Linked) (here : room.user user.handle = some user)
    (line : Bytes) :
    room.Publishes (room.toOthers user.handle (.chat user.username line) ++
      frame user.handle .afterEnter (.chatAck line)) := by
  refine ⟨[.chat user.username line], ?_, fun o own attends => ?_⟩
  · rw [List.filterMap_append, toOthers_unacknowledged]
    rfl
  · rw [conversation_append, conversation_frame, conversation_toOthers _ linked attends]
    by_cases mine : o = user.handle
    · -- The author's own copy is its acknowledgement.
      subst mine
      obtain ⟨other, known, _, rfl⟩ := attends
      rw [here] at known
      cases known
      rw [if_pos rfl, if_pos rfl]
      rfl
    · rw [if_neg mine, if_neg (Ne.symm mine)]
      rfl

/-- What a line adds to the conversation: a join, a line of the chat, or nothing. -/
theorem speak_publishes (days : Int) (linked : room.Linked) (here : room.user user.handle = some user)
    (line : Bytes) : room.Publishes (room.speak days user line).2 := by
  unfold speak
  cases state : user.state with
  | login =>
    by_cases blank : line = []
    · simpa [blank] using publishes_nothing (by simp [Event.isPrivate])
    · by_cases taken : (room.owner line).isSome
      · simpa [blank, taken] using publishes_nothing (frame_private user.handle .afterEnter rfl)
      · by_cases valid : validateUsername line = true
        · have free : room.owner line = none := by simpa using taken
          have joined := (Becomes.joins state blank free valid).linked linked here
          simpa [blank, free, valid] using join_publishes here state joined
        · simpa [blank, taken, valid] using publishes_nothing (frame_private user.handle .afterEnter rfl)
  | chat =>
    by_cases blank : line = []
    · simpa [blank] using publishes_nothing (by simp [Event.isPrivate])
    · by_cases command : isCommand line = true
      · simpa [blank, command] using publishes_nothing (command_private days room user line)
      · simpa [blank, command] using chat_publishes linked here line
  | exit =>
    by_cases yes : stringEqIgnoreCase line (bytes "y") = true
    · simpa [yes] using publishes_nothing (by simp [Event.isPrivate])
    · simpa [yes] using publishes_nothing (frame_private user.handle .afterEnter rfl)

/-- What a turn adds to the conversation. -/
theorem turn_publishes (days : Int) (linked : room.Linked) (h : Handle) :
    room.Publishes (room.turn days h).2 := by
  rcases room.turn_cases days h with ⟨_, same⟩ | ⟨user, conn, line, rest, known, connected, _, took⟩
  · rw [same]
    exact publishes_nothing (List.forall_mem_nil _)
  · have own := linked.keyed h user known
    have still : (room.setConn h { conn with inBuf := rest }).Linked := by
      refine ⟨linked.once, linked.listed, linked.keyed, fun k seated => ?_⟩
      change (Function.update room.conn h _ k).isSome = true
      by_cases mine : k = h
      · rw [mine, Function.update_self]
        rfl
      · rw [Function.update_of_ne mine]
        exact linked.seated k seated
    have here : (room.setConn h { conn with inBuf := rest }).user user.handle = some user := by
      rw [own]
      exact known
    obtain ⟨record, lines, seen⟩ := speak_publishes days still here line
    rw [took]
    exact ⟨record, lines, fun o name attends => seen o name attends⟩

end Room

/-! ## Runs -/

/-- What a step adds to the conversation is seen by everyone who stays. -/
theorem World.Step.publishes {env : Env} {world world' : World} {events : List Event}
    (stepped : World.Step env world events world') (inv : world.Inv) :
    ∃ record : List Msg, record.filterMap Msg.line = events.filterMap Event.acknowledged ∧
      ∀ o name, world.room.Attends o name → world'.room.Attends o name →
        conversation o name events = record := by
  have hidden : (∀ e ∈ events, e.isPrivate = true) →
      ∃ record : List Msg, record.filterMap Msg.line = events.filterMap Event.acknowledged ∧
        ∀ o name, world.room.Attends o name → world'.room.Attends o name →
          conversation o name events = record := by
    intro unseen
    exact ⟨[], (private_unseen unseen).2.symm, fun o name _ _ => (private_unseen unseen).1 o name⟩
  cases stepped with
  | sweep polled gone =>
    refine hidden fun e member => ?_
    obtain ⟨h, _, rfl⟩ := List.mem_map.mp member
    rfl
  | turn days =>
    obtain ⟨record, lines, seen⟩ := Room.turn_publishes days inv.linked _
    exact ⟨record, lines, fun o name before _ => seen o name before⟩
  | @create todo room h conn days roster known new once all =>
    refine hidden fun e member => ?_
    rcases List.mem_append.mp member with inside | inside
    · exact frame_private _ _ rfl e inside
    · obtain rfl := List.mem_singleton.mp inside
      rfl
  | @remove todo room h conn user roster known flagged seated once all =>
    have gone := inv.linked.keyed h user seated
    refine ⟨[.left user.username], ?_, fun o name before after => ?_⟩
    · have silent : (farewells room roster user.username).filterMap Event.acknowledged = [] := by
        refine List.filterMap_eq_nil_iff.mpr fun e member => ?_
        obtain ⟨k, _, _, inside⟩ := mem_frames (fun k => room.inChat k = true) member
        simp only [frame, List.mem_cons, List.not_mem_nil, or_false] at inside
        rcases inside with rfl | rfl <;> rfl
      exact silent.symm
    · have apart : o ≠ h := by
        rintro rfl
        obtain ⟨other, there, _⟩ := after
        have emptied : (room.unseat user roster).user o = none := by
          rw [← gone]
          exact Function.update_self _ _ _
        rw [emptied] at there
        cases there
      have stays := (all o).mpr ⟨apart, before.listed inv.linked⟩
      have heard : conversation o name (farewells room roster user.username) = _ :=
        conversation_frames once (fun k => room.inChat k = true) (.left user.username)
      rw [if_pos ⟨stays, before.inChat⟩] at heard
      exact heard
  | receive known waiting arrived nonempty =>
    exact hidden fun e member => by rw [List.mem_singleton.mp member]; rfl
  | hangUp known ended => exact hidden fun e member => by rw [List.mem_singleton.mp member]; rfl
  | accept polling accepting fresh =>
    exact hidden fun e member => by rw [List.mem_singleton.mp member]; rfl
  | _ => exact hidden (List.forall_mem_nil _)

/-- Whoever is in the chat throughout a part of a run sees one conversation: the
same joins, leaves and lines of the chat, in the same order, where a user's own
lines are the acknowledgements it gets. Every acknowledged line is in it, in the
order of the acknowledgements. -/
theorem conversation_agreed {listener : Handle} {now : Int} {sys₁ sys₂ : Sys} {group : Handle × Bytes → Prop}
    (before : Reaches step Orderly (start listener now) sys₁)
    (during : Reaches step (fun env sys => Orderly env sys ∧ ∀ one, group one →
      sys.app.room.Attends one.1 one.2) sys₁ sys₂)
    (last : ∀ one, group one → sys₂.app.room.Attends one.1 one.2) :
    ∃ events record, sys₂.app.trace = sys₁.app.trace ++ events ∧
      record.filterMap Msg.line = events.filterMap Event.acknowledged ∧
      ∀ one, group one → conversation one.1 one.2 events = record := by
  have good := run_good before (fun _ _ => id) (start_good listener now)
  obtain ⟨events, trace, path⟩ := run_simulates during (fun _ _ granted => granted.1) good
    (fun world => ∀ one, group one → world.room.Attends one.1 one.2) fun _ _ granted => granted.2
  have everyone : ∀ (world : World) events world', world.Goes events world' → ∃ record : List Msg,
      record.filterMap Msg.line = events.filterMap Event.acknowledged ∧
        ∀ one : Handle × Bytes, world.room.Attends one.1 one.2 → world'.room.Attends one.1 one.2 →
          conversation one.1 one.2 events = record := by
    rintro world events world' ⟨inv, env, stepped⟩
    obtain ⟨record, lines, seen⟩ := stepped.publishes inv
    exact ⟨record, lines, fun one => seen one.1 one.2⟩
  obtain ⟨record, lines, seen⟩ := path.agree last everyone
  exact ⟨events, record, trace, lines, seen⟩

/-- Two users in the chat, under the names `ab` and `cd`. -/
private def couple : List (Nat × Env) :=
  [(107, .connects 4), (109, .brings 4 (bytes "ab\n")), (110, .connects 5), (111, .brings 5 (bytes "cd\n"))]

/-- Each of them says something. -/
private def talks : List (Nat × Env) := [(111, .brings 4 (bytes "hi\n")), (111, .brings 5 (bytes "yo\n"))]

private theorem couple_unsent : ∀ env ∈ rounds couple, ∀ h data, env.send h data = none :=
  rounds_unsent ⟨fun _ _ => rfl, fun _ _ => rfl, fun _ _ => rfl, fun _ _ => rfl⟩

private theorem talks_unsent : ∀ env ∈ rounds talks, ∀ h data, env.send h data = none :=
  rounds_unsent ⟨fun _ _ => rfl, fun _ _ => rfl⟩

/-- A conversation of two. -/
theorem conversation_agreed_couple : ∃ (sys₁ sys₂ : Sys) (events : List Event) (record : List Msg),
    sys₂.app.trace = sys₁.app.trace ++ events ∧
    sys₁.app.room.Attends 4 (bytes "ab") ∧ sys₁.app.room.Attends 5 (bytes "cd") ∧
    record.filterMap Msg.line = [bytes "hi", bytes "yo"] ∧
    conversation 4 (bytes "ab") events = record ∧ conversation 5 (bytes "cd") events = record := by
  have outcome : (drive step separate .assertion (rounds couple) (start 3 0)).bind (fun sys₁ =>
      (drive step (fun env sys => separate env sys && decide (sys.app.room.Attends 4 (bytes "ab") ∧
        sys.app.room.Attends 5 (bytes "cd"))) .assertion (rounds talks) sys₁).map fun sys₂ =>
          (decide (sys₁.app.room.Attends 4 (bytes "ab") ∧ sys₁.app.room.Attends 5 (bytes "cd")),
            decide (sys₂.app.room.Attends 4 (bytes "ab") ∧ sys₂.app.room.Attends 5 (bytes "cd")),
            (sys₂.app.trace.drop sys₁.app.trace.length).filterMap Event.acknowledged)) =
      .ok (true, true, [bytes "hi", bytes "yo"]) := by
    decide +kernel
  obtain ⟨sys₁, first, outcome⟩ := bind_eq_ok.mp outcome
  obtain ⟨sys₂, second, outcome⟩ := map_eq_ok.mp outcome
  obtain ⟨entered, outcome⟩ := Prod.mk.inj outcome
  obtain ⟨stayed, answered⟩ := Prod.mk.inj outcome
  have reached : Reaches step Orderly (start 3 0) sys₁ :=
    (reaches_of_drive couple_unsent first).weaken fun _ _ => Separate.orderly
  have window := reaches_of_checked (fun _ sys => sys.app.room.Attends 4 (bytes "ab") ∧
    sys.app.room.Attends 5 (bytes "cd")) talks_unsent second
  have both : ∀ room : Room, room.Attends 4 (bytes "ab") ∧ room.Attends 5 (bytes "cd") →
      ∀ one, one = (4, bytes "ab") ∨ one = (5, bytes "cd") → room.Attends one.1 one.2 := by
    rintro room ⟨four, five⟩ one (rfl | rfl)
    · exact four
    · exact five
  obtain ⟨events, record, trace, lines, seen⟩ := conversation_agreed reached
    (window.weaken fun _ sys granted => ⟨granted.1, both _ granted.2⟩) (both _ (of_decide_eq_true stayed))
  rw [trace, List.drop_left] at answered
  exact ⟨sys₁, sys₂, events, record, trace, (of_decide_eq_true entered).1, (of_decide_eq_true entered).2,
    lines.trans answered, seen _ (Or.inl rfl), seen _ (Or.inr rfl)⟩

end AuroraComms
