import AuroraComms.Departure

/-! The server without its data structures: a room, and where the main loop
stands in it. A loop over a table is the list of handles still to come; the
tables' buckets, their growth and the heap are gone. Steps carry the events they
note. -/
namespace AuroraComms
open Meta Library.Run

/-- Where the program stands. -/
inductive Stage where
  | sweep
  | wait (polled : List Handle)
  | receive (todo : List Handle)
  | flush
  | users (todo : List Handle)
  | clients (todo : List Handle)
  | exited
  deriving DecidableEq, Repr

structure World where
  stage : Stage
  room : Room

/-- The end of a peer's stream, or an error on its socket. -/
def Env.hangsUp (env : Env) (h : Handle) : Prop :=
  env.pollin h = true ∧ (env.recv h = .error ∨ env.recv h = .data [])

instance (env : Env) (h : Handle) : Decidable (env.hangsUp h) := inferInstanceAs (Decidable (_ ∧ _))

/-- Nothing to read from a socket. -/
def Env.silent (env : Env) (h : Handle) : Prop := env.pollin h = false ∨ env.recv h = .again

instance (env : Env) (h : Handle) : Decidable (env.silent h) := inferInstanceAs (Decidable (_ ∨ _))

theorem Env.silent.stays {env : Env} {h : Handle} (silent : env.silent h) : ¬ env.hangsUp h := by
  rintro ⟨waiting, ended⟩
  rcases silent with unpolled | nothing
  · rw [waiting] at unpolled
    cases unpolled
  · rw [nothing] at ended
    rcases ended with failed | closed
    · cases failed
    · cases closed

namespace Room

/-- After the sweep. -/
def swept (room : Room) : Room :=
  { room with
    conn := fun h => (room.conn h).bind fun conn =>
      if conn.state = .toBeRemoved then none else some { conn with state := .online } }

/-- With a new user at the login. -/
def seat (room : Room) (h : Handle) (roster : List Handle) : Room :=
  { room with roster := roster, user := Function.update room.user h (some ⟨h, .login, []⟩) }

/-- Without a user, and with its name free. -/
def unseat (room : Room) (user : User) (roster : List Handle) : Room :=
  { room with
    roster := roster
    user := Function.update room.user user.handle none
    owner := Function.update room.owner user.username none }

end Room

/-- One step of the main loop, and the events it notes. -/
inductive World.Step (env : Env) : World → List Event → World → Prop where
  | sweep {room : Room} (polled gone : List Handle) (polledOnce : polled.Nodup)
      (polledAll : ∀ h, h ∈ polled ↔ (room.swept.conn h).isSome) (goneOnce : gone.Nodup)
      (goneAll : ∀ h, h ∈ gone ↔ ∃ conn, room.conn h = some conn ∧ conn.state = .toBeRemoved) :
      Step env ⟨.sweep, room⟩ (gone.map .closed) ⟨.wait polled, room.swept⟩
  | quit {polled : List Handle} {room : Room} (failed : env.poll = .error) :
      Step env ⟨.wait polled, room⟩ [] ⟨.exited, room⟩
  | calm {polled : List Handle} {room : Room} (timeout : env.poll = .timeout) :
      Step env ⟨.wait polled, room⟩ [] ⟨.flush, room⟩
  | ready {polled : List Handle} {room : Room} (listener : Bool) (polling : env.poll = .ready listener) :
      Step env ⟨.wait polled, room⟩ [] ⟨.receive polled, room⟩
  | accept {polled : List Handle} {room : Room} {h : Handle} (polling : env.poll = .ready true)
      (accepting : env.accept = .socket h true true) (fresh : room.conn h = none) :
      Step env ⟨.wait polled, room⟩ [.accepted h] ⟨.receive polled, room.setConn h ⟨.new, []⟩⟩
  | skip {todo : List Handle} {room : Room} {h : Handle} (nothing : env.silent h) :
      Step env ⟨.receive (h :: todo), room⟩ [] ⟨.receive todo, room⟩
  | receive {todo : List Handle} {room : Room} {h : Handle} {conn : Conn} {data : Bytes}
      (known : room.conn h = some conn) (waiting : env.pollin h = true)
      (arrived : env.recv h = .data data) (nonempty : data ≠ []) :
      Step env ⟨.receive (h :: todo), room⟩ [.received h data]
        ⟨.receive todo, room.setConn h { conn with inBuf := conn.inBuf ++ data }⟩
  | hangUp {todo : List Handle} {room : Room} {h : Handle} {conn : Conn}
      (known : room.conn h = some conn) (ended : env.hangsUp h) :
      Step env ⟨.receive (h :: todo), room⟩ [.hungUp h]
        ⟨.receive todo, room.setConn h { conn with state := .toBeRemoved }⟩
  | received {room : Room} : Step env ⟨.receive [], room⟩ [] ⟨.flush, room⟩
  | flush {room : Room} : Step env ⟨.flush, room⟩ [] ⟨.users room.roster, room⟩
  | turn {todo : List Handle} {room : Room} {h : Handle} (days : Int) :
      Step env ⟨.users (h :: todo), room⟩ (room.turn days h).2 ⟨.users todo, (room.turn days h).1⟩
  | updated {room : Room} {todo : List Handle} (once : todo.Nodup)
      (all : ∀ h, h ∈ todo ↔ (room.conn h).isSome) :
      Step env ⟨.users [], room⟩ [] ⟨.clients todo, room⟩
  | create {todo : List Handle} {room : Room} {h : Handle} {conn : Conn} (days : Int)
      (roster : List Handle) (known : room.conn h = some conn) (new : conn.state = .new)
      (once : roster.Nodup) (all : ∀ k, k ∈ roster ↔ k = h ∨ k ∈ room.roster) :
      Step env ⟨.clients (h :: todo), room⟩
        (frame h .afterEnter (.greeting room.roster.length days) ++ [.userNew h])
        ⟨.clients todo, room.seat h roster⟩
  | remove {todo : List Handle} {room : Room} {h : Handle} {conn : Conn} {user : User}
      (roster : List Handle) (known : room.conn h = some conn) (flagged : conn.state = .toBeRemoved)
      (seated : room.user h = some user) (once : roster.Nodup)
      (all : ∀ k, k ∈ roster ↔ k ≠ h ∧ k ∈ room.roster) :
      Step env ⟨.clients (h :: todo), room⟩
        (.userRemoved h :: farewells room roster user.username)
        ⟨.clients todo, room.unseat user roster⟩
  | keep {todo : List Handle} {room : Room} {h : Handle} {conn : Conn}
      (known : room.conn h = some conn) (online : conn.state = .online) :
      Step env ⟨.clients (h :: todo), room⟩ [] ⟨.clients todo, room⟩
  | done {room : Room} : Step env ⟨.clients [], room⟩ [] ⟨.sweep, room⟩
  | stutter (world : World) : Step env world [] world

/-! ## What a line changes -/

namespace Room

/-- The rooms a line from a user can lead to. -/
inductive Becomes (room : Room) (user : User) (line : Bytes) : Room → Prop where
  | same : Becomes room user line room
  | joins (entering : user.state = .login) (nonempty : line ≠ []) (free : room.owner line = none)
      (valid : validateUsername line = true) :
      Becomes room user line
        (room.join { user with state := .chat, username := user.username ++ line })
  | asks (chatting : user.state = .chat) :
      Becomes room user line (room.setUser { user with state := .exit })
  | returns (leaving : user.state = .exit) :
      Becomes room user line (room.setUser { user with state := .chat })
  | confirms (leaving : user.state = .exit) (yes : stringEqIgnoreCase line (bytes "y") = true) :
      Becomes room user line (room.flag user.handle)

theorem command_becomes (days : Int) (room : Room) {user : User} (line : Bytes)
    (chatting : user.state = .chat) : Becomes room user line (room.command days user line).1 := by
  unfold command
  cases commandOf (commandWord line) with
  | none => exact .same
  | some cmd =>
    cases cmd with
    | exit => exact .asks chatting
    | _ => exact .same

theorem speak_becomes (days : Int) (room : Room) (user : User) (line : Bytes) :
    Becomes room user line (room.speak days user line).1 := by
  unfold speak
  cases state : user.state with
  | login =>
    by_cases blank : line = []
    · simpa [blank] using Becomes.same
    · by_cases taken : (room.owner line).isSome
      · simpa [blank, taken] using Becomes.same
      · by_cases valid : validateUsername line = true
        · have free : room.owner line = none := by simpa using taken
          simpa [blank, free, valid] using Becomes.joins state blank free valid
        · simpa [blank, taken, valid] using Becomes.same
  | chat =>
    by_cases blank : line = []
    · simpa [blank] using Becomes.same
    · by_cases command : isCommand line = true
      · simpa [blank, command] using command_becomes days room line state
      · simpa [blank, command] using Becomes.same
  | exit =>
    by_cases yes : stringEqIgnoreCase line (bytes "y") = true
    · simpa [yes] using Becomes.confirms state yes
    · simpa [yes] using Becomes.returns state

variable {room room' : Room} {user : User} {line : Bytes}

/-- What a line leaves alone: the roster, who is a user, who is connected. -/
theorem Becomes.frame (became : Becomes room user line room') (here : room.user user.handle = some user) :
    room'.roster = room.roster ∧ (∀ k, (room'.user k).isSome = (room.user k).isSome) ∧
      (∀ k, (room'.conn k).isSome = (room.conn k).isSome) ∧
      ∀ k conn', room'.conn k = some conn' → ∃ conn, room.conn k = some conn ∧
        (conn' = conn ∨ k = user.handle ∧ conn' = { conn with state := .toBeRemoved }) := by
  have updated : ∀ (new : User) k, new.handle = user.handle →
      (Function.update room.user new.handle (some new) k).isSome = (room.user k).isSome := by
    intro new k same
    rw [same, Function.update_apply]
    split
    · rename_i mine
      rw [mine, here]
      rfl
    · rfl
  cases became with
  | same => exact ⟨rfl, fun _ => rfl, fun _ => rfl, fun k conn known => ⟨conn, known, Or.inl rfl⟩⟩
  | joins | asks | returns =>
    exact ⟨rfl, fun k => updated _ k rfl, fun _ => rfl, fun k conn known => ⟨conn, known, Or.inl rfl⟩⟩
  | confirms =>
    refine ⟨rfl, fun _ => rfl, ?_, ?_⟩
    · intro k
      show (Function.update room.conn user.handle _ k).isSome = _
      rw [Function.update_apply]
      split
      · rename_i mine
        rw [mine, Option.isSome_map]
      · rfl
    · intro k conn' known
      change Function.update room.conn user.handle _ k = some conn' at known
      rw [Function.update_apply] at known
      split at known
      · rename_i mine
        obtain ⟨conn, stored, rfl⟩ := Option.map_eq_some_iff.mp known
        exact ⟨conn, by rw [mine]; exact stored, Or.inr ⟨mine, rfl⟩⟩
      · exact ⟨conn', known, Or.inl rfl⟩

/-- A line changes nothing about other users. -/
theorem Becomes.others (became : Becomes room user line room') {k : Handle} (apart : k ≠ user.handle) :
    room'.user k = room.user k ∧ room'.conn k = room.conn k := by
  cases became with
  | same => exact ⟨rfl, rfl⟩
  | confirms => exact ⟨rfl, Function.update_of_ne apart _ _⟩
  | _ => exact ⟨Function.update_of_ne apart _ _, rfl⟩

/-- A turn handles a line, or does nothing because there is none. -/
theorem turn_cases (days : Int) (room : Room) (h : Handle) :
    ((∀ user conn, room.user h = some user → room.conn h = some conn → nextLine conn.inBuf = none) ∧
      room.turn days h = (room, [])) ∨
    ∃ user conn line rest, room.user h = some user ∧ room.conn h = some conn ∧
      nextLine conn.inBuf = some (line, rest) ∧
      room.turn days h = (((room.setConn h { conn with inBuf := rest }).speak days user line).1,
        .handled h (takenFrom conn.inBuf rest) line ::
          ((room.setConn h { conn with inBuf := rest }).speak days user line).2) := by
  unfold turn
  cases known : room.user h with
  | none => exact Or.inl ⟨by simp, rfl⟩
  | some user =>
    cases connected : room.conn h with
    | none => exact Or.inl ⟨by simp, rfl⟩
    | some conn =>
      cases next : nextLine conn.inBuf with
      | none => exact Or.inl ⟨by rintro _ _ _ ⟨⟩; exact next, by simp only [next]⟩
      | some result => exact Or.inr ⟨user, conn, result.1, result.2, rfl, rfl, next, by simp only [next]⟩

end Room

/-! ## What a line says -/

/-- A line with which a user confirms its exit. -/
def User.confirms (user : User) (line : Bytes) : Prop :=
  user.state = .exit ∧ stringEqIgnoreCase line (bytes "y") = true

/-- Output to a client. -/
def Event.isPrint : Event → Bool
  | .printed .. | .sent .. | .prompted .. => true
  | _ => false

/-- Output, or the goodbye: nothing that concerns a table. -/
def Event.isTalk : Event → Bool
  | .goodbye .. => true
  | e => e.isPrint

/-- A notice of who comes and who goes. -/
def Msg.isNotice : Msg → Bool
  | .joins _ | .left _ => true
  | _ => false

/-- Output other than a notice. -/
def Event.isPlain : Event → Bool
  | .printed _ _ msg => !msg.isNotice
  | .sent .. | .prompted .. => true
  | _ => false

theorem talk_of_print {events : List Event} (prints : ∀ e ∈ events, e.isPrint = true) :
    ∀ e ∈ events, e.isTalk = true := by
  intro e member
  have print := prints e member
  cases e <;> first | rfl | exact print

theorem print_of_plain {events : List Event} (plain : ∀ e ∈ events, e.isPlain = true) :
    ∀ e ∈ events, e.isPrint = true := by
  intro e member
  have plainly := plain e member
  cases e <;> first | rfl | cases plainly

theorem frame_print (h : Handle) (action : Print) (msg : Msg) :
    ∀ e ∈ frame h action msg, e.isPrint = true := by
  simp [frame, Event.isPrint]

theorem frame_plain (h : Handle) (action : Print) (msg : Msg) (quiet : msg.isNotice = false) :
    ∀ e ∈ frame h action msg, e.isPlain = true := by
  simp [frame, Event.isPlain, quiet]

/-- A frame for some of the users. -/
theorem mem_frames {roster : List Handle} (chosen : Handle → Prop) [DecidablePred chosen] {msg : Msg}
    {e : Event} (member : e ∈ roster.flatMap fun h => if chosen h then frame h .interrupt msg else []) :
    ∃ k ∈ roster, chosen k ∧ e ∈ frame k .interrupt msg := by
  obtain ⟨k, listed, inside⟩ := List.mem_flatMap.mp member
  split at inside
  · rename_i picked
    exact ⟨k, listed, picked, inside⟩
  · cases inside

theorem farewells_print (room : Room) (roster : List Handle) (name : Bytes) :
    ∀ e ∈ farewells room roster name, e.isPrint = true := by
  intro e member
  obtain ⟨k, _, _, inside⟩ := mem_frames (fun h => room.inChat h = true) member
  exact frame_print _ _ _ e inside

namespace Room

theorem toOthers_print (room : Room) (self : Handle) (msg : Msg) :
    ∀ e ∈ room.toOthers self msg, e.isPrint = true := by
  intro e member
  obtain ⟨k, _, _, inside⟩ := mem_frames (fun h => h ≠ self ∧ room.inChat h) member
  exact frame_print _ _ _ e inside

theorem listing_plain (room : Room) (user : User) : ∀ e ∈ room.listing user, e.isPlain = true := by
  intro e member
  simp only [listing, List.mem_append, List.mem_cons, List.mem_flatMap, List.not_mem_nil, or_false] at member
  rcases member with ((rfl | rfl) | ⟨k, _, inside⟩) | rfl
  · rfl
  · rfl
  · split at inside
    · cases inside
    · obtain ⟨other, _, rfl⟩ := List.mem_map.mp inside
      rfl
  · rfl

theorem whisper_plain (room : Room) (user : User) (line : Bytes) :
    ∀ e ∈ room.whisper user line, e.isPlain = true := by
  unfold whisper
  cases (room.owner (whisperTo line)).bind room.user with
  | none => exact frame_plain _ _ _ rfl
  | some other =>
    intro e member
    simp only at member
    split at member
    · exact frame_plain _ _ _ rfl e member
    · split at member
      · exact frame_plain _ _ _ rfl e member
      · rcases List.mem_append.mp member with inside | inside
        · exact frame_plain _ _ _ rfl e inside
        · exact frame_plain _ _ _ rfl e inside

/-- A command is answered without notices, and leaves the names alone. -/
theorem command_plain (days : Int) (room : Room) (user : User) (line : Bytes) :
    (room.command days user line).1.owner = room.owner ∧
      ∀ e ∈ (room.command days user line).2, e.isPlain = true := by
  unfold command
  cases commandOf (commandWord line) with
  | none => exact ⟨rfl, frame_plain _ _ _ rfl⟩
  | some cmd =>
    cases cmd with
    | list => exact ⟨rfl, listing_plain room user⟩
    | whisper => exact ⟨rfl, whisper_plain room user line⟩
    | _ => exact ⟨rfl, frame_plain _ _ _ rfl⟩

/-- A line confirms an exit, or takes a name, or is answered without notices. -/
theorem speak_answers (days : Int) (room : Room) (user : User) (line : Bytes) :
    (user.confirms line ∧
      room.speak days user line = (room.flag user.handle, [.goodbye user.handle])) ∨
    (user.state = .login ∧ room.owner line = none ∧ room.speak days user line =
      (room.join { user with state := .chat, username := user.username ++ line },
        frame user.handle .afterEnter (.welcome (user.username ++ line)) ++
          (room.join { user with state := .chat, username := user.username ++ line }).toOthers user.handle
            (.joins (user.username ++ line)))) ∨
    ¬ user.confirms line ∧ (room.speak days user line).1.owner = room.owner ∧
      ∀ e ∈ (room.speak days user line).2, e.isPlain = true := by
  have prompted : ∀ e ∈ [Event.prompted user.handle], e.isPlain = true := by simp [Event.isPlain]
  unfold speak User.confirms
  cases user.state with
  | login =>
    by_cases blank : line = []
    · exact Or.inr (Or.inr ⟨by simp, by simp [blank], by simpa [blank] using prompted⟩)
    · by_cases taken : (room.owner line).isSome
      · refine Or.inr (Or.inr ⟨by simp, by simp [blank, taken], ?_⟩)
        simpa [blank, taken] using frame_plain user.handle .afterEnter .taken rfl
      · by_cases valid : validateUsername line = true
        · have free : room.owner line = none := by simpa using taken
          exact Or.inr (Or.inl ⟨rfl, free, by simp [blank, free, valid]⟩)
        · refine Or.inr (Or.inr ⟨by simp, by simp [blank, taken, valid], ?_⟩)
          simpa [blank, taken, valid] using frame_plain user.handle .afterEnter .invalid rfl
  | chat =>
    refine Or.inr (Or.inr ⟨by simp, ?_⟩)
    by_cases blank : line = []
    · exact ⟨by simp [blank], by simpa [blank] using prompted⟩
    · by_cases command : isCommand line = true
      · simpa [blank, command] using command_plain days room user line
      · simp only [blank, command, if_false]
        refine ⟨rfl, fun e member => ?_⟩
        rcases List.mem_append.mp member with inside | inside
        · obtain ⟨k, _, _, inside⟩ := mem_frames (fun h => h ≠ user.handle ∧ room.inChat h) inside
          exact frame_plain _ _ _ rfl e inside
        · exact frame_plain _ _ _ rfl e inside
  | exit =>
    by_cases yes : stringEqIgnoreCase line (bytes "y") = true
    · exact Or.inl ⟨⟨rfl, yes⟩, by simp [yes]⟩
    · refine Or.inr (Or.inr ⟨by simp [yes], by simp [yes]; rfl, ?_⟩)
      simpa [yes] using frame_plain user.handle .afterEnter (.welcome user.username) rfl

/-- A line is answered by output, unless it confirms an exit. -/
theorem speak_says (days : Int) (room : Room) (user : User) (line : Bytes) :
    (user.confirms line ∧
      room.speak days user line = (room.flag user.handle, [.goodbye user.handle])) ∨
    ¬ user.confirms line ∧ ∀ e ∈ (room.speak days user line).2, e.isPrint = true := by
  rcases room.speak_answers days user line with confirmed | ⟨entering, _, said⟩ | ⟨stays, _, plain⟩
  · exact Or.inl confirmed
  · refine Or.inr ⟨fun confirms => (nomatch entering.symm.trans confirms.1), ?_⟩
    rw [said]
    intro e member
    rcases List.mem_append.mp member with inside | inside
    · exact frame_print _ _ _ e inside
    · exact toOthers_print _ _ _ e inside
  · exact Or.inr ⟨stays, print_of_plain plain⟩

/-- Only a confirmed exit changes a connection. -/
theorem Becomes.conn_kept {room room' : Room} {user : User} {line : Bytes}
    (became : Becomes room user line room') (stays : ¬ user.confirms line) : room'.conn = room.conn := by
  cases became with
  | confirms leaving yes => exact absurd ⟨leaving, yes⟩ stays
  | _ => rfl

theorem speak_talk (days : Int) (room : Room) (user : User) (line : Bytes) :
    ∀ e ∈ (room.speak days user line).2, e.isTalk = true := by
  rcases room.speak_says days user line with ⟨_, said⟩ | ⟨_, prints⟩
  · rw [said]
    simp [Event.isTalk]
  · exact talk_of_print prints

end Room
end AuroraComms
