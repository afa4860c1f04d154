import AuroraComms.Simulation

/-! What the server says, held against what happened before. A reader of the trace
can tell who is connected, in which state and under which name, from nothing but
the events read so far; every message has to be true of what the reader knows. -/
namespace AuroraComms
open Meta Library.Run Library.Protocol

/-- A connection, as its events show it. -/
inductive Link where
  | away
  | linked
  /-- Nothing more comes from its peer. -/
  | ended
  /-- Its user was told goodbye. -/
  | parted
  /-- Its user is removed. -/
  | vacated
  deriving DecidableEq, Repr

/-- What the reader of a trace knows. -/
structure Chronicle where
  link : Handle → Link
  user : Handle → Option User
  /-- How many users there are. -/
  count : Nat
  /-- The line being handled and its user, until there is an answer. -/
  speaking : Option (User × Bytes)
  /-- The answer is a list that was begun. -/
  listing : Bool
  /-- Who came or went last, and what the others are told of it. -/
  news : Option (Handle × Msg)
  /-- Who was shown a message and not prompted since. -/
  due : Option Handle

/-- Who is shown a message, and has to be prompted after it. -/
def Event.due : Event → Option Handle
  | .printed h _ _ => some h
  | _ => none

/-! ## How connections are known -/

/-- Where the loop can stand while a connection that ended still has its user. -/
def Stage.Ending : Stage → Prop
  | .receive _ | .flush | .users _ | .clients _ => True
  | _ => False

/-- Where it can stand while someone who was told goodbye is still a user. -/
def Stage.Parting (h : Handle) : Stage → Prop
  | .users todo => h ∉ todo
  | .clients _ => True
  | _ => False

namespace Link

/-- What a connection and its user are like, by how the connection is known. -/
def Fits (stage : Stage) (h : Handle) (state : Option ClientState) (user : Option User) : Link → Prop
  | .away => state = none
  | .linked => state = some .new ∨ state = some .online
  | .ended => state = some .toBeRemoved ∧ user.isSome ∧ stage.Ending
  | .parted => state = some .toBeRemoved ∧ (∃ own, user = some own ∧ own.state = .exit) ∧ stage.Parting h
  | .vacated => state = some .toBeRemoved ∧ user = none

variable {stage stage' : Stage} {h : Handle} {state : ClientState} {user user' : Option User} {link : Link}

theorem Fits.later {state : Option ClientState} (fits : link.Fits stage h state user) (stage' : Stage)
    (ending : stage.Ending → stage'.Ending) (parting : stage.Parting h → stage'.Parting h) :
    link.Fits stage' h state user := by
  cases link with
  | away | linked | vacated => exact fits
  | ended => exact ⟨fits.1, fits.2.1, ending fits.2.2⟩
  | parted => exact ⟨fits.1, fits.2.1, parting fits.2.2⟩

theorem Fits.away (fits : link.Fits stage h none user) : link = .away := by
  cases link with
  | away => rfl
  | linked => exact fits.elim nofun nofun
  | _ => exact nomatch fits.1

theorem Fits.linked (fits : link.Fits stage h (some state) user) (stays : state ≠ .toBeRemoved) :
    link = .linked := by
  cases link with
  | linked => rfl
  | away => cases fits
  | _ => exact absurd (Option.some.inj fits.1) stays

theorem Fits.vacated {stage : Stage} (fits : link.Fits stage h (some .toBeRemoved) none) :
    link = .vacated := by
  cases link with
  | vacated => rfl
  | away => cases fits
  | linked => exact fits.elim nofun nofun
  | ended => exact nomatch fits.2.1
  | parted =>
    obtain ⟨_, ⟨own, there, _⟩, _⟩ := fits
    cases there

/-- A user whose turn is still to come was not told goodbye. -/
theorem Fits.stays (fits : link.Fits stage h (some state) user) (seated : user.isSome)
    (coming : ¬ stage.Parting h) : link = .linked ∨ link = .ended := by
  cases link with
  | linked => exact .inl rfl
  | ended => exact .inr rfl
  | away => cases fits
  | parted => exact absurd fits.2.2 coming
  | vacated =>
    rw [fits.2] at seated
    cases seated

/-- A user is removed after its stream ended or after its goodbye. -/
theorem Fits.finished (fits : link.Fits stage h (some .toBeRemoved) user) (seated : user.isSome) :
    link = .ended ∨ link = .parted := by
  cases link with
  | ended => exact .inl rfl
  | parted => exact .inr rfl
  | away => cases fits
  | linked => exact fits.elim nofun nofun
  | vacated =>
    rw [fits.2] at seated
    cases seated

/-- A line that is no goodbye leaves a connection as it was. -/
theorem Fits.still {state : Option ClientState} (fits : link.Fits stage h state user)
    (stays : link = .linked ∨ link = .ended) (seated : user'.isSome) : link.Fits stage h state user' := by
  rcases stays with rfl | rfl
  · exact fits
  · exact ⟨fits.1, seated, fits.2.2⟩

/-- Between two rounds, only users that stay have a connection that stays. -/
theorem Fits.settled (fits : link.Fits stage h (some state) user)
    (pair : user.isSome ↔ state ≠ .toBeRemoved) : link.Fits stage' h (some state) user := by
  have alone : state = .toBeRemoved → user = none := by
    intro flagged
    simpa [flagged] using pair
  cases link with
  | away | linked | vacated => exact fits
  | ended =>
    rw [alone (Option.some.inj fits.1)] at fits
    exact nomatch fits.2.1
  | parted =>
    obtain ⟨flagged, ⟨own, there, _⟩, _⟩ := fits
    rw [alone (Option.some.inj flagged)] at there
    cases there

end Link

namespace Chronicle

def empty : Chronicle := ⟨fun _ => .away, fun _ => none, 0, none, false, none, none⟩

def relink (c : Chronicle) (h : Handle) (link : Link) : Chronicle :=
  { c with link := Function.update c.link h link }

def put (c : Chronicle) (user : User) : Chronicle :=
  { c with user := Function.update c.user user.handle (some user) }

/-- Once the line has its answer. -/
def answered (c : Chronicle) : Chronicle := { c with speaking := none, listing := false }

/-- Once the header of a list was sent. -/
def begun (c : Chronicle) : Chronicle := { c with listing := true }

def awaits (c : Chronicle) (due : Option Handle) : Chronicle := { c with due := due }

def Holds (c : Chronicle) (h : Handle) (name : Bytes) : Prop :=
  ∃ user, c.user h = some user ∧ user.state ≠ .login ∧ user.username = name

def Free (c : Chronicle) (name : Bytes) : Prop := ∀ h, ¬ c.Holds h name

def InChat (c : Chronicle) (h : Handle) : Prop := ∃ user, c.user h = some user ∧ user.state = .chat

/-- A line that a user said in a state, and nothing of its answer yet. -/
structure Says (c : Chronicle) (user : User) (line : Bytes) (state : State) : Prop where
  spoke : c.speaking = some (user, line)
  was : user.state = state
  first : c.listing = false

/-- A command of a user in the chat; `none` when there is no such command. -/
structure Orders (c : Chronicle) (user : User) (line : Bytes) (cmd : Option Cmd) : Prop
    extends c.Says user line .chat where
  command : isCommand line = true
  word : commandOf (commandWord line) = cmd

/-- A list that was asked for in the chat, once it is begun. -/
structure Lists (c : Chronicle) (user : User) (line : Bytes) : Prop where
  spoke : c.speaking = some (user, line)
  was : user.state = .chat
  command : isCommand line = true
  word : commandOf (commandWord line) = some .list
  begun : c.listing = true

/-- A whisper, and the user it is for. -/
structure Addresses (c : Chronicle) (user : User) (line : Bytes) (other : User) : Prop
    extends c.Orders user line (some .whisper) where
  known : c.user other.handle = some other
  named : other.username = whisperTo line

/-- What is true of the events, prompts after a message apart, and what is known after
them. -/
inductive Reports : Chronicle → Event → Chronicle → Prop where
  | accepted {c : Chronicle} {h : Handle} (away : c.link h = .away) (nobody : c.user h = none) :
    Reports c (.accepted h) (c.relink h .linked)
  | closed {c : Chronicle} {h : Handle} (vacated : c.link h = .vacated) (nobody : c.user h = none) :
    Reports c (.closed h) (c.relink h .away)
  | received {c : Chronicle} {h : Handle} {user : User} (data : Bytes) (known : c.user h = some user)
    (listens : c.link h = .linked) (quiet : c.speaking = none) : Reports c (.received h data) c
  | hungUp {c : Chronicle} {h : Handle} {user : User} (known : c.user h = some user)
    (listens : c.link h = .linked) (quiet : c.speaking = none) : Reports c (.hungUp h) (c.relink h .ended)
  | handled {c : Chronicle} {h : Handle} {user : User} (taken line : Bytes) (known : c.user h = some user)
    (stays : c.link h = .linked ∨ c.link h = .ended) (quiet : c.speaking = none) :
    Reports c (.handled h taken line) { c with speaking := some (user, line), listing := false, news := none }
  | blank {c : Chronicle} {user : User} {state : State} (said : c.Says user [] state) (inside : state ≠ .exit) :
    Reports c (.prompted user.handle) c.answered
  | greets {c : Chronicle} {h : Handle} (days : Int) (linked : c.link h = .linked) (nobody : c.user h = none)
    (quiet : c.speaking = none) : Reports c (.printed h .afterEnter (.greeting c.count days))
      { c.put ⟨h, .login, []⟩ with count := c.count + 1 }
  | userNew {c : Chronicle} {h : Handle} (seated : c.user h = some ⟨h, .login, []⟩) (quiet : c.speaking = none) :
    Reports c (.userNew h) c
  | userRemoved {c : Chronicle} {h : Handle} {user : User} (known : c.user h = some user)
    (finished : c.link h = .ended ∨ c.link h = .parted) (quiet : c.speaking = none) :
    Reports c (.userRemoved h)
      { c with
        link := Function.update c.link h .vacated, user := Function.update c.user h none,
        count := c.count - 1, news := some (h, .left user.username) }
  | news {c : Chronicle} {h o : Handle} {msg : Msg} (due : c.news = some (h, msg)) (listens : c.InChat o)
    (apart : o ≠ h) : Reports c (.printed o .interrupt msg) c
  | taken {c : Chronicle} {user : User} {line : Bytes} {h : Handle} (said : c.Says user line .login)
    (held : c.Holds h line) : Reports c (.printed user.handle .afterEnter .taken) c.answered
  | invalid {c : Chronicle} {user : User} {line : Bytes} (said : c.Says user line .login) (nonempty : line ≠ [])
    (bad : validateUsername line = false) : Reports c (.printed user.handle .afterEnter .invalid) c.answered
  | enters {c : Chronicle} {user : User} {line : Bytes} (said : c.Says user line .login) (free : c.Free line)
    (valid : validateUsername line = true) :
    Reports c (.printed user.handle .afterEnter (.welcome line))
      { (c.put { user with state := .chat, username := line }).answered with
        news := some (user.handle, .joins line) }
  | chat {c : Chronicle} {user : User} {line : Bytes} {o : Handle} (said : c.Says user line .chat)
    (nonempty : line ≠ []) (plain : isCommand line = false) (listens : c.InChat o) (apart : o ≠ user.handle) :
    Reports c (.printed o .interrupt (.chat user.username line)) c
  | chatAck {c : Chronicle} {user : User} {line : Bytes} (said : c.Says user line .chat)
    (nonempty : line ≠ []) (plain : isCommand line = false) :
    Reports c (.printed user.handle .afterEnter (.chatAck line)) c.answered
  | help {c : Chronicle} {user : User} {line : Bytes} {cmd : Option Cmd} (ordered : c.Orders user line cmd)
    (unknown : cmd = none ∨ cmd = some .help) :
    Reports c (.printed user.handle .afterEnter .help) c.answered
  | asks {c : Chronicle} {user : User} {line : Bytes} (ordered : c.Orders user line (some .exit)) :
    Reports c (.printed user.handle .afterEnter .confirmExit) (c.put { user with state := .exit }).answered
  | info {c : Chronicle} {user : User} {line : Bytes} (days : Int) (ordered : c.Orders user line (some .info)) :
    Reports c (.printed user.handle .afterEnter (.info days c.count)) c.answered
  | listHeader {c : Chronicle} {user : User} {line : Bytes} (ordered : c.Orders user line (some .list)) :
    Reports c (.sent user.handle .listHeader) c.begun
  | listSelf {c : Chronicle} {user : User} {line : Bytes} (lists : c.Lists user line) :
    Reports c (.sent user.handle (.listSelf user.username)) c
  | listOther {c : Chronicle} {user other : User} {line : Bytes} (lists : c.Lists user line)
    (known : c.user other.handle = some other) (apart : other.handle ≠ user.handle) :
    Reports c (.sent user.handle (.listOther other.username)) c
  | listEnd {c : Chronicle} {user : User} {line : Bytes} (lists : c.Lists user line) :
    Reports c (.prompted user.handle) c.answered
  | notFound {c : Chronicle} {user : User} {line : Bytes} (ordered : c.Orders user line (some .whisper))
    (free : c.Free (whisperTo line)) :
    Reports c (.printed user.handle .afterEnter (.notFound (whisperTo line))) c.answered
  | notInChat {c : Chronicle} {user other : User} {line : Bytes} (addressed : c.Addresses user line other)
    (away : other.state = .exit) :
    Reports c (.printed user.handle .afterEnter (.notInChat (whisperTo line))) c.answered
  | usage {c : Chronicle} {user other : User} {line : Bytes} (addressed : c.Addresses user line other)
    (listens : other.state = .chat) (nothing : whisperText line = []) :
    Reports c (.printed user.handle .afterEnter .usage) c.answered
  | whisper {c : Chronicle} {user other : User} {line : Bytes} (addressed : c.Addresses user line other)
    (listens : other.state = .chat) (text : whisperText line ≠ []) :
    Reports c (.printed other.handle .interrupt (.whisper user.username (whisperText line))) c
  | whisperAck {c : Chronicle} {user other : User} {line : Bytes} (addressed : c.Addresses user line other)
    (listens : other.state = .chat) (text : whisperText line ≠ []) :
    Reports c (.printed user.handle .afterEnter (.whisperAck other.username (whisperText line))) c.answered
  | returns {c : Chronicle} {user : User} {line : Bytes} (said : c.Says user line .exit)
    (no : stringEqIgnoreCase line (bytes "y") = false) :
    Reports c (.printed user.handle .afterEnter (.welcome user.username))
      (c.put { user with state := .chat }).answered
  | goodbye {c : Chronicle} {user : User} {line : Bytes} (said : c.Says user line .exit)
    (yes : stringEqIgnoreCase line (bytes "y") = true) :
    Reports c (.goodbye user.handle) (c.relink user.handle .parted).answered

theorem Reports.due {c c' : Chronicle} {e : Event} (reported : Reports c e c') : c'.due = c.due := by
  cases reported <;> rfl

/-- The events that may come next, and what is known after them: a message comes
with its prompt, and every other prompt ends an answer. -/
inductive Tells : Chronicle → Event → Chronicle → Prop where
  | reports {c c' : Chronicle} {e : Event} (level : c.due = none) (reported : Reports c e c') :
    Tells c e (c'.awaits e.due)
  | prompts {c : Chronicle} {h : Handle} {user : User} (awaited : c.due = some h)
    (known : c.user h = some user) (stays : c.link h ≠ .parted) : Tells c (.prompted h) (c.awaits none)

/-! ## Answers to a line -/

/-- A chronicle of a room in which a user's line is about to be answered. -/
structure Hears (room : Room) (user : User) (line : Bytes) (c : Chronicle) : Prop where
  users : c.user = room.user
  count : c.count = room.roster.length
  known : c.user user.handle = some user
  spoke : c.speaking = some (user, line)
  first : c.listing = false
  level : c.due = none
  stays : c.link user.handle ≠ .parted
  polite : ∀ h, c.InChat h → c.link h ≠ .parted

/-- No line waits for its answer, and nobody for a prompt. -/
structure Rests (c : Chronicle) : Prop where
  quiet : c.speaking = none
  level : c.due = none

/-- A chronicle once the line is answered. -/
structure Follows (days : Int) (room : Room) (user : User) (line : Bytes) (c c' : Chronicle) : Prop where
  obeys : Obeys Tells c (room.speak days user line).2 c'
  users : c'.user = (room.speak days user line).1.user
  count : c'.count = c.count
  rests : c'.Rests
  link : ¬ user.confirms line ∧ c'.link = c.link ∨
    user.confirms line ∧ c'.link = Function.update c.link user.handle .parted

section Answers
variable {days : Int} {c c' : Chronicle} {room : Room} {user : User} {line : Bytes} {h : Handle} {msg : Msg}
  {e : Event}

theorem awaits_self {due : Option Handle} (same : c.due = due) : c.awaits due = c := by
  rw [awaits, ← same]

theorem Reports.tells (reported : Reports c e c') (level : c.due = none) (silent : e.due = none) :
    Tells c e c' := by
  have told := Tells.reports level reported
  rwa [silent, awaits_self (reported.due.trans level)] at told

/-- A message and its prompt. -/
theorem frame_tells {action : Print} (level : c.due = none) (reported : Reports c (.printed h action msg) c')
    (known : c'.user h = some user) (stays : c'.link h ≠ .parted) : Obeys Tells c (frame h action msg) c' := by
  have prompted : Tells (c'.awaits (some h)) (.prompted h) (c'.awaits none) := .prompts rfl known stays
  rw [awaits_self (reported.due.trans level)] at prompted
  exact .read (.reports level reported) (.one prompted)

theorem inChat_of_room (users : c.user = room.user) (chatting : room.inChat h = true) : c.InChat h := by
  rw [Room.inChat, ← users] at chatting
  cases known : c.user h with
  | none =>
    rw [known] at chatting
    cases chatting
  | some user =>
    rw [known] at chatting
    exact ⟨user, known, beq_iff_eq.mp chatting⟩

/-- A message to some of the users in the chat. -/
theorem frames_tell {roster : List Handle} (level : c.due = none) (chosen : Handle → Prop) [DecidablePred chosen]
    (told : ∀ o, chosen o → Reports c (.printed o .interrupt msg) c ∧ c.InChat o ∧ c.link o ≠ .parted) :
    Obeys Tells c (roster.flatMap fun h => if chosen h then frame h .interrupt msg else []) c := by
  refine Obeys.pieces fun o _ => ?_
  by_cases picked : chosen o
  · rw [if_pos picked]
    obtain ⟨reported, ⟨other, known, _⟩, stays⟩ := told o picked
    exact frame_tells level reported known stays
  · rw [if_neg picked]
    exact .done c

theorem toOthers_tells (users : c.user = room.user) (level : c.due = none)
    (polite : ∀ h, c.InChat h → c.link h ≠ .parted)
    {self : Handle} (told : ∀ o, o ≠ self → c.InChat o → Reports c (.printed o .interrupt msg) c) :
    Obeys Tells c (room.toOthers self msg) c :=
  frames_tell level (fun h => h ≠ self ∧ room.inChat h = true) fun o picked =>
    have listens := inChat_of_room users picked.2
    ⟨told o picked.1 listens, listens, polite o listens⟩

theorem put_users (users : c.user = room.user) (new : User) : (c.put new).user = (room.setUser new).user := by
  rw [put, Room.setUser, users]

/-- A name is held as the chronicle says it is. -/
theorem holds_iff_owner (named : room.Named) (users : c.user = room.user) (name : Bytes) (h : Handle) :
    c.Holds h name ↔ room.owner name = some h := by
  rw [named.owned, Holds, users]

theorem free_of_owner (named : room.Named) (users : c.user = room.user) {name : Bytes}
    (free : room.owner name = none) : c.Free name := by
  intro h held
  rw [holds_iff_owner named users, free] at held
  cases held

/-- An answer that changes nothing else. -/
theorem Hears.answer (hears : Hears room user line c)
    (told : Reports c (.printed user.handle .afterEnter msg) c.answered) :
    Obeys Tells c (frame user.handle .afterEnter msg) c.answered :=
  frame_tells hears.level told hears.known hears.stays

/-- An empty line outside the exit is answered by a prompt. -/
theorem Hears.blank {state : State} (hears : Hears room user line c) (said : c.Says user line state)
    (inside : state ≠ .exit) (empty : line = []) : Obeys Tells c [.prompted user.handle] c.answered := by
  subst empty
  exact .one ((Reports.blank said inside).tells hears.level rfl)

theorem Hears.follows (hears : Hears room user line c) {events : List Event}
    (spoken : room.speak days user line = (room, events)) (stays : ¬ user.confirms line)
    (obeys : Obeys Tells c events c.answered) : ∃ c', Follows days room user line c c' :=
  ⟨c.answered, by rw [spoken]; exact obeys, by rw [spoken]; exact hears.users, rfl, ⟨rfl, hears.level⟩,
    .inl ⟨stays, rfl⟩⟩

theorem listing_tells (linked : room.Linked) (hears : Hears room user line c)
    (ordered : c.Orders user line (some .list)) : Obeys Tells c (room.listing user) c.answered := by
  have lists : c.begun.Lists user line := ⟨ordered.spoke, ordered.was, ordered.command, ordered.word, rfl⟩
  have header : Tells c (.sent user.handle .listHeader) c.begun :=
    (Reports.listHeader ordered).tells hears.level rfl
  have own : Tells c.begun (.sent user.handle (.listSelf user.username)) c.begun :=
    (Reports.listSelf lists).tells hears.level rfl
  have last : Tells c.begun (.prompted user.handle) c.answered :=
    (Reports.listEnd lists).tells hears.level rfl
  refine .append (.append (.read header (.one own)) (Obeys.pieces fun k _ => ?_)) (.one last)
  split
  · exact .done c.begun
  · rename_i apart
    apply Obeys.still
    intro e inside
    obtain ⟨other, there, rfl⟩ := List.mem_map.mp inside
    have seated : room.user k = some other := by simpa using there
    have keyed := linked.keyed k other seated
    subst keyed
    have known : c.user other.handle = some other := by rw [hears.users]; exact seated
    exact (Reports.listOther lists known apart).tells hears.level rfl

theorem whisper_tells (linked : room.Linked) (named : room.Named) (hears : Hears room user line c)
    (ordered : c.Orders user line (some .whisper)) : Obeys Tells c (room.whisper user line) c.answered := by
  unfold Room.whisper
  cases owned : room.owner (whisperTo line) with
  | none => exact hears.answer (.notFound ordered (free_of_owner named hears.users owned))
  | some k =>
    obtain ⟨other, seated, past, name⟩ := (named.owned _ k).mp owned
    have keyed := linked.keyed k other seated
    subst keyed
    have there : c.user other.handle = some other := by rw [hears.users]; exact seated
    have addressed : c.Addresses user line other := ⟨ordered, there, name⟩
    simp only [Option.bind_some, seated]
    by_cases listens : other.state = .chat
    · rw [if_neg (by simp [listens])]
      by_cases nothing : whisperText line = []
      · rw [if_pos nothing]
        exact hears.answer (.usage addressed listens nothing)
      · rw [if_neg nothing]
        exact (frame_tells hears.level (.whisper addressed listens nothing) there
          (hears.polite _ ⟨other, there, listens⟩)).append
          (hears.answer (.whisperAck addressed listens nothing))
    · rw [if_pos listens]
      have away : other.state = .exit := by
        cases state : other.state with
        | login => exact absurd state past
        | chat => exact absurd state listens
        | exit => rfl
      exact hears.answer (.notInChat addressed away)

theorem command_follows (days : Int) (linked : room.Linked) (named : room.Named)
    (hears : Hears room user line c) (said : c.Says user line .chat) (nonempty : line ≠ [])
    (command : isCommand line = true) : ∃ c', Follows days room user line c c' := by
  have stays : ¬ user.confirms line := fun confirms => nomatch said.was.symm.trans confirms.1
  have spoken : room.speak days user line = room.command days user line := by
    simp [Room.speak, said.was, nonempty, command]
  cases word : commandOf (commandWord line) with
  | none =>
    have ordered : c.Orders user line none := ⟨said, command, word⟩
    exact hears.follows (spoken.trans (by simp [Room.command, word])) stays
      (hears.answer (.help ordered (.inl rfl)))
  | some cmd =>
    have ordered : c.Orders user line (some cmd) := ⟨said, command, word⟩
    cases cmd with
    | help =>
      exact hears.follows (spoken.trans (by simp [Room.command, word])) stays
        (hears.answer (.help ordered (.inr rfl)))
    | exit =>
      have ran : room.speak days user line = (room.setUser { user with state := .exit },
          frame user.handle .afterEnter .confirmExit) := by
        rw [spoken]
        simp [Room.command, word]
      refine ⟨(c.put { user with state := .exit }).answered, ?_, ?_, rfl, ⟨rfl, hears.level⟩,
        .inl ⟨stays, rfl⟩⟩
      · rw [ran]
        exact frame_tells hears.level (.asks ordered) (Function.update_self _ _ _) hears.stays
      · rw [ran]
        exact put_users hears.users _
    | info =>
      have told := Reports.info days ordered
      rw [hears.count] at told
      exact hears.follows (spoken.trans (by simp [Room.command, word])) stays (hears.answer told)
    | list =>
      exact hears.follows (spoken.trans (by simp [Room.command, word])) stays
        (listing_tells linked hears ordered)
    | whisper =>
      exact hears.follows (spoken.trans (by simp [Room.command, word])) stays
        (whisper_tells linked named hears ordered)

theorem login_follows (days : Int) (named : room.Named) (hears : Hears room user line c)
    (said : c.Says user line .login) : ∃ c', Follows days room user line c c' := by
  have stays : ¬ user.confirms line := fun confirms => nomatch said.was.symm.trans confirms.1
  have here : room.user user.handle = some user := by rw [← hears.users]; exact hears.known
  by_cases blank : line = []
  · exact hears.follows (by simp [Room.speak, said.was, blank]) stays (hears.blank said nofun blank)
  · cases owned : room.owner line with
    | some k =>
      have held := (holds_iff_owner named hears.users line k).mpr owned
      exact hears.follows (by simp [Room.speak, said.was, blank, owned]) stays
        (hears.answer (.taken said held))
    | none =>
      cases valid : validateUsername line with
      | false =>
        exact hears.follows (by simp [Room.speak, said.was, blank, owned, valid]) stays
          (hears.answer (.invalid said blank valid))
      | true =>
        let entered : User := { user with state := .chat, username := line }
        have renamed : user.username ++ line = line := by
          rw [(named.unnamed _ user here).mp said.was, List.nil_append]
        have ran : room.speak days user line = (room.join entered,
            frame user.handle .afterEnter (.welcome line) ++
              (room.join entered).toOthers user.handle (.joins line)) := by
          simp [Room.speak, said.was, blank, owned, valid, renamed, entered]
        let now : Chronicle := { (c.put entered).answered with news := some (user.handle, .joins line) }
        have users : now.user = (room.join entered).user := put_users hears.users entered
        have inside : now.user user.handle = some entered := Function.update_self _ _ _
        have polite : ∀ h, now.InChat h → now.link h ≠ .parted := by
          rintro h ⟨other, there, chatting⟩
          by_cases mine : h = user.handle
          · rw [mine]
            exact hears.stays
          · exact hears.polite h ⟨other, (Function.update_of_ne mine _ _).symm.trans there, chatting⟩
        refine ⟨now, ?_, by rw [ran]; exact users, rfl, ⟨rfl, hears.level⟩, .inl ⟨stays, rfl⟩⟩
        rw [ran]
        refine (frame_tells hears.level (.enters said (free_of_owner named hears.users owned) valid) inside
          hears.stays).append ?_
        exact toOthers_tells users hears.level polite fun o apart listens => .news rfl listens apart

/-- Whatever the line, the answer is true. -/
theorem speak_follows (days : Int) (linked : room.Linked) (named : room.Named)
    (hears : Hears room user line c) : ∃ c', Follows days room user line c c' := by
  cases state : user.state with
  | login => exact login_follows days named hears ⟨hears.spoke, state, hears.first⟩
  | chat =>
    have said : c.Says user line .chat := ⟨hears.spoke, state, hears.first⟩
    have stays : ¬ user.confirms line := by simp [User.confirms, state]
    by_cases blank : line = []
    · exact hears.follows (by simp [Room.speak, state, blank]) stays (hears.blank said nofun blank)
    · cases command : isCommand line with
      | true => exact command_follows days linked named hears said blank command
      | false =>
        have others : Obeys Tells c (room.toOthers user.handle (.chat user.username line)) c :=
          toOthers_tells hears.users hears.level hears.polite fun o apart listens =>
            .chat said blank command listens apart
        exact hears.follows (by simp [Room.speak, state, blank, command]) stays
          (others.append (hears.answer (.chatAck said blank command)))
  | exit =>
    have said : c.Says user line .exit := ⟨hears.spoke, state, hears.first⟩
    cases yes : stringEqIgnoreCase line (bytes "y") with
    | true =>
      have ran : room.speak days user line = (room.flag user.handle, [.goodbye user.handle]) := by
        simp [Room.speak, state, yes]
      refine ⟨(c.relink user.handle .parted).answered, ?_, ?_, rfl, ⟨rfl, hears.level⟩,
        .inr ⟨⟨state, yes⟩, rfl⟩⟩
      · rw [ran]
        exact .one ((Reports.goodbye said yes).tells hears.level rfl)
      · rw [ran]
        exact hears.users
    | false =>
      have ran : room.speak days user line = (room.setUser { user with state := .chat },
          frame user.handle .afterEnter (.welcome user.username)) := by
        simp [Room.speak, state, yes]
      have stays : ¬ user.confirms line := by simp [User.confirms, yes]
      refine ⟨(c.put { user with state := .chat }).answered, ?_, ?_, rfl, ⟨rfl, hears.level⟩,
        .inl ⟨stays, rfl⟩⟩
      · rw [ran]
        exact frame_tells hears.level (.returns said yes) (Function.update_self _ _ _) hears.stays
      · rw [ran]
        exact put_users hears.users _

end Answers

/-! ## Steps -/

/-- A chronicle that is up to date. -/
structure Recounts (world : World) (c : Chronicle) : Prop where
  users : c.user = world.room.user
  count : c.count = world.room.roster.length
  rests : c.Rests
  links : ∀ h, (c.link h).Fits world.stage h ((world.room.conn h).map Conn.state) (world.room.user h)

section Steps
variable {c : Chronicle} {stage stage' : Stage} {room : Room} {todo roster : List Handle} {h : Handle}
  {conn : Conn}

/-- A step after which as much is known as before. -/
theorem Recounts.later (recounts : Recounts ⟨stage, room⟩ c) (ending : stage.Ending → stage'.Ending)
    (parting : ∀ h, stage.Parting h → stage'.Parting h) : Recounts ⟨stage', room⟩ c :=
  ⟨recounts.users, recounts.count, recounts.rests, fun h => (recounts.links h).later _ ending (parting h)⟩

theorem Recounts.at (recounts : Recounts ⟨stage, room⟩ c) (known : room.conn h = some conn) :
    (c.link h).Fits stage h (some conn.state) (room.user h) := by
  have fits := recounts.links h
  rwa [show (World.mk stage room).room.conn h = some conn from known] at fits

theorem Recounts.away (recounts : Recounts ⟨stage, room⟩ c) (fresh : room.conn h = none) :
    c.link h = .away := by
  have fits := recounts.links h
  rw [show (World.mk stage room).room.conn h = none from fresh] at fits
  exact fits.away

/-- Nobody who is in the chat was told goodbye. -/
theorem Recounts.polite {world : World} (recounts : Recounts world c) (h : Handle) (chatting : c.InChat h) :
    c.link h ≠ .parted := by
  intro parted
  have fits := recounts.links h
  rw [parted] at fits
  obtain ⟨_, ⟨own, there, leaving⟩, _⟩ := fits
  obtain ⟨user, known, state⟩ := chatting
  rw [recounts.users, there] at known
  cases known
  rw [leaving] at state
  cases state

/-- A socket that is read belongs to a user whose stream goes on. -/
private theorem polled_tells (inv : World.Inv ⟨.receive (h :: todo), room⟩)
    (recounts : Recounts ⟨.receive (h :: todo), room⟩ c) :
    (∃ user, c.user h = some user) ∧ c.link h = .linked ∧ (room.user h).isSome := by
  obtain ⟨paired, _, polled⟩ := inv.fits
  obtain ⟨conn, known, online⟩ := polled h List.mem_cons_self
  have seated : (room.user h).isSome := (paired h conn known).mpr (by simp [online])
  refine ⟨?_, (recounts.at known).linked (by simp [online]), seated⟩
  rw [recounts.users]
  exact Option.isSome_iff_exists.mp seated

/-- The connections closed by the sweep are those of the users removed. -/
private theorem closed_tells {gone : List Handle} (rests : c.Rests) (once : gone.Nodup)
    (vacated : ∀ h ∈ gone, c.link h = .vacated ∧ c.user h = none) :
    ∃ c', Obeys Tells c (gone.map .closed) c' ∧ c'.user = c.user ∧ c'.count = c.count ∧ c'.Rests ∧
      ∀ h, c'.link h = if h ∈ gone then .away else c.link h := by
  induction gone generalizing c with
  | nil => exact ⟨c, .done c, rfl, rfl, rests, by simp⟩
  | cons first rest ih =>
    obtain ⟨absent, onceRest⟩ := List.nodup_cons.mp once
    obtain ⟨here, nobody⟩ := vacated first List.mem_cons_self
    have quiet : (c.relink first .away).Rests := ⟨rests.quiet, rests.level⟩
    obtain ⟨c', obeys, users, count, after, links⟩ := ih quiet onceRest fun h member => by
      have apart : h ≠ first := fun same => absent (same ▸ member)
      obtain ⟨there, alone⟩ := vacated h (List.mem_cons_of_mem _ member)
      exact ⟨(Function.update_of_ne apart _ _).trans there, alone⟩
    have told := (Reports.closed here nobody).tells rests.level rfl
    refine ⟨c', .read told obeys, users, count, after, fun h => ?_⟩
    rw [links]
    by_cases mine : h = first
    · subst mine
      simp [relink]
    · simp [relink, mine]

private theorem sweep_tells {polled gone : List Handle} (inv : World.Inv ⟨.sweep, room⟩)
    (recounts : Recounts ⟨.sweep, room⟩ c) (goneOnce : gone.Nodup)
    (goneAll : ∀ h, h ∈ gone ↔ ∃ conn, room.conn h = some conn ∧ conn.state = .toBeRemoved) :
    ∃ c', Obeys Tells c (gone.map .closed) c' ∧ Recounts ⟨.wait polled, room.swept⟩ c' := by
  obtain ⟨c', obeys, users, count, rests, links⟩ := closed_tells recounts.rests goneOnce fun h member => by
    obtain ⟨conn, known, flagged⟩ := (goneAll h).mp member
    have alone : room.user h = none := by simpa [flagged] using inv.fits h conn known
    have fits := recounts.at known
    rw [flagged, alone] at fits
    exact ⟨fits.vacated, by rw [recounts.users]; exact alone⟩
  refine ⟨c', obeys, users.trans recounts.users, count.trans recounts.count, rests, fun h => ?_⟩
  rw [links]
  cases known : room.conn h with
  | none =>
    have there : h ∉ gone := fun member => by
      obtain ⟨conn, stored, _⟩ := (goneAll h).mp member
      rw [known] at stored
      cases stored
    simp [there, recounts.away known, Link.Fits, Room.swept, known]
  | some conn =>
    by_cases flagged : conn.state = .toBeRemoved
    · have member : h ∈ gone := (goneAll h).mpr ⟨conn, known, flagged⟩
      simp [member, Link.Fits, Room.swept, known, flagged]
    · have there : h ∉ gone := fun member => by
        obtain ⟨other, stored, state⟩ := (goneAll h).mp member
        rw [known] at stored
        cases stored
        exact flagged state
      simp [there, (recounts.at known).linked flagged, Link.Fits, Room.swept, known, flagged]

private theorem turn_tells (days : Int) (inv : World.Inv ⟨.users (h :: todo), room⟩)
    (recounts : Recounts ⟨.users (h :: todo), room⟩ c) :
    ∃ c', Obeys Tells c (room.turn days h).2 c' ∧ Recounts ⟨.users todo, (room.turn days h).1⟩ c' := by
  have shorter : ∀ k, Stage.Parting k (.users (h :: todo)) → Stage.Parting k (.users todo) :=
    fun k past member => past (List.mem_cons_of_mem _ member)
  rcases room.turn_cases days h with ⟨_, nothing⟩ | ⟨user, conn, line, rest, known, connected, _, turned⟩
  · rw [nothing]
    exact ⟨c, .done c, recounts.later id shorter⟩
  · have own := inv.linked.keyed h user known
    subst own
    have here : c.user user.handle = some user := by rw [recounts.users]; exact known
    have stays := (recounts.at connected).stays (by rw [known]; rfl) fun past => past List.mem_cons_self
    let heard := room.setConn user.handle { conn with inBuf := rest }
    let opened : Chronicle := { c with speaking := some (user, line), listing := false, news := none }
    have staying : opened.link user.handle ≠ .parted := by
      rcases stays with linked | ended
      · simp [opened, linked]
      · simp [opened, ended]
    have hears : Hears heard user line opened :=
      ⟨recounts.users, recounts.count, here, rfl, rfl, recounts.rests.level, staying, recounts.polite⟩
    obtain ⟨c', follows⟩ := speak_follows days (Room.setConn_linked inv.linked user.handle
      { conn with inBuf := rest }) (Room.setConn_named inv.named user.handle { conn with inBuf := rest }) hears
    have became := heard.speak_becomes days user line
    obtain ⟨sameRoster, present, _⟩ := became.frame known
    have states : ∀ k, (heard.conn k).map Conn.state = (room.conn k).map Conn.state := by
      intro k
      by_cases mine : k = user.handle
      · simp [heard, Room.setConn, mine, connected]
      · simp [heard, Room.setConn, mine]
    rw [turned]
    have told : Tells c (.handled user.handle (takenFrom conn.inBuf rest) line) opened :=
      (Reports.handled _ line here stays recounts.rests.quiet).tells recounts.rests.level rfl
    refine ⟨c', .read told follows.obeys, follows.users, ?_, follows.rests, fun k => ?_⟩
    · exact follows.count.trans (recounts.count.trans (congrArg List.length sameRoster.symm))
    · have before := (recounts.links k).later (.users todo) id (shorter k)
      by_cases mine : k = user.handle
      · subst mine
        rcases follows.link with ⟨on, same⟩ | ⟨confirms, same⟩
        · have seated := present user.handle
          rw [show heard.user user.handle = some user from known] at seated
          rw [same]
          show (c.link user.handle).Fits _ _
            ((heard.speak days user line).1.conn user.handle |>.map Conn.state) _
          rw [became.conn_kept on, states]
          exact before.still stays seated
        · -- Only the goodbye of this very line parts its user.
          have said := heard.speak_says days user line
          rw [or_iff_left (fun other => other.1 confirms)] at said
          rw [same, said.2, Function.update_self]
          exact ⟨by simp [heard, Room.flag, Room.setConn], ⟨user, known, confirms.1⟩,
            (List.nodup_cons.mp inv.fits.2.1).1⟩
      · have link : c'.link k = c.link k := by
          rcases follows.link with ⟨_, same⟩ | ⟨_, same⟩
          · rw [same]
          · rw [same]
            exact Function.update_of_ne mine _ _
        rw [link]
        show (c.link k).Fits _ _ ((heard.speak days user line).1.conn k |>.map Conn.state)
          ((heard.speak days user line).1.user k)
        rw [(became.others mine).1, (became.others mine).2, states]
        exact before

private theorem create_tells (days : Int) (inv : World.Inv ⟨.clients (h :: todo), room⟩)
    (recounts : Recounts ⟨.clients (h :: todo), room⟩ c) (known : room.conn h = some conn)
    (new : conn.state = .new) (once : roster.Nodup) (all : ∀ k, k ∈ roster ↔ k = h ∨ k ∈ room.roster) :
    ∃ c', Obeys Tells c (frame h .afterEnter (.greeting room.roster.length days) ++ [.userNew h]) c' ∧
      Recounts ⟨.clients todo, room.seat h roster⟩ c' := by
  have alone : room.user h = none := by
    have pair := inv.fits.1 h conn known
    simpa [new] using pair
  have away : c.user h = none := by rw [recounts.users]; exact alone
  have linked : c.link h = .linked := (recounts.at known).linked (by simp [new])
  let seated : Chronicle := { c.put ⟨h, .login, []⟩ with count := c.count + 1 }
  have inside : seated.user h = some ⟨h, .login, []⟩ := Function.update_self _ _ _
  have absent : h ∉ room.roster := by
    rw [inv.linked.listed h]
    simp [alone]
  refine ⟨seated, ?_, ?_, ?_, ⟨recounts.rests.quiet, recounts.rests.level⟩, fun k => ?_⟩
  · have greeted : Reports c (.printed h .afterEnter (.greeting room.roster.length days)) seated := by
      rw [← show c.count = room.roster.length from recounts.count]
      exact .greets days linked away recounts.rests.quiet
    have announced : Tells seated (.userNew h) seated :=
      (Reports.userNew inside recounts.rests.quiet).tells recounts.rests.level rfl
    have framed := frame_tells recounts.rests.level greeted inside (by simp [seated, put, linked])
    exact framed.append (.one announced)
  · show Function.update c.user h _ = Function.update room.user h _
    rw [recounts.users]
  · have listed : roster.Perm (h :: room.roster) :=
      (List.perm_ext_iff_of_nodup once (List.nodup_cons.mpr ⟨absent, inv.linked.once⟩)).mpr fun k => by
        rw [all, List.mem_cons]
    rw [show (room.seat h roster).roster = roster from rfl, listed.length_eq, List.length_cons,
      ← recounts.count]
  · have before := recounts.links k
    by_cases mine : k = h
    · subst mine
      rw [show seated.link k = .linked from linked]
      exact .inl (by simp [Room.seat, known, new])
    · rw [show (room.seat h roster).user k = room.user k from Function.update_of_ne mine _ _]
      exact before.later _ id fun _ => trivial

private theorem remove_tells {user : User} (inv : World.Inv ⟨.clients (h :: todo), room⟩)
    (recounts : Recounts ⟨.clients (h :: todo), room⟩ c) (stored : room.conn h = some conn)
    (flagged : conn.state = .toBeRemoved) (seated : room.user h = some user)
    (once : roster.Nodup) (all : ∀ k, k ∈ roster ↔ k ≠ h ∧ k ∈ room.roster) :
    ∃ c', Obeys Tells c (.userRemoved h :: farewells room roster user.username) c' ∧
      Recounts ⟨.clients todo, room.unseat user roster⟩ c' := by
  have own := inv.linked.keyed h user seated
  subst own
  have known : c.user user.handle = some user := by rw [recounts.users]; exact seated
  have finished : c.link user.handle = .ended ∨ c.link user.handle = .parted := by
    have fits := recounts.at stored
    rw [flagged] at fits
    exact fits.finished (by rw [seated]; rfl)
  have present : user.handle ∈ room.roster := by
    rw [inv.linked.listed]
    exact Option.isSome_iff_exists.mpr ⟨user, seated⟩
  let gone : Chronicle := { c with
    link := Function.update c.link user.handle .vacated, user := Function.update c.user user.handle none,
    count := c.count - 1, news := some (user.handle, .left user.username) }
  have users : gone.user = (room.unseat user roster).user := by
    show Function.update c.user _ _ = Function.update room.user _ _
    rw [recounts.users]
  have told : Tells c (.userRemoved user.handle) gone :=
    (Reports.userRemoved known finished recounts.rests.quiet).tells recounts.rests.level rfl
  refine ⟨gone, .read told ?_, users, ?_, ⟨recounts.rests.quiet, recounts.rests.level⟩, fun k => ?_⟩
  · refine Obeys.pieces fun o listed => ?_
    split
    · rename_i chatting
      have apart := ((all o).mp listed).1
      have listens := inChat_of_room recounts.users chatting
      have stays := recounts.polite o listens
      obtain ⟨other, there, state⟩ := listens
      have still : gone.user o = some other := (Function.update_of_ne apart _ _).trans there
      exact frame_tells recounts.rests.level (.news rfl ⟨other, still, state⟩ apart) still
        (by simpa [gone, apart] using stays)
    · exact .done gone
  · have listed : (user.handle :: roster).Perm room.roster := by
      refine (List.perm_ext_iff_of_nodup (List.nodup_cons.mpr ⟨fun member => ((all _).mp member).1 rfl, once⟩)
        inv.linked.once).mpr fun k => ?_
      rw [List.mem_cons, all]
      constructor
      · rintro (rfl | ⟨_, member⟩)
        · exact present
        · exact member
      · intro member
        by_cases mine : k = user.handle
        · exact .inl mine
        · exact .inr ⟨mine, member⟩
    have size := listed.length_eq
    rw [List.length_cons] at size
    show c.count - 1 = roster.length
    have counted := recounts.count
    simp only at counted
    omega
  · by_cases mine : k = user.handle
    · subst mine
      rw [show gone.link user.handle = .vacated from Function.update_self _ _ _]
      exact ⟨by simp [Room.unseat, stored, flagged], Function.update_self _ _ _⟩
    · rw [show gone.link k = c.link k from Function.update_of_ne mine _ _,
        show (room.unseat user roster).user k = room.user k from Function.update_of_ne mine _ _]
      exact (recounts.links k).later _ id fun _ => trivial

/-- Once a connection is known to be linked anew or ended. -/
private theorem relink_recounts {conn' : Conn} {link : Link} (recounts : Recounts ⟨stage, room⟩ c)
    (ending : stage.Ending → stage'.Ending) (parting : ∀ h, stage.Parting h → stage'.Parting h)
    (fits : link.Fits stage' h (some conn'.state) (room.user h)) :
    Recounts ⟨stage', room.setConn h conn'⟩ (c.relink h link) := by
  refine ⟨recounts.users, recounts.count, ⟨recounts.rests.quiet, recounts.rests.level⟩, fun k => ?_⟩
  by_cases mine : k = h
  · subst mine
    simpa [relink, Room.setConn] using fits
  · simpa [relink, Room.setConn, mine] using (recounts.links k).later _ ending (parting k)

/-- Every step of the main loop is told as it is. -/
theorem step_tells {env : Env} {world world' : World} {events : List Event} (inv : world.Inv)
    (stepped : World.Step env world events world') (recounts : Recounts world c) :
    ∃ c', Obeys Tells c events c' ∧ Recounts world' c' := by
  cases stepped with
  | sweep _ _ _ _ goneOnce goneAll => exact sweep_tells inv recounts goneOnce goneAll
  | quit => exact ⟨c, .done c, recounts.later nofun nofun⟩
  | calm => exact ⟨c, .done c, recounts.later nofun nofun⟩
  | ready => exact ⟨c, .done c, recounts.later nofun nofun⟩
  | @accept polled room h _ _ fresh =>
    have nobody : room.user h = none := by
      by_contra there
      have connected := inv.linked.seated h (Option.isSome_iff_ne_none.mpr there)
      rw [show room.conn h = none from fresh] at connected
      cases connected
    have told := Reports.accepted (recounts.away fresh) (by rw [recounts.users]; exact nobody)
    exact ⟨_, .one (told.tells recounts.rests.level rfl), relink_recounts recounts nofun nofun (.inl rfl)⟩
  | skip => exact ⟨c, .done c, recounts.later id nofun⟩
  | @receive todo room h conn data known =>
    obtain ⟨⟨user, there⟩, listens, _⟩ := polled_tells inv recounts
    have fits := (recounts.at known).later (.receive todo) id nofun
    rw [listens] at fits
    have same : c.relink h .linked = c := by
      rw [relink, ← listens, Function.update_eq_self]
    have told := Reports.received data there listens recounts.rests.quiet
    refine ⟨c, .one (told.tells recounts.rests.level rfl), ?_⟩
    rw [← same]
    exact relink_recounts recounts id nofun fits
  | hangUp =>
    obtain ⟨⟨user, known⟩, listens, seated⟩ := polled_tells inv recounts
    have told := Reports.hungUp known listens recounts.rests.quiet
    exact ⟨_, .one (told.tells recounts.rests.level rfl),
      relink_recounts recounts id nofun ⟨rfl, seated, trivial⟩⟩
  | received => exact ⟨c, .done c, recounts.later id nofun⟩
  | flush => exact ⟨c, .done c, recounts.later id nofun⟩
  | turn days => exact turn_tells days inv recounts
  | updated => exact ⟨c, .done c, recounts.later id fun _ _ => trivial⟩
  | create days roster known new once all => exact create_tells days inv recounts known new once all
  | remove roster known flagged seated once all =>
    exact remove_tells inv recounts known flagged seated once all
  | keep => exact ⟨c, .done c, recounts.later id fun _ => id⟩
  | @done room =>
    refine ⟨c, .done c, recounts.users, recounts.count, recounts.rests, fun h => ?_⟩
    cases known : room.conn h with
    | none =>
      rw [recounts.away known]
      rfl
    | some conn =>
      have pair : (room.user h).isSome ↔ conn.state ≠ .toBeRemoved := by
        simpa using inv.fits.1 h conn known
      exact (recounts.at known).settled pair
  | stutter => exact ⟨c, .done c, recounts⟩

end Steps

/-! ## Runs -/

theorem empty_recounts : Recounts World.empty empty := ⟨rfl, rfl, ⟨rfl, rfl⟩, fun _ => rfl⟩

/-- Every path of the world is a chronicle. -/
theorem path_tells {world : World} {events : List Event} (path : Path World.Goes World.empty events world) :
    ∃ c, Obeys Tells empty events c ∧ Recounts world c :=
  path.obeys empty_recounts fun _ _ _ _ recounts stepped => by
    obtain ⟨inv, env, moved⟩ := stepped
    exact step_tells inv moved recounts

/-- In every orderly run, every message the server sends is true: it answers the
line being handled, passes it on to those it is for, or reports who just came or
went, with the names, the texts and the numbers that the events before it account
for. At the end they account for the users there are. -/
theorem every_message_true {listener : Handle} {now : Int} {sys : Sys}
    (reached : Reaches step Orderly (start listener now) sys) :
    ∃ c, Obeys Tells empty sys.app.trace c ∧ c.user = sys.app.room.user ∧ c.count = sys.app.fromHandle.len := by
  obtain ⟨c, obeys, recounts⟩ := path_tells (start_simulates reached fun _ _ => id)
  refine ⟨c, obeys, recounts.users, recounts.count.trans ?_⟩
  exact roster_eq (run_good reached (fun _ _ => id) (start_good listener now)).sound.toLaid

/-- A user whispers to another. -/
private def confides : List (Nat × Env) :=
  [(107, .connects 4), (109, .brings 4 (bytes "ab\n")), (110, .connects 5), (111, .brings 5 (bytes "cd\n")),
    (111, .brings 5 (bytes "/w ab hi\n"))]

private theorem confides_unsent : ∀ env ∈ rounds confides, ∀ h data, env.send h data = none :=
  rounds_unsent ⟨fun _ _ => rfl, fun _ _ => rfl, fun _ _ => rfl, fun _ _ => rfl, fun _ _ => rfl⟩

/-- A whisper in a chronicle. -/
theorem every_message_true_whisper : ∃ (sys : Sys) (c : Chronicle),
    .printed 4 .interrupt (.whisper (bytes "cd") (bytes "hi")) ∈ sys.app.trace ∧
    Obeys Tells empty sys.app.trace c ∧ c.user = sys.app.room.user ∧ c.count = sys.app.fromHandle.len := by
  have outcome : (drive step separate .assertion (rounds confides) (start 3 0)).map (fun sys =>
      decide (.printed 4 .interrupt (.whisper (bytes "cd") (bytes "hi")) ∈ sys.app.trace)) = .ok true := by
    decide +kernel
  obtain ⟨sys, driven, whispered⟩ := map_eq_ok.mp outcome
  obtain ⟨c, told⟩ := every_message_true
    ((reaches_of_drive confides_unsent driven).weaken fun _ _ => Separate.orderly)
  exact ⟨sys, c, of_decide_eq_true whispered, told⟩

end Chronicle
end AuroraComms
