import AuroraComms.Chronicle

/-! One client's dialogue with the server. Of all that happens, the events that
concern one client follow a session that can be checked as they come: what is
shown to it in which state, that its name stays, that each line has one answer, and
that nothing is shown before the greeting or after the goodbye. -/
namespace AuroraComms
open Meta Library.Run Library.Protocol

/-- The client an event is about. -/
def Event.client : Event → Handle
  | .accepted h | .received h _ | .hungUp h | .handled h _ _ | .printed h _ _ | .sent h _ | .prompted h
  | .goodbye h | .userNew h | .userRemoved h | .closed h => h

/-- The state of a user, with its name once it has one. -/
inductive Standing where
  | login
  | chat (name : Bytes)
  | exit (name : Bytes)
  deriving DecidableEq, Repr

def User.standing (user : User) : Standing :=
  match user.state with
  | .login => .login
  | .chat => .chat user.username
  | .exit => .exit user.username

theorem User.standing_login {user : User} (entering : user.state = .login) : user.standing = .login := by
  rw [standing, entering]

theorem User.standing_chat {user : User} (chatting : user.state = .chat) :
    user.standing = .chat user.username := by
  rw [standing, chatting]

theorem User.standing_exit {user : User} (leaving : user.state = .exit) :
    user.standing = .exit user.username := by
  rw [standing, leaving]

/-- What a client is owed: nothing, the answer to a line, which is no more than a
prompt to most users if the line is blank, or the rest of a list. -/
inductive Owed where
  | nothing
  | answer
  | blank
  | list
  deriving DecidableEq, Repr

/-- A message that comes between a user's own lines: it is about someone else. Only
while its own line is being answered can a user hear from itself, as it whispers to
itself. -/
def Msg.reaches (name : Bytes) (owed : Owed) : Msg → Bool
  | .joins other | .chat other _ => other ≠ name && validateUsername other
  | .left other => other ≠ name
  | .whisper other _ => (other ≠ name || owed = .answer) && validateUsername other
  | _ => false

/-- An answer in the chat that leads nowhere else. -/
def Msg.remains : Msg → Bool
  | .chatAck _ | .help | .info .. | .notFound _ | .notInChat _ | .usage => true
  | .whisperAck other _ => validateUsername other
  | _ => false

/-- A part of a list, but for its header. -/
def Msg.lists (name : Bytes) : Msg → Bool
  | .listSelf own => own = name
  | .listOther other => other ≠ name
  | _ => false

/-- The state after a message was shown, if it may be shown. -/
def Standing.shown (owed : Owed) : Standing → Print → Msg → Option Standing
  | .login, .afterEnter, .taken | .login, .afterEnter, .invalid => some .login
  | .login, .afterEnter, .welcome name => if validateUsername name then some (.chat name) else none
  | .chat name, .afterEnter, .confirmExit => some (.exit name)
  | .chat name, .afterEnter, msg => if msg.remains then some (.chat name) else none
  | .chat name, .interrupt, msg => if msg.reaches name owed then some (.chat name) else none
  | .exit name, .afterEnter, .welcome again => if again = name then some (.chat name) else none
  | _, _, _ => none

/-- What is owed after a message: an answer takes what it answers, and a message of
others takes nothing. Only who is asked to confirm its exit is answered a blank line. -/
def Owed.told : Owed → Standing → Print → Option Owed
  | owed, _, .interrupt => some owed
  | .answer, _, .afterEnter => some .nothing
  | .blank, .exit _, .afterEnter => some .nothing
  | _, _, .afterEnter => none

/-- A prompt that comes with no message answers a blank line or ends a list. -/
def Owed.ends : Owed → Standing → Bool
  | .blank, .login | .blank, .chat _ | .list, .chat _ => true
  | _, _ => false

/-- Where a client's dialogue with the server stands; `awaits` while a message was
shown and its prompt was not. -/
inductive Dialogue where
  | closed
  | connected
  | talking (standing : Standing) (ended : Bool) (owed : Owed) (awaits : Bool)
  | parting (name : Bytes)
  | removed
  deriving DecidableEq, Repr

namespace Dialogue

def standing : Dialogue → Option Standing
  | .talking standing .. => some standing
  | .parting name => some (.exit name)
  | _ => none

/-- A message in a dialogue. -/
def shown (standing : Standing) (ended : Bool) (owed : Owed) (action : Print) (msg : Msg) : Option Dialogue := do
  let left ← owed.told standing action
  let after ← standing.shown owed action msg
  return .talking after ended left true

/-- The dialogue after an event of the client, if the event fits. -/
def answer : Dialogue → Event → Option Dialogue
  | .closed, .accepted _ => some .connected
  | .connected, .printed _ .afterEnter (.greeting ..) => some (.talking .login false .nothing true)
  | .talking standing ended owed true, .prompted _ => some (.talking standing ended owed false)
  | .talking standing ended owed false, .prompted _ =>
    if owed.ends standing then some (.talking standing ended .nothing false) else none
  | .talking standing ended owed false, .printed _ action msg => shown standing ended owed action msg
  | .talking .login ended .nothing false, .userNew _ => some (.talking .login ended .nothing false)
  | .talking standing false .nothing false, .received .. => some (.talking standing false .nothing false)
  | .talking standing false .nothing false, .hungUp _ => some (.talking standing true .nothing false)
  | .talking standing ended .nothing false, .handled _ _ line =>
    some (.talking standing ended (if line = [] then .blank else .answer) false)
  | .talking (.chat name) ended .answer false, .sent _ .listHeader =>
    some (.talking (.chat name) ended .list false)
  | .talking (.chat name) ended .list false, .sent _ msg =>
    if msg.lists name then some (.talking (.chat name) ended .list false) else none
  | .talking (.exit name) _ .answer false, .goodbye _ => some (.parting name)
  | .talking _ true .nothing false, .userRemoved _ => some .removed
  | .parting _, .userRemoved _ => some .removed
  | .removed, .closed _ => some .closed
  | _, _ => none

/-- The events of other clients pass by. -/
def next (h : Handle) (dialogue : Dialogue) (e : Event) : Option Dialogue :=
  if e.client = h then dialogue.answer e else some dialogue

end Dialogue

/-! ## One answer to a line -/

def Event.asks : Event → Bool
  | .handled .. => true
  | _ => false

/-- An answer to a line, or where it begins. -/
def Event.answers : Event → Bool
  | .printed _ .afterEnter (.greeting ..) => false
  | .printed _ .afterEnter _ | .sent _ .listHeader | .goodbye _ => true
  | _ => false

namespace Dialogue

/-- How many lines wait for their answer. -/
def unanswered : Dialogue → Nat
  | .talking _ _ .answer _ | .talking _ _ .blank _ => 1
  | _ => 0

variable {d d' : Dialogue} {e : Event} {events : List Event}

theorem told_once {owed left : Owed} {standing after : Standing} {action : Print} {msg : Msg} {h : Handle}
    {ended : Bool} (told : owed.told standing action = some left) :
    (if (Event.printed h action msg).answers then 1 else 0) + (talking after ended left true).unanswered ≤
      (talking standing ended owed false).unanswered := by
  cases action with
  | interrupt =>
    cases told
    cases owed <;> exact Nat.le_refl _
  | afterEnter =>
    have one : (if (Event.printed h .afterEnter msg).answers then 1 else 0) ≤ 1 := by
      split <;> decide
    cases owed with
    | nothing | list => cases told
    | answer =>
      cases told
      exact one
    | blank =>
      cases standing with
      | login | chat => cases told
      | exit =>
        cases told
        exact one

/-- An answer takes a line that waits for it. -/
theorem answer_once (fits : d.answer e = some d') :
    (if e.answers then 1 else 0) + d'.unanswered ≤ (if e.asks then 1 else 0) + d.unanswered := by
  unfold answer at fits
  split at fits
  case h_3 owed h =>
    cases fits
    cases owed <;> exact Nat.le_refl _
  case h_4 =>
    split at fits <;> cases fits
    exact Nat.zero_le _
  case h_5 standing ended owed h action msg =>
    obtain ⟨left, told, fits⟩ := Option.bind_eq_some_iff.mp fits
    obtain ⟨after, _, same⟩ := Option.bind_eq_some_iff.mp fits
    cases same
    exact (told_once told).trans (Nat.le_add_left _ _)
  case h_9 line =>
    cases fits
    by_cases empty : line = [] <;> simp [empty, unanswered, Event.answers, Event.asks]
  case h_11 msg =>
    -- The header of a list is no part of it.
    split at fits <;> cases fits
    cases msg with
    | listHeader => contradiction
    | _ => exact Nat.le_refl _
  all_goals cases fits
  all_goals exact Nat.le_refl _

theorem next_once {h : Handle} (fits : d.next h e = some d') :
    (if e.client = h && e.answers then 1 else 0) + d'.unanswered ≤
      (if e.client = h && e.asks then 1 else 0) + d.unanswered := by
  unfold next at fits
  split at fits
  · rename_i mine
    simpa [mine] using answer_once fits
  · rename_i apart
    cases fits
    simp [apart]

/-- There are no more answers than lines, and a line that still waits has none. -/
theorem answered_once {h : Handle} (obeys : Obeys (Accepts (next h)) d events d') :
    events.countP (fun e => e.client = h && e.answers) + d'.unanswered ≤
      events.countP (fun e => e.client = h && e.asks) + d.unanswered := by
  induction obeys with
  | done => exact Nat.le_refl _
  | @read d _ _ e rest first _ ih =>
    have step := next_once first
    rw [List.countP_cons, List.countP_cons]
    omega

end Dialogue

/-! ## What the chronicle keeps -/

namespace Chronicle

/-- Users, names and connections as a chronicle keeps them. -/
structure Kept (c : Chronicle) : Prop where
  keyed : ∀ h user, c.user h = some user → user.handle = h
  seated : ∀ h user, c.user h = some user → c.link h = .linked ∨ c.link h = .ended ∨ c.link h = .parted
  unnamed : ∀ h user, c.user h = some user → user.state = .login → user.username = []
  valid : ∀ h user, c.user h = some user → user.state ≠ .login → validateUsername user.username = true
  unique : ∀ h k name, c.Holds h name → c.Holds k name → h = k
  ended : ∀ h, c.link h = .ended → (c.user h).isSome
  parted : ∀ h, c.link h = .parted → ∃ user, c.user h = some user ∧ user.state = .exit
  spoke : ∀ user line, c.speaking = some (user, line) →
    c.user user.handle = some user ∧ c.link user.handle ≠ .parted
  news : ∀ h msg, c.news = some (h, msg) →
    (∃ name, msg = .joins name ∧ c.Holds h name) ∨ ∃ name, msg = .left name ∧ c.Free name

variable {c c' : Chronicle} {user new : User} {line name : Bytes} {h : Handle} {e : Event}

theorem Kept.empty : Kept Chronicle.empty :=
  ⟨nofun, nofun, nofun, nofun, nofun, nofun, nofun, nofun, nofun⟩

theorem Kept.answered (kept : Kept c) : Kept c.answered :=
  ⟨kept.keyed, kept.seated, kept.unnamed, kept.valid, kept.unique, kept.ended, kept.parted, nofun, kept.news⟩

/-- Nothing that is kept depends on who is owed what. -/
theorem Kept.awaits (kept : Kept c) (due : Option Handle) : Kept (c.awaits due) := { kept with }

theorem Kept.begun (kept : Kept c) : Kept c.begun := { kept with }

theorem put_user (c : Chronicle) (new : User) {k : Handle} {other : User}
    (there : (c.put new).user k = some other) :
    (k = new.handle ∧ other = new) ∨ (k ≠ new.handle ∧ c.user k = some other) := by
  change Function.update c.user new.handle (some new) k = some other at there
  rw [Function.update_apply] at there
  split at there
  · rename_i mine
    exact .inl ⟨mine, (Option.some.inj there).symm⟩
  · rename_i apart
    exact .inr ⟨apart, there⟩

theorem put_holds (c : Chronicle) (new : User) (k : Handle) (name : Bytes) :
    (c.put new).Holds k name ↔ (k = new.handle ∧ new.state ≠ .login ∧ new.username = name) ∨
      (k ≠ new.handle ∧ c.Holds k name) := by
  constructor
  · rintro ⟨other, there, past, own⟩
    rcases put_user c new there with ⟨mine, rfl⟩ | ⟨apart, old⟩
    · exact .inl ⟨mine, past, own⟩
    · exact .inr ⟨apart, other, old, past, own⟩
  · rintro (⟨rfl, past, own⟩ | ⟨apart, other, there, past, own⟩)
    · exact ⟨new, Function.update_self _ _ _, past, own⟩
    · exact ⟨other, (Function.update_of_ne apart _ _).trans there, past, own⟩

/-- A user in another state, or under another name. -/
theorem Kept.put (kept : Kept c) (new : User) (known : c.user new.handle = some user)
    (stays : c.link new.handle ≠ .parted)
    (past : new.state ≠ .login) (valid : validateUsername new.username = true)
    (own : ∀ k, k ≠ new.handle → ¬ c.Holds k new.username) {news : Option (Handle × Msg)}
    (due : ∀ h msg, news = some (h, msg) → (∃ name, msg = .joins name ∧ (c.put new).Holds h name) ∨
      ∃ name, msg = .left name ∧ (c.put new).Free name) :
    Kept { (c.put new).answered with news := news } where
  keyed k other there := by
    rcases put_user c new there with ⟨rfl, rfl⟩ | ⟨_, old⟩
    · rfl
    · exact kept.keyed k other old
  seated k other there := by
    rcases put_user c new there with ⟨rfl, _⟩ | ⟨_, old⟩
    · exact kept.seated _ user known
    · exact kept.seated k other old
  unnamed k other there entering := by
    rcases put_user c new there with ⟨_, rfl⟩ | ⟨_, old⟩
    · exact absurd entering past
    · exact kept.unnamed k other old entering
  valid k other there inside := by
    rcases put_user c new there with ⟨_, rfl⟩ | ⟨_, old⟩
    · exact valid
    · exact kept.valid k other old inside
  unique k k' name held held' := by
    rcases (put_holds c new k name).mp held with ⟨mine, _, rfl⟩ | ⟨apart, first⟩
    · rcases (put_holds c new k' new.username).mp held' with ⟨mine', _, _⟩ | ⟨apart', second⟩
      · rw [mine, mine']
      · exact absurd second (own k' apart')
    · rcases (put_holds c new k' name).mp held' with ⟨_, _, rfl⟩ | ⟨_, second⟩
      · exact absurd first (own k apart)
      · exact kept.unique k k' name first second
  ended k finished := by
    show (Function.update c.user new.handle _ k).isSome
    by_cases mine : k = new.handle
    · rw [mine, Function.update_self]
      rfl
    · rw [Function.update_of_ne mine]
      exact kept.ended k finished
  parted k gone := by
    have apart : k ≠ new.handle := by
      rintro rfl
      exact stays gone
    obtain ⟨other, there, leaving⟩ := kept.parted k gone
    exact ⟨other, (Function.update_of_ne apart _ _).trans there, leaving⟩
  spoke := nofun
  news := due

/-- A user that keeps its name keeps it to itself. -/
theorem Kept.restated (kept : Kept c) (known : c.user user.handle = some user)
    (stays : c.link user.handle ≠ .parted) (past : user.state ≠ .login) {state : State}
    (inside : state ≠ .login) : Kept (c.put { user with state := state }).answered := by
  have mine : c.Holds user.handle user.username := ⟨user, known, past, rfl⟩
  have same : ∀ k name, (c.put { user with state := state }).Holds k name ↔ c.Holds k name := by
    intro k name
    refine (put_holds c _ k name).trans ⟨?_, fun held => ?_⟩
    · rintro (⟨rfl, _, rfl⟩ | ⟨_, held⟩)
      · exact mine
      · exact held
    · by_cases self : k = user.handle
      · subst self
        obtain ⟨other, there, _, own⟩ := held
        rw [known] at there
        cases there
        exact .inl ⟨rfl, inside, own⟩
      · exact .inr ⟨self, held⟩
  refine kept.put { user with state := state } known stays inside (kept.valid _ user known past)
    (fun k apart held => apart (kept.unique k _ _ held mine)) fun h msg due => ?_
  rcases kept.news h msg due with ⟨name, rfl, held⟩ | ⟨name, rfl, free⟩
  · exact .inl ⟨name, rfl, (same h name).mpr held⟩
  · exact .inr ⟨name, rfl, fun k held => free k ((same k name).mp held)⟩

/-- What is known of a connection changes, and no user with it. -/
theorem Kept.relink (kept : Kept c) {link : Link}
    (seated : ∀ user, c.user h = some user → (link = .linked ∨ link = .ended ∨ link = .parted) ∧
      (link = .parted → user.state = .exit) ∧ ∀ line, link = .parted → c.speaking ≠ some (user, line))
    (nobody : c.user h = none → link ≠ .ended ∧ link ≠ .parted) : Kept (c.relink h link) where
  keyed := kept.keyed
  unnamed := kept.unnamed
  valid := kept.valid
  unique := kept.unique
  news := kept.news
  seated k user known := by
    by_cases mine : k = h
    · subst mine
      simpa [Chronicle.relink] using (seated user known).1
    · simpa [Chronicle.relink, mine] using kept.seated k user known
  ended k finished := by
    by_cases mine : k = h
    · subst mine
      simp only [Chronicle.relink, Function.update_self] at finished
      exact Option.isSome_iff_ne_none.mpr fun alone => (nobody alone).1 finished
    · simp only [Chronicle.relink, Function.update_of_ne mine] at finished
      exact kept.ended k finished
  parted k gone := by
    by_cases mine : k = h
    · subst mine
      simp only [Chronicle.relink, Function.update_self] at gone
      obtain ⟨user, known⟩ := Option.ne_none_iff_exists'.mp fun alone => (nobody alone).2 gone
      exact ⟨user, known, (seated user known).2.1 gone⟩
    · simp only [Chronicle.relink, Function.update_of_ne mine] at gone
      exact kept.parted k gone
  spoke user line said := by
    obtain ⟨known, stays⟩ := kept.spoke user line said
    refine ⟨known, ?_⟩
    by_cases mine : user.handle = h
    · subst mine
      simp only [Chronicle.relink, Function.update_self]
      exact fun gone => (seated user known).2.2 line gone said
    · simpa [Chronicle.relink, mine] using stays

/-- Nobody was told goodbye before asking to leave. -/
theorem Kept.polite (kept : Kept c) (known : c.user h = some user) (staying : user.state ≠ .exit) :
    c.link h ≠ .parted := by
  intro gone
  obtain ⟨other, there, leaving⟩ := kept.parted h gone
  rw [known] at there
  cases there
  exact staying leaving

/-- The user of a line that was not answered yet. -/
theorem Kept.said {state : State} (kept : Kept c) (said : c.Says user line state) :
    c.user user.handle = some user ∧ c.link user.handle ≠ .parted := kept.spoke user line said.spoke

private theorem Kept.handled (kept : Kept c) (known : c.user h = some user)
    (stays : c.link h = .linked ∨ c.link h = .ended) :
    Kept { c with speaking := some (user, line), listing := false, news := none } := by
  have own := kept.keyed h user known
  subst own
  refine { kept with spoke := ?_, news := nofun }
  rintro _ _ ⟨⟩
  refine ⟨known, ?_⟩
  show c.link user.handle ≠ .parted
  rcases stays with linked | ended
  · simp [linked]
  · simp [ended]

private theorem Kept.greeted (kept : Kept c) (linked : c.link h = .linked) (nobody : c.user h = none) :
    Kept { c.put ⟨h, .login, []⟩ with count := c.count + 1 } := by
  have same : ∀ k name, (c.put ⟨h, .login, []⟩).Holds k name ↔ c.Holds k name := by
    intro k name
    refine (put_holds c _ k name).trans ⟨?_, fun held => ?_⟩
    · rintro (⟨_, past, _⟩ | ⟨_, held⟩)
      · exact absurd rfl past
      · exact held
    · refine .inr ⟨?_, held⟩
      rintro rfl
      obtain ⟨other, there, _⟩ := held
      rw [nobody] at there
      cases there
  refine ⟨?_, ?_, ?_, ?_, ?_, ?_, ?_, ?_, ?_⟩
  · intro k other there
    rcases put_user c _ there with ⟨rfl, rfl⟩ | ⟨_, old⟩
    · rfl
    · exact kept.keyed k other old
  · intro k other there
    rcases put_user c _ there with ⟨rfl, _⟩ | ⟨_, old⟩
    · exact .inl linked
    · exact kept.seated k other old
  · intro k other there entering
    rcases put_user c _ there with ⟨_, rfl⟩ | ⟨_, old⟩
    · rfl
    · exact kept.unnamed k other old entering
  · intro k other there past
    rcases put_user c _ there with ⟨_, rfl⟩ | ⟨_, old⟩
    · exact absurd rfl past
    · exact kept.valid k other old past
  · intro k k' name held held'
    exact kept.unique k k' name ((same k name).mp held) ((same k' name).mp held')
  · intro k finished
    have apart : k ≠ h := by
      rintro rfl
      exact nomatch linked.symm.trans finished
    show (Function.update c.user h _ k).isSome
    rw [Function.update_of_ne apart]
    exact kept.ended k finished
  · intro k gone
    have apart : k ≠ h := by
      rintro rfl
      exact nomatch linked.symm.trans gone
    obtain ⟨other, there, leaving⟩ := kept.parted k gone
    exact ⟨other, (Function.update_of_ne apart _ _).trans there, leaving⟩
  · intro user line said
    obtain ⟨known, stays⟩ := kept.spoke user line said
    refine ⟨?_, stays⟩
    have apart : user.handle ≠ h := by
      rintro rfl
      rw [nobody] at known
      cases known
    exact (Function.update_of_ne apart _ _).trans known
  · intro k msg due
    rcases kept.news k msg due with ⟨name, rfl, held⟩ | ⟨name, rfl, free⟩
    · exact .inl ⟨name, rfl, (same k name).mpr held⟩
    · exact .inr ⟨name, rfl, fun k' held => free k' ((same k' name).mp held)⟩

/-- With a user its name goes. -/
private theorem Kept.removed (kept : Kept c) (known : c.user h = some user) (quiet : c.speaking = none) :
    Kept { c with
      link := Function.update c.link h .vacated, user := Function.update c.user h none,
      count := c.count - 1, news := some (h, .left user.username) } := by
  have there : ∀ k other, Function.update c.user h none k = some other → k ≠ h ∧ c.user k = some other := by
    intro k other there
    rw [Function.update_apply] at there
    split at there
    · cases there
    · exact ⟨by assumption, there⟩
  refine ⟨?_, ?_, ?_, ?_, ?_, ?_, ?_, by simp [quiet], ?_⟩
  · exact fun k other seen => kept.keyed k other (there k other seen).2
  · intro k other seen
    obtain ⟨apart, old⟩ := there k other seen
    simpa [apart] using kept.seated k other old
  · exact fun k other seen => kept.unnamed k other (there k other seen).2
  · exact fun k other seen => kept.valid k other (there k other seen).2
  · rintro k k' name ⟨other, seen, past, own⟩ ⟨other', seen', past', own'⟩
    exact kept.unique k k' name ⟨other, (there k other seen).2, past, own⟩
      ⟨other', (there k' other' seen').2, past', own'⟩
  · intro k finished
    by_cases mine : k = h
    · simp [mine] at finished
    · simp only [Function.update_of_ne mine] at finished ⊢
      exact kept.ended k finished
  · intro k gone
    by_cases mine : k = h
    · simp [mine] at gone
    · simp only [Function.update_of_ne mine] at gone ⊢
      exact kept.parted k gone
  · rintro _ _ ⟨⟩
    refine .inr ⟨_, rfl, ?_⟩
    rintro k ⟨other, seen, past, own⟩
    obtain ⟨apart, old⟩ := there k other seen
    by_cases entering : user.state = .login
    · -- Nobody in the chat is without a name.
      rw [kept.unnamed h user known entering] at own
      have valid := kept.valid k other old past
      rw [own] at valid
      exact absurd valid (by decide)
    · exact apart (kept.unique k h _ ⟨other, old, past, own⟩ ⟨user, known, entering, rfl⟩)

theorem Kept.reports (kept : Kept c) (reported : Reports c e c') : Kept c' := by
  cases reported with
  | received | userNew | news | chat | listSelf | listOther | whisper => exact kept
  | listHeader => exact kept.begun
  | blank | listEnd | taken | invalid | chatAck | help | info | notFound | notInChat | usage | whisperAck =>
    exact kept.answered
  | accepted away nobody => exact kept.relink (by simp [nobody]) (by simp)
  | closed vacated nobody => exact kept.relink (by simp [nobody]) (by simp)
  | hungUp known => exact kept.relink (by simp) (by simp [known])
  | handled taken line known stays => exact kept.handled known stays
  | greets days linked nobody => exact kept.greeted linked nobody
  | userRemoved known finished quiet => exact kept.removed known quiet
  | @enters user line said free valid =>
    obtain ⟨known, stays⟩ := kept.said said
    refine kept.put { user with state := .chat, username := line } known stays nofun valid
      (fun k _ => free k) ?_
    rintro _ _ ⟨⟩
    exact .inl ⟨line, rfl, (put_holds c _ _ _).mpr (.inl ⟨rfl, nofun, rfl⟩)⟩
  | asks ordered =>
    obtain ⟨known, stays⟩ := kept.said ordered.toSays
    exact kept.restated known stays (by simp [ordered.was]) nofun
  | returns said =>
    obtain ⟨known, stays⟩ := kept.said said
    exact kept.restated known stays (by simp [said.was]) nofun
  | @goodbye user line said =>
    obtain ⟨known, _⟩ := kept.said said
    refine kept.answered.relink (h := user.handle) (fun other there => ?_) fun alone => ?_
    · change c.user user.handle = some other at there
      rw [known] at there
      cases there
      exact ⟨.inr (.inr rfl), fun _ => said.was, nofun⟩
    · change c.user user.handle = none at alone
      rw [known] at alone
      cases alone

/-- Every event keeps users, names and connections in order. -/
theorem Kept.tells (kept : Kept c) (told : Tells c e c') : Kept c' := by
  cases told with
  | reports level reported => exact (kept.reports reported).awaits _
  | prompts => exact kept.awaits none

/-! ## The dialogue an event continues -/

/-- What a client is owed, as a chronicle knows it. -/
def owes (c : Chronicle) (h : Handle) : Owed :=
  match c.speaking with
  | none => .nothing
  | some (user, line) =>
    if user.handle ≠ h then .nothing
    else if c.listing then .list
    else if line = [] then .blank
    else .answer

section Owing
variable {state : State}

theorem owes_quiet (quiet : c.speaking = none) (h : Handle) : c.owes h = .nothing := by
  rw [owes, quiet]

theorem owes_other (spoke : c.speaking = some (user, line)) (apart : user.handle ≠ h) :
    c.owes h = .nothing := by
  rw [owes, spoke]
  exact if_pos apart

theorem Says.owes (said : c.Says user line state) :
    c.owes user.handle = if line = [] then .blank else .answer := by
  rw [Chronicle.owes, said.spoke]
  simp [said.first]

theorem Says.owes_answer (said : c.Says user line state) (filled : line ≠ []) :
    c.owes user.handle = .answer := by
  rw [said.owes, if_neg filled]

theorem Lists.owes (lists : c.Lists user line) : c.owes user.handle = .list := by
  rw [Chronicle.owes, lists.spoke]
  simp [lists.begun]

end Owing

/-- A dialogue as a chronicle knows it. -/
def Shows (c : Chronicle) (h : Handle) : Dialogue → Prop
  | .closed => c.link h = .away
  | .connected => c.link h = .linked ∧ c.user h = none
  | .talking standing ended owed awaits =>
    (∃ user, c.user h = some user ∧ user.standing = standing) ∧ c.link h = (if ended then .ended else .linked) ∧
      c.owes h = owed ∧ awaits = decide (c.due = some h)
  | .parting name => c.link h = .parted ∧ ∃ user, c.user h = some user ∧ user.standing = .exit name
  | .removed => c.link h = .vacated

variable {d : Dialogue} {standing : Standing} {msg : Msg}

/-- Events that concern nobody's dialogue but their client's. -/
theorem Shows.aside (shows : c.Shows h d) (link : c'.link h = c.link h) (user : c'.user h = c.user h)
    (owes : c'.owes h = c.owes h) (due : c'.due = some h ↔ c.due = some h) : c'.Shows h d := by
  cases d with
  | closed | removed => exact link.trans shows
  | connected => exact ⟨link.trans shows.1, user.trans shows.2⟩
  | talking standing ended owed awaits =>
    obtain ⟨⟨own, known, same⟩, state, owed, awaited⟩ := shows
    exact ⟨⟨own, user.trans known, same⟩, link.trans state, owes.trans owed,
      by rw [awaited, decide_eq_decide, due]⟩
  | parting name =>
    obtain ⟨gone, own, known, same⟩ := shows
    exact ⟨link.trans gone, own, user.trans known, same⟩

/-- What is owed to the others while a user's line is answered, and after it. -/
private theorem answered_owes (spoke : c.speaking = some (user, line)) (apart : user.handle ≠ h)
    {after : Chronicle} (quiet : after.speaking = none) : after.owes h = c.owes h := by
  rw [owes_quiet quiet, owes_other spoke apart]

private theorem reports_aside (kept : Kept c) (reported : Reports c e c') (apart : e.client ≠ h)
    (shows : c.Shows h d) : c'.Shows h d := by
  have mine := Ne.symm apart
  cases reported with
  | received | userNew | news | chat | listSelf | listOther | whisper => exact shows
  | listHeader ordered =>
    refine shows.aside rfl rfl ?_ Iff.rfl
    rw [owes_other ordered.spoke apart]
    exact owes_other (c := c.begun) ordered.spoke apart
  | blank said | taken said | invalid said | chatAck said =>
    exact shows.aside rfl rfl (answered_owes said.spoke apart rfl) Iff.rfl
  | help ordered | info _ ordered | notFound ordered =>
    exact shows.aside rfl rfl (answered_owes ordered.spoke apart rfl) Iff.rfl
  | listEnd lists => exact shows.aside rfl rfl (answered_owes lists.spoke apart rfl) Iff.rfl
  | notInChat addressed | usage addressed | whisperAck addressed =>
    exact shows.aside rfl rfl (answered_owes addressed.spoke apart rfl) Iff.rfl
  | accepted | closed | hungUp => exact shows.aside (Function.update_of_ne mine _ _) rfl rfl Iff.rfl
  | @handled k user taken line known stays quiet =>
    refine shows.aside rfl rfl ?_ Iff.rfl
    have own := kept.keyed k user known
    rw [owes_quiet quiet]
    exact owes_other rfl (by rw [own]; exact apart)
  | greets => exact shows.aside rfl (Function.update_of_ne mine _ _) rfl Iff.rfl
  | userRemoved =>
    exact shows.aside (Function.update_of_ne mine _ _) (Function.update_of_ne mine _ _) rfl Iff.rfl
  | enters said | returns said =>
    exact shows.aside rfl (Function.update_of_ne mine _ _) (answered_owes said.spoke apart rfl) Iff.rfl
  | asks ordered =>
    exact shows.aside rfl (Function.update_of_ne mine _ _) (answered_owes ordered.spoke apart rfl) Iff.rfl
  | goodbye said =>
    exact shows.aside (Function.update_of_ne mine _ _) rfl (answered_owes said.spoke apart rfl) Iff.rfl

theorem due_client {h : Handle} (due : e.due = some h) : e.client = h := by
  cases e <;> cases due
  rfl

theorem tells_aside (kept : Kept c) (told : Tells c e c') (apart : e.client ≠ h) (shows : c.Shows h d) :
    c'.Shows h d := by
  cases told with
  | reports level reported =>
    refine (reports_aside kept reported apart shows).aside rfl rfl rfl ?_
    rw [reported.due, level]
    exact ⟨fun due => absurd (due_client due) apart, nofun⟩
  | prompts awaited =>
    refine shows.aside rfl rfl rfl ?_
    rw [awaited]
    exact ⟨nofun, fun due => absurd (Option.some.inj due) apart⟩

/-- Where no user is, the connection tells the dialogue. -/
theorem Shows.alone (shows : c.Shows h d) (nobody : c.user h = none) :
    d = .closed ∧ c.link h = .away ∨ d = .connected ∧ c.link h = .linked ∨
      d = .removed ∧ c.link h = .vacated := by
  cases d with
  | closed => exact .inl ⟨rfl, shows⟩
  | connected => exact .inr (.inl ⟨rfl, shows.1⟩)
  | removed => exact .inr (.inr ⟨rfl, shows⟩)
  | talking =>
    obtain ⟨⟨user, known, _⟩, _⟩ := shows
    cases nobody.symm.trans known
  | parting =>
    obtain ⟨_, user, known, _⟩ := shows
    cases nobody.symm.trans known

theorem Shows.is_parting (shows : c.Shows h d) (parted : c.link h = .parted) :
    ∃ name, d = .parting name := by
  cases d with
  | parting name => exact ⟨name, rfl⟩
  | closed | removed => cases parted.symm.trans shows
  | connected => cases parted.symm.trans shows.1
  | talking standing ended =>
    have state := parted.symm.trans shows.2.1
    cases ended <;> cases state

/-- With a user that was not told goodbye the server is talking. -/
theorem Shows.talks (kept : Kept c) (shows : c.Shows h d) (known : c.user h = some user)
    (stays : c.link h ≠ .parted) : ∃ ended, d = .talking user.standing ended (c.owes h) (c.due = some h) ∧
      c.link h = if ended then .ended else .linked := by
  cases d with
  | closed =>
    rcases kept.seated h user known with link | link | link <;> exact nomatch shows.symm.trans link
  | connected => exact nomatch shows.2.symm.trans known
  | talking standing ended owed awaits =>
    obtain ⟨⟨own, there, rfl⟩, link, rfl, rfl⟩ := shows
    rw [known] at there
    cases there
    exact ⟨ended, rfl, link⟩
  | parting => exact absurd shows.1 stays
  | removed =>
    rcases kept.seated h user known with link | link | link <;> exact nomatch shows.symm.trans link

/-- And nothing else comes before the prompt. -/
theorem Shows.talks_level (kept : Kept c) (shows : c.Shows h d) (level : c.due = none)
    (known : c.user h = some user) (stays : c.link h ≠ .parted) :
    ∃ ended, d = .talking user.standing ended (c.owes h) false ∧ c.link h = if ended then .ended else .linked := by
  obtain ⟨ended, rfl, link⟩ := shows.talks kept known stays
  exact ⟨ended, by rw [level]; rfl, link⟩

/-- A dialogue with a user, after a message or without one. -/
theorem shows_talking (known : c.user h = some user) {ended : Bool}
    (link : c.link h = if ended then .ended else .linked) (due : Option Handle) :
    (c.awaits due).Shows h (.talking user.standing ended (c.owes h) (due = some h)) :=
  ⟨⟨user, known, rfl⟩, link, rfl, rfl⟩

/-- An answer that the state of its user allows. -/
private theorem answer_shows {state : State} (kept : Kept c) (level : c.due = none)
    (shows : c.Shows user.handle d) (said : c.Says user line state) (heard : line ≠ [] ∨ state = .exit)
    (new : User) (fits : user.standing.shown (c.owes user.handle) .afterEnter msg = some new.standing)
    (link : c'.link user.handle = c.link user.handle) (known : c'.user user.handle = some new)
    (quiet : c'.speaking = none) :
    ∃ d', d.answer (.printed user.handle .afterEnter msg) = some d' ∧
      (c'.awaits (some user.handle)).Shows user.handle d' := by
  obtain ⟨here, stays⟩ := kept.said said
  obtain ⟨ended, rfl, state⟩ := shows.talks_level kept level here stays
  have left : (c.owes user.handle).told user.standing .afterEnter = some .nothing := by
    rw [said.owes]
    rcases heard with filled | leaving
    · rw [if_neg filled]
      rfl
    · rw [User.standing_exit (said.was.trans leaving)]
      split <;> rfl
  refine ⟨.talking new.standing ended .nothing true, ?_, ⟨new, known, rfl⟩, link.trans state,
    owes_quiet quiet _, by simp [awaits]⟩
  simp [Dialogue.answer, Dialogue.shown, left, fits]

/-- An answer after which its user is still in the chat. -/
private theorem remain_shows (kept : Kept c) (level : c.due = none) (shows : c.Shows user.handle d)
    (said : c.Says user line .chat) (filled : line ≠ []) (fits : msg.remains = true) :
    ∃ d', d.answer (.printed user.handle .afterEnter msg) = some d' ∧
      (c.answered.awaits (some user.handle)).Shows user.handle d' := by
  refine answer_shows kept level shows said (.inl filled) user ?_ rfl (kept.said said).1 rfl
  rw [User.standing_chat said.was]
  cases msg with
  | confirmExit => exact absurd fits (by decide)
  | _ => simp only [Standing.shown, fits, if_true]

/-- A command is no empty line. -/
theorem Orders.filled {cmd : Option Cmd} (ordered : c.Orders user line cmd) : line ≠ [] := by
  rintro rfl
  exact absurd ordered.command (by decide)

/-- A message to someone in the chat. -/
private theorem interrupt_shows (kept : Kept c) (level : c.due = none) (shows : c.Shows h d)
    (known : c.user h = some user) (chatting : user.state = .chat)
    (fits : msg.reaches user.username (c.owes h) = true) :
    ∃ d', d.answer (.printed h .interrupt msg) = some d' ∧ (c.awaits (some h)).Shows h d' := by
  obtain ⟨ended, rfl, link⟩ := shows.talks_level kept level known (kept.polite known (by simp [chatting]))
  refine ⟨_, ?_, shows_talking known link (some h)⟩
  rw [User.standing_chat chatting]
  simp [Dialogue.answer, Dialogue.shown, Owed.told, Standing.shown, fits]

/-- A part of the list. -/
private theorem list_shows (kept : Kept c) (level : c.due = none) (shows : c.Shows user.handle d)
    (lists : c.Lists user line) (fits : msg.lists user.username = true) :
    ∃ d', d.answer (.sent user.handle msg) = some d' ∧ (c.awaits none).Shows user.handle d' := by
  obtain ⟨here, stays⟩ := kept.spoke user line lists.spoke
  obtain ⟨ended, rfl, link⟩ := shows.talks_level kept level here stays
  refine ⟨_, ?_, shows_talking here link none⟩
  rw [User.standing_chat lists.was, lists.owes]
  cases msg with
  | listHeader => exact absurd fits (by simp [Msg.lists])
  | _ => simp [Dialogue.answer, fits]

/-- A prompt that answers a line by itself. -/
private theorem prompt_shows (kept : Kept c) (level : c.due = none) (shows : c.Shows user.handle d)
    (spoke : c.speaking = some (user, line)) (ends : (c.owes user.handle).ends user.standing = true) :
    ∃ d', d.answer (.prompted user.handle) = some d' ∧ (c.answered.awaits none).Shows user.handle d' := by
  obtain ⟨here, stays⟩ := kept.spoke user line spoke
  obtain ⟨ended, rfl, link⟩ := shows.talks_level kept level here stays
  exact ⟨_, if_pos ends, shows_talking (c := c.answered) here link none⟩

/-- What is true and no prompt after a message continues the dialogue of its client. -/
theorem reports_answers (kept : Kept c) (level : c.due = none) (reported : Reports c e c')
    (shows : c.Shows e.client d) : ∃ d', d.answer e = some d' ∧ (c'.awaits e.due).Shows e.client d' := by
  cases reported with
  | accepted away nobody =>
    obtain ⟨rfl, _⟩ | ⟨rfl, link⟩ | ⟨rfl, link⟩ := shows.alone nobody
    · exact ⟨.connected, rfl, Function.update_self _ _ _, nobody⟩
    · cases away.symm.trans link
    · cases away.symm.trans link
  | closed vacated nobody =>
    obtain ⟨rfl, link⟩ | ⟨rfl, link⟩ | ⟨rfl, _⟩ := shows.alone nobody
    · cases vacated.symm.trans link
    · cases vacated.symm.trans link
    · exact ⟨.closed, rfl, Function.update_self _ _ _⟩
  | @received h user data known listens quiet =>
    have stays : c.link h ≠ .parted := by simp [listens]
    obtain ⟨ended, rfl, link⟩ := shows.talks_level kept level known stays
    have here := shows_talking known link none
    rw [owes_quiet quiet] at here ⊢
    cases ended with
    | false => exact ⟨_, by cases user.standing <;> rfl, here⟩
    | true => cases listens.symm.trans link
  | @hungUp h user known listens quiet =>
    have stays : c.link h ≠ .parted := by simp [listens]
    obtain ⟨ended, rfl, link⟩ := shows.talks_level kept level known stays
    rw [owes_quiet quiet]
    cases ended with
    | false =>
      refine ⟨.talking user.standing true .nothing false, by cases user.standing <;> rfl, ⟨user, known, rfl⟩,
        Function.update_self _ _ _, owes_quiet quiet h, rfl⟩
    | true => cases listens.symm.trans link
  | @handled h user taken line known stays quiet =>
    have own := kept.keyed h user known
    subst own
    change c.Shows user.handle d at shows
    obtain ⟨ended, rfl, link⟩ := shows.talks_level kept level known
      (by rcases stays with link | link <;> simp [link])
    rw [owes_quiet quiet]
    refine ⟨.talking user.standing ended (if line = [] then .blank else .answer) false,
      by cases user.standing <;> rfl, ⟨user, known, rfl⟩, link, ?_, rfl⟩
    exact (Says.mk rfl rfl rfl : Says { c with speaking := some (user, line), listing := false, news := none }
      user line user.state).owes
  | @blank user state said inside =>
    refine prompt_shows kept level shows said.spoke ?_
    rw [said.owes, if_pos rfl]
    cases state with
    | login => rw [User.standing_login said.was]; rfl
    | chat => rw [User.standing_chat said.was]; rfl
    | exit => exact absurd rfl inside
  | @greets h days linked nobody quiet =>
    obtain ⟨rfl, link⟩ | ⟨rfl, _⟩ | ⟨rfl, link⟩ := shows.alone nobody
    · cases linked.symm.trans link
    · exact ⟨.talking .login false .nothing true, rfl, ⟨⟨h, .login, []⟩, Function.update_self _ _ _, rfl⟩,
        linked, owes_quiet quiet h, by simp [awaits, Event.due, Event.client]⟩
    · cases linked.symm.trans link
  | @userNew h seated quiet =>
    obtain ⟨ended, rfl, link⟩ := shows.talks_level kept level seated (kept.polite seated (by simp))
    rw [owes_quiet quiet]
    exact ⟨_, rfl, ⟨_, seated, rfl⟩, link, owes_quiet quiet h, rfl⟩
  | @userRemoved h user known finished quiet =>
    refine ⟨.removed, ?_, Function.update_self _ _ _⟩
    rcases finished with ended | parted
    · have stays : c.link h ≠ .parted := by simp [ended]
      obtain ⟨finished, rfl, link⟩ := shows.talks_level kept level known stays
      rw [owes_quiet quiet]
      cases finished with
      | true => cases user.standing <;> rfl
      | false => cases ended.symm.trans link
    · obtain ⟨name, rfl⟩ := shows.is_parting parted
      rfl
  | @news h o msg due listens apart =>
    obtain ⟨other, known, chatting⟩ := listens
    refine interrupt_shows kept level shows known chatting ?_
    have mine : c.Holds o other.username := ⟨other, known, by simp [chatting], rfl⟩
    rcases kept.news h msg due with ⟨name, rfl, held⟩ | ⟨name, rfl, free⟩
    · obtain ⟨joined, there, past, rfl⟩ := id held
      have valid := kept.valid h joined there past
      have fresh : joined.username ≠ other.username := fun same => apart (kept.unique o h _ mine (same ▸ held))
      simp [Msg.reaches, valid, fresh]
    · have fresh : name ≠ other.username := fun same => free o (same ▸ mine)
      simp [Msg.reaches, fresh]
  | @taken user line h said held =>
    obtain ⟨owner, there, past, own⟩ := held
    have filled : line ≠ [] := by
      rintro rfl
      have valid := kept.valid _ owner there past
      rw [own] at valid
      exact absurd valid (by decide)
    exact answer_shows kept level shows said (.inl filled) user (by rw [User.standing_login said.was]; rfl) rfl
      (kept.said said).1 rfl
  | @invalid user line said nonempty =>
    exact answer_shows kept level shows said (.inl nonempty) user (by rw [User.standing_login said.was]; rfl)
      rfl (kept.said said).1 rfl
  | @enters user line said free valid =>
    have filled : line ≠ [] := by
      rintro rfl
      exact absurd valid (by decide)
    refine answer_shows kept level shows said (.inl filled) { user with state := .chat, username := line } ?_ rfl
      (Function.update_self _ _ _) rfl
    rw [User.standing_login said.was]
    simp [Standing.shown, valid, User.standing]
  | @chat user line o said nonempty plain listens apart =>
    obtain ⟨other, known, chatting⟩ := listens
    obtain ⟨here, _⟩ := kept.said said
    have past : user.state ≠ .login := by simp [said.was]
    have fresh : user.username ≠ other.username := fun same =>
      apart (kept.unique _ _ _ ⟨other, known, by simp [chatting], rfl⟩ ⟨user, here, past, same⟩)
    refine interrupt_shows kept level shows known chatting ?_
    simp [Msg.reaches, fresh, kept.valid _ user here past]
  | chatAck said nonempty => exact remain_shows kept level shows said nonempty rfl
  | help ordered => exact remain_shows kept level shows ordered.toSays ordered.filled rfl
  | info days ordered => exact remain_shows kept level shows ordered.toSays ordered.filled rfl
  | notFound ordered => exact remain_shows kept level shows ordered.toSays ordered.filled rfl
  | notInChat addressed => exact remain_shows kept level shows addressed.toSays addressed.filled rfl
  | usage addressed => exact remain_shows kept level shows addressed.toSays addressed.filled rfl
  | whisperAck addressed listens =>
    exact remain_shows kept level shows addressed.toSays addressed.filled
      (kept.valid _ _ addressed.known (by simp [listens]))
  | @asks user line ordered =>
    refine answer_shows kept level shows ordered.toSays (.inl ordered.filled) { user with state := .exit } ?_ rfl
      (Function.update_self _ _ _) rfl
    rw [User.standing_chat ordered.was]
    rfl
  | @returns user line said =>
    refine answer_shows kept level shows said (.inr rfl) { user with state := .chat } ?_ rfl
      (Function.update_self _ _ _) rfl
    rw [User.standing_exit said.was]
    simp [Standing.shown, User.standing]
  | @listHeader user line ordered =>
    obtain ⟨here, stays⟩ := kept.said ordered.toSays
    change c.Shows user.handle d at shows
    obtain ⟨ended, rfl, link⟩ := shows.talks_level kept level here stays
    have begun : c.begun.Lists user line := ⟨ordered.spoke, ordered.was, ordered.command, ordered.word, rfl⟩
    have after := shows_talking (c := c.begun) here link none
    rw [begun.owes] at after
    refine ⟨_, ?_, after⟩
    rw [User.standing_chat ordered.was, ordered.owes_answer ordered.filled]
    rfl
  | listSelf lists => exact list_shows kept level shows lists (by simp [Msg.lists])
  | @listOther user other line lists known apart =>
    obtain ⟨here, _⟩ := kept.spoke user line lists.spoke
    refine list_shows kept level shows lists ?_
    -- A user at the login is listed too, without a name.
    have fresh : other.username ≠ user.username := by
      intro same
      have valid := kept.valid _ user here (by simp [lists.was])
      by_cases entering : other.state = .login
      · rw [← same, kept.unnamed _ other known entering] at valid
        exact absurd valid (by decide)
      · exact apart (kept.unique _ _ _ ⟨other, known, entering, rfl⟩
          ⟨user, here, by simp [lists.was], same.symm⟩)
    simp [Msg.lists, fresh]
  | @listEnd user line lists =>
    refine prompt_shows kept level shows lists.spoke ?_
    rw [lists.owes, User.standing_chat lists.was]
    rfl
  | @whisper user other line addressed listens text =>
    obtain ⟨here, _⟩ := kept.said addressed.toSays
    have past : user.state ≠ .login := by simp [addressed.was]
    refine interrupt_shows kept level shows addressed.known listens ?_
    -- Only a user that whispers to itself hears from itself.
    have fresh : user.username = other.username → c.owes other.handle = .answer := by
      intro same
      have self : user.handle = other.handle := kept.unique _ _ _ ⟨user, here, past, rfl⟩
        ⟨other, addressed.known, by simp [listens], same.symm⟩
      rw [← self]
      exact addressed.owes_answer addressed.filled
    have valid := kept.valid _ user here past
    by_cases same : user.username = other.username
    · simp [Msg.reaches, fresh same, valid]
    · simp [Msg.reaches, same, valid]
  | @goodbye user line said yes =>
    obtain ⟨here, stays⟩ := kept.said said
    change c.Shows user.handle d at shows
    obtain ⟨ended, rfl, _⟩ := shows.talks_level kept level here stays
    have filled : line ≠ [] := by
      rintro rfl
      exact absurd yes (by decide)
    rw [said.owes_answer filled]
    exact ⟨.parting user.username, by rw [User.standing_exit said.was]; rfl, Function.update_self _ _ _, user,
      here, User.standing_exit said.was⟩

/-- Every event that is true continues the dialogue of its client. -/
theorem tells_answers (kept : Kept c) (told : Tells c e c') (shows : c.Shows e.client d) :
    ∃ d', d.answer e = some d' ∧ c'.Shows e.client d' := by
  cases told with
  | reports level reported => exact reports_answers kept level reported shows
  | prompts awaited known stays =>
    obtain ⟨ended, rfl, link⟩ := shows.talks kept known stays
    rw [awaited]
    exact ⟨_, by simp [Dialogue.answer, Event.client], shows_talking known link none⟩

/-- The dialogue of a client in what a chronicle tells. -/
theorem obeys_next {events : List Event} (obeys : Obeys Tells c events c') (kept : Kept c)
    (shows : c.Shows h d) :
    ∃ d', Obeys (Accepts (Dialogue.next h)) d events d' ∧ Kept c' ∧ c'.Shows h d' := by
  refine obeys.simulated (fun c d => Kept c ∧ c.Shows h d) ⟨kept, shows⟩ ?_
  rintro c e c' d ⟨kept, shows⟩ told
  have still := kept.tells told
  by_cases mine : e.client = h
  · subst mine
    obtain ⟨d', answered, shown⟩ := tells_answers kept told shows
    exact ⟨d', (if_pos rfl).trans answered, still, shown⟩
  · exact ⟨d, if_neg mine, still, tells_aside kept told mine shows⟩

end Chronicle

/-- In every orderly run, the events of each client are a session from its first
connection on: a greeting, and then lines and answers that its state allows, under
one name, with one answer at most to a line; messages of others in the chat alone; no
line after the goodbye, no removal without an end or a goodbye. Where the session
stands at the end is where its user stands. -/
theorem session_well_formed {listener : Handle} {now : Int} {sys : Sys} (h : Handle)
    (reached : Reaches step Orderly (start listener now) sys) :
    ∃ d, sys.app.trace.foldlM (Dialogue.next h) .closed = some d ∧
      d.standing = (sys.app.room.user h).map User.standing ∧
      sys.app.trace.countP (fun e => e.client = h && e.answers) ≤
        sys.app.trace.countP fun e => e.client = h && e.asks := by
  obtain ⟨c, obeys, recounts⟩ := Chronicle.path_tells (start_simulates reached fun _ _ => id)
  obtain ⟨d, checked, kept, shows⟩ := Chronicle.obeys_next (d := .closed) (h := h) obeys .empty rfl
  have once := Dialogue.answered_once checked
  refine ⟨d, obeys_iff_foldlM.mp checked, ?_, (Nat.le_add_right _ _).trans once⟩
  rw [show sys.app.room.user = c.user from recounts.users.symm]
  have alone : c.link h ≠ .linked → c.link h ≠ .ended → c.link h ≠ .parted → c.user h = none := by
    intro linked ended parted
    by_contra there
    obtain ⟨user, known⟩ := Option.ne_none_iff_exists'.mp there
    rcases kept.seated h user known with state | state | state
    · exact linked state
    · exact ended state
    · exact parted state
  cases d with
  | closed =>
    have link : c.link h = .away := shows
    rw [alone (by simp [link]) (by simp [link]) (by simp [link])]
    rfl
  | removed =>
    have link : c.link h = .vacated := shows
    rw [alone (by simp [link]) (by simp [link]) (by simp [link])]
    rfl
  | connected =>
    rw [shows.2]
    rfl
  | talking =>
    obtain ⟨⟨user, known, rfl⟩, _⟩ := shows
    rw [known]
    rfl
  | parting name =>
    obtain ⟨_, user, known, same⟩ := shows
    rw [known]
    exact congrArg some same.symm

/-- A client logs in, leaves, stays, and leaves. -/
private def hesitates : List (Nat × Env) :=
  [(107, .connects 4), (109, .brings 4 (bytes "ab\n")), (109, .brings 4 (bytes "/exit\n")),
    (109, .brings 4 (bytes "n\n")), (109, .brings 4 (bytes "/exit\n")), (109, .brings 4 (bytes "y\n"))]

private theorem hesitates_unsent : ∀ env ∈ rounds hesitates, ∀ h data, env.send h data = none :=
  rounds_unsent ⟨fun _ _ => rfl, fun _ _ => rfl, fun _ _ => rfl, fun _ _ => rfl, fun _ _ => rfl, fun _ _ => rfl⟩

/-- The session of a client that says goodbye at last. -/
theorem session_well_formed_hesitant : ∃ (sys : Sys) (d : Dialogue), .goodbye 4 ∈ sys.app.trace ∧
    sys.app.trace.foldlM (Dialogue.next 4) .closed = some d ∧
    d.standing = (sys.app.room.user 4).map User.standing ∧
    sys.app.trace.countP (fun e => e.client = 4 && e.answers) ≤
      sys.app.trace.countP fun e => e.client = 4 && e.asks := by
  have outcome : (drive step separate .assertion (rounds hesitates) (start 3 0)).map (fun sys =>
      decide (.goodbye 4 ∈ sys.app.trace)) = .ok true := by
    decide +kernel
  obtain ⟨sys, driven, parted⟩ := map_eq_ok.mp outcome
  obtain ⟨d, session⟩ := session_well_formed 4
    ((reaches_of_drive hesitates_unsent driven).weaken fun _ _ => Separate.orderly)
  exact ⟨sys, d, of_decide_eq_true parted, session⟩

end AuroraComms
