import AuroraComms.Refinement

/-! What becomes of the bytes a client sends. They are consumed in order, a line
at a time, each byte once; but a connection that ends gets only one more turn,
whatever it has sent. -/
namespace AuroraComms
open Meta Library.Run

/-! ## The account of a connection -/

/-- What has arrived on a connection since it was accepted, what was consumed of
it, and whether its user has confirmed an exit. -/
structure Ledger where
  received : Bytes
  taken : Bytes
  goodbye : Bool
  deriving DecidableEq, Repr

def Ledger.after (h : Handle) (ledger : Ledger) : Event → Ledger
  | .accepted k => if k = h then ⟨[], [], false⟩ else ledger
  | .received k data => if k = h then { ledger with received := ledger.received ++ data } else ledger
  | .handled k taken _ => if k = h then { ledger with taken := ledger.taken ++ taken } else ledger
  | .goodbye k => if k = h then { ledger with goodbye := true } else ledger
  | _ => ledger

def ledger (h : Handle) (trace : List Event) : Ledger :=
  trace.foldl (Ledger.after h) ⟨[], [], false⟩

/-- What was consumed is what arrived, up to a part without a terminator; after a
confirmed exit the rest may have terminators in it. -/
def Ledger.Settled (ledger : Ledger) : Prop :=
  ledger.taken <+: ledger.received ∧
    (ledger.goodbye = true ∨
      ∀ b ∈ ledger.received.drop ledger.taken.length, isNewline b = false)

instance (ledger : Ledger) : Decidable ledger.Settled := inferInstanceAs (Decidable (_ ∧ _))

/-- The bytes a handled line was made of: itself and a run of terminators. -/
def IsLine (taken line : Bytes) : Prop :=
  ∃ raw newlines, taken = raw ++ newlines ∧ (∀ b ∈ raw, isNewline b = false) ∧ newlines ≠ [] ∧
    (∀ b ∈ newlines, isNewline b = true) ∧ line = sanitize raw

theorem ledger_append (h : Handle) (trace events : List Event) :
    ledger h (trace ++ events) = events.foldl (Ledger.after h) (ledger h trace) := by
  rw [ledger, List.foldl_append]
  rfl

/-- Events that do not concern the intake of a handle. -/
def Apart (h : Handle) (events : List Event) : Prop :=
  ∀ e ∈ events, (∀ l, Ledger.after h l e = l) ∧ e ≠ .userRemoved h ∧
    ∀ taken line, e ≠ .handled h taken line

theorem ledger_apart {h : Handle} {events : List Event} (trace : List Event) (apart : Apart h events) :
    ledger h (trace ++ events) = ledger h trace := by
  rw [ledger_append]
  generalize ledger h trace = l
  induction events with
  | nil => rfl
  | cons e rest ih =>
    rw [List.foldl_cons, (apart e List.mem_cons_self).1]
    exact ih fun e member => apart e (List.mem_cons_of_mem _ member)

theorem apart_of_print {h : Handle} {events : List Event} (prints : ∀ e ∈ events, e.isPrint = true) :
    Apart h events := by
  intro e member
  have print := prints e member
  cases e with
  | printed | sent | prompted => exact ⟨fun _ => rfl, by simp, by simp⟩
  | _ => cases print

theorem apart_append {h : Handle} {events more : List Event} (first : Apart h events)
    (second : Apart h more) : Apart h (events ++ more) := by
  intro e member
  rcases List.mem_append.mp member with inside | inside
  · exact first e inside
  · exact second e inside

theorem apart_single {h : Handle} {e : Event} (same : ∀ l, Ledger.after h l e = l)
    (kept : e ≠ .userRemoved h) (unheard : ∀ taken line, e ≠ .handled h taken line) : Apart h [e] := by
  intro other member
  rw [List.mem_singleton.mp member]
  exact ⟨same, kept, unheard⟩

/-! ## The invariant -/

/-- The user's turn of this round is yet to come. -/
def Stage.awaits (h : Handle) : Stage → Prop
  | .users todo => h ∈ todo
  | .clients _ | .sweep => False
  | _ => True

/-- One turn is enough to consume every line of a connection that has arrived,
or the next line confirms an exit. -/
def Room.Drained (room : Room) (h : Handle) : Prop :=
  ∀ conn ∈ room.conn h, ∀ next ∈ nextLine conn.inBuf,
    (∀ b ∈ next.2, isNewline b = false) ∨ ∃ user ∈ room.user h, user.confirms next.1

instance (user : User) (line : Bytes) : Decidable (user.confirms line) :=
  inferInstanceAs (Decidable (_ ∧ _))

instance (room : Room) (h : Handle) : Decidable (room.Drained h) :=
  inferInstanceAs (Decidable (∀ _ ∈ _, _))

/-- The connection that is read next. -/
def Sys.reads (sys : Sys) : Option Handle :=
  match sys.point with
  | .receive (h :: _) => some h
  | _ => none

/-- A connection ends only when it is drained. -/
def Patient (env : Env) (sys : Sys) : Prop :=
  ∀ h ∈ sys.reads, env.hangsUp h → sys.app.room.Drained h

instance (env : Env) (sys : Sys) : Decidable (Patient env sys) :=
  inferInstanceAs (Decidable (∀ _ ∈ _, _))

/-- What the trace alone has to show. -/
structure Told (h : Handle) (trace : List Event) : Prop where
  settled : ∀ pre post, trace = pre ++ .userRemoved h :: post → (ledger h pre).Settled
  lines : ∀ taken line, .handled h taken line ∈ trace → IsLine taken line

structure Heard (h : Handle) (world : World) (trace : List Event) : Prop extends Told h trace where
  accounted : ∀ conn, world.room.conn h = some conn →
    (ledger h trace).received = (ledger h trace).taken ++ conn.inBuf
  ahead : ∀ conn, world.room.conn h = some conn → conn.state = .toBeRemoved →
    world.stage.awaits h → (ledger h trace).goodbye = true ∨ world.room.Drained h
  behind : ∀ conn, world.room.conn h = some conn → conn.state = .toBeRemoved →
    ¬ world.stage.awaits h → (ledger h trace).goodbye = true ∨ ∀ b ∈ conn.inBuf, isNewline b = false

section Heard
variable {env : Env} {h : Handle} {world world' : World} {trace events : List Event}

theorem told_append (told : Told h trace)
    (settled : ∀ pre post, events = pre ++ .userRemoved h :: post → (ledger h (trace ++ pre)).Settled)
    (lines : ∀ taken line, .handled h taken line ∈ events → IsLine taken line) :
    Told h (trace ++ events) := by
  refine ⟨?_, fun taken line member => ?_⟩
  · intro pre post split
    rcases List.append_eq_append_iff.mp split with ⟨between, rfl, rest⟩ | ⟨between, rfl, rest⟩
    · exact settled between post rest
    · cases between with
      | nil => simpa using settled [] post (by simpa using rest.symm)
      | cons first more =>
        obtain ⟨rfl, _⟩ := List.cons.inj rest
        exact told.settled pre more rfl
  · rcases List.mem_append.mp member with old | new
    · exact told.lines taken line old
    · exact lines taken line new

theorem told_apart (told : Told h trace) (apart : Apart h events) : Told h (trace ++ events) := by
  refine told_append told (fun pre post split => ?_) fun taken line member => ?_
  · exact absurd rfl (apart (.userRemoved h) (by rw [split]; simp)).2.1
  · exact absurd rfl ((apart _ member).2.2 taken line)

/-- A step that does not concern a handle. -/
theorem heard_apart (heard : Heard h world trace) (apart : Apart h events)
    (conn : world'.room.conn h = world.room.conn h)
    (user : world.stage.awaits h → world'.room.user h = world.room.user h)
    (stage : ∀ conn, world.room.conn h = some conn → conn.state = .toBeRemoved →
      (world'.stage.awaits h ↔ world.stage.awaits h)) : Heard h world' (trace ++ events) := by
  have same := ledger_apart trace apart
  refine ⟨told_apart heard.toTold apart, ?_, ?_, ?_⟩
  · intro conn' known
    rw [conn] at known
    rw [same]
    exact heard.accounted conn' known
  · intro conn' known flagged awaits
    rw [conn] at known
    have awaited := (stage conn' known flagged).mp awaits
    rw [same]
    refine (heard.ahead conn' known flagged awaited).imp_right fun drained => ?_
    rw [Room.Drained, conn, user awaited]
    exact drained
  · intro conn' known flagged past
    rw [conn] at known
    rw [same]
    exact heard.behind conn' known flagged fun awaits => past ((stage conn' known flagged).mpr awaits)

private theorem sweep_heard {room : Room} {polled gone : List Handle}
    (heard : Heard h ⟨.sweep, room⟩ trace) :
    Heard h ⟨.wait polled, room.swept⟩ (trace ++ gone.map .closed) := by
  have apart : Apart h (gone.map Event.closed) := by
    intro e member
    obtain ⟨k, _, rfl⟩ := List.mem_map.mp member
    exact ⟨fun _ => rfl, by simp, by simp⟩
  have kept : ∀ conn', room.swept.conn h = some conn' →
      ∃ conn, room.conn h = some conn ∧ conn' = { conn with state := .online } := by
    intro conn' known
    obtain ⟨conn, stored, same⟩ := Option.bind_eq_some_iff.mp known
    split at same
    · cases same
    · exact ⟨conn, stored, (Option.some.inj same).symm⟩
  refine ⟨told_apart heard.toTold apart, ?_, ?_, fun _ _ _ past => absurd trivial past⟩
  · intro conn' known
    obtain ⟨conn, stored, rfl⟩ := kept conn' known
    rw [ledger_apart trace apart]
    exact heard.accounted conn stored
  · intro conn' known flagged
    obtain ⟨conn, _, rfl⟩ := kept conn' known
    cases flagged

/-- A connection that is accepted opens an account. -/
private theorem accept_heard {room : Room} {polled : List Handle} {k : Handle}
    (heard : Heard h ⟨.wait polled, room⟩ trace) :
    Heard h ⟨.receive polled, room.setConn k ⟨.new, []⟩⟩ (trace ++ [.accepted k]) := by
  by_cases mine : k = h
  · subst mine
    have opened : ledger k (trace ++ [.accepted k]) = ⟨[], [], false⟩ := by
      simp [ledger_append, Ledger.after]
    have fresh : ∀ conn, (room.setConn k ⟨.new, []⟩).conn k = some conn → conn = ⟨.new, []⟩ := by
      intro conn known
      rw [show (room.setConn k ⟨.new, []⟩).conn k = _ from Function.update_self _ _ _] at known
      exact (Option.some.inj known).symm
    refine ⟨told_append heard.toTold (fun pre post split => ?_) (by simp), ?_, ?_,
      fun _ _ _ past => absurd trivial past⟩
    · have member : Event.userRemoved k ∈ [Event.accepted k] := by rw [split]; simp
      simp at member
    · intro conn known
      rw [opened, fresh conn known]
      rfl
    · intro conn known flagged
      rw [fresh conn known] at flagged
      cases flagged
  · exact heard_apart heard (apart_single (fun _ => by simp [Ledger.after, mine]) (by simp) (by simp))
      (Function.update_of_ne (Ne.symm mine) _ _) (fun _ => rfl) fun _ _ _ => Iff.rfl

/-- Bytes that arrive are credited. -/
private theorem receive_heard {room : Room} {todo : List Handle} {k : Handle} {conn : Conn}
    {data : Bytes} (inv : World.Inv ⟨.receive (k :: todo), room⟩) (known : room.conn k = some conn)
    (heard : Heard h ⟨.receive (k :: todo), room⟩ trace) :
    Heard h ⟨.receive todo, room.setConn k { conn with inBuf := conn.inBuf ++ data }⟩
      (trace ++ [.received k data]) := by
  by_cases mine : k = h
  · subst mine
    obtain ⟨other, there, online⟩ := inv.fits.2.2 k List.mem_cons_self
    have same := known.symm.trans there
    cases same
    have credited : ledger k (trace ++ [.received k data]) =
        { ledger k trace with received := (ledger k trace).received ++ data } := by
      simp [ledger_append, Ledger.after]
    have after : ∀ conn', (room.setConn k { conn with inBuf := conn.inBuf ++ data }).conn k =
        some conn' → conn' = { conn with inBuf := conn.inBuf ++ data } := by
      intro conn' stored
      rw [show (room.setConn k _).conn k = _ from Function.update_self _ _ _] at stored
      exact (Option.some.inj stored).symm
    refine ⟨told_append heard.toTold (fun pre post split => ?_) (by simp), ?_, ?_,
      fun _ _ _ past => absurd trivial past⟩
    · have member : Event.userRemoved k ∈ [Event.received k data] := by rw [split]; simp
      simp at member
    · intro conn' stored
      rw [credited, after conn' stored]
      show (ledger k trace).received ++ data = _
      rw [heard.accounted conn known, List.append_assoc]
    · intro conn' stored flagged
      rw [after conn' stored] at flagged
      change conn.state = _ at flagged
      rw [online] at flagged
      cases flagged
  · exact heard_apart heard (apart_single (fun _ => by simp [Ledger.after, mine]) (by simp) (by simp))
      (Function.update_of_ne (Ne.symm mine) _ _) (fun _ => rfl) fun _ _ _ => Iff.rfl

/-- A connection that ends in a drained state stays drained. -/
private theorem hangUp_heard {room : Room} {todo : List Handle} {k : Handle} {conn : Conn}
    (known : room.conn k = some conn) (drained : k = h → room.Drained h)
    (heard : Heard h ⟨.receive (k :: todo), room⟩ trace) :
    Heard h ⟨.receive todo, room.setConn k { conn with state := .toBeRemoved }⟩
      (trace ++ [.hungUp k]) := by
  have apart : Apart h [Event.hungUp k] := apart_single (fun _ => rfl) (by simp) (by simp)
  by_cases mine : k = h
  · subst mine
    have after : ∀ conn', (room.setConn k { conn with state := .toBeRemoved }).conn k =
        some conn' → conn' = { conn with state := .toBeRemoved } := by
      intro conn' stored
      rw [show (room.setConn k _).conn k = _ from Function.update_self _ _ _] at stored
      exact (Option.some.inj stored).symm
    refine ⟨told_apart heard.toTold apart, ?_, ?_, fun _ _ _ past => absurd trivial past⟩
    · intro conn' stored
      rw [ledger_apart trace apart, after conn' stored]
      exact heard.accounted conn known
    · intro conn' _ _ _
      refine Or.inr fun other there next waiting => ?_
      rw [after other there] at waiting
      exact drained rfl conn known next waiting
  · exact heard_apart heard apart (Function.update_of_ne (Ne.symm mine) _ _) (fun _ => rfl)
      fun _ _ _ => Iff.rfl

/-- A handled line, and what is said in answer. -/
private theorem told_handled (told : Told h trace) {taken line : Bytes} (isLine : IsLine taken line)
    {said : List Event} (talk : ∀ e ∈ said, e.isTalk = true) :
    Told h (trace ++ .handled h taken line :: said) := by
  refine told_append told (fun pre post cut => ?_) fun other otherLine member => ?_
  · have member : Event.userRemoved h ∈ Event.handled h taken line :: said := by
      rw [cut]
      simp
    rcases List.mem_cons.mp member with same | inside
    · cases same
    · cases talk _ inside
  · rcases List.mem_cons.mp member with same | inside
    · cases same
      exact isLine
    · cases talk _ inside

/-- The turn of a user debits the next line of its account. -/
private theorem turn_heard {room : Room} {todo : List Handle} (days : Int)
    (inv : World.Inv ⟨.users (h :: todo), room⟩) (heard : Heard h ⟨.users (h :: todo), room⟩ trace) :
    Heard h ⟨.users todo, (room.turn days h).1⟩ (trace ++ (room.turn days h).2) := by
  obtain ⟨linked, _, _, once, users⟩ := inv
  obtain ⟨absent, _⟩ := List.nodup_cons.mp once
  obtain ⟨user, known⟩ := Option.isSome_iff_exists.mp (users h List.mem_cons_self)
  have awaited : Stage.awaits h (.users (h :: todo)) := List.mem_cons_self
  rcases room.turn_cases days h with
    ⟨idle, nothing⟩ | ⟨other, conn, line, rest, there, connected, next, turned⟩
  · rw [nothing, List.append_nil]
    refine ⟨heard.toTold, heard.accounted, fun _ _ _ awaits => absurd awaits absent, ?_⟩
    intro conn connected flagged _
    exact (heard.ahead conn connected flagged awaited).imp_right fun _ =>
      (nextLine_none_iff conn.inBuf).mp (idle user conn known connected)
  · rw [known] at there
    cases there
    have own := linked.keyed h user known
    subst own
    obtain ⟨raw, newlines, split, taken, plain, ended, run, _, sanitized⟩ := nextLine_some next
    have isLine : IsLine (takenFrom conn.inBuf rest) line :=
      ⟨raw, newlines, taken, plain, ended, run, sanitized⟩
    have accounted := heard.accounted conn connected
    have debited : ledger user.handle
        (trace ++ [.handled user.handle (takenFrom conn.inBuf rest) line]) =
        { ledger user.handle trace with
          taken := (ledger user.handle trace).taken ++ takenFrom conn.inBuf rest } := by
      simp [ledger_append, Ledger.after]
    have balanced : (ledger user.handle trace).received =
        (ledger user.handle trace).taken ++ takenFrom conn.inBuf rest ++ rest := by
      rw [accounted, taken, List.append_assoc, ← split]
    have talk := Room.speak_talk days (room.setConn user.handle { conn with inBuf := rest }) user line
    have told := told_handled heard.toTold isLine talk
    have unread : ∀ conn', (room.setConn user.handle { conn with inBuf := rest }).conn user.handle =
        some conn' → conn' = { conn with inBuf := rest } := by
      intro conn' stored
      rw [show (room.setConn user.handle _).conn user.handle = _ from Function.update_self _ _ _] at stored
      exact (Option.some.inj stored).symm
    rw [turned]
    rcases Room.speak_says days (room.setConn user.handle { conn with inBuf := rest }) user line with
      ⟨_, said⟩ | ⟨stays, prints⟩
    · -- The rest of the buffer stays behind with the goodbye.
      rw [said] at told ⊢
      have closed : ledger user.handle (trace ++ [.handled user.handle (takenFrom conn.inBuf rest) line,
          .goodbye user.handle]) =
          ⟨(ledger user.handle trace).received,
            (ledger user.handle trace).taken ++ takenFrom conn.inBuf rest, true⟩ := by
        simp [ledger_append, Ledger.after]
      refine ⟨told, ?_, fun _ _ _ awaits => absurd awaits absent, fun _ _ _ _ => Or.inl (by rw [closed])⟩
      intro conn' stored
      change Function.update (room.setConn user.handle { conn with inBuf := rest }).conn user.handle _
        user.handle = some conn' at stored
      rw [Function.update_self] at stored
      obtain ⟨before, there, same⟩ := Option.map_eq_some_iff.mp stored
      rw [closed, ← same, unread before there]
      exact balanced
    · have kept := (Room.speak_becomes days (room.setConn user.handle { conn with inBuf := rest }) user
        line).conn_kept stays
      have spoken : ledger user.handle (trace ++ .handled user.handle (takenFrom conn.inBuf rest) line ::
          ((room.setConn user.handle { conn with inBuf := rest }).speak days user line).2) =
          { ledger user.handle trace with
            taken := (ledger user.handle trace).taken ++ takenFrom conn.inBuf rest } := by
        rw [List.append_cons, ledger_apart _ (apart_of_print prints), debited]
      refine ⟨told, ?_, fun _ _ _ awaits => absurd awaits absent, ?_⟩
      · intro conn' stored
        rw [kept] at stored
        rw [spoken, unread conn' stored]
        exact balanced
      · intro conn' stored flagged _
        rw [kept] at stored
        rw [unread conn' stored] at flagged ⊢
        rw [spoken]
        rcases heard.ahead conn connected flagged awaited with gone | drained
        · exact Or.inl gone
        · rcases drained conn connected (line, rest) next with short | ⟨other, there, confirms⟩
          · exact Or.inr short
          · rw [known] at there
            cases there
            exact absurd confirms stays

/-- The turn of another user. -/
private theorem turn_apart {room : Room} {k : Handle} (linked : room.Linked) (days : Int) (other : k ≠ h) :
    Apart h (room.turn days k).2 := by
  rcases room.turn_cases days k with ⟨_, nothing⟩ | ⟨user, conn, line, rest, known, _, _, turned⟩
  · rw [nothing]
    simp [Apart]
  · have own := linked.keyed k user known
    subst own
    have head : Apart h [Event.handled user.handle (takenFrom conn.inBuf rest) line] :=
      apart_single (fun _ => by simp [Ledger.after, other]) (by simp) (by simp [other])
    rw [turned]
    rw [← List.singleton_append]
    refine apart_append head ?_
    rcases Room.speak_says days (room.setConn user.handle { conn with inBuf := rest }) user line with
      ⟨_, said⟩ | ⟨_, prints⟩
    · rw [said]
      exact apart_single (fun _ => by simp [Ledger.after, other]) (by simp) (by simp)
    · exact apart_of_print prints

/-- An account is closed when it is settled. -/
private theorem remove_heard {room : Room} {todo : List Handle} {conn : Conn} {user : User}
    {roster : List Handle} {notices : List Event} (known : room.conn h = some conn)
    (flagged : conn.state = .toBeRemoved) (prints : ∀ e ∈ notices, e.isPrint = true)
    (heard : Heard h ⟨.clients (h :: todo), room⟩ trace) :
    Heard h ⟨.clients todo, room.unseat user roster⟩ (trace ++ .userRemoved h :: notices) := by
  have apart := apart_of_print prints (h := h)
  have same : ledger h (trace ++ .userRemoved h :: notices) = ledger h trace := by
    rw [List.append_cons, ledger_apart _ apart]
    simp [ledger_append, Ledger.after]
  have accounted := heard.accounted conn known
  have settled : (ledger h trace).Settled := by
    refine ⟨⟨conn.inBuf, accounted.symm⟩, ?_⟩
    rw [accounted, List.drop_left]
    exact heard.behind conn known flagged id
  refine ⟨told_append heard.toTold (fun pre post cut => ?_) (fun taken line member => ?_), ?_,
    fun _ _ _ => False.elim, ?_⟩
  · cases pre with
    | nil => rwa [List.append_nil]
    | cons first more =>
      obtain ⟨_, inside⟩ := List.cons.inj cut
      exact absurd rfl (apart (.userRemoved h) (by rw [inside]; simp)).2.1
  · rcases List.mem_cons.mp member with first | inside
    · cases first
    · exact absurd rfl ((apart _ inside).2.2 taken line)
  · rw [same]
    exact heard.accounted
  · rw [same]
    exact heard.behind

/-- What a step does to the account of one connection. -/
theorem step_heard (stepped : World.Step env world events world') (inv : world.Inv)
    (patient : ∀ todo, world.stage = .receive (h :: todo) → env.hangsUp h → world.room.Drained h)
    (heard : Heard h world trace) : Heard h world' (trace ++ events) := by
  have still : ∀ {next : World}, next.room = world.room →
      (∀ conn, world.room.conn h = some conn → conn.state = .toBeRemoved →
        (next.stage.awaits h ↔ world.stage.awaits h)) → Heard h next (trace ++ []) := by
    intro next same stage
    exact heard_apart heard (by simp [Apart]) (by rw [same]) (fun _ => by rw [same]) stage
  cases stepped with
  | sweep polled gone => exact sweep_heard heard
  | accept _ _ fresh => exact accept_heard heard
  | receive known => exact receive_heard inv known heard
  | hangUp known ended =>
    refine hangUp_heard known (fun same => ?_) heard
    subst same
    exact patient _ rfl ended
  | flush =>
    refine still rfl fun conn known flagged => ?_
    have seated := (inv.fits h conn known).mpr (by simp [flagged])
    exact ⟨fun _ => trivial, fun _ => (inv.linked.listed h).mpr seated⟩
  | @turn todo room k days =>
    by_cases mine : k = h
    · subst mine
      exact turn_heard days inv heard
    · obtain ⟨user, conn⟩ := Room.turn_others inv.linked days (Ne.symm mine)
      exact heard_apart heard (turn_apart inv.linked days mine) conn (fun _ => user) fun _ _ _ => by
        simp [Stage.awaits, Ne.symm mine]
  | updated => exact still rfl fun _ _ _ => by simp [Stage.awaits]
  | @create _ _ k conn days roster =>
    exact heard_apart heard (apart_append (apart_of_print (frame_print _ _ _))
      (apart_single (fun _ => rfl) (by simp) (by simp))) rfl False.elim fun _ _ _ => Iff.rfl
  | @remove _ room k conn user roster known flagged seated =>
    have prints := farewells_print room roster user.username
    by_cases mine : k = h
    · subst mine
      exact remove_heard known flagged prints heard
    · exact heard_apart heard (apart_append (apart_single (fun _ => rfl) (by simpa using mine) (by simp))
        (apart_of_print prints)) rfl False.elim fun _ _ _ => Iff.rfl
  | _ => exact still rfl fun _ _ _ => Iff.rfl

end Heard

/-! ## Runs -/

theorem reads_of_stage {sys : Sys} {h : Handle} {todo : List Handle}
    (stage : sys.world.stage = .receive (h :: todo)) : sys.reads = some h := by
  obtain ⟨app, point⟩ := sys
  cases point with
  | receive rest =>
    cases stage
    rfl
  | _ => cases stage

/-- The account of every connection in a run in which each connection ends when
it is drained: what arrived is what was handled, a line at a time, followed by
the buffer, and a removed user has no line left unless it confirmed its exit. -/
theorem lines_handled_before_removal (listener : Handle) (now : Int) (sys : Sys)
    (reached : Reaches step (fun env sys => Orderly env sys ∧ Patient env sys) (start listener now) sys)
    (h : Handle) :
    (∀ taken line, .handled h taken line ∈ sys.app.trace → IsLine taken line) ∧
    (∀ client, sys.app.clientOf h = some client → (ledger h sys.app.trace).received =
      (ledger h sys.app.trace).taken ++ client.inBuf) ∧
    ∀ pre post, sys.app.trace = pre ++ .userRemoved h :: post → (ledger h pre).Settled := by
  have base : Heard h (start listener now).world (start listener now).app.trace := by
    have nobody : ∀ conn, (start listener now).world.room.conn h = some conn → False := fun conn known =>
      nomatch (start_conn listener now h).symm.trans known
    exact ⟨⟨fun pre post cut => absurd cut (by simp [start, App.new]), by simp [start, App.new]⟩,
      fun conn known => (nobody conn known).elim, fun conn known => (nobody conn known).elim,
      fun conn known => (nobody conn known).elim⟩
  obtain ⟨_, heard⟩ := run_follows reached (fun _ _ granted => granted.1) (start_good listener now)
    (Heard h) base fun env sys events world' granted good stepped heard =>
      step_heard stepped good.inv (fun todo stage ended => granted.2 h (reads_of_stage stage) ended) heard
  exact ⟨heard.lines, fun client stored => heard.accounted _ (room_conn stored), heard.settled⟩

/-- A client that connects, sends `sent` in the next round and ends its
connection in the one after. -/
def visit (sent : Bytes) : List (Nat × Env) :=
  [(107, .connects 4), (109, .brings 4 sent), (109, .ends 4)]

private theorem visit_unsent (sent : Bytes) :
    ∀ env ∈ rounds (visit sent), ∀ h data, env.send h data = none :=
  rounds_unsent ⟨fun _ _ => rfl, fun _ _ => rfl, fun _ _ => rfl⟩

/-- Two lines wait when the connection ends: the second one is lost. -/
theorem waiting_line_lost : ∃ sys pre post, Reaches step Separate (start 3 0) sys ∧
    sys.app.trace = pre ++ .userRemoved 4 :: post ∧
    ledger 4 pre = ⟨bytes "ab\nhello\nbye\n", bytes "ab\nhello\n", false⟩ ∧
    ¬ (ledger 4 pre).Settled := by
  have outcome : (drive step separate .assertion (rounds (visit (bytes "ab\nhello\nbye\n")))
      (start 3 0)).map (fun sys => (sys.app.trace.getLast?, ledger 4 sys.app.trace.dropLast)) =
        .ok (some (.userRemoved 4), ⟨bytes "ab\nhello\nbye\n", bytes "ab\nhello\n", false⟩) := by
    decide +kernel
  obtain ⟨sys, driven, outcome⟩ := map_eq_ok.mp outcome
  obtain ⟨last, before⟩ := Prod.mk.inj outcome
  refine ⟨sys, sys.app.trace.dropLast, [], reaches_of_drive (visit_unsent _) driven,
    (List.dropLast_append_getLast? _ last).symm, before, ?_⟩
  rw [before]
  decide

/-- One line waits when the connection ends: it is handled. -/
theorem waiting_line_handled : ∃ sys pre post,
    Reaches step (fun env sys => Orderly env sys ∧ Patient env sys) (start 3 0) sys ∧
    sys.app.trace = pre ++ .userRemoved 4 :: post ∧
    (ledger 4 pre).received = bytes "ab\nhello\n" ∧ (ledger 4 pre).Settled := by
  have outcome : (drive step (fun env sys => separate env sys && decide (Patient env sys)) .assertion
      (rounds (visit (bytes "ab\nhello\n"))) (start 3 0)).map
      (fun sys => (sys.app.trace.getLast?, (ledger 4 sys.app.trace.dropLast).received)) =
        .ok (some (.userRemoved 4), bytes "ab\nhello\n") := by
    decide +kernel
  obtain ⟨sys, driven, outcome⟩ := map_eq_ok.mp outcome
  obtain ⟨last, before⟩ := Prod.mk.inj outcome
  have reached := reaches_of_checked Patient (visit_unsent _) driven
  have split := (List.dropLast_append_getLast? _ last).symm
  exact ⟨sys, sys.app.trace.dropLast, [], reached, split, before,
    (lines_handled_before_removal 3 0 sys reached 4).2.2 _ [] split⟩

end AuroraComms
