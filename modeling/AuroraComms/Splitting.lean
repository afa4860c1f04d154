import AuroraComms.Intake
import AuroraComms.Library.Segments

/-! What a client's stream does, whichever way it is cut into what `recv`
returns. The lines of a stream are read off the whole of it, and what they do is
told without connections; a run of the server follows the tale, as long as no
user that is asked whether to exit is found with a terminator in front of its
input. -/
namespace AuroraComms
open Meta Library.Run Library.Segments

/-! ## The tale of a stream -/

/-- The lines of a stream, but for the empty ones between its terminators. -/
def spoken (stream : Bytes) : List Bytes := (segments isNewline stream).map sanitize

/-- A chat line or a whisper for its recipient. -/
def Msg.isSpeech : Msg → Bool
  | .chat .. | .whisper .. => true
  | _ => false

/-- What has been delivered to a user of what others say. -/
def delivered (k : Handle) (events : List Event) : List Msg :=
  events.filterMap fun e => match e with
    | .printed h _ msg => if h = k ∧ msg.isSpeech then some msg else none
    | _ => none

/-- What the lines of a user have done so far. -/
structure Tale where
  room : Room
  gone : Bool
  events : List Event

def Tale.hear (c : Handle) (tale : Tale) (line : Bytes) : Tale :=
  match tale.gone, tale.room.user c with
  | false, some user =>
    ⟨(tale.room.speak 0 user line).1, decide (user.confirms line),
      tale.events ++ (tale.room.speak 0 user line).2⟩
  | _, _ => tale

def tell (c : Handle) (room : Room) (lines : List Bytes) : Tale :=
  lines.foldl (Tale.hear c) ⟨room, false, []⟩

theorem tell_append (c : Handle) (room : Room) (lines more : List Bytes) :
    tell c room (lines ++ more) = more.foldl (Tale.hear c) (tell c room lines) := List.foldl_append

/-- Nothing is heard after a confirmed exit. -/
theorem gone_stays {c : Handle} {tale : Tale} (gone : tale.gone = true) (lines : List Bytes) :
    lines.foldl (Tale.hear c) tale = tale := by
  induction lines with
  | nil => rfl
  | cons line rest ih =>
    have unheard : tale.hear c line = tale := by
      simp only [Tale.hear, gone]
    rw [List.foldl_cons, unheard]
    exact ih

theorem delivered_append (k : Handle) (events more : List Event) :
    delivered k (events ++ more) = delivered k events ++ delivered k more := List.filterMap_append

theorem delivered_none {events : List Event}
    (wordless : ∀ h action msg, .printed h action msg ∈ events → msg.isSpeech = false) (k : Handle) :
    delivered k events = [] := by
  refine List.filterMap_eq_nil_iff.mpr fun e member => ?_
  cases e with
  | printed h action msg => simp [wordless h action msg member]
  | _ => rfl

/-- Rooms that differ in their connections only. -/
structure Room.Alike (a b : Room) : Prop where
  roster : b.roster = a.roster
  user : b.user = a.user
  owner : b.owner = a.owner

theorem Room.Alike.eq {a b : Room} (alike : a.Alike b) : b = { a with conn := b.conn } :=
  Room.ext alike.roster rfl alike.user alike.owner

private theorem Room.Alike.command {a b : Room} (alike : a.Alike b) (days days' : Int) (user : User)
    (line : Bytes) :
    (a.command days user line).1.Alike (b.command days' user line).1 ∧
      ∀ k, delivered k (b.command days' user line).2 = delivered k (a.command days user line).2 := by
  rw [alike.eq]
  unfold Room.command
  cases commandOf (commandWord line) with
  | none => exact ⟨⟨rfl, rfl, rfl⟩, fun _ => rfl⟩
  | some cmd =>
    cases cmd with
    | info => exact ⟨⟨rfl, rfl, rfl⟩, fun _ => by simp [delivered, frame, Msg.isSpeech]⟩
    | _ => exact ⟨⟨rfl, rfl, rfl⟩, fun _ => rfl⟩

/-- What a line does and to whom it is delivered does not depend on connections,
nor on the uptime. -/
theorem Room.Alike.speak {a b : Room} (alike : a.Alike b) (days days' : Int) (user : User) (line : Bytes) :
    (a.speak days user line).1.Alike (b.speak days' user line).1 ∧
      ∀ k, delivered k (b.speak days' user line).2 = delivered k (a.speak days user line).2 := by
  have commanded := alike.command days days' user line
  rw [alike.eq] at commanded ⊢
  unfold Room.speak
  cases user.state with
  | login =>
    simp only
    split_ifs <;> exact ⟨⟨rfl, rfl, rfl⟩, fun _ => rfl⟩
  | chat =>
    simp only
    split_ifs
    · exact ⟨⟨rfl, rfl, rfl⟩, fun _ => rfl⟩
    · exact commanded
    · exact ⟨⟨rfl, rfl, rfl⟩, fun _ => rfl⟩
  | exit =>
    simp only
    split_ifs <;> exact ⟨⟨rfl, rfl, rfl⟩, fun _ => rfl⟩

/-! ## Runs of one speaker -/

/-- The user whose turn is next. -/
def World.speaks (world : World) : Option Handle :=
  match world.stage with
  | .users (h :: _) => some h
  | _ => none

/-- Only `c` has anything to do: it is connected, and the other users, all of them
connected to stay, have no line waiting. -/
def Idle (c : Handle) (sys : Sys) : Prop :=
  (∃ client ∈ sys.app.clientOf c, client.state ≠ .toBeRemoved ∧ (sys.app.ptrOf c).isSome) ∧
    ∀ k ∈ sys.app.clients.keys, k ≠ c → ∀ client ∈ sys.app.clientOf k,
      client.state ≠ .toBeRemoved ∧ (sys.app.ptrOf k).isSome ∧ nextLine client.inBuf = none

/-- Nothing comes but bytes from `c`. -/
def Alone (c : Handle) (env : Env) (sys : Sys) : Prop :=
  env.poll ≠ .ready true ∧ ∀ h ∈ sys.reads, if h = c then ¬ env.hangsUp h else env.silent h

/-- When `c` is asked whether to exit, its input does not begin with a terminator. -/
def Unbroken (c : Handle) (sys : Sys) : Prop :=
  sys.world.speaks = some c → ∀ user ∈ sys.app.room.user c, user.state = .exit →
    ∀ conn ∈ sys.app.room.conn c, ∀ b ∈ conn.inBuf.head?, isNewline b = false

instance (c : Handle) (sys : Sys) : Decidable (Idle c sys) := inferInstanceAs (Decidable (_ ∧ _))
instance (c : Handle) (env : Env) (sys : Sys) : Decidable (Alone c env sys) :=
  inferInstanceAs (Decidable (_ ∧ _))
instance (c : Handle) (sys : Sys) : Decidable (Unbroken c sys) := inferInstanceAs (Decidable (_ → _))

/-- The speaker's connection and user while it stays, on top of `base`, the input
it began with. -/
structure Stays (c : Handle) (base : Bytes) (world : World) (account : Ledger) (tale : Tale) : Prop where
  alike : tale.room.Alike world.room
  user : (world.room.user c).isSome
  conn : ∃ conn, world.room.conn c = some conn ∧ conn.state ≠ .toBeRemoved ∧
    base ++ account.received = account.taken ++ conn.inBuf

/-- What is left of a speaker that has confirmed its exit. -/
structure Leaves (c : Handle) (base : Bytes) (world : World) (account : Ledger) (tale : Tale) : Prop where
  consumed : account.taken <+: base ++ account.received
  conn : ∀ conn, world.room.conn c = some conn → conn.state = .toBeRemoved
  user : ∀ user, world.room.user c = some user →
    tale.room.user c = some user ∧ ¬ world.stage.awaits c

/-- A run in which `c` speaks alone, against the tale of what it has said. -/
structure Follows (c : Handle) (room : Room) (base : Bytes) (world : World) (events : List Event)
    (tale : Tale) : Prop where
  tells : tell c room (spoken (ledger c events).taken) = tale
  told : ∀ k, delivered k events = delivered k tale.events
  gone : (ledger c events).goodbye = tale.gone
  ended : ∀ b ∈ (ledger c events).taken.getLast?, isNewline b = true
  others : ∀ k conn, k ≠ c → world.room.conn k = some conn →
    conn.state ≠ .toBeRemoved ∧ (world.room.user k).isSome ∧ nextLine conn.inBuf = none
  stays : tale.gone = false → Stays c base world (ledger c events) tale
  leaves : tale.gone = true → Leaves c base world (ledger c events) tale

section Follows
variable {env : Env} {c : Handle} {room : Room} {base : Bytes} {world world' : World}
  {trace events : List Event} {tale : Tale}

/-- A step that changes nothing but the place in the program. -/
theorem follows_still (follows : Follows c room base world trace tale) (same : world'.room = world.room)
    (stage : world'.stage.awaits c → world.stage.awaits c) :
    Follows c room base world' trace tale where
  tells := follows.tells
  told := follows.told
  gone := follows.gone
  ended := follows.ended
  others := by
    rw [same]
    exact follows.others
  stays stays := by
    obtain ⟨alike, user, conn⟩ := follows.stays stays
    exact ⟨by rwa [same], by rwa [same], by rwa [same]⟩
  leaves leaves := by
    obtain ⟨consumed, conn, user⟩ := follows.leaves leaves
    refine ⟨consumed, by rwa [same], fun there known => ?_⟩
    rw [same] at known
    exact (user there known).imp_right fun past awaits => past (stage awaits)

private theorem receive_follows {todo : List Handle} {world : Room} {conn : Conn} {data : Bytes}
    (inv : World.Inv ⟨.receive (c :: todo), world⟩) (known : world.conn c = some conn)
    (follows : Follows c room base ⟨.receive (c :: todo), world⟩ trace tale) :
    Follows c room base ⟨.receive todo, world.setConn c { conn with inBuf := conn.inBuf ++ data }⟩
      (trace ++ [.received c data]) tale := by
  have credited : ledger c (trace ++ [.received c data]) =
      { ledger c trace with received := (ledger c trace).received ++ data } := by
    simp [ledger_append, Ledger.after]
  obtain ⟨other, there, online⟩ := inv.fits.2.2 c List.mem_cons_self
  rw [known] at there
  cases there
  refine ⟨by rw [credited]; exact follows.tells, ?_, by rw [credited]; exact follows.gone,
    by rw [credited]; exact follows.ended, ?_, fun stays => ?_, fun leaves => ?_⟩
  · intro k
    rw [delivered_append, follows.told k]
    exact List.append_nil _
  · intro k conn' apart stored
    rw [show (world.setConn c _).conn k = _ from Function.update_of_ne apart _ _] at stored
    exact follows.others k conn' apart stored
  · obtain ⟨alike, user, before, stored, flagged, balanced⟩ := follows.stays stays
    have same := known.symm.trans stored
    cases same
    rw [credited]
    refine ⟨⟨alike.roster, alike.user, alike.owner⟩, user, _, Function.update_self _ _ _, flagged, ?_⟩
    show base ++ ((ledger c trace).received ++ data) = (ledger c trace).taken ++ (conn.inBuf ++ data)
    rw [← List.append_assoc, balanced, List.append_assoc]
  · have flagged := (follows.leaves leaves).conn conn known
    rw [online] at flagged
    cases flagged

private theorem sweep_follows {world : Room} {polled gone : List Handle}
    (inv : World.Inv ⟨.sweep, world⟩) (follows : Follows c room base ⟨.sweep, world⟩ trace tale) :
    Follows c room base ⟨.wait polled, world.swept⟩ (trace ++ gone.map .closed) tale := by
  have apart : Apart c (gone.map Event.closed) := by
    intro e member
    obtain ⟨k, _, rfl⟩ := List.mem_map.mp member
    exact ⟨fun _ => rfl, by simp, by simp⟩
  have same := ledger_apart trace apart
  have kept : ∀ k conn', world.swept.conn k = some conn' → ∃ conn, world.conn k = some conn ∧
      conn.state ≠ .toBeRemoved ∧ conn' = { conn with state := .online } := by
    intro k conn' known
    obtain ⟨conn, stored, same⟩ := Option.bind_eq_some_iff.mp known
    split at same
    · cases same
    · rename_i staying
      exact ⟨conn, stored, staying, (Option.some.inj same).symm⟩
  refine ⟨by rw [same]; exact follows.tells, fun k => ?_, by rw [same]; exact follows.gone,
    by rw [same]; exact follows.ended, ?_, fun stays => ?_, fun leaves => ?_⟩
  · have wordless : delivered k (gone.map .closed) = [] := delivered_none (by simp) k
    rw [delivered_append, follows.told k, wordless, List.append_nil]
  · intro k conn' apart stored
    obtain ⟨conn, known, _, rfl⟩ := kept k conn' stored
    obtain ⟨_, seated, waiting⟩ := follows.others k conn apart known
    exact ⟨nofun, seated, waiting⟩
  · obtain ⟨alike, user, conn, known, staying, balanced⟩ := follows.stays stays
    rw [same]
    refine ⟨⟨alike.roster, alike.user, alike.owner⟩, user, { conn with state := .online }, ?_, nofun,
      balanced⟩
    show (world.conn c).bind _ = _
    rw [known, Option.bind_some, if_neg staying]
  · obtain ⟨consumed, conn, user⟩ := follows.leaves leaves
    rw [same]
    refine ⟨consumed, fun conn' stored => ?_, fun there known => ?_⟩
    · obtain ⟨before, stored, staying, _⟩ := kept c conn' stored
      exact absurd (conn before stored) staying
    · -- Whoever is flagged at the sweep has no user any more.
      have seated : (world.user c).isSome := by
        rw [show world.user c = some there from known]
        rfl
      obtain ⟨before, stored⟩ := Option.isSome_iff_exists.mp (inv.linked.seated c seated)
      exact absurd (conn before stored) ((inv.fits c before stored).mp seated)

/-- The end of a speaker's user. -/
private theorem remove_follows {world : Room} {todo roster : List Handle} {conn : Conn} {user : User}
    (inv : World.Inv ⟨.clients (c :: todo), world⟩) (known : world.conn c = some conn)
    (flagged : conn.state = .toBeRemoved) (seated : world.user c = some user)
    (follows : Follows c room base ⟨.clients (c :: todo), world⟩ trace tale) :
    Follows c room base ⟨.clients todo, world.unseat user roster⟩
      (trace ++ .userRemoved c :: farewells world roster user.username) tale := by
  have own := inv.linked.keyed c user seated
  subst own
  have same : ledger user.handle (trace ++ .userRemoved user.handle ::
      farewells world roster user.username) = ledger user.handle trace := by
    rw [List.append_cons, ledger_apart _ (apart_of_print (farewells_print world roster user.username))]
    simp [ledger_append, Ledger.after]
  have wordless : ∀ k, delivered k
      (.userRemoved user.handle :: farewells world roster user.username) = [] := by
    refine delivered_none fun h action msg member => ?_
    rcases List.mem_cons.mp member with first | inside
    · cases first
    · obtain ⟨k, _, _, framed⟩ := mem_frames (fun h => world.inChat h = true) inside
      simp only [frame, List.mem_cons, List.not_mem_nil, or_false, reduceCtorEq] at framed
      cases framed
      rfl
  refine ⟨by rw [same]; exact follows.tells, fun k => ?_, by rw [same]; exact follows.gone,
    by rw [same]; exact follows.ended, ?_, fun stays => ?_, fun leaves => ?_⟩
  · rw [delivered_append, follows.told k, wordless, List.append_nil]
  · intro k conn' apart stored
    obtain ⟨staying, there, waiting⟩ := follows.others k conn' apart stored
    refine ⟨staying, ?_, waiting⟩
    show (Function.update world.user user.handle none k).isSome
    rw [Function.update_of_ne apart]
    exact there
  · obtain ⟨_, _, before, stored, staying, _⟩ := follows.stays stays
    have one := known.symm.trans stored
    cases one
    exact absurd flagged staying
  · obtain ⟨consumed, conn, _⟩ := follows.leaves leaves
    rw [same]
    refine ⟨consumed, conn, fun there known => ?_⟩
    change Function.update world.user user.handle none user.handle = some there at known
    rw [Function.update_self] at known
    cases known

/-- Consuming a line adds it to what has been spoken, unless it is empty. -/
private theorem spoken_line {taken raw newlines : Bytes} (ended : ∀ b ∈ taken.getLast?, isNewline b = true)
    (plain : ∀ b ∈ raw, isNewline b = false) (nonempty : newlines ≠ [])
    (run : ∀ b ∈ newlines, isNewline b = true) :
    spoken (taken ++ (raw ++ newlines)) = spoken taken ++ (if raw = [] then [] else [sanitize raw]) ∧
      ∀ b ∈ (taken ++ (raw ++ newlines)).getLast?, isNewline b = true := by
  constructor
  · rw [spoken, segments_append ended, List.map_append]
    by_cases empty : raw = []
    · rw [empty, List.nil_append, segments_run run]
      rfl
    · rw [segments_line plain empty nonempty run, if_neg empty]
      rfl
  · intro b last
    rw [← List.append_assoc, List.getLast?_append_of_ne_nil _ nonempty] at last
    exact run b (List.mem_of_getLast? last)

/-- An empty line between terminators does nothing, unless `c` is asked whether
to exit. -/
private theorem speak_blank (days : Int) (world : Room) {user : User} (stays : user.state ≠ .exit) :
    world.speak days user [] = (world, [.prompted user.handle]) := by
  unfold Room.speak
  cases state : user.state with
  | login => rfl
  | chat => rfl
  | exit => exact absurd state stays

/-- A line that is answered. -/
private theorem answered_follows {stage stage' : Stage} {world next : Room} {conn : Conn}
    {taken line rest : Bytes} {said : List Event} {tale' : Tale}
    (follows : Follows c room base ⟨stage, world⟩ trace tale) (staying : tale.gone = false)
    (prints : ∀ e ∈ said, e.isPrint = true)
    (tells : tell c room (spoken ((ledger c trace).taken ++ taken)) = tale') (stays : tale'.gone = false)
    (told : ∀ k, delivered k tale'.events = delivered k tale.events ++ delivered k said)
    (ended : ∀ b ∈ ((ledger c trace).taken ++ taken).getLast?, isNewline b = true)
    (others : ∀ k conn, k ≠ c → next.conn k = some conn →
      conn.state ≠ .toBeRemoved ∧ (next.user k).isSome ∧ nextLine conn.inBuf = none)
    (alike : tale'.room.Alike next) (user : (next.user c).isSome)
    (connected : next.conn c = some { conn with inBuf := rest }) (unflagged : conn.state ≠ .toBeRemoved)
    (balanced : base ++ (ledger c trace).received = (ledger c trace).taken ++ taken ++ rest) :
    Follows c room base ⟨stage', next⟩ (trace ++ .handled c taken line :: said) tale' := by
  have account : ledger c (trace ++ .handled c taken line :: said) =
      { ledger c trace with taken := (ledger c trace).taken ++ taken } := by
    rw [List.append_cons, ledger_apart _ (apart_of_print prints)]
    simp [ledger_append, Ledger.after]
  refine ⟨by rw [account]; exact tells, fun k => ?_, ?_, by rw [account]; exact ended, others,
    fun _ => ?_, fun leaves => ?_⟩
  · rw [told, delivered_append, follows.told k]
    rfl
  · rw [account, stays, ← staying]
    exact follows.gone
  · rw [account]
    exact ⟨alike, user, _, connected, unflagged, balanced⟩
  · rw [stays] at leaves
    cases leaves

/-- A line that confirms an exit. -/
private theorem confirmed_follows {stage : Stage} {todo : List Handle} {world next : Room}
    {taken line rest : Bytes} {tale' : Tale} (absent : c ∉ todo)
    (follows : Follows c room base ⟨stage, world⟩ trace tale)
    (tells : tell c room (spoken ((ledger c trace).taken ++ taken)) = tale') (leaves : tale'.gone = true)
    (told : ∀ k, delivered k tale'.events = delivered k tale.events)
    (ended : ∀ b ∈ ((ledger c trace).taken ++ taken).getLast?, isNewline b = true)
    (others : ∀ k conn, k ≠ c → next.conn k = some conn →
      conn.state ≠ .toBeRemoved ∧ (next.user k).isSome ∧ nextLine conn.inBuf = none)
    (user : tale'.room.user c = next.user c)
    (flagged : ∀ conn, next.conn c = some conn → conn.state = .toBeRemoved)
    (balanced : base ++ (ledger c trace).received = (ledger c trace).taken ++ taken ++ rest) :
    Follows c room base ⟨.users todo, next⟩ (trace ++ [.handled c taken line, .goodbye c]) tale' := by
  have account : ledger c (trace ++ [.handled c taken line, .goodbye c]) =
      ⟨(ledger c trace).received, (ledger c trace).taken ++ taken, true⟩ := by
    simp [ledger_append, Ledger.after]
  refine ⟨by rw [account]; exact tells, fun k => ?_, by rw [account, leaves], by rw [account]; exact ended,
    others, fun stays => ?_, fun _ => ?_⟩
  · rw [told, delivered_append, follows.told k]
    exact List.append_nil _
  · rw [leaves] at stays
    cases stays
  · rw [account]
    exact ⟨⟨rest, balanced.symm⟩, flagged, fun there known => ⟨user.trans known, absent⟩⟩

private theorem turn_follows {world : Room} {todo : List Handle} (days : Int)
    (inv : World.Inv ⟨.users (c :: todo), world⟩)
    (unbroken : ∀ user, world.user c = some user → user.state = .exit →
      ∀ conn, world.conn c = some conn → ∀ b ∈ conn.inBuf.head?, isNewline b = false)
    (follows : Follows c room base ⟨.users (c :: todo), world⟩ trace tale) :
    ∃ tale', Follows c room base ⟨.users todo, (world.turn days c).1⟩
      (trace ++ (world.turn days c).2) tale' := by
  obtain ⟨linked, _, _, once, users⟩ := inv
  obtain ⟨absent, _⟩ := List.nodup_cons.mp once
  obtain ⟨user, known⟩ := Option.isSome_iff_exists.mp (users c List.mem_cons_self)
  have staying : tale.gone = false := by
    rw [← Bool.not_eq_true]
    intro leaves
    exact ((follows.leaves leaves).user user known).2 List.mem_cons_self
  obtain ⟨alike, _, conn, connected, unflagged, balanced⟩ := follows.stays staying
  have others : ∀ k conn, k ≠ c → (world.turn days c).1.conn k = some conn →
      conn.state ≠ .toBeRemoved ∧ ((world.turn days c).1.user k).isSome ∧ nextLine conn.inBuf = none := by
    intro k conn apart stored
    obtain ⟨user, same⟩ := Room.turn_others linked days apart
    rw [user]
    rw [same] at stored
    exact follows.others k conn apart stored
  rcases world.turn_cases days c with ⟨_, nothing⟩ | ⟨other, conn', line, rest, there, also, next, turned⟩
  · rw [nothing, List.append_nil]
    exact ⟨tale, follows_still follows rfl fun awaits => absurd awaits absent⟩
  rw [known] at there
  cases there
  rw [connected] at also
  cases also
  have own := linked.keyed c user known
  obtain ⟨raw, newlines, split, taken, plain, nonempty, run, _, rfl⟩ := nextLine_some next
  obtain ⟨heard, ended⟩ := spoken_line follows.ended plain nonempty run
  rw [split, ← List.append_assoc] at balanced
  have unread : (world.setConn c { conn with inBuf := rest }).conn c = some { conn with inBuf := rest } :=
    Function.update_self _ _ _
  have level : tale.room.Alike (world.setConn c { conn with inBuf := rest }) :=
    ⟨alike.roster, alike.user, alike.owner⟩
  rw [turned] at others ⊢
  rw [taken]
  by_cases empty : raw = []
  · -- A terminator at the front of the input: an empty line, but nothing spoken.
    subst empty
    have talks : user.state ≠ .exit := by
      intro asked
      obtain ⟨first, more, rfl⟩ := List.exists_cons_of_ne_nil nonempty
      have plainly := unbroken user known asked conn connected first (by rw [split]; rfl)
      rw [run first List.mem_cons_self] at plainly
      cases plainly
    have blank := speak_blank days (world.setConn c { conn with inBuf := rest }) talks
    rw [if_pos rfl, List.append_nil] at heard
    change (world.setConn c { conn with inBuf := rest }).speak days user (sanitize []) = _ at blank
    rw [blank] at others ⊢
    refine ⟨tale, answered_follows follows staying (by simp [Event.isPrint]) ?_ staying ?_ ended others
      level (users c List.mem_cons_self) unread unflagged balanced⟩
    · rw [heard]
      exact follows.tells
    · exact fun _ => (List.append_nil _).symm
  · rw [if_neg empty] at heard
    have listens : tale.room.user c = some user := by
      rw [← congrFun alike.user c]
      exact known
    have next : tale.hear c (sanitize raw) = ⟨(tale.room.speak 0 user (sanitize raw)).1,
        decide (user.confirms (sanitize raw)),
        tale.events ++ (tale.room.speak 0 user (sanitize raw)).2⟩ := by
      simp only [Tale.hear, staying, listens]
    have tells : tell c room (spoken ((ledger c trace).taken ++ (raw ++ newlines))) =
        tale.hear c (sanitize raw) := by
      rw [heard, tell_append, follows.tells]
      rfl
    obtain ⟨after, same⟩ := level.speak 0 days user (sanitize raw)
    rcases Room.speak_says days (world.setConn c { conn with inBuf := rest }) user (sanitize raw) with
      ⟨confirms, said⟩ | ⟨stays, prints⟩
    · rw [said] at others after same ⊢
      rw [own] at others after same ⊢
      refine ⟨_, confirmed_follows absent follows tells (by rw [next]; exact decide_eq_true confirms)
        (fun k => ?_) ended others (by rw [next]; exact congrFun after.user.symm c) ?_ balanced⟩
      · rw [next, delivered_append, ← same k]
        exact List.append_nil _
      · intro flagged stored
        change Function.update (world.setConn c { conn with inBuf := rest }).conn c _ c = some flagged
          at stored
        rw [Function.update_self] at stored
        obtain ⟨_, _, rfl⟩ := Option.map_eq_some_iff.mp stored
        rfl
    · have became :=
        Room.speak_becomes days (world.setConn c { conn with inBuf := rest }) user (sanitize raw)
      refine ⟨_, answered_follows follows staying prints tells (by rw [next]; exact decide_eq_false stays)
        (fun k => ?_) ended others (by rw [next]; exact after) ?_ ?_ unflagged balanced⟩
      · rw [next, delivered_append, same k]
      · rw [(became.frame (by rw [own]; exact known)).2.1 c]
        exact users c List.mem_cons_self
      · rw [became.conn_kept stays]
        exact unread

/-- What a step of such a run adds to the tale. -/
theorem step_follows (stepped : World.Step env world events world') (inv : world.Inv)
    (unready : env.poll ≠ .ready true)
    (alone : ∀ h todo, world.stage = .receive (h :: todo) →
      if h = c then ¬ env.hangsUp h else env.silent h)
    (unbroken : ∀ todo, world.stage = .users (c :: todo) → ∀ user, world.room.user c = some user →
      user.state = .exit → ∀ conn, world.room.conn c = some conn →
      ∀ b ∈ conn.inBuf.head?, isNewline b = false)
    (follows : Follows c room base world trace tale) :
    ∃ tale', Follows c room base world' (trace ++ events) tale' := by
  have still : ∀ next : World, next.room = world.room → (next.stage.awaits c → world.stage.awaits c) →
      ∃ tale', Follows c room base next (trace ++ []) tale' := by
    intro next same stage
    rw [List.append_nil]
    exact ⟨tale, follows_still follows same stage⟩
  have unheard : ∀ {h : Handle} {todo : List Handle} {data : Bytes},
      world.stage = .receive (h :: todo) → env.pollin h = true → env.recv h = .data data → h = c := by
    intro h todo data stage waiting arrived
    by_contra other
    have silent := alone h todo stage
    rw [if_neg other] at silent
    rcases silent with unpolled | empty
    · rw [waiting] at unpolled
      cases unpolled
    · rw [arrived] at empty
      cases empty
  cases stepped with
  | sweep => exact ⟨tale, sweep_follows inv follows⟩
  | accept polling => exact absurd polling unready
  | receive known waiting arrived =>
    obtain rfl := unheard rfl waiting arrived
    exact ⟨tale, receive_follows inv known follows⟩
  | @hangUp _ _ h _ _ ended =>
    have silent := alone h _ rfl
    split at silent
    · exact absurd ended silent
    · exact absurd ended silent.stays
  | flush => exact still _ rfl fun _ => trivial
  | @turn todo world k days =>
    by_cases mine : k = c
    · subst mine
      exact turn_follows days inv (unbroken todo rfl) follows
    · have nothing : world.turn days k = (world, []) := by
        rcases world.turn_cases days k with ⟨_, nothing⟩ | ⟨_, conn, _, _, _, connected, next, _⟩
        · exact nothing
        · rw [(follows.others k conn mine connected).2.2] at next
          cases next
      rw [nothing]
      exact still _ rfl fun awaits => List.mem_cons_of_mem _ awaits
  | updated => exact still _ rfl False.elim
  | @create _ world k conn days roster known new =>
    -- Everyone who is connected has a user already.
    have unseated : ¬ (world.user k).isSome := by
      intro seated
      have staying := (inv.fits.1 k conn known).mp seated
      simp [new] at staying
    by_cases mine : k = c
    · subst mine
      cases gone : tale.gone with
      | false => exact absurd (follows.stays gone).user unseated
      | true =>
        have flagged := (follows.leaves gone).conn conn known
        rw [new] at flagged
        cases flagged
    · exact absurd (follows.others k conn mine known).2.1 unseated
  | @remove _ _ k _ _ _ known flagged seated =>
    by_cases mine : k = c
    · subst mine
      exact ⟨tale, remove_follows inv known flagged seated follows⟩
    · exact absurd flagged (follows.others k _ mine known).1
  | _ => exact still _ rfl id

end Follows

/-! ## Two runs -/

/-- A run has consumed a stream: its speaker has confirmed an exit on the way, or
all of the stream has arrived and no line is waiting. -/
def Consumed (c : Handle) (stream : Bytes) (sys : Sys) (events : List Event) : Prop :=
  (ledger c events).received <+: stream ∧ ((ledger c events).goodbye = true ∨
    (ledger c events).received = stream ∧ ∀ conn ∈ sys.app.room.conn c, nextLine conn.inBuf = none)

instance (c : Handle) (stream : Bytes) (sys : Sys) (events : List Event) :
    Decidable (Consumed c stream sys events) := inferInstanceAs (Decidable (_ ∧ _))

/-- A run that has consumed a stream has told the tale of it. -/
private theorem follows_consumed {c : Handle} {room : Room} {base stream : Bytes} {sys : Sys}
    {events : List Event} {tale : Tale} (follows : Follows c room base sys.world events tale)
    (consumed : Consumed c stream sys events) : tell c room (spoken (base ++ stream)) = tale := by
  obtain ⟨arrived, finished⟩ := consumed
  cases gone : tale.gone with
  | false =>
    obtain ⟨_, _, conn, known, _, balanced⟩ := follows.stays gone
    rw [follows.gone, gone] at finished
    obtain ⟨whole, waiting⟩ := finished.resolve_left Bool.false_ne_true
    have pending : spoken conn.inBuf = [] := by
      rw [spoken, segments_plain ((nextLine_none_iff _).mp (waiting conn known))]
      rfl
    rw [whole] at balanced
    rw [balanced, spoken, segments_append follows.ended, List.map_append]
    change tell c room (spoken _ ++ spoken _) = tale
    rw [pending, List.append_nil]
    exact follows.tells
  | true =>
    obtain ⟨⟨more, split⟩, _, _⟩ := follows.leaves gone
    obtain ⟨late, rfl⟩ := arrived
    rw [← List.append_assoc, ← split, List.append_assoc, spoken, segments_append follows.ended,
      List.map_append]
    change tell c room (spoken _ ++ spoken _) = tale
    rw [tell_append, follows.tells]
    exact gone_stays gone _

/-- The state a run of one speaker starts from. -/
private theorem follows_start {c : Handle} {sys : Sys} (good : sys.Good) (idle : Idle c sys) :
    ∃ base, Follows c sys.app.room base sys.world [] ⟨sys.app.room, false, []⟩ := by
  obtain ⟨⟨client, stored, unflagged, seated⟩, others⟩ := idle
  refine ⟨client.inBuf, rfl, fun _ => rfl, rfl, by simp [ledger], ?_, fun _ => ?_, nofun⟩
  · intro k conn apart known
    obtain ⟨other, there, rfl⟩ := client_of_conn known
    have listed : k ∈ sys.app.clients.keys := by
      rw [Map.mem_keys handleEq_exact good.sound.clients]
      exact Option.isSome_iff_exists.mpr ⟨other, there⟩
    obtain ⟨staying, user, waiting⟩ := others k listed apart other there
    exact ⟨staying, (user_isSome good.sound.toLaid k).mpr user, waiting⟩
  · refine ⟨⟨rfl, rfl, rfl⟩, (user_isSome good.sound.toLaid c).mpr seated, _, room_conn stored,
      unflagged, ?_⟩
    simp [ledger]

private theorem run_follows_tale {c : Handle} {room : Room} {base : Bytes} {tale : Tale} {sys₀ sys : Sys}
    (good : sys₀.Good) (start : Follows c room base sys₀.world [] tale)
    (reached : Reaches step (fun env sys => Orderly env sys ∧ Alone c env sys ∧ Unbroken c sys) sys₀ sys) :
    ∃ events tale', sys.app.trace = sys₀.app.trace ++ events ∧
      Follows c room base sys.world events tale' := by
  refine (run_follows reached (fun _ _ granted => granted.1) good
    (fun world trace => ∃ events tale', trace = sys₀.app.trace ++ events ∧
      Follows c room base world events tale')
    ⟨[], tale, (List.append_nil _).symm, start⟩ ?_).2
  rintro env before events after ⟨_, ⟨unready, alone⟩, unbroken⟩ good stepped ⟨told, now, trace, follows⟩
  obtain ⟨next, follows'⟩ := step_follows stepped good.inv unready
    (fun h todo stage => alone h (reads_of_stage stage))
    (fun todo stage user known asked conn connected =>
      unbroken (by rw [World.speaks, stage]) user known asked conn connected) follows
  exact ⟨told ++ events, next, by rw [trace, List.append_assoc], follows'⟩

/-- Two runs that consume the same stream of one speaker, cut in any two ways,
leave it in the same state under the same name, and have delivered the same to
everyone, as long as neither finds a terminator in front of its input when it is
asked whether to exit. -/
theorem splitting_does_not_matter (listener : Handle) (now : Int) (c : Handle) (sys₀ sys₁ sys₂ : Sys)
    (reached : Reaches step Orderly (start listener now) sys₀) (idle : Idle c sys₀)
    (first : Reaches step (fun env sys => Orderly env sys ∧ Alone c env sys ∧ Unbroken c sys) sys₀ sys₁)
    (second : Reaches step (fun env sys => Orderly env sys ∧ Alone c env sys ∧ Unbroken c sys) sys₀ sys₂)
    (events₁ events₂ : List Event) (trace₁ : sys₁.app.trace = sys₀.app.trace ++ events₁)
    (trace₂ : sys₂.app.trace = sys₀.app.trace ++ events₂) (stream : Bytes)
    (consumed₁ : Consumed c stream sys₁ events₁) (consumed₂ : Consumed c stream sys₂ events₂) :
    (ledger c events₁).goodbye = (ledger c events₂).goodbye ∧
    (∀ run ∈ [(sys₁, events₁), (sys₂, events₂)],
      ((ledger c run.2).goodbye = false → (run.1.app.room.user c).isSome) ∧
      ∀ conn ∈ run.1.app.room.conn c, conn.state = .toBeRemoved ↔ (ledger c run.2).goodbye = true) ∧
    (∀ user₁ ∈ sys₁.app.room.user c, ∀ user₂ ∈ sys₂.app.room.user c, user₁ = user₂) ∧
    ∀ k, delivered k events₁ = delivered k events₂ := by
  have good := run_good reached (fun _ _ => id) (start_good listener now)
  obtain ⟨base, begun⟩ := follows_start good idle
  obtain ⟨told₁, tale, same₁, follows₁⟩ := run_follows_tale good begun first
  obtain ⟨told₂, tale₂, same₂, follows₂⟩ := run_follows_tale good begun second
  obtain rfl := List.append_cancel_left (trace₁.symm.trans same₁)
  obtain rfl := List.append_cancel_left (trace₂.symm.trans same₂)
  obtain rfl : tale = tale₂ :=
    (follows_consumed follows₁ consumed₁).symm.trans (follows_consumed follows₂ consumed₂)
  have users : ∀ {sys events}, Follows c sys₀.app.room base (Sys.world sys) events tale →
      ∀ user ∈ sys.app.room.user c, tale.room.user c = some user := by
    intro sys events follows user known
    cases gone : tale.gone with
    | false => exact (congrFun (follows.stays gone).alike.user c).symm.trans known
    | true => exact ((follows.leaves gone).user user known).1
  have flags : ∀ {sys events}, Follows c sys₀.app.room base (Sys.world sys) events tale →
      ((ledger c events).goodbye = false → (sys.app.room.user c).isSome) ∧
      ∀ conn ∈ sys.app.room.conn c, conn.state = .toBeRemoved ↔ (ledger c events).goodbye = true := by
    intro sys events follows
    rw [follows.gone]
    cases gone : tale.gone with
    | false =>
      obtain ⟨_, user, conn, known, unflagged, _⟩ := follows.stays gone
      refine ⟨fun _ => user, fun other connected => ?_⟩
      have same := known.symm.trans connected
      cases same
      simp [unflagged]
    | true =>
      exact ⟨nofun, fun conn connected => by simp [(follows.leaves gone).conn conn connected]⟩
  refine ⟨follows₁.gone.trans follows₂.gone.symm, ?_, ?_,
    fun k => (follows₁.told k).trans (follows₂.told k).symm⟩
  · intro run member
    simp only [List.mem_cons, List.not_mem_nil, or_false] at member
    rcases member with rfl | rfl
    · exact flags follows₁
    · exact flags follows₂
  · intro user₁ known₁ user₂ known₂
    have same := (users follows₁ user₁ known₁).symm.trans (users follows₂ user₂ known₂)
    exact Option.some.inj same

/-- A line whose CR and LF arrive in one piece. -/
def cutNowhere : List (Nat × Env) := [(109, .brings 4 (bytes "ab\n/exit\r\n")), (107, .pauses)]

/-- The same stream, with the LF arriving a round after the CR. -/
def cutInside : List (Nat × Env) :=
  [(109, .brings 4 (bytes "ab\n")), (109, .brings 4 (bytes "/exit\r")), (109, .brings 4 (bytes "\n"))]

private theorem cutNowhere_unsent : ∀ env ∈ rounds cutNowhere, ∀ h data, env.send h data = none :=
  rounds_unsent ⟨fun _ _ => rfl, fun _ _ => rfl⟩

private theorem cutInside_unsent : ∀ env ∈ rounds cutInside, ∀ h data, env.send h data = none :=
  rounds_unsent ⟨fun _ _ => rfl, fun _ _ => rfl, fun _ _ => rfl⟩

/-- Cut inside its last terminator, a request to exit is taken back by it. -/
theorem splitting_takes_exit_back : ∃ sys₀ sys₁ sys₂ : Sys, Reaches step Separate (start 3 0) sys₀ ∧
    Idle 4 sys₀ ∧
    Reaches step (fun env sys => Orderly env sys ∧ Alone 4 env sys) sys₀ sys₁ ∧
    Reaches step (fun env sys => Orderly env sys ∧ Alone 4 env sys) sys₀ sys₂ ∧
    ∃ events₁ events₂, sys₁.app.trace = sys₀.app.trace ++ events₁ ∧
      sys₂.app.trace = sys₀.app.trace ++ events₂ ∧
      Consumed 4 (bytes "ab\n/exit\r\n") sys₁ events₁ ∧ Consumed 4 (bytes "ab\n/exit\r\n") sys₂ events₂ ∧
      sys₁.app.room.user 4 = some ⟨4, .exit, bytes "ab"⟩ ∧
      sys₂.app.room.user 4 = some ⟨4, .chat, bytes "ab"⟩ := by
  have outcome : (drive step separate .assertion (rounds [(107, .connects 4)]) (start 3 0)).bind
      (fun sys₀ => (drive step (fun env sys => separate env sys && decide (Alone 4 env sys)) .assertion
        (rounds cutNowhere) sys₀).bind fun sys₁ =>
          (drive step (fun env sys => separate env sys && decide (Alone 4 env sys)) .assertion
            (rounds cutInside) sys₀).map fun sys₂ =>
              (decide (Idle 4 sys₀),
                decide (Consumed 4 (bytes "ab\n/exit\r\n") sys₁
                  (sys₁.app.trace.drop sys₀.app.trace.length)),
                decide (Consumed 4 (bytes "ab\n/exit\r\n") sys₂
                  (sys₂.app.trace.drop sys₀.app.trace.length)),
                sys₁.app.room.user 4, sys₂.app.room.user 4)) =
        .ok (true, true, true, some ⟨4, .exit, bytes "ab"⟩, some ⟨4, .chat, bytes "ab"⟩) := by
    decide +kernel
  obtain ⟨sys₀, start, outcome⟩ := bind_eq_ok.mp outcome
  obtain ⟨sys₁, first, outcome⟩ := bind_eq_ok.mp outcome
  obtain ⟨sys₂, second, outcome⟩ := map_eq_ok.mp outcome
  obtain ⟨idle, outcome⟩ := Prod.mk.inj outcome
  obtain ⟨whole, outcome⟩ := Prod.mk.inj outcome
  obtain ⟨parts, outcome⟩ := Prod.mk.inj outcome
  obtain ⟨asked, chats⟩ := Prod.mk.inj outcome
  have unsent : ∀ env ∈ rounds [(107, .connects 4)], ∀ h data, env.send h data = none :=
    rounds_unsent fun _ _ => rfl
  have reached := reaches_of_drive unsent start
  have good := run_good reached (fun _ _ => Separate.orderly) (start_good 3 0)
  have one := reaches_of_checked (fun env sys => Alone 4 env sys) cutNowhere_unsent first
  have other := reaches_of_checked (fun env sys => Alone 4 env sys) cutInside_unsent second
  exact ⟨sys₀, sys₁, sys₂, reached, of_decide_eq_true idle, one, other, _, _,
    trace_grows one (fun _ _ granted => granted.1) good,
    trace_grows other (fun _ _ granted => granted.1) good, of_decide_eq_true whole,
    of_decide_eq_true parts, asked, chats⟩

/-- A user in the chat, and another one at the login. -/
def audience : List (Nat × Env) :=
  [(107, .connects 4), (109, .brings 4 (bytes "ab\n")), (110, .connects 5)]

/-- Two lines in one piece, and a round for the second. -/
def inOnePiece : List (Nat × Env) := [(111, .brings 5 (bytes "cd\nhello\r\n")), (109, .pauses)]

/-- The same lines cut inside the second. -/
def inTwoPieces : List (Nat × Env) := [(111, .brings 5 (bytes "cd\nhel")), (111, .brings 5 (bytes "lo\r\n"))]

private theorem audience_unsent : ∀ env ∈ rounds audience, ∀ h data, env.send h data = none :=
  rounds_unsent ⟨fun _ _ => rfl, fun _ _ => rfl, fun _ _ => rfl⟩

private theorem inOnePiece_unsent : ∀ env ∈ rounds inOnePiece, ∀ h data, env.send h data = none :=
  rounds_unsent ⟨fun _ _ => rfl, fun _ _ => rfl⟩

private theorem inTwoPieces_unsent : ∀ env ∈ rounds inTwoPieces, ∀ h data, env.send h data = none :=
  rounds_unsent ⟨fun _ _ => rfl, fun _ _ => rfl⟩

/-- The two pieces deliver what the one does. -/
theorem pieces_deliver_the_same : ∃ events₁ events₂,
    delivered 4 events₁ = [.chat (bytes "cd") (bytes "hello")] ∧
    delivered 4 events₁ = delivered 4 events₂ ∧
    (ledger 5 events₁).goodbye = (ledger 5 events₂).goodbye := by
  have outcome : (drive step separate .assertion (rounds audience) (start 3 0)).bind (fun sys₀ =>
      (drive step (fun env sys => separate env sys && decide (Alone 5 env sys ∧ Unbroken 5 sys)) .assertion
        (rounds inOnePiece) sys₀).bind fun sys₁ =>
          (drive step (fun env sys => separate env sys && decide (Alone 5 env sys ∧ Unbroken 5 sys))
            .assertion (rounds inTwoPieces) sys₀).map fun sys₂ =>
              (decide (Idle 5 sys₀),
                decide (Consumed 5 (bytes "cd\nhello\r\n") sys₁
                  (sys₁.app.trace.drop sys₀.app.trace.length)),
                decide (Consumed 5 (bytes "cd\nhello\r\n") sys₂
                  (sys₂.app.trace.drop sys₀.app.trace.length)),
                delivered 4 (sys₁.app.trace.drop sys₀.app.trace.length))) =
        .ok (true, true, true, [.chat (bytes "cd") (bytes "hello")]) := by
    decide +kernel
  obtain ⟨sys₀, start, outcome⟩ := bind_eq_ok.mp outcome
  obtain ⟨sys₁, first, outcome⟩ := bind_eq_ok.mp outcome
  obtain ⟨sys₂, second, outcome⟩ := map_eq_ok.mp outcome
  obtain ⟨idle, outcome⟩ := Prod.mk.inj outcome
  obtain ⟨whole, outcome⟩ := Prod.mk.inj outcome
  obtain ⟨parts, told⟩ := Prod.mk.inj outcome
  have reached := (reaches_of_drive audience_unsent start).weaken fun _ _ => Separate.orderly
  have good := run_good reached (fun _ _ => id) (start_good 3 0)
  have one := reaches_of_checked (fun env sys => Alone 5 env sys ∧ Unbroken 5 sys) inOnePiece_unsent first
  have other := reaches_of_checked (fun env sys => Alone 5 env sys ∧ Unbroken 5 sys) inTwoPieces_unsent second
  obtain ⟨goodbye, _, _, same⟩ := splitting_does_not_matter 3 0 5 sys₀ sys₁ sys₂ reached
    (of_decide_eq_true idle) one other _ _ (trace_grows one (fun _ _ granted => granted.1) good)
    (trace_grows other (fun _ _ granted => granted.1) good) (bytes "cd\nhello\r\n")
    (of_decide_eq_true whole) (of_decide_eq_true parts)
  exact ⟨_, _, told, same 4, goodbye⟩

end AuroraComms
