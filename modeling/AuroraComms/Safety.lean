import AuroraComms.Refinement

/-! What holds in every reachable state while no two live handles share a bucket
and every loop visits each entry once: no lookup fails, the two tables agree,
each connection has one user for its lifetime, and names belong to users. -/
namespace AuroraComms
open Meta Library.Run

/-! ## The life of a connection -/

/-- Where a handle is between two connections. -/
inductive Phase where
  | away
  | arrived
  | seated
  | unseated
  deriving DecidableEq, Repr

/-- The life of a connection: it is accepted, gets its user, loses its user, and
is closed. Events in any other order make no life. -/
def Phase.after (h : Handle) (phase : Phase) : Event → Option Phase
  | .accepted k => if k ≠ h then some phase else if phase = .away then some .arrived else none
  | .userNew k => if k ≠ h then some phase else if phase = .arrived then some .seated else none
  | .userRemoved k => if k ≠ h then some phase else if phase = .seated then some .unseated else none
  | .closed k => if k ≠ h then some phase else if phase = .unseated then some .away else none
  | _ => some phase

def life (h : Handle) (trace : List Event) : Option Phase := trace.foldlM (Phase.after h) .away

/-- The phase a room shows. -/
def Room.phase (room : Room) (h : Handle) : Phase :=
  match room.conn h with
  | none => .away
  | some conn =>
    if (room.user h).isSome then .seated
    else if conn.state = .toBeRemoved then .unseated else .arrived

theorem talk_keeps_phase {events : List Event} (talk : ∀ e ∈ events, e.isTalk = true) (h : Handle)
    (phase : Phase) : events.foldlM (Phase.after h) phase = some phase := by
  induction events with
  | nil => rfl
  | cons e rest ih =>
    have same : Phase.after h phase e = some phase := by
      have first := talk e List.mem_cons_self
      cases e <;> first | rfl | cases first
    rw [List.foldlM_cons, same]
    exact ih fun e member => talk e (List.mem_cons_of_mem _ member)

theorem closing_phase {gone : List Handle} (once : gone.Nodup) (h : Handle) (phase : Phase) :
    (gone.map Event.closed).foldlM (Phase.after h) phase =
      if h ∈ gone then (if phase = .unseated then some .away else none) else some phase := by
  induction gone generalizing phase with
  | nil => rfl
  | cons k rest ih =>
    obtain ⟨absent, onceRest⟩ := List.nodup_cons.mp once
    rw [List.map_cons, List.foldlM_cons]
    by_cases here : k = h
    · subst here
      by_cases last : phase = .unseated
      · simp [Phase.after, last, ih onceRest, absent]
      · simp [Phase.after, last]
    · simp [Phase.after, here, ih onceRest, Ne.symm here]

section Phases
variable {env : Env} {room room' : Room} {h : Handle}

theorem phase_congr (conn : room'.conn h = room.conn h)
    (user : (room'.user h).isSome = (room.user h).isSome) : room'.phase h = room.phase h := by
  rw [Room.phase, Room.phase, conn, user]

theorem phase_away (absent : room.conn h = none) : room.phase h = .away := by
  rw [Room.phase, absent]

theorem phase_seated {conn : Conn} (known : room.conn h = some conn) (seated : (room.user h).isSome) :
    room.phase h = .seated := by
  simp [Room.phase, known, seated]

theorem phase_unseated {conn : Conn} (known : room.conn h = some conn) (alone : room.user h = none)
    (flagged : conn.state = .toBeRemoved) : room.phase h = .unseated := by
  simp [Room.phase, known, alone, flagged]

theorem phase_arrived {conn : Conn} (known : room.conn h = some conn) (alone : room.user h = none)
    (new : conn.state = .new) : room.phase h = .arrived := by
  simp [Room.phase, known, alone, new]

/-- Events about other handles, and talk, leave a phase alone. -/
private theorem other_phase {k : Handle} {talk : List Event} {event : Event}
    (apart : k ≠ h) (about : event = .accepted k ∨ event = .userNew k ∨ event = .userRemoved k)
    (spoken : ∀ e ∈ talk, e.isTalk = true) (phase : Phase) :
    (event :: talk).foldlM (Phase.after h) phase = some phase := by
  rw [List.foldlM_cons]
  rcases about with rfl | rfl | rfl <;> simp [Phase.after, apart, talk_keeps_phase spoken]

private theorem sweep_phase {gone : List Handle} (inv : World.Inv ⟨.sweep, room⟩)
    (once : gone.Nodup)
    (all : ∀ h, h ∈ gone ↔ ∃ conn, room.conn h = some conn ∧ conn.state = .toBeRemoved) :
    (gone.map Event.closed).foldlM (Phase.after h) (room.phase h) = some (room.swept.phase h) := by
  rw [closing_phase once]
  cases known : room.conn h with
  | none =>
    have kept : h ∉ gone := by
      rw [all]
      rintro ⟨conn, there, _⟩
      rw [known] at there
      cases there
    have swept : room.swept.conn h = none := by simp [Room.swept, known]
    rw [if_neg kept, phase_away known, phase_away swept]
  | some conn =>
    have pair := inv.fits h conn known
    by_cases flagged : conn.state = .toBeRemoved
    · have alone : room.user h = none := by simpa [flagged] using pair
      have swept : room.swept.conn h = none := by simp [Room.swept, known, flagged]
      rw [if_pos ((all h).mpr ⟨conn, known, flagged⟩), phase_unseated known alone flagged,
        phase_away swept]
      rfl
    · have seated : (room.user h).isSome := pair.mpr flagged
      have kept : h ∉ gone := by
        rw [all]
        rintro ⟨other, there, goes⟩
        rw [known] at there
        cases there
        exact flagged goes
      have swept : room.swept.conn h = some { conn with state := .online } := by
        simp [Room.swept, known, flagged]
      rw [if_neg kept, phase_seated known seated, phase_seated swept seated]

private theorem setConn_phase {k : Handle} {conn conn' : Conn} (known : room.conn k = some conn)
    (seated : (room.user k).isSome) : (room.setConn k conn').phase h = room.phase h := by
  by_cases mine : h = k
  · subst mine
    have updated : (room.setConn h conn').conn h = some conn' := Function.update_self _ _ _
    rw [phase_seated known seated, phase_seated updated seated]
  · exact phase_congr (Function.update_of_ne mine _ _) rfl

private theorem becomes_phase {user : User} {line : Bytes} {conn : Conn}
    (became : Room.Becomes room user line room') (here : room.user user.handle = some user)
    (connected : room.conn user.handle = some conn) : room'.phase h = room.phase h := by
  obtain ⟨_, users, present, conns⟩ := became.frame here
  by_cases mine : h = user.handle
  · subst mine
    obtain ⟨conn', there⟩ := Option.isSome_iff_exists.mp
      ((present user.handle).trans (by rw [connected]; rfl))
    have seated : (room.user user.handle).isSome := Option.isSome_iff_exists.mpr ⟨user, here⟩
    rw [phase_seated connected seated, phase_seated there ((users _).trans seated)]
  · refine phase_congr ?_ (users h)
    cases there : room'.conn h with
    | none =>
      have absent := present h
      rw [there] at absent
      exact (Option.not_isSome_iff_eq_none.mp (by rw [← absent]; simp)).symm
    | some conn' =>
      obtain ⟨before, stored, rfl | ⟨same, _⟩⟩ := conns h conn' there
      · exact stored.symm
      · exact absurd same mine

private theorem turn_phase {k : Handle} {todo : List Handle} (days : Int)
    (inv : World.Inv ⟨.users (k :: todo), room⟩) :
    (room.turn days k).2.foldlM (Phase.after h) (room.phase h) =
      some ((room.turn days k).1.phase h) := by
  rcases room.turn_cases days k with ⟨_, nothing⟩ | ⟨user, conn, line, rest, known, connected, _, turned⟩
  · rw [nothing]
    rfl
  · rw [turned]
    have own := inv.linked.keyed k user known
    subst own
    have seated : (room.user user.handle).isSome := Option.isSome_iff_exists.mpr ⟨user, known⟩
    have became := Room.speak_becomes days (room.setConn user.handle { conn with inBuf := rest }) user line
    obtain ⟨_, users, present, conns⟩ := became.frame known
    have after : ∀ phase, (Event.handled user.handle (takenFrom conn.inBuf rest) line ::
        ((room.setConn user.handle { conn with inBuf := rest }).speak days user line).2).foldlM
          (Phase.after h) phase = some phase := by
      intro phase
      exact talk_keeps_phase (Room.speak_talk _ _ _ _) h phase
    have connected₁ : (room.setConn user.handle { conn with inBuf := rest }).conn user.handle =
        some { conn with inBuf := rest } := Function.update_self _ _ _
    rw [after, becomes_phase became known connected₁, setConn_phase connected seated]

private theorem polled_seated {k : Handle} {todo : List Handle} {conn : Conn}
    (inv : World.Inv ⟨.receive (k :: todo), room⟩) (known : room.conn k = some conn) :
    (room.user k).isSome := by
  obtain ⟨other, there, online⟩ := inv.fits.2.2 k List.mem_cons_self
  change room.conn k = some other at there
  rw [known] at there
  cases there
  exact (inv.fits.1 k conn known).mpr (by simp [online])

private theorem accept_phase {k : Handle} {polled : List Handle}
    (inv : World.Inv ⟨.wait polled, room⟩) (fresh : room.conn k = none) :
    [Event.accepted k].foldlM (Phase.after h) (room.phase h) =
      some ((room.setConn k ⟨.new, []⟩).phase h) := by
  by_cases mine : k = h
  · subst mine
    have alone : room.user k = none := by
      cases seated : room.user k with
      | none => rfl
      | some user =>
        have connected := inv.linked.seated k (Option.isSome_iff_exists.mpr ⟨user, seated⟩)
        rw [show room.conn k = none from fresh] at connected
        cases connected
    have updated : (room.setConn k ⟨.new, []⟩).conn k = some ⟨.new, []⟩ := Function.update_self _ _ _
    rw [phase_away fresh, phase_arrived updated alone rfl]
    simp [Phase.after]
  · have kept : (room.setConn k ⟨.new, []⟩).conn h = room.conn h :=
      Function.update_of_ne (Ne.symm mine) _ _
    rw [other_phase mine (Or.inl rfl) (by simp), phase_congr kept rfl]

private theorem create_phase {k : Handle} {todo roster : List Handle} {conn : Conn} {days : Int}
    (inv : World.Inv ⟨.clients (k :: todo), room⟩) (known : room.conn k = some conn)
    (new : conn.state = .new) :
    (frame k .afterEnter (.greeting room.roster.length days) ++ [Event.userNew k]).foldlM
      (Phase.after h) (room.phase h) = some ((room.seat k roster).phase h) := by
  rw [List.foldlM_append, talk_keeps_phase (talk_of_print (frame_print _ _ _))]
  show [Event.userNew k].foldlM (Phase.after h) (room.phase h) = _
  by_cases mine : k = h
  · subst mine
    have alone : room.user k = none := by
      have pair := inv.fits.1 k conn known
      simpa [new] using pair
    have updated : (room.seat k roster).user k = some ⟨k, .login, []⟩ := Function.update_self _ _ _
    have there : (room.seat k roster).conn k = some conn := known
    rw [phase_arrived known alone new, phase_seated there (by rw [updated]; rfl)]
    simp [Phase.after]
  · have kept : (room.seat k roster).user h = room.user h := Function.update_of_ne (Ne.symm mine) _ _
    have same : (room.seat k roster).phase h = room.phase h :=
      phase_congr rfl (congrArg Option.isSome kept)
    rw [other_phase mine (Or.inr (Or.inl rfl)) (by simp), same]

private theorem remove_phase {k : Handle} {todo roster : List Handle} {conn : Conn} {user : User}
    (inv : World.Inv ⟨.clients (k :: todo), room⟩) (known : room.conn k = some conn)
    (flagged : conn.state = .toBeRemoved) (seated : room.user k = some user) :
    (Event.userRemoved k :: farewells room roster user.username).foldlM (Phase.after h)
      (room.phase h) = some ((room.unseat user roster).phase h) := by
  have own := inv.linked.keyed k user seated
  subst own
  by_cases mine : user.handle = h
  · subst mine
    have alone : (room.unseat user roster).user user.handle = none := Function.update_self _ _ _
    have there : (room.unseat user roster).conn user.handle = some conn := known
    rw [List.foldlM_cons, phase_seated known (Option.isSome_iff_exists.mpr ⟨user, seated⟩),
      phase_unseated there alone flagged]
    simp [Phase.after, talk_keeps_phase (talk_of_print (farewells_print room roster user.username))]
  · have kept : (room.unseat user roster).user h = room.user h :=
      Function.update_of_ne (Ne.symm mine) _ _
    have same : (room.unseat user roster).phase h = room.phase h :=
      phase_congr rfl (congrArg Option.isSome kept)
    rw [other_phase mine (Or.inr (Or.inr rfl))
      (talk_of_print (farewells_print room roster user.username)), same]

/-- A step's events take a handle from the phase before it to the phase after. -/
theorem step_phase {world world' : World} {events : List Event}
    (stepped : World.Step env world events world') (inv : world.Inv) (h : Handle) :
    events.foldlM (Phase.after h) (world.room.phase h) = some (world'.room.phase h) := by
  cases stepped with
  | sweep polled gone _ _ goneOnce goneAll => exact sweep_phase inv goneOnce goneAll
  | quit => rfl
  | calm => rfl
  | ready => rfl
  | accept _ _ fresh => exact accept_phase inv fresh
  | skip => rfl
  | receive known => exact congrArg some (setConn_phase known (polled_seated inv known)).symm
  | hangUp known => exact congrArg some (setConn_phase known (polled_seated inv known)).symm
  | received => rfl
  | flush => rfl
  | turn days => exact turn_phase days inv
  | updated => rfl
  | create days roster known new => exact create_phase inv known new
  | remove roster known flagged seated => exact remove_phase inv known flagged seated
  | keep => rfl
  | done => rfl
  | stutter => rfl

end Phases

/-! ## The runs of the server -/

/-- The trace of every run gives every handle a life. -/
theorem run_lives {allowed : Env → Sys → Prop} {listener : Handle} {now : Int} {sys : Sys}
    (reached : Reaches step allowed (start listener now) sys)
    (orderly : ∀ env sys, allowed env sys → Orderly env sys) (h : Handle) :
    life h sys.app.trace = some (sys.app.room.phase h) := by
  refine (run_follows reached orderly (start_good listener now)
    (fun world trace => life h trace = some (world.room.phase h)) ?_ ?_).2
  · exact congrArg some (phase_away (start_conn listener now h)).symm
  · intro env before events after _ good stepped lived
    rw [life, List.foldlM_append]
    change life h before.app.trace >>= _ = _
    rw [lived]
    exact step_phase stepped good.inv h

/-- As long as no two live handles share a bucket and the loops visit each entry
once, no step of the main loop fails; every user is connected; after an update
the users are those of the clients that stay; and every connection has one user,
removed before the connection is closed. -/
theorem main_loop_never_fails (listener : Handle) (now : Int) (sys : Sys)
    (reached : Reaches step Separate (start listener now) sys) :
    (∀ env, Separate env sys → ∃ sys', step env sys = .ok sys') ∧
    (∀ h, (sys.app.ptrOf h).isSome → (sys.app.clientOf h).isSome) ∧
    (sys.point = .sweep → ∀ h, (sys.app.ptrOf h).isSome ↔
      ∃ client, sys.app.clientOf h = some client ∧ client.state ≠ .toBeRemoved) ∧
    ∀ h, life h sys.app.trace = some (sys.app.room.phase h) := by
  have orderly : ∀ env sys, Separate env sys → Orderly env sys := fun _ _ => Separate.orderly
  have good := run_good reached orderly (start_good listener now)
  have seated := good.sound.seated good.inv.linked
  refine ⟨fun env granted => run_never_fails reached orderly (start_good listener now) granted, seated,
    ?_, run_lives reached orderly⟩
  intro swept h
  have fits := good.inv.fits
  rw [Sys.world, swept] at fits
  rw [← user_isSome good.sound.toLaid]
  constructor
  · intro known
    obtain ⟨conn, connected⟩ := Option.isSome_iff_exists.mp (good.inv.linked.seated h known)
    obtain ⟨client, stored, rfl⟩ := client_of_conn connected
    exact ⟨client, stored, (fits h _ connected).mp known⟩
  · rintro ⟨client, stored, stays⟩
    exact (fits h _ (room_conn stored)).mpr stays

/-- A connection is accepted and its user created. -/
theorem main_loop_never_fails_on_arrival : ∃ sys,
    drive step separate .assertion (List.replicate 107 (.connects 4)) (start 3 0) = .ok sys ∧
      sys.point = .sweep ∧ (sys.app.ptrOf 4).isSome ∧
      (∃ client, sys.app.clientOf 4 = some client ∧ client.state ≠ .toBeRemoved) ∧
      life 4 sys.app.trace = some (sys.app.room.phase 4) := by
  have outcome : (drive step separate .assertion (List.replicate 107 (.connects 4)) (start 3 0)).map
      (fun sys => (sys.point, (sys.app.ptrOf 4).isSome)) = .ok (.sweep, true) := by
    decide +kernel
  obtain ⟨sys, driven, outcome⟩ := map_eq_ok.mp outcome
  obtain ⟨point, seated⟩ := Prod.mk.inj outcome
  have reached := reaches_of_drive (fun env member _ _ => by
    rw [List.eq_of_mem_replicate member]
    rfl) driven
  obtain ⟨_, _, users, lives⟩ := main_loop_never_fails 3 0 sys reached
  exact ⟨sys, driven, point, seated, (users point 4).mp seated, lives 4⟩

/-! ## Names -/

section Names
variable {env : Env}

/-- Talk and the handling of lines remove no user. -/
private theorem not_removed {events : List Event} (talk : ∀ e ∈ events, e.isTalk = true) (h : Handle) :
    Event.userRemoved h ∉ events := by
  intro member
  cases talk _ member

/-- No line takes a name away from its owner. -/
private theorem becomes_owner {room room' : Room} {user : User} {line name : Bytes} {h k : Handle}
    (became : Room.Becomes room user line room') (named : room.Named)
    (known : room.user k = some user) (owned : room.owner name = some h) :
    room'.owner name = some h := by
  cases became with
  | joins entering nonempty free valid =>
    have renamed : user.username ++ line = line := by
      rw [(named.unnamed k user known).mp entering]
      rfl
    show Function.update room.owner (user.username ++ line) _ name = some h
    rw [renamed, Function.update_of_ne, owned]
    rintro rfl
    rw [owned] at free
    cases free
  | _ => exact owned

private theorem turn_owner {room : Room} {k : Handle} {todo : List Handle} (days : Int)
    (inv : World.Inv ⟨.users (k :: todo), room⟩) {name : Bytes} {h : Handle}
    (owned : room.owner name = some h) :
    (room.turn days k).1.owner name =
      if .userRemoved h ∈ (room.turn days k).2 then none else some h := by
  rcases room.turn_cases days k with ⟨_, nothing⟩ | ⟨user, conn, line, rest, known, _, _, turned⟩
  · rw [nothing]
    exact owned
  · have talk := Room.speak_talk days (room.setConn k { conn with inBuf := rest }) user line
    have absent : Event.userRemoved h ∉ (room.turn days k).2 := by
      rw [turned, List.mem_cons, not_or]
      exact ⟨by simp, not_removed talk h⟩
    rw [if_neg absent, turned]
    exact becomes_owner (Room.speak_becomes days _ user line)
      (Room.setConn_named inv.named k { conn with inBuf := rest }) known owned

private theorem remove_owner {room : Room} {k : Handle} {todo roster : List Handle} {user : User}
    (inv : World.Inv ⟨.clients (k :: todo), room⟩) (seated : room.user k = some user) {name : Bytes}
    {h : Handle} (owned : room.owner name = some h) :
    (room.unseat user roster).owner name =
      if .userRemoved h ∈ Event.userRemoved k :: farewells room roster user.username then none
      else some h := by
  have own := inv.linked.keyed k user seated
  subst own
  have talk := not_removed (talk_of_print (farewells_print room roster user.username)) h
  obtain ⟨other, there, past, mine⟩ := (inv.named.owned name h).mp owned
  show Function.update room.owner user.username none name = _
  rw [Function.update_apply]
  by_cases same : h = user.handle
  · subst same
    rw [seated] at there
    cases there
    rw [if_pos mine.symm, if_pos List.mem_cons_self]
  · have different : name ≠ user.username := by
      intro dropped
      by_cases inside : user.state = .login
      · have empty := (inv.named.unnamed _ user seated).mp inside
        rw [dropped, empty] at mine
        exact past ((inv.named.unnamed h other there).mpr mine)
      · have held := (inv.named.owned name user.handle).mpr ⟨user, seated, inside, dropped.symm⟩
        rw [owned] at held
        exact same (Option.some.inj held)
    have absent : Event.userRemoved h ∉ Event.userRemoved user.handle ::
        farewells room roster user.username := by
      rw [List.mem_cons, not_or]
      exact ⟨fun named => same (Event.userRemoved.inj named), talk⟩
    rw [if_neg different, if_neg absent, owned]

/-- A registered name stays its owner's until its owner is removed. -/
theorem step_owner {world world' : World} {events : List Event}
    (stepped : World.Step env world events world') (inv : world.Inv) {name : Bytes} {h : Handle}
    (owned : world.room.owner name = some h) :
    world'.room.owner name = if .userRemoved h ∈ events then none else some h := by
  have kept : Event.userRemoved h ∉ events → world'.room.owner = world.room.owner →
      world'.room.owner name = if .userRemoved h ∈ events then none else some h := by
    intro absent same
    rw [if_neg absent, same, owned]
  cases stepped with
  | turn days => exact turn_owner days inv owned
  | remove roster known flagged seated once all => exact remove_owner inv seated owned
  | create => exact kept (by simp [frame]) rfl
  | sweep => exact kept (by simp) rfl
  | _ => exact kept (by simp) rfl

/-- In every reachable state a user is at the login exactly as long as it has no
name; the others have valid names, no two the same, each registered to its own
user, and no other name is. A name becomes free with the removal of its owner. -/
theorem names_belong_to_users (listener : Handle) (now : Int) (sys : Sys)
    (reached : Reaches step Separate (start listener now) sys) :
    (∀ h p user, sys.app.ptrOf h = some p → sys.app.userAt p = some user →
      (user.state = .login ↔ user.username = []) ∧
      (user.state ≠ .login → validateUsername user.username = true)) ∧
    (∀ h k p q user other, sys.app.ptrOf h = some p → sys.app.userAt p = some user →
      sys.app.ptrOf k = some q → sys.app.userAt q = some other → user.state ≠ .login →
      other.state ≠ .login → user.username = other.username → h = k) ∧
    sys.app.fromUsername.keys.Nodup ∧
    (∀ name, name ∈ sys.app.fromUsername.keys ↔ (sys.app.named name).isSome) ∧
    (∀ name p, sys.app.named name = some p ↔ ∃ h user, sys.app.ptrOf h = some p ∧
      sys.app.userAt p = some user ∧ user.state ≠ .login ∧ user.username = name) ∧
    ∀ env sys', Separate env sys → step env sys = .ok sys' →
      ∃ events, sys'.app.trace = sys.app.trace ++ events ∧ ∀ name h,
        sys.app.room.owner name = some h →
        sys'.app.room.owner name = if .userRemoved h ∈ events then none else some h := by
  have orderly : ∀ env sys, Separate env sys → Orderly env sys := fun _ _ => Separate.orderly
  obtain ⟨sound, linked, named, fits⟩ := run_good reached orderly (start_good listener now)
  have known : ∀ h p user, sys.app.ptrOf h = some p → sys.app.userAt p = some user →
      sys.app.room.user h = some user := by
    intro h p user held live
    show (sys.app.ptrOf h).bind sys.app.userAt = some user
    rw [held]
    exact live
  refine ⟨?_, ?_, Map.keys_nodup stringEq_exact sound.names,
    fun name => Map.mem_keys stringEq_exact sound.names, ?_, ?_⟩
  · intro h p user held live
    exact ⟨named.unnamed h user (known h p user held live),
      named.valid h user (known h p user held live)⟩
  · intro h k p q user other held live held' live' past past' same
    have first := (named.owned user.username h).mpr ⟨user, known h p user held live, past, rfl⟩
    have second := (named.owned user.username k).mpr
      ⟨other, known k q other held' live', past', same.symm⟩
    have both := first.symm.trans second
    exact Option.some.inj both
  · intro name p
    constructor
    · intro registered
      obtain ⟨user, live, held⟩ := sound.registered name p registered
      have owner : sys.app.room.owner name = some user.handle := by
        show ((sys.app.named name).bind sys.app.userAt).map User.handle = _
        rw [registered, Option.bind_some, live]
        rfl
      obtain ⟨other, there, past, own⟩ := (named.owned name user.handle).mp owner
      have mine := (known _ p user held live).symm.trans there
      cases mine
      exact ⟨user.handle, user, held, live, past, own⟩
    · rintro ⟨h, user, held, live, past, own⟩
      have owner := (named.owned name h).mpr ⟨user, known h p user held live, past, own⟩
      obtain ⟨other, there, keyed⟩ := Option.map_eq_some_iff.mp owner
      obtain ⟨q, registered, live'⟩ := Option.bind_eq_some_iff.mp there
      obtain ⟨third, live'', held'⟩ := sound.registered name q registered
      rw [live'] at live''
      cases live''
      rw [keyed, held] at held'
      cases held'
      exact registered
  · intro env sys' granted ran
    obtain ⟨next, events, ran', _, trace, stepped⟩ :=
      step_refines sound ⟨linked, named, fits⟩ (orderly env sys granted)
    rw [ran] at ran'
    cases ran'
    exact ⟨events, trace, fun name h owned => step_owner stepped ⟨linked, named, fits⟩ owned⟩

/-- A user takes the name `ab`. -/
theorem names_belong_after_login : ∃ sys,
    drive step separate .assertion
      (List.replicate 107 (.connects 4) ++ List.replicate 109 (.brings 4 (bytes "ab\n"))) (start 3 0) =
        .ok sys ∧
      ∃ h user, sys.app.ptrOf h = some 0 ∧ sys.app.userAt 0 = some user ∧ user.state ≠ .login ∧
        user.username = bytes "ab" := by
  have outcome : (drive step separate .assertion
      (List.replicate 107 (.connects 4) ++ List.replicate 109 (.brings 4 (bytes "ab\n")))
      (start 3 0)).map (fun sys => sys.app.named (bytes "ab")) = .ok (some 0) := by
    decide +kernel
  obtain ⟨sys, driven, outcome⟩ := map_eq_ok.mp outcome
  have reached := reaches_of_drive (fun env member _ _ => by
    rcases List.mem_append.mp member with first | second
    · rw [List.eq_of_mem_replicate first]
      rfl
    · rw [List.eq_of_mem_replicate second]
      rfl) driven
  obtain ⟨_, _, _, _, registered, _⟩ := names_belong_to_users 3 0 sys reached
  exact ⟨sys, driven, (registered (bytes "ab") 0).mp outcome⟩

end Names
end AuroraComms
