import AuroraComms.Response

/-! How long clients are between. A client that is accepted is a user as soon as the
loop over the clients comes to it, and one that hangs up or leaves is a user until
then and connected until the next sweep; each of these is less than two rounds away. -/
namespace AuroraComms
open Meta Library.Run

/-- The passes over the users that end before the next sweep. -/
def Stage.behind : Stage → Nat
  | .wait _ | .receive _ | .flush | .users _ => 1
  | _ => 0

/-- A client that has no user yet. -/
def Room.Comes (room : Room) (h : Handle) : Prop :=
  room.user h = none ∧ ∃ conn, room.conn h = some conn ∧ conn.state = .new

/-- A client that is about to be disconnected. -/
def Room.Goes (room : Room) (h : Handle) : Prop := ∃ conn, room.conn h = some conn ∧ conn.state = .toBeRemoved

/-- A condition that every step keeps, without going back in the round, unless it
notes the event. -/
def Leads (before : Room → Prop) (e : Event) : Prop :=
  ∀ env world events world', world.Inv → World.Step env world events world' → before world.room →
    e ∈ events ∨ before world'.room ∧
      world.stage.passes world'.stage + world'.stage.behind ≤ world.stage.behind

section Steps
variable {room room' : Room} {h k : Handle}

theorem Room.Comes.same (comes : room.Comes h) (user : room'.user h = room.user h)
    (conn : room'.conn h = room.conn h) : room'.Comes h := by
  rw [Room.Comes, user, conn]
  exact comes

/-- A client stays marked, whatever else becomes of its connection. -/
theorem Room.Goes.update (goes : room.Goes h) (new : Conn)
    (marked : ∀ conn, room.conn k = some conn → conn.state = .toBeRemoved → new.state = .toBeRemoved) :
    (room.setConn k new).Goes h := by
  obtain ⟨conn, known, flagged⟩ := goes
  by_cases mine : h = k
  · subst mine
    exact ⟨new, Function.update_self _ _ _, marked conn known flagged⟩
  · exact ⟨conn, (Function.update_of_ne mine _ _).trans known, flagged⟩

/-- A turn leaves a client marked. -/
theorem Room.Goes.turn (goes : room.Goes h) (days : Int) (linked : room.Linked) : (room.turn days k).1.Goes h := by
  rcases room.turn_cases days k with ⟨_, same⟩ | ⟨user, conn, line, rest, known, connected, _, turned⟩
  · rw [same]
    exact goes
  · have own := linked.keyed k user known
    subst own
    have heard : (room.setConn user.handle { conn with inBuf := rest }).Goes h := by
      refine goes.update _ fun conn' known' flagged => ?_
      rw [connected] at known'
      cases known'
      exact flagged
    obtain ⟨conn₁, stored, flagged⟩ := heard
    have became := Room.speak_becomes days (room.setConn user.handle { conn with inBuf := rest }) user line
    obtain ⟨_, _, stays, conns⟩ := became.frame known
    obtain ⟨conn₂, there⟩ := Option.isSome_iff_exists.mp ((stays h).trans (by rw [stored]; rfl))
    obtain ⟨before, stored', shape⟩ := conns h conn₂ there
    rw [stored] at stored'
    cases stored'
    rw [turned]
    refine ⟨conn₂, there, ?_⟩
    rcases shape with rfl | ⟨_, rfl⟩
    · exact flagged
    · rfl

/-- A turn leaves every user a user. -/
theorem turn_present (days : Int) (linked : room.Linked) :
    ((room.turn days k).1.user h).isSome = (room.user h).isSome := by
  rcases room.turn_cases days k with ⟨_, same⟩ | ⟨user, conn, line, rest, known, _, _, turned⟩
  · rw [same]
  · have own := linked.keyed k user known
    subst own
    have became := Room.speak_becomes days (room.setConn user.handle { conn with inBuf := rest }) user line
    obtain ⟨_, present, _⟩ := became.frame known
    rw [turned]
    exact present h

/-- Nothing but a sweep begins another round. -/
theorem World.Step.behind {env : Env} {world world' : World} {events : List Event}
    (stepped : World.Step env world events world') (stays : world.stage = .sweep → world'.stage = .sweep) :
    world.stage.passes world'.stage + world'.stage.behind ≤ world.stage.behind := by
  cases stepped with
  | sweep => cases stays rfl
  | stutter =>
    obtain ⟨stage, room⟩ := world
    cases stage <;> simp [Stage.passes]
  | _ => simp [Stage.passes, Stage.behind]

/-- It is enough that every step keeps the condition, and that a sweep notes the event. -/
theorem leads_of {before : Room → Prop} {e : Event}
    (keeps : ∀ env world events world', world.Inv → World.Step env world events world' → before world.room →
      e ∈ events ∨ before world'.room ∧ (world.stage = .sweep → world'.stage = .sweep)) :
    Leads before e := by
  intro env world events world' inv stepped now
  exact (keeps env world events world' inv stepped now).imp_right (·.imp_right stepped.behind)

/-- A client that is neither new nor marked has a user. -/
theorem World.Inv.online_present {world : World} (inv : world.Inv) {conn : Conn}
    (known : world.room.conn h = some conn) (online : conn.state = .online) : (world.room.user h).isSome := by
  obtain ⟨stage, room⟩ := world
  cases stage with
  | sweep | flush | exited => exact (inv.fits h conn known).mpr (by simp [online])
  | wait | receive | users => exact (inv.fits.1 h conn known).mpr (by simp [online])
  | clients todo =>
    refine (inv.fits.1 h conn known).mpr ?_
    rw [online]
    by_cases waiting : h ∈ todo <;> simp [waiting]

/-- Whoever comes is a user as soon as the loop over the clients passes it. -/
theorem comes_leads (h : Handle) : Leads (·.Comes h) (.userNew h) := by
  refine leads_of fun env world events world' inv stepped comes => ?_
  have still : ∀ k conn, world.room.conn k = some conn → conn.state ≠ .new → h ≠ k := by
    rintro k conn known old rfl
    obtain ⟨_, conn', known', new⟩ := comes
    rw [known] at known'
    cases known'
    exact old new
  cases stepped with
  | sweep =>
    obtain ⟨nobody, conn, known, new⟩ := comes
    have seat := inv.fits h conn known
    rw [nobody, new] at seat
    simp at seat
  | @accept polled room k _ _ fresh =>
    have apart : h ≠ k := by
      rintro rfl
      obtain ⟨_, conn, known, _⟩ := comes
      rw [fresh] at known
      cases known
    exact .inr ⟨comes.same rfl (Function.update_of_ne apart _ _), by simp⟩
  | receive known | hangUp known =>
    obtain ⟨_, _, online⟩ := inv.fits
    obtain ⟨conn, known', on⟩ := online _ List.mem_cons_self
    have apart := still _ _ known' (by rw [on]; simp)
    exact .inr ⟨comes.same rfl (Function.update_of_ne apart _ _), by simp⟩
  | @turn todo room k days =>
    obtain ⟨_, _, present⟩ := inv.fits
    have apart : h ≠ k := by
      rintro rfl
      have there := present h List.mem_cons_self
      rw [comes.1] at there
      cases there
    obtain ⟨user, conn⟩ := Room.turn_others inv.linked days apart
    exact .inr ⟨comes.same user conn, by simp⟩
  | @create todo room k conn days roster known new once all =>
    by_cases mine : h = k
    · exact .inl (by rw [mine]; exact List.mem_append_right _ List.mem_cons_self)
    · exact .inr ⟨comes.same (Function.update_of_ne mine _ _) rfl, by simp⟩
  | @remove todo room k conn user roster known flagged seated once all =>
    have apart := still k conn known (by rw [flagged]; simp)
    rw [← inv.linked.keyed k user seated] at apart
    exact .inr ⟨comes.same (Function.update_of_ne apart _ _) rfl, by simp⟩
  | stutter => exact .inr ⟨comes, id⟩
  | _ => exact .inr ⟨comes, by simp⟩

/-- A client that is marked stays so until a sweep. -/
theorem World.Step.goes {env : Env} {world world' : World} {events : List Event}
    (stepped : World.Step env world events world') (inv : world.Inv) (goes : world.room.Goes h) :
    .closed h ∈ events ∧ world.stage = .sweep ∨
      world'.room.Goes h ∧ (world.stage = .sweep → world'.stage = .sweep) := by
  cases stepped with
  | sweep polled gone polledOnce polledAll goneOnce goneAll =>
    exact .inl ⟨List.mem_map_of_mem ((goneAll h).mpr goes), rfl⟩
  | @accept polled room k _ _ fresh =>
    refine .inr ⟨goes.update _ fun conn known => ?_, by simp⟩
    rw [fresh] at known
    cases known
  | @receive todo room k conn data known =>
    refine .inr ⟨goes.update _ fun conn' known' flagged => ?_, by simp⟩
    rw [known] at known'
    cases known'
    exact flagged
  | hangUp => exact .inr ⟨goes.update _ fun _ _ _ => rfl, by simp⟩
  | turn days => exact .inr ⟨goes.turn days inv.linked, by simp⟩
  | stutter => exact .inr ⟨goes, id⟩
  | _ => exact .inr ⟨goes, by simp⟩

/-- A user stays until it is removed. -/
theorem World.Step.present {env : Env} {world world' : World} {events : List Event}
    (stepped : World.Step env world events world') (inv : world.Inv) (present : (world.room.user h).isSome) :
    .userRemoved h ∈ events ∨ (world'.room.user h).isSome := by
  cases stepped with
  | @turn todo room k days =>
    have same := turn_present (h := h) (k := k) days inv.linked
    exact .inr (same.trans present)
  | @create todo room k conn days roster known new once all =>
    by_cases mine : h = k
    · subst mine
      exact .inr (by simp [Room.seat])
    · refine .inr ?_
      rw [← present]
      exact congrArg Option.isSome (Function.update_of_ne mine _ _)
  | @remove todo room k conn user roster known flagged seated once all =>
    have own := inv.linked.keyed k user seated
    by_cases mine : h = k
    · exact .inl (by rw [mine]; exact List.mem_cons_self)
    · refine .inr ?_
      rw [← present]
      exact congrArg Option.isSome (Function.update_of_ne (by rw [own]; exact mine) _ _)
  | _ => exact .inr present

/-- Whoever goes is disconnected in the next sweep. -/
theorem goes_leads (h : Handle) : Leads (·.Goes h) (.closed h) :=
  leads_of fun _ _ _ _ inv stepped goes => (stepped.goes inv goes).imp_left And.left

/-- Whoever goes is removed as soon as the loop over the clients passes it. -/
theorem removed_leads (h : Handle) :
    Leads (fun room => room.Goes h ∧ (room.user h).isSome) (.userRemoved h) := by
  refine leads_of fun env world events world' inv stepped ⟨goes, present⟩ => ?_
  rcases stepped.goes inv goes with ⟨_, sweeping⟩ | ⟨goes', stays⟩
  · -- By then it has no user.
    obtain ⟨stage, room⟩ := world
    cases sweeping
    obtain ⟨conn, known, flagged⟩ := goes
    exact absurd flagged ((inv.fits h conn known).mp present)
  · exact (stepped.present inv present).imp_right fun present' => ⟨⟨goes', present'⟩, stays⟩

end Steps

/-! ## Whole runs -/

section Runs
variable {sys : Sys} {meter : Meter} {listener : Handle} {now : Int} {h : Handle}

/-- What leads to an event has led to it when two rounds are over. -/
theorem Leads.in_time {holds : Room → Prop} {e : Event} {events : List Event} (leads : Leads holds e)
    (before : Reaches step Orderly (start listener now) sys)
    (during : Reaches Meter.step (fun env meter => Orderly env meter.sys) ⟨sys, 0, 0⟩ meter)
    (running : meter.sys.point ≠ .exited) (long : 2 * roundMax ≤ meter.operations)
    (trace : meter.sys.app.trace = sys.app.trace ++ events) (here : holds sys.app.room) : e ∈ events := by
  let led (world : World) (passes : Nat) (events : List Event) : Prop :=
    e ∈ events ∨ holds world.room ∧ passes + world.stage.behind ≤ 1
  have base : led sys.world 0 [] := by
    refine .inr ⟨here, ?_⟩
    cases sys.world.stage <;> simp [Stage.behind]
  have kept : ∀ env world more world' passes noted, world.Inv → World.Step env world more world' →
      led world passes noted → led world' (passes + world.stage.passes world'.stage) (noted ++ more) := by
    rintro env world more world' passes noted inv moved (old | ⟨still, few⟩)
    · exact .inl (List.mem_append_left _ old)
    · rcases leads env world more world' inv moved still with new | ⟨still', less⟩
      · exact .inl (List.mem_append_right _ new)
      · exact .inr ⟨still', by omega⟩
  obtain ⟨paid, noted, trace', reached⟩ := run_metered led before during base kept
  obtain rfl : noted = events := List.append_cancel_left (trace'.symm.trans trace)
  rcases reached with reached | ⟨_, few⟩
  · exact reached
  · have ended : 2 < meter.passes + 1 := Nat.lt_of_mul_lt_mul_right (long.trans_lt (paid.counted running))
    omega

/-- Clients come and go in time. In any part of an orderly run that takes two rounds,
each client that had no user at first got one, and each that was marked was
disconnected, and removed from the users if it was one. -/
theorem clients_settle_in_time (before : Reaches step Orderly (start listener now) sys)
    (during : Reaches Meter.step (fun env meter => Orderly env meter.sys) ⟨sys, 0, 0⟩ meter)
    (running : meter.sys.point ≠ .exited) (long : 2 * roundMax ≤ meter.operations) :
    ∃ events, meter.sys.app.trace = sys.app.trace ++ events ∧
      ∀ h client, sys.app.clientOf h = some client →
        (client.state ≠ .toBeRemoved → sys.app.ptrOf h = none → .userNew h ∈ events) ∧
        (client.state = .toBeRemoved →
          .closed h ∈ events ∧ ((sys.app.ptrOf h).isSome → .userRemoved h ∈ events)) := by
  obtain ⟨good, _⟩ := run_bounded before
  obtain ⟨_, events, trace, _⟩ :=
    run_metered (fun _ _ _ => True) before during trivial fun _ _ _ _ _ _ _ _ _ => trivial
  refine ⟨events, trace, fun h client stored => ?_⟩
  have known := room_conn stored
  have seated := user_isSome good.sound.toLaid h
  constructor
  · intro staying unknown
    have nobody : sys.app.room.user h = none := by
      rw [unknown] at seated
      simpa using seated
    have new : client.state = .new := by
      cases state : client.state with
      | new => rfl
      | toBeRemoved => exact absurd state staying
      | online =>
        have present := good.inv.online_present known state
        rw [show sys.world.room.user h = none from nobody] at present
        cases present
    exact (comes_leads h).in_time before during running long trace ⟨nobody, _, known, new⟩
  · intro flagged
    have goes : sys.app.room.Goes h := ⟨_, known, flagged⟩
    refine ⟨(goes_leads h).in_time before during running long trace goes, fun present => ?_⟩
    exact (removed_leads h).in_time before during running long trace ⟨goes, seated.mpr present⟩

/-- A connection ends as another one comes. -/
private def crosses : Env := { Env.ends 4 with poll := .ready true, accept := .socket 5 true true }

private def meeting : List (Nat × Env) := [(107, .connects 4), (3, crosses)]

private def idles : List (Nat × Env) := [(912, .pauses)]

private theorem meeting_unsent : ∀ env ∈ rounds meeting, ∀ h data, env.send h data = none :=
  rounds_unsent ⟨fun _ _ => rfl, fun _ _ => rfl⟩

private theorem idles_unsent : ∀ env ∈ rounds idles, ∀ h data, env.send h data = none :=
  rounds_unsent (fun _ _ => rfl)

/-- Of two clients one comes and one goes. -/
theorem clients_settle_in_time_meeting : ∃ (sys : Sys) (meter : Meter) (events : List Event),
    meter.sys.app.trace = sys.app.trace ++ events ∧ (sys.app.clientOf 4).isSome ∧ (sys.app.clientOf 5).isSome ∧
      sys.app.ptrOf 5 = none ∧ .userNew 5 ∈ events ∧ .userRemoved 4 ∈ events ∧ .closed 4 ∈ events := by
  have outcome : (drive step separate .assertion (rounds meeting) (start 3 0)).bind (fun sys =>
      (drive Meter.step (fun env meter => separate env meter.sys) .assertion (rounds idles) ⟨sys, 0, 0⟩).map
        fun meter => ((sys.app.clientOf 4).map Client.state, (sys.app.ptrOf 4).isSome,
          (sys.app.clientOf 5).map Client.state, (sys.app.ptrOf 5).isSome, meter.operations,
          decide (meter.sys.point = .exited))) =
          .ok (some .toBeRemoved, true, some .new, false, 912, false) := by
    decide +kernel
  obtain ⟨sys, first, outcome⟩ := bind_eq_ok.mp outcome
  obtain ⟨meter, second, outcome⟩ := map_eq_ok.mp outcome
  obtain ⟨going, outcome⟩ := Prod.mk.inj outcome
  obtain ⟨present, outcome⟩ := Prod.mk.inj outcome
  obtain ⟨coming, outcome⟩ := Prod.mk.inj outcome
  obtain ⟨absent, outcome⟩ := Prod.mk.inj outcome
  obtain ⟨operations, running⟩ := Prod.mk.inj outcome
  obtain ⟨client₄, stored₄, flagged⟩ := Option.map_eq_some_iff.mp going
  obtain ⟨client₅, stored₅, new⟩ := Option.map_eq_some_iff.mp coming
  have reached : Reaches step Orderly (start 3 0) sys :=
    (reaches_of_drive meeting_unsent first).weaken fun _ _ => Separate.orderly
  have window : Reaches Meter.step (fun env meter => Orderly env meter.sys) ⟨sys, 0, 0⟩ meter :=
    drive_reaches (fun env member meter checked =>
      (separate_of_check (idles_unsent env member) checked).orderly) second
  have unknown : sys.app.ptrOf 5 = none := by simpa using absent
  obtain ⟨events, trace, settled⟩ :=
    clients_settle_in_time reached window (of_decide_eq_false running) (by rw [operations]; decide)
  obtain ⟨closed, removed⟩ := (settled 4 client₄ stored₄).2 flagged
  have entered := (settled 5 client₅ stored₅).1 (by rw [new]; decide) unknown
  exact ⟨sys, meter, events, trace, by rw [stored₄]; rfl, by rw [stored₅]; rfl, unknown, entered,
    removed present, closed⟩

end Runs
end AuroraComms
