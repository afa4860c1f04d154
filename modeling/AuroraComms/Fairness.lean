import AuroraComms.Refinement

/-! How the main loop shares its passes among the users. A pass of the loop over
the users gives each of them one turn, and a turn handles one line; so a line waits
for as many passes as there are lines of the same user before it, whatever the
others send. -/
namespace AuroraComms
open Meta Library.Run

/-- At least so many lines wait in an input. -/
inductive Waits : Nat → Bytes → Prop where
  | nothing (inBuf : Bytes) : Waits 0 inBuf
  | line {n : Nat} {inBuf line rest : Bytes} (next : nextLine inBuf = some (line, rest)) (more : Waits n rest) :
    Waits (n + 1) inBuf

/-- A line of a client is handled. -/
def Event.handles (h : Handle) : Event → Bool
  | .handled k _ _ => decide (k = h)
  | _ => false

/-- Whether the turn of a user in the current pass is behind. -/
def Stage.turned (h : Handle) : Stage → Nat
  | .users todo => if h ∈ todo then 0 else 1
  | _ => 0

/-- The passes that end with a step. -/
def Stage.passes : Stage → Stage → Nat
  | .users _, .clients _ => 1
  | _, _ => 0

section Inputs
variable {n : Nat} {inBuf rest line more : Bytes}

/-- What comes later takes nothing away from what waits. -/
theorem Waits.append (waits : Waits n inBuf) (more : Bytes) : Waits n (inBuf ++ more) := by
  induction waits with
  | nothing => exact .nothing _
  | @line n inBuf line rest next waiting ih =>
    obtain ⟨raw, newlines, split, _, plain, ended, run, stops, rfl⟩ := nextLine_some next
    cases waiting with
    | nothing =>
      -- The run of terminators may go on.
      let after := newlines ++ rest ++ more
      obtain ⟨b, tail, starts⟩ := List.exists_cons_of_ne_nil ended
      have first : isNewline b = true := run b (by rw [starts]; exact List.mem_cons_self)
      have cut : inBuf ++ more = raw ++ after.takeWhile isNewline ++ after.dropWhile isNewline := by
        rw [List.append_assoc, List.takeWhile_append_dropWhile, split]
        simp only [after, List.append_assoc]
      have longer : nextLine (inBuf ++ more) = some (sanitize raw, after.dropWhile isNewline) := by
        rw [cut]
        refine nextLine_complete plain (by simp [after, starts, first])
          (fun c member => List.mem_takeWhile_imp member) fun c head => ?_
        have no := List.head?_dropWhile_not isNewline after
        rw [Option.mem_def.mp head] at no
        exact no
      exact .line longer (.nothing _)
    | line next' more' =>
      have filled : rest ≠ [] := by
        rintro rfl
        have nothing := (nextLine_none_iff []).mpr nofun
        rw [nothing] at next'
        cases next'
      have longer : nextLine (inBuf ++ more) = some (sanitize raw, rest ++ more) := by
        rw [split, List.append_assoc (raw ++ newlines)]
        refine nextLine_complete plain ended run fun c head => stops c ?_
        rwa [List.head?_append_of_ne_nil _ filled] at head
      exact .line longer ih

theorem Waits.behind (waits : Waits n inBuf) (next : nextLine inBuf = some (line, rest)) : Waits (n - 1) rest := by
  cases waits with
  | nothing => exact .nothing rest
  | line next' more =>
    rw [next] at next'
    cases next'
    exact more

theorem Waits.exhausted (waits : Waits n inBuf) (last : nextLine inBuf = none) : n = 0 := by
  cases waits with
  | nothing => rfl
  | line next =>
    rw [last] at next
    cases next

end Inputs

/-! ## One step -/

/-- A user of whose lines at least so many wait. -/
def Room.Queues (room : Room) (h : Handle) (n : Nat) : Prop :=
  (room.user h).isSome ∧ ∃ conn, room.conn h = some conn ∧ Waits n conn.inBuf

/-- How many lines of a client are handled. -/
def handledFrom (h : Handle) (events : List Event) : Nat := events.countP (Event.handles h)

section Steps
variable {env : Env} {world world' : World} {events : List Event} {room room' : Room} {h k : Handle} {n : Nat}
  {todo : List Handle}

theorem handledFrom_append (before after : List Event) :
    handledFrom h (before ++ after) = handledFrom h before + handledFrom h after := List.countP_append

theorem handledFrom_none (aside : ∀ e ∈ events, e.handles h = false) : handledFrom h events = 0 :=
  List.countP_eq_zero.mpr fun e member handles => by
    rw [aside e member] at handles
    cases handles

theorem handledFrom_talk (talk : ∀ e ∈ events, e.isTalk = true) : handledFrom h events = 0 := by
  refine handledFrom_none fun e member => ?_
  have said := talk e member
  cases e <;> first | rfl | cases said

/-- A user and its connection, as far as its lines are concerned. -/
theorem Room.Queues.same (queues : room.Queues h n) (present : (room'.user h).isSome = (room.user h).isSome)
    (kept : ∀ conn, room.conn h = some conn → ∃ conn', room'.conn h = some conn' ∧ conn'.inBuf = conn.inBuf) :
    room'.Queues h n := by
  obtain ⟨known, conn, connected, waits⟩ := queues
  obtain ⟨conn', connected', same⟩ := kept conn connected
  exact ⟨by rw [present]; exact known, conn', connected', by rw [same]; exact waits⟩

/-- A turn handles one line of its user, if one waits. -/
theorem turn_serves (days : Int) (linked : room.Linked) :
    handledFrom h (room.turn days h).2 ≤ 1 ∧
      (room.Queues h n → (room.turn days h).1.Queues h (n - handledFrom h (room.turn days h).2) ∧
        (n = 0 ∨ handledFrom h (room.turn days h).2 = 1)) := by
  rcases room.turn_cases days h with ⟨nothing, same⟩ | ⟨user, conn, line, rest, known, connected, next, turned⟩
  · rw [same]
    refine ⟨Nat.zero_le 1, fun queues => ⟨queues, .inl ?_⟩⟩
    obtain ⟨present, conn, connected, waits⟩ := queues
    obtain ⟨user, known⟩ := Option.isSome_iff_exists.mp present
    exact waits.exhausted (nothing user conn known connected)
  · have own := linked.keyed h user known
    subst own
    let heard := room.setConn user.handle { conn with inBuf := rest }
    have silent : handledFrom user.handle (heard.speak days user line).2 = 0 :=
      handledFrom_talk (heard.speak_talk days user line)
    have one : handledFrom user.handle (room.turn days user.handle).2 = 1 := by
      rw [turned, ← List.singleton_append, handledFrom_append, silent]
      simp [handledFrom, Event.handles]
    rw [one]
    refine ⟨Nat.le_refl 1, fun queues => ⟨?_, .inr rfl⟩⟩
    obtain ⟨_, conn', connected', waits⟩ := queues
    rw [connected] at connected'
    cases connected'
    have became := heard.speak_becomes days user line
    obtain ⟨_, present, stays, conns⟩ := became.frame known
    rw [turned]
    have still : ((heard.speak days user line).1.conn user.handle).isSome := by
      rw [stays]
      simp [heard, Room.setConn]
    obtain ⟨conn', there⟩ := Option.isSome_iff_exists.mp still
    obtain ⟨before, stored, shape⟩ := conns user.handle conn' there
    obtain rfl : ({ conn with inBuf := rest } : Conn) = before := by simpa [heard, Room.setConn] using stored
    refine ⟨by rw [present]; exact Option.isSome_iff_exists.mpr ⟨user, known⟩, conn', there, ?_⟩
    have left : conn'.inBuf = rest := by
      rcases shape with rfl | ⟨_, rfl⟩ <;> rfl
    rw [left]
    exact waits.behind next

/-- A turn handles no line of another user. -/
theorem turn_serves_none (days : Int) (room : Room) (apart : h ≠ k) :
    handledFrom h (room.turn days k).2 = 0 := by
  rcases room.turn_cases days k with ⟨_, same⟩ | ⟨user, conn, line, rest, known, _, _, turned⟩
  · rw [same]
    rfl
  · have silent := handledFrom_talk (h := h)
      (Room.speak_talk days (room.setConn k { conn with inBuf := rest }) user line)
    rw [turned, ← List.singleton_append, handledFrom_append, silent]
    simp [handledFrom, Event.handles, Ne.symm apart]

/-- What a step does for a user: it is given no more turns than passes begin, and
if lines of it wait, no fewer. -/
structure Serves (h : Handle) (world world' : World) (events : List Event) : Prop where
  most : handledFrom h events + world.stage.turned h ≤
    world.stage.passes world'.stage + world'.stage.turned h
  least : ∀ n, world.room.Queues h n → .userRemoved h ∈ events ∨
    world'.room.Queues h (n - handledFrom h events) ∧
      (n = 0 ∨ world.stage.passes world'.stage + world'.stage.turned h ≤
        world.stage.turned h + handledFrom h events)

/-- A step that handles nothing and ends no pass. -/
theorem serves_nothing (aside : ∀ e ∈ events, e.handles h = false)
    (stage : world.stage.passes world'.stage + world'.stage.turned h = world.stage.turned h)
    (queues : ∀ n, world.room.Queues h n → .userRemoved h ∈ events ∨ world'.room.Queues h n) :
    Serves h world world' events where
  most := by rw [handledFrom_none aside, stage, Nat.zero_add]
  least n waits := by
    rw [handledFrom_none aside]
    exact (queues n waits).imp_right fun still => ⟨still, .inr (by rw [stage]; rfl)⟩

theorem turn_serves_all (days : Int) (inv : World.Inv ⟨.users (k :: todo), room⟩) :
    Serves h ⟨.users (k :: todo), room⟩ ⟨.users todo, (room.turn days k).1⟩ (room.turn days k).2 := by
  obtain ⟨linked, _, _, once, _⟩ := inv
  by_cases mine : h = k
  · subst mine
    have absent := (List.nodup_cons.mp once).1
    obtain ⟨few, _⟩ := turn_serves (n := 0) (h := h) days linked
    have stage : Stage.passes (.users (h :: todo)) (.users todo) + Stage.turned h (.users todo) = 1 := by
      simp [Stage.passes, Stage.turned, absent]
    have ahead : Stage.turned h (.users (h :: todo)) = 0 := by simp [Stage.turned]
    refine ⟨?_, fun n queues => .inr ?_⟩
    · show handledFrom h _ + Stage.turned h (.users (h :: todo)) ≤
        Stage.passes (.users (h :: todo)) (.users todo) + Stage.turned h (.users todo)
      rw [stage, ahead]
      exact few
    · obtain ⟨_, served⟩ := turn_serves (n := n) (h := h) days linked
      obtain ⟨still, done⟩ := served queues
      refine ⟨still, done.imp_right fun one => ?_⟩
      show Stage.passes (.users (h :: todo)) (.users todo) + Stage.turned h (.users todo) ≤
        Stage.turned h (.users (h :: todo)) + _
      rw [stage, ahead, one]
  · have silent := turn_serves_none days room mine
    have stage : Stage.passes (.users (k :: todo)) (.users todo) + Stage.turned h (.users todo) =
        Stage.turned h (.users (k :: todo)) := by
      simp [Stage.passes, Stage.turned, mine]
    obtain ⟨same, kept⟩ := Room.turn_others linked days mine
    refine ⟨?_, fun n queues => .inr ?_⟩
    · rw [silent, Nat.zero_add]
      exact stage.ge
    · rw [silent]
      exact ⟨queues.same (by rw [same]) fun conn known => ⟨conn, by rw [kept]; exact known, rfl⟩, .inr stage.le⟩

/-- Every step serves every user. -/
theorem World.Step.serves (stepped : World.Step env world events world') (inv : world.Inv) (h : Handle) :
    Serves h world world' events := by
  cases stepped with
  | @sweep room polled gone =>
    refine serves_nothing (fun e member => ?_) rfl fun n queues => .inr (queues.same rfl fun conn known => ?_)
    · obtain ⟨k, _, rfl⟩ := List.mem_map.mp member
      rfl
    · have connected : room.conn h = some conn := known
      have stays : conn.state ≠ .toBeRemoved := (inv.fits h conn known).mp queues.1
      exact ⟨{ conn with state := .online }, by simp [Room.swept, connected, stays], rfl⟩
  | @accept polled room k polling accepting fresh =>
    refine serves_nothing (fun e member => by rw [List.mem_singleton.mp member]; rfl) rfl fun n queues =>
      .inr (queues.same rfl fun conn known => ⟨conn, ?_, rfl⟩)
    have apart : h ≠ k := by
      rintro rfl
      rw [fresh] at known
      cases known
    exact (Function.update_of_ne apart _ _).trans known
  | @receive todo room k conn data known waiting arrived nonempty =>
    refine serves_nothing (fun e member => by rw [List.mem_singleton.mp member]; rfl) rfl fun n queues => .inr ?_
    obtain ⟨present, conn', connected, waits⟩ := queues
    by_cases mine : h = k
    · subst mine
      rw [known] at connected
      cases connected
      exact ⟨present, _, Function.update_self _ _ _, waits.append data⟩
    · exact ⟨present, conn', (Function.update_of_ne mine _ _).trans connected, waits⟩
  | @hangUp todo room k conn known ended =>
    refine serves_nothing (fun e member => by rw [List.mem_singleton.mp member]; rfl) rfl fun n queues =>
      .inr (queues.same rfl fun conn' connected => ?_)
    by_cases mine : h = k
    · subst mine
      rw [known] at connected
      cases connected
      exact ⟨_, Function.update_self _ _ _, rfl⟩
    · exact ⟨conn', (Function.update_of_ne mine _ _).trans connected, rfl⟩
  | @flush room =>
    refine ⟨Nat.zero_le _, fun n queues => .inr ⟨queues, .inr ?_⟩⟩
    have turned : Stage.turned h (.users room.roster) = 0 := if_pos ((inv.linked.listed h).mpr queues.1)
    simp [Stage.passes, turned]
  | turn days => exact turn_serves_all days inv
  | updated => exact serves_nothing nofun rfl fun _ => .inr
  | @create todo room k conn days roster known new once all =>
    have absent : room.user k = none := by
      have seat := inv.fits.1 k conn known
      simpa [new] using seat
    refine serves_nothing (fun e member => ?_) rfl fun n queues => .inr (queues.same ?_ fun conn' connected =>
      ⟨conn', connected, rfl⟩)
    · rcases List.mem_append.mp member with inside | inside
      · have print := frame_print _ _ _ e inside
        cases e <;> first | rfl | cases print
      · rw [List.mem_singleton.mp inside]
        rfl
    · have apart : h ≠ k := by
        rintro rfl
        have present : (room.user h).isSome := queues.1
        rw [absent] at present
        cases present
      exact congrArg Option.isSome (Function.update_of_ne apart _ _)
  | @remove todo room k conn user roster known flagged seated once all =>
    refine serves_nothing (fun e member => ?_) rfl fun n queues => ?_
    · rcases List.mem_cons.mp member with rfl | inside
      · rfl
      · have print := farewells_print _ _ _ e inside
        cases e <;> first | rfl | cases print
    · have own := inv.linked.keyed k user seated
      by_cases mine : h = k
      · exact .inl (by rw [mine]; exact List.mem_cons_self)
      · refine .inr (queues.same ?_ fun conn' connected => ⟨conn', connected, rfl⟩)
        have apart : h ≠ user.handle := by rw [own]; exact mine
        exact congrArg Option.isSome (Function.update_of_ne apart _ _)
  | stutter => exact serves_nothing nofun (by cases world.stage <;> simp [Stage.passes]) fun _ => .inr
  | _ => exact serves_nothing nofun rfl fun _ => .inr

end Steps

/-! ## Whole runs -/

/-- The passes that end with an operation. -/
def Point.passes : Point → Point → Nat
  | .users _ _, .clients _ _ => 1
  | _, _ => 0

/-- The program, and how many passes over the users have ended. -/
structure Clock where
  sys : Sys
  passes : Nat

def Clock.step (env : Env) (clock : Clock) : Except Fault Clock := do
  let sys ← AuroraComms.step env clock.sys
  return ⟨sys, clock.passes + clock.sys.point.passes sys.point⟩

theorem passes_of_points (before after : Sys) :
    before.point.passes after.point = before.world.stage.passes after.world.stage := by
  obtain ⟨_, point⟩ := before
  obtain ⟨_, point'⟩ := after
  cases point <;> cases point' <;> rfl

/-- What a user was given by now, since a pass in which its turn was behind or not. -/
structure Given (h : Handle) (start now : World) (passes : Nat) (events : List Event) : Prop where
  most : handledFrom h events + start.stage.turned h ≤ passes + now.stage.turned h
  least : ∀ n, start.room.Queues h n → .userRemoved h ∈ events ∨
    now.room.Queues h (n - handledFrom h events) ∧ (n ≤ handledFrom h events ∨
      passes + now.stage.turned h ≤ handledFrom h events + start.stage.turned h)

theorem Given.step {start now next : World} {passes : Nat} {events more : List Event} {h : Handle}
    (given : Given h start now passes events) (serves : Serves h now next more) :
    Given h start next (passes + now.stage.passes next.stage) (events ++ more) where
  most := by
    have most := given.most
    have more := serves.most
    rw [handledFrom_append]
    omega
  least n queues := by
    rw [handledFrom_append, List.mem_append]
    rcases given.least n queues with gone | ⟨waiting, enough⟩
    · exact .inl (.inl gone)
    rcases serves.least _ waiting with gone | ⟨still, due⟩
    · exact .inl (.inr gone)
    · refine .inr ⟨by rw [← Nat.sub_sub]; exact still, ?_⟩
      omega

/-- The passes over the users are shared fairly. In any part of an orderly run, no
more lines of a user are handled than it has turns, one in each pass; and if at
least `n` of its lines wait, `n` of them are handled by the time that so many passes
have ended with a turn of its own, unless the user is removed. -/
theorem users_served_fairly {listener : Handle} {now : Int} {sys : Sys} {clock : Clock} (h : Handle)
    (before : Reaches step Orderly (start listener now) sys)
    (during : Reaches Clock.step (fun env clock => Orderly env clock.sys) ⟨sys, 0⟩ clock) :
    ∃ events, clock.sys.app.trace = sys.app.trace ++ events ∧
      handledFrom h events + sys.world.stage.turned h ≤ clock.passes + clock.sys.world.stage.turned h ∧
      ∀ n, sys.app.room.Queues h n → n + sys.world.stage.turned h ≤ clock.passes →
        n ≤ handledFrom h events ∨ .userRemoved h ∈ events := by
  have good := run_good before (fun _ _ => id) (start_good listener now)
  have followed : clock.sys.Good ∧ ∃ events, clock.sys.app.trace = sys.app.trace ++ events ∧
      Given h sys.world clock.sys.world clock.passes events := by
    apply during.invariant
    · exact ⟨good, [], (List.append_nil _).symm, Nat.le_refl _, fun n queues =>
        .inr ⟨queues, .inr (Nat.le_refl _)⟩⟩
    · rintro env earlier later orderly ⟨good, events, trace, given⟩ ran
      obtain ⟨sys', stepped, same⟩ := bind_eq_ok.mp ran
      cases same
      obtain ⟨again, more, ran', sound, grown, moved⟩ := step_refines good.sound good.inv orderly
      obtain rfl : sys' = again := Except.ok.inj (stepped.symm.trans ran')
      refine ⟨⟨sound, moved.keeps good.inv⟩, events ++ more, by rw [grown, trace, List.append_assoc], ?_⟩
      show Given h sys.world sys'.world (earlier.passes + earlier.sys.point.passes sys'.point) _
      rw [passes_of_points]
      exact given.step (moved.serves good.inv h)
  obtain ⟨_, events, trace, given⟩ := followed
  refine ⟨events, trace, given.most, fun n queues enough => ?_⟩
  rcases given.least n queues with gone | ⟨_, done | due⟩
  · exact .inr gone
  · exact .inl done
  · exact .inl (by omega)

/-- A client comes and sends three lines at once. -/
private def talkative : List (Nat × Env) := [(107, .connects 4), (3, .brings 4 (bytes "ab\nhi\nyo\n"))]

/-- Three passes. -/
private def patiently : List (Nat × Env) := [(330, .pauses)]

private theorem talkative_unsent : ∀ env ∈ rounds talkative, ∀ h data, env.send h data = none :=
  rounds_unsent ⟨fun _ _ => rfl, fun _ _ => rfl⟩

private theorem patiently_unsent : ∀ env ∈ rounds patiently, ∀ h data, env.send h data = none :=
  rounds_unsent (fun _ _ => rfl)

/-- Three lines that wait are handled in three passes. -/
theorem users_served_fairly_talkative : ∃ (sys : Sys) (clock : Clock) (events : List Event),
    clock.sys.app.trace = sys.app.trace ++ events ∧ sys.app.room.Queues 4 3 ∧ clock.passes = 3 ∧
      (3 ≤ handledFrom 4 events ∨ .userRemoved 4 ∈ events) := by
  have outcome : (drive step separate .assertion (rounds talkative) (start 3 0)).bind (fun sys =>
      (drive Clock.step (fun env clock => separate env clock.sys) .assertion (rounds patiently) ⟨sys, 0⟩).map
        fun clock => (sys.point, sys.app.room.conn 4, (sys.app.room.user 4).isSome, clock.passes)) =
          .ok (.receive [], some ⟨.online, bytes "ab\nhi\nyo\n"⟩, true, 3) := by
    decide +kernel
  obtain ⟨sys, first, outcome⟩ := bind_eq_ok.mp outcome
  obtain ⟨clock, second, outcome⟩ := map_eq_ok.mp outcome
  obtain ⟨here, outcome⟩ := Prod.mk.inj outcome
  obtain ⟨connected, outcome⟩ := Prod.mk.inj outcome
  obtain ⟨present, passes⟩ := Prod.mk.inj outcome
  have reached : Reaches step Orderly (start 3 0) sys :=
    (reaches_of_drive talkative_unsent first).weaken fun _ _ => Separate.orderly
  have window : Reaches Clock.step (fun env clock => Orderly env clock.sys) ⟨sys, 0⟩ clock :=
    drive_reaches (fun env member clock checked =>
      (separate_of_check (patiently_unsent env member) checked).orderly) second
  have third : nextLine (bytes "yo\n") = some (bytes "yo", []) := by decide
  have second : nextLine (bytes "hi\nyo\n") = some (bytes "hi", bytes "yo\n") := by decide
  have first : nextLine (bytes "ab\nhi\nyo\n") = some (bytes "ab", bytes "hi\nyo\n") := by decide
  have waits : Waits 3 (bytes "ab\nhi\nyo\n") := .line first (.line second (.line third (.nothing [])))
  have queues : sys.app.room.Queues 4 3 := ⟨present, _, connected, waits⟩
  have ahead : sys.world.stage.turned 4 = 0 := by
    rw [Sys.world, here]
    rfl
  obtain ⟨events, trace, _, served⟩ := users_served_fairly 4 reached window
  exact ⟨sys, clock, events, trace, queues, passes, served 3 queues (by rw [ahead, passes])⟩

end AuroraComms
