import AuroraComms.Fairness
import AuroraComms.Growth

/-! How long a line waits. Whatever the clients send, a round of the main loop
ends: neither table grows more than once, no loop turns more often than there are
buckets and entries, and so the next pass over the users is never far. -/
namespace AuroraComms
open Meta Library.Run

/-- The operations of a loop over a table, at most. -/
def loopMax : Nat := 4 * clientsMax + 1

/-- The operations from the end of one pass over the users to the end of the next,
at most: both loops of `ac_app_update`, the sockets, and four more. -/
def roundMax : Nat := 2 * loopMax + clientsMax + 4

/-- The operations there are, at most, until a pass over the users ends. -/
def Sys.ahead (sys : Sys) : Nat :=
  match sys.point with
  | .sweep => loopMax + clientsMax + 4
  | .wait polled => loopMax + polled.tail.length + 3
  | .receive todo => loopMax + todo.length + 2
  | .flush => loopMax + 1
  | .users i j => sys.app.fromHandle.turnsFrom i j
  | .clients i j => sys.app.clients.turnsFrom i j + loopMax + clientsMax + 4
  | .exited => 0

/-- The program, with how many operations it has done and how many passes over the
users have ended. -/
structure Meter where
  sys : Sys
  operations : Nat
  passes : Nat

def Meter.step (env : Env) (meter : Meter) : Except Fault Meter := do
  let sys ← AuroraComms.step env meter.sys
  return ⟨sys, meter.operations + 1, meter.passes + meter.sys.point.passes sys.point⟩

/-! ## One operation -/

section Operations
variable {env : Env} {sys sys' : Sys} {app app' : App}

/-- What is ahead gets less with every operation, until a pass ends. -/
inductive Nears (sys sys' : Sys) : Prop where
  | exits (exited : sys'.point = .exited)
  | goesOn (same : sys.point.passes sys'.point = 0) (less : sys'.ahead < sys.ahead)
  | passes (ends : sys.point.passes sys'.point = 1) (round : sys'.ahead ≤ roundMax)

theorem ahead_pos (running : sys.point ≠ .exited) : 0 < sys.ahead := by
  obtain ⟨app, point⟩ := sys
  cases point with
  | users i j => exact Nat.succ_pos _
  | exited => exact absurd rfl running
  | _ => simp [Sys.ahead]

theorem ahead_exited (exited : sys.point = .exited) : sys.ahead = 0 := by
  rw [Sys.ahead, exited]

/-- No more sockets are polled than there may be clients. -/
theorem sweep_polls (good : Sys.Good ⟨app, .sweep⟩) (orderly : Orderly env ⟨app, .sweep⟩)
    (few : app'.clients.len ≤ clientsMax) {polled : List Handle} (ran : sweep env app = .ok (polled, app')) :
    polled.tail.length ≤ clientsMax := by
  obtain ⟨again, _, after, ran', sound', room, _, once, all, _⟩ :=
    sweep_ok good.sound orderly.clients (orderly.sweeps rfl)
  cases ran.symm.trans ran'
  refine le_trans ?_ few
  rw [Map.len_keys sound'.clients]
  refine (List.subperm_of_subset once fun h member => ?_).length_le
  have there := (all h).mp member
  rw [← room] at there
  change ((app'.clientOf h).map _).isSome at there
  rw [Option.isSome_map] at there
  exact (Map.mem_keys handleEq_exact sound'.clients).mpr there

/-- The loop over the users begins. -/
theorem users_ahead (good : sys.Good) (bounded : sys.app.Bounded) :
    sys.app.fromHandle.turnsFrom 0 0 ≤ loopMax := by
  refine bounded.handles.turns_le good.sound.handles (le_trans ?_ bounded.few)
  rw [Map.len_keys good.sound.handles]
  exact roster_le_clients good

theorem clients_ahead (good : sys.Good) (bounded : sys.app.Bounded) :
    sys.app.clients.turnsFrom 0 0 ≤ loopMax :=
  bounded.clients.turns_le good.sound.clients bounded.few

theorem Nears.users {i j : Nat} (good : Sys.Good ⟨app, .users i j⟩) (bounded : app.Bounded)
    (orderly : Orderly env ⟨app, .users i j⟩) (ran : step env ⟨app, .users i j⟩ = .ok sys') :
    Nears ⟨app, .users i j⟩ sys' := by
  rcases Map.turn_counted (m := app.fromHandle) good.sound.handles orderly.handles i j with
    ⟨turned, count⟩ | ⟨turned, count⟩ | turned
  · simp only [step, turned, ok_bind] at ran
    obtain ⟨after, updating, same⟩ := bind_eq_ok.mp ran
    cases same
    obtain ⟨_, k, here⟩ := Map.turn_body good.sound.handles turned
    obtain ⟨again, ran', acts⟩ :=
      updateUser_acts good.sound (good.sound.seated good.inv.linked) orderly.handles here
    obtain rfl := Except.ok.inj (updating.symm.trans ran')
    have same : after.fromHandle = app.fromHandle := acts.fromHandle
    refine .goesOn rfl ?_
    show after.fromHandle.turnsFrom i (j + 1) < app.fromHandle.turnsFrom i j
    rw [same]
    omega
  · simp only [step, turned, ok_bind] at ran
    cases ran
    refine .goesOn rfl ?_
    show app.fromHandle.turnsFrom (i + 1) 0 < app.fromHandle.turnsFrom i j
    omega
  · simp only [step, turned, ok_bind] at ran
    cases ran
    have whole := clients_ahead good bounded
    refine .passes rfl ?_
    show app.clients.turnsFrom 0 0 + loopMax + clientsMax + 4 ≤ roundMax
    have counts : roundMax = 2 * loopMax + clientsMax + 4 := rfl
    change app.clients.turnsFrom 0 0 ≤ loopMax at whole
    omega

theorem Nears.clients {i j : Nat} (good : Sys.Good ⟨app, .clients i j⟩)
    (orderly : Orderly env ⟨app, .clients i j⟩) (ran : step env ⟨app, .clients i j⟩ = .ok sys') :
    Nears ⟨app, .clients i j⟩ sys' := by
  rcases Map.turn_counted (m := app.clients) good.sound.clients orderly.clients i j with
    ⟨turned, count⟩ | ⟨turned, count⟩ | turned
  · simp only [step, turned, ok_bind] at ran
    obtain ⟨after, updating, same⟩ := bind_eq_ok.mp ran
    cases same
    obtain ⟨_, _, path⟩ := updateClient_effects updating
    obtain ⟨_, charged⟩ := updateClient_noted good.sound.wired updating
    refine .goesOn rfl ?_
    show after.clients.turnsFrom i (j + 1) + loopMax + clientsMax + 4 <
      app.clients.turnsFrom i j + loopMax + clientsMax + 4
    have rest : after.clients.turnsFrom i (j + 1) = app.clients.turnsFrom i (j + 1) := by
      rw [Map.turnsFrom, Map.turnsFrom, path.sameArray.alen, Map.keysFrom, Map.keysFrom, charged.layout]
    omega
  · simp only [step, turned, ok_bind] at ran
    cases ran
    refine .goesOn rfl ?_
    show app.clients.turnsFrom (i + 1) 0 + loopMax + clientsMax + 4 <
      app.clients.turnsFrom i j + loopMax + clientsMax + 4
    omega
  · simp only [step, turned, ok_bind] at ran
    cases ran
    refine .goesOn rfl ?_
    show loopMax + clientsMax + 4 < app.clients.turnsFrom i j + loopMax + clientsMax + 4
    have last : app.clients.turnsFrom i j = _ + 1 := rfl
    omega

theorem step_nears (good : sys.Good) (bounded : sys.app.Bounded) (orderly : Orderly env sys)
    (good' : sys'.Good) (bounded' : sys'.app.Bounded) (ran : step env sys = .ok sys') : Nears sys sys' := by
  obtain ⟨app, point⟩ := sys
  cases point with
  | sweep =>
    obtain ⟨⟨polled, swept⟩, sweeping, same⟩ := bind_eq_ok.mp ran
    cases same
    have polls := sweep_polls good orderly bounded'.few sweeping
    refine .goesOn rfl ?_
    show loopMax + polled.tail.length + 3 < loopMax + clientsMax + 4
    omega
  | wait polled =>
    cases polling : env.poll with
    | error =>
      simp only [step, polling] at ran
      cases ran
      exact .exits rfl
    | timeout =>
      simp only [step, polling] at ran
      cases ran
      refine .goesOn rfl ?_
      show loopMax + 1 < loopMax + polled.tail.length + 3
      omega
    | ready listener =>
      simp only [step, polling] at ran
      obtain ⟨connected, _, same⟩ := bind_eq_ok.mp ran
      cases same
      exact .goesOn rfl (Nat.lt_succ_self _)
  | receive todo =>
    cases todo with
    | nil =>
      cases ran
      exact .goesOn rfl (Nat.lt_succ_self _)
    | cons fd rest =>
      obtain ⟨received, _, same⟩ := bind_eq_ok.mp ran
      cases same
      exact .goesOn rfl (Nat.lt_succ_self _)
  | flush =>
    obtain ⟨flushed, _, same⟩ := bind_eq_ok.mp ran
    cases same
    exact .goesOn rfl (Nat.lt_succ_of_le (users_ahead good' bounded'))
  | users i j => exact .users good bounded orderly ran
  | clients i j => exact .clients good orderly ran
  | exited =>
    cases ran
    exact .exits rfl

end Operations

/-! ## Whole runs -/

section Runs
variable {env : Env} {sys sys' : Sys} {listener : Handle} {now : Int} {operations passes : Nat}

/-- No more operations so far than so many passes account for, and the one under way. -/
def Sys.Paid (sys : Sys) (operations passes : Nat) : Prop :=
  sys.point = .exited ∨ operations + sys.ahead ≤ roundMax * (passes + 1)

theorem bounded_step (good : sys.Good) (bounded : sys.app.Bounded) (orderly : Orderly env sys)
    (ran : step env sys = .ok sys') : sys'.Good ∧ sys'.app.Bounded ∧ Nears sys sys' := by
  obtain ⟨again, _, ran', sound, _, moved⟩ := step_refines good.sound good.inv orderly
  obtain rfl := Except.ok.inj (ran.symm.trans ran')
  have good' : sys'.Good := ⟨sound, moved.keeps good.inv⟩
  have bounded' := step_bounded good orderly bounded ran
  exact ⟨good', bounded', step_nears good bounded orderly good' bounded' ran⟩

/-- The next operation is paid for by what was ahead, or by the pass that ends. -/
theorem Nears.paid (nears : Nears sys sys') (paid : sys.Paid operations passes) :
    sys'.Paid (operations + 1) (passes + sys.point.passes sys'.point) := by
  rcases nears with exited | ⟨same, less⟩ | ⟨ends, round⟩
  · exact .inl exited
  · rcases paid with exited | paid
    · rw [ahead_exited exited] at less
      cases less
    · rw [same]
      refine .inr ?_
      show operations + 1 + sys'.ahead ≤ roundMax * (passes + 1)
      omega
  · rcases paid with exited | paid
    · rw [exited] at ends
      cases ends
    · have running : sys.point ≠ .exited := by
        intro exited
        rw [exited] at ends
        cases ends
      have last := ahead_pos running
      rw [Sys.Paid, ends, Nat.mul_succ]
      exact .inr (by omega)

/-- Until the program exits, something is ahead. -/
theorem Sys.Paid.counted (paid : sys.Paid operations passes) (running : sys.point ≠ .exited) :
    operations < (passes + 1) * roundMax := by
  have paid := paid.resolve_left running
  have last := ahead_pos running
  rw [Nat.mul_comm]
  omega

/-- From wherever the program is, a round ends the pass. -/
theorem run_ahead (reached : Reaches step Orderly (start listener now) sys) : sys.ahead ≤ roundMax := by
  induction reached with
  | start => exact (by decide : loopMax + clientsMax + 4 ≤ roundMax)
  | next before env orderly ran round =>
    obtain ⟨good, bounded⟩ := run_bounded before
    obtain ⟨_, _, nears⟩ := bounded_step good bounded orderly ran
    rcases nears with exited | ⟨_, less⟩ | ⟨_, round'⟩
    · rw [ahead_exited exited]
      exact Nat.zero_le _
    · exact less.le.trans round
    · exact round'

/-- A user has no more than one turn behind it in a pass. -/
theorem turned_le (h : Handle) (stage : Stage) : stage.turned h ≤ 1 := by
  cases stage with
  | users todo =>
    rw [Stage.turned]
    split <;> omega
  | _ => exact Nat.zero_le 1

/-- What the steps of the world keep, counted in passes, holds at the end of a part of
a run; and how many operations it takes. -/
theorem run_metered {meter : Meter} (inv : World → Nat → List Event → Prop)
    (before : Reaches step Orderly (start listener now) sys)
    (during : Reaches Meter.step (fun env meter => Orderly env meter.sys) ⟨sys, 0, 0⟩ meter)
    (base : inv sys.world 0 [])
    (preserved : ∀ env world events world' passes noted, world.Inv → World.Step env world events world' →
      inv world passes noted → inv world' (passes + world.stage.passes world'.stage) (noted ++ events)) :
    meter.sys.Paid meter.operations meter.passes ∧ ∃ events,
      meter.sys.app.trace = sys.app.trace ++ events ∧ inv meter.sys.world meter.passes events := by
  have followed : meter.sys.Good ∧ meter.sys.app.Bounded ∧ meter.sys.Paid meter.operations meter.passes ∧
      ∃ events, meter.sys.app.trace = sys.app.trace ++ events ∧ inv meter.sys.world meter.passes events := by
    apply during.invariant
    · obtain ⟨good, bounded⟩ := run_bounded before
      have round := run_ahead before
      exact ⟨good, bounded, .inr (by simpa using round), [], (List.append_nil _).symm, base⟩
    · rintro env earlier later orderly ⟨good, bounded, paid, events, trace, holds⟩ ran
      obtain ⟨sys', stepped, same⟩ := bind_eq_ok.mp ran
      cases same
      obtain ⟨good', bounded', nears⟩ := bounded_step good bounded orderly stepped
      obtain ⟨again, more, ran', _, grown, moved⟩ := step_refines good.sound good.inv orderly
      obtain rfl : sys' = again := Except.ok.inj (stepped.symm.trans ran')
      refine ⟨good', bounded', nears.paid paid, events ++ more, by rw [grown, trace, List.append_assoc], ?_⟩
      show inv sys'.world (earlier.passes + earlier.sys.point.passes sys'.point) _
      rw [passes_of_points]
      exact preserved env _ more _ _ events good.inv moved holds
  exact followed.2.2

/-- What a user is given, and how many operations it takes. -/
theorem run_given {meter : Meter} (h : Handle) (before : Reaches step Orderly (start listener now) sys)
    (during : Reaches Meter.step (fun env meter => Orderly env meter.sys) ⟨sys, 0, 0⟩ meter) :
    meter.sys.Paid meter.operations meter.passes ∧ ∃ events,
      meter.sys.app.trace = sys.app.trace ++ events ∧
        Given h sys.world meter.sys.world meter.passes events := by
  have base : Given h sys.world sys.world 0 [] :=
    ⟨Nat.le_refl _, fun n queues => .inr ⟨queues, .inr (Nat.le_refl _)⟩⟩
  refine run_metered (Given h sys.world) before during base ?_
  intro env world events world' passes noted inv moved given
  exact given.step (moved.serves inv h)

/-- Every round ends, and every line is handled in time. In any part of an orderly run
in which the program does not exit, fewer operations are done than `roundMax` for each
pass over the users that ends and the one under way; and if at least `n` lines of a
user wait, `n` of them are handled within `n + 1` times as many operations, unless the
user is removed. -/
theorem lines_handled_in_time {meter : Meter} (h : Handle)
    (before : Reaches step Orderly (start listener now) sys)
    (during : Reaches Meter.step (fun env meter => Orderly env meter.sys) ⟨sys, 0, 0⟩ meter)
    (running : meter.sys.point ≠ .exited) :
    meter.operations < (meter.passes + 1) * roundMax ∧
    ∃ events, meter.sys.app.trace = sys.app.trace ++ events ∧
      ∀ n, sys.app.room.Queues h n → (n + 1) * roundMax ≤ meter.operations →
        n ≤ handledFrom h events ∨ .userRemoved h ∈ events := by
  obtain ⟨paid, events, trace, given⟩ := run_given h before during
  have counted := paid.counted running
  refine ⟨counted, events, trace, fun n queues long => ?_⟩
  have ended : n + 1 < meter.passes + 1 := Nat.lt_of_mul_lt_mul_right (long.trans_lt counted)
  have turn := turned_le h sys.world.stage
  rcases given.least n queues with gone | ⟨_, done | due⟩
  · exact .inr gone
  · exact .inl done
  · exact .inl (by omega)

/-- A client comes and sends a name. -/
private def introduces : List (Nat × Env) := [(107, .connects 4), (3, .brings 4 (bytes "ab\n"))]

/-- Two rounds and more. -/
private def lingers : List (Nat × Env) := [(912, .pauses)]

private theorem introduces_unsent : ∀ env ∈ rounds introduces, ∀ h data, env.send h data = none :=
  rounds_unsent ⟨fun _ _ => rfl, fun _ _ => rfl⟩

private theorem lingers_unsent : ∀ env ∈ rounds lingers, ∀ h data, env.send h data = none :=
  rounds_unsent (fun _ _ => rfl)

/-- A name that waits is read in time. -/
theorem lines_handled_in_time_name : ∃ (sys : Sys) (meter : Meter) (events : List Event),
    meter.sys.app.trace = sys.app.trace ++ events ∧ sys.app.room.Queues 4 1 ∧ meter.operations = 912 ∧
      (1 ≤ handledFrom 4 events ∨ .userRemoved 4 ∈ events) := by
  have outcome : (drive step separate .assertion (rounds introduces) (start 3 0)).bind (fun sys =>
      (drive Meter.step (fun env meter => separate env meter.sys) .assertion (rounds lingers) ⟨sys, 0, 0⟩).map
        fun meter => (sys.app.room.conn 4, (sys.app.room.user 4).isSome, meter.operations,
          decide (meter.sys.point = .exited))) =
          .ok (some ⟨.online, bytes "ab\n"⟩, true, 912, false) := by
    decide +kernel
  obtain ⟨sys, first, outcome⟩ := bind_eq_ok.mp outcome
  obtain ⟨meter, second, outcome⟩ := map_eq_ok.mp outcome
  obtain ⟨connected, outcome⟩ := Prod.mk.inj outcome
  obtain ⟨present, outcome⟩ := Prod.mk.inj outcome
  obtain ⟨operations, running⟩ := Prod.mk.inj outcome
  have reached : Reaches step Orderly (start 3 0) sys :=
    (reaches_of_drive introduces_unsent first).weaken fun _ _ => Separate.orderly
  have window : Reaches Meter.step (fun env meter => Orderly env meter.sys) ⟨sys, 0, 0⟩ meter :=
    drive_reaches (fun env member meter checked =>
      (separate_of_check (lingers_unsent env member) checked).orderly) second
  have name : nextLine (bytes "ab\n") = some (bytes "ab", []) := by decide
  have queues : sys.app.room.Queues 4 1 := ⟨present, _, connected, .line name (.nothing [])⟩
  obtain ⟨_, events, trace, served⟩ := lines_handled_in_time 4 reached window (of_decide_eq_false running)
  refine ⟨sys, meter, events, trace, queues, operations, served 1 queues ?_⟩
  rw [operations]
  decide

end Runs
end AuroraComms
