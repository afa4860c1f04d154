import AuroraComms.Refinement
import AuroraComms.Library.Protocol

/-! Whole runs of the program as runs of the room. Every operation is a step of
the world (`step_refines`); here the steps are put together, so that what is shown
of the world's paths is shown of the program. -/
namespace AuroraComms
open Meta Library.Run Library.Protocol

/-- The server before anyone has come. -/
def World.empty : World := ⟨.sweep, ⟨[], fun _ => none, fun _ => none, fun _ => none⟩⟩

/-- A step of the main loop, whatever the system answers. -/
def World.Moves (world : World) (events : List Event) (world' : World) : Prop :=
  ∃ env, World.Step env world events world'

/-- A step from a world in order. -/
def World.Goes (world : World) (events : List Event) (world' : World) : Prop :=
  world.Inv ∧ World.Moves world events world'

theorem start_world (listener : Handle) (now : Int) : (start listener now).world = World.empty := by
  have nobody : (start listener now).app.room.roster = [] := by
    have sound := (start_good listener now).sound
    apply List.eq_nil_iff_forall_not_mem.mpr
    intro h listed
    rw [mem_roster sound.toLaid, ← user_isSome sound.toLaid, start_user] at listed
    cases listed
  have room : (start listener now).app.room = World.empty.room :=
    Room.ext nobody (funext (start_conn listener now)) (funext (start_user listener now))
      (funext (start_owner listener now))
  exact congrArg (World.mk .sweep) room

section Runs
variable {allowed : Env → Sys → Prop} {sys₀ sys : Sys}

/-- What the program does from a good state on is a path of the world, each step
of it taken where the run's further conditions hold. -/
theorem run_simulates (reached : Reaches step allowed sys₀ sys)
    (orderly : ∀ env sys, allowed env sys → Orderly env sys) (good : sys₀.Good) (held : World → Prop)
    (granted : ∀ env sys, allowed env sys → held sys.world) :
    ∃ events, sys.app.trace = sys₀.app.trace ++ events ∧
      Path (fun world events world' => held world ∧ world.Goes events world') sys₀.world events sys.world := by
  refine (run_follows reached orderly good (fun world trace => ∃ events,
    trace = sys₀.app.trace ++ events ∧ Path (fun world events world' => held world ∧
      world.Goes events world') sys₀.world events world)
    ⟨[], (List.append_nil _).symm, .start⟩ ?_).2
  rintro env before events world' allows good stepped ⟨earlier, trace, path⟩
  exact ⟨earlier ++ events, by rw [trace, List.append_assoc],
    .next path ⟨granted env before allows, good.inv, env, stepped⟩⟩

/-- So every run from the start is a path from the empty world, and its trace is
the path's. -/
theorem start_simulates {listener : Handle} {now : Int}
    (reached : Reaches step allowed (start listener now) sys)
    (orderly : ∀ env sys, allowed env sys → Orderly env sys) :
    Path World.Goes World.empty sys.app.trace sys.world := by
  obtain ⟨events, trace, path⟩ := run_simulates reached orderly (start_good listener now)
    (fun _ => True) fun _ _ _ => trivial
  rw [start_world] at path
  rw [trace]
  exact path.weaken fun _ _ _ stepped => stepped.2

end Runs

/-- The program refines the room: its operations, on tables that grow and users
that are pointed to, do what the room does, step by step and event by event; and
every world on the way is in order. -/
theorem server_refines_room {listener : Handle} {now : Int} {sys : Sys}
    (reached : Reaches step Orderly (start listener now) sys) :
    Path World.Moves World.empty sys.app.trace sys.world ∧ sys.world.Inv := by
  refine ⟨(start_simulates reached fun _ _ => id).weaken fun _ _ _ stepped => stepped.2, ?_⟩
  exact (run_good reached (fun _ _ => id) (start_good listener now)).inv

/-- A client comes and is greeted. -/
private def arrival : List (Nat × Env) := [(107, .connects 4)]

private theorem arrival_unsent : ∀ env ∈ rounds arrival, ∀ h data, env.send h data = none :=
  rounds_unsent fun _ _ => rfl

/-- The path of a client's arrival. -/
theorem server_refines_room_arrival : ∃ sys : Sys, .userNew 4 ∈ sys.app.trace ∧
    Path World.Moves World.empty sys.app.trace sys.world ∧ sys.world.Inv := by
  have outcome : (drive step separate .assertion (rounds arrival) (start 3 0)).map
      (fun sys => decide (.userNew 4 ∈ sys.app.trace)) = .ok true := by
    decide +kernel
  obtain ⟨sys, driven, seated⟩ := map_eq_ok.mp outcome
  have reached : Reaches step Orderly (start 3 0) sys :=
    (reaches_of_drive arrival_unsent driven).weaken fun _ _ => Separate.orderly
  exact ⟨sys, of_decide_eq_true seated, server_refines_room reached⟩

end AuroraComms
