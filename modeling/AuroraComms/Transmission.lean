import AuroraComms.Response

/-! How long output waits. Each poll sends every client what is in its out buffer,
and takes what the socket took off its front; so what is queued for a client is on
its socket after as many polls as it takes, and polls are never far. -/
namespace AuroraComms
open Meta Library.Run

/-- A socket that takes `m` bytes whenever it is given as many. -/
def Env.Drains (env : Env) (h : Handle) (m : Nat) : Prop :=
  ∀ data, data.length > 0 → ∃ n, env.send h data = some n ∧ min m data.length ≤ n

/-- The program, with how many operations it has done and what its polls have put on
the socket of a client since. -/
structure Outlet where
  sys : Sys
  operations : Nat
  put : Bytes

def Outlet.step (h : Handle) (env : Env) (outlet : Outlet) : Except Fault Outlet := do
  let sys ← AuroraComms.step env outlet.sys
  let taken ← Tape.puts env outlet.sys
  return ⟨sys, outlet.operations + 1, outlet.put ++ takenFor h taken⟩

/-! ## One poll -/

section Flush
variable {env : Env} {app app' : App} {taken : List (Handle × Bytes)} {h k : Handle} {m : Nat} {out : Bytes}

theorem takenFor_append (before after : List (Handle × Bytes)) :
    takenFor h (before ++ after) = takenFor h before ++ takenFor h after := List.flatMap_append

theorem takenFor_one (data : Bytes) : takenFor h [(k, data)] = if k = h then data else [] := by
  simp [takenFor]

theorem Env.Drains.takes (drains : env.Drains h m) (out : Bytes) :
    min m out.length ≤ (env.takes h out).length := by
  rw [Env.takes]
  split
  · rename_i filled
    obtain ⟨n, sent, enough⟩ := drains out filled
    rw [sent, Option.map_some, Option.getD_some, List.length_take]
    omega
  · omega

/-- Where the sends of a poll are: the clients to come are as they were, the others
have given what their socket took. -/
structure Sending (env : Env) (app : App) (todo : List Handle) (taken : List (Handle × Bytes)) (middle : App) :
    Prop where
  sound : middle.Sound
  layout : middle.clients.keyTable = app.clients.keyTable
  alen : middle.clients.bkts.alen = app.clients.bkts.alen
  once : todo.Nodup
  coming : ∀ h ∈ todo, takenFor h taken = [] ∧ middle.clientOf h = app.clientOf h
  behind : ∀ h ∉ todo, ∀ out, app.outOf h = some out → takenFor h taken = env.takes h out

/-- One client's turn. -/
theorem Sending.turn {todo : List Handle} {middle : App} {s : Slot}
    (within : ∀ h data n, env.send h data = some n → n ≤ data.length)
    (sending : Sending env app (k :: todo) taken middle) (here : middle.clients.keyAt s = some k) :
    ∃ state, sendTurnNoting env s (taken, middle) = .ok state ∧ Sending env app todo state.1 state.2 := by
  obtain ⟨sound, layout, alen, once, coming, behind⟩ := sending
  obtain ⟨client, found, _, loaded⟩ := Map.entry_keyAt handleEq_exact sound.clients here
  change middle.clientOf k = some client at found
  change middle.client s = .ok client at loaded
  obtain ⟨absent, onceRest⟩ := List.nodup_cons.mp once
  obtain ⟨nothing, same⟩ := coming k List.mem_cons_self
  have own : client.handle = k := sound.keyed k client found
  have queued : app.outOf k = some client.outBuf := by rw [App.outOf, ← same, found]; rfl
  have others : ∀ h ∈ todo, k ≠ h := fun h member same => absent (same ▸ member)
  -- The client gives nothing.
  have gives : env.takes k client.outBuf = [] → Sending env app todo taken middle := by
    intro none
    refine ⟨sound, layout, alen, onceRest, fun h member => coming h (List.mem_cons_of_mem k member), ?_⟩
    intro h passed out held
    by_cases mine : h = k
    · subst mine
      rw [queued] at held
      cases held
      rw [nothing, none]
    · exact behind h (fun member => (List.mem_cons.mp member).elim mine passed) out held
  simp only [sendTurnNoting, loaded, ok_bind]
  by_cases waiting : client.outBuf.length > 0
  · rw [if_pos waiting]
    cases sends : env.send client.handle client.outBuf with
    | none =>
      rw [own] at sends
      exact ⟨_, rfl, gives (by rw [Env.takes, if_pos waiting, sends]; rfl)⟩
    | some n =>
      have bound := within _ _ _ sends
      let rest : Client := { client with outBuf := client.outBuf.take 0 ++ client.outBuf.drop (0 + n) }
      obtain ⟨next, ran, acted, _⟩ := setClient_acts sound here rest own
      obtain ⟨_, found', _⟩ := setClient_wired sound.wired here ran own
      refine ⟨(taken ++ [(client.handle, client.outBuf.take n)], next), ?_, acted.sound,
        acted.keyTable.trans layout, acted.alen.trans alen, onceRest, fun h member => ?_,
        fun h passed out held => ?_⟩
      · simp only [arrRemoveN, waiting, Nat.zero_add, bound, and_self, ↓reduceIte, ok_bind, rest] at ran ⊢
        rw [ran]
        rfl
      · obtain ⟨none, still⟩ := coming h (List.mem_cons_of_mem k member)
        have apart := others h member
        rw [takenFor_append, none, takenFor_one, own, if_neg apart]
        exact ⟨rfl, by rw [found', Function.update_of_ne (Ne.symm apart)]; exact still⟩
      · rw [takenFor_append, takenFor_one, own]
        by_cases mine : h = k
        · subst mine
          rw [queued] at held
          cases held
          rw [nothing, if_pos rfl, Env.takes, if_pos waiting, ← own, sends]
          rfl
        · rw [if_neg (Ne.symm mine), List.append_nil]
          exact behind h (fun member => (List.mem_cons.mp member).elim mine passed) out held
  · rw [if_neg waiting]
    exact ⟨_, rfl, gives (by rw [Env.takes, if_neg waiting])⟩

/-- What a poll puts on each socket is what the socket takes of the out buffer. -/
theorem flush_takes (sound : app.Sound)
    (within : ∀ h data n, env.send h data = some n → n ≤ data.length)
    (readable : Map.Readable env.quiet app.clients) (ran : flushNoting env app = .ok (taken, app'))
    (queued : app.outOf h = some out) : takenFor h taken = env.takes h out := by
  have ends := Map.foreach_keys handleHash handleEq (fun state : List (Handle × Bytes) × App => state.2.clients)
    (sendTurnNoting env) (fun todo state => Sending env app todo state.1 state.2) ([], app) readable
    (fun _ _ sending => ⟨sending.sound.clients, sending.layout, sending.alen⟩)
    (fun s k todo state sending here => sending.turn within here)
    ⟨sound, rfl, rfl, Map.keys_nodup handleEq_exact sound.clients, fun _ _ => ⟨rfl, rfl⟩, ?_⟩
  · obtain ⟨state, again, sending⟩ := ends
    obtain rfl := Except.ok.inj (ran.symm.trans again)
    exact sending.behind h List.not_mem_nil out queued
  · intro h unknown out held
    exact absurd ((mem_clients sound.wired).mpr (by rw [held]; rfl)) unknown

end Flush

/-! ## One operation -/

section Operations
variable {env : Env} {world world' : World} {sys sys' : Sys} {events : List Event}
  {taken : List (Handle × Bytes)} {h : Handle} {left : Bytes}

/-- Whether a poll is over and the pass over the users behind it is not. -/
def Stage.polled : Stage → Nat
  | .users _ => 1
  | _ => 0

/-- The polls that send in a step. -/
def Stage.sends : Stage → Nat
  | .flush => 1
  | _ => 0

/-- A pass over the users comes behind a poll. -/
theorem World.Step.polls (moved : World.Step env world events world') :
    world.stage.passes world'.stage + world'.stage.polled ≤ world.stage.sends + world.stage.polled := by
  cases moved with
  | stutter =>
    obtain ⟨stage, room⟩ := world
    cases stage <;> simp [Stage.passes]
  | _ => simp [Stage.passes, Stage.polled, Stage.sends]

/-- What an operation does to the out buffer of a client that stays: its front is put
on the socket, and more is queued behind the rest. -/
theorem step_moves (good : sys.Good) (orderly : Orderly env sys) (ran : step env sys = .ok sys')
    (recorded : Tape.puts env sys = .ok taken) (queued : sys.app.outOf h = some left) :
    ∃ events, sys'.app.trace = sys.app.trace ++ events ∧ (.closed h ∈ events ∨
      ∃ rest more, left = takenFor h taken ++ rest ∧ sys'.app.outOf h = some (rest ++ more)) := by
  have wired := good.sound.wired
  have nothing : sys.point ≠ .flush → taken = [] := by
    intro elsewhere
    rw [Tape.puts, if_neg elsewhere] at recorded
    cases recorded
    rfl
  -- Nothing is put on the socket, and what the events say is queued.
  have pours : ∀ {app : App} {events : List Event}, sys.point ≠ .flush → Charges env events sys.app app →
      ∃ events, app.trace = sys.app.trace ++ events ∧ (.closed h ∈ events ∨
        ∃ rest more, left = takenFor h taken ++ rest ∧ app.outOf h = some (rest ++ more)) := by
    intro app events elsewhere charged
    rw [nothing elsewhere]
    exact ⟨events, charged.trace, .inr ⟨left, events.flatMap (render env h), rfl,
      by rw [charged.grown, queued]; rfl⟩⟩
  have still : Charges env [] sys.app sys.app := Pours.refl wired
  obtain ⟨_, _, operation⟩ := step_operation ran
  cases operation with
  | still elsewhere => exact pours elsewhere still
  | sweeps elsewhere sweeping =>
    have swept := sweep_sweeps wired sweeping
    obtain ⟨gone, trace, stays⟩ := swept.trace
    refine ⟨_, trace, ?_⟩
    by_cases goes : h ∈ gone
    · exact .inl (List.mem_map_of_mem goes)
    · obtain ⟨out, held⟩ := Option.isSome_iff_exists.mp ((stays h).mpr ⟨by rw [queued]; rfl, goes⟩)
      have same := swept.kept h out held
      rw [queued] at same
      cases same
      rw [nothing elsewhere]
      exact .inr ⟨left, [], rfl, by rw [List.append_nil]; exact held⟩
  | connects waiting connecting =>
    obtain rfl | ⟨fd, accepting, _, _, entered, _, trace⟩ := handleConn_enters wired connecting
    · exact pours (by simp [waiting]) still
    · have apart : h ≠ fd := by
        rintro rfl
        rw [App.outOf, orderly.fresh _ _ _ _ waiting accepting] at queued
        cases queued
      rw [nothing (by simp [waiting])]
      refine ⟨_, trace, .inr ⟨left, [], rfl, ?_⟩⟩
      rw [App.outOf, entered, Function.update_of_ne apart, List.append_nil]
      exact queued
  | receives elsewhere receiving =>
    obtain ⟨events, charged, _⟩ := receiveOne_charges wired receiving
    exact pours elsewhere charged
  | flushes flushing sends =>
    obtain ⟨record, noting, flushed⟩ := flush_flushed wired sends
    rw [Tape.puts, if_pos flushing, noting] at recorded
    cases recorded
    have whole := flushed.whole h
    rw [queued] at whole
    obtain ⟨rest, held, split⟩ := Option.map_eq_some_iff.mp whole.symm
    exact ⟨[], by rw [flushed.trace, List.append_nil],
      .inr ⟨rest, [], split.symm, by rw [List.append_nil]; exact held⟩⟩
  | speaks elsewhere _ path | renews elsewhere _ _ path =>
    obtain ⟨_, charged, _⟩ := path.charges wired
    exact pours elsewhere charged
  | confirms elsewhere _ confirms =>
    obtain ⟨_, _, charged, _⟩ := confirms.charges wired
    exact pours elsewhere charged

end Operations

/-! ## Whole runs -/

section Runs
variable {env : Env} {sys sys' : Sys} {events more : List Event} {taken : List (Handle × Bytes)} {h : Handle}
  {m : Nat} {out put : Bytes} {polls : Nat}

/-- Of what was queued for a client at first, so much is on its socket after so many
polls, unless it is disconnected: all of it, or `m` bytes for each poll. -/
def Sent (h : Handle) (m : Nat) (out : Bytes) (sys : Sys) (put : Bytes) (polls : Nat) (events : List Event) :
    Prop :=
  .closed h ∈ events ∨ ∃ left said, sys.app.outOf h = some left ∧ put ++ left = out ++ said ∧
    (out <+: put ∨ m * polls ≤ put.length)

/-- What is put on the socket, up to the length of what was queued first, is that. -/
theorem prefix_of_length {left said : Bytes} (whole : put ++ left = out ++ said) (long : out.length ≤ put.length) :
    out <+: put :=
  List.prefix_of_prefix_length_le ⟨said, rfl⟩ ⟨left, whole⟩ long

theorem Sent.step (sent : Sent h m out sys put polls events) (good : sys.Good) (orderly : Orderly env sys)
    (drains : env.Drains h m) (ran : step env sys = .ok sys') (recorded : Tape.puts env sys = .ok taken)
    (grown : sys'.app.trace = sys.app.trace ++ more) :
    Sent h m out sys' (put ++ takenFor h taken) (polls + sys.world.stage.sends) (events ++ more) := by
  rcases sent with gone | ⟨left, said, queued, whole, progress⟩
  · exact .inl (List.mem_append_left _ gone)
  obtain ⟨noted, trace, outcome⟩ := step_moves good orderly ran recorded queued
  obtain rfl : noted = more := List.append_cancel_left (trace.symm.trans grown)
  rcases outcome with gone | ⟨rest, tail, split, held⟩
  · exact .inl (List.mem_append_right _ gone)
  have whole' : put ++ takenFor h taken ++ (rest ++ tail) = out ++ (said ++ tail) := by
    rw [← List.append_assoc out, ← whole, split]
    simp only [List.append_assoc]
  refine .inr ⟨_, _, held, whole', ?_⟩
  rcases progress with all | progress
  · exact .inl (all.trans (List.prefix_append _ _))
  by_cases flushing : sys.point = .flush
  · rw [Tape.puts, if_pos flushing] at recorded
    obtain ⟨⟨record, flushed⟩, noting, same⟩ := map_eq_ok.mp recorded
    obtain rfl : record = taken := same
    have takes := flush_takes good.sound orderly.within orderly.clients noting queued
    have most := drains.takes left
    have sends : sys.world.stage.sends = 1 := by
      obtain ⟨app, point⟩ := sys
      cases flushing
      rfl
    rw [← takes] at most
    rw [sends, Nat.mul_succ, List.length_append]
    -- Either the socket is given less than it takes, and all of it goes.
    by_cases short : left.length ≤ m
    · refine .inl (prefix_of_length whole' ?_)
      have total := congrArg List.length whole
      have parts := congrArg List.length split
      simp only [List.length_append] at total parts ⊢
      omega
    · exact .inr (by omega)
  · have sends : sys.world.stage.sends = 0 := by
      obtain ⟨app, point⟩ := sys
      cases point with
      | flush => exact absurd rfl flushing
      | _ => rfl
    rw [sends, Nat.add_zero, List.length_append]
    exact .inr (by omega)

/-- What polls have sent, and how many operations it takes. -/
theorem run_sent {outlet : Outlet} {listener : Handle} {now : Int}
    (before : Reaches step Orderly (start listener now) sys) (queued : sys.app.outOf h = some out)
    (during : Reaches (Outlet.step h) (fun env outlet => Orderly env outlet.sys ∧ env.Drains h m) ⟨sys, 0, []⟩
      outlet) :
    ∃ events passes polls, outlet.sys.app.trace = sys.app.trace ++ events ∧
      outlet.sys.Paid outlet.operations passes ∧ passes + outlet.sys.world.stage.polled ≤ polls + 1 ∧
      Sent h m out outlet.sys outlet.put polls events := by
  have followed : outlet.sys.Good ∧ outlet.sys.app.Bounded ∧ ∃ events passes polls,
      outlet.sys.app.trace = sys.app.trace ++ events ∧ outlet.sys.Paid outlet.operations passes ∧
        passes + outlet.sys.world.stage.polled ≤ polls + 1 ∧ Sent h m out outlet.sys outlet.put polls events := by
    apply during.invariant
    · obtain ⟨good, bounded⟩ := run_bounded before
      have round := run_ahead before
      have behind : sys.world.stage.polled ≤ 1 := by
        cases sys.world.stage <;> simp [Stage.polled]
      exact ⟨good, bounded, [], 0, 0, (List.append_nil _).symm, .inr (by simpa using round), by simpa using behind,
        .inr ⟨out, [], queued, (List.append_nil _).symm, .inr (Nat.zero_le _)⟩⟩
    · rintro env earlier later ⟨orderly, drains⟩
        ⟨good, bounded, events, passes, polls, trace, paid, behind, sent⟩ ran
      obtain ⟨sys', stepped, ran⟩ := bind_eq_ok.mp ran
      obtain ⟨taken, recorded, same⟩ := bind_eq_ok.mp ran
      cases same
      obtain ⟨good', bounded', nears⟩ := bounded_step good bounded orderly stepped
      obtain ⟨again, more, ran', _, grown, moved⟩ := step_refines good.sound good.inv orderly
      obtain rfl : sys' = again := Except.ok.inj (stepped.symm.trans ran')
      refine ⟨good', bounded', events ++ more, _, polls + earlier.sys.world.stage.sends,
        by rw [grown, trace, List.append_assoc], nears.paid paid, ?_,
        sent.step good orderly drains stepped recorded grown⟩
      have passing := moved.polls
      rw [passes_of_points]
      show _ + sys'.world.stage.polled ≤ _
      omega
  exact followed.2.2

/-- Nothing stays in an out buffer. Where the socket of a client takes at least `m`
bytes of what it is given, or all of it, whatever is queued for the client at some
point of an orderly run is on the socket, in order and before anything queued later,
within `k + 1` rounds of the main loop if it is no longer than `m * k`, unless the
client is disconnected. -/
theorem output_sent_in_time {outlet : Outlet} {listener : Handle} {now : Int} {k : Nat}
    (before : Reaches step Orderly (start listener now) sys) (queued : sys.app.outOf h = some out)
    (short : out.length ≤ m * k)
    (during : Reaches (Outlet.step h) (fun env outlet => Orderly env outlet.sys ∧ env.Drains h m) ⟨sys, 0, []⟩
      outlet) (running : outlet.sys.point ≠ .exited) (long : (k + 1) * roundMax ≤ outlet.operations) :
    out <+: outlet.put ∨ ∃ events, outlet.sys.app.trace = sys.app.trace ++ events ∧ .closed h ∈ events := by
  obtain ⟨events, passes, polls, trace, paid, behind, gone | ⟨left, said, _, whole, progress⟩⟩ :=
    run_sent before queued during
  · exact .inr ⟨events, trace, gone⟩
  · rcases progress with all | progress
    · exact .inl all
    have ended : k + 1 < passes + 1 := Nat.lt_of_mul_lt_mul_right (long.trans_lt (paid.counted running))
    have enough : m * k ≤ m * polls := Nat.mul_le_mul_left m (by omega)
    exact .inl (prefix_of_length whole (by omega))

/-- A client comes and is greeted. -/
private def arrives : List (Nat × Env) := [(107, .connects 4), (110, .pauses)]

/-- A socket that takes a hundred bytes at a time. -/
private def slowly : Env := { Env.pauses with send := fun _ data => some (min 100 data.length) }

private theorem arrives_unsent : ∀ env ∈ rounds arrives, ∀ h data, env.send h data = none :=
  rounds_unsent ⟨fun _ _ => rfl, fun _ _ => rfl⟩

private theorem slowly_orderly (checked : separate slowly sys = true) : Orderly slowly sys := by
  obtain ⟨fresh, _, clients, handles, apart⟩ :=
    @separate_of_check Env.pauses sys (fun _ _ => rfl) checked
  have within : ∀ h data n, slowly.send h data = some n → n ≤ data.length := by
    rintro h data n ⟨⟩
    exact Nat.min_le_right _ _
  exact Separate.orderly ⟨fun _ _ _ _ _ accepting => (by cases accepting), within, clients, handles, apart⟩

/-- The greeting goes in three sends. -/
theorem output_sent_in_time_greeting : ∃ (sys : Sys) (outlet : Outlet) (out : Bytes),
    sys.app.outOf 4 = some out ∧ out.length = 213 ∧ outlet.operations = 1824 ∧
      (out <+: outlet.put ∨ ∃ events, outlet.sys.app.trace = sys.app.trace ++ events ∧ .closed 4 ∈ events) := by
  have outcome : (drive step separate .assertion (rounds arrives) (start 3 0)).bind (fun sys =>
      (drive (Outlet.step 4) (fun env outlet => separate env outlet.sys) .assertion (List.replicate 1824 slowly)
        ⟨sys, 0, []⟩).map fun outlet =>
          ((sys.app.outOf 4).map List.length, outlet.operations, decide (outlet.sys.point = .exited))) =
          .ok (some 213, 1824, false) := by
    decide +kernel
  obtain ⟨sys, first, outcome⟩ := bind_eq_ok.mp outcome
  obtain ⟨outlet, second, outcome⟩ := map_eq_ok.mp outcome
  obtain ⟨sized, outcome⟩ := Prod.mk.inj outcome
  obtain ⟨operations, running⟩ := Prod.mk.inj outcome
  obtain ⟨out, queued, length⟩ := Option.map_eq_some_iff.mp sized
  have reached : Reaches step Orderly (start 3 0) sys :=
    (reaches_of_drive arrives_unsent first).weaken fun _ _ => Separate.orderly
  have drains : slowly.Drains 4 100 := fun data _ => ⟨_, rfl, Nat.le_refl _⟩
  have window : Reaches (Outlet.step 4) (fun env outlet => Orderly env outlet.sys ∧ env.Drains 4 100) ⟨sys, 0, []⟩
      outlet := by
    refine drive_reaches (fun env member outlet checked => ?_) second
    obtain rfl := List.eq_of_mem_replicate member
    exact ⟨slowly_orderly checked, drains⟩
  have sent := output_sent_in_time (k := 3) reached queued (by omega) window (of_decide_eq_false running)
    (by rw [operations]; decide)
  exact ⟨sys, outlet, out, queued, length, operations, sent⟩

end Runs
end AuroraComms
