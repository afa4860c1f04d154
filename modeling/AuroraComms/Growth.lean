import AuroraComms.Descriptors
import AuroraComms.Meta.MapCapacity

/-! When the tables of the main loop grow. Only a connection that is entered and a
user that is entered can move a bucket array; and as there are never more than
`AC_CLIENTS_MAX` clients, either table moves at most once. -/
namespace AuroraComms
open Meta Library.Run

/-! ## One operation -/

section Operations
variable {env : Env} {app app' : App} {h : Handle}

/-- As many clients as before. -/
theorem len_of_layout (wired : app.Wired) (wired' : app'.Wired)
    (layout : app'.clients.keyTable = app.clients.keyTable) : app'.clients.len = app.clients.len := by
  rw [Map.len_keys wired'.clients, Map.len_keys wired.clients, Map.keys, Map.keys, layout]

/-- Fewer clients, when each of them was one. -/
theorem len_le_of_subset (wired : app.Wired) (wired' : app'.Wired)
    (kept : app'.clients.keys ⊆ app.clients.keys) : app'.clients.len ≤ app.clients.len := by
  rw [Map.len_keys wired'.clients, Map.len_keys wired.clients]
  exact (List.subperm_of_subset (Map.keys_nodup handleEq_exact wired'.clients) kept).length_le

theorem setClient_sameArray {s : Slot} {client : Client} (ran : app.setClient s client = .ok app') :
    app.clients.SameArray app'.clients := by
  obtain ⟨clients, set, same⟩ := bind_eq_ok.mp ran
  cases same
  exact Map.setVal_sameArray set

theorem sweep_sameArray {polled : List Handle} (ran : sweep env app = .ok (polled, app')) :
    app.clients.SameArray app'.clients := by
  refine Map.foreach_preserves (fun state => app.clients.SameArray state.2.clients) ?_ (.refl _) ran
  rintro i j s ⟨_, middle⟩ ⟨_, after⟩ so_far _ stepped
  obtain ⟨client, _, stepped⟩ := bind_eq_ok.mp stepped
  cases state : client.state with
  | toBeRemoved =>
    simp only [state] at stepped
    obtain ⟨_, disconnected, same⟩ := bind_eq_ok.mp stepped
    cases same
    obtain ⟨_, _, disconnected⟩ := bind_eq_ok.mp disconnected
    obtain ⟨clients, removed, same⟩ := bind_eq_ok.mp disconnected
    cases same
    exact so_far.trans (Map.remove_sameArray removed)
  | new =>
    simp only [state] at stepped
    obtain ⟨_, set, same⟩ := bind_eq_ok.mp stepped
    cases same
    exact so_far.trans (setClient_sameArray set)
  | online =>
    simp only [state] at stepped
    cases stepped
    exact so_far

theorem receiveOne_sameArray {fd : Handle} (ran : receiveOne env fd app = .ok app') :
    app.clients.SameArray app'.clients := by
  unfold receiveOne at ran
  split at ran
  · obtain ⟨s, _, ran⟩ := bind_eq_ok.mp ran
    obtain ⟨client, _, ran⟩ := bind_eq_ok.mp ran
    have noted : ∀ event new, (app.note event).setClient s new = .ok app' →
        app.clients.SameArray app'.clients := by
      intro event new set
      have stored : (app.note event).clients.SameArray app'.clients := setClient_sameArray set
      exact stored
    split at ran
    · cases ran
      exact .refl _
    · exact noted _ _ ran
    · split at ran <;> exact noted _ _ ran
  · cases ran
    exact .refl _

theorem flush_sameArray (ran : flush env app = .ok app') : app.clients.SameArray app'.clients := by
  refine Map.foreach_preserves (fun after => app.clients.SameArray after.clients) ?_ (.refl _) ran
  intro i j s middle after so_far _ stepped
  obtain ⟨client, _, stepped⟩ := bind_eq_ok.mp stepped
  split at stepped
  · split at stepped
    · cases stepped
      exact so_far
    · obtain ⟨_, _, set⟩ := bind_eq_ok.mp stepped
      exact so_far.trans (setClient_sameArray set)
  · cases stepped
    exact so_far

/-! ### Output -/

theorem serverSend_sameArray {data : Bytes} (ran : serverSend h data app = .ok app') :
    app.clients.SameArray app'.clients := by
  obtain ⟨s, _, ran⟩ := bind_eq_ok.mp ran
  obtain ⟨client, _, ran⟩ := bind_eq_ok.mp ran
  exact setClient_sameArray ran

theorem prompt_sameArray {p : UserPtr} (ran : prompt p app = .ok app') :
    app.clients.SameArray app'.clients := by
  obtain ⟨user, _, ran⟩ := bind_eq_ok.mp ran
  have sent : (app.note (.prompted user.handle)).clients.SameArray app'.clients := serverSend_sameArray ran
  exact sent

theorem sendFmt_sameArray {p : UserPtr} {msg : Msg} (ran : sendFmt env p msg app = .ok app') :
    app.clients.SameArray app'.clients := by
  obtain ⟨user, _, ran⟩ := bind_eq_ok.mp ran
  have sent : (app.note (.sent user.handle msg)).clients.SameArray app'.clients := serverSend_sameArray ran
  exact sent

theorem printFmt_sameArray {p : UserPtr} {action : Print} {msg : Msg}
    (ran : printFmt env p action msg app = .ok app') : app.clients.SameArray app'.clients := by
  obtain ⟨user, _, ran⟩ := bind_eq_ok.mp ran
  obtain ⟨opened, lead, ran⟩ := bind_eq_ok.mp ran
  obtain ⟨sent, text, ran⟩ := bind_eq_ok.mp ran
  obtain ⟨ended, close, ran⟩ := bind_eq_ok.mp ran
  have first : app.clients.SameArray opened.clients := by
    cases action with
    | interrupt => exact serverSend_sameArray lead
    | afterEnter =>
      cases lead
      exact .refl _
  have second : (opened.note (.printed user.handle action msg)).clients.SameArray sent.clients :=
    serverSend_sameArray text
  exact (first.trans second).trans ((serverSend_sameArray close).trans (prompt_sameArray ran))

theorem takeLine_sameArray {s : Slot} {line : Option Bytes} (ran : takeLine s app = .ok (line, app')) :
    app.clients.SameArray app'.clients := by
  obtain ⟨client, _, ran⟩ := bind_eq_ok.mp ran
  obtain ⟨result, _, ran⟩ := bind_eq_ok.mp ran
  cases result with
  | none =>
    cases ran
    exact .refl _
  | some result =>
    obtain ⟨stored, set, same⟩ := bind_eq_ok.mp ran
    cases same
    have stored : (app.note _).clients.SameArray app'.clients := setClient_sameArray set
    exact stored

theorem Effect.sameArray {self : Handle} (effect : Effect env self app app') :
    app.clients.SameArray app'.clients := by
  cases effect with
  | answer _ _ ran | interrupt _ _ ran => exact printFmt_sameArray ran
  | send _ _ ran => exact sendFmt_sameArray ran
  | prompt _ _ ran => exact prompt_sameArray ran
  | takeLine _ ran => exact takeLine_sameArray ran
  | free ran =>
    rw [freeUser_heap ran]
    exact .refl _
  | setUser | names | alloc | enroll | dismiss => exact .refl _

theorem Effects.sameArray {self : Handle} (path : Effects env self app app') :
    app.clients.SameArray app'.clients := by
  induction path with
  | refl => exact .refl _
  | tail _ effect ih => exact ih.trans effect.sameArray

/-- A turn of a user moves nothing in the table of clients. -/
theorem Acts.sameArray {result : Room × List Event} (acts : Acts result app app') (sound : app.Sound) :
    app.clients.SameArray app'.clients where
  alen := acts.alen
  acap := by
    have same := congrArg List.length acts.keyTable
    rw [Map.keyTable, Map.keyTable, List.length_map, List.length_map] at same
    rw [acts.sound.clients.represents.acap, sound.clients.represents.acap, same]

/-! ### Entries -/

/-- The table of clients takes an entry for a connection that is accepted, and only if it is not full. -/
theorem handleConn_grows (ran : handleConn env app = .ok app') : app' = app ∨
    ∃ fd client, env.accept = .socket fd true true ∧ app.clients.len ≠ clientsMax ∧
      app.clients.set handleHash handleEq fd client = .ok app'.clients := by
  unfold handleConn at ran
  cases accepted : env.accept with
  | failed =>
    simp only [accepted] at ran
    cases ran
    exact .inl rfl
  | socket fd nonblocking ntop =>
    simp only [accepted] at ran
    split at ran
    · cases ran
      exact .inl rfl
    · split at ran
      · cases ran
        exact .inl rfl
      · split at ran
        · cases ran
          exact .inl rfl
        · obtain ⟨clients, set, same⟩ := bind_eq_ok.mp ran
          cases same
          rename_i blocking room unprinted
          obtain rfl : nonblocking = true := by simpa using blocking
          obtain rfl : ntop = true := by simpa using unprinted
          exact .inr ⟨fd, _, rfl, room, set⟩

theorem createUser_grows (ran : createUser env h app = .ok app') :
    ∃ k p, app.fromHandle.set handleHash handleEq k p = .ok app'.fromHandle := by
  obtain ⟨greeted, user, fromHandle, greeting, _, set, rfl⟩ := createUser_runs ran
  obtain ⟨msg, printed⟩ := stateNew_runs greeting
  have same : greeted.fromHandle = app.fromHandle := (printFmt_sameUsers printed).2
  rw [same] at set
  exact ⟨_, _, set⟩

theorem removeUser_sameArray (ran : removeUser env h app = .ok app') :
    app.fromHandle.SameArray app'.fromHandle := by
  obtain ⟨k, fromHandle, dropped, told, q, gone, removed, drop, farewell, freed⟩ := removeUser_runs ran
  obtain ⟨fromUsername, rfl⟩ := dropUsername_runs drop
  have kept : told.fromHandle = fromHandle := by
    refine Map.foreach_preserves (fun app => app.fromHandle = fromHandle) ?_ rfl farewell
    intro i j s middle after so_far _ turned
    obtain rfl | ⟨q, r, user, loaded, sent⟩ := farewellTurn_runs turned
    · exact so_far
    · exact (printFmt_sameUsers sent).2.trans so_far
  rw [freeUser_heap freed]
  show app.fromHandle.SameArray told.fromHandle
  rw [kept]
  exact Map.remove_sameArray removed

/-- The users are fewer than the clients as long as one of these has none. -/
theorem users_below (sound : app.Sound) (seated : app.Seated) (connected : (app.clientOf h).isSome)
    (unknown : app.ptrOf h = none) : app.fromHandle.len < app.clients.len := by
  rw [Map.len_keys sound.handles, Map.len_keys sound.clients]
  have absent : h ∉ app.fromHandle.keys := by
    rw [Map.mem_keys handleEq_exact sound.handles]
    change ¬ (app.ptrOf h).isSome
    rw [unknown]
    exact nofun
  have listed : ∀ k, (app.clientOf k).isSome → k ∈ app.clients.keys :=
    fun k there => (Map.mem_keys handleEq_exact sound.clients).mpr there
  have inside : h :: app.fromHandle.keys ⊆ app.clients.keys := by
    intro k member
    obtain rfl | later := List.mem_cons.mp member
    · exact listed k connected
    · exact listed k (seated k ((Map.mem_keys handleEq_exact sound.handles).mp later))
  have once : (h :: app.fromHandle.keys).Nodup :=
    List.nodup_cons.mpr ⟨absent, Map.keys_nodup handleEq_exact sound.handles⟩
  exact (List.subperm_of_subset once inside).length_le

end Operations

/-! ## One step -/

section Steps
variable {env : Env} {sys sys' : Sys}

/-- What a step does to the tables: nothing to their arrays, but for an entry for a
connection or for a user. -/
structure Grows (env : Env) (sys sys' : Sys) : Prop where
  clients : (sys.app.clients.SameArray sys'.app.clients ∧ sys'.app.clients.len ≤ sys.app.clients.len) ∨
    ∃ polled fd client, sys.point = .wait polled ∧ env.accept = .socket fd true true ∧
      sys.app.clients.len ≠ clientsMax ∧ sys'.app.clients.len ≤ sys.app.clients.len + 1 ∧
      sys.app.clients.set handleHash handleEq fd client = .ok sys'.app.clients
  handles : sys.app.fromHandle.SameArray sys'.app.fromHandle ∨
    sys.app.fromHandle.len < sys.app.clients.len ∧
      ∃ k p, sys.app.fromHandle.set handleHash handleEq k p = .ok sys'.app.fromHandle

theorem Grows.same {app : App} {point : Point} (clients : sys.app.clients.SameArray app.clients)
    (size : app.clients.len ≤ sys.app.clients.len) (handles : sys.app.fromHandle.SameArray app.fromHandle) :
    Grows env sys ⟨app, point⟩ :=
  ⟨.inl ⟨clients, size⟩, .inl handles⟩

theorem SameUsers.sameArray {app app' : App} (users : SameUsers app app') :
    app.fromHandle.SameArray app'.fromHandle := by
  rw [users.2]
  exact .refl _

theorem connects_grow {polled : List Handle} {app : App} {point : Point} (wired : sys.app.Wired)
    (waiting : sys.point = .wait polled) (ran : handleConn env sys.app = .ok app) :
    Grows env sys ⟨app, point⟩ := by
  have handles := (handleConn_sameUsers ran).sameArray
  obtain rfl | ⟨fd, client, accepting, room, set⟩ := handleConn_grows ran
  · exact .same (.refl _) le_rfl (.refl _)
  · refine ⟨.inr ⟨polled, fd, client, waiting, accepting, room, ?_, set⟩, .inl handles⟩
    obtain same | ⟨other, _, _, wired', entered, _⟩ := handleConn_enters wired ran
    · show app.clients.len ≤ _
      rw [same]
      exact Nat.le_succ _
    have listed : app.clients.keys ⊆ other :: sys.app.clients.keys := by
      intro k member
      rw [mem_clients wired', App.outOf, entered, Function.update_apply] at member
      split at member
      · rename_i mine
        exact mine ▸ List.mem_cons_self
      · exact List.mem_cons_of_mem _ ((mem_clients wired).mpr member)
    have size := (List.subperm_of_subset (Map.keys_nodup handleEq_exact wired'.clients) listed).length_le
    rwa [List.length_cons, ← Map.len_keys wired'.clients, ← Map.len_keys wired.clients] at size

/-- The client whose turn it is has a user, unless it is new. -/
theorem client_turn {app : App} {i j : Nat} (good : Sys.Good ⟨app, .clients i j⟩)
    (orderly : Orderly env ⟨app, .clients i j⟩) {s : Slot}
    (turned : app.clients.turn env.quiet i j = .ok (.body s)) {client : Client}
    (loaded : app.client s = .ok client) :
    app.clients.keyAt ⟨i, j⟩ = some client.handle ∧ app.clientOf client.handle = some client ∧
      ((app.ptrOf client.handle).isSome ↔ client.state ≠ .new) := by
  have sound := good.sound
  rcases Map.turn_keys sound.clients orderly.clients i j with
    ⟨h, there, here, todo⟩ | ⟨elsewhere, _⟩ | ⟨elsewhere, _⟩
  · obtain rfl : s = ⟨i, j⟩ := by
      rw [turned] at there
      cases there
      rfl
    obtain ⟨again, stored, _, reloaded⟩ := Map.entry_keyAt handleEq_exact sound.clients here
    obtain rfl : client = again := Except.ok.inj (loaded.symm.trans reloaded)
    obtain rfl : client.handle = h := sound.keyed h client stored
    have seat := good.inv.fits.1 client.handle _ (room_conn stored)
    have listed : client.handle ∈ app.clients.keysFrom i j := by rw [todo]; exact List.mem_cons_self
    refine ⟨here, stored, ?_⟩
    rw [← user_isSome sound.toLaid]
    simpa [Sys.world, listed] using seat
  · rw [turned] at elsewhere
    cases elsewhere
  · rw [turned] at elsewhere
    cases elsewhere

theorem clients_grow {app after : App} {i j : Nat} {point : Point} (good : Sys.Good ⟨app, .clients i j⟩)
    (orderly : Orderly env ⟨app, .clients i j⟩) {s : Slot}
    (turned : app.clients.turn env.quiet i j = .ok (.body s)) (ran : updateClient env s app = .ok after) :
    Grows env ⟨app, .clients i j⟩ ⟨after, point⟩ := by
  obtain ⟨_, _, path⟩ := updateClient_effects ran
  obtain ⟨_, charged⟩ := updateClient_noted good.sound.wired ran
  refine ⟨.inl ⟨path.sameArray, (len_of_layout good.sound.wired charged.wired charged.layout).le⟩, ?_⟩
  obtain ⟨client, loaded, ran⟩ := bind_eq_ok.mp ran
  cases state : client.state with
  | new =>
    simp only [state] at ran
    obtain ⟨_, connected, seat⟩ := client_turn good orderly turned loaded
    have unknown : app.ptrOf client.handle = none := by simpa [state] using seat
    exact .inr ⟨users_below good.sound (good.sound.seated good.inv.linked) (by rw [connected]; rfl) unknown,
      createUser_grows ran⟩
  | toBeRemoved =>
    simp only [state] at ran
    exact .inl (removeUser_sameArray ran)
  | online =>
    simp only [state] at ran
    cases ran
    exact .inl (.refl _)

theorem step_grows (good : sys.Good) (orderly : Orderly env sys) (ran : step env sys = .ok sys') :
    Grows env sys sys' := by
  have wired := good.sound.wired
  cases step_work ran with
  | still => exact .same (.refl _) le_rfl (.refl _)
  | sweeps _ sweeping =>
    have swept := sweep_sweeps wired sweeping
    obtain ⟨gone, _, left⟩ := swept.trace
    refine .same (sweep_sameArray sweeping) (len_le_of_subset wired swept.wired fun h listed => ?_)
      (sweep_sameUsers sweeping).sameArray
    exact (mem_clients wired).mpr ((left h).mp ((mem_clients swept.wired).mp listed)).1
  | connects waiting connecting => exact connects_grow wired waiting connecting
  | receives _ receiving =>
    obtain ⟨_, charged, _⟩ := receiveOne_charges wired receiving
    exact .same (receiveOne_sameArray receiving) (len_of_layout wired charged.wired charged.layout).le
      (receiveOne_sameUsers receiving).sameArray
  | flushes _ flushing =>
    obtain ⟨_, _, flushed⟩ := flush_flushed wired flushing
    exact .same (flush_sameArray flushing) (len_of_layout wired flushed.wired flushed.layout).le
      (flush_sameUsers flushing).sameArray
  | user _ turned updating =>
    obtain ⟨_, k, here⟩ := Map.turn_body good.sound.handles turned
    obtain ⟨after, again, acts⟩ :=
      updateUser_acts good.sound (good.sound.seated good.inv.linked) orderly.handles here
    obtain rfl := Except.ok.inj (updating.symm.trans again)
    refine .same (acts.sameArray good.sound) (len_of_layout wired acts.sound.wired acts.keyTable).le ?_
    rw [acts.fromHandle]
    exact .refl _
  | client here turned updating =>
    obtain ⟨app, point⟩ := sys
    subst here
    exact clients_grow good orderly turned updating

end Steps

/-! ## Whole runs -/

section Runs
variable {env : Env} {sys sys' : Sys}

/-- How large the tables of the main loop may get. -/
structure App.Bounded (app : App) : Prop where
  clients : app.clients.GrewOnce clientsMax
  handles : app.fromHandle.GrewOnce clientsMax
  few : app.clients.len ≤ clientsMax

/-- Every user is a client. -/
theorem roster_le_clients (good : sys.Good) : sys.app.room.roster.length ≤ sys.app.clients.len := by
  have wired := good.sound.wired
  rw [Map.len_keys wired.clients]
  refine (List.subperm_of_subset good.inv.linked.once fun h listed => ?_).length_le
  have connected := good.inv.linked.seated h ((good.inv.linked.listed h).mp listed)
  rw [mem_clients wired, App.outOf, Option.isSome_map]
  change ((sys.app.clientOf h).map _).isSome at connected
  rwa [Option.isSome_map] at connected

theorem step_bounded (good : sys.Good) (orderly : Orderly env sys) (bounded : sys.app.Bounded)
    (ran : step env sys = .ok sys') : sys'.app.Bounded := by
  obtain ⟨clients, handles⟩ := step_grows good orderly ran
  have most := bounded.few
  refine ⟨?_, ?_, ?_⟩
  · rcases clients with ⟨same, _⟩ | ⟨_, _, _, _, _, room, _, set⟩
    · exact bounded.clients.same same
    · exact Map.set_grewOnce good.sound.clients bounded.clients (Nat.lt_of_le_of_ne most room) set
  · rcases handles with same | ⟨below, _, _, set⟩
    · exact bounded.handles.same same
    · exact Map.set_grewOnce good.sound.handles bounded.handles (below.trans_le most) set
  · rcases clients with ⟨_, size⟩ | ⟨_, _, _, _, _, room, size, _⟩
    · exact size.trans most
    · exact size.trans (Nat.lt_of_le_of_ne most room)

theorem start_bounded (listener : Handle) (now : Int) : (start listener now).app.Bounded :=
  ⟨.inl (Map.newReserve_unspent clientsMax), .inl (Map.newReserve_unspent clientsMax), Nat.zero_le _⟩

theorem run_bounded {listener : Handle} {now : Int} (reached : Reaches step Orderly (start listener now) sys) :
    sys.Good ∧ sys.app.Bounded := by
  apply reached.invariant
  · exact ⟨start_good listener now, start_bounded listener now⟩
  · rintro env before after orderly ⟨good, bounded⟩ ran
    obtain ⟨again, _, ran', sound, _, moved⟩ := step_refines good.sound good.inv orderly
    obtain rfl := Except.ok.inj (ran.symm.trans ran')
    exact ⟨⟨sound, moved.keeps good.inv⟩, step_bounded good orderly bounded ran⟩

end Runs
end AuroraComms
