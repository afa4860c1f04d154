import AuroraComms.Invariant
import AuroraComms.Sweep

/-! The program's main loop refines the world's. Each operation is described by
what it does to the room and the trace; no lookup on the way fails. The tables'
layout enters in one place, the conditions under which the loops and the
removals do what they are for. -/
namespace AuroraComms
open Meta Library.Run

/-- The world a state of the program stands for. -/
def Sys.world (sys : Sys) : World where
  stage := match sys.point with
    | .sweep => .sweep
    | .wait polled => .wait polled.tail
    | .receive todo => .receive todo
    | .flush => .flush
    | .users i j => .users (sys.app.fromHandle.keysFrom i j)
    | .clients i j => .clients (sys.app.clients.keysFrom i j)
    | .exited => .exited
  room := sys.app.room

/-- What the system and the tables' layout have to grant: `accept` returns no
descriptor that is in use, `send` takes at most what it is given, no loop reads
a freed bucket, and what is removed is the last of its bucket. -/
structure Orderly (env : Env) (sys : Sys) : Prop where
  fresh : ∀ polled fd nonblocking ntop, sys.point = .wait polled →
    env.accept = .socket fd nonblocking ntop → sys.app.clientOf fd = none
  within : ∀ h data n, env.send h data = some n → n ≤ data.length
  clients : Map.Readable env.quiet sys.app.clients
  handles : Map.Readable env.quiet sys.app.fromHandle
  sweeps : sys.point = .sweep → ∀ h client, sys.app.clientOf h = some client →
    client.state = .toBeRemoved → sys.app.clients.LastInBucket h
  removes : ∀ i j h client, sys.point = .clients i j → sys.app.clients.keyAt ⟨i, j⟩ = some h →
    sys.app.clientOf h = some client → client.state = .toBeRemoved →
    sys.app.fromHandle.LastInBucket h

/-- No two live handles share a bucket, and every loop over a table visits its
entries once and ends; the system keeps to its side. -/
structure Separate (env : Env) (sys : Sys) : Prop where
  fresh : ∀ polled fd nonblocking ntop, sys.point = .wait polled →
    env.accept = .socket fd nonblocking ntop → sys.app.clientOf fd = none
  within : ∀ h data n, env.send h data = some n → n ≤ data.length
  clients : Map.Readable env.quiet sys.app.clients
  handles : Map.Readable env.quiet sys.app.fromHandle
  apart : sys.app.clients.Unshared ∧ sys.app.fromHandle.Unshared

/-- Without shared buckets there is no order to keep in them. -/
theorem Separate.orderly {env : Env} {sys : Sys} (separate : Separate env sys) : Orderly env sys where
  fresh := separate.fresh
  within := separate.within
  clients := separate.clients
  handles := separate.handles
  sweeps _ h _ _ _ := separate.apart.1.lastInBucket h
  removes _ _ h _ _ _ _ _ := separate.apart.2.lastInBucket h

section Operations
variable {env : Env} {app : App}

theorem client_of_conn {h : Handle} {conn : Conn} (known : app.room.conn h = some conn) :
    ∃ client, app.clientOf h = some client ∧ conn = ⟨client.state, client.inBuf⟩ := by
  obtain ⟨client, stored, same⟩ := Option.map_eq_some_iff.mp known
  exact ⟨client, stored, same.symm⟩

theorem Room.setConn_known {room : Room} {h : Handle} {conn : Conn} (known : room.conn h = some conn) :
    room.setConn h conn = room := by
  apply Room.ext
  · rfl
  · exact (congrArg (Function.update room.conn h) known.symm).trans (Function.update_eq_self _ _)
  · rfl
  · rfl

/-! ## The network -/

/-- A new connection is entered, or nothing changes. -/
theorem handleConn_ok (sound : app.Sound)
    (fresh : ∀ fd nonblocking ntop, env.accept = .socket fd nonblocking ntop →
      app.clientOf fd = none) :
    (handleConn env app = .ok app) ∨
    ∃ fd app', env.accept = .socket fd true true ∧ app.clientOf fd = none ∧
      handleConn env app = .ok app' ∧ app'.Sound ∧ app'.room = app.room.setConn fd ⟨.new, []⟩ ∧
      app'.trace = app.trace ++ [.accepted fd] := by
  cases accepted : env.accept with
  | failed => exact Or.inl (by simp [handleConn, accepted])
  | socket fd nonblocking ntop =>
    cases nonblocking with
    | false => exact Or.inl (by simp [handleConn, accepted])
    | true =>
      by_cases full : app.clients.len = clientsMax
      · exact Or.inl (by simp [handleConn, accepted, full])
      · cases ntop with
        | false => exact Or.inl (by simp [handleConn, accepted, full])
        | true =>
          have absent := fresh fd true true accepted
          obtain ⟨clients, ran, stored, found⟩ :=
            Map.set_ok handleEq_exact sound.clients fd (⟨fd, .new, [], []⟩ : Client)
          have clientOf : ((app.setClients clients).note (.accepted fd)).clientOf =
            Function.update app.clientOf fd (some ⟨fd, .new, [], []⟩) := found
          refine Or.inr ⟨fd, (app.setClients clients).note (.accepted fd), rfl, absent, ?_, ?_, ?_, rfl⟩
          · simp only [handleConn, accepted, Bool.not_true, full, ran, ok_bind, pure_eq_ok]
            rfl
          · refine ⟨⟨stored, sound.handles, sound.names, ?_, sound.linked⟩, sound.registered⟩
            intro h client known
            rw [clientOf, Function.update_apply] at known
            split at known
            · rename_i same
              cases known
              exact same.symm
            · exact sound.keyed h client known
          · apply Room.ext
            · rfl
            · funext h
              show (((app.setClients clients).note (.accepted fd)).clientOf h).map _ =
                Function.update app.room.conn fd _ h
              rw [clientOf, Function.update_apply, Function.update_apply]
              split <;> rfl
            · rfl
            · rfl

/-- The outcomes of the receive loop on one socket. -/
theorem receiveOne_ok (env : Env) (sound : app.Sound) {h : Handle} (connected : (app.clientOf h).isSome) :
    (env.silent h ∧ receiveOne env h app = .ok app) ∨
    (∃ conn data app', app.room.conn h = some conn ∧ env.pollin h = true ∧
      env.recv h = .data data ∧ data ≠ [] ∧ receiveOne env h app = .ok app' ∧ app'.Sound ∧
      app'.room = app.room.setConn h { conn with inBuf := conn.inBuf ++ data } ∧
      app'.trace = app.trace ++ [.received h data]) ∨
    (∃ conn app', app.room.conn h = some conn ∧ env.hangsUp h ∧ receiveOne env h app = .ok app' ∧
      app'.Sound ∧ app'.room = app.room.setConn h { conn with state := .toBeRemoved } ∧
      app'.trace = app.trace ++ [.hungUp h]) := by
  obtain ⟨client, stored⟩ := Option.isSome_iff_exists.mp connected
  obtain ⟨s, found, at_h, loaded, keyed⟩ := client_found sound.toLaid stored
  have written : ∀ event client', client'.handle = h → ∃ app',
      (app.note event).setClient s client' = .ok app' ∧ app'.Sound ∧
      app'.room = app.room.setConn h ⟨client'.state, client'.inBuf⟩ ∧
      app'.trace = app.trace ++ [event] := by
    intro event client' own
    have noted := note_outputs sound.toLaid event
    obtain ⟨app', ran, acted, _⟩ := setClient_acts (noted.sound sound) at_h client' own
    refine ⟨app', ran, acted.sound, ?_, ?_⟩
    · rw [acted.room, noted.room]
    · rw [acted.trace, noted.trace, List.append_nil]
  have conn := room_conn stored
  cases waiting : env.pollin h with
  | false => exact Or.inl ⟨Or.inl waiting, by simp [receiveOne, waiting]⟩
  | true =>
    have ended : ∀ ends : env.recv h = .error ∨ env.recv h = .data [],
        receiveOne env h app = (app.note (.hungUp h)).setClient s { client with state := .toBeRemoved } := by
      rintro (failed | empty)
      · simp only [receiveOne, waiting, ↓reduceIte, found, loaded, ok_bind, failed]
      · simp only [receiveOne, waiting, ↓reduceIte, found, loaded, ok_bind, empty, List.length_nil]
    cases arrived : env.recv h with
    | again =>
      exact Or.inl ⟨Or.inr arrived, by simp [receiveOne, waiting, found, loaded, arrived]⟩
    | error =>
      obtain ⟨app', ran, sound', room, trace⟩ :=
        written (.hungUp h) { client with state := .toBeRemoved } keyed
      exact Or.inr (Or.inr ⟨_, app', conn, ⟨waiting, Or.inl arrived⟩,
        (ended (Or.inl arrived)).trans ran, sound', room, trace⟩)
    | data data =>
      by_cases empty : data = []
      · subst empty
        obtain ⟨app', ran, sound', room, trace⟩ :=
          written (.hungUp h) { client with state := .toBeRemoved } keyed
        exact Or.inr (Or.inr ⟨_, app', conn, ⟨waiting, Or.inr arrived⟩,
          (ended (Or.inr arrived)).trans ran, sound', room, trace⟩)
      · obtain ⟨app', ran, sound', room, trace⟩ :=
          written (.received h data) { client with inBuf := client.inBuf ++ data } keyed
        refine Or.inr (Or.inl ⟨_, data, app', conn, rfl, rfl, empty, ?_, sound', room, trace⟩)
        have some : data.length ≠ 0 := by simpa using empty
        simp only [receiveOne, waiting, ↓reduceIte, found, loaded, ok_bind, arrived, some]
        exact ran

/-- Sending changes no room. -/
theorem flush_ok (sound : app.Sound) (within : ∀ h data n, env.send h data = some n → n ≤ data.length)
    (readable : Map.Readable env.quiet app.clients) :
    ∃ app', flush env app = .ok app' ∧ app'.Sound ∧ app'.room = app.room ∧ app'.trace = app.trace := by
  have ends := Map.foreach_keys handleHash handleEq App.clients (sendTurn env)
    (fun _ other => other.Sound ∧ other.room = app.room ∧ other.trace = app.trace ∧
      other.clients.keyTable = app.clients.keyTable ∧
      other.clients.bkts.alen = app.clients.bkts.alen) app readable
    (fun _ other held => ⟨held.1.clients, held.2.2.2⟩) ?_ ⟨sound, rfl, rfl, rfl, rfl⟩
  · obtain ⟨app', ran, sound', room, trace, _⟩ := ends
    exact ⟨app', ran, sound', room, trace⟩
  · rintro s h _ other ⟨sound', room, trace, layout, alen⟩ here
    obtain ⟨client, found, _, loaded⟩ := Map.entry_keyAt handleEq_exact sound'.clients here
    change other.clientOf h = some client at found
    change other.client s = .ok client at loaded
    have unsent : ∃ next, (.ok other : Except Fault App) = .ok next ∧ next.Sound ∧
        next.room = app.room ∧ next.trace = app.trace ∧
        next.clients.keyTable = app.clients.keyTable ∧
        next.clients.bkts.alen = app.clients.bkts.alen :=
      ⟨other, rfl, sound', room, trace, layout, alen⟩
    simp only [sendTurn, loaded, ok_bind]
    by_cases waiting : client.outBuf.length > 0
    · rw [if_pos waiting]
      cases sending : env.send client.handle client.outBuf with
      | none => exact unsent
      | some n =>
        have bound := within _ _ _ sending
        obtain ⟨next, ran, acted, _⟩ := setClient_acts sound' here
          { client with outBuf := client.outBuf.take 0 ++ client.outBuf.drop (0 + n) }
          (sound'.keyed h client found)
        refine ⟨next, ?_, acted.sound, ?_, ?_, acted.keyTable.trans layout, acted.alen.trans alen⟩
        · simp only [arrRemoveN, waiting, Nat.zero_add, bound, and_self, ↓reduceIte, ok_bind] at ran ⊢
          exact ran
        · rw [acted.room, ← room]
          have conn := room_conn found
          exact Room.setConn_known conn
        · rw [acted.trace, List.append_nil, trace]
    · rw [if_neg waiting]
      exact unsent

/-- The sweep, seen from the room. -/
theorem sweep_ok (sound : app.Sound) (readable : Map.Readable env.quiet app.clients)
    (last : ∀ h client, app.clientOf h = some client → client.state = .toBeRemoved →
      app.clients.LastInBucket h) :
    ∃ (polled gone : List Handle) (app' : App), sweep env app = .ok (polled, app') ∧ app'.Sound ∧
      app'.room = app.room.swept ∧ app'.trace = app.trace ++ gone.map .closed ∧
      polled.tail.Nodup ∧ (∀ h, h ∈ polled.tail ↔ (app.room.swept.conn h).isSome) ∧ gone.Nodup ∧
      ∀ h, h ∈ gone ↔ ∃ conn, app.room.conn h = some conn ∧ conn.state = .toBeRemoved := by
  obtain ⟨polled, app', ran, swept, ⟨gone, trace, goneOnce, goneAll⟩, clients, keyed, same⟩ :=
    sweep_exact sound.clients sound.keyed env readable
      fun h client stored goes => last h client stored (eq_of_beq goes)
  obtain ⟨rest, rfl, once, all⟩ := swept.sockets
  have userAt : app'.userAt = app.userAt := funext fun p => by rw [App.userAt, App.userAt, same.heap]
  have ptrOf : app'.ptrOf = app.ptrOf := funext fun h => by rw [App.ptrOf, App.ptrOf, same.fromHandle]
  have named : app'.named = app.named :=
    funext fun name => by rw [App.named, App.named, same.fromUsername]
  have conns : app'.room.conn = app.room.swept.conn := by
    funext h
    show (app'.clientOf h).map _ = ((app.clientOf h).map _).bind _
    rw [swept.clientOf]
    cases app.clientOf h with
    | none => rfl
    | some client =>
      by_cases goes : client.state = .toBeRemoved
      · simp [goes]
      · simp [goes]
  refine ⟨_, gone, app', ran, ⟨⟨clients, ?_, ?_, keyed, ?_⟩, ?_⟩, ?_, trace, once, fun h => ?_,
    goneOnce, fun h => ?_⟩
  · rw [same.fromHandle]
    exact sound.handles
  · rw [same.fromUsername]
    exact sound.names
  · rw [ptrOf, userAt]
    exact sound.linked
  · rw [named, ptrOf, userAt]
    exact sound.registered
  · apply Room.ext
    · show app'.fromHandle.keys = app.fromHandle.keys
      rw [same.fromHandle]
    · exact conns
    · show (fun h => (app'.ptrOf h).bind app'.userAt) = fun h => (app.ptrOf h).bind app.userAt
      rw [ptrOf, userAt]
    · show (fun name => ((app'.named name).bind app'.userAt).map User.handle) =
        fun name => ((app.named name).bind app.userAt).map User.handle
      rw [named, userAt]
  · rw [List.tail_cons, all, ← conns]
    show _ ↔ ((app'.clientOf h).map _).isSome
    rw [Option.isSome_map]
  · rw [goneAll]
    constructor
    · rintro ⟨client, stored, goes⟩
      exact ⟨_, room_conn stored, goes⟩
    · rintro ⟨conn, known, goes⟩
      obtain ⟨client, stored, rfl⟩ := client_of_conn known
      exact ⟨client, stored, goes⟩

/-! ## The application -/

theorem App.Sound.seated (sound : app.Sound) (linked : app.room.Linked) : app.Seated :=
  seated_of_room sound linked.seated

/-- A sound state whose room is in order is well formed. -/
theorem formed_of_room (sound : app.Sound) (linked : app.room.Linked) (named : app.room.Named) :
    app.Formed where
  toSound := sound
  seated := sound.seated linked
  owned name p user registered live := by
    obtain ⟨other, there, held⟩ := sound.registered name p registered
    rw [live] at there
    cases there
    have owner : app.room.owner name = some user.handle := by
      show ((app.named name).bind app.userAt).map User.handle = _
      rw [registered, Option.bind_some, live]
      rfl
    obtain ⟨known, there, _, own⟩ := (named.owned name user.handle).mp owner
    have mine : app.room.user user.handle = some user := by
      show (app.ptrOf user.handle).bind app.userAt = _
      rw [held]
      exact live
    rw [mine] at there
    cases there
    exact own

theorem mem_roster (laid : app.Laid) (h : Handle) : h ∈ app.room.roster ↔ (app.ptrOf h).isSome :=
  Map.mem_keys handleEq_exact laid.handles

theorem user_isSome (laid : app.Laid) (h : Handle) :
    (app.room.user h).isSome ↔ (app.ptrOf h).isSome := by
  cases held : app.ptrOf h with
  | none =>
    show ((app.ptrOf h).bind app.userAt).isSome ↔ _
    rw [held]
    rfl
  | some p =>
    obtain ⟨user, _, _, known⟩ := room_user laid held
    rw [known]
    rfl

theorem ptrOf_inj (laid : app.Laid) {h k : Handle} {p : UserPtr} (held : app.ptrOf h = some p)
    (there : app.ptrOf k = some p) : k = h := by
  obtain ⟨one, live, keyed⟩ := laid.linked h p held
  obtain ⟨two, live', keyed'⟩ := laid.linked k p there
  rw [live] at live'
  cases live'
  exact keyed'.symm.trans keyed

/-- The removal of a user, seen from the room. -/
theorem removal_room (formed : app.Formed) {app' : App} {h : Handle} {p : UserPtr} {user : User}
    (held : app.ptrOf h = some p) (live : app.userAt p = some user) (keyed : user.handle = h)
    (removes : RemovesExactly env app app' h p user) :
    app'.room = app.room.unseat user app'.fromHandle.keys := by
  apply Room.ext
  · rfl
  · funext k
    show (app'.clientOf k).map _ = (app.clientOf k).map _
    rw [removes.clientOf]
    cases app.clientOf k <;> rfl
  · funext k
    show (app'.ptrOf k).bind app'.userAt = Function.update app.room.user user.handle none k
    rw [removes.ptrOf, removes.userAt, keyed, Function.update_apply, Function.update_apply]
    split
    · rfl
    · rename_i apart
      show _ = (app.ptrOf k).bind app.userAt
      cases there : app.ptrOf k with
      | none => rfl
      | some q =>
        have different : q ≠ p := by
          rintro rfl
          exact apart (ptrOf_inj formed.toLaid held there)
        exact Function.update_of_ne different _ _
  · funext name
    show ((app'.named name).bind app'.userAt).map User.handle =
      Function.update app.room.owner user.username none name
    rw [removes.named, removes.userAt, Function.update_apply, Function.update_apply]
    split
    · rfl
    · rename_i apart
      show _ = ((app.named name).bind app.userAt).map User.handle
      cases there : app.named name with
      | none => rfl
      | some q =>
        have different : q ≠ p := by
          rintro rfl
          exact apart (formed.owned name q user there live).symm
        rw [Option.bind_some, Option.bind_some, Function.update_of_ne different]

/-! ## One step -/

section Steps
variable {i j : Nat}

/-- A step of the program that is a step of the world. -/
def Moves (env : Env) (sys : Sys) : Prop :=
  ∃ sys' events, step env sys = .ok sys' ∧ sys'.app.Sound ∧
    sys'.app.trace = sys.app.trace ++ events ∧ World.Step env sys.world events sys'.world

private theorem moves_users (sound : app.Sound) (inv : World.Inv (Sys.world ⟨app, .users i j⟩))
    (readable : Map.Readable env.quiet app.fromHandle) : Moves env ⟨app, .users i j⟩ := by
  have seated := sound.seated inv.linked
  rcases Map.turn_keys sound.handles readable i j with
    ⟨h, turned, here, todo⟩ | ⟨turned, todo⟩ | ⟨turned, todo⟩
  · obtain ⟨app', ran, acted⟩ := updateUser_acts sound seated readable here
    refine ⟨⟨app', .users i (j + 1)⟩, _, ?_, acted.sound, acted.trace, ?_⟩
    · simp only [step, turned, ok_bind, ran, pure_eq_ok]
    · show World.Step env ⟨.users (app.fromHandle.keysFrom i j), app.room⟩ _
        ⟨.users (app'.fromHandle.keysFrom i (j + 1)), app'.room⟩
      rw [todo, acted.room, acted.fromHandle]
      exact .turn _
  · refine ⟨⟨app, .users (i + 1) 0⟩, [], ?_, sound, (List.append_nil _).symm, ?_⟩
    · simp only [step, turned, ok_bind, pure_eq_ok]
    · show World.Step env ⟨.users (app.fromHandle.keysFrom i j), app.room⟩ _ _
      rw [todo]
      exact .stutter _
  · refine ⟨⟨app, .clients 0 0⟩, [], ?_, sound, (List.append_nil _).symm, ?_⟩
    · simp only [step, turned, ok_bind, pure_eq_ok]
    · show World.Step env ⟨.users (app.fromHandle.keysFrom i j), app.room⟩ _
        ⟨.clients (app.clients.keysFrom 0 0), app.room⟩
      rw [todo, Map.keysFrom_start]
      refine .updated (Map.keys_nodup handleEq_exact sound.clients) fun h => ?_
      rw [Map.mem_keys handleEq_exact sound.clients]
      show _ ↔ ((app.clientOf h).map _).isSome
      rw [Option.isSome_map]
      rfl

private theorem moves_create (sound : app.Sound) (inv : World.Inv (Sys.world ⟨app, .clients i j⟩))
    {h : Handle} (turned : app.clients.turn env.quiet i j = .ok (.body ⟨i, j⟩))
    (todo : app.clients.keysFrom i j = h :: app.clients.keysFrom i (j + 1)) {client : Client}
    (stored : app.clientOf h = some client) (loaded : app.client ⟨i, j⟩ = .ok client)
    (new : client.state = .new) : Moves env ⟨app, .clients i j⟩ := by
  have unknown : app.ptrOf h = none := by
    have seat := inv.fits.1 h _ (room_conn stored)
    have listed : h ∈ app.clients.keysFrom i j := by rw [todo]; exact List.mem_cons_self
    rw [← Option.not_isSome_iff_eq_none, ← user_isSome sound.toLaid]
    simpa [Sys.world, listed, new] using seat
  obtain ⟨app', ran, sound', room, trace, keyTable, _⟩ :=
    createUser_ok env sound (by rw [stored]; rfl) unknown
  refine ⟨⟨app', .clients i (j + 1)⟩, _, ?_, sound', trace, ?_⟩
  · simp only [step, turned, ok_bind, updateClient, loaded, new, sound.keyed h client stored, ran,
      pure_eq_ok]
  · show World.Step env ⟨.clients (app.clients.keysFrom i j), app.room⟩ _
      ⟨.clients (app'.clients.keysFrom i (j + 1)), app'.room⟩
    have rest : app'.clients.keysFrom i (j + 1) = app.clients.keysFrom i (j + 1) := by
      rw [Map.keysFrom, Map.keysFrom, keyTable]
    rw [todo, rest, room]
    refine .create _ app'.fromHandle.keys (room_conn stored) new
      (Map.keys_nodup handleEq_exact sound'.handles) fun k => ?_
    change k ∈ app'.room.roster ↔ _
    rw [mem_roster sound'.toLaid, ← user_isSome sound'.toLaid, room, mem_roster sound.toLaid,
      ← user_isSome sound.toLaid]
    show (Function.update app.room.user h _ k).isSome ↔ _
    rw [Function.update_apply]
    split
    · rename_i mine
      simp [mine]
    · rename_i apart
      simp [apart]

private theorem moves_remove (sound : app.Sound) (inv : World.Inv (Sys.world ⟨app, .clients i j⟩))
    (readable : Map.Readable env.quiet app.fromHandle) {h : Handle}
    (last : app.fromHandle.LastInBucket h)
    (turned : app.clients.turn env.quiet i j = .ok (.body ⟨i, j⟩))
    (todo : app.clients.keysFrom i j = h :: app.clients.keysFrom i (j + 1)) {client : Client}
    (stored : app.clientOf h = some client) (loaded : app.client ⟨i, j⟩ = .ok client)
    (flagged : client.state = .toBeRemoved) : Moves env ⟨app, .clients i j⟩ := by
  have known : (app.room.user h).isSome := by
    have seat := inv.fits.1 h _ (room_conn stored)
    have listed : h ∈ app.clients.keysFrom i j := by rw [todo]; exact List.mem_cons_self
    simpa [Sys.world, listed, flagged] using seat
  obtain ⟨user, seated⟩ := Option.isSome_iff_exists.mp known
  obtain ⟨p, held, live, keyed⟩ := room_user_eq_some sound.toLaid seated
  have formed := formed_of_room sound inv.linked inv.named
  obtain ⟨app', ran, removes, tables⟩ := removeUser_exact formed readable last held live
  refine ⟨⟨app', .clients i (j + 1)⟩, _, ?_, removes.sound, removes.trace, ?_⟩
  · simp only [step, turned, ok_bind, updateClient, loaded, flagged, sound.keyed h client stored, ran,
      pure_eq_ok]
  · show World.Step env ⟨.clients (app.clients.keysFrom i j), app.room⟩ _
      ⟨.clients (app'.clients.keysFrom i (j + 1)), app'.room⟩
    have rest : app'.clients.keysFrom i (j + 1) = app.clients.keysFrom i (j + 1) := by
      rw [Map.keysFrom, Map.keysFrom, tables.keyTable]
    rw [todo, rest, removal_room formed held live keyed removes]
    refine .remove app'.fromHandle.keys (room_conn stored) flagged seated
      (Map.keys_nodup handleEq_exact tables.handles) fun k => ?_
    change k ∈ app'.room.roster ↔ _
    rw [mem_roster removes.sound.toLaid, removes.ptrOf, mem_roster sound.toLaid, Function.update_apply]
    split
    · rename_i mine
      simp [mine]
    · rename_i apart
      simp [apart]

private theorem moves_clients (sound : app.Sound) (inv : World.Inv (Sys.world ⟨app, .clients i j⟩))
    (orderly : Orderly env ⟨app, .clients i j⟩) : Moves env ⟨app, .clients i j⟩ := by
  rcases Map.turn_keys sound.clients orderly.clients i j with
    ⟨h, turned, here, todo⟩ | ⟨turned, todo⟩ | ⟨turned, todo⟩
  · obtain ⟨client, stored, _, loaded⟩ := Map.entry_keyAt handleEq_exact sound.clients here
    cases state : client.state with
    | new => exact moves_create sound inv turned todo stored loaded state
    | toBeRemoved =>
      exact moves_remove sound inv orderly.handles (orderly.removes i j h client rfl here stored state)
        turned todo stored loaded state
    | online =>
      change app.client ⟨i, j⟩ = .ok client at loaded
      refine ⟨⟨app, .clients i (j + 1)⟩, [], ?_, sound, (List.append_nil _).symm, ?_⟩
      · simp only [step, turned, ok_bind, updateClient, loaded, state, pure_eq_ok]
      · show World.Step env ⟨.clients (app.clients.keysFrom i j), app.room⟩ _ _
        rw [todo]
        exact .keep (room_conn stored) state
  · refine ⟨⟨app, .clients (i + 1) 0⟩, [], ?_, sound, (List.append_nil _).symm, ?_⟩
    · simp only [step, turned, ok_bind, pure_eq_ok]
    · show World.Step env ⟨.clients (app.clients.keysFrom i j), app.room⟩ _ _
      rw [todo]
      exact .stutter _
  · refine ⟨⟨app, .sweep⟩, [], ?_, sound, (List.append_nil _).symm, ?_⟩
    · simp only [step, turned, ok_bind, pure_eq_ok]
    · show World.Step env ⟨.clients (app.clients.keysFrom i j), app.room⟩ _ _
      rw [todo]
      exact .done

private theorem moves_wait {polled : List Handle} (sound : app.Sound)
    (orderly : Orderly env ⟨app, .wait polled⟩) : Moves env ⟨app, .wait polled⟩ := by
  cases polling : env.poll with
  | error =>
    exact ⟨⟨app, .exited⟩, [], by simp only [step, polling, pure_eq_ok], sound,
      (List.append_nil _).symm, .quit polling⟩
  | timeout =>
    exact ⟨⟨app, .flush⟩, [], by simp only [step, polling, pure_eq_ok], sound,
      (List.append_nil _).symm, .calm polling⟩
  | ready listener =>
    have unmoved : checkListener env listener app = .ok app → Moves env ⟨app, .wait polled⟩ := by
      intro ran
      exact ⟨⟨app, .receive polled.tail⟩, [], by simp only [step, polling, ran, ok_bind, pure_eq_ok],
        sound, (List.append_nil _).symm, .ready listener polling⟩
    cases listener with
    | false => exact unmoved rfl
    | true =>
      rcases handleConn_ok sound fun fd opened named => orderly.fresh polled fd opened named rfl with
        ran | ⟨fd, app', accepting, absent, ran, sound', room, trace⟩
      · exact unmoved ran
      · refine ⟨⟨app', .receive polled.tail⟩, [.accepted fd], ?_, sound', trace, ?_⟩
        · have checked : checkListener env true app = .ok app' := ran
          simp only [step, polling, checked, ok_bind, pure_eq_ok]
        · show World.Step env ⟨.wait polled.tail, app.room⟩ _ ⟨.receive polled.tail, app'.room⟩
          rw [room]
          refine .accept polling accepting ?_
          show (app.clientOf fd).map _ = none
          rw [absent]
          rfl

private theorem moves_receive {todo : List Handle} (sound : app.Sound)
    (inv : World.Inv (Sys.world ⟨app, .receive todo⟩)) : Moves env ⟨app, .receive todo⟩ := by
  cases todo with
  | nil =>
    exact ⟨⟨app, .flush⟩, [], rfl, sound, (List.append_nil _).symm, .received⟩
  | cons h rest =>
    obtain ⟨_, known, _⟩ := inv.fits.2.2 h List.mem_cons_self
    obtain ⟨client, stored, _⟩ := client_of_conn known
    rcases receiveOne_ok env sound (by rw [stored]; rfl : (app.clientOf h).isSome) with
      ⟨silent, ran⟩ | ⟨conn, data, app', known, waiting, arrived, nonempty, ran, sound', room, trace⟩ |
        ⟨conn, app', known, ended, ran, sound', room, trace⟩
    · exact ⟨⟨app, .receive rest⟩, [], by simp only [step, ran, ok_bind, pure_eq_ok], sound,
        (List.append_nil _).symm, .skip silent⟩
    · refine ⟨⟨app', .receive rest⟩, _, by simp only [step, ran, ok_bind, pure_eq_ok], sound', trace, ?_⟩
      show World.Step env ⟨.receive (h :: rest), app.room⟩ _ ⟨.receive rest, app'.room⟩
      rw [room]
      exact .receive known waiting arrived nonempty
    · refine ⟨⟨app', .receive rest⟩, _, by simp only [step, ran, ok_bind, pure_eq_ok], sound', trace, ?_⟩
      show World.Step env ⟨.receive (h :: rest), app.room⟩ _ ⟨.receive rest, app'.room⟩
      rw [room]
      exact .hangUp known ended

/-- From a sound state in order, every operation of the main loop succeeds, and
is a step of the world. -/
theorem step_refines {sys : Sys} (sound : sys.app.Sound) (inv : sys.world.Inv)
    (orderly : Orderly env sys) : Moves env sys := by
  obtain ⟨app, point⟩ := sys
  cases point with
  | sweep =>
    obtain ⟨polled, gone, app', ran, sound', room, trace, once, all, goneOnce, goneAll⟩ :=
      sweep_ok sound orderly.clients (orderly.sweeps rfl)
    refine ⟨⟨app', .wait polled⟩, _, by simp only [step, ran, ok_bind, pure_eq_ok], sound', trace, ?_⟩
    show World.Step env ⟨.sweep, app.room⟩ _ ⟨.wait polled.tail, app'.room⟩
    rw [room]
    exact .sweep polled.tail gone once all goneOnce goneAll
  | wait polled => exact moves_wait sound orderly
  | receive todo => exact moves_receive sound inv
  | flush =>
    obtain ⟨app', ran, sound', room, trace⟩ := flush_ok sound orderly.within orderly.clients
    refine ⟨⟨app', .users 0 0⟩, [], by simp only [step, ran, ok_bind, pure_eq_ok], sound',
      by rw [trace, List.append_nil], ?_⟩
    show World.Step env ⟨.flush, app.room⟩ _ ⟨.users (app'.fromHandle.keysFrom 0 0), app'.room⟩
    rw [Map.keysFrom_start]
    change World.Step env ⟨.flush, app.room⟩ _ ⟨.users app'.room.roster, app'.room⟩
    rw [room]
    exact .flush
  | users i j => exact moves_users sound inv orderly.handles
  | clients i j => exact moves_clients sound inv orderly
  | exited => exact ⟨⟨app, .exited⟩, [], rfl, sound, (List.append_nil _).symm, .stutter _⟩

end Steps
end Operations

/-! ## Runs -/

/-- A sound state of the program, in a world in order. -/
structure Sys.Good (sys : Sys) : Prop where
  sound : sys.app.Sound
  inv : sys.world.Inv

section Start
variable (listener : Handle) (now : Int)

private theorem start_client (h : Handle) : (App.new listener now).clientOf h = none :=
  (Map.newReserve_sound (by decide)).2 h

private theorem start_ptr (h : Handle) : (App.new listener now).ptrOf h = none :=
  (Map.newReserve_sound (by decide)).2 h

private theorem start_name (name : Bytes) : (App.new listener now).named name = none :=
  (Map.newReserve_sound (by decide)).2 name

theorem start_conn (h : Handle) : (start listener now).app.room.conn h = none := by
  show ((App.new listener now).clientOf h).map _ = none
  rw [start_client]
  rfl

theorem start_user (h : Handle) : (start listener now).app.room.user h = none := by
  show ((App.new listener now).ptrOf h).bind _ = none
  rw [start_ptr]
  rfl

theorem start_owner (name : Bytes) : (start listener now).app.room.owner name = none := by
  show (((App.new listener now).named name).bind _).map User.handle = none
  rw [start_name]
  rfl

private theorem start_sound : (App.new listener now).Sound where
  clients := (Map.newReserve_sound (by decide)).1
  handles := (Map.newReserve_sound (by decide)).1
  names := (Map.newReserve_sound (by decide)).1
  keyed h client stored := nomatch (start_client listener now h).symm.trans stored
  linked h p held := nomatch (start_ptr listener now h).symm.trans held
  registered name p registered := nomatch (start_name listener now name).symm.trans registered

theorem start_good : (start listener now).Good := by
  have sound := start_sound listener now
  refine ⟨sound, ⟨Map.keys_nodup handleEq_exact sound.handles, fun h => ?_, ?_, ?_⟩, ⟨?_, ?_, ?_⟩, ?_⟩
  · exact (mem_roster sound.toLaid h).trans (user_isSome sound.toLaid h).symm
  · intro h user known
    exact nomatch (start_user listener now h).symm.trans known
  · intro h known
    change ((start listener now).app.room.user h).isSome at known
    rw [start_user] at known
    cases known
  · intro h user known
    exact nomatch (start_user listener now h).symm.trans known
  · intro h user known
    exact nomatch (start_user listener now h).symm.trans known
  · intro name h
    constructor
    · intro owned
      exact nomatch (start_owner listener now name).symm.trans owned
    · rintro ⟨user, known, _⟩
      exact nomatch (start_user listener now h).symm.trans known
  · intro h conn known
    exact nomatch (start_conn listener now h).symm.trans known

end Start

section Runs
variable {env : Env} {allowed : Env → Sys → Prop} {sys₀ sys : Sys}

/-- Along a run of orderly steps every state is good, and what the world's
steps preserve about its state and its events holds. -/
theorem run_follows (reached : Reaches step allowed sys₀ sys)
    (orderly : ∀ env sys, allowed env sys → Orderly env sys) (good : sys₀.Good)
    (held : World → List Event → Prop) (base : held sys₀.world sys₀.app.trace)
    (preserved : ∀ env sys events world', allowed env sys → sys.Good →
      World.Step env sys.world events world' → held sys.world sys.app.trace →
      held world' (sys.app.trace ++ events)) : sys.Good ∧ held sys.world sys.app.trace := by
  apply reached.invariant
  · exact ⟨good, base⟩
  rintro env before after granted ⟨good, now⟩ ran
  obtain ⟨sys', events, ran', sound, trace, stepped⟩ :=
    step_refines good.sound good.inv (orderly env before granted)
  rw [ran] at ran'
  cases ran'
  refine ⟨⟨sound, stepped.keeps good.inv⟩, ?_⟩
  rw [trace]
  exact preserved env before events _ granted good stepped now

theorem run_good (reached : Reaches step allowed sys₀ sys)
    (orderly : ∀ env sys, allowed env sys → Orderly env sys) (good : sys₀.Good) : sys.Good :=
  (run_follows reached orderly good (fun _ _ => True) trivial fun _ _ _ _ _ _ _ _ => trivial).1

/-- A trace only grows. -/
theorem trace_grows (reached : Reaches step allowed sys₀ sys)
    (orderly : ∀ env sys, allowed env sys → Orderly env sys) (good : sys₀.Good) :
    sys.app.trace = sys₀.app.trace ++ sys.app.trace.drop sys₀.app.trace.length := by
  obtain ⟨_, more, grown⟩ := run_follows reached orderly good
    (fun _ trace => ∃ more, trace = sys₀.app.trace ++ more) ⟨[], (List.append_nil _).symm⟩
    (by
      rintro env before events after _ _ _ ⟨more, grown⟩
      exact ⟨more ++ events, by rw [grown, List.append_assoc]⟩)
  rw [grown, List.drop_left]

/-- No step of such a run fails. -/
theorem run_never_fails (reached : Reaches step allowed sys₀ sys)
    (orderly : ∀ env sys, allowed env sys → Orderly env sys) (good : sys₀.Good)
    (granted : allowed env sys) : ∃ sys', step env sys = .ok sys' := by
  obtain ⟨sound, inv⟩ := run_good reached orderly good
  obtain ⟨sys', _, ran, _⟩ := step_refines sound inv (orderly env sys granted)
  exact ⟨sys', ran⟩

end Runs

/-! ## Checked runs -/

/-- A round in which a connection comes. -/
def Env.connects (fd : Handle) : Env :=
  { Env.idle with quiet := false, poll := .ready true, accept := .socket fd true true }

/-- A round in which bytes come. -/
def Env.brings (fd : Handle) (data : Bytes) : Env :=
  { Env.idle with
    quiet := false, poll := .ready false, pollin := fun h => h == fd, recv := fun _ => .data data }

/-- A round in which nothing comes. -/
def Env.pauses : Env := { Env.idle with quiet := false }

/-- A round in which a connection ends. -/
def Env.ends (fd : Handle) : Env := Env.brings fd []

/-- Answers of the system, each for a number of steps. -/
def rounds (script : List (Nat × Env)) : List Env :=
  script.flatMap fun turns => List.replicate turns.1 turns.2

theorem rounds_unsent {script : List (Nat × Env)}
    (unsent : script.Forall fun turns => ∀ h data, turns.2.send h data = none) :
    ∀ env ∈ rounds script, ∀ h data, env.send h data = none := by
  intro env member
  obtain ⟨turns, listed, inside⟩ := List.mem_flatMap.mp member
  rw [List.eq_of_mem_replicate inside]
  exact List.forall_iff_forall_mem.mp unsent turns listed

/-- The check of `Separate`, but for the bound on what `send` takes. -/
def separate (env : Env) (sys : Sys) : Bool :=
  (match sys.point, env.accept with
    | .wait _, .socket fd _ _ => (sys.app.clientOf fd).isNone
    | _, _ => true) &&
  decide (Map.Readable env.quiet sys.app.clients ∧ Map.Readable env.quiet sys.app.fromHandle ∧
    sys.app.clients.Unshared ∧ sys.app.fromHandle.Unshared)

theorem separate_of_check {env : Env} {sys : Sys} (unsent : ∀ h data, env.send h data = none)
    (checked : separate env sys = true) : Separate env sys := by
  rw [separate, Bool.and_eq_true, decide_eq_true_eq] at checked
  obtain ⟨fresh, clients, handles, apart⟩ := checked
  refine ⟨?_, ?_, clients, handles, apart⟩
  · intro polled fd nonblocking ntop waiting accepting
    rw [waiting, accepting] at fresh
    exact Option.isNone_iff_eq_none.mp fresh
  · intro h data n taken
    rw [unsent] at taken
    cases taken

/-- A checked run is a run in which `send` takes nothing. -/
theorem reaches_of_drive {inputs : List Env} {sys₀ sys : Sys}
    (unsent : ∀ env ∈ inputs, ∀ h data, env.send h data = none)
    (driven : drive step separate .assertion inputs sys₀ = .ok sys) : Reaches step Separate sys₀ sys :=
  drive_reaches (fun env member _ checked => separate_of_check (unsent env member) checked) driven

/-- The same with a further condition on each step. -/
theorem reaches_of_checked {inputs : List Env} {sys₀ sys : Sys} (further : Env → Sys → Prop)
    [∀ env sys, Decidable (further env sys)] (unsent : ∀ env ∈ inputs, ∀ h data, env.send h data = none)
    (driven : drive step (fun env sys => separate env sys && decide (further env sys)) .assertion inputs
      sys₀ = .ok sys) : Reaches step (fun env sys => Orderly env sys ∧ further env sys) sys₀ sys := by
  refine drive_reaches (fun env member before checked => ?_) driven
  rw [Bool.and_eq_true, decide_eq_true_eq] at checked
  exact ⟨(separate_of_check (unsent env member) checked.1).orderly, checked.2⟩

end AuroraComms
