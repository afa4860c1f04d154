import AuroraComms.Allocation
import AuroraComms.Growth

/-! Memory over whole runs: what each operation allocates it frees, or keeps for a
client or a user, except for the word of an unknown command. -/
namespace AuroraComms
open Meta Library.Run Library.Protocol Library.Resource

/-! ## One operation -/

section Operations
variable {env : Env} {app app' : App} {sys : Sys} {held : List Block} {h : Handle}

/-- The blocks there are, each once. -/
structure Accounted (sys : Sys) (held : List Block) : Prop where
  once : held.Nodup
  all : ∀ b, b ∈ held ↔ sys.keeps b

/-- Whoever the table of users leads to may be read. -/
theorem Accounted.people {point : Point} (accounted : Accounted ⟨app, point⟩ held) (laid : app.Laid) :
    Manages held app.people held := by
  refine Obeys.pieces fun h _ => Obeys.pieces fun p listed => ?_
  obtain ⟨user, live, _⟩ := laid.linked h p (Option.mem_toList.mp listed)
  have there : (app.userAt p).isSome := by rw [live]; rfl
  exact (use_held ((accounted.all (.user p)).mpr there)).append
    (use_held ((accounted.all (.username p)).mpr there))

/-- What a line takes beside the answer is given back, but for the word of an
unknown command. -/
theorem answerMemory_manages {user : User} {line : Bytes} {days : Int} {room : Room} {place : Nat}
    (sound : app.Sound) (owners : room.owner = app.room.owner) (users : room.user = app.room.user)
    (ready : Ready (room.speak days user line).2 held) (source : .line ∈ held) (newWord : .word place ∉ held)
    (noRecipient : .recipient ∉ held) (noMsg : .msg ∉ held) : ∃ acts held',
      answerMemory place user line app ((room.speak days user line).2.flatMap Event.memory) = .ok acts ∧
        Manages held acts held' ∧
        (Unanswered user.handle line (room.speak days user line).2 ∧ held' = .word place :: held ∨
          ¬ Unanswered user.handle line (room.speak days user line).2 ∧ held' = held) := by
  unfold answerMemory
  by_cases asked : user.state = .chat ∧ isCommand line = true
  · rw [if_pos asked]
    have filled : line ≠ [] := by
      rintro rfl
      cases asked.2
    have said : (room.speak days user line).2 = (room.command days user line).2 := by
      simp [Room.speak, asked.1, asked.2, filled]
    rw [said] at ready
    obtain ⟨acts, held', computed, manages, ⟨more, unknown, lost⟩ | ⟨known, kept⟩⟩ :=
      commandMemory_manages days sound owners users ready source newWord noRecipient noMsg
    all_goals rw [← said] at computed
    · refine ⟨acts, held', computed, manages, .inl ⟨⟨?_, more, unknown⟩, lost⟩⟩
      rw [unknown_answered days room user asked.1 asked.2 unknown]
      rfl
    · exact ⟨acts, held', computed, manages, .inr ⟨fun lost => known lost.2.1 lost.2.2, kept⟩⟩
  · rw [if_neg asked]
    have parts : ∀ e ∈ (room.speak days user line).2, ∀ b ∈ e.parts, b ∈ held := fun e member b part => by
      rw [speak_parts days room asked e member b part]
      exact source
    refine ⟨_, held, rfl, ready.manages parts, .inr ⟨fun lost => asked ?_, rfl⟩⟩
    exact help_asked days room user line (List.mem_of_head? lost.1)

/-- A line is read and answered with memory that is given back, but for the word of
an unknown command. -/
theorem Accounted.turn {point : Point} (accounted : Accounted ⟨app, point⟩ held) (sound : app.Sound)
    (seated : app.Seated) {s : Slot} (here : app.fromHandle.keyAt s = some h) {days : Int}
    (fed : app.Feeds (app.room.turn days h).2) :
    ∃ acts held', turnMemory s app (app.room.turn days h).2 = .ok acts ∧ Manages held acts held' ∧
      ∀ b, b ∈ held' ↔
        b ∈ held ∨ ∃ place, b = .word place ∧ Forgotten (app.trace ++ (app.room.turn days h).2) place := by
  obtain ⟨p, user, _, read, known_at, live, rfl, known⟩ := user_at sound.toLaid here
  have loaded := App.user_of_userAt live
  have people := accounted.people sound.toLaid
  have noLine : .line ∉ held := (accounted.all .line).mp
  have input : .input user.handle ∈ .line :: held :=
    List.mem_cons_of_mem _ ((accounted.all (.input _)).mpr (seated _ (by rw [known_at]; rfl)))
  have old : ∀ place, Forgotten app.trace place → .word place ∈ held :=
    fun place => (accounted.all (.word place)).mpr
  unfold turnMemory
  simp only [read, loaded, ok_bind]
  rcases app.room.turn_cases days user.handle with ⟨_, same⟩ | ⟨speaker, conn, line, rest, spoke, _, _, took⟩
  · rw [same]
    refine ⟨_, held, rfl, people.append (borrows noLine (use_held input)),
      fun b => ⟨.inl, fun kept => kept.elim id ?_⟩⟩
    rintro ⟨place, rfl, forgot⟩
    rw [List.append_nil] at forgot
    exact old place forgot
  obtain rfl : user = speaker := Option.some.inj (known.symm.trans spoke)
  rw [took] at fed ⊢
  obtain ⟨room, owners, users, same⟩ : ∃ room, room.owner = app.room.owner ∧ room.user = app.room.user ∧
      app.room.setConn user.handle { conn with inBuf := rest } = room := ⟨_, rfl, rfl, rfl⟩
  rw [same] at fed ⊢
  have talks := room.speak_talk days user line
  have absent : ∀ {b : Block}, b ≠ .line → b ∉ held → b ∉ .line :: held :=
    fun other outside inside => (List.mem_cons.mp inside).elim other outside
  have ready : Ready (room.speak days user line).2 (.line :: held) := by
    refine ⟨fun e member => .inl (talks e member), absent (by simp) (accounted.all .out).mp,
      fun e member k told => List.mem_cons_of_mem _ ?_⟩
    exact (accounted.all (.output k)).mpr (fed e (List.mem_cons_of_mem _ member) k told)
  have handled : Manages (.line :: held) [.use (.input user.handle), .use .line] (.line :: held) :=
    (use_held input).append (use_held List.mem_cons_self)
  have newWord : .word app.trace.length ∉ held := fun inside =>
    Nat.lt_irrefl _ (forgotten_lt ((accounted.all (.word app.trace.length)).mp inside))
  obtain ⟨acts, held', computed, manages, outcome⟩ := answerMemory_manages sound owners users ready
    List.mem_cons_self (absent (by simp) newWord) (absent (by simp) (accounted.all .recipient).mp)
    (absent (by simp) (accounted.all .msg).mp)
  simp only [computed, ok_bind]
  rcases outcome with ⟨lost, rfl⟩ | ⟨remembered, rfl⟩
  · have back : Manages (.word app.trace.length :: .line :: held) [.release .line]
        (.word app.trace.length :: held) := release_under (by simp)
    have kept : Manages held ([.acquire .line] ++ [.use (.input user.handle), .use .line] ++ acts ++
        [.release .line]) (.word app.trace.length :: held) :=
      .read (if_neg noLine) ((handled.append manages).append back)
    refine ⟨_, .word app.trace.length :: held, rfl, people.append kept, fun b => ?_⟩
    simp only [List.mem_cons, forgotten_line talks]
    constructor
    · rintro (rfl | inside)
      · exact .inr ⟨_, rfl, .inr ⟨rfl, lost⟩⟩
      · exact .inl inside
    · rintro (inside | ⟨place, rfl, before | ⟨rfl, _⟩⟩)
      · exact .inr inside
      · exact .inr (old place before)
      · exact .inl rfl
  · refine ⟨_, held, rfl, people.append (borrows noLine (handled.append manages)),
      fun b => ⟨.inl, fun kept => kept.elim id ?_⟩⟩
    rintro ⟨place, rfl, forgot⟩
    obtain before | ⟨_, lost⟩ := (forgotten_line talks place).mp forgot
    · exact old place before
    · exact absurd lost remembered

/-- An operation that neither allocates nor frees what is kept. -/
theorem Accounted.still {point point' : Point} {events : List Event} (accounted : Accounted ⟨app, point⟩ held)
    (polls : point'.polls = point.polls) (connected : ∀ h, (app'.clientOf h).isSome = (app.clientOf h).isSome)
    (live : SameLive app app') (grown : app'.trace = app.trace ++ events) (aside : ∀ e ∈ events, e.isAside)
    (b : Block) : b ∈ held ↔ Sys.keeps ⟨app', point'⟩ b := by
  rw [accounted.all]
  cases b with
  | polled => simp only [Sys.keeps, polls]
  | input h | output h => simp only [Sys.keeps, connected]
  | user p | username p => simp only [Sys.keeps, live p]
  | word place => simp only [Sys.keeps, grown, forgotten_still aside]
  | line | recipient | msg | out => rfl

theorem Accounted.moves {point : Point} (accounted : Accounted ⟨app, point⟩ held) (point' : Point)
    (polls : point'.polls = point.polls) (b : Block) : b ∈ held ↔ Sys.keeps ⟨app, point'⟩ b :=
  accounted.still polls (fun _ => rfl) (fun _ => rfl) (List.append_nil _).symm nofun b

/-- The users there are may be told of those who come and go. -/
theorem Accounted.ready (accounted : Accounted sys held) {events : List Event}
    (told : ∀ e ∈ events, e.isTold) (fed : sys.app.Feeds events) : Ready events held where
  told := told
  free := (accounted.all .out).mp
  fed e member h told := (accounted.all (.output h)).mpr (fed e member h told)

theorem Accounted.sweep {polled : List Handle} (accounted : Accounted ⟨app, .sweep⟩ held) (wired : app.Wired)
    (ran : sweep env app = .ok (polled, app')) :
    ∃ events held', app'.trace = app.trace ++ events ∧
      Manages held ([.acquire .polled, .use .polled] ++ events.flatMap Event.memory) held' ∧
      ∀ b, b ∈ held' ↔ Sys.keeps ⟨app', .wait polled⟩ b := by
  obtain ⟨gone, closes⟩ := sweep_closes wired ran
  have noPolled : .polled ∉ held := by
    rw [accounted.all]
    simp [Sys.keeps, Point.polls]
  let arrays : Handle → List Block := fun h => [.input h, .output h]
  have once : (gone.flatMap arrays).Nodup := by
    refine List.nodup_flatMap.mpr ⟨fun h _ => by simp [arrays], closes.once.imp fun {h k} apart => ?_⟩
    simp [Function.onFun, arrays, List.disjoint_left, apart]
  have member : ∀ b, b ∈ gone.flatMap arrays ↔ ∃ h ∈ gone, b = .input h ∨ b = .output h := by
    simp [arrays, List.mem_flatMap]
  have here : ∀ b ∈ gone.flatMap arrays, b ∈ .polled :: held := by
    intro b listed
    obtain ⟨h, goes, rfl | rfl⟩ := (member b).mp listed
    · exact List.mem_cons_of_mem _ ((accounted.all (.input h)).mpr (closes.connected h goes))
    · exact List.mem_cons_of_mem _ ((accounted.all (.output h)).mpr (closes.connected h goes))
  obtain ⟨held', released, left⟩ := releases_held once here (List.nodup_cons.mpr ⟨noPolled, accounted.once⟩)
  have noted : (gone.map Event.closed).flatMap Event.memory = (gone.flatMap arrays).map Act.release := by
    rw [List.flatMap_map, List.map_flatMap]
    rfl
  have filled : Manages (.polled :: held) [.use .polled] (.polled :: held) := use_held List.mem_cons_self
  refine ⟨gone.map .closed, held', closes.trace,
    .read (if_neg noPolled) (filled.append (by rw [noted]; exact released)), ?_⟩
  have live := (sweep_sameUsers ran).live
  have silent : ∀ place, Forgotten app'.trace place ↔ Forgotten app.trace place := fun place => by
    rw [closes.trace]
    exact forgotten_still (by simp [Event.isAside, Event.isHelp, Event.isHandled]) place
  intro b
  rw [left, member, List.mem_cons, accounted.all]
  cases b with
  | polled => simp [Sys.keeps, Point.polls]
  | input h | output h =>
    simp only [Sys.keeps, closes.left]
    simp
  | user p | username p =>
    simp only [Sys.keeps]
    rw [live]
    simp
  | word place =>
    simp only [Sys.keeps, silent]
    simp
  | line | recipient | msg | out => simp [Sys.keeps]

/-- A connection that is entered comes with two empty arrays. -/
theorem Accounted.connect {polled : List Handle} (accounted : Accounted ⟨app, .wait polled⟩ held)
    (wired : app.Wired) (fresh : ∀ fd, env.accept = .socket fd true true → app.clientOf fd = none)
    (ran : handleConn env app = .ok app') :
    ∃ events held', app'.trace = app.trace ++ events ∧
      Manages held ([.use .polled] ++ events.flatMap Event.memory) held' ∧
      ∀ b, b ∈ held' ↔ Sys.keeps ⟨app', .receive polled.tail⟩ b := by
  have live := (handleConn_sameUsers ran).live
  have polls : Manages held [.use .polled] held := use_held ((accounted.all .polled).mpr rfl)
  obtain rfl | ⟨fd, accepting, _, _, found, _, trace⟩ := handleConn_enters wired ran
  · exact ⟨[], held, (List.append_nil _).symm, polls, accounted.moves (.receive polled.tail) rfl⟩
  · have unknown : (app.clientOf fd).isSome = false := by rw [fresh fd accepting]; rfl
    have noInput : .input fd ∉ held := by
      rw [accounted.all]
      simp [Sys.keeps, unknown]
    have noOutput : .output fd ∉ .input fd :: held := by
      rw [List.mem_cons, accounted.all]
      simp [Sys.keeps, unknown]
    refine ⟨[.accepted fd], .output fd :: .input fd :: held, trace,
      polls.append (.read (if_neg noInput) (.one (if_neg noOutput))), fun b => ?_⟩
    have connected : ∀ h, (app'.clientOf h).isSome ↔ h = fd ∨ (app.clientOf h).isSome := by
      intro h
      rw [found, Function.update_apply]
      split
      · rename_i mine
        simp [mine]
      · rename_i apart
        simp [apart]
    have silent : ∀ place, Forgotten app'.trace place ↔ Forgotten app.trace place := fun place => by
      rw [trace]
      exact forgotten_still (by simp [Event.isAside, Event.isHelp, Event.isHandled]) place
    simp only [List.mem_cons, accounted.all]
    cases b with
    | polled => simp [Sys.keeps, Point.polls]
    | input h | output h => simp [Sys.keeps, connected]
    | user p | username p => simp [Sys.keeps, live p]
    | word place => simp [Sys.keeps, silent]
    | line | recipient | msg | out => simp [Sys.keeps]

theorem Accounted.receive {fd : Handle} {rest : List Handle}
    (accounted : Accounted ⟨app, .receive (fd :: rest)⟩ held) (wired : app.Wired)
    (connected : (app.clientOf fd).isSome) (ran : receiveOne env fd app = .ok app') :
    ∃ events, app'.trace = app.trace ++ events ∧
      Manages held ([.use .polled] ++ events.flatMap Event.memory) held ∧
      ∀ b, b ∈ held ↔ Sys.keeps ⟨app', .receive rest⟩ b := by
  obtain ⟨events, charged, noted⟩ := receiveOne_charges wired ran
  have filled : Manages held (events.flatMap Event.memory) held := by
    refine Obeys.pieces fun e member => ?_
    obtain rfl | ⟨data, rfl⟩ := noted e member
    · exact .done held
    · exact use_held ((accounted.all (.input fd)).mpr connected)
  have aside : ∀ e ∈ events, e.isAside := by
    intro e member
    obtain rfl | ⟨data, rfl⟩ := noted e member <;> exact ⟨rfl, rfl⟩
  exact ⟨events, charged.trace, (use_held ((accounted.all .polled).mpr rfl)).append filled,
    accounted.still rfl (isSome_of_outOf charged) (receiveOne_sameUsers ran).live charged.trace aside⟩

theorem Accounted.flush (accounted : Accounted ⟨app, .flush⟩ held) (wired : app.Wired)
    (ran : flush env app = .ok app') (quiet : app'.trace = app.trace) :
    ∃ made held', flushCalling env app = .ok (made, app') ∧
      Manages held ([.release .polled] ++ app.outputs ++ made.flatMap Syscall.memory) held' ∧
      ∀ b, b ∈ held' ↔ Sys.keeps ⟨app', .users 0 0⟩ b := by
  have image : (flushCalling env app).map Prod.snd = AuroraComms.flush env app := flushCalling_snd app
  rw [ran] at image
  obtain ⟨⟨made, after⟩, calling, same⟩ := map_eq_ok.mp image
  obtain rfl : app' = after := same.symm
  have outgoing := flushCalling_sends wired calling
  have freed : Manages held [.release .polled] (held.erase .polled) :=
    release_held ((accounted.all .polled).mpr rfl)
  have kept : ∀ b, b ∈ held.erase .polled ↔ b ∈ held ∧ b ≠ .polled := fun b => by
    rw [accounted.once.mem_erase_iff, and_comm]
  have still : ∀ b, b ∈ held ↔ Sys.keeps ⟨app', .flush⟩ b := accounted.still rfl outgoing.present
    (flush_sameUsers ran).live (quiet.trans (List.append_nil _).symm) nofun
  have there : ∀ h, (app.clientOf h).isSome → .output h ∈ held.erase .polled := fun h known =>
    (kept (.output h)).mpr ⟨(accounted.all (.output h)).mpr known, by simp⟩
  have measured : Manages (held.erase .polled) app.outputs (held.erase .polled) := by
    refine Obeys.still fun e member => ?_
    obtain ⟨h, listed, rfl⟩ := List.mem_map.mp member
    exact if_pos (there h ((Map.mem_keys handleEq_exact wired.clients).mp listed))
  refine ⟨made, held.erase .polled, calling,
    (freed.append measured).append (Obeys.pieces fun call member => ?_), fun b => ?_⟩
  · obtain ⟨h, data, rfl, known⟩ := outgoing.made call member
    exact use_held (there h known)
  · rw [kept, still]
    cases b with
    | polled => simp [Sys.keeps, Point.polls]
    | _ => simp [Sys.keeps]

theorem Accounted.update {i j : Nat} {s : Slot} (accounted : Accounted ⟨app, .users i j⟩ held)
    (sound : app.Sound) (seated : app.Seated) (readable : Map.Readable env.quiet app.fromHandle)
    (here : app.fromHandle.keyAt s = some h) (ran : updateUser env s app = .ok app') :
    ∃ events acts held', app'.trace = app.trace ++ events ∧ turnMemory s app events = .ok acts ∧
      Manages held acts held' ∧ ∀ b, b ∈ held' ↔ Sys.keeps ⟨app', .users i (j + 1)⟩ b := by
  obtain ⟨_, again, acted⟩ := updateUser_acts sound seated readable here
  obtain rfl : app' = _ := Except.ok.inj (ran.symm.trans again)
  obtain ⟨p, user, _, _, worked⟩ := updateUser_effects ran
  obtain ⟨events, charged, fed⟩ : ∃ events, Charges env events app app' ∧ app.Feeds events := by
    rcases worked with path | confirms
    · exact path.feeds sound.wired
    · exact confirms.feeds sound.wired
  obtain rfl : events = _ := List.append_cancel_left (charged.trace.symm.trans acted.trace)
  obtain ⟨acts, held', computed, manages, kept⟩ := accounted.turn sound seated here fed
  refine ⟨_, acts, held', acted.trace, computed, manages, fun b => ?_⟩
  rw [kept, accounted.all]
  cases b with
  | polled => simp [Sys.keeps, Point.polls]
  | input k | output k => simp [Sys.keeps, isSome_of_outOf charged]
  | user q | username q => simp [Sys.keeps, updateUser_live ran q]
  | word place =>
    simp only [Sys.keeps, acted.trace, Block.word.injEq, exists_eq_left']
    exact or_iff_right_of_imp Forgotten.later
  | line | recipient | msg | out => simp [Sys.keeps]

/-- What the loop over the clients notes is told to users. -/
theorem clients_told {world world' : World} {events : List Event} {todo : List Handle}
    (stepped : World.Step env world events world') (here : world.stage = .clients todo) :
    Wordless events ∧ ∀ e ∈ events, e.isTold ∧ e.isAside := by
  cases stepped with
  | create =>
    simp [frame, Wordless, Event.parts, Msg.parts, Event.isTold, Event.isTalk, Event.isPrint, Event.memory,
      Event.isAside, Event.isHelp, Event.isHandled]
  | @remove _ room h _ user roster =>
    have all : ∀ e ∈ Event.userRemoved h :: farewells room roster user.username,
        e.parts = [] ∧ e.isTold ∧ e.isAside := by
      intro e member
      rcases List.mem_cons.mp member with rfl | inside
      · exact ⟨rfl, .inr rfl, rfl, rfl⟩
      · obtain ⟨k, _, _, inside⟩ := mem_frames (fun h => room.inChat h = true) inside
        rcases List.mem_pair.mp inside with rfl | rfl <;> exact ⟨rfl, .inl rfl, rfl, rfl⟩
    exact ⟨fun e member => (all e member).1, fun e member => (all e member).2⟩
  | keep | done | stutter => simp [Wordless]
  | _ => cases here

theorem Accounted.create {i j : Nat} {events : List Event} (accounted : Accounted ⟨app, .clients i j⟩ held)
    (wired : app.Wired) (ran : createUser env h app = .ok app') (grown : app'.trace = app.trace ++ events)
    (wordless : Wordless events) (told : ∀ e ∈ events, e.isTold ∧ e.isAside) :
    ∃ held', Manages held ([.acquire (.user app.heap.length), .acquire (.username app.heap.length),
        .use (.user app.heap.length)] ++ events.flatMap Event.memory) held' ∧
      ∀ b, b ∈ held' ↔ Sys.keeps ⟨app', .clients i (j + 1)⟩ b := by
  obtain ⟨_, charged, fed⟩ := (createUser_effects ran).feeds wired
  obtain rfl := List.append_cancel_left (charged.trace.symm.trans grown)
  have unused : (app.userAt app.heap.length).isSome = false := by simp [App.userAt]
  have noUser : .user app.heap.length ∉ held := by
    rw [accounted.all]
    simp [Sys.keeps, unused]
  have noName : .username app.heap.length ∉ .user app.heap.length :: held := by
    rw [List.mem_cons, accounted.all]
    simp [Sys.keeps, unused]
  have ready := ((accounted.ready (fun e member => (told e member).1) fed).beside
    (b := .user app.heap.length) (by simp)).beside (b := .username app.heap.length) (by simp)
  have seen : Manages (.username app.heap.length :: .user app.heap.length :: held) [.use (.user app.heap.length)]
      (.username app.heap.length :: .user app.heap.length :: held) :=
    use_held (List.mem_cons_of_mem _ List.mem_cons_self)
  have greeted := seen.append (ready.manages_wordless wordless)
  refine ⟨_, .read (if_neg noUser) (.read (if_neg noName) greeted), fun b => ?_⟩
  simp only [List.mem_cons, accounted.all]
  cases b with
  | polled => simp [Sys.keeps, Point.polls]
  | input k | output k => simp [Sys.keeps, isSome_of_outOf charged]
  | user q | username q => simp [Sys.keeps, createUser_live ran q, or_comm]
  | word place =>
    simp [Sys.keeps, charged.trace, forgotten_still fun e member => (told e member).2]
  | line | recipient | msg | out => simp [Sys.keeps]

theorem Accounted.remove {i j : Nat} {events : List Event} (accounted : Accounted ⟨app, .clients i j⟩ held)
    (sound : app.Sound) (ran : removeUser env h app = .ok app') (grown : app'.trace = app.trace ++ events)
    (wordless : Wordless events) (told : ∀ e ∈ events, e.isTold ∧ e.isAside) :
    ∃ gone q held', app.fromHandle.get handleHash handleEq h = .ok gone ∧ app'.fromHandle.val gone = .ok q ∧
      Manages held (app.people ++ events.flatMap Event.memory ++
        [.release (.username q), .release (.user q)]) held' ∧
      ∀ b, b ∈ held' ↔ Sys.keeps ⟨app', .clients i (j + 1)⟩ b := by
  have path : Effects env h app app' := removeUser_effects ran
  obtain ⟨_, charged, fed⟩ := path.feeds sound.wired
  obtain rfl := List.append_cancel_left (charged.trace.symm.trans grown)
  obtain ⟨gone, q, found, last, there, live⟩ := removeUser_live ran
  have here : ∀ b ∈ [Block.username q, .user q], b ∈ held := by
    intro b member
    rcases List.mem_pair.mp member with rfl | rfl <;> exact (accounted.all _).mpr there
  obtain ⟨held', freed, left⟩ := releases_held (by simp) here accounted.once
  have ready := accounted.ready (fun e member => (told e member).1) fed
  have told_all := (accounted.people sound.toLaid).append (ready.manages_wordless wordless)
  refine ⟨gone, q, held', found, last, told_all.append freed, fun b => ?_⟩
  rw [left, accounted.all]
  cases b with
  | polled => simp [Sys.keeps, Point.polls]
  | input k | output k => simp [Sys.keeps, isSome_of_outOf charged]
  | user r | username r => simp [Sys.keeps, live]
  | word place =>
    simp [Sys.keeps, charged.trace, forgotten_still fun e member => (told e member).2]
  | line | recipient | msg | out => simp [Sys.keeps]

/-- Every operation manages its memory. -/
theorem Accounted.step {sys' : Sys} (accounted : Accounted sys held) (good : sys.Good) (orderly : Orderly env sys)
    (ran : step env sys = .ok sys') :
    ∃ acts held', memory env sys sys' = .ok acts ∧ Manages held acts held' ∧ Accounted sys' held' := by
  obtain ⟨_, noted, again, _, grown, moved⟩ := step_refines good.sound good.inv orderly
  obtain rfl : sys' = _ := Except.ok.inj (ran.symm.trans again)
  have sound := good.sound
  have wired := sound.wired
  have seated := sound.seated good.inv.linked
  obtain ⟨app, point⟩ := sys
  have done : ∀ {acts held'}, memory env ⟨app, point⟩ sys' = .ok acts → Manages held acts held' →
      (∀ b, b ∈ held' ↔ sys'.keeps b) →
      ∃ acts held', memory env ⟨app, point⟩ sys' = .ok acts ∧ Manages held acts held' ∧ Accounted sys' held' :=
    fun computed manages all => ⟨_, _, computed, manages, manages.nodup accounted.once, all⟩
  cases point with
  | sweep =>
    obtain ⟨⟨polled, swept⟩, sweeping, same⟩ := bind_eq_ok.mp ran
    cases same
    obtain ⟨events, held', trace, manages, all⟩ := accounted.sweep wired sweeping
    exact done (by simp only [memory, trace_dropped trace]) manages all
  | wait polled =>
    have polls : Manages held [.use .polled] held := use_held ((accounted.all .polled).mpr rfl)
    cases polling : env.poll with
    | error =>
      simp only [AuroraComms.step, polling] at ran
      cases ran
      exact done (by simp [memory]) polls (accounted.moves .exited rfl)
    | timeout =>
      simp only [AuroraComms.step, polling] at ran
      cases ran
      exact done (by simp [memory]) polls (accounted.moves .flush rfl)
    | ready listening =>
      simp only [AuroraComms.step, polling] at ran
      obtain ⟨connected, connecting, same⟩ := bind_eq_ok.mp ran
      cases same
      cases listening with
      | false =>
        cases connecting
        exact done (by simp [memory]) polls (accounted.moves (.receive polled.tail) rfl)
      | true =>
        obtain ⟨events, held', trace, manages, all⟩ :=
          accounted.connect wired (fun fd => orderly.fresh polled fd true true rfl) connecting
        exact done (by simp only [memory, trace_dropped trace]) manages all
  | receive todo =>
    cases todo with
    | nil =>
      cases ran
      have polls : Manages held [.use .polled] held := use_held ((accounted.all .polled).mpr rfl)
      exact done (by simp [memory]) polls (accounted.moves .flush rfl)
    | cons fd rest =>
      obtain ⟨received, receiving, same⟩ := bind_eq_ok.mp ran
      cases same
      obtain ⟨_, known, _⟩ := good.inv.fits.2.2 fd List.mem_cons_self
      obtain ⟨client, stored, _⟩ := client_of_conn known
      obtain ⟨events, trace, manages, all⟩ := accounted.receive wired (by rw [stored]; rfl) receiving
      exact done (by simp only [memory, trace_dropped trace]) manages all
  | flush =>
    obtain ⟨flushed, flushing, same⟩ := bind_eq_ok.mp ran
    cases same
    have quiet : flushed.trace = app.trace := by
      obtain ⟨_, again, _, _, trace⟩ := flush_ok sound orderly.within orderly.clients
      rw [Except.ok.inj (flushing.symm.trans again), trace]
    obtain ⟨made, held', calling, manages, all⟩ := accounted.flush wired flushing quiet
    exact done (by simp only [memory, calling, ok_bind, pure_eq_ok]) manages all
  | users i j =>
    obtain ⟨next, turned, ran⟩ := bind_eq_ok.mp ran
    cases next with
    | done =>
      cases ran
      exact done (by simp only [memory, turned, ok_bind, pure_eq_ok]) (.done held) (accounted.moves _ rfl)
    | nextBkt =>
      cases ran
      exact done (by simp only [memory, turned, ok_bind, pure_eq_ok]) (.done held) (accounted.moves _ rfl)
    | body s =>
      obtain ⟨updated, updating, same⟩ := bind_eq_ok.mp ran
      cases same
      obtain ⟨rfl, h, here⟩ := Map.turn_body sound.handles turned
      obtain ⟨events, acts, held', trace, computed, manages, all⟩ :=
        accounted.update sound seated orderly.handles here updating
      exact done (by simp only [memory, turned, ok_bind, trace_dropped trace, computed]) manages all
  | clients i j =>
    obtain ⟨next, turned, ran⟩ := bind_eq_ok.mp ran
    cases next with
    | done =>
      cases ran
      exact done (by simp only [memory, turned, ok_bind, pure_eq_ok]) (.done held) (accounted.moves _ rfl)
    | nextBkt =>
      cases ran
      exact done (by simp only [memory, turned, ok_bind, pure_eq_ok]) (.done held) (accounted.moves _ rfl)
    | body s =>
      obtain ⟨updated, updating, same⟩ := bind_eq_ok.mp ran
      cases same
      obtain ⟨wordless, told⟩ := clients_told moved rfl
      obtain ⟨client, loaded, updating⟩ := bind_eq_ok.mp updating
      cases state : client.state with
      | new =>
        simp only [state] at updating
        obtain ⟨held', manages, all⟩ := accounted.create wired updating grown wordless told
        exact done (by simp only [memory, turned, ok_bind, clientMemory, loaded, state, trace_dropped grown,
          pure_eq_ok]) manages all
      | toBeRemoved =>
        simp only [state] at updating
        obtain ⟨gone, q, held', found, last, manages, all⟩ := accounted.remove sound updating grown wordless told
        exact done (by simp only [memory, turned, ok_bind, clientMemory, loaded, state, trace_dropped grown,
          found, last, pure_eq_ok]) manages all
      | online =>
        simp only [state] at updating
        cases updating
        exact done (by simp only [memory, turned, ok_bind, clientMemory, loaded, state, pure_eq_ok])
          (.done held) (accounted.moves _ rfl)
  | exited =>
    cases ran
    exact done rfl (.done held) accounted.all

end Operations

/-! ## No object is lost -/

section Roots
variable {env : Env} {app app' : App} {sys sys' : Sys} {h : Handle} {s : Slot}

end Roots

/-! ## Whole runs -/

section Runs
variable {env : Env} {listener : Handle} {now : Int} {taken : Footprint}

end Runs
end AuroraComms
