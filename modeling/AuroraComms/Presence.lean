import AuroraComms.Refinement

/-! What an observer in the chat is told about who comes and who goes. A notice
follows the line or the removal it is about; between them the observer can keep
the list of names that are taken. -/
namespace AuroraComms
open Meta Library.Run

/-! ## The observer -/

/-- Who is present under which name, as an observer knows it, and whose line or
whose removal the trace has reached. -/
structure Gallery where
  present : Bytes → Option Handle
  speaking : Option Handle
  leaving : Option Handle

/-- A notice to the observer `o`. A join has to be of the user that just spoke,
under an absent name; a leave of the user that was just removed, under its name. -/
def Gallery.told (o : Handle) (gallery : Gallery) : Msg → Option Gallery
  | .joins name =>
    match gallery.speaking, gallery.present name with
    | some h, none =>
      if h = o then none
      else some { gallery with present := Function.update gallery.present name (some h) }
    | _, _ => none
  | .left name =>
    match gallery.leaving with
    | some h =>
      if h ≠ o ∧ gallery.present name = some h then
        some { gallery with present := Function.update gallery.present name none }
      else none
    | none => none
  | _ => some gallery

def Gallery.after (o : Handle) (gallery : Gallery) : Event → Option Gallery
  | .handled h _ _ => some { gallery with speaking := some h, leaving := none }
  | .userRemoved h => some { gallery with speaking := none, leaving := some h }
  | .printed k _ msg => if k = o then gallery.told o msg else some gallery
  | _ => some gallery

/-- The observer along a trace; `none` when a notice does not fit. -/
def watch (o : Handle) (gallery : Gallery) (events : List Event) : Option Gallery :=
  events.foldlM (Gallery.after o) gallery

section Watch
variable {o : Handle} {gallery : Gallery} {events : List Event}

theorem watch_append (more : List Event) :
    watch o gallery (events ++ more) = (watch o gallery events).bind (watch o · more) := by
  rw [watch, List.foldlM_append]
  rfl

theorem watch_cons (e : Event) :
    watch o gallery (e :: events) = (gallery.after o e).bind (watch o · events) := by
  rw [watch, List.foldlM_cons]
  rfl

theorem watch_unheard (unheard : ∀ e ∈ events, gallery.after o e = some gallery) :
    watch o gallery events = some gallery := by
  induction events with
  | nil => rfl
  | cons e rest ih =>
    rw [watch_cons, unheard e List.mem_cons_self]
    exact ih fun other member => unheard other (List.mem_cons_of_mem _ member)

theorem plain_unheard (plain : ∀ e ∈ events, e.isPlain = true) :
    ∀ e ∈ events, gallery.after o e = some gallery := by
  intro e member
  have plainly := plain e member
  cases e with
  | printed k action msg =>
    have same : gallery.told o msg = some gallery := by
      cases msg with
      | joins | left => cases plainly
      | _ => rfl
    show (if k = o then gallery.told o msg else some gallery) = some gallery
    rw [same, ite_self]
  | sent | prompted => rfl
  | _ => cases plainly

theorem frame_unheard {k : Handle} (other : k ≠ o) (action : Print) (msg : Msg) :
    watch o gallery (frame k action msg) = some gallery := by
  refine watch_unheard fun e member => ?_
  simp only [frame, List.mem_cons, List.not_mem_nil, or_false] at member
  rcases member with rfl | rfl
  · exact if_neg other
  · rfl

/-- Of a message to some of the users an observer among them hears one copy. -/
theorem watch_frames {roster : List Handle} (chosen : Handle → Prop) [DecidablePred chosen] (msg : Msg)
    (once : roster.Nodup) (listed : o ∈ roster) (picked : chosen o) :
    watch o gallery (roster.flatMap fun h => if chosen h then frame h .interrupt msg else []) =
      gallery.told o msg := by
  have skipped : ∀ (rest : List Handle) gallery, o ∉ rest →
      watch o gallery (rest.flatMap fun h => if chosen h then frame h .interrupt msg else []) =
        some gallery := by
    intro rest gallery absent
    refine watch_unheard fun e member => ?_
    obtain ⟨k, inside, _, framed⟩ := mem_frames chosen member
    have other : k ≠ o := fun same => absent (same ▸ inside)
    simp only [frame, List.mem_cons, List.not_mem_nil, or_false] at framed
    rcases framed with rfl | rfl
    · exact if_neg other
    · rfl
  induction roster with
  | nil => cases listed
  | cons k rest ih =>
    obtain ⟨absent, once⟩ := List.nodup_cons.mp once
    rw [List.flatMap_cons, watch_append]
    by_cases mine : k = o
    · subst mine
      have heard : watch k gallery (frame k .interrupt msg) = gallery.told k msg := by
        rw [frame, watch_cons]
        show (if k = k then gallery.told k msg else some gallery).bind (watch k · [.prompted k]) = _
        rw [if_pos rfl]
        cases gallery.told k msg <;> rfl
      rw [if_pos picked, heard]
      cases told : gallery.told k msg with
      | none => rfl
      | some after => exact skipped rest after absent
    · have first : watch o gallery (if chosen k then frame k .interrupt msg else []) = some gallery := by
        split
        · exact frame_unheard mine _ _
        · rfl
      rw [first]
      exact ih once ((List.mem_cons.mp listed).resolve_left (Ne.symm mine))

/-- What an accepted join shows. -/
theorem told_joins {name : Bytes} {next : Gallery} (heard : gallery.told o (.joins name) = some next) :
    gallery.present name = none ∧ ∃ h, gallery.speaking = some h ∧ h ≠ o ∧
      next = { gallery with present := Function.update gallery.present name (some h) } := by
  simp only [Gallery.told] at heard
  split at heard
  · rename_i h speaking absent
    split at heard
    · cases heard
    · rename_i other
      cases heard
      exact ⟨absent, h, speaking, other, rfl⟩
  · cases heard

/-- What an accepted leave shows. -/
theorem told_left {name : Bytes} {next : Gallery} (heard : gallery.told o (.left name) = some next) :
    ∃ h, gallery.leaving = some h ∧ h ≠ o ∧ gallery.present name = some h ∧
      next = { gallery with present := Function.update gallery.present name none } := by
  simp only [Gallery.told] at heard
  split at heard
  · rename_i h leaving
    split at heard
    · rename_i fitting
      cases heard
      exact ⟨h, leaving, fitting.1, fitting.2, rfl⟩
    · cases heard
  · cases heard

private theorem after_keeps (name : Bytes) {e : Event} {next : Gallery}
    (stepped : gallery.after o e = some next) :
    ((gallery.present name).isSome → (∀ action, e ≠ .printed o action (.left name)) →
      (next.present name).isSome) ∧
    (gallery.present name = none → (∀ action, e ≠ .printed o action (.joins name)) →
      next.present name = none) := by
  cases e with
  | printed k action msg =>
    by_cases mine : k = o
    · subst mine
      replace stepped : gallery.told k msg = some next := (if_pos rfl).symm.trans stepped
      cases msg with
      | joins other =>
        obtain ⟨_, h, _, _, rfl⟩ := told_joins stepped
        by_cases same : name = other
        · subst same
          exact ⟨fun _ _ => by simp, fun _ unsaid => absurd rfl (unsaid action)⟩
        · simp only [Function.update_of_ne same]
          exact ⟨fun present _ => present, fun absent _ => absent⟩
      | left other =>
        obtain ⟨h, _, _, _, rfl⟩ := told_left stepped
        by_cases same : name = other
        · subst same
          exact ⟨fun _ unsaid => absurd rfl (unsaid action), fun _ _ => by simp⟩
        · simp only [Function.update_of_ne same]
          exact ⟨fun present _ => present, fun absent _ => absent⟩
      | _ =>
        cases stepped
        exact ⟨fun present _ => present, fun absent _ => absent⟩
    · cases (if_neg mine).symm.trans stepped
      exact ⟨fun present _ => present, fun absent _ => absent⟩
  | _ =>
    cases stepped
    exact ⟨fun present _ => present, fun absent _ => absent⟩

/-- A name that is present stays present until a leave, and one that is absent
stays absent until a join. -/
theorem watch_keeps (name : Bytes) {last : Gallery} (watched : watch o gallery events = some last) :
    ((gallery.present name).isSome → (∀ action, .printed o action (.left name) ∉ events) →
      (last.present name).isSome) ∧
    (gallery.present name = none → (∀ action, .printed o action (.joins name) ∉ events) →
      last.present name = none) := by
  induction events generalizing gallery with
  | nil =>
    cases watched
    exact ⟨fun present _ => present, fun absent _ => absent⟩
  | cons e rest ih =>
    obtain ⟨next, stepped, watched⟩ := Option.bind_eq_some_iff.mp ((watch_cons e).symm.trans watched)
    obtain ⟨stays, misses⟩ := after_keeps name stepped
    constructor
    · intro present unsaid
      exact (ih watched).1 (stays present fun action same => unsaid action (by rw [same]; simp))
        fun action member => unsaid action (List.mem_cons_of_mem _ member)
    · intro absent unsaid
      exact (ih watched).2 (misses absent fun action same => unsaid action (by rw [same]; simp))
        fun action member => unsaid action (List.mem_cons_of_mem _ member)

/-- The gallery around a notice. -/
private theorem watch_split {pre post : List Event} {action : Print} {msg : Msg} {last : Gallery}
    (watched : watch o gallery (pre ++ .printed o action msg :: post) = some last) :
    ∃ before after, watch o gallery pre = some before ∧ before.told o msg = some after ∧
      watch o after post = some last := by
  rw [watch_append] at watched
  obtain ⟨before, first, watched⟩ := Option.bind_eq_some_iff.mp watched
  rw [watch_cons] at watched
  obtain ⟨after, heard, rest⟩ := Option.bind_eq_some_iff.mp watched
  exact ⟨before, after, first, (if_pos rfl).symm.trans heard, rest⟩

/-- Between two joins under a name there is a leave. -/
theorem leave_between_joins {name : Bytes} {last : Gallery} {pre mid post : List Event}
    {first second : Print} (watched : watch o gallery (pre ++ .printed o first (.joins name) ::
      (mid ++ .printed o second (.joins name) :: post)) = some last) :
    ∃ action, .printed o action (.left name) ∈ mid := by
  obtain ⟨_, joined, _, heard, watched⟩ := watch_split watched
  obtain ⟨before, _, between, again, _⟩ := watch_split watched
  obtain ⟨_, h, _, _, rfl⟩ := told_joins heard
  obtain ⟨absent, _⟩ := told_joins again
  by_contra silent
  have stays := (watch_keeps name between).1 (by simp) fun action said => silent ⟨action, said⟩
  rw [absent] at stays
  cases stays

/-- Between two leaves under a name there is a join. -/
theorem join_between_leaves {name : Bytes} {last : Gallery} {pre mid post : List Event}
    {first second : Print} (watched : watch o gallery (pre ++ .printed o first (.left name) ::
      (mid ++ .printed o second (.left name) :: post)) = some last) :
    ∃ action, .printed o action (.joins name) ∈ mid := by
  obtain ⟨_, left, _, heard, watched⟩ := watch_split watched
  obtain ⟨before, _, between, again, _⟩ := watch_split watched
  obtain ⟨h, _, _, _, rfl⟩ := told_left heard
  obtain ⟨k, _, _, present, _⟩ := told_left again
  by_contra silent
  have misses := (watch_keeps name between).2 (by simp) fun action said => silent ⟨action, said⟩
  rw [present] at misses
  cases misses

end Watch

/-! ## Steps -/

/-- The user that is removed next, when its client's turn has come. -/
def World.leaves (world : World) : Option User :=
  match world.stage with
  | .clients (h :: _) =>
    (world.room.conn h).bind fun conn =>
      if conn.state = .toBeRemoved then world.room.user h else none
  | _ => none

section Steps
variable {env : Env} {world world' : World} {events : List Event} {o : Handle} {gallery : Gallery}

private theorem listed_of_inChat {room : Room} (linked : room.Linked) (observes : room.inChat o = true) :
    o ∈ room.roster := by
  rw [linked.listed]
  cases known : room.user o with
  | none =>
    rw [Room.inChat, known] at observes
    cases observes
  | some user => rfl

/-- An observer hears of a user that joins. -/
private theorem join_watched {room : Room} (user : User) (linked : room.Linked)
    (observes : room.inChat o = true) (other : user.handle ≠ o)
    (speaking : gallery.speaking = some user.handle) (free : gallery.present user.username = none) :
    watch o gallery ((room.join user).toOthers user.handle (.joins user.username)) =
      some { gallery with
        present := Function.update gallery.present user.username (some user.handle) } := by
  have picked : o ≠ user.handle ∧ (room.join user).inChat o = true := by
    refine ⟨Ne.symm other, ?_⟩
    show (Function.update room.user user.handle (some user) o).any _ = true
    rw [Function.update_of_ne (Ne.symm other)]
    exact observes
  refine (watch_frames (fun h => h ≠ user.handle ∧ (room.join user).inChat h = true)
    (.joins user.username) linked.once (listed_of_inChat linked observes) picked).trans ?_
  simp only [Gallery.told, speaking, free, if_neg other]

/-- An observer hears of a user that leaves. -/
private theorem farewell_watched {room : Room} {roster : List Handle} {name : Bytes} {h : Handle}
    (once : roster.Nodup) (listed : o ∈ roster) (observes : room.inChat o = true) (other : h ≠ o)
    (leaving : gallery.leaving = some h) (known : gallery.present name = some h) :
    watch o gallery (farewells room roster name) =
      some { gallery with present := Function.update gallery.present name none } := by
  refine (watch_frames (fun h => room.inChat h = true) (.left name) once listed observes).trans ?_
  simp only [Gallery.told, leaving, known, other, ne_eq, not_false_eq_true, and_self, if_true]

private theorem turn_watched {room : Room} {k : Handle} {todo : List Handle} (days : Int)
    (inv : World.Inv ⟨.users (k :: todo), room⟩) (observes : room.inChat o = true)
    (current : gallery.present = room.owner) :
    ∃ after, watch o gallery (room.turn days k).2 = some after ∧
      after.present = (room.turn days k).1.owner := by
  rcases room.turn_cases days k with ⟨_, nothing⟩ | ⟨user, conn, line, rest, known, _, _, turned⟩
  · rw [nothing]
    exact ⟨gallery, rfl, current⟩
  · have own := inv.linked.keyed k user known
    subst own
    rw [turned]
    simp only [watch_cons, Gallery.after, Option.bind_some]
    rcases Room.speak_answers days (room.setConn user.handle { conn with inBuf := rest }) user line with
      ⟨_, said⟩ | ⟨entering, free, said⟩ | ⟨_, owner, plain⟩
    · rw [said]
      exact ⟨_, rfl, current⟩
    · have other : user.handle ≠ o := by
        rintro rfl
        rw [Room.inChat, known] at observes
        simp [entering] at observes
      have absent : gallery.present (user.username ++ line) = none := by
        rw [current, (inv.named.unnamed _ user known).mp entering]
        exact free
      rw [said, watch_append, frame_unheard other, Option.bind_some]
      refine ⟨_, join_watched { user with state := .chat, username := user.username ++ line }
        (Room.setConn_linked inv.linked user.handle { conn with inBuf := rest }) observes other rfl absent,
        ?_⟩
      exact congrArg (Function.update · _ _) current
    · refine ⟨_, watch_unheard (plain_unheard plain), ?_⟩
      rw [owner]
      exact current

private theorem remove_watched {room : Room} {k : Handle} {todo roster : List Handle} {user : User}
    (inv : World.Inv ⟨.clients (k :: todo), room⟩) (seated : room.user k = some user)
    (entered : user.state ≠ .login) (once : roster.Nodup)
    (all : ∀ h, h ∈ roster ↔ h ≠ k ∧ h ∈ room.roster) (observes : room.inChat o = true)
    (current : gallery.present = room.owner) :
    ∃ after, watch o gallery (.userRemoved k :: farewells room roster user.username) = some after ∧
      ((room.unseat user roster).inChat o = true → after.present = (room.unseat user roster).owner) := by
  have own := inv.linked.keyed k user seated
  subst own
  rw [watch_cons]
  by_cases mine : user.handle = o
  · subst mine
    have unheard : ∀ e ∈ farewells room roster user.username,
        Gallery.after user.handle ⟨gallery.present, none, some user.handle⟩ e =
          some ⟨gallery.present, none, some user.handle⟩ := by
      intro e member
      obtain ⟨h, inside, _, framed⟩ := mem_frames (fun h => room.inChat h = true) member
      have other := ((all h).mp inside).1
      simp only [frame, List.mem_cons, List.not_mem_nil, or_false] at framed
      rcases framed with rfl | rfl
      · exact if_neg other
      · rfl
    refine ⟨_, watch_unheard unheard, fun stays => ?_⟩
    change (Function.update room.user user.handle none user.handle).any _ = true at stays
    rw [Function.update_self] at stays
    cases stays
  · have present : gallery.present user.username = some user.handle := by
      rw [current]
      exact (inv.named.owned _ _).mpr ⟨user, seated, entered, rfl⟩
    have listed : o ∈ roster :=
      (all o).mpr ⟨Ne.symm mine, listed_of_inChat inv.linked observes⟩
    refine ⟨_, farewell_watched once listed observes mine rfl present, fun _ => ?_⟩
    exact congrArg (Function.update · _ _) current

/-- What a step tells an observer in the chat. -/
theorem step_watched (stepped : World.Step env world events world') (inv : world.Inv)
    (entered : ∀ user ∈ world.leaves, user.state ≠ .login) (observes : world.room.inChat o = true)
    (current : gallery.present = world.room.owner) :
    ∃ after, watch o gallery events = some after ∧
      (world'.room.inChat o = true → after.present = world'.room.owner) := by
  have unheard : (∀ e ∈ events, gallery.after o e = some gallery) →
      world'.room.owner = world.room.owner → ∃ after, watch o gallery events = some after ∧
        (world'.room.inChat o = true → after.present = world'.room.owner) := by
    intro unheard same
    exact ⟨gallery, watch_unheard unheard, fun _ => current.trans same.symm⟩
  cases stepped with
  | turn days =>
    obtain ⟨after, watched, present⟩ := turn_watched days inv observes current
    exact ⟨after, watched, fun _ => present⟩
  | remove roster known flagged seated once all =>
    refine remove_watched inv seated (entered _ ?_) once all observes current
    simp only [World.leaves, known, Option.bind_some, flagged, if_true]
    exact seated
  | sweep =>
    refine unheard (fun e member => ?_) rfl
    obtain ⟨k, _, rfl⟩ := List.mem_map.mp member
    rfl
  | create days =>
    refine unheard (fun e member => ?_) rfl
    rcases List.mem_append.mp member with inside | inside
    · exact plain_unheard (frame_plain _ _ _ rfl) e inside
    · rw [List.mem_singleton.mp inside]
      rfl
  | accept => exact unheard (by simp [Gallery.after]) rfl
  | receive => exact unheard (by simp [Gallery.after]) rfl
  | hangUp => exact unheard (by simp [Gallery.after]) rfl
  | _ => exact unheard (by simp) rfl

end Steps

/-! ## Runs -/

/-- The observer is in the chat, and whoever is removed has been there. -/
def Observed (o : Handle) (sys : Sys) : Prop :=
  sys.app.room.inChat o = true ∧ ∀ user ∈ sys.world.leaves, user.state ≠ .login

instance (o : Handle) (sys : Sys) : Decidable (Observed o sys) := inferInstanceAs (Decidable (_ ∧ _))

/-- An observer in the chat, while nobody leaves from the login, knows who is
there: every join it hears of is a new name's, every leave is a known one's, and
what it has heard accounts for the names at the end. -/
theorem notices_well_paired (listener : Handle) (now : Int) (o : Handle) (sys₁ sys₂ : Sys)
    (before : Reaches step Orderly (start listener now) sys₁)
    (during : Reaches step (fun env sys => Orderly env sys ∧ Observed o sys) sys₁ sys₂)
    (stays : sys₂.app.room.inChat o = true) :
    ∃ events last, sys₂.app.trace = sys₁.app.trace ++ events ∧
      watch o ⟨sys₁.app.room.owner, none, none⟩ events = some last ∧
      last.present = sys₂.app.room.owner ∧
      (∀ sys ∈ [sys₁, sys₂], ∀ name h, sys.app.room.owner name = some h ↔
        ∃ user, sys.app.room.user h = some user ∧ user.state ≠ .login ∧ user.username = name) ∧
      (∀ name first second pre mid post, events = pre ++ .printed o first (.joins name) ::
        (mid ++ .printed o second (.joins name) :: post) →
        ∃ action, .printed o action (.left name) ∈ mid) ∧
      ∀ name first second pre mid post, events = pre ++ .printed o first (.left name) ::
        (mid ++ .printed o second (.left name) :: post) →
        ∃ action, .printed o action (.joins name) ∈ mid := by
  have good := run_good before (fun _ _ => id) (start_good listener now)
  obtain ⟨good₂, events, trace, last, watched, present⟩ := run_follows during
    (fun _ _ granted => granted.1) good
    (fun world trace => ∃ events, trace = sys₁.app.trace ++ events ∧
      ∃ last, watch o ⟨sys₁.app.room.owner, none, none⟩ events = some last ∧
        (world.room.inChat o = true → last.present = world.room.owner))
    ⟨[], (List.append_nil _).symm, _, rfl, fun _ => rfl⟩
    (by
      rintro env sys events world' ⟨_, observes, entered⟩ good stepped ⟨told, trace, now, watched, present⟩
      obtain ⟨after, more, current⟩ := step_watched stepped good.inv entered observes (present observes)
      refine ⟨told ++ events, by rw [trace, List.append_assoc], after, ?_, current⟩
      rw [watch_append, watched]
      exact more)
  refine ⟨events, last, trace, watched, present stays, ?_, ?_, ?_⟩
  · intro sys member
    simp only [List.mem_cons, List.not_mem_nil, or_false] at member
    rcases member with rfl | rfl
    · exact good.inv.named.owned
    · exact good₂.inv.named.owned
  · rintro name first second pre mid post rfl
    exact leave_between_joins watched
  · rintro name first second pre mid post rfl
    exact join_between_leaves watched

/-- A client takes the name `ab`. -/
def chatter : List (Nat × Env) := [(107, .connects 4), (109, .brings 4 (bytes "ab\n"))]

/-- Another one connects and leaves again. -/
def stranger : List (Nat × Env) := [(110, .connects 5), (111, .ends 5)]

/-- Another one connects, takes the name `cd` and leaves. -/
def guest : List (Nat × Env) :=
  [(110, .connects 5), (111, .brings 5 (bytes "cd\n")), (111, .ends 5)]

private theorem chatter_unsent : ∀ env ∈ rounds chatter, ∀ h data, env.send h data = none :=
  rounds_unsent ⟨fun _ _ => rfl, fun _ _ => rfl⟩

private theorem stranger_unsent : ∀ env ∈ rounds stranger, ∀ h data, env.send h data = none :=
  rounds_unsent ⟨fun _ _ => rfl, fun _ _ => rfl⟩

private theorem guest_unsent : ∀ env ∈ rounds guest, ∀ h data, env.send h data = none :=
  rounds_unsent ⟨fun _ _ => rfl, fun _ _ => rfl, fun _ _ => rfl⟩

/-- A leave without a name, of a client that never logged in. -/
theorem stranger_announced : ∃ (sys₁ sys₂ : Sys) (events : List Event),
    Reaches step Separate (start 3 0) sys₁ ∧
    Reaches step (fun env sys => Orderly env sys ∧ sys.app.room.inChat 4 = true) sys₁ sys₂ ∧
    sys₂.app.room.inChat 4 = true ∧ sys₂.app.trace = sys₁.app.trace ++ events ∧
    .printed 4 .interrupt (.left []) ∈ events ∧
    watch 4 ⟨sys₁.app.room.owner, none, none⟩ events = none := by
  have outcome : (drive step separate .assertion (rounds chatter) (start 3 0)).bind (fun sys₁ =>
      (drive step (fun env sys => separate env sys && decide (sys.app.room.inChat 4 = true)) .assertion
        (rounds stranger) sys₁).map fun sys₂ =>
          (sys₂.app.room.inChat 4,
            decide (.printed 4 .interrupt (.left []) ∈ sys₂.app.trace.drop sys₁.app.trace.length),
            (watch 4 ⟨sys₁.app.room.owner, none, none⟩
              (sys₂.app.trace.drop sys₁.app.trace.length)).isNone)) = .ok (true, true, true) := by
    decide +kernel
  obtain ⟨sys₁, first, outcome⟩ := bind_eq_ok.mp outcome
  obtain ⟨sys₂, second, outcome⟩ := map_eq_ok.mp outcome
  obtain ⟨stays, outcome⟩ := Prod.mk.inj outcome
  obtain ⟨left, unfit⟩ := Prod.mk.inj outcome
  have reached := reaches_of_drive chatter_unsent first
  have window := reaches_of_checked (fun _ sys => sys.app.room.inChat 4 = true) stranger_unsent second
  have good := run_good reached (fun _ _ => Separate.orderly) (start_good 3 0)
  exact ⟨sys₁, sys₂, _, reached, window, stays, trace_grows window (fun _ _ granted => granted.1) good,
    of_decide_eq_true left, Option.isNone_iff_eq_none.mp unfit⟩

/-- A guest's coming and going. -/
theorem guest_announced : ∃ (sys₁ sys₂ : Sys) (events : List Event) (last : Gallery),
    sys₂.app.trace = sys₁.app.trace ++ events ∧
    .userRemoved 5 ∈ sys₂.app.trace ∧ sys₁.app.room.owner (bytes "ab") = some 4 ∧
    watch 4 ⟨sys₁.app.room.owner, none, none⟩ events = some last ∧
    last.present = sys₂.app.room.owner := by
  have outcome : (drive step separate .assertion (rounds chatter) (start 3 0)).bind (fun sys₁ =>
      (drive step (fun env sys => separate env sys && decide (Observed 4 sys)) .assertion
        (rounds guest) sys₁).map fun sys₂ =>
          (sys₂.app.room.inChat 4, decide (.userRemoved 5 ∈ sys₂.app.trace),
            sys₁.app.room.owner (bytes "ab"))) = .ok (true, true, some 4) := by
    decide +kernel
  obtain ⟨sys₁, first, outcome⟩ := bind_eq_ok.mp outcome
  obtain ⟨sys₂, second, outcome⟩ := map_eq_ok.mp outcome
  obtain ⟨stays, outcome⟩ := Prod.mk.inj outcome
  obtain ⟨removed, owner⟩ := Prod.mk.inj outcome
  obtain ⟨events, last, trace, watched, present, _⟩ := notices_well_paired 3 0 4 sys₁ sys₂
    ((reaches_of_drive chatter_unsent first).weaken fun _ _ => Separate.orderly)
    (reaches_of_checked (fun _ sys => Observed 4 sys) guest_unsent second) stays
  exact ⟨sys₁, sys₂, events, last, trace, of_decide_eq_true removed, owner, watched, present⟩

end AuroraComms
