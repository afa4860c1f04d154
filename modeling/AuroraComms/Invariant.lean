import AuroraComms.World

/-! What holds at each stage of the main loop: the roster, the names, and which
connections have a user. Every step keeps it. -/
namespace AuroraComms
open Meta Library.Run

/-- The roster lists the users, each under its handle, and every user is connected. -/
structure Room.Linked (room : Room) : Prop where
  once : room.roster.Nodup
  listed : ∀ h, h ∈ room.roster ↔ (room.user h).isSome
  keyed : ∀ h user, room.user h = some user → user.handle = h
  seated : ∀ h, (room.user h).isSome → (room.conn h).isSome

/-- Names are chosen at the login and owned from then on. -/
structure Room.Named (room : Room) : Prop where
  unnamed : ∀ h user, room.user h = some user → (user.state = .login ↔ user.username = [])
  valid : ∀ h user, room.user h = some user → user.state ≠ .login →
    validateUsername user.username = true
  owned : ∀ name h, room.owner name = some h ↔
    ∃ user, room.user h = some user ∧ user.state ≠ .login ∧ user.username = name

/-- Which connections have a user. A new one gets its user, and one that goes
loses it, when the loop over the clients passes it. -/
def Room.Paired (room : Room) (userless : Handle → ClientState) : Prop :=
  ∀ h conn, room.conn h = some conn → ((room.user h).isSome ↔ conn.state ≠ userless h)

/-- What holds at each stage. -/
def Stage.Fits (room : Room) : Stage → Prop
  | .sweep => room.Paired fun _ => .toBeRemoved
  | .wait todo | .receive todo =>
    room.Paired (fun _ => .new) ∧ todo.Nodup ∧
      ∀ h ∈ todo, ∃ conn, room.conn h = some conn ∧ conn.state = .online
  | .users todo => room.Paired (fun _ => .new) ∧ todo.Nodup ∧ ∀ h ∈ todo, (room.user h).isSome
  | .flush | .exited => room.Paired fun _ => .new
  | .clients todo =>
    room.Paired (fun h => if h ∈ todo then .new else .toBeRemoved) ∧ todo.Nodup ∧
      ∀ h ∈ todo, (room.conn h).isSome

structure World.Inv (world : World) : Prop where
  linked : world.room.Linked
  named : world.room.Named
  fits : world.stage.Fits world.room

/-! ## Lines -/

namespace Room

variable {room room' : Room} {user : User} {line : Bytes}

theorem Becomes.linked (became : Becomes room user line room') (linked : room.Linked)
    (here : room.user user.handle = some user) : room'.Linked := by
  obtain ⟨roster, users, conns, _⟩ := became.frame here
  refine ⟨by rw [roster]; exact linked.once, fun k => ?_, ?_, fun k known => ?_⟩
  · rw [roster, users]
    exact linked.listed k
  · have updated : ∀ new : User, new.handle = user.handle → ∀ k other,
        Function.update room.user new.handle (some new) k = some other → other.handle = k := by
      intro new same k other known
      rw [Function.update_apply] at known
      split at known
      · rename_i mine
        cases known
        exact mine.symm
      · exact linked.keyed k other known
    cases became with
    | same => exact linked.keyed
    | joins => exact updated _ rfl
    | asks => exact updated _ rfl
    | returns => exact updated _ rfl
    | confirms => exact linked.keyed
  · rw [conns]
    exact linked.seated k (by rw [← users]; exact known)

/-- A user that keeps its name keeps it registered. -/
private theorem named_renewed (named : room.Named) (here : room.user user.handle = some user)
    (inside : user.state ≠ .login) (state : State) (stays : state ≠ .login) :
    (room.setUser { user with state := state }).Named := by
  have known : ∀ k other, (room.setUser { user with state := state }).user k = some other →
      (k = user.handle ∧ other = { user with state := state }) ∨ room.user k = some other := by
    intro k other known
    change Function.update room.user user.handle _ k = some other at known
    rw [Function.update_apply] at known
    split at known
    · rename_i mine
      cases known
      exact Or.inl ⟨mine, rfl⟩
    · exact Or.inr known
  refine ⟨?_, ?_, ?_⟩
  · intro k other there
    rcases known k other there with ⟨_, rfl⟩ | old
    · have before := named.unnamed _ user here
      exact ⟨fun entering => absurd entering stays, fun empty => absurd (before.mpr empty) inside⟩
    · exact named.unnamed k other old
  · intro k other there past
    rcases known k other there with ⟨_, rfl⟩ | old
    · exact named.valid _ user here inside
    · exact named.valid k other old past
  · intro name k
    refine (named.owned name k).trans ?_
    constructor
    · rintro ⟨other, there, past, own⟩
      by_cases mine : k = user.handle
      · subst mine
        rw [here] at there
        cases there
        exact ⟨_, Function.update_self _ _ _, stays, own⟩
      · exact ⟨other, by rw [← there]; exact Function.update_of_ne mine _ _, past, own⟩
    · rintro ⟨other, there, past, own⟩
      rcases known k other there with ⟨rfl, rfl⟩ | old
      · exact ⟨user, here, inside, own⟩
      · exact ⟨other, old, past, own⟩

/-- A user that takes a free name becomes its owner. -/
private theorem named_joined (named : room.Named) (here : room.user user.handle = some user)
    (entering : user.state = .login) (nonempty : line ≠ []) (free : room.owner line = none)
    (valid : validateUsername line = true) :
    (room.join { user with state := .chat, username := user.username ++ line }).Named := by
  have renamed : user.username ++ line = line := by
    rw [(named.unnamed _ user here).mp entering]
    rfl
  rw [renamed]
  have known : ∀ k other,
      (room.join { user with state := .chat, username := line }).user k = some other →
      (k = user.handle ∧ other = { user with state := .chat, username := line }) ∨
        (k ≠ user.handle ∧ room.user k = some other) := by
    intro k other there
    change Function.update room.user user.handle _ k = some other at there
    rw [Function.update_apply] at there
    split at there
    · rename_i mine
      cases there
      exact Or.inl ⟨mine, rfl⟩
    · rename_i apart
      exact Or.inr ⟨apart, there⟩
  refine ⟨?_, ?_, ?_⟩
  · intro k other there
    rcases known k other there with ⟨_, rfl⟩ | ⟨_, old⟩
    · exact ⟨fun chatting => (nomatch chatting), fun empty => absurd empty nonempty⟩
    · exact named.unnamed k other old
  · intro k other there past
    rcases known k other there with ⟨_, rfl⟩ | ⟨_, old⟩
    · exact valid
    · exact named.valid k other old past
  · intro name k
    change Function.update room.owner line (some user.handle) name = some k ↔ _
    rw [Function.update_apply]
    split
    · rename_i mine
      rw [mine]
      constructor
      · rintro ⟨⟩
        exact ⟨_, Function.update_self _ _ _, by simp, rfl⟩
      · rintro ⟨other, there, past, own⟩
        rcases known k other there with ⟨same, _⟩ | ⟨_, old⟩
        · rw [same]
        · rw [(named.owned line k).mpr ⟨other, old, past, own⟩] at free
          cases free
    · rename_i apart
      refine (named.owned name k).trans ?_
      constructor
      · rintro ⟨other, there, past, own⟩
        have different : k ≠ user.handle := by
          rintro rfl
          rw [here] at there
          cases there
          exact past entering
        exact ⟨other, by rw [← there]; exact Function.update_of_ne different _ _, past, own⟩
      · rintro ⟨other, there, past, own⟩
        rcases known k other there with ⟨_, rfl⟩ | ⟨_, old⟩
        · exact absurd own.symm apart
        · exact ⟨other, old, past, own⟩

theorem Becomes.named (became : Becomes room user line room') (named : room.Named)
    (here : room.user user.handle = some user) : room'.Named := by
  cases became with
  | same => exact named
  | confirms => exact { named with }
  | asks chatting => exact named_renewed named here (by rw [chatting]; decide) _ (by decide)
  | returns leaving => exact named_renewed named here (by rw [leaving]; decide) _ (by decide)
  | joins entering nonempty free valid => exact named_joined named here entering nonempty free valid

/-- A turn changes nothing about other handles. -/
theorem turn_others (linked : room.Linked) (days : Int) {h k : Handle} (apart : h ≠ k) :
    (room.turn days k).1.user h = room.user h ∧ (room.turn days k).1.conn h = room.conn h := by
  rcases room.turn_cases days k with ⟨_, nothing⟩ | ⟨user, conn, line, rest, known, _, _, turned⟩
  · rw [nothing]
    exact ⟨rfl, rfl⟩
  · have own := linked.keyed k user known
    subst own
    obtain ⟨users, conns⟩ := (speak_becomes days (room.setConn user.handle
      { conn with inBuf := rest }) user line).others apart
    rw [turned]
    exact ⟨users, conns.trans (Function.update_of_ne apart _ _)⟩

theorem setConn_linked (linked : room.Linked) (h : Handle) (conn : Conn) :
    (room.setConn h conn).Linked where
  once := linked.once
  listed := linked.listed
  keyed := linked.keyed
  seated k known := by
    show (Function.update room.conn h _ k).isSome
    rw [Function.update_apply]
    split
    · rfl
    · exact linked.seated k known

theorem setConn_named (named : room.Named) (h : Handle) (conn : Conn) :
    (room.setConn h conn).Named where
  unnamed := named.unnamed
  valid := named.valid
  owned := named.owned

/-- Changing a connection that stays in its state changes no pairing. -/
theorem setConn_paired {userless : Handle → ClientState} (paired : room.Paired userless) {h : Handle}
    (conn : Conn) (allowed : (room.user h).isSome ↔ conn.state ≠ userless h) :
    (room.setConn h conn).Paired userless := by
  intro k other known
  change Function.update room.conn h (some conn) k = some other at known
  rw [Function.update_apply] at known
  split at known
  · rename_i mine
    cases known
    rw [mine]
    exact allowed
  · exact paired k other known

end Room

/-! ## Steps keep the invariant -/

section Keeps
variable {env : Env} {room : Room} {todo : List Handle} {h : Handle} {conn : Conn}

private theorem turn_keeps (days : Int) (inv : World.Inv ⟨.users (h :: todo), room⟩) :
    World.Inv ⟨.users todo, (room.turn days h).1⟩ := by
  obtain ⟨linked, named, paired, once, users⟩ := inv
  have onceRest := (List.nodup_cons.mp once).2
  rcases room.turn_cases days h with ⟨_, nothing⟩ | ⟨user, conn, line, rest, known, connected, _, turned⟩
  · rw [nothing]
    exact ⟨linked, named, paired, onceRest, fun k member => users k (List.mem_cons_of_mem _ member)⟩
  · rw [turned]
    have own := linked.keyed h user known
    subst own
    have linked₁ := Room.setConn_linked linked user.handle { conn with inBuf := rest }
    have became := Room.speak_becomes days (room.setConn user.handle { conn with inBuf := rest }) user line
    obtain ⟨_, kept, _, conns⟩ := became.frame known
    refine ⟨became.linked linked₁ known,
      became.named (Room.setConn_named named user.handle { conn with inBuf := rest }) known, ?_,
      onceRest, ?_⟩
    · have paired₁ : (room.setConn user.handle { conn with inBuf := rest }).Paired fun _ => .new :=
        Room.setConn_paired paired _ (paired _ conn connected)
      intro k conn' there
      obtain ⟨before, stored, same | ⟨mine, same⟩⟩ := conns k conn' there
      · rw [kept, same]
        exact paired₁ k before stored
      · rw [kept, same, mine]
        exact ⟨fun _ => by simp, fun _ => Option.isSome_iff_exists.mpr ⟨user, known⟩⟩
    · intro k member
      rw [kept]
      exact users k (List.mem_cons_of_mem _ member)

private theorem create_keeps {roster : List Handle} (inv : World.Inv ⟨.clients (h :: todo), room⟩)
    (known : room.conn h = some conn) (new : conn.state = .new) (once : roster.Nodup)
    (all : ∀ k, k ∈ roster ↔ k = h ∨ k ∈ room.roster) :
    World.Inv ⟨.clients todo, room.seat h roster⟩ := by
  obtain ⟨linked, named, paired, distinct, connected⟩ := inv
  have absent : room.user h = none := by
    have seat := paired h conn known
    simpa [new] using seat
  have users : ∀ k user, (room.seat h roster).user k = some user →
      (k = h ∧ user = ⟨h, .login, []⟩) ∨ (k ≠ h ∧ room.user k = some user) := by
    intro k user there
    change Function.update room.user h _ k = some user at there
    rw [Function.update_apply] at there
    split at there
    · rename_i mine
      cases there
      exact Or.inl ⟨mine, rfl⟩
    · rename_i apart
      exact Or.inr ⟨apart, there⟩
  have present : ∀ k, ((room.seat h roster).user k).isSome ↔ k = h ∨ (room.user k).isSome := by
    intro k
    show (Function.update room.user h _ k).isSome ↔ _
    rw [Function.update_apply]
    split
    · rename_i mine
      simp [mine]
    · rename_i apart
      simp [apart]
  refine ⟨⟨once, fun k => ?_, ?_, ?_⟩, ⟨?_, ?_, ?_⟩, ?_, (List.nodup_cons.mp distinct).2,
    fun k member => connected k (List.mem_cons_of_mem _ member)⟩
  · exact (all k).trans ((or_congr_right (linked.listed k)).trans (present k).symm)
  · intro k user there
    rcases users k user there with ⟨rfl, rfl⟩ | ⟨_, old⟩
    · rfl
    · exact linked.keyed k user old
  · intro k there
    rcases (present k).mp there with rfl | old
    · exact Option.isSome_iff_exists.mpr ⟨conn, known⟩
    · exact linked.seated k old
  · intro k user there
    rcases users k user there with ⟨_, rfl⟩ | ⟨_, old⟩
    · simp
    · exact named.unnamed k user old
  · intro k user there past
    rcases users k user there with ⟨_, rfl⟩ | ⟨_, old⟩
    · exact absurd rfl past
    · exact named.valid k user old past
  · intro name k
    refine (named.owned name k).trans ?_
    constructor
    · rintro ⟨user, there, past, own⟩
      have apart : k ≠ h := by
        rintro rfl
        rw [absent] at there
        cases there
      exact ⟨user, by rw [← there]; exact Function.update_of_ne apart _ _, past, own⟩
    · rintro ⟨user, there, past, own⟩
      rcases users k user there with ⟨_, rfl⟩ | ⟨_, old⟩
      · exact absurd rfl past
      · exact ⟨user, old, past, own⟩
  · intro k other stored
    by_cases mine : k = h
    · subst mine
      change room.conn k = some other at stored
      rw [known] at stored
      cases stored
      simp [present, (List.nodup_cons.mp distinct).1, new]
    · rw [present, paired k other stored]
      simp [mine]

private theorem remove_keeps {roster : List Handle} {user : User}
    (inv : World.Inv ⟨.clients (h :: todo), room⟩)
    (known : room.conn h = some conn) (flagged : conn.state = .toBeRemoved)
    (seated : room.user h = some user) (once : roster.Nodup)
    (all : ∀ k, k ∈ roster ↔ k ≠ h ∧ k ∈ room.roster) :
    World.Inv ⟨.clients todo, room.unseat user roster⟩ := by
  obtain ⟨linked, named, paired, distinct, connected⟩ := inv
  have own := linked.keyed h user seated
  subst own
  have users : ∀ k other, (room.unseat user roster).user k = some other ↔
      k ≠ user.handle ∧ room.user k = some other := by
    intro k other
    show Function.update room.user user.handle none k = some other ↔ _
    rw [Function.update_apply]
    split
    · rename_i mine
      simp [mine]
    · rename_i apart
      simp [apart]
  have present : ∀ k, ((room.unseat user roster).user k).isSome ↔
      k ≠ user.handle ∧ (room.user k).isSome := by
    intro k
    simp only [Option.isSome_iff_exists, users, exists_and_left]
  refine ⟨⟨once, fun k => ?_, ?_, ?_⟩, ⟨?_, ?_, ?_⟩, ?_, (List.nodup_cons.mp distinct).2,
    fun k member => connected k (List.mem_cons_of_mem _ member)⟩
  · exact (all k).trans ((and_congr_right fun _ => linked.listed k).trans (present k).symm)
  · intro k other there
    exact linked.keyed k other ((users k other).mp there).2
  · intro k there
    exact linked.seated k ((present k).mp there).2
  · intro k other there
    exact named.unnamed k other ((users k other).mp there).2
  · intro k other there past
    exact named.valid k other ((users k other).mp there).2 past
  · intro name k
    change Function.update room.owner user.username none name = some k ↔ _
    rw [Function.update_apply]
    split
    · rename_i dropped
      refine ⟨fun owned => (nomatch owned), ?_⟩
      rintro ⟨other, there, past, own⟩
      -- A name that is dropped was nobody's but the user's that goes.
      obtain ⟨apart, old⟩ := (users k other).mp there
      have held := (named.owned name k).mpr ⟨other, old, past, own⟩
      by_cases inside : user.state = .login
      · have empty := (named.unnamed _ user seated).mp inside
        rw [dropped, empty] at own
        exact absurd ((named.unnamed k other old).mpr own) past
      · rw [(named.owned name user.handle).mpr ⟨user, seated, inside, dropped.symm⟩] at held
        exact absurd (Option.some.inj held).symm apart
    · rename_i other_name
      refine (named.owned name k).trans ?_
      constructor
      · rintro ⟨other, there, past, own⟩
        refine ⟨other, (users k other).mpr ⟨?_, there⟩, past, own⟩
        rintro rfl
        rw [seated] at there
        cases there
        exact other_name own.symm
      · rintro ⟨other, there, past, own⟩
        exact ⟨other, ((users k other).mp there).2, past, own⟩
  · intro k other stored
    change room.conn k = some other at stored
    by_cases mine : k = user.handle
    · subst mine
      rw [known] at stored
      cases stored
      simp [present, (List.nodup_cons.mp distinct).1, flagged]
    · rw [present, paired k other stored]
      simp [mine]

private theorem sweep_keeps {polled : List Handle} (inv : World.Inv ⟨.sweep, room⟩)
    (once : polled.Nodup) (all : ∀ h, h ∈ polled ↔ (room.swept.conn h).isSome) :
    World.Inv ⟨.wait polled, room.swept⟩ := by
  obtain ⟨linked, named, paired⟩ := inv
  have conns : ∀ k conn', room.swept.conn k = some conn' ↔
      ∃ conn, room.conn k = some conn ∧ conn.state ≠ .toBeRemoved ∧
        { conn with state := .online } = conn' := by
    intro k conn'
    show ((room.conn k).bind _) = some conn' ↔ _
    rw [Option.bind_eq_some_iff]
    refine exists_congr fun conn => and_congr_right fun _ => ?_
    split
    · rename_i goes
      simp [goes]
    · rename_i stays
      simp [stays]
  refine ⟨⟨linked.once, linked.listed, linked.keyed, ?_⟩, ⟨named.unnamed, named.valid, named.owned⟩,
    ?_, once, ?_⟩
  · intro k known
    obtain ⟨conn, stored⟩ := Option.isSome_iff_exists.mp (linked.seated k known)
    exact Option.isSome_iff_exists.mpr
      ⟨_, (conns k _).mpr ⟨conn, stored, (paired k conn stored).mp known, rfl⟩⟩
  · intro k conn' there
    obtain ⟨conn, stored, stays, rfl⟩ := (conns k conn').mp there
    exact ⟨fun _ => by simp, fun _ => (paired k conn stored).mpr stays⟩
  · intro k member
    obtain ⟨conn', there⟩ := Option.isSome_iff_exists.mp ((all k).mp member)
    obtain ⟨conn, _, _, rfl⟩ := (conns k conn').mp there
    exact ⟨_, there, rfl⟩

/-- Reading from a socket changes nothing about the others. -/
private theorem receive_keeps (inv : World.Inv ⟨.receive (h :: todo), room⟩) (conn' : Conn)
    (known : room.conn h = some conn) (settled : conn.state = .online → conn'.state ≠ .new) :
    World.Inv ⟨.receive todo, room.setConn h conn'⟩ := by
  obtain ⟨linked, named, paired, once, polled⟩ := inv
  obtain ⟨absent, onceRest⟩ := List.nodup_cons.mp once
  obtain ⟨_, same, online⟩ := polled h List.mem_cons_self
  rw [known] at same
  cases same
  refine ⟨Room.setConn_linked linked h conn', Room.setConn_named named h conn', ?_, onceRest, ?_⟩
  · exact Room.setConn_paired paired conn'
      ⟨fun _ => settled online, fun _ => (paired h conn known).mpr (by simp [online])⟩
  · intro k member
    obtain ⟨other, stored, state⟩ := polled k (List.mem_cons_of_mem _ member)
    have apart : k ≠ h := by
      rintro rfl
      exact absent member
    exact ⟨other, by rw [← stored]; exact Function.update_of_ne apart _ _, state⟩

/-- A new client has no user, and is not among the sockets polled before it came. -/
private theorem accept_keeps (inv : World.Inv ⟨.wait todo, room⟩) (fresh : room.conn h = none) :
    World.Inv ⟨.receive todo, room.setConn h ⟨.new, []⟩⟩ := by
  obtain ⟨linked, named, paired, once, polled⟩ := inv
  have absent : ¬ (room.user h).isSome := by
    intro known
    have connected := linked.seated h known
    rw [fresh] at connected
    cases connected
  refine ⟨Room.setConn_linked linked h _, Room.setConn_named named h _, ?_, once, ?_⟩
  · exact Room.setConn_paired paired _ ⟨fun known => absurd known absent, fun past => absurd rfl past⟩
  · intro k member
    obtain ⟨other, stored, state⟩ := polled k member
    have apart : k ≠ h := by
      rintro rfl
      rw [fresh] at stored
      cases stored
    exact ⟨other, by rw [← stored]; exact Function.update_of_ne apart _ _, state⟩

private theorem keep_keeps (inv : World.Inv ⟨.clients (h :: todo), room⟩)
    (known : room.conn h = some conn) (online : conn.state = .online) :
    World.Inv ⟨.clients todo, room⟩ := by
  obtain ⟨linked, named, paired, distinct, connected⟩ := inv
  refine ⟨linked, named, ?_, (List.nodup_cons.mp distinct).2,
    fun k member => connected k (List.mem_cons_of_mem _ member)⟩
  intro k other stored
  have seat := paired k other stored
  by_cases mine : k = h
  · subst mine
    change room.conn k = some other at stored
    rw [known] at stored
    cases stored
    simpa [(List.nodup_cons.mp distinct).1, online] using seat
  · simpa [mine] using seat

/-- Every step keeps the invariant. -/
theorem World.Step.keeps {world world' : World} {events : List Event}
    (stepped : World.Step env world events world') (inv : world.Inv) : world'.Inv := by
  cases stepped with
  | sweep polled gone once all => exact sweep_keeps inv once all
  | quit => exact ⟨inv.linked, inv.named, inv.fits.1⟩
  | calm => exact ⟨inv.linked, inv.named, inv.fits.1⟩
  | ready => exact ⟨inv.linked, inv.named, inv.fits⟩
  | accept _ _ fresh => exact accept_keeps inv fresh
  | skip =>
    obtain ⟨paired, once, polled⟩ := inv.fits
    exact ⟨inv.linked, inv.named, paired, (List.nodup_cons.mp once).2,
      fun k member => polled k (List.mem_cons_of_mem _ member)⟩
  | receive known => exact receive_keeps inv _ known fun online => by simp [online]
  | hangUp known => exact receive_keeps inv _ known fun _ => by simp
  | received => exact ⟨inv.linked, inv.named, inv.fits.1⟩
  | flush =>
    exact ⟨inv.linked, inv.named, inv.fits, inv.linked.once, fun k => (inv.linked.listed k).mp⟩
  | turn days => exact turn_keeps days inv
  | updated once all =>
    refine ⟨inv.linked, inv.named, ?_, once, fun k member => (all k).mp member⟩
    intro k conn known
    have listed := (all k).mpr (Option.isSome_iff_exists.mpr ⟨conn, known⟩)
    simpa [listed] using inv.fits.1 k conn known
  | create days roster known new once all => exact create_keeps inv known new once all
  | remove roster known flagged seated once all => exact remove_keeps inv known flagged seated once all
  | keep known online => exact keep_keeps inv known online
  | done => exact ⟨inv.linked, inv.named, by simpa [Stage.Fits] using inv.fits.1⟩
  | stutter => exact inv

end Keeps
end AuroraComms
