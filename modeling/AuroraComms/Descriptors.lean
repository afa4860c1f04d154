import AuroraComms.Injection
import Mathlib.Data.List.Perm.Subperm
import Mathlib.Order.Bounds.Basic

/-! The descriptors of the clients' sockets. Handles are hashed to themselves,
so which of them share a bucket is up to the descriptors that `accept` returns. -/
namespace AuroraComms
open Meta Library.Run

/-- Whether a client's socket is open: accepted, and not closed since. -/
def Event.opens (h : Handle) (isOpen : Bool) : Event → Bool
  | .accepted k => if k = h then true else isOpen
  | .closed k => if k = h then false else isOpen
  | _ => isOpen

def isOpen (h : Handle) (trace : List Event) : Bool := trace.foldl (Event.opens h) false

/-- The descriptors of the process: `d` of its own, and its clients' sockets. -/
def Held (d : Nat) (app : App) (fd : Handle) : Prop :=
  (0 ≤ fd ∧ fd < d) ∨ isOpen fd app.trace = true

/-- `accept` returns the lowest descriptor not in use, which is an `int`. -/
def LowestFree (d : Nat) (env : Env) (sys : Sys) : Prop :=
  ∀ polled fd nonblocking ntop, sys.point = .wait polled → env.accept = .socket fd nonblocking ntop →
    IsLeast {n | 0 ≤ n ∧ ¬ Held d sys.app n} fd ∧ fd < 2 ^ 31

/-- A descriptor behind the process's own, with room for every client. -/
def Near (d : Nat) (h : Handle) : Prop := d ≤ h ∧ h < d + clientsMax ∧ h < 2 ^ 31

/-- A table that was made for all clients and doubled since. -/
def Doubled {V : Type} (m : Map Handle V) : Prop := ∃ n, m.keyTable.length = clientsMax * 2 ^ n

section Buckets
variable {d : Nat} {h k : Handle}

/-- Numbers less than the number of clients apart, modulo that number. -/
private theorem mod_clientsMax {d : Nat} {a b : Int} (low : d ≤ a) (high : a < d + 50) (int : a < 2 ^ 31)
    (low' : d ≤ b) (high' : b < d + 50) (int' : b < 2 ^ 31)
    (same : (a % 2 ^ 64).toNat % 50 = (b % 2 ^ 64).toNat % 50) : a = b := by
  have first : a % 2 ^ 64 = a := Int.emod_eq_of_lt (by omega) (by omega)
  have second : b % 2 ^ 64 = b := Int.emod_eq_of_lt (by omega) (by omega)
  rw [first, second] at same
  omega

/-- Descriptors that are near have different hashes modulo every capacity. -/
theorem Near.apart (near : Near d h) (near' : Near d k) (distinct : h ≠ k) (n : Nat) :
    handleHash h % (clientsMax * 2 ^ n) ≠ handleHash k % (clientsMax * 2 ^ n) := by
  intro same
  have small := congrArg (· % clientsMax) same
  simp only [Nat.mod_mul_right_mod] at small
  exact distinct (mod_clientsMax near.1 near.2.1 near.2.2 near'.1 near'.2.1 near'.2.2 small)

theorem doubled_set {V : Type} {m m' : Map Handle V} (doubled : Doubled m)
    (capacity : m'.keyTable.length = m.keyTable.length ∨ m'.keyTable.length = m.keyTable.length * 2) :
    Doubled m' := by
  obtain ⟨n, width⟩ := doubled
  obtain same | twice := capacity
  · exact ⟨n, same.trans width⟩
  · exact ⟨n + 1, by rw [twice, width, pow_succ, Nat.mul_assoc]⟩

/-- Keys that are near have a bucket each. -/
theorem unshared_of_near {V : Type} {m : Map Handle V} (sound : m.Sound handleHash handleEq)
    (doubled : Doubled m) (near : ∀ k, k ∈ m.keys → Near d k) : m.Unshared := by
  obtain ⟨n, width⟩ := doubled
  intro bucket member
  obtain ⟨i, stored⟩ := List.getElem?_of_mem member
  have once : bucket.Nodup := (List.nodup_flatten.mp (Map.keys_nodup handleEq_exact sound)).1 bucket member
  by_contra crowded
  obtain ⟨first, tail, rfl⟩ := List.exists_cons_of_length_pos (show 0 < bucket.length by omega)
  rw [List.length_cons] at crowded
  obtain ⟨second, rest, rfl⟩ := List.exists_cons_of_length_pos (show 0 < tail.length by omega)
  have placed := Map.bucket_of_key sound stored List.mem_cons_self
  have beside := Map.bucket_of_key sound stored (List.mem_cons_of_mem _ List.mem_cons_self)
  have size : m.table.length = clientsMax * 2 ^ n := by
    rw [← width, Map.keyTable, List.length_map]
  rw [placed, size] at beside
  have distinct : first ≠ second := by
    rintro rfl
    exact (List.nodup_cons.mp once).1 List.mem_cons_self
  apply Near.apart (near first _) (near second _) distinct n beside
  · exact List.mem_flatten.mpr ⟨_, member, List.mem_cons_self⟩
  · exact List.mem_flatten.mpr ⟨_, member, List.mem_cons_of_mem _ List.mem_cons_self⟩

end Buckets

/-! ## The two tables -/

/-- The open sockets are those of the clients, all of them near. -/
structure Sockets (d : Nat) (app : App) : Prop where
  wired : app.Wired
  near : ∀ h, (app.outOf h).isSome → Near d h
  doubled : Doubled app.clients
  opened : ∀ h, isOpen h app.trace = (app.outOf h).isSome

/-- The handles of users are near. -/
structure Seats (d : Nat) (app : App) : Prop where
  sound : app.fromHandle.Sound handleHash handleEq
  near : ∀ h, (app.ptrOf h).isSome → Near d h
  doubled : Doubled app.fromHandle
  users : ∀ q user, app.userAt q = some user → Near d user.handle

section Operations
variable {d : Nat} {env : Env} {self : Handle} {app app' : App}

theorem isOpen_append (h : Handle) (trace events : List Event) :
    isOpen h (trace ++ events) = events.foldl (Event.opens h) (isOpen h trace) := List.foldl_append

/-- Events that accept and close nothing. -/
theorem isOpen_aside {events : List Event} (aside : ∀ e ∈ events, ∀ k, e ≠ .accepted k ∧ e ≠ .closed k)
    (h : Handle) (trace : List Event) : isOpen h (trace ++ events) = isOpen h trace := by
  induction events generalizing trace with
  | nil => rw [List.append_nil]
  | cons e rest ih =>
    have one : isOpen h (trace ++ [e]) = isOpen h trace := by
      have first := aside e List.mem_cons_self
      rw [isOpen_append]
      cases e with
      | accepted k => exact absurd rfl (first k).1
      | closed k => exact absurd rfl (first k).2
      | _ => rfl
    rw [List.append_cons, ih fun e member => aside e (List.mem_cons_of_mem _ member), one]

theorem Pours.sockets {out : Handle → Bytes} {events : List Event} (poured : Pours out events app app')
    (aside : ∀ e ∈ events, ∀ k, e ≠ .accepted k ∧ e ≠ .closed k) (sockets : Sockets d app) :
    Sockets d app' := by
  have present : ∀ h, (app'.outOf h).isSome = (app.outOf h).isSome := by
    intro h
    rw [poured.grown, Option.isSome_map]
  refine ⟨poured.wired, fun h held => ?_, ?_, fun h => ?_⟩
  · rw [present] at held
    exact sockets.near h held
  · obtain ⟨n, width⟩ := sockets.doubled
    exact ⟨n, by rw [poured.layout, width]⟩
  · rw [poured.trace, isOpen_aside aside, sockets.opened, present]

theorem seats_same (same : SameUsers app app') (seats : Seats d app) : Seats d app' := by
  obtain ⟨sound, near, doubled, users⟩ := seats
  refine ⟨by rw [same.2]; exact sound, fun h there => near h ?_, by rw [same.2]; exact doubled,
    fun q user live => users q user ?_⟩
  · rw [App.ptrOf, same.2] at there
    exact there
  · rw [App.userAt, same.1] at live
    exact live

theorem Effect.seats (effect : Effect env self app app') (own : Near d self) (seats : Seats d app) :
    Seats d app' := by
  have users : ∀ q user, app'.userAt q = some user → Near d user.handle := by
    intro q user there
    cases effect.stems there with
    | kept live same =>
      rw [same]
      exact seats.users q _ live
    | fresh => exact own
  cases effect with
  | answer _ _ ran => exact seats_same (printFmt_sameUsers ran) seats
  | send _ _ ran => exact seats_same (sendFmt_sameUsers ran) seats
  | prompt _ _ ran => exact seats_same (prompt_sameUsers ran) seats
  | interrupt _ _ ran => exact seats_same (printFmt_sameUsers ran) seats
  | takeLine _ ran => exact seats_same (takeLine_sameUsers ran) seats
  | names | setUser | alloc => exact ⟨seats.sound, seats.near, seats.doubled, users⟩
  | free ran =>
    cases freeUser_heap ran
    exact ⟨seats.sound, seats.near, seats.doubled, users⟩
  | @enroll q fromHandle ran =>
    obtain ⟨sound, found, capacity⟩ := Map.set_eq_ok handleEq_exact seats.sound ran
    refine ⟨sound, fun h there => ?_, doubled_set seats.doubled capacity, users⟩
    change (fromHandle.find handleHash handleEq h).isSome at there
    rw [found, Function.update_apply] at there
    split at there
    · rename_i same
      rw [same]
      exact own
    · exact seats.near h there
  | @dismiss gone fromHandle ran =>
    obtain ⟨sound, found, capacity⟩ := Map.remove_eq_ok handleEq_exact seats.sound ran
    refine ⟨sound, fun h there => ?_, ?_, users⟩
    · change (fromHandle.find handleHash handleEq h).isSome at there
      rw [found, Function.update_apply] at there
      split at there
      · cases there
      · exact seats.near h there
    · obtain ⟨n, width⟩ := seats.doubled
      exact ⟨n, capacity.trans width⟩

theorem Effects.seats (path : Effects env self app app') (own : Near d self) (seats : Seats d app) :
    Seats d app' := by
  induction path with
  | refl => exact seats
  | tail _ effect ih => exact effect.seats own ih

/-- A confirmed exit concerns no user and no socket. -/
theorem Confirms.housed {p : UserPtr} (confirms : Confirms p self app app') (sockets : Sockets d app)
    (seats : Seats d app) : Sockets d app' ∧ Seats d app' := by
  obtain ⟨taken, out, charged, _, handled⟩ :
      ∃ taken out, Charges .idle (taken ++ [.goodbye self]) app app' ∧ _ := confirms.charges sockets.wired
  refine ⟨charged.sockets (fun e member k => ?_) sockets, seats_same confirms.sameUsers seats⟩
  obtain early | late := List.mem_append.mp member
  · obtain ⟨_, _, rfl⟩ := handled e early
    simp
  · rw [List.mem_singleton.mp late]
    simp

theorem Effects.sockets (path : Effects env self app app') (sockets : Sockets d app) : Sockets d app' := by
  obtain ⟨events, charged, aside⟩ := path.charges sockets.wired
  apply charged.sockets _ sockets
  intro e member k
  have quiet := aside e member
  constructor <;> rintro rfl <;> cases quiet

end Operations

/-! ## Connections -/

section Connections
variable {d : Nat} {env : Env} {app app' : App}

theorem isOpen_closing (h : Handle) (trace : List Event) (gone : List Handle) :
    isOpen h (trace ++ gone.map .closed) = (isOpen h trace && decide (h ∉ gone)) := by
  induction gone generalizing trace with
  | nil => simp
  | cons k rest ih =>
    rw [List.map_cons, List.append_cons, ih, isOpen_append]
    by_cases same : k = h
    · simp [Event.opens, same]
    · simp [Event.opens, same, Ne.symm same]

theorem Sweeps.sockets (swept : Sweeps app app') (sockets : Sockets d app) : Sockets d app' := by
  obtain ⟨gone, trace, left⟩ := swept.trace
  refine ⟨swept.wired, fun h held => sockets.near h ((left h).mp held).1, ?_, fun h => ?_⟩
  · obtain ⟨n, width⟩ := sockets.doubled
    exact ⟨n, swept.capacity.trans width⟩
  · have present : (app'.outOf h).isSome = ((app.outOf h).isSome && decide (h ∉ gone)) := by
      rw [Bool.eq_iff_iff, left, Bool.and_eq_true, decide_eq_true_eq]
    rw [trace, isOpen_closing, sockets.opened, present]

theorem Flushed.sockets {taken : List (Handle × Bytes)} (flushed : Flushed app taken app')
    (sockets : Sockets d app) : Sockets d app' := by
  have present : ∀ h, (app'.outOf h).isSome = (app.outOf h).isSome := by
    intro h
    rw [flushed.whole, Option.isSome_map]
  refine ⟨flushed.wired, fun h held => ?_, ?_, fun h => ?_⟩
  · rw [present] at held
    exact sockets.near h held
  · obtain ⟨n, width⟩ := sockets.doubled
    exact ⟨n, by rw [flushed.layout, width]⟩
  · rw [flushed.trace, sockets.opened, present]

/-- The descriptors behind the process's own. -/
def nearby (d : Nat) : List Handle := (List.range clientsMax).map fun i : Nat => ((d + i : Nat) : Handle)

theorem mem_nearby {h : Handle} : h ∈ nearby d ↔ d ≤ h ∧ h < d + clientsMax := by
  simp only [nearby, List.mem_map, List.mem_range]
  constructor
  · rintro ⟨i, inside, rfl⟩
    exact ⟨Int.ofNat_le.mpr (Nat.le_add_right d i), Int.ofNat_lt.mpr (Nat.add_lt_add_left inside d)⟩
  · rintro ⟨low, high⟩
    obtain ⟨i, rfl⟩ := Int.le.dest low
    exact ⟨i, Int.ofNat_lt.mp (Int.lt_of_add_lt_add_left high), rfl⟩

theorem mem_clients (wired : app.Wired) {h : Handle} : h ∈ app.clients.keys ↔ (app.outOf h).isSome := by
  rw [Map.mem_keys handleEq_exact wired.clients, App.outOf, Option.isSome_map]
  rfl

/-- There are never more clients than the server takes. -/
theorem Sockets.bounded (sockets : Sockets d app) : app.clients.keys.length ≤ clientsMax := by
  have once : app.clients.keys.Nodup := Map.keys_nodup handleEq_exact sockets.wired.clients
  have inside : app.clients.keys ⊆ nearby d := by
    intro h listed
    have near := sockets.near h ((mem_clients sockets.wired).mp listed)
    exact mem_nearby.mpr ⟨near.1, near.2.1⟩
  have size := (List.subperm_of_subset once inside).length_le
  simpa [nearby] using size

/-- While the server is not full, a descriptor nearby is free. -/
theorem Sockets.free_nearby (sockets : Sockets d app) (room : app.clients.len ≠ clientsMax) :
    ∃ h ∈ nearby d, app.outOf h = none := by
  by_contra all
  have once : (nearby d).Nodup :=
    List.nodup_range.map fun i j same => Nat.add_left_cancel (Int.ofNat_inj.mp same)
  have inside : nearby d ⊆ app.clients.keys := by
    intro h member
    rw [mem_clients sockets.wired, Option.isSome_iff_ne_none]
    exact fun free => all ⟨h, member, free⟩
  have size := (List.subperm_of_subset once inside).length_le
  rw [nearby, List.length_map, List.length_range] at size
  exact room ((Map.len_keys sockets.wired.clients).trans (Nat.le_antisymm sockets.bounded size))

/-- A client that is let in gets a descriptor nearby, and one that no other has. -/
theorem handleConn_sockets (sockets : Sockets d app)
    (lowest : ∀ fd nonblocking ntop, env.accept = .socket fd nonblocking ntop →
      IsLeast {n | 0 ≤ n ∧ ¬ Held d app n} fd ∧ fd < 2 ^ 31)
    (ran : handleConn env app = .ok app') : Sockets d app' := by
  obtain rfl | ⟨fd, accepting, room, wired, entered, capacity, trace⟩ := handleConn_enters sockets.wired ran
  · exact sockets
  obtain ⟨⟨⟨natural, free⟩, least⟩, int⟩ := lowest fd true true accepting
  have near : Near d fd := by
    obtain ⟨n, nearby, unused⟩ := sockets.free_nearby room
    obtain ⟨low, high⟩ := mem_nearby.mp nearby
    refine ⟨?_, lt_of_le_of_lt (least ⟨le_trans (Int.natCast_nonneg d) low, ?_⟩) high, int⟩
    · exact le_of_not_gt fun below => free (.inl ⟨natural, below⟩)
    · rintro (⟨_, below⟩ | opened)
      · exact absurd low (not_le_of_gt below)
      · rw [sockets.opened, unused] at opened
        cases opened
  have present : ∀ h, (app'.outOf h).isSome = (decide (fd = h) || (app.outOf h).isSome) := by
    intro h
    rw [App.outOf, App.outOf, entered, Function.update_apply]
    by_cases same : h = fd
    · simp [same]
    · simp [same, Ne.symm same]
  refine ⟨wired, fun h held => ?_, doubled_set sockets.doubled capacity, fun h => ?_⟩
  · rw [present, Bool.or_eq_true, decide_eq_true_eq] at held
    obtain rfl | there := held
    · exact near
    · exact sockets.near h there
  · rw [trace, isOpen_append, sockets.opened, present]
    by_cases same : fd = h <;> simp [Event.opens, same]

end Connections

/-! ## Whole runs -/

section Runs
variable {d : Nat} {env : Env} {sys sys' : Sys}

/-- Every operation keeps the sockets and the users where they belong. -/
theorem step_housed (sockets : Sockets d sys.app) (seats : Seats d sys.app) (lowest : LowestFree d env sys)
    (ran : step env sys = .ok sys') : Sockets d sys'.app ∧ Seats d sys'.app := by
  obtain ⟨_, _, operation⟩ := step_operation ran
  cases operation with
  | still => exact ⟨sockets, seats⟩
  | sweeps _ sweeping =>
    exact ⟨(sweep_sweeps sockets.wired sweeping).sockets sockets, seats_same (sweep_sameUsers sweeping) seats⟩
  | @connects polled _ _ waiting connecting =>
    have free := fun fd nonblocking ntop => lowest polled fd nonblocking ntop waiting
    exact ⟨handleConn_sockets sockets free connecting, seats_same (handleConn_sameUsers connecting) seats⟩
  | receives _ receiving =>
    obtain ⟨events, charged, arrived⟩ := receiveOne_charges sockets.wired receiving
    refine ⟨charged.sockets (fun e member k => ?_) sockets, seats_same (receiveOne_sameUsers receiving) seats⟩
    obtain rfl | ⟨data, rfl⟩ := arrived e member <;> simp
  | flushes _ flushing =>
    obtain ⟨taken, _, flushed⟩ := flush_flushed sockets.wired flushing
    exact ⟨flushed.sockets sockets, seats_same (flush_sameUsers flushing) seats⟩
  | @speaks p user _ _ _ loaded path =>
    have own := seats.users p user (App.userAt_of_user loaded)
    exact ⟨path.sockets sockets, path.seats own seats⟩
  | confirms _ _ confirms => exact confirms.housed sockets seats
  | @renews i j s client _ _ _ turned loaded path =>
    obtain ⟨_, k, here⟩ := Map.turn_body sockets.wired.clients turned
    have stored := sockets.wired.client_at here loaded
    have own : Near d client.handle := by
      rw [sockets.wired.keyed k client stored]
      exact sockets.near k (by rw [App.outOf, stored]; rfl)
    exact ⟨path.sockets sockets, path.seats own seats⟩

theorem start_housed (d : Nat) (listener : Handle) (now : Int) :
    Sockets d (start listener now).app ∧ Seats d (start listener now).app := by
  obtain ⟨sound, empty⟩ : (Map.newReserve clientsMax : Map Handle UserPtr).Sound handleHash handleEq ∧ _ :=
    Map.newReserve_sound (by decide)
  obtain ⟨_, nobody⟩ : (Map.newReserve clientsMax : Map Handle Client).Sound handleHash handleEq ∧ _ :=
    Map.newReserve_sound (by decide)
  have out : ∀ h, (start listener now).app.outOf h = none := fun h =>
    congrArg (Option.map Client.outBuf) (nobody h)
  refine ⟨⟨start_wired listener now, fun h held => ?_, ⟨0, rfl⟩, fun h => ?_⟩,
    ⟨sound, fun h held => ?_, ⟨0, rfl⟩, nofun⟩⟩
  · rw [out] at held
    cases held
  · rw [out]
    rfl
  · change ((Map.newReserve clientsMax : Map Handle UserPtr).find handleHash handleEq h).isSome at held
    rw [empty] at held
    cases held

/-- As long as `accept` returns the lowest descriptor not in use, whatever the
order of connections and disconnections: there are never more clients than the
server takes, all handles are among the descriptors behind the process's own,
and no two of them share a bucket, whatever the capacity of the tables. -/
theorem handles_never_collide {d : Nat} {listener : Handle} {now : Int}
    (reached : Reaches step (LowestFree d) (start listener now) sys) :
    sys.app.clients.keys.length ≤ clientsMax ∧
    (∀ h, h ∈ sys.app.clients.keys ∨ h ∈ sys.app.fromHandle.keys → (d : Handle) ≤ h ∧ h < d + clientsMax) ∧
    (∀ h k, h ∈ sys.app.clients.keys ∨ h ∈ sys.app.fromHandle.keys →
      k ∈ sys.app.clients.keys ∨ k ∈ sys.app.fromHandle.keys → h ≠ k →
      handleHash h % sys.app.clients.bkts.acap ≠ handleHash k % sys.app.clients.bkts.acap ∧
      handleHash h % sys.app.fromHandle.bkts.acap ≠ handleHash k % sys.app.fromHandle.bkts.acap) ∧
    sys.app.clients.Unshared ∧ sys.app.fromHandle.Unshared := by
  have housed : Sockets d sys.app ∧ Seats d sys.app := by
    apply reached.invariant
    · exact start_housed d listener now
    · rintro env before after lowest ⟨sockets, seats⟩ stepped
      exact step_housed sockets seats lowest stepped
  obtain ⟨sockets, seats⟩ := housed
  have connected : ∀ h, h ∈ sys.app.clients.keys → Near d h := fun h listed =>
    sockets.near h ((mem_clients sockets.wired).mp listed)
  have seated : ∀ h, h ∈ sys.app.fromHandle.keys → Near d h := fun h listed =>
    seats.near h ((Map.mem_keys handleEq_exact seats.sound).mp listed)
  have near : ∀ h, h ∈ sys.app.clients.keys ∨ h ∈ sys.app.fromHandle.keys → Near d h := by
    rintro h (listed | listed)
    · exact connected h listed
    · exact seated h listed
  refine ⟨sockets.bounded, fun h listed => ⟨(near h listed).1, (near h listed).2.1⟩, ?_,
    unshared_of_near sockets.wired.clients sockets.doubled connected,
    unshared_of_near seats.sound seats.doubled seated⟩
  intro h k listed listed' distinct
  obtain ⟨n, width⟩ := sockets.doubled
  obtain ⟨n', width'⟩ := seats.doubled
  rw [Map.keyTable, List.length_map] at width width'
  rw [sockets.wired.clients.represents.acap, seats.sound.represents.acap, width, width']
  exact ⟨(near h listed).apart (near k listed') distinct n, (near h listed).apart (near k listed') distinct n'⟩

/-- The check of `LowestFree`. -/
private def lowest (d : Nat) (env : Env) (sys : Sys) : Bool :=
  match sys.point, env.accept with
  | .wait _, .socket fd _ _ =>
    decide ((d : Handle) ≤ fd ∧ fd < 2 ^ 31 ∧ isOpen fd sys.app.trace = false ∧
      ∀ i ∈ List.range (fd - d).toNat, isOpen ((d + i : Nat) : Handle) sys.app.trace = true)
  | _, _ => true

private theorem lowestFree_of_check (checked : lowest d env sys = true) : LowestFree d env sys := by
  intro polled fd nonblocking ntop waiting accepting
  rw [lowest, waiting, accepting, decide_eq_true_eq] at checked
  obtain ⟨behind, int, closed, before⟩ := checked
  refine ⟨⟨⟨le_trans (Int.natCast_nonneg d) behind, ?_⟩, ?_⟩, int⟩
  · rintro (⟨_, below⟩ | opened)
    · exact absurd behind (not_le_of_gt below)
    · rw [closed] at opened
      cases opened
  · rintro n ⟨natural, free⟩
    by_contra below
    rw [not_le] at below
    apply free
    by_cases own : n < d
    · exact .inl ⟨natural, own⟩
    · obtain ⟨i, rfl⟩ := Int.le.dest (not_lt.mp own)
      have inside : i < (fd - d).toNat := Int.lt_toNat.mpr (Int.lt_sub_left_of_add_lt below)
      exact .inr (before i (List.mem_range.mpr inside))

/-- Two connections, of which one ends, and a third on its descriptor. -/
private def reuse : List (Nat × Env) :=
  [(107, .connects 4), (110, .connects 5), (111, .ends 4), (20, .connects 4)]

/-- The descriptor is used again, while the other client stays. -/
theorem handles_never_collide_reused : ∃ sys : Sys,
    Reaches step (LowestFree 4) (start 3 0) sys ∧ .closed 4 ∈ sys.app.trace ∧
      sys.app.clients.keys = [4, 5] ∧ sys.app.clients.keys.length ≤ clientsMax ∧
      sys.app.clients.Unshared ∧ sys.app.fromHandle.Unshared := by
  have outcome : (drive step (lowest 4) .assertion (rounds reuse) (start 3 0)).map (fun sys =>
      (decide (.closed 4 ∈ sys.app.trace), sys.app.clients.keys)) = .ok (true, [4, 5]) := by
    decide +kernel
  obtain ⟨sys, driven, outcome⟩ := map_eq_ok.mp outcome
  obtain ⟨closed, keys⟩ := Prod.mk.inj outcome
  have reached : Reaches step (LowestFree 4) (start 3 0) sys :=
    drive_reaches (fun _ _ _ => lowestFree_of_check) driven
  obtain ⟨bounded, _, _, clients, users⟩ := handles_never_collide reached
  exact ⟨sys, reached, of_decide_eq_true closed, keys, bounded, clients, users⟩

end Runs

end AuroraComms
