import AuroraComms.Accounts
import AuroraComms.Refinement
import Mathlib.Data.List.Induction

/-! Where the goodbye stands in what a client reads. `ac_server_remove_client`
writes it to the socket at once, past the out buffer and whatever the socket
takes of it, and the next poll disconnects the client before its sends. -/
namespace AuroraComms
open Meta Library.Run

/-! ## What a client reads -/

/-- What was put on a client's socket, and what the server emitted for it, since
its last accept. Of a goodbye, the socket has what `send` took and the server
emitted all. -/
structure Streams where
  heard : Bytes
  emitted : Bytes
  deriving DecidableEq, Repr

def Streams.note (h : Handle) (streams : Streams) : Posting → Streams
  | .accepted k => if k = h then ⟨[], []⟩ else streams
  | .put k data => if k = h then { streams with heard := streams.heard ++ data } else streams
  | .queued k data => if k = h then { streams with emitted := streams.emitted ++ data } else streams
  | .removed k _ taken =>
    if k = h then ⟨streams.heard ++ taken, streams.emitted ++ goodbyeText⟩ else streams
  | .closed _ => streams

def streamsOf (h : Handle) (entries : List Posting) : Streams :=
  entries.foldl (Streams.note h) ⟨[], []⟩

/-- What a user that confirms its exit is promised. -/
structure Parting (entries : List Posting) : Prop where
  /-- All that was queued for the client is on its socket before the goodbye. -/
  goodbye_last : ∀ before h pending taken after, entries = before ++ .removed h pending taken :: after →
    (accountOf h before).put = (accountOf h before).queued
  /-- The disconnection drops none of it. -/
  none_dropped : ∀ before h pending taken between after,
    entries = before ++ .removed h pending taken :: (between ++ .closed h :: after) →
    .accepted h ∉ between →
    (accountOf h before).queued <+: (accountOf h (before ++ .removed h pending taken :: between)).put
  /-- The client reads what the server emitted for it, in that order. -/
  in_order : ∀ before h pending taken after, entries = before ++ .removed h pending taken :: after →
    (streamsOf h (before ++ [.removed h pending taken])).heard =
      (streamsOf h (before ++ [.removed h pending taken])).emitted

section Streams
variable {h : Handle} {entries : List Posting}

theorem streamsOf_snoc (h : Handle) (entries : List Posting) (e : Posting) :
    streamsOf h (entries ++ [e]) = Streams.note h (streamsOf h entries) e := List.foldl_append

theorem accountOf_snoc (h : Handle) (entries : List Posting) (e : Posting) :
    accountOf h (entries ++ [e]) = Account.note h (accountOf h entries) e := List.foldl_append

/-- Without a new accept, what was put stays put. -/
theorem put_prefix (account : Account) (old : .accepted h ∉ entries) :
    account.put <+: (entries.foldl (Account.note h) account).put := by
  induction entries generalizing account with
  | nil => exact List.prefix_rfl
  | cons e rest ih =>
    rw [List.mem_cons, not_or] at old
    obtain ⟨first, later⟩ := old
    rw [List.foldl_cons]
    refine List.IsPrefix.trans ?_ (ih _ later)
    cases e with
    | accepted k =>
      have other : k ≠ h := fun same => first (by rw [same])
      simp [Account.note, other]
    | put k data =>
      by_cases mine : k = h
      · rw [Account.note, if_pos mine]
        exact List.prefix_append _ _
      · simp [Account.note, mine]
    | queued k data =>
      by_cases mine : k = h <;> simp [Account.note, mine]
    | removed | closed => exact List.prefix_rfl

/-- What was heard and emitted agrees up to the last goodbye; after it, the
account goes on from what was put and queued by then. -/
def Agrees (streams : Streams) (account : Account) : Prop :=
  ∃ common n, n ≤ account.put.length ∧ n ≤ account.queued.length ∧
    streams.heard = common ++ account.put.drop n ∧ streams.emitted = common ++ account.queued.drop n

/-- With nothing pending the streams are the same. -/
theorem Agrees.same {streams : Streams} {account : Account} (agrees : Agrees streams account)
    (level : account.put = account.queued) : streams.heard = streams.emitted := by
  obtain ⟨common, n, _, _, heard, emitted⟩ := agrees
  rw [heard, emitted, level]

/-- Every goodbye so far found nothing pending; and one that is heard after all that
was emitted before it is heard whole. -/
structure Level (entries : List Posting) : Prop where
  put_queued : ∀ before h pending taken after, entries = before ++ .removed h pending taken :: after →
    (accountOf h before).put = (accountOf h before).queued
  taken_whole : ∀ before h pending taken after, entries = before ++ .removed h pending taken :: after →
    (streamsOf h before).heard = (streamsOf h before).emitted → taken = goodbyeText

theorem Level.front {back : List Posting} (level : Level (entries ++ back)) : Level entries where
  put_queued before h pending taken after split :=
    level.put_queued before h pending taken (after ++ back)
      (by rw [split, List.append_assoc, List.cons_append])
  taken_whole before h pending taken after split :=
    level.taken_whole before h pending taken (after ++ back)
      (by rw [split, List.append_assoc, List.cons_append])

theorem streams_agree (level : Level entries) (h : Handle) :
    Agrees (streamsOf h entries) (accountOf h entries) := by
  induction entries using List.reverseRecOn with
  | nil => exact ⟨[], 0, Nat.le_refl 0, Nat.le_refl 0, rfl, rfl⟩
  | append_singleton entries e ih =>
    obtain ⟨common, n, put, queued, heard, emitted⟩ := ih level.front
    rw [streamsOf_snoc, accountOf_snoc]
    cases e with
    | accepted k =>
      by_cases mine : k = h
      · simp only [Streams.note, Account.note, if_pos mine]
        exact ⟨[], 0, Nat.le_refl 0, Nat.le_refl 0, rfl, rfl⟩
      · simp only [Streams.note, Account.note, if_neg mine]
        exact ⟨common, n, put, queued, heard, emitted⟩
    | put k data =>
      by_cases mine : k = h
      · simp only [Streams.note, Account.note, if_pos mine]
        refine ⟨common, n, by rw [List.length_append]; omega, queued, ?_, emitted⟩
        rw [heard, List.drop_append_of_le_length put, List.append_assoc]
      · simp only [Streams.note, Account.note, if_neg mine]
        exact ⟨common, n, put, queued, heard, emitted⟩
    | queued k data =>
      by_cases mine : k = h
      · simp only [Streams.note, Account.note, if_pos mine]
        refine ⟨common, n, put, by rw [List.length_append]; omega, heard, ?_⟩
        rw [emitted, List.drop_append_of_le_length queued, List.append_assoc]
      · simp only [Streams.note, Account.note, if_neg mine]
        exact ⟨common, n, put, queued, heard, emitted⟩
    | removed k pending taken =>
      by_cases mine : k = h
      · simp only [Streams.note, Account.note, if_pos mine]
        subst mine
        have nothing := level.put_queued entries k pending taken [] rfl
        have same := (ih level.front).same nothing
        have whole := level.taken_whole entries k pending taken [] rfl same
        refine ⟨(streamsOf k entries).heard ++ taken, (accountOf k entries).put.length, Nat.le_refl _,
          Nat.le_of_eq (by rw [nothing]), ?_, ?_⟩
        · rw [List.drop_length, List.append_nil]
        · rw [same, whole, nothing, List.drop_length, List.append_nil]
      · simp only [Streams.note, Account.note, if_neg mine]
        exact ⟨common, n, put, queued, heard, emitted⟩
    | closed => exact ⟨common, n, put, queued, heard, emitted⟩

/-- The promise is kept exactly when every goodbye finds nothing pending and is
taken whole. -/
theorem parting_iff : Parting entries ↔
    ∀ before h pending taken after, entries = before ++ .removed h pending taken :: after →
      (accountOf h before).put = (accountOf h before).queued ∧ taken = goodbyeText := by
  constructor
  · intro parting before h pending taken after split
    have level : Level entries := by
      refine ⟨parting.goodbye_last, fun before h pending taken after split same => ?_⟩
      have read := parting.in_order before h pending taken after split
      rw [streamsOf_snoc, Streams.note, if_pos rfl, same] at read
      exact List.append_cancel_left read
    have nothing := level.put_queued before h pending taken after split
    have before_level : Level before := (split ▸ level).front
    exact ⟨nothing, level.taken_whole before h pending taken after split
      ((streams_agree before_level h).same nothing)⟩
  · intro kept
    have level : Level entries :=
      ⟨fun before h pending taken after split => (kept before h pending taken after split).1,
        fun before h pending taken after split _ => (kept before h pending taken after split).2⟩
    refine ⟨level.put_queued, fun before h pending taken between after split old => ?_,
      fun before h pending taken after split => ?_⟩
    · rw [← level.put_queued _ _ _ _ _ split, accountOf_append]
      apply put_prefix
      simpa using old
    · have before_level : Level before := (split ▸ level).front
      have same := (streams_agree before_level h).same (level.put_queued _ _ _ _ _ split)
      rw [streamsOf_snoc, Streams.note, if_pos rfl, same, (kept _ _ _ _ _ split).2]

end Streams

/-! ## What is pending at an exit -/

/-- What was put before a removal, and what was pending then, is what was queued. -/
def Settles (entries : List Posting) : Prop :=
  ∀ before h pending taken after, entries = before ++ .removed h pending taken :: after →
    (accountOf h before).put ++ pending = (accountOf h before).queued

/-- Where an element of a list put together stands. -/
theorem split_append {α : Type} {first second before after : List α} {x : α}
    (split : first ++ second = before ++ x :: after) :
    (∃ rest, first = before ++ x :: rest) ∨ ∃ rest, second = rest ++ x :: after ∧ before = first ++ rest := by
  obtain ⟨rest, rfl, tail⟩ | ⟨rest, rfl, tail⟩ := List.append_eq_append_iff.mp split
  · exact .inr ⟨rest, tail, rfl⟩
  · cases rest with
    | nil => exact .inr ⟨[], tail.symm, by simp⟩
    | cons y rest =>
      obtain ⟨rfl, -⟩ := List.cons.inj tail
      exact .inl ⟨rest, rfl⟩

theorem Settles.append {entries new : List Posting} (settled : Settles entries)
    (old : ∀ h pending taken, .removed h pending taken ∉ new) : Settles (entries ++ new) := by
  intro before h pending taken after split
  obtain ⟨rest, inside⟩ | ⟨rest, inside, -⟩ := split_append split
  · exact settled _ _ _ _ _ inside
  · exact absurd (by rw [inside]; simp) (old h pending taken)

section Settling
variable {env : Env} {app app' : App} {entries : List Posting}

theorem removed_of_entries {events : List Event} {h : Handle} {pending taken : Bytes}
    (member : .removed h pending taken ∈ events.flatMap (Event.entries env app)) : .goodbye h ∈ events := by
  obtain ⟨e, noted, inside⟩ := List.mem_flatMap.mp member
  cases e with
  | goodbye k =>
    cases List.mem_singleton.mp inside
    exact noted
  | _ => simp [Event.entries] at inside

/-- An operation removes at most one client, whose pending output its account tells. -/
theorem Outcome.settles {events : List Event} {taken : List (Handle × Bytes)}
    (outcome : Outcome env app app' events taken) (balanced : Balances app entries)
    (settled : Settles entries) :
    Settles (entries ++ events.flatMap (Event.entries env app) ++ taken.map fun put => .put put.1 put.2) := by
  have sends : ∀ h pending heard,
      Posting.removed h pending heard ∉ taken.map fun put => .put put.1 put.2 := by simp
  refine Settles.append ?_ sends
  have quiet : (∀ h, .goodbye h ∉ events) → Settles (entries ++ events.flatMap (Event.entries env app)) :=
    fun none => settled.append fun h _ _ member => none h (removed_of_entries member)
  cases outcome with
  | ordinary charged aside => exact quiet fun h member => by cases aside _ member
  | sweeps swept closed => exact quiet fun h member => by obtain ⟨_, same⟩ := closed _ member; cases same
  | accepts => exact quiet fun h => by simp
  | flushes => exact quiet nofun
  | @confirms events self out charged connected handled =>
    have silent : events.flatMap (Event.entries env app) = [] := by
      rw [List.flatMap_eq_nil_iff]
      intro e member
      obtain ⟨_, _, rfl⟩ := handled e member
      rfl
    have noted : (events ++ [Event.goodbye self]).flatMap (Event.entries env app) =
        [.removed self out (env.takes self goodbyeText)] := by
      rw [List.flatMap_append, silent]
      simp [Event.entries, connected]
    rw [noted]
    intro before h pending heard after split
    obtain ⟨rest, inside⟩ | ⟨rest, inside, whole⟩ := split_append split
    · exact settled _ _ _ _ _ inside
    · cases rest with
      | nil =>
        cases inside
        rw [whole, List.append_nil]
        exact balanced self out connected
      | cons _ rest => cases rest <;> cases inside

end Settling

/-! ## Whole runs -/

section Runs
variable {listener : Handle} {now : Int} {tape : Tape}

/-- On every run, the removals settle. -/
theorem run_settles (reached : Reaches Tape.step (fun _ _ => True) (Tape.start listener now) tape) :
    tape.sys.app.Wired ∧ Balances tape.sys.app tape.entries ∧ Settles tape.entries := by
  apply reached.invariant
  · refine ⟨start_wired listener now, start_balances listener now, ?_⟩
    intro before h pending taken after split
    cases before <;> cases split
  · rintro call before after - ⟨wired, balanced, settled⟩ ran
    cases call with
    | main env =>
      obtain ⟨sys', stepped, ran⟩ := bind_eq_ok.mp ran
      obtain ⟨taken, recorded, same⟩ := bind_eq_ok.mp ran
      cases same
      obtain ⟨events, trace, outcome⟩ := step_outcome wired stepped recorded
      dsimp only
      rw [trace, List.drop_left]
      obtain ⟨wired', balanced'⟩ := outcome.balances balanced
      exact ⟨wired', balanced', outcome.settles balanced settled⟩
    | send k data =>
      obtain ⟨app', sent, same⟩ := bind_eq_ok.mp ran
      cases same
      obtain ⟨wired', balanced'⟩ := serverSend_balances wired balanced sent
      exact ⟨wired', balanced', settled.append (by simp)⟩

theorem pending_nil {entries : List Posting} (settled : Settles entries) (parting : Parting entries)
    {h : Handle} {pending taken : Bytes} (member : .removed h pending taken ∈ entries) : pending = [] := by
  obtain ⟨before, after, split⟩ := List.append_of_mem member
  have whole := settled before h pending taken after split
  rw [← parting.goodbye_last _ _ _ _ _ split] at whole
  exact List.append_right_eq_self.mp whole

/-- On every run, whatever the sends took, the exits keep their promise exactly
when nothing is pending at any of them and the socket takes the whole goodbye. -/
theorem exit_keeps_output_iff
    (reached : Reaches Tape.step (fun _ _ => True) (Tape.start listener now) tape) :
    Parting tape.entries ↔
      ∀ h pending taken, .removed h pending taken ∈ tape.entries → pending = [] ∧ taken = goodbyeText := by
  obtain ⟨-, -, settled⟩ := run_settles reached
  constructor
  · intro parting h pending taken member
    obtain ⟨before, after, split⟩ := List.append_of_mem member
    exact ⟨pending_nil settled parting member, (parting_iff.mp parting before h pending taken after split).2⟩
  · intro kept
    rw [parting_iff]
    intro before h pending taken after split
    obtain ⟨none, whole⟩ := kept h pending taken (by rw [split]; simp)
    have settles := settled _ _ _ _ _ split
    rw [none, List.append_nil] at settles
    exact ⟨settles, whole⟩

/-- The out buffer that a confirmed exit finds, and what is taken of its goodbye. -/
private def Posting.parting : Posting → Option (Bytes × Bytes)
  | .removed _ pending taken => some (pending, taken)
  | _ => none

/-- Sockets that take everything. -/
private def Env.listens (env : Env) : Env := { env with send := fun _ data => some data.length }

/-- A user that enters, asks for the exit and confirms it, and everything that is
sent to it is taken. -/
private def hearing : List (Nat × Env) :=
  [(107, (Env.connects 4).listens), (109, (Env.brings 4 (bytes "amy\n/exit\ny\n")).listens),
    (215, Env.pauses.listens)]

/-- It is promised what it should be. -/
theorem exit_keeps_output_iff_heard : ∃ tape : Tape,
    Reaches Tape.step (fun _ _ => True) (Tape.start 3 0) tape ∧ .closed 4 ∈ tape.entries ∧
      .removed 4 [] goodbyeText ∈ tape.entries ∧ Parting tape.entries := by
  have outcome : (drive Tape.step (fun _ _ => true) .assertion ((rounds hearing).map .main)
      (Tape.start 3 0)).map (fun tape => (decide (.closed 4 ∈ tape.entries),
        decide (.removed 4 [] goodbyeText ∈ tape.entries), tape.entries.filterMap Posting.parting)) =
      .ok (true, true, [([], goodbyeText)]) := by
    decide +kernel
  obtain ⟨tape, driven, outcome⟩ := map_eq_ok.mp outcome
  obtain ⟨closed, outcome⟩ := Prod.mk.inj outcome
  obtain ⟨removed, partings⟩ := Prod.mk.inj outcome
  have reached : Reaches Tape.step (fun _ _ => True) (Tape.start 3 0) tape :=
    drive_reaches (fun _ _ _ _ => trivial) driven
  refine ⟨tape, reached, of_decide_eq_true closed, of_decide_eq_true removed,
    (exit_keeps_output_iff reached).mpr fun h pending taken member => ?_⟩
  have found : (pending, taken) ∈ tape.entries.filterMap Posting.parting :=
    List.mem_filterMap.mpr ⟨.removed h pending taken, member, rfl⟩
  rw [partings] at found
  exact Prod.mk.inj (List.mem_singleton.mp found)

/-- A user that enters, asks for the exit and confirms it. Its socket takes nothing
in the sends of the polls, and has room again at the goodbye. -/
private def crowded : List (Nat × Env) :=
  [(107, .connects 4), (109, .brings 4 (bytes "amy\n/exit\ny\n")), (110, .pauses),
    (105, Env.pauses.listens)]

/-- It reads the goodbye first, and nothing of what was queued for it ever. -/
theorem exit_drops_output : ∃ tape : Tape,
    Reaches Tape.step (fun _ _ => True) (Tape.start 3 0) tape ∧ ¬ Parting tape.entries ∧
      .closed 4 ∈ tape.entries ∧ (streamsOf 4 tape.entries).heard = goodbyeText ∧
      (accountOf 4 tape.entries).put = [] ∧ (accountOf 4 tape.entries).queued ≠ [] := by
  have outcome : (drive Tape.step (fun _ _ => true) .assertion ((rounds crowded).map .main)
      (Tape.start 3 0)).map (fun tape => (decide (.closed 4 ∈ tape.entries),
        decide ((streamsOf 4 tape.entries).heard = goodbyeText), (accountOf 4 tape.entries).put,
        decide (.removed 4 (accountOf 4 tape.entries).queued goodbyeText ∈ tape.entries),
        decide ((accountOf 4 tape.entries).queued = []))) =
      .ok (true, true, [], true, false) := by
    decide +kernel
  obtain ⟨tape, driven, outcome⟩ := map_eq_ok.mp outcome
  obtain ⟨closed, outcome⟩ := Prod.mk.inj outcome
  obtain ⟨heard, outcome⟩ := Prod.mk.inj outcome
  obtain ⟨put, outcome⟩ := Prod.mk.inj outcome
  obtain ⟨removed, left⟩ := Prod.mk.inj outcome
  have reached : Reaches Tape.step (fun _ _ => True) (Tape.start 3 0) tape :=
    drive_reaches (fun _ _ _ _ => trivial) driven
  refine ⟨tape, reached, fun parting => ?_, of_decide_eq_true closed, of_decide_eq_true heard, put,
    of_decide_eq_false left⟩
  exact of_decide_eq_false left (pending_nil (run_settles reached).2.2 parting (of_decide_eq_true removed))

end Runs

end AuroraComms
