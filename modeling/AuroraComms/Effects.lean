import AuroraComms.Output
import AuroraComms.Meta.MapSuccess
import Mathlib.Logic.Relation

/-! Every successful run of the application's half of the main loop, cut into
primitive operations on behalf of one client. Nothing is assumed of the tables
or of the objects the pointers lead to, so what all operations preserve holds on
every run, also where a loop went astray. -/
namespace AuroraComms
open Meta Library.Run

/-- The bytes `ac_get_line` keeps. -/
def Plain (text : Bytes) : Prop := ∀ b ∈ text, isPrintable b = true

/-- A message under the name of a user, with a text that was typed in a line. -/
inductive Carried (app : App) : Msg → Prop where
  | joins {q : UserPtr} {user : User} (live : app.userAt q = some user) : Carried app (.joins user.username)
  | left {q : UserPtr} {user : User} (live : app.userAt q = some user) : Carried app (.left user.username)
  | chat {q : UserPtr} {user : User} {line : Bytes} (live : app.userAt q = some user) (plain : Plain line) :
    Carried app (.chat user.username line)
  | whisper {q : UserPtr} {user : User} {msg : Bytes} (live : app.userAt q = some user) (plain : Plain msg) :
    Carried app (.whisper user.username msg)

/-- One primitive operation for the client `self`. Only messages that are
carried go to anyone else. -/
inductive Effect (env : Env) (self : Handle) : App → App → Prop where
  | answer {app app' : App} {q : UserPtr} {user : User} {msg : Msg} (live : app.userAt q = some user)
    (own : user.handle = self) (ran : printFmt env q .afterEnter msg app = .ok app') : Effect env self app app'
  | send {app app' : App} {q : UserPtr} {user : User} {msg : Msg} (live : app.userAt q = some user)
    (own : user.handle = self) (ran : sendFmt env q msg app = .ok app') : Effect env self app app'
  | prompt {app app' : App} {q : UserPtr} {user : User} (live : app.userAt q = some user)
    (own : user.handle = self) (ran : prompt q app = .ok app') : Effect env self app app'
  | interrupt {app app' : App} {q : UserPtr} {user : User} {msg : Msg} (live : app.userAt q = some user)
    (carried : Carried app msg) (ran : printFmt env q .interrupt msg app = .ok app') : Effect env self app app'
  | takeLine {app app' : App} {s : Slot} {line : Option Bytes}
    (found : app.clients.get handleHash handleEq self = .ok s) (ran : takeLine s app = .ok (line, app')) :
    Effect env self app app'
  | setUser {app : App} {q : UserPtr} {old new : User} (live : app.userAt q = some old)
    (same : new.handle = old.handle)
    (named : new.username = old.username ∨
      ∃ line, validateUsername line = true ∧ new.username = old.username ++ line) :
    Effect env self app { app with heap := app.heap.set q (some new) }
  | names {app : App} (fromUsername : Map Bytes UserPtr) :
    Effect env self app { app with fromUsername := fromUsername }
  | alloc {app : App} : Effect env self app (app.allocUser ⟨self, .login, []⟩).2
  | enroll {app : App} {q : UserPtr} {fromHandle : Map Handle UserPtr}
    (ran : app.fromHandle.set handleHash handleEq self q = .ok fromHandle) :
    Effect env self app ({ app with fromHandle := fromHandle }.note (.userNew self))
  | dismiss {app : App} {h : Handle} {fromHandle : Map Handle UserPtr}
    (ran : app.fromHandle.remove handleHash handleEq h = .ok fromHandle) :
    Effect env self app ({ app with fromHandle := fromHandle }.note (.userRemoved h))
  | free {app app' : App} {q : UserPtr} (ran : app.freeUser q = .ok app') : Effect env self app app'

abbrev Effects (env : Env) (self : Handle) : App → App → Prop := Relation.ReflTransGen (Effect env self)

section Objects
variable {env : Env} {self : Handle} {app app' : App} {p : UserPtr} {user : User}

theorem App.userAt_of_user (ran : app.user p = .ok user) : app.userAt p = some user := by
  unfold App.user at ran
  split at ran
  · rename_i stored
    cases ran
    exact Option.join_eq_some_iff.mpr stored
  · cases ran

theorem Effects.one (effect : Effect env self app app') : Effects env self app app' :=
  Relation.ReflTransGen.single effect

/-! ## Objects keep their handles -/

/-- Sending changes no user and no table of users. -/
def SameUsers (app app' : App) : Prop := app'.heap = app.heap ∧ app'.fromHandle = app.fromHandle

theorem SameUsers.trans {app'' : App} (first : SameUsers app app') (second : SameUsers app' app'') :
    SameUsers app app'' := ⟨second.1.trans first.1, second.2.trans first.2⟩

theorem setClient_sameUsers {s : Slot} {client : Client} (ran : app.setClient s client = .ok app') :
    SameUsers app app' := by
  obtain ⟨clients, _, same⟩ := bind_eq_ok.mp ran
  cases same
  exact ⟨rfl, rfl⟩

theorem serverSend_sameUsers {h : Handle} {data : Bytes} (ran : serverSend h data app = .ok app') :
    SameUsers app app' := by
  obtain ⟨s, _, ran⟩ := bind_eq_ok.mp ran
  obtain ⟨client, _, ran⟩ := bind_eq_ok.mp ran
  exact setClient_sameUsers ran

theorem prompt_sameUsers (ran : prompt p app = .ok app') : SameUsers app app' := by
  obtain ⟨user, _, ran⟩ := bind_eq_ok.mp ran
  have noted : SameUsers app (app.note (.prompted user.handle)) := ⟨rfl, rfl⟩
  exact noted.trans (serverSend_sameUsers ran)

theorem sendFmt_sameUsers {msg : Msg} (ran : sendFmt env p msg app = .ok app') : SameUsers app app' := by
  obtain ⟨user, _, ran⟩ := bind_eq_ok.mp ran
  have noted : SameUsers app (app.note (.sent user.handle msg)) := ⟨rfl, rfl⟩
  exact noted.trans (serverSend_sameUsers ran)

theorem leadingNl_sameUsers {h : Handle} {action : Print} (ran : leadingNl h action app = .ok app') :
    SameUsers app app' := by
  cases action with
  | interrupt => exact serverSend_sameUsers ran
  | afterEnter =>
    cases ran
    exact ⟨rfl, rfl⟩

theorem printFmt_sameUsers {action : Print} {msg : Msg} (ran : printFmt env p action msg app = .ok app') :
    SameUsers app app' := by
  obtain ⟨user, _, ran⟩ := bind_eq_ok.mp ran
  obtain ⟨opened, lead, ran⟩ := bind_eq_ok.mp ran
  obtain ⟨sent, text, ran⟩ := bind_eq_ok.mp ran
  obtain ⟨ended, close, ran⟩ := bind_eq_ok.mp ran
  have noted : SameUsers opened (opened.note (.printed user.handle action msg)) := ⟨rfl, rfl⟩
  exact (((leadingNl_sameUsers lead).trans noted).trans (serverSend_sameUsers text)).trans
    ((serverSend_sameUsers close).trans (prompt_sameUsers ran))

theorem takeLine_sameUsers {s : Slot} {line : Option Bytes} (ran : takeLine s app = .ok (line, app')) :
    SameUsers app app' := by
  obtain ⟨client, _, ran⟩ := bind_eq_ok.mp ran
  obtain ⟨result, _, ran⟩ := bind_eq_ok.mp ran
  cases result with
  | none =>
    cases ran
    exact ⟨rfl, rfl⟩
  | some taken =>
    obtain ⟨after, set, same⟩ := bind_eq_ok.mp ran
    cases same
    have kept := setClient_sameUsers set
    exact ⟨kept.1, kept.2⟩

theorem freeUser_heap {q : UserPtr} (ran : app.freeUser q = .ok app') :
    app' = { app with heap := app.heap.set q none } := by
  unfold App.freeUser at ran
  split at ran
  · cases ran
    rfl
  · cases ran

/-- Where an object in the heap comes from: it was there, perhaps under another
name, or it is a new one. -/
inductive Stems (self : Handle) (app : App) (p : UserPtr) : User → Prop where
  | kept {old new : User} (live : app.userAt p = some old) (same : new.handle = old.handle)
    (named : new.username = old.username ∨
      ∃ line, validateUsername line = true ∧ new.username = old.username ++ line) : Stems self app p new
  | fresh (last : p = app.heap.length) : Stems self app p ⟨self, .login, []⟩

private theorem stems_still (live : app.userAt p = some user) : Stems self app p user :=
  .kept live rfl (.inl rfl)

private theorem stems_same (same : SameUsers app app') (live : app'.userAt p = some user) :
    Stems self app p user := by
  rw [App.userAt, same.1] at live
  exact stems_still live

/-- What an operation leaves in the heap. -/
theorem Effect.stems (effect : Effect env self app app') (live : app'.userAt p = some user) :
    Stems self app p user := by
  cases effect with
  | answer _ _ ran => exact stems_same (printFmt_sameUsers ran) live
  | send _ _ ran => exact stems_same (sendFmt_sameUsers ran) live
  | prompt _ _ ran => exact stems_same (prompt_sameUsers ran) live
  | interrupt _ _ ran => exact stems_same (printFmt_sameUsers ran) live
  | takeLine _ ran => exact stems_same (takeLine_sameUsers ran) live
  | names => exact stems_still live
  | enroll => exact stems_still live
  | dismiss => exact stems_still live
  | @setUser q old new there same named =>
    change (app.heap.set q (some new))[p]?.join = some user at live
    rw [App.userAt_set there] at live
    split at live
    · rename_i here
      subst here
      cases live
      exact .kept there same named
    · exact stems_still live
  | alloc =>
    change (app.heap ++ [some (⟨self, .login, []⟩ : User)])[p]?.join = some user at live
    rw [List.getElem?_append] at live
    split at live
    · exact stems_still live
    · rename_i behind
      obtain ⟨cell, stored, inside⟩ := Option.bind_eq_some_iff.mp live
      have first := (List.getElem?_eq_some_iff.mp stored).1
      rw [List.length_singleton, Nat.lt_one_iff, Nat.sub_eq_zero_iff_le] at first
      have only := List.mem_singleton.mp (List.mem_of_getElem? stored)
      subst only
      cases inside
      exact .fresh (Nat.le_antisymm first (Nat.le_of_not_lt behind))
  | @free _ q ran =>
    rw [freeUser_heap ran] at live
    change (app.heap.set q none)[p]?.join = some user at live
    rw [List.getElem?_set] at live
    split at live
    · split at live <;> cases live
    · exact stems_still live

/-- The heap never shrinks. -/
theorem Effect.heap_length (effect : Effect env self app app') : app.heap.length ≤ app'.heap.length := by
  cases effect with
  | answer _ _ ran => rw [(printFmt_sameUsers ran).1]
  | send _ _ ran => rw [(sendFmt_sameUsers ran).1]
  | prompt _ _ ran => rw [(prompt_sameUsers ran).1]
  | interrupt _ _ ran => rw [(printFmt_sameUsers ran).1]
  | takeLine _ ran => rw [(takeLine_sameUsers ran).1]
  | free ran => simp [freeUser_heap ran]
  | alloc => simp [App.allocUser]
  | setUser => simp
  | names | enroll | dismiss => exact Nat.le_refl _

/-- The object at a pointer is one of this client's, if it is still there. -/
def Owned (p : UserPtr) (self : Handle) (app : App) : Prop :=
  p < app.heap.length ∧ ∀ user, app.userAt p = some user → user.handle = self

theorem owned_of_user (ran : app.user p = .ok user) : Owned p user.handle app := by
  have live := App.userAt_of_user ran
  refine ⟨?_, fun other there => ?_⟩
  · obtain ⟨cell, stored, _⟩ := Option.bind_eq_some_iff.mp live
    exact (List.getElem?_eq_some_iff.mp stored).1
  · rw [live] at there
    cases there
    rfl

/-- A new object is its client's. -/
theorem owned_alloc (self : Handle) (app : App) :
    Owned app.heap.length self (app.allocUser ⟨self, .login, []⟩).2 := by
  refine ⟨by simp [App.allocUser], fun user there => ?_⟩
  simp only [App.userAt, App.allocUser, List.getElem?_concat_length, Option.join_some,
    Option.some.injEq] at there
  rw [← there]

/-- No operation hands an object over to another client. -/
theorem Effect.owned {actor : Handle} (effect : Effect env actor app app') (owned : Owned p self app) :
    Owned p self app' := by
  refine ⟨Nat.lt_of_lt_of_le owned.1 effect.heap_length, fun user there => ?_⟩
  cases effect.stems there with
  | kept live same => exact same.trans (owned.2 _ live)
  | fresh last => exact absurd owned.1 (Nat.not_lt_of_le (Nat.le_of_eq last.symm))

theorem Effects.owned {actor : Handle} (path : Effects env actor app app') (owned : Owned p self app) :
    Owned p self app' := by
  induction path with
  | refl => exact owned
  | tail _ effect ih => exact effect.owned ih

end Objects

/-! ## What a call that returns has run -/

section Calls
variable {env : Env} {app app' : App} {p : UserPtr} {line : Bytes} {s : Slot}

theorem stateNew_runs (ran : stateNew env p app = .ok app') :
    ∃ msg, printFmt env p .afterEnter msg app = .ok app' := by
  obtain ⟨user, _, ran⟩ := bind_eq_ok.mp ran
  cases state : user.state with
  | login => rw [state] at ran; exact ⟨_, ran⟩
  | chat => rw [state] at ran; exact ⟨_, ran⟩
  | exit => rw [state] at ran; exact ⟨_, ran⟩

theorem broadcastTurn_runs {msg : User → Msg} (ran : broadcastTurn env p msg s app = .ok app') :
    app' = app ∨ ∃ q user, app.user p = .ok user ∧ printFmt env q .interrupt (msg user) app = .ok app' := by
  obtain ⟨e, _, ran⟩ := bind_eq_ok.mp ran
  obtain ⟨user, loaded, ran⟩ := bind_eq_ok.mp ran
  split at ran
  · cases ran
    exact .inl rfl
  · obtain ⟨other, _, ran⟩ := bind_eq_ok.mp ran
    split at ran
    · exact .inr ⟨e.val, user, loaded, ran⟩
    · cases ran
      exact .inl rfl

theorem listTurn_runs (ran : listTurn env p s app = .ok app') :
    app' = app ∨ ∃ msg, sendFmt env p msg app = .ok app' := by
  obtain ⟨e, _, ran⟩ := bind_eq_ok.mp ran
  obtain ⟨user, _, ran⟩ := bind_eq_ok.mp ran
  split at ran
  · cases ran
    exact .inl rfl
  split at ran
  · cases ran
    exact .inl rfl
  · obtain ⟨other, _, ran⟩ := bind_eq_ok.mp ran
    exact .inr ⟨_, ran⟩

theorem handleListCmd_runs (ran : handleListCmd env p app = .ok app') :
    ∃ header own first second third, sendFmt env p header app = .ok first ∧
      sendFmt env p own first = .ok second ∧
      Map.foreach env.quiet App.fromHandle (listTurn env p) second = .ok third ∧
      prompt p third = .ok app' := by
  obtain ⟨first, header, ran⟩ := bind_eq_ok.mp ran
  obtain ⟨user, _, ran⟩ := bind_eq_ok.mp ran
  obtain ⟨second, own, ran⟩ := bind_eq_ok.mp ran
  obtain ⟨third, loop, ran⟩ := bind_eq_ok.mp ran
  exact ⟨_, _, first, second, third, header, own, loop, ran⟩

/-- A whisper is answered, or delivered and then answered. -/
theorem handleWhisperCmd_runs {cmdEnd : Nat} (ran : handleWhisperCmd env p line cmdEnd app = .ok app') :
    (∃ msg, printFmt env p .afterEnter msg app = .ok app') ∨
    ∃ q user start n text told ack, slice line start n = .ok text ∧ app.user p = .ok user ∧
      printFmt env q .interrupt (.whisper user.username text) app = .ok told ∧
      printFmt env p .afterEnter ack told = .ok app' := by
  obtain ⟨recipient, _, ran⟩ := bind_eq_ok.mp ran
  obtain ⟨found, _, ran⟩ := bind_eq_ok.mp ran
  cases found with
  | none => exact .inl ⟨_, ran⟩
  | some s =>
    obtain ⟨otherUser, _, ran⟩ := bind_eq_ok.mp ran
    obtain ⟨other, _, ran⟩ := bind_eq_ok.mp ran
    split at ran
    · exact .inl ⟨_, ran⟩
    dsimp only at ran
    split at ran
    · exact .inl ⟨_, ran⟩
    · obtain ⟨msg, cut, ran⟩ := bind_eq_ok.mp ran
      obtain ⟨user, loaded, ran⟩ := bind_eq_ok.mp ran
      obtain ⟨told, sent, ran⟩ := bind_eq_ok.mp ran
      obtain ⟨again, _, ran⟩ := bind_eq_ok.mp ran
      exact .inr ⟨otherUser, user, _, _, msg, told, _, cut, loaded, sent, ran⟩

theorem handleCommand_runs (ran : handleCommand env p line app = .ok app') :
    (∃ msg, printFmt env p .afterEnter msg app = .ok app') ∨ stateSwitch env p .exit app = .ok app' ∨
      handleListCmd env p app = .ok app' ∨ ∃ cmdEnd, handleWhisperCmd env p line cmdEnd app = .ok app' := by
  unfold handleCommand at ran
  split at ran
  · cases ran
  split at ran
  · exact .inl ⟨_, ran⟩
  · obtain ⟨cmdStr, _, ran⟩ := bind_eq_ok.mp ran
    obtain ⟨commands, _, ran⟩ := bind_eq_ok.mp ran
    obtain ⟨found, _, ran⟩ := bind_eq_ok.mp ran
    cases found with
    | none => exact .inl ⟨_, ran⟩
    | some s =>
      obtain ⟨cmd, _, ran⟩ := bind_eq_ok.mp ran
      cases cmd with
      | help => exact .inl ⟨_, ran⟩
      | exit => exact .inr (.inl ran)
      | info => exact .inl ⟨_, ran⟩
      | list => exact .inr (.inr (.inl ran))
      | whisper => exact .inr (.inr (.inr ⟨_, ran⟩))

/-- A login is prompted, answered, or let in under the name it typed. -/
theorem loginLine_runs (ran : loginLine env p line app = .ok app') :
    prompt p app = .ok app' ∨ (∃ msg, printFmt env p .afterEnter msg app = .ok app') ∨
    ∃ user named fromUsername switched, validateUsername line = true ∧ app.user p = .ok user ∧
      app.setUser p { user with username := user.username ++ line } = .ok named ∧
      stateSwitch env p .chat { named with fromUsername := fromUsername } = .ok switched ∧
      broadcast env p (fun user => .joins user.username) switched = .ok app' := by
  unfold loginLine at ran
  split at ran
  · exact .inl ran
  obtain ⟨taken, _, ran⟩ := bind_eq_ok.mp ran
  split at ran
  · exact .inr (.inl ⟨_, ran⟩)
  split at ran
  · exact .inr (.inl ⟨_, ran⟩)
  · rename_i valid
    obtain ⟨user, loaded, ran⟩ := bind_eq_ok.mp ran
    obtain ⟨named, set, ran⟩ := bind_eq_ok.mp ran
    obtain ⟨fromUsername, _, ran⟩ := bind_eq_ok.mp ran
    obtain ⟨switched, switch, ran⟩ := bind_eq_ok.mp ran
    exact .inr (.inr ⟨user, named, fromUsername, switched, by simpa using valid, loaded, set, switch, ran⟩)

theorem chatLine_runs (ran : chatLine env p line app = .ok app') :
    prompt p app = .ok app' ∨ handleCommand env p line app = .ok app' ∨
    ∃ told ack, broadcast env p (fun user => .chat user.username line) app = .ok told ∧
      printFmt env p .afterEnter ack told = .ok app' := by
  unfold chatLine at ran
  split at ran
  · exact .inl ran
  split at ran
  · exact .inr (.inl ran)
  · obtain ⟨told, sent, ran⟩ := bind_eq_ok.mp ran
    exact .inr (.inr ⟨told, _, sent, ran⟩)

/-- The answer to the question whether to exit is the one line that may end with
a goodbye. -/
theorem exitLine_runs (ran : exitLine env p line app = .ok app') :
    (stringEqIgnoreCase line (bytes "y") = true ∧
      ∃ user, app.user p = .ok user ∧ serverRemoveClient user.handle app = .ok app') ∨
    stringEqIgnoreCase line (bytes "y") = false ∧ stateSwitch env p .chat app = .ok app' := by
  unfold exitLine at ran
  split at ran
  · rename_i confirmed
    obtain ⟨user, loaded, ran⟩ := bind_eq_ok.mp ran
    exact .inl ⟨confirmed, user, loaded, ran⟩
  · rename_i declined
    exact .inr ⟨by simpa using declined, ran⟩

theorem dropUsername_runs (ran : dropUsername s app = .ok app') :
    ∃ fromUsername, app' = { app with fromUsername := fromUsername } := by
  obtain ⟨_, _, ran⟩ := bind_eq_ok.mp ran
  obtain ⟨known, _, ran⟩ := bind_eq_ok.mp ran
  split at ran
  · obtain ⟨_, _, ran⟩ := bind_eq_ok.mp ran
    obtain ⟨fromUsername, _, same⟩ := bind_eq_ok.mp ran
    cases same
    exact ⟨fromUsername, rfl⟩
  · cases ran
    exact ⟨app.fromUsername, rfl⟩

theorem farewellTurn_runs {gone : Slot} (ran : farewellTurn env gone s app = .ok app') :
    app' = app ∨ ∃ q r user, app.user r = .ok user ∧
      printFmt env q .interrupt (.left user.username) app = .ok app' := by
  obtain ⟨otherUser, _, ran⟩ := bind_eq_ok.mp ran
  obtain ⟨other, _, ran⟩ := bind_eq_ok.mp ran
  split at ran
  · obtain ⟨user, stale, ran⟩ := bind_eq_ok.mp ran
    obtain ⟨r, _, loaded⟩ := bind_eq_ok.mp stale
    exact .inr ⟨otherUser, r, user, loaded, ran⟩
  · cases ran
    exact .inl rfl

/-- A user is allocated, greeted and then entered. -/
theorem createUser_runs {h : Handle} (ran : createUser env h app = .ok app') :
    ∃ greeted user fromHandle,
      stateNew env app.heap.length (app.allocUser ⟨h, .login, []⟩).2 = .ok greeted ∧
      greeted.user app.heap.length = .ok user ∧
      greeted.fromHandle.set handleHash handleEq user.handle app.heap.length = .ok fromHandle ∧
      app' = { greeted with fromHandle := fromHandle }.note (.userNew user.handle) := by
  obtain ⟨⟨p, greeted⟩, made, ran⟩ := bind_eq_ok.mp ran
  obtain ⟨_, greeting, same⟩ := bind_eq_ok.mp made
  cases same
  obtain ⟨user, loaded, ran⟩ := bind_eq_ok.mp ran
  obtain ⟨fromHandle, set, same⟩ := bind_eq_ok.mp ran
  cases same
  exact ⟨greeted, user, fromHandle, greeting, loaded, set, rfl⟩

/-- An entry is taken out, its name is released, everyone is told, and an object is freed. -/
theorem removeUser_runs {h : Handle} (ran : removeUser env h app = .ok app') :
    ∃ k fromHandle dropped told q gone, app.fromHandle.remove handleHash handleEq k = .ok fromHandle ∧
      dropUsername gone ({ app with fromHandle := fromHandle }.note (.userRemoved k)) = .ok dropped ∧
      Map.foreach env.quiet App.fromHandle (farewellTurn env gone) dropped = .ok told ∧
      told.freeUser q = .ok app' := by
  obtain ⟨s, _, ran⟩ := bind_eq_ok.mp ran
  obtain ⟨user, _, ran⟩ := bind_eq_ok.mp ran
  obtain ⟨fromHandle, removed, ran⟩ := bind_eq_ok.mp ran
  obtain ⟨dropped, drop, ran⟩ := bind_eq_ok.mp ran
  obtain ⟨told, farewell, ran⟩ := bind_eq_ok.mp ran
  obtain ⟨q, _, ran⟩ := bind_eq_ok.mp ran
  exact ⟨user.handle, fromHandle, dropped, told, q, s, removed, drop, farewell, ran⟩

end Calls

/-! ## The program's functions -/

section Functions
variable {env : Env} {self : Handle} {app app' : App} {p : UserPtr} {line : Bytes}

theorem answer_effects (owned : Owned p self app) {msg : Msg}
    (ran : printFmt env p .afterEnter msg app = .ok app') : Effects env self app app' := by
  obtain ⟨user, loaded, _⟩ := bind_eq_ok.mp ran
  have live := App.userAt_of_user loaded
  exact .one (.answer live (owned.2 user live) ran)

theorem sendFmt_effects (owned : Owned p self app) {msg : Msg} (ran : sendFmt env p msg app = .ok app') :
    Effects env self app app' := by
  obtain ⟨user, loaded, _⟩ := bind_eq_ok.mp ran
  have live := App.userAt_of_user loaded
  exact .one (.send live (owned.2 user live) ran)

theorem prompt_effects (owned : Owned p self app) (ran : prompt p app = .ok app') :
    Effects env self app app' := by
  obtain ⟨user, loaded, _⟩ := bind_eq_ok.mp ran
  have live := App.userAt_of_user loaded
  exact .one (.prompt live (owned.2 user live) ran)

theorem interrupt_effects {q : UserPtr} {msg : Msg} (carried : Carried app msg)
    (ran : printFmt env q .interrupt msg app = .ok app') : Effects env self app app' := by
  obtain ⟨user, loaded, _⟩ := bind_eq_ok.mp ran
  exact .one (.interrupt (App.userAt_of_user loaded) carried ran)

theorem stateNew_effects (owned : Owned p self app) (ran : stateNew env p app = .ok app') :
    Effects env self app app' := by
  obtain ⟨msg, printed⟩ := stateNew_runs ran
  exact answer_effects owned printed

theorem setUser_effects {old new : User} (loaded : app.user p = .ok old) (same : new.handle = old.handle)
    (named : new.username = old.username ∨
      ∃ line, validateUsername line = true ∧ new.username = old.username ++ line)
    (ran : app.setUser p new = .ok app') : Effects env self app app' := by
  have live := App.userAt_of_user loaded
  rw [App.setUser_of_userAt live] at ran
  cases ran
  exact .one (.setUser live same named)

theorem stateSwitch_effects (owned : Owned p self app) {state : State}
    (ran : stateSwitch env p state app = .ok app') : Effects env self app app' := by
  obtain ⟨user, loaded, ran⟩ := bind_eq_ok.mp ran
  obtain ⟨switched, set, ran⟩ := bind_eq_ok.mp ran
  have first : Effects env self app switched := by
    apply setUser_effects loaded _ _ set
    · rfl
    · exact .inl rfl
  exact first.trans (stateNew_effects (first.owned owned) ran)

/-- A loop whose turns are made of primitive operations. -/
theorem foreach_effects {V : Type} {tbl : App → Map Handle V} {body : Slot → App → Except Fault App}
    (turns : ∀ s middle after, Effects env self app middle → body s middle = .ok after →
      Effects env self middle after)
    (ran : Map.foreach env.quiet tbl body app = .ok app') : Effects env self app app' := by
  refine Map.foreach_preserves (Effects env self app) ?_ Relation.ReflTransGen.refl ran
  intro i j s middle after path _ turned
  exact path.trans (turns s middle after path turned)

theorem broadcast_effects {msg : User → Msg}
    (carried : ∀ middle user, middle.userAt p = some user → Carried middle (msg user))
    (ran : broadcast env p msg app = .ok app') : Effects env self app app' := by
  refine foreach_effects ?_ ran
  intro s middle after _ turned
  obtain rfl | ⟨q, user, loaded, told⟩ := broadcastTurn_runs turned
  · exact .refl
  · exact interrupt_effects (carried middle user (App.userAt_of_user loaded)) told

theorem handleListCmd_effects (owned : Owned p self app) (ran : handleListCmd env p app = .ok app') :
    Effects env self app app' := by
  obtain ⟨_, _, first, second, third, header, own, loop, prompted⟩ := handleListCmd_runs ran
  have opened := sendFmt_effects owned header
  have begun : Effects env self app second := opened.trans (sendFmt_effects (opened.owned owned) own)
  have listed : Effects env self second third := by
    refine foreach_effects ?_ loop
    intro s middle after path turned
    obtain rfl | ⟨msg, sent⟩ := listTurn_runs turned
    · exact .refl
    · exact sendFmt_effects (path.owned (begun.owned owned)) sent
  have body : Effects env self app third := begun.trans listed
  exact body.trans (prompt_effects (body.owned owned) prompted)

theorem slice_plain {start n : Nat} {text : Bytes} (plain : Plain line) (cut : slice line start n = .ok text) :
    Plain text := by
  unfold slice at cut
  split at cut
  · cases cut
    intro b member
    cases member
  · split at cut
    · cases cut
      intro b member
      exact plain b (List.mem_of_mem_drop (List.mem_of_mem_take member))
    · cases cut

theorem handleWhisperCmd_effects (owned : Owned p self app) (plain : Plain line) {cmdEnd : Nat}
    (ran : handleWhisperCmd env p line cmdEnd app = .ok app') : Effects env self app app' := by
  obtain ⟨msg, printed⟩ | ⟨q, user, start, n, text, told, ack, cut, loaded, sent, printed⟩ :=
    handleWhisperCmd_runs ran
  · exact answer_effects owned printed
  · have first : Effects env self app told :=
      interrupt_effects (.whisper (App.userAt_of_user loaded) (slice_plain plain cut)) sent
    exact first.trans (answer_effects (first.owned owned) printed)

theorem handleCommand_effects (owned : Owned p self app) (plain : Plain line)
    (ran : handleCommand env p line app = .ok app') : Effects env self app app' := by
  obtain ⟨msg, printed⟩ | switched | listed | ⟨cmdEnd, whispered⟩ := handleCommand_runs ran
  · exact answer_effects owned printed
  · exact stateSwitch_effects owned switched
  · exact handleListCmd_effects owned listed
  · exact handleWhisperCmd_effects owned plain whispered

theorem loginLine_effects (owned : Owned p self app) (ran : loginLine env p line app = .ok app') :
    Effects env self app app' := by
  obtain prompted | ⟨msg, printed⟩ | ⟨user, named, fromUsername, switched, valid, loaded, set, switch, told⟩ :=
    loginLine_runs ran
  · exact prompt_effects owned prompted
  · exact answer_effects owned printed
  · have first : Effects env self app named := by
      apply setUser_effects loaded _ _ set
      · rfl
      · exact .inr ⟨line, valid, rfl⟩
    have second : Effects env self app { named with fromUsername := fromUsername } :=
      first.tail (.names fromUsername)
    have third : Effects env self app switched := second.trans (stateSwitch_effects (second.owned owned) switch)
    exact third.trans (broadcast_effects (fun _ _ live => .joins live) told)

theorem chatLine_effects (owned : Owned p self app) (plain : Plain line)
    (ran : chatLine env p line app = .ok app') : Effects env self app app' := by
  obtain prompted | commanded | ⟨told, ack, sent, printed⟩ := chatLine_runs ran
  · exact prompt_effects owned prompted
  · exact handleCommand_effects owned plain commanded
  · have first : Effects env self app told := broadcast_effects (fun _ _ live => .chat live plain) sent
    exact first.trans (answer_effects (first.owned owned) printed)

theorem exitLine_effects (owned : Owned p self app) (ran : exitLine env p line app = .ok app') :
    Effects env self app app' ∨
      stringEqIgnoreCase line (bytes "y") = true ∧ serverRemoveClient self app = .ok app' := by
  obtain ⟨confirmed, user, loaded, removed⟩ | ⟨_, switched⟩ := exitLine_runs ran
  · rw [owned.2 user (App.userAt_of_user loaded)] at removed
    exact .inr ⟨confirmed, removed⟩
  · exact .inl (stateSwitch_effects owned switched)

theorem mem_trim {b : UInt8} {str : Bytes} (member : b ∈ trim str) : b ∈ str := by
  rw [trim, List.mem_reverse] at member
  have inside := (List.dropWhile_suffix isSpace).subset member
  rw [List.mem_reverse] at inside
  exact (List.dropWhile_suffix isSpace).subset inside

theorem sanitize_plain (raw : Bytes) : Plain (sanitize raw) :=
  fun _ member => (List.mem_filter.mp (mem_trim member)).2

/-- A line is made of bytes that `ac_get_line` keeps. -/
theorem takeLine_plain {s : Slot} (ran : takeLine s app = .ok (some line, app')) : Plain line := by
  obtain ⟨client, _, ran⟩ := bind_eq_ok.mp ran
  obtain ⟨result, got, ran⟩ := bind_eq_ok.mp ran
  cases result with
  | none => cases ran
  | some taken =>
    obtain ⟨after, _, same⟩ := bind_eq_ok.mp ran
    cases same
    obtain ⟨raw, rest, cut⟩ : ∃ raw rest, taken = (sanitize raw, rest) := by
      obtain plain | ⟨raw, run, rest, split, plain, ended, terminal, stops⟩ := line_cases client.inBuf
      · rw [getLine_unfinished plain] at got
        cases got
      · rw [split, getLine_complete plain ended terminal stops] at got
        cases got
        exact ⟨raw, rest, rfl⟩
    rw [cut]
    exact sanitize_plain raw

/-- The user at a pointer confirms its exit with the next line of its client. -/
def Confirms (p : UserPtr) (self : Handle) (app app' : App) : Prop :=
  ∃ user s line taken, app.user p = .ok user ∧ user.state = .exit ∧
    app.clients.get handleHash handleEq self = .ok s ∧ takeLine s app = .ok (some line, taken) ∧
    stringEqIgnoreCase line (bytes "y") = true ∧ serverRemoveClient self taken = .ok app'

theorem Confirms.sameUsers (confirms : Confirms p self app app') : SameUsers app app' := by
  obtain ⟨user, s, line, middle, _, _, _, took, _, removed⟩ := confirms
  obtain ⟨_, _, removed⟩ := bind_eq_ok.mp removed
  obtain ⟨client, _, set⟩ := bind_eq_ok.mp removed
  have noted : SameUsers middle (middle.note (.goodbye self)) := ⟨rfl, rfl⟩
  exact ((takeLine_sameUsers took).trans noted).trans (setClient_sameUsers set)

theorem stateUpdate_effects (owned : Owned p self app) {s : Slot}
    (found : app.clients.get handleHash handleEq self = .ok s)
    (ran : stateUpdate env p s app = .ok app') :
    Effects env self app app' ∨ Confirms p self app app' := by
  obtain ⟨user, loaded, ran⟩ := bind_eq_ok.mp ran
  obtain ⟨⟨line, taken⟩, took, ran⟩ := bind_eq_ok.mp ran
  have first : Effects env self app taken := .one (.takeLine found took)
  cases line with
  | none =>
    cases ran
    exact .inl first
  | some line =>
    have still := first.owned owned
    cases state : user.state with
    | login => simp only [state] at ran; exact .inl (first.trans (loginLine_effects still ran))
    | chat =>
      simp only [state] at ran
      exact .inl (first.trans (chatLine_effects still (takeLine_plain took) ran))
    | exit =>
      simp only [state] at ran
      obtain path | ⟨confirmed, removed⟩ := exitLine_effects still ran
      · exact .inl (first.trans path)
      · exact .inr ⟨user, s, line, taken, loaded, state, found, took, confirmed, removed⟩

/-- A user's turn is made of operations for its own client, or confirms its exit. -/
theorem updateUser_effects {s : Slot} (ran : updateUser env s app = .ok app') :
    ∃ p user, app.fromHandle.val s = .ok p ∧ app.user p = .ok user ∧
      (Effects env user.handle app app' ∨ Confirms p user.handle app app') := by
  obtain ⟨p, pointed, ran⟩ := bind_eq_ok.mp ran
  obtain ⟨user, loaded, ran⟩ := bind_eq_ok.mp ran
  obtain ⟨client, found, ran⟩ := bind_eq_ok.mp ran
  exact ⟨p, user, pointed, loaded, stateUpdate_effects (owned_of_user loaded) found ran⟩

theorem createUser_effects (ran : createUser env self app = .ok app') : Effects env self app app' := by
  obtain ⟨greeted, user, fromHandle, greeting, loaded, set, rfl⟩ := createUser_runs ran
  have first : Effects env self app (app.allocUser ⟨self, .login, []⟩).2 := .one .alloc
  have owned := owned_alloc self app
  have second := first.trans (stateNew_effects owned greeting)
  have still := (stateNew_effects owned greeting).owned owned
  have handle := still.2 user (App.userAt_of_user loaded)
  rw [handle] at set ⊢
  exact second.tail (.enroll set)

theorem removeUser_effects {h : Handle} (ran : removeUser env h app = .ok app') :
    Effects env self app app' := by
  obtain ⟨k, fromHandle, dropped, told, q, gone, removed, drop, farewell, freed⟩ := removeUser_runs ran
  have first : Effects env self app ({ app with fromHandle := fromHandle }.note (.userRemoved k)) :=
    .one (.dismiss removed)
  have second : Effects env self ({ app with fromHandle := fromHandle }.note (.userRemoved k)) dropped := by
    obtain ⟨fromUsername, rfl⟩ := dropUsername_runs drop
    exact .one (.names fromUsername)
  have third : Effects env self dropped told := by
    refine foreach_effects ?_ farewell
    intro slot middle after _ turned
    obtain rfl | ⟨q, r, user, loaded, sent⟩ := farewellTurn_runs turned
    · exact .refl
    · exact interrupt_effects (.left (App.userAt_of_user loaded)) sent
  exact ((first.trans second).trans third).tail (.free freed)

/-- A client's turn is made of operations for that client. -/
theorem updateClient_effects {s : Slot} (ran : updateClient env s app = .ok app') :
    ∃ client, app.client s = .ok client ∧ Effects env client.handle app app' := by
  obtain ⟨client, loaded, ran⟩ := bind_eq_ok.mp ran
  refine ⟨client, loaded, ?_⟩
  cases state : client.state with
  | new => rw [state] at ran; exact createUser_effects ran
  | toBeRemoved => rw [state] at ran; exact removeUser_effects ran
  | online =>
    rw [state] at ran
    cases ran
    exact .refl

end Functions
end AuroraComms
