import AuroraComms.Accounts
import AuroraComms.Framing
import AuroraComms.Refinement

/-! What one client can make another's terminal show. Lines are filtered when
they are read and names when they are taken; both are used later, so the names
in the heap are part of what holds on every run. -/
namespace AuroraComms
open Meta Library.Run

/-- The messages of one client to another. -/
def Msg.isPassed : Msg → Bool
  | .joins _ | .left _ | .chat .. | .whisper .. => true
  | _ => false

/-- A message of a client to another that is one line of printable text. -/
structure OneLine (msg : Msg) : Prop where
  passed : msg.isPassed = true
  printable : ∀ b ∈ msg.text, 0x20 ≤ b ∧ b ≤ 0x7e

/-- Every name in use is printable. -/
def App.Clean (app : App) : Prop := ∀ q user, app.userAt q = some user → Plain user.username

section Texts

instance : DecidablePred Plain := fun text => inferInstanceAs (Decidable (∀ b ∈ text, _))

theorem plain_append {a b : Bytes} : Plain (a ++ b) ↔ Plain a ∧ Plain b := List.forall_mem_append

theorem Plain.cstr {text : Bytes} (plain : Plain text) : Plain (cstr text) :=
  fun b member => plain b ((List.takeWhile_prefix _).subset member)

/-- The characters of a name are printable. -/
theorem validateUsername_plain {name : Bytes} (valid : validateUsername name = true) : Plain name := by
  unfold validateUsername at valid
  split at valid
  · cases valid
  · intro b member
    have char := List.all_eq_true.mp valid b member
    simp only [isNameChar, Bool.or_eq_true, Bool.and_eq_true, decide_eq_true_eq, beq_iff_eq,
      UInt8.le_iff_toNat_le] at char
    simp only [isPrintable, Bool.and_eq_true, decide_eq_true_eq, UInt8.le_iff_toNat_le]
    rcases char with ((char | char) | char) | rfl
    · exact ⟨Nat.le_trans (by decide) char.1, Nat.le_trans char.2 (by decide)⟩
    · exact ⟨Nat.le_trans (by decide) char.1, Nat.le_trans char.2 (by decide)⟩
    · exact ⟨Nat.le_trans (by decide) char.1, Nat.le_trans char.2 (by decide)⟩
    · decide

/-- What is carried from one client to another is printable when the names are. -/
theorem Carried.oneLine {app : App} {msg : Msg} (carried : Carried app msg) (clean : app.Clean) :
    OneLine msg := by
  have plain : msg.isPassed = true ∧ Plain msg.text := by
    cases carried with
    | joins live =>
      have name := (clean _ _ live).cstr
      exact ⟨rfl, plain_append.mpr ⟨name, by decide +kernel⟩⟩
    | left live =>
      have name := (clean _ _ live).cstr
      exact ⟨rfl, plain_append.mpr ⟨name, by decide +kernel⟩⟩
    | chat live line =>
      have name := (clean _ _ live).cstr
      simp only [Msg.text, plain_append]
      exact ⟨rfl, ⟨⟨by decide +kernel, name⟩, by decide +kernel⟩, line.cstr⟩
    | whisper live text =>
      have name := (clean _ _ live).cstr
      simp only [Msg.text, plain_append]
      exact ⟨rfl, ⟨⟨by decide +kernel, name⟩, by decide +kernel⟩, text.cstr⟩
  refine ⟨plain.1, fun b member => ?_⟩
  have kept := plain.2 b member
  simpa [isPrintable] using kept

end Texts

/-! ## Names stay printable -/

section Names
variable {env : Env} {self : Handle} {app app' : App}

theorem clean_same (same : SameUsers app app') (clean : app.Clean) : app'.Clean := by
  unfold App.Clean App.userAt
  rw [same.1]
  exact clean

theorem Effect.clean (effect : Effect env self app app') (clean : app.Clean) : app'.Clean := by
  intro p user there
  cases effect.stems there with
  | kept live _ named =>
    obtain same | ⟨line, valid, grown⟩ := named
    · rw [same]
      exact clean p _ live
    · rw [grown]
      exact plain_append.mpr ⟨clean p _ live, validateUsername_plain valid⟩
  | fresh => exact nofun

end Names

/-! ## What others get -/

/-- The messages as they are printed on the terminal of someone who is typing. -/
def interruptions (env : Env) (msgs : List Msg) : Bytes :=
  msgs.flatMap fun msg => framed .interrupt (formatted env msg.text)

/-- The messages that are added to what is to be sent to a client, part of which
may have been sent. -/
def Adds (env : Env) (h : Handle) (msgs : List Msg) (app app' : App) : Prop :=
  ∀ out', app'.outOf h = some out' →
    ∃ left, left <:+ (app.outOf h).getD [] ∧ out' = left ++ interruptions env msgs

section Others
variable {env : Env} {self h : Handle} {app app' : App}

/-- Whole messages for a client, behind what it has still to get. -/
def Appended (env : Env) (h : Handle) (app app' : App) : Prop :=
  ∃ msgs, (∀ msg ∈ msgs, OneLine msg) ∧ app'.outOf h = (app.outOf h).map (· ++ interruptions env msgs)

theorem Appended.adds (appended : Appended env h app app') :
    ∃ msgs, (∀ msg ∈ msgs, OneLine msg) ∧ Adds env h msgs app app' := by
  obtain ⟨msgs, harmless, grown⟩ := appended
  refine ⟨msgs, harmless, fun out' held => ?_⟩
  rw [grown] at held
  obtain ⟨out, stored, rfl⟩ := Option.map_eq_some_iff.mp held
  exact ⟨out, by rw [stored]; exact List.suffix_rfl, rfl⟩

theorem Appended.trans {app'' : App} (first : Appended env h app app')
    (second : Appended env h app' app'') : Appended env h app app'' := by
  obtain ⟨msgs, harmless, grown⟩ := first
  obtain ⟨more, harmless', grown'⟩ := second
  refine ⟨msgs ++ more, fun msg member => ?_, ?_⟩
  · obtain early | late := List.mem_append.mp member
    · exact harmless msg early
    · exact harmless' msg late
  · rw [grown', grown]
    cases app.outOf h <;> simp [interruptions]

/-- Events that render to nothing for a client add nothing. -/
theorem appended_nothing {events : List Event} (charged : Charges env events app app')
    (quiet : events.flatMap (render env h) = []) : Appended env h app app' := by
  refine ⟨[], nofun, ?_⟩
  rw [charged.grown, quiet]
  rfl

/-- An operation adds whole printable messages to the output of anyone else. -/
theorem Effect.appended (effect : Effect env self app app') (wired : app.Wired) (clean : app.Clean)
    (apart : self ≠ h) : Appended env h app app' := by
  have elsewhere : ∀ events, Charges env events app app' → events.flatMap (render env h) = [] →
      Appended env h app app' := fun events => appended_nothing
  cases effect with
  | answer live own ran =>
    exact elsewhere _ (printFmt_charges wired live ran) (by rw [frame_render, own, if_neg apart])
  | send live own ran => exact elsewhere _ (sendFmt_charges wired live ran) (by simp [render, own, apart])
  | prompt live own ran => exact elsewhere _ (prompt_charges wired live ran) (by simp [render, own, apart])
  | @interrupt _ q user msg live carried ran =>
    have charged : Charges env (frame user.handle .interrupt msg) app app' := printFmt_charges wired live ran
    by_cases here : user.handle = h
    · refine ⟨[msg], ?_, ?_⟩
      · rintro other member
        rw [List.mem_singleton.mp member]
        exact carried.oneLine clean
      · rw [charged.grown, frame_render, if_pos here, interruptions, List.flatMap_singleton]
    · exact elsewhere _ charged (by rw [frame_render, if_neg here])
  | takeLine found ran =>
    obtain ⟨here, _⟩ := Map.get_eq_ok handleEq_exact wired.clients found
    obtain ⟨events, charged, handled⟩ : ∃ events, Charges env events app app' ∧ _ :=
      takeLine_charges wired here ran
    apply elsewhere events charged
    rw [List.flatMap_eq_nil_iff]
    intro e member
    obtain ⟨_, _, rfl⟩ := handled e member
    rfl
  | setUser => exact elsewhere [] (pours_aside wired rfl (List.append_nil _).symm) rfl
  | names => exact elsewhere [] (pours_aside wired rfl (List.append_nil _).symm) rfl
  | alloc => exact elsewhere [] (pours_aside wired rfl (List.append_nil _).symm) rfl
  | enroll => exact elsewhere [.userNew self] (pours_aside wired rfl rfl) rfl
  | @dismiss gone => exact elsewhere [.userRemoved gone] (pours_aside wired rfl rfl) rfl
  | free ran =>
    cases freeUser_heap ran
    exact elsewhere [] (pours_aside wired rfl (List.append_nil _).symm) rfl

theorem Effects.kept (path : Effects env self app app') (wired : app.Wired) (clean : app.Clean) :
    app'.Wired ∧ app'.Clean := by
  induction path with
  | refl => exact ⟨wired, clean⟩
  | tail _ effect ih =>
    obtain ⟨wired', clean'⟩ := ih
    obtain ⟨_, charged, _⟩ := effect.charges wired'
    exact ⟨charged.wired, effect.clean clean'⟩

/-- So does every sequence of them. -/
theorem Effects.appended (path : Effects env self app app') (wired : app.Wired) (clean : app.Clean)
    (apart : self ≠ h) : Appended env h app app' := by
  induction path with
  | refl =>
    have still : Charges env [] app app := Pours.refl wired
    exact appended_nothing still rfl
  | tail path effect ih =>
    obtain ⟨wired', clean'⟩ := Effects.kept path wired clean
    exact ih.trans (effect.appended wired' clean' apart)

/-- A confirmed exit tells nobody anything but the goodbye. -/
theorem Confirms.appended {p : UserPtr} (confirms : Confirms p self app app') (wired : app.Wired)
    (clean : app.Clean) : app'.Wired ∧ app'.Clean ∧ ∀ h, Appended env h app app' := by
  obtain ⟨taken, out, charged, _, handled⟩ :
      ∃ taken out, Charges env (taken ++ [.goodbye self]) app app' ∧ _ := confirms.charges wired
  refine ⟨charged.wired, clean_same confirms.sameUsers clean, fun h => appended_nothing charged ?_⟩
  rw [List.flatMap_append, List.append_eq_nil_iff]
  refine ⟨?_, rfl⟩
  rw [List.flatMap_eq_nil_iff]
  intro e member
  obtain ⟨_, _, rfl⟩ := handled e member
  rfl

/-! ## The network adds nothing -/

theorem adds_nothing (kept : ∀ out', app'.outOf h = some out' → out' <:+ (app.outOf h).getD []) :
    Adds env h [] app app' := by
  intro out' held
  refine ⟨out', kept out' held, ?_⟩
  rw [interruptions, List.flatMap_nil, List.append_nil]

theorem Sweeps.adds (swept : Sweeps app app') : Adds env h [] app app' := by
  apply adds_nothing
  intro out' held
  rw [swept.kept h out' held]
  exact List.suffix_rfl

theorem Flushed.adds {taken : List (Handle × Bytes)} (flushed : Flushed app taken app') :
    Adds env h [] app app' := by
  apply adds_nothing
  intro out' held
  rw [flushed.whole h, held]
  exact List.suffix_append _ _

theorem handleConn_adds (wired : app.Wired) (ran : handleConn env app = .ok app') :
    app'.Wired ∧ Adds env h [] app app' := by
  obtain rfl | ⟨fd, _, _, wired', entered, _, _⟩ := handleConn_enters wired ran
  · refine ⟨wired, adds_nothing fun out' held => ?_⟩
    rw [held]
    exact List.suffix_rfl
  · refine ⟨wired', adds_nothing fun out' held => ?_⟩
    rw [App.outOf, entered, Function.update_apply] at held
    split at held
    · cases held
      exact List.nil_suffix
    · rw [App.outOf, held]
      exact List.suffix_rfl

end Others

/-! ## Whole runs -/

section Runs
variable {env : Env} {sys sys' : Sys}

/-- What the next operation of a run may do to the output of others. -/
structure Discreet (env : Env) (actor : Option Handle) (app app' : App) : Prop where
  wired : app'.Wired
  clean : app'.Clean
  adds : ∀ h, actor ≠ some h → ∃ msgs, (∀ msg ∈ msgs, OneLine msg) ∧ Adds env h msgs app app'

theorem discreet_network {app app' : App} (wired : app'.Wired) (clean : app.Clean) (same : SameUsers app app')
    (adds : ∀ h, Adds env h [] app app') : Discreet env none app app' :=
  ⟨wired, clean_same same clean, fun h _ => ⟨[], nofun, adds h⟩⟩

theorem discreet_still {app : App} (wired : app.Wired) (clean : app.Clean) : Discreet env none app app := by
  apply discreet_network wired clean ⟨rfl, rfl⟩
  intro h
  apply adds_nothing
  intro out' held
  rw [held]
  exact List.suffix_rfl

theorem discreet_turn {app app' : App} {self : Handle} (path : Effects env self app app')
    (wired : app.Wired) (clean : app.Clean) : Discreet env (some self) app app' := by
  obtain ⟨wired', clean'⟩ := path.kept wired clean
  exact ⟨wired', clean', fun h apart => (path.appended wired clean fun same => apart (by rw [same])).adds⟩

theorem step_discreet (wired : sys.app.Wired) (clean : sys.app.Clean) (ran : step env sys = .ok sys') :
    ∃ actor, sys.actor env = .ok actor ∧ Discreet env actor sys.app sys'.app := by
  obtain ⟨actor, acts, operation⟩ := step_operation ran
  refine ⟨actor, acts, ?_⟩
  cases operation with
  | still => exact discreet_still wired clean
  | sweeps _ sweeping =>
    have sweeps := sweep_sweeps wired sweeping
    exact discreet_network sweeps.wired clean (sweep_sameUsers sweeping) fun _ => sweeps.adds
  | connects _ connecting =>
    have same := handleConn_sameUsers connecting
    have adds : ∀ h, _ ∧ Adds env h [] sys.app _ := fun h => handleConn_adds wired connecting
    exact discreet_network (adds 0).1 clean same fun h => (adds h).2
  | receives _ receiving =>
    obtain ⟨events, charged, arrived⟩ := receiveOne_charges wired receiving
    refine ⟨charged.wired, clean_same (receiveOne_sameUsers receiving) clean, fun h _ => ?_⟩
    apply (appended_nothing charged _).adds
    rw [List.flatMap_eq_nil_iff]
    intro e member
    obtain rfl | ⟨data, rfl⟩ := arrived e member <;> rfl
  | flushes _ flushing =>
    obtain ⟨taken, _, sends⟩ := flush_flushed wired flushing
    exact discreet_network sends.wired clean (flush_sameUsers flushing) fun _ => sends.adds
  | speaks _ _ path => exact discreet_turn path wired clean
  | confirms _ _ confirms =>
    obtain ⟨wired', clean', appended⟩ := confirms.appended wired clean
    exact ⟨wired', clean', fun h _ => (appended h).adds⟩
  | renews _ _ _ path => exact discreet_turn path wired clean

/-- On every run, whatever bytes the clients send: what an operation adds to the
output of a client other than the one whose turn it is are whole messages, each
printable throughout and, when it fits the formatting array, one line between
the line breaks of its frame. -/
theorem no_line_injection {listener : Handle} {now : Int}
    (reached : Reaches step (fun _ _ => True) (start listener now) sys) (ran : step env sys = .ok sys') :
    ∃ actor, sys.actor env = .ok actor ∧ ∀ h, actor ≠ some h →
      ∃ msgs, Adds env h msgs sys.app sys'.app ∧ ∀ msg ∈ msgs, OneLine msg ∧
        (msg.text.length < formatCap →
          framed .interrupt (formatted env msg.text) = crlf ++ msg.text ++ crlf ++ bytes ">") := by
  have kept : sys.app.Wired ∧ sys.app.Clean := by
    apply reached.invariant
    · refine ⟨start_wired listener now, fun q user live => ?_⟩
      cases live
    · rintro env before after - ⟨wired, clean⟩ stepped
      obtain ⟨_, _, discreet⟩ := step_discreet wired clean stepped
      exact ⟨discreet.wired, discreet.clean⟩
  obtain ⟨actor, acts, discreet⟩ := step_discreet kept.1 kept.2 ran
  refine ⟨actor, acts, fun h apart => ?_⟩
  obtain ⟨msgs, harmless, adds⟩ := discreet.adds h apart
  refine ⟨msgs, adds, fun msg member => ⟨harmless msg member, fun fits => ?_⟩⟩
  rw [formatted_of_fits env fits]
  rfl

/-- A line with an escape sequence and a NUL. -/
private def escapes : Env := .brings 5 (bytes "h\x1b[31mi\x00\n")

/-- Two users in the chat, and the turn of the one that sent such a line. -/
private def told : List (Nat × Env) :=
  [(107, .connects 4), (109, .brings 4 (bytes "amy\n")), (110, .connects 5),
    (111, .brings 5 (bytes "bob\n")), (13, escapes)]

/-- The other gets what is printable of it. -/
theorem no_line_injection_escaped : ∃ (sys sys' : Sys) (out : Bytes),
    Reaches step (fun _ _ => True) (start 3 0) sys ∧ step escapes sys = .ok sys' ∧
      sys.app.outOf 4 = some out ∧
      sys'.app.outOf 4 = some (out ++ (crlf ++ bytes "[bob]: h[31mi" ++ crlf ++ bytes ">")) ∧
      ∃ actor, sys.actor escapes = .ok actor ∧ ∀ h, actor ≠ some h →
        ∃ msgs, Adds escapes h msgs sys.app sys'.app ∧ ∀ msg ∈ msgs, OneLine msg ∧
          (msg.text.length < formatCap →
            framed .interrupt (formatted escapes msg.text) = crlf ++ msg.text ++ crlf ++ bytes ">") := by
  have outcome : (drive step (fun _ _ => true) .assertion (rounds told) (start 3 0)).bind (fun sys =>
      (step escapes sys).map fun sys' => (sys.app.outOf 4).bind fun out => (sys'.app.outOf 4).map fun out' =>
        (decide (out' = out ++ (crlf ++ bytes "[bob]: h[31mi" ++ crlf ++ bytes ">")))) = .ok (some true) := by
    decide +kernel
  obtain ⟨sys, driven, outcome⟩ := bind_eq_ok.mp outcome
  obtain ⟨sys', stepped, outcome⟩ := map_eq_ok.mp outcome
  obtain ⟨out, before, outcome⟩ := Option.bind_eq_some_iff.mp outcome
  obtain ⟨out', after, shown⟩ := Option.map_eq_some_iff.mp outcome
  have reached : Reaches step (fun _ _ => True) (start 3 0) sys := drive_reaches (fun _ _ _ _ => trivial) driven
  rw [of_decide_eq_true shown] at after
  exact ⟨sys, sys', out, reached, stepped, before, after, no_line_injection reached stepped⟩

end Runs

end AuroraComms
