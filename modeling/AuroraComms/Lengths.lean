import AuroraComms.Dialogue
import AuroraComms.Growth

/-! How long a line may be. The texts that carry a line, or part of one, go through
an array of 1024 bytes like all the others. The longest of them is a whisper, and
it is 21 bytes longer than the line it came in. -/
namespace AuroraComms
open Meta Library.Run Library.Protocol

/-- The message an event puts out. -/
def Event.said : Event → Option Msg
  | .printed _ _ msg | .sent _ msg => some msg
  | _ => none

/-! ## Texts -/

section Texts

theorem cstr_length (s : Bytes) : (cstr s).length ≤ s.length := (List.takeWhile_sublist _).length_le

theorem snprintf_length (size : Nat) (text : Bytes) : (snprintf size text).length ≤ size - 1 := by
  rw [snprintf, List.length_take]
  exact Nat.min_le_left _ _

theorem whisper_length (name text : Bytes) :
    (Msg.whisper name text).text.length ≤ name.length + text.length + 11 := by
  have before : (bytes "[").length = 1 := by decide
  have between : (bytes " -> You]: ").length = 10 := by decide
  have names := cstr_length name
  have texts := cstr_length text
  simp only [Msg.text, List.length_append, before, between]
  omega

theorem whisperAck_length (name text : Bytes) :
    (Msg.whisperAck name text).text.length ≤ name.length + text.length + 11 := by
  have before : (bytes "[You -> ").length = 8 := by decide
  have between : (bytes "]: ").length = 3 := by decide
  have names := cstr_length name
  have texts := cstr_length text
  simp only [Msg.text, List.length_append, before, between]
  omega

theorem chat_length (name line : Bytes) : (Msg.chat name line).text.length ≤ name.length + line.length + 4 := by
  have before : (bytes "[").length = 1 := by decide
  have between : (bytes "]: ").length = 3 := by decide
  have names := cstr_length name
  have texts := cstr_length line
  simp only [Msg.text, List.length_append, before, between]
  omega

theorem chatAck_length (line : Bytes) : (Msg.chatAck line).text.length ≤ line.length + 7 := by
  have before : (bytes "[You]: ").length = 7 := by decide
  have texts := cstr_length line
  simp only [Msg.text, List.length_append, before]
  omega

theorem notFound_length (recipient : Bytes) : (Msg.notFound recipient).text.length ≤ recipient.length + 18 := by
  have before : (bytes "User '").length = 6 := by decide
  have behind : (bytes "' not found.").length = 12 := by decide
  have names := cstr_length recipient
  simp only [Msg.text, List.length_append, before, behind]
  omega

/-- What a message has in names and numbers, when it carries nothing else. -/
def Msg.names : Msg → Option Nat
  | .greeting .. => some 0
  | .welcome name | .joins name | .left name | .listSelf name | .listOther name | .notInChat name =>
    some name.length
  | .info _ users => some (decimal users).length
  | .confirmExit | .taken | .invalid | .help | .listHeader | .usage => some 0
  | .chat .. | .chatAck _ | .notFound _ | .whisper .. | .whisperAck .. => none

theorem names_length {msg : Msg} {n : Nat} (names : msg.names = some n) : msg.text.length ≤ n + 300 := by
  have printed := cstr_length
  cases msg with
  | chat | chatAck | notFound | whisper | whisperAck => cases names
  | confirmExit | taken | invalid | help | listHeader | usage =>
    cases names
    decide +kernel
  | greeting users days =>
    cases names
    have first : (bytes "[ AuroraComms - Multi-User Communications Server ]\r\n").length = 52 := by decide +kernel
    have second : (bytes "\r\nServer uptime: ").length = 17 := by decide +kernel
    have third : (bytes "\r\n\r\nEnter a username between 2-16 characters long.\r\n").length = 52 := by
      decide +kernel
    have fourth : (bytes "It may include letters, numbers and underscores.").length = 48 := by decide +kernel
    have count : (cstr (userCount users)).length ≤ 63 := by
      unfold userCount
      split <;> exact (printed _).trans (snprintf_length 64 _)
    have time : (cstr (uptime days)).length ≤ 15 := (printed _).trans (snprintf_length 16 _)
    simp only [Msg.text, List.length_append, first, second, third, fourth]
    omega
  | info days users =>
    cases names
    have first : (bytes "AuroraComms Server\n - Uptime: ").length = 30 := by decide +kernel
    have second : (bytes "\n - Connected users: ").length = 21 := by decide +kernel
    have time : (cstr (uptime days)).length ≤ 15 := (printed _).trans (snprintf_length 16 _)
    simp only [Msg.text, List.length_append, first, second]
    omega
  | welcome name =>
    cases names
    have first : (bytes "You may now chat with others, ").length = 30 := by decide +kernel
    have second : (bytes "!").length = 1 := by decide
    have own := printed name
    simp only [Msg.text, List.length_append, first, second]
    omega
  | joins name =>
    cases names
    have behind : (bytes " joins the chat!").length = 16 := by decide
    have own := printed name
    simp only [Msg.text, List.length_append, behind]
    omega
  | left name =>
    cases names
    have behind : (bytes " has left the chat.").length = 19 := by decide
    have own := printed name
    simp only [Msg.text, List.length_append, behind]
    omega
  | listSelf name | listOther name | notInChat name =>
    cases names
    have own := printed name
    have one : (bytes " - ").length = 3 := by decide
    have you : (bytes " (You)\r\n").length = 8 := by decide
    have line : (bytes "\r\n").length = 2 := by decide
    have before : (bytes "User '").length = 6 := by decide
    have behind : (bytes "' is not in the chat.").length = 21 := by decide
    simp only [Msg.text, List.length_append, one, you, line, before, behind]
    omega

end Texts

/-! ## Lines -/

section Lines
variable {line : Bytes}

theorem validateUsername_length {name : Bytes} (valid : validateUsername name = true) :
    2 ≤ name.length ∧ name.length ≤ 16 := by
  unfold validateUsername at valid
  split at valid
  · cases valid
  · rename_i within
    simp only [Bool.or_eq_true, decide_eq_true_eq, not_or, not_lt] at within
    exact within

/-- What a command leaves of its line for the first of its arguments. -/
theorem whisperTo_length (line : Bytes) : (whisperTo line).length ≤ line.length := by
  have args : (commandArgs line).length ≤ line.length := by
    refine ((List.dropWhile_sublist _).length_le.trans (List.drop_sublist _ _).length_le).trans ?_
    exact (List.dropWhile_sublist _).length_le.trans (List.drop_sublist _ _).length_le
  exact (List.takeWhile_sublist _).length_le.trans args

/-- The text of a whisper comes behind the prefix, the command, the name and what
separates them. -/
theorem whisperText_length (filled : whisperText line ≠ []) :
    (commandWord line).length + (whisperTo line).length + (whisperText line).length + 3 ≤ line.length := by
  have parts : ∀ l : Bytes, l.length = (l.takeWhile (!isSpace ·)).length + (l.dropWhile (!isSpace ·)).length := by
    intro l
    rw [← List.length_append, List.takeWhile_append_dropWhile]
  have shrinks : ∀ l : Bytes, ((l.drop 1).dropWhile isSpace).length ≤ l.length - 1 :=
    fun l => (List.dropWhile_sublist _).length_le.trans (List.length_drop).le
  have word := parts (line.drop 1)
  have name := parts (commandArgs line)
  have args : (commandArgs line).length ≤ _ := shrinks ((line.drop 1).dropWhile (!isSpace ·))
  have text : (whisperText line).length ≤ _ := shrinks ((commandArgs line).dropWhile (!isSpace ·))
  have some : 0 < (whisperText line).length := List.length_pos_iff.mpr filled
  rw [List.length_drop] at word
  change _ = (commandWord line).length + _ at word
  change _ = (whisperTo line).length + _ at name
  omega

theorem commandWord_filled {cmd : Cmd} (known : commandOf (commandWord line) = some cmd) :
    0 < (commandWord line).length := by
  refine List.length_pos_iff.mpr fun empty => ?_
  have nothing : commandOf [] = none := by decide
  rw [empty, nothing] at known
  cases known

end Lines

/-! ## Messages -/

/-- The longest line of which every message is whole. -/
def longest : Nat := 1002

/-- A line that is not too long, and a number of users that is not. -/
def Event.short : Event → Prop
  | .handled _ _ line => line.length ≤ longest
  | .printed _ _ (.info _ users) => users ≤ clientsMax
  | _ => True

namespace Chronicle

/-- A chronicle in which no line and no name is too long. -/
structure Brief (c : Chronicle) : Prop where
  kept : Kept c
  line : ∀ user line, c.speaking = some (user, line) → line.length ≤ longest
  news : ∀ h msg, c.news = some (h, msg) → ∃ name, name.length ≤ 16 ∧ (msg = .joins name ∨ msg = .left name)

variable {c c' : Chronicle} {e : Event} {user : User} {line : Bytes} {h : Handle}

theorem Kept.name_length (kept : Kept c) (known : c.user h = some user) : user.username.length ≤ 16 := by
  by_cases entering : user.state = .login
  · rw [kept.unnamed h user known entering]
    exact Nat.zero_le 16
  · exact (validateUsername_length (kept.valid h user known entering)).2

theorem Brief.awaits (brief : Brief c) (due : Option Handle) : Brief (c.awaits due) :=
  ⟨brief.kept.awaits due, brief.line, brief.news⟩

theorem Brief.reports (brief : Brief c) (reported : Reports c e c') (short : e.short) : Brief c' := by
  refine ⟨brief.kept.reports reported, ?_, ?_⟩
  · cases reported with
    | handled taken line known stays =>
      rintro _ _ ⟨⟩
      exact short
    | _ => first | exact brief.line | exact nofun
  · cases reported with
    | userRemoved known =>
      rintro _ _ ⟨⟩
      exact ⟨_, brief.kept.name_length known, .inr rfl⟩
    | enters said free valid =>
      rintro _ _ ⟨⟩
      exact ⟨_, (validateUsername_length valid).2, .inl rfl⟩
    | _ => first | exact brief.news | exact nofun

theorem Brief.tells (brief : Brief c) (told : Tells c e c') (short : e.short) : Brief c' := by
  cases told with
  | reports level reported => exact (brief.reports reported short).awaits _
  | prompts => exact brief.awaits none

/-- A message about a line that is not too long fits its array. -/
theorem Brief.fits (brief : Brief c) (reported : Reports c e c') (short : e.short) {msg : Msg}
    (said : e.said = some msg) : msg.text.length < formatCap := by
  have plain : ∀ {n}, msg.names = some n → n ≤ 16 → msg.text.length < formatCap := by
    intro n names few
    have length := names_length names
    unfold formatCap
    omega
  have spoke : ∀ {user line state}, c.Says user line state →
      line.length ≤ longest ∧ user.username.length ≤ 16 := by
    intro user line state spoken
    exact ⟨brief.line _ _ spoken.spoke, brief.kept.name_length (brief.kept.said spoken).1⟩
  unfold longest at spoke
  unfold formatCap
  cases reported with
  | accepted | closed | received | hungUp | handled | blank | listEnd | userNew | userRemoved | goodbye =>
    cases said
  | greets | taken | invalid | asks | help | listHeader | usage => cases said; exact plain rfl (Nat.zero_le 16)
  | news due =>
    cases said
    obtain ⟨name, few, rfl | rfl⟩ := brief.news _ _ due <;> exact plain rfl few
  | enters _ _ valid => cases said; exact plain rfl (validateUsername_length valid).2
  | returns spoken => cases said; exact plain rfl (spoke spoken).2
  | listSelf lists =>
    cases said
    exact plain rfl (brief.kept.name_length (brief.kept.spoke _ _ lists.spoke).1)
  | listOther lists known => cases said; exact plain rfl (brief.kept.name_length known)
  | notInChat addressed =>
    cases said
    exact plain rfl (by rw [← addressed.named]; exact brief.kept.name_length addressed.known)
  | info days ordered =>
    cases said
    have digits : ∀ n ≤ clientsMax, (decimal (n : Nat)).length ≤ 2 := by decide +kernel
    exact plain rfl ((digits _ short).trans (by decide))
  | @chat user line o spoken =>
    cases said
    have length := chat_length user.username line
    have bounds := spoke spoken
    omega
  | @chatAck user line spoken =>
    cases said
    have length := chatAck_length line
    have bounds := spoke spoken
    omega
  | @notFound user line ordered =>
    cases said
    have length := notFound_length (whisperTo line)
    have part := whisperTo_length line
    have bounds := spoke ordered.toSays
    omega
  | @whisper user other line addressed listens text =>
    cases said
    have length := whisper_length user.username (whisperText line)
    have parts := whisperText_length text
    have word := commandWord_filled addressed.word
    have bounds := spoke addressed.toSays
    have name := (validateUsername_length (brief.kept.valid _ _ addressed.known (by simp [listens]))).1
    rw [addressed.named] at name
    omega
  | @whisperAck user other line addressed listens text =>
    cases said
    have parts := whisperText_length text
    have length := whisperAck_length (whisperTo line) (whisperText line)
    have bounds := spoke addressed.toSays
    rw [addressed.named]
    omega

end Chronicle

/-! ## How many users are counted -/

/-- The number of users that an answer to `/info` states. -/
def Msg.stated : Msg → Option Nat
  | .info _ users => some users
  | _ => none

/-- What is stated is this number. -/
def Event.counts (users : Nat) (e : Event) : Prop := ∀ msg ∈ e.said, ∀ stated ∈ msg.stated, stated = users

section Counts
variable {room : Room} {user : User} {line : Bytes} {n : Nat}

theorem frame_counts (h : Handle) (action : Print) {msg : Msg} (nothing : msg.stated = none) :
    ∀ e ∈ frame h action msg, e.counts n := by
  simp [frame, Event.counts, Event.said, nothing]

theorem frames_count {roster : List Handle} (chosen : Handle → Prop) [DecidablePred chosen] {msg : Msg}
    (nothing : msg.stated = none) :
    ∀ e ∈ roster.flatMap fun h => if chosen h then frame h .interrupt msg else [], e.counts n := by
  intro e member
  obtain ⟨k, _, _, inside⟩ := mem_frames chosen member
  exact frame_counts k .interrupt nothing e inside

theorem listing_counts (room : Room) (user : User) : ∀ e ∈ room.listing user, e.counts n := by
  intro e member
  simp only [Room.listing, List.mem_append, List.mem_cons, List.mem_flatMap, List.not_mem_nil, or_false] at member
  rcases member with ((rfl | rfl) | ⟨k, _, inside⟩) | rfl
  · simp [Event.counts, Event.said, Msg.stated]
  · simp [Event.counts, Event.said, Msg.stated]
  · split at inside
    · cases inside
    · obtain ⟨other, _, rfl⟩ := List.mem_map.mp inside
      simp [Event.counts, Event.said, Msg.stated]
  · simp [Event.counts, Event.said]

theorem whisper_counts (room : Room) (user : User) (line : Bytes) : ∀ e ∈ room.whisper user line, e.counts n := by
  unfold Room.whisper
  cases (room.owner (whisperTo line)).bind room.user with
  | none => exact frame_counts _ _ rfl
  | some other =>
    intro e member
    simp only at member
    split at member
    · exact frame_counts _ _ rfl e member
    · split at member
      · exact frame_counts _ _ rfl e member
      · rcases List.mem_append.mp member with inside | inside
        · exact frame_counts _ _ rfl e inside
        · exact frame_counts _ _ rfl e inside

theorem command_counts (days : Int) (room : Room) (user : User) (line : Bytes) :
    ∀ e ∈ (room.command days user line).2, e.counts room.roster.length := by
  unfold Room.command
  cases commandOf (commandWord line) with
  | none => exact frame_counts _ _ rfl
  | some cmd =>
    cases cmd with
    | help | exit => exact frame_counts _ _ rfl
    | info => simp [frame, Event.counts, Event.said, Msg.stated]
    | list => exact listing_counts room user
    | whisper => exact whisper_counts room user line

/-- An answer states how many users there are. -/
theorem speak_counts (days : Int) (room : Room) (user : User) (line : Bytes) :
    ∀ e ∈ (room.speak days user line).2, e.counts room.roster.length := by
  have silent : ∀ h, Event.counts room.roster.length (.prompted h) := by simp [Event.counts, Event.said]
  unfold Room.speak
  cases user.state with
  | login =>
    by_cases blank : line = []
    · simpa [blank] using silent user.handle
    · by_cases taken : (room.owner line).isSome
      · simpa [blank, taken] using frame_counts user.handle .afterEnter rfl
      · by_cases valid : validateUsername line = true
        · simp only [blank, taken, valid, if_false, Bool.not_true]
          intro e member
          rcases List.mem_append.mp member with inside | inside
          · exact frame_counts _ _ rfl e inside
          · exact frames_count _ rfl e inside
        · simpa [blank, taken, valid] using frame_counts user.handle .afterEnter rfl
  | chat =>
    by_cases blank : line = []
    · simpa [blank] using silent user.handle
    · by_cases command : isCommand line = true
      · simpa [blank, command] using command_counts days room user line
      · simp only [blank, command, if_false]
        intro e member
        rcases List.mem_append.mp member with inside | inside
        · exact frames_count _ rfl e inside
        · exact frame_counts _ _ rfl e inside
  | exit =>
    by_cases yes : stringEqIgnoreCase line (bytes "y") = true
    · simp [yes, Event.counts, Event.said]
    · simpa [yes] using frame_counts user.handle .afterEnter rfl

/-- So does every step. -/
theorem World.Step.counts {env : Env} {world world' : World} {events : List Event}
    (stepped : World.Step env world events world') : ∀ e ∈ events, e.counts world.room.roster.length := by
  cases stepped with
  | sweep polled gone =>
    intro e member
    obtain ⟨h, _, rfl⟩ := List.mem_map.mp member
    simp [Event.counts, Event.said]
  | @turn todo room h days =>
    rcases room.turn_cases days h with ⟨_, same⟩ | ⟨user, conn, line, rest, _, _, _, took⟩
    · rw [same]
      exact nofun
    · rw [took]
      intro e member
      rcases List.mem_cons.mp member with rfl | inside
      · simp [Event.counts, Event.said]
      · exact speak_counts days (room.setConn h { conn with inBuf := rest }) user line e inside
  | create =>
    intro e member
    rcases List.mem_append.mp member with inside | inside
    · exact frame_counts _ _ rfl e inside
    · rw [List.mem_singleton.mp inside]
      simp [Event.counts, Event.said]
  | remove =>
    intro e member
    rcases List.mem_cons.mp member with rfl | inside
    · simp [Event.counts, Event.said]
    · exact frames_count _ rfl e inside
  | receive | hangUp | accept => simp [Event.counts, Event.said]
  | _ => exact nofun

end Counts

/-! ## Whole runs -/

section Runs
variable {env : Env} {listener : Handle} {now : Int} {sys sys' : Sys}

/-- No answer states more users than the server takes clients. -/
theorem run_counts (reached : Reaches step Orderly (start listener now) sys) :
    ∀ e ∈ sys.app.trace, ∀ msg ∈ e.said, ∀ users ∈ msg.stated, users ≤ clientsMax := by
  induction reached with
  | start => exact nofun
  | next before env orderly ran stated =>
    obtain ⟨good, bounded⟩ := run_bounded before
    obtain ⟨again, events, ran', _, grown, moved⟩ := step_refines good.sound good.inv orderly
    obtain rfl := Except.ok.inj (ran.symm.trans ran')
    intro e member msg said users states
    rw [grown] at member
    rcases List.mem_append.mp member with old | new
    · exact stated e old msg said users states
    · rw [moved.counts e new msg said users states]
      exact (roster_le_clients good).trans bounded.few

/-- Where no line is too long, every message is whole. -/
theorem run_fits (reached : Reaches step Orderly (start listener now) sys)
    (short : ∀ h taken line, .handled h taken line ∈ sys.app.trace → line.length ≤ longest) :
    ∀ e ∈ sys.app.trace, ∀ msg, e.said = some msg → msg.text.length < formatCap := by
  obtain ⟨c, obeys, _⟩ := Chronicle.path_tells (start_simulates reached fun _ _ => id)
  have counts := run_counts reached
  have known : ∀ e ∈ sys.app.trace, e.short := by
    intro e member
    cases e with
    | handled h taken line => exact short h taken line member
    | printed h action msg =>
      cases msg with
      | info days users => exact counts _ member _ rfl users rfl
      | _ => trivial
    | _ => trivial
  have brief : Chronicle.Brief Chronicle.empty := ⟨.empty, nofun, nofun⟩
  refine (obeys.within known).forall brief fun m e m' brief told => ⟨fun msg said => ?_, brief.tells told.1 told.2⟩
  obtain ⟨told, short⟩ := told
  cases told with
  | reports level reported => exact brief.fits reported short said
  | prompts => cases said

/-- A user with a name of 16 bytes whispers a line of 1003 bytes, which comes in two
pieces, to one with a name of two. -/
private def whispersLong : List (Nat × Env) :=
  [(107, .connects 4), (109, .brings 4 (bytes "abcdefghijklmnop\n")), (110, .connects 5),
    (111, .brings 5 (bytes "cd\n")), (111, .brings 4 (bytes "/w cd " ++ List.replicate 506 120)),
    (111, .brings 4 (List.replicate 491 120 ++ [10]))]

private theorem whispersLong_unsent : ∀ env ∈ rounds whispersLong, ∀ h data, env.send h data = none :=
  rounds_unsent ⟨fun _ _ => rfl, fun _ _ => rfl, fun _ _ => rfl, fun _ _ => rfl, fun _ _ => rfl, fun _ _ => rfl⟩

/-- A line within a length. -/
private def Event.within (n : Nat) : Event → Bool
  | .handled _ _ line => decide (line.length ≤ n)
  | _ => true

/-- A message that leaves no room for its NUL. -/
private def Event.tooLong (e : Event) : Bool := e.said.any fun msg => decide (formatCap ≤ msg.text.length)

/-- With one byte more, a whisper is cut. -/
theorem whisper_cut : ∃ sys : Sys, Reaches step Orderly (start 3 0) sys ∧
    (∀ h taken line, .handled h taken line ∈ sys.app.trace → line.length ≤ longest + 1) ∧
    ∃ e ∈ sys.app.trace, ∃ msg, e.said = some msg ∧ formatCap ≤ msg.text.length := by
  have outcome : (drive step separate .assertion (rounds whispersLong) (start 3 0)).map (fun sys =>
      (sys.app.trace.all (Event.within (longest + 1)), sys.app.trace.any Event.tooLong)) = .ok (true, true) := by
    decide +kernel
  obtain ⟨sys, driven, outcome⟩ := map_eq_ok.mp outcome
  obtain ⟨short, cut⟩ := Prod.mk.inj outcome
  refine ⟨sys, (reaches_of_drive whispersLong_unsent driven).weaken fun _ _ => Separate.orderly,
    fun h taken line member => of_decide_eq_true (List.all_eq_true.mp short _ member), ?_⟩
  obtain ⟨e, member, long⟩ := List.any_eq_true.mp cut
  obtain ⟨msg, said, long⟩ := (Option.any_eq_true _ _).mp long
  exact ⟨e, member, msg, said, of_decide_eq_true long⟩

/-- In the orderly runs of which no line is longer than `n`, every message is put
out whole, if and only if `n` is at most 1002. -/
theorem messages_whole_iff (n : Nat) :
    (∀ (listener : Handle) (now : Int) (sys : Sys), Reaches step Orderly (start listener now) sys →
      (∀ h taken line, .handled h taken line ∈ sys.app.trace → line.length ≤ n) →
      ∀ e ∈ sys.app.trace, ∀ msg, e.said = some msg → ∀ env, formatted env msg.text = msg.text) ↔
    n ≤ longest := by
  constructor
  · intro whole
    by_contra long
    obtain ⟨sys, reached, short, e, member, msg, said, cut⟩ := whisper_cut
    have kept := whole 3 0 sys reached
      (fun h taken line handled => (short h taken line handled).trans (not_le.mp long)) e member msg said .idle
    exact absurd ((formatted_eq_iff .idle msg).mp kept) (not_lt.mpr cut)
  · intro few listener now sys reached short e member msg said env
    exact (formatted_eq_iff env msg).mpr (run_fits reached
      (fun h taken line handled => (short h taken line handled).trans few) e member msg said)

end Runs
end AuroraComms
