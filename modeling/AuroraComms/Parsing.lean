import AuroraComms.Indexed
import AuroraComms.Delivery

/-! How a command line is taken apart. The indices each start one past the end
of the word in front, so at the end of a line they run past its length; the
lines that reach another user are those of one shape. -/
namespace AuroraComms
open Meta Library.Run

namespace Indexed

/-- Subtraction in `size_t`, refused where it would wrap around. -/
def sub (a b : Nat) : Except Fault Nat := if b ≤ a then .ok (a - b) else .error .outOfBounds

/-- `ac_arr_append_n` to a new array of `n` bytes from `line + start` on. -/
def copy (line : Bytes) (start n : Nat) : Except Fault Bytes :=
  (List.range n).mapM fun i => byteAt line (start + i)

/-- `ac_is_command` -/
def isCommand (line : Bytes) : Except Fault Bool := do
  if line.length > 0 then return (← byteAt line 0) == 47 else return false

/-- The command word, and `cmd_end`. -/
def cutCommand (line : Bytes) : Except Fault (Bytes × Nat) := do
  let cmdEnd ← scan (!isSpace ·) line (line.length + 1) 1
  return (← copy line 1 (← sub cmdEnd 1), cmdEnd)

/-- The recipient of a whisper, and `recipient_end`. -/
def cutRecipient (line : Bytes) (cmdEnd : Nat) : Except Fault (Bytes × Nat) := do
  let recipientStart ← scan isSpace line (line.length + 1) (cmdEnd + 1)
  let recipientEnd ← scan (!isSpace ·) line (line.length + 1) recipientStart
  return (← copy line recipientStart (← sub recipientEnd recipientStart), recipientEnd)

/-- Its message, unless the line ends in front of it. -/
def cutMsg (line : Bytes) (recipientEnd : Nat) : Except Fault (Option Bytes) := do
  let msgStart ← scan isSpace line (line.length + 1) (recipientEnd + 1)
  if msgStart ≥ line.length then return none
  else return some (← copy line msgStart (← sub line.length msgStart))

/-- `AC_CMD_WHISPER` -/
def handleWhisperCmd (env : Env) (p : UserPtr) (line : Bytes) (cmdEnd : Nat) (app : App) :
    Except Fault App := do
  let (recipient, recipientEnd) ← cutRecipient line cmdEnd
  match ← app.fromUsername.getMaybeNull stringHash stringEq recipient with
  | none => printFmt env p .afterEnter (.notFound recipient) app
  | some s =>
    let otherUser ← app.fromUsername.val s
    let other ← app.user otherUser
    if other.state ≠ .chat then printFmt env p .afterEnter (.notInChat recipient) app
    else
      match ← cutMsg line recipientEnd with
      | none => printFmt env p .afterEnter .usage app
      | some msg =>
        let user ← app.user p
        let app ← printFmt env otherUser .interrupt (.whisper user.username msg) app
        let other ← app.user otherUser
        printFmt env p .afterEnter (.whisperAck other.username msg) app

/-- `ac_handle_command` -/
def handleCommand (env : Env) (p : UserPtr) (line : Bytes) (app : App) : Except Fault App := do
  if !(← isCommand line) then throw .assertion
  else if line.length = 1 then handleHelpCmd env p app
  else
    let (cmdStr, cmdEnd) ← cutCommand line
    let commands ← initCommands
    match ← commands.getMaybeNull stringHash stringEq cmdStr with
    | none => handleHelpCmd env p app
    | some s =>
      match ← commands.val s with
      | .help => handleHelpCmd env p app
      | .exit => stateSwitch env p .exit app
      | .info =>
        printFmt env p .afterEnter (.info (uptimeDays env app) app.fromHandle.len) app
      | .list => handleListCmd env p app
      | .whisper => handleWhisperCmd env p line cmdEnd app

/-! ## No index too far -/

section Cuts
variable {env : Env} {app : App} {p : UserPtr} {line : Bytes}

theorem isCommand_eq (line : Bytes) : isCommand line = .ok (AuroraComms.isCommand line) := by
  cases line with
  | nil => rfl
  | cons b rest => rfl

theorem copy_inside {start n : Nat} (inside : start + n ≤ line.length) :
    copy line start n = .ok ((line.drop start).take n) := by
  induction n with
  | zero => simp [copy]
  | succ n ih =>
    have first : copy line start n = .ok ((line.drop start).take n) := ih (by omega)
    rw [copy] at first
    have last : start + n < line.length := by omega
    have here : n < (line.drop start).length := by
      rw [List.length_drop]
      omega
    rw [copy, List.range_succ, List.mapM_append, first, ok_bind, List.mapM_cons,
      byteAt_inside last, List.take_succ_eq_append_getElem here, List.getElem_drop]
    rfl

theorem scan_scanWhile (test : UInt8 → Bool) (line : Bytes) (i : Nat) :
    scan test line (line.length + 1) i = .ok (scanWhile test line i) :=
  scan_eq test line (line.length + 1) i (by omega)

theorem sub_scanWhile (test : UInt8 → Bool) (line : Bytes) (i : Nat) :
    sub (scanWhile test line i) i = .ok ((line.drop i).takeWhile test).length := by
  rw [sub, scanWhile, if_pos (Nat.le_add_right _ _), Nat.add_sub_cancel_left]

/-- The bytes a scan moved over can be copied, also where it began behind the end. -/
theorem copy_scanWhile (test : UInt8 → Bool) (line : Bytes) (i : Nat) :
    copy line i ((line.drop i).takeWhile test).length = .ok ((line.drop i).takeWhile test) := by
  have short := (List.takeWhile_sublist test (l := line.drop i)).length_le
  rw [List.length_drop] at short
  by_cases behind : line.length ≤ i
  · rw [List.drop_of_length_le behind]
    rfl
  · rw [copy_inside (by omega)]
    have split := List.takeWhile_append_dropWhile (p := test) (l := line.drop i)
    conv_lhs => arg 1; arg 2; rw [← split]
    rw [List.take_left]

/-- The command word of every line can be cut out. -/
theorem cutCommand_eq (line : Bytes) :
    cutCommand line = .ok (commandWord line, scanWhile (!isSpace ·) line 1) := by
  rw [cutCommand, scan_scanWhile, ok_bind, sub_scanWhile, ok_bind, copy_scanWhile, ok_bind]
  rfl

/-- So can its recipient, wherever the line ends. -/
theorem cutRecipient_eq (line : Bytes) :
    cutRecipient line (scanWhile (!isSpace ·) line 1) = .ok (whisperTo line, recipientEnd line) := by
  rw [cutRecipient, scan_scanWhile, ok_bind, scan_scanWhile, ok_bind, sub_scanWhile, ok_bind,
    copy_scanWhile, ok_bind, drop_args]
  rfl

/-- And the message, if there is one. -/
theorem cutMsg_eq (line : Bytes) :
    cutMsg line (recipientEnd line) =
      .ok (if whisperText line = [] then none else some (whisperText line)) := by
  rw [cutMsg, scan_scanWhile, ok_bind]
  by_cases nothing : whisperText line = []
  · rw [if_pos ((text_ends line).mpr nothing), if_pos nothing]
    rfl
  · have inside := mt (text_ends line).mp nothing
    have text := drop_text line
    rw [if_neg inside, if_neg nothing]
    generalize scanWhile isSpace line (recipientEnd line + 1) = msgStart at inside text ⊢
    have rest : (line.drop msgStart).take (line.length - msgStart) = line.drop msgStart :=
      List.take_of_length_le (by simp)
    rw [sub, if_pos (by omega), ok_bind, copy_inside (by omega), rest, text]
    rfl

/-- A whisper reads its line inside its bounds. -/
theorem handleWhisperCmd_eq (env : Env) (p : UserPtr) (line : Bytes) (app : App) :
    handleWhisperCmd env p line (scanWhile (!isSpace ·) line 1) app =
      AuroraComms.handleWhisperCmd env p line (scanWhile (!isSpace ·) line 1) app := by
  have recipient := slice_recipient line
  have cut := cutMsg_eq line
  unfold handleWhisperCmd AuroraComms.handleWhisperCmd
  rw [cutRecipient_eq, ok_bind]
  unfold recipientEnd at recipient cut ⊢
  simp only [recipient, cut, ok_bind]
  -- Once the cuts are made, the two bodies do the same with what the lookup finds.
  cases app.fromUsername.getMaybeNull stringHash stringEq (whisperTo line) with
  | error fault => rfl
  | ok slot =>
    cases slot with
    | none => rfl
    | some s =>
      by_cases nothing : whisperText line = []
      · have short := (text_ends line).mpr nothing
        unfold recipientEnd at short
        simp only [short, nothing, ↓reduceIte, ok_bind]
      · have inside := mt (text_ends line).mp nothing
        have rest := slice_text nothing
        unfold recipientEnd at inside rest
        simp only [inside, nothing, ↓reduceIte, rest, ok_bind]

/-- Every command reads its line inside its bounds. -/
theorem handleCommand_eq (env : Env) (p : UserPtr) (line : Bytes) (app : App) :
    handleCommand env p line app = AuroraComms.handleCommand env p line app := by
  have word : slice line 1 (sizeSub (scanWhile (!isSpace ·) line 1) 1) = .ok (commandWord line) :=
    slice_scanWhile _ line 1
  simp only [handleCommand, AuroraComms.handleCommand, isCommand_eq, ok_bind, cutCommand_eq, word]
  cases initCommands with
  | error fault => rfl
  | ok commands =>
    rw [ok_bind, ok_bind]
    cases commands.getMaybeNull stringHash stringEq (commandWord line) with
    | error fault => rfl
    | ok slot =>
      cases slot with
      | none => rfl
      | some s =>
        rw [ok_bind, ok_bind]
        dsimp only
        cases commands.val s with
        | error fault => rfl
        | ok cmd =>
          cases cmd with
          | whisper => simp only [ok_bind, handleWhisperCmd_eq]
          | _ => rfl

end Cuts

end Indexed

/-! ## The shape of a whisper -/

/-- What follows the first word and the spaces behind it. -/
def afterWord (text : Bytes) : Bytes := ((text.dropWhile (!isSpace ·)).drop 1).dropWhile isSpace

/-- The prefix, an alias, the recipient and the text, with one or more spaces in
between. The text begins with none. -/
def WhisperLine (line recipient text : Bytes) : Prop :=
  ∃ word i j, (word, Cmd.whisper) ∈ aliases ∧ text ≠ [] ∧ text.head? ≠ some 32 ∧
    line = bytes "/" ++ word ++ List.replicate (i + 1) 32 ++ recipient ++ List.replicate (j + 1) 32 ++ text

section Words
variable {word rest line name text : Bytes}

theorem spaces_of_takeWhile (text : Bytes) :
    ∃ n, text.takeWhile isSpace = List.replicate n 32 := by
  refine ⟨_, List.eq_replicate_of_mem fun b member => ?_⟩
  simpa [isSpace] using List.mem_takeWhile_imp member

theorem afterWord_head (text : Bytes) : (afterWord text).head? ≠ some 32 := by
  intro space
  have stop := List.head?_dropWhile_not isSpace ((text.dropWhile (!isSpace ·)).drop 1)
  rw [← afterWord, space] at stop
  simp [isSpace] at stop

/-- A text with more than one word is its first word, spaces and what follows. -/
theorem word_split (text : Bytes) (more : afterWord text ≠ []) :
    ∃ i, text = text.takeWhile (!isSpace ·) ++ List.replicate (i + 1) 32 ++ afterWord text := by
  have outer := List.takeWhile_append_dropWhile (p := (!isSpace ·)) (l := text)
  cases tail : text.dropWhile (!isSpace ·) with
  | nil =>
    rw [afterWord, tail] at more
    exact absurd rfl more
  | cons first behind =>
    have space : first = 32 := by
      have stop := List.head?_dropWhile_not (!isSpace ·) text
      rw [tail] at stop
      simpa [isSpace] using stop
    obtain ⟨i, gap⟩ := spaces_of_takeWhile behind
    have inner := List.takeWhile_append_dropWhile (p := isSpace) (l := behind)
    have after : afterWord text = behind.dropWhile isSpace := by rw [afterWord, tail]; rfl
    refine ⟨i, ?_⟩
    rw [List.append_assoc, List.replicate_succ, ← gap, List.cons_append, after, inner, ← space, ← tail, outer]

/-- Where the first word of a text ends, for every number of spaces behind it. -/
theorem word_cut (solid : ∀ b ∈ word, isSpace b = false) (stops : rest.head? ≠ some 32) (i : Nat) :
    (word ++ List.replicate (i + 1) 32 ++ rest).takeWhile (!isSpace ·) = word ∧
      afterWord (word ++ List.replicate (i + 1) 32 ++ rest) = rest := by
  have solid' : ∀ b ∈ word, (!isSpace b) = true := fun b member => by rw [solid b member]; rfl
  have gap : ∀ b ∈ List.replicate i (32 : UInt8), isSpace b = true := by
    intro b member
    rw [List.eq_of_mem_replicate member]
    rfl
  have next : rest.dropWhile isSpace = rest := by
    cases rest with
    | nil => rfl
    | cons b more =>
      have solid : isSpace b = false := by simpa [isSpace] using stops
      rw [List.dropWhile_cons, solid]
      rfl
  rw [List.append_assoc, afterWord, List.takeWhile_append_of_pos solid', List.dropWhile_append_of_pos solid',
    List.replicate_succ, List.cons_append]
  constructor
  · exact List.append_nil word
  · show (List.replicate i 32 ++ rest).dropWhile isSpace = rest
    rw [List.dropWhile_append_of_pos gap, next]

theorem commandOf_eq_some {word : Bytes} {cmd : Cmd} :
    commandOf word = some cmd ↔ (word, cmd) ∈ aliases := by
  constructor
  · intro known
    obtain ⟨pair, found, rfl⟩ := Option.map_eq_some_iff.mp known
    have same : pair.1 = word := by simpa using List.find?_some found
    rw [← same]
    exact List.mem_of_find?_eq_some found
  · have all : ∀ pair ∈ aliases, commandOf pair.1 = some pair.2 := by decide
    exact fun member => all _ member

/-- The aliases are words. -/
theorem alias_solid {word : Bytes} {cmd : Cmd} (member : (word, cmd) ∈ aliases) :
    ∀ b ∈ word, isSpace b = false := by
  have all : ∀ pair ∈ aliases, ∀ b ∈ pair.1, isSpace b = false := by decide +kernel
  exact all _ member

/-- Names are words. -/
theorem username_solid (valid : validateUsername name = true) : ∀ b ∈ name, isSpace b = false := by
  intro b member
  unfold validateUsername at valid
  split at valid
  · cases valid
  · have letter := List.all_eq_true.mp valid b member
    by_contra space
    have same : b = 32 := by simpa [isSpace] using space
    rw [same] at letter
    revert letter
    decide

theorem username_nonempty (valid : validateUsername name = true) : name ≠ [] := by
  rintro rfl
  cases valid

theorem whisperLine_eq (word name text : Bytes) (i j : Nat) :
    bytes "/" ++ word ++ List.replicate (i + 1) 32 ++ name ++ List.replicate (j + 1) 32 ++ text =
      47 :: (word ++ List.replicate (i + 1) 32 ++ (name ++ List.replicate (j + 1) 32 ++ text)) := by
  have slash : bytes "/" = [47] := rfl
  simp only [slash, List.append_assoc, List.cons_append, List.nil_append]

/-- A whisper to a name is cut into that name and its text. -/
theorem WhisperLine.cuts (whispers : WhisperLine line name text) (valid : validateUsername name = true) :
    isCommand line = true ∧ commandOf (commandWord line) = some .whisper ∧ whisperTo line = name ∧
      whisperText line = text := by
  obtain ⟨word, i, j, known, _, stops, rfl⟩ := whispers
  rw [whisperLine_eq]
  have stops' : (name ++ List.replicate (j + 1) 32 ++ text).head? ≠ some 32 := by
    obtain ⟨b, more, rfl⟩ := List.exists_cons_of_ne_nil (username_nonempty valid)
    have solid := username_solid valid b (by simp)
    simpa [isSpace] using solid
  obtain ⟨command, behind⟩ := word_cut (alias_solid known) stops' i
  obtain ⟨recipient, message⟩ := word_cut (username_solid valid) stops j
  have args : commandArgs (47 :: (word ++ List.replicate (i + 1) 32 ++
      (name ++ List.replicate (j + 1) 32 ++ text))) = name ++ List.replicate (j + 1) 32 ++ text := behind
  refine ⟨rfl, ?_, ?_, ?_⟩
  · rw [commandWord, List.drop_succ_cons, List.drop_zero, command]
    exact commandOf_eq_some.mpr known
  · rw [whisperTo, args]
    exact recipient
  · rw [whisperText, args]
    exact message

/-- Every line that whispers a text is one of these. -/
theorem whisperLine_of_cuts (command : isCommand line = true)
    (whisper : commandOf (commandWord line) = some .whisper) (spoken : whisperText line ≠ []) :
    WhisperLine line (whisperTo line) (whisperText line) := by
  obtain ⟨body, rfl⟩ : ∃ body, line = 47 :: body := by
    cases line with
    | nil => cases command
    | cons b body =>
      have slash : b = 47 := by simpa [isCommand] using command
      exact ⟨body, by rw [slash]⟩
  have args : commandArgs (47 :: body) = afterWord body := rfl
  have text : whisperText (47 :: body) = afterWord (afterWord body) := rfl
  have more : afterWord body ≠ [] := by
    intro nothing
    rw [text, nothing] at spoken
    exact spoken rfl
  obtain ⟨i, first⟩ := word_split body more
  obtain ⟨j, second⟩ := word_split (afterWord body) (by rwa [text] at spoken)
  refine ⟨commandWord (47 :: body), i, j, commandOf_eq_some.mp whisper, spoken, ?_, ?_⟩
  · rw [text]
    exact afterWord_head _
  · rw [whisperLine_eq, text, whisperTo, args, ← second]
    exact congrArg (47 :: ·) first

end Words

/-! ## Who gets a whisper -/

section Turns
variable {env : Env} {app app' app'' : App} {p : UserPtr} {user : User} {line : Bytes}

/-- Nothing but sends and prompts to one user, whatever the loops visit. -/
private def Sends (env : Env) (user : User) (app app' : App) : Prop :=
  SameUsers app app' ∧ ∃ events, Charges env events app app' ∧
    ∀ e ∈ events, (∃ msg, e = .sent user.handle msg) ∨ e = .prompted user.handle

private theorem Sends.trans (first : Sends env user app app') (second : Sends env user app' app'') :
    Sends env user app app'' := by
  obtain ⟨same, events, charged, own⟩ := first
  obtain ⟨same', events', charged', own'⟩ := second
  refine ⟨same.trans same', events ++ events', Charges.trans charged charged', fun e member => ?_⟩
  obtain early | late := List.mem_append.mp member
  · exact own e early
  · exact own' e late

private theorem Sends.live (sent : Sends env user app app') (live : app.userAt p = some user) :
    app'.userAt p = some user := by
  rw [App.userAt, sent.1.1]
  exact live

private theorem Sends.wired (sent : Sends env user app app') : app'.Wired := by
  obtain ⟨_, _, charged, _⟩ := sent
  exact charged.wired

private theorem sendFmt_sends (wired : app.Wired) (live : app.userAt p = some user) {msg : Msg}
    (ran : sendFmt env p msg app = .ok app') : Sends env user app app' :=
  ⟨sendFmt_sameUsers ran, _, sendFmt_charges wired live ran, by simp⟩

/-- The list is sent to the user who asked, on every run. -/
private theorem handleListCmd_sends (wired : app.Wired) (live : app.userAt p = some user)
    (ran : handleListCmd env p app = .ok app') : Sends env user app app' := by
  obtain ⟨first, header, ran⟩ := bind_eq_ok.mp ran
  obtain ⟨self, _, ran⟩ := bind_eq_ok.mp ran
  obtain ⟨second, own, ran⟩ := bind_eq_ok.mp ran
  obtain ⟨third, loop, ran⟩ := bind_eq_ok.mp ran
  have opened : Sends env user app first := sendFmt_sends wired live header
  have begun := opened.trans (sendFmt_sends opened.wired (opened.live live) own)
  have body : Sends env user app third := by
    refine Map.foreach_preserves (Sends env user app) ?_ begun loop
    intro i j s middle after sent _ turned
    obtain ⟨e, _, turned⟩ := bind_eq_ok.mp turned
    obtain ⟨self, _, turned⟩ := bind_eq_ok.mp turned
    split at turned
    · cases turned
      exact sent
    split at turned
    · cases turned
      exact sent
    · obtain ⟨other, _, turned⟩ := bind_eq_ok.mp turned
      exact sent.trans (sendFmt_sends sent.wired (sent.live live) turned)
  exact body.trans ⟨prompt_sameUsers ran, _, prompt_charges body.wired (body.live live) ran, by simp⟩

/-- No whisper is printed. -/
private def Hushed (env : Env) (app app' : App) : Prop :=
  ∃ events, Charges env events app app' ∧
    ∀ k action sender text, Event.printed k action (.whisper sender text) ∉ events

private theorem answer_hushed (wired : app.Wired) (live : app.userAt p = some user) {msg : Msg}
    (other : ∀ sender text, msg ≠ .whisper sender text) (ran : printFmt env p .afterEnter msg app = .ok app') :
    Hushed env app app' := by
  refine ⟨_, printFmt_charges wired live ran, fun k action sender text member => ?_⟩
  simp only [frame, List.mem_cons, Event.printed.injEq, reduceCtorEq, List.not_mem_nil, or_false] at member
  exact other sender text member.2.2.symm

private theorem exit_hushed (sound : app.Sound) (here : Present app p user)
    (ran : stateSwitch env p .exit app = .ok app') : Hushed env app app' := by
  obtain ⟨first, assigned, _, there, same⟩ := setUser_acts sound here { user with state := .exit } rfl
  rw [stateSwitch, App.user_of_userAt here.live, ok_bind, assigned, ok_bind, stateNew,
    App.user_of_userAt there.live, ok_bind] at ran
  have clients : first.clients = app.clients := by
    rw [same]
    rfl
  have trace : first.trace = app.trace ++ [] := by rw [same, List.append_nil]
  have moved : Pours (fun _ => []) [] app first := pours_aside sound.wired clients trace
  obtain ⟨events, charged, none⟩ := answer_hushed moved.wired there.live (by simp) ran
  exact ⟨events, (moved.trans charged).same (by simp) rfl, none⟩

/-- Only the command to whisper whispers. -/
theorem command_hushed (sound : app.Sound) (here : Present app p user) (command : isCommand line = true)
    (other : commandOf (commandWord line) ≠ some .whisper) (ran : handleCommand env p line app = .ok app') :
    ∃ events, Charges env events app app' ∧
      ∀ k action sender text, Event.printed k action (.whisper sender text) ∉ events := by
  rw [handleCommand_eq env p app command] at ran
  cases known : commandOf (commandWord line) with
  | none =>
    rw [known] at ran
    exact answer_hushed sound.wired here.live (by simp) ran
  | some cmd =>
    rw [known] at ran other
    cases cmd with
    | help => exact answer_hushed sound.wired here.live (by simp) ran
    | exit => exact exit_hushed sound here ran
    | info => exact answer_hushed sound.wired here.live (by simp) ran
    | list =>
      obtain ⟨_, events, charged, own⟩ := handleListCmd_sends sound.wired here.live ran
      refine ⟨events, charged, fun k action sender text member => ?_⟩
      obtain ⟨msg, sent⟩ | prompted := own _ member
      · cases sent
      · cases prompted
    | whisper => exact absurd rfl other

/-- And it says what the room says. -/
theorem command_whispers (env : Env) (sound : app.Sound) (seated : app.Seated) (here : Present app p user)
    (command : isCommand line = true) (whisper : commandOf (commandWord line) = some .whisper) :
    ∃ app', handleCommand env p line app = .ok app' ∧ Charges env (app.room.whisper user line) app app' := by
  obtain ⟨app', ran, emitted⟩ : ∃ app', handleWhisperCmd env p line (scanWhile (!isSpace ·) line 1) app =
      .ok app' ∧ _ := handleWhisperCmd_emits sound seated here.live here.connected
  refine ⟨app', ?_, emitted.pours⟩
  rw [handleCommand_eq env p app command, whisper]
  exact ran

/-- Whom the room lets a line whisper to. -/
theorem mem_whisper {room : Room} {k : Handle} {action : Print} {sender text : Bytes}
    (member : Event.printed k action (.whisper sender text) ∈ room.whisper user line) :
    action = .interrupt ∧ sender = user.username ∧ text = whisperText line ∧ text ≠ [] ∧
      ∃ other, (room.owner (whisperTo line)).bind room.user = some other ∧ other.handle = k ∧
        other.state = .chat := by
  unfold Room.whisper at member
  cases known : (room.owner (whisperTo line)).bind room.user with
  | none =>
    rw [known] at member
    simp [frame] at member
  | some other =>
    rw [known] at member
    by_cases listening : other.state = .chat
    · by_cases nothing : whisperText line = []
      · simp [listening, nothing, frame] at member
      · simp only [listening, nothing, frame, ne_eq, not_true_eq_false, ↓reduceIte, List.mem_append,
          List.mem_cons, Event.printed.injEq, Msg.whisper.injEq, reduceCtorEq, List.not_mem_nil, or_false,
          and_false] at member
        obtain ⟨rfl, rfl, rfl, rfl⟩ := member
        exact ⟨rfl, rfl, rfl, nothing, other, rfl, rfl, listening⟩
    · simp [listening, frame] at member

/-- What becomes of a command line. -/
structure Parses (env : Env) (p : UserPtr) (user : User) (line : Bytes) (app : App) : Prop where
  /-- Wherever the line ends, no index reaches its length and no length wraps around. -/
  inside : ∃ word cmdEnd recipient recipientEnd msg, Indexed.cutCommand line = .ok (word, cmdEnd) ∧
    Indexed.cutRecipient line cmdEnd = .ok (recipient, recipientEnd) ∧
    Indexed.cutMsg line recipientEnd = .ok msg
  same : Indexed.handleCommand env p line app = handleCommand env p line app
  completes : Map.Readable env.quiet app.fromHandle → ∃ app', Indexed.handleCommand env p line app = .ok app'
  extracts : ∀ name text, WhisperLine line name text → (app.room.owner name).isSome →
    ∃ word cmdEnd recipientEnd, Indexed.cutCommand line = .ok (word, cmdEnd) ∧
      commandOf word = some .whisper ∧ Indexed.cutRecipient line cmdEnd = .ok (name, recipientEnd) ∧
      Indexed.cutMsg line recipientEnd = .ok (some text)
  delivers : ∀ name text k other, WhisperLine line name text → app.room.owner name = some k →
    app.room.user k = some other → other.state = .chat →
    ∃ app', Indexed.handleCommand env p line app = .ok app' ∧
      Charges env (frame k .interrupt (.whisper user.username text) ++
        frame user.handle .afterEnter (.whisperAck name text)) app app'
  only : ∀ app', Indexed.handleCommand env p line app = .ok app' → ∃ events, Charges env events app app' ∧
    ∀ k action sender text, .printed k action (.whisper sender text) ∈ events →
      action = .interrupt ∧ sender = user.username ∧ ∃ name other, WhisperLine line name text ∧
        app.room.owner name = some k ∧ app.room.user k = some other ∧ other.state = .chat

/-- In every sound state with every user connected and the names in order, and for
every command line of a user in the chat: the code stays inside the line wherever
it ends, a line of the shape of a whisper is taken apart into its recipient and its
text and reaches the recipient in the chat, and no other line whispers. -/
theorem whispers_parsed_exactly (sound : app.Sound) (seated : app.Seated) (named : app.room.Named)
    (here : Present app p user) (chatting : user.state = .chat) (command : isCommand line = true) :
    Parses env p user line app := by
  have cut : ∀ name text, WhisperLine line name text → (app.room.owner name).isSome →
      commandOf (commandWord line) = some .whisper ∧ whisperTo line = name ∧ whisperText line = text := by
    intro name text whispers registered
    obtain ⟨k, owned⟩ := Option.isSome_iff_exists.mp registered
    obtain ⟨other, known, entered, rfl⟩ := (named.owned name k).mp owned
    exact (whispers.cuts (named.valid k other known entered)).2
  refine ⟨?_, Indexed.handleCommand_eq env p line app, ?_, ?_, ?_, ?_⟩
  · exact ⟨_, _, _, _, _, Indexed.cutCommand_eq line, Indexed.cutRecipient_eq line, Indexed.cutMsg_eq line⟩
  · intro readable
    obtain ⟨app', ran, _⟩ := handleCommand_acts sound seated readable here chatting command
    exact ⟨app', (Indexed.handleCommand_eq env p line app).trans ran⟩
  · intro name text whispers registered
    obtain ⟨whisper, rfl, rfl⟩ := cut name text whispers registered
    have spoken : whisperText line ≠ [] := by
      obtain ⟨_, _, _, _, spoken, _⟩ := whispers
      exact spoken
    have message := Indexed.cutMsg_eq line
    rw [if_neg spoken] at message
    exact ⟨_, _, _, Indexed.cutCommand_eq line, whisper, Indexed.cutRecipient_eq line, message⟩
  · intro name text k other whispers owned known listening
    obtain ⟨whisper, rfl, rfl⟩ := cut name text whispers (by rw [owned]; rfl)
    have spoken : whisperText line ≠ [] := by
      obtain ⟨_, _, _, _, spoken, _⟩ := whispers
      exact spoken
    obtain ⟨app', ran, charged⟩ := command_whispers env sound seated here command whisper
    refine ⟨app', (Indexed.handleCommand_eq env p line app).trans ran, ?_⟩
    obtain ⟨_, _, _, rfl⟩ := room_user_eq_some sound.toLaid known
    obtain ⟨registered, there, _, called⟩ := (named.owned _ _).mp owned
    rw [known] at there
    cases there
    have said : app.room.whisper user line =
        frame other.handle .interrupt (.whisper user.username (whisperText line)) ++
          frame user.handle .afterEnter (.whisperAck (whisperTo line) (whisperText line)) := by
      simp [Room.whisper, owned, known, listening, spoken, called]
    rw [said] at charged
    exact charged
  · intro app' ran
    rw [Indexed.handleCommand_eq] at ran
    by_cases whisper : commandOf (commandWord line) = some .whisper
    · obtain ⟨after, done, charged⟩ := command_whispers env sound seated here command whisper
      rw [ran] at done
      cases done
      refine ⟨_, charged, fun k action sender text member => ?_⟩
      obtain ⟨rfl, rfl, rfl, spoken, other, found, rfl, listening⟩ := mem_whisper member
      obtain ⟨k, owned, known⟩ := Option.bind_eq_some_iff.mp found
      obtain ⟨_, _, _, same⟩ := room_user_eq_some sound.toLaid known
      rw [← same] at owned known
      exact ⟨rfl, rfl, whisperTo line, other, whisperLine_of_cuts command whisper spoken, owned, known, listening⟩
    · obtain ⟨events, charged, none⟩ := command_hushed sound here command whisper ran
      exact ⟨events, charged, fun k action sender text member => absurd member (none k action sender text)⟩

/-- Two users in the chat. -/
private def gathered : List (Nat × Env) :=
  [(107, .connects 4), (109, .brings 4 (bytes "amy\n")), (110, .connects 5), (111, .brings 5 (bytes "bob\n"))]

private theorem gathered_unsent : ∀ env ∈ rounds gathered, ∀ h data, env.send h data = none :=
  rounds_unsent ⟨fun _ _ => rfl, fun _ _ => rfl, fun _ _ => rfl, fun _ _ => rfl⟩

/-- One whispers to the other, with spaces to spare. -/
theorem whispers_parsed_exactly_spaced : ∃ (app app' : App) (out : Bytes),
    app.room.user 4 = some ⟨4, .chat, bytes "amy"⟩ ∧ app.outOf 4 = some out ∧
      Indexed.handleCommand .idle 1 (bytes "/w  amy   hi  there") app = .ok app' ∧
      app'.outOf 4 = some (out ++ framed .interrupt (bytes "[bob -> You]: hi  there")) := by
  have outcome : (drive step separate .assertion (rounds gathered) (start 3 0)).map (fun sys =>
      decide (sys.app.ptrOf 5 = some 1 ∧ sys.app.userAt 1 = some ⟨5, .chat, bytes "bob"⟩ ∧
        (sys.app.clientOf 5).isSome = true ∧ sys.app.room.user 4 = some ⟨4, .chat, bytes "amy"⟩ ∧
        sys.app.room.owner (bytes "amy") = some 4 ∧ (sys.app.outOf 4).isSome = true)) = .ok true := by
    decide +kernel
  obtain ⟨sys, driven, outcome⟩ := map_eq_ok.mp outcome
  obtain ⟨held, live, connected, known, owned, listening⟩ := of_decide_eq_true outcome
  obtain ⟨out, before⟩ := Option.isSome_iff_exists.mp listening
  have good := run_good (reaches_of_drive gathered_unsent driven) (fun _ _ => Separate.orderly) (start_good 3 0)
  have here : Present sys.app 1 ⟨5, .chat, bytes "bob"⟩ := ⟨held, live, connected⟩
  have parses : Parses .idle 1 ⟨5, .chat, bytes "bob"⟩ (bytes "/w  amy   hi  there") sys.app :=
    whispers_parsed_exactly good.sound (good.sound.seated good.inv.linked) good.inv.named here rfl (by decide)
  have whispers : WhisperLine (bytes "/w  amy   hi  there") (bytes "amy") (bytes "hi  there") :=
    ⟨bytes "w", 1, 2, by decide, by decide, by decide, rfl⟩
  obtain ⟨app', ran, charged⟩ := parses.delivers _ _ 4 _ whispers owned known rfl
  refine ⟨sys.app, app', out, known, before, ran, ?_⟩
  rw [charged.grown, before]
  rfl

end Turns

end AuroraComms
