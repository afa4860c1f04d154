import AuroraComms.Refinement
import AuroraComms.Effects

/-! Who a conversation message seems to come from. All four formats are a
heading in brackets and a text, and a heading can be read back. The heading of
an acknowledgement has "You" where that of a message has a username, and "You"
is a username the server accepts. -/
namespace AuroraComms
open Meta Library.Run

/-- What a user may be shown of a conversation. -/
inductive Talk where
  | chat (username line : Bytes)
  | chatAck (line : Bytes)
  | whisper (username msg : Bytes)
  | whisperAck (username msg : Bytes)
  deriving DecidableEq, Repr

namespace Talk

def msg : Talk → Msg
  | .chat username line => .chat username line
  | .chatAck line => .chatAck line
  | .whisper username msg => .whisper username msg
  | .whisperAck username msg => .whisperAck username msg

/-- The text is one the server makes of a line. -/
def Sanitized (text : Bytes) : Prop := ∃ raw, text = sanitize raw

/-- The message names one of these users, if any, and carries a sanitized text. -/
def Among (names : Bytes → Prop) : Talk → Prop
  | .chat username line => names username ∧ Sanitized line
  | .chatAck line => Sanitized line
  | .whisper username msg => names username ∧ Sanitized msg
  | .whisperAck username msg => names username ∧ Sanitized msg

/-- The name in front, the name behind the arrow if there is one, and the text. -/
structure Heading where
  sender : Bytes
  addressee : Option Bytes
  text : Bytes

def you : Bytes := bytes "You"

def heading : Talk → Heading
  | .chat username line => ⟨username, none, line⟩
  | .chatAck line => ⟨you, none, line⟩
  | .whisper username msg => ⟨username, some you, msg⟩
  | .whisperAck username msg => ⟨you, some username, msg⟩

/-- What follows the first name. -/
def Heading.tail (h : Heading) : Bytes :=
  match h.addressee with
  | none => 93 :: (bytes ": " ++ h.text)
  | some name => 32 :: (bytes "-> " ++ (name ++ 93 :: (bytes ": " ++ h.text)))

def Heading.format (h : Heading) : Bytes := 91 :: (h.sender ++ h.tail)

/-! ## Reading a heading back -/

def NameLike (name : Bytes) : Prop := ∀ b ∈ name, isNameChar b = true

/-- A name ends at the first byte that no name contains. -/
theorem name_ends {a b x y : Bytes} {c d : UInt8} (first : NameLike a) (second : NameLike b)
    (stopA : isNameChar c = false) (stopB : isNameChar d = false) (same : a ++ c :: x = b ++ d :: y) :
    a = b ∧ c :: x = d :: y := by
  have front : ∀ {name rest : Bytes} {stop : UInt8}, NameLike name → isNameChar stop = false →
      (name ++ stop :: rest).takeWhile isNameChar = name := by
    intro name rest stop named stops
    rw [List.takeWhile_append_of_pos named, List.takeWhile_cons, stops]
    exact List.append_nil name
  have names : a = b := by
    have left : (a ++ c :: x).takeWhile isNameChar = a := front first stopA
    rw [← left, same, front second stopB]
  subst names
  exact ⟨rfl, List.append_cancel_left same⟩

structure Heading.Legible (h : Heading) : Prop where
  sender : NameLike h.sender
  addressee : ∀ name ∈ h.addressee, NameLike name

theorem Heading.format_injective {g h : Heading} (first : g.Legible) (second : h.Legible)
    (same : g.format = h.format) : g = h := by
  obtain ⟨sender, addressee, text⟩ := g
  obtain ⟨sender', addressee', text'⟩ := h
  have rest := List.tail_eq_of_cons_eq same
  cases addressee with
  | none =>
    cases addressee' with
    | none =>
      obtain ⟨rfl, tails⟩ := name_ends first.sender second.sender (by decide) (by decide) rest
      have texts : text = text' := List.append_cancel_left (List.tail_eq_of_cons_eq tails)
      rw [texts]
    | some name =>
      obtain ⟨_, tails⟩ := name_ends first.sender second.sender (by decide) (by decide) rest
      exact absurd (List.head_eq_of_cons_eq tails) (by decide)
  | some name =>
    cases addressee' with
    | none =>
      obtain ⟨_, tails⟩ := name_ends first.sender second.sender (by decide) (by decide) rest
      exact absurd (List.head_eq_of_cons_eq tails) (by decide)
    | some name' =>
      obtain ⟨rfl, tails⟩ := name_ends first.sender second.sender (by decide) (by decide) rest
      have behind := List.append_cancel_left (List.tail_eq_of_cons_eq tails)
      obtain ⟨rfl, ends⟩ := name_ends (first.addressee name rfl) (second.addressee name' rfl) (by decide)
        (by decide) behind
      have texts : text = text' := List.append_cancel_left (List.tail_eq_of_cons_eq ends)
      rw [texts]

/-! ## The texts are formatted headings -/

theorem nameLike_of_valid {name : Bytes} (valid : validateUsername name = true) : NameLike name := by
  unfold validateUsername at valid
  split at valid
  · cases valid
  · exact List.all_eq_true.mp valid

theorem you_valid : validateUsername you = true := by decide

private theorem cstr_whole {s : Bytes} (clean : ∀ b ∈ s, b ≠ 0) : cstr s = s := by
  apply List.takeWhile_eq_self_iff.mpr
  intro b member
  simpa using clean b member

theorem NameLike.cstr {name : Bytes} (named : NameLike name) : cstr name = name := by
  apply cstr_whole
  rintro b member rfl
  exact absurd (named 0 member) (by decide)

theorem Sanitized.cstr {text : Bytes} (clean : Sanitized text) : cstr text = text := by
  obtain ⟨raw, rfl⟩ := clean
  apply cstr_whole
  rintro b member rfl
  exact absurd (sanitize_plain raw 0 member) (by decide)

variable {names : Bytes → Prop} {talk other : Talk}

theorem text_eq_format (accepted : ∀ name, names name → validateUsername name = true)
    (among : talk.Among names) : talk.msg.text = talk.heading.format := by
  cases talk with
  | chat username line =>
    have named := (nameLike_of_valid (accepted username among.1)).cstr
    simp [msg, Msg.text, heading, Heading.format, Heading.tail, named, among.2.cstr, bytes]
  | chatAck line => simp [msg, Msg.text, heading, Heading.format, Heading.tail, among.cstr, you, bytes]
  | whisper username msg =>
    have named := (nameLike_of_valid (accepted username among.1)).cstr
    simp [Talk.msg, Msg.text, heading, Heading.format, Heading.tail, named, among.2.cstr, you, bytes]
  | whisperAck username msg =>
    have named := (nameLike_of_valid (accepted username among.1)).cstr
    simp [Talk.msg, Msg.text, heading, Heading.format, Heading.tail, named, among.2.cstr, you, bytes]

theorem heading_legible (accepted : ∀ name, names name → validateUsername name = true)
    (among : talk.Among names) : talk.heading.Legible := by
  have self := nameLike_of_valid you_valid
  cases talk with
  | chat username line =>
    exact ⟨nameLike_of_valid (accepted username among.1), fun _ none => nomatch none⟩
  | chatAck line => exact ⟨self, fun _ none => nomatch none⟩
  | whisper username msg =>
    refine ⟨nameLike_of_valid (accepted username among.1), fun name named => ?_⟩
    cases named
    exact self
  | whisperAck username msg =>
    refine ⟨self, fun name named => ?_⟩
    cases named
    exact nameLike_of_valid (accepted username among.1)

/-- A message of a user named "You", and the acknowledgement that looks like it. -/
inductive Mistaken : Talk → Talk → Prop where
  | chat (line : Bytes) : Mistaken (.chat you line) (.chatAck line)
  | whisper (msg : Bytes) : Mistaken (.whisper you msg) (.whisperAck you msg)

/-- Messages with one heading are one message, but for a user named "You". -/
theorem heading_eq (same : talk.heading = other.heading) :
    talk = other ∨ Mistaken talk other ∨ Mistaken other talk := by
  cases talk with
  | chat username line =>
    cases other with
    | chat => cases same; exact .inl rfl
    | chatAck => cases same; exact .inr (.inl (.chat line))
    | whisper => cases same
    | whisperAck => cases same
  | chatAck line =>
    cases other with
    | chat => cases same; exact .inr (.inr (.chat line))
    | chatAck => cases same; exact .inl rfl
    | whisper => cases same
    | whisperAck => cases same
  | whisper username msg =>
    cases other with
    | chat => cases same
    | chatAck => cases same
    | whisper => cases same; exact .inl rfl
    | whisperAck => cases same; exact .inr (.inl (.whisper msg))
  | whisperAck username msg =>
    cases other with
    | chat => cases same
    | chatAck => cases same
    | whisper => cases same; exact .inr (.inr (.whisper msg))
    | whisperAck => cases same; exact .inl rfl

theorem Mistaken.heading (mistaken : Mistaken talk other) : talk.heading = other.heading := by
  cases mistaken <;> rfl

theorem Mistaken.different (mistaken : Mistaken talk other) : talk ≠ other := by
  cases mistaken <;> exact nofun

/-- A message that can be mistaken comes from a user named "You". -/
theorem Mistaken.named (mistaken : Mistaken talk other) (among : talk.Among names) : names you := by
  cases mistaken <;> exact among.1

/-- Among users with accepted names, of whom none is named exactly "You", equal
formatted texts are one message. A user of that name can make a line look like
its reader's own acknowledgement, and those are the only messages that can be
mistaken for each other. -/
theorem attribution_unambiguous_iff (env : Env) (names : Bytes → Prop)
    (accepted : ∀ name, names name → validateUsername name = true) :
    ((∀ talk other : Talk, talk.Among names → other.Among names → talk.msg.text.length < formatCap →
        other.msg.text.length < formatCap →
        formatted env talk.msg.text = formatted env other.msg.text → talk = other) ↔ ¬ names you) ∧
    ∀ talk other : Talk, talk.Among names → other.Among names → talk.msg.text.length < formatCap →
      other.msg.text.length < formatCap →
      (formatted env talk.msg.text = formatted env other.msg.text ↔
        talk = other ∨ Mistaken talk other ∨ Mistaken other talk) := by
  have confusion : ∀ talk other : Talk, talk.Among names → other.Among names →
      talk.msg.text.length < formatCap → other.msg.text.length < formatCap →
      (formatted env talk.msg.text = formatted env other.msg.text ↔
        talk = other ∨ Mistaken talk other ∨ Mistaken other talk) := by
    intro talk other among among' fits fits'
    rw [formatted_of_fits env fits, formatted_of_fits env fits', text_eq_format accepted among,
      text_eq_format accepted among']
    constructor
    · intro same
      apply heading_eq
      exact Heading.format_injective (heading_legible accepted among) (heading_legible accepted among') same
    · rintro (rfl | mistaken | mistaken)
      · rfl
      · rw [mistaken.heading]
      · rw [mistaken.heading]
  refine ⟨⟨fun unambiguous named => ?_, fun unnamed talk other among among' fits fits' same => ?_⟩, confusion⟩
  · have empty : Sanitized [] := ⟨[], rfl⟩
    have said : (Talk.chat you []).Among names := ⟨named, empty⟩
    have answered : (Talk.chatAck []).Among names := empty
    have mistaken : Mistaken (.chat you []) (.chatAck []) := .chat []
    have same := (confusion _ _ said answered (by decide) (by decide)).mpr (.inr (.inl mistaken))
    exact mistaken.different (unambiguous _ _ said answered (by decide) (by decide) same)
  · obtain same | mistaken | mistaken := (confusion talk other among among' fits fits').mp same
    · exact same
    · exact absurd (mistaken.named among) unnamed
    · exact absurd (mistaken.named among') unnamed

/-- Two users of other names, at texts that look like headings. -/
theorem attribution_of_others :
    formatted .idle (Talk.chat (bytes "amy") (bytes "[You]: hi")).msg.text ≠
      formatted .idle (Talk.chatAck (bytes "[amy]: hi")).msg.text := by
  intro same
  have unambiguous := (attribution_unambiguous_iff .idle (fun name => name = bytes "amy")
    (by rintro name rfl; decide)).1.mpr (by decide)
  have equal := unambiguous (.chat (bytes "amy") (bytes "[You]: hi")) (.chatAck (bytes "[amy]: hi"))
    ⟨rfl, ⟨bytes "[You]: hi", by decide⟩⟩ ⟨bytes "[amy]: hi", by decide⟩ (by decide) (by decide) same
  cases equal

/-- A user at the login beside one in the chat, a line of the one under the
name it takes, and the same line of the other. -/
private def echo : List (Nat × Env) :=
  [(107, .connects 4), (109, .brings 4 (bytes "amy\r\n")), (110, .connects 5),
    (111, .brings 5 (bytes "You\r\n")), (111, .brings 5 (bytes "hi\r\n")), (111, .brings 4 (bytes "hi\r\n"))]

private theorem echo_unsent : ∀ env ∈ rounds echo, ∀ h data, env.send h data = none :=
  rounds_unsent ⟨fun _ _ => rfl, fun _ _ => rfl, fun _ _ => rfl, fun _ _ => rfl, fun _ _ => rfl, fun _ _ => rfl⟩

/-- A user who took the name "You" makes another see the line it is about to
say acknowledged before it said it: the message and the acknowledgement are
different, and their bytes are the same. -/
theorem acknowledgement_forged : ∃ sys : Sys, Reaches step Separate (start 3 0) sys ∧
    sys.app.room.user 5 = some ⟨5, .chat, bytes "You"⟩ ∧
    .printed 4 .interrupt (Talk.chat (bytes "You") (bytes "hi")).msg ∈ sys.app.trace ∧
    .printed 4 .afterEnter (Talk.chatAck (bytes "hi")).msg ∈ sys.app.trace ∧
    Talk.chat (bytes "You") (bytes "hi") ≠ Talk.chatAck (bytes "hi") ∧
    ∀ env, formatted env (Talk.chat (bytes "You") (bytes "hi")).msg.text =
      formatted env (Talk.chatAck (bytes "hi")).msg.text := by
  have outcome : (drive step separate .assertion (rounds echo) (start 3 0)).map (fun sys =>
      (sys.app.room.user 5,
        decide (.printed 4 .interrupt (Talk.chat (bytes "You") (bytes "hi")).msg ∈ sys.app.trace),
        decide (.printed 4 .afterEnter (Talk.chatAck (bytes "hi")).msg ∈ sys.app.trace))) =
        .ok (some ⟨5, .chat, bytes "You"⟩, true, true) := by
    decide +kernel
  obtain ⟨sys, driven, outcome⟩ := map_eq_ok.mp outcome
  obtain ⟨named, outcome⟩ := Prod.mk.inj outcome
  obtain ⟨said, answered⟩ := Prod.mk.inj outcome
  refine ⟨sys, reaches_of_drive echo_unsent driven, named, of_decide_eq_true said,
    of_decide_eq_true answered, nofun, fun env => ?_⟩
  rfl

end Talk
end AuroraComms
