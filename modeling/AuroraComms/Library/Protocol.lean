import Mathlib.Data.List.Basic

/-! Runs whose steps leave events behind, and protocols that say which events may
follow which. A protocol reads one event at a time and keeps what it has to
remember; a run obeys it when each step's events can be read where the last
step's ended. -/
namespace AuroraComms.Library.Protocol

variable {σ μ ν ε : Type}

/-- The states a relation reaches from `start`, with the events of the way there. -/
inductive Path (step : σ → List ε → σ → Prop) (start : σ) : List ε → σ → Prop where
  | start : Path step start [] start
  | next {events more : List ε} {s t : σ} (before : Path step start events s) (stepped : step s more t) :
    Path step start (events ++ more) t

/-- Events that a rule lets follow one another, from what is remembered first to
what is remembered last. -/
inductive Obeys (rule : μ → ε → μ → Prop) : μ → List ε → μ → Prop where
  | done (m : μ) : Obeys rule m [] m
  | read {m m' m'' : μ} {e : ε} {rest : List ε} (first : rule m e m') (more : Obeys rule m' rest m'') :
    Obeys rule m (e :: rest) m''

section Paths
variable {step : σ → List ε → σ → Prop} {start s t : σ} {events events' : List ε}

/-- A path of a stricter relation. -/
theorem Path.weaken {looser : σ → List ε → σ → Prop} (path : Path step start events s)
    (wider : ∀ s events t, step s events t → looser s events t) : Path looser start events s := by
  induction path with
  | start => exact .start
  | next _ stepped ih => exact .next ih (wider _ _ _ stepped)

/-- Where everyone who watches a step sees the same, everyone who watches a path
from its start to its end does. What all of them see of a source, all of it is seen. -/
theorem Path.agree {ι ρ τ : Type} {group : ι → Prop} {stays : ι → σ → Prop} {view : ι → ε → Option ρ}
    {source : ε → Option τ} {origin : ρ → Option τ}
    (path : Path (fun s events t => (∀ i, group i → stays i s) ∧ step s events t) start events s)
    (last : ∀ i, group i → stays i s)
    (agree : ∀ s events t, step s events t → ∃ record : List ρ,
      record.filterMap origin = events.filterMap source ∧
      ∀ i, stays i s → stays i t → events.filterMap (view i) = record) :
    ∃ record : List ρ, record.filterMap origin = events.filterMap source ∧
      ∀ i, group i → events.filterMap (view i) = record := by
  induction path with
  | start => exact ⟨[], rfl, fun _ _ => rfl⟩
  | next before stepped ih =>
    obtain ⟨record, from_source, seen⟩ := ih stepped.1
    obtain ⟨more, from_step, seen_more⟩ := agree _ _ _ stepped.2
    refine ⟨record ++ more, ?_, fun i watching => ?_⟩
    · rw [List.filterMap_append, List.filterMap_append, from_source, from_step]
    · rw [List.filterMap_append, seen i watching, seen_more i (stepped.1 i watching) (last i watching)]

end Paths

section Rules
variable {rule : μ → ε → μ → Prop} {m m' m'' : μ} {events events' : List ε}

theorem Obeys.one {e : ε} (allowed : rule m e m') : Obeys rule m [e] m' := .read allowed (.done m')

theorem Obeys.append (first : Obeys rule m events m') (second : Obeys rule m' events' m'') :
    Obeys rule m (events ++ events') m'' := by
  induction first with
  | done => exact second
  | read allowed _ ih => exact .read allowed (ih second)

theorem Obeys.split (obeys : Obeys rule m (events ++ events') m'') :
    ∃ m', Obeys rule m events m' ∧ Obeys rule m' events' m'' := by
  induction events generalizing m with
  | nil => exact ⟨m, .done m, obeys⟩
  | cons e rest ih =>
    cases obeys with
    | read allowed more =>
      obtain ⟨m', first, second⟩ := ih more
      exact ⟨m', .read allowed first, second⟩

/-- Events after which nothing else is remembered than before. -/
theorem Obeys.still (allowed : ∀ e ∈ events, rule m e m) : Obeys rule m events m := by
  induction events with
  | nil => exact .done m
  | cons e rest ih =>
    exact .read (allowed e List.mem_cons_self) (ih fun e member => allowed e (List.mem_cons_of_mem _ member))

/-- Pieces after each of which nothing else is remembered than before. -/
theorem Obeys.pieces {α : Type*} {f : α → List ε} {xs : List α} (allowed : ∀ x ∈ xs, Obeys rule m (f x) m) :
    Obeys rule m (xs.flatMap f) m := by
  induction xs with
  | nil => exact .done m
  | cons x rest ih =>
    rw [List.flatMap_cons]
    exact (allowed x List.mem_cons_self).append (ih fun y member => allowed y (List.mem_cons_of_mem _ member))

/-- What every event preserves, all of them do. -/
theorem Obeys.invariant {inv : μ → Prop} (obeys : Obeys rule m events m') (base : inv m)
    (preserved : ∀ m e m', inv m → rule m e m' → inv m') : inv m' := by
  induction obeys with
  | done => exact base
  | read allowed _ ih => exact ih (preserved _ _ _ base allowed)

/-- What is true of every event that is read while an invariant holds. -/
theorem Obeys.forall {inv : μ → Prop} {claim : ε → Prop} (obeys : Obeys rule m events m') (base : inv m)
    (preserved : ∀ m e m', inv m → rule m e m' → claim e ∧ inv m') : ∀ e ∈ events, claim e := by
  induction obeys with
  | done => simp
  | read allowed _ ih =>
    obtain ⟨first, kept⟩ := preserved _ _ _ base allowed
    intro e member
    obtain rfl | later := List.mem_cons.mp member
    · exact first
    · exact ih kept e later

/-- What is known of all the events may be used of each of them. -/
theorem Obeys.within {known : ε → Prop} (obeys : Obeys rule m events m') (all : ∀ e ∈ events, known e) :
    Obeys (fun m e m' => rule m e m' ∧ known e) m events m' := by
  induction obeys with
  | done => exact .done _
  | read allowed _ ih =>
    exact .read ⟨allowed, all _ List.mem_cons_self⟩ (ih fun e member => all e (List.mem_cons_of_mem _ member))

/-- A protocol that follows another obeys wherever the other does. -/
theorem Obeys.simulated {rule' : ν → ε → ν → Prop} {n : ν} (obeys : Obeys rule m events m')
    (related : μ → ν → Prop) (base : related m n)
    (follows : ∀ m e m' n, related m n → rule m e m' → ∃ n', rule' n e n' ∧ related m' n') :
    ∃ n', Obeys rule' n events n' ∧ related m' n' := by
  induction obeys generalizing n with
  | done => exact ⟨n, .done n, base⟩
  | read allowed _ ih =>
    obtain ⟨n₁, first, held⟩ := follows _ _ _ _ base allowed
    obtain ⟨n₂, rest, last⟩ := ih held
    exact ⟨n₂, .read first rest, last⟩

end Rules

/-- A path obeys a protocol when every step does, from what is remembered of the
state it starts in. -/
theorem Path.obeys {step : σ → List ε → σ → Prop} {rule : μ → ε → μ → Prop} {related : σ → μ → Prop}
    {start s : σ} {events : List ε} {m : μ} (path : Path step start events s) (base : related start m)
    (follows : ∀ s events t m, related s m → step s events t →
      ∃ m', Obeys rule m events m' ∧ related t m') :
    ∃ m', Obeys rule m events m' ∧ related s m' := by
  induction path with
  | start => exact ⟨m, .done m, base⟩
  | next _ stepped ih =>
    obtain ⟨m₁, before, held⟩ := ih
    obtain ⟨m₂, more, last⟩ := follows _ _ _ _ held stepped
    exact ⟨m₂, before.append more, last⟩

/-! ## Protocols that can be run -/

section Checks
variable {check : μ → ε → Option μ} {m m' : μ} {events : List ε}

/-- A check that refuses the events that do not fit, as a rule. -/
abbrev Accepts (check : μ → ε → Option μ) (m : μ) (e : ε) (m' : μ) : Prop := check m e = some m'

theorem obeys_iff_foldlM : Obeys (Accepts check) m events m' ↔ events.foldlM check m = some m' := by
  constructor
  · intro obeys
    induction obeys with
    | done => rfl
    | read allowed _ ih =>
      rw [List.foldlM_cons, allowed]
      exact ih
  · intro checked
    induction events generalizing m with
    | nil =>
      cases checked
      exact .done _
    | cons e rest ih =>
      rw [List.foldlM_cons] at checked
      obtain ⟨next, allowed, more⟩ := Option.bind_eq_some_iff.mp checked
      exact .read allowed (ih more)

end Checks

end AuroraComms.Library.Protocol
