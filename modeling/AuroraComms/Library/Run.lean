import Mathlib.Data.List.Basic

/-! Programs that may fail, loops over lists, and the runs of a step function.
A step takes an input chosen by the environment; a run only takes inputs the
environment is allowed to choose in the state it finds. -/
namespace AuroraComms.Library.Run

variable {ε α β σ ι : Type}

@[simp] theorem pure_eq_ok (x : α) : (pure x : Except ε α) = .ok x := rfl

@[simp] theorem throw_eq_error (e : ε) : (throw e : Except ε α) = .error e := rfl

@[simp] theorem ok_bind (x : α) (f : α → Except ε β) : (Except.ok x >>= f) = f x := rfl

@[simp] theorem error_bind (e : ε) (f : α → Except ε β) :
    ((Except.error e : Except ε α) >>= f) = .error e := rfl

@[simp] theorem bind_ok (x : Except ε α) : (x >>= fun a => Except.ok a) = x := by
  cases x <;> rfl

theorem bind_eq_ok {x : Except ε α} {f : α → Except ε β} {b : β} :
    (x >>= f) = .ok b ↔ ∃ a, x = .ok a ∧ f a = .ok b := by
  cases x with
  | error e => simp
  | ok a => simp

theorem map_eq_ok {x : Except ε α} {f : α → β} {b : β} :
    x.map f = .ok b ↔ ∃ a, x = .ok a ∧ f a = b := by
  cases x with
  | error e => simp [Except.map]
  | ok a => simp [Except.map]

/-- A counting loop whose every turn succeeds under its invariant succeeds. -/
theorem foldlM_range {f : σ → Nat → Except ε σ} (inv : Nat → σ → Prop) (n : Nat) (s : σ)
    (entry : inv 0 s)
    (turn : ∀ i s, i < n → inv i s → ∃ t, f s i = .ok t ∧ inv (i + 1) t) :
    ∃ t, (List.range n).foldlM f s = .ok t ∧ inv n t := by
  induction n with
  | zero => exact ⟨s, rfl, entry⟩
  | succ n ih =>
    obtain ⟨middle, ran, kept⟩ := ih fun i s bound => turn i s (Nat.lt_succ_of_lt bound)
    obtain ⟨last, finished, held⟩ := turn n middle (Nat.lt_succ_self n) kept
    refine ⟨last, ?_, held⟩
    rw [List.range_succ, List.foldlM_append, ran, ok_bind]
    simpa using finished

/-- The states a step function reaches from `start` under allowed inputs. -/
inductive Reaches (step : ι → σ → Except ε σ) (allowed : ι → σ → Prop) (start : σ) : σ → Prop where
  | start : Reaches step allowed start start
  | next {s t : σ} (before : Reaches step allowed start s) (input : ι) (granted : allowed input s)
      (ran : step input s = .ok t) : Reaches step allowed start t

variable {step : ι → σ → Except ε σ} {allowed : ι → σ → Prop} {start s t : σ}

/-- What holds at the start and survives every allowed step holds throughout. -/
theorem Reaches.invariant {inv : σ → Prop} (reached : Reaches step allowed start s)
    (base : inv start)
    (preserved : ∀ input s t, allowed input s → inv s → step input s = .ok t → inv t) : inv s := by
  induction reached with
  | start => exact base
  | next before input granted ran ih => exact preserved input _ _ granted ih ran

theorem Reaches.trans (first : Reaches step allowed start s) (second : Reaches step allowed s t) :
    Reaches step allowed start t := by
  induction second with
  | start => exact first
  | next _ input granted ran ih => exact .next ih input granted ran

/-- A run under stricter inputs is a run. -/
theorem Reaches.weaken {wider : ι → σ → Prop} (reached : Reaches step allowed start s)
    (looser : ∀ input s, allowed input s → wider input s) : Reaches step wider start s := by
  induction reached with
  | start => exact .start
  | next _ input granted ran ih => exact .next ih input (looser _ _ granted) ran

/-- A run on given inputs, each checked against the state it finds. -/
def drive (step : ι → σ → Except ε σ) (check : ι → σ → Bool) (refused : ε) (inputs : List ι) (s : σ) :
    Except ε σ :=
  inputs.foldlM (fun s input => if check input s then step input s else .error refused) s

/-- A driven run is a run, when what is checked is what is allowed. -/
theorem drive_reaches {check : ι → σ → Bool} {refused : ε} {inputs : List ι}
    (checked : ∀ input ∈ inputs, ∀ s, check input s = true → allowed input s)
    (driven : drive step check refused inputs s = .ok t) : Reaches step allowed s t := by
  induction inputs generalizing s with
  | nil =>
    cases driven
    exact .start
  | cons input rest ih =>
    rw [drive, List.foldlM_cons] at driven
    obtain ⟨middle, ran, others⟩ := bind_eq_ok.mp driven
    split at ran
    · rename_i granted
      have first := Reaches.next .start input (checked input List.mem_cons_self s granted) ran
      exact first.trans (ih (fun input member => checked input (List.mem_cons_of_mem _ member)) others)
    · cases ran

end AuroraComms.Library.Run
