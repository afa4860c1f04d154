import AuroraComms.Library.Protocol
import Mathlib.Data.List.Nodup

/-! Resources that are acquired, used and released. The check refuses to acquire
what is held, and to use or release what is not: no use after release, and no
second release. -/
namespace AuroraComms.Library.Resource
open Protocol

variable {ρ : Type}

inductive Act (ρ : Type) where
  | acquire (r : ρ)
  | use (r : ρ)
  | release (r : ρ)
  deriving DecidableEq, Repr

variable [DecidableEq ρ]

/-- What is held after an act, if it may happen. -/
def Act.check (held : List ρ) : Act ρ → Option (List ρ)
  | .acquire r => if r ∈ held then none else some (r :: held)
  | .use r => if r ∈ held then some held else none
  | .release r => if r ∈ held then some (held.erase r) else none

/-- Acts that lead from what is held first to what is held last. -/
abbrev Manages (held : List ρ) (acts : List (Act ρ)) (held' : List ρ) : Prop :=
  Obeys (Accepts Act.check) held acts held'

variable {held held' : List ρ} {acts : List (Act ρ)} {r : ρ} {rs : List ρ}

theorem use_held (here : r ∈ held) : Manages held [.use r] held := .one (if_pos here)

theorem release_held (here : r ∈ held) : Manages held [.release r] (held.erase r) := .one (if_pos here)

theorem uses_held (here : ∀ r ∈ rs, r ∈ held) : Manages held (rs.map .use) held := by
  refine Obeys.still fun e member => ?_
  obtain ⟨r, listed, rfl⟩ := List.mem_map.mp member
  exact if_pos (here r listed)

/-- Something acquired and given back at once. -/
theorem borrows (new : r ∉ held) {between : List (Act ρ)} (used : Manages (r :: held) between (r :: held)) :
    Manages held (.acquire r :: between ++ [.release r]) held := by
  refine .read (if_neg new) (used.append ?_)
  have back := release_held (List.mem_cons_self (a := r) (l := held))
  rwa [List.erase_cons_head] at back

/-- Something given back while what came after it is kept. -/
theorem release_under {k : ρ} (apart : k ≠ r) : Manages (k :: r :: held) [.release r] (k :: held) := by
  have released := release_held (List.mem_cons_of_mem k (List.mem_cons_self (a := r) (l := held)))
  rwa [List.erase_cons_tail (by simpa using apart), List.erase_cons_head] at released

/-- Several resources released, each once. -/
theorem releases_held (once : rs.Nodup) (here : ∀ r ∈ rs, r ∈ held) (nodup : held.Nodup) :
    ∃ held', Manages held (rs.map .release) held' ∧ ∀ r, r ∈ held' ↔ r ∈ held ∧ r ∉ rs := by
  induction rs generalizing held with
  | nil => exact ⟨held, .done held, by simp⟩
  | cons r rest ih =>
    obtain ⟨absent, onceRest⟩ := List.nodup_cons.mp once
    have still : ∀ k ∈ rest, k ∈ held.erase r := by
      intro k listed
      have apart : k ≠ r := fun same => absent (same ▸ listed)
      exact (List.mem_erase_of_ne apart).mpr (here k (List.mem_cons_of_mem r listed))
    obtain ⟨held', more, kept⟩ := ih onceRest still (nodup.erase r)
    refine ⟨held', .read (if_pos (here r List.mem_cons_self)) more, fun k => ?_⟩
    rw [kept, nodup.mem_erase_iff, List.mem_cons, not_or]
    constructor
    · rintro ⟨⟨apart, there⟩, elsewhere⟩
      exact ⟨there, apart, elsewhere⟩
    · rintro ⟨there, apart, elsewhere⟩
      exact ⟨⟨apart, there⟩, elsewhere⟩

/-- Nothing is ever held twice. -/
theorem Manages.nodup (manages : Manages held acts held') (once : held.Nodup) : held'.Nodup := by
  refine manages.invariant once fun before act after once allowed => ?_
  cases act with
  | acquire r =>
    by_cases here : r ∈ before
    · simp [Accepts, Act.check, here] at allowed
    · obtain rfl : r :: before = after := by simpa [Accepts, Act.check, here] using allowed
      exact List.nodup_cons.mpr ⟨here, once⟩
  | use r =>
    by_cases here : r ∈ before
    · obtain rfl : before = after := by simpa [Accepts, Act.check, here] using allowed
      exact once
    · simp [Accepts, Act.check, here] at allowed
  | release r =>
    by_cases here : r ∈ before
    · obtain rfl : before.erase r = after := by simpa [Accepts, Act.check, here] using allowed
      exact once.erase r
    · simp [Accepts, Act.check, here] at allowed

/-- What was held or acquired is released or still held. -/
theorem Manages.balance (manages : Manages held acts held') (r : ρ) :
    held.count r + acts.count (.acquire r) = acts.count (.release r) + held'.count r := by
  induction manages with
  | done => simp
  | @read before middle after act rest allowed _ ih =>
    cases act with
    | acquire k =>
      by_cases here : k ∈ before
      · simp [Accepts, Act.check, here] at allowed
      · obtain rfl : k :: before = middle := by simpa [Accepts, Act.check, here] using allowed
        by_cases mine : k = r
        · subst mine
          simp at ih ⊢
          omega
        · simp [mine] at ih ⊢
          omega
    | use k =>
      by_cases here : k ∈ before
      · obtain rfl : before = middle := by simpa [Accepts, Act.check, here] using allowed
        simp at ih ⊢
        omega
      · simp [Accepts, Act.check, here] at allowed
    | release k =>
      by_cases here : k ∈ before
      · obtain rfl : before.erase k = middle := by simpa [Accepts, Act.check, here] using allowed
        by_cases mine : k = r
        · subst mine
          have some : 0 < before.count k := List.count_pos_iff.mpr here
          simp at ih ⊢
          omega
        · rw [List.count_erase_of_ne (Ne.symm mine)] at ih
          simp [mine] at ih ⊢
          omega
      · simp [Accepts, Act.check, here] at allowed

end AuroraComms.Library.Resource
