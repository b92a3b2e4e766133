import Mathlib.Computability.StateTransition
import Mathlib.Tactic

/-!
# Loops with a state

One turn of a loop gives the next state, or nothing when the loop is left, and
`eval` is the state in which it is left. That there is one is shown with a
measure, what holds there with an invariant; neither needs the number of turns.
-/
namespace FpgaTest.Loop
open StateTransition

variable {S : Type} {turn : S → Option S} {s t : S}

/-- A loop is left if every turn from a state of the invariant makes the
measure smaller. -/
theorem exists_mem_eval {P : S → Prop} (measure : S → ℕ)
    (hstep : ∀ s t, P s → turn s = some t → P t ∧ measure t < measure s) (hs : P s) :
    ∃ t, t ∈ eval turn s := by
  induction hn : measure s using Nat.strong_induction_on generalizing s with
  | _ n ih =>
      cases ht : turn s with
      | none => exact ⟨s,mem_eval.mpr ⟨.refl,ht⟩⟩
      | some t =>
          rcases hstep s t hs ht with ⟨hP,hlt⟩
          rcases ih (measure t) (hn ▸ hlt) hP rfl with ⟨u,hu⟩
          rcases mem_eval.mp hu with ⟨hreach,hleave⟩
          exact ⟨u,mem_eval.mpr ⟨.head ht hreach,hleave⟩⟩

theorem invariant_of_mem_eval {P : S → Prop} (hstep : ∀ s t, P s → turn s = some t → P t)
    (h : t ∈ eval turn s) (hs : P s) : P t ∧ turn t = none := by
  rcases mem_eval.mp h with ⟨hreach,hleave⟩
  refine ⟨?_,hleave⟩
  clear hleave h
  induction hreach with
  | refl => exact hs
  | tail _ hturn ih => exact hstep _ _ ih hturn

end FpgaTest.Loop
