import Mathlib.Tactic

/-!
# Painting a memory

An operation on a memory that may fail paints a set of addresses if, from every
memory, it succeeds, gives each address of the set the value that `colour` has
there and leaves every other address as it was. Operations that paint are put
together with one colour for all of them, so what is painted twice is no special
case: sequences, loops and branches paint unions.
-/
namespace FpgaTest.Painting

variable {A V I : Type} {colour : A → V} {op op' : (A → V) → Option (A → V)} {P Q : A → Prop}

def Paints (colour : A → V) (op : (A → V) → Option (A → V)) (P : A → Prop) : Prop :=
  ∀ f, ∃ f', op f = some f' ∧ ∀ a, (P a → f' a = colour a) ∧ (¬ P a → f' a = f a)

/-- `for i in xs: body` -/
def forEach (xs : List I) (body : I → (A → V) → Option (A → V)) (f : A → V) : Option (A → V) :=
  xs.foldlM (fun f i => body i f) f

theorem Paints.congr (h : Paints colour op P) (hPQ : ∀ a, P a ↔ Q a) : Paints colour op Q := by
  intro f
  rcases h f with ⟨f',hf',hpaint⟩
  refine ⟨f',hf',?_⟩
  intro a
  rw [← hPQ a]
  exact hpaint a

theorem paints_nothing (h : ∀ a, ¬ P a) : Paints colour some P :=
  fun f => ⟨f,rfl,fun a => ⟨fun ha => absurd ha (h a),fun _ => rfl⟩⟩

theorem Paints.seq (h : Paints colour op P) (h' : Paints colour op' Q) :
    Paints colour (fun f => (op f).bind op') fun a => P a ∨ Q a := by
  intro f
  rcases h f with ⟨f₁,hf₁,hfirst⟩
  rcases h' f₁ with ⟨f₂,hf₂,hsecond⟩
  refine ⟨f₂,Option.bind_eq_some_iff.mpr ⟨f₁,hf₁,hf₂⟩,?_⟩
  intro a
  by_cases hQ : Q a
  · exact ⟨fun _ => (hsecond a).1 hQ,fun hno => absurd (Or.inr hQ) hno⟩
  · rw [(hsecond a).2 hQ]
    constructor
    · intro hPQ
      exact (hfirst a).1 (hPQ.resolve_right hQ)
    · intro hno
      exact (hfirst a).2 fun hP => hno (Or.inl hP)

theorem Paints.when {c : Prop} [Decidable c] (h : c → Paints colour op P) :
    Paints colour (fun f => if c then op f else some f) fun a => c ∧ P a := by
  by_cases hc : c
  · simpa [hc] using h hc
  · simpa [hc] using paints_nothing (P := fun a => c ∧ P a) fun a ha => hc ha.1

theorem paints_forEach {body : I → (A → V) → Option (A → V)} {S : I → A → Prop} (xs : List I)
    (h : ∀ i ∈ xs, Paints colour (body i) (S i)) :
    Paints colour (forEach xs body) fun a => ∃ i ∈ xs, S i a := by
  induction xs with
  | nil => exact paints_nothing fun a => by simp
  | cons x xs ih =>
      have hx := h x List.mem_cons_self
      have hxs := ih fun i hi => h i (List.mem_cons_of_mem x hi)
      apply (hx.seq hxs).congr
      simp

end FpgaTest.Painting
