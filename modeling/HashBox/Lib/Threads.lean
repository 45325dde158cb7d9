import Mathlib.Logic.Function.Basic

/-!
# A pool of threads

Threads in flight, by name. `All P p`: every thread meets its assertion `P`. A step replaces one
thread, so by `All.update` it owes the assertion of that thread's new state, and that the others'
assertions survive what it did to the state they share (non-interference).
-/

namespace Threads

variable {ι τ : Type _}

/-- Every thread of the pool meets its assertion. -/
def All (P : ι → τ → Prop) (p : ι → Option τ) : Prop := ∀ t x, p t = some x → P t x

theorem All.mono {P Q : ι → τ → Prop} {p : ι → Option τ} (h : All P p)
    (hPQ : ∀ t x, p t = some x → P t x → Q t x) : All Q p :=
  fun t x hx => hPQ t x hx (h t x hx)

theorem All.empty {P : ι → τ → Prop} : All P fun _ => none := fun _ _ h => by cases h

/-- **One thread moves.** -/
theorem All.update [DecidableEq ι] {P Q : ι → τ → Prop} {p : ι → Option τ} {t : ι} {v : τ}
    (h : All P p) (hother : ∀ u x, u ≠ t → p u = some x → P u x → Q u x) (hown : Q t v) :
    All Q (Function.update p t (some v)) := by
  intro u x hx
  by_cases hu : u = t
  · subst hu
    rw [Function.update_self] at hx
    cases hx
    exact hown
  · rw [Function.update_of_ne hu] at hx
    exact hother u x hu hx (h u x hx)

/-- **One thread ends.** -/
theorem All.erase [DecidableEq ι] {P Q : ι → τ → Prop} {p : ι → Option τ} {t : ι}
    (h : All P p) (hother : ∀ u x, u ≠ t → p u = some x → P u x → Q u x) :
    All Q (Function.update p t none) := by
  intro u x hx
  by_cases hu : u = t
  · subst hu
    rw [Function.update_self] at hx
    cases hx
  · rw [Function.update_of_ne hu] at hx
    exact hother u x hu hx (h u x hx)

end Threads
