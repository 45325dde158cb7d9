import Mathlib.Logic.Basic

/-!
# Runs of a partial step function

`Reach step ok start s`: `s` is reached from a state in `start` by steps of `step`, each taken at a
state and with a label that `ok` accepts. `ok := fun _ _ => True` gives every run; a stronger `ok`
gives the runs that stay within an assumption on their steps. `Reach.inv` is the induction every
invariant is proved by; `exec` runs a list of labels, and `Reach.exec` makes a run of it;
`exec_inv_length` bounds its length. `outputs` runs a machine that answers each of its inputs.
`bind_ok` takes a sequence of calls apart that succeeds; `any_ok` and `any_failure` read the result
of a call that has been evaluated.
-/

namespace Runs

variable {σ α : Type _}

/-- The states reached from `start` by steps that `ok` accepts. -/
inductive Reach (step : σ → α → Option σ) (ok : σ → α → Prop) (start : σ → Prop) : σ → Prop
  | init {s : σ} : start s → Reach step ok start s
  | next {s s' : σ} {a : α} : Reach step ok start s → ok s a → step s a = some s' →
      Reach step ok start s'

/-- A list of labels run from a state; `none` when one of them is not enabled. -/
def exec (step : σ → α → Option σ) : σ → List α → Option σ
  | s, [] => some s
  | s, a :: as => (step s a).bind fun s' => exec step s' as

theorem exec_append (step : σ → α → Option σ) (as bs : List α) (s : σ) :
    exec step s (as ++ bs) = (exec step s as).bind fun s' => exec step s' bs := by
  induction as generalizing s with
  | nil => rfl
  | cons a as ih =>
    simp only [List.cons_append, exec, Option.bind_assoc]
    exact congrArg _ (funext ih)

/-- **A run with a rank is bounded.** Where every step from a state with the invariant keeps it and
lowers the rank, a run is no longer than the rank of its start. -/
theorem exec_inv_length {step : σ → α → Option σ} (rank : σ → Nat) {P : σ → Prop}
    {as : List α} : ∀ {s s' : σ}, P s →
      (∀ s a s', P s → step s a = some s' → P s' ∧ rank s' < rank s) →
      exec step s as = some s' → P s' ∧ as.length + rank s' ≤ rank s := by
  induction as with
  | nil => intro s s' h _ he; cases he; exact ⟨h, by simp⟩
  | cons a as ih =>
    intro s s' h hstep he
    obtain ⟨s1, h1, h2⟩ := Option.bind_eq_some_iff.1 he
    obtain ⟨hp, hlt⟩ := hstep s a s1 h h1
    obtain ⟨hp', hle⟩ := ih hp hstep h2
    refine ⟨hp', ?_⟩
    rw [List.length_cons]
    omega

variable {step : σ → α → Option σ} {ok ok' : σ → α → Prop} {start start' : σ → Prop}

/-- **An inductive invariant holds in every state reached.** -/
theorem Reach.inv {P : σ → Prop} {s : σ} (h : Reach step ok start s) (h0 : ∀ s, start s → P s)
    (hstep : ∀ s a s', P s → ok s a → step s a = some s' → P s') : P s := by
  induction h with
  | init hs => exact h0 _ hs
  | next _ hok hs ih => exact hstep _ _ _ ih hok hs

/-- Fewer assumptions on the steps, or more start states, reach at least as much. -/
theorem Reach.mono {s : σ} (h : Reach step ok start s) (hok : ∀ s a, ok s a → ok' s a)
    (hst : ∀ s, start s → start' s) : Reach step ok' start' s := by
  induction h with
  | init hs => exact .init (hst _ hs)
  | next _ ho hs ih => exact .next ih (hok _ _ ho) hs

/-- A condition that an invariant of the runs implies at every step may be assumed of the steps. -/
theorem Reach.strengthen {P : σ → Prop} {s : σ} (h : Reach step ok start s)
    (h0 : ∀ s, start s → P s) (hstep : ∀ s a s', P s → ok s a → step s a = some s' → P s')
    (hok : ∀ s a, P s → ok s a → ok' s a) : Reach step ok' start s := by
  suffices P s ∧ Reach step ok' start s from this.2
  induction h with
  | init hs => exact ⟨h0 _ hs, .init hs⟩
  | next _ ho hs ih => exact ⟨hstep _ _ _ ih.1 ho hs, .next ih.2 (hok _ _ ih.1 ho) hs⟩

theorem Reach.trans {s s' : σ} (h : Reach step ok start s) (h' : Reach step ok (· = s) s') :
    Reach step ok start s' := by
  induction h' with
  | init hs => exact hs ▸ h
  | next _ ho hs ih => exact .next ih ho hs

/-- **Progress.** Where every state reached is final or has a step to a lower rank, a final state is
reached. -/
theorem Reach.ends (rank : σ → Nat) {final : σ → Prop} {s : σ} (h : Reach step ok start s)
    (hstep : ∀ s, Reach step ok start s → ¬ final s →
      ∃ a s', ok s a ∧ step s a = some s' ∧ rank s' < rank s) :
    ∃ s', Reach step ok start s' ∧ final s' := by
  induction hn : rank s using Nat.strongRecOn generalizing s with
  | _ n ih =>
    by_cases hf : final s
    · exact ⟨s, h, hf⟩
    · obtain ⟨a, s', ho, hs, hlt⟩ := hstep s h hf
      exact ih (rank s') (hn ▸ hlt) (.next h ho hs) rfl

/-- **Simulation.** Each step is answered by one step of the other system, or by none. -/
theorem Reach.simulate {τ β : Type _} {step' : τ → β → Option τ} {R : σ → τ → Prop} {s₀ s : σ}
    {x₀ : τ} (h : Reach step ok (· = s₀) s) (h0 : R s₀ x₀)
    (hstep : ∀ s a s' x, R s x → ok s a → step s a = some s' →
      ∃ x', R s' x' ∧ (x' = x ∨ ∃ b, step' x b = some x')) :
    ∃ x, Reach step' (fun _ _ => True) (· = x₀) x ∧ R s x := by
  induction h with
  | init hs => exact ⟨x₀, .init rfl, hs ▸ h0⟩
  | next _ ho hs ih =>
    obtain ⟨x, hx, hR⟩ := ih
    obtain ⟨x', hR', rfl | ⟨b, hb⟩⟩ := hstep _ _ _ x hR ho hs
    · exact ⟨x', hx, hR'⟩
    · exact ⟨x', .next hx trivial hb, hR'⟩

theorem Reach.exec {as : List α} : ∀ {s s' : σ}, Reach step ok start s →
    (∀ a ∈ as, ∀ s, ok s a) → exec step s as = some s' → Reach step ok start s' := by
  induction as with
  | nil => intro s s' h _ he; cases he; exact h
  | cons a as ih =>
    intro s s' h hok he
    obtain ⟨s1, h1, h2⟩ := Option.bind_eq_some_iff.1 he
    exact ih (.next h (hok a List.mem_cons_self s) h1)
      (fun a' ha' => hok a' (List.mem_cons_of_mem _ ha')) h2

/-- The steps that `ok` accepts. -/
def guarded (step : σ → α → Option σ) (ok : σ → α → Prop) [∀ s a, Decidable (ok s a)] (s : σ)
    (a : α) : Option σ :=
  if ok s a then step s a else none

theorem exec_of_guarded [∀ s a, Decidable (ok s a)] {as : List α} :
    ∀ {s s' : σ}, Runs.exec (guarded step ok) s as = some s' → Runs.exec step s as = some s' := by
  induction as with
  | nil => exact fun he => he
  | cons a as ih =>
    intro s s' he
    obtain ⟨s1, h1, h2⟩ := Option.bind_eq_some_iff.1 he
    rw [guarded] at h1
    split at h1
    · exact Option.bind_eq_some_iff.2 ⟨s1, h1, ih h2⟩
    · cases h1

theorem Reach.exec_guarded [∀ s a, Decidable (ok s a)] {as : List α} :
    ∀ {s s' : σ}, Reach step ok start s → Runs.exec (guarded step ok) s as = some s' →
      Reach step ok start s' := by
  induction as with
  | nil => intro s s' h he; cases he; exact h
  | cons a as ih =>
    intro s s' h he
    obtain ⟨s1, h1, h2⟩ := Option.bind_eq_some_iff.1 he
    rw [guarded] at h1
    split at h1
    · exact ih (.next h ‹_› h1) h2
    · cases h1

/-! ## Machines with outputs -/

/-- What a machine answers to its inputs, and the state it ends in. -/
def outputs {β : Type _} (step : σ → α → β × σ) : σ → List α → List β × σ
  | s, [] => ([], s)
  | s, a :: as =>
    ((step s a).1 :: (outputs step (step s a).2 as).1, (outputs step (step s a).2 as).2)

/-- **Bisimilar machines** give the same answers, and end in related states. -/
theorem outputs_simulate {τ β : Type _} {step : σ → α → β × σ} {step' : τ → α → β × τ}
    {R : σ → τ → Prop} (hstep : ∀ s x a, R s x → (step s a).1 = (step' x a).1 ∧
      R (step s a).2 (step' x a).2) {as : List α} : ∀ {s : σ} {x : τ}, R s x →
      (outputs step s as).1 = (outputs step' x as).1 ∧
        R (outputs step s as).2 (outputs step' x as).2 := by
  induction as with
  | nil => exact fun h => ⟨rfl, h⟩
  | cons a as ih =>
    intro s x h
    obtain ⟨hanswer, hnext⟩ := hstep s x a h
    obtain ⟨hanswers, hlast⟩ := ih hnext
    exact ⟨by rw [outputs, outputs, hanswer, hanswers], hlast⟩

/-! ## Calls that may fail -/

variable {ε β : Type _}

def failure : Except ε β → Option ε
  | .ok _ => none
  | .error e => some e

theorem bind_ok {γ : Type _} {x : Except ε β} {f : β → Except ε γ} {c : γ}
    (h : x >>= f = .ok c) : ∃ b, x = .ok b ∧ f b = .ok c := by
  cases x with
  | ok b => exact ⟨b, rfl, h⟩
  | error e => cases h

theorem mapError_ok {ε' : Type _} {x : Except ε β} {f : ε → ε'} {b : β}
    (h : x.mapError f = .ok b) : x = .ok b := by
  cases x with
  | ok b' => cases h; rfl
  | error e => cases h

theorem toOption_eq_some {x : Except ε β} {b : β} : x.toOption = some b ↔ x = .ok b := by
  cases x with
  | ok b' => simp [Except.toOption]
  | error e => simp [Except.toOption]

theorem any_ok {x : Except ε β} {p : β → Bool} (h : x.toOption.any p = true) :
    ∃ b, x = .ok b ∧ p b = true := by
  cases x with
  | ok b => exact ⟨b, rfl, h⟩
  | error e => cases h

theorem any_failure {x : Except ε β} {p : ε → Bool} (h : (failure x).any p = true) :
    ∃ e, x = .error e ∧ p e = true := by
  cases x with
  | ok b => cases h
  | error e => exact ⟨e, rfl, h⟩

end Runs
