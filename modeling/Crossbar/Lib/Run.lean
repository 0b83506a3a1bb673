import Mathlib.Logic.Function.Basic
import Mathlib.Data.List.Basic

namespace Crossbar.Lib

/-!
# Runs of a partial step function

A system is given by `step : σ → α → Option σ`: the actions `α` name one atomic step of
one agent together with the choices the environment makes in it, and `none` means that
the action is not enabled.  An interleaving is a list of actions.

* `Run step ok s as s'` — the actions `as` lead from `s` to `s'`, and every single step
  meets the condition `ok` on the state before it;
* `Run.invariant` / `Run.relation` / `Run.stays_or` — the induction rules every result
  about whole runs goes through: for a predicate of states, for a preorder between the first
  and the last state, and for a predicate that holds until something happens;
* `Repeats` — the runs in which a single action is performed, some number of times;
* `exec` — the executable run, which checks a decidable `ok` on the way, with
  `exec_run` turning an evaluated trace into a `Run`.
-/

variable {σ α : Type*}

/-- `Run step ok s as s'`: performing `as` in order leads from `s` to `s'`, and every
    step on the way satisfies `ok` in the state it starts from. -/
inductive Run (step : σ → α → Option σ) (ok : σ → α → Prop) : σ → List α → σ → Prop
  | nil (s : σ) : Run step ok s [] s
  | cons {s s' s'' : σ} {a : α} {as : List α} :
      ok s a → step s a = some s' → Run step ok s' as s'' → Run step ok s (a :: as) s''

namespace Run

variable {step : σ → α → Option σ} {ok ok' : σ → α → Prop} {s s' s'' : σ} {as bs : List α}

/-- **Invariant rule.** A predicate that holds at the start and is kept by every
    admissible step holds at the end of every run. -/
theorem invariant {I : σ → Prop} (hrun : Run step ok s as s') (h₀ : I s)
    (hstep : ∀ s a s', I s → ok s a → step s a = some s' → I s') : I s' := by
  induction hrun with
  | nil s => exact h₀
  | cons hok hst _ ih => exact ih (hstep _ _ _ h₀ hok hst)

/-- **Two-state rule.** A reflexive and transitive relation that every admissible step
    out of an invariant state satisfies relates the first state to the last. -/
theorem relation {I : σ → Prop} {R : σ → σ → Prop} (hrun : Run step ok s as s') (h₀ : I s)
    (hstep : ∀ s a s', I s → ok s a → step s a = some s' → I s' ∧ R s s')
    (hrefl : ∀ s, R s s) (htrans : ∀ s s' s'', R s s' → R s' s'' → R s s'') : R s s' := by
  induction hrun with
  | nil s => exact hrefl s
  | cons hok hst _ ih =>
    obtain ⟨hI, hR⟩ := hstep _ _ _ h₀ hok hst
    exact htrans _ _ _ hR (ih hI)

/-- **Until rule.** A predicate that every admissible step keeps, unless it leads to `Q`,
    holds at the end, or the run has been through `Q`. -/
theorem stays_or {P Q : σ → Prop} (hrun : Run step ok s as s') (h₀ : P s)
    (hstep : ∀ s a s', P s → ok s a → step s a = some s' → P s' ∨ Q s') :
    P s' ∨ ∃ bs cs t, as = bs ++ cs ∧ Run step ok s bs t ∧ Q t := by
  induction hrun with
  | nil s => exact Or.inl h₀
  | @cons s s₁ s₂ a as hok hst hrest ih =>
    rcases hstep _ _ _ h₀ hok hst with hP | hQ
    · rcases ih hP with hend | ⟨bs, cs, t, rfl, hbs, hQ⟩
      · exact Or.inl hend
      · exact Or.inr ⟨a :: bs, cs, t, rfl, .cons hok hst hbs, hQ⟩
    · exact Or.inr ⟨[a], as, s₁, rfl, .cons hok hst (.nil s₁), hQ⟩

/-- Runs compose. -/
theorem append (h : Run step ok s as s') (h' : Run step ok s' bs s'') :
    Run step ok s (as ++ bs) s'' := by
  induction h with
  | nil s => exact h'
  | cons hok hst _ ih => exact .cons hok hst (ih h')

/-- A run goes through a state between any two of its actions. -/
theorem split (h : Run step ok s (as ++ bs) s'') :
    ∃ s', Run step ok s as s' ∧ Run step ok s' bs s'' := by
  induction as generalizing s with
  | nil => exact ⟨s, .nil s, h⟩
  | cons a as ih =>
    cases h with
    | cons hok hst hrest =>
      obtain ⟨s', hfirst, hlast⟩ := ih hrest
      exact ⟨s', .cons hok hst hfirst, hlast⟩

/-- A run under a condition is a run under every weaker one. -/
theorem mono (h : Run step ok s as s') (hle : ∀ s a, ok s a → ok' s a) :
    Run step ok' s as s' := by
  induction h with
  | nil s => exact .nil s
  | cons hok hst _ ih => exact .cons (hle _ _ hok) hst ih

/-- The actions determine where a run ends. -/
theorem unique (h : Run step ok s as s') (h' : Run step ok' s as s'') : s' = s'' := by
  induction h with
  | nil s =>
    cases h'
    rfl
  | cons _ hst _ ih =>
    cases h' with
    | cons _ hst' hrest =>
      obtain rfl := Option.some.inj (hst.symm.trans hst')
      exact ih hrest

/-- A single admissible step is a run. -/
theorem single {a : α} (hok : ok s a) (hst : step s a = some s') : Run step ok s [a] s' :=
  .cons hok hst (.nil s')

end Run

/-! ### One action, again and again -/

/-- `a`, performed some number of times, leads from `s` to `s'`. -/
def Repeats (step : σ → α → Option σ) (ok : σ → α → Prop) (a : α) (s s' : σ) : Prop :=
  ∃ n, Run step ok s (List.replicate n a) s'

namespace Repeats

variable {step : σ → α → Option σ} {ok : σ → α → Prop} {a : α} {s s' s'' : σ}

theorem refl (s : σ) : Repeats step ok a s s := ⟨0, .nil s⟩

theorem head (hok : ok s a) (hst : step s a = some s') (h : Repeats step ok a s' s'') :
    Repeats step ok a s s'' := by
  obtain ⟨n, hrun⟩ := h
  exact ⟨n + 1, .cons hok hst hrun⟩

theorem trans (h : Repeats step ok a s s') (h' : Repeats step ok a s' s'') :
    Repeats step ok a s s'' := by
  obtain ⟨n, hrun⟩ := h
  obtain ⟨k, hrun'⟩ := h'
  refine ⟨n + k, ?_⟩
  rw [List.replicate_add]
  exact hrun.append hrun'

end Repeats

/-! ### Executing a trace -/

section

variable (step : σ → α → Option σ) (ok : σ → α → Prop) [∀ s a, Decidable (ok s a)]

/-- Perform the actions in order, stopping with `none` as soon as one of them is not
    enabled or breaks `ok`. -/
def exec : σ → List α → Option σ
  | s, [] => some s
  | s, a :: as =>
    if ok s a then
      match step s a with
      | some t => exec t as
      | none => none
    else none

theorem exec_run {s s' : σ} {l : List α} (h : exec step ok s l = some s') :
    Run step ok s l s' := by
  induction l generalizing s with
  | nil =>
    rw [exec, Option.some.injEq] at h
    subst h
    exact .nil _
  | cons a l ih =>
    rw [exec] at h
    split at h
    · rename_i hok
      split at h
      · rename_i s₁ hst
        exact .cons hok hst (ih h)
      · cases h
    · cases h

/-- An evaluated trace whose last state satisfies `p` is a run to such a state. -/
theorem exists_run_of_exec {s : σ} {l : List α} {p : σ → Prop} [DecidablePred p]
    (h : (exec step ok s l).any (fun s' => decide (p s')) = true) :
    ∃ s', Run step ok s l s' ∧ p s' := by
  obtain ⟨s', hex, hp⟩ := (Option.any_eq_true _ _).mp h
  exact ⟨s', exec_run step ok hex, of_decide_eq_true hp⟩

/-- The same for a trace that goes on under another condition `ok'`. -/
theorem exists_runs_of_exec (ok' : σ → α → Prop) [∀ s a, Decidable (ok' s a)] {s : σ}
    {l m : List α} {p q : σ → Prop} [DecidablePred p] [DecidablePred q]
    (h : (exec step ok s l).any (fun s' => decide (p s') &&
      (exec step ok' s' m).any (fun s'' => decide (q s''))) = true) :
    ∃ s' s'', Run step ok s l s' ∧ p s' ∧ Run step ok' s' m s'' ∧ q s'' := by
  obtain ⟨s', hex, htest⟩ := (Option.any_eq_true _ _).mp h
  obtain ⟨hp, hrest⟩ := Bool.and_eq_true_iff.mp htest
  obtain ⟨s'', hrun, hq⟩ := exists_run_of_exec step ok' hrest
  exact ⟨s', s'', exec_run step ok hex, of_decide_eq_true hp, hrun, hq⟩

end

end Crossbar.Lib
