import Mathlib.Data.Option.Basic

-- Transition systems whose steps are partial functions of the state and of a label. A label carries
-- everything the step does not determine itself: who moves, and what the environment answers.
structure Transition (σ Λ : Type) where
  Init : σ → Prop
  step : σ → Λ → Option σ

namespace Transition

variable {σ Λ : Type}

-- The states reached by runs all of whose steps satisfy `Ok`.
inductive ReachableUnder (T : Transition σ Λ) (Ok : σ → Λ → Prop) : σ → Prop
  | init {s} : T.Init s → ReachableUnder T Ok s
  | step {s l s'} :
    ReachableUnder T Ok s → Ok s l → T.step s l = some s' → ReachableUnder T Ok s'

abbrev Reachable (T : Transition σ Λ) : σ → Prop :=
  T.ReachableUnder fun _ _ => True

variable {T : Transition σ Λ} {Ok Ok' : σ → Λ → Prop} {s s' s₁ s₂ : σ} {l : Λ}

theorem ReachableUnder.mono (h : T.ReachableUnder Ok s) (ho : ∀ s l, Ok s l → Ok' s l) :
    T.ReachableUnder Ok' s := by
  induction h
  case init hi     => exact .init hi
  case step o e hi => exact .step hi (ho _ _ o) e

theorem ReachableUnder.reachable (h : T.ReachableUnder Ok s) : T.Reachable s :=
  h.mono fun _ _ _ => trivial

-- An invariant that the initial states satisfy and that the steps with `Ok` preserve holds of every
-- state such steps reach. The invariants already known may be used for the step.
theorem ReachableUnder.invariant {I : σ → Prop} (h : T.ReachableUnder Ok s)
    (init : ∀ s, T.Init s → I s)
    (step : ∀ s l s', T.ReachableUnder Ok s → I s → Ok s l → T.step s l = some s' → I s') :
    I s := by
  induction h
  case init hi       => exact init _ hi
  case step hr o e i => exact step _ _ _ hr i o e

-- The same steps, from a given state on.
def after (T : Transition σ Λ) (s : σ) : Transition σ Λ where
  Init s' := s' = s
  step    := T.step

theorem Reachable.after (h : T.Reachable s) (ha : (T.after s).ReachableUnder Ok s') :
    T.Reachable s' := by
  induction ha
  case init hi     => exact hi ▸ h
  case step e hi   => exact .step hi trivial e

theorem Reachable.after_step (h : (T.after s).Reachable s₁) (e : T.step s₁ l = some s₂) :
    (T.after s).Reachable s₂ :=
  .step h trivial e

-- A system keeps up with another one, by any number of its steps for each.
theorem ReachableUnder.simulation {τ M : Type} {U : Transition τ M} {R : σ → τ → Prop} (h : T.Reachable s)
    (init : ∀ s, T.Init s → ∃ u, U.Reachable u ∧ R s u)
    (step : ∀ s l s' u, T.Reachable s → R s u → T.step s l = some s' →
      ∃ u', (U.after u).Reachable u' ∧ R s' u') : ∃ u, U.Reachable u ∧ R s u := by
  induction h
  case init hi => exact init _ hi
  case step hr _ e hi =>
    obtain ⟨u, reachable, related⟩ := hi
    obtain ⟨u', run, related⟩ := step _ _ _ _ hr related e
    exact ⟨u', reachable.after run, related⟩

-- The runs themselves, as the list of labels of their steps.
def run (T : Transition σ Λ) : σ → List Λ → Option σ
  | s, []      => some s
  | s, l :: ls => (T.step s l).bind (T.run · ls)

@[simp]
theorem run_nil : T.run s [] = some s :=
  rfl

theorem run_cons_eq_some {ls : List Λ} :
    T.run s₁ (l :: ls) = some s₂ ↔ ∃ s, T.step s₁ l = some s ∧ T.run s ls = some s₂ := by
  simp [run, Option.bind_eq_some_iff]

theorem run_append_eq_some {ls₁ ls₂ : List Λ} :
    T.run s₁ (ls₁ ++ ls₂) = some s₂ ↔ ∃ s, T.run s₁ ls₁ = some s ∧ T.run s ls₂ = some s₂ := by
  induction ls₁ generalizing s₁
  case nil => simp
  case cons hi => simp only [List.cons_append, run_cons_eq_some, hi]; grind

theorem ReachableUnder.run {ls : List Λ} (h : T.ReachableUnder Ok s)
    (hok : ∀ l ∈ ls, ∀ s, Ok s l) (e : T.run s ls = some s') : T.ReachableUnder Ok s' := by
  induction ls generalizing s
  case nil => cases e; exact h
  case cons hi =>
    have ⟨_, e₁, e₂⟩ := run_cons_eq_some.mp e
    have ⟨hl, hok⟩ := List.forall_mem_cons.mp hok
    exact hi (.step h (hl s) e₁) hok e₂

theorem Reachable.run {ls : List Λ} (h : T.Reachable s) (e : T.run s ls = some s') :
    T.Reachable s' :=
  ReachableUnder.run h (fun _ _ _ => trivial) e

theorem run_after {ls : List Λ} : (T.after s).run s₁ ls = T.run s₁ ls := by
  induction ls generalizing s₁
  case nil     => rfl
  case cons hi => exact congrArg (Option.bind _) (funext fun _ => hi)

theorem after_of_run {ls : List Λ} (e : T.run s ls = some s') : (T.after s).Reachable s' :=
  Reachable.run (.init rfl) (run_after.trans e)

-- A run each of whose steps passes a test.
def runWhile (T : Transition σ Λ) (ok : σ → Λ → Bool) : σ → List Λ → Option σ
  | s, []      => some s
  | s, l :: ls => if ok s l then (T.step s l).bind (T.runWhile ok · ls) else none

theorem ReachableUnder.runWhile {ok : σ → Λ → Bool} {ls : List Λ} (h : T.ReachableUnder Ok s)
    (hok : ∀ s l, ok s l → Ok s l) (e : T.runWhile ok s ls = some s') :
    T.ReachableUnder Ok s' := by
  induction ls generalizing s
  case nil => cases e; exact h
  case cons hi =>
    simp only [Transition.runWhile, Option.ite_none_right_eq_some, Option.bind_eq_some_iff] at e
    have ⟨o, _, e₁, e₂⟩ := e
    exact hi (.step h (hok _ _ o) e₁) e₂

theorem run_of_runWhile {ok : σ → Λ → Bool} {ls : List Λ} (e : T.runWhile ok s ls = some s') :
    T.run s ls = some s' := by
  induction ls generalizing s
  case nil => exact e
  case cons hi =>
    simp only [Transition.runWhile, Option.ite_none_right_eq_some, Option.bind_eq_some_iff] at e
    have ⟨_, _, e₁, e₂⟩ := e
    exact run_cons_eq_some.mpr ⟨_, e₁, hi e₂⟩

-- A run of the same steps again and again.
theorem run_replicate {ls : List Λ} {P : Nat → σ → Prop} {n : Nat} (h : P 0 s)
    (round : ∀ k < n, ∀ s, P k s → ∃ s', T.run s ls = some s' ∧ P (k + 1) s') :
    ∃ s', T.run s (List.replicate n ls).flatten = some s' ∧ P n s' := by
  induction n
  case zero => exact ⟨s, rfl, h⟩
  case succ n hi =>
    have ⟨s₁, e₁, h₁⟩ := hi fun k hk => round k (Nat.lt_succ_of_lt hk)
    have ⟨s₂, e₂, h₂⟩ := round n (Nat.lt_succ_self n) s₁ h₁
    refine ⟨s₂, ?_, h₂⟩
    rw [List.replicate_succ', List.flatten_append, List.flatten_singleton]
    exact run_append_eq_some.mpr ⟨s₁, e₁, e₂⟩

-- Reading off the last state of a run that was evaluated.
theorem eq_of_run {α : Type} {f : σ → α} {x : α} {o : Option σ} (e : o = some s')
    (h : o.map f = some x) : f s' = x := by
  simpa [e] using h

section Observe

variable {α β : Type} {f : σ → Λ → α} {g : σ → List β} {h : α → List β}

-- What is seen of each step of a run, by its label and the state that it starts from.
def observe (T : Transition σ Λ) (f : σ → Λ → α) : σ → List Λ → List α
  | _, []      => []
  | s, l :: ls => f s l :: (T.step s l).elim [] (T.observe f · ls)

-- A list in the state that each step appends to, by what is seen of the step.
theorem append_of_run {ls : List Λ} (step : ∀ s l s', T.step s l = some s' → g s' = g s ++ h (f s l))
    (e : T.run s ls = some s') : g s' = g s ++ (T.observe f s ls).flatMap h := by
  induction ls generalizing s
  case nil => cases e; simp [observe]
  case cons l ls hi =>
    have ⟨s₁, e₁, e₂⟩ := run_cons_eq_some.mp e
    rw [hi e₂, step _ _ _ e₁]
    simp [observe, e₁]

end Observe

section Log

variable {ε : Type} {P : List ε → ε → Prop} {log : List ε} {e : ε}

-- Each event of a log, which has the newest one first, satisfies `P` given the events before it.
def Throughout (P : List ε → ε → Prop) (log : List ε) : Prop :=
  ∀ after before e, log = after ++ e :: before → P before e

theorem Throughout.nil : Throughout P [] := by
  simp [Throughout]

theorem Throughout.cons (he : P log e) (h : Throughout P log) : Throughout P (e :: log) := by
  intro after before e' hl
  cases after
  case nil  => cases hl; exact he
  case cons => cases hl; exact h _ _ _ rfl

end Log

end Transition
