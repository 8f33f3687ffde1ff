import Popfleet.Lib.Transition

namespace Transition

variable {σ Λ : Type}

-- Two runs of a system side by side. Each step is made in both, under a condition on the two states,
-- or in one of them alone.
inductive TwoRuns (T : Transition σ Λ) (Both : σ → σ → Λ → Prop) (Alone : σ → Λ → Prop) :
    σ → σ → Prop
  | init {s} : T.Init s → TwoRuns T Both Alone s s
  | both {s₁ s₂ l s₁' s₂'} : TwoRuns T Both Alone s₁ s₂ → Both s₁ s₂ l → T.step s₁ l = some s₁' →
    T.step s₂ l = some s₂' → TwoRuns T Both Alone s₁' s₂'
  | left {s₁ s₂ l s₁'} : TwoRuns T Both Alone s₁ s₂ → Alone s₁ l → T.step s₁ l = some s₁' →
    TwoRuns T Both Alone s₁' s₂
  | right {s₁ s₂ l s₂'} : TwoRuns T Both Alone s₁ s₂ → Alone s₂ l → T.step s₂ l = some s₂' →
    TwoRuns T Both Alone s₁ s₂'

variable {T : Transition σ Λ} {Both : σ → σ → Λ → Prop} {Alone : σ → Λ → Prop} {s s₁ s₂ : σ}

-- The unwinding rule: an equivalence that the common steps keep, and that a step alone stays in.
theorem TwoRuns.unwinding {E : σ → σ → Prop} (h : T.TwoRuns Both Alone s₁ s₂) (equiv : Equivalence E)
    (both : ∀ s₁ s₂ l s₁' s₂', E s₁ s₂ → Both s₁ s₂ l → T.step s₁ l = some s₁' →
      T.step s₂ l = some s₂' → E s₁' s₂')
    (alone : ∀ s l s', Alone s l → T.step s l = some s' → E s s') : E s₁ s₂ := by
  induction h
  case init             => exact equiv.refl _
  case both hb e₁ e₂ i  => exact both _ _ _ _ _ i hb e₁ e₂
  case left ha e i      => exact equiv.trans (equiv.symm (alone _ _ _ ha e)) i
  case right ha e i     => exact equiv.trans i (alone _ _ _ ha e)

theorem TwoRuns.mono {Both' : σ → σ → Λ → Prop} (h : T.TwoRuns Both Alone s₁ s₂)
    (weaker : ∀ s₁ s₂ l, Both s₁ s₂ l → Both' s₁ s₂ l) : T.TwoRuns Both' Alone s₁ s₂ := by
  induction h
  case init h           => exact .init h
  case both hb e₁ e₂ hi => exact .both hi (weaker _ _ _ hb) e₁ e₂
  case left ha e hi     => exact .left hi ha e
  case right ha e hi    => exact .right hi ha e

-- One run twice.
theorem TwoRuns.same (h : T.Reachable s)
    (both : ∀ s l s', T.step s l = some s' → Both s s l) : T.TwoRuns Both Alone s s := by
  induction h
  case init hi   => exact .init hi
  case step e hi => exact .both hi (both _ _ _ e) e e

end Transition
