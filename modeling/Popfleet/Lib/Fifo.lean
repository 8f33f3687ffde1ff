import Popfleet.Lib.Transition

-- Parties that are linked by connections which neither lose nor reorder: what one end received so far is
-- a prefix of what the other end sent.
namespace Fifo

-- The next item that was sent.
theorem next_isPrefix {α : Type} {sent received : List α} {x : α} (h : received <+: sent)
    (e : sent[received.length]? = some x) : received ++ [x] <+: sent := by
  obtain ⟨rest, rfl⟩ := h
  rw [List.getElem?_append_right (Nat.le_refl _), Nat.sub_self] at e
  cases rest
  case nil => contradiction
  case cons rest =>
    cases e
    exact ⟨rest, List.append_assoc ..⟩

variable {α : Type} [DecidableEq α] {sent received received' l : List α}

-- What was received with some more items, which are the next ones that were sent.
def receive (sent received l : List α) : Option (List α) :=
  if l <+: sent.drop received.length then some (received ++ l) else none

theorem receive_eq (h : receive sent received l = some received') : received' = received ++ l :=
  (Option.some.inj (Option.ite_none_right_eq_some.mp h).right).symm

theorem receive_isPrefix (h : received <+: sent) (e : receive sent received l = some received') :
    received' <+: sent := by
  have ⟨next, _⟩ := Option.ite_none_right_eq_some.mp e
  obtain ⟨rest, rfl⟩ := h
  rw [receive_eq e]
  exact (List.prefix_append_right_inj _).mpr (by simpa using next)

end Fifo

namespace Transition

variable {σ Λ α : Type}

-- The states that are reached by runs of whose steps `seen` was observed.
inductive Observed (T : Transition σ Λ) (f : σ → Λ → List α) : List α → σ → Prop
  | init {s} : T.Init s → Observed T f [] s
  | step {seen s l s'} :
    Observed T f seen s → T.step s l = some s' → Observed T f (seen ++ f s l) s'

variable {T : Transition σ Λ} {f : σ → Λ → List α} {s s' : σ} {l : Λ} {seen : List α}

namespace Observed

theorem reachable (h : T.Observed f seen s) : T.Reachable s := by
  induction h
  case init hi   => exact .init hi
  case step e hi => exact .step hi trivial e

-- A step of which nothing is seen.
theorem silent (h : T.Observed f seen s) (e : T.step s l = some s') (hf : f s l = []) :
    T.Observed f seen s' := by
  have h' := h.step e
  rwa [hf, List.append_nil] at h'

theorem run {ls : List Λ} (h : T.Observed f seen s) (e : T.run s ls = some s') :
    T.Observed f (seen ++ (T.observe f s ls).flatten) s' := by
  induction ls generalizing s seen
  case nil => cases e; simpa [observe] using h
  case cons l ls hi =>
    obtain ⟨s₁, e₁, e₂⟩ := run_cons_eq_some.mp e
    simpa [observe, e₁] using hi (h.step e₁) e₂

-- An invariant of the states and of what was seen until then.
theorem invariant {I : List α → σ → Prop} (h : T.Observed f seen s) (init : ∀ s, T.Init s → I [] s)
    (step : ∀ seen s l s', T.Observed f seen s → I seen s → T.step s l = some s' →
      I (seen ++ f s l) s') : I seen s := by
  induction h
  case init hi   => exact init _ hi
  case step e hi => exact step _ _ _ _ (by assumption) hi e

-- What is seen by one who sees more of each step.
theorem finer {β : Type} {f' : σ → Λ → List β} {g : β → Option α} (h : T.Observed f seen s)
    (hf : ∀ s l, f s l = (f' s l).filterMap g) : ∃ seen', T.Observed f' seen' s ∧ seen = seen'.filterMap g := by
  induction h
  case init hi   => exact ⟨[], .init hi, rfl⟩
  case step e hi =>
    obtain ⟨seen', h, rfl⟩ := hi
    exact ⟨_, h.step e, by rw [List.filterMap_append, hf]⟩

end Observed

-- Something was seen of each run.
theorem Reachable.observed (h : T.Reachable s) (f : σ → Λ → List α) : ∃ seen, T.Observed f seen s := by
  induction h
  case init hi   => exact ⟨[], .init hi⟩
  case step e hi =>
    have ⟨seen, h⟩ := hi
    exact ⟨_, h.step e⟩

end Transition
