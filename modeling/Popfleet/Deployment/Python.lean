import Popfleet.Contrib.Theorems.Lives

open Proto V1e Contrib

namespace Deployment

-- agent.py without a fleet key, at its end of the websocket of a Go broker.
def pythonEndpoint (H : Mac 32) (G : Gcm tagLen) (int : String → Option Int) : Endpoint where
  State         := Contrib.State
  Label         := Turn
  system        := turns H G int
  frame _ t     := t.heard
  sents σ       := σ.sents.reverse.filter (·.t ≠ "hb")
  ran σ sid     := (view sid σ).ran
  printed σ sid := (view sid σ).printed
  given σ sid   := (view sid σ).given
  codes σ sid   := (view sid σ).codes

namespace Python

variable {H : Mac 32} {G : Gcm tagLen} {int : String → Option Int} {σ : Contrib.State}
  {ts : List (Contrib.State × Turn)} {ms : List Msg} {sid : String}

theorem view_queued : (view sid σ).queued = (σ.queues.filter (·.t ≠ "hb")).filter (·.sid = sid) := by
  simp only [view, State.queues, List.filter_reverse, List.filter_filterMap]
  congr 2
  funext e
  cases e
  case queued f =>
    by_cases hs : f.sid = sid <;> by_cases ht : f.t = "hb" <;> simp [hs, ht, Option.filter]
  all_goals rfl

-- The frames of a sid that were sent are the first ones of those that were queued.
theorem sents_queued (h : Served H G ts σ) :
    (σ.sents.reverse.filter (·.t ≠ "hb")).filter (·.sid = sid) <+: (view sid σ).queued := by
  rw [view_queued]
  have order : σ.sents.reverse <+: σ.queues := ⟨σ.outbox, h.inOrder⟩
  exact (order.filter _).filter _

theorem served_got (h : (pythonEndpoint H G int).Got ms σ) : ∃ ts, Served H G ts σ ∧ ms = heard ts := by
  have taken (σ : Contrib.State) (t : Turn) :
      t.heard.toList = [(σ, t)].filterMap fun (_, t) => t.heard := by
    cases ht : t.heard <;> simp [ht]
  have ⟨ts, h, eq⟩ := Transition.Observed.finer h taken
  exact ⟨ts, served_observed h, eq⟩

theorem led (h : Served H G ts σ) (sid : String) :
    Led (pythonEndpoint H G int) Base64.b64decode (heard ts) σ sid (view sid σ) where
  ran     := rfl
  printed := rfl
  given   := rfl
  codes   := rfl
  sents   := sents_queued h
  asked   := (h.asked sid).queued
  ran_le  := (h.asked sid).ran
  typed   := (h.asked sid).given
  life ho := ⟨_, h.life sid ho⟩

theorem sents_grow {t : Turn} {σ' : Contrib.State} (e : (turns H G int).step σ t = some σ') :
    σ.sents.reverse.filter (·.t ≠ "hb") <+: σ'.sents.reverse.filter (·.t ≠ "hb") := by
  have ⟨_, _, e⟩ := Option.bind_eq_some_iff.mp e
  exact (sents_step e).filter _

end Python

-- It is what an agent is for.
def python (H : Mac 32) (G : Gcm tagLen) (int : String → Option Int) : Host :=
  .ofLed (pythonEndpoint H G int) Base64.b64decode Python.sents_grow (fun _ => Base64.b64decode_encode)
    fun h sid => by
      obtain ⟨ts, served, rfl⟩ := Python.served_got h
      exact ⟨_, Python.led served sid⟩

end Deployment
