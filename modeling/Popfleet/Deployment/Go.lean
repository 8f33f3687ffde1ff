import Popfleet.E2E.Theorems.Lives

open Proto Program E2E

namespace Deployment

-- The Go agent without a fleet key, at its end of the websocket.
def goEndpoint : Endpoint where
  State         := Config Enrolled (Op Unit)
  Label         := Program.Label (Req Unit) Input
  system        := enrolled.system
  frame         := heard
  sents c       := c.shared.sents
  ran c sid     := c.shared.ran sid
  printed c sid := c.shared.printed sid
  given c sid   := c.shared.given sid
  codes c sid   := c.shared.codes sid

namespace Go

variable {c c' : Config Enrolled (Op Unit)} {ms : List Msg} {sid : String}

theorem led (h : goEndpoint.Got ms c) (sid : String) : ∃ v, Led goEndpoint Base64.decode ms c sid v := by
  have leads : c.shared.Leads ms := leads_observed h
  have led (alive : Bool) (buf : Bytes) (more : List Msg)
      (answers : ∀ f ∈ more, (f.t = "out" ∨ f.t = "exit") ∧ opens sid ms ≠ []) :
      let v := c.shared.view sid alive buf
      ((opens sid ms).length ≤ 1 →
        ∃ ends, Life sid (opens sid ms) ends { v with queued := v.queued ++ more }) →
      Led goEndpoint Base64.decode ms c sid { v with queued := v.queued ++ more } := by
    intro v life
    have answered {f : Msg} (tag : f.t = "out" ∨ f.t = "exit") : f.t ≠ "err" := by
      rcases tag with tag | tag <;> simp [tag]
    have sents := (leads.sents.filter (·.sid = sid)).trans (List.prefix_append _ more)
    refine ⟨rfl, rfl, rfl, rfl, sents, fun f hf => ?_, leads.ran sid, ?_, life⟩
    case refine_1 =>
      rcases List.mem_append.mp hf with hf | hf
      case inl =>
        have ⟨hf, hs⟩ := List.mem_filter.mp hf
        have ⟨tag, opened⟩ := leads.answers f hf
        exact ⟨answered tag, of_decide_eq_true hs ▸ opened⟩
      case inr => exact (answers f hf).imp_left answered
    case refine_2 =>
      exact List.sublistForall₂_iff.mpr
        ⟨_, List.forall₂_same.mpr fun _ _ => List.prefix_rfl, leads.given sid⟩
  by_cases once : (opens sid ms).length ≤ 1
  case neg => exact ⟨_, led false [] [] (by simp) fun le => absurd le once⟩
  case pos =>
    have ⟨alive, buf, more, answers, life⟩ := leads.life sid once
    exact ⟨_, led alive buf more answers fun _ => ⟨_, life⟩⟩

theorem sents_grow {l : Program.Label (Req Unit) Input} (e : enrolled.system.step c l = some c') :
    c.shared.sents <+: c'.shared.sents := by
  replace e := Program.Step.of e
  cases e
  case start e =>
    obtain ⟨σ, _, rfl, _⟩ := Enrolled.of_start e
    exact List.prefix_rfl
  case step e => exact Enrolled.sents_exec e

end Go

-- It is what an agent is for, too.
def go : Host :=
  .ofLed goEndpoint Base64.decode Go.sents_grow (fun _ => Base64.decode_encode) Go.led

end Deployment
