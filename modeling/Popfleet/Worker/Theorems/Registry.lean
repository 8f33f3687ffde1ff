import Popfleet.Worker.Theorems.Sockets

open Program

namespace Worker

open State

-- The digest in the row of a machine.
def State.row (σ : State) (id : String) : Option String :=
  (σ.machine.get? id).map (·.tokenSum)

-- No id and no token was drawn twice, and SHA-256 tells the tokens apart.
structure State.Fresh (sha256hex : String → String) (σ : State) : Prop where
  ids    : (σ.enrolled.map (·.1)).Nodup
  tokens : (σ.enrolled.map (·.2)).Nodup
  apart  : ∀ t ∈ σ.enrolled.map (·.2), ∀ t' ∈ σ.enrolled.map (·.2),
    sha256hex t = sha256hex t' → t = t'

structure Registry (sha256hex : String → String) (σ : State) : Prop where
  tok      : ∀ {sum id}, σ.tok.get? sum = some id ↔ σ.row id = some sum
  enrolled : ∀ {id sum}, σ.row id = some sum →
    ∃ token, (id, token) ∈ σ.enrolled ∧ sum = sha256hex token
  agents   : ∀ {ws mid}, ws ∈ σ.listed → σ.IsAgent ws mid → (σ.row mid).isSome
  deleted  : ∀ {mid}, mid ∈ σ.deletions → mid ∈ σ.enrolled.map (·.1) ∧ σ.row mid = none

-- What is registered stays the same.
structure Kept (σ σ' : State) : Prop where
  tok       : σ'.tok = σ.tok
  row       : ∀ id, σ'.row id = σ.row id
  enrolled  : σ'.enrolled = σ.enrolled
  deletions : σ'.deletions = σ.deletions

variable {sha256hex : String → String} {σ σ' σ₁ σ₂ σ₃ : State} {ws : Ws} {mid mid' token : String}
  {m m' : Machine} {op : Op} {ops : List Op} {r : Req} {c : Config State Op}

namespace Kept

theorem refl : Kept σ σ :=
  ⟨rfl, fun _ => rfl, rfl, rfl⟩

theorem trans (h₁ : Kept σ₁ σ₂) (h₂ : Kept σ₂ σ₃) : Kept σ₁ σ₃ :=
  ⟨h₂.tok.trans h₁.tok, fun id => (h₂.row id).trans (h₁.row id), h₂.enrolled.trans h₁.enrolled,
    h₂.deletions.trans h₁.deletions⟩

theorem of_frames (h : Frames σ σ') : Kept σ σ' := by
  have machine : σ'.machine = σ.machine := congrArg (·.machine) h.rest
  have log : σ'.log = σ.log := congrArg (·.log) h.rest
  refine ⟨congrArg (·.tok) h.rest, fun id => ?_, ?_, ?_⟩
  case refine_1 => rw [State.row, machine, State.row]
  case refine_2 => rw [State.enrolled, log, State.enrolled]
  case refine_3 => rw [State.deletions, log, State.deletions]

theorem of_action (h : Action σ σ') : Kept σ σ' := by
  cases h
  case sends hs => exact .of_frames hs.toFrames
  case drop ha  => exact .of_frames (dropAgent_drops ha).toFrames
  case touch mid m m' hm sum =>
    refine ⟨rfl, fun id => ?_, rfl, rfl⟩
    simp only [State.row, GoMap.get?_set]
    split
    case isTrue h  => simp [h, hm, sum]
    case isFalse h => rfl
  all_goals exact ⟨rfl, fun _ => rfl, rfl, rfl⟩

theorem of_actions (h : Actions σ σ') : Kept σ σ' := by
  induction h
  case refl              => exact .refl
  case tail _ action hi  => exact hi.trans (.of_action action)

end Kept

namespace Registry

theorem kept (hk : Kept σ σ')
    (agents : ∀ {ws mid}, ws ∈ σ'.listed → σ'.IsAgent ws mid → (σ.row mid).isSome)
    (h : Registry sha256hex σ) : Registry sha256hex σ' := by
  constructor
  case tok      => exact fun {sum id} => hk.tok ▸ hk.row id ▸ h.tok
  case enrolled => exact fun {id sum} hr => hk.enrolled ▸ h.enrolled (hk.row id ▸ hr)
  case agents   => exact fun {ws mid} hl ha => hk.row mid ▸ agents hl ha
  case deleted  =>
    intro mid hd
    rw [hk.enrolled, hk.row]
    exact h.deleted (hk.deletions ▸ hd)

theorem actions (ha : Actions σ σ') (h : Registry sha256hex σ) : Registry sha256hex σ' := by
  refine h.kept (.of_actions ha) fun hl hm => ?_
  have ⟨hl, hm⟩ := ha.of_isAgent hl hm
  exact h.agents hl hm

-- A machine goes with its entry in the index.
theorem delete (hm : σ.machine.get? mid = some m)
    (h₁ : σ₁ = { σ with machine := σ.machine.delete mid, tok := σ.tok.delete m.tokenSum })
    (hk : Kept (σ₁.record (.deleted mid)) σ')
    (agents : ∀ {ws mid'}, ws ∈ σ'.listed → σ'.IsAgent ws mid' →
      mid' ≠ mid ∧ ws ∈ σ.listed ∧ σ.IsAgent ws mid')
    (h : Registry sha256hex σ) : Registry sha256hex σ' := by
  have was : σ.row mid = some m.tokenSum := by simp [State.row, hm]
  have row (id) : σ'.row id = if id = mid then none else σ.row id := by
    rw [hk.row]
    simp only [State.row, record, h₁, GoMap.get?_delete]
    split <;> rfl
  have tok (sum) : σ'.tok.get? sum = if sum = m.tokenSum then none else σ.tok.get? sum := by
    rw [hk.tok]
    simp [record, h₁]
  have enrolled : σ'.enrolled = σ.enrolled := by
    rw [hk.enrolled, h₁]
    rfl
  constructor
  case tok =>
    intro sum id
    rw [tok, row]
    split
    case isTrue hs =>
      refine iff_of_false (by simp) fun hr => ?_
      split at hr
      case isTrue => contradiction
      case isFalse hi =>
        have same := (h.tok.mpr (hs ▸ hr)).symm.trans (h.tok.mpr was)
        exact hi (Option.some.inj same)
    case isFalse hs =>
      split
      case isFalse => exact h.tok
      case isTrue hi =>
        refine iff_of_false (fun ht => ?_) (by simp)
        have same := (h.tok.mp ht).symm.trans (hi ▸ was)
        exact hs (Option.some.inj same)
  case enrolled =>
    intro id sum hr
    rw [row] at hr
    split at hr
    case isTrue  => contradiction
    case isFalse => exact enrolled ▸ h.enrolled hr
  case agents =>
    intro ws mid' hl ha
    have ⟨hne, hl, ha⟩ := agents hl ha
    rw [row, if_neg hne]
    exact h.agents hl ha
  case deleted =>
    intro mid' hd
    rw [enrolled, row]
    have deletions : σ'.deletions = mid :: σ.deletions := by
      rw [hk.deletions, h₁]
      rfl
    rw [deletions] at hd
    cases hd
    case head =>
      have ⟨token, ht, _⟩ := h.enrolled was
      exact ⟨List.mem_map.mpr ⟨_, ht, rfl⟩, if_pos rfl⟩
    case tail hd =>
      have ⟨ids, gone⟩ := h.deleted hd
      exact ⟨ids, by rw [gone, ite_self]⟩

-- The machine that is enrolled is new in the rows and in the index.
theorem enrol (hs : m.tokenSum = sha256hex token)
    (h' : σ' = { σ with
      machine := σ.machine.set m.id m
      tok     := σ.tok.set m.tokenSum m.id }.record (.enrolled m.id token))
    (hf : σ'.Fresh sha256hex) (h : Registry sha256hex σ) : Registry sha256hex σ' := by
  have enrolled : σ'.enrolled = (m.id, token) :: σ.enrolled := by rw [h']; rfl
  have ⟨ids, tokens, apart⟩ := hf
  rw [enrolled] at ids tokens apart
  have ⟨new_id, _⟩ := List.nodup_cons.mp ids
  have ⟨new_token, _⟩ := List.nodup_cons.mp tokens
  have no_row : σ.row m.id = none := by
    by_contra hr
    have ⟨sum, hr⟩ := Option.ne_none_iff_exists'.mp hr
    have ⟨token', ht, _⟩ := h.enrolled hr
    exact new_id (List.mem_map.mpr ⟨_, ht, rfl⟩)
  have no_sum {id} : σ.row id ≠ some m.tokenSum := by
    intro hr
    have ⟨token', ht, sum⟩ := h.enrolled hr
    have mem : token' ∈ σ.enrolled.map (·.2) := List.mem_map.mpr ⟨_, ht, rfl⟩
    have same : token = token' :=
      apart token List.mem_cons_self token' (List.mem_cons_of_mem _ mem) (hs.symm.trans sum)
    exact new_token (same ▸ mem)
  have row (id) : σ'.row id = if id = m.id then some m.tokenSum else σ.row id := by
    simp only [State.row, record, h', GoMap.get?_set]
    split <;> rfl
  have tok (sum) : σ'.tok.get? sum = if sum = m.tokenSum then some m.id else σ.tok.get? sum := by
    simp [record, h']
  constructor
  case tok =>
    intro sum id
    rw [tok, row]
    split
    case isTrue hs =>
      split
      case isTrue hi  => simp [hs, hi]
      case isFalse hi => exact iff_of_false (by simp [Ne.symm hi]) (hs ▸ no_sum)
    case isFalse hs =>
      split
      case isFalse => exact h.tok
      case isTrue hi =>
        refine iff_of_false (fun ht => ?_) (by simp [Ne.symm hs])
        have had := h.tok.mp ht
        simp [hi, no_row] at had
  case enrolled =>
    intro id sum hr
    rw [row] at hr
    rw [enrolled]
    split at hr
    case isTrue hi =>
      cases hr
      exact ⟨token, hi ▸ List.mem_cons_self, hs⟩
    case isFalse =>
      have ⟨token', ht, sum⟩ := h.enrolled hr
      exact ⟨token', List.mem_cons_of_mem _ ht, sum⟩
  case agents =>
    intro ws mid hl ha
    subst h'
    rw [row]
    split
    case isTrue  => rfl
    case isFalse => exact h.agents hl ha
  case deleted =>
    intro mid hd
    have deletions : σ'.deletions = σ.deletions := by rw [h']; rfl
    have ⟨id, gone⟩ := h.deleted (deletions ▸ hd)
    rw [enrolled, row]
    split
    case isTrue hi => exact absurd (hi ▸ id) new_id
    case isFalse   => exact ⟨List.mem_cons_of_mem _ id, gone⟩

theorem start (e : start σ r = some (σ', ops)) (hs : Sound σ) (h : Registry sha256hex σ) :
    Registry sha256hex σ' := by
  cases start_cases hs e
  case inl actions => exact h.actions actions
  case inr hc =>
    obtain ⟨mid, m, σ₁, σ₂, hm, h₁, actions, no_agent, rfl⟩ := hc
    have same := Kept.of_actions actions
    have log : (σ₂.record (.deleted mid)).log = (σ₁.record (.deleted mid)).log :=
      congrArg (List.cons _) actions.log
    refine h.delete hm h₁ ⟨same.tok, same.row, ?_, ?_⟩ fun {ws mid'} hl ha => ⟨?_, ?_⟩
    case refine_1 => rw [State.enrolled, log, State.enrolled]
    case refine_2 => rw [State.deletions, log, State.deletions]
    case refine_3 => rintro rfl; exact no_agent ws hl ha
    case refine_4 => subst h₁; exact actions.of_isAgent hl ha

theorem accepted {sid k : String} {p : Pend} (h : Registry sha256hex σ) :
    Registry sha256hex (attachTerm σ sid k p) := by
  have ⟨σ', o, eq, sends, _⟩ := attachTerm_cases σ sid k p
  have opened : Kept σ (Worker.registered σ sid p) := ⟨rfl, fun _ => rfl, rfl, rfl⟩
  have same := opened.trans (.of_frames sends.toFrames)
  refine eq ▸ h.kept ⟨same.tok, same.row, same.enrolled, same.deletions⟩ fun {ws mid} hl ha => ?_
  have ⟨_, ha⟩ := ha
  have agent : (Worker.registered σ sid p).IsAgent ws mid := ⟨_, sends.attachment ws ▸ ha⟩
  have ⟨hl, ha⟩ := of_accept_isAgent (fun _ _ => Attachment.noConfusion) (sends.listed ▸ hl) agent
  exact h.agents hl ha

-- The agent that said hello is of a machine that the index finds.
theorem greeted {seen : Time} (hm : (σ.row mid).isSome) (hs : Sound σ) (h : Registry sha256hex σ) :
    Registry sha256hex ((replace σ mid).attach ws (.agent mid seen)) := by
  have same : Kept σ (replace σ mid) := .of_frames hs.replace_frames
  refine h.kept ⟨same.tok, same.row, same.enrolled, same.deletions⟩ fun {ws' mid'} hl ha => ?_
  have ⟨_, ha⟩ := ha
  rw [attachment_attach] at ha
  split at ha
  case isTrue  => cases ha; exact hm
  case isFalse => exact h.agents (hs.replace_frames.listed ▸ hl) (hs.of_replace_isAgent ⟨_, ha⟩)

theorem exec (e : Exec sha256hex σ op σ' ops) (hf : σ'.Fresh sha256hex)
    (ht : ∀ m token, op = .tokensPut m token → m.tokenSum = sha256hex token) (ho : op.OfAgent)
    (hs : Sound σ) (h : Registry sha256hex σ) : Registry sha256hex σ' := by
  cases e
  case enrolled m token => exact h.enrol (ht m token rfl) rfl hf
  case minted => exact .actions armAlarm_actions ⟨h.tok, h.enrolled, h.agents, h.deleted⟩
  case accepted => exact h.accepted
  case hello ws m token =>
    cases helloDigest_actions fun _ _ => hs.not_term ho
    case inl sends => exact h.actions (.single (.sends sends))
    case inr hc =>
      obtain ⟨mid, hm, actions⟩ := hc
      have found : (σ.row mid).isSome := by rw [h.tok.mp hm]; rfl
      exact (h.greeted found hs).actions actions
  all_goals exact ⟨h.tok, h.enrolled, h.agents, h.deleted⟩

end Registry

theorem State.Fresh.of_log (hl : σ.log <:+ σ'.log) (h : σ'.Fresh sha256hex) :
    σ.Fresh sha256hex := by
  have enrolled : σ.enrolled.Sublist σ'.enrolled := hl.sublist.filterMap _
  have subset := (enrolled.map (·.2)).subset
  exact ⟨h.ids.sublist (enrolled.map _), h.tokens.sublist (enrolled.map _),
    fun t ht t' ht' => h.apart t (subset ht) t' (subset ht')⟩

-- The digest of the token goes with it until the machine is enrolled.
def Op.Digested (sha256hex : String → String) : Op → Prop
  | .tokensPut m token => m.tokenSum = sha256hex token
  | _                  => True

theorem Exec.ops_digested (e : Exec sha256hex σ op σ' ops) : ∀ o ∈ ops, o.Digested sha256hex := by
  cases e <;> simp [Op.Digested]

theorem registry_reachable (h : (program sha256hex).system.Reachable c) :
    c.shared.Fresh sha256hex → Registry sha256hex c.shared := by
  have invariant := section_invariant (P := program sha256hex)
    (I := fun σ => Sound σ ∧ (σ.Fresh sha256hex → Registry sha256hex σ))
    (A := fun _ o => o.OfAgent ∧ o.Digested sha256hex) (R := fun _ _ => True) ?_ ?_ ?_ ?_ h
  case refine_1 =>
    rintro σ ⟨now, rfl⟩
    refine ⟨⟨by simp [attachment], by simp⟩, fun _ => ?_⟩
    exact ⟨by simp [row], by simp [row], by simp, by simp [State.deletions]⟩
  case refine_2 =>
    rintro σ r σ' ops ⟨hs, h⟩ e
    have grown := start_log_suffix hs e
    refine ⟨⟨hs.start e, fun hf => (h (hf.of_log grown)).start e hs⟩, trivial, fun o ho => ?_⟩
    obtain ⟨_, _, started⟩ := Started.of e ho
    cases started
    case hello ha _ => exact ⟨hs.tagged ha, trivial⟩
    all_goals exact ⟨trivial, trivial⟩
  case refine_3 =>
    rintro c _ i op _ σ' ops _ _ _ ⟨hs, h⟩ ⟨ho, hd⟩ e
    replace e := Exec.of e
    have digested (m token) (he : op = .tokensPut m token) : m.tokenSum = sha256hex token :=
      (he ▸ hd : (Op.tokensPut m token).Digested sha256hex)
    refine ⟨⟨e.sound hs ho, fun hf => ?_⟩, trivial, fun o hm => ?_⟩
    case refine_1 => exact (h (hf.of_log (e.log_suffix hs ho))).exec e hf digested ho hs
    case refine_2 => exact ⟨e.ops_ofAgent o hm, e.ops_digested o hm⟩
  case refine_4 => exact fun _ _ _ _ _ => id
  exact invariant.left.right

-- The index and the rows agree, and the machines that were deleted have no row and no agent.
theorem registry (h : (program sha256hex).system.Reachable c) (hf : c.shared.Fresh sha256hex) :
    (∀ sum id, c.shared.tok.get? sum = some id ↔
      ∃ m, c.shared.machine.get? id = some m ∧ m.tokenSum = sum) ∧
    (∀ ws mid, ws ∈ c.shared.listed → c.shared.IsAgent ws mid →
      (c.shared.machine.get? mid).isSome) ∧
    (∀ mid ∈ c.shared.deletions, c.shared.machine.get? mid = none ∧
      ∀ ws ∈ c.shared.listed, ¬c.shared.IsAgent ws mid) := by
  have registry := registry_reachable h hf
  have agents {ws mid} (hl : ws ∈ c.shared.listed) (ha : c.shared.IsAgent ws mid) :
      (c.shared.machine.get? mid).isSome := by
    simpa [row] using registry.agents hl ha
  refine ⟨fun sum id => ?_, fun _ _ => agents, fun mid hd => ?_⟩
  case refine_1 => exact registry.tok.trans Option.map_eq_some_iff
  case refine_2 =>
    have gone : c.shared.machine.get? mid = none :=
      Option.map_eq_none_iff.mp (registry.deleted hd).right
    refine ⟨gone, fun ws hl ha => ?_⟩
    have found := agents hl ha
    simp [gone] at found

-- The agent is online when its machine is deleted, and another hello of it is under way.
theorem registry_sample :
    let m : Json := .obj [("t", .str "hello"), ("token", .str "e1"), ("e2e", .bool true)]
    let ls : List (Label Req Input) := [
      .start 0 .apiTokens, .step 0 (.body none "5c" "e1"), .step 0 .done,
      .start 0 .upgradeAgent, .start 1 (.webSocketMessage ⟨0, [.agent]⟩ (some m)), .step 1 .done,
      .start 0 .upgradeAgent, .start 1 (.webSocketMessage ⟨1, [.agent]⟩ (some m)),
      .start 0 (.apiDelete "5c"), .step 1 .done]
    ∃ c, (program id).system.run initial ls = some c ∧ c.shared.deletions = ["5c"] ∧
      c.shared.machine.get? "5c" = none ∧ ∀ ws ∈ c.shared.listed, ¬c.shared.IsAgent ws "5c" := by
  intro m ls
  cases e : (program id).system.run initial ls
  case none => contradiction
  case some c =>
    have reachable := Transition.Reachable.run (.init initial_init) e
    have enrolled : c.shared.enrolled = [("5c", "e1")] :=
      Transition.eq_of_run (f := (·.shared.enrolled)) e (by decide)
    have deletions : c.shared.deletions = ["5c"] :=
      Transition.eq_of_run (f := (·.shared.deletions)) e (by decide)
    have fresh : c.shared.Fresh id := ⟨by simp [enrolled], by simp [enrolled], by simp⟩
    have ⟨_, _, gone⟩ := registry reachable fresh
    exact ⟨c, rfl, deletions, gone "5c" (by simp [deletions])⟩

end Worker
