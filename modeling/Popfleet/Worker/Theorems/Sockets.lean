import Popfleet.Worker.Theorems.Actions
import Popfleet.Worker.Theorems.Exec

open Program

namespace Worker

open State

-- The tags that a socket has for its attachment.
def Attachment.Tagged (ws : Ws) : Attachment → Prop
  | .term sid mid => ws.tags = [.term, .sid sid, .mid mid]
  | _             => ws.tags = [.agent]

-- No two sockets that are listed belong to agents of one machine.
structure Sound (σ : State) : Prop where
  tagged : ∀ {ws a}, σ.attachment ws = some a → a.Tagged ws
  single : ∀ {ws ws' mid}, ws ∈ σ.listed → ws' ∈ σ.listed → σ.IsAgent ws mid → σ.IsAgent ws' mid →
    ws = ws'

variable {σ σ' : State} {ws ws' : Ws} {mid mid' sid why sum k : String} {m : Json} {a : Attachment}
  {p : Pend} {tags : List Tag}

namespace Sound

theorem tags_of_isAgent (h : Sound σ) (ha : σ.IsAgent ws mid) : ws.tags = [.agent] := by
  have ⟨_, ha⟩ := ha
  exact h.tagged ha

theorem not_term (h : Sound σ) (ht : ws.tags = [.agent]) :
    σ.attachment ws ≠ some (.term sid mid) := by
  intro ha
  have tags : ws.tags = [.term, .sid sid, .mid mid] := h.tagged ha
  simp [ht] at tags

theorem mem_of_agentSocket (h : Sound σ) (hs : σ.agentSocket mid = some ws) :
    ws ∈ σ.listed ∧ σ.IsAgent ws mid := by
  have listed := List.mem_of_find?_eq_some hs
  have found : σ.mid ws = some mid := by simpa using List.find?_some hs
  simp only [getWebSockets, List.mem_filter, decide_eq_true_eq] at listed
  obtain ⟨a, ha, hm⟩ := Option.bind_eq_some_iff.mp found
  refine ⟨listed.left, ?_⟩
  cases a
  case agent _ seen => cases hm; exact ⟨seen, ha⟩
  case term sid _ =>
    have tags : ws.tags = [.term, .sid sid, .mid _] := h.tagged ha
    simp [tags] at listed
  all_goals contradiction

theorem not_isAgent_of_agentSocket (h : Sound σ) (hs : σ.agentSocket mid = none)
    (hl : ws ∈ σ.listed) : ¬σ.IsAgent ws mid := by
  intro ha
  have listed : ws ∈ σ.getWebSockets .agent := by
    simp [getWebSockets, hl, h.tags_of_isAgent ha]
  obtain ⟨_, ha⟩ := ha
  have := List.find?_eq_none.mp hs ws listed
  simp [State.mid, ha, Attachment.mid] at this

theorem mem_termSockets (h : Sound σ) (hl : ws ∈ σ.listed)
    (ha : σ.attachment ws = some (.term sid mid)) : ws ∈ σ.termSockets (some mid) := by
  have tags : ws.tags = [.term, .sid sid, .mid mid] := h.tagged ha
  simp [termSockets, getWebSockets, hl, tags, State.mid, ha, Attachment.mid]

-- Fewer agents than before.
theorem of_fewer (tagged : ∀ {ws a}, σ'.attachment ws = some a → a.Tagged ws)
    (fewer : ∀ {ws mid}, ws ∈ σ'.listed → σ'.IsAgent ws mid → ws ∈ σ.listed ∧ σ.IsAgent ws mid)
    (h : Sound σ) : Sound σ' := by
  refine ⟨tagged, fun hl hl' ha ha' => ?_⟩
  have ⟨hl, ha⟩ := fewer hl ha
  have ⟨hl', ha'⟩ := fewer hl' ha'
  exact h.single hl hl' ha ha'

theorem sends (hs : Sends σ σ') (h : Sound σ) : Sound σ' := by
  refine h.of_fewer (fun ha => h.tagged (hs.attachment _ ▸ ha)) fun hl ⟨seen, ha⟩ => ?_
  exact ⟨hs.listed ▸ hl, seen, hs.attachment _ ▸ ha⟩

end Sound

-- A new socket with its attachment.

theorem accept_listed : ((σ.accept tags).1.attach (σ.accept tags).2 a).listed =
    σ.listed ++ [(σ.accept tags).2] :=
  rfl

theorem accept_socks :
    ((σ.accept tags).1.attach (σ.accept tags).2 a).socks ws =
      if ws = (σ.accept tags).2 then { attachment := some a } else σ.socks ws := by
  rw [attach, socks_setSock, State.accept, socks_setSock, socks_setSock, if_pos rfl]
  split
  case isTrue    => rfl
  case isFalse h => rfl

theorem accept_attachment :
    ((σ.accept tags).1.attach (σ.accept tags).2 a).attachment ws =
      if ws = (σ.accept tags).2 then some a else σ.attachment ws := by
  rw [attachment, accept_socks]
  split <;> rfl

theorem of_accept_isAgent (hn : ∀ mid seen, a ≠ .agent mid seen)
    (hl : ws ∈ ((σ.accept tags).1.attach (σ.accept tags).2 a).listed)
    (ha : ((σ.accept tags).1.attach (σ.accept tags).2 a).IsAgent ws mid) :
    ws ∈ σ.listed ∧ σ.IsAgent ws mid := by
  have ⟨seen, ha⟩ := ha
  rw [accept_attachment] at ha
  split at ha
  case isTrue => exact absurd (Option.some.inj ha) (hn mid seen)
  case isFalse hne =>
    rw [accept_listed, List.mem_append, List.mem_singleton] at hl
    exact ⟨hl.resolve_right hne, seen, ha⟩

theorem Sound.accept (hn : ∀ mid seen, a ≠ .agent mid seen) (ht : a.Tagged (σ.accept tags).2)
    (h : Sound σ) : Sound ((σ.accept tags).1.attach (σ.accept tags).2 a) := by
  refine h.of_fewer (fun {ws a'} ha => ?_) (of_accept_isAgent hn)
  rw [accept_attachment] at ha
  split at ha
  case isTrue he => cases ha; exact he ▸ ht
  case isFalse   => exact h.tagged ha

-- An action makes no socket an agent's.

theorem State.Drops.of_isAgent {old : Ws} (hd : Drops σ σ' old mid) (ha : σ'.IsAgent ws mid') :
    ws ≠ old ∧ σ.IsAgent ws mid' := by
  have ⟨seen, ha⟩ := ha
  rw [hd.attachment] at ha
  split at ha
  case isTrue      => cases ha
  case isFalse hne => exact ⟨hne, seen, ha⟩

theorem of_seen_isAgent {seen : Time} (h : σ.IsAgent ws mid)
    (ha : (σ.attach ws (.agent mid seen)).IsAgent ws' mid') : σ.IsAgent ws' mid' := by
  have ⟨seen', ha⟩ := ha
  rw [attachment_attach] at ha
  split at ha
  case isTrue he => cases ha; exact he ▸ h
  case isFalse   => exact ⟨seen', ha⟩

theorem Action.of_isAgent (h : Action σ σ') (hl : ws ∈ σ'.listed) (ha : σ'.IsAgent ws mid) :
    ws ∈ σ.listed ∧ σ.IsAgent ws mid := by
  cases h
  case sends hs =>
    have ⟨_, ha⟩ := ha
    exact ⟨hs.listed ▸ hl, _, hs.attachment ws ▸ ha⟩
  case drop old mid' why h =>
    have drops : Drops σ (σ.dropAgent old why) old mid' := dropAgent_drops h
    exact ⟨drops.listed ▸ hl, (drops.of_isAgent ha).right⟩
  case seen h => exact ⟨hl, of_seen_isAgent h ha⟩
  case accept => exact of_accept_isAgent (fun _ _ => Attachment.noConfusion) hl ha
  case unlist => exact ⟨List.mem_of_mem_filter hl, ha⟩
  all_goals exact ⟨hl, ha⟩

theorem Actions.of_isAgent (h : Actions σ σ') (hl : ws ∈ σ'.listed) (ha : σ'.IsAgent ws mid) :
    ws ∈ σ.listed ∧ σ.IsAgent ws mid := by
  induction h
  case refl => exact ⟨hl, ha⟩
  case tail _ action hi =>
    have before := action.of_isAgent hl ha
    exact hi before.left before.right

theorem Sound.drops {old : Ws} (hd : Drops σ σ' old mid) (ho : σ.IsAgent old mid) (h : Sound σ) :
    Sound σ' := by
  refine h.of_fewer (fun {ws a} ha => ?_) fun hl ha => ⟨hd.listed ▸ hl, (hd.of_isAgent ha).right⟩
  rw [hd.attachment] at ha
  split at ha
  case isTrue he => cases ha; exact he ▸ h.tags_of_isAgent ho
  case isFalse   => exact h.tagged ha

theorem Sound.action (ha : Action σ σ') (h : Sound σ) : Sound σ' := by
  have fewer {ws mid} (hl : ws ∈ σ'.listed) (ha' : σ'.IsAgent ws mid) := ha.of_isAgent hl ha'
  cases ha
  case sends hs => exact h.sends hs
  case drop ha  => exact h.drops (dropAgent_drops ha) ha
  case seen ha =>
    refine h.of_fewer (fun {ws a} h' => ?_) fewer
    rw [attachment_attach] at h'
    split at h'
    case isTrue he => cases h'; exact he ▸ h.tags_of_isAgent ha
    case isFalse   => exact h.tagged h'
  case accept => exact h.accept (fun _ _ => Attachment.noConfusion) rfl
  case unlist => exact h.of_fewer h.tagged fewer
  all_goals exact ⟨h.tagged, h.single⟩

theorem Sound.actions (ha : Actions σ σ') (h : Sound σ) : Sound σ' :=
  ha.invariant (fun _ _ ha h => h.action ha) h

-- The zombie that is replaced.

theorem replace_of_none (hs : σ.agentSocket mid = none) : replace σ mid = σ := by
  simp only [replace, hs]

theorem Sound.replace_frames (h : Sound σ) : Frames σ (replace σ mid) := by
  cases hs : σ.agentSocket mid
  case none => rw [replace_of_none hs]; exact .refl
  case some => exact (replace_drops (h.mem_of_agentSocket hs).right hs).toFrames

theorem Sound.replace_attachment (h : Sound σ) (ha : ¬σ.IsAgent ws mid) :
    (replace σ mid).attachment ws = σ.attachment ws := by
  cases hs : σ.agentSocket mid
  case none => rw [replace_of_none hs]
  case some old =>
    have agent := (h.mem_of_agentSocket hs).right
    have hne : ws ≠ old := fun he => ha (he ▸ agent)
    rw [(replace_drops agent hs).attachment, if_neg hne]

theorem Sound.of_replace_isAgent (h : Sound σ) (ha : (Worker.replace σ mid).IsAgent ws mid') :
    σ.IsAgent ws mid' := by
  cases hs : σ.agentSocket mid
  case none => exact replace_of_none hs ▸ ha
  case some => exact ((replace_drops (h.mem_of_agentSocket hs).right hs).of_isAgent ha).right

theorem Sound.replace (h : Sound σ) (mid : String) :
    Sound (replace σ mid) ∧ ∀ ws ∈ σ.listed, ¬(Worker.replace σ mid).IsAgent ws mid := by
  cases hs : σ.agentSocket mid
  case none =>
    rw [replace_of_none hs]
    exact ⟨h, fun _ => h.not_isAgent_of_agentSocket hs⟩
  case some old =>
    have ⟨listed, agent⟩ := h.mem_of_agentSocket hs
    have drops := replace_drops agent hs
    refine ⟨h.drops drops agent, fun ws hl ha => ?_⟩
    have ⟨hne, ha⟩ := drops.of_isAgent ha
    exact hne (h.single hl listed ha agent)

-- A new agent of a machine that has none.
theorem Sound.attachAgent {seen : Time} (ht : ws.tags = [.agent])
    (hn : ∀ ws ∈ σ.listed, ¬σ.IsAgent ws mid) (h : Sound σ) :
    Sound (σ.attach ws (.agent mid seen)) := by
  have other {ws' mid'} (hne : ws' ≠ ws) (ha : (σ.attach ws (.agent mid seen)).IsAgent ws' mid') :
      σ.IsAgent ws' mid' := by
    have ⟨seen', ha⟩ := ha
    rw [attachment_attach, if_neg hne] at ha
    exact ⟨seen', ha⟩
  have self {mid'} (ha : (σ.attach ws (.agent mid seen)).IsAgent ws mid') : mid' = mid := by
    have ⟨_, ha⟩ := ha
    rw [attachment_attach, if_pos rfl] at ha
    cases ha
    rfl
  constructor
  case tagged =>
    intro ws' a ha
    rw [attachment_attach] at ha
    split at ha
    case isTrue he => cases ha; exact he ▸ ht
    case isFalse   => exact h.tagged ha
  case single =>
    intro ws₁ ws₂ mid' h₁ h₂ a₁ a₂
    by_cases e₁ : ws₁ = ws
    case pos =>
      subst e₁
      by_contra hne
      exact hn ws₂ h₂ (self a₁ ▸ other (Ne.symm hne) a₂)
    case neg =>
      by_cases e₂ : ws₂ = ws
      case pos =>
        subst e₂
        exact absurd (self a₂ ▸ other e₁ a₁) (hn ws₁ h₁)
      case neg => exact h.single h₁ h₂ (other e₁ a₁) (other e₂ a₂)

theorem Sound.greeted {seen : Time} (ht : ws.tags = [.agent]) (h : Sound σ) :
    Sound ((Worker.replace σ mid).attach ws (.agent mid seen)) := by
  have ⟨replaced, no_agent⟩ := h.replace mid
  exact replaced.attachAgent ht fun ws hl => no_agent ws (h.replace_frames.listed ▸ hl)

-- `hello` with a digest makes the socket an agent of the machine that it finds, or sends and closes.
theorem helloDigest_actions (ht : ∀ sid mid, σ.attachment ws ≠ some (.term sid mid)) :
    Sends σ (helloDigest σ ws m sum) ∨
    ∃ mid, σ.tok.get? sum = some mid ∧
      Actions ((replace σ mid).attach ws (.agent mid σ.now)) (helloDigest σ ws m sum) := by
  unfold helloDigest
  dsimp only
  split
  case h_1 => exact .inl (sends_close fun _ _ ha => absurd ha (ht _ _))
  case h_2 mid hm =>
    split
    case isFalse => exact .inl (sends_wsSend_close (.inl rfl))
    case isTrue =>
      refine .inr ⟨mid, hm, ?_⟩
      split
      case h_1   => exact .head (.sends sends_wsSend) armAlarm_actions
      case h_2 h =>
        refine .head (.touch h ?_) (.head (.sends sends_wsSend) armAlarm_actions)
        rfl

-- `upgradeTerm` once it has registered its terminal.
def registered (σ : State) (sid : String) (p : Pend) : State :=
  let (σ', ws) := { σ with pend := σ.pend.delete sid }.accept [.term, .sid sid, .mid p.mid]
  σ'.attach ws (.term sid p.mid)

def terminal (σ : State) (sid : String) (p : Pend) : Ws :=
  { ptr := σ.next, tags := [.term, .sid sid, .mid p.mid] }

theorem registered_attachment :
    (registered σ sid p).attachment ws =
      if ws = terminal σ sid p then some (.term sid p.mid) else σ.attachment ws :=
  accept_attachment

theorem Sound.registered (h : Sound σ) : Sound (registered σ sid p) := by
  have deleted : Sound { σ with pend := σ.pend.delete sid } := ⟨h.tagged, h.single⟩
  exact deleted.accept (fun _ _ => Attachment.noConfusion) rfl

-- The terminal that is registered is closed again where there is no agent.
theorem attachTerm_cases (σ : State) (sid k : String) (p : Pend) :
    ∃ σ' o, attachTerm σ sid k p = σ'.record (.accepted sid k o) ∧
      Sends (registered σ sid p) σ' ∧
      ((o = none ∧ (σ'.socks (terminal σ sid p)).closed.isSome) ∨
        (o = some p.cmd ∧ ∃ agent, (registered σ sid p).agentSocket p.mid = some agent)) := by
  unfold attachTerm
  dsimp only
  split
  case h_1 =>
    exact ⟨_, none, rfl, sends_wsSend.trans (sends_wsSend_close (.inl rfl)),
      .inl ⟨rfl, close_closed⟩⟩
  case h_2 agent hs =>
    exact ⟨_, some p.cmd, rfl, sends_wsSend.trans sends_wsSend,
      .inr ⟨rfl, agent, sends_wsSend.agentSocket ▸ hs⟩⟩

-- A request is made of actions. A deletion takes the machine out of the storage first, and leaves it no
-- agent.
theorem start_cases {r : Req} {ops : List Op} (hs : Sound σ) (e : start σ r = some (σ', ops)) :
    Actions σ σ' ∨
    ∃ mid m σ₁ σ₂, σ.machine.get? mid = some m ∧
      σ₁ = { σ with machine := σ.machine.delete mid, tok := σ.tok.delete m.tokenSum } ∧
      Actions σ₁ σ₂ ∧ (∀ ws ∈ σ₂.listed, ¬σ₂.IsAgent ws mid) ∧ σ' = σ₂.record (.deleted mid) := by
  by_cases hr : ∃ mid, r = .apiDelete mid
  case neg => exact .inl (start_actions e fun mid he => hr ⟨mid, he⟩)
  case pos =>
    obtain ⟨mid, rfl⟩ := hr
    simp only [start] at e
    split at e
    case h_1 => cases e; exact .inl .refl
    case h_2 m hm =>
      have sound : Sound { σ with
          machine := σ.machine.delete mid, tok := σ.tok.delete m.tokenSum } :=
        ⟨hs.tagged, hs.single⟩
      split at e <;> cases e
      case h_1 none =>
        refine .inr ⟨mid, m, _, _, hm, rfl, .refl, fun ws => ?_, rfl⟩
        exact sound.not_isAgent_of_agentSocket none
      case h_2 old found =>
        obtain ⟨listed, agent⟩ := sound.mem_of_agentSocket found
        have drops : Drops _ (dropAgent _ old "machine revoked") old mid := dropAgent_drops agent
        refine .inr ⟨mid, m, _, _, hm, rfl, .single (.drop agent), fun ws hl ha => ?_, rfl⟩
        obtain ⟨hne, ha⟩ := drops.of_isAgent ha
        exact hne (sound.single (drops.listed ▸ hl) listed ha agent)

theorem Sound.start {r : Req} {ops : List Op} (h : Sound σ) (e : start σ r = some (σ', ops)) :
    Sound σ' := by
  cases start_cases h e
  case inl actions => exact h.actions actions
  case inr hc =>
    obtain ⟨_, _, σ₁, σ₂, _, rfl, actions, _, rfl⟩ := hc
    have sound : Sound σ₂ := .actions actions ⟨h.tagged, h.single⟩
    exact ⟨sound.tagged, sound.single⟩

-- The socket of a `hello` is an agent's.
def Op.OfAgent : Op → Prop
  | .hello ws _ => ws.tags = [.agent]
  | _           => True

theorem Exec.sound {sha256hex : String → String} {op : Op} {ops : List Op}
    (e : Exec sha256hex σ op σ' ops) (h : Sound σ) (ho : op.OfAgent) : Sound σ' := by
  cases e
  case minted => exact .actions armAlarm_actions ⟨h.tagged, h.single⟩
  case accepted sid k pend p _ =>
    have ⟨σ', o, eq, sends, _⟩ := attachTerm_cases σ sid k p
    have opened := h.registered.sends sends
    exact eq ▸ ⟨opened.tagged, opened.single⟩
  case hello ws m token =>
    cases helloDigest_actions fun _ _ => h.not_term ho
    case inl sends => exact h.sends sends
    case inr hc =>
      obtain ⟨mid, _, actions⟩ := hc
      exact (h.greeted ho).actions actions
  all_goals exact ⟨h.tagged, h.single⟩

theorem Exec.ops_ofAgent {sha256hex : String → String} {op : Op} {ops : List Op}
    (e : Exec sha256hex σ op σ' ops) : ∀ o ∈ ops, o.OfAgent := by
  cases e <;> simp [Op.OfAgent]

-- The log grows.

theorem helloDigest_log (ht : ws.tags = [.agent]) (h : Sound σ) :
    (helloDigest σ ws m sum).log = σ.log := by
  cases helloDigest_actions fun _ _ => h.not_term ht
  case inl sends => exact congrArg (·.log) sends.rest
  case inr hc =>
    obtain ⟨mid, _, actions⟩ := hc
    exact actions.log.trans (congrArg (·.log) h.replace_frames.rest)

theorem attachTerm_log (σ : State) (sid k : String) (p : Pend) :
    ∃ o, (attachTerm σ sid k p).log = .accepted sid k o :: σ.log ∧ (o = none ∨ o = some p.cmd) := by
  have ⟨σ', o, eq, sends, cases⟩ := attachTerm_cases σ sid k p
  have log : σ'.log = σ.log := congrArg (·.log) sends.rest
  exact ⟨o, eq ▸ congrArg (List.cons _) log, cases.imp And.left And.left⟩

theorem start_log_suffix {r : Req} {ops : List Op} (h : Sound σ)
    (e : start σ r = some (σ', ops)) : σ.log <:+ σ'.log := by
  cases start_cases h e
  case inl actions => exact actions.log ▸ List.suffix_refl _
  case inr h =>
    obtain ⟨mid, _, σ₁, σ₂, _, rfl, actions, _, rfl⟩ := h
    have log : (σ₂.record (.deleted mid)).log = .deleted mid :: σ.log :=
      congrArg (List.cons _) actions.log
    exact log ▸ List.suffix_cons ..

theorem Exec.log_suffix {sha256hex : String → String} {op : Op} {ops : List Op}
    (e : Exec sha256hex σ op σ' ops) (h : Sound σ) (ho : op.OfAgent) : σ.log <:+ σ'.log := by
  cases e
  case enrolled => exact List.suffix_cons ..
  case minted =>
    rw [armAlarm_actions.log]
    exact List.suffix_cons ..
  case accepted sid k _ p _ =>
    have ⟨o, log, _⟩ := attachTerm_log σ sid k p
    exact log ▸ List.suffix_cons ..
  case hello => exact helloDigest_log ho h ▸ List.suffix_refl _
  all_goals exact List.suffix_refl _

theorem sound_reachable {sha256hex : String → String} {c : Config State Op}
    (h : (program sha256hex).system.Reachable c) :
    Sound c.shared ∧ ∀ o, c.Pending o → o.OfAgent := by
  refine section_invariant (P := program sha256hex) (I := Sound) (A := fun _ => Op.OfAgent)
    (R := fun _ _ => True) ?_ ?_ ?_ ?_ h
  case refine_1 =>
    rintro σ ⟨now, rfl⟩
    exact ⟨by simp [attachment], by simp⟩
  case refine_2 =>
    intro σ r σ' ops h e
    refine ⟨h.start e, trivial, fun o ho => ?_⟩
    obtain ⟨_, _, started⟩ := Started.of e ho
    cases started
    case hello hl ha _ => exact h.tagged ha
    all_goals trivial
  case refine_3 =>
    intro c _ i op _ σ' ops _ _ _ h ho e
    replace e := Exec.of e
    exact ⟨e.sound h ho, trivial, e.ops_ofAgent⟩
  case refine_4 => exact fun _ _ _ _ _ => id

-- Machine 5c is enrolled and its agent online.
def sampleAgent : List (Label Req Input) :=
  let m : Json := .obj [("t", .str "hello"), ("token", .str "e1"), ("e2e", .bool true)]
  [.start 0 .apiTokens, .step 0 (.body none "5c" "e1"), .step 0 .done, .start 0 .upgradeAgent,
    .start 0 (.webSocketMessage ⟨0, [.agent]⟩ (some m)), .step 0 .done]

end Worker
