import Popfleet.Worker.Theorems.Sockets

open Program

namespace Worker

open State

-- The sid was accepted no more than once.
def State.Once (σ : State) (sid : String) : Prop :=
  (σ.accepts.filter (·.1 = sid)).length ≤ 1

-- The terminals are those of the sessions that were accepted, one for each time.
structure Terms (σ : State) : Prop where
  known    : ∀ {ws a}, σ.attachment ws = some a → ws.ptr < σ.next
  tagged   : ∀ {ws sid}, ws ∈ σ.listed → .sid sid ∈ ws.tags →
    ∃ mid, σ.attachment ws = some (.term sid mid)
  accepted : ∀ {ws sid mid}, σ.attachment ws = some (.term sid mid) → sid ∈ σ.accepts.map (·.1)
  single   : ∀ {ws ws' sid mid mid'}, σ.Once sid → σ.attachment ws = some (.term sid mid) →
    σ.attachment ws' = some (.term sid mid') → ws = ws'

variable {σ σ' : State} {ws : Ws} {mid sid k : String} {p : Pend} {o : Option Json}
  {op : Op} {ops : List Op} {c c' : Config State Op} {sha256hex : String → String}

theorem State.Once.of_suffix (hl : σ.log <:+ σ'.log) (h : σ'.Once sid) : σ.Once sid :=
  Nat.le_trans ((hl.filterMap _).sublist.filter _).length_le h

namespace Terms

-- Nothing became a terminal and no session was accepted.
theorem kept (h : Terms σ) (next : σ.next ≤ σ'.next) (log : σ'.accepts = σ.accepts)
    (known : ∀ {ws a}, σ'.attachment ws = some a → (∃ a, σ.attachment ws = some a) ∨ ws.ptr < σ'.next)
    (listed : ∀ {ws}, ws ∈ σ'.listed → ws ∈ σ.listed ∨ ws.tags = [.agent])
    (terms : ∀ {ws sid mid}, σ'.attachment ws = some (.term sid mid) ↔
      σ.attachment ws = some (.term sid mid)) : Terms σ' := by
  constructor
  case known =>
    intro ws a ha
    rcases known ha with ⟨a, ha⟩ | lt
    case inl => exact Nat.lt_of_lt_of_le (h.known ha) next
    case inr => exact lt
  case tagged =>
    intro ws sid hl ht
    rcases listed hl with hl | tags
    case inl =>
      have ⟨mid, ha⟩ := h.tagged hl ht
      exact ⟨mid, terms.mpr ha⟩
    case inr => simp [tags] at ht
  case accepted => exact fun ha => log ▸ h.accepted (terms.mp ha)
  case single =>
    intro ws ws' sid mid mid' once ha ha'
    rw [Once, log] at once
    exact h.single once (terms.mp ha) (terms.mp ha')

theorem frames (hf : Frames σ σ')
    (known : ∀ {ws a}, σ'.attachment ws = some a → ∃ a, σ.attachment ws = some a) (h : Terms σ) :
    Terms σ' := by
  have next : σ'.next = σ.next := congrArg (·.next) hf.rest
  have log : σ'.log = σ.log := congrArg (·.log) hf.rest
  refine h.kept next.ge (by rw [accepts, log, accepts]) (fun ha => .inl (known ha)) ?_ hf.term
  exact fun hl => .inl (hf.listed ▸ hl)

theorem sends (hs : Sends σ σ') (h : Terms σ) : Terms σ' :=
  h.frames hs.toFrames fun {ws a} ha => ⟨a, hs.attachment ws ▸ ha⟩

theorem drops {old : Ws} (hd : Drops σ σ' old mid) (ha : σ.IsAgent old mid) (h : Terms σ) :
    Terms σ' := by
  refine h.frames hd.toFrames fun {ws a} he => ?_
  rw [hd.attachment] at he
  split at he
  case isTrue eq =>
    have ⟨seen, ha⟩ := ha
    exact ⟨_, eq ▸ ha⟩
  case isFalse => exact ⟨a, he⟩

-- A new socket of an agent.
theorem accept {since : Time} (h : Terms σ) :
    Terms ((σ.accept [.agent]).1.attach (σ.accept [.agent]).2 (.pending since)) := by
  have new : σ.attachment (σ.accept [.agent]).2 = none := by
    by_contra hn
    have ⟨_, ha⟩ := Option.ne_none_iff_exists'.mp hn
    exact Nat.lt_irrefl _ (h.known ha)
  refine h.kept (Nat.le_succ _) rfl (fun {ws a} ha => ?_) (fun {ws} hl => ?_) fun {ws sid mid} => ?_
  case refine_1 =>
    rw [accept_attachment] at ha
    split at ha
    case isTrue eq =>
      subst eq
      exact .inr (Nat.lt_succ_self σ.next)
    case isFalse => exact .inl ⟨a, ha⟩
  case refine_2 =>
    rw [accept_listed, List.mem_append, List.mem_singleton] at hl
    exact hl.imp_right fun he => congrArg Ws.tags he
  case refine_3 =>
    rw [accept_attachment]
    split
    case isTrue eq => simp [eq, new]
    case isFalse   => exact Iff.rfl

theorem action (ha : Action σ σ') (h : Terms σ) : Terms σ' := by
  cases ha
  case sends hs => exact h.sends hs
  case drop ha  => exact h.drops (dropAgent_drops ha) ha
  case seen ws mid seen ha =>
    refine h.frames (frames_attach ha.not_term (by simp)) fun {ws' a} he => ?_
    rw [attachment_attach] at he
    split at he
    case isTrue eq =>
      have ⟨_, ha⟩ := ha
      exact ⟨_, eq ▸ ha⟩
    case isFalse => exact ⟨a, he⟩
  case accept => exact h.accept
  case unlist =>
    refine h.kept (Nat.le_refl _) rfl (fun ha => .inl ⟨_, ha⟩) (fun hl => .inl ?_) Iff.rfl
    exact List.mem_of_mem_filter hl
  all_goals exact ⟨h.known, h.tagged, h.accepted, h.single⟩

theorem actions (ha : Actions σ σ') (h : Terms σ) : Terms σ' :=
  ha.invariant (fun _ _ ha h => h.action ha) h

theorem start {r : Req} (hs : Sound σ) (e : start σ r = some (σ', ops)) (h : Terms σ) : Terms σ' := by
  cases start_cases hs e
  case inl actions => exact h.actions actions
  case inr hc =>
    obtain ⟨_, _, σ₁, σ₂, _, rfl, actions, _, rfl⟩ := hc
    have kept : Terms σ₂ := .actions actions ⟨h.known, h.tagged, h.accepted, h.single⟩
    exact ⟨kept.known, kept.tagged, kept.accepted, kept.single⟩

-- A terminal is registered for a session that is accepted.
theorem registered (hs : Sends (registered σ sid p) σ') (h : Terms σ) :
    Terms (σ'.record (.accepted sid k o)) := by
  have log : σ'.log = σ.log := congrArg (·.log) hs.rest
  have next : σ'.next = σ.next + 1 := congrArg (·.next) hs.rest
  have attachment (ws) : σ'.attachment ws =
      if ws = terminal σ sid p then some (.term sid p.mid) else σ.attachment ws :=
    (hs.attachment ws).trans registered_attachment
  have accepts : (σ'.record (.accepted sid k o)).accepts = (sid, k) :: σ.accepts := by
    simp [State.accepts, State.record, log]
  constructor
  case known =>
    intro ws a ha
    replace ha : σ'.attachment ws = some a := ha
    show ws.ptr < σ'.next
    rw [attachment] at ha
    rw [next]
    split at ha
    case isTrue eq => exact eq ▸ Nat.lt_succ_self _
    case isFalse   => exact Nat.lt_succ_of_lt (h.known ha)
  case tagged =>
    intro ws sid' hl ht
    show ∃ mid, σ'.attachment ws = some (.term sid' mid)
    replace hl : ws ∈ σ'.listed := hl
    rw [hs.listed, Worker.registered, accept_listed, List.mem_append, List.mem_singleton] at hl
    rw [attachment]
    by_cases new : ws = terminal σ sid p
    case pos =>
      obtain rfl : sid' = sid := by simpa [new, terminal] using ht
      exact ⟨_, if_pos new⟩
    case neg =>
      rw [if_neg new]
      exact h.tagged (hl.resolve_right new) ht
  case accepted =>
    intro ws sid' mid ha
    replace ha : σ'.attachment ws = some (.term sid' mid) := ha
    rw [accepts, List.map_cons]
    rw [attachment] at ha
    split at ha
    case isTrue  => cases ha; exact List.mem_cons_self
    case isFalse => exact List.mem_cons_of_mem _ (h.accepted ha)
  case single =>
    intro ws ws' sid' mid mid' once ha ha'
    replace ha : σ'.attachment ws = some (.term sid' mid) := ha
    replace ha' : σ'.attachment ws' = some (.term sid' mid') := ha'
    -- A sid that is accepted once had no terminal before.
    have first {ws mid} (he : sid' = sid) : σ.attachment ws ≠ some (.term sid' mid) := by
      intro ha
      obtain ⟨pair, hm, rfl⟩ := List.mem_map.mp (h.accepted ha)
      have mem : pair ∈ σ.accepts.filter (·.1 = pair.1) := List.mem_filter.mpr ⟨hm, by simp⟩
      rw [Once, accepts, List.filter_cons_of_pos (by simp [he]), List.length_cons] at once
      have empty := List.eq_nil_of_length_eq_zero (Nat.le_zero.mp (Nat.le_of_succ_le_succ once))
      simp [empty] at mem
    rw [attachment] at ha ha'
    split at ha
    case isTrue eq =>
      cases ha
      split at ha'
      case isTrue eq' => exact eq.trans eq'.symm
      case isFalse    => exact absurd ha' (first rfl)
    case isFalse =>
      split at ha'
      case isTrue eq' => cases ha'; exact absurd ha (first rfl)
      case isFalse =>
        refine h.single ?_ ha ha'
        rw [Once, accepts] at once
        exact Nat.le_trans ((List.sublist_cons_self ..).filter _).length_le once

-- A socket becomes an agent's.
theorem greeted {seen : Time} (hk : ws.ptr < σ.next) (hs : Sound σ) (ht : ws.tags = [.agent])
    (h : Terms σ) : Terms ((replace σ mid).attach ws (.agent mid seen)) := by
  have replaced : Terms (replace σ mid) := by
    cases found : σ.agentSocket mid
    case none => rw [replace_of_none found]; exact h
    case some =>
      have agent := (hs.mem_of_agentSocket found).right
      exact h.drops (replace_drops agent found) agent
  have next : (replace σ mid).next = σ.next := congrArg (·.next) hs.replace_frames.rest
  have not_term (sid mid') : (replace σ mid).attachment ws ≠ some (.term sid mid') :=
    (hs.replace mid).left.not_term ht
  have frames : Frames (replace σ mid) ((replace σ mid).attach ws (.agent mid seen)) :=
    frames_attach not_term (by simp)
  refine replaced.kept (Nat.le_refl _) rfl (fun {ws' a} ha => ?_) (fun hl => .inl hl) frames.term
  rw [attachment_attach] at ha
  split at ha
  case isTrue eq =>
    subst eq
    exact .inr (next ▸ hk)
  case isFalse => exact .inl ⟨a, ha⟩

end Terms

-- The socket of a `hello` was accepted.
def Op.Known (σ : State) : Op → Prop
  | .hello ws _ => ws.tags = [.agent] ∧ ws.ptr < σ.next
  | _           => True

theorem Op.Known.ofAgent (h : op.Known σ) : op.OfAgent := by
  cases op
  case hello => exact h.left
  all_goals trivial

theorem Exec.ops_known (e : Exec sha256hex σ op σ' ops) : ∀ o ∈ ops, o.Known σ' := by
  cases e <;> simp [Op.Known]

theorem Exec.terms (e : Exec sha256hex σ op σ' ops) (ho : op.Known σ) (hs : Sound σ) (h : Terms σ) :
    Terms σ' := by
  cases e
  case minted => exact .actions armAlarm_actions ⟨h.known, h.tagged, h.accepted, h.single⟩
  case accepted sid k pend p _ =>
    have ⟨σ', o, eq, sends, _⟩ := attachTerm_cases σ sid k p
    exact eq ▸ h.registered sends
  case hello ws m token =>
    obtain ⟨tags, known⟩ := ho
    cases helloDigest_actions fun _ _ => hs.not_term tags
    case inl sends => exact h.sends sends
    case inr hc =>
      obtain ⟨mid, _, actions⟩ := hc
      exact (h.greeted known hs tags).actions actions
  all_goals exact ⟨h.known, h.tagged, h.accepted, h.single⟩

-- Sockets are only ever added.

theorem Action.next (h : Action σ σ') : σ.next ≤ σ'.next := by
  cases h
  case sends hs => exact (congrArg (·.next) hs.rest).ge
  case drop ha  => exact (congrArg (·.next) (dropAgent_drops ha).rest).ge
  case accept   => exact Nat.le_succ _
  all_goals exact Nat.le_refl _

theorem Actions.next (h : Actions σ σ') : σ.next ≤ σ'.next := by
  induction h
  case refl             => exact Nat.le_refl _
  case tail _ action hi => exact Nat.le_trans hi action.next

theorem start_next {r : Req} (hs : Sound σ) (e : start σ r = some (σ', ops)) : σ.next ≤ σ'.next := by
  cases start_cases hs e
  case inl actions => exact actions.next
  case inr hc =>
    obtain ⟨_, _, σ₁, σ₂, _, rfl, actions, _, rfl⟩ := hc
    exact actions.next

theorem Exec.next (e : Exec sha256hex σ op σ' ops) (ho : op.OfAgent) (hs : Sound σ) :
    σ.next ≤ σ'.next := by
  cases e
  case minted first sid key _ cmd p _ =>
    exact @Actions.next ({ σ with pend := σ.pend.set sid p }.record (.minted first sid key cmd)) _
      armAlarm_actions
  case accepted sid k pend p _ =>
    have ⟨σ', o, eq, sends, _⟩ := attachTerm_cases σ sid k p
    have next : σ'.next = σ.next + 1 := congrArg (·.next) sends.rest
    exact eq ▸ next ▸ Nat.le_succ _
  case hello ws m token =>
    cases helloDigest_actions fun _ _ => hs.not_term ho
    case inl sends => exact (congrArg (·.next) sends.rest).ge
    case inr hc =>
      obtain ⟨mid, _, actions⟩ := hc
      exact Nat.le_trans (congrArg (·.next) hs.replace_frames.rest).ge actions.next
  all_goals exact Nat.le_refl _

theorem terms_reachable (h : (program sha256hex).system.Reachable c) :
    (Sound c.shared ∧ Terms c.shared) ∧ ∀ o, c.Pending o → o.Known c.shared := by
  refine section_invariant (P := program sha256hex) (I := fun σ => Sound σ ∧ Terms σ) (A := Op.Known)
    (R := fun σ σ' => σ.next ≤ σ'.next) ?_ ?_ ?_ ?_ h
  case refine_1 =>
    rintro σ ⟨now, rfl⟩
    exact ⟨⟨by simp [attachment], by simp⟩,
      ⟨by simp [attachment], by simp, by simp [attachment], by simp [attachment]⟩⟩
  case refine_2 =>
    rintro σ r σ' ops ⟨hs, ht⟩ e
    refine ⟨⟨hs.start e, ht.start hs e⟩, start_next hs e, fun o ho => ?_⟩
    obtain ⟨same, _, started⟩ := Started.of e ho
    cases started
    case hello _ ha _ => exact same ▸ ⟨hs.tagged ha, ht.known ha⟩
    all_goals trivial
  case refine_3 =>
    rintro c _ i op _ σ' ops _ _ _ ⟨hs, ht⟩ ho e
    replace e := Exec.of e
    exact ⟨⟨e.sound hs ho.ofAgent, e.terms ho hs ht⟩, e.next ho.ofAgent hs, e.ops_known⟩
  case refine_4 =>
    intro σ σ' o _ next ho
    cases o
    case hello => exact ⟨ho.left, Nat.lt_of_lt_of_le ho.right next⟩
    all_goals trivial

theorem once_of_step {l : Label Req Input} (h : (program sha256hex).system.Reachable c)
    (e : (program sha256hex).system.step c l = some c') (once : c'.shared.Once sid) :
    c.shared.Once sid := by
  obtain ⟨⟨sound, _⟩, known⟩ := terms_reachable h
  replace e := Step.of e
  cases e
  case start e => exact once.of_suffix (start_log_suffix sound e)
  case step t _ op _ _ _ head e =>
    have ho : op.Known c.shared := known op ⟨t, head ▸ List.mem_cons_self⟩
    exact once.of_suffix ((Exec.of e).log_suffix sound ho.ofAgent)

end Worker
