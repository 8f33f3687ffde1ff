import Popfleet.Worker.Theorems.Ownership

open Program

namespace Worker

open State

-- What a frame changes at a socket that matters to its client: it was sent a frame, or closed.
def State.Reached (σ σ' : State) (ws : Ws) : Prop :=
  (σ'.socks ws).sent ≠ (σ.socks ws).sent ∨ (σ'.socks ws).closed ≠ (σ.socks ws).closed

-- Of the sockets only `ws` changed, and nothing else did.
def State.Within (σ σ' : State) (ws : Ws) : Prop :=
  σ'.rest = σ.rest ∧ ∀ ws' ≠ ws, σ'.socks ws' = σ.socks ws'

variable {σ σ' σ₁ σ₂ σ₃ : State} {ws ws' agent : Ws} {mid sid sum : String} {t : Option Json}
  {m : Json} {a : Attachment} {f : Frame} {s : Sock} {code : Nat} {reason : String}
  {sha256hex : String → String} {op : Op} {ops : List Op} {c : Config State Op}

namespace State.Within

theorem refl : Within σ σ ws :=
  ⟨rfl, fun _ _ => rfl⟩

theorem trans (h₁ : Within σ₁ σ₂ ws) (h₂ : Within σ₂ σ₃ ws) : Within σ₁ σ₃ ws :=
  ⟨h₂.left.trans h₁.left, fun ws' hne => (h₂.right ws' hne).trans (h₁.right ws' hne)⟩

theorem setSock : Within σ (σ.setSock ws s) ws :=
  ⟨rfl, fun _ hne => socks_setSock.trans (if_neg hne)⟩

theorem wsSend : Within σ (σ.wsSend ws f) ws := by
  unfold State.wsSend
  split
  case h_1 => exact .refl
  case h_2 => exact .setSock

theorem close : Within σ (σ.close ws code reason) ws := by
  unfold State.close
  split
  case h_1 => exact .refl
  case h_2 => exact .setSock

theorem throw : Within σ σ.throw ws :=
  ⟨rfl, fun _ _ => rfl⟩

theorem eq_of_reached (h : Within σ σ' ws) (hr : Reached σ σ' ws') : ws' = ws := by
  by_contra hne
  simp [Reached, h.right ws' hne] at hr

end State.Within

theorem not_reached : ¬Reached σ σ ws := by
  simp [Reached]

-- A frame from an agent.

-- The terminal that a `sid` in a frame names is one of the machine of the agent.
theorem Sound.of_termBySid (h : Sound σ)
    (found : (σ.termBySid sid).filter (σ.mid · = some mid) = some ws) :
    ∃ sid', σ.attachment ws = some (.term sid' mid) := by
  have ⟨head, hm⟩ := Option.filter_eq_some_iff.mp found
  have tag := (List.mem_filter.mp (List.mem_of_head? head)).right
  have ⟨a, ha, hm⟩ := Option.bind_eq_some_iff.mp (of_decide_eq_true hm)
  cases a
  case term sid' _ => cases hm; exact ⟨sid', ha⟩
  case agent =>
    have tags : ws.tags = [.agent] := h.tagged ha
    simp [tags] at tag
  all_goals contradiction

theorem fromAgentTo_within (found : (σ.termBySid sid).filter (σ.mid · = some mid) = some ws) :
    Within σ (fromAgentTo σ mid sid t m) ws := by
  unfold fromAgentTo
  rw [found]
  dsimp only
  split
  case isTrue => exact .wsSend
  case isFalse =>
    split
    case isTrue  => exact .trans .wsSend .close
    case isFalse => exact .trans .wsSend .close

theorem fromAgentTo_reached (hs : Sound σ) :
    (fromAgentTo σ mid sid t m).rest = σ.rest ∧
      ∀ ws', Reached σ (fromAgentTo σ mid sid t m) ws' →
        ∃ sid', σ.attachment ws' = some (.term sid' mid) := by
  cases found : (σ.termBySid sid).filter (σ.mid · = some mid)
  case none =>
    have same : fromAgentTo σ mid sid t m = σ := by simp only [fromAgentTo, found]
    rw [same]
    exact ⟨rfl, fun _ hr => by simp [Reached] at hr⟩
  case some ws =>
    have within : Within σ (fromAgentTo σ mid sid t m) ws := fromAgentTo_within found
    exact ⟨within.left, fun ws' hr => within.eq_of_reached hr ▸ hs.of_termBySid found⟩

-- A heartbeat is noted at the socket itself.
theorem fromAgent_reached (hs : Sound σ) :
    (fromAgent σ ws mid m).rest = σ.rest ∧
      ∀ ws', Reached σ (fromAgent σ ws mid m) ws' →
        ∃ sid, σ.attachment ws' = some (.term sid mid) := by
  have nothing {σ' : State} (h : σ'.socks = σ.socks) {ws' : Ws} : ¬Reached σ σ' ws' := by
    simp [Reached, h]
  unfold fromAgent
  split
  case h_1 => exact ⟨rfl, fun _ hr => absurd hr (nothing rfl)⟩
  case h_2 =>
    split
    case isTrue => exact ⟨rfl, fun _ hr => by simp [Reached, attach_sent, attach_closed] at hr⟩
    case isFalse =>
      split
      case isFalse => exact ⟨rfl, fun _ hr => absurd hr (nothing rfl)⟩
      case isTrue =>
        split
        case h_1 => exact ⟨rfl, fun _ hr => absurd hr (nothing rfl)⟩
        case h_2 => exact fromAgentTo_reached hs

-- A frame from a terminal is passed on to the agent of its machine, if it is one.
theorem fromTerm_passes (found : σ.agentSocket mid = some agent) :
    fromTerm σ sid mid m = σ ∨ fromTerm σ sid mid m = σ.throw ∨
      ∃ f : Frame, (f.t = "in" ∨ f.t = "resize") ∧ f.sid = some sid ∧
        fromTerm σ sid mid m = σ.wsSend agent f := by
  unfold fromTerm
  rw [found]
  dsimp only
  split
  case h_1 => exact .inr (.inl rfl)
  case h_2 =>
    split
    case isTrue => exact .inr (.inr ⟨_, .inl rfl, rfl, rfl⟩)
    case isFalse =>
      split
      case isTrue  => exact .inr (.inr ⟨_, .inr rfl, rfl, rfl⟩)
      case isFalse => exact .inl rfl

theorem reached_wsSend (h : Reached σ (σ.wsSend ws f) ws') :
    ws' = ws ∧ (σ.wsSend ws f).socks ws' =
      { σ.socks ws' with sent := (σ.socks ws').sent ++ [f] } := by
  have same := Within.wsSend.eq_of_reached h
  subst same
  refine ⟨rfl, ?_⟩
  unfold wsSend at h ⊢
  split at h
  case h_1   => simp [Reached] at h
  case h_2 h => simp [socks_setSock]

theorem fromTerm_reached (hs : Sound σ) :
    (fromTerm σ sid mid m).rest = σ.rest ∧
      ∀ ws', Reached σ (fromTerm σ sid mid m) ws' →
        σ.agentSocket mid = some ws' ∧ σ.IsAgent ws' mid ∧
        ∃ f : Frame, (f.t = "in" ∨ f.t = "resize") ∧ f.sid = some sid ∧
          (fromTerm σ sid mid m).socks ws' =
            { σ.socks ws' with sent := (σ.socks ws').sent ++ [f] } := by
  cases found : σ.agentSocket mid
  case none =>
    have same : fromTerm σ sid mid m = σ := by simp only [fromTerm, found]
    rw [same]
    exact ⟨rfl, fun _ hr => by simp [Reached] at hr⟩
  case some agent =>
    rcases @fromTerm_passes _ agent mid sid m found with same | same | ⟨f, ht, hf, same⟩
    all_goals rw [same]
    case inl     => exact ⟨rfl, fun _ hr => by simp [Reached] at hr⟩
    case inr.inl => exact ⟨rfl, fun _ hr => by simp [Reached, State.throw] at hr⟩
    case inr.inr =>
      have within : Within σ (σ.wsSend agent f) agent := .wsSend
      refine ⟨within.left, fun ws' hr => ?_⟩
      have ⟨he, sent⟩ := reached_wsSend hr
      subst he
      exact ⟨rfl, (hs.mem_of_agentSocket found).right, f, ht, hf, sent⟩

-- A pending socket is only closed, unless it says hello with a token that is known and e2e.

theorem hello_within : Within σ (hello σ ws m).1 ws := by
  unfold hello
  split
  case h_1 => exact .throw
  case h_2 =>
    split
    case isFalse => exact .close
    case isTrue =>
      split
      case h_1 => exact .throw
      case h_2 => exact .refl

theorem helloDigest_within :
    Within σ (helloDigest σ ws m sum) ws ∨
      (∃ mid, σ.tok.get? sum = some mid) ∧ Json.truthy (m.field "e2e").join := by
  unfold helloDigest
  dsimp only
  split
  case h_1 => exact .inl .close
  case h_2 mid hm =>
    split
    case isTrue he  => exact .inr ⟨⟨mid, hm⟩, he⟩
    case isFalse he => exact .inl (.trans .wsSend .close)

-- What `webSocketMessage` does with a frame, by the kind of its socket.
theorem message_cases {m : Option Json}
    (e : start σ (.webSocketMessage ws m) = some (σ', ops)) :
    (σ' = σ ∧ ops = []) ∨
    (∃ m', m = some m' ∧ σ.IsPending ws ∧ hello σ ws m' = (σ', ops)) ∨
    (∃ m' mid, σ.IsAgent ws mid ∧ σ' = fromAgent σ ws mid m' ∧ ops = []) ∨
    (∃ m' sid mid, σ.attachment ws = some (.term sid mid) ∧ σ' = fromTerm σ sid mid m' ∧
      ops = []) := by
  simp only [start] at e
  split at e
  case isFalse => contradiction
  case isTrue =>
    split at e
    case h_1 => cases e; exact .inl ⟨rfl, rfl⟩
    case h_2 m' =>
      split at e
      case h_1 ha => exact .inr (.inl ⟨m', rfl, ⟨_, ha⟩, Option.some.inj e⟩)
      case h_2 ha => cases e; exact .inr (.inr (.inl ⟨m', _, ⟨_, ha⟩, rfl, rfl⟩))
      case h_3 ha => cases e; exact .inr (.inr (.inr ⟨m', _, _, ha, rfl, rfl⟩))
      case h_4    => cases e; exact .inl ⟨rfl, rfl⟩

-- What is pending on a socket is a hello.
def Op.OfHello : Op → Prop
  | .hello _ m => Json.is (m.field "t").join "hello"
  | _          => True

theorem ofHello_of_mem (ho : op ∈ (hello σ ws m).2) : op.OfHello := by
  revert ho
  fun_cases hello σ ws m <;> intro ho
  case case3 t ht is _ _ =>
    cases List.mem_singleton.mp ho
    simpa [Op.OfHello, ht] using is
  all_goals contradiction

theorem ofHello_reachable (h : (program sha256hex).system.Reachable c) (ho : c.Pending op) :
    op.OfHello := by
  refine (section_invariant (P := program sha256hex) (I := fun _ => True)
    (A := fun _ => Op.OfHello) (R := fun _ _ => True) ?_ ?_ ?_ ?_ h).right op ho
  case refine_1 => exact fun _ _ => trivial
  case refine_2 =>
    intro σ r σ' ops _ e
    refine ⟨trivial, trivial, fun o ho => ?_⟩
    have ⟨_, single, started⟩ := Started.of e ho
    cases started
    case hello ws m _ hl ha =>
      have called : (hello σ ws m).2 = ops := by
        simp only [program, Worker.start, if_pos hl, ha] at e
        exact congrArg Prod.snd (Option.some.inj e)
      exact ofHello_of_mem (called.symm ▸ ho)
    all_goals trivial
  case refine_3 =>
    intro c _ i op _ σ' ops _ _ _ _ _ e
    replace e := Exec.of e
    exact ⟨trivial, trivial, by cases e <;> simp [Op.OfHello]⟩
  case refine_4 => exact fun _ _ _ _ _ => id

theorem agent_message {m : Option Json} (hs : Sound σ)
    (e : start σ (.webSocketMessage ws m) = some (σ', ops)) (h : σ.IsAgent ws mid) :
    σ'.rest = σ.rest ∧ ops = [] ∧
      ∀ ws', Reached σ σ' ws' → ∃ sid, σ.attachment ws' = some (.term sid mid) := by
  rcases message_cases e with ⟨rfl, rfl⟩ | ⟨_, _, hp, _⟩ | ⟨_, mid', ha, rfl, rfl⟩ |
    ⟨_, _, _, ha, _⟩
  case inl => exact ⟨rfl, rfl, fun _ hr => absurd hr not_reached⟩
  case inr.inl => exact absurd h hp.not_agent
  case inr.inr.inl =>
    cases h.mid_eq ha
    exact ⟨(fromAgent_reached hs).left, rfl, (fromAgent_reached hs).right⟩
  case inr.inr.inr => exact absurd ha (h.not_term _ _)

theorem term_message {m : Option Json} (hs : Sound σ)
    (e : start σ (.webSocketMessage ws m) = some (σ', ops))
    (h : σ.attachment ws = some (.term sid mid)) :
    σ'.rest = σ.rest ∧ ops = [] ∧
      ∀ ws', Reached σ σ' ws' →
        σ.agentSocket mid = some ws' ∧ σ.IsAgent ws' mid ∧
        ∃ f : Frame, (f.t = "in" ∨ f.t = "resize") ∧ f.sid = some sid ∧
          σ'.socks ws' = { σ.socks ws' with sent := (σ.socks ws').sent ++ [f] } := by
  rcases message_cases e with ⟨rfl, rfl⟩ | ⟨_, _, hp, _⟩ | ⟨_, _, ha, _⟩ |
    ⟨_, sid', mid', ha, rfl, rfl⟩
  case inl => exact ⟨rfl, rfl, fun _ hr => absurd hr not_reached⟩
  case inr.inl =>
    have ⟨since, hp⟩ := hp
    simp [h] at hp
  case inr.inr.inl => exact absurd h (ha.not_term _ _)
  case inr.inr.inr =>
    cases h.symm.trans ha
    exact ⟨(fromTerm_reached hs).left, rfl, (fromTerm_reached hs).right⟩

theorem replaced_message {m : Option Json}
    (e : start σ (.webSocketMessage ws m) = some (σ', ops))
    (h : σ.attachment ws = some .replaced) : σ' = σ ∧ ops = [] := by
  rcases message_cases e with same | ⟨_, _, ⟨_, ha⟩, _⟩ | ⟨_, _, ⟨_, ha⟩, _⟩ | ⟨_, _, _, ha, _⟩
  case inl => exact same
  all_goals simp [h] at ha

theorem hello_ops (ho : op ∈ (hello σ ws m).2) : op = .hello ws m := by
  revert ho
  fun_cases hello σ ws m <;> intro ho
  case case3 => exact List.mem_singleton.mp ho
  all_goals contradiction

theorem pending_message {m : Option Json}
    (e : start σ (.webSocketMessage ws m) = some (σ', ops)) (h : σ.IsPending ws) :
    Within σ σ' ws ∧ ∀ o ∈ ops, ∃ m', m = some m' ∧ o = .hello ws m' := by
  rcases message_cases e with ⟨rfl, rfl⟩ | ⟨m', hm, _, called⟩ | ⟨_, _, ha, _⟩ | ⟨_, _, _, ha, _⟩
  case inl => exact ⟨.refl, by simp⟩
  case inr.inl =>
    have within : Within σ (hello σ ws m').1 ws := hello_within
    rw [called] at within
    refine ⟨within, fun o ho => ⟨m', hm, ?_⟩⟩
    have mem : o ∈ (hello σ ws m').2 := called ▸ ho
    exact hello_ops mem
  case inr.inr.inl => exact absurd ha h.not_agent
  case inr.inr.inr =>
    have ⟨since, h⟩ := h
    simp [h] at ha

-- What a text frame does, by what its socket is. An agent reaches terminals of its own machine, a
-- terminal only the agent of its machine and with its own sid, a replaced socket nothing, and one that
-- is pending itself, before it said a hello that is accepted. A heartbeat that is absorbed is noted at
-- the socket it came on.
theorem relay_isolation (h : (program sha256hex).system.Reachable c) :
    (∀ t ws m c', (program sha256hex).system.step c (.start t (.webSocketMessage ws m)) = some c' →
      (∀ mid, c.shared.IsAgent ws mid → c'.shared.rest = c.shared.rest ∧ c'.procs t = [] ∧
        ∀ ws', Reached c.shared c'.shared ws' →
          ∃ sid, c.shared.attachment ws' = some (.term sid mid)) ∧
      (∀ sid mid, c.shared.attachment ws = some (.term sid mid) →
        c'.shared.rest = c.shared.rest ∧ c'.procs t = [] ∧
        ∀ ws', Reached c.shared c'.shared ws' →
          c.shared.agentSocket mid = some ws' ∧ c.shared.IsAgent ws' mid ∧
          ∃ f : Frame, (f.t = "in" ∨ f.t = "resize") ∧ f.sid = some sid ∧
            c'.shared.socks ws' =
              { c.shared.socks ws' with sent := (c.shared.socks ws').sent ++ [f] }) ∧
      (c.shared.attachment ws = some .replaced → c'.shared = c.shared ∧ c'.procs t = []) ∧
      (c.shared.IsPending ws → Within c.shared c'.shared ws ∧
        ∀ o ∈ c'.procs t, ∃ m', m = some m' ∧ o = .hello ws m')) ∧
    (∀ t i c' ws m rest, c.procs t = .hello ws m :: rest →
      (program sha256hex).system.step c (.step t i) = some c' →
      Within c.shared c'.shared ws ∨
        Json.is (m.field "t").join "hello" ∧ Json.truthy (m.field "e2e").join ∧
        ∃ token mid, (Json.or (m.field "token").join (.str "")).text = some token ∧
          c.shared.tok.get? (sha256hex token) = some mid) ∧
    (∀ t ws c', (program sha256hex).system.step c (.start t (.autoResponse ws)) = some c' →
      Within c.shared c'.shared ws ∧ c'.procs t = []) := by
  have ⟨sound, _⟩ := sound_reachable h
  refine ⟨fun t ws m c' e => ?_, fun t i c' ws m rest head e => ?_, fun t ws c' e => ?_⟩
  case refine_1 =>
    replace e := Step.of e
    cases e
    case start σ' ops idle e =>
      have procs : (c.resume t σ' ops).procs t = ops := Config.resume_procs.trans (if_pos rfl)
      rw [procs, Config.resume_shared]
      exact ⟨fun _ => agent_message sound e, fun _ _ => term_message sound e,
        replaced_message e, pending_message e⟩
  case refine_2 =>
    replace e := Step.of e
    cases e
    case step op _ σ' ops head' e =>
      cases head.symm.trans head'
      rw [Config.resume_shared]
      have is : (Op.hello ws m).OfHello := ofHello_reachable h ⟨t, head ▸ List.mem_cons_self⟩
      simp only [program, exec] at e
      split at e <;> cases e
      case h_1 => exact .inl .throw
      case h_2 token ht =>
        exact helloDigest_within.imp_right fun ⟨⟨mid, hm⟩, he⟩ => ⟨is, he, token, mid, ht, hm⟩
  case refine_3 =>
    replace e := Step.of e
    cases e
    case start σ' ops idle e =>
      have procs : (c.resume t σ' ops).procs t = ops := Config.resume_procs.trans (if_pos rfl)
      rw [procs, Config.resume_shared]
      simp only [program, start] at e
      split at e <;> cases e
      exact ⟨.setSock, rfl⟩

-- The agent of 5c writes to a terminal of 5c.
theorem relay_isolation_sample :
    let agent : Ws := ⟨0, [.agent]⟩
    let m : Json := .obj [("t", .str "out"), ("sid", .str "a0"), ("data", .str "x9")]
    let ls : List (Label Req Input) := sampleAgent ++ [
      .start 0 (.apiTerm "5c"), .step 0 (.body none "a0" "7d"), .step 0 .done,
      .start 0 (.upgradeTerm "a0" "7d"), .step 0 .done]
    ∃ c c', (program id).system.run initial ls = some c ∧
      (program id).system.step c (.start 0 (.webSocketMessage agent (some m))) = some c' ∧
      c.shared.IsAgent agent "5c" ∧
      ∀ ws', Reached c.shared c'.shared ws' →
        ∃ sid, c.shared.attachment ws' = some (.term sid "5c") := by
  intro agent m ls
  cases e : (program id).system.run initial (ls ++ [.start 0 (.webSocketMessage agent (some m))])
  case none =>
    have ran : ((program id).system.run initial
      (ls ++ [.start 0 (.webSocketMessage agent (some m))])).isSome := by decide
    simp [e] at ran
  case some c' =>
    have ⟨c, e₁, e₂⟩ := Transition.run_append_eq_some.mp e
    have ⟨_, e₂, same⟩ := Transition.run_cons_eq_some.mp e₂
    cases same
    have attached : c.shared.attachment agent = some (.agent "5c" 0) :=
      Transition.eq_of_run (f := (·.shared.attachment agent)) e₁ (by decide)
    have isAgent : c.shared.IsAgent agent "5c" := ⟨0, attached⟩
    have ⟨messages, _⟩ := relay_isolation (.run (.init initial_init) e₁)
    have ⟨fromAgent, _⟩ := messages _ _ _ _ e₂
    exact ⟨c, c', e₁, e₂, isAgent, (fromAgent "5c" isAgent).right.right⟩

end Worker
