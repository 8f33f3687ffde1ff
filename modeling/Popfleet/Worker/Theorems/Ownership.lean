import Popfleet.Worker.Theorems.Sockets

open Program

namespace Worker

open State

-- Each terminal that is open has an agent, and each one that was closed was told why.
structure Owned (σ : State) : Prop where
  fresh  : ∀ ws ∈ σ.listed, ws.ptr < σ.next
  served : ∀ {ws mid}, σ.OpenTerm ws mid → ∃ agent ∈ σ.listed, σ.IsAgent agent mid
  banner : ∀ {ws sid mid}, σ.attachment ws = some (.term sid mid) →
    (σ.socks ws).closed.isSome → Bannered (σ.socks ws)

-- A socket that said no hello yet.
def State.IsPending (σ : State) (ws : Ws) : Prop :=
  ∃ since, σ.attachment ws = some (.pending since)

variable {σ σ' : State} {ws agent : Ws} {mid mid' sid why sum k : String} {m : Json}
  {a : Attachment} {p : Pend} {tags : List Tag} {seen : Time} {c c' : Config State Op}
  {sha256hex : String → String}

theorem State.IsPending.not_agent (h : σ.IsPending ws) : ¬σ.IsAgent ws mid := by
  intro ⟨_, ha⟩
  have ⟨_, hp⟩ := h
  cases ha.symm.trans hp

theorem State.IsPending.not_term (h : σ.IsPending ws) (sid mid : String) :
    σ.attachment ws ≠ some (.term sid mid) := by
  have ⟨_, hp⟩ := h
  simp [hp]

theorem Sound.tags_of_isPending (h : Sound σ) (hp : σ.IsPending ws) : ws.tags = [.agent] := by
  have ⟨_, hp⟩ := hp
  exact h.tagged hp

theorem State.IsAgent.attach (ha : σ.IsAgent agent mid) (hne : agent ≠ ws) :
    (σ.attach ws a).IsAgent agent mid := by
  have ⟨seen, ha⟩ := ha
  exact ⟨seen, by rw [attachment_attach, if_neg hne]; exact ha⟩

-- A drop leaves no terminal of the machine open, and other machines their agents.

theorem State.Drops.openTerm (hd : Drops σ σ' agent mid) (ha : σ.IsAgent agent mid) (hs : Sound σ)
    (ht : σ'.OpenTerm ws mid') : σ.OpenTerm ws mid' ∧ mid' ≠ mid := by
  refine ⟨hd.toFrames.openTerm ht, ?_⟩
  rintro rfl
  have ⟨hl, ⟨sid, hw⟩, _⟩ := hd.toFrames.openTerm ht
  have hne : ws ≠ agent := by rintro rfl; exact ha.not_term _ _ hw
  have closed := hd.terms ws (hs.mem_termSockets hl hw) hne
  simp [ht.right.right] at closed

theorem State.Drops.isAgent {old : Ws} (hd : Drops σ σ' old mid) (ho : σ.IsAgent old mid)
    (ha : σ.IsAgent agent mid') (hne : mid' ≠ mid) : σ'.IsAgent agent mid' := by
  have ⟨seen, hs⟩ := ha
  have other : agent ≠ old := by rintro rfl; exact hne (ho.mid_eq ha)
  exact ⟨seen, by rw [hd.attachment, if_neg other]; exact hs⟩

namespace Owned

theorem frames (hf : Frames σ σ')
    (served : ∀ {ws mid}, σ'.OpenTerm ws mid → ∃ agent ∈ σ'.listed, σ'.IsAgent agent mid)
    (h : Owned σ) : Owned σ' := by
  constructor
  case fresh =>
    have next : σ'.next = σ.next := congrArg (·.next) hf.rest
    rw [hf.listed, next]
    exact h.fresh
  case served => exact served
  case banner =>
    intro ws sid mid ha hc
    cases hf.banner (hf.term.mp ha) hc
    case inl hc => exact (h.banner (hf.term.mp ha) hc).mono (hf.sent ws)
    case inr hb => exact hb

theorem sends (hs : Sends σ σ') (h : Owned σ) : Owned σ' := by
  refine h.frames hs.toFrames fun ht => ?_
  have ⟨agent, hl, seen, ha⟩ := h.served (hs.openTerm ht)
  exact ⟨agent, hs.listed.symm ▸ hl, seen, (hs.attachment agent).trans ha⟩

theorem drops_served (hd : Drops σ σ' agent mid) (ha : σ.IsAgent agent mid) (hs : Sound σ)
    (h : Owned σ) (ht : σ'.OpenTerm ws mid') :
    mid' ≠ mid ∧ ∃ agent ∈ σ'.listed, σ'.IsAgent agent mid' := by
  have ⟨open_before, hne⟩ := hd.openTerm ha hs ht
  have ⟨other, hl, ho⟩ := h.served open_before
  exact ⟨hne, other, hd.listed.symm ▸ hl, hd.isAgent ha ho hne⟩

theorem drops (hd : Drops σ σ' agent mid) (ha : σ.IsAgent agent mid) (hs : Sound σ)
    (h : Owned σ) : Owned σ' :=
  h.frames hd.toFrames fun ht => (h.drops_served hd ha hs ht).right

-- Where no agent is replaced, the machine had no terminal open.
theorem replace_served (hs : Sound σ) (h : Owned σ) (ht : (replace σ mid).OpenTerm ws mid') :
    mid' ≠ mid ∧ ∃ agent ∈ σ.listed, (replace σ mid).IsAgent agent mid' := by
  cases found : σ.agentSocket mid
  case none =>
    rw [replace_of_none found] at ht ⊢
    have ⟨agent, hl, ha⟩ := h.served ht
    refine ⟨?_, agent, hl, ha⟩
    rintro rfl
    exact hs.not_isAgent_of_agentSocket found hl ha
  case some old =>
    have isAgent := (hs.mem_of_agentSocket found).right
    have ⟨hne, agent, hl, ha⟩ := h.drops_served (replace_drops isAgent found) isAgent hs ht
    exact ⟨hne, agent, hs.replace_frames.listed ▸ hl, ha⟩

-- The agent that said hello serves the machine.
theorem greeted (hp : σ.IsPending ws) (hs : Sound σ) (h : Owned σ) :
    Owned ((replace σ mid).attach ws (.agent mid seen)) := by
  have still : (replace σ mid).IsPending ws := by
    have ⟨since, hp'⟩ := hp
    exact ⟨since, (hs.replace_attachment hp.not_agent).trans hp'⟩
  have frames := frames_attach (a := .agent mid seen) still.not_term (by simp)
  refine h.frames (hs.replace_frames.trans frames) fun ht => ?_
  have ⟨hne, agent, hl, ha⟩ := h.replace_served hs (frames.openTerm ht)
  refine ⟨agent, hs.replace_frames.listed.symm ▸ hl, ha.attach ?_⟩
  rintro rfl
  exact still.not_agent ha

-- A socket that is accepted is none of those that are listed.
theorem accept (hs : Sends ((σ.accept tags).1.attach (σ.accept tags).2 a) σ')
    (served : ∀ {mid}, σ'.OpenTerm (σ.accept tags).2 mid →
      ∃ agent ∈ σ'.listed, σ'.IsAgent agent mid) (h : Owned σ) : Owned σ' := by
  have listed : σ'.listed = σ.listed ++ [(σ.accept tags).2] := hs.listed.trans accept_listed
  have other {ws} (hne : ws ≠ (σ.accept tags).2) :
      ((σ.accept tags).1.attach (σ.accept tags).2 a).socks ws = σ.socks ws := by
    rw [accept_socks, if_neg hne]
  constructor
  case fresh =>
    have next : σ'.next = σ.next + 1 := congrArg (·.next) hs.rest
    intro ws hl
    rw [listed, List.mem_append, List.mem_singleton] at hl
    cases hl
    case inl hl => exact next ▸ Nat.lt_succ_of_lt (h.fresh ws hl)
    case inr he => exact he ▸ next ▸ Nat.lt_succ_self σ.next
  case served =>
    intro ws mid ht
    by_cases hw : ws = (σ.accept tags).2
    case pos => subst hw; exact served ht
    case neg =>
      obtain ⟨hl, ⟨sid, ha⟩, hc⟩ := hs.openTerm ht
      rw [accept_listed, List.mem_append, List.mem_singleton] at hl
      rw [attachment, other hw] at ha
      rw [other hw] at hc
      obtain ⟨agent, hl, seen, ha⟩ := h.served ⟨hl.resolve_right hw, ⟨sid, ha⟩, hc⟩
      have old : agent ≠ (σ.accept tags).2 := by
        rintro rfl
        exact Nat.lt_irrefl _ (h.fresh _ hl)
      refine ⟨agent, listed ▸ List.mem_append_left _ hl, seen, ?_⟩
      rw [hs.attachment, attachment, other old]
      exact ha
  case banner =>
    intro ws sid mid ha hc
    have told := hs.banner (hs.term.mp ha) hc
    replace ha := hs.term.mp ha
    by_cases hw : ws = (σ.accept tags).2
    case pos => exact told.resolve_left (by simp [accept_socks, hw])
    case neg =>
      have sent := hs.sent ws
      rw [other hw] at told sent
      rw [attachment, other hw] at ha
      cases told
      case inl hc => exact (h.banner ha hc).mono sent
      case inr hb => exact hb

theorem registered (hs : Sends (registered σ sid p) σ')
    (served : ∀ {mid}, σ'.OpenTerm (terminal σ sid p) mid →
      ∃ agent ∈ σ'.listed, σ'.IsAgent agent mid) (h : Owned σ) : Owned σ' := by
  have deleted : Owned { σ with pend := σ.pend.delete sid } := ⟨h.fresh, h.served, h.banner⟩
  exact deleted.accept hs served

theorem action (ha : Action σ σ') (hs : Sound σ) (h : Owned σ) : Owned σ' := by
  cases ha
  case sends hs => exact h.sends hs
  case drop ha  => exact h.drops (dropAgent_drops ha) ha hs
  case seen ws mid seen ha =>
    have frames := frames_attach (a := .agent mid seen) ha.not_term (by simp)
    refine h.frames frames fun ht => ?_
    have ⟨agent, hl, h'⟩ := h.served (frames.openTerm ht)
    by_cases he : agent = ws
    case neg => exact ⟨agent, hl, h'.attach he⟩
    case pos =>
      cases he
      cases ha.mid_eq h'
      exact ⟨ws, hl, seen, by rw [attachment_attach, if_pos rfl]⟩
  case accept =>
    refine h.accept .refl fun ⟨_, ⟨sid, ha⟩, _⟩ => ?_
    simp [accept_attachment] at ha
  case unlist ws hw =>
    constructor
    case fresh => exact fun ws hl => h.fresh ws (List.mem_of_mem_filter hl)
    case served =>
      intro ws' mid ⟨hl, ht⟩
      have ⟨agent, hl, ha⟩ := h.served ⟨List.mem_of_mem_filter hl, ht⟩
      have hne : agent ≠ ws := by rintro rfl; exact hw mid ha
      exact ⟨agent, List.mem_filter.mpr ⟨hl, by simpa using hne⟩, ha⟩
    case banner => exact h.banner
  all_goals exact ⟨h.fresh, h.served, h.banner⟩

theorem actions (ha : Actions σ σ') (hs : Sound σ) (h : Owned σ) : Owned σ' :=
  (ha.invariant (I := fun σ => Sound σ ∧ Owned σ)
    (fun _ _ ha h => ⟨h.left.action ha, h.right.action ha h.left⟩) ⟨hs, h⟩).right

theorem start {r : Req} {ops : List Op} (hs : Sound σ) (h : Owned σ)
    (e : start σ r = some (σ', ops)) : Owned σ' := by
  cases start_cases hs e
  case inl actions => exact h.actions actions hs
  case inr hc =>
    obtain ⟨_, _, σ₁, σ₂, _, rfl, actions, _, rfl⟩ := hc
    have owned : Owned σ₂ :=
      .actions actions ⟨hs.tagged, hs.single⟩ ⟨h.fresh, h.served, h.banner⟩
    exact ⟨owned.fresh, owned.served, owned.banner⟩

end Owned

-- A socket whose hello is under way is pending.
def Op.OfPending (σ : State) : Op → Prop
  | .hello ws _ => σ.IsPending ws
  | _           => True

theorem Exec.owned {op : Op} {ops : List Op} (e : Exec sha256hex σ op σ' ops)
    (hp : op.OfPending σ) (hs : Sound σ) (h : Owned σ) : Owned σ' := by
  cases e
  case minted =>
    exact .actions armAlarm_actions ⟨hs.tagged, hs.single⟩ ⟨h.fresh, h.served, h.banner⟩
  case accepted sid k pend p _ =>
    have ⟨σ', o, eq, sends, cases⟩ := attachTerm_cases σ sid k p
    have opened : Owned σ' := by
      refine h.registered sends fun {mid} ⟨_, ⟨sid', ha⟩, hn⟩ => ?_
      cases cases
      case inl h =>
        obtain ⟨_, hc⟩ := h
        simp [hn] at hc
      case inr h =>
        obtain ⟨_, agent, found⟩ := h
        have hm : mid = p.mid := by
          rw [sends.attachment, registered_attachment, if_pos rfl] at ha
          cases ha
          rfl
        have ⟨hl, seen, ha⟩ := hs.registered.mem_of_agentSocket found
        exact ⟨agent, sends.listed.symm ▸ hl, seen, hm ▸ (sends.attachment agent).trans ha⟩
    exact eq ▸ ⟨opened.fresh, opened.served, opened.banner⟩
  case hello ws m token =>
    cases helloDigest_actions hp.not_term
    case inl sends => exact h.sends sends
    case inr hc =>
      obtain ⟨mid, _, actions⟩ := hc
      exact (h.greeted hp hs).actions actions (hs.greeted (hs.tags_of_isPending hp))
  all_goals exact ⟨h.fresh, h.served, h.banner⟩

-- Only its own `hello` makes a pending socket something else.

theorem Action.isPending (ha : Action σ σ') (hp : σ.IsPending ws) : σ'.IsPending ws := by
  have ⟨since, hs⟩ := hp
  cases ha
  case sends h => exact ⟨since, (h.attachment ws).trans hs⟩
  case drop agent mid _ ha =>
    have hne : ws ≠ agent := by rintro rfl; exact hp.not_agent ha
    exact ⟨since, by rw [(dropAgent_drops ha).attachment, if_neg hne]; exact hs⟩
  case seen agent mid _ ha =>
    have hne : ws ≠ agent := by rintro rfl; exact hp.not_agent ha
    exact ⟨since, by rw [attachment_attach, if_neg hne]; exact hs⟩
  case accept since' =>
    by_cases hw : ws = (σ.accept [.agent]).2
    case pos => exact ⟨since', by rw [accept_attachment, if_pos hw]⟩
    case neg => exact ⟨since, by rw [accept_attachment, if_neg hw]; exact hs⟩
  all_goals exact hp

theorem Actions.isPending (ha : Actions σ σ') (hp : σ.IsPending ws) : σ'.IsPending ws :=
  ha.invariant (fun _ _ ha hp => ha.isPending hp) hp

theorem start_isPending {r : Req} {ops : List Op} (e : start σ r = some (σ', ops)) (hs : Sound σ)
    (hp : σ.IsPending ws) : σ'.IsPending ws := by
  cases start_cases hs e
  case inl actions => exact actions.isPending hp
  case inr h =>
    obtain ⟨_, _, σ₁, σ₂, _, rfl, actions, _, rfl⟩ := h
    have pending : σ₂.IsPending ws := actions.isPending hp
    exact pending

theorem Exec.isPending {op : Op} {ops : List Op} (e : Exec sha256hex σ op σ' ops) (hs : Sound σ)
    (ho : op.OfPending σ) (hne : ∀ m, op ≠ .hello ws m) (hp : σ.IsPending ws) :
    σ'.IsPending ws := by
  cases e
  case minted => exact Actions.isPending armAlarm_actions hp
  case accepted sid k pend p _ =>
    have ⟨σ', o, eq, sends, _⟩ := attachTerm_cases σ sid k p
    have other : ws ≠ terminal σ sid p := by
      rintro rfl
      simpa [terminal] using hs.tags_of_isPending hp
    have ⟨since, hp⟩ := hp
    refine eq ▸ ⟨since, (sends.attachment ws).trans ?_⟩
    rw [registered_attachment, if_neg other]
    exact hp
  case hello ws' m token =>
    have other : ws ≠ ws' := by rintro rfl; exact hne m rfl
    have ⟨since, hp'⟩ := hp
    cases helloDigest_actions ho.not_term
    case inl sends => exact ⟨since, (sends.attachment ws).trans hp'⟩
    case inr h =>
      obtain ⟨mid, _, actions⟩ := h
      refine actions.isPending ⟨since, ?_⟩
      rw [attachment_attach, if_neg other, hs.replace_attachment hp.not_agent]
      exact hp'
  all_goals exact hp

-- The rest of a `hello` on a socket.
def helloOn (ws : Ws) : Op → Bool
  | .hello ws' _ => ws' = ws
  | _            => false

-- The frames of a socket are handled one at a time. A handler awaits nothing but in `hello`.
def OneAtATime (c : Config State Op) (l : Label Req Input) : Prop :=
  ∀ t ws m m', l = .start t (.webSocketMessage ws m) → ¬c.Pending (.hello ws m')

theorem helloOn_eq_true {o : Op} : helloOn ws o ↔ ∃ m, o = .hello ws m := by
  cases o <;> simp [helloOn]

theorem Exec.not_helloOn {op : Op} {ops : List Op} (e : Exec sha256hex σ op σ' ops) :
    ∀ o ∈ ops, ¬helloOn ws o := by
  cases e <;> simp [helloOn]

-- No two hellos on one socket are under way.
theorem unique_reachable (h : (program sha256hex).system.ReachableUnder OneAtATime c) :
    c.Unique (helloOn ws) := by
  refine h.invariant (I := fun c => c.Unique (helloOn ws))
    (fun c ⟨_, idle⟩ => ⟨by simp [idle], by simp [idle]⟩) fun c l c' hr hu ok e => ?_
  replace e := Step.of e
  cases e
  case start t r σ' ops idle e =>
    by_cases hw : ∃ o ∈ ops, helloOn ws o
    case neg =>
      have none : ops.countP (helloOn ws) = 0 :=
        List.countP_eq_zero.mpr fun o ho hp => hw ⟨o, ho, hp⟩
      exact hu.resume (none ▸ Nat.zero_le _)
    case pos =>
      have ⟨o, ho, hp⟩ := hw
      have ⟨m, hm⟩ := helloOn_eq_true.mp hp
      have ⟨_, single, started⟩ := Started.of e ho
      subst hm
      cases started
      refine .resume_of_none (fun t' o ho hp => ?_) (single ▸ by simp [helloOn])
      have ⟨m', hm'⟩ := helloOn_eq_true.mp hp
      exact ok _ _ _ m' rfl ⟨t', hm' ▸ ho⟩
  case step head e => exact hu.step head (Exec.of e).not_helloOn

theorem owned_reachable (h : (program sha256hex).system.ReachableUnder OneAtATime c) :
    Owned c.shared ∧ ∀ o, c.Pending o → o.OfPending c.shared := by
  refine h.invariant (I := fun c => Owned c.shared ∧ ∀ o, c.Pending o → o.OfPending c.shared)
    (fun c hi => ?_) fun c l c' hr hi ok e => ?_
  case refine_1 =>
    obtain ⟨⟨now, hi⟩, idle⟩ := hi
    exact ⟨hi ▸ ⟨by simp, by simp [OpenTerm], by simp [attachment]⟩, by simp [Config.Pending, idle]⟩
  obtain ⟨owned, pending⟩ := hi
  replace e := Step.of e
  have sound := (sound_reachable hr.reachable).left
  cases e
  case start t r σ' ops idle e =>
    refine ⟨owned.start sound e, fun o ho => ?_⟩
    cases ho.of_resume
    case inl ho =>
      obtain ⟨same, _, started⟩ := Started.of e ho
      cases started
      case hello ha _ _ => exact same ▸ ⟨_, ha⟩
      all_goals trivial
    case inr ho =>
      cases o
      case hello => exact start_isPending e sound (pending _ ho)
      all_goals trivial
  case step t i op rest σ' ops head e =>
    replace e := Exec.of e
    have of_head := pending op ⟨t, by simp [head]⟩
    refine ⟨e.owned of_head sound owned, fun o ho => ?_⟩
    cases o
    case hello ws m =>
      -- The hello that was executed was the only one on its socket.
      have other (m' : Json) : op ≠ .hello ws m' := by
        rintro rfl
        obtain ⟨t', ho⟩ := ho
        have unique : c.Unique (helloOn ws) := unique_reachable hr
        exact unique.none_of_head head (by simp [helloOn]) e.not_helloOn ho (by simp [helloOn])
      cases ho.of_step head
      case inl ho =>
        have quiet : ¬helloOn ws (.hello ws m) := e.not_helloOn _ ho
        simp [helloOn] at quiet
      case inr ho => exact e.isPending sound of_head other (pending _ ho)
    all_goals trivial

-- Of the sockets that are listed, at most one is an agent's for each machine, and each terminal that the
-- relay did not close has the agent of its machine. What the relay sent a terminal that it closed, it
-- sent before.
theorem ownership (h : (program sha256hex).system.ReachableUnder OneAtATime c) :
    (∀ ws ws' mid, ws ∈ c.shared.listed → ws' ∈ c.shared.listed → c.shared.IsAgent ws mid →
      c.shared.IsAgent ws' mid → ws = ws') ∧
    (∀ ws sid mid, ws ∈ c.shared.listed → c.shared.attachment ws = some (.term sid mid) →
      (c.shared.socks ws).closed = none → ∃ agent ∈ c.shared.listed, c.shared.IsAgent agent mid) ∧
    (∀ ws sid mid, c.shared.attachment ws = some (.term sid mid) →
      (c.shared.socks ws).closed.isSome →
      ∃ f ∈ (c.shared.socks ws).sent, f.t = "err" ∨ f.t = "exit") := by
  have sound := (sound_reachable h.reachable).left
  have owned := (owned_reachable h).left
  exact ⟨fun _ _ _ => sound.single, fun _ sid _ hl ha hc => owned.served ⟨hl, ⟨sid, ha⟩, hc⟩,
    fun _ _ _ => owned.banner⟩

-- The agent says hello, and then a terminal is opened.
theorem ownership_sample :
    let agent : Ws := ⟨0, [.agent]⟩
    let term : Ws := ⟨1, [.term, .sid "a0", .mid "5c"]⟩
    let m : Json := .obj [("t", .str "hello"), ("token", .str "e1"), ("e2e", .bool true)]
    let ls₁ : List (Label Req Input) := [
      .start 0 .upgradeAgent, .start 0 .apiTokens, .step 0 (.body none "5c" "e1"), .step 0 .done]
    let ls₂ : List (Label Req Input) := [
      .step 1 .done, .start 0 (.apiTerm "5c"), .step 0 (.body none "a0" "7d"), .step 0 .done,
      .start 0 (.upgradeTerm "a0" "7d"), .step 0 .done]
    ∃ c, (program id).system.run initial
        (ls₁ ++ .start 1 (.webSocketMessage agent (some m)) :: ls₂) = some c ∧
      term ∈ c.shared.listed ∧ c.shared.attachment term = some (.term "a0" "5c") ∧
      ∃ agent ∈ c.shared.listed, c.shared.IsAgent agent "5c" := by
  intro agent term m ls₁ ls₂
  cases e : (program id).system.run initial
    (ls₁ ++ .start 1 (.webSocketMessage agent (some m)) :: ls₂)
  case none => contradiction
  case some c =>
    have ⟨c₁, e₁, e'⟩ := Transition.run_append_eq_some.mp e
    have ⟨c₂, e₂, e₃⟩ := Transition.run_cons_eq_some.mp e'
    have idle (t : Tid) : c₁.procs t = [] := by
      by_cases ht : t = 0
      case pos => exact ht ▸ Transition.eq_of_run (f := (·.procs 0)) e₁ (by rfl)
      case neg => exact procs_of_run e₁ (by simp [ls₁, Label.tid, Ne.symm ht])
    have reachable₁ : (program id).system.ReachableUnder OneAtATime c₁ :=
      .run (.init initial_init) (by simp [ls₁, OneAtATime]) e₁
    have reachable₂ : (program id).system.ReachableUnder OneAtATime c₂ :=
      .step reachable₁ (fun _ _ _ _ _ ⟨t, ho⟩ => by simp [idle] at ho) e₂
    have reachable : (program id).system.ReachableUnder OneAtATime c :=
      .run reachable₂ (by simp [ls₂, OneAtATime]) e₃
    have listed : c.shared.listed = [agent, term] :=
      Transition.eq_of_run (f := (·.shared.listed)) e (by decide)
    have attached : c.shared.attachment term = some (.term "a0" "5c") :=
      Transition.eq_of_run (f := (·.shared.attachment term)) e (by decide)
    have unclosed : (c.shared.socks term).closed = none :=
      Transition.eq_of_run (f := fun c => (c.shared.socks term).closed) e (by decide)
    have ⟨_, served, _⟩ := ownership reachable
    have mem : term ∈ c.shared.listed := by simp [listed]
    exact ⟨c, rfl, mem, attached, served _ _ _ mem attached unclosed⟩

end Worker
