import Popfleet.Worker.Theorems.Ownership

open Program

namespace Worker

open State

-- A socket that has a deadline, or will get one: a pending one that is yet to say hello, an agent, and a
-- terminal.
def State.Alive (σ : State) (ws : Ws) : Prop :=
  (∃ mid, σ.IsAgent ws mid) ∨
  (σ.socks ws).closed = none ∧ (σ.IsPending ws ∨ ∃ sid mid, σ.attachment ws = some (.term sid mid))

-- There is something to sweep.
def State.Due (σ : State) : Prop :=
  (∃ sid, (σ.pend.get? sid).isSome) ∨ ∃ ws ∈ σ.listed, σ.Alive ws

-- Nothing becomes due, and the alarm stays as it is.
structure Quiet (σ σ' : State) : Prop where
  alarm  : σ'.alarm = σ.alarm
  pend   : ∀ sid, (σ'.pend.get? sid).isSome → (σ.pend.get? sid).isSome
  listed : σ'.listed ⊆ σ.listed
  alive  : ∀ ws, σ'.Alive ws → σ.Alive ws

variable {σ σ' σ₁ σ₂ σ₃ : State} {ws ws' old : Ws} {mid sid why sum k : String} {m : Json}
  {now : Time} {s : State × Bool} {l : List Ws} {r : Req} {ops : List Op} {p : Pend}
  {sha256hex : String → String} {op : Op} {c : Config State Op}

namespace Quiet

theorem refl : Quiet σ σ :=
  ⟨rfl, fun _ => id, List.Subset.refl _, fun _ => id⟩

theorem trans (h₁ : Quiet σ₁ σ₂) (h₂ : Quiet σ₂ σ₃) : Quiet σ₁ σ₃ where
  alarm    := h₂.alarm.trans h₁.alarm
  pend sid := h₁.pend sid ∘ h₂.pend sid
  listed   := List.Subset.trans h₂.listed h₁.listed
  alive ws := h₁.alive ws ∘ h₂.alive ws

theorem due (h : Quiet σ σ') (hd : σ'.Due) : σ.Due := by
  cases hd
  case inl hd =>
    have ⟨sid, hp⟩ := hd
    exact .inl ⟨sid, h.pend sid hp⟩
  case inr hd =>
    have ⟨ws, hl, ha⟩ := hd
    exact .inr ⟨ws, h.listed hl, h.alive ws ha⟩

theorem of_sends (h : Sends σ σ') : Quiet σ σ' where
  alarm      := congrArg (·.alarm) h.rest
  pend sid   := by
    have pend : σ'.pend = σ.pend := congrArg (·.pend) h.rest
    exact pend ▸ id
  listed     := h.listed ▸ List.Subset.refl _
  alive ws a := by
    simp only [Alive, IsAgent, IsPending, h.attachment ws] at a ⊢
    refine a.imp_right fun ⟨hc, a⟩ => ⟨?_, a⟩
    by_contra hs
    have closed := h.closed ws (Option.isSome_iff_ne_none.mpr hs)
    simp [hc] at closed

theorem of_drops (h : Drops σ σ' old mid) : Quiet σ σ' where
  alarm      := congrArg (·.alarm) h.rest
  pend sid   := by
    have pend : σ'.pend = σ.pend := congrArg (·.pend) h.rest
    exact pend ▸ id
  listed     := h.listed ▸ List.Subset.refl _
  alive ws a := by
    simp only [Alive, IsAgent, IsPending, h.attachment ws] at a ⊢
    by_cases he : ws = old
    case pos => simp [he] at a
    case neg =>
      simp only [if_neg he] at a
      refine a.imp_right fun ⟨hc, a⟩ => ⟨?_, a⟩
      by_contra hs
      have closed := h.closed ws (Option.isSome_iff_ne_none.mpr hs)
      simp [hc] at closed

theorem of_machine {machine : GoMap String Machine} {tok : GoMap String String} :
    Quiet σ { σ with machine, tok } :=
  ⟨rfl, fun _ => id, List.Subset.refl _, fun _ => id⟩

theorem of_touchLastSeen : Quiet σ (σ.touchLastSeen mid ws) := by
  unfold touchLastSeen
  split
  case h_1 => exact .refl
  case h_2 => exact .of_machine

-- An agent was seen.
theorem of_seen {seen : Time} (h : σ.IsAgent ws mid) : Quiet σ (σ.attach ws (.agent mid seen)) where
  alarm       := rfl
  pend _      := id
  listed      := List.Subset.refl _
  alive ws' a := by
    by_cases he : ws' = ws
    case pos => exact .inl ⟨mid, he ▸ h⟩
    case neg =>
      simpa only [Alive, IsAgent, IsPending, attachment_attach, attach_closed, if_neg he] using a

end Quiet

-- What comes with a frame, and the end of a socket.

theorem fromAgent_quiet (h : σ.IsAgent ws mid) : Quiet σ (fromAgent σ ws mid m) := by
  unfold fromAgent
  split
  case h_1 => exact .of_sends sends_throw
  case h_2 =>
    split
    case isTrue => exact .of_seen h
    case isFalse =>
      split
      case isFalse => exact .refl
      case isTrue =>
        split
        case h_1 => exact .of_sends sends_throw
        case h_2 => exact .of_sends fromAgentTo_sends

theorem reap_quiet : Quiet σ (reap σ ws) := by
  unfold reap
  split
  case h_1 =>
    split
    case h_1 => exact .refl
    case h_2 => exact .of_sends sends_wsSend
  case h_2 mid seen h => exact .trans (.of_drops (dropAgent_drops ⟨seen, h⟩)) .of_touchLastSeen
  case h_3 => exact .refl

theorem closed_quiet (e : closed σ ws = some (σ', ops)) : Quiet σ σ' := by
  unfold closed at e
  split at e <;> cases e
  have unlist : Quiet (reap σ ws)
      { reap σ ws with listed := (reap σ ws).listed.filter (· ≠ ws) } :=
    ⟨rfl, fun _ => id, List.filter_sublist.subset, fun _ => id⟩
  exact reap_quiet.trans unlist

-- The sweep looks at each socket once. What is alive afterwards was so then.

theorem sweep_quiet :
    Quiet s.1 (sweep now s ws).1 ∧ (s.2 = true → (sweep now s ws).2 = true) ∧
      ((sweep now s ws).1.Alive ws → (sweep now s ws).2 = true) := by
  unfold sweep
  dsimp only
  split
  case h_1 since h =>
    split
    case isFalse => exact ⟨.refl, fun _ => rfl, fun _ => rfl⟩
    case isTrue =>
      have closed : Sends s.1 (s.1.close ws 1002 "no hello") :=
        sends_close fun _ _ ha => by simp [h] at ha
      refine ⟨.of_sends closed, id, fun a => ?_⟩
      have shut : ((s.1.close ws 1002 "no hello").socks ws).closed.isSome := close_closed
      rcases a with ⟨_, _, ha⟩ | ⟨hc, _⟩
      case inl => simp [closed.attachment, h] at ha
      case inr =>
        have hc : ((s.1.close ws 1002 "no hello").socks ws).closed = none := hc
        simp [hc] at shut
  case h_2 mid seen h =>
    split
    case isFalse => exact ⟨.refl, fun _ => rfl, fun _ => rfl⟩
    case isTrue =>
      have drops : Drops s.1 (s.1.dropAgent ws "agent went offline") ws mid :=
        dropAgent_drops ⟨seen, h⟩
      refine ⟨.trans (.of_drops drops) .of_touchLastSeen, id, fun a => ?_⟩
      replace a := Quiet.of_touchLastSeen.alive ws a
      simp [Alive, IsAgent, IsPending, drops.attachment] at a
  case h_3 h => exact ⟨.refl, fun _ => rfl, fun _ => rfl⟩
  case h_4 h₁ h₂ h₃ =>
    refine ⟨.refl, id, fun a => ?_⟩
    rcases a with ⟨mid, seen, ha⟩ | ⟨_, ⟨since, ha⟩ | ⟨sid, mid, ha⟩⟩
    case inl         => exact absurd ha (h₂ _ _)
    case inr.inl     => exact absurd ha (h₁ _)
    case inr.inr     => exact absurd ha (h₃ _ _)

theorem sweeps_quiet :
    let s' := l.foldl (sweep now) s
    Quiet s.1 s'.1 ∧ (s.2 = true → s'.2 = true) ∧ ∀ ws ∈ l, s'.1.Alive ws → s'.2 = true := by
  induction l generalizing s
  case nil => exact ⟨.refl, id, by simp⟩
  case cons ws l hi =>
    have ⟨quiet₁, kept₁, alive₁⟩ := @sweep_quiet ws now s
    have ⟨quiet₂, kept₂, alive₂⟩ := @hi (sweep now s ws)
    refine ⟨quiet₁.trans quiet₂, kept₂ ∘ kept₁, List.forall_mem_cons.mpr ⟨fun a => ?_, alive₂⟩⟩
    exact kept₂ (alive₁ (quiet₂.alive ws a))

theorem alarm_due (hd : (alarm σ).Due) : (alarm σ).alarm.isSome := by
  let swept : State := { σ with
    alarm := none, pend := σ.pend.deleteWhere fun _ p => σ.now > p.exp }
  have ⟨quiet, kept, alive⟩ :=
    @sweeps_quiet σ.now (swept, σ.pend.entries.length > 0) σ.listed
  revert hd
  unfold alarm
  dsimp only
  split
  case isTrue => exact fun _ => rfl
  case isFalse dead =>
    intro hd
    refine absurd ?_ dead
    cases hd
    case inl hd =>
      have ⟨sid, hp⟩ := hd
      have ⟨p, hp⟩ := Option.isSome_iff_exists.mp (quiet.pend sid hp)
      have ⟨hp, _⟩ := GoMap.get?_deleteWhere_eq_some.mp hp
      have pending := List.length_pos_of_mem (GoMap.mem_entries_iff.mpr hp)
      exact kept (decide_eq_true pending)
    case inr hd =>
      have ⟨ws, hl, ha⟩ := hd
      exact alive ws (quiet.listed hl) ha

-- The handlers that make something due arm the alarm.

theorem armAlarm_isSome : σ.armAlarm.alarm.isSome := by
  unfold armAlarm
  split
  case h_1 h => simp [h]
  case h_2   => rfl

theorem start_due (hs : Sound σ) (e : start σ r = some (σ', ops)) (h : σ.Due → σ.alarm.isSome)
    (hd : σ'.Due) : σ'.alarm.isSome := by
  have quiet (hq : Quiet σ σ') : σ'.alarm.isSome := hq.alarm ▸ h (hq.due hd)
  cases r <;> simp only [start] at e
  case apiTokens | apiTerm | upgradeTerm => cases e; exact h hd
  case apiDelete mid =>
    split at e
    case h_1 => cases e; exact h hd
    case h_2 m _ =>
      split at e <;> cases e
      case h_1 => exact h hd
      case h_2 old found =>
        let deleted : State := { σ with
          machine := σ.machine.delete mid, tok := σ.tok.delete m.tokenSum }
        have sound : Sound deleted := ⟨hs.tagged, hs.single⟩
        have drops : Drops deleted (deleted.dropAgent old "machine revoked") old mid :=
          dropAgent_drops (sound.mem_of_agentSocket found).right
        exact quiet (.trans .of_machine (.trans (.of_drops drops)
          ⟨rfl, fun _ => id, List.Subset.refl _, fun _ => id⟩))
  case upgradeAgent => cases e; exact armAlarm_isSome
  case webSocketMessage ws _ =>
    split at e
    case isFalse => contradiction
    case isTrue =>
      split at e
      case h_1 => cases e; exact h hd
      case h_2 =>
        split at e
        case h_1 m _ _ h =>
          have same : (hello σ ws m).1 = σ' := congrArg Prod.fst (Option.some.inj e)
          exact quiet (same ▸ .of_sends (hello_sends fun _ _ ha => by simp [h] at ha))
        case h_2 h => cases e; exact quiet (fromAgent_quiet ⟨_, h⟩)
        case h_3   => cases e; exact quiet (.of_sends fromTerm_sends)
        case h_4   => cases e; exact h hd
  case webSocketClose | webSocketError => exact quiet (closed_quiet e)
  case alarm =>
    split at e
    case h_1 => contradiction
    case h_2 =>
      split at e <;> cases e
      exact alarm_due hd
  case autoResponse =>
    split at e <;> cases e
    exact quiet (.of_sends (sends_setSock rfl (List.Subset.refl _) id fun _ => .inl))
  case tick => cases e; exact h hd

theorem helloDigest_due (ht : ∀ sid mid, σ.attachment ws ≠ some (.term sid mid))
    (h : σ.Due → σ.alarm.isSome) (hd : (helloDigest σ ws m sum).Due) :
    (helloDigest σ ws m sum).alarm.isSome := by
  have quiet (hs : Sends σ (helloDigest σ ws m sum)) : (helloDigest σ ws m sum).alarm.isSome :=
    (Quiet.of_sends hs).alarm ▸ h ((Quiet.of_sends hs).due hd)
  revert hd quiet
  unfold helloDigest
  dsimp only
  split
  case h_1 => exact fun _ quiet => quiet (sends_close fun _ _ ha => absurd ha (ht _ _))
  case h_2 =>
    split
    case isFalse => exact fun _ quiet => quiet (sends_wsSend_close (.inl rfl))
    case isTrue  => exact fun _ _ => armAlarm_isSome

-- A terminal is only left open where there is an agent, for which the alarm is armed.

theorem registered_listed : (registered σ sid p).listed = σ.listed ++ [terminal σ sid p] :=
  rfl

theorem registered_closed (hne : ws ≠ terminal σ sid p) :
    ((registered σ sid p).socks ws).closed = (σ.socks ws).closed :=
  congrArg Sock.closed (accept_socks.trans (if_neg hne))

theorem due_of_agentSocket {agent : Ws} (hs : Sound σ)
    (found : (registered σ sid p).agentSocket mid = some agent) : σ.Due := by
  have ⟨hl, seen, ha⟩ := hs.registered.mem_of_agentSocket found
  rw [registered_attachment] at ha
  split at ha
  case isTrue => cases ha
  case isFalse hne =>
    rw [registered_listed, List.mem_append, List.mem_singleton] at hl
    exact .inr ⟨agent, hl.resolve_right hne, .inl ⟨mid, seen, ha⟩⟩

theorem due_of_terminal_closed (hs : Sends (registered σ sid p) σ')
    (hc : (σ'.socks (terminal σ sid p)).closed.isSome) (hd : σ'.Due) : σ.Due := by
  have quiet : Quiet (registered σ sid p) σ' := .of_sends hs
  cases hd
  case inl hd =>
    have ⟨sid', hp⟩ := hd
    have ⟨p', hp⟩ := Option.isSome_iff_exists.mp (quiet.pend sid' hp)
    exact .inl ⟨sid', Option.isSome_iff_exists.mpr ⟨p', (GoMap.of_get?_delete hp).right⟩⟩
  case inr hd =>
    have ⟨ws, hl, ha⟩ := hd
    have hne : ws ≠ terminal σ sid p := by
      rintro rfl
      rcases ha with ⟨mid, seen, ha⟩ | ⟨hn, _⟩
      case inl => simp [hs.attachment, registered_attachment] at ha
      case inr => simp [hn] at hc
    have listed := quiet.listed hl
    rw [registered_listed, List.mem_append, List.mem_singleton] at listed
    refine .inr ⟨ws, listed.resolve_right hne, ?_⟩
    simpa only [Alive, IsAgent, IsPending, registered_attachment, registered_closed hne,
      if_neg hne] using quiet.alive ws ha

theorem attachTerm_due (hs : Sound σ) (h : σ.Due → σ.alarm.isSome)
    (hd : (attachTerm σ sid k p).Due) : (attachTerm σ sid k p).alarm.isSome := by
  have ⟨σ', o, eq, sends, opened⟩ := attachTerm_cases σ sid k p
  rw [eq] at hd ⊢
  have alarm : σ'.alarm = σ.alarm := congrArg (·.alarm) sends.rest
  refine (congrArg Option.isSome alarm).trans (h ?_)
  cases opened
  case inl h =>
    have ⟨_, hc⟩ := h
    exact due_of_terminal_closed sends hc hd
  case inr h =>
    have ⟨_, agent, found⟩ := h
    exact due_of_agentSocket hs found

theorem Exec.due (hs : Sound σ) (e : Exec sha256hex σ op σ' ops) (h : σ.Due → σ.alarm.isSome)
    (ho : op.OfAgent) (hd : σ'.Due) : σ'.alarm.isSome := by
  cases e
  case minted => exact armAlarm_isSome
  case accepted => exact attachTerm_due hs h hd
  case hello    => exact helloDigest_due (fun _ _ => hs.not_term ho) h hd
  all_goals exact h hd

-- Whenever a key is pending, or a socket is an agent's, a terminal that is open or one that may still
-- say hello, the next sweep is scheduled.
theorem sweep_due (h : (program sha256hex).system.Reachable c)
    (hd : (∃ sid p, c.shared.pend.get? sid = some p) ∨
      (∃ ws ∈ c.shared.listed, c.shared.IsPending ws ∧ (c.shared.socks ws).closed = none) ∨
      (∃ ws ∈ c.shared.listed, ∃ mid, c.shared.IsAgent ws mid) ∨
      (∃ ws ∈ c.shared.listed, (∃ sid mid, c.shared.attachment ws = some (.term sid mid)) ∧
        (c.shared.socks ws).closed = none)) :
    c.shared.alarm.isSome := by
  have swept : c.shared.Due → c.shared.alarm.isSome := by
    refine h.invariant (I := fun c => c.shared.Due → c.shared.alarm.isSome) ?_ ?_
    case refine_1 =>
      rintro c ⟨⟨now, hi⟩, _⟩
      simp [hi, Due]
    case refine_2 =>
      intro c l c' hr hi _ e
      have ⟨sound, ofAgent⟩ := sound_reachable hr
      replace e := Step.of e
      cases e
      case start e     => exact start_due sound e hi
      case step head e => exact (Exec.of e).due sound hi (ofAgent _ ⟨_, head ▸ List.mem_cons_self⟩)
  apply swept
  rcases hd with ⟨sid, p, hp⟩ | ⟨ws, hl, hp, hc⟩ | ⟨ws, hl, mid, ha⟩ | ⟨ws, hl, ha, hc⟩
  case inl             => exact .inl ⟨sid, by simp [hp]⟩
  case inr.inl         => exact .inr ⟨ws, hl, .inr ⟨hc, .inl hp⟩⟩
  case inr.inr.inl     => exact .inr ⟨ws, hl, .inl ⟨mid, ha⟩⟩
  case inr.inr.inr     => exact .inr ⟨ws, hl, .inr ⟨hc, .inr ha⟩⟩

-- An agent says hello, and the first sweep runs.
theorem sweep_due_sample :
    let agent : Ws := ⟨0, [.agent]⟩
    let ls : List (Label Req Input) :=
      sampleAgent ++ [.start 0 (.tick sweepMs), .start 0 .alarm]
    ∃ c, (program id).system.run initial ls = some c ∧ c.shared.IsAgent agent "5c" ∧
      c.shared.alarm.isSome := by
  intro agent ls
  cases e : (program id).system.run initial ls
  case none =>
    have ran : ((program id).system.run initial ls).isSome := by decide
    simp [e] at ran
  case some c =>
    have reachable := Transition.Reachable.run (.init initial_init) e
    have listed : c.shared.listed = [agent] :=
      Transition.eq_of_run (f := (·.shared.listed)) e (by decide)
    have attached : c.shared.attachment agent = some (.agent "5c" 0) :=
      Transition.eq_of_run (f := (·.shared.attachment agent)) e (by decide)
    have isAgent : c.shared.IsAgent agent "5c" := ⟨0, attached⟩
    have due := sweep_due reachable (.inr (.inr (.inl ⟨agent, by simp [listed], "5c", isAgent⟩)))
    exact ⟨c, rfl, isAgent, due⟩

end Worker
