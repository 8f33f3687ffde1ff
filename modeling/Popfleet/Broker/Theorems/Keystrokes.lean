import Popfleet.Broker.Theorems.Opens
import Popfleet.Lib.Fifo

open Proto Store Program Transition

namespace Broker

-- The frame that the agent is sent for one of the terminal page.
def relayed (s : Session) (f : Msg) : Option Msg :=
  match f.t with
  | "in"     => some { t := "in", sid := s.sid, data := f.data }
  | "resize" => some { t := "resize", sid := s.sid, c := f.c, r := f.r }
  | _        => none

-- What a step reads from the page of a session.
def termReads (s : Session) (c : Config State Op) : Label Req Input → List Msg
  | .step t (.frame f) =>
    match (c.procs t).head? with
    | some (.readTerm s' _) => if s' = s then [f] else []
    | _                     => []
  | _ => []

-- The frames about what was typed into the page of a session.
def typed (sid : String) (out : List Msg) : List Msg :=
  out.filter fun m => (m.t = "in" ∨ m.t = "resize") ∧ m.sid = sid

-- The session whose frames a section will read.
def Op.reader : Op → Option Session
  | .sendOpen s _ _ => some s
  | .readTerm s _   => some s
  | _               => none

-- The session that a section of its own handler serves.
def Op.serves : Op → Option Session
  | .sendOpen s _ _ => some s
  | .readTerm s _   => some s
  | .relay s _ _    => some s
  | _               => none

-- No other session has the sid.
def Own (σ : State) (s : Session) : Prop :=
  ∀ s' ∈ σ.attaches, s'.sid = s.sid → s' = s

-- What is on the queue of an agent of what was read from the page, also after what is about to be
-- relayed.
structure Relaying (s : Session) (seen : List Msg) (c : Config State Op) : Prop where
  queued  : ∀ ac, (typed s.sid (c.shared.agentConns ac).out).Sublist (seen.filterMap (relayed s))
  pending : ∀ {ac m}, c.Pending (.relay s ac m) →
    (typed s.sid (c.shared.agentConns ac).out ++ [m]).Sublist (seen.filterMap (relayed s))

variable {sha256 : String → Digest} {σ σ' : State} {op : Op} {i : Input} {ops rest : List Op}
  {r : Req} {c c' : Config State Op} {l : Label Req Input} {t : Tid} {ac : AgentConn} {s : Session}
  {m f : Msg} {seen : List Msg}

theorem handleTerm_eq : handleTerm s ac f = (relayed s f).toList.map (.relay s ac ·) := by
  unfold handleTerm relayed
  split <;> simp_all

theorem typed_append {sid : String} {out out' : List Msg} :
    typed sid (out ++ out') = typed sid out ++ typed sid out' :=
  List.filter_append ..

theorem Own.of_suffix (ha : σ.attaches <:+ σ'.attaches) (h : Own σ' s) : Own σ s :=
  fun s' hs => h s' (ha.mem hs)

-- The thread that serves a session does nothing else.

theorem Exec.ops_serving (e : Exec sha256 σ op i σ' ops) {o : Op} (ho : o ∈ ops)
    (hs : o.serves = some s) :
    (∃ sid p a, op = .attach sid p a ∧ ops = [.sendOpen s a p.cmd]) ∨ op.serves = some s := by
  have none {ops : List Op} (h : ∀ o ∈ ops, o.serves = none) (ho : o ∈ ops) : False := by
    simp [h o ho] at hs
  cases e
  case attached sid p a =>
    cases List.mem_singleton.mp ho
    cases hs
    exact .inl ⟨sid, p, a, rfl, rfl⟩
  case opened =>
    cases List.mem_singleton.mp ho
    exact .inr hs
  case termRead =>
    refine .inr ?_
    rcases List.mem_append.mp ho with ho | ho
    case inl =>
      rw [handleTerm_eq] at ho
      obtain ⟨_, _, rfl⟩ := List.mem_map.mp ho
      exact hs
    case inr =>
      cases List.mem_singleton.mp ho
      exact hs
  case agentRead =>
    refine (none (List.forall_mem_append.mpr ⟨?_, by simp [Op.serves]⟩) ho).elim
    exact forall_handleAgent rfl (fun _ => rfl) (fun _ => rfl)
  case sessEnded close | goneEnded close =>
    exact (none (List.forall_mem_cons.mpr ⟨rfl, forall_close close fun _ _ => rfl⟩) ho).elim
  all_goals exact (none (by simp +contextual [Op.serves, or_imp]) ho).elim

theorem serving_reachable (h : (program sha256).system.Reachable c) (t : Tid) :
    ∀ o ∈ c.procs t, ∀ s, o.serves = some s → Serves s (c.procs t) := by
  refine (thread_invariant (P := program sha256) (I := fun _ => True)
    (B := fun _ ops => ∀ o ∈ ops, ∀ s, o.serves = some s → Serves s ops) (R := fun _ _ => True)
    ?_ ?_ ?_ ?_ ?_ h).right t
  case refine_1 => exact fun _ _ => trivial
  case refine_2 => exact fun _ o ho => absurd ho List.not_mem_nil
  case refine_3 =>
    intro σ r σ' ops _ e
    refine ⟨trivial, trivial, ?_⟩
    cases r <;> cases e
    case wsAgent => split <;> simp [Op.serves]
    all_goals simp [Op.serves]
  case refine_4 =>
    intro c t i op rest σ' ops hr _ head _ hs e
    refine ⟨trivial, trivial, fun o ho s ho' => ?_⟩
    replace e := Exec.of e
    have going (serves : Serves s (op :: rest)) (hop : op.serves ≠ none ∨ rest ≠ []) :
        Serves s (ops ++ rest) := by
      refine (serves.exec e).resolve_right ?_
      rintro ⟨final, notify, rfl⟩
      cases serves
      simp [Op.serves] at hop
    rcases List.mem_append.mp ho with ho | ho
    case inr =>
      exact going (hs o (List.mem_cons_of_mem _ ho) s ho') (.inr (List.ne_nil_of_mem ho))
    case inl =>
      rcases e.ops_serving ho ho' with ⟨sid, p, a, rfl, rfl⟩ | hop
      case inr => exact going (hs op List.mem_cons_self s hop) (.inl (by simp [hop]))
      case inl =>
        cases (head ▸ alone_reachable hr t) _ List.mem_cons_self rfl
        exact .opening
  case refine_5 => exact fun _ _ _ _ _ h => h

-- Only one thread reads from the page of a session.

theorem Exec.reader_cases (e : Exec sha256 σ op i σ' ops) :
    (∀ o ∈ ops, o.reader = none) ∨
    (∃ sid p a, op = .attach sid p a ∧ ops = [.sendOpen (σ.newSession sid p.mid).2 a p.cmd]) ∨
    ∃ s before a, op.reader = some s ∧ ops = before ++ [.readTerm s a] ∧
      ∀ o ∈ before, o.reader = none := by
  cases e
  case attached sid p a => exact .inr (.inl ⟨sid, p, a, rfl, rfl⟩)
  case opened s a _ _ => exact .inr (.inr ⟨s, [], a, rfl, rfl, by simp⟩)
  case termRead s a f =>
    exact .inr (.inr ⟨s, _, a, rfl, rfl, forall_handleTerm rfl rfl⟩)
  case agentRead =>
    refine .inl (List.forall_mem_append.mpr ⟨?_, by simp [Op.reader]⟩)
    exact forall_handleAgent rfl (fun _ => rfl) (fun _ => rfl)
  case sessEnded close | goneEnded close =>
    exact .inl (List.forall_mem_cons.mpr ⟨rfl, forall_close close fun _ _ => rfl⟩)
  all_goals exact .inl (by simp +contextual [Op.reader, or_imp])

theorem reader_reachable (h : (program sha256).system.Reachable c) (s : Session) :
    c.Unique (·.reader = some s) := by
  refine h.invariant (I := (·.Unique (·.reader = some s))) ?_ ?_
  case refine_1 =>
    rintro c ⟨_, hp⟩
    exact ⟨by simp [hp], by simp [hp]⟩
  case refine_2 =>
    intro c l c' hr hi _ e
    replace e := Step.of e
    cases e
    case start t r σ' ops idle e =>
      refine hi.resume ?_
      rw [List.countP_eq_zero.mpr]
      · exact Nat.zero_le _
      · cases r <;> cases e
        case wsAgent => split <;> simp [Op.reader]
        all_goals simp [Op.reader]
    case step t i op rest σ' ops head e =>
      rcases (Exec.of e).reader_cases with none | ⟨sid, p, a, rfl, rfl⟩ | ⟨s', before, a, hop, rfl, quiet⟩
      case inl => exact hi.step head fun o ho => by simp [none o ho]
      case inr.inl =>
        by_cases he : (c.shared.newSession sid p.mid).2 = s
        case neg => exact hi.step head (by simp [Op.reader, he])
        case pos =>
          have none {o : Op} (ho : c.Pending o) : o.reader ≠ some s := by
            intro hs
            have session : o.session = some s := by
              cases o <;> first | contradiction | exact hs
            have ptr := (handles_reachable hr).left.attaches ((known_reachable hr).right o ho s session)
            exact ne_newSession ptr he.symm
          refine Config.Unique.resume_of_none (fun t o ho => by simpa using none ⟨t, ho⟩) ?_
          have zero : rest.countP (·.reader = some s) = 0 := List.countP_eq_zero.mpr fun o ho => by
            simpa using none ⟨t, head ▸ List.mem_cons_of_mem _ ho⟩
          rw [List.countP_append, zero, Nat.add_zero]
          exact List.countP_le_length
      case inr.inr =>
        refine hi.resume ?_
        have zero : before.countP (·.reader = some s) = 0 := List.countP_eq_zero.mpr fun o ho => by
          simp [quiet o ho]
        rw [head, List.countP_append, List.countP_append, zero, List.countP_singleton,
          List.countP_cons, hop]
        simp [Op.reader]
        omega

-- Two sections do not both relay for a session.
theorem relay_unique (h : (program sha256).system.Reachable c) (head : c.procs t = .relay s ac m :: rest)
    {a : AgentConn} {m' : Msg} : ¬(c.resume t σ' rest).Pending (.relay s a m') := by
  rintro ⟨t', ho⟩
  have serves {t : Tid} {a : AgentConn} {m : Msg} (ho : .relay s a m ∈ c.procs t) :
      c.procs t = [.relay s a m, .readTerm s a] := by
    have hs := serving_reachable h t _ ho s rfl
    generalize c.procs t = ops at ho hs
    cases hs <;> simp at ho
    obtain ⟨rfl, rfl⟩ := ho
    rfl
  have here := serves (head ▸ List.mem_cons_self)
  rw [Config.resume_procs] at ho
  split at ho
  case isTrue =>
    rw [here] at head
    cases head
    simp at ho
  case isFalse ht =>
    have there := serves ho
    have reads : .readTerm s a ∈ c.procs t' := by simp [there]
    have reads' : .readTerm s ac ∈ c.procs t := by simp [here]
    exact ht ((reader_reachable h s).across reads (by simp [Op.reader]) reads' (by simp [Op.reader]))

-- What is put on a queue besides what is relayed is not typed.
theorem not_typed (wf : op.WellFormed σ) (own : Own σ s) (known : op.Known σ)
    (hop : op = .sendAgent ac m ∨ ∃ s' ≠ s, op = .relay s' ac m) : typed s.sid [m] = [] := by
  refine List.filter_eq_nil_iff.mpr fun m' hm => ?_
  cases List.mem_singleton.mp hm
  rcases hop with rfl | ⟨s', hs, rfl⟩
  case inl =>
    have ⟨tag, _⟩ := wf
    simp_all
  case inr =>
    have ⟨_, sid, _⟩ := wf
    have other : s'.sid ≠ s.sid := fun he => hs (own s' (known s' rfl) he)
    simp [sid, other]

-- What a step relays later, and what it reads from the page.
theorem Exec.ops_relay (e : Exec sha256 c.shared op i σ' ops) (head : c.procs t = op :: rest)
    (hm : .relay s ac m ∈ ops) : ∃ f, Broker.relayed s f = some m ∧ termReads s c (.step t i) = [f] := by
  rcases e.ops_serving hm rfl with ⟨_, _, _, rfl, rfl⟩ | hop
  case inl => simp at hm
  case inr =>
    cases e
    case termRead s' a f =>
      cases hop
      have here : .relay s ac m ∈ handleTerm s a f := by simpa using hm
      rw [handleTerm_eq] at here
      obtain ⟨_, hf, he⟩ := List.mem_map.mp here
      cases he
      exact ⟨f, Option.mem_toList.mp hf, by simp [termReads, head]⟩
    all_goals first | (simp [Op.serves] at hop; done) | simp at hm

namespace Relaying

-- What is read from the page comes after what is on the queue.
theorem read {out : List Msg} (h : (typed s.sid out).Sublist (seen.filterMap (relayed s)))
    (hf : relayed s f = some m) :
    (typed s.sid out ++ [m]).Sublist ((seen ++ [f]).filterMap (relayed s)) := by
  rw [List.filterMap_append]
  exact h.append (by simp [hf])

theorem step (hr : (program sha256).system.Reachable c) (own : Own σ' s)
    (e : Exec sha256 c.shared op i σ' ops) (head : c.procs t = op :: rest) (h : Relaying s seen c) :
    Relaying s (seen ++ termReads s c (.step t i)) (c.resume t σ' (ops ++ rest)) := by
  have pending : c.Pending op := ⟨t, head ▸ List.mem_cons_self⟩
  have wf := (wellFormed_reachable hr).right op pending
  have known := (known_reachable hr).right op pending
  replace own := own.of_suffix e.allocates.attaches
  have grown {k : List Msg} (hk : k.Sublist (seen.filterMap (relayed s))) :
      k.Sublist ((seen ++ termReads s c (.step t i)).filterMap (relayed s)) := by
    rw [List.filterMap_append]
    exact hk.trans (List.sublist_append_left ..)
  -- A section that puts nothing on a queue that was typed here.
  have quiet (out : ∀ ac, typed s.sid (σ'.agentConns ac).out = typed s.sid (c.shared.agentConns ac).out) :
      Relaying s (seen ++ termReads s c (.step t i)) (c.resume t σ' (ops ++ rest)) := by
    refine ⟨fun ac => ?_, fun {ac m} ho => ?_⟩
    case refine_1 => exact grown (out ac ▸ h.queued ac)
    case refine_2 =>
      rw [Config.resume_shared, out]
      cases ho.of_step head
      case inr ho => exact grown (h.pending ho)
      case inl ho =>
        have ⟨f, hf, seen⟩ := e.ops_relay head ho
        exact seen ▸ read (h.queued ac) hf
  have sent {ac : AgentConn} {m : Msg} (none : typed s.sid [m] = [])
      (out : (σ'.agentConns ac).out = (c.shared.agentConns ac).out ++ [m])
      (others : ∀ a ≠ ac, (σ'.agentConns a).out = (c.shared.agentConns a).out) :
      Relaying s (seen ++ termReads s c (.step t i)) (c.resume t σ' (ops ++ rest)) := by
    refine quiet fun a => ?_
    by_cases ha : a = ac
    case neg => rw [others a ha]
    case pos => rw [ha, out, typed_append, none, List.append_nil]
  cases e.queues (unused_reachable hr)
  case same out => exact quiet fun ac => by rw [out]
  case opened hop _ out others => exact sent (by simp [typed]) out others
  case sent ac m hop _ out others =>
    by_cases hs : op = .relay s ac m
    case neg =>
      refine sent (not_typed wf own known (hop.imp_right ?_)) out others
      rintro ⟨s', rfl⟩
      exact ⟨s', by rintro rfl; exact hs rfl, rfl⟩
    case pos =>
      subst hs
      have relayed := h.pending pending
      have alone {a : AgentConn} {m' : Msg} :
          ¬(c.resume t σ' (ops ++ rest)).Pending (.relay s a m') := by
        cases e
        exact relay_unique hr head
      refine ⟨fun a => grown ?_, fun ho => absurd ho alone⟩
      by_cases ha : a = ac
      case neg => exact others a ha ▸ h.queued a
      case pos =>
        rw [ha, Config.resume_shared, out, typed_append]
        exact ((List.filter_sublist).append_left _).trans relayed

theorem start (e : Broker.start c.shared r = some (σ', ops)) (h : Relaying s seen c) :
    Relaying s seen (c.resume t σ' ops) := by
  have out (ac : AgentConn) : (σ'.agentConns ac).out = (c.shared.agentConns ac).out :=
    (start_agentConns e).left
  refine ⟨fun ac => ?_, fun {ac m} ho => ?_⟩
  case refine_1 => exact out ac ▸ h.queued ac
  case refine_2 =>
    have old := ho.of_resume.resolve_left fun hm => by
      cases r <;> cases e
      case wsAgent => split at hm <;> simp at hm
      all_goals simp at hm
    exact out ac ▸ h.pending old

end Relaying

theorem relaying_observed (h : (program sha256).system.Observed (termReads s) seen c)
    (own : Own c.shared s) : Relaying s seen c := by
  refine h.invariant (I := fun seen c => Own c.shared s → Relaying s seen c) ?_ ?_ own
  case refine_1 =>
    rintro c ⟨⟨st, now, hs⟩, hp⟩ _
    exact ⟨fun ac => by simp [hs, typed], fun ⟨t, ho⟩ => by simp [hp] at ho⟩
  case refine_2 =>
    intro seen c l c' hr hi e own
    replace e := Step.of e
    cases e
    case start e =>
      have ⟨_, _, _, log⟩ := start_shared e
      have old : Own c.shared s := own.of_suffix (by simp [State.attaches, log])
      simpa [termReads] using (hi old).start e
    case step head e =>
      replace e := Exec.of e
      have old : Own c.shared s := own.of_suffix e.allocates.attaches
      exact (hi old).step hr.reachable own e head

theorem own_of_fresh (h : (program sha256).system.Reachable c) (hf : c.shared.FreshSids)
    (hs : s ∈ c.shared.attaches) : Own c.shared s :=
  fun _ hs' he => List.inj_on_of_nodup_map (attaches_nodup h hf) hs' hs he

-- What an agent is told of what was typed into the page of a session is what was read from the page, in
-- this order: no frame is made up, told twice or overtakes another, and none comes from another page.
theorem keystrokes_in_order (h : (program sha256).system.Observed (termReads s) seen c)
    (fresh : c.shared.FreshSids) (hs : s ∈ c.shared.attaches) (ac : AgentConn) :
    (typed s.sid (c.shared.agentConns ac).out).Sublist (seen.filterMap (relayed s)) :=
  (relaying_observed h (own_of_fresh h.reachable fresh hs)).queued ac

-- The user of a0 types "x".
theorem keystrokes_in_order_sample :
    let ls := sampleOpened ++ [.step 2 (.frame { t := "in", data := "eA==" }), .step 2 .done]
    let f : Msg := { t := "in", sid := "a0", data := "eA==" }
    ∃ c, (program sampleSum).system.run initial ls = some c ∧
      typed "a0" (c.shared.agentConns ⟨0, "5c"⟩).out = [f] ∧
      (typed "a0" (c.shared.agentConns ⟨0, "5c"⟩).out).Sublist [f] := by
  intro ls f
  have ran : ((program sampleSum).system.run initial ls).isSome := by decide
  have ⟨c, e⟩ := Option.isSome_iff_exists.mp ran
  have mints : c.shared.mints.map (·.1) = ["a0"] :=
    Transition.eq_of_run (f := fun c => c.shared.mints.map (·.1)) e (by decide)
  have attaches : c.shared.attaches = [⟨1, "a0", "5c"⟩] :=
    Transition.eq_of_run (f := (·.shared.attaches)) e (by decide)
  have observed := (Observed.init (f := termReads ⟨1, "a0", "5c"⟩) (initial_init sampleSum)).run e
  exact ⟨c, e,
    Transition.eq_of_run (f := fun c => typed "a0" (c.shared.agentConns ⟨0, "5c"⟩).out) e (by decide),
    keystrokes_in_order observed (by simp [State.FreshSids, mints]) (by simp [attaches]) ⟨0, "5c"⟩⟩

end Broker
