import Popfleet.Broker.Theorems.Orphans

open Proto Store Program

namespace Broker

-- The session that a section is about.
def Op.session : Op → Option Session
  | .closeSess s _    => some s
  | .sendBrowser s _  => some s
  | .endSession s _ _ => some s
  | .sendOpen s _ _   => some s
  | .readTerm s _     => some s
  | .relay s _ _      => some s
  | _                 => none

-- The session of a section was attached.
def Op.Known (σ : State) (o : Op) : Prop :=
  ∀ s, o.session = some s → s ∈ σ.attaches

-- The sessions in the map were attached.
def Known (σ : State) : Prop :=
  ∀ {sid s}, σ.sess.get? sid = some s → s ∈ σ.attaches

variable {sha256 : String → Digest} {σ σ' : State} {op : Op} {i : Input} {ops rest : List Op}
  {r : Req} {c c' : Config State Op} {t : Tid} {s : Session}

theorem Known.exec (e : Exec sha256 σ op i σ' ops) (h : Known σ) : Known σ' := by
  cases e
  case replaced | dropped => exact fun hs => h (GoMap.get?_deleteWhere_eq_some.mp hs).left
  case ended | sessEnded  => exact fun hs => h (GoMap.of_get?_delete hs).right
  case attached =>
    intro sid s hs
    cases GoMap.of_get?_set hs
    case inl h =>
      obtain ⟨_, rfl⟩ := h
      exact List.mem_cons_self
    case inr hc =>
      obtain ⟨_, hs⟩ := hc
      exact List.mem_cons_of_mem _ (h hs)
  all_goals exact h

theorem Exec.ops_known (e : Exec sha256 σ op i σ' ops) (h : Known σ) (ho : op.Known σ) :
    ∀ o ∈ ops, o.Known σ' := by
  have none {o : Op} (hn : o.session = none) : o.Known σ' := by simp [Op.Known, hn]
  have some {o : Op} {s : Session} (hs : o.session = some s) (ha : s ∈ σ'.attaches) : o.Known σ' := by
    simpa [Op.Known, hs] using ha
  have victim {s : Session} {mid : String} (hv : s ∈ σ.victims mid) : s ∈ σ.attaches :=
    have ⟨_, hs, _⟩ := GoMap.mem_valuesWhere.mp hv
    h hs
  cases e <;> simp only [List.cons_append, List.forall_mem_cons, List.forall_mem_append,
    List.forall_mem_map, List.not_mem_nil, IsEmpty.forall_iff, implies_true, and_true]
  case replaced => exact ⟨none rfl, fun s hv => some rfl (victim hv), none rfl, none rfl⟩
  case dropped  => exact ⟨none rfl, fun s hv => some rfl (victim hv)⟩
  case agentRead =>
    exact ⟨forall_handleAgent (none rfl) (fun _ => none rfl) (fun _ => none rfl), none rfl⟩
  case routed hs _ => exact some rfl (h hs)
  case ended hs _  => exact some rfl (h hs)
  case sessEnded close | goneEnded close => exact ⟨ho, forall_close close fun _ _ => none rfl⟩
  case attached => exact some rfl List.mem_cons_self
  case termRead => exact ⟨forall_handleTerm ho ho, ho⟩
  case browserSlow | opened | notOpened | termLost => exact ho
  case registered => exact ⟨none rfl, none rfl⟩
  case knownToken => exact ⟨none rfl, none rfl⟩
  case deleted => exact ⟨none rfl, none rfl⟩
  all_goals exact none rfl

theorem known_reachable (h : (program sha256).system.Reachable c) :
    Known c.shared ∧ ∀ o, c.Pending o → o.Known c.shared := by
  refine section_invariant (P := program sha256) (I := Known) (A := Op.Known)
    (R := fun σ σ' => σ.attaches <:+ σ'.attaches) ?_ ?_ ?_ ?_ h
  case refine_1 =>
    rintro σ ⟨st, now, rfl⟩
    simp [Known]
  case refine_2 =>
    intro σ r σ' ops h e
    have ⟨_, _, sess, log⟩ := start_shared e
    have attaches : σ'.attaches = σ.attaches := by simp only [State.attaches, log]
    refine ⟨fun hs => attaches ▸ h (sess ▸ hs), attaches ▸ List.suffix_refl _, ?_⟩
    cases r <;> cases e
    case wsAgent => split <;> simp [Op.Known, Op.session]
    all_goals simp [Op.Known, Op.session]
  case refine_3 =>
    intro c _ i op _ σ' ops _ _ _ h ho e
    replace e := Exec.of e
    exact ⟨h.exec e, e.allocates.attaches, e.ops_known h ho⟩
  case refine_4 => exact fun _ _ _ _ ha ho s hs => ha.mem (ho s hs)

-- What is enqueued for a browser. Once the connection is closed, nothing more is.

theorem Conn.send_of_closed {c : Conn} {m : Msg} (h : c.closed) : (c.send m).1 = c := by
  simp [send, h]

theorem Conn.send_of_full {c : Conn} {m : Msg} (h : c.full) : (c.send m).1 = c := by
  simp [send, h]

theorem Conn.close_of_closed {c : Conn} {final : Option Msg} (h : c.closed) : c.close final = c := by
  simp [close, h]

theorem Conn.close_out {c : Conn} {final : Option Msg} (h : c.closed = false) :
    (c.close final).out = c.out ++ if c.full then [] else final.toList := by
  cases final
  case none => simp
  case some => cases hf : c.full <;> simp [close, send, h, hf]

theorem start_sessConns (e : start σ r = some (σ', ops)) :
    (σ'.sessConns s).out = (σ.sessConns s).out ∧ (σ'.sessConns s).closed = (σ.sessConns s).closed := by
  cases r <;> cases e
  case drainSess =>
    simp only [Function.update_apply]
    split
    case isTrue he => simp [he]
    case isFalse   => exact ⟨rfl, rfl⟩
  all_goals exact ⟨rfl, rfl⟩

theorem ne_newSession {sid mid : String} (hs : s.ptr < σ.next) : s ≠ (σ.newSession sid mid).2 := by
  intro he
  exact absurd hs (he ▸ Nat.lt_irrefl _)

-- Only three sections change the connection of a session, besides the one that attaches it.
theorem Exec.sessConns_cases (e : Exec sha256 σ op i σ' ops)
    (hn : ∀ sid p ac, op = .attach sid p ac → s ≠ (σ.newSession sid p.mid).2) :
    σ'.sessConns s = σ.sessConns s ∨
    (∃ final, op = .closeSess s final ∧ σ'.sessConns s = (σ.sessConns s).close final) ∨
    (∃ m, op = .sendBrowser s m ∧ σ'.sessConns s = ((σ.sessConns s).send m).1) := by
  cases e
  case sessClosed s' final =>
    by_cases he : s = s'
    case neg => exact .inl (Function.update_of_ne he ..)
    case pos => exact .inr (.inl ⟨final, he ▸ rfl, by simp [State.closeSess, he]⟩)
  case browserSent s' m _ | browserSlow s' m _ =>
    by_cases he : s = s'
    case neg => exact .inl (Function.update_of_ne he ..)
    case pos => exact .inr (.inr ⟨m, he ▸ rfl, by simp [State.sendBrowser, he]⟩)
  case attached sid p ac => exact .inl (Function.update_of_ne (hn sid p ac rfl) ..)
  all_goals exact .inl rfl

theorem Exec.sessConns_frozen (e : Exec sha256 σ op i σ' ops) (hs : s.ptr < σ.next)
    (h : (σ.sessConns s).closed) : σ'.sessConns s = σ.sessConns s := by
  rcases e.sessConns_cases fun _ _ _ _ => ne_newSession hs with same | ⟨_, _, close⟩ | ⟨_, _, send⟩
  case inl     => exact same
  case inr.inl => exact close.trans (Conn.close_of_closed h)
  case inr.inr => exact send.trans (Conn.send_of_closed h)

theorem out_frozen (h : (program sha256).system.Reachable c) (hs : s ∈ c.shared.attaches)
    (hc : (c.shared.sessConns s).closed) (h' : ((program sha256).system.after c).Reachable c') :
    (c'.shared.sessConns s).out = (c.shared.sessConns s).out ∧ (c'.shared.sessConns s).closed := by
  refine (h'.invariant (I := fun c' => s ∈ c'.shared.attaches ∧
    (c'.shared.sessConns s).out = (c.shared.sessConns s).out ∧
    (c'.shared.sessConns s).closed) ?_ ?_).right
  case refine_1 =>
    rintro c' rfl
    exact ⟨hs, rfl, hc⟩
  case refine_2 =>
    rintro c₁ l c₂ hr ⟨hs, out, closed⟩ _ e
    replace e : (program sha256).system.step c₁ l = some c₂ := e
    replace e := Step.of e
    cases e
    case start e =>
      have ⟨out', closed'⟩ := @start_sessConns _ _ _ _ s e
      have ⟨_, _, _, log⟩ := start_shared e
      have attaches {σ₁ σ₂ : State} (h : σ₂.log = σ₁.log) : σ₂.attaches = σ₁.attaches := by
        simp only [State.attaches, h]
      exact ⟨attaches log ▸ hs, out'.trans out, closed'.trans closed⟩
    case step e =>
      replace e := Exec.of e
      have ptr := (handles_reachable (h.after hr)).left.attaches hs
      have same := e.sessConns_frozen ptr closed
      exact ⟨e.allocates.attaches.mem hs, same ▸ out, same ▸ closed⟩

-- A session of machine 5c is open.
def sampleOpened : List (Label Req Input) :=
  [.start 0 (.apiMint "" "5c" "e1" true), .step 0 .done,
    .start 1 (.wsAgent { t := "hello", token := "e1" }), .step 1 .done, .step 1 .done,
    .step 1 .done, .step 1 .done,
    .start 0 (.apiTerm "5c" "" "a0" "9f"), .step 0 .done, .step 0 .done,
    .start 2 (.wsTerm "a0" "9f"), .step 2 .done, .step 2 .done, .step 2 .done, .step 2 .done]

end Broker
