import Popfleet.Worker.Theorems.Sockets

open Program

namespace Worker

open State Transition

-- The keys and the commands that the mints for a session returned, the latest first.
def mintsOf (sid : String) (log : List Event) : List (String × Json) :=
  log.filterMap fun
    | .minted _ sid' key cmd => if sid' = sid then some (key, cmd) else none
    | _                      => none

def keysOf (log : List Event) : List String :=
  log.filterMap fun | .minted _ _ key _ => some key | _ => none

namespace State

-- The sids that mints drew.
def firsts (σ : State) : List String :=
  σ.log.filterMap fun | .minted true sid _ _ => some sid | _ => none

-- No sid and no key was drawn twice, and SHA-256 tells the keys that were accepted from the others.
structure FreshKeys (sha256hex : String → String) (σ : State) : Prop where
  sids  : σ.firsts.Nodup
  keys  : (keysOf σ.log).Nodup
  apart : ∀ k ∈ σ.accepts.map (·.2), ∀ key ∈ keysOf σ.log, sha256hex k = sha256hex key → k = key

end State

-- An upgrade went by the latest mint for its session.
def Event.Honored (sha256hex : String → String) (before : List Event) : Event → Prop
  | .accepted sid k opened =>
    ∃ key cmd older, mintsOf sid before = (key, cmd) :: older ∧ sha256hex k = sha256hex key ∧
      (opened = none ∨ opened = some cmd)
  | _ => True

-- A session is pending by its latest mint, until it is accepted.
structure Sessions (sha256hex : String → String) (σ : State) : Prop where
  pend     : ∀ {sid p}, σ.pend.get? sid = some p → sid ∉ σ.accepts.map (·.1) ∧
    ∃ key older, mintsOf sid σ.log = (key, p.cmd) :: older ∧ p.keySum = sha256hex key
  minted   : ∀ {sid}, mintsOf sid σ.log ≠ [] → sid ∈ σ.firsts
  accepted : ∀ {sid}, sid ∈ σ.accepts.map (·.1) → mintsOf sid σ.log ≠ []
  once     : (σ.accepts.map (·.1)).Nodup
  honored  : Throughout (Event.Honored sha256hex) σ.log

-- No upgrade and no re-mint straddles what it read: an upgrade with a valid key finds the record as it
-- read it, and a re-mint finds the session not accepted yet.
structure Unstraddled (sha256hex : String → String) (c : Config State Op) (l : Label Req Input) :
    Prop where
  upgrade : ∀ t i sid k pend p rest, l = .step t i → c.procs t = .upgradeTerm sid k pend :: rest →
    valid sha256hex c.shared k pend = some p → c.shared.pend.get? sid = some p
  remint  : ∀ t i sid key mid cmd rest, l = .step t i →
    c.procs t = .termPut false sid key mid cmd :: rest → sid ∉ c.shared.accepts.map (·.1)

variable {sha256hex : String → String} {σ σ' : State} {sid k key mid : String} {cmd : Json}
  {p : Pend} {op : Op} {ops : List Op} {c : Config State Op} {first : Bool} {log : List Event}

theorem Action.of_pend (h : Action σ σ') (hp : σ'.pend.get? sid = some p) :
    σ.pend.get? sid = some p := by
  cases h
  case sends hs =>
    have same : σ'.pend = σ.pend := congrArg (·.pend) hs.rest
    exact same ▸ hp
  case drop ws mid why ha =>
    have same : (σ.dropAgent ws why).pend = σ.pend := congrArg (·.pend) (dropAgent_drops ha).rest
    exact same ▸ hp
  case expire => exact (GoMap.get?_deleteWhere_eq_some.mp hp).left
  all_goals exact hp

theorem Actions.of_pend (h : Actions σ σ') (hp : σ'.pend.get? sid = some p) :
    σ.pend.get? sid = some p := by
  induction h
  case refl             => exact hp
  case tail _ action hi => exact hi (action.of_pend hp)

theorem sum_of_valid {pend : Option Pend} (h : valid sha256hex σ k pend = some p) :
    sha256hex k = p.keySum := by
  have ⟨_, test⟩ := Option.filter_eq_some_iff.mp h
  exact (of_decide_eq_true test).right

theorem mintsOf_minted :
    mintsOf sid (.minted first sid key cmd :: log) = (key, cmd) :: mintsOf sid log := by
  simp [mintsOf]

theorem mintsOf_minted_of_ne {sid' : String} (h : sid' ≠ sid) :
    mintsOf sid' (.minted first sid key cmd :: log) = mintsOf sid' log := by
  simp [mintsOf, Ne.symm h]

namespace Sessions

theorem kept (log : σ'.log = σ.log)
    (pend : ∀ {sid p}, σ'.pend.get? sid = some p → σ.pend.get? sid = some p)
    (h : Sessions sha256hex σ) : Sessions sha256hex σ' := by
  have firsts : σ'.firsts = σ.firsts := by rw [State.firsts, log, State.firsts]
  have accepts : σ'.accepts = σ.accepts := by rw [State.accepts, log, State.accepts]
  constructor
  case pend     => exact fun hp => accepts ▸ log ▸ h.pend (pend hp)
  case minted   => exact fun hm => firsts ▸ h.minted (log ▸ hm)
  case accepted => exact fun hs => log ▸ h.accepted (accepts ▸ hs)
  case once     => exact accepts ▸ h.once
  case honored  => exact log ▸ h.honored

theorem actions (ha : Actions σ σ') (h : Sessions sha256hex σ) : Sessions sha256hex σ' :=
  h.kept ha.log ha.of_pend

theorem frames (hf : Frames σ σ') (h : Sessions sha256hex σ) : Sessions sha256hex σ' := by
  have pend : σ'.pend = σ.pend := congrArg (·.pend) hf.rest
  exact h.kept (congrArg (·.log) hf.rest) fun hp => pend ▸ hp

theorem start {r : Req} (e : start σ r = some (σ', ops)) (hs : Sound σ)
    (h : Sessions sha256hex σ) : Sessions sha256hex σ' := by
  cases start_cases hs e
  case inl actions => exact h.actions actions
  case inr hc =>
    obtain ⟨_, _, σ₁, σ₂, _, rfl, actions, _, rfl⟩ := hc
    have kept : Sessions sha256hex σ₂ :=
      .actions actions ⟨h.pend, h.minted, h.accepted, h.once, h.honored⟩
    exact ⟨kept.pend, kept.minted, kept.accepted, kept.once, kept.honored.cons trivial⟩

-- The record of the mint replaces the one that was pending, if any.
theorem mint (hp : p = { keySum := sha256hex key, mid, cmd, exp := σ.now + keyTTL })
    (hn : sid ∉ σ.accepts.map (·.1)) (hf : first ∨ sid ∈ σ.firsts) (h : Sessions sha256hex σ) :
    Sessions sha256hex ({ σ with pend := σ.pend.set sid p }.record (.minted first sid key cmd)) := by
  subst hp
  constructor
  case pend =>
    intro sid' p' hp'
    cases GoMap.of_get?_set hp'
    case inl h =>
      obtain ⟨rfl, rfl⟩ := h
      exact ⟨hn, key, _, mintsOf_minted, rfl⟩
    case inr hc =>
      obtain ⟨hne, hp'⟩ := hc
      have ⟨unused, key', older, latest, sum⟩ := h.pend hp'
      exact ⟨unused, key', older, (mintsOf_minted_of_ne hne).trans latest, sum⟩
  case minted =>
    intro sid' hm
    have drawn : sid' = sid ∨ sid' ∈ σ.firsts := by
      by_cases hs : sid' = sid
      case pos => exact .inl hs
      case neg =>
        rw [record, mintsOf_minted_of_ne hs] at hm
        exact .inr (h.minted hm)
    cases first
    case true  => exact List.mem_cons.mpr drawn
    case false => exact drawn.elim (· ▸ hf.resolve_left Bool.noConfusion) id
  case accepted =>
    intro sid' ha
    have minted := h.accepted ha
    by_cases hs : sid' = sid
    case pos => subst hs; simp [record, mintsOf_minted]
    case neg => simpa only [record, mintsOf_minted_of_ne hs] using minted
  case once    => exact h.once
  case honored => exact h.honored.cons trivial

-- An upgrade that finds the record it read consumes it.
theorem accept {o : Option Json} (hp : σ.pend.get? sid = some p) (sum : sha256hex k = p.keySum)
    (ho : o = none ∨ o = some p.cmd) (hl : σ'.log = .accepted sid k o :: σ.log)
    (pend : σ'.pend = σ.pend.delete sid) (h : Sessions sha256hex σ) : Sessions sha256hex σ' := by
  have ⟨unused, key, older, latest, keySum⟩ := h.pend hp
  have accepts : σ'.accepts = (sid, k) :: σ.accepts := by rw [State.accepts, hl]; rfl
  have firsts : σ'.firsts = σ.firsts := by rw [State.firsts, hl]; rfl
  have mints (sid') : mintsOf sid' σ'.log = mintsOf sid' σ.log := by rw [hl]; rfl
  constructor
  case pend =>
    intro sid' p' hp'
    have ⟨hne, hp'⟩ := GoMap.of_get?_delete (pend ▸ hp')
    have ⟨unused', minted⟩ := h.pend hp'
    rw [accepts, mints]
    exact ⟨List.not_mem_cons_of_ne_of_not_mem hne unused', minted⟩
  case minted => exact fun {sid'} hm => firsts ▸ h.minted (mints sid' ▸ hm)
  case accepted =>
    intro sid' ha
    rw [mints]
    rw [accepts] at ha
    cases ha
    case head    => simp [latest]
    case tail ha => exact h.accepted ha
  case once    => exact accepts ▸ List.nodup_cons.mpr ⟨unused, h.once⟩
  case honored =>
    rw [hl]
    exact h.honored.cons ⟨key, p.cmd, older, latest, sum.trans keySum, ho⟩

end Sessions

theorem attachTerm_pend : (attachTerm σ sid k p).pend = σ.pend.delete sid := by
  have ⟨σ', o, eq, sends, _⟩ := attachTerm_cases σ sid k p
  have pend : σ'.pend = σ.pend.delete sid := congrArg (·.pend) sends.rest
  exact eq ▸ pend

-- A re-mint is for a sid that was drawn before.
def Op.Reminted (σ : State) : Op → Prop
  | .termPut false sid .. => sid ∈ σ.firsts
  | _                     => True

theorem Op.Reminted.mono (hl : σ.log <:+ σ'.log) (h : op.Reminted σ) : op.Reminted σ' := by
  unfold Op.Reminted at h ⊢
  split
  case h_1 => exact (hl.filterMap _).subset h
  case h_2 => trivial

theorem Sessions.exec (e : Exec sha256hex σ op σ' ops) (hf : σ'.firsts.Nodup)
    (upgrade : ∀ sid k pend p, op = .upgradeTerm sid k pend → valid sha256hex σ k pend = some p →
      σ.pend.get? sid = some p)
    (remint : ∀ sid key mid cmd, op = .termPut false sid key mid cmd →
      sid ∉ σ.accepts.map (·.1))
    (hr : op.Reminted σ) (ho : op.OfAgent) (hs : Sound σ) (h : Sessions sha256hex σ) :
    Sessions sha256hex σ' := by
  cases e
  case minted first sid key mid cmd p hp =>
    refine .actions armAlarm_actions ?_
    cases first
    case false => exact h.mint hp (remint _ _ _ _ rfl) (.inr hr)
    case true =>
      refine h.mint hp (fun ha => ?_) (.inl rfl)
      rw [State.firsts, armAlarm_actions.log] at hf
      have fresh : sid ∉ σ.firsts := (List.nodup_cons.mp hf).left
      exact fresh (h.minted (h.accepted ha))
  case accepted sid k pend p hv =>
    have ⟨o, log, opened⟩ := attachTerm_log σ sid k p
    exact h.accept (upgrade _ _ _ _ rfl hv) (sum_of_valid hv) opened log attachTerm_pend
  case hello ws m token =>
    cases helloDigest_actions fun _ _ => hs.not_term ho
    case inl sends => exact h.actions (.single (.sends sends))
    case inr hc =>
      obtain ⟨mid, _, actions⟩ := hc
      have replaced : Sessions sha256hex (replace σ mid) := h.frames hs.replace_frames
      exact .actions actions ⟨replaced.pend, replaced.minted, replaced.accepted, replaced.once,
        replaced.honored⟩
  case enrolled => exact ⟨h.pend, h.minted, h.accepted, h.once, h.honored.cons trivial⟩
  all_goals exact ⟨h.pend, h.minted, h.accepted, h.once, h.honored⟩

theorem Exec.ops_reminted (e : Exec sha256hex σ op σ' ops) (h : Sessions sha256hex σ) :
    ∀ o ∈ ops, o.Reminted σ' := by
  cases e
  case again hp _ _ =>
    have ⟨_, _, _, latest, _⟩ := h.pend hp
    simpa [Op.Reminted] using h.minted (by simp [latest])
  all_goals simp [Op.Reminted]

theorem State.firsts_nodup (hl : σ.log <:+ σ'.log) (h : σ'.firsts.Nodup) : σ.firsts.Nodup :=
  h.sublist (hl.sublist.filterMap _)

theorem sessions_reachable
    (h : (program sha256hex).system.ReachableUnder (Unstraddled sha256hex) c) :
    c.shared.firsts.Nodup → Sessions sha256hex c.shared := by
  have invariant := section_invariant (P := program sha256hex)
    (I := fun σ => Sound σ ∧ (σ.firsts.Nodup → Sessions sha256hex σ))
    (A := fun σ o => o.OfAgent ∧ (σ.firsts.Nodup → o.Reminted σ))
    (R := fun σ σ' => σ.log <:+ σ'.log) ?_ ?_ ?_ ?_ h
  case refine_1 =>
    rintro σ ⟨now, rfl⟩
    refine ⟨⟨by simp [attachment], by simp⟩, fun _ => ?_⟩
    exact ⟨by simp, by simp [mintsOf], by simp [State.accepts], by simp [State.accepts], .nil⟩
  case refine_2 =>
    rintro σ r σ' ops ⟨hs, h⟩ e
    have grown := start_log_suffix hs e
    refine ⟨⟨hs.start e, fun hf => (h (firsts_nodup grown hf)).start e hs⟩, grown, fun o ho => ?_⟩
    obtain ⟨_, _, started⟩ := Started.of e ho
    cases started
    case hello ha _ => exact ⟨hs.tagged ha, fun _ => trivial⟩
    all_goals exact ⟨trivial, fun _ => trivial⟩
  case refine_3 =>
    rintro c t i op rest σ' ops _ ok head ⟨hs, h⟩ ⟨ho, hr⟩ e
    replace e := Exec.of e
    have grown := e.log_suffix hs ho
    refine ⟨⟨e.sound hs ho, fun hf => ?_⟩, grown, fun o hm => ⟨e.ops_ofAgent o hm, fun hf => ?_⟩⟩
    all_goals have hf₀ := firsts_nodup grown hf
    case refine_1 =>
      refine (h hf₀).exec e hf ?_ ?_ (hr hf₀) ho hs
      case refine_1 =>
        rintro sid k pend p rfl hv
        exact ok.upgrade _ _ _ _ _ _ _ rfl head hv
      case refine_2 =>
        rintro sid key mid cmd rfl
        exact ok.remint _ _ _ _ _ _ _ rfl head
    case refine_2 => exact e.ops_reminted (h hf₀) o hm
  case refine_4 =>
    exact fun _ _ _ _ hl ho => ⟨ho.left, fun hf => (ho.right (firsts_nodup hl hf)).mono hl⟩
  exact invariant.left.right

theorem mintsOf_sublist : ((mintsOf sid log).map (·.1)).Sublist (keysOf log) := by
  induction log
  case nil => exact .slnil
  case cons e _ hi =>
    cases e
    case minted _ sid' key cmd =>
      by_cases hs : sid' = sid
      case pos => subst hs; rw [mintsOf_minted]; exact hi.cons_cons key
      case neg => rw [mintsOf_minted_of_ne (Ne.symm hs)]; exact hi.cons key
    all_goals exact hi

-- Each session is accepted at most once, with the key of its latest mint, which none of the mints before
-- returned, and it is opened with the command of that mint where it is opened.
theorem one_time (h : (program sha256hex).system.ReachableUnder (Unstraddled sha256hex) c)
    (hf : c.shared.FreshKeys sha256hex) :
    (c.shared.accepts.map (·.1)).Nodup ∧
    ∀ after before sid k opened, c.shared.log = after ++ .accepted sid k opened :: before →
      ∃ cmd older, mintsOf sid before = (k, cmd) :: older ∧ k ∉ older.map (·.1) ∧
        (opened = none ∨ opened = some cmd) := by
  have sessions := sessions_reachable h hf.sids
  refine ⟨sessions.once, fun after before sid k opened hl => ?_⟩
  have ⟨key, cmd, older, latest, sum, ho⟩ := sessions.honored after before _ hl
  have keys : ((mintsOf sid before).map (·.1)).Sublist (keysOf c.shared.log) := by
    refine mintsOf_sublist.trans (List.Sublist.filterMap _ ?_)
    rw [hl]
    exact (List.sublist_cons_self ..).trans (List.sublist_append_right ..)
  rw [latest] at keys
  have accepted : k ∈ c.shared.accepts.map (·.2) := by simp [State.accepts, hl]
  have same : k = key := hf.apart k accepted key (keys.subset List.mem_cons_self) sum
  have ⟨retired, _⟩ := List.nodup_cons.mp (hf.keys.sublist keys)
  exact ⟨cmd, older, same ▸ latest, same ▸ retired, ho⟩

-- A step that ends no upgrade, and no re-mint of an accepted session.
def calm (c : Config State Op) : Label Req Input → Bool
  | .start .. => true
  | .step t _ =>
    match c.procs t with
    | .upgradeTerm .. :: _       => false
    | .termPut false sid .. :: _ => sid ∉ c.shared.accepts.map (·.1)
    | _                          => true

theorem unstraddled_of_calm (c : Config State Op) (l : Label Req Input) (h : calm c l) :
    Unstraddled sha256hex c l := by
  constructor
  case upgrade =>
    rintro t i sid k pend p rest rfl hp
    simp [calm, hp] at h
  case remint =>
    rintro t i sid key mid cmd rest rfl hp
    simpa [calm, hp] using h

-- A session is minted, then minted again with a command, and accepted.
theorem one_time_sample :
    let body : Json := .obj [("sid", .str "a0"), ("cmd", .str "x9")]
    let ls : List (Label Req Input) := sampleAgent ++ [
      .start 0 (.apiTerm "5c"), .step 0 (.body none "a0" "7d"), .step 0 .done,
      .start 0 (.apiTerm "5c"), .step 0 (.body (some body) "b0" "7e"), .step 0 .done,
      .start 0 (.upgradeTerm "a0" "7e")]
    ∃ c, (program id).system.run initial (ls ++ [.step 0 .done]) = some c ∧
      c.shared.accepts = [("a0", "7e")] ∧
      ∃ before, c.shared.log = .accepted "a0" "7e" (some (.str "x9")) :: before ∧
        ∃ cmd older, mintsOf "a0" before = ("7e", cmd) :: older ∧ "7e" ∉ older.map (·.1) := by
  intro body ls
  cases e₁ : (program id).system.runWhile calm initial ls
  case none => contradiction
  case some c₁ =>
    cases e : (program id).system.run initial (ls ++ [.step 0 .done])
    case none => contradiction
    case some c =>
      have ⟨_, e₁', e₂⟩ := run_append_eq_some.mp e
      cases e₁'.symm.trans (run_of_runWhile e₁)
      have ⟨_, e₂, same⟩ := run_cons_eq_some.mp e₂
      cases same
      let p : Pend := { keySum := "7e", mid := "5c", cmd := .str "x9", exp := 0 + keyTTL }
      have procs : c₁.procs 0 = [.upgradeTerm "a0" "7e" (some p)] :=
        eq_of_run (f := (·.procs 0)) e₁ (by rfl)
      have pend : c₁.shared.pend.get? "a0" = some p :=
        eq_of_run (f := (·.shared.pend.get? "a0")) e₁ (by rfl)
      have unstraddled : Unstraddled id c₁ (.step 0 .done) := by
        constructor
        case upgrade =>
          rintro t i sid k pend' p' rest hl hp hv
          cases hl
          cases procs.symm.trans hp
          cases (Option.filter_eq_some_iff.mp hv).left
          exact pend
        case remint =>
          rintro t i sid key mid cmd rest hl hp
          cases hl
          cases procs.symm.trans hp
      have reachable : (program id).system.ReachableUnder (Unstraddled id) c :=
        .step (.runWhile (.init initial_init) unstraddled_of_calm e₁) unstraddled e₂
      have firsts : c.shared.firsts = ["a0"] := eq_of_run (f := (·.shared.firsts)) e (by decide)
      have keys : keysOf c.shared.log = ["7e", "7d"] :=
        eq_of_run (f := fun c => keysOf c.shared.log) e (by decide)
      have accepts : c.shared.accepts = [("a0", "7e")] :=
        eq_of_run (f := (·.shared.accepts)) e (by decide)
      have fresh : c.shared.FreshKeys id := ⟨by simp [firsts], by simp [keys], by simp⟩
      have last : c.shared.log = .accepted "a0" "7e" (some (.str "x9")) :: c.shared.log.tail :=
        List.eq_cons_of_mem_head? (eq_of_run (f := (·.shared.log.head?)) e (by rfl))
      have ⟨_, latest⟩ := one_time reachable fresh
      have ⟨cmd, older, minted, retired, _⟩ := latest [] _ _ _ _ last
      exact ⟨c, rfl, accepts, _, last, cmd, older, minted, retired⟩

-- Two upgrades with the key of the session read its record before either of them consumes it.
theorem accepted_twice :
    let ls : List (Label Req Input) := sampleAgent ++ [
      .start 0 (.apiTerm "5c"), .step 0 (.body none "a0" "7d"), .step 0 .done,
      .start 0 (.upgradeTerm "a0" "7d"), .start 1 (.upgradeTerm "a0" "7d"),
      .step 0 .done, .step 1 .done]
    ∃ c, (program id).system.run initial ls = some c ∧ c.shared.FreshKeys id ∧
      ¬(c.shared.accepts.map (·.1)).Nodup := by
  intro ls
  cases e : (program id).system.run initial ls
  case none => contradiction
  case some c =>
    have firsts : c.shared.firsts = ["a0"] := eq_of_run (f := (·.shared.firsts)) e (by decide)
    have keys : keysOf c.shared.log = ["7d"] :=
      eq_of_run (f := fun c => keysOf c.shared.log) e (by decide)
    have accepts : c.shared.accepts = [("a0", "7d"), ("a0", "7d")] :=
      eq_of_run (f := (·.shared.accepts)) e (by decide)
    have fresh : c.shared.FreshKeys id := ⟨by simp [firsts], by simp [keys], by simp⟩
    exact ⟨c, rfl, fresh, by simp [accepts]⟩

end Worker
