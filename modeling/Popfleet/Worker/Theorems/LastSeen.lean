import Popfleet.Worker.Theorems.Serving

open Program

namespace Worker

open State

-- No time is ahead of the clock. The rows are those of machines that were enrolled.
structure Timed (σ : State) : Prop where
  rows  : ∀ {id m}, σ.machine.get? id = some m →
    m.id = id ∧ m.lastSeen ≤ σ.now ∧ id ∈ σ.enrolled.map (·.1)
  seen  : ∀ {ws mid seen}, σ.attachment ws = some (.agent mid seen) → seen ≤ σ.now
  auto  : ∀ ws, σ.autoOf ws ≤ σ.now
  fresh : ∀ ws ∈ σ.listed, ws.ptr < σ.next

variable {σ σ' : State} {ws ws' : Ws} {mid mid' sid why sum : String} {a : Attachment}
  {m : Machine} {j : Json} {t : Option Json} {seen auto now : Time} {tags : List Tag}

-- The handlers that only send and close.

theorem fromAgentTo_calm : Calm σ (fromAgentTo σ mid sid t j) := by
  unfold fromAgentTo
  split
  case h_1 => exact .refl
  case h_2 =>
    dsimp only
    split
    case isTrue  => exact .wsSend
    case isFalse => split <;> exact .trans .wsSend .close

theorem fromTerm_calm : Calm σ (fromTerm σ sid mid j) := by
  fun_cases fromTerm σ sid mid j
  case case1 | case5  => exact .refl
  case case2          => exact .throw
  case case3 | case4  => exact .wsSend

theorem hello_calm : Calm σ (hello σ ws j).1 := by
  fun_cases hello σ ws j
  case case1 | case2 => exact .throw
  case case3         => exact .refl
  case case4         => exact .close

-- Only a heartbeat changes the attachment of an agent.
theorem fromAgent_cases (σ : State) (ws : Ws) (mid : String) (j : Json) :
    Calm σ (fromAgent σ ws mid j) ∨ fromAgent σ ws mid j = σ.attach ws (.agent mid σ.now) := by
  fun_cases fromAgent σ ws mid j
  case case1 | case3 => exact .inl .throw
  case case2         => exact .inr rfl
  case case4         => exact .inl fromAgentTo_calm
  case case5         => exact .inl .refl

theorem armAlarm_eq (σ : State) : ∃ alarm, σ.armAlarm = { σ with alarm } := by
  unfold armAlarm
  split <;> exact ⟨_, rfl⟩

namespace Timed

theorem of_rest (rest : σ'.rest = σ.rest) (auto : ∀ ws, σ'.autoOf ws = σ.autoOf ws)
    (seen : ∀ {ws mid seen}, σ'.attachment ws = some (.agent mid seen) → seen ≤ σ.now)
    (h : Timed σ) : Timed σ' := by
  have listed : σ'.listed = σ.listed := congrArg (·.listed) rest
  have machine : σ'.machine = σ.machine := congrArg (·.machine) rest
  have now : σ'.now = σ.now := congrArg (·.now) rest
  have next : σ'.next = σ.next := congrArg (·.next) rest
  have log : σ'.log = σ.log := congrArg (·.log) rest
  constructor
  case rows  => rw [machine, now, State.enrolled, log]; exact h.rows
  case seen  => exact fun ha => now ▸ seen ha
  case auto  => exact fun ws => now ▸ auto ws ▸ h.auto ws
  case fresh => rw [listed, next]; exact h.fresh

theorem calm (hc : Calm σ σ') (h : Timed σ) : Timed σ' :=
  h.of_rest hc.rest hc.auto fun ha => h.seen (hc.attachment _ ▸ ha)

theorem reattached (hr : Reattached ws a σ σ') (ha : ∀ mid seen, a = .agent mid seen → seen ≤ σ.now)
    (h : Timed σ) : Timed σ' := by
  refine h.of_rest hr.rest hr.auto fun hs => ?_
  rw [hr.attachment] at hs
  split at hs
  case isTrue  => exact ha _ _ (Option.some.inj hs)
  case isFalse => exact h.seen hs

-- A row is updated to a time that the clock has reached.
theorem setMachine {m' : Machine} (hm : σ.machine.get? mid = some m) (hi : m'.id = m.id)
    (hl : m'.lastSeen ≤ σ.now) (h : Timed σ) :
    Timed { σ with machine := σ.machine.set mid m' } := by
  have ⟨id, _, known⟩ := h.rows hm
  refine ⟨fun {id' m''} hm'' => ?_, h.seen, h.auto, h.fresh⟩
  cases GoMap.of_get?_set hm''
  case inl hs =>
    obtain ⟨rfl, rfl⟩ := hs
    exact ⟨hi.trans id, hl, known⟩
  case inr hs => exact h.rows hs.right

theorem lastSeenOf_le (h : Timed σ) : σ.lastSeenOf ws ≤ σ.now := by
  refine max_le ?_ (h.auto ws)
  split
  case h_1 ha => exact h.seen ha
  case h_2    => exact Nat.zero_le _

theorem touchLastSeen (h : Timed σ) : Timed (σ.touchLastSeen mid ws) := by
  unfold State.touchLastSeen
  split
  case h_1 => exact h
  case h_2 m hm =>
    have ⟨_, seen, _⟩ := h.rows hm
    exact h.setMachine hm rfl (max_le seen h.lastSeenOf_le)

theorem dropAgent (h : Timed σ) : Timed (σ.dropAgent ws why) :=
  h.reattached .dropAgent (by simp)

theorem unlist (h : Timed σ) : Timed { σ with listed := σ.listed.filter (· ≠ ws) } :=
  ⟨h.rows, h.seen, h.auto, fun ws hl => h.fresh ws (List.mem_of_mem_filter hl)⟩

theorem accept (ha : ∀ mid seen, a ≠ .agent mid seen) (h : Timed σ) :
    Timed ((σ.accept tags).1.attach (σ.accept tags).2 a) := by
  refine ⟨h.rows, fun {ws mid seen} hs => ?_, fun ws => ?_, fun ws hl => ?_⟩
  case refine_1 =>
    rw [accept_attachment] at hs
    split at hs
    case isTrue  => exact absurd (Option.some.inj hs) (ha mid seen)
    case isFalse => exact h.seen hs
  case refine_2 =>
    rw [autoOf, accept_socks]
    split
    case isTrue  => exact Nat.zero_le _
    case isFalse => exact h.auto ws
  case refine_3 =>
    rw [accept_listed, List.mem_append, List.mem_singleton] at hl
    cases hl
    case inl old => exact Nat.lt_succ_of_lt (h.fresh ws old)
    case inr new =>
      subst new
      exact Nat.lt_succ_self σ.next

theorem armAlarm (h : Timed σ) : Timed σ.armAlarm := by
  obtain ⟨alarm, e⟩ := armAlarm_eq σ
  exact e ▸ ⟨h.rows, h.seen, h.auto, h.fresh⟩

theorem record {e : Event} (h : Timed σ) : Timed (σ.record e) := by
  refine ⟨fun hm => ?_, h.seen, h.auto, h.fresh⟩
  have ⟨id, seen, known⟩ := h.rows hm
  have more : σ.enrolled <:+ (σ.record e).enrolled := (List.suffix_cons e σ.log).filterMap _
  exact ⟨id, seen, (more.map _).subset known⟩

theorem replace (h : Timed σ) : Timed (replace σ mid) := by
  unfold Worker.replace
  split
  case h_1     => exact h
  case h_2 old => exact ((h.reattached .attach (by simp)).calm .closeTerms).calm .close

end Timed

-- What a close or error event does.

theorem reap_timed (h : Timed σ) : Timed (reap σ ws) := by
  unfold reap
  split
  case h_1 =>
    split
    case h_1 => exact h
    case h_2 => exact h.calm .wsSend
  case h_2 => exact h.dropAgent.touchLastSeen
  case h_3 => exact h

theorem reap_keeps (hs : ∀ seen, σ.attachment ws ≠ some (.agent mid seen)) :
    Keeps mid σ (reap σ ws) := by
  unfold reap
  split
  case h_1 =>
    split
    case h_1 => exact .refl
    case h_2 => exact .calm .wsSend
  case h_2 mid' seen ha =>
    refine keeps_dropAgent ha ?_
    rintro rfl
    exact hs seen ha
  case h_3 => exact .refl

theorem reap_serves (h : σ.Serves mid ws seen) :
    reap σ ws = (σ.dropAgent ws "agent went offline").touchLastSeen mid ws := by
  simp only [reap, h.right]

theorem closed_spec {ops : List Op} (mid : String) (hs : Sound σ) (h : Timed σ)
    (e : closed σ ws = some (σ', ops)) :
    Timed σ' ∧ ((∀ seen, ¬σ.Serves mid ws seen) → Keeps mid σ σ') ∧
      ∀ seen, σ.Serves mid ws seen → Ended mid (σ.autoOf ws) σ σ' := by
  unfold closed at e
  split at e <;> cases e
  rename_i hl
  refine ⟨(reap_timed h).unlist, fun none => ?_, fun seen serves => ?_⟩
  case refine_1 =>
    have reaped : Keeps mid σ (reap σ ws) := reap_keeps fun seen ha => none seen ⟨hl, ha⟩
    exact reaped.trans (.unlist fun seen hs => none seen (reaped.serves.mp hs))
  case refine_2 =>
    have ended : Ended mid (σ.autoOf ws) σ
        ((σ.dropAgent ws "agent went offline").touchLastSeen mid ws) := ended_dropAgent hs serves
    rw [← reap_serves serves] at ended
    exact ended.keeps_right (.unlist fun _ => ended.idle)

-- What the sweep does. It ends the agents that are dead.

def State.Dead (σ : State) (ws : Ws) : Prop :=
  σ.now - σ.lastSeenOf ws > deadMs

theorem sweep_timed {s : State × Bool} (h : Timed s.1) : Timed (sweep now s ws).1 := by
  unfold sweep
  dsimp only
  split
  case h_1 =>
    split
    case isTrue  => exact h.calm .close
    case isFalse => exact h
  case h_2 =>
    split
    case isTrue  => exact h.dropAgent.touchLastSeen
    case isFalse => exact h
  all_goals exact h

theorem sweep_keeps {s : State × Bool}
    (hs : ∀ seen, s.1.attachment ws = some (.agent mid seen) → now - s.1.lastSeenOf ws ≤ deadMs) :
    Keeps mid s.1 (sweep now s ws).1 := by
  unfold sweep
  dsimp only
  split
  case h_1 =>
    split
    case isTrue  => exact .calm .close
    case isFalse => exact .refl
  case h_2 mid' seen ha =>
    split
    case isFalse => exact .refl
    case isTrue dead =>
      refine keeps_dropAgent ha ?_
      rintro rfl
      exact absurd (hs seen ha) (Nat.not_le_of_lt dead)
  all_goals exact .refl

theorem sweep_ended {s : State × Bool} (hs : Sound s.1) (h : s.1.Serves mid ws seen)
    (dead : now - s.1.lastSeenOf ws > deadMs) :
    Ended mid (s.1.autoOf ws) s.1 (sweep now s ws).1 := by
  simp only [sweep, h.right, if_pos dead]
  exact ended_dropAgent hs h

theorem sweep_listed {s : State × Bool} : (sweep now s ws).1.listed = s.1.listed := by
  unfold sweep
  dsimp only
  split
  case h_1 =>
    split
    case isTrue  => exact congrArg (·.listed) (Calm.close.rest)
    case isFalse => rfl
  case h_2 =>
    split
    case isFalse => rfl
    case isTrue  =>
      have dropped : (s.1.dropAgent ws "agent went offline").listed = s.1.listed :=
        congrArg (·.listed) Reattached.dropAgent.rest
      rw [← dropped]
      unfold touchLastSeen
      split <;> rfl
  all_goals rfl

theorem State.Keeps.lastSeenOf (h : Keeps mid σ σ') (hs : σ.Serves mid ws seen) :
    σ'.lastSeenOf ws = σ.lastSeenOf ws := by
  rw [lastSeenOf_serves hs, lastSeenOf_serves (h.serves.mpr hs), h.auto hs]

theorem sweeps_keeps {l : List Ws} {s : State × Bool} (hl : l ⊆ s.1.listed)
    (hs : ∀ ws ∈ l, ∀ seen, s.1.Serves mid ws seen → now - s.1.lastSeenOf ws ≤ deadMs) :
    Keeps mid s.1 (l.foldl (sweep now) s).1 := by
  induction l generalizing s
  case nil => exact .refl
  case cons ws l hi =>
    have ⟨listed, rest⟩ := List.cons_subset.mp hl
    have ⟨alive, others⟩ := List.forall_mem_cons.mp hs
    have swept : Keeps mid s.1 (sweep now s ws).1 := sweep_keeps fun seen ha => alive seen ⟨listed, ha⟩
    refine swept.trans (hi (sweep_listed.symm ▸ rest) fun ws' hm seen serves => ?_)
    have before := swept.serves.mp serves
    exact swept.lastSeenOf before ▸ others ws' hm seen before

theorem sweeps_ended {l : List Ws} {s : State × Bool} (hl : l ⊆ s.1.listed) (hs : Sound s.1)
    (h : s.1.Serves mid ws seen) (dead : now - s.1.lastSeenOf ws > deadMs) (hm : ws ∈ l) :
    Ended mid (s.1.autoOf ws) s.1 (l.foldl (sweep now) s).1 := by
  induction l generalizing s
  case nil => contradiction
  case cons ws' l hi =>
    have ⟨listed, rest⟩ := List.cons_subset.mp hl
    by_cases same : ws' = ws
    case pos =>
      subst same
      have ended := sweep_ended hs h dead
      exact ended.keeps_right <|
        sweeps_keeps (sweep_listed.symm ▸ rest) fun _ _ _ hs => absurd hs ended.idle
    case neg =>
      have swept : Keeps mid s.1 (sweep now s ws').1 :=
        sweep_keeps fun seen' ha => absurd (hs.single listed h.left ⟨_, ha⟩ ⟨_, h.right⟩) same
      have sound : Sound (sweep now s ws').1 := hs.actions sweep_actions
      have later := hi (sweep_listed.symm ▸ rest) sound (swept.serves.mpr h)
        (swept.lastSeenOf h ▸ dead) ((List.mem_cons.mp hm).resolve_left (Ne.symm same))
      exact (swept.auto h ▸ later).keeps_left swept

theorem alarm_eq (σ : State) :
    ∃ pend live time, alarm σ =
      { (σ.listed.foldl (sweep σ.now) ({ σ with alarm := none, pend }, live)).1 with
        alarm := time } := by
  unfold alarm
  dsimp only
  split
  case isTrue  => exact ⟨_, _, _, rfl⟩
  case isFalse => exact ⟨_, _, _, rfl⟩

theorem sweeps_timed {l : List Ws} {s : State × Bool} (h : Timed s.1) :
    Timed (l.foldl (sweep now) s).1 := by
  induction l generalizing s
  case nil     => exact h
  case cons hi => exact hi (sweep_timed h)

theorem alarm_spec (mid : String) (hs : Sound σ) (h : Timed σ) :
    Timed (alarm σ) ∧ ((∀ ws seen, σ.Serves mid ws seen → ¬σ.Dead ws) → Keeps mid σ (alarm σ)) ∧
      ∀ ws seen, σ.Serves mid ws seen → σ.Dead ws → Ended mid (σ.autoOf ws) σ (alarm σ) := by
  obtain ⟨pend, live, time, e⟩ := alarm_eq σ
  let s : State × Bool := ({ σ with alarm := none, pend }, live)
  have swept : Timed (σ.listed.foldl (sweep σ.now) s).1 :=
    sweeps_timed ⟨h.rows, h.seen, h.auto, h.fresh⟩
  rw [e]
  refine ⟨⟨swept.rows, swept.seen, swept.auto, swept.fresh⟩, fun alive => ?_,
    fun ws seen serves dead => ?_⟩
  case refine_1 =>
    have kept : Keeps mid s.1 (σ.listed.foldl (sweep σ.now) s).1 :=
      sweeps_keeps (List.Subset.refl _) fun ws _ seen hs => Nat.not_lt.mp (alive ws seen hs)
    exact ⟨kept.machine, kept.serves, kept.auto⟩
  case refine_2 =>
    have ended : Ended mid (s.1.autoOf ws) s.1 (σ.listed.foldl (sweep σ.now) s).1 :=
      sweeps_ended (List.Subset.refl _) ⟨hs.tagged, hs.single⟩ serves dead serves.left
    exact ⟨ended.machine, ended.idle⟩

-- What `hello` does once it has the digest.

-- The socket is not an agent of the machine any more, and the row of the machine is as it was.
structure State.Moved (mid : String) (σ σ' : State) : Prop where
  machine : σ'.machine.get? mid = σ.machine.get? mid
  idle    : ∀ {ws seen}, ¬σ'.Serves mid ws seen

-- The machine that a hello with a digest enrolls its socket for.
def enrolls (σ : State) (j : Json) (sum : String) : Option String :=
  (σ.tok.get? sum).filter fun _ => Json.truthy (j.field "e2e").join

theorem helloDigest_calm (h : enrolls σ j sum = none) : Calm σ (helloDigest σ ws j sum) := by
  unfold helloDigest
  dsimp only
  split
  case h_1 => exact .close
  case h_2 ht =>
    split
    case isFalse     => exact .trans .wsSend .close
    case isTrue e2e  => simp [enrolls, ht, e2e] at h

theorem replace_keeps (hs : Sound σ) (hne : mid' ≠ mid) : Keeps mid σ (replace σ mid') := by
  unfold replace
  split
  case h_1 => exact .refl
  case h_2 old found =>
    have ⟨_, _, ha⟩ := hs.mem_of_agentSocket found
    have replaced : Reattached old .replaced σ
        (((σ.attach old .replaced).closeTerms (some mid') "agent reconnected").close old 1000
          "replaced by a newer connection") :=
      (Reattached.attach.calm_right .closeTerms).calm_right .close
    refine .reattached replaced (fun seen hs => ?_) (by simp)
    cases ha.symm.trans hs.right
    exact hne rfl

-- The row of the machine that said hello, if it has one.
inductive State.Touched (mid : String) (σ : State) : State → Prop
  | absent (h : σ.machine.get? mid = none) : Touched mid σ σ
  | row {m m' : Machine} (h : σ.machine.get? mid = some m) (id : m'.id = m.id)
    (seen : m'.lastSeen = σ.now) : Touched mid σ { σ with machine := σ.machine.set mid m' }

theorem helloDigest_enrolls (ws : Ws) (h : enrolls σ j sum = some mid) :
    ∃ σ₁ f, Touched mid ((replace σ mid).attach ws (.agent mid σ.now)) σ₁ ∧
      helloDigest σ ws j sum = (σ₁.wsSend ws f).armAlarm := by
  have ⟨ht, e2e⟩ := Option.filter_eq_some_iff.mp h
  simp only [helloDigest, ht, e2e, if_pos]
  split
  case h_1 absent => exact ⟨_, _, .absent absent, rfl⟩
  case h_2 found  =>
    refine ⟨_, _, ?_, rfl⟩
    exact .row found rfl rfl

theorem State.Touched.timed (ht : Touched mid σ σ') (h : Timed σ) : Timed σ' := by
  cases ht
  case absent         => exact h
  case row hm id seen => exact h.setMachine hm id (Nat.le_of_eq seen)

theorem State.Touched.keeps (ht : Touched mid' σ σ') (hne : mid' ≠ mid) : Keeps mid σ σ' := by
  cases ht
  case absent => exact .refl
  case row    => exact .setMachine hne

theorem keeps_record {e : Event} : Keeps mid σ (σ.record e) :=
  ⟨rfl, Iff.rfl, fun _ => rfl⟩

theorem keeps_armAlarm : Keeps mid σ σ.armAlarm := by
  obtain ⟨alarm, e⟩ := armAlarm_eq σ
  exact e ▸ ⟨rfl, Iff.rfl, fun _ => rfl⟩

theorem replace_now (hs : Sound σ) : (replace σ mid).now = σ.now :=
  congrArg (·.now) hs.replace_frames.rest

theorem helloDigest_timed (hs : Sound σ) (h : Timed σ) : Timed (helloDigest σ ws j sum) := by
  cases he : enrolls σ j sum
  case none => exact h.calm (helloDigest_calm he)
  case some mid =>
    obtain ⟨σ₁, f, touched, e⟩ := helloDigest_enrolls ws he
    have now : (replace σ mid).now = σ.now := replace_now hs
    have attached : Timed ((replace σ mid).attach ws (.agent mid σ.now)) := by
      refine h.replace.reattached .attach ?_
      rintro _ _ ⟨⟩
      exact Nat.le_of_eq now.symm
    exact e ▸ ((touched.timed attached).calm .wsSend).armAlarm

theorem replace_machine (hs : Sound σ) : (replace σ mid).machine = σ.machine :=
  congrArg (·.machine) hs.replace_frames.rest

-- The machine itself was seen now.
theorem helloDigest_seen (ws : Ws) (hs : Sound σ) (he : enrolls σ j sum = some mid)
    (hm : σ.machine.get? mid = some m) :
    ∃ m', (helloDigest σ ws j sum).machine.get? mid = some m' ∧ m'.lastSeen = σ.now := by
  obtain ⟨σ₁, f, touched, e⟩ := helloDigest_enrolls ws he
  have same : ((replace σ mid).attach ws (.agent mid σ.now)).machine.get? mid = some m :=
    (congrArg (·.get? mid) (replace_machine hs)).trans hm
  have kept : Keeps mid σ₁ (σ₁.wsSend ws f).armAlarm := .trans (.calm .wsSend) keeps_armAlarm
  rw [e, kept.machine]
  cases touched
  case absent none => cases none.symm.trans same
  case row found id seen =>
    cases found.symm.trans same
    exact ⟨_, by simp, seen.trans (replace_now hs)⟩

-- Another machine loses the socket if it had it.
theorem helloDigest_other (ws : Ws) (hs : Sound σ) (he : enrolls σ j sum = some mid') (hne : mid' ≠ mid) :
    ((∀ seen, ¬σ.Serves mid ws seen) → Keeps mid σ (helloDigest σ ws j sum)) ∧
    ∀ seen, σ.Serves mid ws seen → Moved mid σ (helloDigest σ ws j sum) := by
  obtain ⟨σ₁, f, touched, e⟩ := helloDigest_enrolls ws he
  have replaced : Keeps mid σ (replace σ mid') := replace_keeps hs hne
  have attached : Reattached ws (.agent mid' σ.now) (replace σ mid') _ := .attach
  have sent : Keeps mid _ (helloDigest σ ws j sum) :=
    e ▸ (touched.keeps hne).trans (.trans (.calm .wsSend) keeps_armAlarm)
  refine ⟨fun none => ?_, fun seen serves => ⟨?_, fun {ws' seen'} hs' => ?_⟩⟩
  case refine_1 =>
    have kept : Keeps mid (replace σ mid') _ :=
      .reattached attached (fun seen hs => none seen (replaced.serves.mp hs)) (by simp [hne])
    exact replaced.trans (kept.trans sent)
  case refine_2 => exact sent.machine.trans replaced.machine
  case refine_3 =>
    have ⟨listed, agent⟩ := sent.serves.mp hs'
    rw [attached.attachment] at agent
    split at agent
    case isTrue => exact hne (Attachment.agent.inj (Option.some.inj agent)).left
    case isFalse other =>
      have before := replaced.serves.mp ⟨listed, agent⟩
      exact other (hs.single before.left serves.left ⟨_, before.right⟩ ⟨_, serves.right⟩)

end Worker
