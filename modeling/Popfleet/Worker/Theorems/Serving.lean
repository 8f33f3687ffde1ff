import Popfleet.Worker.Theorems.Sockets

namespace Worker

namespace State

-- The timestamp of the last heartbeat that was absorbed on a socket.
def autoOf (σ : State) (ws : Ws) : Time :=
  (σ.socks ws).autoResponse.getD 0

-- The listed socket of the agent of a machine, with the time of its last frame.
def Serves (σ : State) (mid : String) (ws : Ws) (seen : Time) : Prop :=
  ws ∈ σ.listed ∧ σ.attachment ws = some (.agent mid seen)

-- Frames were sent and sockets closed.
structure Calm (σ σ' : State) : Prop where
  rest       : σ'.rest = σ.rest
  attachment : ∀ ws, σ'.attachment ws = σ.attachment ws
  auto       : ∀ ws, σ'.autoOf ws = σ.autoOf ws

-- Besides, one socket has another attachment.
structure Reattached (ws : Ws) (a : Attachment) (σ σ' : State) : Prop where
  rest       : σ'.rest = σ.rest
  attachment : ∀ ws', σ'.attachment ws' = if ws' = ws then some a else σ.attachment ws'
  auto       : ∀ ws', σ'.autoOf ws' = σ.autoOf ws'

-- What tells when a machine was last seen is as it was.
structure Keeps (mid : String) (σ σ' : State) : Prop where
  machine : σ'.machine.get? mid = σ.machine.get? mid
  serves  : ∀ {ws seen}, σ'.Serves mid ws seen ↔ σ.Serves mid ws seen
  auto    : ∀ {ws seen}, σ.Serves mid ws seen → σ'.autoOf ws = σ.autoOf ws

-- No agent of a machine is left, and the row of the machine has the timestamp of the last one.
structure Ended (mid : String) (auto : Time) (σ σ' : State) : Prop where
  machine : ∀ {m}, σ.machine.get? mid = some m →
    σ'.machine.get? mid = some { m with lastSeen := max m.lastSeen auto }
  idle    : ∀ {ws seen}, ¬σ'.Serves mid ws seen

variable {σ σ' σ₁ σ₂ σ₃ : State} {ws ws' : Ws} {mid mid' why : String} {f : Frame} {a : Attachment}
  {m : Machine} {seen auto : Time}

namespace Calm

theorem refl : Calm σ σ :=
  ⟨rfl, fun _ => rfl, fun _ => rfl⟩

theorem trans (h₁ : Calm σ₁ σ₂) (h₂ : Calm σ₂ σ₃) : Calm σ₁ σ₃ :=
  ⟨h₂.rest.trans h₁.rest, fun ws => (h₂.attachment ws).trans (h₁.attachment ws),
    fun ws => (h₂.auto ws).trans (h₁.auto ws)⟩

theorem setSock {s : Sock} (attachment : s.attachment = (σ.socks ws).attachment)
    (auto : s.autoResponse = (σ.socks ws).autoResponse) : Calm σ (σ.setSock ws s) := by
  refine ⟨rfl, fun ws' => ?_, fun ws' => ?_⟩
  all_goals
    simp only [State.attachment, autoOf, socks_setSock]
    split
    case isTrue same => rw [same]; first | exact attachment | rw [auto]
    case isFalse     => rfl

theorem wsSend : Calm σ (σ.wsSend ws f) := by
  unfold State.wsSend
  split
  case h_1 => exact .refl
  case h_2 => exact .setSock rfl rfl

theorem close {code : Nat} : Calm σ (σ.close ws code why) := by
  unfold State.close
  split
  case h_1 => exact .refl
  case h_2 => exact .setSock rfl rfl

theorem throw : Calm σ σ.throw :=
  ⟨rfl, fun _ => rfl, fun _ => rfl⟩

theorem closeTerms {mid : Option String} : Calm σ (σ.closeTerms mid why) := by
  unfold State.closeTerms
  induction σ.termSockets mid generalizing σ
  case nil     => exact .refl
  case cons hi => exact (wsSend.trans close).trans hi

end Calm

namespace Reattached

theorem attach : Reattached ws a σ (σ.attach ws a) := by
  refine ⟨rfl, fun ws' => attachment_attach, fun ws' => ?_⟩
  simp only [autoOf, State.attach, socks_setSock]
  split
  case isTrue same => rw [same]
  case isFalse     => rfl

theorem calm_left (h₁ : Calm σ₁ σ₂) (h₂ : Reattached ws a σ₂ σ₃) : Reattached ws a σ₁ σ₃ :=
  ⟨h₂.rest.trans h₁.rest, fun ws' => (h₂.attachment ws').trans (h₁.attachment ws' ▸ rfl),
    fun ws' => (h₂.auto ws').trans (h₁.auto ws')⟩

theorem calm_right (h₁ : Reattached ws a σ₁ σ₂) (h₂ : Calm σ₂ σ₃) : Reattached ws a σ₁ σ₃ :=
  ⟨h₂.rest.trans h₁.rest, fun ws' => (h₂.attachment ws').trans (h₁.attachment ws'),
    fun ws' => (h₂.auto ws').trans (h₁.auto ws')⟩

theorem dropAgent : Reattached ws .replaced σ (σ.dropAgent ws why) :=
  (attach.calm_left .closeTerms).calm_right .close

end Reattached

namespace Keeps

theorem refl : Keeps mid σ σ :=
  ⟨rfl, Iff.rfl, fun _ => rfl⟩

theorem trans (h₁ : Keeps mid σ₁ σ₂) (h₂ : Keeps mid σ₂ σ₃) : Keeps mid σ₁ σ₃ :=
  ⟨h₂.machine.trans h₁.machine, h₂.serves.trans h₁.serves,
    fun hs => (h₂.auto (h₁.serves.mpr hs)).trans (h₁.auto hs)⟩

theorem calm (h : Calm σ σ') : Keeps mid σ σ' := by
  have listed : σ'.listed = σ.listed := congrArg (·.listed) h.rest
  have machine : σ'.machine = σ.machine := congrArg (·.machine) h.rest
  exact ⟨machine ▸ rfl, by simp only [Serves, listed, h.attachment, implies_true],
    fun _ => h.auto _⟩

theorem reattached (h : Reattached ws a σ σ') (hs : ∀ seen, ¬σ.Serves mid ws seen)
    (ha : ∀ seen, a ≠ .agent mid seen) : Keeps mid σ σ' := by
  have listed : σ'.listed = σ.listed := congrArg (·.listed) h.rest
  have machine : σ'.machine = σ.machine := congrArg (·.machine) h.rest
  refine ⟨machine ▸ rfl, fun {ws' seen} => ?_, fun _ => h.auto _⟩
  rw [Serves, listed, h.attachment]
  split
  case isFalse => exact Iff.rfl
  case isTrue same =>
    subst same
    exact iff_of_false (fun hs' => ha seen (Option.some.inj hs'.right)) (hs seen)

theorem setMachine (hne : mid' ≠ mid) : Keeps mid σ { σ with machine := σ.machine.set mid' m } :=
  ⟨by simp [Ne.symm hne], Iff.rfl, fun _ => rfl⟩

theorem touchLastSeen (hne : mid' ≠ mid) : Keeps mid σ (σ.touchLastSeen mid' ws) := by
  unfold State.touchLastSeen
  split
  case h_1 => exact .refl
  case h_2 => exact .setMachine hne

theorem unlist (hs : ∀ seen, ¬σ.Serves mid ws seen) :
    Keeps mid σ { σ with listed := σ.listed.filter (· ≠ ws) } := by
  refine ⟨rfl, fun {ws' seen} => ⟨fun h => ⟨List.mem_of_mem_filter h.left, h.right⟩, fun h => ?_⟩,
    fun _ => rfl⟩
  have other : ws' ≠ ws := by
    rintro rfl
    exact hs seen h
  exact ⟨List.mem_filter.mpr ⟨h.left, by simpa using other⟩, h.right⟩

-- A new socket, which is none of those that are listed.
theorem accept {tags : List Tag} (fresh : ∀ ws ∈ σ.listed, ws.ptr < σ.next)
    (ha : ∀ seen, a ≠ .agent mid seen) :
    Keeps mid σ ((σ.accept tags).1.attach (σ.accept tags).2 a) := by
  have other {ws} (hl : ws ∈ σ.listed) : ws ≠ (σ.accept tags).2 := by
    rintro rfl
    exact Nat.lt_irrefl _ (fresh _ hl)
  refine ⟨rfl, fun {ws seen} => ?_, fun hs => ?_⟩
  case refine_1 =>
    rw [Serves, accept_listed, accept_attachment, List.mem_append, List.mem_singleton]
    split
    case isTrue new =>
      refine iff_of_false (fun hs => ha seen (Option.some.inj hs.right)) fun hs => ?_
      exact other hs.left new
    case isFalse old => exact and_congr_left fun _ => or_iff_left old
  case refine_2 => rw [autoOf, accept_socks, if_neg (other hs.left), autoOf]

end Keeps

namespace Ended

theorem keeps_left (h₁ : Keeps mid σ₁ σ₂) (h₂ : Ended mid auto σ₂ σ₃) : Ended mid auto σ₁ σ₃ :=
  ⟨fun hm => h₂.machine (h₁.machine.trans hm), h₂.idle⟩

theorem keeps_right (h₁ : Ended mid auto σ₁ σ₂) (h₂ : Keeps mid σ₂ σ₃) : Ended mid auto σ₁ σ₃ :=
  ⟨fun hm => h₂.machine.trans (h₁.machine hm), fun hs => h₁.idle (h₂.serves.mp hs)⟩

end Ended

theorem touchLastSeen_serves :
    (σ.touchLastSeen mid' ws').Serves mid ws seen ↔ σ.Serves mid ws seen := by
  unfold touchLastSeen
  split <;> rfl

-- How a connection of an agent ends. What its attachment had is gone when the row is updated.

theorem ended_dropAgent (hs : Sound σ) (h : σ.Serves mid ws seen) :
    Ended mid (σ.autoOf ws) σ ((σ.dropAgent ws why).touchLastSeen mid ws) := by
  have dropped : Reattached ws .replaced σ (σ.dropAgent ws why) := .dropAgent
  have machine : (σ.dropAgent ws why).machine = σ.machine := congrArg (·.machine) dropped.rest
  have listed : (σ.dropAgent ws why).listed = σ.listed := congrArg (·.listed) dropped.rest
  constructor
  case machine =>
    intro m hm
    have auto : (σ.dropAgent ws why).lastSeenOf ws = σ.autoOf ws := by
      simp only [lastSeenOf, dropped.attachment, if_pos]
      exact (Nat.zero_max _).trans (dropped.auto ws)
    simp only [touchLastSeen, machine, hm, GoMap.get?_set, if_pos, auto]
  case idle =>
    intro ws' seen' hs'
    have ⟨hl, ha⟩ := touchLastSeen_serves.mp hs'
    rw [dropped.attachment] at ha
    split at ha
    case isTrue         => cases ha
    case isFalse other  => exact other (hs.single (listed ▸ hl) h.left ⟨_, ha⟩ ⟨_, h.right⟩)

theorem Keeps.dropAgent (h : σ.attachment ws = some (.agent mid' seen)) (hne : mid' ≠ mid) :
    Keeps mid σ (σ.dropAgent ws why) := by
  refine .reattached .dropAgent (fun seen' hs => ?_) (by simp)
  cases h.symm.trans hs.right
  exact hne rfl

theorem keeps_dropAgent (h : σ.attachment ws = some (.agent mid' seen)) (hne : mid' ≠ mid) :
    Keeps mid σ ((σ.dropAgent ws why).touchLastSeen mid' ws) :=
  (Keeps.dropAgent h hne).trans (.touchLastSeen hne)

-- The last sign of life, by who serves the machine.

theorem lastSeenOf_serves (h : σ.Serves mid ws seen) : σ.lastSeenOf ws = max seen (σ.autoOf ws) := by
  simp only [lastSeenOf, h.right, autoOf]

theorem agentSocket_serves (hs : Sound σ) (h : σ.Serves mid ws seen) : σ.agentSocket mid = some ws := by
  cases found : σ.agentSocket mid
  case none => exact absurd ⟨seen, h.right⟩ (hs.not_isAgent_of_agentSocket found h.left)
  case some ws' =>
    have ⟨listed, agent⟩ := hs.mem_of_agentSocket found
    rw [hs.single listed h.left agent ⟨seen, h.right⟩]

theorem lastOf_serves (hs : Sound σ) (h : σ.Serves m.id ws seen) :
    σ.lastOf m = max m.lastSeen (max seen (σ.autoOf ws)) := by
  rw [lastOf, agentSocket_serves hs h, Option.elim_some, lastSeenOf_serves h]

theorem lastOf_idle (hs : Sound σ) (h : ∀ ws seen, ¬σ.Serves m.id ws seen) :
    σ.lastOf m = m.lastSeen := by
  cases found : σ.agentSocket m.id
  case none => rw [lastOf, found, Option.elim_none, Nat.max_zero]
  case some ws =>
    have ⟨listed, seen, agent⟩ := hs.mem_of_agentSocket found
    exact absurd ⟨listed, agent⟩ (h ws seen)

end State

end Worker
