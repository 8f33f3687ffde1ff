import Mathlib.Logic.Relation
import Popfleet.Worker.Theorems.Sends

open Program

namespace Worker

open State

-- What a handler is made of, but for the requests that change what is registered or pending.
inductive Action : State → State → Prop
  | sends {σ σ'} (h : Sends σ σ') : Action σ σ'
  | drop {σ ws mid why} (h : σ.IsAgent ws mid) : Action σ (σ.dropAgent ws why)
  | touch {σ mid m m'} (h : σ.machine.get? mid = some m) (sum : m'.tokenSum = m.tokenSum) :
    Action σ { σ with machine := σ.machine.set mid m' }
  | seen {σ ws mid seen} (h : σ.IsAgent ws mid) : Action σ (σ.attach ws (.agent mid seen))
  | alarm {σ alarm} : Action σ { σ with alarm }
  | expire {σ p} : Action σ { σ with pend := σ.pend.deleteWhere p }
  | accept {σ since} :
    Action σ ((σ.accept [.agent]).1.attach (σ.accept [.agent]).2 (.pending since))
  | unlist {σ ws} (h : ∀ mid, ¬σ.IsAgent ws mid) :
    Action σ { σ with listed := σ.listed.filter (· ≠ ws) }
  | tick {σ d} : Action σ { σ with now := σ.now + d }

abbrev Actions := Relation.ReflTransGen Action

variable {σ σ' : State} {ws ws' : Ws} {mid why : String} {now : Time} {r : Req} {ops : List Op}
  {m : Json}

theorem Actions.invariant {I : State → Prop} (h : Actions σ σ')
    (action : ∀ σ σ', Action σ σ' → I σ → I σ') (hI : I σ) : I σ' := by
  induction h
  case refl          => exact hI
  case tail _ ha hi  => exact action _ _ ha hi

theorem Action.log (h : Action σ σ') : σ'.log = σ.log := by
  cases h
  case sends hs => exact congrArg (·.log) hs.rest
  case drop ha  => exact congrArg (·.log) (dropAgent_drops ha).rest
  all_goals rfl

theorem Actions.log (h : Actions σ σ') : σ'.log = σ.log := by
  induction h
  case refl             => rfl
  case tail _ action hi => exact action.log.trans hi

theorem armAlarm_actions : Actions σ σ.armAlarm := by
  unfold armAlarm
  split
  case h_1 => exact .refl
  case h_2 => exact .single .alarm

theorem touchLastSeen_actions : Actions σ (σ.touchLastSeen mid ws) := by
  unfold touchLastSeen
  split
  case h_1   => exact .refl
  case h_2 h => exact .single (.touch h rfl)

theorem fromAgentTo_sends {sid : String} {t : Option Json} :
    Sends σ (fromAgentTo σ mid sid t m) := by
  unfold fromAgentTo
  split
  case h_1 => exact .refl
  case h_2 =>
    dsimp only
    split
    case isTrue => exact sends_wsSend
    case isFalse =>
      split
      case isTrue  => exact sends_wsSend_close (.inr rfl)
      case isFalse => exact sends_wsSend_close (.inl rfl)

theorem fromAgent_actions (h : σ.IsAgent ws mid) : Actions σ (fromAgent σ ws mid m) := by
  unfold fromAgent
  split
  case h_1 => exact .single (.sends sends_throw)
  case h_2 =>
    split
    case isTrue => exact .single (.seen h)
    case isFalse =>
      split
      case isFalse => exact .refl
      case isTrue =>
        split
        case h_1 => exact .single (.sends sends_throw)
        case h_2 => exact .single (.sends fromAgentTo_sends)

theorem fromTerm_sends {sid : String} : Sends σ (fromTerm σ sid mid m) := by
  unfold fromTerm
  split
  case h_1 => exact .refl
  case h_2 =>
    split
    case h_1 => exact sends_throw
    case h_2 =>
      dsimp only
      split
      case isTrue => exact sends_wsSend
      case isFalse =>
        split
        case isTrue  => exact sends_wsSend
        case isFalse => exact .refl

theorem hello_sends (h : ∀ sid mid, σ.attachment ws ≠ some (.term sid mid)) :
    Sends σ (hello σ ws m).1 := by
  unfold hello
  split
  case h_1 => exact sends_throw
  case h_2 =>
    split
    case isFalse => exact sends_close fun _ _ ha => absurd ha (h _ _)
    case isTrue =>
      split
      case h_1 => exact sends_throw
      case h_2 => exact .refl

-- A socket whose close event was handled is no agent's any more.
theorem reap_actions : Actions σ (reap σ ws) ∧ ∀ mid, ¬(reap σ ws).IsAgent ws mid := by
  unfold reap
  split
  case h_1 sid mid h =>
    split
    case h_1 => exact ⟨.refl, fun _ ⟨_, ha⟩ => by simp [h] at ha⟩
    case h_2 =>
      refine ⟨.single (.sends sends_wsSend), fun _ ⟨_, ha⟩ => ?_⟩
      simp [sends_wsSend.attachment, h] at ha
  case h_2 mid seen h =>
    refine ⟨.head (.drop ⟨seen, h⟩) touchLastSeen_actions, fun _ ⟨_, ha⟩ => ?_⟩
    have dropped : Drops σ (σ.dropAgent ws "agent went offline") ws mid := dropAgent_drops ⟨seen, h⟩
    have touched : ((σ.dropAgent ws "agent went offline").touchLastSeen mid ws).attachment ws =
        (σ.dropAgent ws "agent went offline").attachment ws := by
      unfold touchLastSeen
      split <;> rfl
    simp [touched, dropped.attachment] at ha
  case h_3 _ h => exact ⟨.refl, fun _ ⟨_, ha⟩ => h _ _ ha⟩

theorem closed_actions (e : closed σ ws = some (σ', ops)) : Actions σ σ' ∧ ops = [] := by
  unfold closed at e
  split at e <;> cases e
  exact ⟨.tail reap_actions.left (.unlist reap_actions.right), rfl⟩

theorem sweep_actions {s : State × Bool} : Actions s.1 (sweep now s ws).1 := by
  unfold sweep
  dsimp only
  split
  case h_1 since h =>
    split
    case isTrue  => exact .single (.sends (sends_close fun _ _ ha => by simp [h] at ha))
    case isFalse => exact .refl
  case h_2 mid seen h =>
    split
    case isTrue  => exact .head (.drop ⟨seen, h⟩) touchLastSeen_actions
    case isFalse => exact .refl
  all_goals exact .refl

theorem sweeps_actions {l : List Ws} {s : State × Bool} : Actions s.1 (l.foldl (sweep now) s).1 := by
  induction l generalizing s
  case nil        => exact .refl
  case cons hi    => exact sweep_actions.trans hi

theorem alarm_actions : Actions σ (alarm σ) := by
  have swept : Actions σ { σ with
      alarm := none, pend := σ.pend.deleteWhere fun _ p => σ.now > p.exp } :=
    .tail (.single (.expire (p := fun _ p => σ.now > p.exp))) .alarm
  unfold alarm
  dsimp only
  split
  case isTrue  => exact (swept.trans (sweeps_actions (s := (_, _)))).tail .alarm
  case isFalse => exact swept.trans (sweeps_actions (s := (_, _)))

-- All requests but a deletion.
theorem start_actions (e : start σ r = some (σ', ops)) (hr : ∀ mid, r ≠ .apiDelete mid) :
    Actions σ σ' := by
  cases r <;> simp only [start] at e
  case apiTokens | apiTerm | upgradeTerm => cases e; exact .refl
  case apiDelete => exact absurd rfl (hr _)
  case upgradeAgent => cases e; exact .head .accept armAlarm_actions
  case webSocketMessage ws _ =>
    split at e
    case isFalse => contradiction
    case isTrue =>
      split at e
      case h_1 => cases e; exact .refl
      case h_2 =>
        split at e
        case h_1 m _ _ h =>
          have same : (hello σ ws m).1 = σ' := congrArg Prod.fst (Option.some.inj e)
          exact same ▸ .single (.sends (hello_sends fun _ _ ha => by simp [h] at ha))
        case h_2 h => cases e; exact fromAgent_actions ⟨_, h⟩
        case h_3 h => cases e; exact .single (.sends fromTerm_sends)
        case h_4   => cases e; exact .refl
  case webSocketClose | webSocketError => exact (closed_actions e).left
  case alarm =>
    split at e
    case h_1 => contradiction
    case h_2 =>
      split at e <;> cases e
      exact alarm_actions
  case autoResponse =>
    split at e <;> cases e
    exact .single (.sends (sends_setSock rfl (List.Subset.refl _) id fun _ => .inl))
  case tick => cases e; exact .single .tick

end Worker
