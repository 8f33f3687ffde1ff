import Mathlib.Order.MinMax
import Popfleet.Worker.Theorems.LastSeen

open Program

namespace Worker

open State

-- The step ends the connection of an agent: its socket closes or fails, or the sweep finds it dead.
inductive Ends (σ : State) (ws : Ws) : Req → Prop
  | close : Ends σ ws (.webSocketClose ws)
  | error : Ends σ ws (.webSocketError ws)
  | dead (h : σ.Dead ws) : Ends σ ws .alarm

-- The section is a hello that enrolls its socket for another machine.
inductive Reenrolls (sha256hex : String → String) (mid : String) (σ : State) (ws : Ws) : Op → Prop
  | hello {j : Json} {token mid' : String}
    (text : (Json.or (j.field "token").join (.str "")).text = some token)
    (h : enrolls σ j (sha256hex token) = some mid') (hne : mid' ≠ mid) :
    Reenrolls sha256hex mid σ ws (.hello ws j)

-- The row of a machine is still there, and nothing newer was known of the machine.
def State.Later (mid : String) (σ σ' : State) : Prop :=
  ∀ m, σ.machine.get? mid = some m →
    ∃ m', σ'.machine.get? mid = some m' ∧ σ.lastOf m ≤ σ'.lastOf m'

variable {σ σ' : State} {ws ws' : Ws} {mid mid' sid k : String} {j : Json} {m : Machine} {r : Req}
  {ops : List Op} {seen : Time} {p : Pend} {sha256hex : String → String} {op : Op}

theorem State.Later.of_serves (hs : Sound σ) (hs' : Sound σ') (h : Timed σ)
    (machine : σ'.machine.get? mid = σ.machine.get? mid)
    (serves : ∀ {ws seen}, σ.Serves mid ws seen →
      ∃ seen', σ'.Serves mid ws seen' ∧ max seen (σ.autoOf ws) ≤ max seen' (σ'.autoOf ws)) :
    Later mid σ σ' := by
  intro m hm
  obtain ⟨rfl, _, _⟩ := h.rows hm
  refine ⟨m, machine.trans hm, ?_⟩
  by_cases served : ∃ ws seen, σ.Serves m.id ws seen
  case neg =>
    rw [lastOf_idle hs fun ws seen hs => served ⟨ws, seen, hs⟩]
    exact Nat.le_max_left ..
  case pos =>
    obtain ⟨ws, seen, serves₁⟩ := served
    obtain ⟨seen', serves₂, le⟩ := serves serves₁
    rw [lastOf_serves hs serves₁, lastOf_serves hs' serves₂]
    exact max_le_max_left m.lastSeen le

theorem State.Keeps.later (hk : Keeps mid σ σ') (hs : Sound σ) (hs' : Sound σ') (h : Timed σ) :
    Later mid σ σ' :=
  Later.of_serves hs hs' h hk.machine fun {_ seen} serves =>
    ⟨seen, hk.serves.mpr serves, Nat.le_of_eq (congrArg _ (hk.auto serves).symm)⟩

theorem Timed.lastOf_le (h : Timed σ) (hm : σ.machine.get? mid = some m) : σ.lastOf m ≤ σ.now := by
  have ⟨_, row, _⟩ := h.rows hm
  refine max_le row ?_
  cases σ.agentSocket m.id
  case none => exact Nat.zero_le _
  case some => exact h.lastSeenOf_le

-- What becomes of a machine in a step that does not delete it.
inductive Fate (mid : String) (σ σ' : State) (ends moves : Ws → Prop) : Prop
  | later (h : Later mid σ σ') (keeps : ∀ ws seen, σ.Serves mid ws seen → ¬ends ws ∧ ¬moves ws)
  | ended {ws : Ws} {seen : Time} (serves : σ.Serves mid ws seen) (h : Ended mid (σ.autoOf ws) σ σ')
    (ends : ends ws)
    (moves : ¬moves ws)
  | moved {ws : Ws} {seen : Time} (serves : σ.Serves mid ws seen) (h : Moved mid σ σ') (ends : ¬ends ws)
    (moves : moves ws)

theorem closed_fate (hs : Sound σ) (h : Timed σ) (e : closed σ ws = some (σ', ops)) (hs' : Sound σ')
    (hr : ∀ ws', Ends σ ws' r ↔ ws' = ws) :
    Timed σ' ∧ Fate mid σ σ' (Ends σ · r) fun _ => False := by
  have ⟨timed, keeps, ended⟩ := closed_spec mid hs h e
  refine ⟨timed, ?_⟩
  by_cases served : ∃ seen, σ.Serves mid ws seen
  case pos =>
    have ⟨seen, serves⟩ := served
    exact .ended serves (ended seen serves) ((hr ws).mpr rfl) id
  case neg =>
    have kept : Keeps mid σ σ' := keeps fun seen hs => served ⟨seen, hs⟩
    refine .later (kept.later hs hs' h) fun ws' seen serves => ⟨fun ends => ?_, id⟩
    exact served ⟨seen, (hr ws').mp ends ▸ serves⟩

-- Requests but for the ends of connections and the sweep change nothing that counts, or they show that
-- the machine lives.

theorem not_ends (hr : ∀ ws', ¬Ends σ ws' r) (h : Later mid σ σ') :
    Fate mid σ σ' (Ends σ · r) fun _ => False :=
  .later h fun ws' _ _ => ⟨hr ws', id⟩

theorem heartbeat_later (hs : Sound σ) (h : Timed σ) (hl : ws ∈ σ.listed)
    (ha : σ.attachment ws = some (.agent mid' seen)) (hs' : Sound (σ.attach ws (.agent mid' σ.now))) :
    Timed (σ.attach ws (.agent mid' σ.now)) ∧ Later mid σ (σ.attach ws (.agent mid' σ.now)) := by
  have attached : Reattached ws (.agent mid' σ.now) σ _ := .attach
  refine ⟨h.reattached attached ?_, .of_serves hs hs' h rfl fun {ws' seen'} serves => ?_⟩
  case refine_1 =>
    rintro _ _ ⟨⟩
    exact Nat.le_refl _
  case refine_2 =>
    by_cases same : ws' = ws
    case pos =>
      subst same
      cases ha.symm.trans serves.right
      refine ⟨σ.now, ⟨hl, (attached.attachment ws').trans (if_pos rfl)⟩, ?_⟩
      exact max_le (Nat.le_trans (h.seen ha) (Nat.le_max_left ..))
        (Nat.le_trans (h.auto ws') (Nat.le_max_left ..))
    case neg =>
      refine ⟨seen', ⟨serves.left, ?_⟩, Nat.le_of_eq (congrArg _ (attached.auto ws').symm)⟩
      exact (attached.attachment ws').trans ((if_neg same).trans serves.right)

theorem autoResponse_later (hs : Sound σ) (h : Timed σ)
    (e : σ' = σ.setSock ws { σ.socks ws with autoResponse := some σ.now }) (hs' : Sound σ') :
    Timed σ' ∧ Later mid σ σ' := by
  have socks ws' : σ'.socks ws' =
      if ws' = ws then { σ.socks ws with autoResponse := some σ.now } else σ.socks ws' :=
    e ▸ socks_setSock
  have rest : σ'.rest = σ.rest := e ▸ rfl
  have attachment ws' : σ'.attachment ws' = σ.attachment ws' := by
    rw [State.attachment, socks]
    split
    case isTrue same => exact same ▸ rfl
    case isFalse     => rfl
  have auto ws' : σ.autoOf ws' ≤ σ'.autoOf ws' ∧ σ'.autoOf ws' ≤ σ.now := by
    rw [autoOf, autoOf, socks]
    split
    case isTrue same => exact ⟨same ▸ h.auto ws', Nat.le_refl _⟩
    case isFalse     => exact ⟨Nat.le_refl _, h.auto ws'⟩
  have listed : σ'.listed = σ.listed := congrArg (·.listed) rest
  constructor
  case left =>
    subst e
    exact ⟨h.rows, fun ha => h.seen (attachment _ ▸ ha), fun ws' => (auto ws').right, h.fresh⟩
  case right =>
    refine .of_serves hs hs' h (congrArg (·.machine.get? mid) rest) fun {ws' seen'} serves => ?_
    refine ⟨seen', ⟨listed ▸ serves.left, (attachment ws').trans serves.right⟩, ?_⟩
    exact max_le_max_left seen' (auto ws').left

theorem webSocketMessage_spec (hs : Sound σ) (h : Timed σ) {m : Option Json}
    (e : start σ (.webSocketMessage ws m) = some (σ', ops)) :
    Timed σ' ∧ Later mid σ σ' := by
  have hs' : Sound σ' := hs.start e
  have calm (hc : Calm σ σ') : Timed σ' ∧ Later mid σ σ' :=
    ⟨h.calm hc, (Keeps.calm hc).later hs hs' h⟩
  simp only [start] at e
  split at e
  case isFalse => contradiction
  case isTrue hl =>
    split at e
    case h_1 => cases e; exact calm .refl
    case h_2 j =>
      split at e
      case h_1 =>
        have greeted : (hello σ ws j).1 = σ' := congrArg Prod.fst (Option.some.inj e)
        exact calm (greeted ▸ hello_calm)
      case h_2 mid' seen ha =>
        cases e
        cases fromAgent_cases σ ws mid' j
        case inl hc => exact calm hc
        case inr hb => exact hb ▸ heartbeat_later hs h hl ha (hb ▸ hs')
      case h_3 => cases e; exact calm fromTerm_calm
      case h_4 => cases e; exact calm .refl

theorem apiDelete_spec (hs : Sound σ) (h : Timed σ) (e : start σ (.apiDelete mid') = some (σ', ops)) :
    Timed σ' ∧ (mid ∉ σ'.deletions → Later mid σ σ') := by
  have hs' : Sound σ' := hs.start e
  simp only [start] at e
  split at e
  case h_1 => cases e; exact ⟨h, fun _ => Keeps.refl.later hs hs' h⟩
  case h_2 m hm =>
    have deleted : Timed { σ with machine := σ.machine.delete mid', tok := σ.tok.delete m.tokenSum } :=
      ⟨fun hm => h.rows (GoMap.of_get?_delete hm).right, h.seen, h.auto, h.fresh⟩
    have kept (hne : mid' ≠ mid) : Keeps mid σ
        { σ with machine := σ.machine.delete mid', tok := σ.tok.delete m.tokenSum } :=
      ⟨by simp [Ne.symm hne], Iff.rfl, fun _ => rfl⟩
    have other (hd : mid ∉ σ'.deletions) : mid' ≠ mid := by
      rintro rfl
      cases e
      exact hd List.mem_cons_self
    split at e <;> cases e
    case h_1 =>
      exact ⟨deleted.record, fun hd => ((kept (other hd)).trans keeps_record).later hs hs' h⟩
    case h_2 old found =>
      obtain ⟨_, _, ha⟩ := hs.mem_of_agentSocket found
      refine ⟨deleted.dropAgent.record, fun hd => ?_⟩
      exact (((kept (other hd)).trans (Keeps.dropAgent ha (other hd))).trans keeps_record).later hs hs' h

theorem upgradeAgent_spec (hs : Sound σ) (h : Timed σ) (e : start σ .upgradeAgent = some (σ', ops)) :
    Timed σ' ∧ Later mid σ σ' := by
  have hs' : Sound σ' := hs.start e
  cases e
  have pending mid seen : Attachment.pending σ.now ≠ .agent mid seen := Attachment.noConfusion
  exact ⟨(h.accept pending).armAlarm,
    ((Keeps.accept h.fresh (pending mid)).trans keeps_armAlarm).later hs hs' h⟩

theorem alarm_fate (hs : Sound σ) (h : Timed σ) (hs' : Sound (alarm σ)) :
    Timed (alarm σ) ∧ Fate mid σ (alarm σ) (Ends σ · .alarm) fun _ => False := by
  have ⟨timed, keeps, ended⟩ := alarm_spec mid hs h
  refine ⟨timed, ?_⟩
  by_cases died : ∃ ws seen, σ.Serves mid ws seen ∧ σ.Dead ws
  case pos =>
    have ⟨ws, seen, serves, dead⟩ := died
    exact .ended serves (ended ws seen serves dead) (.dead dead) id
  case neg =>
    have kept : Keeps mid σ (alarm σ) := keeps fun ws seen hs dead => died ⟨ws, seen, hs, dead⟩
    refine .later (kept.later hs hs' h) fun ws seen serves => ⟨?_, id⟩
    rintro ⟨⟩
    case dead dead => exact died ⟨ws, seen, serves, dead⟩

theorem start_spec (mid : String) (hs : Sound σ) (h : Timed σ) (e : start σ r = some (σ', ops)) :
    Timed σ' ∧ (mid ∉ σ'.deletions → Fate mid σ σ' (Ends σ · r) fun _ => False) := by
  have hs' : Sound σ' := hs.start e
  cases r
  case webSocketClose ws =>
    refine (closed_fate hs h e hs' fun ws' => ⟨?_, fun same => same ▸ .close⟩).imp_right fun h _ => h
    rintro ⟨⟩
    rfl
  case webSocketError ws =>
    refine (closed_fate hs h e hs' fun ws' => ⟨?_, fun same => same ▸ .error⟩).imp_right fun h _ => h
    rintro ⟨⟩
    rfl
  case alarm =>
    simp only [start] at e
    split at e
    case h_1 => contradiction
    case h_2 =>
      split at e <;> cases e
      exact (alarm_fate hs h hs').imp_right fun h _ => h
  case apiDelete =>
    exact (apiDelete_spec hs h e).imp_right fun later hd => not_ends (by rintro _ ⟨⟩) (later hd)
  case upgradeAgent =>
    exact (upgradeAgent_spec hs h e).imp_right fun later _ => not_ends (by rintro _ ⟨⟩) later
  case webSocketMessage =>
    exact (webSocketMessage_spec hs h e).imp_right fun later _ => not_ends (by rintro _ ⟨⟩) later
  case autoResponse ws =>
    simp only [start] at e
    split at e <;> cases e
    exact (autoResponse_later hs h rfl hs').imp_right fun later _ => not_ends (by rintro _ ⟨⟩) later
  case tick d =>
    cases e
    have ticked : Timed { σ with now := σ.now + d } := by
      refine ⟨fun hm => ?_, fun ha => ?_, fun ws => ?_, h.fresh⟩
      case refine_1 =>
        obtain ⟨id, seen, known⟩ := h.rows hm
        exact ⟨id, Nat.le_add_right_of_le seen, known⟩
      case refine_2 => exact Nat.le_add_right_of_le (h.seen ha)
      case refine_3 => exact Nat.le_add_right_of_le (h.auto ws)
    have kept : Keeps mid σ { σ with now := σ.now + d } := ⟨rfl, Iff.rfl, fun _ => rfl⟩
    exact ⟨ticked, fun _ => not_ends (by rintro _ ⟨⟩) (kept.later hs hs' h)⟩
  all_goals
    cases e
    exact ⟨h, fun _ => not_ends (by rintro _ ⟨⟩) (Keeps.refl.later hs hs' h)⟩

-- What the sections after a digest do.

theorem attachTerm_spec (mid : String) (hs : Sound σ) (h : Timed σ) (hs' : Sound (attachTerm σ sid k p)) :
    Timed (attachTerm σ sid k p) ∧ Later mid σ (attachTerm σ sid k p) := by
  have deleted : Timed { σ with pend := σ.pend.delete sid } := ⟨h.rows, h.seen, h.auto, h.fresh⟩
  have taken : Keeps mid σ { σ with pend := σ.pend.delete sid } := ⟨rfl, Iff.rfl, fun _ => rfl⟩
  have other mid' seen : Attachment.term sid p.mid ≠ .agent mid' seen := Attachment.noConfusion
  have ⟨timed, kept⟩ : Timed (attachTerm σ sid k p) ∧ Keeps mid σ (attachTerm σ sid k p) := by
    unfold attachTerm
    dsimp only
    split
    case h_1 =>
      exact ⟨((((deleted.accept other).calm .wsSend).calm .wsSend).calm .close).record,
        ((((taken.trans (.accept h.fresh (other mid))).trans (.calm .wsSend)).trans
          (.calm .wsSend)).trans (.calm .close)).trans keeps_record⟩
    case h_2 =>
      exact ⟨(((deleted.accept other).calm .wsSend).calm .wsSend).record,
        (((taken.trans (.accept h.fresh (other mid))).trans (.calm .wsSend)).trans
          (.calm .wsSend)).trans keeps_record⟩
  exact ⟨timed, kept.later hs hs' h⟩

theorem helloDigest_later (hs : Sound σ) (h : Timed σ) (he : enrolls σ j k = some mid) :
    Later mid σ (helloDigest σ ws j k) := by
  intro m hm
  have ⟨m', hm', seen⟩ := helloDigest_seen ws hs he hm
  refine ⟨m', hm', Nat.le_trans (h.lastOf_le hm) ?_⟩
  exact Nat.le_trans (Nat.le_of_eq seen.symm) (Nat.le_max_left ..)

theorem helloDigest_fate {token : String} (hs : Sound σ) (h : Timed σ)
    (ht : (Json.or (j.field "token").join (.str "")).text = some token)
    (hs' : Sound (helloDigest σ ws j (sha256hex token))) :
    Fate mid σ (helloDigest σ ws j (sha256hex token)) (fun _ => False)
      (Reenrolls sha256hex mid σ · (.hello ws j)) := by
  cases he : enrolls σ j (sha256hex token)
  case none =>
    refine .later ((Keeps.calm (helloDigest_calm he)).later hs hs' h) fun ws' seen serves => ⟨id, ?_⟩
    rintro ⟨text, enrolls, _⟩
    cases text.symm.trans ht
    cases enrolls.symm.trans he
  case some mid' =>
    by_cases same : mid' = mid
    case pos =>
      subst same
      refine .later (helloDigest_later hs h he) fun ws' seen serves => ⟨id, ?_⟩
      rintro ⟨text, enrolls, hne⟩
      cases text.symm.trans ht
      cases enrolls.symm.trans he
      exact hne rfl
    case neg =>
      have ⟨keeps, moved⟩ := helloDigest_other ws hs he same
      by_cases served : ∃ seen, σ.Serves mid ws seen
      case pos =>
        have ⟨seen, serves⟩ := served
        exact .moved serves (moved seen serves) id (.hello ht he same)
      case neg =>
        have kept : Keeps mid σ (helloDigest σ ws j (sha256hex token)) :=
          keeps fun seen serves => served ⟨seen, serves⟩
        refine .later (kept.later hs hs' h) fun ws' seen serves => ⟨id, ?_⟩
        rintro ⟨⟩
        exact served ⟨seen, serves⟩

-- A machine that is about to be enrolled was not seen yet.
def Op.Unseen : Op → Prop
  | .tokensPut m _ => m.lastSeen = 0
  | _              => True

theorem Exec.timed (e : Exec sha256hex σ op σ' ops) (hs : Sound σ) (hs' : Sound σ') (hu : op.Unseen)
    (h : Timed σ) : Timed σ' := by
  cases e
  case refused | drawn | first | again => exact h
  case threw => exact h.calm .throw
  case enrolled m token =>
    refine ⟨fun {id m'} hm => ?_, h.seen, h.auto, h.fresh⟩
    cases GoMap.of_get?_set hm
    case inl new =>
      obtain ⟨rfl, rfl⟩ := new
      exact ⟨rfl, Nat.le_trans (Nat.le_of_eq hu) (Nat.zero_le _), List.mem_cons_self⟩
    case inr old => exact h.record.rows old.right
  case minted => exact Timed.armAlarm (.record ⟨h.rows, h.seen, h.auto, h.fresh⟩)
  case accepted => exact (attachTerm_spec "" hs h hs').left
  case hello => exact helloDigest_timed hs h

theorem Exec.later (e : Exec sha256hex σ op σ' ops) (hs : Sound σ) (hs' : Sound σ') (h : Timed σ)
    (hh : ∀ ws j, op ≠ .hello ws j) (hn : (σ'.enrolled.map (·.1)).Nodup) : Later mid σ σ' := by
  cases e
  case refused | drawn | first | again => exact Keeps.refl.later hs hs' h
  case threw => exact (Keeps.calm .throw).later hs hs' h
  case enrolled m token =>
    intro m' hm'
    have ⟨_, _, known⟩ := h.rows hm'
    have hne : m.id ≠ mid := by
      rintro rfl
      exact (List.nodup_cons.mp hn).left known
    have kept : Keeps mid σ
        ({ σ with machine := σ.machine.set m.id m, tok := σ.tok.set m.tokenSum m.id }.record
          (.enrolled m.id token)) :=
      ⟨GoMap.get?_set.trans (if_neg (Ne.symm hne)), Iff.rfl, fun _ => rfl⟩
    exact kept.later hs hs' h m' hm'
  case minted first sid key mid' cmd p _ =>
    have minted : Keeps mid σ
        ({ σ with pend := σ.pend.set sid p }.record (.minted first sid key cmd)) :=
      ⟨rfl, Iff.rfl, fun _ => rfl⟩
    exact (minted.trans keeps_armAlarm).later hs hs' h
  case accepted => exact (attachTerm_spec mid hs h hs').right
  case hello => exact absurd rfl (hh _ _)

theorem exec_fate {i : Input} (e : exec sha256hex σ op i = some (σ', ops)) (hs : Sound σ) (h : Timed σ)
    (ho : op.OfAgent) (hn : (σ'.enrolled.map (·.1)).Nodup) :
    Fate mid σ σ' (fun _ => False) (Reenrolls sha256hex mid σ · op) := by
  have exec := Exec.of e
  have hs' : Sound σ' := exec.sound hs ho
  by_cases hh : ∃ ws j, op = .hello ws j
  case neg =>
    refine .later (exec.later hs hs' h (fun ws j he => hh ⟨ws, j, he⟩) hn) fun ws seen _ => ⟨id, ?_⟩
    rintro ⟨⟩
    exact hh ⟨_, _, rfl⟩
  case pos =>
    obtain ⟨ws, j, rfl⟩ := hh
    simp only [Worker.exec] at e
    split at e <;> cases e
    case h_2 token text => exact helloDigest_fate hs h text hs'
    case h_1 none =>
      refine .later ((Keeps.calm .throw).later hs hs' h) fun ws' seen _ => ⟨id, ?_⟩
      rintro ⟨text, _, _⟩
      cases text.symm.trans none

theorem Exec.ops_unseen (e : Exec sha256hex σ op σ' ops) : ∀ o ∈ ops, o.Unseen := by
  cases e <;> simp [Op.Unseen]

theorem timed_reachable {c : Config State Op} (h : (program sha256hex).system.Reachable c) :
    Timed c.shared := by
  refine (h.invariant (I := fun c => Timed c.shared ∧ ∀ o, c.Pending o → o.Unseen) ?_ ?_).left
  case refine_1 =>
    rintro c ⟨⟨now, init⟩, idle⟩
    refine ⟨init ▸ ⟨by simp, by simp [attachment], fun _ => Nat.zero_le _, by simp⟩, ?_⟩
    rintro o ⟨t, ho⟩
    simp [idle] at ho
  case refine_2 =>
    rintro c l c' hr ⟨timed, unseen⟩ _ e
    obtain ⟨sound, agents⟩ := sound_reachable hr
    replace e := Step.of e
    cases e
    case start e =>
      refine ⟨(start_spec "" sound timed e).left, fun o ho => ?_⟩
      cases ho.of_resume
      case inr ho => exact unseen o ho
      case inl ho =>
        obtain ⟨_, _, started⟩ := Started.of e ho
        cases started <;> trivial
    case step op _ _ _ head e =>
      replace e := Exec.of e
      have first : c.Pending op := ⟨_, head ▸ List.mem_cons_self⟩
      refine ⟨e.timed sound (e.sound sound (agents op first)) (unseen op first) timed, fun o ho => ?_⟩
      cases ho.of_step head
      case inl ho => exact e.ops_unseen o ho
      case inr ho => exact unseen o ho

-- How much of the last sign of life a step keeps. A connection that ends leaves what the row and the
-- absorbed heartbeats tell, and a socket that is enrolled for another machine what the row tells.
def State.Recorded (mid : String) (σ : State) (ends moves : Ws → Prop) : Prop :=
  ∀ ws seen m, σ.Serves mid ws seen → σ.machine.get? mid = some m →
    (ends ws → seen ≤ max m.lastSeen (σ.autoOf ws)) ∧
    (moves ws → max seen (σ.autoOf ws) ≤ m.lastSeen)

theorem Fate.later_iff {ends moves : Ws → Prop} (f : Fate mid σ σ' ends moves) (hs : Sound σ)
    (hs' : Sound σ') (h : Timed σ) (hm : σ.machine.get? mid = some m) :
    ∃ m', σ'.machine.get? mid = some m' ∧
      (σ.lastOf m ≤ σ'.lastOf m' ↔ σ.Recorded mid ends moves) := by
  obtain ⟨rfl, _, _⟩ := h.rows hm
  have only {ws ws' seen seen'} (hs₁ : σ.Serves m.id ws seen) (hs₂ : σ.Serves m.id ws' seen') :
      ws' = ws ∧ seen' = seen := by
    obtain rfl := hs.single hs₁.left hs₂.left ⟨_, hs₁.right⟩ ⟨_, hs₂.right⟩
    cases hs₁.right.symm.trans hs₂.right
    exact ⟨rfl, rfl⟩
  cases f
  case later later keeps =>
    have ⟨m', hm', le⟩ := later m hm
    refine ⟨m', hm', iff_of_true le fun ws seen _ serves _ => ?_⟩
    have ⟨ends, moves⟩ := keeps ws seen serves
    exact ⟨fun h => absurd h ends, fun h => absurd h moves⟩
  case ended ws seen serves ended ends moves =>
    have row := ended.machine hm
    have after : σ'.lastOf { m with lastSeen := max m.lastSeen (σ.autoOf ws) } =
        max m.lastSeen (σ.autoOf ws) :=
      lastOf_idle hs' fun _ _ => ended.idle
    refine ⟨_, row, ?_⟩
    rw [after, lastOf_serves hs serves]
    constructor
    case mp =>
      intro le ws' seen' m' serves' hm'
      obtain ⟨rfl, rfl⟩ := only serves serves'
      cases hm.symm.trans hm'
      refine ⟨fun _ => ?_, fun h => absurd h moves⟩
      exact Nat.le_trans (Nat.le_trans (Nat.le_max_left ..) (Nat.le_max_right ..)) le
    case mpr =>
      intro recorded
      have kept := (recorded ws seen m serves hm).left ends
      exact max_le (Nat.le_max_left ..) (max_le kept (Nat.le_max_right ..))
  case moved ws seen serves moved ends moves =>
    have row := moved.machine.trans hm
    refine ⟨m, row, ?_⟩
    rw [lastOf_idle hs' fun _ _ => moved.idle, lastOf_serves hs serves]
    constructor
    case mp =>
      intro le ws' seen' m' serves' hm'
      obtain ⟨rfl, rfl⟩ := only serves serves'
      cases hm.symm.trans hm'
      exact ⟨fun h => absurd h ends, fun _ => Nat.le_trans (Nat.le_max_right ..) le⟩
    case mpr =>
      intro recorded
      exact max_le (Nat.le_refl _) ((recorded ws seen m serves hm).right moves)

-- What the API lists.

theorem mem_apiMachines {row : Row} (h : Timed σ) :
    row ∈ σ.apiMachines ∧ row.id = mid → ∃ m, σ.machine.get? mid = some m ∧
      row.lastSeen = if σ.lastOf m = 0 then none else some (σ.lastOf m) := by
  rintro ⟨listed, rfl⟩
  simp only [apiMachines, List.mem_insertionSort, List.mem_map, GoMap.mem_values] at listed
  obtain ⟨m, ⟨id, hm⟩, rfl⟩ := listed
  obtain ⟨rfl, _, _⟩ := h.rows hm
  exact ⟨m, hm, rfl⟩

theorem exists_mem_apiMachines (h : Timed σ) (hm : σ.machine.get? mid = some m) :
    ∃ row ∈ σ.apiMachines, row.id = mid := by
  obtain ⟨rfl, _, _⟩ := h.rows hm
  simp only [apiMachines, List.mem_insertionSort, List.mem_map, GoMap.mem_values]
  exact ⟨_, ⟨m, ⟨m.id, hm⟩, rfl⟩, rfl⟩

theorem reported_le {a b : Time} :
    (if a = 0 then none else some a) ≤ (if b = 0 then none else some b) ↔ a ≤ b := by
  split <;> split <;> simp [*]

-- The last sign of life that is reported never goes back, as the connections end.

def EndsAt (σ : State) (ws : Ws) : Label Req Input → Prop
  | .start _ r => Ends σ ws r
  | .step _ _  => False

def MovesAt (sha256hex : String → String) (mid : String) (c : Config State Op) (ws : Ws) :
    Label Req Input → Prop
  | .start _ _ => False
  | .step t _  => ∃ op ∈ (c.procs t).head?, Reenrolls sha256hex mid c.shared ws op

def Recorded (sha256hex : String → String) (mid : String) (c : Config State Op) (l : Label Req Input) :
    Prop :=
  c.shared.Recorded mid (EndsAt c.shared · l) (MovesAt sha256hex mid c · l)

variable {c c' c₂ : Config State Op} {l : Label Req Input} {row : Row}

theorem step_fate (hr : (program sha256hex).system.Reachable c)
    (e : (program sha256hex).system.step c l = some c') (hn : (c'.shared.enrolled.map (·.1)).Nodup)
    (hd : mid ∉ c'.shared.deletions) :
    Fate mid c.shared c'.shared (EndsAt c.shared · l) (MovesAt sha256hex mid c · l) := by
  have ⟨sound, agents⟩ := sound_reachable hr
  have timed := timed_reachable hr
  replace e := Step.of e
  cases e
  case start e => exact (start_spec mid sound timed e).right hd
  case step t i op _ _ _ head e =>
    have agent : op.OfAgent := agents op ⟨t, head ▸ List.mem_cons_self⟩
    have moves : (MovesAt sha256hex mid c · (.step t i)) = (Reenrolls sha256hex mid c.shared · op) := by
      simp [MovesAt, head]
    exact moves ▸ exec_fate e sound timed agent hn

theorem step_log (hr : (program sha256hex).system.Reachable c)
    (e : (program sha256hex).system.step c l = some c') : c.shared.log <:+ c'.shared.log := by
  have ⟨sound, agents⟩ := sound_reachable hr
  replace e := Step.of e
  cases e
  case start e         => exact start_log_suffix sound e
  case step t _ op _ _ _ head e =>
    exact (Exec.of e).log_suffix sound (agents op ⟨t, head ▸ List.mem_cons_self⟩)

theorem step_later_iff (hr : (program sha256hex).system.Reachable c)
    (e : (program sha256hex).system.step c l = some c') (hn : (c'.shared.enrolled.map (·.1)).Nodup)
    (hd : mid ∉ c'.shared.deletions) (hm : c.shared.machine.get? mid = some m) :
    ∃ m', c'.shared.machine.get? mid = some m' ∧
      (c.shared.lastOf m ≤ c'.shared.lastOf m' ↔ Recorded sha256hex mid c l) := by
  have hr' : (program sha256hex).system.Reachable c' := .step hr trivial e
  exact (step_fate hr e hn hd).later_iff (sound_reachable hr).left (sound_reachable hr').left
    (timed_reachable hr) hm

theorem run_later (hr : (program sha256hex).system.Reachable c)
    (h : ((program sha256hex).system.after c).ReachableUnder (Recorded sha256hex mid) c₂)
    (hn : (c₂.shared.enrolled.map (·.1)).Nodup) (hd : mid ∉ c₂.shared.deletions) :
    Later mid c.shared c₂.shared := by
  induction h
  case init same =>
    intro m hm
    exact ⟨m, same ▸ hm, Nat.le_of_eq (congrArg (·.shared.lastOf m) same.symm)⟩
  case step c₁ l c₂ h recorded e hi =>
    have hr₁ : (program sha256hex).system.Reachable c₁ := Transition.Reachable.after hr h
    have log := step_log hr₁ e
    have enrolled : c₁.shared.enrolled <:+ c₂.shared.enrolled := log.filterMap _
    have deletions : c₁.shared.deletions <:+ c₂.shared.deletions := log.filterMap _
    intro m hm
    have ⟨m₁, hm₁, le⟩ :=
      hi (hn.sublist (enrolled.map _).sublist) (fun hd' => hd (deletions.subset hd')) m hm
    have ⟨m₂, hm₂, later⟩ := step_later_iff hr₁ e hn hd hm₁
    exact ⟨m₂, hm₂, Nat.le_trans le (later.mpr recorded)⟩

-- What the API reports of a machine that is not deleted never goes back in a run whose steps keep the
-- last sign of life, and a step that keeps less makes it go back. No machine gets the id of another one.
theorem apiMachines_lastSeen_mono (hr : (program sha256hex).system.Reachable c)
    (hl : row ∈ c.shared.apiMachines) :
    (∀ c₂, ((program sha256hex).system.after c).ReachableUnder (Recorded sha256hex row.id) c₂ →
      (c₂.shared.enrolled.map (·.1)).Nodup → row.id ∉ c₂.shared.deletions →
      (∃ row₂ ∈ c₂.shared.apiMachines, row₂.id = row.id) ∧
      ∀ row₂ ∈ c₂.shared.apiMachines, row₂.id = row.id → row.lastSeen ≤ row₂.lastSeen) ∧
    ∀ l c', (program sha256hex).system.step c l = some c' →
      (c'.shared.enrolled.map (·.1)).Nodup → row.id ∉ c'.shared.deletions →
      ((∀ row' ∈ c'.shared.apiMachines, row'.id = row.id → row.lastSeen ≤ row'.lastSeen) ↔
        Recorded sha256hex row.id c l) := by
  have ⟨m, hm, last⟩ := mem_apiMachines (timed_reachable hr) ⟨hl, rfl⟩
  constructor
  case left =>
    intro c₂ h hn hd
    have timed := timed_reachable (Transition.Reachable.after hr h)
    have ⟨m₂, hm₂, le⟩ := run_later hr h hn hd m hm
    refine ⟨exists_mem_apiMachines timed hm₂, fun row₂ hl₂ id => ?_⟩
    have ⟨m', hm', last₂⟩ := mem_apiMachines timed ⟨hl₂, id⟩
    cases hm₂.symm.trans hm'
    exact last ▸ last₂ ▸ reported_le.mpr le
  case right =>
    intro l c' e hn hd
    have timed := timed_reachable (Transition.ReachableUnder.step hr trivial e)
    have ⟨m', hm', later⟩ := step_later_iff hr e hn hd hm
    rw [← later]
    constructor
    case mp =>
      intro mono
      have ⟨row', hl', id⟩ := exists_mem_apiMachines timed hm'
      have ⟨_, hm'', last'⟩ := mem_apiMachines timed ⟨hl', id⟩
      cases hm'.symm.trans hm''
      have le := mono row' hl' id
      rw [last, last'] at le
      exact reported_le.mp le
    case mpr =>
      intro le row' hl' id
      have ⟨_, hm'', last'⟩ := mem_apiMachines timed ⟨hl', id⟩
      cases hm'.symm.trans hm''
      exact last ▸ last' ▸ reported_le.mpr le

-- The agent of machine 5c says hello at 1000, and shows that it lives with `e` at 6000.
def sampleSeen (e : Ws → Req) : List (Label Req Input) :=
  .start 0 (.tick 1000) :: sampleAgent ++ [.start 0 (.tick 5000), .start 0 (e ⟨0, [.agent]⟩)]

-- Its heartbeat was absorbed, and the row has it when the socket closes.
theorem apiMachines_lastSeen_mono_sample :
    ∃ c c₂ row, (program id).system.run initial (sampleSeen .autoResponse) = some c ∧
      row ∈ c.shared.apiMachines ∧ row.lastSeen = some 6000 ∧
      (program id).system.step c (.start 0 (.webSocketClose ⟨0, [.agent]⟩)) = some c₂ ∧
      ∀ row₂ ∈ c₂.shared.apiMachines, row₂.id = row.id → row.lastSeen ≤ row₂.lastSeen := by
  let agent : Ws := ⟨0, [.agent]⟩
  let ls := sampleSeen .autoResponse ++ [.start 0 (.webSocketClose agent)]
  have ran : ((program id).system.run initial ls).isSome := by decide
  obtain ⟨c₂, e₂⟩ := Option.isSome_iff_exists.mp ran
  obtain ⟨c, e, closed⟩ := Transition.run_append_eq_some.mp e₂
  obtain ⟨_, step, ⟨⟩⟩ := Transition.run_cons_eq_some.mp closed
  have reachable := Transition.Reachable.run (.init initial_init) e
  have rows : c.shared.apiMachines.map (fun row => (row.id, row.lastSeen)) = [("5c", some 6000)] :=
    Transition.eq_of_run (f := fun c => c.shared.apiMachines.map fun row => (row.id, row.lastSeen)) e
      (by decide)
  obtain ⟨row, only, shown⟩ := List.map_eq_singleton_iff.mp rows
  have listed : row ∈ c.shared.apiMachines := only ▸ List.mem_singleton_self row
  have recorded : Recorded id row.id c (.start 0 (.webSocketClose agent)) := by
    have sockets : c.shared.listed = [agent] :=
      Transition.eq_of_run (f := (·.shared.listed)) e (by decide)
    have attached : c.shared.attachment agent = some (.agent "5c" 1000) :=
      Transition.eq_of_run (f := (·.shared.attachment agent)) e (by decide)
    have auto : c.shared.autoOf agent = 6000 :=
      Transition.eq_of_run (f := (·.shared.autoOf agent)) e (by decide)
    intro ws seen m serves _
    refine ⟨fun _ => ?_, fun moves => moves.elim⟩
    have same : ws = agent := List.mem_singleton.mp (sockets ▸ serves.left)
    have ⟨_, hello⟩ :=
      Attachment.agent.inj (Option.some.inj (attached.symm.trans (same ▸ serves.right)))
    rw [same, auto, ← hello]
    exact Nat.le_trans (by decide) (Nat.le_max_right ..)
  have ids : c₂.shared.enrolled.map (·.1) = ["5c"] :=
    Transition.eq_of_run (f := fun c => c.shared.enrolled.map (·.1)) e₂ (by decide)
  have deletions : c₂.shared.deletions = [] :=
    Transition.eq_of_run (f := (·.shared.deletions)) e₂ (by decide)
  have exact_step := (apiMachines_lastSeen_mono reachable listed).right _ _ step (ids ▸ by decide)
    (deletions ▸ List.not_mem_nil)
  exact ⟨c, c₂, row, e, listed, congrArg Prod.snd shown, step, exact_step.mpr recorded⟩

-- A heartbeat that was not absorbed is forgotten.
theorem apiMachines_lastSeen_back :
    let fallback (ws : Ws) : Req := .webSocketMessage ws (some (.obj [("t", .str "hb")]))
    ∃ c c₂, (program id).system.run initial (sampleSeen fallback) = some c ∧
      (program id).system.step c (.start 0 (.webSocketClose ⟨0, [.agent]⟩)) = some c₂ ∧
      c.shared.apiMachines.map (fun row => (row.id, row.lastSeen)) = [("5c", some 6000)] ∧
      c₂.shared.apiMachines.map (fun row => (row.id, row.lastSeen)) = [("5c", some 1000)] ∧
      c₂.shared.deletions = [] := by
  intro fallback
  refine ⟨_, _, rfl, rfl, ?_⟩
  decide

end Worker
