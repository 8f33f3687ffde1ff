import Popfleet.Lib.Fifo
import Popfleet.Worker.Theorems.Terms
import Popfleet.Worker.Theorems.Typed

open Program

namespace Worker

open State

-- What is typed into a session, of the frames that a socket is sent.
def typed (sid : String) (l : List Frame) : List Frame :=
  l.filter fun f => (f.t = "in" ∨ f.t = "resize") ∧ f.sid = some sid

-- The frame that an agent gets for a frame of a terminal, if any.
def typing (sid : String) (m : Json) : Option Frame :=
  let field (k : String) := (m.field k).join
  if Json.is (field "t") "in" then
    some { t := "in", sid := some sid, data := field "data" }
  else if Json.is (field "t") "resize" then
    some { t := "resize", sid := some sid, c := field "c", r := field "r" }
  else
    none

-- What a terminal of a session says while the socket of the agent of its machine is `a`.
def State.meant (σ : State) (a : Ws) (sid : String) : Req → List Json
  | .webSocketMessage ws (some m) =>
    match σ.attachment ws with
    | some (.term sid' mid) =>
      if sid' = sid ∧ σ.agentSocket mid = some a ∧ (σ.socks a).closed = none then [m] else []
    | _ => []
  | _ => []

def meant (a : Ws) (sid : String) (c : Config State Op) : Label Req Input → List Json
  | .start _ r => c.shared.meant a sid r
  | _          => []

-- Nothing that is typed into the session is sent to the socket.
def State.Mute (a : Ws) (sid : String) (σ σ' : State) : Prop :=
  typed sid (σ'.socks a).sent = typed sid (σ.socks a).sent

-- A socket that is not accepted yet was sent nothing.
def State.Unused (a : Ws) (sid : String) (σ : State) : Prop :=
  σ.next ≤ a.ptr → typed sid (σ.socks a).sent = []

variable {σ σ' σ₁ σ₂ σ₃ : State} {s : Sock} {ws a agent : Ws} {mid sid sid' why sum : String}
  {f : Frame} {m : Json} {r : Req} {op : Op} {ops : List Op} {sha256hex : String → String}
  {ms : List Json} {c : Config State Op}

theorem typed_append {l l' : List Frame} : typed sid (l ++ l') = typed sid l ++ typed sid l' :=
  List.filter_append ..

theorem typed_of_typing (h : typing sid' m = some f) :
    typed sid [f] = if sid' = sid then [f] else [] := by
  unfold typing at h
  dsimp only at h
  split at h
  case isTrue => cases h; simp [typed, List.filter_cons]
  case isFalse =>
    split at h
    case isTrue  => cases h; simp [typed, List.filter_cons]
    case isFalse => contradiction

theorem typed_wsSend : typed sid ((σ.wsSend agent f).socks a).sent =
    typed sid (σ.socks a).sent ++
      if a = agent ∧ (σ.socks a).closed = none then typed sid [f] else [] := by
  unfold wsSend
  split
  case h_1 hc =>
    rw [if_neg, List.append_nil]
    rintro ⟨rfl, running⟩
    simp [running] at hc
  case h_2 hc =>
    rw [socks_setSock]
    split
    case isTrue eq   => rw [if_pos ⟨eq, eq ▸ hc⟩, eq, typed_append]
    case isFalse hne => rw [if_neg fun h => hne h.left, List.append_nil]

-- What the relay does to a socket other than pass on what a terminal says.

namespace State.Mute

theorem refl : Mute a sid σ σ :=
  rfl

theorem trans (h₁ : Mute a sid σ₁ σ₂) (h₂ : Mute a sid σ₂ σ₃) : Mute a sid σ₁ σ₃ :=
  Eq.trans h₂ h₁

theorem setSock (hs : s.sent = (σ.socks ws).sent) : Mute a sid σ (σ.setSock ws s) := by
  rw [Mute, socks_setSock]
  split
  case isTrue eq => rw [hs, eq]
  case isFalse   => rfl

theorem wsSend (hf : f.t ≠ "in" ∧ f.t ≠ "resize") : Mute a sid σ (σ.wsSend ws f) := by
  have none : typed sid [f] = [] := by simp [typed, hf]
  rw [Mute, typed_wsSend, none, ite_self, List.append_nil]

theorem close {code : Nat} : Mute a sid σ (σ.close ws code why) := by
  unfold State.close
  split
  case h_1 => exact refl
  case h_2 => exact setSock rfl

theorem attach {b : Attachment} : Mute a sid σ (σ.attach ws b) :=
  setSock rfl

theorem accept {tags : List Tag} {b : Attachment} (new : Unused a sid σ) :
    Mute a sid σ ((σ.accept tags).1.attach (σ.accept tags).2 b) := by
  rw [Mute, accept_socks]
  split
  case isTrue eq =>
    subst eq
    rw [new (Nat.le_refl _)]
    rfl
  case isFalse => rfl

theorem closeTerms {mid : Option String} : Mute a sid σ (σ.closeTerms mid why) := by
  unfold State.closeTerms
  generalize σ.termSockets mid = l
  induction l generalizing σ
  case nil        => exact refl
  case cons _ l hi => exact ((wsSend (by simp)).trans close).trans hi

theorem dropAgent : Mute a sid σ (σ.dropAgent ws why) :=
  closeTerms.trans (attach.trans close)

theorem touchLastSeen : Mute a sid σ (σ.touchLastSeen mid ws) := by
  unfold State.touchLastSeen
  split
  case h_1 => exact refl
  case h_2 => exact refl

theorem armAlarm : Mute a sid σ σ.armAlarm := by
  unfold State.armAlarm
  split
  case h_1 => exact refl
  case h_2 => exact refl

theorem replace : Mute a sid σ (replace σ mid) := by
  unfold Worker.replace
  split
  case h_1 => exact refl
  case h_2 => exact attach.trans (closeTerms.trans close)

end State.Mute

theorem mute_reap : Mute a sid σ (reap σ ws) := by
  unfold reap
  split
  case h_1 =>
    split
    case h_1 => exact .refl
    case h_2 => exact .wsSend (by simp)
  case h_2 => exact .trans .dropAgent .touchLastSeen
  case h_3 => exact .refl

theorem mute_sweep {now : Time} {p : State × Bool} : Mute a sid p.1 (sweep now p ws).1 := by
  unfold sweep
  dsimp only
  split
  case h_1 =>
    split
    case isTrue  => exact .close
    case isFalse => exact .refl
  case h_2 =>
    split
    case isTrue  => exact .trans .dropAgent .touchLastSeen
    case isFalse => exact .refl
  all_goals exact .refl

theorem mute_alarm : Mute a sid σ (alarm σ) := by
  have sweeps {l : List Ws} {now : Time} {p : State × Bool} :
      Mute a sid p.1 (l.foldl (sweep now) p).1 := by
    induction l generalizing p
    case nil     => exact .refl
    case cons hi => exact mute_sweep.trans hi
  unfold alarm
  dsimp only
  split
  case isTrue  => exact sweeps
  case isFalse => exact sweeps

theorem mute_hello : Mute a sid σ (hello σ ws m).1 := by
  unfold hello
  split
  case h_1 => exact .refl
  case h_2 =>
    split
    case isFalse => exact .close
    case isTrue  => split <;> exact .refl

theorem mute_helloDigest : Mute a sid σ (helloDigest σ ws m sum) := by
  unfold helloDigest
  dsimp only
  split
  case h_1 => exact .close
  case h_2 mid _ =>
    split
    case isFalse => exact .trans (.wsSend (by simp)) .close
    case isTrue =>
      have greeted : Mute a sid σ ((replace σ mid).attach ws (.agent mid σ.now)) :=
        .trans .replace .attach
      refine .trans (.trans ?_ (.wsSend (by simp))) .armAlarm
      split <;> exact greeted

theorem mute_fromAgent : Mute a sid σ (fromAgent σ ws mid m) := by
  unfold fromAgent
  split
  case h_1 => exact .refl
  case h_2 =>
    split
    case isTrue => exact .attach
    case isFalse =>
      split
      case isFalse => exact .refl
      case isTrue =>
        split
        case h_1 => exact .refl
        case h_2 =>
          unfold fromAgentTo
          dsimp only
          split
          case h_1 => exact .refl
          case h_2 =>
            split
            case isTrue  => exact .wsSend (by simp)
            case isFalse => split <;> exact .trans (.wsSend (by simp)) .close

theorem mute_attachTerm {k : String} {p : Pend} (new : Unused a sid σ) :
    Mute a sid σ (attachTerm σ sid' k p) := by
  have accepted : Mute a sid σ (registered σ sid' p) :=
    Mute.accept (σ := { σ with pend := σ.pend.delete sid' }) new
  have greeted : Mute a sid σ ((registered σ sid' p).wsSend (terminal σ sid' p) { t := "e2e" }) :=
    accepted.trans (.wsSend (by simp))
  unfold attachTerm
  dsimp only
  split
  case h_1 =>
    refine greeted.trans (.trans (.wsSend ?_) .close)
    simp
  case h_2 =>
    refine greeted.trans (.wsSend ?_)
    simp

theorem fromTerm_socks (found : σ.agentSocket mid = some agent) :
    (fromTerm σ sid mid m).socks = ((typing sid m).elim σ (σ.wsSend agent)).socks := by
  simp only [fromTerm, found, typing]
  split
  case h_1 tag => simp [tag, Json.is, State.throw]
  case h_2 t tag =>
    simp only [tag, Option.join_some]
    split
    case isTrue  => rfl
    case isFalse => split <;> rfl

-- A frame of a terminal goes to the agent of its machine, and nowhere else.
theorem typed_fromTerm : typed sid ((fromTerm σ sid' mid m).socks a).sent =
    typed sid (σ.socks a).sent ++
      (if sid' = sid ∧ σ.agentSocket mid = some a ∧ (σ.socks a).closed = none then [m] else []).filterMap
        (typing sid) := by
  cases found : σ.agentSocket mid
  case none => simp [fromTerm, found]
  case some agent =>
    rw [fromTerm_socks found]
    cases ht : typing sid' m
    case none =>
      rw [Option.elim_none]
      split
      case isTrue h  => simp [← h.left, ht]
      case isFalse   => simp
    case some f =>
      rw [Option.elim_some, typed_wsSend, typed_of_typing ht]
      by_cases here : a = agent ∧ (σ.socks a).closed = none
      case neg =>
        rw [if_neg here, if_neg fun h => here ⟨(Option.some.inj h.right.left).symm, h.right.right⟩]
        rfl
      case pos =>
        obtain ⟨rfl, running⟩ := here
        by_cases same : sid' = sid
        case pos => subst same; simp [running, ht]
        case neg => simp [same]

theorem typed_start (new : Unused a sid σ) (e : start σ r = some (σ', ops)) :
    typed sid (σ'.socks a).sent =
      typed sid (σ.socks a).sent ++ (σ.meant a sid r).filterMap (typing sid) := by
  have mute (silent : σ.meant a sid r = []) (h : Mute a sid σ σ') : typed sid (σ'.socks a).sent =
      typed sid (σ.socks a).sent ++ (σ.meant a sid r).filterMap (typing sid) := by
    rw [silent, List.filterMap_nil, List.append_nil]
    exact h
  cases r <;> simp only [start] at e
  case apiTokens | apiTerm | upgradeTerm | tick => cases e; exact mute rfl .refl
  case apiDelete =>
    split at e
    case h_1 => cases e; exact mute rfl .refl
    case h_2 =>
      split at e <;> cases e
      case h_1 => exact mute rfl .refl
      case h_2 => exact mute rfl .dropAgent
  case upgradeAgent =>
    cases e
    exact mute rfl (.trans (.accept new) .armAlarm)
  case webSocketMessage ws m =>
    split at e
    case isFalse => contradiction
    case isTrue =>
      split at e
      case h_1 => cases e; exact mute rfl .refl
      case h_2 m =>
        split at e
        case h_1 ha =>
          have called : (hello σ ws m).1 = σ' := congrArg Prod.fst (Option.some.inj e)
          exact mute (by simp only [State.meant, ha]) (called ▸ mute_hello)
        case h_2 ha => cases e; exact mute (by simp only [State.meant, ha]) mute_fromAgent
        case h_3 ha =>
          cases e
          simp only [State.meant, ha]
          exact typed_fromTerm
        case h_4 hn =>
          cases e
          refine mute ?_ .refl
          unfold State.meant
          dsimp only
          split
          case h_1 ha => exact absurd ha (hn _ _)
          case h_2    => rfl
  case webSocketClose | webSocketError =>
    unfold closed at e
    split at e <;> cases e
    exact mute rfl mute_reap
  case alarm =>
    split at e
    case h_1 => contradiction
    case h_2 =>
      split at e <;> cases e
      exact mute rfl mute_alarm
  case autoResponse =>
    split at e <;> cases e
    exact mute rfl (.setSock rfl)

-- Nothing is said to a socket that is not accepted yet.
theorem meant_of_new (hs : Sound σ) (terms : Terms σ) (new : σ.next ≤ a.ptr) :
    σ.meant a sid r = [] := by
  unfold State.meant
  split
  case h_2 => rfl
  case h_1 =>
    split
    case h_2 => rfl
    case h_1 =>
      refine if_neg fun ⟨_, found, _⟩ => ?_
      have ⟨_, ha⟩ := (hs.mem_of_agentSocket found).right
      exact Nat.not_lt_of_le new (terms.known ha)

theorem mute_exec (new : Unused a sid σ) (e : Exec sha256hex σ op σ' ops) : Mute a sid σ σ' := by
  cases e
  case minted first sid' key _ cmd p _ =>
    exact .armAlarm (σ := { σ with pend := σ.pend.set sid' p }.record (.minted first sid' key cmd))
  case accepted => exact mute_attachTerm new
  case hello    => exact mute_helloDigest
  all_goals exact .refl

-- In every run: what an agent's socket is sent of what is typed into a session is what the terminals of
-- the session say while the socket is the agent's of their machine and open, all of it and in order.
theorem relay_keystrokes (h : (program sha256hex).system.Observed (meant a sid) ms c) :
    typed sid (c.shared.socks a).sent = ms.filterMap (typing sid) := by
  refine (h.invariant (I := fun ms c => typed sid (c.shared.socks a).sent = ms.filterMap (typing sid) ∧
    Unused a sid c.shared) ?_ ?_).left
  case refine_1 =>
    rintro c ⟨⟨now, hc⟩, _⟩
    simp [hc, typed, Unused]
  case refine_2 =>
    intro ms c l c' hr ⟨hi, new⟩ e
    have ⟨⟨sound, terms⟩, known⟩ := terms_reachable hr.reachable
    replace e := Step.of e
    cases e
    case start t r σ' ops idle e =>
      have typed := typed_start new e
      refine ⟨?_, fun later => ?_⟩
      case refine_1 => rw [List.filterMap_append, ← hi]; exact typed
      case refine_2 =>
        have next : c.shared.next ≤ a.ptr := Nat.le_trans (start_next sound e) later
        have silent : c.shared.meant a sid r = [] := meant_of_new sound terms next
        exact typed.trans (by rw [new next, silent]; rfl)
    case step t i op rest σ' ops head e =>
      replace e := Exec.of e
      have ho : op.Known c.shared := known op ⟨t, head ▸ List.mem_cons_self⟩
      have mute : Mute a sid c.shared σ' := mute_exec new e
      refine ⟨?_, fun later => Eq.trans mute (new (Nat.le_trans (e.next ho.ofAgent sound) later))⟩
      have silent : meant a sid c (.step t i) = [] := rfl
      rw [silent, List.append_nil, ← hi]
      exact mute

-- The user of a0 types "x9" and makes the window larger.
theorem relay_keystrokes_sample :
    let agent : Ws := ⟨0, [.agent]⟩
    let term : Ws := ⟨1, [.term, .sid "a0", .mid "5c"]⟩
    let key : Json := .obj [("t", .str "in"), ("data", .str "x9")]
    let size : Json := .obj [("t", .str "resize"), ("c", .num "80"), ("r", .num "24")]
    let ls : List (Label Req Input) := sampleTerm ++
      [.start 0 (.webSocketMessage term (some key)), .start 0 (.webSocketMessage term (some size))]
    ∃ c, (program id).system.run initial ls = some c ∧
      typed "a0" (c.shared.socks agent).sent = [
        { t := "in", sid := some "a0", data := some (.str "x9") },
        { t := "resize", sid := some "a0", c := some (.num "80"), r := some (.num "24") }] ∧
      typed "a0" (c.shared.socks agent).sent = [key, size].filterMap (typing "a0") := by
  intro agent term key size ls
  have ran : ((program id).system.run initial ls).isSome := by decide
  have ⟨c, e⟩ := Option.isSome_iff_exists.mp ran
  have sent := Transition.eq_of_run (f := fun c => typed "a0" (c.shared.socks agent).sent) e (by rfl)
  have heard : ((program id).system.observe (meant agent "a0") initial ls).flatten = [key, size] := by
    rfl
  have observed := (Transition.Observed.init (f := meant agent "a0") initial_init).run e
  rw [heard] at observed
  exact ⟨c, e, sent, relay_keystrokes observed⟩

end Worker
