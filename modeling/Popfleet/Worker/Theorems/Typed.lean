import Popfleet.E2E.Theorems.Authenticity
import Popfleet.E2E.Theorems.Handling
import Popfleet.Worker.Theorems.Relay

open Program

namespace Worker

open State

-- A value that is forwarded as nothing or as null, as a number that is not finite is.
def Json.isNull : Option Json → Bool
  | none | some .null => true
  | some (.num text)  => text = "Infinity" ∨ text = "-Infinity"
  | _                 => false

def Json.FitsString : Option Json → Bool
  | some (.str _) => true
  | v             => isNull v

def Json.FitsInt : Option Json → Bool
  | some (.num text) => isNull (some (.num text)) || (Proto.parseInt text).isSome
  | v                => isNull v

-- A frame of a terminal whose fields fit what the agent decodes them to.
def Json.Fits (m : Json) : Prop :=
  let field (k : String) := (m.field k).join
  (is (field "t") "in" → FitsString (field "data")) ∧
  (is (field "t") "resize" → FitsInt (field "c") ∧ FitsInt (field "r"))

variable {σ : State} {ws ws' agent : Ws} {mid sid : String} {m : Json} {f : Frame}
  {v c r : Option Json}

theorem string_isSome : (Proto.string (v.map Json.printed)).isSome = Json.FitsString v := by
  cases v
  case none => rfl
  case some v =>
    cases v
    case num text =>
      simp only [Option.map_some, Json.printed, Json.FitsString, Json.isNull]
      split
      case isTrue h  => simp [Proto.string, h]
      case isFalse h => simp [Proto.string, h]
    all_goals rfl

theorem int_isSome : (Proto.int (v.map Json.printed)).isSome = Json.FitsInt v := by
  cases v
  case none => rfl
  case some v =>
    cases v
    case num text =>
      simp only [Option.map_some, Json.printed, Json.FitsInt, Json.isNull]
      split
      case isTrue h  => simp [Proto.int, h]
      case isFalse h => simp [Proto.int, h]
    all_goals rfl

theorem readJSON_in :
    Proto.readJSON ({ t := "in", sid := some sid, data := v } : Frame).json =
      (Proto.string (v.map Json.printed)).map fun data => { t := "in", sid, data } := by
  cases v <;> simp [Proto.readJSON, Frame.json, Json.printed, List.lookup_cons, Option.map_eq_bind]

theorem readJSON_resize :
    Proto.readJSON ({ t := "resize", sid := some sid, c, r } : Frame).json =
      (Proto.int (c.map Json.printed)).bind fun c =>
        (Proto.int (r.map Json.printed)).map fun r => { t := "resize", sid, c, r } := by
  cases c <;> cases r <;>
    simp [Proto.readJSON, Frame.json, Json.printed, List.lookup_cons, Option.map_eq_bind]

-- The frame that `fromTerm` passes on.
theorem fromTerm_frame
    (hs : ((fromTerm σ sid mid m).socks ws).sent = (σ.socks ws).sent ++ [f]) :
    let field (k : String) := (m.field k).join
    Json.is (field "t") "in" ∧ f = { t := "in", sid := some sid, data := field "data" } ∨
    ¬Json.is (field "t") "in" ∧ Json.is (field "t") "resize" ∧
      f = { t := "resize", sid := some sid, c := field "c", r := field "r" } := by
  have sent {agent : Ws} {f' : Frame} (h : ((σ.wsSend agent f').socks ws).sent =
      (σ.socks ws).sent ++ [f]) : f = f' := by
    have reached : Reached σ (σ.wsSend agent f') ws := .inl (by simp [h])
    have ⟨_, same⟩ := reached_wsSend reached
    simpa [same] using h.symm
  revert hs
  unfold fromTerm
  split
  case h_1 => simp
  case h_2 =>
    split
    case h_1 => simp [State.throw]
    case h_2 t ht =>
      simp only [ht, Option.join_some]
      split
      case isTrue h => exact fun hs => .inl ⟨h, sent hs⟩
      case isFalse h =>
        split
        case isTrue h'  => exact fun hs => .inr ⟨h, h', sent hs⟩
        case isFalse h' => simp

theorem Json.not_is_of_is {a b : String} (h : is v a) (hne : a ≠ b) : ¬is v b := by
  revert h
  unfold is
  split
  case h_1 => simp +contextual [hne]
  case h_2 => simp

-- The Go agent decodes a frame of a terminal that the relay passed on, and lets the PTYs of all other
-- sids alone while it handles it, if and only if the fields of the frame are of its types. Otherwise
-- the session on which the agent read the frame ends.
theorem frames_isolated {sha256hex : String → String} {c c' : Config State Op} {t t' : Tid}
    {κ : Type} [DecidableEq κ] {hkdf : E2E.Bytes → String → κ} {e2eKey : E2E.Bytes}
    {d : Config (E2E.State κ) (E2E.Op κ)} {conn : Nat} {rest : List (E2E.Op κ)}
    (ha : c.shared.attachment ws = some (.term sid mid))
    (e : (program sha256hex).system.step c (.start t (.webSocketMessage ws (some m))) = some c')
    (sent : (c'.shared.socks agent).sent = (c.shared.socks agent).sent ++ [f])
    (hd : (E2E.program hkdf e2eKey).system.Reachable d)
    (head : d.procs t' = .readJSON conn :: rest) :
    ((Proto.readJSON f.json).isSome ↔ m.Fits) ∧
    (E2E.Isolates hkdf e2eKey d t' sid (E2E.received f.json) ↔ m.Fits) := by
  have forwarded : ((fromTerm c.shared sid mid m).socks agent).sent =
      (c.shared.socks agent).sent ++ [f] := by
    replace e := Step.of e
    cases e
    case start e =>
      simp only [program, start] at e
      split at e
      case isFalse => contradiction
      case isTrue =>
        rw [ha] at e
        cases e
        exact sent
  have decoded : (Proto.readJSON f.json).isSome ↔ m.Fits := by
    rcases fromTerm_frame forwarded with ⟨h, rfl⟩ | ⟨h, h', rfl⟩
    case inl =>
      have other := Json.not_is_of_is h (show "in" ≠ "resize" by decide)
      simp [Json.Fits, h, other, readJSON_in, string_isSome]
    case inr =>
      simp [Json.Fits, h, h', readJSON_resize, ← int_isSome]
      cases Proto.int ((m.field "c").join.map Json.printed) <;> simp
  refine ⟨decoded, Iff.trans (E2E.isolates_iff hd head fun msg hm => ?_) decoded⟩
  rcases fromTerm_frame forwarded with ⟨_, rfl⟩ | ⟨_, _, rfl⟩
  case inl =>
    obtain ⟨_, _, hm⟩ := Option.map_eq_some_iff.mp (readJSON_in.symm.trans hm)
    exact hm ▸ ⟨.inl rfl, rfl⟩
  case inr =>
    obtain ⟨_, _, hm⟩ := Option.bind_eq_some_iff.mp (readJSON_resize.symm.trans hm)
    obtain ⟨_, _, hm⟩ := Option.map_eq_some_iff.mp hm
    exact hm ▸ ⟨.inr rfl, rfl⟩

-- A terminal of 5c is open.
def sampleTerm : List (Label Req Input) :=
  sampleAgent ++ [
    .start 0 (.apiTerm "5c"), .step 0 (.body none "a0" "7d"), .step 0 .done,
    .start 0 (.upgradeTerm "a0" "7d"), .step 0 .done]

-- The agent of 5c, with a PTY of another session.
def sampleSession : List (Label (E2E.Req (E2E.Bytes × String)) E2E.Input) :=
  [.start 0 (.session "e1" "" "dev"), .step 0 .done, .step 0 (.frame { t := "hello_ok" }),
    .step 0 (.frame { t := "open", sid := "b0" }), .step 0 .done, .step 0 .done, .step 0 .done,
    .step 0 .done, .step 0 .done]

theorem frames_isolated_sample :
    let term : Ws := ⟨1, [.term, .sid "a0", .mid "5c"]⟩
    let m : Json := .obj [("t", .str "in"), ("data", .str "x9")]
    let f : Frame := { t := "in", sid := some "a0", data := some (.str "x9") }
    ∃ c c', (program id).system.run initial sampleTerm = some c ∧
      (program id).system.step c (.start 0 (.webSocketMessage term (some m))) = some c' ∧
      (c'.shared.socks ⟨0, [.agent]⟩).sent = (c.shared.socks ⟨0, [.agent]⟩).sent ++ [f] ∧
      ∃ d, (E2E.program Prod.mk E2E.sampleKey).system.run E2E.initial sampleSession = some d ∧
        E2E.Isolates Prod.mk E2E.sampleKey d 0 "a0" (E2E.received f.json) := by
  intro term m f
  cases e : (program id).system.run initial
    (sampleTerm ++ [.start 0 (.webSocketMessage term (some m))])
  case none =>
    have ran : ((program id).system.run initial
      (sampleTerm ++ [.start 0 (.webSocketMessage term (some m))])).isSome := by decide
    simp [e] at ran
  case some c' =>
    cases e' : (E2E.program Prod.mk E2E.sampleKey).system.run E2E.initial sampleSession
    case none =>
      have ran : ((E2E.program Prod.mk E2E.sampleKey).system.run E2E.initial
        sampleSession).isSome := by decide
      simp [e'] at ran
    case some d =>
      have ⟨c, e₁, e₂⟩ := Transition.run_append_eq_some.mp e
      have ⟨_, e₂, same⟩ := Transition.run_cons_eq_some.mp e₂
      cases same
      have attached : c.shared.attachment term = some (.term "a0" "5c") :=
        Transition.eq_of_run (f := (·.shared.attachment term)) e₁ (by decide)
      have before : (c.shared.socks ⟨0, [.agent]⟩).sent = [
          { t := "hello_ok", id := some "5c", e2e := true },
          { t := "open", sid := some "a0", cmd := some (.str "") }] :=
        Transition.eq_of_run (f := fun c => (c.shared.socks ⟨0, [.agent]⟩).sent) e₁ (by rfl)
      have after : (c'.shared.socks ⟨0, [.agent]⟩).sent = [
          { t := "hello_ok", id := some "5c", e2e := true },
          { t := "open", sid := some "a0", cmd := some (.str "") }, f] :=
        Transition.eq_of_run (f := fun c => (c.shared.socks ⟨0, [.agent]⟩).sent) e (by rfl)
      have sent : (c'.shared.socks ⟨0, [.agent]⟩).sent =
          (c.shared.socks ⟨0, [.agent]⟩).sent ++ [f] := by simp [before, after]
      have reading : d.procs 0 = [.readJSON 0] := Transition.eq_of_run (f := (·.procs 0)) e' (by decide)
      have reachable := Transition.Reachable.run (.init E2E.initial_init) e'
      have ⟨_, isolates⟩ := frames_isolated attached e₂ sent reachable reading
      exact ⟨c, c', e₁, e₂, sent, d, rfl, isolates.mpr ⟨fun _ => rfl, fun h => by contradiction⟩⟩

-- A number in place of the keystrokes of one session kills the PTY of another one.
theorem number_kills_others :
    let term : Ws := ⟨1, [.term, .sid "a0", .mid "5c"]⟩
    let m : Json := .obj [("t", .str "in"), ("data", .num "1")]
    let f : Frame := { t := "in", sid := some "a0", data := some (.num "1") }
    let p : E2E.Pty (E2E.Bytes × String) := ⟨1, 0, "b0", some (E2E.sampleKey, "b0")⟩
    ∃ c', (program id).system.run initial
        (sampleTerm ++ [.start 0 (.webSocketMessage term (some m))]) = some c' ∧
      (c'.shared.socks ⟨0, [.agent]⟩).sent.getLast? = some f ∧ Proto.readJSON f.json = none ∧
      ∃ d d', (E2E.program Prod.mk E2E.sampleKey).system.run E2E.initial sampleSession = some d ∧
        (E2E.program Prod.mk E2E.sampleKey).system.run d
          [.step 0 (E2E.received f.json), .step 0 .done] = some d' ∧
        (d.shared.ptys 0).get? "b0" = some p ∧ ¬(d.shared.processes p).killed ∧
        (d'.shared.processes p).killed := by
  intro term m f p
  cases e : (program id).system.run initial
    (sampleTerm ++ [.start 0 (.webSocketMessage term (some m))])
  case none =>
    have ran : ((program id).system.run initial
      (sampleTerm ++ [.start 0 (.webSocketMessage term (some m))])).isSome := by decide
    simp [e] at ran
  case some c' =>
    have undecoded : Proto.readJSON f.json = none := by decide
    have received : E2E.received f.json = .failed := by simp [E2E.received, undecoded]
    cases e' : (E2E.program Prod.mk E2E.sampleKey).system.run E2E.initial
      (sampleSession ++ [.step 0 .failed, .step 0 .done])
    case none =>
      have ran : ((E2E.program Prod.mk E2E.sampleKey).system.run E2E.initial
        (sampleSession ++ [.step 0 .failed, .step 0 .done])).isSome := by decide
      simp [e'] at ran
    case some d' =>
      obtain ⟨d, e₁, e₂⟩ := Transition.run_append_eq_some.mp e'
      have sent : (c'.shared.socks ⟨0, [.agent]⟩).sent.getLast? = some f :=
        Transition.eq_of_run (f := fun c => (c.shared.socks ⟨0, [.agent]⟩).sent.getLast?) e (by rfl)
      have found : (d.shared.ptys 0).get? "b0" = some p :=
        Transition.eq_of_run (f := fun d => (d.shared.ptys 0).get? "b0") e₁ (by decide)
      have alive : (d.shared.processes p).killed = false :=
        Transition.eq_of_run (f := fun d => (d.shared.processes p).killed) e₁ (by decide)
      have killed : (d'.shared.processes p).killed = true :=
        Transition.eq_of_run (f := fun d => (d.shared.processes p).killed) e' (by decide)
      exact ⟨c', rfl, sent, undecoded, d, d', e₁, received ▸ e₂, found, by simp [alive], killed⟩

end Worker
