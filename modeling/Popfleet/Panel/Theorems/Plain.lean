import Popfleet.Lib.Fifo
import Popfleet.Panel.Theorems.FailsClosed

open Proto V1e Worker

namespace Panel

-- What the user types in a step.
def typing (_ : State) : Label → List Bytes
  | .onData bytes => [bytes]
  | _             => []

-- What a page without a key writes for a frame.
def rendered (m : Option Json) : Option Bytes :=
  (outValue m).join.bind Base64.atob

-- The message of the banner for a frame.
def closing (m : Option Json) : Option (Option String) :=
  match m.bind fun m => m.field "t" with
  | none   => none
  | some t =>
    let field k := (m.bind fun m => m.field k).join
    if Json.is t "exit" then
      (Json.key (field "code")).map fun code => some ("session ended (exit " ++ code ++ ")")
    else if Json.is t "err" then
      some (Json.key (some (Json.or (field "msg") (.str "session error"))))
    else
      none

def closeThis (msg : String) : String :=
  msg ++ " — close this tab or reopen from the panel"

-- Neither the probe nor the relay told the page of e2e.
def Unannounced (σ : State) : Prop :=
  .probed true ∉ σ.log ∧ ¬Announced σ

-- What happens to a page: it handles a frame, its socket closes, or the user types.
inductive Happening
  | handled (m : Option Json)
  | disconnected
  | typed (bytes : Bytes)

def happening (σ : State) : Label → List Happening
  | .handle _     => σ.recv.head?.toList.map .handled
  | .closed       => [.disconnected]
  | .onData bytes => [.typed bytes]
  | _             => []

namespace Happening

def frame? : Happening → Option (Option Json)
  | handled m => some m
  | _         => none

def bytes? : Happening → Option Bytes
  | typed bytes => some bytes
  | _           => none

-- The message of the banner that it calls for.
def banner? : Happening → Option (Option String)
  | handled m    => closing m
  | disconnected => some "disconnected from broker"
  | typed _      => none

end Happening

variable {hs : List Happening} {d : Happening}

-- The message of the banner: the first cause wins.
def cause (hs : List Happening) : Option (Option String) :=
  hs.findSome? Happening.banner?

-- The frames that were handled.
def frames (hs : List Happening) : List (Option Json) :=
  hs.filterMap Happening.frame?

-- What the user typed.
def keys (hs : List Happening) : List Bytes :=
  hs.filterMap Happening.bytes?

theorem frames_snoc : frames (hs ++ [d]) = frames hs ++ d.frame?.toList := by
  cases h : d.frame? <;> simp [frames, h]

theorem keys_snoc : keys (hs ++ [d]) = keys hs ++ d.bytes?.toList := by
  cases h : d.bytes? <;> simp [keys, h]

theorem cause_snoc : cause (hs ++ [d]) = (cause hs).or d.banner? := by
  cases h : d.banner? <;> simp [cause, h, List.findSome?_append]

-- The frames of keystrokes that were sent, the oldest first.
def State.keystrokes (σ : State) : List Msg :=
  σ.sents.reverse.filter (·.t = "in")

-- A page that works without a key, to which `hs` has happened.
structure Plain (hs : List Happening) (σ : State) : Prop where
  init     : ∀ b64 raw, σ.init ≠ .importing b64 raw
  aead     : σ.aead = none
  handling : σ.handling = none
  sending  : σ.sending = none
  tags     : ∀ m ∈ σ.sents, m.t = "in" ∨ m.t = "resize"
  received : σ.received = frames hs ++ σ.recv
  term     : σ.term = (frames hs).filterMap rendered
  ended    : σ.ended = (cause hs).isSome
  text     : σ.text = (cause hs).join.map closeThis
  typed    : ∃ sent, σ.keystrokes.map (·.data) = sent.map Base64.encode ∧
    (sent ++ σ.typed).Sublist (keys hs)

variable {H : Mac 32} {G : Gcm tagLen} {sid : String} {σ σ' : State} {l : Label} {m : Option Json}
  {answers : List String}

-- What a page without a key does with a frame.
theorem handleFrame_plain (ha : σ.aead = none) (hm : Event.announces (.received m) = false) :
    σ.handleFrame m answers = some (match closing m with
      | some msg => σ.banner msg
      | none     => { σ with term := σ.term ++ (rendered m).toList }) := by
  obtain ⟨init, stored, aead, _, _, _, _, _, _, _, _, _⟩ := σ
  cases ha
  unfold State.handleFrame closing rendered outValue
  cases ht : m.bind fun m => m.field "t"
  case none => simp
  case some t =>
    have quiet : Json.is t "e2e" = false := by
      cases m
      case none => contradiction
      case some m => simpa [Event.announces, show m.field "t" = some t from ht] using hm
    simp only [quiet, Bool.false_eq_true, if_false]
    by_cases ho : Json.is t "out"
    case pos =>
      have other : ¬Json.is t "exit" ∧ ¬Json.is t "err" :=
        ⟨is_ne ho (by decide), is_ne ho (by decide)⟩
      simp only [ho, if_true, other, Option.join_some]
      split
      case h_1 hb => simp [hb]
      case h_2 hb => simp [hb]
    case neg =>
      simp only [ho, Bool.false_eq_true, if_false]
      split
      case isTrue  => cases (Json.key (m.bind fun m => m.field "code").join) <;> simp
      case isFalse => split <;> simp

-- A frame that closes the session is none that is written.
theorem rendered_of_closing {msg : Option String} (h : closing m = some msg) : rendered m = none := by
  have none : outValue m = none := by
    unfold closing at h
    split at h
    case h_1 => contradiction
    case h_2 ht =>
      split at h
      case isTrue he => exact outValue_of_ne ht he (by decide)
      case isFalse =>
        split at h
        case isTrue he => exact outValue_of_ne ht he (by decide)
        case isFalse   => contradiction
  simp [rendered, none]

-- The banner is that of the first cause.
theorem banner_cause {msg : Option String} (ended : σ.ended = (cause hs).isSome)
    (text : σ.text = (cause hs).join.map closeThis) (hd : d.banner? = some msg) :
    (σ.banner msg).ended = (cause (hs ++ [d])).isSome ∧
      (σ.banner msg).text = (cause (hs ++ [d])).join.map closeThis := by
  rw [cause_snoc, hd]
  unfold State.banner
  cases hc : cause hs
  case none => cases msg <;> simp_all [closeThis]
  case some => simp_all

theorem Exec.log_suffix (e : Exec H G sid σ l σ') : σ.log <:+ σ'.log := by
  cases e
  all_goals first | exact List.suffix_refl _ | exact List.suffix_cons ..

theorem Unannounced.of_suffix (hl : σ.log <:+ σ'.log) (h : Unannounced σ') : Unannounced σ :=
  ⟨fun hp => h.left (hl.mem hp), fun ⟨e, he, ha⟩ => h.right ⟨e, hl.mem he, ha⟩⟩

theorem keystrokes_record {m : Msg} :
    (σ.record (.sent m)).keystrokes = σ.keystrokes ++ if m.t = "in" then [m] else [] := by
  have sents : (σ.record (.sent m)).sents = m :: σ.sents := rfl
  simp [State.keystrokes, sents, List.filter_append, List.filter_singleton]

namespace Plain

-- What nothing has happened by.
theorem silent (h : happening σ l = []) (p : Plain hs σ') : Plain (hs ++ happening σ l) σ' := by
  rwa [h, List.append_nil]

-- A frame is handled.
theorem handle {recv : List (Option Json)} (hr : σ.recv = m :: recv)
    (hm : Event.announces (.received m) = false) (e : { σ with recv }.handleFrame m answers = some σ')
    (p : Plain hs σ) : Plain (hs ++ [.handled m]) σ' := by
  have taken : σ.received = frames (hs ++ [.handled m]) ++ recv := by
    simp [frames_snoc, Happening.frame?, p.received, hr]
  have bytes : keys (hs ++ [.handled m]) = keys hs := by simp [keys_snoc, Happening.bytes?]
  have typed := bytes ▸ p.typed
  rw [handleFrame_plain (σ := { σ with recv }) p.aead hm] at e
  cases hc : closing m
  case none =>
    rw [hc] at e
    cases e
    have same : cause (hs ++ [.handled m]) = cause hs := by
      simp [cause_snoc, Happening.banner?, hc]
    refine { p with received := taken, term := ?_, ended := ?_, text := ?_, typed }
    case refine_1 =>
      rw [frames_snoc, List.filterMap_append, ← p.term]
      cases h : rendered m <;> simp [Happening.frame?, h]
    case refine_2 => exact same ▸ p.ended
    case refine_3 => exact same ▸ p.text
  case some msg =>
    rw [hc] at e
    replace e : { σ with recv }.banner msg = σ' := Option.some.inj e
    have term : σ.term = (frames (hs ++ [.handled m])).filterMap rendered := by
      simp [frames_snoc, Happening.frame?, p.term, List.filterMap_append, rendered_of_closing hc]
    have shown := banner_cause (σ := { σ with recv }) (d := .handled m) p.ended p.text hc
    have ⟨text, hb⟩ := @banner_eq { σ with recv } msg
    rw [hb] at e shown
    exact e ▸ { p with received := taken, term, ended := shown.left, text := shown.right, typed }

-- A frame is sent.
theorem sent {m : Msg} (hm : m.t = "resize") (p : Plain hs σ) : Plain hs (σ.record (.sent m)) := by
  have same : (σ.record (.sent m)).keystrokes = σ.keystrokes := by simp [keystrokes_record, hm]
  exact { p with
    tags     := List.forall_mem_cons.mpr ⟨.inr hm, p.tags⟩
    received := p.received
    typed    := same ▸ p.typed }

theorem step (arrived : Arrived σ) (hu : Unannounced σ') (e : Panel.step H G sid σ l = some σ')
    (p : Plain hs σ) : Plain (hs ++ happening σ l) σ' := by
  have graph := Exec.of e
  obtain ⟨sent, keystrokes, order⟩ := p.typed
  cases l
  case handle answers =>
    simp only [Panel.step] at e
    split at e
    case h_2 => contradiction
    case h_1 m recv _ hr =>
      have unannounced := hu.of_suffix (Exec.log_suffix graph)
      have arrived := arrived.recv m (hr ▸ List.mem_cons_self)
      have plain := p.handle hr (Bool.eq_false_iff.mpr fun ha => unannounced.right ⟨_, arrived, ha⟩) e
      simpa [happening, hr] using plain
  case onData bytes =>
    cases e
    have frames : frames (hs ++ [.typed bytes]) = frames hs := by simp [frames_snoc, Happening.frame?]
    have same : cause (hs ++ [.typed bytes]) = cause hs := by simp [cause_snoc, Happening.banner?]
    refine { p with
      received := frames ▸ p.received
      term     := frames ▸ p.term
      ended    := same ▸ p.ended
      text     := same ▸ p.text
      typed    := ⟨sent, keystrokes, ?_⟩ }
    rw [← List.append_assoc, happening, keys_snoc]
    exact order.append (List.Sublist.refl _)
  case send =>
    refine silent rfl ?_
    simp only [Panel.step] at e
    split at e
    case h_2 => contradiction
    case h_1 bytes rest _ ht =>
      rw [ht] at order
      split at e
      case isFalse =>
        cases e
        refine { p with typed := ⟨sent, keystrokes, .trans ?_ order⟩ }
        exact (List.sublist_cons_self ..).append_left _
      case isTrue =>
        split at e
        case h_1 ha => simp [p.aead] at ha
        case h_2 =>
          cases e
          refine { p with
            tags     := List.forall_mem_cons.mpr ⟨.inl rfl, p.tags⟩
            received := p.received
            typed    := ⟨sent ++ [bytes], ?_, ?_⟩ }
          · rw [keystrokes_record, if_pos rfl, List.map_append, List.map_append]
            exact congrArg (· ++ _) keystrokes
          · rwa [List.append_assoc]
  case closed =>
    obtain ⟨hw, e⟩ := Option.ite_none_left_eq_some.mp e
    cases e
    have frames : frames (hs ++ [.disconnected]) = frames hs := by simp [frames_snoc, Happening.frame?]
    have bytes : keys (hs ++ [.disconnected]) = keys hs := by simp [keys_snoc, Happening.bytes?]
    have shown := banner_cause (σ := { σ with ws := .closed }) (d := .disconnected) p.ended p.text rfl
    obtain ⟨text, hb⟩ := @banner_eq { σ with ws := .closed } "disconnected from broker"
    rw [hb] at shown ⊢
    exact { p with
      received := frames ▸ p.received
      term     := frames ▸ p.term
      ended    := shown.left
      text     := shown.right
      typed    := bytes ▸ p.typed }
  all_goals
    refine silent rfl ?_
    cases graph
  case probe.unprobed          => exact { p with init := fun _ _ => by simp, received := p.received }
  case probe.asked             => exact absurd List.mem_cons_self hu.left
  case probe.declined          => exact absurd List.mem_cons_self hu.left
  case probe.plain             =>
    exact { p with init := fun _ _ => by simp [State.connect], received := p.received }
  case derived.keyed hi        => exact absurd hi (p.init _ _)
  case opened.opened           => exact Plain.sent rfl { p with received := p.received }
  case message.received m _    =>
    refine { p with received := ?_ }
    rw [received_record]
    exact (congrArg (· ++ [m]) p.received).trans (List.append_assoc ..)
  case settle.imported hh      => exact absurd (p.handling.symm.trans hh) (by simp)
  case settle.unsealed hh _    => exact absurd (p.handling.symm.trans hh) (by simp)
  case settle.tampered hh _ _  => exact absurd (p.handling.symm.trans hh) (by simp)
  case encrypted.encrypted h _ => exact absurd (p.sending.symm.trans h) (by simp)
  case encrypted.unsent        => exact { p with sending := rfl, received := p.received }
  case resize.resized          => exact p.sent rfl
  case resize.unresized        => exact p

end Plain

theorem plain_observed (h : (system H G sid).Observed happening hs σ) (hu : Unannounced σ) :
    Plain hs σ := by
  refine h.invariant (I := fun hs σ => Unannounced σ → Plain hs σ) ?init ?step hu
  case init =>
    rintro _ ⟨stored, rfl⟩ _
    exact {
      init     := nofun
      aead     := rfl
      handling := rfl
      sending  := rfl
      tags     := nofun
      received := rfl
      term     := rfl
      ended    := rfl
      text     := rfl
      typed    := ⟨[], rfl, List.Sublist.refl _⟩ }
  case step =>
    intro hs σ l σ' hr hi e hu
    exact (hi (hu.of_suffix (Exec.log_suffix (Exec.of e)))).step (arrived_reachable hr.reachable) hu e

theorem typing_eq : typing σ l = (happening σ l).filterMap Happening.bytes? := by
  cases l
  case handle => cases h : σ.recv <;> simp [typing, happening, Happening.bytes?, h]
  all_goals rfl

-- A page that nobody told of e2e handles its frames in the order in which they came and writes what they
-- carry. Its banner shows the first cause, a frame that it handled or the end of its socket. It sends what
-- the user types in this order, each at most once.
theorem plain_stream (h : (system H G sid).Observed happening hs σ) (hu : Unannounced σ) :
    σ.received = frames hs ++ σ.recv ∧
    σ.term = (frames hs).filterMap rendered ∧
    (σ.ended = (cause hs).isSome ∧ σ.text = (cause hs).join.map closeThis) ∧
    (∀ m ∈ σ.sents, m.t = "in" ∨ m.t = "resize") ∧
    ∃ sent, σ.keystrokes.map (·.data) = sent.map Base64.encode ∧
      (sent ++ σ.typed).Sublist (keys hs) :=
  have plain := plain_observed h hu
  ⟨plain.received, plain.term, ⟨plain.ended, plain.text⟩, plain.tags, plain.typed⟩

-- What tells the page of e2e.
def Event.tells : Event → Bool
  | .probed e2e => e2e
  | e           => e.announces

-- The user types "ls" and "x", of which the socket took the first, the shell prints "hi" and exits, and
-- the socket closes: the banner is still that of the exit.
theorem plain_stream_sample :
    let ls : List Label := [.probe .notOk [], .opened 80 24, .onData [108, 115], .onData [120], .send,
      .message (some (.obj [("t", .str "out"), ("data", .str "aGk=")])), .handle [],
      .message (some (.obj [("t", .str "exit"), ("code", .num "0")])), .handle [], .closed]
    ∃ σ, (system sampleMac sampleGcm "a0").run {} ls = some σ ∧ σ.term = [[104, 105]] ∧
      σ.text = some "session ended (exit 0) — close this tab or reopen from the panel" ∧
      ∃ sent, σ.keystrokes.map (·.data) = sent.map Base64.encode ∧
        (sent ++ σ.typed).Sublist [[108, 115], [120]] := by
  intro ls
  let T := system sampleMac sampleGcm "a0"
  have ran : (T.run {} ls).isSome := by decide
  have ⟨σ, e⟩ := Option.isSome_iff_exists.mp ran
  have initial : T.Init {} := ⟨none, rfl⟩
  have observed := (Transition.Observed.init (f := happening) initial).run e
  have untold : σ.log.any Event.tells = false :=
    Transition.eq_of_run (f := fun σ => σ.log.any Event.tells) e (by decide)
  have told {e : Event} (he : e ∈ σ.log) (ht : e.tells) : False := by
    simp [List.any_eq_true.mpr ⟨e, he, ht⟩] at untold
  have unannounced : Unannounced σ := by
    refine ⟨fun h => told h rfl, fun ⟨e, he, ha⟩ => told he ?_⟩
    cases e
    case probed => contradiction
    all_goals exact ha
  have ⟨_, _, shown, _, typed⟩ := plain_stream observed unannounced
  exact ⟨σ, e, Transition.eq_of_run (f := State.term) e (by decide), shown.right.trans (by decide), typed⟩

end Panel
