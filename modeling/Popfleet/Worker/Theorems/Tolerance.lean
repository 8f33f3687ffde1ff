import Popfleet.Worker.Theorems.Sockets

open Program

namespace Worker

open State

-- The frames that a socket takes, by its attachment: an object with one of these tags.
def State.recognises (σ : State) (ws : Ws) (m : Json) : Bool :=
  match m with
  | .obj fields =>
    let t := fields.lookup "t"
    match σ.attachment ws with
    | some (.pending _) => Json.is t "hello"
    | some (.agent _ _) => Json.is t "hb" || Json.is t "out" || Json.is t "exit" || Json.is t "err"
    | some (.term _ _)  => Json.is t "in" || Json.is t "resize"
    | _                 => false
  | _ => false

-- No field is read of null, and the field that is made a string of, the token of a hello or the sid of a
-- frame for a terminal, has a text.
def State.Harmless (σ : State) (ws : Ws) (m : Json) : Prop :=
  let field (k : String) := (m.field k).join
  match σ.attachment ws with
  | some (.pending _) =>
    m ≠ .null ∧ (Json.is (field "t") "hello" → (Json.or (field "token") (.str "")).text.isSome)
  | some (.agent _ _) =>
    m ≠ .null ∧ (Json.is (field "t") "out" ∨ Json.is (field "t") "exit" ∨ Json.is (field "t") "err" →
      (Json.key (field "sid")).isSome)
  | some (.term _ mid) => m ≠ .null ∨ σ.agentSocket mid = none
  | _ => True

-- The handler ends without an uncaught exception, in whatever state it goes on after an await.
def Completes (sha256hex : String → String) (σ σ' : State) (ops : List Op) : Prop :=
  σ'.uncaught = σ.uncaught ∧
    ∀ o ∈ ops, ∀ σ₁ i, ∃ σ₂, exec sha256hex σ₁ o i = some (σ₂, []) ∧ σ₂.uncaught = σ₁.uncaught

-- Only the socket itself was sent something or closed.
structure Untouched (ws : Ws) (σ σ' : State) : Prop where
  rest  : σ'.rest = σ.rest
  socks : ∀ ws' ≠ ws, σ'.socks ws' = σ.socks ws'

-- A text frame is handled, and one that the socket does not take is handled alone. A text that is no
-- JSON is none.
def Tolerates (sha256hex : String → String) (σ : State) (ws : Ws) (m : Option Json) : Prop :=
  ∃ σ' ops, start σ (.webSocketMessage ws m) = some (σ', ops) ∧ Completes sha256hex σ σ' ops ∧
    ((∀ v, m = some v → σ.recognises ws v = false) → ops = [] ∧ Untouched ws σ σ')

variable {sha256hex : String → String} {σ : State} {ws ws' : Ws} {mid sid sum why : String}
  {m : Json} {t : Option Json} {f : Frame} {a : Attachment} {ops : List Op}

theorem Json.field_eq_none {k : String} : m.field k = none ↔ m = .null := by
  cases m <;> simp [Json.field]

theorem Json.ne_null {k : String} (h : m.field k = some t) : m ≠ .null :=
  fun null => by simp [Json.field_eq_none.mpr null] at h

-- Only an object has a tag.
theorem Json.obj_of_is {k s : String} (h : m.field k = some t) (hs : Json.is t s) :
    ∃ fields, m = .obj fields ∧ fields.lookup k = t := by
  cases m
  case obj fields => exact ⟨fields, rfl, Option.some.inj h⟩
  case null => contradiction
  all_goals
    cases h
    contradiction

theorem Json.is_ne {s s' : String} (hs : Json.is t s) : Json.is t s' ↔ s' = s := by
  unfold Json.is at *
  split at hs
  case h_1 => simp_all [eq_comm]
  case h_2 => contradiction

-- What does not throw.

@[simp]
theorem wsSend_uncaught : (σ.wsSend ws f).uncaught = σ.uncaught := by
  unfold wsSend
  split <;> rfl

@[simp]
theorem close_uncaught {code : Nat} : (σ.close ws code why).uncaught = σ.uncaught := by
  unfold close
  split <;> rfl

@[simp]
theorem attach_uncaught : (σ.attach ws a).uncaught = σ.uncaught :=
  rfl

@[simp]
theorem armAlarm_uncaught : σ.armAlarm.uncaught = σ.uncaught := by
  unfold armAlarm
  split <;> rfl

@[simp]
theorem closeTerms_uncaught {mid : Option String} : (σ.closeTerms mid why).uncaught = σ.uncaught := by
  unfold closeTerms
  induction σ.termSockets mid generalizing σ
  case nil         => rfl
  case cons t l hi => exact (@hi ((σ.wsSend t _).close t 1000 why)).trans (by simp)

@[simp]
theorem replace_uncaught : (replace σ mid).uncaught = σ.uncaught := by
  unfold replace
  split
  case h_1 => rfl
  case h_2 => simp

theorem helloDigest_uncaught : (helloDigest σ ws m sum).uncaught = σ.uncaught := by
  unfold helloDigest
  dsimp only
  split
  case h_1 => simp
  case h_2 mid _ =>
    split
    case isFalse => simp
    case isTrue =>
      split <;> simp

theorem fromAgentTo_uncaught : (fromAgentTo σ mid sid t m).uncaught = σ.uncaught := by
  unfold fromAgentTo
  split
  case h_1 => rfl
  case h_2 =>
    dsimp only
    split
    case isTrue  => simp
    case isFalse => split <;> simp

theorem Untouched.refl : Untouched ws σ σ :=
  ⟨rfl, fun _ _ => rfl⟩

theorem untouched_throw : Untouched ws σ σ.throw :=
  ⟨rfl, fun _ _ => rfl⟩

theorem untouched_close {code : Nat} : Untouched ws σ (σ.close ws code why) := by
  unfold close
  split
  case h_1 => exact .refl
  case h_2 => exact ⟨rfl, fun ws' hne => by rw [socks_setSock, if_neg hne]⟩

theorem not_completes_throw : ¬Completes sha256hex σ σ.throw ops :=
  fun h => Nat.succ_ne_self σ.uncaught h.left

theorem completes_nil {σ' : State} (h : σ'.uncaught = σ.uncaught) : Completes sha256hex σ σ' [] :=
  ⟨h, by simp⟩

-- The three kinds of sockets that take frames.

theorem hello_tolerates {since : Time} (ha : σ.attachment ws = some (.pending since)) :
    (Completes sha256hex σ (hello σ ws m).1 (hello σ ws m).2 ↔ σ.Harmless ws m) ∧
    (σ.recognises ws m = false → (hello σ ws m).2 = [] ∧ Untouched ws σ (hello σ ws m).1) := by
  simp only [Harmless, ha]
  fun_cases hello σ ws m
  case case1 hn =>
    have null := Json.field_eq_none.mp hn
    exact ⟨iff_of_false not_completes_throw (by simp [null]), fun _ => ⟨rfl, untouched_throw⟩⟩
  case case2 t ht hs hn =>
    obtain ⟨fields, hm, _⟩ := Json.obj_of_is ht hs
    refine ⟨iff_of_false not_completes_throw ?_, fun hr => ?_⟩
    case refine_1 => simp [ht, hs, hn]
    case refine_2 => exact ⟨rfl, untouched_throw⟩
  case case3 t ht hs text hx =>
    obtain ⟨fields, hm, hl⟩ := Json.obj_of_is ht hs
    refine ⟨iff_of_true ⟨rfl, ?_⟩ ⟨by simp [hm], fun _ => by simp [hx]⟩, fun hr => ?_⟩
    case refine_1 =>
      intro o ho σ₁ i
      cases List.mem_singleton.mp ho
      exact ⟨helloDigest σ₁ ws m (sha256hex text), by simp [exec, hx], helloDigest_uncaught⟩
    case refine_2 => simp [recognises, hm, ha, hl, hs] at hr
  case case4 t ht hs =>
    refine ⟨iff_of_true (completes_nil close_uncaught) ⟨Json.ne_null ht, ?_⟩,
      fun _ => ⟨rfl, untouched_close⟩⟩
    simp [ht, hs]

theorem fromAgent_tolerates {seen : Time} (ha : σ.attachment ws = some (.agent mid seen)) :
    (Completes sha256hex σ (fromAgent σ ws mid m) [] ↔ σ.Harmless ws m) ∧
    (σ.recognises ws m = false → Untouched ws σ (fromAgent σ ws mid m)) := by
  simp only [Harmless, ha]
  fun_cases fromAgent σ ws mid m
  case case1 hn =>
    have null := Json.field_eq_none.mp hn
    exact ⟨iff_of_false not_completes_throw (by simp [null]), fun _ => untouched_throw⟩
  case case2 t ht hs =>
    have ⟨fields, hm, hl⟩ := Json.obj_of_is ht hs
    refine ⟨iff_of_true (completes_nil rfl) ⟨by simp [hm], ?_⟩, fun hr => ?_⟩
    case refine_1 => simp [ht, Json.is_ne hs]
    case refine_2 => simp [recognises, hm, ha, hl, hs] at hr
  case case3 t ht hb hs hn =>
    refine ⟨iff_of_false not_completes_throw ?_, fun _ => untouched_throw⟩
    rintro ⟨_, printable⟩
    simp [ht, hs, hn] at printable
  case case4 t ht hb hs sid hk =>
    have ⟨fields, hm, hl⟩ : ∃ fields, m = .obj fields ∧ fields.lookup "t" = t := by
      obtain hs | hs | hs := hs <;> exact Json.obj_of_is ht hs
    refine ⟨iff_of_true (completes_nil fromAgentTo_uncaught) ⟨by simp [hm], ?_⟩, fun hr => ?_⟩
    case refine_1 => simp [hk]
    case refine_2 =>
      simp only [recognises, hm, ha, hl, Bool.or_eq_false_iff] at hr
      simp [hr] at hs
  case case5 t ht hb hs =>
    refine ⟨iff_of_true (completes_nil rfl) ⟨Json.ne_null ht, fun sent => ?_⟩, fun _ => .refl⟩
    exact absurd (by simpa [ht] using sent) hs

theorem fromTerm_tolerates (ha : σ.attachment ws = some (.term sid mid)) :
    (Completes sha256hex σ (fromTerm σ sid mid m) [] ↔ σ.Harmless ws m) ∧
    (σ.recognises ws m = false → Untouched ws σ (fromTerm σ sid mid m)) := by
  simp only [Harmless, ha]
  fun_cases fromTerm σ sid mid m
  case case1 hn => exact ⟨iff_of_true (completes_nil rfl) (.inr hn), fun _ => .refl⟩
  case case2 agent hs hn =>
    have null := Json.field_eq_none.mp hn
    exact ⟨iff_of_false not_completes_throw (by simp [null, hs]), fun _ => untouched_throw⟩
  case case3 agent _ t ht _ hs | case4 agent _ t ht _ _ hs =>
    have ⟨fields, hm, hl⟩ := Json.obj_of_is ht hs
    refine ⟨iff_of_true (completes_nil wsSend_uncaught) (.inl (by simp [hm])), fun hr => ?_⟩
    simp [recognises, hm, ha, hl, hs] at hr
  case case5 ht _ _ =>
    exact ⟨iff_of_true (completes_nil rfl) (.inl (Json.ne_null ht)), fun _ => .refl⟩

-- Every text frame is handled, in every state, if and only if it is harmless where it arrives.
theorem tolerates_iff {m : Option Json} (hl : ws ∈ σ.listed) :
    Tolerates sha256hex σ ws m ↔ ∀ v, m = some v → σ.Harmless ws v := by
  cases m
  case none =>
    refine iff_of_true ⟨σ, [], ?_, completes_nil rfl, fun _ => ⟨rfl, .refl⟩⟩ (by simp)
    simp [start, hl]
  case some m =>
    simp only [Option.some.injEq, forall_eq']
    -- What the handler of the attachment does is what the request does.
    have handled {σ' ops} (e : start σ (.webSocketMessage ws (some m)) = some (σ', ops))
        (spec : (Completes sha256hex σ σ' ops ↔ σ.Harmless ws m) ∧
          (σ.recognises ws m = false → ops = [] ∧ Untouched ws σ σ')) :
        Tolerates sha256hex σ ws (some m) ↔ σ.Harmless ws m := by
      constructor
      case mp =>
        rintro ⟨_, _, e', completes, _⟩
        cases e.symm.trans e'
        exact spec.left.mp completes
      case mpr =>
        exact fun h => ⟨σ', ops, e, spec.left.mpr h, fun hr => spec.right (hr m rfl)⟩
    cases ha : σ.attachment ws
    case none =>
      refine handled (by simp [start, hl, ha]) ⟨iff_of_true (completes_nil rfl) ?_, fun _ => ⟨rfl, .refl⟩⟩
      simp [Harmless, ha]
    case some a =>
      cases a
      case pending since => exact handled (by simp [start, hl, ha]) (hello_tolerates ha)
      case agent mid seen =>
        exact handled (by simp [start, hl, ha])
          ((fromAgent_tolerates ha).imp_right fun untouched hr => ⟨rfl, untouched hr⟩)
      case term sid mid =>
        exact handled (by simp [start, hl, ha])
          ((fromTerm_tolerates ha).imp_right fun untouched hr => ⟨rfl, untouched hr⟩)
      case replaced =>
        refine handled (by simp [start, hl, ha])
          ⟨iff_of_true (completes_nil rfl) ?_, fun _ => ⟨rfl, .refl⟩⟩
        simp [Harmless, ha]

-- A socket that has to say hello sends an array.
theorem tolerates_iff_sample :
    ∃ c, (program id).system.run initial [.start 0 .upgradeAgent] = some c ∧
      Tolerates id c.shared ⟨0, [.agent]⟩ (some (.arr [])) := by
  refine ⟨_, rfl, (tolerates_iff (by decide)).mpr ?_⟩
  rintro v ⟨⟩
  exact ⟨by simp, by simp [Json.field, Json.is]⟩

-- It sends null.
theorem null_uncaught :
    let ws : Ws := ⟨0, [.agent]⟩
    ∃ c c', (program id).system.run initial [.start 0 .upgradeAgent] = some c ∧
      c.shared.attachment ws = some (.pending 0) ∧
      (program id).system.step c (.start 0 (.webSocketMessage ws (some .null))) = some c' ∧
      c.shared.uncaught = 0 ∧ c'.shared.uncaught = 1 ∧
      ¬Tolerates id c.shared ws (some .null) := by
  intro ws
  refine ⟨_, _, rfl, by decide, rfl, by decide, by decide, ?_⟩
  rintro ⟨_, _, e, ⟨caught, _⟩, _⟩
  cases e
  exact absurd caught (by decide)

end Worker
