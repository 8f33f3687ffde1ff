import Popfleet.Lib.Fifo
import Popfleet.Worker.Theorems.Relay
import Popfleet.Worker.Theorems.Terms
import Popfleet.Worker.Theorems.Typed

open Program

namespace Worker

open State

-- The frame that a terminal gets for a frame of its agent.
def passedOn (m : Json) : Frame :=
  let field (k : String) := (m.field k).join
  if Json.is (field "t") "out" then { t := "out", data := field "data" }
  else if Json.is (field "t") "exit" then { t := "exit", code := field "code" }
  else { t := "err", msg := some (Json.or (field "msg") (.str "session error")) }

-- What the terminal of a session gets for a frame of its agent, if anything.
def routed (sid : String) (m : Json) : Option Frame :=
  let t := (m.field "t").join
  if Json.key (m.field "sid").join = some sid ∧
      (Json.is t "out" ∨ Json.is t "exit" ∨ Json.is t "err") then
    some (passedOn m)
  else
    none

-- The machine whose agent a socket is.
def State.agentOf (σ : State) (ws : Ws) : Option String :=
  match σ.attachment ws with
  | some (.agent mid _) => some mid
  | _                   => none

-- What an agent of a machine says, besides its heartbeats.
def State.heard (σ : State) (mid : String) : Req → List Json
  | .webSocketMessage ws (some m) =>
    if σ.agentOf ws = some mid ∧ ¬Json.is (m.field "t").join "hb" then [m] else []
  | _ => []

def said (mid : String) (c : Config State Op) : Label Req Input → List Json
  | .start _ r => c.shared.heard mid r
  | _          => []

-- Why the relay ends a session by itself.
def banners : List String :=
  ["agent is offline", "agent went offline", "agent reconnected", "machine revoked"]

-- What the relay does with a terminal by itself.
inductive Sock.Told (s s' : Sock) : Prop
  | same (sent : s'.sent = s.sent) (closed : s'.closed = s.closed)
  | banner {why} (hw : why ∈ banners) (hc : s.closed = none)
    (sent : s'.sent = s.sent ++ [{ t := "err", msg := some (.str why) }]) (closed : s'.closed.isSome)

-- What a frame does that is passed on to a terminal.
inductive Sock.Passed (f : Frame) (s s' : Sock) : Prop
  | late (hc : s.closed.isSome) (sent : s'.sent = s.sent) (closed : s'.closed = s.closed)
  | out (ht : f.t = "out") (hc : s.closed = none) (sent : s'.sent = s.sent ++ [f])
    (closed : s'.closed = none)
  | final (ht : f.t = "exit" ∨ f.t = "err") (hc : s.closed = none) (sent : s'.sent = s.sent ++ [f])
    (closed : s'.closed.isSome)

-- The frames that a terminal is sent when the agents of its machine have said `ms`, after those it was
-- sent before. It runs, or the agent ended it, or the relay did.
inductive Stream (sid : String) (first : List Frame) (listed : Prop) : List Json → Sock → Prop
  | running {done rest s} (hl : listed → rest = [])
    (out : ∀ f ∈ done.filterMap (routed sid), f.t = "out") (hc : s.closed = none)
    (sent : s.sent = first ++ done.filterMap (routed sid)) : Stream sid first listed (done ++ rest) s
  | ended {done m rest f s} (hf : routed sid m = some f) (ht : f.t = "exit" ∨ f.t = "err")
    (out : ∀ f ∈ done.filterMap (routed sid), f.t = "out") (hc : s.closed.isSome)
    (sent : s.sent = first ++ done.filterMap (routed sid) ++ [f]) :
    Stream sid first listed (done ++ m :: rest) s
  | dropped {done rest why s} (hw : why ∈ banners)
    (out : ∀ f ∈ done.filterMap (routed sid), f.t = "out") (hc : s.closed.isSome)
    (sent : s.sent = first ++ done.filterMap (routed sid) ++ [{ t := "err", msg := some (.str why) }]) :
    Stream sid first listed (done ++ rest) s

-- What a step does with a terminal by itself.
structure Tells (ws : Ws) (σ σ' : State) : Prop where
  attachment : σ'.attachment ws = σ.attachment ws
  listed     : ws ∈ σ'.listed → ws ∈ σ.listed
  told       : (σ.socks ws).Told (σ'.socks ws)

-- A frame of its agent is passed on to a terminal.
structure Passes (ws : Ws) (f : Frame) (σ σ' : State) : Prop where
  attachment : σ'.attachment ws = σ.attachment ws
  listed     : ws ∈ σ'.listed → ws ∈ σ.listed
  passed     : (σ.socks ws).Passed f (σ'.socks ws)

variable {σ σ' σ₁ σ₂ σ₃ : State} {s s' s₁ s₂ s₃ : Sock} {ws a : Ws} {mid mid' sid sid' why : String}
  {f : Frame} {m : Json} {ms ms' : List Json} {first : List Frame} {listed listed' : Prop}
  {t : Option Json}

theorem agentOf_eq_some : σ.agentOf ws = some mid ↔ σ.IsAgent ws mid := by
  unfold agentOf IsAgent
  split
  case h_1 h => simp [h]
  case h_2 h => exact iff_of_false (by simp) fun ⟨seen, ha⟩ => h _ _ ha

theorem routed_eq_some : routed sid m = some f ↔ (Json.key (m.field "sid").join = some sid ∧
    (Json.is (m.field "t").join "out" ∨ Json.is (m.field "t").join "exit" ∨
      Json.is (m.field "t").join "err")) ∧ passedOn m = f := by
  simp only [routed, Option.ite_none_right_eq_some, Option.some.injEq]

namespace Sock.Told

theorem refl : Told s s :=
  .same rfl rfl

theorem trans (h₁ : Told s₁ s₂) (h₂ : Told s₂ s₃) : Told s₁ s₃ := by
  cases h₁
  case same sent closed =>
    cases h₂
    case same sent' closed' => exact .same (sent'.trans sent) (closed'.trans closed)
    case banner hw hc sent' closed' => exact .banner hw (closed ▸ hc) (sent ▸ sent') closed'
  case banner hw hc sent closed =>
    cases h₂
    case same sent' closed' => exact .banner hw hc (sent'.trans sent) (closed' ▸ closed)
    case banner hc' _ _     => simp [hc'] at closed

theorem sent (h : Told s s') : s.sent <+: s'.sent := by
  cases h
  case same sent _       => exact sent ▸ List.prefix_refl _
  case banner hc sent _  => exact sent ▸ List.prefix_append ..

end Sock.Told

theorem Sock.Passed.sent (h : Passed f s s') : s.sent <+: s'.sent := by
  cases h
  case late sent _      => exact sent ▸ List.prefix_refl _
  case out hc sent _    => exact sent ▸ List.prefix_append ..
  case final hc sent _  => exact sent ▸ List.prefix_append ..

namespace Stream

-- What comes when the terminal is not listed any more, or is closed.
theorem late (hl : listed → s.closed.isSome) (h : Stream sid first listed ms s) :
    Stream sid first listed (ms ++ ms') s := by
  cases h
  case running out hc sent =>
    rw [List.append_assoc]
    exact .running (fun here => absurd (hl here) (by simp [hc])) out hc sent
  case ended hf ht out hc sent =>
    rw [List.append_assoc, List.cons_append]
    exact .ended hf ht out hc sent
  case dropped hw out hc sent =>
    rw [List.append_assoc]
    exact .dropped hw out hc sent

-- Some more frames, which are not for the terminal if it is there.
theorem quiet (hr : listed → ∀ m ∈ ms', routed sid m = none) (h : Stream sid first listed ms s) :
    Stream sid first listed (ms ++ ms') s := by
  by_cases here : listed
  case neg => exact h.late fun hl => absurd hl here
  case pos =>
    cases h
    case ended hf ht out hc sent => exact late (fun _ => hc) (.ended hf ht out hc sent)
    case dropped hw out hc sent  => exact late (fun _ => hc) (.dropped hw out hc sent)
    case running done rest hl out hc sent =>
      have same : (done ++ ms').filterMap (routed sid) = done.filterMap (routed sid) := by
        rw [List.filterMap_append, List.filterMap_eq_nil_iff.mpr (hr here), List.append_nil]
      rw [hl here, List.append_nil, ← List.append_nil (done ++ ms')]
      exact .running (fun _ => rfl) (same ▸ out) hc (same ▸ sent)

-- While the terminal is there, it was sent all of it.
theorem whole (here : listed) (hc : s.closed = none) (h : Stream sid first listed ms s) :
    s.sent = first ++ ms.filterMap (routed sid) := by
  cases h
  case running hl out _ sent => rw [hl here, List.append_nil, sent]
  case ended hc' _           => simp [hc] at hc'
  case dropped hc' _         => simp [hc] at hc'

theorem told (hl : listed' → listed) (ht : s.Told s') (h : Stream sid first listed ms s) :
    Stream sid first listed' ms s' := by
  cases ht
  case same sent closed =>
    cases h
    case running rest out hc sent' =>
      exact .running (fun here => rest (hl here)) out (closed ▸ hc) (sent ▸ sent')
    case ended hf ht out hc sent'   => exact .ended hf ht out (closed ▸ hc) (sent ▸ sent')
    case dropped hw out hc sent'    => exact .dropped hw out (closed ▸ hc) (sent ▸ sent')
  case banner hw hc sent closed =>
    cases h
    case running out _ sent' => exact .dropped hw out closed (by rw [sent, sent'])
    case ended hc' _   => simp [hc] at hc'
    case dropped hc' _ => simp [hc] at hc'

-- A frame is passed on to the terminal.
theorem passed (here : listed) (hl : listed' → listed) (hf : routed sid m = some f) (hp : s.Passed f s')
    (h : Stream sid first listed ms s) : Stream sid first listed' (ms ++ [m]) s' := by
  cases hp
  case late hc sent closed => exact told hl (.same sent closed) (h.late fun _ => hc)
  case out ht hc sent closed =>
    cases h
    case ended hc' _   => simp [hc] at hc'
    case dropped hc' _ => simp [hc] at hc'
    case running done rest all out _ sent' =>
      have more : (done ++ [m]).filterMap (routed sid) = done.filterMap (routed sid) ++ [f] := by
        simp [List.filterMap_append, hf]
      rw [all here, List.append_nil, ← List.append_nil (done ++ [m])]
      refine .running (fun _ => rfl) ?_ closed (by rw [sent, sent', more, List.append_assoc])
      rw [more]
      exact List.forall_mem_append.mpr ⟨out, by simpa using ht⟩
  case final ht hc sent closed =>
    cases h
    case ended hc' _   => simp [hc] at hc'
    case dropped hc' _ => simp [hc] at hc'
    case running done rest all out _ sent' =>
      rw [all here, List.append_nil]
      exact .ended hf ht out closed (by rw [sent, sent'])

end Stream

namespace Tells

theorem refl : Tells ws σ σ :=
  ⟨rfl, id, .refl⟩

theorem trans (h₁ : Tells ws σ₁ σ₂) (h₂ : Tells ws σ₂ σ₃) : Tells ws σ₁ σ₃ :=
  ⟨h₂.attachment.trans h₁.attachment, h₁.listed ∘ h₂.listed, h₁.told.trans h₂.told⟩

-- Nothing that the terminal notices.
theorem of_socks (listed : σ'.listed = σ.listed) (socks : σ'.socks ws = σ.socks ws) : Tells ws σ σ' :=
  ⟨congrArg Sock.attachment socks, fun hl => listed ▸ hl, socks ▸ .refl⟩

theorem setMachine {machine : GoMap String Machine} : Tells ws σ { σ with machine } :=
  .of_socks rfl rfl

theorem setSock (hne : ws ≠ a) : Tells ws σ (σ.setSock a s) :=
  .of_socks rfl (socks_setSock.trans (if_neg hne))

theorem wsSend (hne : ws ≠ a) : Tells ws σ (σ.wsSend a f) := by
  unfold State.wsSend
  split
  case h_1 => exact .refl
  case h_2 => exact .setSock hne

theorem close {code : Nat} (hne : ws ≠ a) : Tells ws σ (σ.close a code why) := by
  unfold State.close
  split
  case h_1 => exact .refl
  case h_2 => exact .setSock hne

theorem attach {b : Attachment} (hne : ws ≠ a) : Tells ws σ (σ.attach a b) :=
  .setSock hne

-- A terminal gets the reason and is closed.
theorem banner (hw : why ∈ banners) :
    Tells ws σ ((σ.wsSend a { t := "err", msg := some (.str why) }).close a 1000 why) := by
  by_cases hne : ws = a
  case neg => exact .trans (.wsSend hne) (.close hne)
  case pos =>
    subst hne
    cases hc : (σ.socks ws).closed
    case some =>
      have same : σ.wsSend ws { t := "err", msg := some (.str why) } = σ := by
        simp only [State.wsSend, hc]
      rw [same]
      simp only [State.close, hc]
      exact .refl
    case none =>
      simp only [State.wsSend, hc, State.close, socks_setSock, if_true]
      refine ⟨?_, id, .banner hw hc ?_ ?_⟩
      all_goals simp [State.attachment, socks_setSock]

theorem closeTerms {mid : Option String} (hw : why ∈ banners) : Tells ws σ (σ.closeTerms mid why) := by
  unfold State.closeTerms
  generalize σ.termSockets mid = l
  induction l generalizing σ
  case nil        => exact .refl
  case cons _ l hi => exact .trans (.banner hw) hi

theorem dropAgent (hw : why ∈ banners) (hne : ws ≠ a) : Tells ws σ (σ.dropAgent a why) :=
  .trans (.closeTerms hw) (.trans (.attach hne) (.close hne))

theorem accept {tags : List Tag} {b : Attachment} (new : ws ≠ (σ.accept tags).2) :
    Tells ws σ ((σ.accept tags).1.attach (σ.accept tags).2 b) := by
  refine ⟨accept_attachment.trans (if_neg new), fun hl => ?_, ?_⟩
  case refine_1 =>
    rw [accept_listed, List.mem_append, List.mem_singleton] at hl
    exact hl.resolve_right new
  case refine_2 =>
    rw [accept_socks, if_neg new]
    exact .refl

theorem touchLastSeen : Tells ws σ (σ.touchLastSeen mid a) := by
  unfold State.touchLastSeen
  split
  case h_1 => exact .refl
  case h_2 => exact .setMachine

theorem armAlarm : Tells ws σ σ.armAlarm := by
  unfold State.armAlarm
  split
  case h_1 => exact .refl
  case h_2 => exact .of_socks rfl rfl

end Tells

namespace Passes

theorem out (ht : f.t = "out") : Passes ws f σ (σ.wsSend ws f) := by
  unfold wsSend
  split
  case h_1 hc => exact ⟨rfl, id, .late (by simp [hc]) rfl rfl⟩
  case h_2 hc =>
    refine ⟨?_, id, .out ht hc ?_ ?_⟩
    all_goals simp [State.attachment, socks_setSock, hc]

theorem final {code : Nat} (ht : f.t = "exit" ∨ f.t = "err") :
    Passes ws f σ ((σ.wsSend ws f).close ws code why) := by
  unfold wsSend
  split
  case h_1 hc =>
    simp only [State.close, hc]
    exact ⟨rfl, id, .late (by simp [hc]) rfl rfl⟩
  case h_2 hc =>
    simp only [State.close, socks_setSock, if_true, hc]
    refine ⟨?_, id, .final ht hc ?_ ?_⟩
    all_goals simp [State.attachment, socks_setSock]

end Passes

theorem sent_wsSend : (σ.socks ws).sent <+: ((σ.wsSend a f).socks ws).sent := by
  unfold wsSend
  split
  case h_1 => exact List.prefix_refl _
  case h_2 =>
    rw [socks_setSock]
    split
    case isTrue eq => exact eq ▸ List.prefix_append ..
    case isFalse   => exact List.prefix_refl _

-- A terminal is no agent's socket and no pending one.
theorem ne_of_term (ht : σ.attachment ws = some (.term sid mid))
    (ha : σ.attachment a ≠ some (.term sid mid)) : ws ≠ a := by
  rintro rfl
  exact ha ht

theorem Terms.ne_accept {tags : List Tag} (terms : Terms σ)
    (ht : σ.attachment ws = some (.term sid mid)) : ws ≠ (σ.accept tags).2 := by
  rintro rfl
  exact Nat.lt_irrefl _ (terms.known ht)

section Term

variable (hs : Sound σ) (ht : σ.attachment ws = some (.term sid mid))

include hs ht

theorem ne_agentSocket (found : σ.agentSocket mid' = some a) : ws ≠ a :=
  ne_of_term ht ((hs.mem_of_agentSocket found).right.not_term _ _)

theorem tells_replace : Tells ws σ (replace σ mid') := by
  unfold replace
  split
  case h_1 => exact .refl
  case h_2 old found =>
    have hne : ws ≠ old := ne_agentSocket hs ht found
    exact .trans (.attach hne) (.trans (.closeTerms (by decide)) (.close hne))

theorem tells_reap : Tells ws σ (reap σ a) := by
  unfold reap
  split
  case h_1 =>
    split
    case h_1       => exact .refl
    case h_2 found => exact .wsSend (ne_agentSocket hs ht found)
  case h_2 ha => exact .trans (.dropAgent (by decide) (ne_of_term ht (by simp [ha]))) .touchLastSeen
  case h_3    => exact .refl

omit hs in
theorem tells_sweep {now : Time} {live : Bool} : Tells ws σ (sweep now (σ, live) a).1 := by
  unfold sweep
  dsimp only
  split
  case h_1 ha =>
    split
    case isTrue  => exact .close (ne_of_term ht (by simp [ha]))
    case isFalse => exact .refl
  case h_2 ha =>
    split
    case isTrue  => exact .trans (.dropAgent (by decide) (ne_of_term ht (by simp [ha]))) .touchLastSeen
    case isFalse => exact .refl
  all_goals exact .refl

omit hs in
theorem tells_alarm : Tells ws σ (alarm σ) := by
  have sweeps {l : List Ws} {now : Time} {p : State × Bool}
      (hp : p.1.attachment ws = some (.term sid mid)) :
      Tells ws p.1 (l.foldl (sweep now) p).1 := by
    induction l generalizing p
    case nil => exact .refl
    case cons a l hi =>
      have first : Tells ws p.1 (sweep now p a).1 := tells_sweep hp
      exact first.trans (hi (first.attachment.trans hp))
  have swept {p : State × Bool} (listed : p.1.listed = σ.listed) (socks : p.1.socks ws = σ.socks ws) :
      Tells ws σ (σ.listed.foldl (sweep σ.now) p).1 :=
    .trans (.of_socks listed socks) (sweeps ((congrArg Sock.attachment socks).trans ht))
  unfold alarm
  dsimp only
  split
  case isTrue  => exact (swept rfl rfl).trans (.of_socks rfl rfl)
  case isFalse => exact swept rfl rfl

theorem tells_fromTerm : Tells ws σ (fromTerm σ sid' mid' m) := by
  cases found : σ.agentSocket mid'
  case none =>
    simp only [fromTerm, found]
    exact .refl
  case some agent =>
    rcases @fromTerm_passes _ agent mid' sid' m found with same | same | ⟨f, _, _, same⟩
    all_goals rw [same]
    case inl     => exact .refl
    case inr.inl => exact .of_socks rfl rfl
    case inr.inr => exact .wsSend (ne_agentSocket hs ht found)

omit hs in
theorem tells_hello (hp : σ.IsPending a) : Tells ws σ (hello σ a m).1 := by
  have hne : ws ≠ a := ne_of_term ht (hp.not_term _ _)
  unfold hello
  split
  case h_1 => exact .of_socks rfl rfl
  case h_2 =>
    split
    case isFalse => exact .close hne
    case isTrue =>
      split
      case h_1 => exact .of_socks rfl rfl
      case h_2 => exact .refl

-- The terminal that a frame of an agent goes to.
theorem of_target (found : (σ.termBySid sid').filter (σ.mid · = some mid') = some ws) :
    ws ∈ σ.listed ∧ sid' = sid ∧ mid' = mid := by
  have ⟨head, hm⟩ := Option.filter_eq_some_iff.mp found
  have ⟨listed, tag⟩ := List.mem_filter.mp (List.mem_of_head? head)
  have tags : ws.tags = [.term, .sid sid, .mid mid] := hs.tagged ht
  refine ⟨listed, by simpa [tags] using tag, ?_⟩
  simpa [State.mid, ht, Attachment.mid, eq_comm] using hm

omit hs ht in
theorem tells_fromAgentTo (hn : (σ.termBySid sid').filter (σ.mid · = some mid') ≠ some ws) :
    Tells ws σ (fromAgentTo σ mid' sid' t m) := by
  unfold fromAgentTo
  split
  case h_1 => exact .refl
  case h_2 x found =>
    have hne : ws ≠ x := fun he => hn (he ▸ found)
    dsimp only
    split
    case isTrue => exact .wsSend hne
    case isFalse =>
      split
      case isTrue  => exact .trans (.wsSend hne) (.close hne)
      case isFalse => exact .trans (.wsSend hne) (.close hne)

-- Only the frames of its agent that are routed to it.
theorem tells_fromAgent (ha : σ.IsAgent a mid')
    (hn : ¬(ws ∈ σ.listed ∧ mid' = mid ∧ ∃ f, routed sid m = some f)) :
    Tells ws σ (fromAgent σ a mid' m) := by
  have hne : ws ≠ a := ne_of_term ht (ha.not_term _ _)
  unfold fromAgent
  split
  case h_1 => exact .of_socks rfl rfl
  case h_2 t tag =>
    split
    case isTrue => exact .attach hne
    case isFalse =>
      split
      case isFalse => exact .refl
      case isTrue known =>
        split
        case h_1 => exact .of_socks rfl rfl
        case h_2 sid' key =>
          refine tells_fromAgentTo fun found => hn ?_
          obtain ⟨listed, rfl, rfl⟩ := of_target hs ht found
          refine ⟨listed, rfl, ?_⟩
          have field : (m.field "t").join = t := congrArg Option.join tag
          exact ⟨_, routed_eq_some.mpr ⟨⟨key, field.symm ▸ known⟩, rfl⟩⟩

theorem passes_fromAgent (once : σ.Once sid) (terms : Terms σ) (hl : ws ∈ σ.listed)
    (hr : routed sid m = some f) : Passes ws f σ (fromAgent σ a mid m) := by
  have tags : ws.tags = [.term, .sid sid, .mid mid] := hs.tagged ht
  have head : σ.termBySid sid = some ws := by
    have own : ∀ x ∈ σ.getWebSockets (.sid sid), x = ws := by
      intro x hx
      have ⟨listed, tag⟩ := List.mem_filter.mp hx
      have ⟨_, hx⟩ := terms.tagged listed (of_decide_eq_true tag)
      exact terms.single once hx ht
    have mem : ws ∈ σ.getWebSockets (.sid sid) := List.mem_filter.mpr ⟨hl, by simp [tags]⟩
    unfold termBySid
    cases hg : σ.getWebSockets (.sid sid)
    case nil      => simp [hg] at mem
    case cons x _ => exact congrArg some (own x (by simp [hg]))
  have found : (σ.termBySid sid).filter (σ.mid · = some mid) = some ws := by
    simp [head, State.mid, ht, Attachment.mid]
  obtain ⟨⟨key, known⟩, rfl⟩ := routed_eq_some.mp hr
  cases tag : m.field "t"
  case none => simp [tag, Json.is] at known
  case some t =>
    rw [tag, Option.join_some] at known
    have live : ¬Json.is t "hb" := by
      rcases known with is | is | is <;> exact Json.not_is_of_is is (by decide)
    simp only [fromAgent, tag, live, known, key, fromAgentTo, found, passedOn, Option.join_some,
      if_true, Bool.false_eq_true, if_false]
    split
    case isTrue => exact .out rfl
    case isFalse =>
      split
      case isTrue  => exact .final (.inl rfl)
      case isFalse => exact .final (.inr rfl)

-- What is no frame of an agent.
theorem tells_start {r : Req} {ops : List Op} (terms : Terms σ) (e : start σ r = some (σ', ops))
    (hn : ∀ a m mid', r = .webSocketMessage a (some m) → ¬σ.IsAgent a mid') : Tells ws σ σ' := by
  cases r <;> simp only [start] at e
  case apiTokens | apiTerm | upgradeTerm => cases e; exact .refl
  case apiDelete id =>
    split at e
    case h_1 => cases e; exact .refl
    case h_2 m _ =>
      have sound : Sound { σ with
          machine := σ.machine.delete id, tok := σ.tok.delete m.tokenSum } := ⟨hs.tagged, hs.single⟩
      have revoked : Tells ws σ { σ with
          machine := σ.machine.delete id, tok := σ.tok.delete m.tokenSum } := .of_socks rfl rfl
      split at e <;> cases e
      case h_1 => exact .of_socks rfl rfl
      case h_2 found =>
        have hne := ne_agentSocket sound ht found
        exact .trans revoked (.trans (.dropAgent (by decide) hne) (.of_socks rfl rfl))
  case upgradeAgent =>
    cases e
    have accepted : Tells ws σ
        ((σ.accept [.agent]).1.attach (σ.accept [.agent]).2 (.pending σ.now)) :=
      .accept (terms.ne_accept ht)
    exact accepted.trans .armAlarm
  case webSocketMessage a m =>
    split at e
    case isFalse => contradiction
    case isTrue =>
      split at e
      case h_1 => cases e; exact .refl
      case h_2 m =>
        split at e
        case h_1 ha =>
          have called : (hello σ a m).1 = σ' := congrArg Prod.fst (Option.some.inj e)
          exact called ▸ tells_hello ht ⟨_, ha⟩
        case h_2 ha => exact absurd ⟨_, ha⟩ (hn _ _ _ rfl)
        case h_3 => cases e; exact tells_fromTerm hs ht
        case h_4 => cases e; exact .refl
  case webSocketClose a | webSocketError a =>
    unfold closed at e
    split at e <;> cases e
    have unlisted : Tells ws (reap σ a)
        { reap σ a with listed := (reap σ a).listed.filter (· ≠ a) } :=
      ⟨rfl, List.mem_of_mem_filter, .refl⟩
    exact (tells_reap hs ht).trans unlisted
  case alarm =>
    split at e
    case h_1 => contradiction
    case h_2 =>
      split at e <;> cases e
      exact tells_alarm ht
  case autoResponse a =>
    split at e <;> cases e
    by_cases hne : ws = a
    case neg => exact .setSock hne
    case pos =>
      subst hne
      refine ⟨?_, id, .same ?_ ?_⟩
      all_goals simp [State.attachment, socks_setSock]
  case tick => cases e; exact .of_socks rfl rfl

theorem tells_attachTerm {k : String} {p : Pend} (terms : Terms σ) :
    Tells ws σ (attachTerm σ sid' k p) := by
  have new : ws ≠ terminal σ sid' p := terms.ne_accept ht
  have consumed : Tells ws σ { σ with pend := σ.pend.delete sid' } := .of_socks rfl rfl
  have accepted : Tells ws σ (registered σ sid' p) := consumed.trans (.accept new)
  have greeted : Tells ws σ ((registered σ sid' p).wsSend (terminal σ sid' p) { t := "e2e" }) :=
    accepted.trans (.wsSend new)
  have sound : Sound ((registered σ sid' p).wsSend (terminal σ sid' p) { t := "e2e" }) :=
    hs.registered.sends sends_wsSend
  unfold attachTerm
  dsimp only
  split
  case h_1 => exact greeted.trans (.trans (.wsSend new) (.trans (.close new) (.of_socks rfl rfl)))
  case h_2 found =>
    have hne := ne_agentSocket sound (greeted.attachment.trans ht) found
    exact greeted.trans (.trans (.wsSend hne) (.of_socks rfl rfl))

theorem tells_helloDigest {sum : String} (hne : ws ≠ a) : Tells ws σ (helloDigest σ a m sum) := by
  unfold helloDigest
  dsimp only
  split
  case h_1 => exact .close hne
  case h_2 =>
    split
    case isFalse => exact .trans (.wsSend hne) (.close hne)
    case isTrue =>
      have greeted {mid' : String} :
          Tells ws σ ((replace σ mid').attach a (.agent mid' σ.now)) :=
        .trans (tells_replace hs ht) (.attach hne)
      split
      case h_1 => exact greeted.trans (.trans (.wsSend hne) .armAlarm)
      case h_2 => exact greeted.trans (.trans .setMachine (.trans (.wsSend hne) .armAlarm))

theorem tells_exec {sha256hex : String → String} {op : Op} {ops : List Op} (terms : Terms σ)
    (e : Exec sha256hex σ op σ' ops) (ho : op.Known σ) : Tells ws σ σ' := by
  cases e
  case minted first sid' key _ cmd p _ =>
    have minted : Tells ws σ
        ({ σ with pend := σ.pend.set sid' p }.record (.minted first sid' key cmd)) := .of_socks rfl rfl
    exact minted.trans .armAlarm
  case accepted => exact tells_attachTerm hs ht terms
  case hello =>
    refine tells_helloDigest hs ht ?_
    rintro rfl
    exact absurd ht (hs.not_term ho.left)
  all_goals exact .of_socks rfl rfl

end Term

variable {c₀ c c' : Config State Op} {sha256hex : String → String} {ops : List Op}

theorem not_hb_of_routed (h : routed sid m = some f) : ¬Json.is (m.field "t").join "hb" := by
  have ⟨⟨_, known⟩, _⟩ := routed_eq_some.mp h
  rcases known with is | is | is <;> exact Json.not_is_of_is is (by decide)

-- A request brings a frame for the terminal, or nothing that it is to get.
theorem start_tells {r : Req} (hs : Sound σ) (terms : Terms σ) (once : σ.Once sid)
    (ht : σ.attachment ws = some (.term sid mid)) (e : start σ r = some (σ', ops)) :
    (∃ m f, σ.heard mid r = [m] ∧ routed sid m = some f ∧ ws ∈ σ.listed ∧ Passes ws f σ σ') ∨
    Tells ws σ σ' ∧ (ws ∈ σ.listed → ∀ m ∈ σ.heard mid r, routed sid m = none) := by
  by_cases frame : ∃ a m mid', r = .webSocketMessage a (some m) ∧ σ.IsAgent a mid'
  case neg =>
    have other (a m mid') (hr : r = .webSocketMessage a (some m)) (ha : σ.IsAgent a mid') : False :=
      frame ⟨a, m, mid', hr, ha⟩
    refine .inr ⟨tells_start hs ht terms e other, fun _ => ?_⟩
    unfold State.heard
    split
    case h_2 => simp
    case h_1 a m =>
      rw [if_neg fun said => other a m mid rfl (agentOf_eq_some.mp said.left)]
      simp
  case pos =>
    obtain ⟨a, m, mid', rfl, ha⟩ := frame
    have ⟨seen, agent⟩ := ha
    simp only [start, agent] at e
    split at e <;> cases e
    have agentOf : σ.agentOf a = some mid' := agentOf_eq_some.mpr ha
    by_cases target : ws ∈ σ.listed ∧ mid' = mid ∧ ∃ f, routed sid m = some f
    case pos =>
      obtain ⟨here, rfl, f, hr⟩ := target
      exact .inl ⟨m, f, if_pos ⟨agentOf, not_hb_of_routed hr⟩, hr, here,
        passes_fromAgent hs ht once terms here hr⟩
    case neg =>
      refine .inr ⟨tells_fromAgent hs ht ha target, fun here m' hm => ?_⟩
      simp only [State.heard, agentOf, Option.some.injEq] at hm
      split at hm
      case isFalse => contradiction
      case isTrue said =>
        obtain rfl := List.mem_singleton.mp hm
        by_contra hr
        exact target ⟨here, said.left, Option.ne_none_iff_exists'.mp hr⟩

-- What a step does with a terminal, whose sid is accepted only once.
theorem terminal_step {l : Label Req Input} (h : (program sha256hex).system.Reachable c)
    (e : (program sha256hex).system.step c l = some c') (once : c'.shared.Once sid)
    (ht : c.shared.attachment ws = some (.term sid mid)) :
    c'.shared.attachment ws = some (.term sid mid) ∧
      (c.shared.socks ws).sent <+: (c'.shared.socks ws).sent ∧
      ∀ first ms, Stream sid first (ws ∈ c.shared.listed) ms (c.shared.socks ws) →
        Stream sid first (ws ∈ c'.shared.listed) (ms ++ said mid c l) (c'.shared.socks ws) := by
  have old := once_of_step h e once
  obtain ⟨⟨sound, terms⟩, known⟩ := terms_reachable h
  replace e := Step.of e
  cases e
  case start t r σ' ops idle e =>
    rcases start_tells sound terms old ht e with ⟨m, f, heard, hr, here, passes⟩ | ⟨tells, quiet⟩
    case inl =>
      have said : said mid c (.start t r) = [m] := heard
      refine ⟨passes.attachment.trans ht, passes.passed.sent, fun first ms stream => ?_⟩
      exact said ▸ stream.passed here passes.listed hr passes.passed
    case inr =>
      refine ⟨tells.attachment.trans ht, tells.told.sent, fun first ms stream => ?_⟩
      exact .told tells.listed tells.told (stream.quiet quiet)
  case step t i op rest σ' ops head e =>
    replace e := Exec.of e
    have ho : op.Known c.shared := known op ⟨t, head ▸ List.mem_cons_self⟩
    have tells : Tells ws c.shared σ' := tells_exec sound ht terms e ho
    refine ⟨tells.attachment.trans ht, tells.told.sent, fun first ms stream => ?_⟩
    have silent : said mid c (.step t i) = [] := rfl
    rw [silent, List.append_nil]
    exact stream.told tells.listed tells.told

-- The first frame of a terminal tells it of e2e.
def State.Announced (σ : State) : Prop :=
  ∀ ws sid mid, σ.Once sid → σ.attachment ws = some (.term sid mid) →
    [{ t := "e2e" }] <+: (σ.socks ws).sent

theorem Action.of_term (h : Action σ σ') (ht : σ'.attachment ws = some (.term sid mid)) :
    σ.attachment ws = some (.term sid mid) := by
  cases h
  case sends hs => exact hs.attachment ws ▸ ht
  case drop ha  => exact (dropAgent_drops ha).term.mp ht
  case seen =>
    rw [attachment_attach] at ht
    split at ht
    case isTrue  => cases ht
    case isFalse => exact ht
  case accept =>
    rw [accept_attachment] at ht
    split at ht
    case isTrue  => cases ht
    case isFalse => exact ht
  all_goals exact ht

theorem Actions.of_term (h : Actions σ σ') (ht : σ'.attachment ws = some (.term sid mid)) :
    σ.attachment ws = some (.term sid mid) := by
  induction h
  case refl             => exact ht
  case tail _ action hi => exact hi (action.of_term ht)

theorem of_term_start {r : Req} (hs : Sound σ) (e : start σ r = some (σ', ops))
    (ht : σ'.attachment ws = some (.term sid mid)) : σ.attachment ws = some (.term sid mid) := by
  cases start_cases hs e
  case inl actions => exact actions.of_term ht
  case inr hc =>
    obtain ⟨_, _, σ₁, σ₂, _, rfl, actions, _, rfl⟩ := hc
    have before : State.attachment _ ws = some (.term sid mid) := actions.of_term ht
    exact before

-- A terminal that was no terminal before is the one that is registered.
theorem of_term_exec {op : Op} (e : Exec sha256hex σ op σ' ops) (ho : op.OfAgent) (hs : Sound σ)
    (ht : σ'.attachment ws = some (.term sid mid)) :
    σ.attachment ws = some (.term sid mid) ∨
      ∃ k p, σ' = attachTerm σ sid k p ∧ ws = terminal σ sid p := by
  cases e
  case minted first sid' key _ cmd p _ =>
    refine .inl (@Actions.of_term ({ σ with pend := σ.pend.set sid' p }.record
      (.minted first sid' key cmd)) _ _ _ _ armAlarm_actions ht)
  case accepted sid' k pend p _ =>
    have ⟨σ', o, eq, sends, _⟩ := attachTerm_cases σ sid' k p
    rw [eq] at ht
    replace ht : σ'.attachment ws = some (.term sid mid) := ht
    rw [sends.attachment, registered_attachment] at ht
    split at ht
    case isTrue new => cases ht; exact .inr ⟨k, p, rfl, new⟩
    case isFalse    => exact .inl ht
  case hello =>
    cases helloDigest_actions fun _ _ => hs.not_term ho
    case inl sends => exact .inl (sends.attachment ws ▸ ht)
    case inr hc =>
      obtain ⟨mid', _, actions⟩ := hc
      replace ht := actions.of_term ht
      rw [attachment_attach] at ht
      split at ht
      case isTrue  => cases ht
      case isFalse => exact .inl (hs.replace_frames.term.mp ht)
  all_goals exact .inl ht

-- Where the relay registers a terminal, it tells it of e2e before anything else.
theorem attachTerm_announces {k : String} {p : Pend} :
    [{ t := "e2e" }] <+: ((attachTerm σ sid k p).socks (terminal σ sid p)).sent := by
  have told : (((registered σ sid p).wsSend (terminal σ sid p) { t := "e2e" }).socks
      (terminal σ sid p)).sent = [{ t := "e2e" }] := by
    have new : (registered σ sid p).socks (terminal σ sid p) =
        { attachment := some (.term sid p.mid) } := accept_socks.trans (if_pos rfl)
    simp [wsSend, new, socks_setSock]
  unfold attachTerm
  dsimp only
  split
  case h_1 =>
    have banner : Tells (terminal σ sid p)
        ((registered σ sid p).wsSend (terminal σ sid p) { t := "e2e" }) _ :=
      .banner (a := terminal σ sid p) (show "agent is offline" ∈ banners by decide)
    exact told ▸ banner.told.sent
  case h_2 => exact told ▸ sent_wsSend

theorem announced_reachable (h : (program sha256hex).system.Reachable c) : c.shared.Announced := by
  refine h.invariant (I := fun c => c.shared.Announced) ?_ fun c l c' hr hi _ e => ?_
  case refine_1 =>
    rintro c ⟨⟨now, hc⟩, _⟩ ws sid mid _ ht
    simp [hc, attachment] at ht
  case refine_2 =>
    intro ws sid mid once ht
    have served (before : c.shared.attachment ws = some (.term sid mid)) :
        [{ t := "e2e" }] <+: (c'.shared.socks ws).sent := by
      obtain ⟨_, sent, _⟩ := terminal_step hr e once before
      exact (hi ws sid mid (once_of_step hr e once) before).trans sent
    obtain ⟨⟨sound, _⟩, known⟩ := terms_reachable hr
    replace e := Step.of e
    cases e
    case start e => exact served (of_term_start sound e ht)
    case step t i op rest σ' ops head e =>
      replace e := Exec.of e
      have ho : op.Known c.shared := known op ⟨t, head ▸ List.mem_cons_self⟩
      rcases of_term_exec e ho.ofAgent sound ht with before | ⟨k, p, same, new⟩
      case inl => exact served before
      case inr =>
        rw [Config.resume_shared, same, new]
        exact attachTerm_announces

-- In every run from a state on in which a terminal is open, with a sid that is accepted only once: the
-- terminal, which was told of e2e first, is sent what the agents of its machine say for its session, in
-- order and without a gap, until one of them ends it, or the relay does, with a single last frame.
theorem relay_stream (h₀ : (program sha256hex).system.Reachable c₀)
    (ht : c₀.shared.attachment ws = some (.term sid mid)) (hc : (c₀.shared.socks ws).closed = none)
    (h : ((program sha256hex).system.after c₀).Observed (said mid) ms c) (once : c.shared.Once sid) :
    [{ t := "e2e" }] <+: (c₀.shared.socks ws).sent ∧
      Stream sid (c₀.shared.socks ws).sent (ws ∈ c.shared.listed) ms (c.shared.socks ws) := by
  refine (h.invariant (I := fun ms c => c.shared.Once sid →
    c.shared.attachment ws = some (.term sid mid) ∧ [{ t := "e2e" }] <+: (c₀.shared.socks ws).sent ∧
      Stream sid (c₀.shared.socks ws).sent (ws ∈ c.shared.listed) ms (c.shared.socks ws))
    ?_ ?_ once).right
  case refine_1 =>
    rintro c rfl once
    have running : Stream sid (c.shared.socks ws).sent (ws ∈ c.shared.listed) [] (c.shared.socks ws) :=
      @Stream.running _ _ _ [] [] _ (fun _ => rfl) (by simp) hc (by simp)
    exact ⟨ht, announced_reachable h₀ ws sid mid once ht, running⟩
  case refine_2 =>
    intro ms c l c' hr hi e once
    have reachable := h₀.after hr.reachable
    have ⟨ht, first, stream⟩ := hi (once_of_step reachable e once)
    have ⟨ht', _, step⟩ := terminal_step reachable e once ht
    exact ⟨ht', first, step _ _ stream⟩

-- The shell of a0 prints "x9" and exits.
theorem relay_stream_sample :
    let agent : Ws := ⟨0, [.agent]⟩
    let term : Ws := ⟨1, [.term, .sid "a0", .mid "5c"]⟩
    let out : Json := .obj [("t", .str "out"), ("sid", .str "a0"), ("data", .str "x9")]
    let exit : Json := .obj [("t", .str "exit"), ("sid", .str "a0"), ("code", .num "0")]
    let ls : List (Label Req Input) :=
      [.start 0 (.webSocketMessage agent (some out)), .start 0 (.webSocketMessage agent (some exit))]
    ∃ c₀ c, (program id).system.run initial sampleTerm = some c₀ ∧
      (program id).system.run c₀ ls = some c ∧
      (c.shared.socks term).sent =
        [{ t := "e2e" }, { t := "out", data := some (.str "x9") },
          { t := "exit", code := some (.num "0") }] ∧
      Stream "a0" (c₀.shared.socks term).sent (term ∈ c.shared.listed) [out, exit]
        (c.shared.socks term) := by
  intro agent term out exit ls
  cases e : (program id).system.run initial (sampleTerm ++ ls)
  case none =>
    have ran : ((program id).system.run initial (sampleTerm ++ ls)).isSome := by decide
    simp [e] at ran
  case some c =>
    have ⟨c₀, e₁, e₂⟩ := Transition.run_append_eq_some.mp e
    have attached : c₀.shared.attachment term = some (.term "a0" "5c") :=
      Transition.eq_of_run (f := (·.shared.attachment term)) e₁ (by decide)
    have running : (c₀.shared.socks term).closed = none :=
      Transition.eq_of_run (f := fun c => (c.shared.socks term).closed) e₁ (by decide)
    have sent : (c.shared.socks term).sent = [{ t := "e2e" }, { t := "out", data := some (.str "x9") },
        { t := "exit", code := some (.num "0") }] :=
      Transition.eq_of_run (f := fun c => (c.shared.socks term).sent) e (by rfl)
    have accepts : c.shared.accepts = [("a0", "7d")] :=
      Transition.eq_of_run (f := (·.shared.accepts)) e (by decide)
    have heard : (((program id).system.after c₀).observe (said "5c") c₀ ls).flatten = [out, exit] :=
      Transition.eq_of_run (f := fun c => ((program id).system.observe (said "5c") c ls).flatten) e₁
        (by rfl)
    let T := (program id).system.after c₀
    have observed := (Transition.Observed.init (T := T) (f := said "5c") rfl).run
      (Transition.run_after.trans e₂)
    rw [heard] at observed
    have ⟨_, stream⟩ := relay_stream (.run (.init initial_init) e₁) attached running observed
      (by simp [Once, accepts])
    exact ⟨c₀, c, e₁, e₂, sent, stream⟩

end Worker
