import Popfleet.Deployment.Life
import Popfleet.E2E.Enrolled
import Popfleet.E2E.Theorems.Tokens

open Proto Program V1e
open Deployment (opens ins opens_append opens_self)

namespace E2E

variable {σ σ' : State Unit} {s s' : Enrolled} {op o : Op Unit} {i : Input} {ops rest : List (Op Unit)}
  {r : Req Unit} {p : Pty Unit} {m f : Msg} {sid : String} {c c' : Config Enrolled (Op Unit)} {t : Tid}
  {l : Label (Req Unit) Input} {ms ms' : List Msg}

namespace Enrolled

theorem of_start (e : s.start r = some (s', ops)) :
    ∃ σ, E2E.start [] s.agent r = some (σ, ops) ∧ s' = { s with agent := σ } ∧ s.starts r := by
  have ⟨ok, e⟩ := Option.ite_none_right_eq_some.mp e
  have ⟨⟨σ, ops⟩, e, h⟩ := Option.map_eq_some_iff.mp e
  cases h
  exact ⟨σ, e, rfl, ok⟩

theorem of_exec (e : s.exec op i = some (s', ops)) :
    ∃ σ, E2E.exec (fun _ _ => ()) [] s.agent op i = some (σ, ops) ∧ s' = s.tell σ op i ∧
      ¬(s.lost ∧ op.gives.isSome ∧ i.sent) := by
  have ⟨ok, e⟩ := Option.ite_none_left_eq_some.mp e
  have ⟨⟨σ, ops⟩, e, h⟩ := Option.map_eq_some_iff.mp e
  cases h
  exact ⟨σ, e, rfl, ok⟩

end Enrolled

-- It is the agent of the other results, with e2e off.
theorem agent_reachable (h : enrolled.system.Reachable c) :
    (program (fun _ _ => ()) []).system.Reachable (c.map Enrolled.agent) := by
  refine reachable_map (P := program (fun _ _ => ()) []) ?_ ?_ ?_ h
  case refine_1 =>
    rintro s rfl
    exact ⟨_, rfl⟩
  case refine_2 =>
    intro s r s' ops e
    obtain ⟨σ, started, rfl, _⟩ := Enrolled.of_start e
    exact started
  case refine_3 =>
    intro s op i s' ops e
    obtain ⟨σ, executed, rfl, _⟩ := Enrolled.of_exec e
    exact executed

-- Without a fleet key a command line is what the open frame says.
theorem cmdline_plain : cmdline (fun _ _ => ()) [] σ m = some (none, utf8 m.cmd) :=
  congrArg (fun line => some (none, line)) toList_toUTF8

-- The shells of a sid, by their command lines, and what they were given.

def Enrolled.ran (s : Enrolled) (sid : String) : List Bytes :=
  (s.agent.log.filterMap fun
    | .spawned sid' line => if sid' = sid then some line else none
    | _                  => none).reverse

def Enrolled.given (s : Enrolled) (sid : String) : List Bytes :=
  (s.agent.writes sid).reverse

-- What the sections run and write.
theorem Enrolled.ran_exec (e : s.exec op i = some (s', ops)) (sid : String) :
    s'.ran sid = s.ran sid ∨
      ∃ conn enc line, op = .spawn conn sid enc line ∧ s'.ran sid = s.ran sid ++ [line] := by
  obtain ⟨σ, executed, rfl, -⟩ := of_exec e
  replace executed := Exec.of executed
  cases executed
  case spawned conn sid' enc line p _ =>
    by_cases hs : sid' = sid
    case neg => exact .inl (by simp [ran, State.record, State.setProcess, tell, hs])
    case pos =>
      subst hs
      exact .inr ⟨conn, enc, line, rfl, by simp [ran, State.record, State.setProcess, tell]⟩
  all_goals exact .inl (by simp [ran, State.record, State.setPtys, tell])

theorem Enrolled.given_exec (e : s.exec op i = some (s', ops)) (sid : String) :
    s'.given sid = s.given sid ∨ ∃ p data b, op = .write p data ∧ p.sid = sid ∧
      s'.given sid = s.given sid ++ [b] ∧ (p.enc = none → Base64.decode data = some b) := by
  obtain ⟨σ, executed, rfl, -⟩ := of_exec e
  replace executed := Exec.of executed
  cases executed
  case opened p data k b hk ho =>
    by_cases hs : p.sid = sid
    case neg => exact .inl (by simp [given, State.writes, State.record, tell, hs])
    case pos =>
      exact .inr ⟨p, data, b, rfl, hs, by simp [given, State.writes, State.record, tell, hs], by simp [hk]⟩
  case decoded p data b hk hd =>
    by_cases hs : p.sid = sid
    case neg => exact .inl (by simp [given, State.writes, State.record, tell, hs])
    case pos =>
      exact .inr ⟨p, data, b, rfl, hs, by simp [given, State.writes, State.record, tell, hs], fun _ => hd⟩
  all_goals
    exact .inl (by simp [given, State.writes, State.record, State.setPtys, State.setProcess, tell])

-- The agent of a sid has no AEAD, and ran a shell for it.
structure Enrolled.Plain (s : Enrolled) (p : Pty Unit) : Prop where
  enc : p.enc = none
  ran : s.ran p.sid ≠ []

-- A frame for the broker is about a sid that was opened.
structure Enrolled.Answers (s : Enrolled) (f : Msg) : Prop where
  tag    : f.t = "out" ∨ f.t = "exit"
  opened : opens f.sid s.heard ≠ []

-- What is known of the PTYs that can be found, of those whose goroutine did not start, and of the frames.
structure Enrolled.Sound (s : Enrolled) : Prop where
  found : ∀ {conn sid p}, (s.agent.ptys conn).get? sid = some p → s.Plain p
  pumps : ∀ p ∈ s.agent.pumps, s.Plain p
  tried : ∀ f ∈ s.tried, s.Answers f
  ran   : ∀ sid, s.ran sid ≠ [] → opens sid s.heard ≠ []

-- What is known where a section is pending.
def Op.Sound (s : Enrolled) : Op Unit → Prop
  | .openPty _ m | .openCmd _ m => opens m.sid s.heard ≠ []
  | .spawn _ sid enc _ => enc = none ∧ opens sid s.heard ≠ []
  | .sendOut p m _ => s.Plain p ∧ m.t = "out" ∧ m.sid = p.sid
  | .send _ m => s.Answers m
  | o => ∀ p, o.pty? = some p → s.Plain p

-- Nothing that was heard or run is forgotten.
structure Enrolled.Grows (s s' : Enrolled) : Prop where
  heard : ∀ sid, opens sid s.heard ≠ [] → opens sid s'.heard ≠ []
  ran   : ∀ sid, s.ran sid ≠ [] → s'.ran sid ≠ []

namespace Enrolled

theorem Grows.refl : Grows s s :=
  ⟨fun _ => id, fun _ => id⟩

theorem Grows.exec (e : s.exec op i = some (s', ops)) : Grows s s' where
  heard sid ho := by
    obtain ⟨σ, -, rfl, -⟩ := of_exec e
    exact opens_append.trans_ne (by simp [ho])
  ran sid hr := by
    obtain same | ⟨_, _, line, _, more⟩ := ran_exec e sid
    case inl => exact same ▸ hr
    case inr => simp [more]

theorem Plain.mono (h : s.Plain p) (hg : Grows s s') : s'.Plain p :=
  ⟨h.enc, hg.ran _ h.ran⟩

theorem Answers.mono (h : s.Answers f) (hg : Grows s s') : s'.Answers f :=
  ⟨h.tag, hg.heard _ h.opened⟩

end Enrolled

theorem Op.Sound.mono (h : o.Sound s) (hg : s.Grows s') : o.Sound s' := by
  cases o
  case openPty | openCmd => exact hg.heard _ h
  case spawn => exact h.imp_right (hg.heard _)
  case sendOut => exact h.imp_left (·.mono hg)
  case send => exact Enrolled.Answers.mono h hg
  all_goals exact fun p hp => (h p hp).mono hg

-- The session starts, or one of its goroutines.
theorem Enrolled.start_cases (e : s.start r = some (s', ops)) :
    (s.agent.next = 0 ∧ s' = { s with agent := { s.agent with next := 1 } } ∧ ∃ m, ops = [.hello 0 m]) ∨
      ∃ p ∈ s.agent.pumps, s' = { s with agent := { s.agent with pumps := s.agent.pumps.erase p } } ∧
        ops = [.pump p [] false] := by
  obtain ⟨σ, started, rfl, ok⟩ := of_start e
  cases r
  case session =>
    have none : s.agent.next = 0 := by simpa [starts] using ok
    simp only [E2E.start, none, Option.some.injEq, Prod.mk.injEq] at started
    obtain ⟨rfl, rfl⟩ := started
    exact .inl ⟨none, rfl, _, rfl⟩
  case pump p =>
    have ⟨hp, started⟩ := Option.ite_none_right_eq_some.mp started
    cases started
    exact .inr ⟨p, hp, rfl, rfl⟩
  all_goals contradiction

theorem Enrolled.Sound.start (h : s.Sound) (e : s.start r = some (s', ops)) :
    s'.Sound ∧ s.Grows s' ∧ ∀ o ∈ ops, o.Sound s' := by
  -- The history is as it was.
  have keep {σ : State Unit} (hl : σ.log = s.agent.log) (hp : σ.ptys = s.agent.ptys)
      (hs : ∀ p ∈ σ.pumps, p ∈ s.agent.pumps) :
      Sound { s with agent := σ } ∧ s.Grows { s with agent := σ } := by
    have grows : s.Grows { s with agent := σ } := ⟨fun _ => id, fun _ => by simp [Enrolled.ran, hl]⟩
    exact ⟨⟨fun hf => (h.found (hp ▸ hf)).mono grows, fun p hp => (h.pumps p (hs p hp)).mono grows,
      fun f hf => (h.tried f hf).mono grows,
      fun sid hr => h.ran sid (by simpa [Enrolled.ran, hl] using hr)⟩, grows⟩
  obtain ⟨_, rfl, m, rfl⟩ | ⟨p, hp, rfl, rfl⟩ := start_cases e
  case inl =>
    obtain ⟨sound, grows⟩ := @keep { s.agent with next := 1 } rfl rfl fun _ => id
    exact ⟨sound, grows, by simp [Op.Sound, Op.pty?]⟩
  case inr =>
    obtain ⟨sound, grows⟩ := @keep { s.agent with pumps := s.agent.pumps.erase p } rfl rfl
      fun _ => List.mem_of_mem_erase
    exact ⟨sound, grows, by simpa [Op.Sound, Op.pty?] using (h.pumps p hp).mono grows⟩

theorem Enrolled.Sound.exec (h : s.Sound) (ho : op.Sound s) (e : s.exec op i = some (s', ops)) :
    s'.Sound := by
  have grows := Grows.exec e
  have ran := ran_exec e
  obtain ⟨σ, executed, rfl, -⟩ := of_exec e
  replace executed := Exec.of executed
  constructor
  case found =>
    intro conn sid p hp
    obtain old | ⟨rfl, _⟩ := executed.of_ptys hp
    case inl => exact (h.found old).mono grows
    case inr => exact (ho p rfl).mono grows
  case pumps =>
    intro p hp
    obtain ⟨same, _⟩ | ⟨q, rfl, pushed, _⟩ | ⟨_, _, _, _, same, _⟩ := executed.pumps
    case inl     => exact (h.pumps p (same ▸ hp)).mono grows
    case inr.inr => exact (h.pumps p (same ▸ hp)).mono grows
    case inr.inl =>
      obtain rfl | hp := List.mem_cons.mp (pushed ▸ hp)
      case inl => exact (ho p rfl).mono grows
      case inr => exact (h.pumps p hp).mono grows
  case tried =>
    intro f hf
    rcases List.mem_append.mp hf with hf | hf
    case inl => exact (h.tried f hf).mono grows
    case inr =>
      cases op <;> simp only [Op.gives, Option.toList_none, Option.toList_some, List.not_mem_nil,
        List.mem_singleton] at hf
      case send =>
        subst hf
        exact Answers.mono ho grows
      case sendOut p m _ =>
        have ⟨plain, tag, hs⟩ := ho
        subst hf
        have answers : s.Answers f := ⟨.inl tag, hs ▸ h.ran _ plain.ran⟩
        exact answers.mono grows
  case ran =>
    intro sid hr
    obtain same | ⟨conn, enc, line, rfl, _⟩ := ran sid
    case inl => exact grows.heard _ (h.ran sid (same ▸ hr))
    case inr => exact grows.heard _ ho.right

theorem Op.Sound.handle {conn : Nat} (hm : m ∈ s.heard) : ∀ o ∈ handle conn m, o.Sound s := by
  unfold E2E.handle
  split
  case h_1 ht =>
    have asked : opens m.sid s.heard ≠ [] :=
      List.ne_nil_of_mem (List.mem_filter.mpr ⟨hm, by simp [ht]⟩)
    simpa [Op.Sound] using asked
  all_goals simp [Op.Sound, Op.pty?]

theorem Op.Sound.plain (ho : op.Sound s) (hp : op.pty? = some p) : s.Plain p := by
  cases op
  case sendOut =>
    cases hp
    exact ho.left
  all_goals first | contradiction | exact ho p hp

theorem Op.Sound.page (h : o.isPage) : o.Sound s := by
  cases o <;> first | contradiction | simp [Op.Sound, Op.pty?]

theorem Op.Sound.exec (ho : op.Sound s) (h : s.Sound) (e : s.exec op i = some (s', ops)) :
    ∀ o ∈ ops, o.Sound s' := by
  have grows := Enrolled.Grows.exec e
  obtain ⟨σ, executed, rfl, -⟩ := Enrolled.of_exec e
  replace executed := Exec.of executed
  cases executed
  case read conn m =>
    exact List.forall_mem_append.mpr ⟨.handle (by simp [Enrolled.tell, Op.heard]), by simp [Op.Sound, Op.pty?]⟩
  case newSid => exact List.forall_mem_singleton.mpr (grows.heard _ ho)
  case authenticated hc =>
    cases cmdline_plain.symm.trans hc
    exact List.forall_mem_singleton.mpr ⟨rfl, grows.heard _ ho⟩
  case rejected hc => cases cmdline_plain.symm.trans hc
  case notSpawned =>
    have answers : s.Answers { t := "exit", sid := _, code := some 127 } := ⟨.inr rfl, ho.right⟩
    exact List.forall_mem_singleton.mpr (answers.mono grows)
  case spawned hp =>
    subst hp
    refine List.forall_mem_singleton.mpr fun p hp => ?_
    cases hp
    exact ⟨ho.left, by simp [Enrolled.ran, Enrolled.tell, State.record]⟩
  case found hp =>
    refine List.forall_mem_singleton.mpr fun p hp => ?_
    cases hp
    exact (h.found ‹_›).mono grows
  case tampered hk _ => cases (ho.plain rfl).enc.symm.trans hk
  case sealedOut hk _ => cases (ho.plain rfl).enc.symm.trans hk
  case encoded p _ _ _ => exact List.forall_mem_singleton.mpr ⟨(ho.plain rfl).mono grows, rfl, rfl⟩
  case exited p _ ended =>
    have plain : s.Plain p := ho.plain rfl
    have answers : s.Answers { t := "exit", sid := p.sid, code := some ended.code } :=
      ⟨.inr rfl, h.ran _ plain.ran⟩
    exact List.forall_mem_cons.mpr ⟨fun _ hp => Option.some.inj hp ▸ plain.mono grows,
      List.forall_mem_singleton.mpr (answers.mono grows)⟩
  case page hp => exact fun o hm => .page (hp o hm)
  all_goals simp [Op.Sound, Op.pty?]
  all_goals exact (ho.plain rfl).mono grows

theorem sound_reachable (h : enrolled.system.Reachable c) :
    c.shared.Sound ∧ ∀ o, c.Pending o → o.Sound c.shared := by
  refine section_invariant (P := enrolled) (I := Enrolled.Sound) (A := fun s o => o.Sound s)
    (R := Enrolled.Grows) ?_ ?_ ?_ ?_ h
  case refine_1 =>
    rintro s rfl
    exact ⟨by simp, by simp, by simp, by simp [Enrolled.ran]⟩
  case refine_2 => exact fun _ _ _ _ hs e => hs.start e
  case refine_3 =>
    intro c t i op rest s' ops hr _ head hs ho e
    exact ⟨hs.exec ho e, .exec e, ho.exec hs e⟩
  case refine_4 => exact fun _ _ _ _ hg ho => ho.mono hg

-- What was run and given so far was asked for by these frames.
structure Enrolled.Caught (s : Enrolled) (ms : List Msg) : Prop where
  ran   : ∀ sid, (s.ran sid).Sublist ((opens sid ms).map (utf8 ·.cmd))
  given : ∀ sid, (s.given sid).Sublist ((ins sid ms).filterMap (Base64.decode ·.data))

-- The sections that run a shell or give it something, with those that lead to them.
def Op.Handles (m : Msg) : Op Unit → Prop
  | .openPty _ m' | .openCmd _ m' => m' = m ∧ m.t = "open"
  | .spawn _ sid _ line           => m.t = "open" ∧ m.sid = sid ∧ line = utf8 m.cmd
  | .lookup _ m'                  => m' = m ∧ m.t = "in"
  | .write p data                 => m.t = "in" ∧ m.sid = p.sid ∧ data = m.data
  | _                             => False

def Op.loops : Op Unit → Bool
  | .hello _ _ | .helloOk _ | .readJSON _ => true
  | _                                     => false

def Op.quiet : Op Unit → Bool
  | .hello _ _ | .helloOk _ | .readJSON _ | .openPty _ _ | .openCmd _ _ | .spawn _ _ _ _ | .lookup _ _
  | .write _ _ => false
  | _          => true

-- Where the thread of the session is. It handles one frame after the other.
inductive Loop (s : Enrolled) : List (Op Unit) → Prop
  | reading (ops tail : List (Op Unit)) (caught : s.Caught s.heard) (quiet : ∀ o ∈ ops, o.quiet)
    (short : tail.length ≤ 1) (loops : ∀ o ∈ tail, o.loops) : Loop s (ops ++ tail)
  | handling {op m ms tail} (heard : s.heard = ms ++ [m]) (caught : s.Caught ms) (handles : op.Handles m)
    (short : tail.length ≤ 1) (loops : ∀ o ∈ tail, o.loops) : Loop s (op :: tail)

namespace Enrolled

theorem Caught.same (h : s.Caught ms) (hr : ∀ sid, s'.ran sid = s.ran sid)
    (hg : ∀ sid, s'.given sid = s.given sid) : s'.Caught ms :=
  ⟨fun sid => hr sid ▸ h.ran sid, fun sid => hg sid ▸ h.given sid⟩

theorem Caught.append (h : s.Caught ms) : s.Caught (ms ++ ms') where
  ran sid := by
    rw [opens_append, List.map_append]
    exact (h.ran sid).trans (List.sublist_append_left ..)
  given sid := by
    rw [ins, List.filter_append, List.filterMap_append]
    exact (h.given sid).trans (List.sublist_append_left ..)

theorem ran_same (e : s.exec op i = some (s', ops)) (h : ∀ conn sid enc line, op ≠ .spawn conn sid enc line)
    (sid : String) : s'.ran sid = s.ran sid :=
  (ran_exec e sid).resolve_right fun ⟨_, _, _, hs, _⟩ => h _ _ _ _ hs

theorem given_same (e : s.exec op i = some (s', ops)) (h : ∀ p data, op ≠ .write p data) (sid : String) :
    s'.given sid = s.given sid :=
  (given_exec e sid).resolve_right fun ⟨_, _, _, hs, _⟩ => h _ _ hs

theorem heard_exec (e : s.exec op i = some (s', ops)) : s'.heard = s.heard ++ (op.heard i).toList := by
  obtain ⟨σ, -, rfl, -⟩ := of_exec e
  rfl

end Enrolled

theorem Op.heard_eq_none (h : ¬op.loops) : op.heard i = none := by
  cases op <;> first | rfl | exact absurd rfl h

theorem Op.quiet_of_page (h : o.isPage) : o.quiet := by
  cases o <;> first | rfl | contradiction

-- A quiet section leads to quiet ones, and the history of the session stays as it is.
theorem Op.quiet_exec (hq : op.quiet) (e : s.exec op i = some (s', ops)) :
    (∀ o ∈ ops, o.quiet) ∧ s'.heard = s.heard ∧ (∀ sid, s'.ran sid = s.ran sid) ∧
      ∀ sid, s'.given sid = s.given sid := by
  have other : ¬op.loops := fun h => by cases op <;> contradiction
  refine ⟨?_, by simp [Enrolled.heard_exec e, Op.heard_eq_none other],
    Enrolled.ran_same e fun _ _ _ _ h => by cases h; contradiction,
    Enrolled.given_same e fun _ _ h => by cases h; contradiction⟩
  obtain ⟨σ, executed, -, -⟩ := Enrolled.of_exec e
  replace executed := Exec.of executed
  cases executed
  case page hp => exact fun o hm => Op.quiet_of_page (hp o hm)
  all_goals first | contradiction | simp [Op.quiet]

theorem Loop.same (h : Loop s ops) (heard : s'.heard = s.heard) (hr : ∀ sid, s'.ran sid = s.ran sid)
    (hg : ∀ sid, s'.given sid = s.given sid) : Loop s' ops := by
  cases h
  case reading caught quiet short loops => exact .reading _ _ (heard ▸ caught.same hr hg) quiet short loops
  case handling hh caught handles short loops =>
    exact .handling (heard.trans hh) (caught.same hr hg) handles short loops

theorem Loop.caught (h : Loop s ops) : s.Caught s.heard := by
  cases h
  case reading caught _ _ _              => exact caught
  case handling heard caught _ _ _       => exact heard ▸ caught.append

-- A frame is handled, and then the next one is read.
theorem Loop.loops {conn : Nat} (heard : s.heard = ms ++ [m]) (caught : s.Caught ms) :
    Loop s (E2E.handle conn m ++ [.readJSON conn]) := by
  have whole : s.Caught s.heard := heard ▸ caught.append
  unfold E2E.handle
  split
  case h_1 ht => exact .handling heard caught ⟨rfl, ht⟩ (by simp) (by simp [Op.loops])
  case h_2 ht => exact .handling heard caught ⟨rfl, ht⟩ (by simp) (by simp [Op.loops])
  case h_3 | h_4 =>
    exact .reading [_] _ whole (by simp [Op.quiet]) (by simp) (by simp [Op.loops])
  case h_5 => exact .reading [] _ whole (by simp) (by simp) (by simp [Op.loops])

-- What a section runs or gives, its frame asked for.
theorem Op.Handles.caught (handles : op.Handles m) (ho : op.Sound s) (h : s.Caught ms)
    (e : s.exec op i = some (s', ops)) : s'.Caught (ms ++ [m]) := by
  constructor
  case ran =>
    intro sid
    obtain same | ⟨_, _, line, rfl, more⟩ := Enrolled.ran_exec e sid
    case inl => exact same ▸ h.append.ran sid
    case inr =>
      have ⟨ht, hs, hl⟩ := handles
      rw [more, opens_append, opens_self ht hs, List.map_append, hl]
      exact (h.ran sid).append (List.Sublist.refl _)
  case given =>
    intro sid
    obtain same | ⟨p, data, b, rfl, rfl, more, decoded⟩ := Enrolled.given_exec e sid
    case inl => exact same ▸ h.append.given sid
    case inr =>
      obtain ⟨ht, hs, rfl⟩ := handles
      have hb := decoded (ho.plain rfl).enc
      have typed : (ins p.sid [m]).filterMap (Base64.decode ·.data) = [b] := by simp [ins, ht, hs, hb]
      rw [more, ins, List.filter_append, List.filterMap_append]
      exact (h.given p.sid).append (typed ▸ List.Sublist.refl _)

theorem Loop.exec (named : s.agent.Named) (ho : op.Sound s) (h : Loop s (op :: rest))
    (e : s.exec op i = some (s', ops)) : Loop s' (ops ++ rest) := by
  generalize hl : op :: rest = whole at h
  cases h
  case reading ops₁ tail caught quiet short loops =>
    cases ops₁
    case cons o ops₁ =>
      obtain ⟨rfl, hr⟩ := List.cons.inj hl
      have ⟨hq, hqs⟩ := List.forall_mem_cons.mp quiet
      have ⟨next, heard, ran, given⟩ := Op.quiet_exec hq e
      rw [show rest = ops₁ ++ tail from hr, ← List.append_assoc]
      exact .reading _ _ (heard ▸ caught.same ran given) (List.forall_mem_append.mpr ⟨next, hqs⟩) short loops
    case nil =>
      subst hl
      have hop := loops op List.mem_cons_self
      obtain rfl : rest = [] := List.eq_nil_of_length_eq_zero (by simpa using short)
      have ran := Enrolled.ran_same e fun _ _ _ _ h => by cases h; contradiction
      have given := Enrolled.given_same e fun _ _ h => by cases h; contradiction
      have heard := Enrolled.heard_exec e
      have more : s'.Caught s'.heard := heard ▸ (caught.same ran given).append
      have next {o : Op Unit} (ho : o.loops) : Loop s' ([o] ++ []) :=
        .reading [] _ more (by simp) (by simp) (by simpa using ho)
      have ended : Loop s' ([] ++ []) := .reading [] [] more (by simp) (by simp) (by simp)
      obtain ⟨σ, executed, -, -⟩ := Enrolled.of_exec e
      replace executed := Exec.of executed
      cases executed
      case helloSent => exact next rfl
      case connected => exact next rfl
      case read conn m =>
        rw [List.append_nil]
        exact Loop.loops heard (caught.same ran given)
      case lost => exact .reading [_] _ more (by simp [Op.quiet]) (by simp) (by simp)
      case page hp => exact .reading _ [] more (fun o hm => Op.quiet_of_page (hp o hm)) (by simp) (by simp)
      all_goals first | exact ended | contradiction
  case handling op' m ms tail heard caught handles short loops =>
    obtain ⟨rfl, rfl⟩ := List.cons.inj hl
    have same : s'.heard = ms ++ [m] := by
      have other : ¬op.loops := fun h => by cases op <;> contradiction
      simp [Enrolled.heard_exec e, Op.heard_eq_none other, heard]
    -- The next section of the same frame.
    have next {o : Op Unit} (run : ∀ conn sid enc line, op ≠ .spawn conn sid enc line)
        (give : ∀ p data, op ≠ .write p data) (ho : o.Handles m) : Loop s' ([o] ++ rest) :=
      .handling same (caught.same (Enrolled.ran_same e run) (Enrolled.given_same e give)) ho short loops
    have ended (hq : ∀ o ∈ ops, o.quiet) : Loop s' (ops ++ rest) :=
      .reading _ _ (same ▸ handles.caught ho caught e) hq short loops
    have found {p : Pty Unit} {conn : Nat} {sid : String} (hp : (s.agent.ptys conn).get? sid = some p) :
        p.sid = sid := named conn sid p hp
    have plain {p : Pty Unit} (hp : op.pty? = some p) : p.enc = none := (ho.plain hp).enc
    obtain ⟨σ, executed, -, -⟩ := Enrolled.of_exec e
    replace executed := Exec.of executed
    cases executed
    case newSid => exact next (by simp) (by simp) handles
    case authenticated hc =>
      cases cmdline_plain.symm.trans hc
      obtain ⟨rfl, ht⟩ := handles
      exact next (by simp) (by simp) ⟨ht, rfl, rfl⟩
    case found hp =>
      obtain ⟨rfl, ht⟩ := handles
      exact next (by simp) (by simp) ⟨ht, (found hp).symm, rfl⟩
    case tampered hk _ => cases (plain rfl).symm.trans hk
    case page hp => exact ended fun o hm => Op.quiet_of_page (hp o hm)
    all_goals first | contradiction | exact ended (by simp [Op.quiet])

-- One thread is that of the session, and the others read nothing.
inductive Reading (c : Config Enrolled (Op Unit)) : Prop
  | fresh (shared : c.shared = {}) (idle : ∀ t, c.procs t = [])
  | begun (t₀ : Tid) (started : 0 < c.shared.agent.next) (loop : Loop c.shared (c.procs t₀))
    (quiet : ∀ t ≠ t₀, ∀ o ∈ c.procs t, o.quiet)

theorem Reading.start (h : Reading c) (e : c.shared.start r = some (s', ops)) :
    Reading (c.resume t s' ops) := by
  obtain ⟨none, rfl, m, rfl⟩ | ⟨p, hp, rfl, rfl⟩ := Enrolled.start_cases e
  case inl =>
    cases h
    case begun started _ _ => exact absurd none (Nat.pos_iff_ne_zero.mp started)
    case fresh shared idle =>
      refine .begun t Nat.one_pos ?_ fun t' ht => by simp [ht, idle]
      have caught : Enrolled.Caught { c.shared with agent := { c.shared.agent with next := 1 } } [] := by
        rw [shared]
        exact ⟨by simp [Enrolled.ran], by simp [Enrolled.given, State.writes]⟩
      simpa using Loop.reading [] [.hello 0 m] (by simpa [shared] using caught) (by simp)
        (by simp) (by simp [Op.loops])
  case inr =>
    cases h
    case fresh shared _ => simp [shared] at hp
    case begun t₀ started loop quiet =>
      let σ := { c.shared.agent with pumps := c.shared.agent.pumps.erase p }
      have keep {ops : List (Op Unit)} (hl : Loop c.shared ops) : Loop { c.shared with agent := σ } ops :=
        hl.same rfl (fun _ => rfl) fun _ => rfl
      refine .begun t₀ started ?_ fun t' ht o ho => ?_
      case refine_1 =>
        rw [Config.resume_procs]
        split
        case isFalse => exact keep loop
        case isTrue =>
          exact .reading [_] [] (keep loop).caught (by simp [Op.quiet]) (by simp) (by simp)
      case refine_2 =>
        rw [Config.resume_procs] at ho
        split at ho
        case isFalse => exact quiet t' ht o ho
        case isTrue  => exact List.mem_singleton.mp ho ▸ rfl

theorem Reading.exec (h : Reading c) (named : c.shared.agent.Named) (ho : op.Sound c.shared)
    (head : c.procs t = op :: rest) (e : c.shared.exec op i = some (s', ops)) :
    Reading (c.resume t s' (ops ++ rest)) := by
  cases h
  case fresh idle => simp [idle t] at head
  case begun t₀ started loop quiet =>
    have started' : 0 < s'.agent.next := by
      obtain ⟨σ, executed, rfl, -⟩ := Enrolled.of_exec e
      exact Nat.lt_of_lt_of_le started (Exec.of executed).next_le
    refine .begun t₀ started' ?_ fun t' ht o hm => ?_
    case refine_1 =>
      rw [Config.resume_procs]
      split
      case isTrue same =>
        subst same
        exact Loop.exec named ho (head ▸ loop) e
      case isFalse other =>
        have hq : op.quiet := quiet t (Ne.symm other) op (head ▸ List.mem_cons_self)
        have ⟨_, heard, ran, given⟩ := Op.quiet_exec hq e
        exact loop.same heard ran given
    case refine_2 =>
      rw [Config.resume_procs] at hm
      split at hm
      case isFalse => exact quiet t' ht o hm
      case isTrue same =>
        subst same
        have ⟨hq, hqs⟩ := List.forall_mem_cons.mp (head ▸ quiet _ ht)
        rcases List.mem_append.mp hm with hm | hm
        case inl => exact (Op.quiet_exec hq e).left o hm
        case inr => exact hqs o hm

theorem caught_reachable (h : enrolled.system.Reachable c) : c.shared.Caught c.shared.heard := by
  have reading : Reading c := by
    refine h.invariant (I := Reading) (fun c hi => .fresh hi.left hi.right) fun c l c' hr hi _ e => ?_
    replace e := Step.of e
    cases e
    case start e => exact hi.start e
    case step head e =>
      exact hi.exec (named_reachable (agent_reachable hr))
        ((sound_reachable hr).right _ ⟨_, head ▸ List.mem_cons_self⟩) head e
  cases reading
  case begun loop _ => exact loop.caught
  case fresh shared _ =>
    rw [shared]
    exact ⟨by simp [Enrolled.ran], by simp [Enrolled.given, State.writes]⟩

-- What the websocket took of the frames that it was given.

theorem Enrolled.sents_exec (e : s.exec op i = some (s', ops)) : s.sents <+: s'.sents := by
  obtain ⟨σ, -, rfl, -⟩ := of_exec e
  exact List.prefix_append ..

structure Enrolled.InOrder (s : Enrolled) : Prop where
  sents : s.sents <+: s.tried
  whole : s.lost = false → s.sents = s.tried

theorem Enrolled.InOrder.exec (h : s.InOrder) (e : s.exec op i = some (s', ops)) : s'.InOrder := by
  obtain ⟨σ, -, rfl, ok⟩ := of_exec e
  cases hg : op.gives
  case none =>
    constructor
    case sents => simpa [tell, hg] using h.sents
    case whole => simpa [tell, hg] using h.whole
  case some m =>
    cases hi : i.sent
    case false =>
      constructor
      case sents => simpa [tell, hg, hi] using h.sents.trans (List.prefix_append ..)
      case whole => simp [tell, hg, hi]
    case true =>
      have same := h.whole (by simpa [hg, hi] using ok)
      constructor
      case sents => simp [tell, hg, hi, same]
      case whole => simp [tell, hg, hi, same]

theorem inOrder_reachable (h : enrolled.system.Reachable c) : c.shared.InOrder := by
  refine h.invariant (I := fun c => c.shared.InOrder) ?_ fun c l c' _ hi _ e => ?_
  case refine_1 =>
    intro c hi
    have ⟨shared, _⟩ := hi
    replace shared : c.shared = {} := shared
    exact ⟨by simp [shared], by simp [shared]⟩
  case refine_2 =>
    replace e := Step.of e
    cases e
    case start e =>
      obtain ⟨σ, _, rfl, _⟩ := Enrolled.of_start e
      exact { hi with }
    case step e => exact hi.exec e

theorem heard_observed (h : enrolled.system.Observed (fun c l => (heard c l).toList) ms c) :
    c.shared.heard = ms := by
  refine h.invariant (I := fun ms c => c.shared.heard = ms) ?_ fun ms c l c' _ hi e => ?_
  case refine_1 =>
    intro c hi
    have ⟨shared, _⟩ := hi
    replace shared : c.shared = {} := shared
    rw [shared]
  case refine_2 =>
    replace e := Step.of e
    cases e
    case start e =>
      obtain ⟨σ, _, rfl, _⟩ := Enrolled.of_start e
      simpa [heard] using hi
    case step head e => simp [heard, head, Enrolled.heard_exec e, hi]

end E2E
