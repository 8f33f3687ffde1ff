import Popfleet.E2E.Theorems.Enrolled

open Proto Program V1e
open Deployment (View Life opens ins opens_append opens_self opens_other)

namespace E2E

variable {σ σ' : State Unit} {s s' : Enrolled} {op o : Op Unit} {i : Input} {ops rest : List (Op Unit)}
  {r : Req Unit} {p : Pty Unit} {m f : Msg} {sid : String} {c c' : Config Enrolled (Op Unit)} {t : Tid}
  {l : Label (Req Unit) Input} {ms ms' : List Msg}

-- The session of a sid. Whether its PTY lives and what is in the buffer of `pump` is known where a section
-- of it is pending.
def Enrolled.view (s : Enrolled) (sid : String) (alive : Bool) (buf : Bytes) : View where
  alive   := alive
  buf     := buf
  queued  := s.tried.filter (·.sid = sid)
  ran     := s.ran sid
  printed := s.printed sid
  given   := s.given sid
  codes   := s.codes sid

-- The section is one that leads a session of the sid on.
def Op.holds (sid : String) : Op Unit → Bool
  | .openPty _ m | .openCmd _ m | .send _ m => m.sid = sid
  | .spawn _ sid' _ _ => sid' = sid
  | .insert p | .goPump p | .pump p _ _ | .flush p _ _ | .sendOut p _ _ | .wait p => p.sid = sid
  | _ => false

-- The exits of the shells of a sid. The broker is told of each one.
def Enrolled.ends (s : Enrolled) (sid : String) : List Bool :=
  (s.codes sid).map fun _ => true

-- Its life, with what a section knows of its PTY.
def Enrolled.Lives (s : Enrolled) (sid : String) (alive : Bool) (buf : Bytes) : Prop :=
  Life sid (opens sid s.heard) (s.ends sid) (s.view sid alive buf)

-- Where such a section is pending, the output of the shell is at its end, or could not be sent.
def Op.drained (s : Enrolled) (sid : String) : Op Unit → Bool
  | .flush _ _ last | .sendOut _ _ last => last
  | .wait _   => true
  | .send _ _ => !(s.codes sid).isEmpty
  | _         => false

-- What is known of a session where such a section is pending.
def Op.Amid (s : Enrolled) (sid : String) : Op Unit → Prop
  | .openPty _ m | .openCmd _ m => opens sid s.heard = [m] ∧ s.view sid false [] = {}
  | .spawn _ _ _ line =>
    (∃ m, opens sid s.heard = [m] ∧ line = utf8 m.cmd) ∧ s.view sid false [] = {}
  | .insert _ | .goPump _ | .wait _ => s.Lives sid true []
  | .pump _ buf _ | .flush _ buf _ => s.Lives sid true buf
  | .sendOut _ m _ =>
    ∃ buf ≠ [], m = { t := "out", sid, data := Base64.encode buf } ∧ s.Lives sid true buf
  | .send _ f =>
    let v := s.view sid false []
    Life sid (opens sid s.heard) (s.ends sid) { v with queued := v.queued ++ [f] }
  | _ => True

structure Op.At (s : Enrolled) (sid : String) (o : Op Unit) : Prop where
  amid    : o.Amid s sid
  drained : s.drained sid = o.drained s sid

-- What is known of a session that no section leads on. It has no PTY that lives, and the PTY that it had
-- has printed all its output, or could not send it.
structure Enrolled.Rests (s : Enrolled) (sid : String) : Prop where
  life    : s.Lives sid false []
  drained : s.drained sid = !(s.codes sid).isEmpty

-- A sid that was opened once has one session, and one section leads it on, or its goroutine did not start
-- yet, or nothing of it is left to do.
structure Once (sid : String) (c : Config Enrolled (Op Unit)) : Prop where
  single : c.Unique (Op.holds sid)
  pumps  : c.shared.agent.pumps.countP (·.sid = sid) ≤ 1
  apart  : ∀ p ∈ c.shared.agent.pumps, p.sid = sid → ∀ o, c.Pending o → ¬o.holds sid
  waits  : ∀ p ∈ c.shared.agent.pumps, p.sid = sid → (Op.goPump p).At c.shared sid
  here   : ∀ o, c.Pending o → o.holds sid → o.At c.shared sid
  rests  : (∀ o, c.Pending o → ¬o.holds sid) → (∀ p ∈ c.shared.agent.pumps, ¬p.sid = sid) →
    c.shared.Rests sid

-- A step that is not about the sid may only give its PTY something.
structure Enrolled.Spares (s s' : Enrolled) (sid : String) : Prop where
  heard   : opens sid s'.heard = opens sid s.heard
  drained : s'.drained sid = s.drained sid
  view    : ∃ given, (∀ alive buf, s'.view sid alive buf = { s.view sid alive buf with given }) ∧
    (given = s.given sid ∨ s.ran sid ≠ [])

theorem Enrolled.Spares.codes (h : s.Spares s' sid) : s'.codes sid = s.codes sid :=
  have ⟨_, view, _⟩ := h.view
  congrArg View.codes (view false [])

theorem Enrolled.Spares.ends (h : s.Spares s' sid) : s'.ends sid = s.ends sid :=
  congrArg (List.map fun _ => true) h.codes

theorem Enrolled.Spares.life {alive : Bool} {buf : Bytes} (h : s.Spares s' sid)
    (hl : s.Lives sid alive buf) : s'.Lives sid alive buf := by
  obtain ⟨given, view, same | ran⟩ := h.view
  all_goals rw [Enrolled.Lives, h.heard, h.ends, view]
  case inl => exact same ▸ hl
  case inr => exact hl.give ran

theorem Enrolled.Spares.rests (h : s.Spares s' sid) (hr : s.Rests sid) : s'.Rests sid where
  life    := h.life hr.life
  drained := by rw [h.drained, h.codes, hr.drained]

theorem Op.At.spare (ho : o.At s sid) (h : s.Spares s' sid) : o.At s' sid := by
  have fresh (empty : s.view sid false [] = {}) : s'.view sid false [] = {} := by
    obtain ⟨given, view, same | ran⟩ := h.view
    case inl =>
      subst same
      exact (view false []).trans empty
    case inr => exact absurd (congrArg View.ran empty) ran
  have drained : o.drained s' sid = o.drained s sid := by
    cases o <;> simp [Op.drained, h.codes]
  refine ⟨?_, by rw [h.drained, ho.drained, drained]⟩
  replace ho := ho.amid
  cases o
  case openPty | openCmd => exact ⟨h.heard.trans ho.left, fresh ho.right⟩
  case spawn => exact ⟨h.heard ▸ ho.left, fresh ho.right⟩
  case insert | goPump | wait | pump | flush => exact h.life ho
  case sendOut =>
    have ⟨buf, full, hm, life⟩ := ho
    exact ⟨buf, full, hm, h.life life⟩
  case send f =>
    obtain ⟨given, view, same | ran⟩ := h.view
    all_goals simp only [Op.Amid, h.heard, h.ends, view]
    case inl => exact same ▸ ho
    case inr => exact Life.give ran ho
  all_goals trivial

theorem Op.At.opened (ho : o.At s sid) (hh : o.holds sid) : opens sid s.heard ≠ [] := by
  intro none
  have dead {alive : Bool} {buf : Bytes} (life : s.Lives sid alive buf) : alive = false := by
    rw [Enrolled.Lives, none] at life
    exact congrArg View.alive life.idle_of_nil.right
  replace ho := ho.amid
  cases o
  case openPty | openCmd =>
    obtain ⟨asked, _⟩ := ho
    simp [none] at asked
  case spawn =>
    obtain ⟨⟨_, asked, _⟩, _⟩ := ho
    simp [none] at asked
  case insert | goPump | wait | pump | flush => cases dead ho
  case sendOut =>
    have ⟨_, _, _, life⟩ := ho
    cases dead life
  case send =>
    simp only [Op.Amid, none] at ho
    have queued := congrArg View.queued (Life.idle_of_nil ho).right
    simp at queued
  all_goals contradiction

-- What a section does to the view of a sid.
theorem Enrolled.view_exec (e : s.exec op i = some (s', ops)) (alive : Bool) (buf : Bytes) :
    s'.view sid alive buf =
      { s.view sid alive buf with
        queued  := (s.view sid alive buf).queued ++ op.gives.toList.filter (·.sid = sid)
        ran     := s'.ran sid
        printed := (s.view sid alive buf).printed ++ op.read sid i
        given   := s'.given sid
        codes   := (s.view sid alive buf).codes ++ op.exited sid i } := by
  obtain ⟨σ, -, rfl, -⟩ := of_exec e
  simp [view, tell]

theorem Enrolled.drained_exec (sid : String) (e : s.exec op i = some (s', ops)) :
    s'.drained sid = (s.drained sid || op.drains sid i) := by
  obtain ⟨σ, -, rfl, -⟩ := of_exec e
  rfl

theorem Enrolled.ends_exec (sid : String) (e : s.exec op i = some (s', ops)) :
    s'.ends sid = s.ends sid ++ (op.exited sid i).map fun _ => true := by
  obtain ⟨σ, -, rfl, -⟩ := of_exec e
  simp [ends, tell]

theorem Enrolled.Spares.exec (ho : op.Sound s) (hh : ¬op.holds sid)
    (heard : opens sid (op.heard i).toList = []) (e : s.exec op i = some (s', ops)) : s.Spares s' sid := by
  constructor
  case heard => rw [heard_exec e, opens_append, heard, List.append_nil]
  case drained =>
    have drains : op.drains sid i = false := by
      cases op <;> cases i <;> first | rfl | simpa [Op.drains, Op.holds] using hh
    rw [drained_exec sid e, drains, Bool.or_false]
  case view =>
    refine ⟨s'.given sid, fun alive buf => ?_, ?_⟩
    case refine_1 =>
      have gives : op.gives.toList.filter (·.sid = sid) = [] := by
        cases op
        case send => simpa [Op.gives, Op.holds] using hh
        case sendOut => simpa [Op.gives, ho.right.right, Op.holds] using hh
        all_goals rfl
      have read : op.read sid i = [] := by
        cases op <;> cases i <;> first | rfl | exact if_neg (by simpa [Op.holds] using hh)
      have exited : op.exited sid i = [] := by
        cases op <;> cases i <;> first | rfl | exact if_neg (by simpa [Op.holds] using hh)
      have ran : s'.ran sid = s.ran sid := by
        refine (ran_exec e sid).resolve_right ?_
        rintro ⟨_, _, _, rfl, _⟩
        simp [Op.holds] at hh
      rw [view_exec e]
      simp [gives, read, exited, ran, Enrolled.view]
    case refine_2 =>
      refine (given_exec e sid).imp_right ?_
      rintro ⟨p, _, _, rfl, rfl, _⟩
      exact (ho.plain rfl).ran

-- A section of another sid leads to none of this one, where it does not read its open frame.
theorem Op.not_holds_exec (ho : op.Sound s) (hh : ¬op.holds sid)
    (heard : opens sid (op.heard i).toList = []) (e : s.exec op i = some (s', ops)) : ∀ o ∈ ops, ¬o.holds sid := by
  obtain ⟨σ, executed, -, -⟩ := Enrolled.of_exec e
  replace executed := Exec.of executed
  cases executed
  case read conn m =>
    refine List.forall_mem_append.mpr ⟨?_, by simp [Op.holds]⟩
    unfold handle
    split
    case h_1 ht =>
      refine List.forall_mem_singleton.mpr fun hs => ?_
      have asked : opens sid (Op.heard (.readJSON conn) (.frame m)).toList = [m] :=
        opens_self ht (of_decide_eq_true hs)
      cases asked.symm.trans heard
    all_goals simp [Op.holds]
  case page hp =>
    intro o hm
    have page := hp o hm
    cases o <;> first | contradiction | simp [Op.holds]
  case rejected hc => cases cmdline_plain.symm.trans hc
  case tampered hk _ => cases (ho.plain rfl).enc.symm.trans hk
  case spawned hp =>
    subst hp
    simpa [Op.holds] using hh
  case exited => simpa [Op.holds] using hh
  all_goals first | (simp [Op.holds]; done) | simpa [Op.holds] using hh

theorem Exec.pumps_of_not (e : Exec (fun _ _ => ()) [] σ op i σ' ops) (h : ∀ p, op ≠ .goPump p) :
    σ'.pumps = σ.pumps := by
  obtain ⟨same, _⟩ | ⟨p, rfl, _⟩ | ⟨_, _, _, _, same, _⟩ := e.pumps
  case inl     => exact same
  case inr.inl => exact absurd rfl (h p)
  case inr.inr => exact same

-- A section of the session that only goes on to the next one.
theorem Enrolled.Spares.lead (hs : ∀ conn sid enc line, op ≠ .spawn conn sid enc line)
    (hw : ∀ p data, op ≠ .write p data) (hl : ¬op.loops) (gives : op.gives = none)
    (read : op.read sid i = []) (drains : op.drains sid i = false) (exited : op.exited sid i = [])
    (e : s.exec op i = some (s', ops)) : s.Spares s' sid where
  heard   := by simp [heard_exec e, Op.heard_eq_none hl]
  drained := by rw [drained_exec sid e, drains, Bool.or_false]
  view    := by
    refine ⟨s.given sid, fun alive buf => ?_, .inl rfl⟩
    rw [view_exec e, ran_same e hs, given_same e hw]
    simp [gives, read, exited, Enrolled.view]

-- Nothing was done for the sid yet.
theorem Enrolled.Rests.of_empty (empty : s.view sid false [] = {}) (drained : s.drained sid = false) :
    s.Rests sid := by
  have codes : s.codes sid = [] := congrArg View.codes empty
  have ends : s.ends sid = [] := by simp [ends, codes]
  exact ⟨by rw [Lives, ends, empty]; exact .idle, by simp [drained, codes]⟩

namespace Once

-- A step that is not about the sid.
theorem spare (h : Once sid c) (spares : c.shared.Spares c'.shared sid) (single : c'.Unique (Op.holds sid))
    (pending : ∀ o, o.holds sid → (c'.Pending o ↔ c.Pending o))
    (pumps : c'.shared.agent.pumps.filter (·.sid = sid) = c.shared.agent.pumps.filter (·.sid = sid)) :
    Once sid c' := by
  have same {p : Pty Unit} (hs : p.sid = sid) :
      p ∈ c'.shared.agent.pumps ↔ p ∈ c.shared.agent.pumps := by
    have mem := congrArg (p ∈ ·) pumps
    simpa [hs] using mem
  constructor
  case single => exact single
  case pumps => simpa only [List.countP_eq_length_filter, pumps] using h.pumps
  case apart => exact fun p hp hs o hm hh => h.apart p ((same hs).mp hp) hs o ((pending o hh).mp hm) hh
  case waits => exact fun p hp hs => (h.waits p ((same hs).mp hp) hs).spare spares
  case here  => exact fun o hm hh => (h.here o ((pending o hh).mp hm) hh).spare spares
  case rests =>
    intro idle none
    refine spares.rests (h.rests (fun o hm hh => ?_) fun p hp hs => ?_)
    case refine_1 => exact idle o ((pending o hh).mpr hm) hh
    case refine_2 => exact none p ((same hs).mpr hp) hs

-- A step of the section that leads the session on.
theorem next (h : Once sid c) (head : c.procs t = op :: rest) (hop : op.holds sid)
    (one : ops.countP (Op.holds sid) ≤ 1) (pumps : s'.agent.pumps = c.shared.agent.pumps)
    (here : ∀ o ∈ ops, o.holds sid → o.At s' sid)
    (rests : (∀ o ∈ ops, ¬o.holds sid) → s'.Rests sid) :
    Once sid (c.resume t s' (ops ++ rest)) := by
  have none : ∀ p ∈ s'.agent.pumps, ¬p.sid = sid :=
    fun p hp hs => h.apart p (pumps ▸ hp) hs op ⟨t, head ▸ List.mem_cons_self⟩ hop
  constructor
  case single =>
    refine h.single.resume ?_
    rw [head, List.countP_append, List.countP_cons_of_pos hop]
    omega
  case pumps => exact pumps ▸ h.pumps
  case apart => exact fun p hp hs => absurd hs (none p hp)
  case waits => exact fun p hp hs => absurd hs (none p hp)
  case here =>
    rintro o ⟨t', hm⟩ hh
    exact here o (h.single.mem_of_head head hop hm hh) hh
  case rests =>
    exact fun idle _ => rests fun o hm => idle o (Config.pending_of_mem (List.mem_append_left _ hm))

-- The goroutine of the session starts.
theorem take {σ : State Unit} (h : Once sid c) (hp : p ∈ c.shared.agent.pumps) (hs : p.sid = sid)
    (hσ : σ = { c.shared.agent with pumps := c.shared.agent.pumps.erase p }) :
    Once sid (c.resume t { c.shared with agent := σ } [.pump p [] false]) := by
  subst hσ
  have erased := (List.perm_cons_erase hp).countP_eq (·.sid = sid)
  rw [List.countP_cons_of_pos (by simpa using hs)] at erased
  have none : ∀ q ∈ c.shared.agent.pumps.erase p, ¬q.sid = sid := by
    have empty : (c.shared.agent.pumps.erase p).countP (·.sid = sid) = 0 := by
      have one := h.pumps
      omega
    simpa using List.countP_eq_zero.mp empty
  constructor
  case single =>
    exact .resume_of_none (fun t o ho => h.apart p hp hs o ⟨t, ho⟩) (by simp [Op.holds, hs])
  case pumps => exact Nat.le_trans (Nat.le_of_lt (by rw [erased]; exact Nat.lt_succ_self _)) h.pumps
  case apart => exact fun q hq hs => absurd hs (none q hq)
  case waits => exact fun q hq hs => absurd hs (none q hq)
  case here =>
    intro o hm hh
    cases hm.of_resume
    case inl hm =>
      have waits := h.waits p hp hs
      rw [List.mem_singleton.mp hm]
      exact ⟨waits.amid, waits.drained⟩
    case inr hm => exact absurd hh (h.apart p hp hs o hm)
  case rests =>
    intro idle
    exact absurd (by simp [Op.holds, hs]) (idle _ (Config.pending_of_mem List.mem_cons_self))

-- The session has started its goroutine.
theorem go {σ : State Unit} (h : Once sid c) (head : c.procs t = .goPump p :: rest) (hs : p.sid = sid)
    (hσ : σ = { c.shared.agent with pumps := p :: c.shared.agent.pumps })
    (spares : c.shared.Spares s' sid) (agent : s'.agent = σ) :
    Once sid (c.resume t s' ([] ++ rest)) := by
  subst hσ
  have hop : (Op.goPump p).holds sid := by simpa [Op.holds] using hs
  have running : c.Pending (.goPump p) := ⟨t, head ▸ List.mem_cons_self⟩
  have none : ∀ q ∈ c.shared.agent.pumps, ¬q.sid = sid := fun q hq hs => h.apart q hq hs _ running hop
  have empty : c.shared.agent.pumps.countP (·.sid = sid) = 0 :=
    List.countP_eq_zero.mpr fun q hq => by simpa using none q hq
  have pumps : s'.agent.pumps = p :: c.shared.agent.pumps := by rw [agent]
  have gone {o : Op Unit} (hm : (c.resume t s' ([] ++ rest)).Pending o) : ¬o.holds sid := by
    have ⟨_, hm⟩ := hm
    exact h.single.none_of_head head hop (by simp) hm
  constructor
  case single => exact h.single.step head (by simp)
  case pumps =>
    rw [Config.resume_shared, pumps, List.countP_cons_of_pos (by simpa using hs), empty]
  case apart => exact fun _ _ _ o hm => gone hm
  case waits =>
    intro q hq hq'
    have here := (h.here _ running hop).spare spares
    exact ⟨here.amid, here.drained⟩
  case here => exact fun o hm hh => absurd hh (gone hm)
  case rests => exact fun _ none => absurd hs (none p (pumps ▸ List.mem_cons_self))

end Once

theorem Enrolled.view_lead (sid : String) (hs : ∀ conn sid enc line, op ≠ .spawn conn sid enc line)
    (hw : ∀ p data, op ≠ .write p data) (e : s.exec op i = some (s', ops)) (alive : Bool) (buf : Bytes) :
    s'.view sid alive buf =
      { s.view sid alive buf with
        queued  := (s.view sid alive buf).queued ++ op.gives.toList.filter (·.sid = sid)
        printed := (s.view sid alive buf).printed ++ op.read sid i
        codes   := (s.view sid alive buf).codes ++ op.exited sid i } := by
  rw [view_exec e, ran_same e hs, given_same e hw]
  rfl

theorem Enrolled.heard_lead (h : ¬op.loops) (e : s.exec op i = some (s', ops)) : s'.heard = s.heard := by
  simp [heard_exec e, Op.heard_eq_none h]

namespace Once

-- The one section leads to another one.
theorem on {o : Op Unit} (h : Once sid c) (head : c.procs t = op :: rest) (hop : op.holds sid)
    (pumps : s'.agent.pumps = c.shared.agent.pumps) (ho : o.holds sid) (amid : o.Amid s' sid)
    (drained : s'.drained sid = o.drained s' sid) : Once sid (c.resume t s' ([o] ++ rest)) :=
  h.next head hop List.countP_le_length pumps (List.forall_mem_singleton.mpr fun _ => ⟨amid, drained⟩)
    fun idle => absurd ho (idle o List.mem_cons_self)

-- A section of the session before it has a shell.
theorem ask (h : Once sid c) (head : c.procs t = op :: rest) (hop : op.holds sid)
    (ho : (∃ conn m, op = .openPty conn m) ∨ ∃ conn m, op = .openCmd conn m)
    (e : c.shared.exec op i = some (s', ops)) : Once sid (c.resume t s' (ops ++ rest)) := by
  have here : op.At c.shared sid := h.here op ⟨t, head ▸ List.mem_cons_self⟩ hop
  rcases ho with ⟨conn, m, rfl⟩ | ⟨conn, m, rfl⟩
  all_goals
    have spares : c.shared.Spares s' sid := .lead (by simp) (by simp) (by simp [Op.loops]) rfl rfl rfl rfl e
    obtain ⟨⟨asked, empty⟩, drained⟩ := here.spare spares
    obtain ⟨σ, executed, rfl, -⟩ := Enrolled.of_exec e
  case inl =>
    simp only [E2E.exec] at executed
    split at executed <;> cases executed
    case h_1 => exact h.next head hop (by simp) rfl (by simp) fun _ => .of_empty empty drained
    case h_2 => exact h.on head hop rfl hop ⟨asked, empty⟩ drained
  case inr =>
    simp only [E2E.exec, cmdline_plain] at executed
    cases executed
    exact h.on head hop rfl hop ⟨⟨m, asked, rfl⟩, empty⟩ drained

-- A shell is run, or the exit frame of none is sent.
theorem spawn {conn : Nat} {enc : Option Unit} {line : Bytes} (h : Once sid c)
    (head : c.procs t = .spawn conn sid enc line :: rest)
    (e : c.shared.exec (.spawn conn sid enc line) i = some (s', ops)) :
    Once sid (c.resume t s' (ops ++ rest)) := by
  have hop : (Op.spawn conn sid enc line).holds sid := by simp [Op.holds]
  obtain ⟨⟨⟨m, asked, rfl⟩, empty⟩, drained⟩ := h.here _ ⟨t, head ▸ List.mem_cons_self⟩ hop
  have asked' : opens sid s'.heard = [m] := Enrolled.heard_lead (by simp [Op.loops]) e ▸ asked
  have drained' : s'.drained sid = false := by
    simp [Enrolled.drained_exec sid e, drained, Op.drained, Op.drains]
  have view {line : List Bytes} (hr : s'.ran sid = c.shared.ran sid ++ line) (alive : Bool) (buf : Bytes) :
      s'.view sid alive buf = { alive, buf, ran := line } := by
    obtain ⟨_, _, queued, ran, printed, given, codes⟩ := View.mk.inj empty
    rw [Enrolled.view_exec e, Enrolled.given_same e (by simp) sid, hr]
    simp only [Enrolled.view, queued, ran, printed, given, codes]
    rfl
  have codes : s'.codes sid = [] := by
    obtain ⟨_, _, _, _, _, _, codes⟩ := View.mk.inj empty
    obtain ⟨σ, -, rfl, -⟩ := Enrolled.of_exec e
    exact (List.append_nil _).trans codes
  have ends : s'.ends sid = [] := by simp [Enrolled.ends, codes]
  obtain ⟨σ, executed, hσ, -⟩ := Enrolled.of_exec e
  by_cases hi : i = .failed
  case pos =>
    subst hi
    cases executed
    have empty' := @view [] (by simp [hσ, Enrolled.ran, Enrolled.tell])
    refine h.on head hop (by rw [hσ]; rfl) (by simp [Op.holds]) ?_ (by simp [Op.drained, drained', codes])
    simpa only [Op.Amid, asked', ends, empty'] using .failed (by simp)
  case neg =>
    have ran : ops = [.insert { ptr := c.shared.agent.next, conn, sid, enc }] ∧
        σ.pumps = c.shared.agent.pumps ∧ s'.ran sid = c.shared.ran sid ++ [utf8 m.cmd] := by
      cases i <;> first | contradiction | cases executed
      all_goals exact ⟨rfl, rfl, by simp [hσ, Enrolled.ran, Enrolled.tell, State.record, State.setProcess]⟩
    obtain ⟨rfl, pumps, ran⟩ := ran
    have life : s'.Lives sid true [] := by
      rw [Enrolled.Lives, asked', ends, view ran]
      exact .opened
    exact h.on head hop (by rw [hσ]; exact pumps) (by simp [Op.holds]) life drained'

-- Nothing is got from a shell yet.
theorem insert (h : Once sid c) (head : c.procs t = .insert p :: rest) (hs : p.sid = sid)
    (e : c.shared.exec (.insert p) i = some (s', ops)) : Once sid (c.resume t s' (ops ++ rest)) := by
  have hop : (Op.insert p).holds sid := by simp [Op.holds, hs]
  have spares : c.shared.Spares s' sid := .lead (by simp) (by simp) (by simp [Op.loops]) rfl rfl rfl rfl e
  have here := (h.here _ ⟨t, head ▸ List.mem_cons_self⟩ hop).spare spares
  obtain ⟨σ, executed, rfl, -⟩ := Enrolled.of_exec e
  cases executed
  exact h.on head hop rfl hop here.amid here.drained

-- What is read is put into the buffer.
theorem pump {buf : Bytes} {deadline : Bool} (h : Once sid c)
    (head : c.procs t = .pump p buf deadline :: rest) (hs : p.sid = sid)
    (e : c.shared.exec (.pump p buf deadline) i = some (s', ops)) :
    Once sid (c.resume t s' (ops ++ rest)) := by
  have hop : (Op.pump p buf deadline).holds sid := by simp [Op.holds, hs]
  obtain ⟨life, drained⟩ := h.here _ ⟨t, head ▸ List.mem_cons_self⟩ hop
  replace life : c.shared.Lives sid true buf := life
  replace drained : c.shared.drained sid = false := drained
  have heard := Enrolled.heard_lead (by simp [Op.loops]) e
  have view := Enrolled.view_lead sid (by simp) (by simp) e
  have drained' := Enrolled.drained_exec sid e
  have ends : s'.ends sid = c.shared.ends sid := by simpa [Op.exited] using Enrolled.ends_exec sid e
  obtain ⟨σ, executed, hσ, -⟩ := Enrolled.of_exec e
  have kept : σ = c.shared.agent ∧ ∃ buf', s'.Lives sid true buf' ∧
      ((∃ last, ops = [.flush p buf' last] ∧ s'.drained sid = last) ∨
        ∃ deadline, ops = [.pump p buf' deadline] ∧ s'.drained sid = false) := by
    have same (hr : (Op.pump p buf deadline).read sid i = []) : s'.Lives sid true buf := by
      rw [Enrolled.Lives, heard, ends, view, hr]
      simpa [Op.gives, Op.exited, Enrolled.Lives] using life
    cases i <;> simp only [E2E.exec] at executed
    case chunk b =>
      cases executed
      replace drained' : s'.drained sid = false := by simpa [drained, Op.drains] using drained'
      refine ⟨rfl, buf ++ b, ?_, ?_⟩
      case refine_1 =>
        rw [Enrolled.Lives, heard, ends, view]
        simpa [Op.gives, Op.exited, Op.read, hs, Enrolled.view] using Life.read rfl life
      case refine_2 =>
        split
        case isTrue  => exact .inl ⟨_, rfl, drained'⟩
        case isFalse => exact .inr ⟨_, rfl, drained'⟩
    case deadline =>
      cases deadline <;> cases executed
      exact ⟨rfl, buf, same rfl, .inl ⟨_, rfl, by simpa [drained, Op.drains] using drained'⟩⟩
    case eof =>
      cases executed
      exact ⟨rfl, buf, same rfl, .inl ⟨_, rfl, by simpa [Op.drains, hs] using drained'⟩⟩
    all_goals contradiction
  obtain ⟨rfl, buf', life, ⟨last, rfl, drained⟩ | ⟨deadline, rfl, drained⟩⟩ := kept
  all_goals exact h.on head hop (by rw [hσ]; rfl) (by simp [Op.holds, hs]) life drained

-- What is in the buffer is put into a frame.
theorem flush {buf : Bytes} {last : Bool} (h : Once sid c) (plain : p.enc = none)
    (head : c.procs t = .flush p buf last :: rest) (hs : p.sid = sid)
    (e : c.shared.exec (.flush p buf last) i = some (s', ops)) :
    Once sid (c.resume t s' (ops ++ rest)) := by
  have hop : (Op.flush p buf last).holds sid := by simp [Op.holds, hs]
  have spares : c.shared.Spares s' sid := .lead (by simp) (by simp) (by simp [Op.loops]) rfl rfl rfl rfl e
  obtain ⟨life, drained⟩ := (h.here _ ⟨t, head ▸ List.mem_cons_self⟩ hop).spare spares
  replace drained : s'.drained sid = last := drained
  obtain ⟨σ, executed, rfl, -⟩ := Enrolled.of_exec e
  simp only [E2E.exec, plain] at executed
  by_cases empty : buf = []
  case pos =>
    subst empty
    rw [if_pos rfl] at executed
    cases executed
    split
    case isTrue ends => exact h.on head hop rfl hop life (drained.trans ends)
    case isFalse more => exact h.on head hop rfl hop life (drained.trans (Bool.eq_false_iff.mpr more))
  case neg =>
    rw [if_neg empty] at executed
    cases executed
    exact h.on head hop rfl hop ⟨buf, empty, by rw [hs], life⟩ drained

-- The frame is given to the websocket.
theorem sendOut {m : Msg} {last : Bool} (h : Once sid c) (head : c.procs t = .sendOut p m last :: rest)
    (hs : p.sid = sid) (e : c.shared.exec (.sendOut p m last) i = some (s', ops)) :
    Once sid (c.resume t s' (ops ++ rest)) := by
  have hop : (Op.sendOut p m last).holds sid := by simp [Op.holds, hs]
  obtain ⟨⟨buf, full, rfl, here⟩, drained⟩ := h.here _ ⟨t, head ▸ List.mem_cons_self⟩ hop
  replace drained : c.shared.drained sid = last := drained
  have heard := Enrolled.heard_lead (by simp [Op.loops]) e
  have view := Enrolled.view_lead sid (by simp) (by simp) e
  have ends : s'.ends sid = c.shared.ends sid := by simpa [Op.exited] using Enrolled.ends_exec sid e
  have drained' : s'.drained sid = (last || (Op.sendOut p _ last).drains sid i) :=
    drained ▸ Enrolled.drained_exec sid e
  have life : s'.Lives sid true [] := by
    rw [Enrolled.Lives, heard, ends, view]
    simpa [Op.gives, Op.read, Op.exited, View.flush, View.flushed, Enrolled.view, full] using Life.flush here
  obtain ⟨σ, executed, hσ, -⟩ := Enrolled.of_exec e
  have pumps : s'.agent.pumps = c.shared.agent.pumps := hσ ▸ (Exec.of executed).pumps_of_not (by simp)
  have next : ops = [.wait p] ∧ s'.drained sid = true ∨
      ops = [.pump p [] false] ∧ s'.drained sid = false := by
    cases i <;> cases executed
    case failed => exact .inl ⟨rfl, by simpa [Op.drains, hs] using drained'⟩
    all_goals cases last <;> simpa [Op.drains] using drained'
  obtain ⟨rfl, drained⟩ | ⟨rfl, drained⟩ := next
  all_goals exact h.on head hop pumps hop life drained

-- The shell has exited.
theorem wait (h : Once sid c) (head : c.procs t = .wait p :: rest) (hs : p.sid = sid)
    (e : c.shared.exec (.wait p) i = some (s', ops)) : Once sid (c.resume t s' (ops ++ rest)) := by
  have hop : (Op.wait p).holds sid := by simp [Op.holds, hs]
  obtain ⟨here, drained⟩ := h.here _ ⟨t, head ▸ List.mem_cons_self⟩ hop
  replace here : c.shared.Lives sid true [] := here
  replace drained : c.shared.drained sid = true := drained
  have heard := Enrolled.heard_lead (by simp [Op.loops]) e
  have view := Enrolled.view_lead sid (by simp) (by simp) e
  have ends := Enrolled.ends_exec sid e
  have drained' : s'.drained sid = true := by simp [Enrolled.drained_exec sid e, drained]
  rw [Life.ends_of_alive rfl here, List.nil_append] at ends
  obtain ⟨σ, executed, rfl, -⟩ := Enrolled.of_exec e
  have pumps := (Exec.of executed).pumps_of_not (by simp)
  cases i <;> cases executed
  case exit code =>
    have killed : Life sid _ [true] ((c.shared.view sid true []).kill sid true code.code) := .kill rfl here
    let f : Msg := { t := "exit", sid := p.sid, code := some code.code }
    have told : (Op.send p.conn f : Op Unit).holds sid := by simp [Op.holds, f, hs]
    refine h.next head hop (by simp [Op.holds, hs]) pumps ?_ fun idle => absurd told (idle _ (by simp [f]))
    refine List.forall_mem_cons.mpr ⟨fun forgets => by simp [Op.holds] at forgets, ?_⟩
    refine List.forall_mem_singleton.mpr fun _ => ⟨?_, ?_⟩
    case refine_1 =>
      simp only [Op.Amid, heard, ends, view]
      simpa [Op.gives, Op.read, Op.exited, View.kill, View.flushed, Enrolled.view, hs, f] using killed
    case refine_2 => exact drained'.trans (by simp [Op.drained, Enrolled.tell, Op.exited, hs])

theorem send {conn : Nat} (h : Once sid c) (head : c.procs t = .send conn f :: rest) (hs : f.sid = sid)
    (e : c.shared.exec (.send conn f) i = some (s', ops)) : Once sid (c.resume t s' (ops ++ rest)) := by
  have hop : (Op.send conn f : Op Unit).holds sid := by simp [Op.holds, hs]
  obtain ⟨here, drained⟩ := h.here _ ⟨t, head ▸ List.mem_cons_self⟩ hop
  have heard := Enrolled.heard_lead (by simp [Op.loops]) e
  have view := Enrolled.view_lead sid (by simp) (by simp) e
  have ends : s'.ends sid = c.shared.ends sid := by simpa [Op.exited] using Enrolled.ends_exec sid e
  have drained' : s'.drained sid = !(c.shared.codes sid).isEmpty := by
    simp [Enrolled.drained_exec sid e, drained, Op.drained, Op.drains]
  obtain ⟨σ, executed, rfl, -⟩ := Enrolled.of_exec e
  have pumps := (Exec.of executed).pumps_of_not (by simp)
  have none : ops = [] := by cases i <;> cases executed <;> rfl
  subst none
  refine h.next head hop (by simp) pumps (by simp) fun _ => ⟨?_, ?_⟩
  case refine_1 =>
    rw [Enrolled.Lives, heard, ends, view]
    simpa [Op.gives, Op.read, Op.exited, hs, Op.Amid] using here
  case refine_2 => simpa [Enrolled.tell, Op.exited] using drained'

-- A section of the session leads it on.
theorem lead (h : Once sid c) (ho : op.Sound c.shared) (head : c.procs t = op :: rest)
    (hop : op.holds sid) (e : c.shared.exec op i = some (s', ops)) :
    Once sid (c.resume t s' (ops ++ rest)) := by
  cases op <;> have hs := hop <;> simp only [Op.holds, Bool.false_eq_true, decide_eq_true_eq] at hs
  case openPty conn m => exact h.ask head hop (.inl ⟨conn, m, rfl⟩) e
  case openCmd conn m => exact h.ask head hop (.inr ⟨conn, m, rfl⟩) e
  case spawn =>
    subst hs
    exact h.spawn head e
  case insert  => exact h.insert head hs e
  case pump    => exact h.pump head hs e
  case flush   => exact h.flush (ho.plain rfl).enc head hs e
  case sendOut => exact h.sendOut head hs e
  case wait    => exact h.wait head hs e
  case send    => exact h.send head hs e
  case goPump p =>
    have spares : c.shared.Spares s' sid := .lead (by simp) (by simp) (by simp [Op.loops]) rfl rfl rfl rfl e
    obtain ⟨σ, executed, rfl, -⟩ := Enrolled.of_exec e
    cases executed
    exact h.go head hs rfl spares rfl

-- Before the open frame of the session is read, there is nothing to lead on.

theorem none_pending (h : Once sid c) (first : opens sid c.shared.heard = []) :
    (∀ o, c.Pending o → ¬o.holds sid) ∧ ∀ p ∈ c.shared.agent.pumps, ¬p.sid = sid :=
  ⟨fun o ho hh => (h.here o ho hh).opened hh first,
    fun p hp hs => (h.waits p hp hs).opened (by simp [Op.holds, hs]) first⟩

theorem empty (h : Once sid c) (first : opens sid c.shared.heard = []) :
    c.shared.view sid false [] = {} ∧ c.shared.drained sid = false := by
  obtain ⟨idle, none⟩ := h.none_pending first
  obtain ⟨life, drained⟩ := h.rests idle none
  rw [Enrolled.Lives, first] at life
  have empty := life.idle_of_nil.right
  have codes : c.shared.codes sid = [] := congrArg View.codes empty
  exact ⟨empty, by simpa [codes] using drained⟩

theorem fresh (h : Once sid c) (first : opens sid c.shared.heard = []) (head : c.procs t = op :: rest)
    (pumps : s'.agent.pumps = c.shared.agent.pumps) (one : ops.countP (Op.holds sid) ≤ 1)
    (here : ∀ o ∈ ops, o.holds sid → o.At s' sid) (rests : s'.Rests sid) :
    Once sid (c.resume t s' (ops ++ rest)) := by
  obtain ⟨none, waiting⟩ := h.none_pending first
  replace waiting : ∀ p ∈ s'.agent.pumps, ¬p.sid = sid := pumps ▸ waiting
  constructor
  case single =>
    refine .resume_of_none (fun t o ho => none o ⟨t, ho⟩) ?_
    have others : rest.countP (Op.holds sid) = 0 :=
      List.countP_eq_zero.mpr fun o ho => none o ⟨t, head ▸ List.mem_cons_of_mem _ ho⟩
    rw [List.countP_append, others]
    exact one
  case pumps => exact pumps ▸ h.pumps
  case apart => exact fun p hp hs => absurd hs (waiting p hp)
  case waits => exact fun p hp hs => absurd hs (waiting p hp)
  case here =>
    intro o hm hh
    cases hm.of_step head
    case inl hm => exact here o hm hh
    case inr hm => exact absurd hh (none o hm)
  case rests => exact fun _ _ => rests

-- The open frame of the session is read.
theorem openFrame (h : Once sid c) (head : c.procs t = op :: rest)
    (asked : opens sid (op.heard i).toList ≠ []) (le : (opens sid s'.heard).length ≤ 1)
    (e : c.shared.exec op i = some (s', ops)) :
    Once sid (c.resume t s' (ops ++ rest)) := by
  have heard := Enrolled.heard_exec e
  rw [heard, opens_append, List.length_append] at le
  have first : opens sid c.shared.heard = [] :=
    List.eq_nil_of_length_eq_zero (by have := List.length_pos_iff.mpr asked; omega)
  -- It is the first frame of all, or one that the loop reads.
  obtain ⟨m, hm, ht, hs⟩ : ∃ m, op.heard i = some m ∧ m.t = "open" ∧ m.sid = sid := by
    have ⟨m, mem⟩ := List.exists_mem_of_ne_nil _ asked
    have ⟨mem, ho⟩ := List.mem_filter.mp mem
    exact ⟨m, by simpa using mem, by simpa using ho⟩
  have read : (∃ conn, op = .helloOk conn) ∨ ∃ conn, op = .readJSON conn := by
    cases op <;> first | contradiction | simp
  have view := Enrolled.view_lead sid (by rintro _ _ _ _ rfl; contradiction)
    (by rintro _ _ rfl; contradiction) e
  obtain ⟨none, idle⟩ := h.empty first
  have empty : s'.view sid false [] = {} := by
    rw [view, none]
    rcases read with ⟨_, rfl⟩ | ⟨_, rfl⟩ <;> rfl
  have drained : s'.drained sid = false := by
    rw [Enrolled.drained_exec sid e, idle]
    rcases read with ⟨_, rfl⟩ | ⟨_, rfl⟩ <;> rfl
  have rests : s'.Rests sid := .of_empty empty drained
  obtain ⟨σ, executed, rfl, -⟩ := Enrolled.of_exec e
  cases i
  case frame m' =>
    rcases read with ⟨conn, rfl⟩ | ⟨conn, rfl⟩ <;> cases hm
    case inl =>
      simp only [E2E.exec, ht] at executed
      cases executed
      exact h.fresh first head rfl (by simp) (by simp) rests
    case inr =>
      simp only [E2E.exec, handle, ht] at executed
      cases executed
      refine h.fresh first head rfl (by simp [Op.holds, hs]) ?_ rests
      have here : opens sid (c.shared.heard ++ [m]) = [m] := by
        rw [opens_append, first]
        exact opens_self ht hs
      exact List.forall_mem_cons.mpr ⟨fun _ => ⟨⟨here, empty⟩, drained⟩, by simp [Op.holds]⟩
  all_goals rcases read with ⟨_, rfl⟩ | ⟨_, rfl⟩ <;> contradiction

theorem start (h : Once sid c) (idle : c.procs t = []) (e : c.shared.start r = some (s', ops)) :
    Once sid (c.resume t s' ops) := by
  have keep {σ : State Unit} (hl : σ.log = c.shared.agent.log)
      (hp : σ.pumps.filter (·.sid = sid) = c.shared.agent.pumps.filter (·.sid = sid))
      (ho : ∀ o ∈ ops, ¬o.holds sid) : Once sid (c.resume t { c.shared with agent := σ } ops) := by
    have spares : c.shared.Spares { c.shared with agent := σ } sid := by
      refine ⟨rfl, rfl, _, fun _ _ => ?_, .inl rfl⟩
      simp [Enrolled.view, Enrolled.ran, Enrolled.given, State.writes, hl]
    refine h.spare spares (h.single.resume ?_) (fun o hh => ⟨fun hm => ?_, fun hm => hm.start idle⟩) hp
    case refine_1 => exact List.countP_eq_zero.mpr ho ▸ Nat.zero_le _
    case refine_2 => exact hm.of_resume.resolve_left fun hm => ho o hm hh
  obtain ⟨_, rfl, m, rfl⟩ | ⟨p, hp, rfl, rfl⟩ := Enrolled.start_cases e
  case inl => exact keep rfl rfl (by simp [Op.holds])
  case inr =>
    by_cases hs : p.sid = sid
    case pos => exact h.take hp hs rfl
    case neg =>
      refine keep rfl ?_ (by simp [Op.holds, hs])
      rw [← List.erase_filter, List.erase_of_not_mem (by simp [hs])]

theorem exec (h : Once sid c) (ho : op.Sound c.shared) (head : c.procs t = op :: rest)
    (le : (opens sid s'.heard).length ≤ 1) (e : c.shared.exec op i = some (s', ops)) :
    Once sid (c.resume t s' (ops ++ rest)) := by
  by_cases hop : op.holds sid
  case pos => exact h.lead ho head hop e
  case neg =>
    have heard := Enrolled.heard_exec e
    by_cases first : opens sid (op.heard i).toList = []
    case pos =>
      have none := Op.not_holds_exec ho hop first e
      have spares : c.shared.Spares s' sid := .exec ho hop first e
      obtain ⟨σ, executed, rfl, -⟩ := Enrolled.of_exec e
      refine h.spare spares (h.single.step head none) (fun o hh => ⟨fun hm => ?_, fun hm => ?_⟩) ?_
      case refine_1 => exact (hm.of_step head).resolve_left fun hm => none o hm hh
      case refine_2 => exact (hm.step head).resolve_left fun same => hop (same ▸ hh)
      case refine_3 =>
        obtain ⟨same, _⟩ | ⟨p, rfl, pushed, _⟩ | ⟨_, _, _, _, same, _⟩ := (Exec.of executed).pumps
        case inl     => exact congrArg (List.filter (·.sid = sid)) same
        case inr.inr => exact congrArg (List.filter (·.sid = sid)) same
        case inr.inl =>
          have other : ¬p.sid = sid := by simpa [Op.holds] using hop
          exact (congrArg (List.filter (·.sid = sid)) pushed).trans
            (List.filter_cons_of_neg (by simpa using other))
    case neg => exact h.openFrame head first le e

-- What its life is until then, or with the exit frame that is to be sent.
theorem life (h : Once sid c) : (∃ alive buf, c.shared.Lives sid alive buf) ∨
    ∃ conn f, c.Pending (.send conn f) ∧ f.sid = sid ∧ (Op.send conn f).Amid c.shared sid := by
  have idle (empty : c.shared.view sid false [] = {}) : c.shared.Lives sid false [] := by
    have ends : c.shared.ends sid = [] := congrArg (List.map fun _ => true) (congrArg View.codes empty)
    rw [Enrolled.Lives, ends, empty]
    exact .idle
  by_cases led : ∃ o, c.Pending o ∧ o.holds sid
  case pos =>
    obtain ⟨o, hm, hh⟩ := led
    have amid := (h.here o hm hh).amid
    cases o
    case openPty | openCmd | spawn => exact .inl ⟨_, _, idle amid.right⟩
    case insert | goPump | wait | pump | flush => exact .inl ⟨_, _, amid⟩
    case sendOut =>
      have ⟨_, _, _, life⟩ := amid
      exact .inl ⟨_, _, life⟩
    case send => exact .inr ⟨_, _, hm, by simpa [Op.holds] using hh, amid⟩
    all_goals contradiction
  case neg =>
    by_cases waits : ∃ p ∈ c.shared.agent.pumps, p.sid = sid
    case pos =>
      have ⟨p, hp, hs⟩ := waits
      exact .inl ⟨_, _, (h.waits p hp hs).amid⟩
    case neg =>
      refine .inl ⟨_, _, (h.rests (fun o hm hh => ?_) fun p hp hs => ?_).life⟩
      case refine_1 => exact led ⟨o, hm, hh⟩
      case refine_2 => exact waits ⟨p, hp, hs⟩

end Once

-- The sids that were opened once so far have one session.
theorem once_reachable (h : enrolled.system.Reachable c) (le : (opens sid c.shared.heard).length ≤ 1) :
    Once sid c := by
  induction h
  case init c hi =>
    have ⟨shared, idle⟩ := hi
    replace shared : c.shared = {} := shared
    have none (o : Op Unit) : ¬c.Pending o := by
      rintro ⟨t, ho⟩
      simp [idle t] at ho
    refine ⟨⟨fun t => by simp [idle t], fun ho => by simp [idle] at ho⟩, by simp [shared], by simp [shared],
      by simp [shared], fun o ho => absurd ho (none o), fun _ _ => ?_⟩
    rw [shared]
    exact .of_empty rfl rfl
  case step c l c' hr _ e hi =>
    replace e := Step.of e
    cases e
    case start idle e =>
      obtain ⟨σ, _, rfl, _⟩ := Enrolled.of_start e
      exact (hi le).start idle e
    case step head e =>
      have fewer : (opens sid c.shared.heard).length ≤ 1 := by
        refine Nat.le_trans ?_ le
        rw [Config.resume_shared, Enrolled.heard_exec e, opens_append, List.length_append]
        exact Nat.le_add_right ..
      exact (hi fewer).exec ((sound_reachable hr).right _ ⟨_, head ▸ List.mem_cons_self⟩) head le e

-- The agent after it read these frames. `more` is an exit frame that is to be sent.
structure Enrolled.Leads (ms : List Msg) (s : Enrolled) : Prop where
  sents   : s.sents <+: s.tried
  answers : ∀ f ∈ s.tried, (f.t = "out" ∨ f.t = "exit") ∧ opens f.sid ms ≠ []
  ran     : ∀ sid, (s.ran sid).Sublist ((opens sid ms).map (utf8 ·.cmd))
  given   : ∀ sid, (s.given sid).Sublist ((ins sid ms).filterMap (Base64.decode ·.data))
  life    : ∀ sid, (opens sid ms).length ≤ 1 → ∃ alive buf more,
    (∀ f ∈ more, (f.t = "out" ∨ f.t = "exit") ∧ opens sid ms ≠ []) ∧
      let v := s.view sid alive buf
      Life sid (opens sid ms) (s.ends sid) { v with queued := v.queued ++ more }

theorem leads_observed (h : enrolled.system.Observed (fun c l => (heard c l).toList) ms c) :
    c.shared.Leads ms := by
  obtain rfl := heard_observed h
  have reachable := h.reachable
  have sound := sound_reachable reachable
  have caught := caught_reachable reachable
  constructor
  case sents => exact (inOrder_reachable reachable).sents
  case answers =>
    intro f hf
    have answers := sound.left.tried f hf
    exact ⟨answers.tag, answers.opened⟩
  case ran   => exact caught.ran
  case given => exact caught.given
  case life  =>
    intro sid le
    rcases (once_reachable reachable le).life with ⟨alive, buf, life⟩ | ⟨conn, f, hm, rfl, life⟩
    case inl => exact ⟨alive, buf, [], by simp, by simpa [Enrolled.Lives] using life⟩
    case inr =>
      have answers : c.shared.Answers f := sound.right _ hm
      exact ⟨false, [], [f], List.forall_mem_singleton.mpr ⟨answers.tag, answers.opened⟩, life⟩

-- In every run of an agent without a fleet key, whatever frames it reads and however its goroutines
-- interleave: of a sid there is no more than its open frames asked for, its shells are given what was
-- typed in this order, and a sid that is opened once has one session, which one section of one goroutine
-- leads on. Its frames have all that `pump` got from its shell, in order, but for what this section has
-- yet to put into them. `pump` gets it to its end, or until a frame cannot be sent, and where no section is
-- left the shell was waited for and the exit frame is the last one. The websocket takes the first ones of
-- the frames.
theorem leads_sessions (h : enrolled.system.Observed (fun c l => (heard c l).toList) ms c) :
    c.shared.heard = ms ∧
    c.shared.sents <+: c.shared.tried ∧
    (∀ f ∈ c.shared.tried, (f.t = "out" ∨ f.t = "exit") ∧ opens f.sid ms ≠ []) ∧
    (∀ sid, (c.shared.ran sid).Sublist ((opens sid ms).map (utf8 ·.cmd)) ∧
      (c.shared.given sid).Sublist ((ins sid ms).filterMap (Base64.decode ·.data))) ∧
    ∀ sid, (opens sid ms).length ≤ 1 → Once sid c :=
  have leads := leads_observed h
  have heard := heard_observed h
  ⟨heard, leads.sents, leads.answers, fun sid => ⟨leads.ran sid, leads.given sid⟩,
    fun _ le => once_reachable h.reachable (heard ▸ le)⟩

def sampleEnrolled : Config Enrolled (Op Unit) where
  shared := {}
  procs _ := []

-- The shell of a0 prints "hi" and exits.
theorem leads_sessions_sample :
    let o : Msg := { t := "open", sid := "a0" }
    let p : Pty Unit := ⟨1, 0, "a0", none⟩
    let ls : List (Label (Req Unit) Input) := [.start 0 (.session "e1" "" "dev"), .step 0 .done,
      .step 0 (.frame { t := "hello_ok" }), .step 0 (.frame o), .step 0 .done, .step 0 .done, .step 0 .done,
      .step 0 .done, .step 0 .done, .start 1 (.pump p), .step 1 (.chunk [104, 105]), .step 1 .eof,
      .step 1 .done, .step 1 .done, .step 1 (.exit (.exited 0)), .step 1 .done, .step 1 .done]
    ∃ c, enrolled.system.run sampleEnrolled ls = some c ∧
      c.shared.sents = [{ t := "out", sid := "a0", data := "aGk=" },
        { t := "exit", sid := "a0", code := some 0 }] ∧
      c.shared.drained "a0" = true ∧ Life "a0" [o] [true] (c.shared.view "a0" false []) := by
  intro o p ls
  have ran : (enrolled.system.run sampleEnrolled ls).isSome := by decide
  obtain ⟨c, e⟩ := Option.isSome_iff_exists.mp ran
  have initial : enrolled.system.Init sampleEnrolled := ⟨rfl, fun _ => rfl⟩
  have observed := (Transition.Observed.init (f := fun c l => (heard c l).toList) initial).run e
  obtain ⟨read, _, _, _, sessions⟩ := leads_sessions observed
  have opened : opens "a0" ([] ++ (enrolled.system.observe (fun c l => (heard c l).toList)
      sampleEnrolled ls).flatten) = [o] := by decide
  have once := sessions "a0" (by rw [opened]; exact Nat.le_refl _)
  have codes : c.shared.codes "a0" = [0] := Transition.eq_of_run (f := (·.shared.codes "a0")) e (by decide)
  -- Only the loop of the websocket goes on.
  have idle : ∀ o, c.Pending o → ¬o.holds "a0" := by
    rintro o ⟨t, hm⟩ hh
    have loop : (c.procs 0).any (Op.holds "a0") = false :=
      Transition.eq_of_run (f := fun c => (c.procs 0).any (Op.holds "a0")) e (by decide)
    have pump : (c.procs 1).any (Op.holds "a0") = false :=
      Transition.eq_of_run (f := fun c => (c.procs 1).any (Op.holds "a0")) e (by decide)
    by_cases ht : t = 0 ∨ t = 1
    case pos =>
      rcases ht with rfl | rfl
      case inl => exact List.any_eq_false.mp loop o hm hh
      case inr => exact List.any_eq_false.mp pump o hm hh
    case neg =>
      have others : ∀ l ∈ ls, l.tid = 0 ∨ l.tid = 1 := by decide
      have elsewhere : ∀ l ∈ ls, l.tid ≠ t := by
        rintro l hl rfl
        exact ht (others l hl)
      rw [procs_of_run e elsewhere] at hm
      contradiction
  have none : c.shared.agent.pumps = [] :=
    Transition.eq_of_run (f := (·.shared.agent.pumps)) e (by decide)
  obtain ⟨life, drained⟩ := once.rests idle (by simp [none])
  rw [codes] at drained
  rw [Enrolled.Lives, read, opened, Enrolled.ends, codes] at life
  exact ⟨c, e, Transition.eq_of_run (f := (·.shared.sents)) e (by decide), drained, life⟩

end E2E
