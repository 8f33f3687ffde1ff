import Popfleet.Deployment.Go
import Popfleet.Deployment.Python
import Popfleet.Deployment.Theorems.Linked
import Popfleet.Panel.Theorems.Shown

open Proto Program V1e Worker

namespace Deployment

-- The agents other than the one of the session send frames of sessions only that were opened on them.
def Others (σ : Broker.State) (ac : Broker.AgentConn) : Prop :=
  ∀ a f, .read a f ∈ σ.log → a ≠ ac → f.t = "out" ∨ f.t = "exit" ∨ f.t = "err" →
    ∃ s, (s, a) ∈ σ.opens ∧ s.sid = f.sid

variable {sha256 : String → Broker.Digest} {H : Mac 32} {G : Gcm tagLen} {num : List Char → String}
  {A : Host} {ac : Broker.AgentConn} {s : Broker.Session} {n n' : Network A}

namespace Linked

theorem reachable (h : Linked sha256 H G num A ac s n) :
    (Broker.program sha256).system.Reachable n.broker :=
  h.reads.reachable

-- What the agent received is on its queue.
theorem toAgent_out (h : Linked sha256 H G num A ac s n) :
    n.toAgent <+: (n.broker.shared.agentConns ac).out :=
  h.toAgent.trans (List.take_prefix ..)

theorem toPage_out (h : Linked sha256 H G num A ac s n) :
    n.toPage <+: (n.broker.shared.sessConns s).out :=
  h.toPage.trans (List.take_prefix ..)

theorem opens_le (h : Linked sha256 H G num A ac s n) (fresh : n.broker.shared.FreshSids) (sid : String) :
    (opens sid n.toAgent).length ≤ 1 :=
  Nat.le_trans ((h.toAgent_out.filter _).length_le) (Broker.length_opens_le h.reachable fresh sid)

theorem answered {f : Msg} (h : Linked sha256 H G num A ac s n) (hf : .read ac f ∈ n.broker.shared.log)
    (ht : f.t ≠ "hb") : f.t ≠ "err" ∧ (f.t = "out" ∨ f.t = "exit" → opens f.sid n.toAgent ≠ []) :=
  have read : f ∈ n.fromAgent := Broker.said_observed h.reads ▸ Broker.mem_said.mpr ⟨hf, ht⟩
  A.answers h.agent f (h.fromAgent.subset read)

-- The agent sends frames of sessions only that were opened on it.
theorem answers {f : Msg} (h : Linked sha256 H G num A ac s n) (hf : .read ac f ∈ n.broker.shared.log)
    (ht : f.t = "out" ∨ f.t = "exit" ∨ f.t = "err") :
    ∃ s', (s', ac) ∈ n.broker.shared.opens ∧ s'.sid = f.sid := by
  have other : f.t ≠ "hb" := by rcases ht with ht | ht | ht <;> simp [ht]
  have ⟨err, asked⟩ := h.answered hf other
  have asked := asked (ht.imp_right fun ht => ht.resolve_right err)
  have ⟨o, ho⟩ := List.exists_mem_of_ne_nil _ asked
  have ⟨mem, ho⟩ := List.mem_filter.mp ho
  simp only [decide_eq_true_eq] at ho
  rw [← Broker.mem_opened, ← (Broker.opens_reachable h.reachable).left.opened ac, ← ho.right]
  exact List.mem_map_of_mem (List.mem_filter.mpr ⟨h.toAgent_out.subset mem, by simpa using ho.left⟩)

theorem only (h : Linked sha256 H G num A ac s n) (fresh : n.broker.shared.FreshSids)
    (opened : (s, ac) ∈ n.broker.shared.opens) (others : Others n.broker.shared ac) :
    Broker.Only n.broker.shared s ac := by
  intro a f hf ht hs
  by_contra ha
  have ⟨s', ho, hs'⟩ := others a f hf ha ht
  exact ha (Broker.opens_unique h.reachable fresh opened ho (hs'.trans hs)).right

-- No frame of the session came before it was attached.
theorem outsBefore_step {l : Program.Label Broker.Req Broker.Input} {c : Config Broker.State Broker.Op}
    (h : Linked sha256 H G num A ac s n) (e : (Broker.program sha256).system.step n.broker l = some c)
    (own : Broker.Own c.shared s) (only : Broker.Only c.shared s ac)
    (before : n.broker.shared.outsBefore s = []) : c.shared.outsBefore s = [] := by
  replace e := Program.Step.of e
  cases e
  case start e =>
    obtain ⟨_, _, _, log⟩ := Broker.start_shared e
    simpa only [Broker.State.outsBefore, Config.resume_shared, log] using before
  case step e =>
    replace e := Broker.Exec.of e
    rcases e.log_cases with same | ⟨ev, log, _, attached⟩
    case inl => simpa only [Broker.State.outsBefore, Config.resume_shared, same] using before
    case inr =>
      by_cases hs : ev = .attached s
      case neg => exact (Broker.outsBefore_cons log hs).trans before
      case pos =>
        obtain ⟨sid, p, a, _, new⟩ := attached s hs
        have handles := (Broker.handles_reachable h.reachable).left
        -- A frame of a session that was not attached would be of another one with its sid.
        have none : ∀ e ∈ n.broker.shared.log, e.out s.sid = none := by
          intro ev he
          cases ev
          case read a f =>
            by_contra hout
            obtain ⟨tag, sid⟩ : f.t = "out" ∧ f.sid = s.sid := by simpa [Broker.Event.out] using hout
            obtain rfl : a = ac := only a f (e.log_suffix.mem he) (.inl tag) sid
            obtain ⟨s', ho, hs'⟩ := h.answers he (.inl tag)
            have attached := handles.opens ho
            have same : s' = s := own s' (e.allocates.attaches.mem attached) (hs'.trans sid)
            exact Broker.ne_newSession (handles.attaches attached) (same.trans new)
          all_goals rfl
        rw [Config.resume_shared, Broker.State.outsBefore, log, hs,
          List.dropWhile_cons_of_neg (by simp), Broker.outs_cons rfl, Broker.outs_eq_nil none]

end Linked

theorem before_reachable (h : (Network.system sha256 H G num A ac s).Reachable n)
    (own : Broker.Own n.broker.shared s) (only : Broker.Only n.broker.shared s ac) :
    n.broker.shared.outsBefore s = [] := by
  induction h
  case init hi =>
    obtain ⟨⟨⟨st, now, hs⟩, _⟩, _⟩ := hi
    simp [hs, Broker.State.outsBefore, Broker.outs]
  case step n l n' hr _ e hi =>
    have linked := linked_reachable hr
    replace e := Deployment.Step.of e
    cases e
    case broker e _ _ =>
      have log := Broker.log_step e
      have old : Broker.Own n.broker.shared s := own.of_suffix (log.filterMap _)
      exact linked.outsBefore_step e own only (hi old (only.of_suffix log))
    case agent | message | page => exact hi own only

-- The values of what is routed to the browser.
theorem routed_data {sid : String} {ms : List Msg} :
    (ms.filterMap (Broker.routed sid)).map (·.data) = (outs sid ms).map (·.data) := by
  induction ms
  case nil => rfl
  case cons m ms hi =>
    by_cases hm : m.t = "out" ∧ m.sid = sid
    case pos => simpa [Broker.routed, outs, hm] using hi
    case neg => simpa [Broker.routed, outs, hm] using hi

theorem carries_routed {sid : String} {ms : List Msg} {b : Bytes}
    (h : Carries (Base64.decode ·.data) (outs sid ms) b) :
    Carries (Base64.decode ·.data) (ms.filterMap (Broker.routed sid)) b := by
  have ⟨chunks, hc, hb⟩ := h
  refine ⟨chunks, ?_, hb⟩
  rw [← hc]
  simpa [Function.comp_def] using congrArg (List.map Base64.decode) routed_data

-- What is typed comes to the agent with the sid of the session.

theorem ins_typed {sid : String} {ms : List Msg} :
    (Broker.typed sid ms).filter (·.t = "in") = ins sid ms := by
  simp only [Broker.typed, ins, List.filter_filter]
  refine List.filter_congr fun m _ => ?_
  by_cases ht : m.t = "in" <;> simp [ht]

theorem relayed_data {ms : List Msg} :
    ((ms.filterMap (Broker.relayed s)).filter (·.t = "in")).map (·.data) =
      (ms.filter (·.t = "in")).map (·.data) := by
  induction ms
  case nil => rfl
  case cons m ms hi =>
    by_cases ht : m.t = "in"
    case pos => simpa [Broker.relayed, ht] using hi
    case neg =>
      by_cases hr : m.t = "resize" <;> simpa [Broker.relayed, ht, hr] using hi

namespace Linked

-- What is read from the agent, and what it has sent.

theorem said_eq (h : Linked sha256 H G num A ac s n) : Broker.said ac n.broker.shared.log = n.fromAgent :=
  Broker.said_observed h.reads

theorem carried (h : Linked sha256 H G num A ac s n) (fresh : n.broker.shared.FreshSids) :
    ∃ b, Carries (Base64.decode ·.data) ((A.sents n.agent).filterMap (Broker.routed s.sid)) b ∧
      b <+: A.printed n.agent s.sid :=
  have ⟨b, carries, printed⟩ := A.output h.agent (h.opens_le fresh s.sid)
  ⟨b, carries_routed carries, printed⟩

-- The broker does not announce e2e.
theorem unannounced (h : Linked sha256 H G num A ac s n) : Panel.Unannounced n.page := by
  refine ⟨h.unprobed, ?_⟩
  rintro ⟨e, he, announces⟩
  cases e
  case received m =>
    have received : m ∈ n.page.received :=
      List.mem_reverse.mpr (List.mem_filterMap.mpr ⟨_, he, rfl⟩)
    obtain ⟨m, hm, rfl⟩ := List.mem_map.mp (h.received ▸ received)
    have tag : m.t ≠ "e2e" := by
      rcases (Broker.tells_reachable h.reachable).left (h.toPage_out.subset hm) with ht | ht | ⟨ht, _⟩ <;>
        simp [ht]
    rw [Panel.announces_parse tag] at announces
    contradiction
  all_goals contradiction

theorem plain (h : Linked sha256 H G num A ac s n) :
    ∃ hs, Panel.Plain hs n.page ∧ n.keys = Panel.keys hs := by
  obtain ⟨hs, observed, keys⟩ := h.page.finer fun _ _ => Panel.typing_eq
  exact ⟨hs, Panel.plain_observed observed h.unannounced, keys⟩

-- The frames that the page handled, which are the first ones of its queue, and the first cause of its
-- banner.
theorem handled (h : Linked sha256 H G num A ac s n) :
    ∃ hs done, Panel.frames hs = done.map (fun m => Json.parse num m.writeJSON) ∧
      done <+: (n.broker.shared.sessConns s).out ∧
      n.page.term = (done.map fun m => Json.parse num m.writeJSON).filterMap Panel.rendered ∧
      n.page.text = (Panel.cause hs).join.map Panel.closeThis := by
  obtain ⟨hs, plain, _⟩ := h.plain
  obtain ⟨ms, ms', split, same, _⟩ := List.map_eq_append_iff.mp (h.received.symm.trans plain.received)
  have handled : ms <+: n.toPage := ⟨ms', split.symm⟩
  exact ⟨hs, ms, same.symm, handled.trans h.toPage_out, same ▸ plain.term, plain.text⟩

section Alone

variable (h : Linked sha256 H G num A ac s n) (fresh : n.broker.shared.FreshSids)
  (only : Broker.Only n.broker.shared s ac) (before : n.broker.shared.outsBefore s = [])

include h only before

-- The output on the queue of the page is what was read of the agent's.
theorem queued : (n.broker.shared.sessConns s).out.filter (·.t = "out") <+:
    (A.sents n.agent).filterMap (Broker.routed s.sid) := by
  have ⟨_, _, _, _, stream, _⟩ := Broker.stream_reachable h.reachable only.sole
  have ⟨out, outs⟩ := stream.queued.filter_out before
  rw [Broker.outs_eq_said only (List.suffix_refl _), h.said_eq] at outs
  exact out ▸ outs.trans (h.fromAgent.filterMap _)

include fresh

-- The page has written what the shell printed first.
theorem shown {done : List Msg} (hd : done <+: (n.broker.shared.sessConns s).out)
    (term : n.page.term = (done.map fun m => Json.parse num m.writeJSON).filterMap Panel.rendered) :
    Carries (Base64.decode ·.data) (done.filter (·.t = "out")) n.page.term.flatten ∧
      n.page.term.flatten <+: A.printed n.agent s.sid := by
  have ⟨b, carries, printed⟩ := h.carried (s := s) fresh
  have ⟨d, carries, hb⟩ := carries.of_isPrefix ((hd.filter _).trans (h.queued only before))
  have same : n.page.term.flatten = d := by rw [term, Panel.flatten_rendered carries]
  exact same ▸ ⟨carries, hb.trans printed⟩

omit fresh in
-- Behind an exit frame there is nothing on the queue.
theorem handled_all {done d d' : List Msg} {w : Msg} (hd : done <+: (n.broker.shared.sessConns s).out)
    (split : done = d ++ w :: d') (hw : w.t = "exit") : done = (n.broker.shared.sessConns s).out := by
  have ⟨_, k, final, _, stream, _⟩ := Broker.stream_reachable h.reachable only.sole
  have ⟨out, _⟩ := stream.queued.filter_out before
  have queue := stream.queued.out
  obtain ⟨rest, hr⟩ := hd
  have tags : ∀ m ∈ k, m.t = "out" := by
    intro m hm
    have mem := out ▸ hm
    simpa using (List.mem_filter.mp mem).right
  have whole : d ++ w :: (d' ++ rest) = k ++ final.toList := by simpa [split, queue] using hr
  rcases List.append_eq_append_iff.mp whole with ⟨as, hk, hf⟩ | ⟨as, _, hf⟩
  case inl =>
    cases as
    case nil =>
      cases final
      case none => simp at hf
      case some m =>
        have last : d' ++ rest = [] := by simpa using (List.cons.inj hf).right
        rw [← hr, (List.append_eq_nil_iff.mp last).right, List.append_nil]
    case cons a as =>
      obtain rfl : w = a := (List.cons.inj hf).left
      have tag := tags w (by simp [hk])
      simp [hw] at tag
  case inr =>
    cases final
    case none => simp at hf
    case some m =>
      have last : as = [] ∧ d' ++ rest = [] := by
        cases as <;> simp_all
      rw [← hr, (List.append_eq_nil_iff.mp last.right).right, List.append_nil]

-- By the time the page handled the exit frame, it had written all that the shell printed.
theorem finished {done d d' : List Msg} {w : Msg} (hd : done <+: (n.broker.shared.sessConns s).out)
    (term : n.page.term = (done.map fun m => Json.parse num m.writeJSON).filterMap Panel.rendered)
    (split : done = d ++ w :: d') (hw : w.t = "exit") :
    n.page.term.flatten = A.printed n.agent s.sid ∧
      ∃ code, w.code = some code ∧
        (code ∈ A.codes n.agent s.sid ∨ A.ran n.agent s.sid = [] ∧ code = 127) := by
  have ⟨carries, shown⟩ := h.shown fresh only before hd term
  have timely := Broker.timely_of_reachable h.reachable only before
  have last : w ∈ (n.broker.shared.sessConns s).out := hd.subset (by simp [split])
  obtain ⟨log, f, hl, hf, tag, sid, code, queue⟩ := (Broker.ending_reachable timely).ended w last hw
  have read : f ∈ Broker.said ac log := Broker.mem_said.mpr ⟨hf, by simp [tag]⟩
  obtain ⟨first, after, hs⟩ := List.append_of_mem read
  have sent : Broker.said ac log <+: A.sents n.agent :=
    (Broker.said_suffix hl).trans (h.said_eq ▸ h.fromAgent)
  obtain ⟨rest, hr⟩ := sent
  rw [hs, List.append_assoc, List.cons_append] at hr
  have ⟨printed, n', hn, codes⟩ := A.exit h.agent (h.opens_le fresh f.sid) hr.symm tag
  rw [sid] at printed codes
  refine ⟨?_, n', code ▸ hn, codes⟩
  -- What the agent had sent before its exit frame is on the queue.
  have begun : first.filterMap (Broker.routed s.sid) <+: done.filter (·.t = "out") := by
    rw [h.handled_all only before hd split hw, queue, Broker.outs_eq_said only hl, hs,
      List.filterMap_append]
    exact List.prefix_append ..
  have ⟨b, all, hb⟩ := carries.of_isPrefix begun
  rw [all.unique (carries_routed printed)] at hb
  exact shown.eq_of_length_le hb.length_le

end Alone

-- What the agent was sent of what was typed into the page.
theorem keystrokes (h : Linked sha256 H G num A ac s n) (own : Broker.Own n.broker.shared s) :
    ∃ chunks : List Bytes, (ins s.sid n.toAgent).map (·.data) = chunks.map Base64.encode ∧
      chunks.Sublist n.keys := by
  obtain ⟨_, plain, keys⟩ := h.plain
  obtain ⟨sent, typed, order⟩ := plain.typed
  have relayed := (Broker.relaying_observed h.termReads own).queued ac
  have page : n.fromPage.filterMap (Broker.relayed s) <+: (sents n.page).filterMap (Broker.relayed s) :=
    h.fromPage.filterMap _
  have queue : (ins s.sid n.toAgent).Sublist
      ((Broker.typed s.sid (n.broker.shared.agentConns ac).out).filter (·.t = "in")) := by
    rw [ins_typed]
    exact (h.toAgent_out.filter _).sublist
  have whole := (queue.trans ((relayed.trans page.sublist).filter _)).map (·.data)
  rw [relayed_data] at whole
  replace whole := typed ▸ whole
  obtain ⟨chunks, hc, data⟩ := List.sublist_map_iff.mp whole
  exact ⟨chunks, data, keys ▸ hc.trans ((List.sublist_append_left ..).trans order)⟩

end Linked

theorem own_of_opened (h : (Network.system sha256 H G num A ac s).Reachable n)
    (fresh : n.broker.shared.FreshSids) (opened : (s, ac) ∈ n.broker.shared.opens) :
    Broker.Own n.broker.shared s :=
  have reachable := (linked_reachable h).reachable
  Broker.own_of_fresh reachable fresh ((Broker.handles_reachable reachable).left.opens opened)

-- What is on the terminal is what the shell printed, up to some point: nothing is lost before it,
-- nothing is written twice and nothing comes from another shell.
theorem output_end_to_end (h : (Network.system sha256 H G num A ac s).Reachable n)
    (fresh : n.broker.shared.FreshSids) (opened : (s, ac) ∈ n.broker.shared.opens)
    (others : Others n.broker.shared ac) :
    n.page.term.flatten <+: A.printed n.agent s.sid := by
  have linked := linked_reachable h
  have only := linked.only fresh opened others
  have before := before_reachable h (own_of_opened h fresh opened) only
  obtain ⟨_, _, _, hd, term, _⟩ := linked.handled
  exact (linked.shown fresh only before hd term).right

-- The banner tells the truth: it is one of the broker's own, or that of an exit of the shell, with the
-- code of the shell. Then the terminal has all that the shell printed.
theorem banner_end_to_end (h : (Network.system sha256 H G num A ac s).Reachable n)
    (fresh : n.broker.shared.FreshSids) (opened : (s, ac) ∈ n.broker.shared.opens)
    (others : Others n.broker.shared ac) (text : String) (ht : n.page.text = some text) :
    text = Panel.closeThis "disconnected from broker" ∨
    (∃ msg ∈ Broker.banners, text = Panel.closeThis msg) ∨
    ∃ code, text = Panel.exited num code ∧
      (code ∈ A.codes n.agent s.sid ∨ A.ran n.agent s.sid = [] ∧ code = 127) ∧
      n.page.term.flatten = A.printed n.agent s.sid := by
  have linked := linked_reachable h
  have only := linked.only fresh opened others
  have before := before_reachable h (own_of_opened h fresh opened) only
  obtain ⟨hs, done, frames, hd, term, shown⟩ := linked.handled
  obtain ⟨msg, cause, rfl⟩ := Option.map_eq_some_iff.mp (shown.symm.trans ht)
  obtain ⟨d, mem, banner⟩ := List.exists_of_findSome?_eq_some (Option.join_eq_some_iff.mp cause)
  cases d
  case typed => contradiction
  case disconnected =>
    cases banner
    exact .inl rfl
  case handled m =>
    have handled : m ∈ Panel.frames hs := List.mem_filterMap.mpr ⟨_, mem, rfl⟩
    obtain ⟨w, hw, rfl⟩ := List.mem_map.mp (frames ▸ handled)
    obtain ⟨first, after, whole⟩ := List.append_of_mem hw
    replace banner : Panel.closing (Json.parse num w.writeJSON) = some (some msg) := banner
    have queue : w ∈ (n.broker.shared.sessConns s).out := hd.subset hw
    rcases (Broker.tells_reachable linked.reachable).left queue with tag | tag | ⟨tag, cause⟩
    case inl =>
      rw [Panel.closing_parse] at banner
      simp [tag] at banner
    case inr.inl =>
      have ⟨printed, code, hc, codes⟩ := linked.finished fresh only before hd term whole tag
      have exit := @Panel.closing_exit num _ _ tag hc
      rw [banner] at exit
      exact .inr (.inr ⟨code, Option.some.inj (Option.some.inj exit), codes, printed⟩)
    case inr.inr =>
      have mem : w.msg ∈ Broker.banners := by
        refine cause.resolve_right ?_
        rintro ⟨a, f, hf, ht, hs, _⟩
        obtain rfl : a = ac := only a f hf (.inr (.inr ht)) hs
        exact (linked.answered hf (by simp [ht])).left ht
      have unempty : w.msg ≠ "" := by
        rintro he
        simp [he, Broker.banners] at mem
      cases (Panel.closing_err tag unempty).symm.trans banner
      exact .inr (.inl ⟨w.msg, mem, rfl⟩)

-- What the shell was given are pieces that begin what was typed into the page, in this order. None is
-- given twice.
theorem keystrokes_end_to_end (h : (Network.system sha256 H G num A ac s).Reachable n)
    (fresh : n.broker.shared.FreshSids) (opened : (s, ac) ∈ n.broker.shared.opens) :
    List.SublistForall₂ (· <+: ·) (A.given n.agent s.sid) n.keys := by
  have linked := linked_reachable h
  have ⟨chunks, data, order⟩ := linked.keystrokes (own_of_opened h fresh opened)
  have given := A.typed linked.agent (linked.opens_le fresh s.sid) data
  obtain ⟨l, pieces, hl⟩ := List.sublistForall₂_iff.mp given
  exact List.sublistForall₂_iff.mpr ⟨l, pieces, hl.trans order⟩

-- No more than one shell is run for the session, on the machine that it was minted for, and it runs the
-- command that it was minted with.
theorem command_end_to_end (h : (Network.system sha256 H G num A ac s).Reachable n)
    (fresh : n.broker.shared.FreshSids) :
    (A.ran n.agent s.sid).length ≤ 1 ∧ ∀ line ∈ A.ran n.agent s.sid,
      ∃ key p, (s.sid, key, p) ∈ n.broker.shared.mints ∧ p.mid = ac.mid ∧
        line = utf8 p.cmd := by
  have linked := linked_reachable h
  have ran := A.ran_le s.sid linked.agent
  refine ⟨?_, fun line hl => ?_⟩
  case refine_1 =>
    exact Nat.le_trans ran.length_le (by simpa using linked.opens_le fresh s.sid)
  case refine_2 =>
    obtain ⟨m, hm, rfl⟩ := List.mem_map.mp (ran.subset hl)
    have ⟨mem, ho⟩ := List.mem_filter.mp hm
    simp only [decide_eq_true_eq] at ho
    have opens := (Broker.opens_reachable linked.reachable).left
    have ⟨key, p, minted, mid, cmd⟩ := opens.commanded (linked.toAgent_out.subset mem) ho.left
    exact ⟨key, p, ho.right ▸ minted, mid, by rw [cmd]⟩

-- The session a0 is opened on machine 5c. The user types "ls" into its page, the shell prints "hi" and
-- exits. `opening` is what the agent does when it is connected, and `running` what it does when the keys
-- have come.
def sampleSession {A : Host} (opening running : List A.Label) (code : Int) : List (Label A) :=
  let toAgent : Label A := .broker (.start 0 (.drainAgent ⟨0, "5c"⟩))
  let toPage : Label A := .broker (.start 0 (.drainSess ⟨1, "a0", "5c"⟩))
  let typing : List (Label A) := [.page (.probe .notOk []), .page (.opened 80 24),
    .page (.onData [108, 115]), .page .send,
    .broker (.step 2 (.frame { t := "resize", c := 80, r := 24 })), .broker (.step 2 .done),
    .broker (.step 2 (.frame { t := "in", data := "bHM=" })), .broker (.step 2 .done), toAgent, toAgent]
  let showing : List (Label A) := [
    .broker (.step 1 (.frame { t := "out", sid := "a0", data := "aGk=" })),
    .broker (.step 1 .done), .broker (.step 1 .done),
    .broker (.step 1 (.frame { t := "exit", sid := "a0", code := some code })),
    .broker (.step 1 .done), .broker (.step 1 .done), toPage, toPage,
    .message { t := "out", data := "aGk=" }, .message { t := "exit", code := some code },
    .page (.handle []), .page (.handle [])]
  Broker.sampleOpened.map .broker ++ [toAgent, toAgent] ++ opening.map .agent ++ typing ++
    running.map .agent ++ showing

def samplePython : Host :=
  python sampleMac sampleGcm fun _ => none

def samplePythonSession : List (Label samplePython) :=
  let env : Contrib.Env := Contrib.sampleEnv
  let opening : List Contrib.Turn := [.frame { t := "hello_ok", id := "5c" } env,
    .frame { t := "open", sid := "a0" } env]
  let running : List Contrib.Turn := [.frame { t := "resize", sid := "a0", c := 80, r := 24 } env,
    .frame { t := "in", sid := "a0", data := "bHM=" } { env with write := some 2 },
    .callback (.readable ⟨0, "a0"⟩ (some [104, 105]) env),
    .callback (.readable ⟨0, "a0"⟩ (some []) env), .callback .pumpOut, .callback .pumpOut]
  sampleSession opening running 137

def sampleGoSession : List (Label go) :=
  let opening : List (Program.Label (E2E.Req Unit) E2E.Input) := [.start 0 (.session "e1" "" "dev"),
    .step 0 .done, .step 0 (.frame { t := "hello_ok", id := "5c" }),
    .step 0 (.frame { t := "open", sid := "a0" }), .step 0 .done, .step 0 .done, .step 0 .done,
    .step 0 .done, .step 0 .done, .start 1 (.pump ⟨1, 0, "a0", none⟩)]
  let running : List (Program.Label (E2E.Req Unit) E2E.Input) := [
    .step 0 (.frame { t := "resize", sid := "a0", c := 80, r := 24 }), .step 0 .done,
    .step 0 (.frame { t := "in", sid := "a0", data := "bHM=" }), .step 0 .done, .step 0 .done,
    .step 1 (.chunk [104, 105]), .step 1 .eof, .step 1 .done, .step 1 .done,
    .step 1 (.exit (.exited 0)), .step 1 .done, .step 1 .done]
  sampleSession opening running 0

def sampleNetwork (A : Host) (agent : A.State) : Network A where
  broker := Broker.initial
  agent  := agent
  page   := {}

def sampleSystem (A : Host) : Transition (Network A) (Label A) :=
  Network.system Broker.sampleSum sampleMac sampleGcm String.ofList A ⟨0, "5c"⟩ ⟨1, "a0", "5c"⟩

-- The agent that sent the frame of an event.
def reader : Broker.Event → Option Broker.AgentConn
  | .read ac _ => some ac
  | _          => none

-- The session of the samples is the only one, and only its own agent speaks.
structure Sampled (A : Host) (n : Network A) : Prop where
  run    : (sampleSystem A).Reachable n
  fresh  : n.broker.shared.FreshSids
  opened : (⟨1, "a0", "5c"⟩, ⟨0, "5c"⟩) ∈ n.broker.shared.opens
  others : Others n.broker.shared ⟨0, "5c"⟩

theorem Sampled.of_run {agent : A.State} {ls : List (Label A)} {o : Option (Network A)}
    (ho : (sampleSystem A).run (sampleNetwork A agent) ls = o) (e : o = some n)
    (init : A.system.Init agent)
    (mints : o.map (fun n => n.broker.shared.mints.map (·.1)) = some ["a0"])
    (opens : o.map (·.broker.shared.opens) = some [(⟨1, "a0", "5c"⟩, ⟨0, "5c"⟩)])
    (readers : o.map (·.broker.shared.log.filterMap reader) = some [⟨0, "5c"⟩, ⟨0, "5c"⟩]) :
    Sampled A n := by
  have init : (sampleSystem A).Init (sampleNetwork A agent) :=
    ⟨Broker.initial_init _, init, ⟨none, rfl⟩, rfl⟩
  refine ⟨.run (.init init) (ho.trans e), ?_, ?_, fun a f hf ha _ => absurd ?_ ha⟩
  case refine_1 => simp [Broker.State.FreshSids, Transition.eq_of_run e mints]
  case refine_2 => simp [Transition.eq_of_run e opens]
  case refine_3 =>
    have mem : a ∈ n.broker.shared.log.filterMap reader := List.mem_filterMap.mpr ⟨_, hf, rfl⟩
    simpa [Transition.eq_of_run e readers] using mem

theorem sampled_python : ∃ n, (sampleSystem samplePython).run (sampleNetwork samplePython ({} : Contrib.State))
    samplePythonSession = some n ∧ Sampled samplePython n := by
  have ran : ((sampleSystem samplePython).run (sampleNetwork samplePython ({} : Contrib.State))
    samplePythonSession).isSome := by decide
  have ⟨n, e⟩ := Option.isSome_iff_exists.mp ran
  exact ⟨n, e, .of_run rfl e rfl (by decide) (by decide) (by decide)⟩

theorem sampled_go : ∃ n, (sampleSystem go).run (sampleNetwork go E2E.sampleEnrolled) sampleGoSession = some n ∧
    Sampled go n := by
  have ran : ((sampleSystem go).run (sampleNetwork go E2E.sampleEnrolled) sampleGoSession).isSome := by
    decide
  have ⟨n, e⟩ := Option.isSome_iff_exists.mp ran
  exact ⟨n, e, .of_run rfl e ⟨rfl, fun _ => rfl⟩ (by decide) (by decide) (by decide)⟩

-- The terminal shows it.
theorem output_end_to_end_sample : ∃ n : Network go,
    n.page.term.flatten = [104, 105] ∧ n.page.term.flatten <+: go.printed n.agent "a0" := by
  have ⟨n, e, sample⟩ := sampled_go
  have term : n.page.term = [[104, 105]] := Transition.eq_of_run (f := (·.page.term)) e (by decide)
  exact ⟨n, by simp [term], output_end_to_end sample.run sample.fresh sample.opened sample.others⟩

theorem banner_end_to_end_sample : ∃ n : Network samplePython,
    n.page.text = some "session ended (exit 137) — close this tab or reopen from the panel" ∧
      n.page.term.flatten = samplePython.printed n.agent "a0" := by
  have ⟨n, e, sample⟩ := sampled_python
  have text : n.page.text = some "session ended (exit 137) — close this tab or reopen from the panel" :=
    Transition.eq_of_run (f := (·.page.text)) e (by decide)
  refine ⟨n, text, ?_⟩
  rcases banner_end_to_end sample.run sample.fresh sample.opened sample.others _ text with
    other | ⟨msg, hm, other⟩ | ⟨_, _, _, printed⟩
  case inl => exact absurd other (by decide)
  case inr.inl =>
    have none : ∀ msg ∈ Broker.banners,
        "session ended (exit 137) — close this tab or reopen from the panel" ≠ Panel.closeThis msg := by
      decide
    exact absurd other (none msg hm)
  case inr.inr => exact printed

theorem keystrokes_end_to_end_sample : ∃ n : Network go, n.keys = [[108, 115]] ∧
    go.given n.agent "a0" = [[108, 115]] ∧
    List.SublistForall₂ (· <+: ·) (go.given n.agent "a0") n.keys := by
  have ⟨n, e, sample⟩ := sampled_go
  exact ⟨n, Transition.eq_of_run (f := (·.keys)) e (by decide),
    Transition.eq_of_run (f := fun n => go.given n.agent "a0") e (by decide),
    keystrokes_end_to_end sample.run sample.fresh sample.opened⟩

theorem command_end_to_end_sample : ∃ n : Network samplePython, samplePython.ran n.agent "a0" = [[]] ∧
    ∀ line ∈ samplePython.ran n.agent "a0", ∃ key p, ("a0", key, p) ∈ n.broker.shared.mints ∧
      p.mid = "5c" ∧ line = utf8 p.cmd := by
  have ⟨n, e, sample⟩ := sampled_python
  exact ⟨n, Transition.eq_of_run (f := fun n => samplePython.ran n.agent "a0") e (by decide),
    (command_end_to_end sample.run sample.fresh).right⟩

end Deployment
