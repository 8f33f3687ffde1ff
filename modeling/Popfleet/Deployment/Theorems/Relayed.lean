import Popfleet.Deployment.Relay

open Proto Program V1e Worker

namespace Deployment

variable {sha256hex : String → String} {H : Mac 32} {G : Gcm tagLen} {ws : Ws} {sid mid : String}
  {r r' : Relay} {σ σ' : Panel.State} {key : Bytes} {fs fs' : List Frame} {f : Frame} {ms : List Json}
  {m : Json} {s : Sock} {listed : Prop}

-- What the page gets for the frames.
def parsed (fs : List Frame) : List (Option Json) :=
  fs.map fun f => some f.json

-- What is written for the frames, with the key.
def shown (G : Gcm tagLen) (key : Bytes) (fs : List Frame) : List Bytes :=
  Panel.plaintexts G key (parsed fs)

theorem plaintexts_isPrefix {ms ms' : List (Option Json)} (h : ms <+: ms') :
    Panel.plaintexts G key ms <+: Panel.plaintexts G key ms' := by
  obtain ⟨rest, rfl⟩ := h
  by_cases hf : ∃ m ∈ ms, Panel.Fails G key m
  case pos =>
    have ⟨_, hm, hf⟩ := hf
    exact (Panel.plaintexts_append_of_fails hm hf).symm ▸ List.prefix_refl _
  case neg =>
    rw [Panel.plaintexts_append fun m hm hf' => hf ⟨m, hm, hf'⟩]
    exact List.prefix_append ..

theorem shown_isPrefix (h : fs <+: fs') : shown G key fs <+: shown G key fs' :=
  plaintexts_isPrefix (h.map _)

-- Only out frames are written.

theorem outValue_json (ht : f.t ≠ "out") : Panel.outValue (some f.json) = none := by
  simp [Panel.outValue, Frame.json, Json.field, Json.is, ht]

theorem shown_concat (ht : f.t ≠ "out") : shown G key (fs ++ [f]) = shown G key fs := by
  rw [shown, parsed, List.map_append]
  exact Panel.plaintexts_concat (Panel.plaintexts_ignored (by simpa using outValue_json ht))

theorem shown_cons (ht : f.t ≠ "out") : shown G key (f :: fs) = shown G key fs := by
  simp only [shown, parsed, List.map_cons, Panel.plaintexts, outValue_json ht]

-- What is written for what a terminal is sent is what the agents said for its session.
theorem shown_stream (h : Stream sid [{ t := "e2e" }] listed ms s) :
    shown G key s.sent <+: shown G key (ms.filterMap (routed sid)) := by
  have announced (fs) : shown G key ([{ t := "e2e" }] ++ fs) = shown G key fs := shown_cons (by simp)
  cases h
  case running done rest hl out hc sent =>
    rw [sent, announced, List.filterMap_append]
    exact shown_isPrefix (List.prefix_append ..)
  case ended done m rest f hf ht out hc sent =>
    rw [sent, List.append_assoc, announced, List.filterMap_append, List.filterMap_cons_some hf]
    exact shown_isPrefix ⟨rest.filterMap (routed sid), by simp⟩
  case dropped done rest why hw out hc sent =>
    rw [sent, shown_concat (by simp), announced, List.filterMap_append]
    exact shown_isPrefix (List.prefix_append ..)

-- What the parties did.
structure Relayed (sha256hex : String → String) (H : Mac 32) (G : Gcm tagLen) (ws : Ws)
    (sid mid : String) (r : Relay) : Prop where
  worker   : (Worker.program sha256hex).system.Reachable r.worker
  page     : (Panel.system H G sid).ReachableUnder (Panel.Intact G) r.page
  received : r.page.received = parsed r.toPage
  terminal : r.worker.shared.Once sid →
    r.worker.shared.attachment ws = some (.term sid mid) ∧ r.toPage <+: (r.worker.shared.socks ws).sent ∧
      Stream sid [{ t := "e2e" }] (ws ∈ r.worker.shared.listed) r.said (r.worker.shared.socks ws)

-- Only a message adds to what was received.
theorem received_step {l : Panel.Label} (e : Panel.step H G sid σ l = some σ')
    (hl : ¬Relay.Label.receives l) : σ'.received = σ.received := by
  cases Panel.Exec.of e
  case received => simp [Relay.Label.receives] at hl
  all_goals rfl

theorem relayed_step {l : Relay.Label} (e : Relay.step sha256hex H G ws sid mid r l = some r')
    (intact : r.Intact G l) (h : Relayed sha256hex H G ws sid mid r) :
    Relayed sha256hex H G ws sid mid r' := by
  cases l <;> simp only [Relay.step, Option.bind_eq_bind, Option.pure_def, Option.bind_eq_some_iff,
    Option.some.injEq] at e
  case worker l =>
    obtain ⟨worker, e, rfl⟩ := e
    refine ⟨h.worker.step trivial e, h.page, h.received, fun once => ?_⟩
    have ⟨ht, toPage, stream⟩ := h.terminal (once_of_step h.worker e once)
    have ⟨ht', sent, step⟩ := terminal_step h.worker e once ht
    exact ⟨ht', toPage.trans sent, step _ _ stream⟩
  case message =>
    obtain ⟨f, hf, page, e, rfl⟩ := e
    have message : Panel.Intact G r.page (.message (some f.json)) :=
      ⟨.inr fun _ hm => by contradiction, fun _ _ _ hm => by contradiction⟩
    refine ⟨h.worker, h.page.step message e, ?_, fun once => ?_⟩
    case refine_1 =>
      have ⟨_, e⟩ := Option.ite_none_right_eq_some.mp e
      cases e
      rw [Panel.received_record, parsed, List.map_append]
      exact congrArg (· ++ _) h.received
    case refine_2 =>
      have ⟨ht, toPage, stream⟩ := h.terminal once
      exact ⟨ht, Fifo.next_isPrefix toPage hf, stream⟩
  case page l =>
    split at e
    case isTrue => contradiction
    case isFalse hl =>
      simp only [Option.bind_eq_some_iff, Option.some.injEq] at e
      obtain ⟨page, e, rfl⟩ := e
      exact ⟨h.worker, h.page.step intact e, (received_step e hl).trans h.received, h.terminal⟩

theorem relayed_reachable
    (h : (Relay.system sha256hex H G ws sid mid).ReachableUnder (Relay.Intact G) r) :
    Relayed sha256hex H G ws sid mid r := by
  refine h.invariant (I := Relayed sha256hex H G ws sid mid) ?_ ?_
  case refine_1 =>
    rintro r ⟨worker, ht, hc, sent, page, hr⟩
    have said : r.said = [] := by rw [hr]
    have toPage : r.toPage = [] := by rw [hr]
    refine ⟨worker, .init page, ?_, fun _ => ⟨ht, by simp [toPage], ?_⟩⟩
    case refine_1 =>
      obtain ⟨stored, hp⟩ := page
      simp [hp, toPage, parsed, Panel.State.received]
    case refine_2 =>
      rw [said]
      exact @Stream.running _ _ _ [] [] _ (fun _ => rfl) (by simp) hc (by simp [sent])
  case refine_2 => exact fun _ _ _ _ hi ok e => relayed_step e ok hi

-- In every run of the relay with a page in e2e mode: without a key nothing is written, and with one a
-- prefix of what the out frames open to that the agents of the machine say for the session. It is all of
-- it when the page has handled all that it is sent while the session runs.
theorem relay_output (h : (Relay.system sha256hex H G ws sid mid).ReachableUnder (Relay.Intact G) r)
    (once : r.worker.shared.Once sid) :
    (r.page.aead = none → r.page.term = []) ∧ ∀ key, r.page.aead = some key →
      r.page.term <+: shown G key (r.said.filterMap (routed sid)) ∧
      (ws ∈ r.worker.shared.listed → (r.worker.shared.socks ws).closed = none →
        r.toPage = (r.worker.shared.socks ws).sent → r.page.recv = [] → r.page.handling = none →
        r.page.term = shown G key (r.said.filterMap (routed sid))) := by
  have relayed := relayed_reachable h
  have ⟨_, toPage, stream⟩ := relayed.terminal once
  have ⟨done, cur, handled, _⟩ := Panel.stream_reachable relayed.page
  have split : parsed r.toPage = done ++ (cur.toList ++ r.page.recv) :=
    relayed.received.symm.trans (handled.received.trans (List.append_assoc ..))
  refine ⟨fun ha => (handled.unkeyed ha).left, fun key ha => ?_⟩
  rw [handled.keyed key ha]
  refine ⟨?_, fun here running all recv handling => ?_⟩
  case refine_1 =>
    have before : done <+: parsed r.toPage := split ▸ List.prefix_append ..
    exact (plaintexts_isPrefix before).trans ((shown_isPrefix toPage).trans (shown_stream stream))
  case refine_2 =>
    rw [handled.idle handling, recv, List.append_nil, all, stream.whole here running] at split
    have finished : done = parsed ([{ t := "e2e" }] ++ r.said.filterMap (routed sid)) := by
      simpa using split.symm
    rw [finished]
    exact shown_cons (by simp)

-- A test that implies `Relay.Intact`.
def intact (r : Relay) : Relay.Label → Bool
  | .page l => Panel.intact r.page l
  | _       => true

theorem intact_of {l : Relay.Label} (h : intact r l) : r.Intact G l := by
  cases l
  case page => exact Panel.intact_of h
  all_goals trivial

-- The shell of a0 prints "ls".
def sampleOutput : Json :=
  .obj [("t", .str "out"), ("sid", .str "a0"),
    ("data", .str "AAAAAAAAAAAAAAAA6Al9e0SkO+GCgM4gEj+2mltf")]

def sampleRelayed : List Relay.Label :=
  [.page (.probe (.json (.obj [("e2e", .bool true)])) []), .page (.derived []), .page (.opened 80 24),
    .worker (.start 0 (.webSocketMessage ⟨0, [.agent]⟩ (some sampleOutput))), .message,
    .page (.handle []), .message, .page (.handle []), .page (.settle [])]

theorem relay_output_sample :
    let term : Ws := ⟨1, [.term, .sid "a0", .mid "5c"]⟩
    let key := sessionKey sampleMac sampleKey "a0"
    ∃ c r, (program id).system.run initial sampleTerm = some c ∧
      (Relay.system id sampleMac sampleGcm term "a0" "5c").runWhile intact
        { worker := c, page := Panel.withKey } sampleRelayed = some r ∧
      r.page.term = [[108, 115]] ∧
      r.page.term <+: shown sampleGcm key ([sampleOutput].filterMap (routed "a0")) := by
  intro term key
  let T := Relay.system id sampleMac sampleGcm term "a0" "5c"
  let opened := (program id).system.run initial sampleTerm
  let ran := opened.bind fun c => T.runWhile intact { worker := c, page := Panel.withKey } sampleRelayed
  have ends : ran.isSome := by decide
  obtain ⟨r, e⟩ := Option.isSome_iff_exists.mp ends
  obtain ⟨c, e₁, e₂⟩ := Option.bind_eq_some_iff.mp e
  have init : T.Init { worker := c, page := Panel.withKey } :=
    ⟨.run (.init initial_init) e₁,
      Transition.eq_of_run (f := (·.shared.attachment term)) e₁ (by decide),
      Transition.eq_of_run (f := fun c => (c.shared.socks term).closed) e₁ (by decide),
      Transition.eq_of_run (f := fun c => (c.shared.socks term).sent) e₁ (by rfl), ⟨_, rfl⟩, rfl⟩
  have h : T.ReachableUnder (Relay.Intact sampleGcm) r :=
    .runWhile (.init init) (fun _ _ => intact_of) e₂
  have value {α : Type} {f : Relay → α} {v : α} (hv : ran.map f = some v) : f r = v := by
    rw [e] at hv
    exact Option.some.inj hv
  have accepts : r.worker.shared.accepts = [("a0", "7d")] :=
    value (f := (·.worker.shared.accepts)) (by rfl)
  have aead : r.page.aead = some key := value (f := (·.page.aead)) (by rfl)
  have said : r.said = [sampleOutput] := value (f := Relay.said) (by rfl)
  have ⟨_, written⟩ := relay_output h (by simp [State.Once, accepts])
  exact ⟨c, r, e₁, e₂, value (f := (·.page.term)) (by rfl), said ▸ (written key aead).left⟩

end Deployment
