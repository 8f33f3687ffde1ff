import Popfleet.Panel.Theorems.Downgrade

open Proto V1e Worker

namespace Panel

variable {H : Mac 32} {G : Gcm tagLen} {sid : String} {σ σ' : State} {l : Label} {key : Bytes}
  {m : Option Json} {ms ms' : List (Option Json)}

-- The frames that were received, in their order.
def State.received (σ : State) : List (Option Json) :=
  (σ.log.filterMap fun | .received m => some m | _ => none).reverse

theorem received_record : (σ.record (.received m)).received = σ.received ++ [m] := by
  simp [State.received, State.record]

-- An out frame that fails authentication.
def Fails (G : Gcm tagLen) (key : Bytes) (m : Option Json) : Prop :=
  ∃ data, outValue m = some data ∧ data.bind (V1e.Panel.unsealed G key) = none

-- The plaintexts of the out frames before the first one that fails.
def plaintexts (G : Gcm tagLen) (key : Bytes) : List (Option Json) → List Bytes
  | []      => []
  | m :: ms =>
    match outValue m with
    | none      => plaintexts G key ms
    | some data =>
      match data.bind (V1e.Panel.unsealed G key) with
      | some b => b :: plaintexts G key ms
      | none   => []

-- The page is in e2e mode: the probe found it, or each out frame is handled with the key. When an out
-- frame fails, no out frame that opens is queued behind it.
def Intact (G : Gcm tagLen) (σ : State) (l : Label) : Prop :=
  (.probed true ∈ σ.log ∨ ∀ answers, l = .handle answers → ∀ m recv data, σ.recv = m :: recv →
    outValue m = some data → σ.aead ≠ none) ∧
  ∀ answers key data, l = .settle answers → σ.handling = some (.unsealing key data) →
    data.bind (V1e.Panel.unsealed G key) = none → ∀ m ∈ σ.recv, outValue m ≠ none → Fails G key m

theorem plaintexts_append (h : ∀ m ∈ ms, ¬Fails G key m) :
    plaintexts G key (ms ++ ms') = plaintexts G key ms ++ plaintexts G key ms' := by
  induction ms
  case nil => rfl
  case cons m ms hi =>
    have ⟨hm, h⟩ := List.forall_mem_cons.mp h
    simp only [List.cons_append, plaintexts]
    split
    case h_1 => exact hi h
    case h_2 data ho =>
      split
      case h_1    => rw [hi h, List.cons_append]
      case h_2 hd => exact absurd ⟨data, ho, hd⟩ hm

-- What follows a failure adds nothing.
theorem plaintexts_append_of_fails (hm : m ∈ ms) (hf : Fails G key m) :
    plaintexts G key (ms ++ ms') = plaintexts G key ms := by
  induction ms
  case nil => contradiction
  case cons m' ms hi =>
    have ⟨data, hd, hu⟩ := hf
    simp only [List.cons_append, plaintexts]
    rcases List.mem_cons.mp hm with rfl | hm
    · simp only [hd, hu]
    · rw [hi hm]

theorem plaintexts_ignored (h : ∀ m ∈ ms, outValue m = none) : plaintexts G key ms = [] := by
  induction ms
  case nil => rfl
  case cons m ms hi =>
    have ⟨hm, h⟩ := List.forall_mem_cons.mp h
    simp only [plaintexts, hm, hi h]

-- A frame of which nothing is written adds nothing.
theorem plaintexts_concat (h : plaintexts G key [m] = []) :
    plaintexts G key (ms ++ [m]) = plaintexts G key ms := by
  by_cases hf : ∃ m ∈ ms, Fails G key m
  case pos =>
    have ⟨_, hm, hf⟩ := hf
    exact plaintexts_append_of_fails hm hf
  case neg => rw [plaintexts_append fun m hm hf' => hf ⟨m, hm, hf'⟩, h, List.append_nil]

theorem not_fails_of_ignored (h : outValue m = none) : ¬Fails G key m := by
  rintro ⟨data, hd, _⟩
  simp [h] at hd

theorem mem_of_fails {m' : Option Json} (hm : m' ∈ ms ++ [m]) (hf : Fails G key m')
    (h : ¬Fails G key m) : m' ∈ ms := by
  rcases List.mem_append.mp hm with hm | hm
  · exact hm
  · exact absurd (List.mem_singleton.mp hm ▸ hf) h

-- The page after a failure, when what is queued fails as well.
structure Dead (G : Gcm tagLen) (key : Bytes) (σ : State) : Prop where
  keyed    : σ.aead = some key
  ws       : σ.ws = .closing ∨ σ.ws = .closed
  recv     : ∀ m ∈ σ.recv, outValue m ≠ none → Fails G key m
  handling : ∀ key' data, σ.handling = some (.unsealing key' data) →
    data.bind (V1e.Panel.unsealed G key) = none

theorem Dead.ws_ne (d : Dead G key σ) : σ.ws ≠ .null ∧ σ.ws ≠ .connecting ∧ σ.ws ≠ .opened := by
  rcases d.ws with h | h <;> simp [h]

theorem Dead.step (k : Keyed σ) (d : Dead G key σ) (e : step H G sid σ l = some σ') :
    Dead G key σ' ∧ σ'.term = σ.term := by
  have ⟨null, connecting, opened⟩ := d.ws_ne
  have returned := k.returned null
  have taken {m recv} (hr : σ.recv = m :: recv) : ∀ m ∈ recv, outValue m ≠ none → Fails G key m :=
    fun m hm => d.recv m (hr ▸ List.mem_cons_of_mem _ hm)
  cases Exec.of e
  case unprobed h | asked h | declined h | plain h | keyed h => simp [returned] at h
  case opened h   => contradiction
  case received h => contradiction
  case passed hr _ => exact ⟨{ d with recv := taken hr }, rfl⟩
  case importing ha => simp [d.keyed] at ha
  case unsealing hr ho _ =>
    refine ⟨{ d with recv := taken hr, handling := fun _ _ hu => ?_ }, rfl⟩
    cases hu
    have ⟨data, hd, hf⟩ := d.recv _ (hr ▸ List.mem_cons_self) (by simp [ho])
    cases ho.symm.trans hd
    exact hf
  case rendered ha _ => simp [d.keyed] at ha
  case imported hh =>
    have unkeyed := k.importing _ _ hh
    simp [d.keyed] at unkeyed
  case unsealed hh hb =>
    have same := Option.some.inj (d.keyed.symm.trans (k.unsealing _ _ hh))
    simp [same ▸ d.handling _ _ hh] at hb
  case tampered hw => exact ⟨{ d with ws := hw, handling := nofun }, rfl⟩
  case typed | skipped | sealing | clear | encrypted | unsent | resized => exact ⟨{ d with }, rfl⟩
  case unresized => exact ⟨d, rfl⟩
  case closed => exact ⟨{ d with ws := .inr rfl }, rfl⟩

theorem Dead.after (h : (system H G sid).Reachable σ) (d : Dead G key σ)
    (ha : ((system H G sid).after σ).Reachable σ') : Dead G key σ' ∧ σ'.term = σ.term := by
  induction ha
  case init hi =>
    obtain rfl : _ = σ := hi
    exact ⟨d, rfl⟩
  case step ha _ e hi =>
    have ⟨d, ht⟩ := hi
    have ⟨d, ht'⟩ := d.step (keyed_reachable (h.after ha)) e
    exact ⟨d, ht'.trans ht⟩

-- The value of the frame that is being handled.
@[simp]
def Handling.value : Handling → Option (Option String)
  | .importing _ _    => none
  | .unsealing _ data => some data

-- The frames received are those that were handled, the one that is being handled, and those in the
-- queue.
structure Stream (G : Gcm tagLen) (σ : State) (done : List (Option Json)) (cur : Option (Option Json)) :
    Prop where
  received : σ.received = done ++ cur.toList ++ σ.recv
  handling : σ.handling.map Handling.value = cur.map outValue
  unkeyed  : σ.aead = none → σ.term = [] ∧ ∀ m ∈ done, outValue m = none
  keyed    : ∀ key, σ.aead = some key → σ.term = plaintexts G key done

namespace Stream

variable {done recv : List (Option Json)} {cur : Option (Option Json)} {stored : Option String}
  {data : Option String} {b : Bytes}

theorem idle (s : Stream G σ done cur) (hh : σ.handling = none) : cur = none := by
  have hc := s.handling
  rw [hh] at hc
  exact Option.map_eq_none_iff.mp hc.symm

theorem busy {h : Handling} (s : Stream G σ done cur) (hh : σ.handling = some h) :
    ∃ m, cur = some m ∧ outValue m = h.value := by
  have hc := s.handling
  rw [hh] at hc
  exact Option.map_eq_some_iff.mp hc.symm

-- What becomes of the next frame of the queue, and of the frame that is being handled.

theorem taken {h : Handling} (s : Stream G σ done cur) (hh : σ.handling = none) (hr : σ.recv = m :: recv)
    (ho : outValue m = h.value) :
    Stream G { σ with recv, stored, handling := some h } done (some m) := by
  cases s.idle hh
  exact { s with received := s.received.trans (by simp [hr]), handling := congrArg some ho.symm }

theorem passed {ended : Bool} {text : Option String} (s : Stream G σ done cur)
    (hh : σ.handling = none) (hr : σ.recv = m :: recv) (ho : outValue m = none) :
    Stream G { σ with recv, stored, ended, text } (done ++ [m]) none := by
  cases s.idle hh
  have adds (key : Bytes) : plaintexts G key [m] = [] := by simp [plaintexts, ho]
  refine {
    received := s.received.trans (by simp [hr])
    handling := s.handling
    unkeyed  := fun ha => ?_
    keyed    := fun key ha => (s.keyed key ha).trans (plaintexts_concat (adds key)).symm }
  have ⟨ht, hd⟩ := s.unkeyed ha
  exact ⟨ht, List.forall_mem_append.mpr ⟨hd, by simpa using ho⟩⟩

theorem derived (s : Stream G σ done cur) (hu : σ.aead = none) :
    Stream G { σ with aead := some key } done cur := by
  have ⟨ht, hd⟩ := s.unkeyed hu
  exact { s with unkeyed := nofun, keyed := fun _ _ => ht.trans (plaintexts_ignored hd).symm }

theorem finished (s : Stream G σ done (some m)) (hu : σ.aead = none → outValue m = none)
    (ha : ∀ key, σ.aead = some key → plaintexts G key [m] = []) :
    Stream G { σ with handling := none } (done ++ [m]) none where
  received := s.received.trans (by simp)
  handling := rfl
  unkeyed hn :=
    have ⟨ht, hd⟩ := s.unkeyed hn
    ⟨ht, List.forall_mem_append.mpr ⟨hd, by simpa using hu hn⟩⟩
  keyed key hk := (s.keyed key hk).trans (plaintexts_concat (ha key hk)).symm

theorem unsealed (s : Stream G σ done (some m)) (ha : σ.aead = some key) (ho : outValue m = some data)
    (hb : data.bind (V1e.Panel.unsealed G key) = some b) (alive : ∀ m ∈ done, ¬Fails G key m) :
    Stream G { σ with term := σ.term ++ [b], handling := none } (done ++ [m]) none where
  received := s.received.trans (by simp)
  handling := rfl
  unkeyed hn := nomatch ha.symm.trans hn
  keyed key' ha' := by
    cases ha.symm.trans ha'
    calc
      _ = plaintexts G key done ++ [b]                  := congrArg (· ++ [b]) (s.keyed key ha)
      _ = plaintexts G key done ++ plaintexts G key [m] := by simp [plaintexts, ho, hb]
      _ = _                                             := (plaintexts_append alive).symm

end Stream

theorem stream_reachable (h : (system H G sid).ReachableUnder (Intact G) σ) :
    ∃ done cur, Stream G σ done cur ∧
      ∀ key, σ.aead = some key → ∀ m ∈ done, Fails G key m → Dead G key σ := by
  refine h.invariant (I := fun σ => ∃ done cur, Stream G σ done cur ∧
    ∀ key, σ.aead = some key → ∀ m ∈ done, Fails G key m → Dead G key σ) ?init ?step
  case init =>
    rintro _ ⟨stored, rfl⟩
    exact ⟨[], none, ⟨rfl, rfl, by simp, nofun⟩, nofun⟩
  case step =>
    intro σ l σ' h ⟨done, cur, s, dead⟩ ⟨mode, last⟩ e
    have k := keyed_reachable h.reachable
    have dies key (ha : σ.aead = some key) m (hm : m ∈ done) (hf : Fails G key m) : Dead G key σ' :=
      (Dead.step k (dead key ha m hm hf) e).left
    have e2e {answers m recv data} (hr : σ.recv = m :: recv) (ho : outValue m = some data)
        (hl : l = .handle answers) : σ.aead ≠ none := by
      rcases mode with hp | hm
      · have ⟨key, ha⟩ := k.probed hp (k.ws_ne_of_recv hr)
        simp [ha]
      · exact hm _ hl _ _ _ hr ho
    cases Exec.of e
    case unprobed | asked | declined | plain | opened | typed | skipped | sealing | clear | encrypted |
        unsent | resized | closed =>
      exact ⟨done, cur, { s with }, dies⟩
    case unresized => exact ⟨done, cur, s, dies⟩
    case keyed hi =>
      have ⟨_, unkeyed⟩ := k.init (by simp [hi])
      have ⟨_, ignored⟩ := s.unkeyed unkeyed
      refine ⟨done, cur, { s.derived unkeyed with }, fun _ _ m hm hf => ?_⟩
      exact absurd hf (not_fails_of_ignored (ignored m hm))
    case received m hw =>
      refine ⟨done, cur, { s with received := ?_ }, dies⟩
      calc
        _ = σ.received ++ [m]                     := received_record
        _ = done ++ cur.toList ++ (σ.recv ++ [m]) := by rw [s.received, List.append_assoc]
    case passed m recv _ _ _ _ hh hr h =>
      have ho : outValue m = none := by
        cases ho : outValue m
        case none => rfl
        case some => exact absurd (h.resolve_left (by simp [ho])) (e2e hr ho rfl)
      refine ⟨done ++ [m], none, s.passed hh hr ho, fun key ha m' hm hf => ?_⟩
      exact dies key ha m' (mem_of_fails hm hf (not_fails_of_ignored ho)) hf
    case importing m _ _ _ _ _ hh hr ho _ => exact ⟨done, some m, s.taken hh hr ho, dies⟩
    case unsealing m _ _ _ _ hh hr ho _ => exact ⟨done, some m, s.taken hh hr ho, dies⟩
    case rendered hr ho ha _ => exact absurd ha (e2e hr ho rfl)
    case imported hh =>
      have unkeyed := k.importing _ _ hh
      have ⟨_, ignored⟩ := s.unkeyed unkeyed
      obtain ⟨m, rfl, ho⟩ := s.busy hh
      have ended := s.finished (fun _ => ho) (fun _ ha => nomatch unkeyed.symm.trans ha)
      refine ⟨done ++ [m], none, { ended.derived unkeyed with }, fun _ _ m' hm hf => ?_⟩
      exact absurd hf (not_fails_of_ignored (ignored m' (mem_of_fails hm hf (not_fails_of_ignored ho))))
    case unsealed key data b hh hb =>
      have ha := k.unsealing _ _ hh
      obtain ⟨m, rfl, ho⟩ := s.busy hh
      -- The key is still asked for the value, hence no frame has failed before.
      have alive : ∀ m ∈ done, ¬Fails G key m := by
        intro m hm hf
        simp [(dead key ha m hm hf).handling _ _ hh] at hb
      have opens : ¬Fails G key m := by
        rintro ⟨data', ho', hf⟩
        cases ho.symm.trans ho'
        simp [hb] at hf
      refine ⟨done ++ [m], none, s.unsealed ha ho hb alive, fun key' ha' m' hm hf => ?_⟩
      cases ha.symm.trans ha'
      exact absurd hf (alive m' (mem_of_fails hm hf opens))
    case tampered key data _ _ _ _ hh hb hw =>
      have ha := k.unsealing _ _ hh
      obtain ⟨m, rfl, ho⟩ := s.busy hh
      have silent key' (ha' : σ.aead = some key') : plaintexts G key' [m] = [] := by
        cases ha.symm.trans ha'
        simp [plaintexts, ho, hb]
      have ended := s.finished (fun hn => nomatch ha.symm.trans hn) silent
      refine ⟨done ++ [m], none, { ended with }, fun key' ha' _ _ _ => ?_⟩
      cases ha.symm.trans ha'
      exact { keyed := ha, ws := hw, recv := last _ _ _ rfl hh hb, handling := nofun }

-- In e2e mode, as long as no frame that opens is queued behind the first one that fails, the plaintexts
-- of the out frames before that one are written, and nothing is written after it in any run.
theorem fails_closed (h : (system H G sid).ReachableUnder (Intact G) σ) :
    ∃ done rest, σ.received = done ++ rest ∧
      rest.length = σ.handling.toList.length + σ.recv.length ∧
      (σ.aead = none → σ.term = [] ∧ ∀ m ∈ done, outValue m = none) ∧
      ∀ key, σ.aead = some key → σ.term = plaintexts G key done ∧
        ∀ m ∈ done, Fails G key m → ∀ σ', ((system H G sid).after σ).Reachable σ' → σ'.term = σ.term := by
  have ⟨done, cur, s, dead⟩ := stream_reachable h
  have hl : cur.toList.length = σ.handling.toList.length := by
    cases hh : σ.handling
    case none      => rw [s.idle hh]; rfl
    case some busy =>
      have ⟨m, hc, _⟩ := s.busy hh
      rw [hc]
      rfl
  refine ⟨done, cur.toList ++ σ.recv, by rw [← List.append_assoc, s.received], ?_, s.unkeyed, ?_⟩
  · rw [List.length_append, hl]
  · intro key ha
    refine ⟨s.keyed key ha, fun m hm hf σ' h' => ?_⟩
    exact ((dead key ha m hm hf).after h.reachable h').right

-- The last bit of the tag is not the one that was sealed.
def tampered : Json := .obj [("t", .str "out"), ("data", .str "AAAAAAAAAAAAAAAA6Al9e0SkO+GCgM4gEj+2mltg")]

-- Each frame is handled before the next one arrives.
def killedRun : List Label :=
  [.probe (.json (.obj [("e2e", .bool true)])) [], .derived [], .opened 80 24, .message output,
    .handle [], .settle [], .message tampered, .handle [], .settle []]

-- A test that implies `Intact`.
def intact (σ : State) : Label → Bool
  | .handle _ => σ.probed
  | .settle _ => σ.recv.all fun m => outValue m = none
  | _         => true

theorem intact_of (h : intact σ l) : Intact G σ l := by
  cases l
  case handle => exact ⟨.inl (mem_of_probed h), nofun⟩
  case settle =>
    refine ⟨.inr nofun, fun _ _ _ _ _ _ m hm ho => ?_⟩
    exact absurd (of_decide_eq_true (List.all_eq_true.mp h m hm)) ho
  all_goals exact ⟨.inr nofun, nofun⟩

theorem fails_closed_sample :
    ∃ σ, (system sampleMac sampleGcm "a0").runWhile intact withKey killedRun = some σ ∧
      σ.received = [some output, some tampered] ∧ σ.term = [[108, 115]] ∧
      ∀ σ', ((system sampleMac sampleGcm "a0").after σ).Reachable σ' → σ'.term = [[108, 115]] := by
  have ran : ((system sampleMac sampleGcm "a0").runWhile intact withKey killedRun).isSome := by decide
  have ⟨σ, e⟩ := Option.isSome_iff_exists.mp ran
  have init : (system sampleMac sampleGcm "a0").Init withKey := ⟨_, rfl⟩
  have h : (system sampleMac sampleGcm "a0").ReachableUnder (Intact sampleGcm) σ :=
    .runWhile (.init init) (fun _ _ => intact_of) e
  have received : σ.received = [some output, some tampered] :=
    Transition.eq_of_run (f := State.received) e rfl
  have aead : σ.aead = some (sessionKey sampleMac sampleKey "a0") :=
    Transition.eq_of_run (f := State.aead) e (by decide)
  have left : σ.handling.toList.length + σ.recv.length = 0 :=
    Transition.eq_of_run (f := fun σ => σ.handling.toList.length + σ.recv.length) e (by decide)
  have term : σ.term = [[108, 115]] := Transition.eq_of_run (f := State.term) e (by decide)
  have ⟨done, rest, hd, hl, _, written⟩ := fails_closed h
  have ⟨_, last⟩ := written _ aead
  have all : done = [some output, some tampered] := by
    rw [← received, hd, List.eq_nil_of_length_eq_zero (hl.trans left), List.append_nil]
  have fails : Fails sampleGcm (sessionKey sampleMac sampleKey "a0") tampered := ⟨_, rfl, by decide⟩
  exact ⟨σ, e, received, term, fun σ' h' => (last tampered (by simp [all]) fails σ' h').trans term⟩

-- A frame that opens is already queued when the tampered one fails.
def queuedRun : List Label :=
  [.probe (.json (.obj [("e2e", .bool true)])) [], .derived [], .opened 80 24, .message tampered,
    .message output, .handle [], .settle [], .handle [], .settle []]

theorem rendered_after_failure :
    ∃ σ, (system sampleMac sampleGcm "a0").run withKey queuedRun = some σ ∧ .probed true ∈ σ.log ∧
      σ.received = [some tampered, some output] ∧
      ∃ key, σ.aead = some key ∧ plaintexts sampleGcm key σ.received = [] ∧ σ.term = [[108, 115]] := by
  have ran : ((system sampleMac sampleGcm "a0").run withKey queuedRun).isSome := by decide
  have ⟨σ, e⟩ := Option.isSome_iff_exists.mp ran
  have probed : σ.probed := Transition.eq_of_run (f := State.probed) e (by decide)
  have received : σ.received = [some tampered, some output] :=
    Transition.eq_of_run (f := State.received) e rfl
  have aead : σ.aead = some (sessionKey sampleMac sampleKey "a0") :=
    Transition.eq_of_run (f := State.aead) e (by decide)
  have term : σ.term = [[108, 115]] := Transition.eq_of_run (f := State.term) e (by decide)
  refine ⟨σ, e, mem_of_probed probed, received, _, aead, ?_, term⟩
  rw [received]
  decide

end Panel
