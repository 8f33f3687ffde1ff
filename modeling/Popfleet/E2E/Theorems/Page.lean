import Popfleet.E2E.Theorems.Codec
import Popfleet.Panel.Theorems.Downgrade

open Proto Program V1e

namespace E2E

variable {H : Mac 32} {G : Gcm V1e.tagLen} {e2eKey : Bytes} {pg : Page} {σ σ' : Panel.State}
  {p : PageState} {τ τ' : State Bytes} {c c' c₁ : Config (State Bytes) (Op Bytes)} {t : Tid} {op : Op Bytes}
  {ops rest : List (Op Bytes)} {i : Input} {r : Req Bytes} {b64 text : String} {raw b : Bytes}
  {answers : List String} {msg stored : Option String}

-- The frames that the page sent. A command that was posted is none of them.
def State.framesSent (τ : State Bytes) : List Msg :=
  τ.log.filterMap fun
    | .shown m => if m.t = "" then none else some m
    | _        => none

-- What the page holds and shows, but for the words on its banner.
structure Alike (H : Mac 32) (sid : String) (σ : Panel.State) (p : PageState) : Prop where
  key     : p.fleetKey.map (sessionKey H · sid) = σ.aead
  ws      : p.ws = decide (σ.ws = .opened)
  sends   : p.sends = σ.typed
  sending : p.sending = σ.sending.isSome
  term    : p.term = σ.term
  ended   : p.banner.isSome = σ.ended

-- How far `init` and the connection are. A page that gets no socket stays where it is.
inductive Place (pg : Page) (σ : Panel.State) : List (Op Bytes) → Prop
  | probing (h : σ.init = .probing) : Place pg σ [.config pg]
  | importing {b64 : String} {raw : Bytes} (h : σ.init = .importing b64 raw)
    (hr : Panel.rawKey b64 = some raw) : Place pg σ [.enableE2E pg true]
  | stuck {ops : List (Op Bytes)} (h : σ.init = .returned) (hw : σ.ws = .null) : Place pg σ ops
  | connecting (h : σ.init = .returned) (hw : σ.ws = .connecting ∨ σ.ws = .closed) (hr : σ.recv = [])
    (hh : σ.handling = none) : Place pg σ [.connect pg]
  | connected (h : σ.init = .returned) (hw : σ.ws ≠ .null ∧ σ.ws ≠ .connecting) :
    Place pg σ [.onMessage pg]

-- The page of term.js, and the sections of a page: one thread reads, one sends, and a third one has the
-- events. A frame is read when the page of term.js is done with it.
structure Shows (H : Mac 32) (G : Gcm V1e.tagLen) (pg : Page) (σ : Panel.State)
    (c : Config (State Bytes) (Op Bytes)) : Prop where
  cipher    : c.shared.aead.cipher = G.cipher
  page      : Alike H pg.sid σ (c.shared.pages pg)
  sent      : c.shared.framesSent = σ.sents
  place     : Place pg σ (c.procs 0)
  sealing   : c.procs 1 = σ.sending.toList.map fun (_, b) => .sealIn pg b
  idle      : c.procs 2 = []
  importing : ∀ b64 raw, σ.handling = some (.importing b64 raw) → Panel.rawKey b64 = some raw

section Runs

abbrev Reaches (H : Mac 32) (e2eKey : Bytes) (c c' : Config (State Bytes) (Op Bytes)) : Prop :=
  ((program (sessionKey H) e2eKey).system.after c).Reachable c'

theorem Reaches.refl : Reaches H e2eKey c c :=
  .init rfl

theorem Reaches.start (h : Reaches H e2eKey c c₁) (idle : c₁.procs t = [])
    (e : E2E.start e2eKey c₁.shared r = some (τ', ops)) : Reaches H e2eKey c (c₁.resume t τ' ops) :=
  h.after_step (system_start idle e)

theorem Reaches.exec (h : Reaches H e2eKey c c₁) (head : c₁.procs t = op :: rest)
    (e : E2E.exec (sessionKey H) e2eKey c₁.shared op i = some (τ', ops)) :
    Reaches H e2eKey c (c₁.resume t τ' (ops ++ rest)) :=
  h.after_step (system_step head e)

theorem Reaches.trans (h : Reaches H e2eKey c c₁) (h' : Reaches H e2eKey c₁ c') :
    Reaches H e2eKey c c' := by
  induction h'
  case init same      => exact same ▸ h
  case step e hi      => exact .after_step hi e

end Runs

@[simp]
theorem setPage_pages : (τ.setPage pg p).pages pg = p := by
  simp [State.setPage]

theorem setPage_setPage {p' : PageState} : (τ.setPage pg p).setPage pg p' = τ.setPage pg p' := by
  simp [State.setPage]

theorem Place.congr (h : Place pg σ ops) (init : σ'.init = σ.init) (ws : σ'.ws = σ.ws)
    (recv : σ'.recv = σ.recv) (handling : σ'.handling = σ.handling) : Place pg σ' ops := by
  cases h
  case probing h             => exact .probing (init.trans h)
  case importing h hr        => exact .importing (init.trans h) hr
  case stuck h hw            => exact .stuck (init.trans h) (ws.trans hw)
  case connecting h hw hr hh =>
    exact .connecting (init.trans h) (ws ▸ hw) (recv.trans hr) (handling.trans hh)
  case connected h hw        => exact .connected (init.trans h) (ws ▸ hw)

theorem Alike.unkeyed (h : Alike H sid σ p) (ha : σ.aead = none) : p.fleetKey = none :=
  Option.map_eq_none_iff.mp (h.key.trans ha)

theorem Alike.keyed (h : Alike H sid σ p) {key : Bytes} (ha : σ.aead = some key) :
    ∃ fleetKey, p.fleetKey = some fleetKey ∧ sessionKey H fleetKey sid = key :=
  Option.map_eq_some_iff.mp (h.key.trans ha)

theorem exec_declined {connect : Bool} (unkeyed : (τ.pages pg).fleetKey = none) :
    exec (sessionKey H) e2eKey τ (.enableE2E pg connect) (.key "") =
      some (τ.banner pg "no fleet key: cannot decrypt this session", []) := by
  simp [exec, unkeyed]

theorem start_sendResize {cols rows : Int} (open' : (τ.pages pg).ws) :
    start e2eKey τ (.sendResize pg cols rows) =
      some (τ.record (.shown { t := "resize", c := cols, r := rows }), []) := by
  simp [start, open']

theorem exec_sendIn {m : Msg} (open' : (τ.pages pg).ws) :
    exec (sessionKey H) e2eKey τ (.sendIn pg m) .done =
      some ((τ.record (.shown m)).setPage pg { τ.pages pg with sending := false }, []) := by
  simp [exec, open']

-- A key that the page of term.js derives from.
theorem exec_enableE2E {connect : Bool} (unkeyed : (τ.pages pg).fleetKey = none)
    (hr : Panel.rawKey b64 = some raw) :
    exec (sessionKey H) e2eKey τ (.enableE2E pg connect) (.key b64) =
      some (τ.setPage pg { τ.pages pg with fleetKey := some raw },
        if connect then [.connect pg] else []) := by
  have nonempty : b64 ≠ "" := by
    rintro rfl
    have none : Panel.rawKey "" = none := by decide
    simp [none] at hr
  replace hr : (Base64.atob b64).filter (·.length = keyLen) = some raw := hr
  simp [exec, unkeyed, nonempty, hr]

namespace Shows

variable {answers : List String} (e2eKey)

-- What a thread leaves behind. The one that reads may be somewhere else then.
theorem resume (s : Shows H G pg σ c) (cipher : τ.aead.cipher = c.shared.aead.cipher)
    (page : Alike H pg.sid σ' (τ.pages pg)) (sent : τ.framesSent = σ'.sents) (place : Place pg σ' ops)
    (sending : σ'.sending = σ.sending)
    (importing : ∀ b64 raw, σ'.handling = some (.importing b64 raw) → Panel.rawKey b64 = some raw) :
    Shows H G pg σ' (c.resume 0 τ ops) where
  cipher    := cipher.trans s.cipher
  page      := page
  sent      := sent
  place     := place
  sealing   := sending ▸ s.sealing
  idle      := s.idle
  importing := importing

theorem reads (s : Shows H G pg σ c) (page : Alike H pg.sid σ' p) (place : Place pg σ' ops)
    (sent : σ'.sents = σ.sents) (sending : σ'.sending = σ.sending)
    (importing : ∀ b64 raw, σ'.handling = some (.importing b64 raw) → Panel.rawKey b64 = some raw) :
    Shows H G pg σ' (c.resume 0 (c.shared.setPage pg p) ops) :=
  s.resume rfl (by simpa using page) (s.sent.trans sent.symm) place sending importing

theorem writes (s : Shows H G pg σ c) (cipher : τ.aead.cipher = c.shared.aead.cipher)
    (page : Alike H pg.sid σ' (τ.pages pg)) (sent : τ.framesSent = σ'.sents)
    (place : ∀ ops, Place pg σ ops → Place pg σ' ops) (handling : σ'.handling = σ.handling) :
    Shows H G pg σ' (c.resume 1 τ (σ'.sending.toList.map fun (_, b) => .sealIn pg b)) where
  cipher    := cipher.trans s.cipher
  page      := page
  sent      := sent
  place     := place _ s.place
  sealing   := rfl
  idle      := s.idle
  importing := handling ▸ s.importing

theorem event (s : Shows H G pg σ c) (cipher : τ.aead.cipher = c.shared.aead.cipher)
    (page : Alike H pg.sid σ' (τ.pages pg)) (sent : τ.framesSent = σ'.sents)
    (place : ∀ ops, Place pg σ ops → Place pg σ' ops) (sending : σ'.sending = σ.sending)
    (handling : σ'.handling = σ.handling) : Shows H G pg σ' (c.resume 2 τ []) where
  cipher    := cipher.trans s.cipher
  page      := page
  sent      := sent
  place     := place _ s.place
  sealing   := sending ▸ s.sealing
  idle      := rfl
  importing := handling ▸ s.importing

-- The size of the terminal is sent.
theorem resized (s : Shows H G pg σ c) (h : σ.ws = .opened) {cols rows : Int} :
    ∃ c', Reaches H e2eKey c c' ∧
      Shows H G pg (σ.record (.sent { t := "resize", c := cols, r := rows })) c' := by
  have sent : E2E.start e2eKey c.shared (.sendResize pg cols rows) = some _ :=
    start_sendResize (by simp [s.page.ws, h])
  refine ⟨_, Reaches.refl.start s.idle sent, ?_⟩
  exact s.event rfl { s.page with } (congrArg (_ :: ·) s.sent) (fun _ h => h.congr rfl rfl rfl rfl) rfl rfl

-- The probe, and the key that `init` asks for.
theorem probe (s : Shows H G pg σ c) (k : Panel.Keyed σ) {probe : Panel.Probe}
    (e : Panel.step H G pg.sid σ (.probe probe answers) = some σ') :
    ∃ c', Reaches H e2eKey c c' ∧ Shows H G pg σ' c' := by
  simp only [Panel.step] at e
  split at e
  case h_2 => contradiction
  case h_1 probing =>
    obtain ⟨null, unkeyed⟩ := k.init (by simp [probing])
    obtain ⟨quiet, unhandled⟩ := k.null null
    have head : c.procs 0 = [.config pg] := by
      have place := s.place
      generalize c.procs 0 = ops at place
      cases place
      case probing => rfl
      all_goals simp_all
    have connected : ∃ c', Reaches H e2eKey c c' ∧ Shows H G pg (σ.record (.probed false)).connect c' := by
      refine ⟨_, Reaches.refl.exec (i := .config false) head rfl, ?_⟩
      have ws : (c.shared.pages pg).ws = false := by simp [s.page.ws, null]
      exact s.resume rfl { s.page with ws } s.sent (.connecting rfl (.inl rfl) quiet unhandled) rfl
        s.importing
    split at e
    case h_2 => cases e; exact connected
    case h_1 cfg =>
      split at e
      case h_1 =>
        cases e
        exact ⟨c, .refl, { s with page := { s.page with }, place := .stuck rfl null }⟩
      case h_2 e2e _ =>
        split at e
        case isFalse plain =>
          cases e
          rw [Bool.eq_false_iff.mpr plain]
          exact connected
        case isTrue =>
          have asking : Reaches H e2eKey c (c.resume 0 c.shared [.enableE2E pg true]) :=
            Reaches.refl.exec (i := .config true) head rfl
          obtain ⟨_, _, _, hr, rfl⟩ | ⟨stored, text, rfl⟩ := Panel.enableInit_cases e
          case inl =>
            exact ⟨_, asking, s.resume rfl { s.page with } s.sent (.importing rfl hr) rfl s.importing⟩
          case inr =>
            have declined : E2E.exec (sessionKey H) e2eKey c.shared (.enableE2E pg true) (.key "") = _ :=
              exec_declined (s.page.unkeyed unkeyed)
            refine ⟨_, asking.exec (t := 0) rfl declined, ?_⟩
            rw [Config.resume_resume]
            exact s.reads { s.page with ended := rfl } (.stuck rfl null) rfl rfl s.importing

-- The key is derived, and the socket is made.
theorem derived (s : Shows H G pg σ c) (k : Panel.Keyed σ)
    (e : Panel.step H G pg.sid σ (.derived answers) = some σ') :
    ∃ c', Reaches H e2eKey c c' ∧ Shows H G pg σ' c' := by
  simp only [Panel.step] at e
  split at e
  case h_2 => contradiction
  case h_1 b64 raw importing =>
    obtain ⟨null, unkeyed⟩ := k.init (by simp [importing])
    obtain ⟨quiet, unhandled⟩ := k.null null
    obtain ⟨head, hr⟩ : c.procs 0 = [.enableE2E pg true] ∧ Panel.rawKey b64 = some raw := by
      have place := s.place
      generalize c.procs 0 = ops at place
      cases place
      case importing h hr =>
        cases importing.symm.trans h
        exact ⟨rfl, hr⟩
      all_goals simp_all
    rw [V1e.Panel.deriveKey_eq] at e
    cases e
    refine ⟨_, Reaches.refl.exec head (exec_enableE2E (s.page.unkeyed unkeyed) hr), ?_⟩
    refine s.reads { s.page with key := rfl, ws := ?_ } (.connecting rfl (.inl rfl) quiet unhandled) rfl rfl
      s.importing
    simp [s.page.ws, null, Panel.State.connect]

-- The socket is open, and the size of the terminal is sent.
theorem opened (s : Shows H G pg σ c) (k : Panel.Keyed σ) {cols rows : Int}
    (e : Panel.step H G pg.sid σ (.opened cols rows) = some σ') :
    ∃ c', Reaches H e2eKey c c' ∧ Shows H G pg σ' c' := by
  obtain ⟨connecting, e⟩ := Option.ite_none_right_eq_some.mp e
  cases e
  obtain ⟨head, returned⟩ : c.procs 0 = [.connect pg] ∧ σ.init = .returned := by
    have returned := k.returned (by simp [connecting])
    have place := s.place
    generalize c.procs 0 = ops at place
    cases place
    case connecting => exact ⟨rfl, returned⟩
    all_goals simp_all
  have opens : Reaches H e2eKey c _ := Reaches.refl.exec (i := .done) head rfl
  have connected : Shows H G pg { σ with ws := .opened }
      (c.resume 0 (c.shared.setPage pg { c.shared.pages pg with ws := true }) [.onMessage pg]) :=
    s.reads { s.page with ws := rfl } (.connected returned (by simp)) rfl rfl s.importing
  obtain ⟨c', runs, shows'⟩ := connected.resized e2eKey rfl
  exact ⟨c', opens.trans runs, shows'⟩

theorem receives (s : Shows H G pg σ c) (k : Panel.Keyed σ) (hw : σ.ws = .opened) {m : Option Worker.Json} :
    Shows H G pg ({ σ with recv := σ.recv ++ [m] }.record (.received m)) c := by
  have returned := k.returned (by simp [hw])
  have place : Place pg ({ σ with recv := σ.recv ++ [m] }.record (.received m)) (c.procs 0) := by
    have place := s.place
    generalize c.procs 0 = ops at place
    cases place
    case connected hw' => exact .connected returned hw'
    all_goals simp_all
  exact { s with page := { s.page with }, sent := s.sent, place }

-- Frames are only received from a socket that was open.
theorem connected (s : Shows H G pg σ c) (k : Panel.Keyed σ) (h : σ.recv ≠ [] ∨ σ.handling ≠ none) :
    c.procs 0 = [.onMessage pg] ∧ σ.init = .returned ∧ σ.ws ≠ .null ∧ σ.ws ≠ .connecting := by
  have null : σ.ws ≠ .null := by
    intro hw
    obtain ⟨hr, hh⟩ := k.null hw
    simp [hr, hh] at h
  have returned := k.returned null
  have place := s.place
  generalize c.procs 0 = ops at place
  cases place
  case connected hw => exact ⟨rfl, returned, hw⟩
  all_goals simp_all

section Frames

variable {m : Option Worker.Json} {recv : List (Option Worker.Json)} {handling : Option Panel.Handling}

-- A frame is taken, and what it waits for is still to come.
theorem takes (s : Shows H G pg σ c) (k : Panel.Keyed σ) (hr : σ.recv = m :: recv)
    (hh : ∀ b64 raw, handling = some (.importing b64 raw) → Panel.rawKey b64 = some raw) :
    Shows H G pg { σ with recv, stored, handling } c := by
  obtain ⟨head, returned, hw⟩ := s.connected k (.inl (by simp [hr]))
  exact { s with page := { s.page with }, place := head ▸ .connected returned hw, importing := hh }

-- It shows a banner.
theorem ends (s : Shows H G pg σ c) (k : Panel.Keyed σ) (hr : σ.recv = m :: recv) :
    ∃ c', Reaches H e2eKey c c' ∧ Shows H G pg ({ σ with recv }.banner msg) c' := by
  obtain ⟨head, returned, hw⟩ := s.connected k (.inl (by simp [hr]))
  refine ⟨_, Reaches.refl.exec (i := .frame { t := "exit" }) head rfl, ?_⟩
  obtain ⟨text, same⟩ := @Panel.banner_eq { σ with recv } msg
  rw [same]
  exact s.reads { s.page with ended := rfl } (.connected returned hw) rfl rfl s.importing

-- It asks for a key, which is not given.
theorem declines (s : Shows H G pg σ c) (k : Panel.Keyed σ) (hr : σ.recv = m :: recv)
    (unkeyed : σ.aead = none) :
    ∃ c', Reaches H e2eKey c c' ∧
      Shows H G pg { σ with recv, stored, handling := none, ended := true, text := msg } c' := by
  obtain ⟨head, returned, hw⟩ := s.connected k (.inl (by simp [hr]))
  have asks : Reaches H e2eKey c (c.resume 0 c.shared [.enableE2E pg false, .onMessage pg]) :=
    Reaches.refl.exec (i := .frame { t := "e2e" }) head rfl
  have declined : E2E.exec (sessionKey H) e2eKey c.shared (.enableE2E pg false) (.key "") = _ :=
    exec_declined (s.page.unkeyed unkeyed)
  refine ⟨_, asks.exec (t := 0) rfl declined, ?_⟩
  rw [Config.resume_resume]
  exact s.reads { s.page with ended := rfl } (.connected returned hw) rfl rfl (by simp)

-- A value in the clear is written.
theorem renders (s : Shows H G pg σ c) (k : Panel.Keyed σ) (hr : σ.recv = m :: recv)
    (unkeyed : σ.aead = none) {data : Option String} (hb : data.bind Base64.atob = some b) :
    ∃ c', Reaches H e2eKey c c' ∧ Shows H G pg { σ with recv, term := σ.term ++ [b] } c' := by
  obtain ⟨head, returned, hw⟩ := s.connected k (.inl (by simp [hr]))
  obtain ⟨data, rfl, decoded⟩ := Option.bind_eq_some_iff.mp hb
  have received : Reaches H e2eKey c (c.resume 0 c.shared [.unseal pg data, .onMessage pg]) :=
    Reaches.refl.exec (i := .frame { t := "out", data }) head rfl
  have written : E2E.exec (sessionKey H) e2eKey c.shared (.unseal pg data) .done =
      some (c.shared.setPage pg
        { c.shared.pages pg with term := (c.shared.pages pg).term ++ [b] }, []) := by
    simp [E2E.exec, s.page.unkeyed unkeyed, decoded]
  refine ⟨_, received.exec (t := 0) rfl written, ?_⟩
  rw [Config.resume_resume]
  exact s.reads { s.page with term := by simp [s.page.term] } (.connected returned hw) rfl rfl s.importing

theorem handle (s : Shows H G pg σ c) (k : Panel.Keyed σ)
    (e : Panel.step H G pg.sid σ (.handle answers) = some σ') :
    ∃ c', Reaches H e2eKey c c' ∧ Shows H G pg σ' c' := by
  simp only [Panel.step] at e
  split at e
  case h_2 => contradiction
  case h_1 m recv free hr =>
    have skipped : ∃ c', Reaches H e2eKey c c' ∧ Shows H G pg { σ with recv } c' :=
      ⟨c, .refl, s.takes k hr s.importing⟩
    unfold Panel.State.handleFrame at e
    split at e
    case h_1 => cases e; exact skipped
    case h_2 =>
      split at e
      case isTrue =>
        split at e
        case h_1 => cases e; exact skipped
        case h_2 unkeyed =>
          obtain ⟨stored, b64, raw, imports, rfl⟩ | ⟨stored, text, rfl⟩ := Panel.enableFrame_cases e
          case inl => exact ⟨c, .refl, s.takes k hr (by rintro _ _ ⟨⟩; exact imports)⟩
          case inr => exact s.declines e2eKey k hr unkeyed
      case isFalse =>
        split at e
        case isTrue =>
          simp only at e
          split at e
          case h_1 => cases e; exact ⟨c, .refl, s.takes k hr (by rintro _ _ ⟨⟩)⟩
          case h_2 unkeyed =>
            split at e
            case h_2 => cases e; exact skipped
            case h_1 b hb =>
              cases e
              exact s.renders e2eKey k hr unkeyed hb
        case isFalse =>
          split at e
          case isTrue =>
            simp only at e
            split at e <;> cases e
            case h_1 => exact s.ends e2eKey k hr
            case h_2 => exact skipped
          case isFalse =>
            split at e <;> cases e
            case isTrue  => exact s.ends e2eKey k hr
            case isFalse => exact skipped

end Frames

-- Anybody may have sealed a value that opens.
theorem seals (s : Shows H G pg σ c) (fleetKey : Bytes) {nonce : Bytes} (hn : nonce.length = nonceLen) :
    ∃ c', Reaches H e2eKey c c' ∧ Shows H G pg σ c' ∧
      (sessionKey H fleetKey pg.sid, nonce, b) ∈ c'.shared.aead.sealed := by
  have calls : Reaches H e2eKey c (c.resume 2 c.shared [.sealCmd fleetKey pg.sid b]) :=
    Reaches.refl.start (r := .sealCmd fleetKey pg.sid b) s.idle rfl
  let aead := (c.shared.aead.encrypt (sessionKey H fleetKey pg.sid) nonce b).1
  obtain ⟨wire, posts⟩ : ∃ wire,
      E2E.exec (sessionKey H) e2eKey c.shared (.sealCmd fleetKey pg.sid b) (.drawn nonce) =
        some (({ c.shared with aead }.record (.sealed .cmd fleetKey pg.sid b)).record
          (.shown { t := "", sid := pg.sid, cmd := wire }), []) := by
    simp only [E2E.exec, sealPlain, if_pos hn]
    exact ⟨_, rfl⟩
  refine ⟨_, calls.exec (t := 2) rfl posts, ?_, List.mem_cons_self⟩
  rw [Config.resume_resume]
  exact s.event rfl s.page s.sent (fun _ => id) rfl rfl

-- The value of a frame is unsealed, and written.
theorem unseals (s : Shows H G pg σ c) (k : Panel.Keyed σ) {key : Bytes} {wire : String}
    (hh : σ.handling = some (.unsealing key wire)) (opens : V1e.Panel.unsealed G key wire = some b) :
    ∃ c', Reaches H e2eKey c c' ∧ Shows H G pg { σ with term := σ.term ++ [b], handling := none } c' := by
  obtain ⟨nonce, ct, decoded, hn, _⟩ := V1e.Panel.unsealed_eq_some.mp opens
  obtain ⟨fleetKey, _, derived⟩ := s.page.keyed (k.unsealing key wire hh)
  obtain ⟨c₁, posted, s, hm⟩ := s.seals e2eKey fleetKey (b := b) hn
  obtain ⟨head, returned, hw⟩ := s.connected k (.inr (by simp [hh]))
  obtain ⟨fleetKey', keyed, derived'⟩ := s.page.keyed (k.unsealing key wire hh)
  have opened : unsealed c₁.shared.aead (sessionKey H fleetKey' pg.sid) wire = some b := by
    rw [derived']
    exact (unsealed_iff s.cipher).mpr ⟨opens, nonce, ct, decoded, hn, derived ▸ hm⟩
  have received : Reaches H e2eKey c (c₁.resume 0 c₁.shared [.unseal pg wire, .onMessage pg]) :=
    posted.exec (i := .frame { t := "out", data := wire }) head rfl
  have written : E2E.exec (sessionKey H) e2eKey c₁.shared (.unseal pg wire) .done =
      some (c₁.shared.setPage pg
        { c₁.shared.pages pg with term := (c₁.shared.pages pg).term ++ [b] }, []) := by
    simp [E2E.exec, keyed, opened]
  refine ⟨_, received.exec (t := 0) rfl written, ?_⟩
  rw [Config.resume_resume]
  exact s.reads { s.page with term := by simp [s.page.term] } (.connected returned hw) rfl rfl (by simp)

-- It does not open, and the session is killed.
theorem kills (s : Shows H G pg σ c) (k : Panel.Keyed σ) {key : Bytes} {data : Option String}
    (hh : σ.handling = some (.unsealing key data)) (fails : data.bind (V1e.Panel.unsealed G key) = none)
    {ws : Panel.Socket} (hw : ws = .closing ∨ ws = .closed) :
    ∃ c', Reaches H e2eKey c c' ∧
      Shows H G pg { σ with stored, handling := none, ended := true, text := msg, ws } c' := by
  obtain ⟨head, returned, hw'⟩ := s.connected k (.inr (by simp [hh]))
  obtain ⟨fleetKey, keyed, derived⟩ := s.page.keyed (k.unsealing key data hh)
  have fails : unsealed c.shared.aead key (data.getD "") = none := by
    by_contra opens
    obtain ⟨b, opens⟩ := Option.ne_none_iff_exists'.mp opens
    replace opens := ((unsealed_iff s.cipher).mp opens).left
    cases data
    case some => cases fails.symm.trans opens
    case none =>
      have empty : Base64.atob "" = some [] := by decide
      have short := authentic_long (V1e.Panel.unsealed_eq_some.mp opens) empty
      simp [V1e.tagLen] at short
  have received : Reaches H e2eKey c (c.resume 0 c.shared [.unseal pg (data.getD ""), .onMessage pg]) :=
    Reaches.refl.exec (i := .frame { t := "out", data := data.getD "" }) head rfl
  obtain ⟨text, killed⟩ : ∃ text,
      E2E.exec (sessionKey H) e2eKey c.shared (.unseal pg (data.getD "")) .done =
        some (c.shared.setPage pg { c.shared.pages pg with ws := false, banner := some text }, []) := by
    simp only [E2E.exec, keyed, derived, fails, State.banner, setPage_pages, setPage_setPage]
    exact ⟨_, rfl⟩
  refine ⟨_, received.exec (t := 0) rfl killed, ?_⟩
  rw [Config.resume_resume]
  refine s.reads { s.page with ws := ?_, ended := rfl } (.connected returned ?_) rfl rfl (by simp)
  all_goals rcases hw with rfl | rfl <;> simp

-- The key that was asked for is derived.
theorem imports (s : Shows H G pg σ c) (k : Panel.Keyed σ)
    (hh : σ.handling = some (.importing b64 raw)) :
    ∃ c', Reaches H e2eKey c c' ∧
      Shows H G pg { σ with aead := some (sessionKey H raw pg.sid), stored, handling := none } c' := by
  obtain ⟨head, returned, hw⟩ := s.connected k (.inr (by simp [hh]))
  have asks : Reaches H e2eKey c (c.resume 0 c.shared [.enableE2E pg false, .onMessage pg]) :=
    Reaches.refl.exec (i := .frame { t := "e2e" }) head rfl
  have enabled : E2E.exec (sessionKey H) e2eKey c.shared (.enableE2E pg false) (.key b64) = _ :=
    exec_enableE2E (s.page.unkeyed (k.importing b64 raw hh)) (s.importing b64 raw hh)
  refine ⟨_, asks.exec (t := 0) rfl enabled, ?_⟩
  rw [Config.resume_resume]
  exact s.reads { s.page with key := rfl } (.connected returned hw) rfl rfl (by simp)

theorem settle (s : Shows H G pg σ c) (k : Panel.Keyed σ)
    (e : Panel.step H G pg.sid σ (.settle answers) = some σ') :
    ∃ c', Reaches H e2eKey c c' ∧ Shows H G pg σ' c' := by
  replace e : σ.settle H G pg.sid answers = some σ' := e
  unfold Panel.State.settle at e
  split at e
  case h_1 => contradiction
  case h_2 b64 raw hh =>
    rw [V1e.Panel.deriveKey_eq] at e
    cases e
    exact s.imports e2eKey k hh
  case h_3 key data hh =>
    split at e <;> cases e
    case h_1 hb =>
      obtain ⟨wire, rfl, opens⟩ := Option.bind_eq_some_iff.mp hb
      exact s.unseals e2eKey k hh opens
    case h_2 hb =>
      obtain ⟨text, same⟩ := @Panel.banner_eq { σ with stored := none, handling := none } _
      rw [same]
      exact s.kills e2eKey k hh hb (by split <;> simp)

-- A key is pressed.
theorem onData (s : Shows H G pg σ c) {bytes : Bytes} :
    ∃ c', Reaches H e2eKey c c' ∧ Shows H G pg { σ with typed := σ.typed ++ [bytes] } c' := by
  have typed : E2E.start e2eKey c.shared (.onData pg bytes) = some (c.shared.setPage pg
    { c.shared.pages pg with sends := (c.shared.pages pg).sends ++ [bytes] }, []) := rfl
  refine ⟨_, Reaches.refl.start s.idle typed, ?_⟩
  refine s.event rfl ?_ s.sent (fun _ h => h.congr rfl rfl rfl rfl) rfl rfl
  simpa using { s.page with sends := by simp [s.page.sends] }

section Keystrokes

variable {key nonce : Bytes} {typed : List Bytes}

-- The next keystrokes are taken.
theorem sends (s : Shows H G pg σ c) (key : Bytes) (free : σ.sending = none) (next : σ.typed = b :: typed) :
    ∃ c', Reaches H e2eKey c c' ∧ Shows H G pg { σ with typed, sending := some (key, b) } c' := by
  have idle : c.procs 1 = [] := by simp [s.sealing, free]
  have taken : E2E.start e2eKey c.shared (.sendNext pg) = some (c.shared.setPage pg
      { c.shared.pages pg with sends := typed, sending := true }, [.sealIn pg b]) := by
    simp [E2E.start, s.page.sends, s.page.sending, next, free]
  refine ⟨_, Reaches.refl.start idle taken, ?_⟩
  refine s.writes rfl ?_ s.sent (fun _ h => h.congr rfl rfl rfl rfl) rfl
  simpa using { s.page with sends := rfl, sending := rfl }

-- They are dropped, since the socket is not open.
theorem drops (s : Shows H G pg σ c) (sending : σ.sending = some (key, b)) (hw : σ.ws ≠ .opened) :
    ∃ c', Reaches H e2eKey c c' ∧ Shows H G pg { σ with sending := none } c' := by
  have head : c.procs 1 = [.sealIn pg b] := by simp [s.sealing, sending]
  have dropped : E2E.exec (sessionKey H) e2eKey c.shared (.sealIn pg b) .done = some (c.shared.setPage pg
      { c.shared.pages pg with sending := false }, []) := by
    simp [E2E.exec, s.page.ws, hw]
  refine ⟨_, Reaches.refl.exec head dropped, ?_⟩
  refine s.writes rfl ?_ s.sent (fun _ h => h.congr rfl rfl rfl rfl) rfl
  simpa using { s.page with sending := rfl }

-- They are sent in the clear.
theorem clears (s : Shows H G pg σ c) (sending : σ.sending = some (key, b)) (hw : σ.ws = .opened)
    (unkeyed : σ.aead = none) :
    ∃ c', Reaches H e2eKey c c' ∧ Shows H G pg
      ({ σ with sending := none }.record (.sent { t := "in", data := Base64.encode b })) c' := by
  have head : c.procs 1 = [.sealIn pg b] := by simp [s.sealing, sending]
  have open' : (c.shared.pages pg).ws := by simp [s.page.ws, hw]
  have encoded : E2E.exec (sessionKey H) e2eKey c.shared (.sealIn pg b) .done =
      some (c.shared, [.sendIn pg { t := "in", data := Base64.encode b }]) := by
    simp [E2E.exec, open', s.page.unkeyed unkeyed]
  refine ⟨_, (Reaches.refl.exec head encoded).exec (t := 1) rfl (exec_sendIn open'), ?_⟩
  rw [Config.resume_resume]
  refine s.writes rfl ?_ (congrArg (_ :: ·) s.sent) (fun _ h => h.congr rfl rfl rfl rfl) rfl
  simpa using { s.page with sending := rfl }

-- They are sent under the key.
theorem encrypts (s : Shows H G pg σ c) (sending : σ.sending = some (key, b)) (hw : σ.ws = .opened)
    (keyed : σ.aead = some key) (hn : nonce.length = nonceLen) :
    ∃ c', Reaches H e2eKey c c' ∧ Shows H G pg ({ σ with sending := none }.record
      (.sent { t := "in", data := V1e.Panel.sealPlain G key nonce b })) c' := by
  have head : c.procs 1 = [.sealIn pg b] := by simp [s.sealing, sending]
  have open' : (c.shared.pages pg).ws := by simp [s.page.ws, hw]
  obtain ⟨fleetKey, hk, rfl⟩ := s.page.keyed keyed
  have sealed : (sealPlain c.shared.aead (sessionKey H fleetKey pg.sid) nonce b).map (·.2) = some _ :=
    sealPlain_panel s.cipher hn
  obtain ⟨⟨aead, wire⟩, sealed, same⟩ := Option.map_eq_some_iff.mp sealed
  obtain ⟨_, same', _⟩ := sealPlain_eq_some sealed
  have cipher : aead.cipher = c.shared.aead.cipher := same' ▸ rfl
  have encrypted : E2E.exec (sessionKey H) e2eKey c.shared (.sealIn pg b) (.drawn nonce) =
      some ({ c.shared with aead }.record (.sealed .keys fleetKey pg.sid b),
        [.sendIn pg { t := "in", data := wire }]) := by
    simp [E2E.exec, open', hk, sealed]
  refine ⟨_, (Reaches.refl.exec head encrypted).exec (t := 1) rfl (exec_sendIn open'), ?_⟩
  rw [Config.resume_resume, ← show wire = V1e.Panel.sealPlain G _ nonce b from same]
  refine s.writes cipher ?_ (congrArg (_ :: ·) s.sent) (fun _ h => h.congr rfl rfl rfl rfl) rfl
  simpa using { s.page with sending := rfl }

theorem send (s : Shows H G pg σ c) (e : Panel.step H G pg.sid σ .send = some σ') :
    ∃ c', Reaches H e2eKey c c' ∧ Shows H G pg σ' c' := by
  simp only [Panel.step] at e
  split at e
  case h_2 => contradiction
  case h_1 b typed free next =>
    have same : { σ with typed } = { σ with typed, sending := none } := by rw [← free]
    obtain ⟨c₁, taken, s₁⟩ := s.sends e2eKey [] free next
    split at e
    case isFalse hw =>
      cases e
      obtain ⟨c', dropped, s'⟩ := s₁.drops e2eKey rfl hw
      exact ⟨c', taken.trans dropped, same ▸ s'⟩
    case isTrue hw =>
      split at e <;> cases e
      case h_1 => exact s.sends e2eKey _ free next
      case h_2 unkeyed =>
        obtain ⟨c', sent, s'⟩ := s₁.clears e2eKey rfl hw unkeyed
        exact ⟨c', taken.trans sent, same ▸ s'⟩

theorem encrypted (s : Shows H G pg σ c) (k : Panel.Keyed σ)
    (e : Panel.step H G pg.sid σ (.encrypted nonce) = some σ') :
    ∃ c', Reaches H e2eKey c c' ∧ Shows H G pg σ' c' := by
  simp only [Panel.step] at e
  split at e
  case h_2 => contradiction
  case h_1 key b sending =>
    obtain ⟨hn, e⟩ := Option.ite_none_right_eq_some.mp e
    cases e
    split
    case isTrue hw  => exact s.encrypts e2eKey sending hw (k.sending key b sending) hn
    case isFalse hw => exact s.drops e2eKey sending hw

end Keystrokes

theorem closed (s : Shows H G pg σ c) (k : Panel.Keyed σ)
    (e : Panel.step H G pg.sid σ .closed = some σ') :
    ∃ c', Reaches H e2eKey c c' ∧ Shows H G pg σ' c' := by
  obtain ⟨hw, e⟩ := Option.ite_none_left_eq_some.mp e
  cases e
  obtain ⟨text, same⟩ := @Panel.banner_eq { σ with ws := .closed } "disconnected from broker"
  rw [same]
  obtain ⟨text', closes⟩ : ∃ text, E2E.start e2eKey c.shared (.closed pg) =
      some (c.shared.setPage pg { c.shared.pages pg with ws := false, banner := some text }, []) := by
    simp only [E2E.start, State.banner, setPage_pages, setPage_setPage]
    exact ⟨_, rfl⟩
  refine ⟨_, Reaches.refl.start s.idle closes, ?_⟩
  refine s.event rfl ?_ s.sent (fun ops place => ?_) rfl rfl
  case refine_1 => simpa using { s.page with ws := by simp, ended := rfl }
  cases place
  case stuck h null               => exact absurd null hw
  case connecting h _ hr hh       => exact .connecting h (.inr rfl) hr hh
  case connected h _              => exact .connected h (by simp)
  case probing h | importing h hr => exact absurd (k.init (by simp [h])).left hw

-- Each task of the event loop.
theorem step (s : Shows H G pg σ c) (k : Panel.Keyed σ) {l : Panel.Label}
    (e : Panel.step H G pg.sid σ l = some σ') :
    ∃ c', Reaches H e2eKey c c' ∧ Shows H G pg σ' c' := by
  cases l
  case probe     => exact s.probe e2eKey k e
  case derived   => exact s.derived e2eKey k e
  case opened    => exact s.opened e2eKey k e
  case handle    => exact s.handle e2eKey k e
  case settle    => exact s.settle e2eKey k e
  case onData    => cases e; exact s.onData e2eKey
  case send      => exact s.send e2eKey e
  case encrypted => exact s.encrypted e2eKey k e
  case closed    => exact s.closed e2eKey k e
  case message =>
    obtain ⟨hw, e⟩ := Option.ite_none_right_eq_some.mp e
    cases e
    exact ⟨c, .refl, s.receives k hw⟩
  case resize =>
    cases e
    split
    case isTrue hw => exact s.resized e2eKey hw
    case isFalse   => exact ⟨c, .refl, s⟩

end Shows

-- Whatever the page of term.js does with AES-GCM, HKDF and any frames, a page among the sections does in a
-- run of its own: it writes the same to its terminal, sends the same frames and has the same key.
theorem shows_reachable (e2eKey : Bytes) (sid : String) (h : (Panel.system H G sid).Reachable σ) :
    ∃ c, (program (sessionKey H) e2eKey).system.Reachable c ∧ Shows H G { ptr := 0, sid } σ c := by
  refine h.simulation ?_ fun σ l σ' c reachable s e => s.step e2eKey (Panel.keyed_reachable reachable) e
  rintro _ ⟨stored, rfl⟩
  let pg : Page := { ptr := 0, sid }
  let c₀ : Config (State Bytes) (Op Bytes) :=
    { shared := { aead := { cipher := G.cipher } }, procs := fun _ => [] }
  have begun : (program (sessionKey H) e2eKey).system.Init c₀ := ⟨⟨G.cipher, rfl⟩, fun _ => rfl⟩
  have visits : Reaches H e2eKey c₀
      (c₀.resume 0 ({ c₀.shared with next := 1 }.setPage pg {}) [.config pg]) :=
    Reaches.refl.start (r := .page sid) rfl rfl
  have fresh : Alike H sid { stored } {} := ⟨rfl, rfl, rfl, rfl, rfl, rfl⟩
  refine ⟨_, Transition.Reachable.after (.init begun) visits, ?_⟩
  exact {
    cipher    := rfl
    page      := by simpa [pg] using fresh
    sent      := rfl
    place     := .probing rfl
    sealing   := rfl
    idle      := rfl
    importing := nofun }

end E2E
