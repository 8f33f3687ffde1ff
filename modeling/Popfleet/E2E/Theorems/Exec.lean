import Popfleet.E2E.Step

open Proto

namespace E2E

-- The sections of a page that seal and send nothing.
def Op.isPage {κ : Type} : Op κ → Bool
  | .connect _ | .onMessage _ | .enableE2E _ _ | .unseal _ _ => true
  | _ => false

-- The graph of `exec`, for case analysis. What a section does to the pages and the processes is left
-- out where it sends nothing.
inductive Exec {κ : Type} [DecidableEq κ] (hkdf : Bytes → String → κ) (e2eKey : Bytes) (σ : State κ) :
    Op κ → Input → State κ → List (Op κ) → Prop
  | idle {op i} : Exec hkdf e2eKey σ op i σ []
  | helloSent {conn m i} :
    Exec hkdf e2eKey σ (.hello conn m) i (σ.record (.shown m)) [.helloOk conn]
  | connected {conn i} : Exec hkdf e2eKey σ (.helloOk conn) i σ [.readJSON conn]
  | read {conn m} :
    Exec hkdf e2eKey σ (.readJSON conn) (.frame m) σ (handle conn m ++ [.readJSON conn])
  | lost {conn i} : Exec hkdf e2eKey σ (.readJSON conn) i σ [.killAll conn]
  | sent {conn m i} : Exec hkdf e2eKey σ (.send conn m) i (σ.record (.shown m)) []
  | newSid {conn m i} (h : (σ.ptys conn).get? m.sid = none) :
    Exec hkdf e2eKey σ (.openPty conn m) i σ [.openCmd conn m]
  | authenticated {conn m enc cmd i} (h : cmdline hkdf e2eKey σ m = some (enc, cmd)) :
    Exec hkdf e2eKey σ (.openCmd conn m) i σ [.spawn conn m.sid enc cmd]
  | rejected {conn m i} (h : cmdline hkdf e2eKey σ m = none) :
    Exec hkdf e2eKey σ (.openCmd conn m) i σ
      [.send conn { t := "err", sid := m.sid,
                    msg := "e2e decrypt failed (key mismatch or tampered cmd)" }]
  | notSpawned {conn sid enc cmd} :
    Exec hkdf e2eKey σ (.spawn conn sid enc cmd) .failed σ
      [.send conn { t := "exit", sid, code := some 127 }]
  | spawned {conn sid enc cmd i p} (hp : p = { ptr := σ.next, conn, sid, enc }) :
    Exec hkdf e2eKey σ (.spawn conn sid enc cmd) i
      (({ σ with next := σ.next + 1 }.setProcess p {}).record (.spawned sid cmd)) [.insert p]
  | inserted {p i} :
    Exec hkdf e2eKey σ (.insert p) i (σ.setPtys p.conn ((σ.ptys p.conn).set p.sid p)) [.goPump p]
  | goPump {p i} : Exec hkdf e2eKey σ (.goPump p) i { σ with pumps := p :: σ.pumps } []
  | found {conn m p i} (h : (σ.ptys conn).get? m.sid = some p) :
    Exec hkdf e2eKey σ (.lookup conn m) i σ [.write p m.data]
  | opened {p data k b i} (hk : p.enc = some k) (h : openWire σ.aead k data = some b) :
    Exec hkdf e2eKey σ (.write p data) i (σ.record (.wrote p.sid b)) []
  | decoded {p data b i} (hk : p.enc = none) (h : Base64.decode data = some b) :
    Exec hkdf e2eKey σ (.write p data) i (σ.record (.wrote p.sid b)) []
  | tampered {p data k i} (hk : p.enc = some k) (h : openWire σ.aead k data = none) :
    Exec hkdf e2eKey σ (.write p data) i σ
      [.send p.conn { t := "err", sid := p.sid, msg := "e2e decrypt failed (tampered frame)" },
        .kill p]
  | process {op processes i} : Exec hkdf e2eKey σ op i { σ with processes } []
  | allKilled {conn i processes} :
    Exec hkdf e2eKey σ (.killAll conn) i ({ σ with processes }.setPtys conn ∅) []
  | pumped {p buf deadline i buf' deadline'} :
    Exec hkdf e2eKey σ (.pump p buf deadline) i σ [.pump p buf' deadline']
  | full {p buf deadline i buf' last} :
    Exec hkdf e2eKey σ (.pump p buf deadline) i σ [.flush p buf' last]
  | flushed {p last i} : Exec hkdf e2eKey σ (.flush p [] last) i σ [.wait p]
  | flushedOn {p last i} : Exec hkdf e2eKey σ (.flush p [] last) i σ [.pump p [] false]
  | encoded {p buf last i} (hk : p.enc = none) :
    Exec hkdf e2eKey σ (.flush p buf last) i σ
      [.sendOut p { t := "out", sid := p.sid, data := Base64.encode buf } last]
  | sealedOut {p buf last nonce k aead data} (hk : p.enc = some k)
    (h : sealPlain σ.aead k nonce buf = some (aead, data)) :
    Exec hkdf e2eKey σ (.flush p buf last) (.drawn nonce)
      ({ σ with aead }.record (.sealed .out e2eKey p.sid buf))
      [.sendOut p { t := "out", sid := p.sid, data } last]
  | outLost {p m last} : Exec hkdf e2eKey σ (.sendOut p m last) .failed σ [.wait p]
  | outSent {p m i} :
    Exec hkdf e2eKey σ (.sendOut p m false) i (σ.record (.shown m)) [.pump p [] false]
  | lastSent {p m i} : Exec hkdf e2eKey σ (.sendOut p m true) i (σ.record (.shown m)) [.wait p]
  | exited {p processes e} :
    Exec hkdf e2eKey σ (.wait p) (.exit e) { σ with processes }
      [.forget p, .send p.conn { t := "exit", sid := p.sid, code := some e.code }]
  | forgot {p i} :
    Exec hkdf e2eKey σ (.forget p) i (σ.setPtys p.conn ((σ.ptys p.conn).delete p.sid)) []
  | page {op pages i ops} (h : ∀ o ∈ ops, o.isPage) :
    Exec hkdf e2eKey σ op i { σ with pages } ops
  | plainIn {pg b i} (hk : (σ.pages pg).fleetKey = none) :
    Exec hkdf e2eKey σ (.sealIn pg b) i σ [.sendIn pg { t := "in", data := Base64.encode b }]
  | sealedIn {pg b nonce fleetKey aead data} (hk : (σ.pages pg).fleetKey = some fleetKey)
    (h : sealPlain σ.aead (hkdf fleetKey pg.sid) nonce b = some (aead, data)) :
    Exec hkdf e2eKey σ (.sealIn pg b) (.drawn nonce)
      ({ σ with aead }.record (.sealed .keys fleetKey pg.sid b)) [.sendIn pg { t := "in", data }]
  | inSent {pg m i pages} :
    Exec hkdf e2eKey σ (.sendIn pg m) i { σ.record (.shown m) with pages } []
  | sealedCmd {fleetKey sid cmd nonce aead wire}
    (h : sealPlain σ.aead (hkdf fleetKey sid) nonce cmd = some (aead, wire)) :
    Exec hkdf e2eKey σ (.sealCmd fleetKey sid cmd) (.drawn nonce)
      (({ σ with aead }.record (.sealed .cmd fleetKey sid cmd)).record
        (.shown { t := "", sid, cmd := wire })) []

variable {κ : Type} [DecidableEq κ] {hkdf : Bytes → String → κ} {e2eKey : Bytes} {σ σ' : State κ}
  {op : Op κ} {i : Input} {ops : List (Op κ)}

theorem setProcess_foldl (f : State κ → Pty κ → Process) (ps : List (Pty κ)) :
    ∃ processes, ps.foldl (fun σ p => σ.setProcess p (f σ p)) σ = { σ with processes } := by
  induction ps generalizing σ
  case nil => exact ⟨_, rfl⟩
  case cons p ps hi =>
    have ⟨processes, h⟩ := @hi (σ.setProcess p (f σ p))
    exact ⟨processes, h⟩

omit [DecidableEq κ] in
theorem isPage_next {pg : Page} {connect : Bool} {o : Op κ}
    (h : o ∈ (if connect then [.connect pg] else [])) : o.isPage := by
  cases connect <;> simp at h
  exact h ▸ rfl

theorem Exec.of (h : exec hkdf e2eKey σ op i = some (σ', ops)) :
    Exec hkdf e2eKey σ op i σ' ops := by
  revert h
  fun_cases exec hkdf e2eKey σ op i <;> intro h
  -- session
  case case2 => cases h; exact .helloSent
  case case3 =>
    cases h
    split
    case isTrue  => exact .connected
    case isFalse => exact .idle
  case case5 => cases h; exact .read
  case case6 => cases h; exact .lost
  case case8 => cases h; exact .sent
  case case10 hn => cases h; exact .newSid hn
  case case11 hc => cases h; exact .authenticated hc
  case case12 hc _ => cases h; exact .rejected hc
  case case13 => cases h; exact .notSpawned
  case case14 => cases h; exact .spawned rfl
  case case15 => cases h; exact .inserted
  case case16 => cases h; exact .goPump
  case case18 hp => cases h; exact .found hp
  case case19 hk _ ho =>
    cases h
    split
    case isTrue  => exact .idle
    case isFalse => exact .opened hk ho
  case case20 hk ho _ => cases h; exact .tampered hk ho
  case case21 hk _ hd =>
    cases h
    split
    case isTrue  => exact .idle
    case isFalse => exact .decoded hk hd
  case case28 conn killed =>
    cases h
    have ⟨processes, hp⟩ : ∃ processes, killed = { σ with processes } := setProcess_foldl ..
    rw [show killed = { σ with processes } from hp]
    exact .allKilled
  -- pump
  case case29 =>
    cases h
    split
    case isTrue  => exact .full
    case isFalse => exact .pumped
  case case30 | case31 => cases h; exact .full
  case case33 =>
    cases h
    split
    case isTrue  => exact .flushed
    case isFalse => exact .flushedOn
  case case34 hk => cases h; exact .encoded hk
  case case35 k nonce ct hk =>
    have ⟨_, hs, h⟩ := Option.bind_eq_some_iff.mp h
    cases h
    exact .sealedOut hk hs
  case case37 => cases h; exact .outLost
  case case38 last _ =>
    cases last <;> cases h
    case true  => exact .lastSent
    case false => exact .outSent
  case case39 => cases h; exact .exited
  case case41 => cases h; exact .forgot
  -- the page
  case case60 hk => cases h; exact .plainIn hk
  case case61 fleetKey nonce ct hk =>
    have ⟨_, hs, h⟩ := Option.bind_eq_some_iff.mp h
    cases h
    exact .sealedIn hk hs
  case case64 pg m p sent =>
    cases h
    have hs : sent = σ.record (.shown m) ∨ sent = σ := ite_eq_or_eq ..
    rcases hs with hs | hs <;> rw [hs]
    case inl => exact .inSent
    case inr => exact .page (by simp)
  case case65 =>
    have ⟨_, hs, h⟩ := Option.bind_eq_some_iff.mp h
    cases h
    exact .sealedCmd hs
  case case44 | case47 =>
    simp only [Option.some.injEq, Prod.mk.injEq] at h
    have ⟨hσ, ho⟩ := h
    exact hσ ▸ ho ▸ .page fun o hm => isPage_next hm
  case case42 => cases h; split <;> exact .page (by simp [Op.isPage])
  all_goals cases h
  all_goals first | exact .idle | exact .process | exact .page (by simp [Op.isPage])

omit [DecidableEq κ] in
theorem setPtys_ptys {ptys : GoMap String (Pty κ)} {conn conn' : Nat} :
    (σ.setPtys conn ptys).ptys conn' = if conn' = conn then ptys else σ.ptys conn' := by
  simp [State.setPtys, Function.update_apply]

-- A section makes at most one PTY found, the one that it inserts.
theorem Exec.of_ptys {conn : Nat} {sid : String} {p : Pty κ} (e : Exec hkdf e2eKey σ op i σ' ops)
    (hs : (σ'.ptys conn).get? sid = some p) :
    (σ.ptys conn).get? sid = some p ∨ op = .insert p ∧ conn = p.conn ∧ sid = p.sid := by
  cases e
  case inserted p' =>
    rw [setPtys_ptys] at hs
    split at hs
    case isFalse     => exact .inl hs
    case isTrue same =>
      cases GoMap.of_get?_set hs
      case inl new =>
        obtain ⟨rfl, rfl⟩ := new
        exact .inr ⟨rfl, same, rfl⟩
      case inr old => exact .inl (same ▸ old.right)
  case allKilled =>
    rw [setPtys_ptys] at hs
    split at hs
    case isTrue  => simp at hs
    case isFalse => exact .inl hs
  case forgot p' =>
    rw [setPtys_ptys] at hs
    split at hs
    case isTrue same => exact .inl (same ▸ (GoMap.of_get?_delete hs).right)
    case isFalse     => exact .inl hs
  all_goals exact .inl hs

end E2E
