import Popfleet.Deployment.Host

open Proto V1e

namespace Deployment

-- An agent as it is seen through one sid.
structure View where
  alive   : Bool := false
  buf     : Bytes := []
  queued  : List Msg := []
  ran     : List Bytes := []
  printed : Bytes := []
  given   : List Bytes := []
  codes   : List Int := []

-- The frame of what is buffered.
def View.flushed (sid : String) (v : View) : List Msg :=
  if v.buf = [] then [] else [{ t := "out", sid, data := Base64.encode v.buf }]

def View.flush (sid : String) (v : View) : View :=
  { v with buf := [], queued := v.queued ++ v.flushed sid }

def View.kill (sid : String) (notify : Bool) (code : Int) (v : View) : View :=
  { v with
    alive  := false
    buf    := []
    queued := v.queued ++ v.flushed sid ++ if notify then [{ t := "exit", sid, code := some code }] else []
    codes  := v.codes ++ [code] }

-- The life of a session for which these open frames came, and whose PTYs ended in these ways, where it
-- says whether the broker is told: it was not opened, no PTY could be started, its PTY lives, or its PTY
-- ended, with the exit frame last if the broker is told.
inductive Life (sid : String) (os : List Msg) : List Bool → View → Prop
  | idle : Life sid os [] {}
  | failed (ho : os ≠ []) : Life sid os [] { queued := [{ t := "exit", sid, code := some 127 }] }
  | running {m buf queued given b} (ho : os = [m]) (out : ∀ f ∈ queued, f.t = "out")
    (carries : Carries (Base64.decode ·.data) queued b) :
    Life sid os [] { alive := true, buf, queued, ran := [utf8 m.cmd], printed := b ++ buf, given }
  | ended {m queued given b code notify} (ho : os = [m]) (out : ∀ f ∈ queued, f.t = "out")
    (carries : Carries (Base64.decode ·.data) queued b) :
    Life sid os [notify] {
      queued  := queued ++ if notify then [{ t := "exit", sid, code := some code }] else []
      ran     := [utf8 m.cmd]
      printed := b
      given
      codes   := [code] }

-- What an agent that has received these frames has done for a sid. `dec` is its decoder of base64.
structure Led (A : Endpoint) (dec : String → Option Bytes) (ms : List Msg) (σ : A.State) (sid : String)
    (v : View) : Prop where
  ran     : v.ran = A.ran σ sid
  printed : v.printed = A.printed σ sid
  given   : v.given = A.given σ sid
  codes   : v.codes = A.codes σ sid
  sents   : (A.sents σ).filter (·.sid = sid) <+: v.queued
  asked   : ∀ f ∈ v.queued, f.t ≠ "err" ∧ opens sid ms ≠ []
  ran_le  : v.ran.Sublist ((opens sid ms).map (utf8 ·.cmd))
  typed   : List.SublistForall₂ (· <+: ·) v.given ((ins sid ms).filterMap (dec ·.data))
  life    : (opens sid ms).length ≤ 1 → ∃ ends, Life sid (opens sid ms) ends v

variable {sid : String} {os ms ms' : List Msg} {m f : Msg} {v : View} {ends : List Bool}

theorem opens_append : opens sid (ms ++ ms') = opens sid ms ++ opens sid ms' :=
  List.filter_append ..

theorem opens_self (ht : m.t = "open") (hs : m.sid = sid) : opens sid [m] = [m] := by
  simp [opens, ht, hs]

theorem opens_other (h : m.t ≠ "open") : opens sid [m] = [] := by
  simp [opens, h]

theorem outs_eq : outs sid ms = (ms.filter (·.sid = sid)).filter (·.t = "out") := by
  simp only [outs, List.filter_filter, ← Bool.decide_and]

theorem View.mem_flushed (h : f ∈ v.flushed sid) : v.buf ≠ [] ∧ f.t = "out" := by
  simp only [View.flushed] at h
  split at h
  case isTrue => contradiction
  case isFalse full => exact ⟨full, by simp [List.mem_singleton.mp h]⟩

namespace Life

theorem idle_of_nil (h : Life sid [] ends v) : ends = [] ∧ v = {} := by
  cases h
  case idle => exact ⟨rfl, rfl⟩
  case failed ho => contradiction
  case running ho _ _ => contradiction
  case ended ho _ _ => contradiction

-- What a session does, while it lives.

theorem opened : Life sid [m] [] { alive := true, ran := [utf8 m.cmd] } := by
  simpa using @running sid [m] m [] [] [] [] rfl (by simp) .nil

theorem ran_of_alive (hp : v.alive = true) (h : Life sid os ends v) : v.ran ≠ [] := by
  cases h
  case running => simp
  all_goals contradiction

theorem ends_of_alive (hp : v.alive = true) (h : Life sid os ends v) : ends = [] := by
  cases h
  case running => rfl
  all_goals contradiction

theorem give {given : List Bytes} (hr : v.ran ≠ []) (h : Life sid os ends v) :
    Life sid os ends { v with given } := by
  cases h
  case idle => contradiction
  case failed => contradiction
  case running ho out carries => exact .running ho out carries
  case ended ho out carries => exact .ended ho out carries

theorem read {data : Bytes} (hp : v.alive = true) (h : Life sid os ends v) :
    Life sid os ends { v with buf := v.buf ++ data, printed := v.printed ++ data } := by
  cases h
  case running m buf queued given b ho out carries =>
    simpa using @running sid os m (buf ++ data) queued given b ho out carries
  all_goals contradiction

theorem flush (h : Life sid os ends v) : Life sid os ends (v.flush sid) := by
  cases h
  case idle => exact .idle
  case failed ho => exact .failed ho
  case ended m queued given b code notify ho out carries =>
    simpa [View.flush, View.flushed] using @ended sid os m queued given b code notify ho out carries
  case running m buf queued given b ho out carries =>
    by_cases empty : buf = []
    case pos =>
      subst empty
      simpa [View.flush, View.flushed] using @running sid os m [] queued given b ho out carries
    case neg =>
      let f : Msg := { t := "out", sid, data := Base64.encode buf }
      have sent : Carries (Base64.decode ·.data) (queued ++ [f]) (b ++ buf) :=
        carries.snoc Base64.decode_encode
      have tag : f.t = "out" := rfl
      have tags : ∀ g ∈ queued ++ [f], g.t = "out" :=
        List.forall_mem_append.mpr ⟨out, List.forall_mem_singleton.mpr tag⟩
      simpa [View.flush, View.flushed, empty, f] using @running sid os m [] _ given _ ho tags sent

-- What was not sent yet is, before the exit frame.
theorem kill {notify : Bool} {code : Int} (hp : v.alive = true) (h : Life sid os ends v) :
    Life sid os [notify] (v.kill sid notify code) := by
  have flushed := h.flush
  have same : v.kill sid notify code =
      { v.flush sid with
        alive  := false
        queued := (v.flush sid).queued ++ if notify then [{ t := "exit", sid, code := some code }] else []
        codes  := (v.flush sid).codes ++ [code] } := rfl
  have alive : (v.flush sid).alive = true := hp
  have empty : (v.flush sid).buf = [] := rfl
  rw [same]
  generalize v.flush sid = v at flushed alive empty
  cases flushed
  case idle => contradiction
  case failed => contradiction
  case ended => contradiction
  case running m buf queued given b ho out carries =>
    obtain rfl : buf = [] := empty
    simpa using @ended sid os m queued given b code notify ho out carries

-- What the frames of a session are.

theorem carried (h : Life sid os ends v) :
    ∃ b, Carries (Base64.decode ·.data) (v.queued.filter (·.t = "out")) b ∧ b <+: v.printed := by
  have whole {queued : List Msg} (out : ∀ f ∈ queued, f.t = "out") :
      queued.filter (·.t = "out") = queued :=
    List.filter_eq_self.mpr fun f hf => by simpa using out f hf
  cases h
  case idle   => exact ⟨[], .nil, List.nil_prefix⟩
  case failed => exact ⟨[], .nil, List.nil_prefix⟩
  case running b _ out carries => exact ⟨b, (whole out).symm ▸ carries, List.prefix_append ..⟩
  case ended queued _ b code notify _ out carries =>
    let exits : List Msg := if notify then [{ t := "exit", sid, code := some code }] else []
    have none : exits.filter (·.t = "out") = [] := by cases notify <;> rfl
    refine ⟨b, ?_, List.prefix_rfl⟩
    rw [List.filter_append, whole out, none, List.append_nil]
    exact carries

theorem exited {before after : List Msg} (h : Life sid os ends v) (hq : v.queued = before ++ f :: after)
    (ht : f.t = "exit") : Carries (Base64.decode ·.data) (before.filter (·.t = "out")) v.printed ∧
      ∃ n, f.code = some n ∧ (n ∈ v.codes ∨ v.ran = [] ∧ n = 127) := by
  cases h
  case idle => simp at hq
  case failed =>
    obtain ⟨rfl, rfl⟩ : before = [] ∧ { t := "exit", sid, code := some 127 } = f := by
      cases before <;> simp_all
    exact ⟨.nil, 127, rfl, .inr ⟨rfl, rfl⟩⟩
  case running queued _ _ _ out _ =>
    have hq : queued = before ++ f :: after := hq
    have tag := out f (by simp [hq])
    simp [ht] at tag
  case ended queued _ b code notify _ out carries =>
    obtain ⟨exits, hx, he⟩ : ∃ exits : List Msg,
        (if notify then [{ t := "exit", sid, code := some code }] else []) = exits ∧
          (exits = [] ∨ exits = [{ t := "exit", sid, code := some code }]) := by
      cases notify <;> simp
    have hq : queued ++ exits = before ++ f :: after := hx ▸ hq
    have other : f ∉ queued := fun hf => by simpa [ht] using out f hf
    -- The exit frame is the only one that may follow the others.
    have last : exits = f :: after ∧ before = queued := by
      rcases List.append_eq_append_iff.mp hq with ⟨as, rfl, h⟩ | ⟨as, rfl, h⟩
      case inr =>
        cases as
        case nil      => simpa using h.symm
        case cons a _ => exact absurd (by simp [(List.cons.inj h).left]) other
      case inl =>
        cases as
        case nil => simpa using h
        case cons => rcases he with rfl | rfl <;> simp at h
    obtain ⟨rfl, rfl⟩ := last
    rcases he with he | he <;> cases he
    refine ⟨?_, code, rfl, .inl List.mem_cons_self⟩
    rwa [List.filter_eq_self.mpr fun f hf => by simpa using out f hf]

end Life

namespace Led

variable {A : Endpoint} {dec : String → Option Bytes} {σ : A.State}

theorem output (h : Led A dec ms σ sid v) (ho : (opens sid ms).length ≤ 1) :
    ∃ b, Carries (Base64.decode ·.data) (outs sid (A.sents σ)) b ∧ b <+: A.printed σ sid := by
  have ⟨_, life⟩ := h.life ho
  have ⟨b, carries, printed⟩ := life.carried
  have ⟨d, carries, hd⟩ := carries.of_isPrefix (h.sents.filter _)
  exact ⟨d, outs_eq ▸ carries, h.printed ▸ hd.trans printed⟩

theorem exit {before after : List Msg} (h : Led A dec ms σ f.sid v) (ho : (opens f.sid ms).length ≤ 1)
    (hs : A.sents σ = before ++ f :: after) (ht : f.t = "exit") :
    Carries (Base64.decode ·.data) (outs f.sid before) (A.printed σ f.sid) ∧
      ∃ n, f.code = some n ∧ (n ∈ A.codes σ f.sid ∨ A.ran σ f.sid = [] ∧ n = 127) := by
  have ⟨rest, hr⟩ := h.sents
  rw [hs, List.filter_append, List.filter_cons_of_pos (by simp), List.append_assoc,
    List.cons_append] at hr
  have ⟨_, life⟩ := h.life ho
  have exited := life.exited hr.symm ht
  rwa [← outs_eq, h.printed, h.codes, h.ran] at exited

theorem answers (h : Led A dec ms σ f.sid v) (hf : f ∈ A.sents σ) :
    f.t ≠ "err" ∧ (f.t = "out" ∨ f.t = "exit" → opens f.sid ms ≠ []) :=
  have ⟨err, opened⟩ := h.asked f (h.sents.subset (List.mem_filter.mpr ⟨hf, by simp⟩))
  ⟨err, fun _ => opened⟩

theorem pieces {chunks : List Bytes} (h : Led A dec ms σ sid v)
    (hd : ∀ b, dec (Base64.encode b) = some b) (hc : (ins sid ms).map (·.data) = chunks.map Base64.encode) :
    List.SublistForall₂ (· <+: ·) (A.given σ sid) chunks := by
  have mapped : (ins sid ms).filterMap (dec ·.data) = ((ins sid ms).map (·.data)).filterMap dec := by
    rw [List.filterMap_map]
    rfl
  have decoded : (ins sid ms).filterMap (dec ·.data) = chunks := by
    rw [mapped, hc, List.filterMap_map]
    simp [hd]
  exact decoded ▸ h.given ▸ h.typed

end Led

-- An agent that leads the lives of its sessions is what an agent is for.
def Host.ofLed (A : Endpoint) (dec : String → Option Bytes)
    (grows : ∀ {σ l σ'}, A.system.step σ l = some σ' → A.sents σ <+: A.sents σ')
    (hd : ∀ b, dec (Base64.encode b) = some b)
    (led : ∀ {ms σ}, A.Got ms σ → ∀ sid, ∃ v, Led A dec ms σ sid v) : Host where
  toEndpoint := A
  grows
  ran_le sid h :=
    have ⟨_, led⟩ := led h sid
    led.ran ▸ led.ran_le
  answers h f hf :=
    have ⟨_, led⟩ := led h f.sid
    led.answers hf
  output h ho :=
    have ⟨_, led⟩ := led h _
    led.output ho
  exit h ho hs ht :=
    have ⟨_, led⟩ := led h _
    led.exit ho hs ht
  typed h _ hc :=
    have ⟨_, led⟩ := led h _
    led.pieces hd hc

end Deployment
