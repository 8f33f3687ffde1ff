import Popfleet.Contrib.Theorems.Coalesced
import Popfleet.Contrib.Theorems.Keystrokes
import Popfleet.Contrib.Theorems.Outbox
import Popfleet.Deployment.Life

open Proto V1e Transition
open Deployment (View Life opens ins opens_append opens_self opens_other)

namespace Contrib

-- What an event is of a sid: a frame for the broker, a command line, bytes that were read, bytes that
-- were written, or an exit code.

@[simp]
def Event.frameOf (sid : String) : Event → Option Msg
  | .queued f => if f.sid = sid ∧ f.t ≠ "hb" then some f else none
  | _         => none

@[simp]
def Event.lineOf (sid : String) : Event → Option Bytes
  | .spawned p _ line => if p.sid = sid then some line else none
  | _                 => none

@[simp]
def Event.readOf (sid : String) : Event → Option Bytes
  | .read p data => if p.sid = sid then some data else none
  | _            => none

@[simp]
def Event.wroteOf (sid : String) : Event → Option Bytes
  | .wrote p data => if p.sid = sid then some data else none
  | _             => none

@[simp]
def Event.codeOf (sid : String) : Event → Option Int
  | .killed p code => if p.sid = sid then some code else none
  | _              => none

def view (sid : String) (σ : State) : View where
  alive   := (σ.ptys.get? sid).isSome
  buf     := (σ.obuf.get? sid).getD []
  queued  := (σ.log.filterMap (Event.frameOf sid)).reverse
  ran     := (σ.log.filterMap (Event.lineOf sid)).reverse
  printed := (σ.log.filterMap (Event.readOf sid)).reverse.flatten
  given   := (σ.log.filterMap (Event.wroteOf sid)).reverse
  codes   := (σ.log.filterMap (Event.codeOf sid)).reverse

-- What an agent without a fleet key does with a sid, the frames that it takes for that, and the ends of
-- PTYs among it, which are told to the broker or not.
inductive Move (sid : String) (v : View) : List Msg → List Bool → View → Prop
  | ignored (m : Msg) : Move sid v [m] [] v
  | opened {m} (ht : m.t = "open") (hs : m.sid = sid) :
    Move sid v [m] [] { v with alive := true, ran := v.ran ++ [utf8 m.cmd] }
  | failed {m} (ht : m.t = "open") (hs : m.sid = sid) :
    Move sid v [m] [] { v with queued := v.queued ++ [{ t := "exit", sid, code := some 127 }] }
  | typed {m b n} (ht : m.t = "in") (hs : m.sid = sid) (hp : v.alive = true)
    (hb : Base64.b64decode m.data = some b) : Move sid v [m] [] { v with given := v.given ++ [b.take n] }
  | read {data} (hp : v.alive = true) :
    Move sid v [] [] { v with buf := v.buf ++ data, printed := v.printed ++ data }
  | flushed : Move sid v [] [] (v.flush sid)
  | killed {notify code} (hp : v.alive = true) : Move sid v [] [notify] (v.kill sid notify code)

inductive Moves (sid : String) (v : View) : List Msg → List Bool → View → Prop
  | nil : Moves sid v [] [] v
  | snoc {ms es v' ms' es' v''} : Moves sid v ms es v' → Move sid v' ms' es' v'' →
    Moves sid v (ms ++ ms') (es ++ es') v''

-- Of a sid there are only PTYs and frames when it was opened, and the command lines of its open frames.
-- It is given pieces of what was typed, in this order.
structure Asked (sid : String) (ms : List Msg) (v : View) : Prop where
  alive  : v.alive = true → opens sid ms ≠ []
  buf    : v.buf ≠ [] → opens sid ms ≠ []
  queued : ∀ f ∈ v.queued, f.t ≠ "err" ∧ opens sid ms ≠ []
  ran    : v.ran.Sublist ((opens sid ms).map (utf8 ·.cmd))
  given  : List.SublistForall₂ (· <+: ·) v.given ((ins sid ms).filterMap (Base64.b64decode ·.data))

variable {H : Mac 32} {G : Gcm tagLen} {int : String → Option Int} {σ σ' : State} {sid sid' : String}
  {p : Pty} {data line : Bytes} {e : Event} {f m : Msg} {env : Env} {nonce : Nonce} {v v' v'' : View}
  {os ms ms' : List Msg} {es es' : List Bool}

theorem Moves.of_move (h : Move sid v ms es v') : Moves sid v ms es v' :=
  .snoc .nil h

theorem Moves.trans (h : Moves sid v ms es v') (h' : Moves sid v' ms' es' v'') :
    Moves sid v (ms ++ ms') (es ++ es') v'' := by
  induction h'
  case nil          => simpa using h
  case snoc move hi => simpa using hi.snoc move

namespace Asked

theorem flushed (h : Asked sid ms v) :
    ∀ f ∈ v.queued ++ v.flushed sid, f.t ≠ "err" ∧ opens sid ms ≠ [] := by
  intro f hf
  rcases List.mem_append.mp hf with hf | hf
  case inl => exact h.queued f hf
  case inr =>
    have ⟨full, out⟩ := View.mem_flushed hf
    exact ⟨by simp [out], h.buf full⟩

-- Some more frames came.
theorem mono (h : Asked sid ms v) : Asked sid (ms ++ ms') v where
  alive hp    := by simp [opens_append, h.alive hp]
  buf hb      := by simp [opens_append, h.buf hb]
  queued f hf := by simp [opens_append, h.queued f hf]
  ran         := by
    rw [opens_append, List.map_append]
    exact h.ran.trans (List.sublist_append_left ..)
  given       := by
    obtain ⟨l, pieces, hl⟩ := List.sublistForall₂_iff.mp h.given
    rw [ins, List.filter_append, List.filterMap_append]
    exact List.sublistForall₂_iff.mpr ⟨l, pieces, hl.trans (List.sublist_append_left ..)⟩

theorem move (h : Asked sid ms v) (mv : Move sid v ms' es v') : Asked sid (ms ++ ms') v' := by
  have more : Asked sid (ms ++ ms') v := h.mono
  cases mv
  case ignored => exact more
  case opened m ht hs =>
    have asked : opens sid (ms ++ [m]) = opens sid ms ++ [m] := by rw [opens_append, opens_self ht hs]
    refine { more with alive := by simp [asked], ran := ?_ }
    rw [asked, List.map_append]
    exact h.ran.append (List.Sublist.refl _)
  case failed m ht hs =>
    refine { more with queued := fun f hf => ?_ }
    rw [opens_append, opens_self ht hs]
    rcases List.mem_append.mp hf with hf | hf
    case inl => exact ⟨(h.queued f hf).left, by simp⟩
    case inr => simp [List.mem_singleton.mp hf]
  case typed m b n ht hs _ hb =>
    refine { more with given := ?_ }
    obtain ⟨l, pieces, hl⟩ := List.sublistForall₂_iff.mp h.given
    refine List.sublistForall₂_iff.mpr ⟨l ++ [b], ?_, ?_⟩
    case refine_1 => exact List.rel_append pieces (.cons (List.take_prefix ..) .nil)
    case refine_2 => simpa [ins, ht, hs, hb] using hl
  case read hp =>
    exact { more with buf := fun _ => more.alive hp }
  case flushed =>
    exact { more with buf := fun full => absurd rfl full, queued := more.flushed }
  case killed notify code hp =>
    refine { more with alive := fun alive => by contradiction, buf := fun full => absurd rfl full
                       queued := fun f hf => ?_ }
    rcases List.mem_append.mp hf with hf | hf
    case inl => exact more.flushed f hf
    case inr =>
      cases notify
      case false => contradiction
      case true  => exact ⟨by simp [List.mem_singleton.mp hf], more.alive hp⟩

end Asked

-- An open frame that comes is the first one, as there is only one.
theorem Move.life (mv : Move sid v ms' es' v') (h : Life sid (opens sid ms) es v)
    (ho : (opens sid (ms ++ ms')).length ≤ 1) : Life sid (opens sid (ms ++ ms')) (es ++ es') v' := by
  have first {m : Msg} (ht : m.t = "open") (hs : m.sid = sid)
      (ho : (opens sid (ms ++ [m])).length ≤ 1) : opens sid ms = [] := by
    rw [opens_append, opens_self ht hs] at ho
    exact List.eq_nil_of_length_eq_zero (by simpa using ho)
  cases mv
  case flushed   => simpa using h.flush
  case killed hp =>
    obtain rfl := h.ends_of_alive hp
    simpa using h.kill hp
  case read hp   => simpa using h.read hp
  case typed m b n ht _ hp _ =>
    rw [opens_append, opens_other (by simp [ht]), List.append_nil, List.append_nil]
    exact h.give (h.ran_of_alive hp)
  case ignored m =>
    rw [List.append_nil]
    by_cases hm : m.t = "open" ∧ m.sid = sid
    case pos =>
      rw [first hm.left hm.right ho] at h
      obtain ⟨rfl, rfl⟩ := h.idle_of_nil
      exact .idle
    case neg => simpa [opens_append, opens, hm] using h
  case opened m ht hs =>
    rw [opens_append, first ht hs ho, opens_self ht hs]
    rw [first ht hs ho] at h
    obtain ⟨rfl, rfl⟩ := h.idle_of_nil
    exact .opened
  case failed m ht hs =>
    rw [opens_append, first ht hs ho, opens_self ht hs]
    rw [first ht hs ho] at h
    obtain ⟨rfl, rfl⟩ := h.idle_of_nil
    exact .failed (by simp)

-- What the operations are for a sid.

-- The events that are about no sid, or another one.
theorem view_record (he : e.frameOf sid = none) (hl : e.lineOf sid = none) (hr : e.readOf sid = none)
    (hw : e.wroteOf sid = none) (hc : e.codeOf sid = none) : view sid (σ.record e) = view sid σ := by
  simp only [view, State.record, List.filterMap_cons, he, hl, hr, hw, hc]

theorem view_send (h : f.sid ≠ sid ∨ f.t = "hb") : view sid (σ.send f) = view sid σ := by
  have other : (Event.queued f).frameOf sid = none := by
    rcases h with h | h <;> simp [h]
  exact view_record other rfl rfl rfl rfl

theorem view_send_self (hs : f.sid = sid) (ht : f.t ≠ "hb") :
    view sid (σ.send f) = { view sid σ with queued := (view sid σ).queued ++ [f] } := by
  simp [view, State.send, State.record, List.filterMap_cons, hs, ht]

-- Without a fleet key no sid has an AEAD.
theorem Tidy.plain (h : Tidy H none σ) (sid : String) : σ.enc.get? sid = none := by
  rw [h.enc]
  cases σ.ptys.get? sid <;> rfl

theorem view_flush (h : σ.enc.get? sid' = none) :
    view sid (σ.flush G sid' nonce) = if sid' = sid then (view sid σ).flush sid else view sid σ := by
  simp only [State.flush, State.cancelTimer, h]
  by_cases hs : sid' = sid
  case pos =>
    subst hs
    rw [if_pos rfl]
    cases hb : σ.obuf.get? sid'
    case none => simp [view, View.flush, View.flushed, hb]
    case some buf =>
      by_cases empty : buf = []
      case pos => simp [view, View.flush, View.flushed, hb, empty]
      case neg =>
        simp only [if_neg empty]
        refine (view_send_self rfl (by simp)).trans ?_
        simp [view, View.flush, View.flushed, hb, empty]
  case neg =>
    rw [if_neg hs]
    cases hb : σ.obuf.get? sid'
    case none => rfl
    case some buf =>
      by_cases empty : buf = []
      case pos => simp [view, empty, Ne.symm hs]
      case neg =>
        simp only [if_neg empty]
        refine (view_send (.inl hs)).trans ?_
        simp [view, Ne.symm hs]

theorem view_ended {code : Int} : view sid (σ.ended p code) =
    if p.sid = sid then { view sid σ with alive := false, codes := (view sid σ).codes ++ [code] }
    else view sid σ := by
  split
  case isTrue hs =>
    subst hs
    simp [view, State.ended, State.record, List.filterMap_cons]
  case isFalse hs =>
    simp [view, State.ended, State.record, List.filterMap_cons, hs, Ne.symm hs]

theorem view_reap {notify : Bool} (h : Tidy H none σ) :
    view sid (σ.reap G sid' notify env) =
      match σ.ptys.get? sid' with
      | some p => if sid' = sid then (view sid σ).kill sid notify (env.code p) else view sid σ
      | none   => view sid σ := by
  rcases h.reap_cases (G := G) sid' notify env with ⟨hp, e⟩ | ⟨p, rfl, hp, e⟩
  case inl => simp [hp, e]
  case inr =>
    have ended : view sid ((σ.flush G p.sid (env.nonce p.sid)).ended p (env.code p)) =
        if p.sid = sid then (view sid σ).kill sid false (env.code p) else view sid σ := by
      rw [view_ended, view_flush (h.plain _)]
      split <;> simp [View.flush, View.kill]
    simp only [e, hp]
    cases notify
    case false => exact ended
    case true =>
      by_cases hs : p.sid = sid
      case neg => exact (view_send (.inl hs)).trans (by simpa [hs] using ended)
      case pos =>
        subst hs
        rw [if_pos rfl] at ended ⊢
        refine (view_send_self rfl (by simp)).trans ?_
        rw [ended]
        simp [View.kill]

theorem view_insert {cmd : Value} :
    view sid (σ.insert sid' cmd line none) =
      if sid' = sid then { view sid σ with alive := true, ran := (view sid σ).ran ++ [line] }
      else view sid σ := by
  by_cases he : sid' = sid
  case pos => simp [view, State.insert, State.record, List.filterMap_cons, he]
  case neg => simp [view, State.insert, State.record, List.filterMap_cons, he, Ne.symm he]

theorem view_spawn {cmd : Value} :
    view sid (σ.spawn sid' cmd line none env) =
      if sid' = sid then
        if env.fork then
          { view sid σ with alive := true, ran := (view sid σ).ran ++ [line] }
        else
          { view sid σ with
            queued := (view sid σ).queued ++ [{ t := "exit", sid, code := some 127 }] }
      else view sid σ := by
  rcases σ.spawn_cases sid' cmd line none env with ⟨failed, e⟩ | ⟨forks, e | ⟨p, killed, e⟩⟩ <;> rw [e]
  case inl =>
    by_cases he : sid' = sid
    case neg => exact (view_send (.inl he)).trans (if_neg he).symm
    case pos =>
      subst he
      rw [if_pos rfl, failed]
      exact view_send_self rfl (by simp)
  case inr.inl => simp only [view_insert, forks, if_true]
  case inr.inr =>
    rw [view_record rfl rfl rfl rfl rfl]
    simp only [view_insert, forks, if_true]

theorem view_write : view sid (σ.write p data env) =
    if p.sid = sid then
      { view sid σ with given := (view sid σ).given ++ (env.write.map data.take).toList }
    else view sid σ := by
  unfold State.write
  split
  case h_2 hn => simp [hn]
  case h_1 n hn =>
    by_cases hs : p.sid = sid
    case pos => simp [view, State.record, List.filterMap_cons, hn, hs]
    case neg =>
      rw [if_neg hs]
      exact view_record rfl rfl rfl (by simp [hs]) rfl

-- A timer fires that is to flush its sid.
theorem view_timer {id : Nat} (h : Tidy H none σ) (ht : σ.timers.get? id = some sid') :
    view sid ({ σ with timers := σ.timers.delete id }.flush G sid' nonce) =
      if sid' = sid then (view sid σ).flush sid else view sid σ := by
  have set : σ.oflush.get? sid' = some id := (h.timers ht).left
  have fired : { σ with timers := σ.timers.delete id }.cancelTimer sid' = σ.cancelTimer sid' := by
    have once : (σ.timers.delete id).delete id = σ.timers.delete id :=
      GoMap.delete_of_none (by simp)
    simp only [State.cancelTimer, set, once]
  have same : { σ with timers := σ.timers.delete id }.flush G sid' nonce = σ.flush G sid' nonce := by
    simp only [State.flush, fired]
  rw [same]
  exact view_flush (h.plain _)

-- The fields that the handlers read of a frame of the Go broker.
theorem ofMsg_eq (f : Msg) : ∃ fields, Value.ofMsg f = .dict fields ∧
    fields.lookup "t" = some (.str f.t) ∧
    (fields.lookup "sid").getD .none = (if f.sid = "" then .none else .str f.sid) ∧
    cmdline ((fields.lookup "cmd").getD .none) = utf8 f.cmd ∧
    (fields.lookup "data").getD (.str "") = .str f.data := by
  have coded {k : String} (hk : k ≠ "code") :
      (f.code.map fun n => ("code", Value.int n)).toList.lookup k = none := by
    have other : (k == "code") = false := by simpa using hk
    cases f.code <;> simp [other, List.lookup_cons]
  refine ⟨_, rfl, rfl, ?_, ?_, ?_⟩
  case refine_1 =>
    by_cases hs : f.sid = "" <;>
      simp [List.lookup_append, List.lookup_cons, apply_ite (List.lookup "sid"), coded, hs]
  case refine_2 =>
    by_cases hs : f.cmd = "" <;>
      simp [List.lookup_append, List.lookup_cons, apply_ite (List.lookup "cmd"), coded, hs, cmdline, utf8]
  case refine_3 =>
    by_cases hs : f.data = "" <;>
      simp [List.lookup_append, List.lookup_cons, apply_ite (List.lookup "data"), coded, hs]

-- All that `handle` does with a frame of the Go broker, where it has no fleet key.
inductive Took (G : Gcm tagLen) (σ : State) (f : Msg) (env : Env) : State → Prop
  | nothing (enrolled pumping : Bool) (hc : f.t = "close" → f.sid = "") :
    Took G σ f env { σ with enrolled, pumping }
  | opened {cmd} (ht : f.t = "open") (hs : σ.ptys.get? f.sid = none) :
    Took G σ f env (σ.spawn f.sid cmd (utf8 f.cmd) none env)
  | typed {p b} (ht : f.t = "in") (hp : σ.ptys.get? f.sid = some p)
    (hb : Base64.b64decode f.data = some b) : Took G σ f env (σ.write p b env)
  | resized {p c r} (ht : f.t = "resize") : Took G σ f env (σ.record (.resized p c r))
  | closed (ht : f.t = "close") (hs : f.sid ≠ "") : Took G σ f env (σ.reap G f.sid true env)

theorem took_of_step (h : Tidy H none σ) (e : step H G int none σ (.frame (.ofMsg f) env) = some σ') :
    Took G σ f env σ' := by
  simp only [step, Option.ite_none_right_eq_some, Option.some.injEq] at e
  obtain ⟨_, rfl⟩ := e
  obtain ⟨fields, eq, tag, named, line, data⟩ := ofMsg_eq f
  cases e : handle H G int none σ (.ofMsg f) env
  case none =>
    refine .nothing σ.enrolled false fun ht => ?_
    simp only [eq, handle, tag, named, ht, Option.getD_some] at e
    split at e <;> simp [handleClose, Value.hashable] at e
  case some σ' =>
    simp only [eq, handle, tag, named, data, Option.getD_some] at e
    rw [Option.getD_some]
    have same (hc : f.t = "close" → f.sid = "") : Took G σ f env σ := .nothing σ.enrolled σ.pumping hc
    have other {t : String} (ht : Value.str f.t = .str t) (hn : t ≠ "close") : f.t = "close" → f.sid = "" :=
      fun hc => absurd ((Value.str.inj ht).symm.trans hc) hn
    -- The value of a sid, and of no sid.
    generalize hv : (if f.sid = "" then Value.none else Value.str f.sid) = v at e
    have none_or : v = .none ∧ f.sid = "" ∨ v = .str f.sid ∧ f.sid ≠ "" := by
      split at hv
      case isTrue hs  => exact .inl ⟨hv.symm, hs⟩
      case isFalse hs => exact .inr ⟨hv.symm, hs⟩
    split at e
    case h_1 ht => cases e; exact .nothing true σ.pumping (other ht (by decide))
    case h_6 hn => cases e; exact same fun ht => absurd (congrArg Value.str ht) hn
    case h_2 ht =>
      rcases none_or with ⟨rfl, _⟩ | ⟨rfl, _⟩
      case inl => cases e; exact same (other ht (by decide))
      case inr =>
        simp only [openPty] at e
        split at e <;> cases e
        case isTrue => exact same (other ht (by decide))
        case isFalse unused =>
          rw [line]
          exact .opened (Value.str.inj ht) (by simpa using (not_or.mp unused).right)
    case h_3 ht =>
      rcases none_or with ⟨rfl, _⟩ | ⟨rfl, _⟩
      case inl => cases e; exact same (other ht (by decide))
      case inr =>
        simp only [handleIn, h.enc, b64decode] at e
        split at e
        case h_1 => cases e; exact same (other ht (by decide))
        case h_2 hp =>
          simp only [hp, Option.bind_none, Option.bind_some, Option.bind_eq_bind,
            Option.bind_eq_some_iff] at e
          obtain ⟨b, hb, e⟩ := e
          cases e
          exact .typed (Value.str.inj ht) hp hb
    case h_4 ht =>
      rcases none_or with ⟨rfl, _⟩ | ⟨rfl, _⟩
      case inl => cases e; exact same (other ht (by decide))
      case inr =>
        simp only [handleResize] at e
        split at e
        case h_1 => cases e; exact same (other ht (by decide))
        case h_2 =>
          simp only [Option.bind_eq_bind, Option.bind_eq_some_iff, Option.ite_none_right_eq_some] at e
          obtain ⟨_, _, _, _, _, e⟩ := e
          cases e
          exact .resized (Value.str.inj ht)
    case h_5 ht =>
      rcases none_or with ⟨rfl, hs⟩ | ⟨rfl, hs⟩ <;> cases e
      case inl => exact same fun _ => hs
      case inr => exact .closed (Value.str.inj ht) hs

-- An agent of a Go broker runs these: a frame of it, or another callback.
inductive Turn
  | frame (f : Msg) (env : Env)
  | callback (l : Label)

def Turn.label : Turn → Option Label
  | .frame f env            => some (.frame (.ofMsg f) env)
  | .callback (.frame _ _)  => none
  | .callback l             => some l

-- The frame that it takes off the websocket.
def Turn.heard : Turn → Option Msg
  | .frame f _  => some f
  | .callback _ => none

-- The PTY of a sid lives.
def State.lives (σ : State) (sid : String) : Bool :=
  (σ.ptys.get? sid).isSome

-- The end of the PTY of a sid: when its output is at the end and when it is closed, the broker is told, and
-- when the agent shuts down it is not.
def ends (sid : String) (σ : State) : Turn → List Bool
  | .callback (.readable p (some []) _) => if σ.lives sid ∧ σ.readers.get? p = some sid then [true] else []
  | .frame f _                          =>
    if σ.lives sid ∧ f.t = "close" ∧ f.sid = sid ∧ sid ≠ "" then [true] else []
  | .callback (.shutdown _)             => if σ.lives sid then [false] else []
  | _                                   => []

theorem lives_reap {notify : Bool} (h : Tidy H none σ) :
    (σ.reap G sid' notify env).lives sid = (σ.lives sid && !(sid' = sid)) := by
  have same : (σ.reap G sid' notify env).lives sid = (view sid (σ.reap G sid' notify env)).alive := rfl
  rw [same, view_reap h]
  by_cases hs : sid' = sid
  case neg => cases σ.ptys.get? sid' <;> simp [hs, view, State.lives]
  case pos =>
    subst hs
    cases hp : σ.ptys.get? sid' <;> simp [hp, View.kill, view, State.lives]

namespace Moves

theorem of_eq (h : v' = v) : Moves sid v [] [] v' :=
  h ▸ .nil

theorem flush (h : σ.enc.get? sid' = none) :
    Moves sid (view sid σ) [] [] (view sid (σ.flush G sid' nonce)) := by
  rw [view_flush h]
  split
  case isTrue  => exact .of_move .flushed
  case isFalse => exact .nil

theorem reaps (sid sid' : String) (notify : Bool) (env : Env) (h : Tidy H none σ) :
    Moves sid (view sid σ) [] (if σ.lives sid ∧ sid' = sid then [notify] else [])
      (view sid (σ.reap G sid' notify env)) := by
  rw [view_reap h]
  by_cases hs : sid' = sid
  case neg => cases σ.ptys.get? sid' <;> simpa [hs] using .nil
  case pos =>
    subst hs
    cases hp : σ.ptys.get? sid'
    case none   => simpa [State.lives, hp] using .nil
    case some p => simpa [State.lives, hp] using .of_move (.killed (by simp [view, hp]))

theorem shutdown (h : Tidy H none σ) :
    Moves sid (view sid σ) [] (if σ.lives sid then [false] else []) (view sid (σ.shutdown G env)) := by
  have reaped (sids : List String) : Moves sid (view sid σ) []
      (if σ.lives sid ∧ sid ∈ sids then [false] else [])
      (view sid (sids.foldl (fun σ sid => σ.reap G sid false env) σ)) := by
    induction sids generalizing σ
    case nil => simpa using .nil
    case cons sid' sids hi =>
      have ended := (reaps (G := G) sid sid' false env h).trans (hi h.reap)
      rw [lives_reap h] at ended
      by_cases hs : sid' = sid
      case pos => simpa [hs] using ended
      case neg => simpa [hs, Ne.symm hs] using ended
  have keys : (σ.lives sid ∧ sid ∈ σ.ptys.keys) ↔ σ.lives sid :=
    and_iff_left_of_imp fun lives => AList.mem_keys.mp (AList.lookup_isSome.mp lives)
  have ended := reaped σ.ptys.keys
  simp only [keys] at ended
  exact ended

theorem drain {data : Option Bytes} (h : Tidy H none σ) :
    Moves sid (view sid σ) [] (if σ.lives sid ∧ sid' = sid ∧ data = some [] then [true] else [])
      (view sid (σ.drain G sid' data env)) := by
  generalize he : (if σ.lives sid ∧ sid' = sid ∧ data = some [] then [true] else []) = es
  unfold State.drain
  split
  case h_1 hp =>
    have dead : sid' = sid → ¬σ.lives sid := by
      rintro rfl
      simp [State.lives, hp]
    rw [if_neg fun alive => dead alive.right.left alive.left] at he
    exact he ▸ .nil
  case h_2 =>
    obtain rfl : [] = es := by simpa using he
    exact .nil
  case h_3 =>
    simpa [← he] using reaps sid sid' true env h
  case h_4 p data full hp =>
    obtain rfl : p.sid = sid' := live_named ((h.live sid').symm.trans hp)
    let τ := { σ with
      obuf := σ.obuf.set p.sid ((σ.obuf.get? p.sid).getD [] ++ data) }.record (.read p data)
    have read : Moves sid (view sid σ) [] [] (view sid τ) := by
      by_cases hs : p.sid = sid
      case pos =>
        subst hs
        have same : view p.sid τ = { view p.sid σ with
            buf     := (view p.sid σ).buf ++ data
            printed := (view p.sid σ).printed ++ data } := by
          simp [τ, view, State.record, List.filterMap_cons]
        exact same ▸ .of_move (.read (by simp [view, hp]))
      case neg =>
        refine .of_eq ?_
        simp [τ, view, State.record, List.filterMap_cons, hs, Ne.symm hs]
    have more : ¬(σ.lives sid ∧ p.sid = sid ∧ some data = some []) := by
      rintro ⟨_, _, empty⟩
      exact full (Option.some.inj empty)
    obtain rfl := (if_neg more).symm.trans he
    simp only
    split
    case isTrue => exact read.trans (flush (h.plain _))
    case isFalse =>
      split
      case isTrue  => exact read
      case isFalse => exact read.trans .nil

-- What leaves the view as it is.
theorem unchanged (h : view sid σ' = view sid σ) : Moves sid (view sid σ) [f] [] (view sid σ') :=
  h ▸ .of_move (.ignored f)

theorem of_took (h : Tidy H none σ) (took : Took G σ f env σ') :
    Moves sid (view sid σ) [f] (ends sid σ (.frame f env)) (view sid σ') := by
  have none_of (hc : f.t = "close" → f.sid = "") : ends sid σ (.frame f env) = [] := by
    refine if_neg ?_
    rintro ⟨_, ht, rfl, hs⟩
    exact hs (hc ht)
  have other {t : String} (ht : f.t = t) (hn : t ≠ "close") : ends sid σ (.frame f env) = [] :=
    none_of fun hc => absurd (ht.symm.trans hc) hn
  cases took
  case nothing hc => exact none_of hc ▸ .unchanged rfl
  case typed ht hp hb =>
    have named := live_named ((h.live f.sid).symm.trans hp)
    rw [view_write, other ht (by decide)]
    split
    case isFalse => exact .unchanged rfl
    case isTrue hs =>
      cases env.write
      case none   => simpa using Moves.of_move (.ignored f)
      case some n => exact .of_move (.typed ht (named.symm.trans hs) (by simp [view, ← hs, named, hp]) hb)
  case resized ht => exact other ht (by decide) ▸ .unchanged (view_record rfl rfl rfl rfl rfl)
  case closed ht hs =>
    have ignored : Moves sid (view sid σ) [f] [] (view sid σ) := .unchanged rfl
    have same : (σ.lives sid ∧ f.t = "close" ∧ f.sid = sid ∧ sid ≠ "") ↔ σ.lives sid ∧ f.sid = sid := by
      grind
    have ended := ignored.trans (reaps (G := G) sid f.sid true env h)
    simpa only [ends, same, List.append_nil, List.nil_append] using ended
  case opened ht hs =>
    rw [other ht (by decide)]
    by_cases named : f.sid = sid
    case neg => exact .unchanged (by rw [view_spawn, if_neg named])
    case pos =>
      subst named
      rw [view_spawn, if_pos rfl]
      split
      case isTrue  => exact .of_move (.opened ht rfl)
      case isFalse => exact .of_move (.failed ht rfl)

theorem of_turn {t : Turn} {l : Label} (h : Tidy H none σ) (hl : t.label = some l)
    (e : step H G int none σ l = some σ') :
    Moves sid (view sid σ) t.heard.toList (ends sid σ t) (view sid σ') := by
  cases t
  case frame f env =>
    cases hl
    exact .of_took h (took_of_step h e)
  case callback l' =>
    cases l' <;> cases hl <;> simp only [step] at e
    case readable p data env =>
      obtain ⟨sid', hr, e⟩ := Option.bind_eq_some_iff.mp e
      cases e
      have same : ends sid σ (.callback (.readable p data env)) =
          if σ.lives sid ∧ sid' = sid ∧ data = some [] then [true] else [] := by
        rcases data with _ | (_ | _) <;> simp [ends, hr]
      exact same ▸ .drain h
    case timer =>
      obtain ⟨sid', ht, e⟩ := Option.bind_eq_some_iff.mp e
      cases e
      rw [view_timer h ht]
      split
      case isTrue  => exact .of_move .flushed
      case isFalse => exact .nil
    case heartbeat    => cases e; exact .of_eq (view_send (.inr rfl))
    case disconnected => cases e; exact .nil
    case shutdown =>
      cases e
      have stopped : Tidy H none { σ with pumping := false } := { h with }
      exact .shutdown stopped
    case pumpOut =>
      split at e <;> cases e
      case h_2 => exact .of_eq (view_record rfl rfl rfl rfl rfl)

end Moves

-- The agent at the other end of the websocket of a Go broker.
def turns (H : Mac 32) (G : Gcm tagLen) (int : String → Option Int) : Transition State Turn where
  Init σ   := σ = {}
  step σ t := t.label.bind (step H G int none σ)

-- What an agent took off the websocket in the callbacks that it ran, and the ends of the PTYs of a sid.

def heard (ts : List (State × Turn)) : List Msg :=
  ts.filterMap (·.2.heard)

def ended (sid : String) (ts : List (State × Turn)) : List Bool :=
  ts.flatMap fun t => ends sid t.1 t.2

-- The agent after it ran these.
structure Served (H : Mac 32) (G : Gcm tagLen) (ts : List (State × Turn)) (σ : State) : Prop where
  coalesced : Coalesced H G none σ
  inOrder   : InOrder σ
  asked     : ∀ sid, Asked sid (heard ts) (view sid σ)
  life      : ∀ sid, (opens sid (heard ts)).length ≤ 1 →
    Life sid (opens sid (heard ts)) (ended sid ts) (view sid σ)

theorem Asked.moves (h : Asked sid ms v) (mv : Moves sid v ms' es v') : Asked sid (ms ++ ms') v' := by
  induction mv
  case nil        => simpa using h
  case snoc mv hi => simpa using hi.move mv

theorem Moves.life (mv : Moves sid v ms' es' v') (h : Life sid (opens sid ms) es v)
    (ho : (opens sid (ms ++ ms')).length ≤ 1) : Life sid (opens sid (ms ++ ms')) (es ++ es') v' := by
  induction mv
  case nil => simpa using h
  case snoc mv hi =>
    rw [← List.append_assoc] at ho ⊢
    rw [← List.append_assoc]
    refine mv.life (hi (Nat.le_trans ?_ ho)) ho
    simp [opens_append]

theorem served_observed {ts : List (State × Turn)}
    (h : (turns H G int).Observed (fun σ t => [(σ, t)]) ts σ) : Served H G ts σ := by
  refine h.invariant (I := Served H G) ?_ fun ts σ t σ' _ hi e => ?_
  case refine_1 =>
    rintro σ rfl
    exact ⟨@coalesced_reachable H G int none {} (.init rfl), rfl,
      fun sid => ⟨by simp [view], by simp [view], by simp [view], by simp [view, opens], .nil⟩,
      fun sid _ => .idle⟩
  case refine_2 =>
    obtain ⟨l, hl, e⟩ := Option.bind_eq_some_iff.mp e
    have mv sid : Moves sid (view sid σ) t.heard.toList (ends sid σ t) (view sid σ') :=
      .of_turn hi.coalesced.tidy hl e
    have more : heard (ts ++ [(σ, t)]) = heard ts ++ t.heard.toList := by
      cases ht : t.heard <;> simp [heard, ht]
    have last sid : ended sid (ts ++ [(σ, t)]) = ended sid ts ++ ends sid σ t := by simp [ended]
    refine ⟨hi.coalesced.step e, hi.inOrder.step e, fun sid => ?_, fun sid ho => ?_⟩
    case refine_1 => exact more ▸ (hi.asked sid).moves (mv sid)
    case refine_2 =>
      rw [more] at ho ⊢
      rw [last]
      exact (mv sid).life (hi.life sid (Nat.le_trans (by simp [opens_append]) ho)) ho

-- In every run of an agent without a fleet key: of a sid there is no more than its open frames asked for,
-- and a sid that is opened once has one life, with all that its shell printed in its frames, in order. Its
-- PTY ends when its output is at the end or the broker closes it, with the exit frame last, or when the
-- agent shuts down, with none. The socket takes the frames in the order in which they were queued.
theorem session_life {ts : List (State × Turn)}
    (h : (turns H G int).Observed (fun σ t => [(σ, t)]) ts σ) :
    (∀ sid, Asked sid (heard ts) (view sid σ)) ∧
    (∀ sid, (opens sid (heard ts)).length ≤ 1 →
      Life sid (opens sid (heard ts)) (ended sid ts) (view sid σ)) ∧
    σ.sents.reverse ++ σ.outbox = σ.queues :=
  have served := served_observed h
  ⟨served.asked, served.life, served.inOrder⟩

-- The shell of a0 prints "hi" and exits, and the one of b1 runs when the agent shuts down.
theorem session_life_sample :
    let o sid : Msg := { t := "open", sid }
    let ts : List Turn := [.frame (o "a0") sampleEnv, .frame (o "b1") sampleEnv,
      .callback (.readable ⟨0, "a0"⟩ (some [104, 105]) sampleEnv),
      .callback (.readable ⟨0, "a0"⟩ (some []) sampleEnv), .callback (.shutdown sampleEnv)]
    ∃ σ, (turns sampleMac sampleGcm fun _ => none).run {} ts = some σ ∧
      (view "a0" σ).queued = [{ t := "out", sid := "a0", data := "aGk=" },
        { t := "exit", sid := "a0", code := some 137 }] ∧
      Life "a0" [o "a0"] [true] (view "a0" σ) ∧ Life "b1" [o "b1"] [false] (view "b1" σ) := by
  intro o ts
  let T := turns sampleMac sampleGcm fun _ => none
  have ran : (T.run {} ts).isSome := by decide
  obtain ⟨σ, e⟩ := Option.isSome_iff_exists.mp ran
  have initial : T.Init {} := rfl
  have observed := (Observed.init (f := fun σ t => [(σ, t)]) initial).run e
  obtain ⟨_, life, _⟩ := session_life observed
  let trace := [] ++ (T.observe (fun σ t => [(σ, t)]) {} ts).flatten
  have opened : opens "a0" (heard trace) = [o "a0"] ∧ opens "b1" (heard trace) = [o "b1"] := by decide
  have ended : ended "a0" trace = [true] ∧ ended "b1" trace = [false] := by decide
  have first := life "a0" (by rw [opened.left]; decide)
  have second := life "b1" (by rw [opened.right]; decide)
  rw [opened.left, ended.left] at first
  rw [opened.right, ended.right] at second
  exact ⟨σ, e, Transition.eq_of_run (f := fun σ => (view "a0" σ).queued) e (by decide), first, second⟩

end Contrib
