import Popfleet.Store.Theorems.Tokens

open FileSystem

namespace Store

namespace Codec

-- A codec given by the encodings of some lists.
def table (t : List (List Machine × Bytes)) (h : (t.map (·.2)).Nodup) : Codec where
  marshal l   := (t.find? (·.1 = l)).map (·.2)
  unmarshal b := (t.find? (·.2 = b)).map (·.1.map some)
  unmarshal_marshal := by
    intro l b hl
    have ⟨e, he, hb⟩ := Option.map_eq_some_iff.mp hl
    have hl : e.1 = l := by simpa using List.find?_some he
    have mem := List.mem_of_find?_eq_some he
    cases hf : t.find? (·.2 = b)
    case none =>
      simp only [List.find?_eq_none, decide_eq_true_eq] at hf
      exact absurd hb (hf e mem)
    case some e' =>
      have hb' : e'.2 = b := by simpa using List.find?_some hf
      have mem' := List.mem_of_find?_eq_some hf
      have : e' = e := List.inj_on_of_nodup_map h mem' mem (hb'.trans hb.symm)
      simp [this, hl]

def ascii (s : String) : Bytes :=
  s.toList.map (UInt8.ofNat ·.toNat)

-- What encoding/json writes when no machine is left, and for a machine that was just minted.
def sample : Codec := table
  [([], ascii "[]"),
   ([{ id := "5c", token := "e1" }], ascii <|
      "[\n \x7b\n  \"id\": \"5c\",\n  \"name\": \"\",\n  \"token\": \"e1\",\n" ++
      "  \"last_seen\": \"0001-01-01T00:00:00Z\",\n  \"agent_ver\": \"\"\n \x7d\n]")]
  (by decide)

end Codec

namespace Sys

variable {J : Codec} {path : Path} {σ σ' : Sys} {c : Call} {s : Machines} {m : Machine}
  {id name token : String}

-- What `Mint` returned is filed under its token, and held too while a process runs.
structure Held (σ : Sys) (m : Machine) : Prop where
  drawn : (m.id, m.token) ∈ σ.drawn
  filed : σ.filed m.id = some m.token
  held  : σ.proc.isSome → σ.held m.id = some m.token

theorem Step.held_of_minted (e : Step J path σ c σ') (h : .minted m ∈ σ'.log)
    (hn : .minted m ∉ σ.log) : Held σ' m := by
  cases e
  case minted s id name token b v hp hb n =>
    have new : m = { id, name, token } := by simpa [hn] using h
    subst new
    have filed := congrFun (filed_new (s := s.insert { id, name, token }) none n) id
    constructor
    case drawn => exact List.mem_cons_self
    case filed => exact filed.trans (by simp)
    case held  => simp [Sys.held]
  all_goals exact absurd h (by simpa using hn)

theorem id_ne_of_drawn {a t : String}
    (hf : (drawing (.mint id name token) ++ σ.drawn).map (·.1) |>.Nodup)
    (hm : (a, t) ∈ σ.drawn) : a ≠ id := by
  intro h
  have : id ∉ σ.drawn.map (·.1) := List.nodup_cons.mp hf |>.left
  exact this (h ▸ List.mem_map_of_mem hm)

-- Calls that neither delete a machine nor draw its id leave its token alone.
theorem saving_eq_of_drawn {held : String → Option String} {a t : String}
    (hf : (drawing c ++ σ.drawn).map (·.1) |>.Nodup) (hm : (a, t) ∈ σ.drawn)
    (hc : c ≠ .delete a) : saving held c a = held a := by
  cases c
  case mint   => exact Function.update_of_ne (id_ne_of_drawn hf hm) ..
  case delete => exact Function.update_of_ne (fun h => hc (congrArg Call.delete h.symm)) ..
  all_goals rfl

theorem Step.held (e : Step J path σ c σ') (h : Encodes J σ.saved (σ.vol.disk path)) (hf : σ'.Fresh)
    (hc : c ≠ .delete m.id) (hm : Held σ m) : Held σ' m := by
  have fresh : (drawing c ++ σ.drawn).map (·.1) |>.Nodup := e.drawn_eq ▸ hf.left
  have saving_eq : saving σ.held c m.id = σ.held m.id := saving_eq_of_drawn fresh hm.drawn hc
  have drawn : (m.id, m.token) ∈ σ'.drawn := e.drawn_eq ▸ List.mem_append_right _ hm.drawn
  cases e.change h
  case same proc filed =>
    exact ⟨drawn, filed ▸ hm.filed, fun hp => held_eq_of_proc proc ▸ hm.held (proc ▸ hp)⟩
  case loaded held filed => exact ⟨drawn, filed ▸ hm.filed, fun _ => held ▸ hm.filed⟩
  case returned proc held filed =>
    have saved : saving σ.held c m.id = some m.token := saving_eq ▸ hm.held proc
    exact ⟨drawn, filed ▸ saved, fun _ => held ▸ saved⟩
  case ignored proc _ held filed =>
    have saved : saving σ.held c m.id = some m.token := saving_eq ▸ hm.held proc
    exact ⟨drawn, filed ▸ hm.filed, fun _ => held ▸ saved⟩
  case mintFailed id name token proc hc held filed =>
    refine ⟨drawn, filed ▸ hm.filed, fun _ => ?_⟩
    have ne : m.id ≠ id := id_ne_of_drawn (hc ▸ fresh) hm.drawn
    rw [held, Function.update_of_ne ne]
    exact hm.held proc
  case lost proc lost filed =>
    refine ⟨drawn, ?_, fun hp => by simp [lost] at hp⟩
    cases filed
    case inl filed => exact filed ▸ hm.filed
    case inr filed => exact filed ▸ saving_eq ▸ hm.held proc

theorem Step.deleting (e : Step J path σ (.delete id) σ') : .deleting id ∈ σ'.log := by
  cases e <;> simp

-- A machine that `Mint` returned is held as long as `Delete` is not called with its id.
theorem kept (h : (history J path).Reachable σ) (hf : σ.Fresh) (hm : .minted m ∈ σ.log)
    (hd : .deleting m.id ∉ σ.log) : Held σ m := by
  induction h
  case init hi =>
    have ⟨_, _, _, _, hl⟩ := hi
    simp [hl] at hm
  case step σ l σ' h _ e hi =>
    replace e := Step.of e
    by_cases hn : .minted m ∈ σ.log
    case neg => exact e.held_of_minted hm hn
    case pos =>
      have hd' : .deleting m.id ∉ σ.log := fun h => hd (e.log_suffix.mem h)
      refine e.held (encodes h) hf ?_ (hi (e.fresh hf) hn hd')
      intro hc
      exact hd (hc ▸ e).deleting

theorem tokenOf_opened (h : (history J path).Reachable σ)
    (ho : opened J (σ.vol.disk path) = .store s) (ht : s.tokenOf id = some token) :
    (id, token) ∈ σ.drawn :=
  (inv h).filed_drawn (opened_tokenOf (encodes h) ho ▸ ht)

-- Two machines with the same token would have been drawn with it.
theorem byToken_opened (h : (history J path).Reachable σ) (hf : σ.Fresh)
    (ho : opened J (σ.vol.disk path) = .store s) (ht : s.tokenOf id = some token) :
    ∃ m, s.byToken token = some m ∧ m.id = id := by
  have ⟨m, hm⟩ := Machines.byToken_isSome ht
  have drawn := tokenOf_opened h ho (Machines.byToken_eq_some hm)
  have := List.inj_on_of_nodup_map hf.right drawn (tokenOf_opened h ho ht) rfl
  exact ⟨m, hm, congrArg (·.1) this⟩

-- The state file read back gives the map that was saved last.
theorem reopens (h : (history J path).Reachable σ) :
    ∃ s, opened J (σ.vol.disk path) = .store s ∧
      ∀ id, s.get? id = (σ.saved.getD ∅).get? id := by
  cases hs : σ.saved <;> cases hd : σ.vol.disk path <;> have he := encodes h <;>
    rw [hs, hd] at he <;> cases he
  case none.none.absent => exact ⟨∅, rfl, fun _ => rfl⟩
  case some.some.file hb => exact opened_encoding hb

-- A failed `Mint` leaves the map as it was, since the id it drew was not in it.
theorem mint_failed {s' : Machines} {v : Volume} {os os' : List Outcome}
    (h : (history J path).Reachable σ) (hp : σ.proc = some s) (hd : id ∉ σ.drawn.map (·.1))
    (e : Mint J path s id name token σ.vol os = (.value (s', none), v, os')) :
    v.disk path = σ.vol.disk path ∧ ∀ id', s'.get? id' = s.get? id' := by
  have absent : s.get? id = none := by
    cases hs : s.get? id
    case none => rfl
    case some m =>
      have held : σ.held id = some m.token := by simp [Sys.held, hp, Machines.tokenOf, hs]
      have drawn := (inv h).filed_drawn ((inv h).held_filed held)
      exact absurd (List.mem_map_of_mem drawn) hd
  rcases Mint_cases e with ⟨o, he⟩ | ⟨_, _, _, he⟩ | ⟨_, he⟩ <;> cases he
  refine ⟨o.left, fun id' => ?_⟩
  rw [Machines.get?_erase]
  split
  case isTrue h  => rw [h, absent]
  case isFalse h => simp [h]

-- The state file is absent or the encoding of the map saved last, and reading it back gives that map,
-- in which the token of every machine minted and not deleted resolves to its id.
theorem durable (h : (history J path).Reachable σ) (hf : σ.Fresh) :
    Encodes J σ.saved (σ.vol.disk path) ∧
    (∀ {s s' id name token os v os'}, σ.proc = some s → id ∉ σ.drawn.map (·.1) →
      Mint J path s id name token σ.vol os = (.value (s', none), v, os') →
      v.disk path = σ.vol.disk path ∧ ∀ id', s'.get? id' = s.get? id') ∧
    (∃ s, Open J path σ.vol [] = (.value (.store s), σ.vol, []) ∧
      ∀ id, s.get? id = (σ.saved.getD ∅).get? id) ∧
    (∀ {m os s v os'}, .minted m ∈ σ.log → .deleting m.id ∉ σ.log →
      Open J path σ.vol os = (.value (.store s), v, os') →
      ∃ m', s.byToken m.token = some m' ∧ m'.id = m.id) := by
  refine ⟨encodes h, mint_failed h, ?_, ?_⟩
  case refine_1 =>
    have ⟨s, ho, same⟩ := reopens h
    exact ⟨s, Open_of_opened ho, same⟩
  case refine_2 =>
    intro m os s v os' hm hd ho
    have ho := (Open_store ho).left
    have held := (kept h hf hm hd).filed
    exact byToken_opened h hf ho (opened_tokenOf (encodes h) ho ▸ held)

-- No process and no file.
def initial : Sys where
  vol  := { disk := fun _ => none, renames := [] }
  proc := none

theorem initial_init {J : Codec} {path : Path} : (history J path).Init initial :=
  ⟨rfl, rfl, rfl, rfl, rfl⟩

theorem durable_sample :
    let ls := [(Call.start, []), (.mint "5c" "" "e1", []), (.stop, [])]
    ∃ σ, (history .sample "popfleet.json").run initial ls = some σ ∧
      ∃ s m, Open .sample "popfleet.json" σ.vol [] = (.value (.store s), σ.vol, []) ∧
        s.byToken "e1" = some m ∧ m.id = "5c" := by
  intro ls
  cases e : (history .sample "popfleet.json").run initial ls
  case none => contradiction
  case some σ =>
    have reachable := Transition.Reachable.run (.init initial_init) e
    cases e
    have ⟨_, _, ⟨s, ho, _⟩, kept⟩ := durable reachable ⟨by decide, by decide⟩
    have ⟨m, hm⟩ := kept (m := { id := "5c", token := "e1" }) (by decide) (by decide) ho
    exact ⟨_, rfl, s, m, ho, hm⟩

end Sys
end Store
