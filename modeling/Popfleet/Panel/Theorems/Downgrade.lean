import Popfleet.Panel.Theorems.Keyed

open Proto V1e Worker

namespace Panel

-- The probe found e2e, or the key is there when a keystroke is taken for the open socket and when an out
-- frame is handled whose value is base64.
def Sealing (σ : State) (l : Label) : Prop :=
  .probed true ∈ σ.log ∨
    (l = .send → σ.ws = .opened → σ.aead ≠ none) ∧
      ∀ answers, l = .handle answers → ∀ m recv data, σ.recv = m :: recv → outValue m = some data →
        data.bind Base64.atob ≠ none → σ.aead ≠ none

-- The frame carries a value that is sealed under the key.
def Sealed (G : Gcm tagLen) (σ : State) (m : Msg) : Prop :=
  ∃ key nonce bytes, σ.aead = some key ∧ nonce.length = nonceLen ∧
    m.data = V1e.Panel.sealPlain G key nonce bytes

-- The in frames that were sent are sealed, and what was written was authenticated as a value received.
structure Guarded (G : Gcm tagLen) (σ : State) : Prop where
  sent : ∀ m, .sent m ∈ σ.log → m.t = "in" → Sealed G σ m
  term : ∀ b ∈ σ.term, ∃ key m wire, σ.aead = some key ∧ .received m ∈ σ.log ∧
    outValue m = some (some wire) ∧ V1e.Panel.unsealed G key wire = some b

-- The relay announced e2e.

def Event.announces : Event → Bool
  | .received (some m) => (m.field "t").any (Json.is · "e2e")
  | _                  => false

def Announced (σ : State) : Prop :=
  ∃ e ∈ σ.log, e.announces

instance {σ : State} : Decidable (Announced σ) :=
  inferInstanceAs (Decidable (∃ e ∈ σ.log, e.announces))

-- What is still to be handled was received.
structure Arrived (σ : State) : Prop where
  recv      : ∀ m ∈ σ.recv, .received m ∈ σ.log
  unsealing : ∀ key data, σ.handling = some (.unsealing key data) →
    ∃ m, .received m ∈ σ.log ∧ outValue m = some data

variable {H : Mac 32} {G : Gcm tagLen} {sid : String} {σ σ' : State} {l : Label}

theorem Arrived.record {e : Event} (a : Arrived σ) : Arrived (σ.record e) where
  recv m hm := List.mem_cons_of_mem _ (a.recv m hm)
  unsealing key data hh :=
    have ⟨m, hm, hd⟩ := a.unsealing key data hh
    ⟨m, List.mem_cons_of_mem _ hm, hd⟩

theorem arrived_reachable (h : (system H G sid).Reachable σ) : Arrived σ := by
  refine h.invariant ?init ?step
  case init =>
    rintro _ ⟨stored, rfl⟩
    constructor <;> simp
  case step =>
    intro σ l σ' _ a _ e
    have taken {m recv} (hr : σ.recv = m :: recv) : ∀ m ∈ recv, .received m ∈ σ.log :=
      fun m hm => a.recv m (hr ▸ List.mem_cons_of_mem _ hm)
    cases Exec.of e
    case unprobed | typed | skipped | sealing | unsent | closed => exact { a with }
    case unresized => exact a
    case asked | declined => exact { a.record with }
    case plain => exact { a.record with }
    case keyed => exact { a with }
    case opened | clear | encrypted | resized => exact Arrived.record { a with }
    case received m _ =>
      refine { a.record with recv := fun m' hm => ?_ }
      rcases List.mem_append.mp hm with hm | hm
      · exact List.mem_cons_of_mem _ (a.recv m' hm)
      · rw [List.mem_singleton.mp hm]
        exact List.mem_cons_self
    case passed hr _ | rendered hr _ _ _ => exact { a with recv := taken hr }
    case importing hr _ _ => exact { recv := taken hr, unsealing := nofun }
    case unsealing m _ _ _ _ _ hr ho _ =>
      refine { recv := taken hr, unsealing := fun _ _ hu => ?_ }
      cases hu
      exact ⟨m, a.recv m (hr ▸ List.mem_cons_self), ho⟩
    case imported | unsealed | tampered => exact { a with unsealing := nofun }

theorem Guarded.record {e : Event} (g : Guarded G σ)
    (he : ∀ m, .sent m = e → m.t = "in" → Sealed G σ m) : Guarded G (σ.record e) where
  sent m hm ht := by
    rcases List.mem_cons.mp hm with hm | hm
    · exact he m hm ht
    · exact g.sent m hm ht
  term b hb :=
    have ⟨key, m, wire, ha, hm, h⟩ := g.term b hb
    ⟨key, m, wire, ha, List.mem_cons_of_mem _ hm, h⟩

-- Without a key, nothing was sent or written yet.
theorem Guarded.unkeyed {aead : Option Bytes} (g : Guarded G σ) (ha : σ.aead = none) :
    Guarded G { σ with aead } where
  sent m hm ht := by
    have ⟨_, _, _, h, _⟩ := g.sent m hm ht
    simp [ha] at h
  term b hb := by
    have ⟨_, _, _, h, _⟩ := g.term b hb
    simp [ha] at h

-- A page whose probe found no e2e may be on a relay that announces it later.
theorem no_downgrade (h : (system H G sid).ReachableUnder Sealing σ) : Guarded G σ := by
  refine h.invariant ?init ?step
  case init =>
    rintro _ ⟨stored, rfl⟩
    constructor <;> simp
  case step =>
    intro σ l σ' h g ok e
    have k := keyed_reachable h.reachable
    cases Exec.of e
    case unprobed | passed | importing | unsealing | tampered | typed | skipped | sealing | unsent |
        closed =>
      exact { g with }
    case unresized => exact g
    case asked | declined | plain => exact { g.record (by rintro _ ⟨⟩) with }
    case keyed hi => exact { g.unkeyed (k.init (by simp [hi])).right with }
    case imported hh => exact { g.unkeyed (k.importing _ _ hh) with }
    case opened | resized => exact Guarded.record { g with } (by rintro _ ⟨⟩ ht; simp at ht)
    case received => exact Guarded.record { g with } (by rintro _ ⟨⟩)
    case rendered hr ho ha hb =>
      exfalso
      rcases ok with hp | ⟨_, ok⟩
      · have ⟨key, hk⟩ := k.probed hp (k.ws_ne_of_recv hr)
        simp [ha] at hk
      · exact ok _ rfl _ _ _ hr ho (by simp [hb]) ha
    case unsealed data b hh hb =>
      have ⟨wire, hd, hb⟩ := Option.bind_eq_some_iff.mp hb
      have ⟨m, hm, ho⟩ := (arrived_reachable h.reachable).unsealing _ _ hh
      refine { g with term := fun b' hb' => ?_ }
      rcases List.mem_append.mp hb' with hb' | hb'
      · exact g.term b' hb'
      · rw [List.mem_singleton.mp hb']
        exact ⟨_, m, wire, k.unsealing _ _ hh, hm, hd ▸ ho, hb⟩
    case clear hw ha =>
      exfalso
      rcases ok with hp | ⟨ok, _⟩
      · have ⟨key, hk⟩ := k.probed hp (by simp [hw])
        simp [ha] at hk
      · exact ok rfl hw ha
    case encrypted hs hn =>
      refine Guarded.record { g with } ?_
      rintro _ ⟨⟩ _
      exact ⟨_, _, _, k.sending _ _ hs, hn, rfl⟩

-- The frames that were sent.
def State.sents (σ : State) : List Msg :=
  σ.log.filterMap fun | .sent m => some m | _ => none

theorem mem_sents {m : Msg} : m ∈ σ.sents ↔ .sent m ∈ σ.log := by
  constructor
  case mp =>
    intro hm
    have ⟨e, hl, he⟩ := List.mem_filterMap.mp hm
    split at he <;> cases he
    exact hl
  case mpr => exact fun hl => List.mem_filterMap.mpr ⟨_, hl, rfl⟩

-- A page that has the key, and one that has none.
def withKey : State := { stored := Base64.encode sampleKey }
def withoutKey : State := {}

def announcement : Json := .obj [("t", .str "e2e")]
def output : Json := .obj [("t", .str "out"), ("data", .str "AAAAAAAAAAAAAAAA6Al9e0SkO+GCgM4gEj+2mltf")]

-- The user types "ls", which the shell echoes.
def sealedRun : List Label :=
  [.probe (.json (.obj [("e2e", .bool true)])) [], .derived [], .opened 80 24, .message announcement,
    .handle [], .onData [108, 115], .send, .encrypted sampleNonce, .message output, .handle [],
    .settle []]

def State.probed (σ : State) : Bool :=
  σ.log.any fun | .probed e2e => e2e | _ => false

theorem mem_of_probed (h : σ.probed) : .probed true ∈ σ.log := by
  have ⟨e, hl, he⟩ := List.any_eq_true.mp h
  split at he
  case h_1 => exact he ▸ hl
  case h_2 => contradiction

-- A test that implies `Sealing`.
def sealing (σ : State) : Label → Bool
  | .send | .handle _ => σ.probed
  | _                 => true

theorem sealing_of (h : sealing σ l) : Sealing σ l := by
  cases l
  case send | handle => exact .inl (mem_of_probed h)
  all_goals exact .inr ⟨nofun, nofun⟩

theorem no_downgrade_sample :
    ∃ σ, (system sampleMac sampleGcm "a0").runWhile sealing withKey sealedRun = some σ ∧
      .sent { t := "in", data := "AAAAAAAAAAAAAAAA6Al9e0SkO+GCgM4gEj+2mltf" } ∈ σ.log ∧
      σ.term = [[108, 115]] ∧ Guarded sampleGcm σ := by
  have ran : ((system sampleMac sampleGcm "a0").runWhile sealing withKey sealedRun).isSome := by decide
  have ⟨σ, e⟩ := Option.isSome_iff_exists.mp ran
  have init : (system sampleMac sampleGcm "a0").Init withKey := ⟨_, rfl⟩
  have h := Transition.ReachableUnder.runWhile (.init init) (fun _ _ => sealing_of) e
  have sents : σ.sents = [{ t := "in", data := "AAAAAAAAAAAAAAAA6Al9e0SkO+GCgM4gEj+2mltf" },
      { t := "resize", c := 80, r := 24 }] :=
    Transition.eq_of_run (f := State.sents) e (by decide)
  have term : σ.term = [[108, 115]] := Transition.eq_of_run (f := State.term) e (by decide)
  exact ⟨σ, e, mem_sents.mp (by simp [sents]), term, no_downgrade h⟩

-- A sealed value has a nonce and a tag.
theorem length_sealed {m : Msg} {data : Bytes} (h : Sealed G σ m) (hd : m.data = Base64.encode data) :
    nonceLen + tagLen ≤ data.length := by
  have ⟨_, _, _, _, hn, hs⟩ := h
  have same := congrArg Base64.decode (hd.symm.trans hs)
  rw [Base64.decode_encode, V1e.Panel.sealPlain, Base64.decode_encode] at same
  have length := congrArg List.length (Option.some.inj same)
  rw [List.length_append, G.length_encrypt, hn] at length
  omega

-- The probe fails, and the user types "ls" before the announcement arrives.
def earlyRun : List Label :=
  [.probe .failed [], .opened 80 24, .onData [108, 115], .send, .message announcement, .handle [],
    .settle []]

-- The probe fails, and the user declines when the announcement arrives.
def declinedRun : List Label :=
  [.probe .failed [], .opened 80 24, .message announcement, .message output, .handle [""], .handle []]

theorem downgraded :
    (∃ σ, (system sampleMac sampleGcm "a0").run withKey earlyRun = some σ ∧ Announced σ ∧
      .sent { t := "in", data := Base64.encode [108, 115] } ∈ σ.log ∧ ¬Guarded sampleGcm σ) ∧
    ∃ σ, (system sampleMac sampleGcm "a0").run withoutKey declinedRun = some σ ∧ Announced σ ∧
      σ.term ≠ [] ∧ ¬Guarded sampleGcm σ := by
  constructor
  case left =>
    have ran : ((system sampleMac sampleGcm "a0").run withKey earlyRun).isSome := by decide
    have ⟨σ, e⟩ := Option.isSome_iff_exists.mp ran
    have announced : Announced σ :=
      of_decide_eq_true (Transition.eq_of_run (f := fun σ => decide (Announced σ)) e (by decide))
    have sents : σ.sents = [{ t := "in", data := Base64.encode [108, 115] },
        { t := "resize", c := 80, r := 24 }] :=
      Transition.eq_of_run (f := State.sents) e (by decide)
    have sent : .sent { t := "in", data := Base64.encode [108, 115] } ∈ σ.log :=
      mem_sents.mp (by simp [sents])
    refine ⟨σ, e, announced, sent, fun g => ?_⟩
    have length := length_sealed (g.sent _ sent rfl) rfl
    contradiction
  case right =>
    have ran : ((system sampleMac sampleGcm "a0").run withoutKey declinedRun).isSome := by decide
    have ⟨σ, e⟩ := Option.isSome_iff_exists.mp ran
    have announced : Announced σ :=
      of_decide_eq_true (Transition.eq_of_run (f := fun σ => decide (Announced σ)) e (by decide))
    have unkeyed : σ.aead = none := Transition.eq_of_run (f := State.aead) e (by decide)
    have written : σ.term ≠ [] :=
      of_decide_eq_true (Transition.eq_of_run (f := fun σ => decide (σ.term ≠ [])) e (by decide))
    refine ⟨σ, e, announced, written, fun g => ?_⟩
    have ⟨b, hb⟩ := List.exists_mem_of_ne_nil _ written
    have ⟨_, _, _, ha, _⟩ := g.term b hb
    simp [unkeyed] at ha

end Panel
