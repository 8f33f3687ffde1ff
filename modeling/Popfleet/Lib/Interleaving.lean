import Mathlib.Logic.Function.Basic
import Popfleet.Lib.Transition

-- A program whose threads interleave at the granularity of atomic sections. What a thread still has
-- to do is a list of sections. Executing the first one changes the shared state and pushes the
-- sections that the code runs next. `start` is the first section of a thread, given its request.
structure Program (σ ρ ω ι : Type) where
  Init  : σ → Prop
  start : σ → ρ → Option (σ × List ω)
  exec  : σ → ω → ι → Option (σ × List ω)

namespace Program

abbrev Tid := Nat

structure Config (σ ω : Type) where
  shared : σ
  procs  : Tid → List ω

inductive Label (ρ ι : Type)
  | start (t : Tid) (r : ρ)
  | step  (t : Tid) (i : ι)

def Label.tid {ρ ι : Type} : Label ρ ι → Tid
  | .start t _ => t
  | .step t _  => t

variable {σ ρ ω ι : Type}

namespace Config

variable {c : Config σ ω} {t t' : Tid} {s : σ} {ops : List ω} {o : ω}

-- Thread `t` leaves the shared state `s` and goes on with `ops`.
def resume (c : Config σ ω) (t : Tid) (s : σ) (ops : List ω) : Config σ ω where
  shared := s
  procs  := Function.update c.procs t ops

@[simp, grind =]
theorem resume_shared : (c.resume t s ops).shared = s :=
  rfl

@[simp, grind =]
theorem resume_procs :
    (c.resume t s ops).procs t' = if t' = t then ops else c.procs t' := by
  simp [resume, Function.update_apply]

theorem resume_resume {s' : σ} {ops' : List ω} :
    (c.resume t s ops).resume t s' ops' = c.resume t s' ops' := by
  simp [resume]

-- Some thread still has to run the section `o`.
def Pending (c : Config σ ω) (o : ω) : Prop :=
  ∃ t, o ∈ c.procs t

end Config

def step (P : Program σ ρ ω ι) (c : Config σ ω) : Label ρ ι → Option (Config σ ω)
  | .start t r =>
    match c.procs t with
    | []     => (P.start c.shared r).map fun (s, ops) => c.resume t s ops
    | _ :: _ => none
  | .step t i =>
    match c.procs t with
    | []         => none
    | op :: rest => (P.exec c.shared op i).map fun (s, ops) => c.resume t s (ops ++ rest)

def system (P : Program σ ρ ω ι) : Transition (Config σ ω) (Label ρ ι) where
  Init c := P.Init c.shared ∧ ∀ t, c.procs t = []
  step   := P.step

-- The graph of `Program.step`, for case analysis.
inductive Step (P : Program σ ρ ω ι) (c : Config σ ω) : Label ρ ι → Config σ ω → Prop
  | start {t r s ops} (idle : c.procs t = []) (exec : P.start c.shared r = some (s, ops)) :
    Step P c (.start t r) (c.resume t s ops)
  | step {t i op rest s ops} (head : c.procs t = op :: rest)
    (exec : P.exec c.shared op i = some (s, ops)) :
    Step P c (.step t i) (c.resume t s (ops ++ rest))

variable {P : Program σ ρ ω ι} {c c' : Config σ ω} {l : Label ρ ι}

theorem Step.of (h : P.system.step c l = some c') : Step P c l c' := by
  cases l <;> simp only [system, Program.step] at h
  case start t r =>
    split at h
    case h_1 idle =>
      have ⟨⟨_, _⟩, e, h⟩ := Option.map_eq_some_iff.mp h
      exact h ▸ .start idle e
    case h_2 => contradiction
  case step t i =>
    split at h
    case h_1 => contradiction
    case h_2 head =>
      have ⟨⟨_, _⟩, e, h⟩ := Option.map_eq_some_iff.mp h
      exact h ▸ .step head e

theorem system_start {t : Tid} {r : ρ} {s : σ} {ops : List ω} (idle : c.procs t = [])
    (e : P.start c.shared r = some (s, ops)) : P.system.step c (.start t r) = some (c.resume t s ops) := by
  simp [system, Program.step, idle, e]

theorem system_step {t : Tid} {op : ω} {rest ops : List ω} {i : ι} {s : σ} (head : c.procs t = op :: rest)
    (e : P.exec c.shared op i = some (s, ops)) :
    P.system.step c (.step t i) = some (c.resume t s (ops ++ rest)) := by
  simp [system, Program.step, head, e]

-- A run leaves the threads alone that make none of its steps.
theorem procs_of_run {ls : List (Label ρ ι)} {t : Tid} (e : P.system.run c ls = some c')
    (h : ∀ l ∈ ls, l.tid ≠ t) : c'.procs t = c.procs t := by
  induction ls generalizing c
  case nil => cases e; rfl
  case cons l ls hi =>
    have ⟨c₁, e₁, e⟩ := Transition.run_cons_eq_some.mp e
    have ⟨hl, hls⟩ := List.forall_mem_cons.mp h
    have procs : c₁.procs t = c.procs t := by
      replace e₁ := Step.of e₁
      cases e₁ <;> exact Config.resume_procs.trans (if_neg (Ne.symm hl))
    exact (hi e hls).trans procs

section Pending

variable {t : Tid} {op o : ω} {rest ops : List ω} {s : σ}

theorem Config.Pending.of_resume (h : (c.resume t s ops).Pending o) : o ∈ ops ∨ c.Pending o := by
  have ⟨t', h⟩ := h
  rw [Config.resume_procs] at h
  split at h
  case isTrue  => exact .inl h
  case isFalse => exact .inr ⟨t', h⟩

theorem Config.Pending.of_step (head : c.procs t = op :: rest)
    (h : (c.resume t s (ops ++ rest)).Pending o) : o ∈ ops ∨ c.Pending o := by
  cases h.of_resume
  case inr h => exact .inr h
  case inl h =>
    cases List.mem_append.mp h
    case inl h => exact .inl h
    case inr h => exact .inr ⟨t, head ▸ List.mem_cons_of_mem _ h⟩

-- Only the executed section stops being pending.
theorem Config.Pending.step (head : c.procs t = op :: rest) (h : c.Pending o) :
    o = op ∨ (c.resume t s (ops ++ rest)).Pending o := by
  have ⟨t', h⟩ := h
  by_cases ht : t' = t
  case neg => exact .inr ⟨t', by simpa [ht] using h⟩
  case pos =>
    rw [ht, head] at h
    cases h
    case head   => exact .inl rfl
    case tail h => exact .inr ⟨t, by simpa using .inr h⟩

theorem Config.Pending.start (idle : c.procs t = []) (h : c.Pending o) :
    (c.resume t s ops).Pending o := by
  have ⟨t', h⟩ := h
  have ht : t' ≠ t := by rintro rfl; simp [idle] at h
  exact ⟨t', by simpa [ht] using h⟩

theorem Config.pending_of_mem (h : o ∈ ops) : (c.resume t s ops).Pending o :=
  ⟨t, by simpa using h⟩

end Pending

section Followed

variable {Calls : ω → ω → Prop} {op : ω} {ops rest : List ω}

-- Each section of a thread is followed by the sections that it calls for.
def Followed (Calls : ω → ω → Prop) : List ω → Prop
  | []        => True
  | o :: rest => (∀ o', Calls o o' → o' ∈ rest) ∧ Followed Calls rest

theorem Followed.mem (h : Followed Calls ops) {o o' : ω} (ho : o ∈ ops) (hc : Calls o o') :
    o' ∈ ops := by
  induction ops
  case nil => contradiction
  case cons hi =>
    cases ho
    case head    => exact List.mem_cons_of_mem _ (h.left _ hc)
    case tail ho => exact List.mem_cons_of_mem _ (hi h.right ho)

-- Sections before a list may call for those of the list.
theorem Followed.append_of_mem (ho : ∀ o ∈ ops, ∀ o', Calls o o' → o' ∈ rest) (h : Followed Calls rest) :
    Followed Calls (ops ++ rest) := by
  induction ops
  case nil => exact h
  case cons hi =>
    have ⟨hd, tl⟩ := List.forall_mem_cons.mp ho
    exact ⟨fun o' hc => List.mem_append_right _ (hd o' hc), hi tl⟩

theorem Followed.append (ho : ∀ o ∈ ops, ∀ o', ¬Calls o o') (h : Followed Calls rest) :
    Followed Calls (ops ++ rest) :=
  h.append_of_mem fun o hm o' hc => absurd hc (ho o hm o')

theorem Followed.append_followed (ho : Followed Calls ops) (h : Followed Calls rest) :
    Followed Calls (ops ++ rest) := by
  induction ops
  case nil => exact h
  case cons hi => exact ⟨fun o' hc => List.mem_append_left _ (ho.left o' hc), hi ho.right⟩

end Followed

section Unique

variable {p : ω → Bool} {t : Tid} {s : σ} {ops : List ω}

-- All threads together have at most one section with `p` left to run.
structure Config.Unique (c : Config σ ω) (p : ω → Bool) : Prop where
  within : ∀ t, (c.procs t).countP p ≤ 1
  across : ∀ {t t' o o'}, o ∈ c.procs t → p o → o' ∈ c.procs t' → p o' → t = t'

theorem Config.Unique.resume (h : c.Unique p) (hle : ops.countP p ≤ (c.procs t).countP p) :
    (c.resume t s ops).Unique p := by
  -- A section with `p` in the new list of `t` comes from one in the old list.
  have old {t' o} (ho : o ∈ (c.resume t s ops).procs t') (hp : p o) : ∃ o ∈ c.procs t', p o := by
    rw [Config.resume_procs] at ho
    split at ho
    case isFalse => exact ⟨o, ho, hp⟩
    case isTrue ht =>
      subst ht
      exact List.countP_pos_iff.mp (Nat.lt_of_lt_of_le (List.countP_pos_iff.mpr ⟨o, ho, hp⟩) hle)
  constructor
  case within =>
    intro t'
    rw [Config.resume_procs]
    split
    case isTrue ht => exact Nat.le_trans hle (h.within t)
    case isFalse   => exact h.within t'
  case across =>
    intro t₁ t₂ o₁ o₂ h₁ p₁ h₂ p₂
    have ⟨_, h₁, p₁⟩ := old h₁ p₁
    have ⟨_, h₂, p₂⟩ := old h₂ p₂
    exact h.across h₁ p₁ h₂ p₂

theorem Config.Unique.resume_of_none (h : ∀ t, ∀ o ∈ c.procs t, ¬p o) (hle : ops.countP p ≤ 1) :
    (c.resume t s ops).Unique p := by
  have only {t' o} (ho : o ∈ (c.resume t s ops).procs t') (hp : p o) : t' = t := by
    rw [Config.resume_procs] at ho
    split at ho
    case isTrue ht => exact ht
    case isFalse   => exact absurd hp (h t' o ho)
  constructor
  case within =>
    intro t'
    rw [Config.resume_procs]
    split
    case isTrue  => exact hle
    case isFalse => exact List.countP_eq_zero.mpr (h t') ▸ Nat.zero_le 1
  case across => exact fun h₁ p₁ h₂ p₂ => (only h₁ p₁).trans (only h₂ p₂).symm

theorem Config.Unique.step {op : ω} {rest : List ω} (h : c.Unique p) (head : c.procs t = op :: rest)
    (ho : ∀ o ∈ ops, ¬p o) : (c.resume t s (ops ++ rest)).Unique p := by
  apply h.resume
  rw [head, List.countP_append, List.countP_eq_zero.mpr ho, Nat.zero_add]
  exact List.countP_cons.symm ▸ Nat.le_add_right ..

-- When the only section with `p` was run, no others are left than those that it leads to.
theorem Config.Unique.mem_of_head {op o : ω} {rest : List ω} {t' : Tid} (h : c.Unique p)
    (head : c.procs t = op :: rest) (hp : p op) (hm : o ∈ (c.resume t s (ops ++ rest)).procs t')
    (hpo : p o) : o ∈ ops := by
  have only_head : ∀ o ∈ rest, ¬p o := by
    have within := h.within t
    rw [head, List.countP_cons_of_pos hp] at within
    exact List.countP_eq_zero.mp (by omega)
  rw [Config.resume_procs] at hm
  split at hm
  case isFalse hne => exact absurd (h.across hm hpo (head ▸ List.mem_cons_self) hp) hne
  case isTrue =>
    cases List.mem_append.mp hm
    case inl hm => exact hm
    case inr hm => exact absurd hpo (only_head o hm)

theorem Config.Unique.none_of_head {op o : ω} {rest : List ω} {t' : Tid} (h : c.Unique p)
    (head : c.procs t = op :: rest) (hp : p op) (ho : ∀ o ∈ ops, ¬p o)
    (hm : o ∈ (c.resume t s (ops ++ rest)).procs t') : ¬p o :=
  fun hpo => ho o (h.mem_of_head head hp hm hpo) hpo

end Unique

-- The rule of Owicki and Gries, with one assertion for what a thread has left to do: `I` is the
-- invariant of the shared state, `B` the assertion of each thread, and `R` what any section may do
-- to the shared state. Each section keeps `I`, stays in `R` and establishes `B` for the rest of its
-- own thread; `R` does not disturb the assertions of the others. What is already known of the states
-- that the steps with `Ok` reach may be used for a section.
theorem thread_invariant {I : σ → Prop} {B : σ → List ω → Prop} {R : σ → σ → Prop}
    {Ok : Config σ ω → Label ρ ι → Prop}
    (init : ∀ s, P.Init s → I s) (nil : ∀ s, B s [])
    (start : ∀ s r s' ops, I s → P.start s r = some (s', ops) → I s' ∧ R s s' ∧ B s' ops)
    (exec : ∀ c t i op rest s' ops, P.system.ReachableUnder Ok c → Ok c (.step t i) →
      c.procs t = op :: rest → I c.shared → B c.shared (op :: rest) →
      P.exec c.shared op i = some (s', ops) → I s' ∧ R c.shared s' ∧ B s' (ops ++ rest))
    (stable : ∀ s s' ops, I s → R s s' → B s ops → B s' ops)
    (h : P.system.ReachableUnder Ok c) : I c.shared ∧ ∀ t, B c.shared (c.procs t) := by
  induction h
  case init hi => exact ⟨init _ hi.left, fun t => hi.right t ▸ nil _⟩
  case step c l c' hr hok e hi =>
    have ⟨hI, hB⟩ := hi
    replace e := Step.of e
    cases e
    case start t r s ops idle e =>
      have ⟨hI', hR, hB'⟩ := start _ _ _ _ hI e
      refine ⟨hI', fun t' => ?_⟩
      rw [Config.resume_procs]
      split
      case isTrue  => exact hB'
      case isFalse => exact stable _ _ _ hI hR (hB t')
    case step t i op rest s ops head e =>
      have ⟨hI', hR, hB'⟩ := exec _ _ _ _ _ _ _ hr hok head hI (head ▸ hB t) e
      refine ⟨hI', fun t' => ?_⟩
      rw [Config.resume_procs]
      split
      case isTrue  => exact hB'
      case isFalse => exact stable _ _ _ hI hR (hB t')

-- The same rule with an assertion for each section by itself.
theorem section_invariant {I : σ → Prop} {A : σ → ω → Prop} {R : σ → σ → Prop}
    {Ok : Config σ ω → Label ρ ι → Prop}
    (init : ∀ s, P.Init s → I s)
    (start : ∀ s r s' ops, I s → P.start s r = some (s', ops) →
      I s' ∧ R s s' ∧ ∀ o ∈ ops, A s' o)
    (exec : ∀ c t i op rest s' ops, P.system.ReachableUnder Ok c → Ok c (.step t i) →
      c.procs t = op :: rest → I c.shared → A c.shared op →
      P.exec c.shared op i = some (s', ops) → I s' ∧ R c.shared s' ∧ ∀ o ∈ ops, A s' o)
    (stable : ∀ s s' o, I s → R s s' → A s o → A s' o)
    (h : P.system.ReachableUnder Ok c) : I c.shared ∧ ∀ o, c.Pending o → A c.shared o := by
  have ⟨hI, hB⟩ := thread_invariant (B := fun s ops => ∀ o ∈ ops, A s o) init (by simp) start
    (fun c t i op rest s' ops hr hok head hI hB e => by
      have ⟨hI', hR, hA⟩ := exec c t i op rest s' ops hr hok head hI (hB op (by simp)) e
      refine ⟨hI', hR, fun o ho => ?_⟩
      cases List.mem_append.mp ho
      case inl ho => exact hA o ho
      case inr ho => exact stable _ s' o hI hR (hB o (by simp [ho])))
    (fun s s' ops hI hR hB o ho => stable s s' o hI hR (hB o ho)) h
  exact ⟨hI, fun o ⟨t, ho⟩ => hB t o ho⟩

section Forget

variable {τ : Type} {Q : Program τ ρ ω ι} {f : τ → σ} {d : Config τ ω}

def Config.map (f : τ → σ) (d : Config τ ω) : Config σ ω where
  shared := f d.shared
  procs  := d.procs

-- A program that keeps more in its shared state than another one, but has the same sections, has no
-- other runs.
theorem reachable_map (init : ∀ s, Q.Init s → P.Init (f s))
    (start : ∀ s r s' ops, Q.start s r = some (s', ops) → P.start (f s) r = some (f s', ops))
    (exec : ∀ s o i s' ops, Q.exec s o i = some (s', ops) → P.exec (f s) o i = some (f s', ops))
    (h : Q.system.Reachable d) : P.system.Reachable (d.map f) := by
  induction h
  case init hi => exact .init ⟨init _ hi.left, hi.right⟩
  case step d l d' _ _ e hi =>
    replace e := Step.of e
    cases e
    case start t r s ops idle e =>
      refine hi.step (l := .start t r) trivial ?_
      simp [system, step, Config.map, idle, start _ _ _ _ e, Config.resume]
    case step t i op rest s ops head e =>
      refine hi.step (l := .step t i) trivial ?_
      simp [system, step, Config.map, head, exec _ _ _ _ _ e, Config.resume]

end Forget

end Program
