import Mathlib.Logic.Function.Basic
import Mathlib.Data.List.Basic

-- Programs over a file system whose every call may fail, and during whose every call the machine may
-- stop. A triple has two postconditions: one for the value returned, one for what a crash leaves.
namespace FileSystem

abbrev Bytes := List UInt8
abbrev Path := String

-- `renames` records the renames that took effect, oldest first.
structure Volume where
  disk    : Path → Option Bytes
  renames : List (Path × Path)

-- What one call meets. When it fails or the machine stops during it, the first `n` bytes of a write
-- have reached the file, and any other call has had no effect.
inductive Outcome
  | ok
  | fail (n : Nat)
  | crash (n : Nat)
  | crashAfter

inductive Result (α : Type)
  | value (a : α)
  | crashed
  deriving DecidableEq

-- The list of outcomes is what the next calls meet. Past its end they meet `ok`.
def Prog (α : Type) := Volume → List Outcome → Result α × Volume × List Outcome

variable {α β : Type}

namespace Prog

instance : Monad Prog where
  pure a := fun v os => (.value a, v, os)
  bind p f := fun v os =>
    match p v os with
    | (.value a, v', os') => f a v' os'
    | (.crashed, v', os') => (.crashed, v', os')

theorem bind_apply {p : Prog β} {f : β → Prog α} {v : Volume} {os : List Outcome} :
    (p >>= f) v os =
      match p v os with
      | (.value b, v', os') => f b v' os'
      | (.crashed, v', os') => (.crashed, v', os') :=
  rfl

-- A call returns whether it succeeded: it can only do so when `possible`.
def call (possible : Volume → Bool) (effect : Volume → Volume) (part : Nat → Volume → Volume) :
    Prog Bool := fun v os =>
  match os.headD .ok with
  | .ok         => if possible v then (.value true, effect v, os.tail) else (.value false, v, os.tail)
  | .fail n     => (.value false, part n v, os.tail)
  | .crash n    => (.crashed, part n v, os.tail)
  | .crashAfter => (.crashed, if possible v then effect v else v, os.tail)

end Prog

def Volume.put (v : Volume) (p : Path) (b : Option Bytes) : Volume :=
  { v with disk := Function.update v.disk p b }

@[simp]
theorem Volume.put_disk {v : Volume} {p q : Path} {b : Option Bytes} :
    (v.put p b).disk q = if q = p then b else v.disk q := by
  simp [put, Function.update_apply]

@[simp]
theorem Volume.put_renames {v : Volume} {p : Path} {b : Option Bytes} :
    (v.put p b).renames = v.renames :=
  rfl

inductive ReadResult
  | data (b : Bytes)
  | notExist
  | failed

def readFile (p : Path) : Prog ReadResult := fun v os =>
  match os.headD .ok with
  | .ok     => (.value ((v.disk p).elim .notExist .data), v, os.tail)
  | .fail _ => (.value .failed, v, os.tail)
  | _       => (.crashed, v, os.tail)

def remove (p : Path) : Prog Bool :=
  .call (fun v => (v.disk p).isSome) (·.put p none) fun _ v => v

-- Opening with `O_CREATE|O_EXCL` fails on an existing file.
def openExcl (p : Path) : Prog Bool :=
  .call (fun v => (v.disk p).isNone) (·.put p (some [])) fun _ v => v

-- Appends to the file at `p`.
def write (p : Path) (b : Bytes) : Prog Bool :=
  .call (fun v => (v.disk p).isSome) (fun v => v.put p ((v.disk p).map (· ++ b)))
    fun n v => v.put p ((v.disk p).map (· ++ b.take n))

def close (_ : Path) : Prog Bool :=
  .call (fun _ => true) id fun _ v => v

-- Atomic and durable: `q` holds either what it held before or all of what `p` held.
def rename (p q : Path) : Prog Bool :=
  .call (fun v => (v.disk p).isSome)
    (fun v => { (v.put q (v.disk p)).put p none with renames := v.renames ++ [(p, q)] })
    fun _ v => v

section Returned

variable {v v' : Volume} {os os' : List Outcome}

-- How a call returns: done, impossible, or failed.
inductive Prog.Returned (possible : Volume → Bool) (effect : Volume → Volume)
    (part : Nat → Volume → Volume) (v : Volume) : Outcome → Bool → Volume → Prop
  | done (h : possible v = true) : Returned possible effect part v .ok true (effect v)
  | refused (h : possible v = false) : Returned possible effect part v .ok false v
  | failed {n} : Returned possible effect part v (.fail n) false (part n v)

theorem Prog.Returned.of {possible effect part} {b : Bool}
    (h : call possible effect part v os = (.value b, v', os')) :
    Returned possible effect part v (os.headD .ok) b v' ∧ os' = os.tail := by
  simp only [call] at h
  cases ho : os.headD .ok <;> rw [ho] at h
  case ok =>
    cases hp : possible v <;> simp only [hp] at h <;> cases h
    case true  => exact ⟨.done hp, rfl⟩
    case false => exact ⟨.refused hp, rfl⟩
  case fail n => cases h; exact ⟨.failed, rfl⟩
  case crash | crashAfter => cases h

theorem Prog.call_bind_eq_value {possible effect part} {f : Bool → Prog α} {a : α}
    (h : (call possible effect part >>= f) v os = (.value a, v', os')) :
    ∃ b v₁, Returned possible effect part v (os.headD .ok) b v₁ ∧
      f b v₁ os.tail = (.value a, v', os') := by
  rw [bind_apply] at h
  split at h
  case h_1 b v₁ os₁ e =>
    have ⟨r, ht⟩ := Returned.of e
    exact ⟨b, v₁, r, ht ▸ h⟩
  case h_2 => cases h

end Returned

def Triple (Pre : Volume → Prop) (p : Prog α) (Post : α → Volume → Prop) (Crash : Volume → Prop) :
    Prop :=
  ∀ v os, Pre v →
    match p v os with
    | (.value a, v', _) => Post a v'
    | (.crashed, v', _) => Crash v'

namespace Triple

variable {Pre Mid : Volume → Prop} {Post : α → Volume → Prop} {Crash : Volume → Prop} {p q : Prog α}

theorem pure {a : α} (h : ∀ v, Pre v → Post a v) : Triple Pre (Pure.pure a) Post Crash :=
  fun v _ hv => h v hv

theorem bind {f : β → Prog α} {r : Prog β} {Mid : β → Volume → Prop}
    (hr : Triple Pre r Mid Crash) (hf : ∀ b, Triple (Mid b) (f b) Post Crash) :
    Triple Pre (r >>= f) Post Crash := by
  intro v os hv
  have h := hr v os hv
  rw [Prog.bind_apply]
  rcases hr : r v os with ⟨b | _, v', os'⟩ <;> rw [hr] at h
  case value   => exact hf b v' os' h
  case crashed => exact h

theorem ite {b : Bool} (ht : b = true → Triple Pre p Post Crash)
    (hf : b = false → Triple Pre q Post Crash) :
    Triple Pre (if b then p else q) Post Crash := by
  cases b
  case true  => exact ht rfl
  case false => exact hf rfl

theorem strengthen (h : Triple Mid p Post Crash) (hp : ∀ v, Pre v → Mid v) :
    Triple Pre p Post Crash :=
  fun v os hv => h v os (hp v hv)

theorem call {possible effect part} {Post : Bool → Volume → Prop}
    (succeed : ∀ v, Pre v → possible v = true → Post true (effect v) ∧ Crash (effect v))
    (refuse : ∀ v, Pre v → Post false v ∧ Crash v)
    (fail : ∀ v n, Pre v → Post false (part n v) ∧ Crash (part n v)) :
    Triple Pre (.call possible effect part) Post Crash := by
  intro v os hv
  simp only [Prog.call]
  cases os.headD .ok
  case fail n  => exact (fail v n hv).left
  case crash n => exact (fail v n hv).right
  all_goals
    by_cases hp : possible v = true
    case pos => simp [hp, succeed v hv hp]
    case neg => simp [hp, refuse v hv]

end Triple
end FileSystem
