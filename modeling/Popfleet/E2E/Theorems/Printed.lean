import Popfleet.Lib.Fifo
import Popfleet.E2E.Theorems.Outputs
import Popfleet.E2E.Theorems.Tokens

open Proto Program

namespace E2E

variable {κ : Type} [DecidableEq κ] {hkdf : Bytes → String → κ} {e2eKey fleetKey : Bytes} {σ σ' : State κ}
  {op o : Op κ} {i : Input} {ops rest : List (Op κ)} {r : Req κ} {p : Pty κ} {buf b : Bytes} {sid : String}
  {c : Config (State κ) (Op κ)} {t : Tid} {chunks more : List (Pty κ × Bytes)}

-- What a section of `pump` takes of the output of its PTY.
def Op.chunk : Op κ → Input → Option (Pty κ × Bytes)
  | .pump p _ _, .chunk b => some (p, b)
  | _, _                  => none

def chunk (c : Config (State κ) (Op κ)) : Label (Req κ) Input → Option (Pty κ × Bytes)
  | .start _ _ => none
  | .step t i  => (c.procs t).head?.bind (·.chunk i)

-- What the PTY printed, of which these were taken.
def printed (p : Pty κ) (chunks : List (Pty κ × Bytes)) : Bytes :=
  (chunks.filterMap fun (p', b) => if p' = p then some b else none).flatten

-- The buffer of a `pump`.
def Op.buffer? : Op κ → Option (Pty κ × Bytes)
  | .pump p buf _ | .flush p buf _ => some (p, buf)
  | _                              => none

-- A buffer has the last bytes of the output, and what was sealed is a piece of it.
structure Prints (chunks : List (Pty κ × Bytes)) (c : Config (State κ) (Op κ)) : Prop where
  buffer : ∀ o p buf, c.Pending o → o.buffer? = some (p, buf) → buf <:+ printed p chunks
  sealed : ∀ fleetKey sid b, .sealed .out fleetKey sid b ∈ c.shared.log →
    ∃ p, p.sid = sid ∧ b <:+: printed p chunks

theorem printed_append : printed p (chunks ++ more) = printed p chunks ++ printed p more := by
  simp [printed]

theorem Op.pumps_of_buffer (h : o.buffer? = some (p, buf)) : o.pumps p := by
  cases o <;> cases h <;> simp [Op.pumps]

-- Where the loop of `pump` goes on with what it took.
theorem exec_pump {deadline : Bool}
    (e : exec hkdf e2eKey σ (.pump p buf deadline) i = some (σ', ops)) :
    σ' = σ ∧ ∃ o, ops = [o] ∧
      o.buffer? = some (p, buf ++ printed p ((Op.pump p buf deadline).chunk i).toList) := by
  cases i <;> simp only [exec] at e
  case chunk b =>
    cases e
    split
    case isTrue  => exact ⟨rfl, _, rfl, by simp [Op.buffer?, Op.chunk, printed]⟩
    case isFalse => exact ⟨rfl, _, rfl, by simp [Op.buffer?, Op.chunk, printed]⟩
  case deadline =>
    cases deadline <;> cases e
    exact ⟨rfl, _, rfl, by simp [Op.buffer?, Op.chunk, printed]⟩
  case eof =>
    cases e
    exact ⟨rfl, _, rfl, by simp [Op.buffer?, Op.chunk, printed]⟩
  all_goals contradiction

-- The other sections only lead to a `pump` with an empty buffer.
theorem Exec.buffer (e : Exec hkdf e2eKey σ op i σ' ops) (hp : ∀ p buf d, op ≠ .pump p buf d) (ho : o ∈ ops)
    (hb : o.buffer? = some (p, buf)) : buf = [] := by
  cases e
  case pumped | full => exact absurd rfl (hp _ _ _)
  case idle | goPump | process | allKilled | opened | decoded | sent | forgot | inSent | sealedCmd =>
    contradiction
  case read conn m =>
    rcases List.mem_append.mp ho with ho | ho
    case inr => cases List.mem_singleton.mp ho; contradiction
    case inl =>
      unfold handle at ho
      split at ho <;> cases ho <;> contradiction
  case page hp =>
    have page := hp o ho
    cases o <;> contradiction
  case tampered | exited => rcases List.mem_pair.mp ho with rfl | rfl <;> contradiction
  all_goals
    obtain rfl := List.mem_singleton.mp ho
    cases hb <;> rfl

theorem Exec.sealed_mem (e : Exec hkdf e2eKey σ op i σ' ops)
    (h : .sealed .out fleetKey sid b ∈ σ'.log) :
    .sealed .out fleetKey sid b ∈ σ.log ∨ ∃ p last, op = .flush p b last ∧ p.sid = sid := by
  cases e
  case sealedOut p _ last _ _ _ _ _ _ =>
    cases h
    case head   => exact .inr ⟨p, last, rfl, rfl⟩
    case tail h => exact .inl h
  case helloSent | sent | spawned | opened | decoded | outSent | lastSent | inSent | sealedIn =>
    cases h with
    | tail _ h => exact .inl h
  case sealedCmd =>
    cases h with
    | tail _ h =>
      cases h with
      | tail _ h => exact .inl h
  all_goals exact .inl h

theorem start_sealed (e : start e2eKey σ r = some (σ', ops))
    (h : .sealed .out fleetKey sid b ∈ σ'.log) : .sealed .out fleetKey sid b ∈ σ.log := by
  revert e
  fun_cases E2E.start e2eKey σ r <;> intro e <;> cases e
  case case9 =>
    cases h with
    | tail _ h => exact h
  all_goals exact h

namespace Prints

theorem sealed_append (more : List (Pty κ × Bytes)) (h : Prints chunks c)
    (hb : .sealed .out fleetKey sid b ∈ c.shared.log) :
    ∃ p, p.sid = sid ∧ b <:+: printed p (chunks ++ more) := by
  have ⟨p, hs, hb⟩ := h.sealed _ _ _ hb
  rw [← hs]
  exact ⟨p, rfl, by rw [printed_append]; exact hb.trans (List.prefix_append ..).isInfix⟩

theorem start (h : Prints chunks c) (e : E2E.start e2eKey c.shared r = some (σ', ops)) :
    Prints chunks (c.resume t σ' ops) := by
  constructor
  case sealed => exact fun _ _ _ hb => h.sealed _ _ _ (start_sealed e hb)
  case buffer =>
    intro o p buf hm hb
    rcases hm.of_resume with ho | ho
    case inr => exact h.buffer o p buf ho hb
    case inl =>
      obtain ⟨_, none⟩ | ⟨q, _, _, rfl⟩ := start_pumps e
      case inl => exact absurd (Op.pumps_of_buffer hb) (none p o ho)
      case inr =>
        obtain rfl := List.mem_singleton.mp ho
        cases hb
        exact List.nil_suffix

theorem exec (h : Prints chunks c) (tokens : Tokens c) (head : c.procs t = op :: rest)
    (e : E2E.exec hkdf e2eKey c.shared op i = some (σ', ops)) :
    Prints (chunks ++ (op.chunk i).toList) (c.resume t σ' (ops ++ rest)) := by
  have graph := Exec.of e
  by_cases hop : ∃ p buf d, op = .pump p buf d
  case pos =>
    obtain ⟨p, buf, d, rfl⟩ := hop
    obtain ⟨rfl, o', rfl, next⟩ := exec_pump e
    refine ⟨fun o q buf' hm hb => ?_, fun _ _ _ hb => h.sealed_append _ hb⟩
    rw [printed_append]
    by_cases same : q = p
    case pos =>
      subst same
      -- It is the only goroutine of the PTY.
      obtain ⟨_, hm⟩ := hm
      have ho := (tokens.single q).mem_of_head head (by simp [Op.pumps]) hm (Op.pumps_of_buffer hb)
      obtain rfl := List.mem_singleton.mp ho
      cases hb.symm.trans next
      obtain ⟨before, old⟩ := h.buffer _ q buf ⟨t, head ▸ List.mem_cons_self⟩ rfl
      exact ⟨before, by rw [← List.append_assoc, old]⟩
    case neg =>
      have none : printed q ((Op.pump p buf d).chunk i).toList = [] := by
        cases i <;> simp [Op.chunk, printed, Ne.symm same]
      rw [none, List.append_nil]
      rcases hm.of_step head with ho | ho
      case inr => exact h.buffer o q buf' ho hb
      case inl =>
        obtain rfl := List.mem_singleton.mp ho
        cases hb.symm.trans next
        contradiction
  case neg =>
    have other : op.chunk i = none := by
      cases op <;> first | rfl | exact absurd ⟨_, _, _, rfl⟩ hop
    rw [other, Option.toList_none, List.append_nil]
    refine ⟨fun o p buf hm hb => ?_, fun _ _ _ hb => ?_⟩
    case refine_1 =>
      rcases hm.of_step head with ho | ho
      case inr => exact h.buffer o p buf ho hb
      case inl =>
        obtain rfl := graph.buffer (fun _ _ _ same => hop ⟨_, _, _, same⟩) ho hb
        exact List.nil_suffix
    case refine_2 =>
      rcases graph.sealed_mem hb with hb | ⟨p, last, rfl, hs⟩
      case inl => exact h.sealed _ _ _ hb
      case inr =>
        have last := h.buffer _ p _ ⟨t, head ▸ List.mem_cons_self⟩ rfl
        exact ⟨p, hs, last.isInfix⟩

end Prints

theorem prints_observed (h : (program hkdf e2eKey).system.Observed (fun c l => (chunk c l).toList) chunks c) :
    Prints chunks c := by
  refine h.invariant (I := Prints) ?_ fun chunks c l c' observed hi e => ?_
  case refine_1 =>
    rintro c ⟨⟨cipher, hs⟩, idle⟩
    refine ⟨?_, by simp [hs]⟩
    rintro o p buf ⟨t, ho⟩
    simp [idle t] at ho
  case refine_2 =>
    replace e := Step.of e
    cases e
    case start e => simpa [chunk] using hi.start e
    case step head e =>
      simpa [chunk, head] using hi.exec (tokens_reachable observed.reachable) head e

end E2E
