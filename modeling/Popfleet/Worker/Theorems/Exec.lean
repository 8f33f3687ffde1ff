import Popfleet.Worker.Step

open Program

namespace Worker

-- The graph of `exec`, for case analysis.
inductive Exec (sha256hex : String → String) (σ : State) : Op → State → List Op → Prop
  | refused {op} : Exec sha256hex σ op σ []
  | threw {op} : Exec sha256hex σ op σ.throw []
  | drawn {id token name} :
    Exec sha256hex σ .tokensBody σ
      [.tokensPut { id, name, tokenSum := sha256hex token } token]
  | enrolled {m token} :
    Exec sha256hex σ (.tokensPut m token)
      ({ σ with machine := σ.machine.set m.id m,
                tok := σ.tok.set m.tokenSum m.id }.record (.enrolled m.id token)) []
  | first {mid sid key cmd} :
    Exec sha256hex σ (.termBody mid) σ [.termPut true sid key mid cmd]
  | again {mid sid key cmd prev} (h : σ.pend.get? sid = some prev) (hm : prev.mid = mid)
    (ht : σ.now ≤ prev.exp) :
    Exec sha256hex σ (.termBody mid) σ [.termPut false sid key mid cmd]
  | minted {first sid key mid cmd p}
    (hp : p = { keySum := sha256hex key, mid, cmd, exp := σ.now + keyTTL }) :
    Exec sha256hex σ (.termPut first sid key mid cmd)
      (({ σ with pend := σ.pend.set sid p }.record (.minted first sid key cmd)).armAlarm) []
  | accepted {sid k pend p} (h : valid sha256hex σ k pend = some p) :
    Exec sha256hex σ (.upgradeTerm sid k pend) (attachTerm σ sid k p) []
  | hello {ws m token} :
    Exec sha256hex σ (.hello ws m) (helloDigest σ ws m (sha256hex token)) []

-- The sections that `start` leaves behind. It changes nothing then.
inductive Started (σ : State) : Req → Op → Prop
  | tokens : Started σ .apiTokens .tokensBody
  | term {mid} : Started σ (.apiTerm mid) (.termBody mid)
  | upgrade {sid k} : Started σ (.upgradeTerm sid k) (.upgradeTerm sid k (σ.pend.get? sid))
  | hello {ws m since} (hl : ws ∈ σ.listed) (ha : σ.attachment ws = some (.pending since)) :
    Started σ (.webSocketMessage ws (some m)) (.hello ws m)

variable {sha256hex : String → String} {σ σ' : State} {r : Req} {op : Op} {i : Input}
  {ops : List Op}

theorem Exec.of (h : exec sha256hex σ op i = some (σ', ops)) : Exec sha256hex σ op σ' ops := by
  revert h
  fun_cases exec sha256hex σ op i <;> intro h
  case case2 => cases h; exact .drawn
  case case3 => cases h; exact .enrolled
  case case8 hb ht =>
    cases h
    have ⟨hm, ht⟩ := not_or.mp ht
    exact .again hb (not_not.mp hm) (Nat.not_lt.mp ht)
  case case9 => cases h; exact .first
  case case10 => cases h; exact .minted rfl
  case case12 hv => cases h; exact .accepted hv
  case case14 => cases h; exact .hello
  all_goals cases h
  all_goals first | exact .refused | exact .threw

theorem hello_of_mem {ws : Ws} {m : Json} (ho : op ∈ (hello σ ws m).2) :
    hello σ ws m = (σ, [.hello ws m]) ∧ op = .hello ws m := by
  revert ho
  fun_cases hello σ ws m <;> intro ho
  case case3 => exact ⟨rfl, List.mem_singleton.mp ho⟩
  all_goals contradiction

theorem Started.of (h : start σ r = some (σ', ops)) (ho : op ∈ ops) :
    σ' = σ ∧ ops = [op] ∧ Started σ r op := by
  cases r <;> simp only [start] at h
  case apiTokens =>
    cases h
    cases List.mem_singleton.mp ho
    exact ⟨rfl, rfl, .tokens⟩
  case apiTerm mid =>
    split at h <;> cases h
    case isTrue =>
      cases List.mem_singleton.mp ho
      exact ⟨rfl, rfl, .term⟩
    case isFalse => contradiction
  case upgradeTerm =>
    cases h
    cases List.mem_singleton.mp ho
    exact ⟨rfl, rfl, .upgrade⟩
  case webSocketMessage ws m =>
    split at h
    case isFalse => contradiction
    case isTrue hl =>
      split at h
      case h_1 => cases h; contradiction
      case h_2 =>
        split at h
        case h_1 ha =>
          have h := Option.some.inj h
          have called : ops = (Worker.hello σ ws _).snd := (congrArg Prod.snd h).symm
          have ⟨same, hop⟩ := hello_of_mem (called ▸ ho)
          cases same.symm.trans h
          subst hop
          exact ⟨rfl, rfl, .hello hl ha⟩
        all_goals cases h; contradiction
  case webSocketClose | webSocketError =>
    unfold closed at h
    split at h <;> cases h
    contradiction
  case apiDelete | alarm => split at h <;> (try split at h) <;> cases h <;> contradiction
  case autoResponse => split at h <;> cases h; contradiction
  all_goals cases h; contradiction

def initial : Config State Op where
  shared := {}
  procs  := fun _ => []

theorem initial_init : (program id).system.Init initial :=
  ⟨⟨0, rfl⟩, fun _ => rfl⟩

end Worker
