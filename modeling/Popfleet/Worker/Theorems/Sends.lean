import Popfleet.Worker.Step

namespace Worker

-- A terminal was told why before it was closed.
def Bannered (s : Sock) : Prop :=
  ∃ f ∈ s.sent, f.t = "err" ∨ f.t = "exit"

theorem Bannered.mono {s s' : Sock} (hs : s.sent ⊆ s'.sent) (h : Bannered s) : Bannered s' := by
  have ⟨f, hf, ht⟩ := h
  exact ⟨f, hs hf, ht⟩

namespace State

-- All of the state but what is known of the sockets.
def rest (σ : State) : State :=
  { σ with socks := fun _ => {}, uncaught := 0 }

-- Frames were sent and sockets closed, terminals with a banner. The sockets keep the attachments that
-- make them terminals.
structure Frames (σ σ' : State) : Prop where
  rest   : σ'.rest = σ.rest
  term   : ∀ {ws sid mid}, σ'.attachment ws = some (.term sid mid) ↔
    σ.attachment ws = some (.term sid mid)
  sent   : ∀ ws, (σ.socks ws).sent ⊆ (σ'.socks ws).sent
  closed : ∀ ws, (σ.socks ws).closed.isSome → (σ'.socks ws).closed.isSome
  banner : ∀ {ws sid mid}, σ.attachment ws = some (.term sid mid) →
    (σ'.socks ws).closed.isSome → (σ.socks ws).closed.isSome ∨ Bannered (σ'.socks ws)

-- Nothing else changed.
structure Sends (σ σ' : State) : Prop extends Frames σ σ' where
  attachment : ∀ ws, σ'.attachment ws = σ.attachment ws

-- The sockets that are listed, the terminals of machine `mid`, that the relay did not close.
def OpenTerm (σ : State) (ws : Ws) (mid : String) : Prop :=
  ws ∈ σ.listed ∧ (∃ sid, σ.attachment ws = some (.term sid mid)) ∧ (σ.socks ws).closed = none

variable {σ σ' σ₁ σ₂ σ₃ : State} {ws ws' : Ws} {f : Frame} {code : Nat} {reason why : String}
  {a : Attachment} {tag : Tag} {l : List Ws}

namespace Frames

theorem refl : Frames σ σ :=
  ⟨rfl, Iff.rfl, fun _ => List.Subset.refl _, fun _ => id, fun _ => .inl⟩

theorem trans (h₁ : Frames σ₁ σ₂) (h₂ : Frames σ₂ σ₃) : Frames σ₁ σ₃ := by
  constructor
  case rest   => exact h₂.rest.trans h₁.rest
  case term   => exact h₂.term.trans h₁.term
  case sent   => exact fun ws => List.Subset.trans (h₁.sent ws) (h₂.sent ws)
  case closed => exact fun ws hc => h₂.closed ws (h₁.closed ws hc)
  case banner =>
    intro ws sid mid ha hc
    cases h₂.banner (h₁.term.mpr ha) hc
    case inl hc => exact (h₁.banner ha hc).imp_right fun hb => hb.mono (h₂.sent ws)
    case inr hb => exact .inr hb

theorem listed (h : Frames σ σ') : σ'.listed = σ.listed :=
  congrArg (·.listed) h.rest

theorem openTerm {mid : String} (h : Frames σ σ') (ht : σ'.OpenTerm ws mid) :
    σ.OpenTerm ws mid := by
  have ⟨hl, ⟨sid, ha⟩, hc⟩ := ht
  refine ⟨h.listed ▸ hl, ⟨sid, h.term.mp ha⟩, ?_⟩
  by_contra hs
  have closed := h.closed ws (Option.isSome_iff_ne_none.mpr hs)
  simp [hc] at closed

end Frames

namespace Sends

theorem refl : Sends σ σ :=
  ⟨.refl, fun _ => rfl⟩

theorem trans (h₁ : Sends σ₁ σ₂) (h₂ : Sends σ₂ σ₃) : Sends σ₁ σ₃ :=
  ⟨h₁.toFrames.trans h₂.toFrames, fun ws => (h₂.attachment ws).trans (h₁.attachment ws)⟩

theorem getWebSockets (h : Sends σ σ') : σ'.getWebSockets tag = σ.getWebSockets tag := by
  simp only [State.getWebSockets, h.listed]

theorem mid (h : Sends σ σ') : σ'.mid ws = σ.mid ws := by
  simp only [State.mid, h.attachment ws]

theorem agentSocket {mid : String} (h : Sends σ σ') : σ'.agentSocket mid = σ.agentSocket mid := by
  simp only [State.agentSocket, h.getWebSockets, h.mid]

end Sends

-- The sockets after an update of one of them.
theorem socks_setSock {s : Sock} :
    (σ.setSock ws s).socks ws' = if ws' = ws then s else σ.socks ws' := by
  simp only [setSock, Function.update_apply]

theorem sends_setSock {s : Sock} (attachment : s.attachment = (σ.socks ws).attachment)
    (sent : (σ.socks ws).sent ⊆ s.sent) (closed : (σ.socks ws).closed.isSome → s.closed.isSome)
    (banner : ∀ {sid mid}, σ.attachment ws = some (.term sid mid) → s.closed.isSome →
      (σ.socks ws).closed.isSome ∨ Bannered s) :
    Sends σ (σ.setSock ws s) := by
  have same (ws') : (σ.setSock ws s).attachment ws' = σ.attachment ws' := by
    rw [State.attachment, socks_setSock]
    split
    case isTrue h  => exact h ▸ attachment
    case isFalse h => rfl
  refine ⟨⟨rfl, fun {ws} => same ws ▸ Iff.rfl, ?_, ?_, ?_⟩, same⟩
  all_goals
    intro ws'
    rw [socks_setSock]
    split
    case isTrue h  => subst h; assumption
    case isFalse h => first | exact List.Subset.refl _ | exact id | exact fun _ => .inl

theorem sends_wsSend : Sends σ (σ.wsSend ws f) := by
  unfold wsSend
  split
  case h_1   => exact .refl
  case h_2 h => exact sends_setSock rfl (List.subset_append_left ..) id fun _ => .inl

theorem sends_throw : Sends σ σ.throw :=
  ⟨⟨rfl, Iff.rfl, fun _ => List.Subset.refl _, fun _ => id, fun _ => .inl⟩, fun _ => rfl⟩

-- A terminal may be closed once it has its banner.
theorem sends_close (h : ∀ sid mid, σ.attachment ws = some (.term sid mid) →
      (σ.socks ws).closed.isSome ∨ Bannered (σ.socks ws)) :
    Sends σ (σ.close ws code reason) := by
  unfold close
  split
  case h_1   => exact .refl
  case h_2 h' => exact sends_setSock rfl (List.Subset.refl _) (fun _ => rfl) fun ha _ => h _ _ ha

theorem close_closed : ((σ.close ws code reason).socks ws).closed.isSome := by
  unfold close
  split
  case h_1 h => simp [h]
  case h_2 h => simp [socks_setSock]

theorem wsSend_banner (hf : f.t = "err" ∨ f.t = "exit") :
    ((σ.wsSend ws f).socks ws).closed.isSome ∨ Bannered ((σ.wsSend ws f).socks ws) := by
  unfold wsSend
  split
  case h_1 h => exact .inl (by simp [h])
  case h_2 h => exact .inr ⟨f, by simp [socks_setSock], hf⟩

theorem sends_wsSend_close (hf : f.t = "err" ∨ f.t = "exit") :
    Sends σ ((σ.wsSend ws f).close ws code reason) :=
  sends_wsSend.trans (sends_close fun _ _ _ => wsSend_banner hf)

theorem closeTerms_foldl :
    let σ' := l.foldl
      (fun σ t => (σ.wsSend t { t := "err", msg := some (.str why) }).close t 1000 why) σ
    Sends σ σ' ∧ ∀ ws ∈ l, (σ'.socks ws).closed.isSome := by
  induction l generalizing σ
  case nil => exact ⟨.refl, by simp⟩
  case cons t l hi =>
    have ⟨sends, closed⟩ :=
      @hi ((σ.wsSend t { t := "err", msg := some (.str why) }).close t 1000 why)
    refine ⟨(sends_wsSend_close (.inl rfl)).trans sends, List.forall_mem_cons.mpr ⟨?_, closed⟩⟩
    exact sends.closed t close_closed

theorem sends_closeTerms {mid : Option String} : Sends σ (σ.closeTerms mid why) :=
  closeTerms_foldl.left

theorem closeTerms_closed {mid : Option String} (h : ws ∈ σ.termSockets mid) :
    ((σ.closeTerms mid why).socks ws).closed.isSome :=
  closeTerms_foldl.right ws h

-- Attachments.

theorem attachment_attach :
    (σ.attach ws a).attachment ws' = if ws' = ws then some a else σ.attachment ws' := by
  rw [attachment, attach, socks_setSock]
  split <;> rfl

theorem attach_sent : ((σ.attach ws a).socks ws').sent = (σ.socks ws').sent := by
  rw [attach, socks_setSock]
  split
  case isTrue h  => rw [h]
  case isFalse h => rfl

theorem attach_closed : ((σ.attach ws a).socks ws').closed = (σ.socks ws').closed := by
  rw [attach, socks_setSock]
  split
  case isTrue h  => rw [h]
  case isFalse h => rfl

-- A socket that is no terminal becomes none.
theorem frames_attach (hw : ∀ sid mid, σ.attachment ws ≠ some (.term sid mid))
    (ha : ∀ sid mid, a ≠ .term sid mid) : Frames σ (σ.attach ws a) := by
  constructor
  case rest => rfl
  case term =>
    intro ws' sid mid
    rw [attachment_attach]
    split
    case isTrue h =>
      have new : some a ≠ some (.term sid mid) := fun he => ha sid mid (Option.some.inj he)
      exact iff_of_false new (h ▸ hw sid mid)
    case isFalse h => exact Iff.rfl
  case sent   => exact fun _ => attach_sent ▸ List.Subset.refl _
  case closed => exact fun _ => attach_closed ▸ id
  case banner => exact fun _ hc => .inl (attach_closed ▸ hc)

-- An agent of machine `mid` is replaced and the terminals of the machine are closed.
structure Drops (σ σ' : State) (old : Ws) (mid : String) : Prop extends Frames σ σ' where
  attachment : ∀ ws, σ'.attachment ws = if ws = old then some .replaced else σ.attachment ws
  terms      : ∀ ws ∈ σ.termSockets (some mid), ws ≠ old → (σ'.socks ws).closed.isSome

-- The socket of an enrolled agent.
def IsAgent (σ : State) (ws : Ws) (mid : String) : Prop :=
  ∃ seen, σ.attachment ws = some (.agent mid seen)

theorem IsAgent.not_term {mid : String} (h : σ.IsAgent ws mid) (sid mid' : String) :
    σ.attachment ws ≠ some (.term sid mid') := by
  have ⟨_, ha⟩ := h
  simp [ha]

theorem IsAgent.mid_eq {mid mid' : String} (h : σ.IsAgent ws mid) (h' : σ.IsAgent ws mid') :
    mid' = mid := by
  have ⟨_, ha⟩ := h
  have ⟨_, ha'⟩ := h'
  cases ha.symm.trans ha'
  rfl

theorem dropAgent_drops {mid : String} (h : σ.IsAgent ws mid) :
    Drops σ (σ.dropAgent ws why) ws mid := by
  have ⟨seen, ha⟩ := h
  have of_agent : σ.mid ws = some mid := by simp [State.mid, ha, Attachment.mid]
  have told : Sends σ (σ.closeTerms (some mid) why) := sends_closeTerms
  have retagged : Frames (σ.closeTerms (some mid) why)
      ((σ.closeTerms (some mid) why).attach ws .replaced) :=
    frames_attach (fun sid mid' => told.attachment ws ▸ h.not_term sid mid') (by simp)
  have dropped : Sends ((σ.closeTerms (some mid) why).attach ws .replaced)
      (σ.dropAgent ws why) := by
    rw [dropAgent, of_agent]
    exact sends_close fun _ _ ha => by simp [attachment_attach] at ha
  refine ⟨(told.toFrames.trans retagged).trans dropped.toFrames, fun ws' => ?_, fun t ht _ => ?_⟩
  case refine_1 => rw [dropped.attachment, attachment_attach, told.attachment]
  case refine_2 => exact dropped.closed t (attach_closed.symm ▸ closeTerms_closed ht)

theorem replace_drops {mid : String} (h : σ.IsAgent ws mid) (hs : σ.agentSocket mid = some ws) :
    Drops σ (replace σ mid) ws mid := by
  have retagged : Frames σ (σ.attach ws .replaced) := frames_attach h.not_term (by simp)
  have told : Sends (σ.attach ws .replaced)
      ((σ.attach ws .replaced).closeTerms (some mid) "agent reconnected") :=
    sends_closeTerms
  have dropped : Sends ((σ.attach ws .replaced).closeTerms (some mid) "agent reconnected")
      (replace σ mid) := by
    simp only [replace, hs]
    exact sends_close fun _ _ ha => by simp [told.attachment, attachment_attach] at ha
  refine ⟨(retagged.trans told.toFrames).trans dropped.toFrames, fun ws' => ?_, fun t ht hne => ?_⟩
  case refine_1 => rw [dropped.attachment, told.attachment, attachment_attach]
  case refine_2 =>
    have same : (σ.attach ws .replaced).mid t = σ.mid t := by
      rw [State.mid, attachment_attach, if_neg hne, State.mid]
    have ht : t ∈ (σ.attach ws .replaced).termSockets (some mid) := by
      rw [termSockets, List.mem_filter] at ht ⊢
      exact ⟨ht.left, same ▸ ht.right⟩
    exact dropped.closed t (closeTerms_closed ht)

end State

end Worker
