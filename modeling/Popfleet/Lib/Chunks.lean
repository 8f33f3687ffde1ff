import Mathlib.Data.List.Basic

variable {α β : Type} {payload payload' : α → Option (List β)} {l : List α} {a : α} {b d : List β}

-- A stream that is cut into items: what they carry, one after the other, is the stream.
def Carries (payload : α → Option (List β)) (l : List α) (b : List β) : Prop :=
  ∃ chunks : List (List β), l.map payload = chunks.map some ∧ chunks.flatten = b

namespace Carries

theorem nil : Carries payload [] [] :=
  ⟨[], rfl, rfl⟩

theorem snoc (h : Carries payload l b) (hd : payload a = some d) :
    Carries payload (l ++ [a]) (b ++ d) := by
  have ⟨chunks, hc, hb⟩ := h
  exact ⟨chunks ++ [d], by simp [hc, hd], by simp [hb]⟩

-- What can be read stays so.
theorem mono (h : Carries payload l b) (hp : ∀ a d, payload a = some d → payload' a = some d) :
    Carries payload' l b := by
  have ⟨chunks, hc, hb⟩ := h
  refine ⟨chunks, ?_, hb⟩
  rw [← hc]
  refine List.map_congr_left fun a ha => ?_
  have read : payload a ∈ chunks.map some := hc ▸ List.mem_map_of_mem ha
  have ⟨d, _, hd⟩ := List.mem_map.mp read
  rw [← hd, hp a d hd.symm]

theorem of_cons (h : Carries payload (a :: l) b) :
    ∃ d d', payload a = some d ∧ Carries payload l d' ∧ d ++ d' = b := by
  obtain ⟨chunks, hc, rfl⟩ := h
  obtain ⟨d, chunks, rfl, ha, hl⟩ := List.map_eq_cons_iff.mp hc.symm
  exact ⟨d, chunks.flatten, ha.symm, ⟨chunks, hl.symm, rfl⟩, rfl⟩

-- The items before some others carry what the stream begins with.
theorem of_append {l' : List α} (h : Carries payload (l ++ l') b) :
    ∃ d d', Carries payload l d ∧ Carries payload l' d' ∧ d ++ d' = b := by
  obtain ⟨chunks, hc, rfl⟩ := h
  rw [List.map_append] at hc
  obtain ⟨cs, cs', rfl, hl, hl'⟩ := List.map_eq_append_iff.mp hc.symm
  exact ⟨cs.flatten, cs'.flatten, ⟨cs, hl.symm, rfl⟩, ⟨cs', hl'.symm, rfl⟩, List.flatten_append.symm⟩

theorem of_isPrefix {l' : List α} (h : Carries payload l' b) (hl : l <+: l') :
    ∃ d, Carries payload l d ∧ d <+: b := by
  obtain ⟨rest, rfl⟩ := hl
  have ⟨d, d', carries, _, hb⟩ := h.of_append
  exact ⟨d, carries, d', hb⟩

theorem unique (h : Carries payload l b) (h' : Carries payload l d) : b = d := by
  obtain ⟨chunks, hc, rfl⟩ := h
  obtain ⟨chunks', hc', rfl⟩ := h'
  rw [List.map_injective_iff.mpr (fun _ _ => Option.some.inj) (hc.symm.trans hc')]

end Carries
