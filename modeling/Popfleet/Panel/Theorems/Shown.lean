import Popfleet.Lib.Chunks
import Popfleet.Panel.Theorems.Plain
import Popfleet.Proto.Parse

open Proto V1e Worker

-- What a page without a key makes of the frames of a Go program.
namespace Panel

variable {num : List Char → String} {m : Msg} {ms : List Msg} {b : Bytes}

theorem field_parse (f : Field) {fields : List (String × Json)}
    (h : ∀ f : Field, fields.lookup f.tag = (m.value f).map (Json.ofValue num)) {k : String}
    (hk : f.tag = k) : (Json.obj fields).field k = some ((m.value f).map (Json.ofValue num)) :=
  congrArg some (hk ▸ h f)

theorem outValue_parse :
    outValue (Json.parse num m.writeJSON) = if m.t = "out" then
      some (Json.key ((Msg.string m.data).map (Json.ofValue num))) else none := by
  have ⟨fields, hp, h⟩ := @Json.parse_writeJSON num m
  have tag := field_parse .t h (k := "t") rfl
  have data := field_parse .data h (k := "data") rfl
  rw [hp]
  simp only [outValue, Option.bind_some, tag, data, Msg.value, Option.map_some, Json.ofValue, Json.is,
    String.ofList_toList, decide_eq_true_eq, Option.join_some]

theorem closing_parse :
    closing (Json.parse num m.writeJSON) =
      if m.t = "exit" then
        (Json.key ((Msg.intPtr m.code).map (Json.ofValue num))).map fun code =>
          some ("session ended (exit " ++ code ++ ")")
      else if m.t = "err" then
        some (Json.key (some (Json.or ((Msg.string m.msg).map (Json.ofValue num)) (.str "session error"))))
      else none := by
  have ⟨fields, hp, h⟩ := @Json.parse_writeJSON num m
  have tag := field_parse .t h (k := "t") rfl
  have code := field_parse .code h (k := "code") rfl
  have msg := field_parse .msg h (k := "msg") rfl
  rw [hp]
  simp only [closing, Option.bind_some, tag, code, msg, Msg.value, Option.map_some, Json.ofValue, Json.is,
    String.ofList_toList, decide_eq_true_eq, Option.join_some]

-- The banner of a session whose shell exited.
def exited (num : List Char → String) (n : Int) : String :=
  closeThis ("session ended (exit " ++ num (Msg.appendInt n) ++ ")")

theorem closing_exit {n : Int} (ht : m.t = "exit") (hc : m.code = some n) :
    (closing (Json.parse num m.writeJSON)).map (·.map closeThis) = some (some (exited num n)) := by
  rw [closing_parse, if_pos ht, hc]
  rfl

theorem closing_err (ht : m.t = "err") (hm : m.msg ≠ "") :
    closing (Json.parse num m.writeJSON) = some (some m.msg) := by
  have tag : m.t ≠ "exit" := by simp [ht]
  rw [closing_parse, if_neg tag, if_pos ht]
  simp [Msg.string, hm, Json.ofValue, Json.or, Json.truthy, Json.key, Json.text]

theorem announces_parse (ht : m.t ≠ "e2e") :
    Event.announces (.received (Json.parse num m.writeJSON)) = false := by
  have ⟨fields, hp, h⟩ := @Json.parse_writeJSON num m
  have tag := field_parse .t h (k := "t") rfl
  rw [hp]
  simpa [Event.announces, tag, Msg.value, Json.ofValue, Json.is] using ht

-- What is written for the frames, when their values are base64.
theorem flatten_rendered (h : Carries (Base64.decode ·.data) (ms.filter (·.t = "out")) b) :
    ((ms.map fun m => Json.parse num m.writeJSON).filterMap rendered).flatten = b := by
  induction ms generalizing b
  case nil =>
    obtain ⟨chunks, hc, rfl⟩ := h
    obtain rfl := List.map_eq_nil_iff.mp hc.symm
    rfl
  case cons m ms hi =>
    rw [List.map_cons, List.filterMap_cons]
    by_cases ht : m.t = "out"
    case neg =>
      have silent : rendered (Json.parse num m.writeJSON) = none := by
        rw [rendered, outValue_parse, if_neg ht]
        rfl
      rw [List.filter_cons_of_neg (by simpa using ht)] at h
      simpa [silent] using hi h
    case pos =>
      rw [List.filter_cons_of_pos (by simpa using ht)] at h
      obtain ⟨d, d', hd, rest, rfl⟩ := h.of_cons
      have value : (rendered (Json.parse num m.writeJSON)).getD [] = d := by
        rw [rendered, outValue_parse, if_pos ht]
        by_cases he : m.data = ""
        case pos =>
          rw [he] at hd ⊢
          cases hd
          have none : Base64.atob "undefined" = none := by decide
          simp [Msg.string, Json.key, none]
        case neg => simp [Msg.string, he, Json.ofValue, Json.key, Json.text, Base64.atob_of_decode hd]
      have rest := hi rest
      cases hr : rendered (Json.parse num m.writeJSON) <;> simp_all

end Panel
