import Mathlib.Data.List.Basic
import SigilExpr.Error

/-!
# Texts on one line

The compact text of a JSON value never has a line break in it: strings are written with their
control characters escaped, and everything else is made of digits, signs and brackets. So the
wording of a mismatch is one line, whatever the value is that was found and the shape that was
asked for (`EvalError.oneLine_display`).
-/

namespace SigilExpr

/-- There is no line break in the text. -/
def Text.OneLine (s : String) : Prop := '\n' ∉ s.toList

namespace Text

instance (s : String) : Decidable (OneLine s) := inferInstanceAs (Decidable (¬ _))

@[simp] theorem oneLine_append {s t : String} : OneLine (s ++ t) ↔ OneLine s ∧ OneLine t := by
  simp [OneLine]

@[simp] theorem oneLine_ofList {cs : List Char} : OneLine (String.ofList cs) ↔ '\n' ∉ cs := by
  simp [OneLine]

end Text

open Text (OneLine)

/-! ### Numbers -/

/-- A line break is no digit. -/
theorem Decimal.newline_notMem_digits (n : Nat) : '\n' ∉ digits n := by
  intro hm
  -- the library says of every character in such a list that it is a digit
  have hdigit := Nat.isDigit_of_mem_toDigits (by decide) (by decide) hm
  exact absurd hdigit (by decide)

theorem Decimal.newline_notMem_significant (d : Decimal) : '\n' ∉ d.significant := by
  intro hm
  rw [significant, List.mem_reverse] at hm
  have hdigits := List.mem_reverse.1 ((List.dropWhile_sublist _).subset hm)
  exact newline_notMem_digits _ hdigits

namespace Number

theorem newline_notMem_positional {digits : List Char} (h : '\n' ∉ digits) (leading : Int) :
    '\n' ∉ positional digits leading := by
  have htake : ∀ n, '\n' ∉ digits.take n := fun n hm => h (List.mem_of_mem_take hm)
  have hdrop : ∀ n, '\n' ∉ digits.drop n := fun n hm => h (List.mem_of_mem_drop hm)
  unfold positional
  split
  · simp [h]
  · -- the digits before the point, zeros for those that lack, the point, and the digits after it
    simp only [List.mem_append, not_or]
    refine ⟨⟨⟨htake _, by simp⟩, by simp⟩, ?_⟩
    split
    · simp
    · exact hdrop _

theorem newline_notMem_scientific {digits : List Char} (h : '\n' ∉ digits) (leading : Int) :
    '\n' ∉ scientific digits leading := by
  unfold scientific
  simp only [List.mem_append, not_or]
  refine ⟨⟨⟨⟨fun hm => h (List.mem_of_mem_take hm), ?_⟩, fun hm => h (List.mem_of_mem_drop hm)⟩,
    ?_⟩, Decimal.newline_notMem_digits _⟩
  · split <;> simp
  · split <;> simp

theorem oneLine_text (n : Number) : OneLine n.text := by
  cases n with
  | whole value fits =>
    rw [text, Text.oneLine_ofList, List.mem_append, not_or]
    exact ⟨by split <;> simp, Decimal.newline_notMem_digits _⟩
  | float x =>
    rw [text, floatText, Text.oneLine_ofList, List.mem_append, not_or]
    -- the sign, then zero or the digits of the shortest decimal in one of the two notations
    refine ⟨by split <;> simp, ?_⟩
    split
    · simp
    · dsimp only
      split
      · exact newline_notMem_positional (Decimal.newline_notMem_significant _) _
      · exact newline_notMem_scientific (Decimal.newline_notMem_significant _) _

end Number

/-! ### JSON values -/

namespace Json

theorem hexDigit_ne_newline : ∀ n < 16, '\n' ≠ hexDigit n := by decide

/-- A line break is escaped, and no other character is escaped by one. -/
theorem newline_notMem_escape (c : Char) : '\n' ∉ escape c := by
  unfold escape
  split
  -- the last case is all characters that have no escape of their own
  case h_8 hc _ _ _ _ =>
    split
    · rename_i hcontrol
      -- a control character is written with two hexadecimal digits of its own
      have hhigh := hexDigit_ne_newline (c.toNat / 16) (by omega)
      have hlow := hexDigit_ne_newline (c.toNat % 16) (by omega)
      simpa using ⟨hhigh, hlow⟩
    · simpa using fun h : '\n' = c => hc h.symm
  all_goals decide

theorem oneLine_quote (s : String) : OneLine (quote s) := by
  have hescape : '\n' ∉ s.toList.flatMap escape := by
    rw [List.mem_flatMap]
    rintro ⟨c, -, hm⟩
    exact newline_notMem_escape c hm
  rw [quote, Text.oneLine_ofList, List.mem_cons, List.mem_append, not_or, not_or]
  exact ⟨by decide, hescape, by decide⟩

mutual

theorem oneLine_text : ∀ v : Json, OneLine v.text
  | .null => by decide
  | .bool true => by decide
  | .bool false => by decide
  | .num n => n.oneLine_text
  | .str s => oneLine_quote s
  | .arr items => by
    rw [text, Text.oneLine_append, Text.oneLine_append]
    exact ⟨⟨by decide, oneLine_textOfItems items⟩, by decide⟩
  | .obj fields => by
    rw [text, Text.oneLine_append, Text.oneLine_append]
    exact ⟨⟨by decide, oneLine_textOfFields fields⟩, by decide⟩

theorem oneLine_textOfItems : ∀ items : List Json, OneLine (textOfItems items)
  | [] => by decide
  | v :: rest => by
    rw [textOfItems]
    split
    · exact oneLine_text v
    · rw [Text.oneLine_append, Text.oneLine_append]
      exact ⟨⟨oneLine_text v, by decide⟩, oneLine_textOfItems rest⟩

theorem oneLine_textOfFields : ∀ fields : List (String × Json), OneLine (textOfFields fields)
  | [] => by decide
  | (k, v) :: rest => by
    have hentry : OneLine (quote k ++ ":" ++ v.text) := by
      rw [Text.oneLine_append, Text.oneLine_append]
      exact ⟨⟨oneLine_quote k, by decide⟩, oneLine_text v⟩
    rw [textOfFields]
    split
    · exact hentry
    · rw [Text.oneLine_append, Text.oneLine_append]
      exact ⟨⟨hentry, by decide⟩, oneLine_textOfFields rest⟩

end

end Json

/-! ### Errors -/

/-- A part of a line is on one line. -/
theorem Cause.oneLine_preview (v : Json) : OneLine (preview v) := by
  unfold preview
  simp only
  split
  · exact v.oneLine_text
  · rw [Text.oneLine_append, Text.oneLine_ofList]
    exact ⟨fun hm => v.oneLine_text (List.mem_of_mem_take hm), by decide⟩

theorem Cause.oneLine_message_mismatch (t : TypeSpec) (v : Json) :
    OneLine (mismatch t v).message := by
  have htype : OneLine (ValueType.of v).name := by
    cases ValueType.of v <;> decide
  show OneLine ("expected " ++ t.text ++ ", got " ++ (ValueType.of v).name ++ " " ++ preview v)
  simp only [Text.oneLine_append]
  exact ⟨⟨⟨⟨⟨by decide, t.toJson.oneLine_text⟩, by decide⟩, htype⟩, by decide⟩, oneLine_preview v⟩

/-- **An error is displayed on one line** if its message is one line, and the identifier if there is
one. -/
theorem EvalError.oneLine_display {e : EvalError} (hmessage : OneLine e.message)
    (hid : ∀ id, e.id = some id → OneLine id) : OneLine e.display := by
  have hcode : OneLine e.kind.code := by
    cases e.kind <;> decide
  simp only [display, Text.oneLine_append]
  refine ⟨⟨⟨hcode, by decide⟩, hmessage⟩, ?_⟩
  cases hname : e.id with
  | none => decide
  | some id =>
    simp only [Text.oneLine_append]
    exact ⟨⟨by decide, hid id hname⟩, by decide⟩

end SigilExpr
