import JvmAccessors.Text.Hexadecimal

/-!
# Text on a terminal

A log is read on a terminal, which obeys some control characters instead of showing them. `LogLine.escape` spells those
by their numbers: escape, bell, backspace, form feed and delete with two digits after `\x`, and the characters from
`U+0080` to `U+009F` between braces after `\u`. All other characters stay, line ends and tabs among them. Main
statement: no character that a terminal obeys is left (`not_isObeyed_of_mem_escape`).
-/

namespace JvmAccessors
namespace LogLine

/-- The single bytes that a terminal obeys: bell, backspace, form feed, escape and delete. -/
def isControlByte (c : Char) : Bool := c = '\x07' || c = '\x08' || c = '\x0c' || c = '\x1b' || c = '\x7f'

/-- The upper control characters. -/
def isUpperControl (c : Char) : Bool := 0x80 ≤ c.toNat && c.toNat ≤ 0x9f

/-- The characters that a terminal obeys. -/
def isObeyed (c : Char) : Bool := isControlByte c || isUpperControl c

/-- The spelling of a character. -/
def escapeChar (c : Char) : List Char :=
  if isControlByte c then '\\' :: 'x' :: (Hexadecimal.twoDigits (UInt8.ofNat c.toNat)).toList
  else if isUpperControl c then '\\' :: 'u' :: '\x7b' :: (Hexadecimal.digits c.toNat).toList ++ ['\x7d']
  else [c]

/-- A text without the characters that a terminal obeys. -/
def escape (text : String) : String := String.ofList (text.toList.flatMap escapeChar)

/-! ## What is left -/

/-- The characters that a terminal obeys, by number. -/
def obeyed : List Char := ((List.range 160).map Char.ofNat).filter isObeyed

/-- A character that a terminal obeys is one of those. -/
theorem mem_obeyed {c : Char} (h : isObeyed c = true) : c ∈ obeyed := by
  refine List.mem_filter.mpr ⟨List.mem_map.mpr ⟨c.toNat, List.mem_range.mpr ?_, Char.ofNat_toNat c⟩, h⟩
  simp only [isObeyed, isControlByte, isUpperControl, Bool.or_eq_true, Bool.and_eq_true, decide_eq_true_eq] at h
  rcases h with ((((rfl | rfl) | rfl) | rfl) | rfl) | ⟨_, h⟩
  · decide
  · decide
  · decide
  · decide
  · decide
  · exact Nat.lt_of_le_of_lt h (by decide)

/-- The spelling of a character has none that a terminal obeys. -/
theorem not_isObeyed_of_mem_escapeChar {c x : Char} (h : x ∈ escapeChar c) : isObeyed x = false := by
  cases hc : isObeyed c with
  | true =>
    have spelled : (obeyed.all fun c => (escapeChar c).all fun x => !isObeyed x) = true := by decide
    have hx := List.all_eq_true.mp (List.all_eq_true.mp spelled c (mem_obeyed hc)) x h
    simpa using hx
  | false =>
    have hs := hc
    simp only [isObeyed, Bool.or_eq_false_iff] at hs
    simp only [escapeChar, hs.1, hs.2, Bool.false_eq_true, if_false, List.mem_singleton] at h
    rw [h, hc]

/-- No character that a terminal obeys is left. -/
theorem not_isObeyed_of_mem_escape {text : String} {x : Char} (h : x ∈ (escape text).toList) :
    isObeyed x = false := by
  simp only [escape, String.toList_ofList, List.mem_flatMap] at h
  obtain ⟨_, _, hx⟩ := h
  exact not_isObeyed_of_mem_escapeChar hx

end LogLine
end JvmAccessors
