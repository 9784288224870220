import Httplib.Util.Misc

/-!
# Parameters of header fields

The grammar that `Content-Type` and `Accept-Encoding` share, as data: tokens, quoted strings with their
escapes, and parameters `;name=value` with white space around the semicolon. A value of the grammar cannot
be ill formed.
-/

namespace Httplib

/-- A character of a token: any visible one but the delimiters. -/
def isTokenChar (c : UInt8) : Bool :=
  33 ≤ c && c ≤ 126 && !(bytes "\"(),/:;<=>?@[\\]\x7b\x7d").contains c

/-- A character of a quoted string that needs no escape. -/
def isQuotedText (c : UInt8) : Bool := (c == 9 || 32 ≤ c) && c ≠ 34 && c ≠ 92 && c ≠ 127

/-- A character that may stand behind the backslash of an escape. -/
def isEscapable (c : UInt8) : Bool := (c == 9 || 32 ≤ c) && c ≠ 127

/-- A token. -/
structure Token where
  text : Bytes
  ne_nil : text ≠ [] := by decide
  chars : ∀ c ∈ text, isTokenChar c = true := by exact List.all_eq_true.1 (by decide)

/-- Optional white space. -/
structure Blank where
  text : Bytes
  blank : ∀ c ∈ text, c = 9 ∨ c = 32 := by simp

/-- No white space. -/
def Blank.none : Blank := { text := [] }

/-- One space. -/
def Blank.space : Blank := { text := [32] }

/-- A character of a quoted string. -/
inductive QuotedChar where
  | plain (c : UInt8) (h : isQuotedText c = true)
  | escaped (c : UInt8) (h : isEscapable c = true)

namespace QuotedChar

/-- How the character is written. -/
def text : QuotedChar → Bytes
  | plain c _ => [c]
  | escaped c _ => [92, c]

/-- The character that is meant. -/
def char : QuotedChar → UInt8
  | plain c _ | escaped c _ => c

end QuotedChar

/-- The value of a parameter. -/
inductive ParameterValue where
  | token (t : Token)
  | quoted (chars : List QuotedChar)

namespace ParameterValue

def text : ParameterValue → Bytes
  | token t => t.text
  | quoted chars => 34 :: (chars.flatMap QuotedChar.text ++ [34])

/-- The value without its quotes and escapes. -/
def value : ParameterValue → Bytes
  | token t => t.text
  | quoted chars => chars.map QuotedChar.char

end ParameterValue

/-- A parameter with the semicolon in front of it. -/
structure Parameter where
  before : Blank
  after : Blank
  name : Token
  value : ParameterValue

namespace Parameter

/-- The parameter without its semicolon. -/
def pair (p : Parameter) : Bytes := p.name.text ++ 61 :: p.value.text

def text (p : Parameter) : Bytes := p.before.text ++ 59 :: (p.after.text ++ p.pair)

/-- Names are compared without regard to case. -/
def named (name : Bytes) (p : Parameter) : Bool := iequals p.name.text name

end Parameter

/-! ## What a token does not hold -/

namespace Token

variable (t : Token)

/-- A token has neither white space nor a delimiter in it. -/
theorem not_mem {c : UInt8} (hc : isTokenChar c = false := by decide) : c ∉ t.text := fun hmem => by
  rw [t.chars c hmem] at hc
  cases hc

theorem isSpace_of_mem {c : UInt8} (hmem : c ∈ t.text) : isSpace c = false := by
  have hchar := t.chars c hmem
  rw [isTokenChar, Bool.and_eq_true, Bool.and_eq_true, decide_eq_true_iff] at hchar
  have hge : 33 ≤ c := hchar.1.1
  have hle : ¬ c ≤ 13 := fun hle => absurd (UInt8.le_trans hge hle) (by decide)
  have hne : c ≠ 32 := by
    rintro rfl
    exact absurd hge (by decide)
  rw [isSpace, decide_eq_false hle, Bool.and_false, Bool.false_or, beq_eq_false_iff_ne]
  exact hne

/-- A token is its own trim. -/
@[simp] theorem trimCopy_text : trimCopy t.text = t.text :=
  trimCopy_eq_self (fun _ hc => t.isSpace_of_mem (List.mem_of_mem_head? hc))
    fun _ hc => t.isSpace_of_mem (List.mem_of_mem_getLast? hc)

end Token

namespace Blank

variable (b : Blank)

theorem isSpace_of_mem {c : UInt8} (hmem : c ∈ b.text) : isSpace c = true := by
  rcases b.blank c hmem with rfl | rfl <;> rfl

theorem not_mem {c : UInt8} (hc : isSpace c = false := by decide) : c ∉ b.text := fun hmem => by
  rw [b.isSpace_of_mem hmem] at hc
  cases hc

end Blank

end Httplib
