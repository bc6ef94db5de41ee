/-!
# Classes of characters

The classes that decide how a text is cut into tokens, and how a character that fits nowhere is
shown. Letters and digits are the ASCII ones: the grammar of names and numbers admits no others.
Blank and control characters are the Unicode classes, because any character may turn up where a
token was expected and must be shown legibly.
-/

namespace TypeSystem.Text

/-! ### Classes of the token grammar -/

/-- A character that ends a line. -/
def isLineEnd (c : Char) : Bool :=
  c = '\n' || c = '\r'

/-- A character that only separates tokens: blanks, line ends, commas and the byte order mark. -/
def isIgnored (c : Char) : Bool :=
  c = ' ' || c = '\t' || c = '\n' || c = '\r' || c = ',' || c = '\uFEFF'

/-- An ASCII digit. -/
def isDigit (c : Char) : Bool :=
  '0' ≤ c && c ≤ '9'

/-- An ASCII letter. -/
def isLetter (c : Char) : Bool :=
  ('a' ≤ c && c ≤ 'z') || ('A' ≤ c && c ≤ 'Z')

/-- A character that may begin a name. -/
def isNameStart (c : Char) : Bool :=
  c = '_' || isLetter c

/-- A character that may stand inside a name. -/
def isNameContinue (c : Char) : Bool :=
  isNameStart c || isDigit c

/-- A character that a malformed number takes along with it. -/
def isNumberRun (c : Char) : Bool :=
  isNameContinue c || c = '.' || c = '+' || c = '-'

/-- The mark between the digits and the exponent of a number. -/
def isExponentMark (c : Char) : Bool :=
  c = 'e' || c = 'E'

/-- The sign of an exponent. -/
def isSign (c : Char) : Bool :=
  c = '+' || c = '-'

/-! ### Legible characters -/

/-- A control character: the ranges `U+0000`–`U+001F` and `U+007F`–`U+009F`. -/
def isControl (c : Char) : Bool :=
  c.toNat < 0x20 || (0x7F ≤ c.toNat && c.toNat ≤ 0x9F)

/-- A character with the Unicode property *White_Space*. -/
def isBlank (c : Char) : Bool :=
  let n := c.toNat
  (0x09 ≤ n && n ≤ 0x0D) || n = 0x20 || n = 0x85 || n = 0xA0 || n = 0x1680 ||
    (0x2000 ≤ n && n ≤ 0x200A) || n = 0x2028 || n = 0x2029 || n = 0x202F || n = 0x205F ||
    n = 0x3000

/-- A character that leaves no mark of its own on a page, the plain space excepted. -/
def isInvisible (c : Char) : Bool :=
  isControl c || (isBlank c && c ≠ ' ')

/-- The digits of a number to base sixteen, in lower case. -/
def hexDigits (n : Nat) : List Char :=
  Nat.toDigits 16 n

/-- A code point as `U+` and at least four upper-case digits. -/
def codePoint (c : Char) : String :=
  let digits := (hexDigits c.toNat).map Char.toUpper
  "U+" ++ String.ofList (List.replicate (4 - digits.length) '0' ++ digits)

/-- A code point as an escape in braces. -/
def escapedCodePoint (c : Char) : String :=
  "\\u\x7b" ++ String.ofList (hexDigits c.toNat) ++ "\x7d"

/-- A text between backticks. -/
def quoted (text : String) : String :=
  "`" ++ text ++ "`"

/-- A character as a message shows it: between backticks, and with its code point if it would not be
seen there. -/
def shown (c : Char) : String :=
  if isInvisible c then quoted (escapedCodePoint c) ++ " (" ++ codePoint c ++ ")"
  else quoted c.toString

/-! ### How the classes lie to each other -/

theorem isNameContinue_of_isNameStart {c : Char} (h : isNameStart c) : isNameContinue c := by
  simp [isNameContinue, h]

theorem isNumberRun_of_isDigit {c : Char} (h : isDigit c) : isNumberRun c := by
  simp [isNumberRun, isNameContinue, h]

theorem isIgnored_of_isLineEnd {c : Char} (h : isLineEnd c) : isIgnored c := by
  simp only [isLineEnd, Bool.or_eq_true, decide_eq_true_eq] at h
  rcases h with rfl | rfl <;> rfl

end TypeSystem.Text
