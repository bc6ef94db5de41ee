import TypeSystem.Token.Basic

/-!
# Lexemes

A lexeme is the text of one token, cut off the front of a text that begins with no separator. Which
lexeme stands there is decided without positions: `Lexeme.scan` gives its class, its characters and
the rest. Nothing is lost (`scan_text_append_rest`) and something is always taken
(`scan_text_ne_nil`), so cutting one lexeme after another comes to an end.

A number ends where no longer number can be read; what follows it may be neither a point nor the
start of a name. Otherwise the whole run of number characters is one invalid lexeme.
-/

namespace TypeSystem

open Text

/-- Why a piece of text is no token. -/
inductive LexicalFault where
  /-- A minus sign without digits. -/
  | loneMinus
  /-- A zero with more digits after it. -/
  | leadingZero
  /-- An exponent without digits. -/
  | emptyExponent
  /-- A number that runs on into something else. -/
  | numberTail
  /-- A string cut short by the end of the input. -/
  | openString
  /-- A string cut short by the end of its line. -/
  | brokenString
  /-- A string between triple quotes that is never closed. -/
  | openBlockString
  /-- A character that begins no token. -/
  | strayCharacter
deriving DecidableEq, Repr

/-- The class of a lexeme. -/
inductive LexemeClass where
  | punctuator (p : Punctuator)
  | name
  | int
  | float
  | string
  | blockString
  | comment
  | invalid (fault : LexicalFault)
deriving DecidableEq, Repr

/-- A lexeme at the front of a text, and what follows it. -/
structure Lexeme where
  /-- What the lexeme is. -/
  cls : LexemeClass
  /-- Its characters. -/
  text : List Char
  /-- What follows. -/
  rest : List Char
deriving Repr

namespace Lexeme

/-- The front of `cs` in a class of characters, as a lexeme. -/
def run (cls : LexemeClass) (p : Char → Bool) (cs : List Char) : Lexeme :=
  ⟨cls, cs.takeWhile p, cs.dropWhile p⟩

/-- A lexeme with one more character in front. -/
def cons (c : Char) (l : Lexeme) : Lexeme :=
  { l with text := c :: l.text }

/-! ### Numbers -/

/-- The digits at the front of a text, and what follows them. -/
def digits (cs : List Char) : List Char × List Char :=
  (cs.takeWhile isDigit, cs.dropWhile isDigit)

/-- The fraction at the front of a text: a point and digits, or nothing. -/
def fraction (cs : List Char) : List Char × List Char :=
  match cs with
  | '.' :: rest =>
    let (ds, after) := digits rest
    if ds.isEmpty then ([], cs) else ('.' :: ds, after)
  | _ => ([], cs)

/-- The sign at the front of an exponent, or nothing. -/
def exponentSign (cs : List Char) : List Char × List Char :=
  match cs with
  | c :: rest => if isSign c then ([c], rest) else ([], cs)
  | [] => ([], cs)

/-- The exponent at the front of a text: a mark, perhaps a sign, and digits, or nothing. No result if
there is a mark without digits. -/
def exponent? (cs : List Char) : Option (List Char × List Char) :=
  match cs with
  | c :: rest =>
    if isExponentMark c then
      let (sign, unsigned) := exponentSign rest
      let (ds, after) := digits unsigned
      if ds.isEmpty then none else some (c :: (sign ++ ds), after)
    else some ([], cs)
  | [] => some ([], cs)

/-- The whole part of an unsigned number: a zero alone, or digits that begin with no zero. -/
def wholePart (cs : List Char) : Except LexicalFault (List Char × List Char) :=
  match cs with
  | '0' :: rest =>
    if rest.head?.any isDigit then .error .leadingZero else .ok (['0'], rest)
  | _ =>
    let (ds, after) := digits cs
    if ds.isEmpty then .error .loneMinus else .ok (ds, after)

/-- Whether a text begins with something that may not follow a number. -/
def runsOn : List Char → Bool
  | c :: _ => c = '.' || isNameStart c
  | [] => false

/-- The number after an optional sign, or why there is none. -/
def unsigned (cs : List Char) : Except LexicalFault Lexeme :=
  match wholePart cs with
  | .error fault => .error fault
  | .ok (whole, afterWhole) =>
    let frac := fraction afterWhole
    match exponent? frac.2 with
    | none => .error .emptyExponent
    | some (exp, rest) =>
      if runsOn rest then .error .numberTail
      else if frac.1.isEmpty && exp.isEmpty then .ok ⟨.int, whole, rest⟩
      else .ok ⟨.float, whole ++ frac.1 ++ exp, rest⟩

/-- The sign at the front of a number, or nothing. -/
def minusSign (cs : List Char) : List Char × List Char :=
  match cs with
  | '-' :: rest => (['-'], rest)
  | _ => ([], cs)

/-- The number at the front of a text that begins with a digit or a minus sign. A minus sign without
digits stands alone; any other malformed number takes the whole run of number characters. -/
def number (cs : List Char) : Lexeme :=
  let (sign, body) := minusSign cs
  match unsigned body with
  | .ok l => { l with text := sign ++ l.text }
  | .error .loneMinus => ⟨.invalid .loneMinus, sign, body⟩
  | .error fault => run (.invalid fault) isNumberRun cs

/-! ### Strings -/

/-- The rest of a string on one line, after its opening quote. A backslash takes the next character
with it, a line end excepted. -/
def stringBody : List Char → Lexeme
  | [] => ⟨.invalid .openString, [], []⟩
  | '"' :: rest => ⟨.string, ['"'], rest⟩
  | '\\' :: c :: rest =>
    if isLineEnd c then ⟨.invalid .brokenString, ['\\'], c :: rest⟩
    else (stringBody rest).cons c |>.cons '\\'
  | c :: rest =>
    if isLineEnd c then ⟨.invalid .brokenString, [], c :: rest⟩
    else (stringBody rest).cons c

/-- The rest of a string between triple quotes, after the opening ones. Triple quotes after a backslash
do not close it. -/
def blockStringBody : List Char → Lexeme
  | [] => ⟨.invalid .openBlockString, [], []⟩
  | '\\' :: '"' :: '"' :: '"' :: rest =>
    (blockStringBody rest).cons '"' |>.cons '"' |>.cons '"' |>.cons '\\'
  | '"' :: '"' :: '"' :: rest => ⟨.blockString, ['"', '"', '"'], rest⟩
  | c :: rest => (blockStringBody rest).cons c

/-- The string at the front of a text, its first quote given. -/
def quote (rest : List Char) : Lexeme :=
  match rest with
  | '"' :: '"' :: body => (blockStringBody body).cons '"' |>.cons '"' |>.cons '"'
  | _ => (stringBody rest).cons '"'

/-! ### Any lexeme -/

/-- The lexeme at the front of a text that begins with the character `c`, which is no separator. -/
def scan (c : Char) (rest : List Char) : Lexeme :=
  match Punctuator.ofChar? c with
  | some p => ⟨.punctuator p, [c], rest⟩
  | none =>
    if c = '#' then (run .comment (fun d ↦ !isLineEnd d) rest).cons c
    else if c = '"' then quote rest
    else if isNameStart c then (run .name isNameContinue rest).cons c
    else if c = '-' || isDigit c then number (c :: rest)
    else ⟨.invalid .strayCharacter, [c], rest⟩

/-! ### Nothing is lost -/

theorem digits_append (cs : List Char) : (digits cs).1 ++ (digits cs).2 = cs :=
  List.takeWhile_append_dropWhile

theorem fraction_append (cs : List Char) : (fraction cs).1 ++ (fraction cs).2 = cs := by
  unfold fraction
  split
  · next rest =>
    have h := digits_append rest
    dsimp only
    split
    · rfl
    · exact congrArg ('.' :: ·) h
  · rfl

theorem exponentSign_append (cs : List Char) :
    (exponentSign cs).1 ++ (exponentSign cs).2 = cs := by
  unfold exponentSign
  split
  · split <;> rfl
  · rfl

theorem exponent?_append {cs exp rest : List Char} (h : exponent? cs = some (exp, rest)) :
    exp ++ rest = cs := by
  unfold exponent? at h
  split at h
  · next c tail =>
    split at h
    · have hs := exponentSign_append tail
      have hd := digits_append (exponentSign tail).2
      dsimp only at h
      split at h
      · cases h
      · cases h
        simp only [List.cons_append, List.append_assoc, hd, hs]
    · cases h
      rfl
  · cases h
    rfl

theorem wholePart_append {cs whole rest : List Char} (h : wholePart cs = .ok (whole, rest)) :
    whole ++ rest = cs := by
  unfold wholePart at h
  split at h
  · split at h
    · cases h
    · cases h
      rfl
  · dsimp only at h
    split at h
    · cases h
    · cases h
      exact digits_append cs

theorem wholePart_ne_nil {cs whole rest : List Char} (h : wholePart cs = .ok (whole, rest)) :
    whole ≠ [] := by
  unfold wholePart at h
  split at h
  · split at h
    · cases h
    · cases h
      simp
  · dsimp only at h
    split at h
    · cases h
    · next hne =>
      cases h
      simpa using hne

/-- A well-formed number is a front of the text, and has at least one digit. -/
theorem unsigned_append {cs : List Char} {l : Lexeme} (h : unsigned cs = .ok l) :
    l.text ++ l.rest = cs ∧ l.text ≠ [] := by
  unfold unsigned at h
  split at h
  · cases h
  · next whole afterWhole hw =>
    have h1 := wholePart_append hw
    have hne := wholePart_ne_nil hw
    have h2 := fraction_append afterWhole
    dsimp only at h
    split at h
    · cases h
    · next exp rest he =>
      have h3 := exponent?_append he
      split at h
      · cases h
      · split at h
        · next hempty =>
          cases h
          simp only [Bool.and_eq_true, List.isEmpty_iff] at hempty
          rw [hempty.2, List.nil_append] at h3
          rw [hempty.1, List.nil_append, ← h3] at h2
          exact ⟨by rw [h2, h1], hne⟩
        · cases h
          refine ⟨?_, by simp [hne]⟩
          rw [List.append_assoc, List.append_assoc, h3, h2, h1]

theorem minusSign_append (cs : List Char) : (minusSign cs).1 ++ (minusSign cs).2 = cs := by
  unfold minusSign
  split <;> rfl

theorem number_append (cs : List Char) : (number cs).text ++ (number cs).rest = cs := by
  have hm := minusSign_append cs
  unfold number
  dsimp only
  split
  · next l hl =>
    dsimp only
    rw [List.append_assoc, (unsigned_append hl).1, hm]
  · exact hm
  · exact List.takeWhile_append_dropWhile

theorem stringBody_append (cs : List Char) :
    (stringBody cs).text ++ (stringBody cs).rest = cs := by
  fun_induction stringBody cs <;> simp_all [cons]

theorem blockStringBody_append (cs : List Char) :
    (blockStringBody cs).text ++ (blockStringBody cs).rest = cs := by
  fun_induction blockStringBody cs <;> simp_all [cons]

theorem quote_append (rest : List Char) :
    (quote rest).text ++ (quote rest).rest = '"' :: rest := by
  unfold quote
  split
  · simp [cons, blockStringBody_append]
  · simp [cons, stringBody_append]

/-- The lexeme and what follows it are the text. -/
theorem scan_append (c : Char) (rest : List Char) :
    (scan c rest).text ++ (scan c rest).rest = c :: rest := by
  unfold scan
  split
  · rfl
  · split
    · simp [run, cons, List.takeWhile_append_dropWhile]
    · split
      · next h => rw [quote_append, h]
      · split
        · simp [run, cons, List.takeWhile_append_dropWhile]
        · split
          · exact number_append _
          · rfl

/-! ### Something is taken -/

theorem wholePart_ne_loneMinus {c : Char} {rest : List Char} (hc : isDigit c) :
    wholePart (c :: rest) ≠ .error .loneMinus := by
  unfold wholePart
  split
  · split <;> simp
  · simp [digits, hc]

theorem unsigned_ne_loneMinus {c : Char} {rest : List Char} (hc : isDigit c) :
    unsigned (c :: rest) ≠ .error .loneMinus := by
  intro h
  unfold unsigned at h
  split at h
  · next hw =>
    cases h
    exact wholePart_ne_loneMinus hc hw
  · dsimp only at h
    split at h
    · cases h
    · split at h
      · cases h
      · split at h <;> cases h

theorem number_text_ne_nil {c : Char} {rest : List Char} (hc : c = '-' ∨ isDigit c) :
    (number (c :: rest)).text ≠ [] := by
  have hrun : isNumberRun c := by
    rcases hc with rfl | hc
    · rfl
    · exact isNumberRun_of_isDigit hc
  unfold number
  dsimp only
  split
  · next l hl => simp [(unsigned_append hl).2]
  · next hl =>
    rcases hc with rfl | hc
    · simp [minusSign]
    · refine absurd ?_ (@unsigned_ne_loneMinus c rest hc)
      rw [← hl]
      unfold minusSign
      split
      · next heq => cases heq; exact absurd hc (by decide)
      · rfl
  · simp [run, hrun]

/-- A lexeme has at least one character. -/
theorem scan_text_ne_nil (c : Char) (rest : List Char) : (scan c rest).text ≠ [] := by
  unfold scan
  split
  · simp
  · split
    · simp [cons]
    · split
      · unfold quote
        split <;> simp [cons]
      · split
        · simp [cons]
        · split
          · next h => exact number_text_ne_nil (by simpa using h)
          · simp

/-- What follows a lexeme is shorter than the text it was cut from. -/
theorem scan_rest_length (c : Char) (rest : List Char) :
    (scan c rest).rest.length < rest.length + 1 := by
  have h := congrArg List.length (scan_append c rest)
  have hne := List.length_pos_iff.2 (scan_text_ne_nil c rest)
  simp only [List.length_append, List.length_cons] at h
  omega

end Lexeme

end TypeSystem
