import TypeSystem.Token.Lexer

/-!
# The lexicon

Which texts are tokens, said without the scanner: `LexemeClass.Admits` holds the texts of each class, and
`LexemeClass.EndsBefore` says which characters may follow a text of the class if the text is to end there.
At the end of the input every text may end, and before the end of a line too.

Scanning and the lexicon agree. A lexeme that is no error is a text of its class and ends where it may
(`scan_sound`), and a text of a class is scanned as such wherever it may end (`scan_complete`). What
follows a token matters by its first character only, so a text may be cut after a token, and continued
after one on a new line.
-/

namespace TypeSystem

open Text

/-! ### Numbers -/

/-- Digits, at least one. -/
def IsDigits (cs : List Char) : Prop :=
  cs ≠ [] ∧ ∀ c ∈ cs, isDigit c

/-- A character of a class, or nothing. -/
def IsOptional (p : Char → Bool) (cs : List Char) : Prop :=
  cs = [] ∨ ∃ c, cs = [c] ∧ p c

/-- The whole part of a number: a zero alone, or digits that begin with no zero. -/
def IsWholePart (cs : List Char) : Prop :=
  cs = ['0'] ∨ IsDigits cs ∧ cs.head? ≠ some '0'

/-- A point and digits, or nothing. -/
def IsFraction (cs : List Char) : Prop :=
  cs = [] ∨ ∃ ds, cs = '.' :: ds ∧ IsDigits ds

/-- A mark, perhaps a sign, and digits, or nothing. -/
def IsExponent (cs : List Char) : Prop :=
  cs = [] ∨ ∃ mark sign ds, cs = mark :: (sign ++ ds) ∧ isExponentMark mark ∧ IsOptional isSign sign ∧
    IsDigits ds

/-! ### Strings -/

/-- The rest of a string on one line, after its opening quote. A backslash stands before one more
character of the line. -/
inductive IsStringBody : List Char → Prop where
  | close : IsStringBody ['"']
  | plain {c : Char} {cs : List Char} (not_quote : c ≠ '"') (not_backslash : c ≠ '\\')
      (same_line : ¬ isLineEnd c) (others : IsStringBody cs) : IsStringBody (c :: cs)
  | escape {c : Char} {cs : List Char} (same_line : ¬ isLineEnd c) (others : IsStringBody cs) :
      IsStringBody ('\\' :: c :: cs)

/-- The rest of a string between triple quotes, after the opening ones. The first triple quotes without a
backslash before them close it. -/
inductive IsBlockStringBody : List Char → Prop where
  | close : IsBlockStringBody ['"', '"', '"']
  | escape {cs : List Char} (others : IsBlockStringBody cs) :
      IsBlockStringBody ('\\' :: '"' :: '"' :: '"' :: cs)
  | plain {c : Char} {cs : List Char} (not_escape : ¬ ['\\', '"', '"', '"'] <+: c :: cs)
      (not_close : ¬ ['"', '"', '"'] <+: c :: cs) (others : IsBlockStringBody cs) :
      IsBlockStringBody (c :: cs)

/-! ### Classes -/

namespace LexemeClass

/-- Whether lexemes of the class are errors. -/
def isInvalid : LexemeClass → Bool
  | invalid _ => true
  | _ => false

/-- The texts of the class. Of what is no token nothing is said. -/
def Admits : LexemeClass → List Char → Prop
  | punctuator p, cs => cs = [p.char]
  | name, cs => ∃ c ds, cs = c :: ds ∧ isNameStart c ∧ ∀ d ∈ ds, isNameContinue d
  | int, cs => ∃ sign whole, cs = sign ++ whole ∧ IsOptional (· = '-') sign ∧ IsWholePart whole
  | float, cs => ∃ sign whole frac exp, cs = sign ++ (whole ++ frac ++ exp) ∧
      IsOptional (· = '-') sign ∧ IsWholePart whole ∧ IsFraction frac ∧ IsExponent exp ∧
      ¬ (frac = [] ∧ exp = [])
  | string, cs => ∃ body, cs = '"' :: body ∧ IsStringBody body
  | blockString, cs => ∃ body, cs = '"' :: '"' :: '"' :: body ∧ IsBlockStringBody body
  | comment, cs => ∃ body, cs = '#' :: body ∧ ∀ c ∈ body, ¬ isLineEnd c
  | invalid _, _ => True

/-- Whether a text of the class may end before a character, or at the end of the input. -/
def EndsBefore (cls : LexemeClass) (cs : List Char) (next : Option Char) : Prop :=
  match cls with
  | name => ∀ c ∈ next, ¬ isNameContinue c
  | int | float => ∀ c ∈ next, ¬ isNameContinue c ∧ c ≠ '.'
  | string => cs = ['"', '"'] → next ≠ some '"'
  | comment => ∀ c ∈ next, isLineEnd c
  | punctuator _ | blockString | invalid _ => True

/-- At the end of a text a token of any class may end. -/
theorem endsBefore_none (cls : LexemeClass) (cs : List Char) : cls.EndsBefore cs none := by
  cases cls <;> simp [EndsBefore]

/-- A token of any class may end before a line end. -/
theorem endsBefore_lineEnd (cls : LexemeClass) (cs : List Char) {c : Char} (hc : isLineEnd c) :
    cls.EndsBefore cs (some c) := by
  have hchar : c = '\n' ∨ c = '\r' := by simpa [isLineEnd] using hc
  cases cls <;> rcases hchar with rfl | rfl <;>
    simp [EndsBefore, isNameContinue, isNameStart, isLetter, isDigit, isLineEnd]

end LexemeClass

namespace Lexeme

/-! ### Runs of one class of characters -/

/-- A run ends where the next character is not of the class. -/
theorem takeWhile_append_of_head? {p : Char → Bool} {cs rest : List Char} (hcs : ∀ c ∈ cs, p c)
    (hrest : ∀ c ∈ rest.head?, ¬ p c) : (cs ++ rest).takeWhile p = cs := by
  have hstop : rest.takeWhile p = [] := by
    cases rest with
    | nil => rfl
    | cons c rest => exact List.takeWhile_cons_of_neg (hrest c rfl)
  rw [List.takeWhile_append_of_pos hcs, hstop, List.append_nil]

/-- What follows the run is what the run ends before. -/
theorem dropWhile_append_of_head? {p : Char → Bool} {cs rest : List Char} (hcs : ∀ c ∈ cs, p c)
    (hrest : ∀ c ∈ rest.head?, ¬ p c) : (cs ++ rest).dropWhile p = rest := by
  rw [List.dropWhile_append_of_pos hcs]
  cases rest with
  | nil => rfl
  | cons c rest => exact List.dropWhile_cons_of_neg (hrest c rfl)

theorem of_mem_takeWhile {p : Char → Bool} {cs : List Char} : ∀ c ∈ cs.takeWhile p, p c := by
  induction cs with
  | nil => simp
  | cons d cs ih =>
    intro c hc
    by_cases hd : p d
    · rw [List.takeWhile_cons_of_pos hd] at hc
      rcases List.mem_cons.1 hc with rfl | hc
      · exact hd
      · exact ih c hc
    · rw [List.takeWhile_cons_of_neg hd] at hc
      cases hc

theorem of_mem_head?_dropWhile {p : Char → Bool} {cs : List Char} :
    ∀ c ∈ (cs.dropWhile p).head?, ¬ p c := by
  intro c hc
  have h := List.head?_dropWhile_not p cs
  rw [hc] at h
  simpa using h

/-! ### Numbers -/

/-- Digits are scanned up to where no digit follows. -/
theorem digits_append_of_head? {ds rest : List Char} (hds : ∀ d ∈ ds, isDigit d)
    (hrest : ∀ c ∈ rest.head?, ¬ isDigit c) : digits (ds ++ rest) = (ds, rest) :=
  Prod.ext (takeWhile_append_of_head? hds hrest) (dropWhile_append_of_head? hds hrest)

theorem isDigits_digits {cs : List Char} (h : (digits cs).1 ≠ []) : IsDigits (digits cs).1 :=
  ⟨h, of_mem_takeWhile⟩

/-- What is scanned as a whole part is one, and no digit follows. -/
theorem wholePart_sound {cs whole rest : List Char} (h : wholePart cs = .ok (whole, rest)) :
    IsWholePart whole ∧ ∀ c ∈ rest.head?, ¬ isDigit c := by
  unfold wholePart at h
  split at h
  · next tail =>
    split at h
    · cases h
    · next hdigit =>
      cases h
      refine ⟨.inl rfl, fun c hc hd ↦ hdigit ?_⟩
      rw [Option.mem_def.1 hc]
      exact hd
  · next hzero =>
    dsimp only at h
    split at h
    · cases h
    · next hne =>
      cases h
      refine ⟨.inr ⟨isDigits_digits (by simpa using hne), fun hhead ↦ ?_⟩, of_mem_head?_dropWhile⟩
      -- the digits begin with the text, and the text begins with no zero
      cases cs with
      | nil => cases hhead
      | cons c cs =>
        by_cases hc : isDigit c
        · rw [digits, List.takeWhile_cons_of_pos hc] at hhead
          exact hzero cs (by rw [Option.some.inj hhead])
        · rw [digits, List.takeWhile_cons_of_neg hc] at hhead
          cases hhead

/-- A whole part that no digit follows is scanned as it is. -/
theorem wholePart_complete {whole rest : List Char} (h : IsWholePart whole)
    (hrest : ∀ c ∈ rest.head?, ¬ isDigit c) : wholePart (whole ++ rest) = .ok (whole, rest) := by
  rcases h with rfl | ⟨⟨hne, hdigits⟩, hzero⟩
  · have hnot : ¬ rest.head?.any isDigit = true := by
      cases hhead : rest.head? with
      | none => simp
      | some c => simpa using hrest c hhead
    rw [List.cons_append, List.nil_append, wholePart, if_neg hnot]
  · unfold wholePart
    split
    · next tail heq =>
      obtain ⟨c, ds, rfl⟩ := List.exists_cons_of_ne_nil hne
      cases heq
      exact absurd rfl hzero
    · rw [digits_append_of_head? hdigits hrest]
      dsimp only
      rw [if_neg (by simpa using hne)]

/-- What is scanned as a fraction is one, or is nothing. -/
theorem fraction_sound (cs : List Char) (hcs : ∀ c ∈ cs.head?, ¬ isDigit c) :
    IsFraction (fraction cs).1 ∧ ∀ c ∈ (fraction cs).2.head?, ¬ isDigit c := by
  unfold fraction
  split
  · next rest =>
    dsimp only
    split
    · exact ⟨.inl rfl, hcs⟩
    · next hne => exact ⟨.inr ⟨_, rfl, isDigits_digits (by simpa using hne)⟩, of_mem_head?_dropWhile⟩
  · exact ⟨.inl rfl, hcs⟩

/-- A fraction is scanned as it is, if neither a digit nor a point follows. An empty one needs the latter. -/
theorem fraction_complete {frac rest : List Char} (h : IsFraction frac)
    (hrest : ∀ c ∈ rest.head?, ¬ isDigit c ∧ c ≠ '.') : fraction (frac ++ rest) = (frac, rest) := by
  rcases h with rfl | ⟨ds, rfl, hne, hdigits⟩
  · cases rest with
    | nil => rfl
    | cons c rest =>
      unfold fraction
      split
      · next heq =>
        cases heq
        exact absurd rfl (hrest '.' rfl).2
      · rfl
  · rw [List.cons_append, fraction, digits_append_of_head? hdigits fun c hc ↦ (hrest c hc).1]
    exact if_neg (by simpa using hne)

theorem exponentSign_sound (cs : List Char) : IsOptional isSign (exponentSign cs).1 := by
  unfold exponentSign
  split
  · next c rest =>
    split
    · next hsign => exact .inr ⟨c, rfl, hsign⟩
    · exact .inl rfl
  · exact .inl rfl

/-- A sign is scanned as it is, if none follows. -/
theorem exponentSign_complete {sign rest : List Char} (h : IsOptional isSign sign)
    (hrest : ∀ c ∈ rest.head?, ¬ isSign c) : exponentSign (sign ++ rest) = (sign, rest) := by
  rcases h with rfl | ⟨c, rfl, hc⟩
  · cases rest with
    | nil => rfl
    | cons c rest => exact if_neg (hrest c rfl)
  · exact if_pos hc

/-- What is scanned as an exponent is one, or is nothing. -/
theorem exponent?_sound {cs exp rest : List Char} (hcs : ∀ c ∈ cs.head?, ¬ isDigit c)
    (h : exponent? cs = some (exp, rest)) : IsExponent exp ∧ ∀ c ∈ rest.head?, ¬ isDigit c := by
  unfold exponent? at h
  split at h
  · next mark tail =>
    split at h
    · next hmark =>
      dsimp only at h
      split at h
      · cases h
      · next hne =>
        cases h
        have hdigits := isDigits_digits (by simpa using hne)
        exact ⟨.inr ⟨mark, _, _, rfl, hmark, exponentSign_sound tail, hdigits⟩, of_mem_head?_dropWhile⟩
    · cases h
      exact ⟨.inl rfl, hcs⟩
  · cases h
    exact ⟨.inl rfl, hcs⟩

theorem not_isSign_of_isDigit {c : Char} (h : isDigit c) : ¬ isSign c := by
  intro hsign
  have hchar : c = '+' ∨ c = '-' := by simpa [isSign] using hsign
  rcases hchar with rfl | rfl <;> exact absurd h (by decide)

/-- An exponent is scanned as it is, if neither a digit nor another mark follows. -/
theorem exponent?_complete {exp rest : List Char} (h : IsExponent exp)
    (hrest : ∀ c ∈ rest.head?, ¬ isDigit c ∧ ¬ isExponentMark c) :
    exponent? (exp ++ rest) = some (exp, rest) := by
  rcases h with rfl | ⟨mark, sign, ds, rfl, hmark, hsign, hne, hdigits⟩
  · cases rest with
    | nil => rfl
    | cons c rest => exact if_neg (hrest c rfl).2
  · have hhead : ∀ c ∈ (ds ++ rest).head?, ¬ isSign c := by
      obtain ⟨d, ds, rfl⟩ := List.exists_cons_of_ne_nil hne
      rintro c ⟨⟩
      exact not_isSign_of_isDigit (hdigits d List.mem_cons_self)
    rw [List.cons_append, exponent?, if_pos hmark, List.append_assoc, exponentSign_complete hsign hhead]
    dsimp only
    rw [digits_append_of_head? hdigits fun c hc ↦ (hrest c hc).1]
    exact if_neg (by simpa using hne)

/-- The class of a number with a given fraction and exponent. -/
def numberClass (frac exp : List Char) : LexemeClass :=
  if frac.isEmpty && exp.isEmpty then .int else .float

/-- A number runs on if it is followed by what could be part of a name, or by a point. -/
theorem runsOn_iff {cs : List Char} (hcs : ∀ c ∈ cs.head?, ¬ isDigit c) :
    ¬ runsOn cs ↔ ∀ c ∈ cs.head?, ¬ isNameContinue c ∧ c ≠ '.' := by
  cases cs with
  | nil => simp [runsOn]
  | cons c cs =>
    have hc : isDigit c = false := by simpa using hcs c rfl
    simp [runsOn, isNameContinue, hc, and_comm]

/-- What is scanned as a number without a sign has its three parts, and nothing runs on behind it. -/
theorem unsigned_sound {cs : List Char} {l : Lexeme} (h : unsigned cs = .ok l) :
    ∃ whole frac exp, l.text = whole ++ frac ++ exp ∧ IsWholePart whole ∧ IsFraction frac ∧
      IsExponent exp ∧ l.cls = numberClass frac exp ∧
      ∀ c ∈ l.rest.head?, ¬ isNameContinue c ∧ c ≠ '.' := by
  unfold unsigned at h
  split at h
  · cases h
  · next whole afterWhole hwhole =>
    obtain ⟨hwhole, hdigit⟩ := wholePart_sound hwhole
    obtain ⟨hfrac, hdigit⟩ := fraction_sound afterWhole hdigit
    dsimp only at h
    split at h
    · cases h
    · next exp rest hexp =>
      obtain ⟨hexp, hdigit⟩ := exponent?_sound hdigit hexp
      split at h
      · cases h
      · next hruns =>
        have hrest := (runsOn_iff hdigit).1 hruns
        split at h
        · next hempty =>
          cases h
          have hboth : (fraction afterWhole).1 = [] ∧ exp = [] := by simpa using hempty
          refine ⟨whole, _, exp, ?_, hwhole, hfrac, hexp, (if_pos hempty).symm, hrest⟩
          rw [hboth.1, hboth.2, List.append_nil, List.append_nil]
        · next hempty =>
          cases h
          exact ⟨whole, _, exp, rfl, hwhole, hfrac, hexp, (if_neg hempty).symm, hrest⟩

/-- Three parts that nothing runs on behind are scanned as a number. -/
theorem unsigned_complete {whole frac exp rest : List Char} (hwhole : IsWholePart whole)
    (hfrac : IsFraction frac) (hexp : IsExponent exp)
    (hrest : ∀ c ∈ rest.head?, ¬ isNameContinue c ∧ c ≠ '.') :
    unsigned (whole ++ frac ++ exp ++ rest) =
      .ok ⟨numberClass frac exp, whole ++ frac ++ exp, rest⟩ := by
  have hnext : ∀ c ∈ rest.head?, ¬ isDigit c ∧ ¬ isNameStart c ∧ c ≠ '.' := by
    intro c hc
    have h := hrest c hc
    simp only [isNameContinue, Bool.or_eq_true, not_or] at h
    exact ⟨h.1.2, h.1.1, h.2⟩
  have hmark : ∀ c ∈ rest.head?, ¬ isDigit c ∧ ¬ isExponentMark c := by
    intro c hc
    refine ⟨(hnext c hc).1, fun hmark ↦ (hnext c hc).2.1 ?_⟩
    have hchar : c = 'e' ∨ c = 'E' := by simpa [isExponentMark] using hmark
    rcases hchar with rfl | rfl <;> rfl
  -- each part ends where the next one begins
  have hafterFrac : ∀ c ∈ (exp ++ rest).head?, ¬ isDigit c ∧ c ≠ '.' := by
    rcases hexp with rfl | ⟨mark, sign, ds, rfl, hmark, -⟩
    · exact fun c hc ↦ ⟨(hnext c hc).1, (hnext c hc).2.2⟩
    · rintro c ⟨⟩
      have hchar : mark = 'e' ∨ mark = 'E' := by simpa [isExponentMark] using hmark
      rcases hchar with rfl | rfl <;> decide
  have hafterWhole : ∀ c ∈ (frac ++ (exp ++ rest)).head?, ¬ isDigit c := by
    rcases hfrac with rfl | ⟨ds, rfl, -⟩
    · exact fun c hc ↦ (hafterFrac c hc).1
    · rintro c ⟨⟩
      decide
  have hruns : ¬ runsOn rest := (runsOn_iff fun c hc ↦ (hnext c hc).1).2 hrest
  rw [List.append_assoc, List.append_assoc, unsigned, wholePart_complete hwhole hafterWhole]
  dsimp only
  rw [fraction_complete hfrac hafterFrac]
  dsimp only
  rw [exponent?_complete hexp hmark]
  dsimp only
  rw [if_neg hruns, numberClass]
  split
  · next hempty =>
    have hboth : frac = [] ∧ exp = [] := by simpa using hempty
    rw [hboth.1, hboth.2, List.append_nil, List.append_nil]
  · rfl

theorem minusSign_sound (cs : List Char) : IsOptional (· = '-') (minusSign cs).1 := by
  unfold minusSign
  split
  · exact .inr ⟨'-', rfl, rfl⟩
  · exact .inl rfl

/-- A minus sign is scanned as it is, if there is none behind it. -/
theorem minusSign_complete {sign body : List Char} (hsign : IsOptional (· = '-') sign)
    (hbody : body.head? ≠ some '-') : minusSign (sign ++ body) = (sign, body) := by
  rcases hsign with rfl | ⟨c, rfl, hc⟩
  · unfold minusSign
    split
    · next heq => exact absurd (by rw [← List.nil_append body, heq]; rfl) hbody
    · rfl
  · have hminus : c = '-' := by simpa using hc
    rw [hminus]
    rfl

/-- The texts of numbers, with or without a fraction or an exponent. -/
theorem admits_numberClass {sign whole frac exp : List Char} (hsign : IsOptional (· = '-') sign)
    (hwhole : IsWholePart whole) (hfrac : IsFraction frac) (hexp : IsExponent exp) :
    (numberClass frac exp).Admits (sign ++ (whole ++ frac ++ exp)) := by
  unfold numberClass
  split
  · next hempty =>
    have hboth : frac = [] ∧ exp = [] := by simpa using hempty
    rw [hboth.1, hboth.2, List.append_nil, List.append_nil]
    exact ⟨sign, whole, rfl, hsign, hwhole⟩
  · next hempty =>
    exact ⟨sign, whole, frac, exp, rfl, hsign, hwhole, hfrac, hexp, by simpa using hempty⟩

/-- Integers and floats may end before the same characters. -/
theorem endsBefore_numberClass {frac exp cs : List Char} {next : Option Char} :
    (numberClass frac exp).EndsBefore cs next ↔ ∀ c ∈ next, ¬ isNameContinue c ∧ c ≠ '.' := by
  unfold numberClass
  split <;> exact Iff.rfl

/-- What is scanned as a number, with a sign or none, is one. -/
theorem number_sound (cs : List Char) (h : ¬ (number cs).cls.isInvalid) :
    (number cs).cls.Admits (number cs).text ∧
      (number cs).cls.EndsBefore (number cs).text (number cs).rest.head? := by
  unfold number at h ⊢
  dsimp only at h ⊢
  split
  · next l hl =>
    obtain ⟨whole, frac, exp, htext, hwhole, hfrac, hexp, hcls, hrest⟩ := unsigned_sound hl
    dsimp only
    rw [htext, hcls]
    exact ⟨admits_numberClass (minusSign_sound cs) hwhole hfrac hexp, endsBefore_numberClass.2 hrest⟩
  · next hl => simp [hl, LexemeClass.isInvalid] at h
  · next hfault hl => simp [hl, run, LexemeClass.isInvalid] at h

/-- A whole part begins with a digit. -/
theorem head?_of_isWholePart {whole : List Char} (h : IsWholePart whole) (rest : List Char) :
    ∃ d, (whole ++ rest).head? = some d ∧ isDigit d := by
  rcases h with rfl | ⟨⟨hne, hdigits⟩, -⟩
  · exact ⟨'0', rfl, rfl⟩
  · obtain ⟨d, ds, rfl⟩ := List.exists_cons_of_ne_nil hne
    exact ⟨d, rfl, hdigits d List.mem_cons_self⟩

/-- A number that nothing runs on behind is scanned as it is. -/
theorem number_complete {sign whole frac exp rest : List Char} (hsign : IsOptional (· = '-') sign)
    (hwhole : IsWholePart whole) (hfrac : IsFraction frac) (hexp : IsExponent exp)
    (hrest : ∀ c ∈ rest.head?, ¬ isNameContinue c ∧ c ≠ '.') :
    number (sign ++ (whole ++ frac ++ exp) ++ rest) =
      ⟨numberClass frac exp, sign ++ (whole ++ frac ++ exp), rest⟩ := by
  have hbody : (whole ++ frac ++ exp ++ rest).head? ≠ some '-' := by
    rw [List.append_assoc, List.append_assoc]
    obtain ⟨d, hd, hdigit⟩ := head?_of_isWholePart hwhole (frac ++ (exp ++ rest))
    rw [hd, Ne, Option.some.injEq]
    rintro rfl
    exact absurd hdigit (by decide)
  rw [List.append_assoc, number, minusSign_complete hsign hbody]
  dsimp only
  rw [unsigned_complete hwhole hfrac hexp hrest]

/-! ### Strings -/

/-- What is scanned as the rest of a string is one, with its closing quote. -/
theorem stringBody_sound (cs : List Char) (h : ¬ (stringBody cs).cls.isInvalid) :
    (stringBody cs).cls = .string ∧ IsStringBody (stringBody cs).text := by
  fun_induction stringBody cs with
  | case1 => simp [LexemeClass.isInvalid] at h
  | case2 rest => exact ⟨rfl, .close⟩
  | case3 c rest hend => simp [LexemeClass.isInvalid] at h
  | case4 c rest hend ih =>
    obtain ⟨hcls, hbody⟩ := ih h
    exact ⟨hcls, .escape hend hbody⟩
  | case5 c rest hquote hescape hend => simp [LexemeClass.isInvalid] at h
  | case6 c rest hquote hescape hend ih =>
    obtain ⟨hcls, hbody⟩ := ih h
    refine ⟨hcls, .plain hquote ?_ hend hbody⟩
    -- a backslash with nothing after it is the end of an open string
    rintro rfl
    cases rest with
    | nil => simp [stringBody, cons, LexemeClass.isInvalid] at h
    | cons d rest => exact hescape d rest rfl rfl

/-- The rest of a string is scanned as it is, whatever follows. -/
theorem stringBody_complete {cs : List Char} (h : IsStringBody cs) (rest : List Char) :
    stringBody (cs ++ rest) = ⟨.string, cs, rest⟩ := by
  induction h with
  | close => rfl
  | @plain c cs hquote hbackslash hend _ ih =>
    rw [List.cons_append, stringBody, if_neg hend, ih]
    · rfl
    · exact hquote
    · exact fun _ _ hc _ ↦ hbackslash hc
  | @escape c cs hend _ ih =>
    rw [List.cons_append, List.cons_append, stringBody, if_neg hend, ih]
    rfl

/-- What is scanned as the rest of a block string is one, with its three closing quotes. -/
theorem blockStringBody_sound (cs : List Char) (h : ¬ (blockStringBody cs).cls.isInvalid) :
    (blockStringBody cs).cls = .blockString ∧ IsBlockStringBody (blockStringBody cs).text := by
  fun_induction blockStringBody cs with
  | case1 => simp [LexemeClass.isInvalid] at h
  | case2 rest ih =>
    obtain ⟨hcls, hbody⟩ := ih h
    exact ⟨hcls, .escape hbody⟩
  | case3 rest => exact ⟨rfl, .close⟩
  | case4 c rest hescape hclose ih =>
    obtain ⟨hcls, hbody⟩ := ih h
    have hrest := blockStringBody_append rest
    refine ⟨hcls, .plain ?_ ?_ hbody⟩
    · rintro ⟨back, hback⟩
      have htext : '"' :: '"' :: '"' :: back = (blockStringBody rest).text := (List.cons.inj hback).2
      rw [← htext] at hrest
      exact hescape _ (List.cons.inj hback).1.symm hrest.symm
    · rintro ⟨back, hback⟩
      have htext : '"' :: '"' :: back = (blockStringBody rest).text := (List.cons.inj hback).2
      rw [← htext] at hrest
      exact hclose _ (List.cons.inj hback).1.symm hrest.symm

/-- The closing quotes are at least three characters. -/
theorem IsBlockStringBody.length {cs : List Char} (h : IsBlockStringBody cs) : 3 ≤ cs.length := by
  induction h with
  | close => decide
  | escape _ ih => simp only [List.length_cons]; omega
  | plain _ _ _ ih => simp only [List.length_cons]; omega

/-- The rest of a block string is scanned as it is, whatever follows. -/
theorem blockStringBody_complete {cs : List Char} (h : IsBlockStringBody cs) (rest : List Char) :
    blockStringBody (cs ++ rest) = ⟨.blockString, cs, rest⟩ := by
  induction h with
  | close => rfl
  | escape _ ih =>
    rw [List.cons_append, List.cons_append, List.cons_append, List.cons_append, blockStringBody, ih]
    rfl
  | @plain c cs hescape hclose hbody ih =>
    have hlength := IsBlockStringBody.length hbody
    have hcons : c :: cs <+: c :: (cs ++ rest) := List.prefix_append (c :: cs) rest
    -- what stands behind the body is too far away to make an escape or a close of its front
    rw [List.cons_append, blockStringBody, ih]
    · rfl
    · intro back hc hback
      have hfront : ['\\', '"', '"', '"'] <+: c :: (cs ++ rest) := ⟨back, by rw [hc, hback]; rfl⟩
      refine hescape (List.prefix_of_prefix_length_le hfront hcons ?_)
      simp only [List.length_cons, List.length_nil]
      omega
    · intro back hc hback
      have hfront : ['"', '"', '"'] <+: c :: (cs ++ rest) := ⟨back, by rw [hc, hback]; rfl⟩
      refine hclose (List.prefix_of_prefix_length_le hfront hcons ?_)
      simp only [List.length_cons, List.length_nil]
      omega

/-- What is scanned behind a quote is a string or a block string. -/
theorem quote_sound (rest : List Char) (h : ¬ (quote rest).cls.isInvalid) :
    (quote rest).cls.Admits (quote rest).text ∧
      (quote rest).cls.EndsBefore (quote rest).text (quote rest).rest.head? := by
  revert h
  unfold quote
  split
  · next body =>
    intro h
    obtain ⟨hcls, hbody⟩ := blockStringBody_sound body h
    simp only [cons, hcls]
    exact ⟨⟨_, rfl, hbody⟩, trivial⟩
  · next hblock =>
    intro h
    have hbody := stringBody_sound rest h
    simp only [cons, hbody.1]
    refine ⟨⟨_, rfl, hbody.2⟩, fun htext hnext ↦ ?_⟩
    -- an empty string with a quote after it would be the start of a block string
    have happend := stringBody_append rest
    obtain ⟨back, hback⟩ := List.head?_eq_some_iff.1 hnext
    rw [hback, (List.cons.inj htext).2] at happend
    exact hblock back happend.symm

/-- A string is scanned as it is. An empty one must not be followed by a quote, since it would open a block
string. -/
theorem quote_complete_string {body rest : List Char} (h : IsStringBody body)
    (hrest : LexemeClass.string.EndsBefore ('"' :: body) rest.head?) :
    quote (body ++ rest) = ⟨.string, '"' :: body, rest⟩ := by
  unfold quote
  split
  · next back heq =>
    cases h with
    | close =>
      have htail : rest = '"' :: back := (List.cons.inj heq).2
      exact absurd (congrArg List.head? htail) (hrest rfl)
    | plain hquote _ _ _ => exact absurd (List.cons.inj heq).1 hquote
    | escape _ _ => cases heq
  · rw [stringBody_complete h rest]
    rfl

/-- A block string is scanned as it is. -/
theorem quote_complete_blockString {body : List Char} (h : IsBlockStringBody body) (rest : List Char) :
    quote ('"' :: '"' :: (body ++ rest)) = ⟨.blockString, '"' :: '"' :: '"' :: body, rest⟩ := by
  rw [quote, blockStringBody_complete h rest]
  rfl

/-! ### Any lexeme -/

theorem ofChar?_eq_none {c : Char} (h : ∀ p : Punctuator, p.char ≠ c) : Punctuator.ofChar? c = none := by
  rw [Punctuator.ofChar?, List.find?_eq_none]
  intro p _ hp
  exact h p (by simpa using hp)

/-- A lexeme that is no error is a text of its class, and ends where such a text may end. -/
theorem scan_sound (c : Char) (rest : List Char) (h : ¬ (scan c rest).cls.isInvalid) :
    (scan c rest).cls.Admits (scan c rest).text ∧
      (scan c rest).cls.EndsBefore (scan c rest).text (scan c rest).rest.head? := by
  -- the case split is that of the scan: punctuators, comments, strings, names, numbers
  unfold scan at h ⊢
  split
  · next p hp => exact ⟨congrArg (fun c ↦ [c]) (Punctuator.char_of_ofChar? hp).symm, trivial⟩
  · next hp =>
    rw [hp] at h
    dsimp only at h
    split
    · next hc =>
      rw [hc]
      refine ⟨⟨_, rfl, fun d hd ↦ ?_⟩, fun d hd ↦ ?_⟩
      · simpa using of_mem_takeWhile d hd
      · simpa using of_mem_head?_dropWhile d hd
    · next hcomment =>
      rw [if_neg hcomment] at h
      split
      · next hc =>
        rw [if_pos hc] at h
        exact quote_sound rest h
      · next hquote =>
        rw [if_neg hquote] at h
        split
        · next hc => exact ⟨⟨c, _, rfl, hc, of_mem_takeWhile⟩, of_mem_head?_dropWhile⟩
        · next hname =>
          rw [if_neg hname] at h
          split
          · next hc =>
            rw [if_pos hc] at h
            exact number_sound (c :: rest) h
          · next hc =>
            rw [if_neg hc] at h
            exact absurd rfl h

/-- What begins as a name is a name for as long as it goes on as one. -/
theorem scan_name {c : Char} (hc : isNameStart c) (rest : List Char) :
    scan c rest = (run .name isNameContinue rest).cons c := by
  have hmark : ∀ p : Punctuator, p.char ≠ c := by
    rintro p rfl
    cases p <;> exact absurd hc (by decide)
  have hcomment : c ≠ '#' := by
    rintro rfl
    exact absurd hc (by decide)
  have hquote : c ≠ '"' := by
    rintro rfl
    exact absurd hc (by decide)
  rw [scan, ofChar?_eq_none hmark]
  dsimp only
  rw [if_neg hcomment, if_neg hquote, if_pos hc]

theorem not_isNameStart_of_isDigit {c : Char} (h : isDigit c) : ¬ isNameStart c := by
  have hle : '0' ≤ c ∧ c ≤ '9' := by simpa [isDigit] using h
  simp only [Char.le_def, UInt32.le_iff_toNat_le] at hle
  have hne : c ≠ '_' := by
    rintro rfl
    exact absurd hle (by decide)
  have hletter : ¬ isLetter c := by
    simp only [isLetter, Bool.or_eq_true, Bool.and_eq_true, decide_eq_true_eq, Char.le_def,
      UInt32.le_iff_toNat_le, Char.reduceVal, UInt32.reduceToNat] at hle ⊢
    omega
  simp [isNameStart, hne, hletter]

/-- What begins with a digit or a minus sign is scanned as a number. -/
theorem scan_number {c : Char} (hc : c = '-' ∨ isDigit c) (rest : List Char) :
    scan c rest = number (c :: rest) := by
  have hnot : ∀ d : Char, d ≠ '-' → ¬ isDigit d → d ≠ c := by
    rintro d hminus hdigit rfl
    exact hc.elim hminus hdigit
  have hmark : ∀ p : Punctuator, p.char ≠ c := by
    intro p
    cases p <;> exact hnot _ (by decide) (by decide)
  have hname : ¬ isNameStart c := by
    rcases hc with rfl | hc
    · decide
    · exact not_isNameStart_of_isDigit hc
  have hnumber : (decide (c = '-') || isDigit c) = true := by simpa using hc
  rw [scan, ofChar?_eq_none hmark]
  dsimp only
  rw [if_neg (hnot '#' (by decide) (by decide)).symm, if_neg (hnot '"' (by decide) (by decide)).symm,
    if_neg hname, if_pos hnumber]

/-- The first character of a number is a minus sign or a digit. -/
theorem head_of_number {c : Char} {sign whole tail cs : List Char} (hsign : IsOptional (· = '-') sign)
    (hwhole : IsWholePart whole) (h : c :: cs = sign ++ (whole ++ tail)) : c = '-' ∨ isDigit c := by
  rcases hsign with rfl | ⟨d, rfl, hd⟩
  · obtain ⟨d, hhead, hdigit⟩ := head?_of_isWholePart hwhole tail
    rw [List.nil_append] at h
    rw [← h] at hhead
    cases hhead
    exact .inr hdigit
  · cases h
    exact .inl (by simpa using hd)

/-- A text of a class is scanned as one, wherever it may end. -/
theorem scan_complete {cls : LexemeClass} {c : Char} {cs rest : List Char} (hcls : ¬ cls.isInvalid)
    (h : cls.Admits (c :: cs)) (hrest : cls.EndsBefore (c :: cs) rest.head?) :
    scan c (cs ++ rest) = ⟨cls, c :: cs, rest⟩ := by
  cases cls with
  | punctuator p =>
    cases h
    rw [scan, Punctuator.ofChar?_char]
    rfl
  | name =>
    obtain ⟨_, ds, heq, hstart, hds⟩ := h
    cases heq
    rw [scan_name hstart, run, takeWhile_append_of_head? hds hrest, dropWhile_append_of_head? hds hrest]
    rfl
  | int =>
    obtain ⟨sign, whole, heq, hsign, hwhole⟩ := h
    have hnumber := number_complete hsign hwhole (.inl rfl) (.inl rfl) hrest
    rw [List.append_nil, List.append_nil, ← heq, List.cons_append] at hnumber
    rw [← List.append_nil whole] at heq
    rw [scan_number (head_of_number hsign hwhole heq), hnumber]
    rfl
  | float =>
    obtain ⟨sign, whole, frac, exp, heq, hsign, hwhole, hfrac, hexp, hne⟩ := h
    have hnumber := number_complete hsign hwhole hfrac hexp hrest
    rw [← heq, List.cons_append] at hnumber
    rw [List.append_assoc] at heq
    have hfloat : numberClass frac exp = .float := if_neg (by simpa using hne)
    -- a fraction or an exponent is what tells the two kinds of numbers apart
    rw [scan_number (head_of_number hsign hwhole heq), hnumber, hfloat]
  | string =>
    obtain ⟨body, heq, hbody⟩ := h
    cases heq
    exact quote_complete_string hbody hrest
  | blockString =>
    obtain ⟨body, heq, hbody⟩ := h
    cases heq
    exact quote_complete_blockString hbody rest
  | comment =>
    obtain ⟨body, heq, hbody⟩ := h
    cases heq
    have hinside : ∀ d ∈ cs, (!isLineEnd d) = true := by simpa using hbody
    have hstop : ∀ d ∈ rest.head?, ¬ (!isLineEnd d) = true := by
      simpa [LexemeClass.EndsBefore] using hrest
    show (run .comment (fun d ↦ !isLineEnd d) (cs ++ rest)).cons '#' = _
    rw [run, takeWhile_append_of_head? hinside hstop, dropWhile_append_of_head? hinside hstop]
    rfl
  | invalid fault => exact absurd rfl hcls

end Lexeme

end TypeSystem
