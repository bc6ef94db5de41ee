import TypeSystem.Proofs.Token.Places

/-!
# Numbers and numerals

Where a text begins with a minus sign or a digit, it may begin with a numeral (`IsNumeral`), and then with one
that is longest. That numeral is the token there if what follows it may follow a number
(`IsLongestNumeral`, `MayFollowNumeral`); otherwise the token is an error, and never a shorter number
(`Token.number_is_longest_numeral`).

Being longest is not looked for by the scanner, which goes from part to part and decides by one or two
characters. It comes for nothing: where a numeral has behind it what may follow a number, it is scanned
(`Lexeme.number_complete`), so a longer numeral with it in front would be scanned as itself and as that
numeral.
-/

namespace TypeSystem

open Text

/-! ### Numerals -/

/-- A numeral: perhaps a minus sign, a whole part, and perhaps a fraction and an exponent. -/
def IsNumeral (cs : List Char) : Prop :=
  ∃ sign whole frac exp, cs = sign ++ (whole ++ frac ++ exp) ∧ IsOptional (· = '-') sign ∧
    IsWholePart whole ∧ IsFraction frac ∧ IsExponent exp

/-- Of the numerals at the front of a text, the longest. -/
structure IsLongestNumeral (m cs : List Char) : Prop where
  at_front : m <+: cs
  isNumeral : IsNumeral m
  longest : ∀ m', m' <+: cs → IsNumeral m' → m'.length ≤ m.length

/-- What may follow a number: the end of the input, or a character that is no digit, point, underscore or
letter. -/
def MayFollowNumeral (rest : List Char) : Prop :=
  ∀ c ∈ rest.head?, ¬ (isDigit c ∨ c = '.' ∨ c = '_' ∨ isLetter c)

/-- Whether there is a mark of a fraction or an exponent in a text. -/
def HasMark (m : List Char) : Prop :=
  '.' ∈ m ∨ 'e' ∈ m ∨ 'E' ∈ m

instance (m : List Char) : Decidable (HasMark m) :=
  inferInstanceAs (Decidable (_ ∨ _ ∨ _))

/-- What a numeral is as a token: a number with a fraction or an exponent, or a whole number. -/
def numeralKind (m : List Char) : TokenKind :=
  if HasMark m then .float (String.ofList m) else .int (String.ofList m)

/-- A numeral may end before anything but a letter, a digit, an underscore or a point. -/
theorem mayFollowNumeral_iff {rest : List Char} :
    MayFollowNumeral rest ↔ ∀ c ∈ rest.head?, ¬ isNameContinue c ∧ c ≠ '.' := by
  refine forall₂_congr fun c _ ↦ ?_
  simp only [isNameContinue, isNameStart, Bool.or_eq_true, decide_eq_true_eq]
  tauto

theorem IsNumeral.ne_nil {m : List Char} (h : IsNumeral m) : m ≠ [] := by
  obtain ⟨sign, whole, frac, exp, rfl, -, hwhole, -, -⟩ := h
  obtain ⟨d, hd, -⟩ := Lexeme.head?_of_isWholePart hwhole []
  rintro heq
  simp only [List.append_eq_nil_iff] at heq
  rw [heq.2.1.1] at hd
  cases hd

namespace Lexeme

/-! ### Marks of a fraction or an exponent -/

/-- Digits, and a minus sign before them, are no marks. -/
theorem not_mark_of_mem {sign whole : List Char} (hsign : IsOptional (· = '-') sign)
    (hwhole : IsWholePart whole) {c : Char} (hc : c ∈ sign ++ whole) : c ≠ '.' ∧ c ≠ 'e' ∧ c ≠ 'E' := by
  have hchar : c = '-' ∨ isDigit c := by
    rcases List.mem_append.1 hc with hc | hc
    · rcases hsign with rfl | ⟨d, rfl, hd⟩
      · cases hc
      · obtain rfl := List.mem_singleton.1 hc
        exact .inl (by simpa using hd)
    · rcases hwhole with rfl | ⟨⟨-, hdigits⟩, -⟩
      · obtain rfl := List.mem_singleton.1 hc
        exact .inr rfl
      · exact .inr (hdigits c hc)
  refine ⟨?_, ?_, ?_⟩ <;> rintro rfl <;> exact absurd hchar (by decide)

/-- A numeral has a fraction or an exponent exactly if it has a mark of one in it. -/
theorem hasMark_iff {sign whole frac exp : List Char} (hsign : IsOptional (· = '-') sign)
    (hwhole : IsWholePart whole) (hfrac : IsFraction frac) (hexp : IsExponent exp) :
    HasMark (sign ++ (whole ++ frac ++ exp)) ↔ ¬ (frac = [] ∧ exp = []) := by
  constructor
  · rintro hmark ⟨rfl, rfl⟩
    rw [List.append_nil, List.append_nil] at hmark
    rcases hmark with hmark | hmark | hmark
    · exact (not_mark_of_mem hsign hwhole hmark).1 rfl
    · exact (not_mark_of_mem hsign hwhole hmark).2.1 rfl
    · exact (not_mark_of_mem hsign hwhole hmark).2.2 rfl
  · intro hne
    rcases hfrac with rfl | ⟨ds, rfl, -⟩
    · rcases hexp with rfl | ⟨mark, esign, ds, rfl, hmark, -, -⟩
      · exact absurd ⟨rfl, rfl⟩ hne
      · have hchar : mark = 'e' ∨ mark = 'E' := by simpa [isExponentMark] using hmark
        rcases hchar with rfl | rfl <;> simp [HasMark]
    · simp [HasMark]

/-- The class of a numeral is that of the token it is. -/
theorem tokenKind_numberClass {sign whole frac exp rest : List Char} (hsign : IsOptional (· = '-') sign)
    (hwhole : IsWholePart whole) (hfrac : IsFraction frac) (hexp : IsExponent exp) (start : Position) :
    (⟨numberClass frac exp, sign ++ (whole ++ frac ++ exp), rest⟩ : Lexeme).tokenKind start =
      numeralKind (sign ++ (whole ++ frac ++ exp)) := by
  have hiff := hasMark_iff hsign hwhole hfrac hexp
  by_cases hnone : frac = [] ∧ exp = []
  · have hclass : numberClass frac exp = .int := if_pos (by simpa using hnone)
    rw [numeralKind, if_neg fun hmark ↦ hiff.1 hmark hnone, hclass]
    rfl
  · have hclass : numberClass frac exp = .float := if_neg (by simpa using hnone)
    rw [numeralKind, if_pos (hiff.2 hnone), hclass]
    rfl

/-! ### Scanning numerals -/

/-- A numeral is scanned wherever it has behind it what may follow a number. -/
theorem exists_number_eq {m rest : List Char} (hm : IsNumeral m) (hrest : MayFollowNumeral rest) :
    ∃ cls, number (m ++ rest) = ⟨cls, m, rest⟩ ∧
      ∀ start, (⟨cls, m, rest⟩ : Lexeme).tokenKind start = numeralKind m := by
  obtain ⟨sign, whole, frac, exp, rfl, hsign, hwhole, hfrac, hexp⟩ := hm
  exact ⟨numberClass frac exp, number_complete hsign hwhole hfrac hexp (mayFollowNumeral_iff.1 hrest),
    tokenKind_numberClass hsign hwhole hfrac hexp⟩

/-- What is scanned as a number is a numeral with behind it what may follow a number. -/
theorem isNumeral_of_number {cs : List Char} (h : ¬ (number cs).cls.isInvalid) :
    IsNumeral (number cs).text ∧ MayFollowNumeral (number cs).rest := by
  unfold number at h ⊢
  dsimp only at h ⊢
  split
  · next l hl =>
    obtain ⟨whole, frac, exp, htext, hwhole, hfrac, hexp, -, hrest⟩ := unsigned_sound hl
    dsimp only
    rw [htext]
    exact ⟨⟨_, whole, frac, exp, rfl, minusSign_sound cs, hwhole, hfrac, hexp⟩,
      mayFollowNumeral_iff.2 hrest⟩
  · next hl => simp [hl, LexemeClass.isInvalid] at h
  · next hl => simp [hl, run, LexemeClass.isInvalid] at h

/-- No longer numeral begins where a numeral has behind it what may follow a number. -/
theorem isLongestNumeral_of_mayFollow {m rest : List Char} (hm : IsNumeral m) (hrest : MayFollowNumeral rest) :
    IsLongestNumeral m (m ++ rest) := by
  refine ⟨List.prefix_append _ _, hm, fun m' hprefix hm' ↦ ?_⟩
  rcases List.prefix_or_prefix_of_prefix (List.prefix_append m rest) hprefix with ⟨more, rfl⟩ | hshorter
  · obtain ⟨rest', hrest'⟩ := (List.prefix_append_right_inj m).1 hprefix
    -- what stands behind the shorter one within the longer one may follow a number
    have hmore : MayFollowNumeral more := by
      intro c hc
      refine hrest c ?_
      rw [← hrest', List.head?_append, hc]
      rfl
    obtain ⟨cls, hscan, -⟩ := exists_number_eq hm hmore
    have hend : MayFollowNumeral [] := by simp [MayFollowNumeral]
    obtain ⟨cls', hscan', -⟩ := exists_number_eq hm' hend
    rw [List.append_nil, hscan] at hscan'
    exact (congrArg (fun l ↦ l.text.length) hscan').ge
  · exact hshorter.length_le

end Lexeme

/-! ### Tokens -/

namespace Token

variable {text : String} {t : Token}

/-- A token is the end of the input, or it is made of the lexeme that is scanned where it starts. -/
theorem exists_scan_of_mem_lexFrom {front cs : List Char} (ht : t ∈ lexFrom (Place.origin.past front) cs) :
    t = endAt (Place.origin.past (front ++ cs)).pos ∨
      ∃ before c rest, front ++ cs = before ++ c :: rest ∧
        t = ⟨(Lexeme.scan c rest).tokenKind (Place.origin.past before).pos,
          ⟨(Place.origin.past before).pos, (Place.origin.past (before ++ (Lexeme.scan c rest).text)).pos,
            none⟩⟩ := by
  generalize hplace : Place.origin.past front = place at ht
  induction place, cs using lex_induction generalizing front with
  | last place gap hgap =>
    subst hplace
    rw [lexFrom_ignored hgap, List.mem_singleton, ← Place.past_append] at ht
    exact .inl ht
  | token place gap c rest hgap hc ih =>
    subst hplace
    have hstop : ((Place.origin.past front).past gap).past (Lexeme.scan c rest).text =
        Place.origin.past (front ++ gap ++ (Lexeme.scan c rest).text) := by
      rw [Place.past_append, Place.past_append]
    have htext : front ++ gap ++ (Lexeme.scan c rest).text ++ (Lexeme.scan c rest).rest =
        front ++ (gap ++ c :: rest) := by
      rw [List.append_assoc, Lexeme.scan_append, List.append_assoc]
    rw [lexFrom_append hgap hc, List.mem_cons, hstop, ← Place.past_append] at ht
    rw [hstop] at ih
    rcases ht with ht | ht
    · exact .inr ⟨front ++ gap, c, rest, (List.append_assoc _ _ _).symm, ht⟩
    · exact htext ▸ ih rfl ht

/-- Two fronts of one text that are as many bytes are one. -/
theorem front_eq_of_width_eq {front front' back back' : List Char} (h : front ++ back = front' ++ back')
    (hwidth : width front = width front') : front = front' := by
  have hcut := splitBytes?_append front back
  rw [h, hwidth, splitBytes?_append front' back'] at hcut
  exact (congrArg Prod.fst (Option.some.inj hcut)).symm

/-- A token that starts where more of the text is to come is made of the lexeme that is scanned there. -/
theorem eq_of_mem_lex {before rest : List Char} {c : Char} (ht : t ∈ lex text)
    (htext : text.toList = before ++ c :: rest) (hstart : t.span.start.offset = width before) :
    t = ⟨(Lexeme.scan c rest).tokenKind (Place.origin.past before).pos,
      ⟨(Place.origin.past before).pos, (Place.origin.past (before ++ (Lexeme.scan c rest).text)).pos,
        none⟩⟩ := by
  have hoffset (front : List Char) : (Place.origin.past front).pos.offset = width front := by
    rw [Place.offset_past]
    exact Nat.zero_add _
  have hmem : t ∈ lexFrom (Place.origin.past []) text.toList := ht
  rcases exists_scan_of_mem_lexFrom hmem with rfl | ⟨before', c', rest', htext', rfl⟩
  · -- the end of the input does not start before it
    have hend : width text.toList = width before := (hoffset _).symm.trans hstart
    rw [htext, width_append] at hend
    have := width_pos (List.cons_ne_nil c rest)
    omega
  · rw [List.nil_append, htext] at htext'
    obtain rfl := front_eq_of_width_eq htext' (hstart.symm.trans (hoffset before'))
    cases List.append_cancel_left htext'
    rfl

/-- **Numbers are the longest numerals.** Where a token starts with a minus sign or a digit, let `m` be the
longest numeral there. If what follows it may follow a number, the token is `m`: a number with a fraction or
an exponent if it has a mark of one in it, otherwise a whole number. In any other case, also where there is no
numeral, the token is an error. -/
theorem number_is_longest_numeral {before rest : List Char} {c : Char} (ht : t ∈ lex text)
    (htext : text.toList = before ++ c :: rest) (hstart : t.span.start.offset = width before)
    (hc : c = '-' ∨ isDigit c) :
    (∀ m back, c :: rest = m ++ back → IsLongestNumeral m (c :: rest) → MayFollowNumeral back →
      t = ⟨numeralKind m, ⟨(Place.origin.past before).pos, (Place.origin.past (before ++ m)).pos, none⟩⟩) ∧
    ((∀ m back, c :: rest = m ++ back → IsLongestNumeral m (c :: rest) → ¬ MayFollowNumeral back) →
      t.kind.sort = .invalid) := by
  rw [eq_of_mem_lex ht htext hstart, Lexeme.scan_number hc]
  refine ⟨fun m back hback hm hfollow ↦ ?_, fun hnone ↦ ?_⟩
  · obtain ⟨cls, hscan, hkind⟩ := Lexeme.exists_number_eq hm.isNumeral hfollow
    rw [hback, hscan, hkind]
  · -- if it were no error, what has been scanned would be the longest numeral
    refine not_not.1 fun hvalid ↦ ?_
    have hclass : ¬ (Lexeme.number (c :: rest)).cls.isInvalid := (Lexeme.isValid_tokenKind_iff _ _).1 hvalid
    obtain ⟨hm, hfollow⟩ := Lexeme.isNumeral_of_number hclass
    have hback := Lexeme.number_append (c :: rest)
    have hlongest := Lexeme.isLongestNumeral_of_mayFollow hm hfollow
    rw [hback] at hlongest
    exact hnone _ _ hback.symm hlongest hfollow

/-- A numeral with all its parts, and one that a point keeps from being a number. -/
theorem number_is_longest_numeral_before_point :
    (⟨.float "-0.5e7", ⟨⟨0, 1, 1, 1⟩, ⟨0, 7, 7, 7⟩, none⟩⟩ : Token) ∈ lex ",-0.5e7 1.e5" ∧
      IsLongestNumeral ['-', '0', '.', '5', 'e', '7'] ['-', '0', '.', '5', 'e', '7', ' ', '1', '.', 'e', '5'] ∧
      numeralKind ['-', '0', '.', '5', 'e', '7'] = .float "-0.5e7" ∧
      IsNumeral ['1'] ∧ ∃ t ∈ lex ",-0.5e7 1.e5", t.span.start.offset = 8 ∧ t.kind.sort = .invalid := by
  have htext : ",-0.5e7 1.e5".toList =
      [',', '-', '0', '.', '5', 'e', '7', ' ', '1', '.', 'e', '5'] := by
    rw [show ",-0.5e7 1.e5" = String.ofList _ from rfl, String.toList_ofList]
  have hfloat : (lex ",-0.5e7 1.e5")[0]? =
      some ⟨.float "-0.5e7", ⟨⟨0, 1, 1, 1⟩, ⟨0, 7, 7, 7⟩, none⟩⟩ := by
    decide +kernel
  have hsecond : ((lex ",-0.5e7 1.e5")[1]?).map (fun t ↦ t.span.start.offset) = some 8 := by
    decide +kernel
  obtain ⟨t, ht, hoffset⟩ := Option.map_eq_some_iff.1 hsecond
  have hdigits {d : Char} (hd : isDigit d) : IsDigits [d] := ⟨by simp, List.forall_mem_singleton.2 hd⟩
  have hnumeral : IsNumeral ['-', '0', '.', '5', 'e', '7'] :=
    ⟨['-'], ['0'], ['.', '5'], ['e', '7'], rfl, .inr ⟨'-', rfl, rfl⟩, .inl rfl,
      .inr ⟨['5'], rfl, hdigits rfl⟩, .inr ⟨'e', [], ['7'], rfl, rfl, .inl rfl, hdigits rfl⟩⟩
  have hfollow : MayFollowNumeral [' ', '1', '.', 'e', '5'] := by
    rintro c ⟨⟩
    decide
  have hlongest := Lexeme.isLongestNumeral_of_mayFollow hnumeral hfollow
  refine ⟨List.mem_of_getElem? hfloat, hlongest, ?_, ?_, t, List.mem_of_getElem? ht, hoffset, ?_⟩
  · have hbefore : ",-0.5e7 1.e5".toList = [','] ++ '-' :: ['0', '.', '5', 'e', '7', ' ', '1', '.', 'e', '5'] :=
      htext
    have hread := number_is_longest_numeral (List.mem_of_getElem? hfloat) hbefore rfl (.inl rfl)
    exact (congrArg Token.kind (hread.1 _ _ rfl hlongest hfollow)).symm
  · exact ⟨[], ['1'], [], [], rfl, .inl rfl, .inr ⟨hdigits rfl, by decide⟩, .inl rfl, .inl rfl⟩
  · have hbefore : ",-0.5e7 1.e5".toList = [',', '-', '0', '.', '5', 'e', '7', ' '] ++ '1' :: ['.', 'e', '5'] :=
      htext
    have hread := number_is_longest_numeral (List.mem_of_getElem? ht) hbefore hoffset (.inr rfl)
    refine hread.2 fun m back hback hm hfollow ↦ ?_
    -- a number would have been scanned
    obtain ⟨cls, hscan, hkind⟩ := Lexeme.exists_number_eq hm.isNumeral hfollow
    have hinvalid : (Lexeme.number ['1', '.', 'e', '5']).cls = .invalid .numberTail := rfl
    rw [hback, hscan] at hinvalid
    obtain rfl : cls = .invalid .numberTail := hinvalid
    have hsort := congrArg TokenKind.sort (hkind .origin)
    rw [numeralKind] at hsort
    split at hsort <;> cases hsort

end Token

end TypeSystem
