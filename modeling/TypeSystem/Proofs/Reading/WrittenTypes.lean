import TypeSystem.Proofs.Reading.Productions
import TypeSystem.Proofs.Token.Spelling

/-!
# Type references as they are written

The text of a type reference spells its tokens (`TypeReference.spells_display`), and these are read as the
reference that they were written from, if it has less levels than may be read (`typeReferenceWithin_kinds`).
Its name and its marks must end there: a name before anything that is not part of a name, and a level
without a mark before any token but the mark. With more levels the parser fails behind as many opening
brackets as there may be levels (`typeReferenceWithin_of_brackets`), whatever comes then.

Both results begin at any point of the stream. No depth is kept from one reference to the next.
-/

namespace TypeSystem

open Text

/-! ### The tokens of a reference -/

/-- The mark after a level, as tokens. -/
def Nullability.kinds : Nullability → List TokenKind
  | nonNull => [.punctuator .bang]
  | nullable => []

namespace TypeReference

/-- The tokens that the reference is written as. -/
def kinds : TypeReference → List TokenKind
  | list element n => .punctuator .bracketOpen :: (element.kinds ++ .punctuator .bracketClose :: n.kinds)
  | named name n => .name name :: n.kinds

/-- The mark behind a type says what it allows. -/
theorem nullability_kinds_iff {marks : List TokenKind} {n : Nullability} :
    Phrase.nullability marks n ↔ marks = n.kinds := by
  rw [Phrase.nullability, Phrase.bind_return_iff]
  constructor
  · rintro ⟨_, h | ⟨rfl, rfl⟩, rfl⟩
    · obtain ⟨_, rfl, rfl, rfl⟩ := Phrase.mark_bind_iff.1 h
      rfl
    · rfl
  · rintro rfl
    cases n with
    | nonNull => exact ⟨true, .inl (Phrase.mark_bind_iff.2 ⟨[], rfl, rfl, rfl⟩), rfl⟩
    | nullable => exact ⟨false, .inr ⟨rfl, rfl⟩, rfl⟩

/-- The runs of tokens that are a type reference are those that one is written as. -/
theorem isTypeReference_iff {ts : List TokenKind} {t : TypeReference} :
    Phrase.IsTypeReference ts t ↔ ts = t.kinds := by
  constructor
  · intro h
    induction h with
    | named marked => rw [nullability_kinds_iff.1 marked, kinds]
    | list _ marked ih => rw [nullability_kinds_iff.1 marked, ih, kinds]
  · rintro rfl
    induction t with
    | named name n => exact .named (nullability_kinds_iff.2 rfl)
    | list element n ih => exact .list ih (nullability_kinds_iff.2 rfl)

end TypeReference

/-! ### Reading -/

namespace Parser

variable {e : Position} {rest : List Token}

/-- The mark is read. Where there is none, none may follow. -/
theorem nullability_kinds {n : Nullability} {ts : List Token} (hts : ts.map Token.kind = n.kinds)
    (hrest : n = .nullable → Free {.punctuator .bang} (rest.map Token.kind)) :
    ∃ e', nullability (.after e (ts ++ rest)) = (.ok n, .after e' rest) := by
  cases n with
  | nonNull =>
    obtain ⟨t, rfl, ht⟩ := List.map_eq_singleton_iff.1 hts
    exact ⟨t.span.stop, bind_eq_ok_iff.2 ⟨true, _, (accepts_acceptMark .bang).eq_true ht rest, rfl⟩⟩
  | nullable =>
    obtain rfl := List.map_eq_nil_iff.1 hts
    exact ⟨e, bind_eq_ok_iff.2 ⟨false, _, (accepts_acceptMark .bang).eq_false (by simp) (hrest rfl), rfl⟩⟩

/-- **A reference is read as it is written.** Nothing but a mark can change what it is. -/
theorem typeReferenceWithin_kinds {t : TypeReference} {levels : ℕ} (hlevels : t.depth < levels)
    {ts : List Token} (hts : ts.map Token.kind = t.kinds)
    (hrest : t.nullability = .nullable → Free {.punctuator .bang} (rest.map Token.kind)) :
    ∃ e', typeReferenceWithin levels (.after e (ts ++ rest)) = (.ok t, .after e' rest) := by
  -- induction on the reference; each bracket costs one of the levels
  induction t generalizing levels e ts rest with
  | named name n =>
    obtain ⟨levels, rfl⟩ := Nat.exists_eq_succ_of_ne_zero (Nat.ne_of_gt hlevels)
    obtain ⟨⟨kind, span⟩, marks, rfl, rfl, hmarks⟩ := List.map_eq_cons_iff.1 hts
    obtain ⟨e', hmark⟩ := nullability_kinds (e := span.stop) hmarks hrest
    refine ⟨e', bind_eq_ok_iff.2 ⟨false, _, (accepts_acceptMark .bracketOpen).eq_false (by simp) ?_, ?_⟩⟩
    · exact free_cons.2 (by simp)
    · refine bind_eq_ok_iff.2 ⟨name, .after span.stop (marks ++ rest), rfl, ?_⟩
      exact bind_eq_ok_iff.2 ⟨n, _, hmark, rfl⟩
  | list element n ih =>
    obtain ⟨levels, rfl⟩ := Nat.exists_eq_succ_of_ne_zero (Nat.ne_of_gt (Nat.zero_lt_of_lt hlevels))
    obtain ⟨opening, _, rfl, hopening, hts⟩ := List.map_eq_cons_iff.1 hts
    obtain ⟨inside, _, rfl, hinside, hts⟩ := List.map_eq_append_iff.1 hts
    obtain ⟨closing, marks, rfl, hclosing, hmarks⟩ := List.map_eq_cons_iff.1 hts
    have hfree : Free {.punctuator .bang} ((closing :: (marks ++ rest)).map Token.kind) :=
      free_cons.2 (by simp [hclosing])
    obtain ⟨e₁, helement⟩ := ih (e := opening.span.stop) (Nat.lt_of_succ_lt_succ hlevels) hinside fun _ ↦ hfree
    obtain ⟨e', hmark⟩ := nullability_kinds (e := closing.span.stop) hmarks hrest
    rw [List.cons_append, List.append_assoc, List.cons_append]
    refine ⟨e', bind_eq_ok_iff.2 ⟨true, _, (accepts_acceptMark .bracketOpen).eq_true hopening _, ?_⟩⟩
    refine bind_eq_ok_iff.2 ⟨element, _, helement, ?_⟩
    exact bind_eq_ok_iff.2 ⟨closing, _, requireMark_cons hclosing _ _, bind_eq_ok_iff.2 ⟨n, _, hmark, rfl⟩⟩

/-- **Behind as many brackets as there may be levels no more are read**, whatever comes next. -/
theorem typeReferenceWithin_of_brackets (levels : ℕ) {ts : List Token}
    (hts : ts.map Token.kind = List.replicate levels (.punctuator .bracketOpen)) :
    ∃ e', typeReferenceWithin levels (.after e (ts ++ rest)) =
      (.error (tooManyLevels (TokenStream.after e' rest).current), .after e' rest) := by
  induction levels generalizing e ts with
  | zero =>
    obtain rfl := List.map_eq_nil_iff.1 hts
    exact ⟨e, rfl⟩
  | succ levels ih =>
    obtain ⟨opening, ts, rfl, hopening, hts⟩ := List.map_eq_cons_iff.1 hts
    obtain ⟨e', hdeep⟩ := ih (e := opening.span.stop) hts
    refine ⟨e', bind_eq_error_iff.2 (.inr ⟨true, _, (accepts_acceptMark .bracketOpen).eq_true hopening _, ?_⟩)⟩
    exact bind_eq_error_iff.2 (.inl hdeep)

end Parser

/-! ### Spelling -/

namespace Token

variable {next : Option Char} {back : List Char} {kinds : List TokenKind}

theorem chars_punctuator (p : Punctuator) : (TokenKind.punctuator p).chars = [p.char] := by
  cases p <;> rfl

theorem isWellFormed_punctuator (p : Punctuator) : (TokenKind.punctuator p).IsWellFormed :=
  ⟨.punctuator p, rfl, chars_punctuator p⟩

/-- A punctuator may stand before anything. -/
theorem Spells.punctuator (p : Punctuator) (h : Spells next back kinds) :
    Spells next (p.char :: back) (.punctuator p :: kinds) := by
  have hends : ∀ cls ∈ (TokenKind.punctuator p).lexemeClass?,
      cls.EndsBefore (TokenKind.punctuator p).chars (back.head?.or next) := by
    rintro _ ⟨⟩
    trivial
  have hspells := @Spells.token next [] back _ kinds (by simp) (isWellFormed_punctuator p) hends h
  rwa [chars_punctuator] at hspells

/-- The mark is spelled as it is. -/
theorem spells_mark (n : Nullability) (h : Spells next back kinds) :
    Spells next (n.mark.toList ++ back) (n.kinds ++ kinds) := by
  cases n with
  | nonNull => exact h.punctuator .bang
  | nullable => exact h

/-- The text of a reference spells its tokens, unless its name goes on in what follows. -/
theorem spells_display {t : TypeReference} (hname : LexemeClass.name.Admits t.innermostName.toList)
    (hends : ∀ name, t = .named name .nullable → ∀ c ∈ back.head?.or next, ¬ isNameContinue c)
    (h : Spells next back kinds) : Spells next (t.display.toList ++ back) (t.kinds ++ kinds) := by
  induction t generalizing back kinds with
  | named name n =>
    have hnameEnds : ∀ cls ∈ (TokenKind.name name).lexemeClass?,
        cls.EndsBefore (TokenKind.name name).chars ((n.mark.toList ++ back).head?.or next) := by
      rintro _ ⟨⟩
      cases n with
      | nonNull =>
        rintro c ⟨⟩
        decide
      | nullable => exact hends name rfl
    have hspells := @Spells.token next [] _ (.name name) _ (by simp) ⟨.name, rfl, hname⟩ hnameEnds (spells_mark n h)
    simpa [TypeReference.display, TypeReference.kinds, TokenKind.chars, TokenKind.written?] using hspells
  | list element n ih =>
    have hclosing := (spells_mark n h).punctuator .bracketClose
    have hinside := ih hname (fun _ _ ↦ by rintro c ⟨⟩; decide) hclosing
    simpa [TypeReference.display, TypeReference.kinds, Punctuator.char] using hinside.punctuator .bracketOpen

end Token

end TypeSystem
