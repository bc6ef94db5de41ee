import TypeSystem.Proofs.Reading.Citing
import TypeSystem.Proofs.Text.EditDistance
import TypeSystem.Reading.Source

/-!
# Suggested locations

A name that stands where a location is to come, and is none, is answered with the nearest location: the one
that the fewest edits of the name in upper case lead to, if there are no more than three of them, and the first
of those equally near (`DirectiveLocation.IsNearest`). This is so wherever a location is read, and in every
error of a text that is about a location (`nearest_location_is_suggested`).

Names hold ASCII characters only, so that upper case goes character by character.
-/

namespace TypeSystem

open Text

namespace DirectiveLocation

/-! ### The first of the least -/

section FirstLeast

variable {α : Type} {measure : α → ℕ} {as : List α} {a x : α}

/-- What comes before in the list measures more, and what comes after no less. -/
def IsFirstLeast (measure : α → ℕ) (as : List α) (a : α) : Prop :=
  ∃ before after, as = before ++ a :: after ∧ (∀ b ∈ before, measure a < measure b) ∧
    ∀ b ∈ after, measure a ≤ measure b

/-- Nothing is least in an empty list. -/
theorem not_isFirstLeast_nil : ¬ IsFirstLeast measure [] a := by
  rintro ⟨before, after, heq, -⟩
  exact List.append_ne_nil_of_right_ne_nil before (List.cons_ne_nil a after) heq.symm

/-- The first entry comes first, or it measures more than the one that does. -/
theorem isFirstLeast_cons : IsFirstLeast measure (x :: as) a ↔
    (a = x ∧ ∀ b ∈ as, measure x ≤ measure b) ∨ measure a < measure x ∧ IsFirstLeast measure as a := by
  constructor
  · rintro ⟨_ | ⟨y, before⟩, after, heq, hbefore, hafter⟩
    · obtain ⟨rfl, rfl⟩ := List.cons.inj heq
      exact .inl ⟨rfl, hafter⟩
    · obtain ⟨rfl, rfl⟩ := List.cons.inj heq
      exact .inr ⟨hbefore x List.mem_cons_self, before, after, rfl,
        fun b hb ↦ hbefore b (List.mem_cons_of_mem _ hb), hafter⟩
  · rintro (⟨rfl, hafter⟩ | ⟨hlt, before, after, rfl, hbefore, hafter⟩)
    · exact ⟨[], as, rfl, by simp, hafter⟩
    · exact ⟨x :: before, after, rfl, List.forall_mem_cons.2 ⟨hlt, hbefore⟩, hafter⟩

/-- What is least is at most any other. -/
theorem IsFirstLeast.le (h : IsFirstLeast measure as a) {b : α} (hb : b ∈ as) : measure a ≤ measure b := by
  obtain ⟨before, after, rfl, hbefore, hafter⟩ := h
  rcases List.mem_append.1 hb with hb | hb
  · exact (hbefore b hb).le
  · rcases List.mem_cons.1 hb with rfl | hb
    · exact le_rfl
    · exact hafter b hb

theorem IsFirstLeast.mem (h : IsFirstLeast measure as a) : a ∈ as := by
  obtain ⟨before, after, rfl, -⟩ := h
  exact List.mem_append_right _ List.mem_cons_self

/-- The search gives the first of the least. -/
theorem firstLeast_eq_some_iff : firstLeast measure as = some a ↔ IsFirstLeast measure as a := by
  induction as generalizing a with
  | nil => exact ⟨fun h ↦ (by cases h), fun h ↦ absurd h not_isFirstLeast_nil⟩
  | cons x as ih =>
    rw [isFirstLeast_cons, firstLeast]
    cases hothers : firstLeast measure as with
    | none =>
      obtain rfl := firstLeast_eq_none_iff.1 hothers
      simp [not_isFirstLeast_nil, eq_comm]
    | some b =>
      have hb := ih.1 hothers
      have hsame : IsFirstLeast measure as a ↔ b = a := by rw [← ih, hothers, Option.some.injEq]
      have hall : (∀ c ∈ as, measure x ≤ measure c) ↔ measure x ≤ measure b :=
        ⟨fun h ↦ h b hb.mem, fun h c hc ↦ h.trans (hb.le hc)⟩
      rw [hsame, hall]
      -- of two that measure the same the first is kept
      by_cases hle : measure x ≤ measure b
      · simp only [hle, if_true, Option.some.injEq, and_true]
        constructor
        · exact fun h ↦ .inl h.symm
        · rintro (rfl | ⟨hlt, rfl⟩)
          · rfl
          · exact absurd hle (Nat.not_le.2 hlt)
      · simp only [hle, if_false, Option.some.injEq, and_false, false_or]
        exact ⟨fun h ↦ ⟨h ▸ Nat.not_le.1 hle, h⟩, And.right⟩

/-- What measures too much does not matter. -/
theorem isFirstLeast_filter (most : ℕ) : IsFirstLeast measure (as.filter fun b ↦ measure b ≤ most) a ↔
    measure a ≤ most ∧ IsFirstLeast measure as a := by
  induction as with
  | nil => exact ⟨fun h ↦ absurd h not_isFirstLeast_nil, fun h ↦ absurd h.2 not_isFirstLeast_nil⟩
  | cons x as ih =>
    rw [isFirstLeast_cons]
    by_cases hx : measure x ≤ most
    · have hall : (∀ b ∈ as.filter fun b ↦ measure b ≤ most, measure x ≤ measure b) ↔
          ∀ b ∈ as, measure x ≤ measure b := by
        refine ⟨fun h b hb ↦ ?_, fun h b hb ↦ h b (List.mem_of_mem_filter hb)⟩
        by_cases hmost : measure b ≤ most
        · exact h b (List.mem_filter.2 ⟨hb, by simpa using hmost⟩)
        · omega
      rw [List.filter_cons_of_pos (by simpa using hx), isFirstLeast_cons, ih, hall]
      constructor
      · rintro (⟨rfl, h⟩ | ⟨hlt, hmost, h⟩)
        · exact ⟨hx, .inl ⟨rfl, h⟩⟩
        · exact ⟨hmost, .inr ⟨hlt, h⟩⟩
      · rintro ⟨hmost, h | ⟨hlt, h⟩⟩
        · exact .inl h
        · exact .inr ⟨hlt, hmost, h⟩
    · rw [List.filter_cons_of_neg (by simpa using hx), ih]
      refine and_congr_right fun hmost ↦ ⟨fun h ↦ .inr ⟨by omega, h⟩, ?_⟩
      rintro (⟨rfl, -⟩ | ⟨-, h⟩)
      · exact absurd hmost hx
      · exact h

end FirstLeast

/-! ### Nearest locations -/

/-- No more than three edits lead from a text to the location. More lead to any location before it in the order
of the grammar, and no fewer to any location after it. -/
def IsNearest (text : List Char) (location : DirectiveLocation) : Prop :=
  ∃ edits : DirectiveLocation → ℕ, (∀ other, IsLeast {n | Edits n text other.name.toList} (edits other)) ∧
    edits location ≤ 3 ∧ IsFirstLeast edits all location

/-- The nearest location is one within the limit, the first of those at least distance. -/
theorem isNearest_iff {text : String} {location : DirectiveLocation} :
    IsNearest (upperCase text.toList) location ↔
      distanceFrom text location ≤ 3 ∧ IsFirstLeast (distanceFrom text) all location := by
  have hleast (other : DirectiveLocation) :
      IsLeast {n | Edits n (upperCase text.toList) other.name.toList} (distanceFrom text other) :=
    isLeast_editDistance _ _
  constructor
  · rintro ⟨edits, hedits, h⟩
    obtain rfl : edits = distanceFrom text := funext fun other ↦ (hedits other).unique (hleast other)
    exact h
  · exact fun h ↦ ⟨distanceFrom text, hleast, h⟩

/-- What is suggested is the nearest location. -/
theorem suggestion?_eq_some_iff {text : String} {location : DirectiveLocation} :
    suggestion? text = some location ↔ IsNearest (upperCase text.toList) location := by
  rw [suggestion?, firstLeast_eq_some_iff, isNearest_iff]
  exact isFirstLeast_filter maxDistance

/-- Something is suggested if any location is near. -/
theorem suggestion?_isSome_iff {text : String} : (suggestion? text).isSome ↔
    ∃ location : DirectiveLocation, ∃ n ≤ 3, Edits n (upperCase text.toList) location.name.toList := by
  rw [Option.isSome_iff_ne_none, suggestion?, Ne, firstLeast_eq_none_iff, List.filter_eq_nil_iff]
  push Not
  constructor
  · rintro ⟨location, -, hnear⟩
    exact ⟨location, distanceFrom text location, of_decide_eq_true hnear, (isLeast_editDistance _ _).1⟩
  · rintro ⟨location, n, hn, hedits⟩
    exact ⟨location, mem_all location, decide_eq_true (((isLeast_editDistance _ _).2 hedits).trans hn)⟩

end DirectiveLocation

/-! ### Names -/

/-- The characters of a name are ASCII. -/
theorem Text.toNat_lt_of_isNameContinue {c : Char} (h : isNameContinue c) : c.toNat < 0x80 := by
  simp only [isNameContinue, isNameStart, isLetter, isDigit, Bool.or_eq_true, Bool.and_eq_true,
    decide_eq_true_eq] at h
  rcases h with (rfl | ⟨-, h⟩ | ⟨-, h⟩) | ⟨-, h⟩
  · decide
  all_goals exact lt_of_le_of_lt (Char.le_def.1 h) (by decide)

/-- In upper case, each character of a name becomes its capital. -/
theorem Token.upperCase_of_mem_lex {text name : String} {t : Token} (ht : t ∈ lex text)
    (hkind : t.kind = .name name) : upperCase name.toList = name.toList.map Char.toUpper := by
  obtain ⟨front, part, back, -, -, -, -, hwrites⟩ := (tiling_lexFrom .origin text.toList).exists_part ht
  rw [hkind] at hwrites
  obtain rfl : String.ofList part = name := hwrites.eq_text name rfl
  obtain ⟨c, cs, heq, hc, hcs⟩ := hwrites.admits .name rfl
  refine upperCase_of_ascii fun d hd ↦ toNat_lt_of_isNameContinue ?_
  rw [heq] at hd
  rcases List.mem_cons.1 hd with rfl | hd
  · exact isNameContinue_of_isNameStart hc
  · exact hcs d hd

/-! ### Errors -/

open DirectiveLocation (IsNearest)

/-- The error helps exactly if some location is near to a name in upper case, and then with the nearest. -/
structure ParseError.SuggestsNearest (e : ParseError) (name : String) : Prop where
  exists_help_iff : (∃ note ∈ e.notes, note.kind = .help) ↔
    ∃ location : DirectiveLocation, ∃ n ≤ 3, Edits n (name.toList.map Char.toUpper) location.name.toList
  help_iff : ∀ note, note.kind = .help → (note ∈ e.notes ↔
    ∃ location, IsNearest (name.toList.map Char.toUpper) location ∧
      note = ⟨.help, "did you mean `" ++ location.name ++ "`?", none⟩)

/-- The error for an unknown location has the note that the rule asks for, if the name's upper case is that of
its letters. -/
theorem suggestsNearest_unknownLocation {name : String}
    (hupper : upperCase name.toList = name.toList.map Char.toUpper) (span : Span) :
    (Parser.unknownLocation name span).SuggestsNearest name := by
  have hhelp (note : Note) (hkind : note.kind = .help) : note ∈ (Parser.unknownLocation name span).notes ↔
      ∃ location, IsNearest (name.toList.map Char.toUpper) location ∧
        note = ⟨.help, "did you mean `" ++ location.name ++ "`?", none⟩ := by
    -- the other note of the error is no help
    have hspec : note ∉ [(⟨.spec, "https://spec.graphql.org/September2025/#DirectiveLocations", none⟩ : Note)] := by
      intro hmem
      rw [List.mem_singleton.1 hmem] at hkind
      cases hkind
    rw [Parser.unknownLocation_eq, List.mem_append, or_iff_left hspec, Option.mem_toList,
      Option.map_eq_some_iff]
    simp only [DirectiveLocation.suggestion?_eq_some_iff, hupper]
    exact exists_congr fun location ↦ and_congr_right' eq_comm
  refine ⟨?_, hhelp⟩
  rw [← hupper, ← DirectiveLocation.suggestion?_isSome_iff, Option.isSome_iff_exists]
  simp only [DirectiveLocation.suggestion?_eq_some_iff, hupper]
  constructor
  · rintro ⟨note, hnote, hkind⟩
    obtain ⟨location, hnearest, -⟩ := (hhelp note hkind).1 hnote
    exact ⟨location, hnearest⟩
  · rintro ⟨location, hnearest⟩
    exact ⟨_, (hhelp _ rfl).2 ⟨location, hnearest, rfl⟩, rfl⟩

/-- **The nearest location is suggested.** The edit distance of two texts is the least number of edits that turn
the one into the other. Where a location is read and a name comes that a text may have, but no location has, the
error is about this name; and in whatever text an error is about such a name, it helps exactly if a location is
within three edits of the name in upper case, with the first location of those within the fewest. -/
theorem nearest_location_is_suggested :
    (∀ as bs : List Char, IsLeast {n | Edits n as bs} (editDistance as bs)) ∧
    (∀ name, (∃ text, ∃ t ∈ Token.lex text, t.kind = .name name) →
      (∀ location : DirectiveLocation, location.name ≠ name) → ∀ s : TokenStream, s.current.kind = .name name →
        ∃ e, Parser.directiveLocation s = (.error e, s.advance) ∧ e.fault = .unknownLocation name ∧
          e.span = s.current.span ∧ e.SuggestsNearest name) ∧
    ∀ source text e name, Document.ofTokens source (Token.lex text) = .error e →
      e.fault = .unknownLocation name →
        (∀ location : DirectiveLocation, location.name ≠ name) ∧ e.SuggestsNearest name := by
  refine ⟨isLeast_editDistance, ?_, ?_⟩
  · rintro name ⟨text, t, ht, hkind⟩ hnone s hcurrent
    refine ⟨Parser.unknownLocation name s.current.span, ?_, ?_, ?_,
      suggestsNearest_unknownLocation (Token.upperCase_of_mem_lex ht hkind) _⟩
    · have hread : Parser.requireName "a directive location" s = (.ok (name, s.current.span), s.advance) :=
        Parser.requireName_eq_ok_iff.2 ⟨by rw [← hcurrent], rfl⟩
      have hnone' : DirectiveLocation.ofName? name = none :=
        List.find?_eq_none.2 fun location _ ↦ by simpa using hnone location
      show Parser.bind _ _ s = _
      rw [Parser.bind, hread]
      simp only [hnone']
      rfl
    · rw [Parser.unknownLocation_eq]
    · rw [Parser.unknownLocation_eq]
  · intro source text e name h hfault
    obtain ⟨t, ht, hkind, hnone, rfl⟩ := (cites_of_ofTokens_eq h).of_unknownLocation name hfault
    refine ⟨fun location heq ↦ ?_, ?_⟩
    · rw [← heq, DirectiveLocation.ofName?_name] at hnone
      cases hnone
    · exact suggestsNearest_unknownLocation
        (Token.upperCase_of_mem_lex (Token.mem_lexFrom_of_mem_shown ht) hkind) _

/-- Two edits lead from `UNUN` to `UNION`, and two to `ENUM`, which comes later. -/
theorem nearest_location_is_suggested_of_two :
    (∃ text, ∃ t ∈ Token.lex text, t.kind = .name "unun") ∧
    (∀ location : DirectiveLocation, location.name ≠ "unun") ∧
    (∃ s : TokenStream, s.current.kind = .name "unun" ∧ ∃ e, Parser.directiveLocation s = (.error e, s.advance) ∧
      e.SuggestsNearest "unun") ∧
    (∃ e, Document.ofTokens none (Token.lex "directive @d on unun") = .error e ∧
      e.fault = .unknownLocation "unun" ∧ e.SuggestsNearest "unun") ∧
    IsNearest "UNUN".toList .union ∧ editDistance "UNUN".toList "ENUM".toList = 2 := by
  have hread : Document.ofTokens none (Token.lex "directive @d on unun") =
      .error (Parser.unknownLocation "unun" ⟨⟨0, 16, 16, 16⟩, ⟨0, 20, 20, 20⟩, none⟩) := by
    decide +kernel
  have hlex : ∃ t ∈ Token.lex "directive @d on unun", t.kind = .name "unun" := by decide +kernel
  have hnearest : IsNearest "UNUN".toList .union := by
    have hsuggestion : DirectiveLocation.suggestion? "unun" = some .union := by decide +kernel
    exact DirectiveLocation.suggestion?_eq_some_iff.1 hsuggestion
  obtain ⟨-, hfails, herrors⟩ := nearest_location_is_suggested
  have hfault : (Parser.unknownLocation "unun" ⟨⟨0, 16, 16, 16⟩, ⟨0, 20, 20, 20⟩, none⟩).fault =
      .unknownLocation "unun" := by
    rw [Parser.unknownLocation_eq]
  obtain ⟨hnone, hsuggests⟩ := herrors none _ _ _ hread hfault
  have hcurrent : (TokenStream.ofTokens (Token.lex "unun")).current.kind = .name "unun" := by decide +kernel
  obtain ⟨e, he, -, -, hnear⟩ := hfails "unun" ⟨_, hlex⟩ hnone _ hcurrent
  exact ⟨⟨_, hlex⟩, hnone, ⟨_, hcurrent, e, he, hnear⟩, ⟨_, hread, hfault, hsuggests⟩, hnearest, by decide +kernel⟩

end TypeSystem
