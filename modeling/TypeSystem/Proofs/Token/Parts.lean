import TypeSystem.Proofs.Token.Tiling

/-!
# Parts of a text

Where tokens end is settled within them, the first character behind aside (`Lexeme.scan_continued`). So a
text may be cut behind any of its tokens, and something else may stand there, as long as it begins with the
same character or on a new line (`lexFrom_eq_append`). A text is continued by another on the next line
without a change to the tokens of either (`exists_lexFrom_append_lineEnd`).

The tokens of a part are those that the part has by itself, but for the place where they stand. Lines and
columns begin anew and bytes are counted from another point, so positions are compared by their bytes alone
(`Position.bytes`).
-/

namespace TypeSystem

open Text

/-! ### Errors -/

/-- What is no error. -/
def TokenKind.IsValid (kind : TokenKind) : Prop := kind.sort ≠ .invalid

namespace Lexeme

/-- A token is valid just if what was scanned is. -/
theorem isValid_tokenKind_iff (l : Lexeme) (start : Position) :
    (l.tokenKind start).IsValid ↔ ¬ l.cls.isInvalid := by
  obtain ⟨cls, text, rest⟩ := l
  cases cls <;> simp [tokenKind, TokenKind.IsValid, TokenKind.sort, LexemeClass.isInvalid]

/-- Only an error depends on where it stands. -/
theorem tokenKind_eq (l : Lexeme) {start : Position} (h : (l.tokenKind start).IsValid) (start' : Position) :
    l.tokenKind start = l.tokenKind start' := by
  obtain ⟨cls, text, rest⟩ := l
  cases cls with
  | invalid fault => exact absurd rfl h
  | _ => rfl

/-! ### What follows a token -/

/-- One text may stand in the place of another behind a token: it begins with the same character, or on a
new line, or is empty. -/
def Continues (rest rest' : List Char) : Prop :=
  ∀ c ∈ rest'.head?, isLineEnd c ∨ c ∈ rest.head?

/-- What continues in the same way does so behind any front. -/
theorem Continues.append {rest rest' : List Char} (h : Continues rest rest') (front : List Char) :
    Continues (front ++ rest) (front ++ rest') := by
  cases front with
  | nil => exact h
  | cons c front => exact fun d hd ↦ .inr hd

/-- A lexeme that is no error ends where it does whatever continues the text. -/
theorem scan_continued {c : Char} {rest back : List Char} (h : ¬ (scan c rest).cls.isInvalid)
    (hback : Continues (scan c rest).rest back) :
    ∃ tail, (scan c rest).text = c :: tail ∧
      scan c (tail ++ back) = ⟨(scan c rest).cls, (scan c rest).text, back⟩ := by
  have hsplit := scan_append c rest
  have hne := scan_text_ne_nil c rest
  obtain ⟨hadmits, hends⟩ := scan_sound c rest h
  generalize scan c rest = l at *
  obtain ⟨cls, text, rest'⟩ := l
  obtain ⟨d, tail, rfl⟩ := List.exists_cons_of_ne_nil hne
  obtain ⟨rfl, -⟩ := List.cons.inj hsplit
  refine ⟨tail, rfl, scan_complete h hadmits ?_⟩
  cases hhead : back.head? with
  | none => exact LexemeClass.endsBefore_none cls _
  | some next =>
    rcases hback next hhead with hline | hsame
    · exact LexemeClass.endsBefore_lineEnd cls _ hline
    · rwa [← Option.mem_def.1 hsame]

end Lexeme

namespace Token

/-! ### Cutting a text behind a token -/

/-- Where the last of some tokens ends, or the place before them if there are none. -/
def lastStop (before : Position) (ts : List Token) : Position :=
  ts.foldl (fun _ t ↦ t.span.stop) before

@[simp] theorem lastStop_nil (before : Position) : lastStop before [] = before := rfl

@[simp] theorem lastStop_cons (before : Position) (t : Token) (ts : List Token) :
    lastStop before (t :: ts) = lastStop t.span.stop ts := rfl

/-- Two runs of tokens stop where the second does, and if that is empty where the first does. -/
theorem lastStop_append (before : Position) (ts us : List Token) :
    lastStop before (ts ++ us) = lastStop (lastStop before ts) us :=
  List.foldl_append

/-- Behind tokens that are no errors the text may be cut and continued in another way. -/
theorem lexFrom_eq_append {place : Place} {cs : List Char} {ts others : List Token}
    (h : lexFrom place cs = ts ++ others) (hvalid : ∀ t ∈ ts, t.kind.IsValid)
    (hend : ∀ t ∈ ts, t.kind ≠ .endOfInput) :
    ∃ front back, cs = front ++ back ∧ (place.past front).pos = lastStop place.pos ts ∧
      lexFrom (place.past front) back = others ∧ ∀ back', Lexeme.Continues back back' →
        lexFrom place (front ++ back') = ts ++ lexFrom (place.past front) back' := by
  induction place, cs using lex_induction generalizing ts with
  | last place gap hgap =>
    cases ts with
    | nil => exact ⟨[], gap, rfl, rfl, h, fun back' _ ↦ rfl⟩
    | cons t ts =>
      rw [lexFrom_ignored hgap] at h
      obtain ⟨rfl, -⟩ := List.cons.inj h
      exact absurd rfl (hend _ List.mem_cons_self)
  | token place gap c rest hgap hc ih =>
    cases ts with
    | nil => exact ⟨[], gap ++ c :: rest, rfl, rfl, h, fun back' _ ↦ rfl⟩
    | cons t ts =>
      rw [lexFrom_append hgap hc] at h
      obtain ⟨rfl, hothers⟩ := List.cons.inj h
      have hscan : ¬ (Lexeme.scan c rest).cls.isInvalid :=
        (Lexeme.isValid_tokenKind_iff _ _).1 (hvalid _ List.mem_cons_self)
      obtain ⟨front, back, hrest, hstop, hback, hcontinued⟩ := ih hothers
        (fun t ht ↦ hvalid t (List.mem_cons_of_mem _ ht)) fun t ht ↦ hend t (List.mem_cons_of_mem _ ht)
      have hpast : place.past (gap ++ (Lexeme.scan c rest).text ++ front) =
          ((place.past gap).past (Lexeme.scan c rest).text).past front := by
        rw [Place.past_append, Place.past_append]
      refine ⟨gap ++ (Lexeme.scan c rest).text ++ front, back, ?_, ?_, ?_, fun back' hback' ↦ ?_⟩
      · rw [List.append_assoc, List.append_assoc, ← hrest, Lexeme.scan_append]
      · rw [hpast, hstop]
        rfl
      · rw [hpast, hback]
      · -- the lexeme is cut off as before, and then the others are
        have hcontinues : Lexeme.Continues (Lexeme.scan c rest).rest (front ++ back') := by
          rw [hrest]
          exact hback'.append front
        obtain ⟨tail, htext, hscan'⟩ := Lexeme.scan_continued hscan hcontinues
        have hsplit : gap ++ (Lexeme.scan c rest).text ++ front ++ back' =
            gap ++ c :: (tail ++ (front ++ back')) := by
          rw [htext]
          simp
        rw [hsplit, lexFrom_append hgap hc, hscan', hpast]
        show _ :: lexFrom _ (front ++ back') = _
        rw [hcontinued back' hback']
        rfl

/-- Separators in front of a text only move the place where it begins. -/
theorem lexFrom_gap_append {place : Place} {gap : List Char} (h : ∀ c ∈ gap, isIgnored c) (cs : List Char) :
    lexFrom place (gap ++ cs) = lexFrom (place.past gap) cs := by
  have hboth {more : List Char} (hmore : ∀ c ∈ more, isIgnored c) : ∀ c ∈ gap ++ more, isIgnored c :=
    fun c hc ↦ (List.mem_append.1 hc).elim (h c) (hmore c)
  induction place, cs using lex_induction with
  | last place gap' hgap' =>
    rw [lexFrom_ignored (hboth hgap'), lexFrom_ignored hgap', Place.past_append]
  | token place gap' c rest hgap' hc ih =>
    rw [← List.append_assoc, lexFrom_append (hboth hgap') hc, lexFrom_append hgap' hc, Place.past_append]

/-- A text with one token holds separators only. -/
theorem ignored_of_lexFrom_eq_singleton {place : Place} {cs : List Char} {t : Token}
    (h : lexFrom place cs = [t]) : ∀ c ∈ cs, isIgnored c := by
  induction place, cs using lex_induction with
  | last place gap hgap => exact hgap
  | token place gap c rest hgap hc ih =>
    rw [lexFrom_append hgap hc] at h
    obtain ⟨others, hothers, -⟩ := (tiling_lexFrom ((place.past gap).past (Lexeme.scan c rest).text)
      (Lexeme.scan c rest).rest).exists_last
    rw [hothers] at h
    simp at h

/-- What stands on the next line does not change the tokens of a text without errors, but for the end of
the input. -/
theorem exists_lexFrom_append_lineEnd {place : Place} {cs : List Char}
    (hvalid : ∀ t ∈ lexFrom place cs, t.kind.IsValid) :
    ∃ ts, lexFrom place cs = ts ++ [endAt (place.past cs).pos] ∧ (∀ t ∈ ts, t.kind ≠ .endOfInput) ∧
      ∀ c rest, isLineEnd c → lexFrom place (cs ++ c :: rest) = ts ++ lexFrom (place.past cs) (c :: rest) := by
  obtain ⟨ts, hts, hend⟩ := (tiling_lexFrom place cs).exists_last
  refine ⟨ts, hts, hend, fun c rest hc ↦ ?_⟩
  have hvalid' : ∀ t ∈ ts, t.kind.IsValid := fun t ht ↦ hvalid t (by rw [hts]; simp [ht])
  obtain ⟨front, gap, rfl, -, hgap, hcontinued⟩ := lexFrom_eq_append hts hvalid' hend
  have hignored := ignored_of_lexFrom_eq_singleton hgap
  have hcontinues : Lexeme.Continues gap (gap ++ c :: rest) := by
    cases gap with
    | nil =>
      rintro _ ⟨⟩
      exact .inl hc
    | cons d gap => exact fun e he ↦ .inr he
  rw [List.append_assoc, hcontinued _ hcontinues, lexFrom_gap_append hignored, Place.past_append]

end Token

/-! ### Positions by their bytes -/

/-- A position of which only the bytes are kept, counted from so many bytes before the text. -/
def Position.bytes (before : Nat) (pos : Position) : Position :=
  ⟨0, 0, 0, before + pos.offset⟩

/-- A span with its ends moved, in a text without a name. -/
def Span.move (f : Position → Position) (span : Span) : Span :=
  ⟨f span.start, f span.stop, none⟩

namespace Token

/-- A token with its span moved. -/
def move (f : Position → Position) (t : Token) : Token :=
  ⟨t.kind, t.span.move f⟩

@[simp] theorem move_kind (f : Position → Position) (t : Token) : (t.move f).kind = t.kind := rfl

@[simp] theorem map_kind_map_move (f : Position → Position) (ts : List Token) :
    (ts.map (move f)).map Token.kind = ts.map Token.kind := by
  rw [List.map_map]
  rfl

/-- A text without errors has the same tokens wherever it begins. -/
theorem map_move_lexFrom {place place' : Place} {cs : List Char} {n n' : Nat}
    (hvalid : ∀ t ∈ lexFrom place cs, t.kind.IsValid)
    (hplace : n + place.pos.offset = n' + place'.pos.offset) :
    (lexFrom place cs).map (move (.bytes n)) = (lexFrom place' cs).map (move (.bytes n')) := by
  have hbytes {cs : List Char} {p p' : Place} (h : n + p.pos.offset = n' + p'.pos.offset) :
      (p.past cs).pos.bytes n = (p'.past cs).pos.bytes n' := by
    simp only [Position.bytes, Place.offset_past]
    congr 1
    omega
  induction place, cs using lex_induction generalizing place' with
  | last place gap hgap =>
    rw [lexFrom_ignored hgap, lexFrom_ignored hgap]
    simp [move, Span.move, endAt, Span.emptyAt, hbytes hplace]
  | token place gap c rest hgap hc ih =>
    rw [lexFrom_append hgap hc] at hvalid ⊢
    rw [lexFrom_append hgap hc]
    obtain ⟨hfirst, hothers⟩ := List.forall_mem_cons.1 hvalid
    have hkind := Lexeme.tokenKind_eq _ hfirst (place'.past gap).pos
    have hstop : n + ((place.past gap).past (Lexeme.scan c rest).text).pos.offset =
        n' + ((place'.past gap).past (Lexeme.scan c rest).text).pos.offset := by
      simp only [Place.offset_past]
      omega
    rw [List.map_cons, List.map_cons, ih hothers hstop, hkind]
    simp only [move, Span.move, ← Place.past_append, hbytes hplace]

/-- The first token starts behind what is ignored. -/
theorem exists_gap_of_lexFrom_eq_cons {place : Place} {cs : List Char} {first : Token} {others : List Token}
    (h : lexFrom place cs = first :: others) (hend : first.kind ≠ .endOfInput) :
    ∃ gap rest, cs = gap ++ rest ∧ (∀ c ∈ gap, isIgnored c) ∧ first.span.start = (place.past gap).pos := by
  induction place, cs using lex_induction with
  | last place gap hgap =>
    rw [lexFrom_ignored hgap] at h
    obtain ⟨rfl, -⟩ := List.cons.inj h
    exact absurd rfl hend
  | token place gap c rest hgap hc ih =>
    rw [lexFrom_append hgap hc] at h
    obtain ⟨rfl, -⟩ := List.cons.inj h
    exact ⟨gap, c :: rest, rfl, hgap, rfl⟩

/-- **A part of a text has the tokens that it has within the text.** From the start of one token to the end
of another, if no token up to there is an error, the text can be cut out, and what is cut out has the same
tokens by itself, as many bytes nearer to the beginning as were cut off in front. -/
theorem lex_slice {text : String} {before ts others : List Token} {first : Token}
    (h : lex text = before ++ (first :: ts ++ others)) (source : Option String)
    (hvalid : ∀ t ∈ before ++ first :: ts, t.kind.IsValid)
    (hend : ∀ t ∈ before ++ first :: ts, t.kind ≠ .endOfInput) :
    ∃ part ts' stop, Span.slice ⟨first.span.start, lastStop first.span.stop ts, source⟩ text = some part ∧
      lex part = ts' ++ [endAt stop] ∧
      ts'.map (move (.bytes first.span.start.offset)) = (first :: ts).map (move (.bytes 0)) := by
  rw [List.forall_mem_append] at hvalid hend
  obtain ⟨front, back, htext, -, hback, -⟩ := lexFrom_eq_append h hvalid.1 hend.1
  obtain ⟨gap, rest, rfl, hgap, hstart⟩ := exists_gap_of_lexFrom_eq_cons hback (hend.2 _ List.mem_cons_self)
  rw [lexFrom_gap_append hgap] at hback
  obtain ⟨part, rest, rfl, hstop, -, hcontinued⟩ := lexFrom_eq_append hback hvalid.2 hend.2
  rw [← Place.past_append] at hstart hstop hcontinued
  rw [lastStop_cons] at hstop
  -- by itself the part is followed by nothing
  have hpart : lexFrom (Place.origin.past (front ++ gap)) part =
      first :: ts ++ [endAt ((Place.origin.past (front ++ gap)).past part).pos] := by
    have hnothing : ∀ c ∈ ([] : List Char), isIgnored c := by simp
    have halone := hcontinued [] fun c hc ↦ by cases hc
    rwa [List.append_nil, lexFrom_ignored hnothing] at halone
  have hvalid' : ∀ t ∈ lexFrom (Place.origin.past (front ++ gap)) part, t.kind.IsValid := by
    rw [hpart, List.forall_mem_append]
    refine ⟨hvalid.2, fun t ht ↦ ?_⟩
    rw [List.mem_singleton.1 ht]
    exact fun hsort ↦ by cases hsort
  have hmoved : (lexFrom (Place.origin.past (front ++ gap)) part).map (move (.bytes 0)) =
      (lexFrom .origin part).map (move (.bytes (Place.origin.past (front ++ gap)).pos.offset)) :=
    map_move_lexFrom hvalid' (Nat.add_comm _ _)
  obtain ⟨ts', hts', -⟩ := (tiling_lexFrom .origin part).exists_last
  refine ⟨String.ofList part, ts', _, ?_, by rw [lex, String.toList_ofList, hts'], ?_⟩
  · have hsplit : text.toList = (front ++ gap) ++ part ++ rest := by simp [htext]
    have horigin : Place.origin.pos.offset = 0 := rfl
    refine Span.slice_eq_some hsplit ?_ ?_
    · show first.span.start.offset = _
      rw [hstart, Place.offset_past, horigin, Nat.zero_add]
    · show (lastStop first.span.stop ts).offset = _
      rw [← hstop]
      simp only [Place.offset_past, width_append, horigin]
      omega
  · rw [hpart, hts', List.map_append, List.map_append, ← hstart] at hmoved
    exact (List.append_inj_left' hmoved rfl).symm

end Token

end TypeSystem
