import TypeSystem.Proofs.Reading.Lookahead

/-!
# Tokens that errors cite

Most of what an error says is about the token with which the input could not go on. Some things are said on
other grounds: that a type reference has too many levels, whatever comes next; that a name is no location, and
which one may have been meant; and what the notes point to, which an invalid token had to say before any parser
saw it. They too come from the tokens that are yet to be read (`Parser.Cites`). There is one instance for each
parser of the grammar, and nothing to be proved where an error is of another sort (`ParseError.IsPlain`).
-/

namespace TypeSystem

/-! ### Tokens to come -/

/-- The tokens that a stream will show: those that are left, and then the end of the input. -/
def TokenStream.shown (s : TokenStream) : List Token :=
  s.pending ++ [.endAt (Token.lastStop s.lastEnd s.pending)]

/-- The current token is one of those to come, even if it is the one made up for the end. -/
theorem TokenStream.current_mem_shown (s : TokenStream) : s.current ∈ s.shown := by
  rw [s.eq_after]
  generalize s.pending = pending
  cases pending with
  | nil => exact List.mem_singleton_self _
  | cons t ts => exact List.mem_cons_self

/-- What was to come is what has been passed, and what is still to come. -/
theorem Passed.shown_eq {s s' : TokenStream} {ts : List Token} (h : Passed s ts s') :
    s.shown = ts ++ s'.shown := by
  rw [TokenStream.shown, TokenStream.shown, h.lastEnd_eq, ← Token.lastStop_append, ← h.pending_eq,
    ← List.append_assoc, ← h.pending_eq]

/-- Where the rest of a text is left, the end of the input has a token of its own, and the stream shows tokens
of that rest only. -/
theorem Token.mem_lexFrom_of_mem_shown {place : Place} {cs : List Char} {e : Position} {t : Token}
    (h : t ∈ (TokenStream.after e ((lexFrom place cs).filter fun t ↦ !t.isComment)).shown) :
    t ∈ lexFrom place cs := by
  rcases List.mem_append.1 h with h | h
  · exact (List.mem_filter.1 h).1
  · obtain ⟨others, hothers, -⟩ := (tiling_lexFrom place cs).exists_last
    obtain rfl := List.mem_singleton.1 h
    have hpending : (lexFrom place cs).filter (fun t ↦ !t.isComment) =
        (others.filter fun t ↦ !t.isComment) ++ [.endAt (place.past cs).pos] := by
      rw [hothers, List.filter_append]
      rfl
    change endAt (lastStop e ((lexFrom place cs).filter fun t ↦ !t.isComment)) ∈ _
    rw [hpending, lastStop_append, hothers]
    exact List.mem_append_right _ (List.mem_singleton_self _)

/-! ### Citations -/

/-- The fault is neither in the depth of a type reference nor in the name of a location. -/
def SyntaxFault.IsPlain : SyntaxFault → Prop
  | .tooDeep _ | .unknownLocation _ => False
  | _ => True

namespace ParseError

/-- The fault is a plain one, and no note points anywhere. -/
structure IsPlain (e : ParseError) : Prop where
  fault : e.fault.IsPlain
  span_eq_none : ∀ note ∈ e.notes, note.span = none

theorem IsPlain.of_fault {message : String} {span : Span} {fault : SyntaxFault} (h : fault.IsPlain) :
    (plain message span fault).IsPlain :=
  ⟨h, fun _ hnote ↦ absurd hnote List.not_mem_nil⟩

/-- A note that was added points nowhere. -/
theorem mem_notes_addNote {e : ParseError} {kind : NoteKind} {message : String} {note : Note}
    (h : note ∈ (e.addNote kind message).notes) : note ∈ e.notes ∨ note.span = none := by
  rcases List.mem_append.1 h with h | h
  · exact .inl h
  · rw [List.mem_singleton.1 h]
    exact .inr rfl

/-- A note without a span leaves an error plain. -/
theorem IsPlain.addNote {e : ParseError} (h : e.IsPlain) (kind : NoteKind) (message : String) :
    (e.addNote kind message).IsPlain :=
  ⟨h.fault, fun note hnote ↦ (mem_notes_addNote hnote).elim (h.span_eq_none note) id⟩

/-- A type reference with too many levels is refused at one of the tokens, a location that does not exist has
its name from one of them, and where a note points to, an invalid one of the tokens does so. -/
structure Cites (e : ParseError) (ts : List Token) : Prop where
  of_tooDeep : ∀ limit, e.fault = .tooDeep limit → ∃ t ∈ ts, e = Parser.tooManyLevels t
  of_unknownLocation : ∀ name, e.fault = .unknownLocation name →
    ∃ t ∈ ts, t.kind = .name name ∧ DirectiveLocation.ofName? name = none ∧ e = Parser.unknownLocation name t.span
  of_note : ∀ note ∈ e.notes, note.span ≠ none →
    ∃ t ∈ ts, ∃ message notes, t.kind = .invalid message notes ∧ note ∈ notes

variable {e : ParseError} {ts us : List Token}

/-- Where the fault is plain, there is only to say what the notes point to. -/
theorem Cites.of_isPlain (h : e.fault.IsPlain) (hnotes : ∀ note ∈ e.notes, note.span ≠ none →
    ∃ t ∈ ts, ∃ message notes, t.kind = .invalid message notes ∧ note ∈ notes) : e.Cites ts where
  of_tooDeep limit hfault := by
    rw [hfault] at h
    exact h.elim
  of_unknownLocation name hfault := by
    rw [hfault] at h
    exact h.elim
  of_note := hnotes

/-- A plain error cites nothing. -/
theorem IsPlain.cites (h : e.IsPlain) : e.Cites ts :=
  .of_isPlain h.fault fun note hnote hspan ↦ absurd (h.span_eq_none note hnote) hspan

/-- What cites some tokens cites more. -/
theorem Cites.mono (h : e.Cites ts) (hsub : ts ⊆ us) : e.Cites us where
  of_tooDeep limit hdeep := by
    obtain ⟨t, ht, heq⟩ := h.of_tooDeep limit hdeep
    exact ⟨t, hsub ht, heq⟩
  of_unknownLocation name hunknown := by
    obtain ⟨t, ht, hcited⟩ := h.of_unknownLocation name hunknown
    exact ⟨t, hsub ht, hcited⟩
  of_note note hnote hspan := by
    obtain ⟨t, ht, hcited⟩ := h.of_note note hnote hspan
    exact ⟨t, hsub ht, hcited⟩

/-- One more remark, if the fault is plain. -/
theorem Cites.addNote (h : e.Cites ts) (hfault : e.fault.IsPlain) (kind : NoteKind) (message : String) :
    (e.addNote kind message).Cites ts :=
  .of_isPlain hfault fun note hnote hspan ↦
    h.of_note note ((mem_notes_addNote hnote).resolve_right hspan) hspan

theorem isPlain_misfit_fault (found : Token) (expected : List String) :
    (Parser.misfit found expected).fault.IsPlain := by
  obtain ⟨kind, span⟩ := found
  cases kind <;> trivial

/-- A token that does not fit is cited with its own notes, if it is invalid. -/
theorem cites_misfit {found : Token} (h : found ∈ ts) (expected : List String) :
    (Parser.misfit found expected).Cites ts := by
  refine .of_isPlain (isPlain_misfit_fault found expected) fun note hnote hspan ↦ ⟨found, h, ?_⟩
  obtain ⟨kind, span⟩ := found
  cases kind with
  | invalid message notes => exact ⟨message, notes, rfl, hnote⟩
  | _ => exact absurd hnote List.not_mem_nil

end ParseError

namespace Parser

variable {α β σ : Type}

/-- What an error of the parser cites, it cites from the tokens that the stream shows. -/
class Cites (p : Parser α) : Prop where
  cites : ∀ {s s' : TokenStream} {e : ParseError}, p s = (.error e, s') → e.Cites s.shown

namespace Cites

/-! ### Single steps -/

instance (priority := low) (p : Parser α) [p.NeverFails] : p.Cites where
  cites he := absurd he (NeverFails.ne_error _ _ _)

/-- Failing with a plain error cites nothing. -/
theorem failing {error : ParseError} (h : error.IsPlain) : (fail error : Parser α).Cites where
  cites he := by
    cases he
    exact h.cites

instance (expected : List String) : (unexpected (α := α) expected).Cites where
  cites {s s' e} he := by
    cases he
    exact ParseError.cites_misfit s.current_mem_shown expected

/-- Looking at the current token cites that token. -/
theorem views {p : Parser α} {view : Token → Option α} {expected : List String}
    (hp : p.Views view expected) : p.Cites where
  cites {s s' e} he := by
    rw [hp.eq] at he
    cases hview : view s.current with
    | some a =>
      rw [hview] at he
      cases he
    | none =>
      rw [hview] at he
      cases he
      exact ParseError.cites_misfit s.current_mem_shown expected

instance (p : Punctuator) : (requireMark p).Cites := .views (views_requireMark p)

instance (keyword : String) : (requireKeyword keyword).Cites := .views (views_requireKeyword keyword)

instance (expected : String) : (requireName expected).Cites := .views (views_requireName expected)

instance (expected : String) : (value expected).Cites := .views (views_value expected)

/-! ### Steps put together -/

/-- One parser after another: what the second cites is to come after the first, so it was to come before. -/
theorem bind {p : Parser α} {f : α → Parser β} [p.LooksOneAhead] [p.Cites]
    (hf : ∀ a, (f a).Cites) : (p >>= f).Cites where
  cites he := by
    rcases bind_eq_error_iff.1 he with he | ⟨a, s₁, ha, he⟩
    · exact cites he
    · obtain ⟨ts, hts, -⟩ := LooksOneAhead.exists_passed ha
      rw [hts.shown_eq]
      exact ((hf a).cites he).mono (List.subset_append_right _ _)

instance (p : Parser α) (f : α → Parser β) [p.LooksOneAhead] [p.Cites]
    [hf : ∀ a, (f a).Cites] : (p >>= f).Cites :=
  .bind hf

/-- Nothing can go wrong after the first parser. -/
theorem andThen {p : Parser α} {f : α → Parser β} [p.Cites] [∀ a, (f a).NeverFails] :
    (p >>= f).Cites where
  cites he := by
    rcases bind_eq_error_iff.1 he with he | ⟨a, s₁, -, he⟩
    · exact cites he
    · exact absurd he (NeverFails.ne_error s₁ _ _)

/-- A choice cites what either side does. -/
theorem ite {condition : Prop} [Decidable condition] {p q : Parser α} (hp : p.Cites)
    (hq : q.Cites) : (if condition then p else q).Cites := by
  split
  · exact hp
  · exact hq

instance (condition : Prop) [Decidable condition] (p q : Parser α) [hp : p.Cites]
    [hq : q.Cites] : (if condition then p else q).Cites :=
  .ite hp hq

instance (step : σ → Parser (Option σ)) (state : σ) [∀ state, (step state).LooksOneAhead]
    [∀ state, (step state).Cites] : (iterate step state).Cites where
  cites {s s' e} he := by
    -- induction on the rounds
    fun_induction iterate step state s with
    | case1 state s e s₁ heq =>
      cases he
      exact cites heq
    | case2 state s s₁ heq => cases he
    | case3 state s state₁ s₁ heq hleft ih =>
      obtain ⟨ts, hts, -⟩ := LooksOneAhead.exists_passed heq
      rw [hts.shown_eq]
      exact (ih he).mono (List.subset_append_right _ _)
    | case4 state s state₁ s₁ heq hleft => cases he

instance (item : Parser (Option α)) [item.LooksOneAhead] [item.Cites] : (many item).Cites := by
  unfold many
  infer_instance

instance (expected : String) : (name expected).Cites := by
  unfold name
  infer_instance

theorem unlessMark {close : Punctuator} {item : Parser α} (h : item.Cites) :
    (Parser.unlessMark close item).Cites :=
  .bind fun _ ↦ .ite inferInstance .andThen

instance (close : Punctuator) (item : Parser α) [h : item.Cites] :
    (Parser.unlessMark close item).Cites :=
  .unlessMark h

instance (p : Punctuator) (item : Parser α) [item.Cites] : (afterMark p item).Cites :=
  .bind fun _ ↦ .ite .andThen inferInstance

instance (p : Punctuator) (item : Parser α) [item.LooksOneAhead] [item.Cites] :
    (separated p item).Cites := by
  unfold separated
  infer_instance

instance (close : Punctuator) (construct : String) : (refuseEmpty close construct).Cites := by
  have hrefused (found : Token) : (fail (.plain (construct ++ " must not be empty") found.span
      (.emptyConstruct construct)) : Parser PUnit).Cites :=
    .failing (.of_fault trivial)
  unfold refuseEmpty
  infer_instance

instance (brackets : Brackets) (construct : String) (inside : Parser α) [inside.Cites] :
    (enclosed brackets construct inside).Cites := by
  unfold enclosed
  infer_instance

instance (brackets : Brackets) (construct : String) (item : Parser α) [item.LooksOneAhead]
    [item.Cites] : (block brackets construct item).Cites := by
  unfold block
  infer_instance

instance (brackets : Brackets) (construct : String) (item : Parser α) [item.LooksOneAhead]
    [item.Cites] : (optionalBlock brackets construct item).Cites := by
  unfold optionalBlock
  infer_instance

/-! ### The grammar -/

instance (levels : Nat) : (typeReferenceWithin levels).Cites := by
  induction levels with
  | zero =>
    refine ⟨fun {s s' e} he ↦ ?_⟩
    cases he
    exact ⟨fun _ _ ↦ ⟨s.current, s.current_mem_shown, rfl⟩, fun _ hfault ↦ (by cases hfault),
      fun note hnote ↦ absurd hnote List.not_mem_nil⟩
  | succ levels ih =>
    unfold typeReferenceWithin
    infer_instance

instance : typeReference.Cites := by
  unfold typeReference
  infer_instance

/-- A name that is no location is cited, and no note points anywhere. -/
theorem cites_unknownLocation {t : Token} {ts : List Token} {name : String} (ht : t ∈ ts)
    (hkind : t.kind = .name name) (hnone : DirectiveLocation.ofName? name = none) :
    (unknownLocation name t.span).Cites ts where
  of_tooDeep limit hdeep := by
    rw [unknownLocation_eq] at hdeep
    cases hdeep
  of_unknownLocation name' hunknown := by
    obtain rfl : name = name' := by simpa [unknownLocation_eq] using hunknown
    exact ⟨t, ht, hkind, hnone, rfl⟩
  of_note note hnote hspan := by
    refine absurd ?_ hspan
    rw [unknownLocation_eq] at hnote
    rcases List.mem_append.1 hnote with hhelp | hspec
    · obtain ⟨location, -, rfl⟩ := Option.map_eq_some_iff.1 (Option.mem_toList.1 hhelp)
      rfl
    · rw [List.mem_singleton.1 hspec]

instance : directiveLocation.Cites where
  cites {s s' e} he := by
    rcases bind_eq_error_iff.1 he with he | ⟨⟨name, span⟩, s₁, ha, he⟩
    · exact cites he
    · obtain ⟨hcurrent, rfl⟩ := requireName_eq_ok_iff.1 ha
      cases hfound : DirectiveLocation.ofName? name with
      | some location =>
        simp only [hfound] at he
        cases he
      | none =>
        simp only [hfound] at he
        have hkind : s.current.kind = .name name := by rw [hcurrent]
        obtain rfl : s.current.span = span := by rw [hcurrent]
        -- the error is not to be opened, since what it suggests takes a search
        obtain rfl := Except.error.inj (Prod.mk.inj he).1
        exact cites_unknownLocation s.current_mem_shown hkind hfound

instance (roots : RootTypes) : (rootType roots).Cites :=
  .unlessMark <| .bind fun (keyword, span) ↦ by
    dsimp only
    cases Operation.ofKeyword? keyword with
    | none => exact .failing (.of_fault trivial)
    | some operation => exact .ite (.failing (.of_fault trivial)) inferInstance

instance : rootTypes.Cites := by
  unfold rootTypes
  infer_instance

section Nodes

variable (source : Option String) (mayLack : Bool) (kind : TypeKind) (words : Option String)
  (start : Position)

instance : argument.Cites := by
  unfold argument
  infer_instance

instance : (appliedDirective source).Cites := by
  unfold appliedDirective
  infer_instance

instance : (appliedDirectives source).Cites := by
  unfold appliedDirectives
  infer_instance

instance : (inputValue source).Cites := by
  unfold inputValue
  infer_instance

instance : (arguments source).Cites := by
  unfold arguments
  infer_instance

instance : (field source).Cites := by
  unfold field
  infer_instance

instance : (enumValue source).Cites := by
  unfold enumValue
  refine .bind fun start ↦ .bind fun description ↦ .bind fun (name, span) ↦ ?_
  exact .ite (.failing (.of_fault trivial)) inferInstance

instance : implemented.Cites := by
  unfold implemented
  infer_instance

instance : unionMembers.Cites := by
  unfold unionMembers
  infer_instance

instance (construct : String) (item : Parser α) [item.LooksOneAhead] [item.Cites] :
    (members mayLack construct item).Cites := by
  unfold members
  infer_instance

instance : (typeBody source mayLack kind).Cites := by
  cases kind <;> unfold typeBody <;> infer_instance

instance : (typeDefinition source kind words start).Cites :=
  .bind fun _ ↦ .bind fun _ ↦ .bind fun (_, _) ↦ by infer_instance

instance (word requirement : String) :
    (emptyExtension (α := α) source start word requirement).Cites :=
  .bind fun _ ↦ .failing (.of_fault trivial)

instance : (typeExtension source kind start).Cites :=
  .bind fun _ ↦ .bind fun _ ↦ .bind fun (_, _) ↦ by infer_instance

instance : (directiveDefinition source words start).Cites :=
  .bind fun _ ↦ .bind fun _ ↦ .bind fun _ ↦ inferInstance

instance : (schemaDefinition source words start).Cites := by
  unfold schemaDefinition
  infer_instance

instance : (schemaExtension source start).Cites := by
  unfold schemaExtension
  infer_instance

instance : peekName.Cites :=
  .bind fun token ↦ by cases token.kind <;> infer_instance

instance : (extension source start).Cites :=
  .bind fun _ ↦ .bind fun keyword ↦ by
    cases TypeKind.ofKeyword? keyword <;> infer_instance

instance (keyword : String) : (definitionOf source keyword words start).Cites := by
  have hdescribed : (do fail (describedExtension (← next)) : Parser Definition).Cites := by
    refine ⟨fun {s s' e} he ↦ ?_⟩
    cases he
    exact (ParseError.cites_misfit s.current_mem_shown _).addNote (ParseError.isPlain_misfit_fault _ _) _ _
  have hunknown (span : Span) : (fail (unknownKeyword keyword span) : Parser Definition).Cites := by
    refine .failing ?_
    unfold unknownKeyword
    split <;> exact .addNote (.of_fault (by trivial)) _ _
  unfold definitionOf
  cases TypeKind.ofKeyword? keyword <;> infer_instance

instance : (definition source).Cites :=
  .bind fun start ↦ .bind fun words ↦ .bind fun token ↦ by
    cases token.kind <;> infer_instance

instance : (document source).Cites := by
  unfold document
  infer_instance

end Nodes

end Cites

end Parser

/-- What the error of a document cites is cited from its tokens. -/
theorem cites_of_ofTokens_eq {source : Option String} {tokens : List Token} {e : ParseError}
    (h : Document.ofTokens source tokens = .error e) : e.Cites (TokenStream.ofTokens tokens).shown :=
  Parser.Cites.cites (Prod.ext h rfl : Parser.document source (.ofTokens tokens) = (.error e, _))

end TypeSystem
