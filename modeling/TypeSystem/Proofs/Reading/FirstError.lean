import TypeSystem.Proofs.Reading.Stopping
import TypeSystem.Reading.Source

/-!
# The first error

A text that is no document is answered by an error about the first token with which no document goes on
(`error_at_first_misfit`). There is one lemma for each parser of the grammar, which says that it stops
there (`Parser.Stops`), in the order of the grammar.

Almost every error is about the token that was found. The exception is an extension that adds nothing: what
comes after it is found not to belong to it, but the error is about the extension (`Blame.orBare`). All that
has been passed of such an extension is its keywords and name (`IsBareExtension`).
-/

namespace TypeSystem

open TypeSystem.Parser (Stops)

variable {B : Blame} {V : List TokenKind → Prop}

/-! ### Type references and values -/

/-- Type references stop where they cannot go on, by induction on the levels that are left. A reference that
is too deep is not spoken of. -/
theorem stops_typeReferenceWithin (levels : ℕ) :
    Stops .token (Phrase.typeReference fun type ↦ type.depth < levels).Viable
      (Parser.typeReferenceWithin levels) := by
  induction levels with
  | zero =>
    -- too many levels, which is no error of a token
    rintro s e s' _ ⟨⟩ hdepth
    exact absurd rfl (hdepth Parser.maxLevels)
  | succ levels ih =>
    refine (Stops.branch (by simp) (Parser.accepts_acceptMark .bracketOpen) ?_ ?_).mono fun ts hts ↦
      hts.congr fun us x ↦ typeReference_succ_iff
    · exact .bind (reads_typeReferenceWithin levels) ih fun element ↦ .mark .succeeding
    · exact .bind (.name _) (.name _ .nil) fun name ↦ .succeeding

theorem stops_typeReference : Stops .token (Phrase.typeReference admitted).Viable Parser.typeReference :=
  stops_typeReferenceWithin Parser.maxLevels

/-! ### Applied directives -/

theorem stops_argument : Stops .token Phrase.argument.Viable Parser.argument :=
  .bind (.name _) (.name _ .nil) fun _ ↦ .mark
    ((Parser.views_value _).stops .nil).last

theorem stops_appliedDirective (source : Option String) :
    Stops .token Phrase.appliedDirective.Viable (Parser.appliedDirective source) := by
  have hblock : Stops .token (Phrase.block .parens Phrase.argument).Viable
      (Parser.block .parens "directive argument list" Parser.argument) :=
    .block reads_argument (.first (.name (by simp))) stops_argument
  refine .here fun start ↦ .mark (.bind (.name _) (.name _ .nil) fun name ↦ ?_)
  exact (Stops.optionalBlock hblock).last

theorem stops_appliedDirectives (source : Option String) :
    Stops .token Phrase.appliedDirectives.Viable (Parser.appliedDirectives source) := by
  have hitem := readsOrEnds_peek (p := .atSign) (reads_appliedDirective source)
    fun _ _ ↦ Phrase.head?_of_mark
  refine .many hitem (.peekIs ?_ .succeeding) Blame.isStable_token
  exact (stops_appliedDirective source).andThen.mono fun _ ↦ .inl

/-! ### Members -/

theorem stops_inputValue (source : Option String) :
    Stops .token (Phrase.inputValue admitted).Viable (Parser.inputValue source) := by
  refine .here fun start ↦ .bind reads_description .succeeding fun description ↦ ?_
  refine .bind (.name _) (.name _ .nil) fun name ↦ .mark ?_
  refine .bind reads_typeReference stops_typeReference fun type ↦ ?_
  have hdefault : Reads {.punctuator .equals} (Parser.afterMark .equals (Parser.value "a default value"))
      (Phrase.afterMark .equals Phrase.value) :=
    reads_afterMark ((reads_value _).mono (Set.empty_subset _)) rfl
  refine .bind hdefault (.afterMark ((Parser.views_value _).stops .nil)) fun value ↦ ?_
  exact (stops_appliedDirectives source).last

/-- No member begins with a closing bracket. -/
theorem shields_member_from {α : Type} {Q : Option String → String → Phrase α} (p : Punctuator) :
    (Phrase.description >>= fun description ↦ Phrase.name >>= Q description).Shields {.punctuator p} ∅ := by
  refine shields_member ?_
  rintro _ rfl
  exact ⟨p, rfl⟩

theorem stops_arguments (source : Option String) :
    Stops .token (Phrase.arguments admitted).Viable (Parser.arguments source) := by
  have hblock : Stops .token (Phrase.block .parens (Phrase.inputValue admitted)).Viable
      (Parser.block .parens "argument list" (Parser.inputValue source)) :=
    .block (reads_inputValue source) (shields_member_from _) (stops_inputValue source)
  exact .optionalBlock hblock

theorem stops_field (source : Option String) :
    Stops .token (Phrase.field admitted).Viable (Parser.field source) := by
  refine .here fun start ↦ .bind reads_description .succeeding fun description ↦ ?_
  refine .bind (.name _) (.name _ .nil) fun name ↦ ?_
  refine .bind (reads_arguments source) (stops_arguments source) fun arguments ↦ .mark ?_
  refine .bind reads_typeReference stops_typeReference fun type ↦ ?_
  exact (stops_appliedDirectives source).last

theorem stops_enumValue (source : Option String) :
    Stops .token Phrase.enumValue.Viable (Parser.enumValue source) := by
  refine .here fun start ↦ .bind reads_description .succeeding fun description ↦ ?_
  let after (text : String) : Phrase EnumValueDefinition := do
    let directives ← Phrase.appliedDirectives
    return ⟨withoutSpans description, text, directives, .blank⟩
  have hafter (text : String) : Stops .token (after text).Viable (do
      let directives ← Parser.appliedDirectives source
      return (⟨description, text, directives, ← Parser.spanFrom source start⟩ : EnumValueDefinition)) :=
    (stops_appliedDirectives source).last
  have hreserved (text : String) :
      Parser.reservedValues.contains text = true ↔ text ∈ ["true", "false", "null"] := by
    simp [Parser.reservedValues]
  refine .requireName (fun text ↦ text ∉ ["true", "false", "null"]) (fun text ↦ (after text).Viable) .nil
    (fun text span hfits ↦ ?_) (fun text us hfits hus ↦ ?_) fun text span hbad ↦ ?_
  · simp only [if_neg (mt (hreserved text).1 hfits)]
    exact hafter text
  · exact .second (P := Phrase.name) rfl (.provided hfits hus)
  · simp only [if_pos ((hreserved text).2 (not_not.1 hbad))]
    exact ⟨_, fun _ ↦ rfl, Parser.blames_of_isLegible rfl (.name text) trivial⟩

theorem stops_implemented : Stops .token Phrase.implemented.Viable Parser.implemented := by
  have hnames : Stops .token (Phrase.separated .ampersand Phrase.name).Viable
      (Parser.separated .ampersand (Parser.name "an interface name")) := .separated (.name _) (.name _ .nil)
  exact .branch (by simp) (Parser.accepts_acceptKeyword "implements") hnames .succeeding

theorem stops_unionMembers :
    Stops .token (Phrase.separated .pipe Phrase.name).Viable Parser.unionMembers :=
  .separated (.name _) (.name _ .nil)

/-! ### Types -/

/-- Members that are there, or may be missing. -/
theorem stops_members {α : Type} [HasSpans α] {mayLack : Bool} {item : Parser α} [item.LooksOneAhead]
    {P : Phrase α} [P.Possible] {construct : String} (hread : Reads memberEnd item P)
    (hclose : P.Shields {.punctuator .braceClose} ∅) (h : Stops .token P.Viable item) :
    Stops .token (Phrase.members mayLack (Phrase.block .braces P)).Viable
      (Parser.members mayLack construct item) := by
  have hblock : Stops .token (Phrase.block .braces P).Viable (Parser.block .braces construct item) :=
    .block hread hclose h
  cases mayLack with
  | false => exact hblock
  | true => exact .optionalBlock hblock

section TypeBody

variable (source : Option String) {mayLack : Bool}

/-- Directives, and then members between braces. -/
theorem stops_directivesAndMembers {α : Type} [HasSpans α] {item : Parser α} [item.LooksOneAhead]
    {P : Phrase α} [P.Possible] {construct : String} (hread : Reads memberEnd item P)
    (hclose : P.Shields {.punctuator .braceClose} ∅) (h : Stops .token P.Viable item)
    (body : List α → TypeBody) :
    Stops .token (do
        let directives ← Phrase.appliedDirectives
        let members ← Phrase.members mayLack (Phrase.block .braces P)
        return (directives, body members) : Phrase (List AppliedDirective × TypeBody)).Viable
      (do
        let directives ← Parser.appliedDirectives source
        let members ← Parser.members mayLack construct item
        return (directives, body members)) := by
  refine .bind (reads_appliedDirectives source) (stops_appliedDirectives source) fun directives ↦ ?_
  exact (stops_members hread hclose h).last

/-- Directives, and then the member types of a union. -/
theorem stops_unionBody :
    Stops .token (Phrase.typeBody admitted mayLack .union).Viable
      (Parser.typeBody source mayLack .union) := by
  refine .bind (reads_appliedDirectives source) (stops_appliedDirectives source) fun directives ↦ ?_
  cases mayLack with
  | false =>
    show Stops .token ((do Phrase.mark .equals; Phrase.separated .pipe Phrase.name) >>= _).Viable _
    rw [Phrase.bind_assoc]
    exact .mark (stops_unionMembers.last)
  | true =>
    show Stops .token
      (Phrase.orEmpty (do Phrase.mark .equals; Phrase.separated .pipe Phrase.name) >>= _).Viable _
    rw [← Phrase.afterMark_bind_getD]
    exact (Stops.afterMark stops_unionMembers).last

theorem stops_typeBody (kind : TypeKind) :
    Stops .token (Phrase.typeBody admitted mayLack kind).Viable (Parser.typeBody source mayLack kind) := by
  cases kind with
  | scalar => exact (stops_appliedDirectives source).last
  | object =>
    refine .bind reads_implemented stops_implemented fun interfaces ↦ ?_
    rw [withoutSpans_strings]
    exact stops_directivesAndMembers source (reads_field source) (shields_member_from _) (stops_field source)
      (.object interfaces)
  | interface =>
    refine .bind reads_implemented stops_implemented fun interfaces ↦ ?_
    rw [withoutSpans_strings]
    exact stops_directivesAndMembers source (reads_field source) (shields_member_from _) (stops_field source)
      (.interface interfaces)
  | union => exact stops_unionBody source
  | enum =>
    exact stops_directivesAndMembers source (reads_enumValue source) (shields_member_from _)
      (stops_enumValue source) .enum
  | inputObject =>
    exact stops_directivesAndMembers source (reads_inputValue source) (shields_member_from _)
      (stops_inputValue source) .inputObject

theorem stops_typeDefinition (kind : TypeKind) (description : Option String) (start : Position) :
    Stops .token (Phrase.typeDefinition admitted kind description).Viable
      (Parser.typeDefinition source kind description start) := by
  refine .keyword (.bind (.name _) (.name _ .nil) fun name ↦ ?_)
  refine fun s ↦ ((stops_typeBody source kind).mono (fun _ ↦ .first) s).andThen fun r ↦ ?_
  cases r
  infer_instance

end TypeBody

/-! ### Directives and schemas -/

theorem stops_directiveLocation :
    Stops .token (Phrase.word DirectiveLocation.name).Viable Parser.directiveLocation := by
  refine .requireName (fun text ↦ (DirectiveLocation.ofName? text).isSome) (fun _ _ ↦ False) .nil
    (fun text span hfits ↦ ?_) (fun _ _ _ ↦ False.elim) fun text span hbad ↦ ?_
  · obtain ⟨location, hfound⟩ := Option.isSome_iff_exists.1 hfits
    simp only [hfound]
    exact .succeeding
  · simp only [Option.not_isSome_iff_eq_none.1 hbad, Parser.unknownLocation_eq]
    exact ⟨_, fun _ ↦ rfl, Parser.blames_of_isLegible rfl (.name text) trivial⟩

theorem stops_directiveDefinition (source description : Option String) (start : Position) :
    Stops .token (Phrase.directiveDefinition admitted description).Viable
      (Parser.directiveDefinition source description start) := by
  refine .keyword (.mark (.bind (.name _) (.name _ .nil) fun name ↦ ?_))
  refine .bind (reads_arguments source) (stops_arguments source) fun arguments ↦ ?_
  refine .bind (.present (by simp) (Parser.accepts_acceptKeyword "repeatable")) .succeeding
    fun repeatable ↦ .keyword ?_
  exact (Stops.separated reads_directiveLocation stops_directiveLocation).last

/-- A root type stops at a word that is none of the three, or at one that was given already. -/
theorem stops_rootType (roots : RootTypes) :
    Stops .token ((Phrase.nextRoot roots).ViableRound (Phrase.mark .braceClose)) (Parser.rootType roots) := by
  refine .unlessMark (.requireName
    (fun text ↦ ∃ operation, Operation.ofKeyword? text = some operation ∧ roots.get operation = none)
    (fun text ↦ (Phrase.rootTypeOf roots text).Viable) (.inr .nil)
    (fun text span hfits ↦ ?_) (fun text us _ hus ↦ ?_) fun text span hbad ↦ ?_)
  · obtain ⟨operation, hfound, hnone⟩ := hfits
    obtain rfl := Operation.keyword_of_ofKeyword? hfound
    simp only [hfound, hnone, Option.isSome_none, Bool.false_eq_true, if_false]
    have hname : Stops .token (do
          Phrase.mark .colon
          return roots.set operation (← Phrase.name) : Phrase RootTypes).Viable (do
        let _ ← Parser.requireMark .colon
        return roots.set operation (← Parser.name "a root operation type name")) :=
      .mark ((Stops.name _ .nil).last)
    refine hname.mono fun ts hts ↦ .oneOf (i := operation) ?_
    exact .provided ⟨rfl, hnone⟩ hts
  · exact .inl ((Phrase.Viable.second (P := Phrase.name) rfl hus).congr fun _ _ ↦ nextRoot_iff)
  · cases hfound : Operation.ofKeyword? text with
    | none =>
      simp only [hfound]
      exact ⟨_, fun _ ↦ rfl, Parser.blames_of_isLegible rfl (.name text) trivial⟩
    | some operation =>
      have htaken : (roots.get operation).isSome := by
        rw [← Option.ne_none_iff_isSome]
        exact fun hnone ↦ hbad ⟨operation, hfound, hnone⟩
      simp only [hfound, htaken, if_true]
      exact ⟨_, fun _ ↦ rfl, Parser.blames_of_isLegible rfl (.name text) trivial⟩

theorem stops_rootTypes : Stops .token Phrase.rootTypes.Viable Parser.rootTypes := by
  have hloop : Stops .token
      (Phrase.Viable (Phrase.Loop Phrase.nextRoot (Phrase.mark .braceClose) .none))
      (Parser.iterate Parser.rootType .none) :=
    .iterate reads_rootType stops_rootType (Blame.isStable_token) .none
  have hsome : ∃ ts roots, Phrase.Loop Phrase.nextRoot (Phrase.mark .braceClose) .none ts roots ∧
      ts.head? ≠ some (.punctuator Brackets.braces.closing) := by
    obtain ⟨ts, roots, h⟩ := (inferInstance : Phrase.rootTypes.Possible).exists_run
    obtain ⟨inside, -, hinside⟩ := Phrase.mark_bind_iff.1 (enclosed_nextRoot_iff.2 h)
    exact ⟨inside, roots, hinside⟩
  exact (Stops.enclosed hloop hsome).mono fun _ hts ↦ hts.congr fun _ _ ↦ enclosed_nextRoot_iff

theorem stops_schemaDefinition (source description : Option String) (start : Position) :
    Stops .token (Phrase.schemaDefinition description).Viable
      (Parser.schemaDefinition source description start) := by
  refine .keyword (.bind (reads_appliedDirectives source) (stops_appliedDirectives source) ?_)
  exact fun directives ↦ stops_rootTypes.last

/-! ### Extensions that add nothing -/

/-- The error is about the token that was found, or about an extension that adds nothing: it began at
`start` and ends where the tokens passed end, which are in `Bare`. -/
def Blame.orBare (source : Option String) (start : Position) (Bare : List TokenKind → Prop) : Blame :=
  fun e before ts found ↦ e.Blames found ∨
    (∃ kind requirement, e.fault = .emptyExtension kind requirement) ∧ Bare (ts.map Token.kind) ∧
      e.span = ⟨start, Token.lastStop before ts, source⟩

section Extensions

variable (source : Option String) {start : Position} {α β : Type} {Bare : List TokenKind → Prop}

theorem stops_emptyExtension (kind requirement : String) (hV : V []) (hBare : Bare []) :
    Stops (.orBare source start Bare) V
      (Parser.emptyExtension (α := α) source start kind requirement) := by
  rintro s e s' hends ⟨⟩ -
  obtain ⟨rest, hpending⟩ := hends.exists_cons
  exact ⟨[], s.current, rest, hpending, hV, .inr ⟨⟨kind, requirement, rfl⟩, hBare, rfl⟩,
    fun rest' ↦ ⟨_, rfl⟩⟩

variable {source}

/-- What may go wrong in the first parser is a token. -/
theorem Parser.Stops.bind_orBare {p : Parser α} {f : α → Parser β} [p.LooksOneAhead]
    {R : List TokenKind → α → Prop} (Bare' W : α → List TokenKind → Prop) (hR : p.Takes R)
    (hp : Stops .token V p) (hf : ∀ a, Stops (.orBare source start (Bare' a)) (W a) (f a))
    (hV : ∀ ts a us, R ts a → W a us → V (ts ++ us))
    (hBare : ∀ ts a us, R ts a → Bare' a us → Bare (ts ++ us)) :
    Stops (.orBare source start Bare) V (p >>= f) := by
  refine .bind_of hR (hp.weaken fun _ _ _ _ ↦ .inl) hf hV ?_
  rintro a e before front us found hfront (hblames | ⟨hfault, hus, hspan⟩)
  · exact .inl hblames
  · refine .inr ⟨hfault, ?_, by rw [hspan, Token.lastStop_append]⟩
    rw [List.map_append]
    exact hBare _ a _ hfront hus

variable (source start)

theorem stops_typeExtension (kind : TypeKind) :
    Stops (.orBare source start fun ts ↦ ∃ name, ts = [.name kind.keyword, .name name])
      (Phrase.typeExtension admitted kind).Viable (Parser.typeExtension source kind start) := by
  let tail (name : String) : Phrase TypeExtension := do
    let body ← Phrase.typeBody admitted true kind
    Phrase.given ¬(body.1.isEmpty ∧ body.2.isEmpty)
    return ⟨name, body.1, body.2, .blank⟩
  -- the body is empty exactly if it takes no tokens
  let atEnd (r : List AppliedDirective × TypeBody) (us : List TokenKind) : Prop :=
    us = [] ∧ (r.1.isEmpty && r.2.isEmpty)
  have hnil {ts us : List TokenKind} {r : List AppliedDirective × TypeBody}
      (hr : Phrase.typeBody admitted true kind ts (withoutSpans r)) (hend : atEnd r us) : ts ++ us = [] := by
    obtain ⟨rfl, hempty⟩ := hend
    obtain ⟨hdirectives, hmembers⟩ := Bool.and_eq_true_iff.1 hempty
    rw [List.append_nil]
    refine Phrase.eq_nil_of_typeBody hr (by simpa [withoutSpans, HasSpans.mapSpans] using hdirectives) ?_
    rw [show (withoutSpans r).2 = withoutSpans r.2 from rfl, isEmpty_withoutSpans, hmembers]
  refine .bind_orBare (fun _ ts ↦ ∃ name, ts = [.name name]) (fun _ ↦ (Phrase.name >>= tail).Viable)
    (Parser.views_requireKeyword _).takes ((Parser.views_requireKeyword _).stops .nil) (fun _ ↦ ?_)
    (fun _ _ _ hts ↦ .behind hts) ?_
  · refine .bind_orBare (fun _ us ↦ us = []) (fun name ↦ (tail name).Viable) (.of_reads (.name _))
      ((Stops.name (Parser.typeNameWanted kind) .nil).mono fun _ ↦ .first) (fun name ↦ ?_)
      (fun _ _ _ ↦ .second) ?_
    · refine .bind_orBare atEnd atEnd (.of_reads (reads_typeBody source kind))
        ((stops_typeBody source kind).mono fun _ ↦ .adding _) (fun r ↦ ?_) (fun ts r us hr hend ↦ ?_)
        fun ts r us hr hend ↦ hnil hr hend
      · exact .ite (fun hempty ↦ stops_emptyExtension source _ _ ⟨rfl, hempty⟩ ⟨rfl, hempty⟩)
          fun _ ↦ .succeeding
      · rw [hnil hr hend]
        exact .nil
    · rintro _ name _ rfl rfl
      exact ⟨name, rfl⟩
  · rintro _ _ _ rfl ⟨name, rfl⟩
    exact ⟨name, rfl⟩

theorem stops_schemaExtension :
    Stops (.orBare source start fun ts ↦ ts = [.name "schema"]) Phrase.schemaExtension.Viable
      (Parser.schemaExtension source start) := by
  let tail (directives : List AppliedDirective) : Phrase SchemaExtension :=
    (do return ⟨directives, ← Phrase.rootTypes, .blank⟩) <|>
      (do Phrase.given (directives ≠ []); return ⟨directives, .none, .blank⟩)
  have htail (directives : List AppliedDirective) :
      Stops (.orBare source start fun us ↦ us = [] ∧ directives = [])
        (tail (withoutSpans directives)).Viable (do
        if ← Parser.peekIs (.punctuator .braceOpen) then
          let roots ← Parser.rootTypes
          return (⟨directives, roots, ← Parser.spanFrom source start⟩ : SchemaExtension)
        else if directives.isEmpty then
          Parser.emptyExtension source start "schema" "directive or root operation type"
        else
          return ⟨directives, .none, ← Parser.spanFrom source start⟩) := by
    refine .peekIs ?_ (.ite (fun hempty ↦ ?_) fun _ ↦ .succeeding)
    · refine .weaken ?_ fun _ _ _ _ ↦ .inl
      exact (Stops.last stops_rootTypes).mono fun _ ↦ .left
    · exact stops_emptyExtension source _ _ .nil ⟨rfl, List.isEmpty_iff.1 hempty⟩
  have hdirectives : Stops (.orBare source start fun ts ↦ ts = [])
      (Phrase.appliedDirectives >>= tail).Viable _ :=
    .bind_orBare _ _ (.of_reads (reads_appliedDirectives source))
      ((stops_appliedDirectives source).mono fun _ ↦ .first) htail (fun _ _ _ ↦ .second) (by
        rintro ts directives _ hts ⟨rfl, rfl⟩
        rw [Phrase.eq_nil_of_many hts]
        rfl)
  refine .bind_orBare _ _ (Parser.views_requireKeyword _).takes ((Parser.views_requireKeyword _).stops .nil)
    (fun _ ↦ hdirectives) (fun _ _ _ hts ↦ .behind hts) ?_
  rintro _ _ _ rfl rfl
  rfl

/-- An extension of which there is no more than what it extends. -/
inductive IsBareExtension : List TokenKind → Prop where
  | type (kind : TypeKind) (name : String) :
      IsBareExtension [.name "extend", .name kind.keyword, .name name]
  | schema : IsBareExtension [.name "extend", .name "schema"]

theorem stops_extension :
    Stops (.orBare source start IsBareExtension)
      (do Phrase.keyword "extend"; Phrase.extensionBody admitted : Phrase Definition).Viable
      (Parser.extension source start) := by
  refine .bind_orBare (fun _ ts ↦ IsBareExtension (.name "extend" :: ts))
    (fun _ ↦ (Phrase.extensionBody admitted).Viable) (Parser.views_requireKeyword _).takes
    ((Parser.views_requireKeyword _).stops .nil) (fun _ ↦ ?_)
    (fun _ _ _ hts ↦ .behind hts) ?_
  · refine .look (fun s ↦ ⟨_, Parser.peekName_eq s⟩) fun s keyword _ ↦ ?_
    cases TypeKind.ofKeyword? keyword with
    | some kind =>
      have hkind := (stops_typeExtension source start kind).wrapped Definition.typeExtension
      refine (hkind.weaken fun e before ts found ↦ .imp_right ?_).mono (fun _ hts ↦ .left (.oneOf hts)) s
      rintro ⟨hfault, ⟨name, hts⟩, hspan⟩
      exact ⟨hfault, hts ▸ .type kind name, hspan⟩
    | none =>
      refine .ite (fun _ ↦ ?_) fun _ ↦ (Parser.stops_unexpected _ .nil).weaken (fun _ _ _ _ ↦ .inl) s
      have hschema := (stops_schemaExtension source start).wrapped Definition.schemaExtension
      refine (hschema.weaken fun e before ts found ↦ .imp_right ?_).mono (fun _ hts ↦ .right hts) s
      rintro ⟨hfault, hts, hspan⟩
      exact ⟨hfault, hts ▸ .schema, hspan⟩
  · rintro _ _ _ rfl hus
    exact hus

/-! ### Items -/

theorem unknownKeyword_eq (text : String) (span : Span) :
    (Parser.unknownKeyword text span).span = span ∧
      (Parser.unknownKeyword text span).fault = .unknownKeyword text := by
  unfold Parser.unknownKeyword
  split <;> exact ⟨rfl, rfl⟩

/-- A description in front of `extend` is reported at the word. -/
theorem blames_describedExtension {found : Token} {keyword : String} (hkind : found.kind = .name keyword) :
    (Parser.describedExtension found).Blames found := by
  obtain ⟨kind, span⟩ := found
  obtain rfl : kind = .name keyword := hkind
  exact Parser.blames_of_isLegible rfl (.name keyword)
    trivial

/-- After the description the next word decides, and it may itself be what does not fit. -/
theorem stopsOn_definitionOf {s : TokenStream} {keyword : String} (hkind : s.current.kind = .name keyword)
    (description : Option String) :
    Parser.StopsOn (.orBare source start fun ts ↦ description = none ∧ IsBareExtension ts)
      (Phrase.described admitted description).Viable
      (Parser.definitionOf source keyword description start) s := by
  have hlegible : s.current.kind.IsLegible := hkind ▸ .name keyword
  -- the word is refused
  have stopsOn_of_current {p : Parser Definition} (look : Token → Except ParseError Definition)
      (h : ∀ s, (p s).1 = look s.current) (hlook : ∀ e, look s.current = .error e → e.Blames s.current) :
      Parser.StopsOn (.orBare source start fun ts ↦ description = none ∧ IsBareExtension ts)
        (Phrase.described admitted description).Viable p s :=
    fun e s' hends he _ ↦ (Parser.StopsAt.current look h hends he (hlook e) .nil).mono (fun _ ↦ id)
      fun _ _ ↦ .inl
  unfold Parser.definitionOf
  cases TypeKind.ofKeyword? keyword with
  | some kind =>
    have htype := (stops_typeDefinition source kind description start).wrapped Definition.type
    exact (htype.weaken fun _ _ _ _ ↦ .inl).mono (fun _ hts ↦ .left (.oneOf hts)) s
  | none =>
    refine .ite (fun _ ↦ ?_) fun _ ↦ .ite (fun _ ↦ ?_) fun _ ↦ .ite (fun _ ↦ .ite (fun hnone ↦ ?_) fun _ ↦ ?_)
      fun _ ↦ ?_
    · have hdirective := (stops_directiveDefinition source description start).wrapped Definition.directive
      exact (hdirective.weaken fun _ _ _ _ ↦ .inl).mono (fun _ hts ↦ .right (.left hts)) s
    · have hschema := (stops_schemaDefinition source description start).wrapped Definition.schema
      exact (hschema.weaken fun _ _ _ _ ↦ .inl).mono (fun _ hts ↦ .right (.right (.left hts))) s
    · obtain rfl := Option.isNone_iff_eq_none.1 hnone
      refine ((stops_extension source start).weaken fun e before ts found ↦ .imp_right ?_).mono
        (fun ts hts ↦ .right (.right (.right ?_))) s
      · rintro ⟨hfault, hbare, hspan⟩
        exact ⟨hfault, ⟨rfl, hbare⟩, hspan⟩
      · exact .provided rfl hts
    · refine stopsOn_of_current (fun t ↦ .error (Parser.describedExtension t)) (fun _ ↦ rfl) ?_
      rintro e ⟨⟩
      exact blames_describedExtension hkind
    · refine stopsOn_of_current (fun t ↦ .error (Parser.unknownKeyword keyword t.span)) (fun _ ↦ rfl) ?_
      rintro e ⟨⟩
      obtain ⟨hspan, hfault⟩ := unknownKeyword_eq keyword s.current.span
      exact Parser.blames_of_isLegible hspan hlegible (by rw [hfault]; trivial)

/-- The error is about the token that was found, or about an extension that adds nothing: the last tokens
passed are that extension, and the error has its span. -/
def Blame.orExtension (source : Option String) : Blame := fun e _ ts found ↦ e.Blames found ∨
  (∃ kind requirement, e.fault = .emptyExtension kind requirement) ∧
    ∃ earlier extend others, ts = earlier ++ extend :: others ∧
      IsBareExtension ((extend :: others).map Token.kind) ∧
      e.span = ⟨extend.span.start, Token.lastStop extend.span.stop others, source⟩

/-- What is said of a bare extension stays so behind more tokens. -/
theorem Blame.isStable_orExtension {source : Option String} : (Blame.orExtension source).IsStable := by
  rintro e before front us found (hblames | ⟨hfault, earlier, extend, others, rfl, hbare, hspan⟩)
  · exact .inl hblames
  · exact .inr ⟨hfault, front ++ earlier, extend, others, (List.append_assoc _ _ _).symm, hbare, hspan⟩

/-- Where the first token of a stream begins, an extension begins if it comes first. -/
theorem Parser.StopsOn.orExtension {p : Parser α} {s : TokenStream}
    (h : Stops (.orBare source s.current.span.start IsBareExtension) V p) :
    Parser.StopsOn (.orExtension source) V p s := by
  intro e s' hends he hdepth
  obtain ⟨ts, found, rest, hpending, hts, hblame, hagain⟩ := h s e s' hends he hdepth
  refine ⟨ts, found, rest, hpending, hts, ?_, hagain⟩
  rcases hblame with hblames | ⟨hfault, hbare, hspan⟩
  · exact .inl hblames
  · cases ts with
    | nil => cases hbare
    | cons extend others =>
      have hcurrent : s.current = extend := by
        rw [TokenStream.current, hpending]
        rfl
      rw [hcurrent] at hspan
      exact .inr ⟨hfault, [], extend, others, rfl, hbare, hspan⟩

/-- Items stop likewise; a bare extension is reported with its own extent. -/
theorem stops_definition :
    Stops (.orExtension source) (Phrase.definition admitted).Viable (Parser.definition source) := by
  have hnone {ts : List TokenKind} (hts : Phrase.description ts none) : ts = [] := by
    rcases hts with ⟨_, _, _, _, _, _, hsome⟩ | ⟨hnil, -⟩
    · cases hsome
    · exact hnil
  refine .look (fun _ ↦ ⟨_, rfl⟩) fun s start hstart ↦ ?_
  cases hstart
  refine .orExtension source (.bind_orBare (fun description ts ↦ description = none ∧ IsBareExtension ts)
    (fun description ↦ (Phrase.described admitted description).Viable) (.of_reads reads_description)
    .succeeding (fun description ↦ ?_)
    (fun _ description _ hts ↦ .second (by rwa [withoutSpans_string?] at hts)) ?_)
  · have hrefused (s' : TokenStream) : Parser.StopsOn
        (.orBare source s.current.span.start fun ts ↦ description = none ∧ IsBareExtension ts)
        (Phrase.described admitted description).Viable
        (Parser.unexpected (α := Option Definition) ["a type-system definition"]) s' :=
      Stops.weaken (Parser.stops_unexpected _ .nil) (fun _ _ _ _ ↦ .inl) s'
    refine .look (fun _ ↦ ⟨_, rfl⟩) fun s' t ht ↦ ?_
    cases ht
    cases hkind : s'.current.kind with
    | name keyword =>
      exact (stopsOn_definitionOf source _ hkind description).andThen fun _ ↦ inferInstance
    | endOfInput => exact .ite (fun _ ↦ Stops.succeeding s') fun _ ↦ hrefused s'
    | _ => exact hrefused s'
  · rintro ts _ us hts ⟨rfl, hus⟩
    rwa [hnone hts]

/-- **Documents stop at the first token with which none can go on.** -/
theorem stops_document :
    Stops (.orExtension source) (Phrase.document admitted).Viable (Parser.document source) := by
  have hround : Stops (.orExtension source) ((Phrase.definition admitted).ViableRound (pure ()))
      (Parser.definition source) :=
    (stops_definition source).mono fun _ ↦ .inl
  exact (Stops.many (reads_definition source) hround Blame.isStable_orExtension).last

end Extensions

/-! ### Texts that are no documents -/

/-- Comments aside, the tokens begin with some that begin a document, and then one comes with which no
document goes on. -/
structure IsFirstMisfit (source : Option String) (tokens before : List Token) (found : Token) : Prop where
  exists_eq : ∃ after, (tokens.filter fun t ↦ !t.isComment) = before ++ found :: after
  may_go_on : ∃ more stop, (Document.ofTokens source (before ++ more ++ [.endAt stop])).isOk
  may_not_go_on : ∀ more, ¬ (Document.ofTokens source (before ++ found :: more)).isOk

/-- The tokens of a text come to an end. -/
theorem ends_ofTokens_lex (text : String) : (TokenStream.ofTokens (Token.lex text)).Ends := by
  obtain ⟨ts, hts, -⟩ := (Token.tiling_lexFrom .origin text.toList).exists_last
  have hmem : Token.endAt (Place.origin.past text.toList).pos ∈ Token.lex text := by
    rw [Token.lex, hts]
    exact List.mem_append_right _ (List.mem_singleton_self _)
  exact ⟨_, List.mem_filter.2 ⟨hmem, rfl⟩, rfl⟩

/-- Tokens that are legible are all significant. -/
theorem significant_of_isLegible {ts : List Token} (h : ∀ k ∈ ts.map Token.kind, k.IsLegible)
    (stop : Position) : significant (ts ++ [.endAt stop]) = ts.map Token.kind := by
  have hlegible : ∀ t ∈ ts, t.kind.IsLegible := List.forall_mem_map.1 h
  rw [significant_append fun t ht ↦ (hlegible t ht).ne_endOfInput, significant_endAt, List.append_nil]
  congr 1
  refine List.filter_eq_self.2 fun t ht ↦ ?_
  simpa [Token.isComment] using (hlegible t ht).ne_comment

/-- Tokens that begin a document can be made a document. -/
theorem exists_isOk_of_viable (source : Option String) {ts : List Token}
    (h : (Phrase.document admitted).Viable (ts.map Token.kind)) :
    ∃ more stop, (Document.ofTokens source (ts ++ more ++ [.endAt stop])).isOk := by
  obtain ⟨more, document, hdocument⟩ := h
  -- more tokens of these kinds, no matter where they stand
  have hkinds : (ts ++ more.map fun k ↦ (⟨k, .blank⟩ : Token)).map Token.kind =
      ts.map Token.kind ++ more := by
    rw [List.map_append, List.map_map]
    exact congrArg _ (List.map_id more)
  rw [← hkinds] at hdocument
  rw [← significant_of_isLegible (Phrase.Legible.isLegible hdocument) .origin] at hdocument
  obtain ⟨read, hread, -⟩ := exists_ofTokens_eq_of_document source hdocument
  exact ⟨_, .origin, by rw [hread]; rfl⟩

/-- **An error is at the first token with which no document goes on.** The tokens before it begin a
document, and with it they begin none; if it is the end of the input, what stands before is no document
itself. The error of an extension that adds nothing spans that extension, which is the last of the tokens
before. Any other error has the span of the token; it is the error of an invalid token, with its message and
notes, exactly if the token is one, and of an unexpected end exactly if the token is the end. -/
theorem error_at_first_misfit {source : Option String} {text : String} {e : ParseError}
    (h : Document.ofTokens source (Token.lex text) = .error e) (hdepth : ∀ limit, e.fault ≠ .tooDeep limit) :
    ∃ before found, IsFirstMisfit source (Token.lex text) before found ∧
      ((∃ kind requirement, e.fault = .emptyExtension kind requirement) →
        ∃ earlier extend others, before = earlier ++ extend :: others ∧
          IsBareExtension ((extend :: others).map Token.kind) ∧
          e.span = ⟨extend.span.start, Token.lastStop extend.span.stop others, source⟩) ∧
      ((∀ kind requirement, e.fault ≠ .emptyExtension kind requirement) → e.Blames found) := by
  obtain ⟨before, found, after, hpending, hbefore, hblame, hagain⟩ :=
    stops_document source _ e _ (ends_ofTokens_lex text) (Prod.ext h rfl) hdepth
  have htokens : ((Token.lex text).filter fun t ↦ !t.isComment) = before ++ found :: after := hpending
  refine ⟨before, found, ⟨⟨after, htokens⟩, exists_isOk_of_viable source hbefore, fun more hok ↦ ?_⟩, ?_, ?_⟩
  · -- none of these tokens is a comment, so they are what the parser sees
    have hkept : ((before ++ [found]).filter fun t ↦ !t.isComment) = before ++ [found] := by
      refine List.filter_eq_self.2 fun t ht ↦ ?_
      have hmem : t ∈ (Token.lex text).filter fun t ↦ !t.isComment := by
        rw [htokens, List.append_cons]
        exact List.mem_append_left _ ht
      exact (List.mem_filter.1 hmem).2
    have hstream : TokenStream.ofTokens (before ++ found :: more) =
        .after .origin (before ++ found :: more.filter fun t ↦ !t.isComment) := by
      rw [TokenStream.ofTokens, List.append_cons, List.filter_append, hkept, ← List.append_cons]
    obtain ⟨s', hs'⟩ := hagain (more.filter fun t ↦ !t.isComment)
    change Parser.document source (.after .origin _) = _ at hs'
    rw [Document.ofTokens, hstream, hs'] at hok
    cases hok
  · rintro ⟨kind, requirement, hfault⟩
    rcases hblame with hblames | ⟨-, hextension⟩
    · exact absurd hfault (hblames.ne_emptyExtension kind requirement)
    · exact hextension
  · intro hfault
    rcases hblame with hblames | ⟨⟨kind, requirement, hempty⟩, -⟩
    · exact hblames
    · exact absurd hempty (hfault kind requirement)

/-- An extension with nothing in it, at the end of a text. -/
theorem error_at_end_of_extension :
    ∃ e, Document.ofTokens none (Token.lex "extend scalar A #") = .error e ∧
      e.fault = .emptyExtension "scalar" "directive" ∧
      ∃ before found, IsFirstMisfit none (Token.lex "extend scalar A #") before found ∧
        ∃ earlier extend others, before = earlier ++ extend :: others ∧
          IsBareExtension ((extend :: others).map Token.kind) ∧
          e.span = ⟨extend.span.start, Token.lastStop extend.span.stop others, none⟩ := by
  have hread : Document.ofTokens none (Token.lex "extend scalar A #") =
      .error ⟨"`extend scalar` must add at least one directive", ⟨.origin, ⟨0, 15, 15, 15⟩, none⟩,
        .emptyExtension "scalar" "directive", []⟩ := by
    decide +kernel
  obtain ⟨before, found, hfirst, hspan, -⟩ := error_at_first_misfit hread (by simp)
  exact ⟨_, hread, rfl, before, found, hfirst, hspan ⟨_, _, rfl⟩⟩

end TypeSystem
