import TypeSystem.Proofs.Reading.Loops

/-!
# The productions read their phrases

Each parser of the grammar reads the phrase of the same name. The proofs follow the parsers step by step;
what has to be said besides is which tokens must not follow, and why they do not. Only a few steps may go
on too far: the mark of a type reference, a default value, applied directives, and lists that may be
missing. After a member come another member, which begins with a string or a name, and the closing bracket,
and after an item another item or the end of the input.
-/

namespace TypeSystem

variable {K : Set TokenKind}

/-- The type references that are read. -/
def admitted (type : TypeReference) : Prop := type.depth < Parser.maxLevels

/-! ### Values without spans -/

@[simp] theorem withoutSpans_strings (texts : List String) : withoutSpans texts = texts :=
  List.map_id texts

@[simp] theorem withoutSpans_string? (text : Option String) : withoutSpans text = text :=
  Option.map_id_apply

/-! ### Type references and values -/

theorem reads_nullability : Reads {.punctuator .bang} Parser.nullability Phrase.nullability :=
  .bind (.present (by simp) (Parser.accepts_acceptMark .bang)) (fun _ ↦ .pure rfl) fun _ ↦
    .pure Set.Subset.rfl _

/-- A type reference of so many levels is a name, or one of a level less between square brackets. -/
theorem typeReference_succ_iff {levels : ℕ} {ts : List TokenKind} {type : TypeReference} :
    ((do
        Phrase.mark .bracketOpen
        let element ← Phrase.typeReference fun type ↦ type.depth < levels
        Phrase.mark .bracketClose
        return .list element (← Phrase.nullability)) <|>
      (do let name ← Phrase.name; return .named name (← Phrase.nullability) :
        Phrase TypeReference)) ts type ↔
      Phrase.typeReference (fun type ↦ type.depth < levels + 1) ts type := by
  constructor
  · rintro (h | h)
    · obtain ⟨_, rfl, element, inside, _, rfl, ⟨helement, hdepth⟩, hclose⟩ := Phrase.mark_bind_iff.1 h
      obtain ⟨marks, rfl, hmarks⟩ := Phrase.mark_bind_iff.1 hclose
      obtain ⟨n, hn, rfl⟩ := Phrase.bind_return_iff.1 hmarks
      exact ⟨.list helement hn, Nat.succ_lt_succ hdepth⟩
    · obtain ⟨name, marks, rfl, hmarks⟩ := Phrase.name_bind_iff.1 h
      obtain ⟨n, hn, rfl⟩ := Phrase.bind_return_iff.1 hmarks
      exact ⟨.named hn, Nat.succ_pos levels⟩
  · rintro ⟨htype, hdepth⟩
    cases htype with
    | named hn => exact .inr (Phrase.name_bind_iff.2 ⟨_, _, rfl, Phrase.bind_return_iff.2 ⟨_, hn, rfl⟩⟩)
    | list helement hn =>
      have hinside := Nat.lt_of_succ_lt_succ hdepth
      refine .inl (Phrase.mark_bind_iff.2 ⟨_, rfl, _, _, _, rfl, ⟨helement, hinside⟩, ?_⟩)
      exact Phrase.mark_bind_iff.2 ⟨_, rfl, Phrase.bind_return_iff.2 ⟨_, hn, rfl⟩⟩

/-- Type references of so many levels are read, the innermost name counted as one. -/
theorem reads_typeReferenceWithin (levels : ℕ) :
    Reads {.punctuator .bang} (Parser.typeReferenceWithin levels)
      (Phrase.typeReference fun type ↦ type.depth < levels) := by
  induction levels with
  | zero =>
    refine .failing ?_
    rintro ts type ⟨-, hdepth⟩
    exact Nat.not_lt_zero _ hdepth
  | succ levels ih =>
    refine Reads.congr (.branch (by simp) (Parser.accepts_acceptMark .bracketOpen) ?_ ?_ ?_)
      fun ts type ↦ typeReference_succ_iff
    · refine ih.bind (fun element ↦ .mark ?_) fun _ ↦ .first (.mark (by simp))
      exact reads_nullability.bind (fun n ↦ .pure rfl) fun _ ↦ .pure Set.Subset.rfl _
    · refine .andThen (.name "a type") fun name ↦ ?_
      exact reads_nullability.bind (fun n ↦ .pure rfl) fun _ ↦ .pure Set.Subset.rfl _
    · exact .first (.name (by simp))

/-- Type references are read up to the limit of nesting. -/
theorem reads_typeReference :
    Reads {.punctuator .bang} Parser.typeReference (Phrase.typeReference admitted) :=
  reads_typeReferenceWithin Parser.maxLevels

theorem reads_value (expected : String) : Reads ∅ (Parser.value expected) Phrase.value :=
  .token (Parser.views_value expected) fun _ ↦ rfl

/-- The strings, of either sort. -/
def strings : Set TokenKind := {k | k.sort = .string ∨ k.sort = .blockString}

theorem mem_strings_iff {k : TokenKind} :
    k ∈ strings ↔ ∃ text, k = .string text ∨ k = .blockString text := by
  cases k <;> simp [strings, TokenKind.sort]

theorem endOfInput_notMem_strings : .endOfInput ∉ strings := by simp [mem_strings_iff]

/-- A string in front is a description. -/
theorem description?_of_mem {s : TokenStream} (h : s.current.kind ∈ strings) :
    Parser.description? s = (.ok s.current.kind.rawText?, s.advance) := by
  refine Parser.bind_eq_ok_iff.2 ⟨some s.current, s.advance, ?_, rfl⟩
  rw [Parser.accept, if_pos (by simpa [strings] using h)]

/-- Nothing else is. -/
theorem description?_of_notMem {s : TokenStream} (h : s.current.kind ∉ strings) :
    Parser.description? s = (.ok none, s) := by
  refine Parser.bind_eq_ok_iff.2 ⟨none, s, ?_, rfl⟩
  rw [Parser.accept, if_neg (by simpa [strings] using h)]

/-- A description is read, in front of anything that is no string itself. -/
theorem reads_description : Reads strings Parser.description? Phrase.description where
  sound s r s' h := by
    by_cases hmem : s.current.kind ∈ strings
    · rw [description?_of_mem hmem] at h
      cases h
      obtain ⟨text, htext⟩ := mem_strings_iff.1 hmem
      refine ⟨[s.current], .advance (fun hend ↦ endOfInput_notMem_strings (hend ▸ hmem)), .inl ?_⟩
      refine ⟨text, [s.current.kind], [], rfl, ?_, rfl, ?_⟩
      · exact htext.imp (congrArg fun k ↦ [k]) (congrArg fun k ↦ [k])
      · rcases htext with hkind | hkind <;> rw [hkind] <;> rfl
    · rw [description?_of_notMem hmem] at h
      cases h
      exact ⟨[], .refl s, .inr ⟨rfl, rfl⟩⟩
  complete e ts rest x h hfree := by
    rcases h with ⟨text, front, _, hts, htext, rfl, rfl⟩ | ⟨hts, rfl⟩
    · rw [List.append_nil] at hts
      subst hts
      have htoken : ∃ t, ts = [t] ∧ t.kind ∈ strings ∧ t.kind.rawText? = some text := by
        rcases htext with h | h <;> obtain ⟨t, rfl, ht⟩ := List.map_eq_singleton_iff.1 h <;>
          exact ⟨t, rfl, by rw [ht]; simp [mem_strings_iff], by rw [ht]; rfl⟩
      obtain ⟨t, rfl, hmem, hraw⟩ := htoken
      rw [← hraw]
      exact ⟨_, t.span.stop, description?_of_mem hmem, withoutSpans_string? _⟩
    · obtain rfl := List.map_eq_nil_iff.1 hts
      exact ⟨none, e, description?_of_notMem (hfree.current_notMem endOfInput_notMem_strings), rfl⟩

/-! ### Applied directives -/

theorem reads_argument : Reads ∅ Parser.argument Phrase.argument :=
  .andThen (.name _) fun _ ↦ .mark (.andThen (reads_value _) fun _ ↦ .pure rfl)

/-- A directive is read with its arguments or without, in front of anything that does not open a parenthesis.
-/
theorem reads_appliedDirective (source : Option String) :
    Reads {.punctuator .parenOpen} (Parser.appliedDirective source) Phrase.appliedDirective := by
  have hblock : Reads ∅ (Parser.block .parens "directive argument list" Parser.argument)
      (Phrase.block .parens Phrase.argument) :=
    reads_block reads_argument (.first (.name (by simp))) (.first (.name (by simp))) (Set.notMem_empty _)
  refine .here fun start ↦ .mark (.andThen (.name _) fun name ↦ ?_)
  refine (reads_optionalBlock hblock).bind (fun arguments ↦ ?_) fun _ ↦ .pure Set.Subset.rfl _
  exact .spanFrom fun span ↦ .pure (by simp [withoutSpans, HasSpans.mapSpans])

/-- The tokens that must not follow applied directives. -/
def directivesEnd : Set TokenKind := {.punctuator .atSign, .punctuator .parenOpen}

theorem reads_appliedDirectives (source : Option String) :
    Reads directivesEnd (Parser.appliedDirectives source) Phrase.appliedDirectives := by
  have hitem := readsOrEnds_peek (p := .atSign) (reads_appliedDirective source)
    fun _ _ ↦ Phrase.head?_of_mark
  refine reads_many_of_pure (hitem.mono ?_) (.first (.mark (by simp))) ?_
  · simp [directivesEnd]
  · simp [directivesEnd]

/-! ### Members -/

/-- The tokens that must not follow a member. -/
def memberEnd : Set TokenKind :=
  {.punctuator .bang, .punctuator .equals, .punctuator .atSign, .punctuator .parenOpen}

/-- What ends a member ends its directives. -/
theorem directivesEnd_subset_memberEnd : directivesEnd ⊆ memberEnd := by
  simp [directivesEnd, memberEnd, Set.insert_subset_iff]

/-- Directives begin with an at sign, so they shield against everything else. -/
theorem shields_appliedDirectives {K₁ K₂ : Set TokenKind} (hat : .punctuator .atSign ∉ K₁)
    (hK : K₁ ⊆ K₂) : Phrase.appliedDirectives.Shields K₁ K₂ :=
  .many (.first (.mark hat)) hK

theorem shields_description {K₁ K₂ : Set TokenKind} (hstrings : ∀ k ∈ strings, k ∉ K₁) (hK : K₁ ⊆ K₂) :
    Phrase.description.Shields K₁ K₂ := by
  refine .or (.first (.token fun ts text h ↦ ?_)) (.pure hK none)
  rcases h with rfl | rfl
  · exact ⟨_, hstrings _ (mem_strings_iff.2 ⟨text, .inl rfl⟩), rfl⟩
  · exact ⟨_, hstrings _ (mem_strings_iff.2 ⟨text, .inr rfl⟩), rfl⟩

/-- Members begin with a string or a name. -/
theorem shields_member {α : Type} {Q : Option String → String → Phrase α}
    (hK : ∀ k ∈ K, ∃ p, k = .punctuator p) :
    (Phrase.description >>= fun description ↦ Phrase.name >>= Q description).Shields K ∅ := by
  have hstrings : ∀ k ∈ strings, k ∉ K := by
    intro k hk hmem
    obtain ⟨p, rfl⟩ := hK k hmem
    simp [mem_strings_iff] at hk
  have hname (text : String) : .name text ∉ K := fun hmem ↦ by
    obtain ⟨p, hp⟩ := hK _ hmem
    cases hp
  exact .bind (shields_description hstrings Set.Subset.rfl) fun _ ↦ .first (.name hname)

/-- A member is ended by marks. -/
theorem punctuator_of_mem_memberEnd : ∀ k ∈ memberEnd, ∃ p, k = .punctuator p := by
  simp [memberEnd]

/-- Members between brackets. -/
theorem reads_members {α : Type} [HasSpans α] {item : Parser α}
    {Q : Option String → String → Phrase α} {brackets : Brackets} {construct : String}
    (h : Reads memberEnd item (Phrase.description >>= fun description ↦ Phrase.name >>= Q description)) :
    Reads ∅ (Parser.block brackets construct item)
      (Phrase.block brackets (Phrase.description >>= fun description ↦ Phrase.name >>= Q description)) := by
  refine reads_block h (shields_member punctuator_of_mem_memberEnd) (shields_member ?_) ?_
  · rintro _ rfl
    exact ⟨_, rfl⟩
  · cases brackets <;> simp [memberEnd, Brackets.closing]

/-- An input value is read in front of anything that ends a member. -/
theorem reads_inputValue (source : Option String) :
    Reads memberEnd (Parser.inputValue source) (Phrase.inputValue admitted) := by
  refine .here fun start ↦ ?_
  refine .bind reads_description (fun description ↦ ?_) fun _ ↦ .first (.name (by simp [mem_strings_iff]))
  refine .andThen (.name _) fun name ↦ .mark ?_
  -- after the type come `=`, `@` or the end of the member, but no `!`
  refine .bind reads_typeReference (fun type ↦ ?_) fun _ ↦
    .bind (.afterMark (by simp) Set.Subset.rfl) fun _ ↦
      .bind (shields_appliedDirectives (by simp) Set.Subset.rfl) fun _ ↦ .pure (by simp [memberEnd]) _
  have hdefault : Reads {.punctuator .equals} (Parser.afterMark .equals (Parser.value "a default value"))
      (Phrase.afterMark .equals Phrase.value) :=
    reads_afterMark ((reads_value _).mono (Set.empty_subset _)) rfl
  refine .bind hdefault (fun value ↦ ?_) fun _ ↦
    .bind (shields_appliedDirectives (by simp) Set.Subset.rfl) fun _ ↦ .pure (by simp [memberEnd]) _
  refine .bind (reads_appliedDirectives source) (fun directives ↦ ?_) fun _ ↦
    .pure directivesEnd_subset_memberEnd _
  exact .spanFrom fun span ↦ .pure (by simp [withoutSpans, HasSpans.mapSpans])

theorem reads_arguments (source : Option String) :
    Reads {.punctuator .parenOpen} (Parser.arguments source) (Phrase.arguments admitted) := by
  have hblock : Reads ∅ (Parser.block .parens "argument list" (Parser.inputValue source))
      (Phrase.block .parens (Phrase.inputValue admitted)) := reads_members (reads_inputValue source)
  exact reads_optionalBlock hblock

theorem reads_field (source : Option String) :
    Reads memberEnd (Parser.field source) (Phrase.field admitted) := by
  refine .here fun start ↦ ?_
  refine .bind reads_description (fun description ↦ ?_) fun _ ↦ .first (.name (by simp [mem_strings_iff]))
  refine .andThen (.name _) fun name ↦ ?_
  refine .bind (reads_arguments source) (fun arguments ↦ .mark ?_) fun _ ↦ .first (.mark (by simp))
  refine .bind reads_typeReference (fun type ↦ ?_) fun _ ↦
    .bind (shields_appliedDirectives (by simp) Set.Subset.rfl) fun _ ↦ .pure (by simp [memberEnd]) _
  refine .bind (reads_appliedDirectives source) (fun directives ↦ ?_) fun _ ↦
    .pure directivesEnd_subset_memberEnd _
  exact .spanFrom fun span ↦ .pure (by simp [withoutSpans, HasSpans.mapSpans])

theorem reads_enumValue (source : Option String) :
    Reads memberEnd (Parser.enumValue source) Phrase.enumValue := by
  refine .here fun start ↦ ?_
  refine .bind reads_description (fun description ↦ ?_) fun _ ↦ .first (.name (by simp [mem_strings_iff]))
  refine .requireName fun name span ↦ ?_
  have hreserved : (name ∉ ["true", "false", "null"]) = ¬ Parser.reservedValues.contains name = true := by
    simp [Parser.reservedValues]
  rw [hreserved]
  refine .guarded fun _ ↦ ?_
  refine .bind (reads_appliedDirectives source) (fun directives ↦ ?_) fun _ ↦
    .pure directivesEnd_subset_memberEnd _
  exact .spanFrom fun span ↦ .pure (by simp [withoutSpans, HasSpans.mapSpans])

/-! ### Types -/

/-- The tokens that must not follow an item. -/
def itemEnd : Set TokenKind :=
  {.name "implements", .punctuator .ampersand, .punctuator .atSign, .punctuator .parenOpen,
    .punctuator .braceOpen, .punctuator .equals, .punctuator .pipe}

/-- What ends an item ends its directives. -/
theorem directivesEnd_subset_itemEnd : directivesEnd ⊆ itemEnd := by
  simp [directivesEnd, itemEnd, Set.insert_subset_iff]

theorem reads_implemented :
    Reads {.name "implements", .punctuator .ampersand} Parser.implemented Phrase.implemented := by
  have hnames : Reads {.punctuator .ampersand}
      (Parser.separated .ampersand (Parser.name "an interface name"))
      (Phrase.separated .ampersand Phrase.name) := reads_separated (.name _) (.name (by simp))
  refine .branch (by simp) (Parser.accepts_acceptKeyword "implements") (hnames.mono ?_) (.pure rfl)
    (.pure ?_ _)
  · simp
  · simp

/-- Members that are there, or may be missing. -/
theorem reads_bracedMembers {α : Type} [HasSpans α] {mayLack : Bool} {item : Parser α}
    {Q : Option String → String → Phrase α} {construct : String}
    (h : Reads memberEnd item (Phrase.description >>= fun description ↦ Phrase.name >>= Q description)) :
    Reads {.punctuator .braceOpen} (Parser.members mayLack construct item)
      (Phrase.members mayLack (Phrase.block .braces
        (Phrase.description >>= fun description ↦ Phrase.name >>= Q description))) := by
  have hblock : Reads ∅ (Parser.block .braces construct item) (Phrase.block .braces
      (Phrase.description >>= fun description ↦ Phrase.name >>= Q description)) := reads_members h
  cases mayLack with
  | false => exact hblock.mono (Set.empty_subset _)
  | true => exact reads_optionalBlock hblock

theorem shields_members {α : Type} {K₁ K₂ : Set TokenKind} {mayLack : Bool} {P : Phrase (List α)}
    (hP : P.Shields K₁ ∅) (hK : K₁ ⊆ K₂) : (Phrase.members mayLack P).Shields K₁ K₂ := by
  cases mayLack with
  | false => exact hP.mono (Set.empty_subset _)
  | true => exact .orEmpty (hP.mono (Set.empty_subset _)) hK

section TypeBody

variable (source : Option String) {mayLack : Bool}

/-- Directives, and then members between braces. -/
theorem reads_directivesAndMembers {α : Type} [HasSpans α] {item : Parser α}
    {Q : Option String → String → Phrase α} {construct : String}
    (h : Reads memberEnd item (Phrase.description >>= fun description ↦ Phrase.name >>= Q description))
    (body : List α → TypeBody) (hbody : ∀ as, withoutSpans (body as) = body (withoutSpans as)) :
    Reads itemEnd
      (do
        let directives ← Parser.appliedDirectives source
        let members ← Parser.members mayLack construct item
        return (directives, body members))
      (do
        let directives ← Phrase.appliedDirectives
        let members ← Phrase.members mayLack (Phrase.block .braces
          (Phrase.description >>= fun description ↦ Phrase.name >>= Q description))
        return (directives, body members)) := by
  refine .bind (reads_appliedDirectives source) (fun directives ↦ ?_) fun _ ↦ .bind
    (shields_members (.first (.mark (by simp [Brackets.opening, directivesEnd]))) Set.Subset.rfl)
    fun _ ↦ .pure directivesEnd_subset_itemEnd _
  refine .bind (reads_bracedMembers h) (fun members ↦ .pure ?_) fun _ ↦ .pure (by simp [itemEnd]) _
  exact Prod.ext rfl (hbody members)

theorem shields_directivesAndMembers {α : Type} {P : Phrase α}
    {body : List AppliedDirective → List α → List AppliedDirective × TypeBody} :
    Phrase.Shields {.name "implements", .punctuator .ampersand} itemEnd (do
      let directives ← Phrase.appliedDirectives
      let members ← Phrase.members mayLack (Phrase.block .braces P)
      return body directives members) :=
  .bind (shields_appliedDirectives (by simp) Set.Subset.rfl) fun _ ↦
    .bind (shields_members (.first (.mark (by simp [Brackets.opening]))) Set.Subset.rfl) fun _ ↦
      .pure (by simp [itemEnd, Set.insert_subset_iff]) _

/-- Directives, and then the member types of a union. -/
theorem reads_unionBody :
    Reads itemEnd (Parser.typeBody source mayLack .union) (Phrase.typeBody admitted mayLack .union) := by
  have hnames : Reads {.punctuator .pipe} Parser.unionMembers (Phrase.separated .pipe Phrase.name) :=
    reads_separated (.name _) (.name (by simp))
  have hpipe : ({.punctuator .pipe} : Set TokenKind) ⊆ itemEnd := by simp [itemEnd]
  refine .bind (reads_appliedDirectives source) (fun directives ↦ ?_) fun _ ↦ .bind
    (shields_members (.first (.mark (by simp [directivesEnd]))) Set.Subset.rfl)
    fun _ ↦ .pure directivesEnd_subset_itemEnd _
  cases mayLack with
  | false =>
    -- the mark belongs to the members in the phrase, and stands before them in the parser
    show Reads itemEnd _ ((do Phrase.mark .equals; Phrase.separated .pipe Phrase.name) >>= _)
    rw [Phrase.bind_assoc]
    exact .mark (hnames.bind (fun members ↦ .pure (by simp [withoutSpans, HasSpans.mapSpans]))
      fun _ ↦ .pure hpipe _)
  | true =>
    show Reads itemEnd _ (Phrase.orEmpty (do Phrase.mark .equals; Phrase.separated .pipe Phrase.name) >>= _)
    rw [← Phrase.afterMark_bind_getD]
    have hmembers : Reads itemEnd (Parser.afterMark .equals Parser.unionMembers)
        (Phrase.afterMark .equals (Phrase.separated .pipe Phrase.name)) :=
      reads_afterMark (hnames.mono hpipe) (by simp [itemEnd])
    refine hmembers.bind (fun members ↦ .pure ?_) fun _ ↦ .pure Set.Subset.rfl _
    cases members <;> simp [withoutSpans, HasSpans.mapSpans]

/-- Each kind of type is read by its own production. -/
theorem reads_typeBody (kind : TypeKind) :
    Reads itemEnd (Parser.typeBody source mayLack kind) (Phrase.typeBody admitted mayLack kind) := by
  cases kind with
  | scalar =>
    exact .bind (reads_appliedDirectives source) (fun directives ↦ .pure rfl) fun _ ↦
      .pure directivesEnd_subset_itemEnd _
  | object =>
    refine .bind reads_implemented (fun interfaces ↦ ?_) fun _ ↦ shields_directivesAndMembers
    rw [withoutSpans_strings]
    exact reads_directivesAndMembers source (reads_field source) (.object interfaces) fun _ ↦ rfl
  | interface =>
    refine .bind reads_implemented (fun interfaces ↦ ?_) fun _ ↦ shields_directivesAndMembers
    rw [withoutSpans_strings]
    exact reads_directivesAndMembers source (reads_field source) (.interface interfaces) fun _ ↦ rfl
  | union => exact reads_unionBody source
  | enum => exact reads_directivesAndMembers source (reads_enumValue source) .enum fun _ ↦ rfl
  | inputObject =>
    exact reads_directivesAndMembers source (reads_inputValue source) .inputObject fun _ ↦ rfl

theorem reads_typeDefinition (kind : TypeKind) (description : Option String) (start : Position) :
    Reads itemEnd (Parser.typeDefinition source kind description start)
      (Phrase.typeDefinition admitted kind description) := by
  refine .keyword (.andThen (.name _) fun name ↦ ?_)
  refine .bind (reads_typeBody source kind) (fun r ↦ ?_) fun _ ↦ .pure Set.Subset.rfl _
  obtain ⟨directives, body⟩ := r
  exact .spanFrom fun span ↦ .pure (by simp [withoutSpans, HasSpans.mapSpans])

theorem isEmpty_mapSpans (g : Span → Span) (body : TypeBody) :
    (HasSpans.mapSpans g body).isEmpty = body.isEmpty := by
  cases body <;> simp [HasSpans.mapSpans, TypeBody.isEmpty]

/-- Whether there are members does not depend on spans. -/
theorem isEmpty_withoutSpans (body : TypeBody) : (withoutSpans body).isEmpty = body.isEmpty :=
  isEmpty_mapSpans _ body

/-- An extension is read if it adds something; one that does not is refused, and there is no phrase for it. -/
theorem reads_typeExtension (kind : TypeKind) (start : Position) :
    Reads itemEnd (Parser.typeExtension source kind start) (Phrase.typeExtension admitted kind) := by
  refine .keyword (.andThen (.name _) fun name ↦ ?_)
  refine .bind (reads_typeBody source kind) (fun r ↦ ?_) fun _ ↦
    .bind (.given Set.Subset.rfl _) fun _ ↦ .pure Set.Subset.rfl _
  obtain ⟨directives, body⟩ := r
  -- what is added does not depend on spans
  have hempty : (¬((withoutSpans (directives, body)).1.isEmpty = true ∧
      (withoutSpans (directives, body)).2.isEmpty = true)) =
        ¬(directives.isEmpty && body.isEmpty) = true := by
    rw [show (withoutSpans (directives, body)).2 = withoutSpans body from rfl, isEmpty_withoutSpans]
    simp [withoutSpans, HasSpans.mapSpans]
  rw [hempty]
  refine .guarded fun _ ↦ ?_
  exact .spanFrom fun span ↦ .pure (by simp [withoutSpans, HasSpans.mapSpans])

end TypeBody

/-! ### Directives and schemas -/

/-- A location is read by its name. -/
theorem reads_directiveLocation :
    Reads ∅ Parser.directiveLocation (Phrase.word DirectiveLocation.name) := by
  let known (name : String) : Phrase DirectiveLocation := fun ts location ↦
    ts = [] ∧ DirectiveLocation.ofName? name = some location
  refine Reads.congr (.requireName (Q := known) fun name span ↦ ?_) fun ts location ↦ ?_
  · cases hfound : DirectiveLocation.ofName? name with
    | none =>
      simp only [hfound]
      exact .failing (by simp [known, hfound])
    | some location =>
      simp only [hfound]
      refine Reads.congr (.pure (x := location) rfl) fun ts x ↦ ?_
      simp [known, hfound, pure, Phrase.pure, eq_comm]
  constructor
  · rintro ⟨name, _, _, rfl, hname, rfl, hlocation⟩
    obtain rfl := DirectiveLocation.name_of_ofName? hlocation
    rw [List.append_nil]
    exact hname
  · intro h
    exact ⟨_, ts, [], (List.append_nil ts).symm, h, rfl, DirectiveLocation.ofName?_name location⟩

theorem reads_directiveDefinition (source description : Option String) (start : Position) :
    Reads itemEnd (Parser.directiveDefinition source description start)
      (Phrase.directiveDefinition admitted description) := by
  refine .keyword (.mark (.andThen (.name _) fun name ↦ ?_))
  refine .bind (reads_arguments source) (fun arguments ↦ ?_) fun _ ↦
    .bind (.present (.keyword (by simp)) Set.Subset.rfl) fun _ ↦ .first (.keyword (by simp))
  refine .bind (.present (by simp) (Parser.accepts_acceptKeyword "repeatable"))
    (fun repeatable ↦ .keyword ?_) fun _ ↦ .first (.keyword (by simp))
  have hlocations := reads_separated (p := .pipe) reads_directiveLocation
    (.token fun ts location h ↦ ⟨_, by simp, h⟩)
  refine hlocations.bind (fun locations ↦ ?_) fun _ ↦ .pure (by simp [itemEnd]) _
  exact .spanFrom fun span ↦ .pure (by simp [withoutSpans, HasSpans.mapSpans])

/-! ### Root types -/

/-- One more root type, for an operation that has none yet. -/
def Phrase.nextRoot (roots : RootTypes) : Phrase RootTypes := fun ts roots' ↦
  ∃ operation name, Phrase.rootType ts (operation, name) ∧ roots.get operation = none ∧
    roots' = roots.set operation name

/-- A root type, once the word for its operation has been read. -/
def Phrase.rootTypeOf (roots : RootTypes) (keyword : String) : Phrase RootTypes :=
  Phrase.oneOf fun operation ↦ do
    Phrase.given (operation.keyword = keyword ∧ roots.get operation = none)
    Phrase.mark .colon
    return roots.set operation (← Phrase.name)

/-- A root type is read for an operation that has none yet. -/
theorem nextRoot_iff {roots roots' : RootTypes} {ts : List TokenKind} :
    (Phrase.name >>= Phrase.rootTypeOf roots) ts roots' ↔ Phrase.nextRoot roots ts roots' := by
  constructor
  · intro h
    obtain ⟨_, _, rfl, operation, hrest⟩ := Phrase.name_bind_iff.1 h
    obtain ⟨⟨rfl, hnone⟩, hcolon⟩ := Phrase.given_bind_iff.1 hrest
    obtain ⟨last, rfl, hlast⟩ := Phrase.mark_bind_iff.1 hcolon
    obtain ⟨name, hname, rfl⟩ := Phrase.bind_return_iff.1 hlast
    refine ⟨operation, name, ⟨operation, [_], _, rfl, rfl, Phrase.mark_bind_iff.2 ⟨last, rfl, ?_⟩⟩, hnone, rfl⟩
    exact Phrase.bind_return_iff.2 ⟨name, hname, rfl⟩
  · rintro ⟨operation, name, ⟨_, _, back, rfl, rfl, hcolon⟩, hnone, rfl⟩
    obtain ⟨last, rfl, hlast⟩ := Phrase.mark_bind_iff.1 hcolon
    obtain ⟨_, hname, heq⟩ := Phrase.bind_return_iff.1 hlast
    cases heq
    refine Phrase.name_bind_iff.2 ⟨_, _, rfl, operation, Phrase.given_bind_iff.2 ⟨⟨rfl, hnone⟩, ?_⟩⟩
    exact Phrase.mark_bind_iff.2 ⟨last, rfl, Phrase.bind_return_iff.2 ⟨name, hname, rfl⟩⟩

theorem shields_rootType : Phrase.rootType.Shields {.punctuator .braceClose} ∅ :=
  .first (.token fun _ operation h ↦ ⟨.name operation.keyword, by simp, h⟩)

/-- A root type is read, or a closing brace ends the list. -/
theorem reads_rootType (roots : RootTypes) :
    ReadsOrEnds ∅ ∅ (Parser.rootType roots) (Phrase.nextRoot roots) (Phrase.mark .braceClose) := by
  refine readsOrEnds_unlessMark ?_ ?_
  · refine Reads.congr (.requireName (Q := Phrase.rootTypeOf roots) fun keyword span ↦ ?_)
      fun ts x ↦ nextRoot_iff
    cases hfound : Operation.ofKeyword? keyword with
    | none =>
      simp only [hfound]
      -- the word is not that of an operation, and the phrase has no other words
      refine .failing ?_
      rintro ts x ⟨operation, hrest⟩
      obtain ⟨⟨rfl, -⟩, -⟩ := Phrase.given_bind_iff.1 hrest
      rw [Operation.ofKeyword?_keyword] at hfound
      cases hfound
    | some operation =>
      obtain rfl := Operation.keyword_of_ofKeyword? hfound
      simp only [hfound]
      have hname : Reads ∅
          (do
            let _ ← Parser.requireMark .colon
            return roots.set operation (← Parser.name "a root operation type name"))
          (do Phrase.mark .colon; return roots.set operation (← Phrase.name)) :=
        .mark (.andThen (.name _) fun name ↦ .pure rfl)
      -- the parser looks at the operation of the keyword, the phrase has some operation of this keyword
      refine Reads.congr (.guarded fun _ ↦ hname) fun ts x ↦ ?_
      constructor
      · intro h
        obtain ⟨hnone, hname⟩ := Phrase.given_bind_iff.1 h
        exact ⟨operation, Phrase.given_bind_iff.2 ⟨⟨rfl, by simpa using hnone⟩, hname⟩⟩
      · rintro ⟨operation', h⟩
        obtain ⟨⟨hkeyword, hnone⟩, hname⟩ := Phrase.given_bind_iff.1 h
        have heq := Operation.ofKeyword?_keyword operation'
        rw [hkeyword, hfound] at heq
        cases heq
        exact Phrase.given_bind_iff.2 ⟨by simp [hnone], hname⟩
  · rintro ts x rest ⟨operation, name, hroot, -⟩ hfree
    exact shields_rootType _ _ rest hroot hfree

/-- The root types of a block, as they are declared one after another. -/
theorem loop_nextRoot_iff {roots roots' : RootTypes} {ts : List TokenKind} :
    Phrase.Loop Phrase.nextRoot (Phrase.mark .braceClose) roots ts roots' ↔
      ∃ declared front, ts = front ++ [.punctuator .braceClose] ∧
        Phrase.Many Phrase.rootType front declared ∧ (declared.map Prod.fst).Nodup ∧
        (∀ operation ∈ declared.map Prod.fst, roots.get operation = none) ∧
        roots' = declared.foldl (fun types root ↦ types.set root.1 root.2) roots := by
  constructor
  · intro h
    induction h with
    | last ends => exact ⟨[], [], ends, .nil, List.nodup_nil, by simp, rfl⟩
    | more round _ ih =>
      obtain ⟨operation, name, hroot, hnone, rfl⟩ := round
      obtain ⟨declared, front, rfl, hdeclared, hnodup, hfresh, rfl⟩ := ih
      -- an operation that comes again has been set by then
      have hnot : operation ∉ declared.map Prod.fst := fun hmem ↦ by
        have hget := hfresh operation hmem
        rw [RootTypes.get_set, if_pos rfl] at hget
        cases hget
      refine ⟨(operation, name) :: declared, _, (List.append_assoc _ _ _).symm, .cons hroot hdeclared,
        List.nodup_cons.2 ⟨hnot, hnodup⟩, fun other hother ↦ ?_, rfl⟩
      rcases List.mem_cons.1 hother with rfl | hother
      · exact hnone
      · have hget := hfresh other hother
        rwa [RootTypes.get_set, if_neg (by rintro rfl; exact hnot hother)] at hget
  · rintro ⟨declared, front, rfl, hdeclared, hnodup, hfresh, rfl⟩
    induction hdeclared generalizing roots with
    | nil => exact .last rfl
    | @cons _ _ root _ hroot _ ih =>
      obtain ⟨hnot, hnodup⟩ := List.nodup_cons.1 hnodup
      rw [List.append_assoc]
      refine .more ⟨root.1, root.2, hroot, hfresh _ List.mem_cons_self, rfl⟩
        (ih hnodup fun other hother ↦ ?_)
      rw [RootTypes.get_set, if_neg (by rintro rfl; exact hnot hother)]
      exact hfresh other (List.mem_cons_of_mem _ hother)

/-- The block of root types, as a loop after the opening bracket that does not end at once. -/
theorem enclosed_nextRoot_iff {ts : List TokenKind} {roots : RootTypes} :
    (do
      Phrase.mark .braceOpen
      fun ts roots ↦ Phrase.Loop Phrase.nextRoot (Phrase.mark .braceClose) .none ts roots ∧
        ts.head? ≠ some (.punctuator .braceClose) : Phrase RootTypes) ts roots ↔
      Phrase.rootTypes ts roots := by
  constructor
  · intro h
    obtain ⟨_, rfl, hinside, hhead⟩ := Phrase.mark_bind_iff.1 h
    obtain ⟨declared, front, rfl, hdeclared, hnodup, -, rfl⟩ := loop_nextRoot_iff.1 hinside
    have hne : declared ≠ [] := by
      rintro rfl
      cases hdeclared
      exact hhead rfl
    refine ⟨declared, _, [], (List.append_nil _).symm, Phrase.block_iff.2 ⟨front, rfl, hdeclared, hne⟩, ?_⟩
    exact Phrase.given_bind_iff.2 ⟨hnodup, rfl, rfl⟩
  · rintro ⟨declared, _, _, rfl, hblock, hrest⟩
    obtain ⟨hnodup, rfl, rfl⟩ := Phrase.given_bind_iff.1 hrest
    obtain ⟨front, rfl, hdeclared, hne⟩ := Phrase.block_iff.1 hblock
    rw [List.append_nil]
    refine Phrase.mark_bind_iff.2 ⟨_, rfl, ?_, fun hhead ↦ ?_⟩
    · exact loop_nextRoot_iff.2 ⟨declared, front, rfl, hdeclared, hnodup, by simp, rfl⟩
    · cases hdeclared with
      | nil => exact hne rfl
      | cons hroot _ =>
        rw [List.append_assoc] at hhead
        exact shields_rootType _ _ _ hroot (free_empty _) _ hhead rfl

/-- Root types are read in brackets, in any order, and each at most once. -/
theorem reads_rootTypes : Reads ∅ Parser.rootTypes Phrase.rootTypes := by
  have hloop : Reads ∅ (Parser.iterate Parser.rootType .none)
      (Phrase.Loop Phrase.nextRoot (Phrase.mark .braceClose) .none) :=
    reads_iterate reads_rootType (fun x ↦ .empty ∅ _) (.empty ∅ _) .none
  refine (reads_enclosed hloop fun x hnil ↦ ?_).congr fun ts x ↦ enclosed_nextRoot_iff
  obtain ⟨declared, front, hts, -⟩ := loop_nextRoot_iff.1 hnil
  simp at hts

theorem reads_schemaDefinition (source description : Option String) (start : Position) :
    Reads itemEnd (Parser.schemaDefinition source description start)
      (Phrase.schemaDefinition description) := by
  refine .keyword (.bind (reads_appliedDirectives source) (fun directives ↦ ?_) fun _ ↦ ?_)
  · refine .andThen reads_rootTypes fun roots ↦ .spanFrom fun span ↦ .pure ?_
    simp [withoutSpans, HasSpans.mapSpans]
  · exact .first (.first (.first (.mark (by simp [directivesEnd, Brackets.opening]))))

theorem reads_schemaExtension (source : Option String) (start : Position) :
    Reads itemEnd (Parser.schemaExtension source start) Phrase.schemaExtension := by
  have hbrace {K : Set TokenKind} (hK : .punctuator .braceOpen ∉ K) : Phrase.rootTypes.Shields K ∅ :=
    .first (.first (.mark hK))
  refine .keyword (.bind (reads_appliedDirectives source) (fun directives ↦ ?_) fun directives ↦ ?_)
  · refine .peek ?_ ?_ ?_ ?_
    · refine .andThen reads_rootTypes fun roots ↦ .spanFrom fun span ↦ .pure ?_
      simp [withoutSpans, HasSpans.mapSpans]
    · intro ts x
      exact Phrase.head?_of_bind (fun _ _ ↦ Phrase.head?_of_bind fun _ _ ↦ Phrase.head?_of_mark)
    · have hempty : (withoutSpans directives ≠ []) = ¬ directives.isEmpty = true := by
        simp [withoutSpans, HasSpans.mapSpans]
      rw [hempty]
      refine .guarded fun _ ↦ .spanFrom fun span ↦ .pure ?_
      simp [withoutSpans, HasSpans.mapSpans]
    · exact .bind (.given Set.Subset.rfl _) fun _ ↦ .pure (by simp [itemEnd]) _
  · refine .or (.first (hbrace (by simp [directivesEnd]))) ?_
    exact .bind (.given Set.Subset.rfl _) fun _ ↦ .pure directivesEnd_subset_itemEnd _

end TypeSystem
