import TypeSystem.Proofs.Reading.Productions

/-!
# Documents are read exactly

A list of tokens makes a document exactly if the tokens up to the end of the input, comments aside, are a
phrase of the language of documents, and the document is the one that the phrase stands for
(`ofTokens_eq_ok_iff_document`). So the parser takes nothing that is not in the language and refuses
nothing that is, but for type references nested too deeply; and since a parser gives one result, a run of
tokens stands for no more than one document.

An item is told by its keyword: `Reads.dispatch` puts together what is read after each of them.
-/

namespace TypeSystem

variable {α : Type} {K : Set TokenKind}

/-! ### Phrases that begin with a word -/

namespace Phrase

/-- The phrase without runs. -/
def never : Phrase α := fun _ _ ↦ False

/-- The runs of a phrase that begin with a given word. -/
def startingWith (P : Phrase α) (word : String) : Phrase α := fun ts a ↦ P ts a ∧ ts.head? = some (.name word)

/-- Every run of the phrase begins with one of the words. -/
def Begins (P : Phrase α) (words : Set String) : Prop :=
  ∀ ts a, P ts a → ∃ word ∈ words, ts.head? = some (.name word)

variable {P Q : Phrase α} {word : String} {words : Set String}

/-- A keyword begins with itself. -/
theorem Begins.keyword {Q : Unit → Phrase α} (hword : word ∈ words) :
    (Phrase.keyword word >>= Q).Begins words :=
  fun _ _ h ↦ ⟨word, hword, head?_of_keyword h⟩

/-- What begins a phrase begins any longer one. -/
theorem Begins.bind {β : Type} {Q : α → Phrase β} (hP : P.Begins words) : (P >>= Q).Begins words := by
  rintro _ b ⟨a, front, back, rfl, hfront, -⟩
  obtain ⟨word, hword, hhead⟩ := hP front a hfront
  refine ⟨word, hword, ?_⟩
  rw [List.head?_append, hhead]
  rfl

theorem Begins.oneOf {ι : Type} {P : ι → Phrase α} (hP : ∀ i, (P i).Begins words) :
    (Phrase.oneOf P).Begins words :=
  fun ts a ⟨i, h⟩ ↦ hP i ts a h

theorem Begins.or (hP : P.Begins words) (hQ : Q.Begins words) : (P <|> Q).Begins words :=
  fun ts a h ↦ h.elim (hP ts a) (hQ ts a)

/-- A phrase that begins with one word is what is left of it for that word. -/
theorem startingWith_eq_self (hP : P.Begins {word}) : P.startingWith word = P := by
  funext ts a
  refine propext ⟨And.left, fun h ↦ ⟨h, ?_⟩⟩
  obtain ⟨_, rfl, hhead⟩ := hP ts a h
  exact hhead

/-- For a word that a phrase does not begin with, nothing is left of it. -/
theorem startingWith_eq_never (hP : P.Begins words) (hword : word ∉ words) : P.startingWith word = never := by
  funext ts a
  refine propext ⟨fun ⟨h, hhead⟩ ↦ ?_, False.elim⟩
  obtain ⟨word', hword', hhead'⟩ := hP ts a h
  rw [hhead, Option.some.injEq, TokenKind.name.injEq] at hhead'
  exact hword (hhead' ▸ hword')

/-- What is left of a choice is the choice of what is left. -/
theorem or_startingWith : (P <|> Q).startingWith word = (P.startingWith word <|> Q.startingWith word) := by
  funext ts a
  exact propext or_and_right

@[simp] theorem never_or : (never <|> P) = P := by
  funext ts a
  exact propext (or_iff_right id)

@[simp] theorem or_never : (P <|> never) = P := by
  funext ts a
  exact propext (or_iff_left id)

/-- Of a family of phrases with a word for each, only one begins with the word for it. -/
theorem oneOf_startingWith {ι : Type} {P : ι → Phrase α} {text : ι → String} (htext : text.Injective)
    (hP : ∀ i, (P i).Begins {text i}) (i : ι) : (Phrase.oneOf P).startingWith (text i) = P i := by
  funext ts a
  refine propext ⟨fun ⟨⟨j, h⟩, hhead⟩ ↦ ?_, fun h ↦ ⟨⟨i, h⟩, ?_⟩⟩
  · obtain ⟨_, rfl, hhead'⟩ := hP j ts a h
    rw [hhead, Option.some.injEq, TokenKind.name.injEq] at hhead'
    rwa [htext hhead']
  · obtain ⟨_, rfl, hhead⟩ := hP i ts a h
    exact hhead

end Phrase

/-! ### Parsers that go by the next word -/

/-- Looking at the next name takes nothing and never fails. -/
theorem Parser.peekName_eq (s : TokenStream) : peekName s = (.ok (s.current.name?.getD ""), s) := by
  unfold peekName Token.name?
  simp only [bind, Parser.bind, peek]
  cases s.current.kind <;> rfl

theorem Parser.peekName_of_head? {e : Position} {ts : List Token} {word : String}
    (h : (ts.map Token.kind).head? = some (.name word)) (rest : List Token) :
    peekName (.after e (ts ++ rest)) = (.ok word, .after e (ts ++ rest)) := by
  rw [peekName_eq, Token.name?, TokenStream.current_of_head? h rest]
  rfl

namespace Reads

variable {β : Type} [HasSpans α] [HasSpans β]

/-- A parser that goes by the next word reads what it reads after each word. -/
theorem dispatch {f : String → Parser α} {P : Phrase α} {words : Set String}
    (hf : ∀ word, Reads K (f word) (P.startingWith word)) (hP : P.Begins words) :
    Reads K (Parser.peekName >>= f) P where
  sound s a s' h := by
    obtain ⟨word, s₁, hword, ha⟩ := Parser.bind_eq_ok_iff.1 h
    obtain ⟨-, rfl⟩ := Prod.mk.inj ((Parser.peekName_eq s).symm.trans hword)
    obtain ⟨ts, hts, hP, -⟩ := (hf word).sound s a s' ha
    exact ⟨ts, hts, hP⟩
  complete e ts rest x h hfree := by
    obtain ⟨word, -, hhead⟩ := hP _ x h
    obtain ⟨a, e', ha, hx⟩ := (hf word).complete e ts rest x ⟨h, hhead⟩ hfree
    exact ⟨a, e', Parser.bind_eq_ok_iff.2 ⟨word, _, Parser.peekName_of_head? hhead rest, ha⟩, hx⟩

/-- A node is read as an item. -/
theorem wrapped {p : Parser α} {P : Phrase α} (h : Reads K p P) {wrap : α → β}
    (hwrap : ∀ a, withoutSpans (wrap a) = wrap (withoutSpans a)) :
    Reads K (do return wrap (← p)) (do return wrap (← P)) :=
  h.bind (fun a ↦ .pure (hwrap a)) fun _ ↦ .pure Set.Subset.rfl _

end Reads

/-! ### Items -/

/-- No two kinds of types have one keyword. -/
theorem TypeKind.keyword_injective : TypeKind.keyword.Injective := by
  intro kind kind' h
  have heq := TypeKind.ofKeyword?_keyword kind
  rw [h, TypeKind.ofKeyword?_keyword] at heq
  exact (Option.some.inj heq).symm

theorem TypeKind.keyword_of_ne {word : String} (h : TypeKind.ofKeyword? word = none) :
    word ∉ Set.range TypeKind.keyword := by
  rintro ⟨kind, rfl⟩
  rw [TypeKind.ofKeyword?_keyword] at h
  cases h

/-- The words that begin items other than type definitions are not the keywords of kinds. -/
theorem TypeKind.keyword_notMem (kind : TypeKind) :
    kind.keyword ∉ ({"directive", "schema", "extend"} : Set String) := by
  cases kind <;> simp [keyword]

theorem begins_typeExtension {words : Set String} {kind : TypeKind} (hword : kind.keyword ∈ words) :
    Phrase.Begins (do return Definition.typeExtension (← Phrase.typeExtension admitted kind)) words :=
  .bind (.keyword hword)

theorem begins_schemaExtension {words : Set String} (hword : "schema" ∈ words) :
    Phrase.Begins (do return Definition.schemaExtension (← Phrase.schemaExtension)) words :=
  .bind (.keyword hword)

/-- What stands behind `extend` is read by its next word. -/
theorem reads_extension (source : Option String) (start : Position) :
    Reads itemEnd (Parser.extension source start)
      (do Phrase.keyword "extend"; Phrase.extensionBody admitted) := by
  refine .keyword (.dispatch (fun word ↦ ?_)
    (.or (.oneOf fun kind ↦ begins_typeExtension (Set.mem_univ _)) (begins_schemaExtension (Set.mem_univ _))))
  -- of all alternatives at most one begins with the word
  rw [Phrase.extensionBody, Phrase.or_startingWith]
  cases hfound : TypeKind.ofKeyword? word with
  | some kind =>
    obtain rfl := TypeKind.keyword_of_ofKeyword? hfound
    have hschema : kind.keyword ∉ ({"schema"} : Set String) := by cases kind <;> simp [TypeKind.keyword]
    rw [Phrase.oneOf_startingWith TypeKind.keyword_injective
        fun kind ↦ begins_typeExtension (Set.mem_singleton _),
      Phrase.startingWith_eq_never (begins_schemaExtension (Set.mem_singleton _)) hschema,
      Phrase.or_never]
    exact (reads_typeExtension source kind start).wrapped fun _ ↦ rfl
  | none =>
    rw [Phrase.startingWith_eq_never (.oneOf fun kind ↦ begins_typeExtension (Set.mem_range_self kind))
      (TypeKind.keyword_of_ne hfound), Phrase.never_or]
    dsimp only
    split
    · next hword =>
      subst hword
      rw [Phrase.startingWith_eq_self (begins_schemaExtension (Set.mem_singleton _))]
      exact (reads_schemaExtension source start).wrapped fun _ ↦ rfl
    · next hword =>
      rw [Phrase.startingWith_eq_never (begins_schemaExtension (Set.mem_singleton _)) hword]
      exact .failing fun _ _ ↦ id

section Described

variable (source : Option String) {words : Set String} {description : Option String}

theorem begins_typeDefinition {kind : TypeKind} (hword : kind.keyword ∈ words) :
    Phrase.Begins (do return Definition.type (← Phrase.typeDefinition admitted kind description)) words :=
  .bind (.keyword hword)

theorem begins_directiveDefinition (hword : "directive" ∈ words) :
    Phrase.Begins (do return Definition.directive (← Phrase.directiveDefinition admitted description))
      words :=
  .bind (.keyword hword)

theorem begins_schemaDefinition (hword : "schema" ∈ words) :
    Phrase.Begins (do return Definition.schema (← Phrase.schemaDefinition description)) words :=
  .bind (.keyword hword)

theorem begins_extension (hword : "extend" ∈ words) :
    Phrase.Begins (do
      Phrase.given (description = none)
      Phrase.keyword "extend"
      Phrase.extensionBody admitted) words := by
  intro ts item h
  exact ⟨"extend", hword, Phrase.head?_of_keyword (Phrase.given_bind_iff.1 h).2⟩

/-- No item begins with the word that may follow a description. -/
theorem begins_described (description : Option String) :
    (Phrase.described admitted description).Begins {word | word ≠ "implements"} := by
  refine .or (.oneOf fun kind ↦ begins_typeDefinition ?_) (.or (begins_directiveDefinition (by simp))
    (.or (begins_schemaDefinition (by simp)) (begins_extension (by simp))))
  cases kind <;> simp [TypeKind.keyword]

/-- The alternatives to a type definition do not begin with the keyword of a kind. -/
theorem begins_others :
    ((do return Definition.directive (← Phrase.directiveDefinition admitted description)) <|>
      (do return Definition.schema (← Phrase.schemaDefinition description)) <|>
      (do
        Phrase.given (description = none)
        Phrase.keyword "extend"
        Phrase.extensionBody admitted)).Begins {"directive", "schema", "extend"} :=
  .or (begins_directiveDefinition (by simp))
    (.or (begins_schemaDefinition (by simp)) (begins_extension (by simp)))

/-- What stands behind a description is read by its next word. -/
theorem reads_definitionOf (word : String) (description : Option String) (start : Position) :
    Reads itemEnd (Parser.definitionOf source word description start)
      ((Phrase.described admitted description).startingWith word) := by
  rw [Phrase.described, Phrase.or_startingWith]
  -- no two alternatives begin with the same word, so the one that is read is the only one left
  cases hfound : TypeKind.ofKeyword? word with
  | some kind =>
    obtain rfl := TypeKind.keyword_of_ofKeyword? hfound
    rw [Phrase.oneOf_startingWith TypeKind.keyword_injective
        fun kind ↦ begins_typeDefinition (Set.mem_singleton _),
      Phrase.startingWith_eq_never begins_others (TypeKind.keyword_notMem kind), Phrase.or_never]
    simp only [Parser.definitionOf, hfound]
    exact (reads_typeDefinition source kind description start).wrapped fun _ ↦ rfl
  | none =>
    rw [Phrase.startingWith_eq_never (.oneOf fun kind ↦ begins_typeDefinition (Set.mem_range_self kind))
      (TypeKind.keyword_of_ne hfound), Phrase.never_or]
    simp only [Parser.definitionOf, hfound]
    rw [Phrase.or_startingWith, Phrase.or_startingWith]
    split
    · next hword =>
      subst hword
      rw [Phrase.startingWith_eq_self (begins_directiveDefinition (Set.mem_singleton _)),
        Phrase.startingWith_eq_never (begins_schemaDefinition (Set.mem_singleton _)) (by simp),
        Phrase.startingWith_eq_never (begins_extension (Set.mem_singleton _)) (by simp),
        Phrase.or_never, Phrase.or_never]
      exact (reads_directiveDefinition source description start).wrapped fun _ ↦ rfl
    rw [Phrase.startingWith_eq_never (begins_directiveDefinition (Set.mem_singleton _)) ‹_›,
      Phrase.never_or]
    split
    · next hword =>
      subst hword
      rw [Phrase.startingWith_eq_self (begins_schemaDefinition (Set.mem_singleton _)),
        Phrase.startingWith_eq_never (begins_extension (Set.mem_singleton _)) (by simp), Phrase.or_never]
      exact (reads_schemaDefinition source description start).wrapped fun _ ↦ rfl
    rw [Phrase.startingWith_eq_never (begins_schemaDefinition (Set.mem_singleton _)) ‹_›, Phrase.never_or]
    split
    · next hword =>
      subst hword
      rw [Phrase.startingWith_eq_self (begins_extension (Set.mem_singleton _))]
      split
      · next hnone =>
        refine (reads_extension source start).congr fun ts item ↦ ?_
        rw [Phrase.given_bind_iff, and_iff_right (Option.isNone_iff_eq_none.1 hnone)]
      · next hsome =>
        -- an extension has no description
        refine .failing fun ts item h ↦ hsome ?_
        exact Option.isNone_iff_eq_none.2 (Phrase.given_bind_iff.1 h).1
    · next hword =>
      rw [Phrase.startingWith_eq_never (begins_extension (Set.mem_singleton _)) hword]
      exact .failing fun _ _ ↦ id

/-- No item begins with the word that may stand after the name of a type. -/
theorem shields_described (description : Option String)
    (hK : ∀ word, word ≠ "implements" → .name word ∉ K) :
    (Phrase.described admitted description).Shields K ∅ := by
  intro ts item rest h _ k hk
  obtain ⟨word, hword, hhead⟩ := begins_described description ts item h
  rw [List.head?_append, hhead] at hk
  cases hk
  exact hK word hword

/-- The tokens other than the end of the input. -/
def inputGoesOn : Set TokenKind := {k | k ≠ .endOfInput}

/-- What it takes to read an item: a description or none, and behind it a keyword that says what comes. -/
theorem definition_eq_some_iff {s s' : TokenStream} {item : Definition} :
    Parser.definition source s = (.ok (some item), s') ↔
      ∃ description s₁ word, Parser.description? s = (.ok description, s₁) ∧
        s₁.current.kind = .name word ∧
        Parser.definitionOf source word description s.current.span.start s₁ = (.ok item, s') := by
  constructor
  · intro h
    obtain ⟨start, _, hstart, h⟩ := Parser.bind_eq_ok_iff.1 h
    cases hstart
    obtain ⟨description, s₁, hdescription, h⟩ := Parser.bind_eq_ok_iff.1 h
    obtain ⟨t, _, ht, h⟩ := Parser.bind_eq_ok_iff.1 h
    cases ht
    cases hkind : s₁.current.kind with
    | name word =>
      rw [hkind] at h
      obtain ⟨item', s₂, hitem, heq⟩ := Parser.bind_eq_ok_iff.1 h
      cases heq
      exact ⟨description, s₁, word, hdescription, hkind, hitem⟩
    | endOfInput =>
      rw [hkind] at h
      cases description <;> cases h
    | _ =>
      rw [hkind] at h
      cases h
  · rintro ⟨description, s₁, word, hdescription, hkind, hitem⟩
    refine Parser.bind_eq_ok_iff.2 ⟨_, _, rfl, Parser.bind_eq_ok_iff.2 ⟨description, s₁, hdescription, ?_⟩⟩
    refine Parser.bind_eq_ok_iff.2 ⟨_, _, rfl, ?_⟩
    rw [hkind]
    exact Parser.bind_eq_ok_iff.2 ⟨item, s', hitem, rfl⟩

/-- No more items come where the input ends and nothing has been described before that. -/
theorem definition_eq_none_iff {s s' : TokenStream} :
    Parser.definition source s = (.ok none, s') ↔
      Parser.description? s = (.ok none, s') ∧ s'.current.kind = .endOfInput := by
  constructor
  · intro h
    obtain ⟨start, _, hstart, h⟩ := Parser.bind_eq_ok_iff.1 h
    cases hstart
    obtain ⟨description, s₁, hdescription, h⟩ := Parser.bind_eq_ok_iff.1 h
    obtain ⟨t, _, ht, h⟩ := Parser.bind_eq_ok_iff.1 h
    cases ht
    cases hkind : s₁.current.kind with
    | name word =>
      rw [hkind] at h
      obtain ⟨item, s₂, -, heq⟩ := Parser.bind_eq_ok_iff.1 h
      cases heq
    | endOfInput =>
      rw [hkind] at h
      cases description with
      | none =>
        cases h
        exact ⟨hdescription, hkind⟩
      | some text => cases h
    | _ =>
      rw [hkind] at h
      cases h
  · rintro ⟨hdescription, hkind⟩
    refine Parser.bind_eq_ok_iff.2 ⟨_, _, rfl, Parser.bind_eq_ok_iff.2 ⟨none, s', hdescription, ?_⟩⟩
    refine Parser.bind_eq_ok_iff.2 ⟨_, _, rfl, ?_⟩
    rw [hkind]
    rfl

/-- An item is read, or the list of items ends where there is none. -/
theorem reads_definition :
    ReadsOrEnds itemEnd inputGoesOn (Parser.definition source) (Phrase.definition admitted)
      (pure ()) where
  sound s r s' h := by
    cases r with
    | some item =>
      obtain ⟨description, s₁, word, hdescription, -, hitem⟩ := (definition_eq_some_iff source).1 h
      obtain ⟨front, hfront, hdescribes⟩ := reads_description.sound s _ s₁ hdescription
      obtain ⟨back, hback, hdescribed, -⟩ := (reads_definitionOf source word _ _).sound s₁ item s' hitem
      rw [withoutSpans_string?] at hdescribes
      exact ⟨front ++ back, hfront.trans hback, description, _, _, List.map_append, hdescribes, hdescribed⟩
    | none =>
      obtain ⟨hdescription, -⟩ := (definition_eq_none_iff source).1 h
      obtain ⟨front, hfront, ⟨_, _, _, _, _, _, hsome⟩ | ⟨hnil, -⟩⟩ :=
        reads_description.sound s _ s' hdescription
      · cases hsome
      · exact ⟨front, hfront, hnil, rfl⟩
  more e ts rest x h hfree := by
    obtain ⟨description, _, _, hts, hfront, hback⟩ := h
    obtain ⟨front, back, rfl, rfl, rfl⟩ := List.map_eq_append_iff.1 hts
    -- no item begins with a string, so the description that is read is the one of the phrase
    have hshielded := (shields_described (K := strings) description (by simp [mem_strings_iff])).free hback
      (free_empty (rest.map Token.kind))
    obtain ⟨found, e₁, hfound, hdescription⟩ :=
      reads_description.complete e front (back ++ rest) description hfront hshielded
    rw [withoutSpans_string?] at hdescription
    subst hdescription
    obtain ⟨word, -, hhead⟩ := begins_described found _ x hback
    obtain ⟨item, e', hitem, hx⟩ := (reads_definitionOf source word found _).complete e₁ back rest x
      ⟨hback, hhead⟩ hfree
    refine ⟨item, e', ?_, hx⟩
    rw [List.append_assoc]
    exact (definition_eq_some_iff source).2
      ⟨found, _, word, hfound, TokenStream.current_of_head? hhead rest, hitem⟩
  last e ts rest hend hfree := by
    obtain rfl := List.map_eq_nil_iff.1 hend.1
    have hstrings : strings ⊆ inputGoesOn := by
      rintro _ hk rfl
      simp [mem_strings_iff] at hk
    obtain ⟨found, e', hfound, hnone⟩ := reads_description.complete e [] rest none (.inr ⟨rfl, rfl⟩)
      (hfree.mono hstrings)
    rw [withoutSpans_string?] at hnone
    subst hnone
    have hkind : (TokenStream.after e' rest).current.kind = .endOfInput :=
      of_not_not (hfree.current_notMem (by simp [inputGoesOn]))
    exact ⟨e', (definition_eq_none_iff source).2 ⟨hfound, hkind⟩⟩
  nonempty x h := by
    obtain ⟨description, front, back, hts, -, hback⟩ := h
    obtain ⟨word, -, hhead⟩ := begins_described description back x hback
    rw [(List.append_eq_nil_iff.1 hts.symm).2] at hhead
    cases hhead

end Described

/-! ### Whole documents -/

theorem notMem_itemEnd_of_mem_strings : ∀ k ∈ strings, k ∉ itemEnd := by
  intro k hk hmem
  obtain ⟨text, rfl | rfl⟩ := mem_strings_iff.1 hk <;> simp [itemEnd] at hmem

/-- Items begin with a string or a keyword. -/
theorem shields_definition : (Phrase.definition admitted).Shields itemEnd ∅ :=
  .bind (shields_description notMem_itemEnd_of_mem_strings Set.Subset.rfl) fun description ↦
    shields_described description (by simp [itemEnd])

/-- **The parser of documents reads documents.** -/
theorem reads_document (source : Option String) :
    Reads inputGoesOn (Parser.document source) (Phrase.document admitted) := by
  have hitems : Reads inputGoesOn (Parser.many (Parser.definition source))
      (Phrase.many (Phrase.definition admitted)) := by
    refine reads_many_of_pure (reads_definition source) shields_definition ?_
    rintro _ hk rfl
    simp [itemEnd] at hk
  exact hitems.bind (fun items ↦ .pure (mapSpans_ofDefinitions _ items)) fun _ ↦ .pure Set.Subset.rfl _

/-- A run of tokens stands for one document only. -/
theorem document_unique {ts : List TokenKind} {document document' : Document}
    (h : Phrase.document admitted ts document) (h' : Phrase.document admitted ts document') :
    document = document' :=
  (reads_document none).unique h h'

/-- A document is the list of its items. -/
theorem document_eq_ok_iff {source : Option String} {s s' : TokenStream} {document : Document} :
    Parser.document source s = (.ok document, s') ↔
      ∃ items, Parser.many (Parser.definition source) s = (.ok items, s') ∧ document = .ofDefinitions items := by
  constructor
  · intro h
    obtain ⟨items, s₁, hitems, heq⟩ := Parser.bind_eq_ok_iff.1 h
    cases heq
    exact ⟨items, hitems, rfl⟩
  · rintro ⟨items, hitems, rfl⟩
    exact Parser.bind_eq_ok_iff.2 ⟨items, s', hitems, rfl⟩

/-- A document that is read leaves nothing before the end of the input. -/
theorem current_of_document {source : Option String} {s s' : TokenStream} {document : Document}
    (h : Parser.document source s = (.ok document, s')) : s'.current.kind = .endOfInput := by
  obtain ⟨items, hitems, -⟩ := document_eq_ok_iff.1 h
  obtain ⟨s₂, hlast⟩ := exists_last_item (reads_definition source) hitems
  exact ((definition_eq_none_iff source).1 hlast).2

/-- The tokens up to the end of the input, comments left out. -/
def Token.meaningful (tokens : List Token) : List Token :=
  (tokens.takeWhile fun t ↦ t.kind ≠ .endOfInput).filter fun t ↦ !t.isComment

/-- What the tokens are up to the end of the input, comments left out. -/
def significant (tokens : List Token) : List TokenKind :=
  ((tokens.takeWhile fun t ↦ t.kind ≠ .endOfInput).filter fun t ↦ !t.isComment).map Token.kind

/-- It does not matter whether comments are left out before the end of the input is looked for. -/
theorem takeWhile_filter_isComment (tokens : List Token) :
    ((tokens.filter fun t ↦ !t.isComment).takeWhile fun t ↦ t.kind ≠ .endOfInput) =
      (tokens.takeWhile fun t ↦ t.kind ≠ .endOfInput).filter fun t ↦ !t.isComment := by
  have hcomment (t : Token) :
      (!(!t.isComment) || decide (t.kind ≠ .endOfInput)) = decide (t.kind ≠ .endOfInput) := by
    cases hkind : t.kind <;> simp [Token.isComment, hkind, TokenKind.sort]
  rw [List.takeWhile_filter]
  simp only [hcomment]

/-- A stream is what is significant in the tokens, and then nothing more or the end of the input. -/
theorem exists_ofTokens_eq (tokens : List Token) :
    ∃ ts rest, TokenStream.ofTokens tokens = .after .origin (ts ++ rest) ∧
      ts.map Token.kind = significant tokens ∧ Free inputGoesOn (rest.map Token.kind) := by
  let pending := tokens.filter fun t ↦ !t.isComment
  let goesOn (t : Token) : Bool := t.kind ≠ .endOfInput
  refine ⟨pending.takeWhile goesOn, pending.dropWhile goesOn, ?_, ?_, ?_⟩
  · rw [List.takeWhile_append_dropWhile]
    rfl
  · rw [significant, ← takeWhile_filter_isComment]
  · intro k hk hmem
    rw [List.head?_map] at hk
    obtain ⟨t, ht, rfl⟩ := Option.map_eq_some_iff.1 hk
    have hend := List.head?_dropWhile_not goesOn pending
    rw [ht] at hend
    exact of_decide_eq_false hend hmem

/-- Tokens that are taken up to the end of the input are all that mean something. -/
theorem eq_meaningful_of_taken {tokens ts : List Token} {s' : TokenStream}
    (h : Taken (.ofTokens tokens) ts s') (hend : s'.current.kind = .endOfInput) :
    ts = Token.meaningful tokens := by
  have hpending : (tokens.filter fun t ↦ !t.isComment) = ts ++ s'.pending := h.pending_eq
  have hrest : (s'.pending.takeWhile fun t ↦ t.kind ≠ .endOfInput) = [] := by
    rw [TokenStream.current] at hend
    cases hs' : s'.pending with
    | nil => rfl
    | cons t rest =>
      rw [hs'] at hend
      exact List.takeWhile_cons_of_neg (by simpa using hend)
  have htaken : ∀ t ∈ ts, decide (t.kind ≠ .endOfInput) = true := by simpa using h.kind_ne
  rw [Token.meaningful, ← takeWhile_filter_isComment, hpending, List.takeWhile_append_of_pos htaken, hrest,
    List.append_nil]

/-- So they are what is significant. -/
theorem map_kind_of_taken {tokens ts : List Token} {s' : TokenStream}
    (h : Taken (.ofTokens tokens) ts s') (hend : s'.current.kind = .endOfInput) :
    ts.map Token.kind = significant tokens := by
  rw [eq_meaningful_of_taken h hend]
  rfl

/-- **Exactly the documents are read, and each for what it is.** The tokens up to the end of the input make
a document, up to its spans, exactly if they are a phrase for it in which no type reference has more than
63 list wrappers. -/
theorem ofTokens_eq_ok_iff_document (source : Option String) (tokens : List Token) (document : Document) :
    (∃ read, Document.ofTokens source tokens = .ok read ∧ withoutSpans read = document) ↔
      Phrase.document (fun type ↦ type.depth ≤ 63) (significant tokens) document := by
  have hadmitted : (fun type ↦ type.depth ≤ 63) = admitted := by
    funext type
    exact propext Nat.lt_succ_iff.symm
  rw [hadmitted]
  constructor
  · rintro ⟨read, hread, rfl⟩
    obtain ⟨ts, htaken, hdocument⟩ := (reads_document source).sound _ read _ (Prod.ext hread rfl)
    rw [← map_kind_of_taken htaken (current_of_document (Prod.ext hread rfl))]
    exact hdocument
  · intro hdocument
    obtain ⟨ts, rest, htokens, hts, hrest⟩ := exists_ofTokens_eq tokens
    rw [← hts] at hdocument
    obtain ⟨read, e, hread, hx⟩ := (reads_document source).complete .origin ts rest document hdocument hrest
    refine ⟨read, ?_, hx⟩
    rw [Document.ofTokens, htokens, hread]

end TypeSystem
