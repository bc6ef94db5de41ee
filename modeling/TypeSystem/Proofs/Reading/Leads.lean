import TypeSystem.Proofs.Reading.Completion
import TypeSystem.Proofs.Reading.Joining
import TypeSystem.Proofs.Reading.WrittenTypes

/-!
# Leads

A field, an argument and an input field each have a type. What a document has before one of them is a *lead*
(`Lead`): complete items and members, and then the beginning of the node that the type belongs to, up to
its colon. Leads are put together like the phrases that they are beginnings of, one for each production that
has such a node in it.

These are the right ones. Whatever a lead has begun can be closed behind a type, so that it is the beginning of
a document (`Lead.closes_document`), and every type of a document has a lead in front of it
(`Lead.finds_document`).
-/

namespace TypeSystem

variable {α β : Type}

/-! ### The types in a value -/

/-- Types of values in which there are fields, arguments or input fields. -/
class HasTypes (α : Type) where
  /-- The types of the fields, arguments and input fields, each with where the node begins that it is of. -/
  nodeTypes : α → List (Position × TypeReference)

open HasTypes (nodeTypes)

namespace HasTypes

instance [HasTypes α] : HasTypes (List α) := ⟨fun as ↦ as.flatMap nodeTypes⟩

instance [HasTypes α] : HasTypes (Option α) := ⟨fun a ↦ nodeTypes a.toList⟩

instance : HasTypes InputValueDefinition := ⟨fun value ↦ [(value.span.start, value.type)]⟩

instance : HasTypes FieldDefinition :=
  ⟨fun field ↦ (field.span.start, field.type) :: nodeTypes field.arguments⟩

instance : HasTypes TypeBody where
  nodeTypes
    | .object _ fields | .interface _ fields => nodeTypes fields
    | .inputObject fields => nodeTypes fields
    | .scalar | .union _ | .enum _ => []

instance : HasTypes (List AppliedDirective × TypeBody) := ⟨fun r ↦ nodeTypes r.2⟩

instance : HasTypes TypeDefinition := ⟨fun type ↦ nodeTypes type.body⟩

instance : HasTypes TypeExtension := ⟨fun ext ↦ nodeTypes ext.body⟩

instance : HasTypes DirectiveDefinition := ⟨fun directive ↦ nodeTypes directive.arguments⟩

instance : HasTypes Definition where
  nodeTypes
    | .type definition => nodeTypes definition
    | .directive definition => nodeTypes definition
    | .typeExtension ext => nodeTypes ext
    | .schema _ | .schemaExtension _ => []

instance : HasTypes Document :=
  ⟨fun document ↦
    nodeTypes document.types ++ (nodeTypes document.directives ++ nodeTypes document.typeExtensions)⟩

/-- The types in a list are those in its items. -/
theorem mem_nodeTypes_list [HasTypes α] {as : List α} {entry : Position × TypeReference} :
    entry ∈ nodeTypes as ↔ ∃ a ∈ as, entry ∈ nodeTypes a :=
  List.mem_flatMap

/-- A field, an argument or an input field in the value is of the type. -/
def HasType [HasTypes α] (a : α) (type : TypeReference) : Prop :=
  ∃ start, (start, type) ∈ nodeTypes a

theorem hasType_list [HasTypes α] {as : List α} {type : TypeReference} :
    HasType as type ↔ ∃ a ∈ as, HasType a type := by
  simp only [HasType, mem_nodeTypes_list]
  tauto

/-- The types in a document are those in its items, list by list. -/
theorem perm_nodeTypes_ofDefinitions (items : List Definition) :
    (nodeTypes (Document.ofDefinitions items)).Perm (nodeTypes items) := by
  induction items with
  | nil => exact .nil
  | cons item items ih =>
    refine .trans ?_ (ih.append_left (nodeTypes item))
    show (nodeTypes ((Document.ofDefinitions items).cons item)).Perm _
    cases item with
    | type definition => exact .of_eq (List.append_assoc _ _ _)
    | directive definition =>
      refine .trans (.of_eq ?_) (List.perm_append_comm_assoc _ _ _)
      exact congrArg (_ ++ ·) (List.append_assoc _ _ _)
    | typeExtension ext =>
      exact .trans (.append_left _ (List.perm_append_comm_assoc _ _ _)) (List.perm_append_comm_assoc _ _ _)
    | schema _ | schemaExtension _ => exact .refl _

end HasTypes

/-! ### Leads -/

/-- What stands before the type of a node: some tokens, and then those with which the node begins. -/
def Lead : Type := List TokenKind → List TokenKind → Prop

namespace Lead

/-- The node begins here. -/
def here (P : Phrase Unit) : Lead := fun outside head ↦ outside = [] ∧ P head ()

/-- The node is behind a phrase, on the value of which may depend what comes in between. -/
def behind (P : Phrase α) (L : α → Lead) : Lead := fun outside head ↦
  ∃ a front back, outside = front ++ back ∧ P front a ∧ L a back head

/-- One lead or the other. -/
instance : OrElse Lead := ⟨fun L M outside head ↦ L outside head ∨ M () outside head⟩

/-- One lead of a family. -/
def oneOf {ι : Type} (L : ι → Lead) : Lead := fun outside head ↦ ∃ i, L i outside head

/-- The node is between brackets, or in something between brackets, behind some that is complete. -/
def inBlock (brackets : Brackets) (P : Phrase α) (L : Lead) : Lead :=
  behind (Phrase.mark brackets.opening) fun _ ↦ behind (Phrase.many P) fun _ ↦ L

/-- The lead to the type of an argument or input field. -/
def inputValue : Lead := here do
  let _ ← Phrase.description
  let _ ← Phrase.name
  Phrase.mark .colon

/-- The leads in a list of arguments. -/
def arguments : Lead := inBlock .parens (Phrase.inputValue admitted) inputValue

/-- The leads to the type of a field and to the types of its arguments. -/
def field : Lead :=
  (here do
    let _ ← Phrase.description
    let _ ← Phrase.name
    let _ ← Phrase.arguments admitted
    Phrase.mark .colon) <|>
  behind Phrase.description fun _ ↦ behind Phrase.name fun _ ↦ arguments

/-- The leads in the fields of an object or interface. -/
def fields : Lead :=
  behind Phrase.implemented fun _ ↦ behind Phrase.appliedDirectives fun _ ↦
    inBlock .braces (Phrase.field admitted) field

/-- The leads in what a type has after its name. -/
def typeBody : TypeKind → Lead
  | .object | .interface => fields
  | .inputObject =>
    behind Phrase.appliedDirectives fun _ ↦ inBlock .braces (Phrase.inputValue admitted) inputValue
  | .scalar | .union | .enum => fun _ _ ↦ False

/-- The leads in a type or its extension, from the keyword of its kind on. -/
def type (kind : TypeKind) : Lead :=
  behind (Phrase.keyword kind.keyword) fun _ ↦ behind Phrase.name fun _ ↦ typeBody kind

/-- The leads in the definition of a directive, from its keyword on. -/
def directiveDefinition : Lead :=
  behind (Phrase.keyword "directive") fun _ ↦ behind (Phrase.mark .atSign) fun _ ↦
    behind Phrase.name fun _ ↦ arguments

/-- The leads in an extension, from `extend` on. -/
def extension : Lead := behind (Phrase.keyword "extend") fun _ ↦ oneOf type

/-- The leads in an item with a description in front, or with none. -/
def described (description : Option String) : Lead :=
  oneOf type <|> directiveDefinition <|> behind (Phrase.given (description = none)) fun _ ↦ extension

/-- The leads in an item. -/
def definition : Lead := behind Phrase.description described

/-- The leads in a document. -/
def document : Lead := behind (Phrase.many (Phrase.definition admitted)) fun _ ↦ definition

/-! ### What leads begin with -/

/-- The tokens of the lead, together with what follows, do not begin with one of the set. -/
def Shields (K : Set TokenKind) (L : Lead) : Prop :=
  ∀ outside head rest, L outside head → Free K (outside ++ (head ++ rest))

/-- The lead begins with a word. -/
def Begins (word : String) (L : Lead) : Prop :=
  ∀ outside head, L outside head → outside.head? = some (.name word)

/-- A lead behind a keyword begins with it. -/
theorem Begins.keyword {word : String} {L : Unit → Lead} : (behind (Phrase.keyword word) L).Begins word := by
  rintro _ head ⟨_, _, back, rfl, rfl, -⟩
  rfl

theorem Begins.provided {word : String} {condition : Prop} {L : Unit → Lead} (hL : (L ()).Begins word) :
    (behind (Phrase.given condition) L).Begins word := by
  rintro _ head ⟨_, _, back, rfl, ⟨rfl, -⟩, hback⟩
  exact hL back head hback

namespace Shields

variable {K K' : Set TokenKind} {L M : Lead}

/-- Tokens that begin with a lead do not begin with one of the set. -/
theorem free (hL : L.Shields K) {outside head rest : List Token}
    (h : L (outside.map Token.kind) (head.map Token.kind)) :
    Free K ((outside ++ (head ++ rest)).map Token.kind) := by
  rw [List.map_append, List.map_append]
  exact hL _ _ _ h

/-- A lead without anything outside shields as what is directly before the type does. -/
theorem here {P : Phrase Unit} (hP : P.Shields K ∅) : (Lead.here P).Shields K := by
  rintro _ head rest ⟨rfl, hhead⟩
  exact hP head () rest hhead (free_empty _)

/-- A lead behind a phrase shields as both do, one after the other. -/
theorem behind {P : Phrase α} {L : α → Lead} (hP : P.Shields K K') (hL : ∀ a, (L a).Shields K') :
    (Lead.behind P L).Shields K := by
  rintro _ head rest ⟨a, front, back, rfl, hfront, hback⟩
  rw [List.append_assoc]
  exact hP front a _ hfront (hL a back head rest hback)

/-- A phrase that shields by itself does so whatever lead comes next. -/
theorem first {P : Phrase α} {L : α → Lead} (hP : P.Shields K ∅) : (Lead.behind P L).Shields K :=
  .behind hP fun _ _ _ _ _ ↦ free_empty _

/-- A choice of leads shields if both do. -/
theorem or (hL : L.Shields K) (hM : M.Shields K) : (L <|> M).Shields K :=
  fun outside head rest h ↦ h.elim (hL outside head rest) (hM outside head rest)

theorem oneOf {ι : Type} {L : ι → Lead} (hL : ∀ i, (L i).Shields K) : (Lead.oneOf L).Shields K :=
  fun outside head rest ⟨i, h⟩ ↦ hL i outside head rest h

/-- A lead that begins with a word shields against all but that word. -/
theorem word {word : String} (hL : L.Begins word) (hword : .name word ∉ K) : L.Shields K := by
  intro outside head rest h k hk
  rw [List.head?_append, hL outside head h] at hk
  cases hk
  exact hword

/-- A lead into a block begins with its bracket. -/
theorem inBlock {brackets : Brackets} {P : Phrase α} (hK : .punctuator brackets.opening ∉ K) :
    (Lead.inBlock brackets P L).Shields K :=
  .first (.mark hK)

end Shields

/-- The leads to members begin with a string or a name, as members do. -/
theorem shields_inputValue {K : Set TokenKind} (hK : ∀ k ∈ K, ∃ p, k = .punctuator p) :
    inputValue.Shields K :=
  .here (shields_member hK)

/-- A field is led to by its name or by its description, so by nothing that is a mark. -/
theorem shields_field {K : Set TokenKind} (hK : ∀ k ∈ K, ∃ p, k = .punctuator p) : field.Shields K := by
  refine .or (.here (shields_member hK)) (.behind (shields_description (fun k hk hmem ↦ ?_) Set.Subset.rfl)
    fun _ ↦ .first (.name fun text hmem ↦ ?_))
  · obtain ⟨p, rfl⟩ := hK k hmem
    simp [mem_strings_iff] at hk
  · obtain ⟨p, hp⟩ := hK _ hmem
    cases hp

/-- The leads in items begin with a keyword, as items do. -/
theorem shields_described {K : Set TokenKind} (hK : ∀ word, word ≠ "implements" → .name word ∉ K)
    (description : Option String) : (described description).Shields K := by
  refine .or (.oneOf fun kind ↦ .word .keyword (hK _ ?_)) (.or (.word .keyword (hK _ (by simp)))
    (.word (.provided .keyword) (hK _ (by simp))))
  cases kind <;> simp [TypeKind.keyword]

/-- What leads into an item is never taken for the end of the one before. -/
theorem shields_definition : definition.Shields itemEnd :=
  .behind (shields_description notMem_itemEnd_of_mem_strings Set.Subset.rfl)
    (shields_described (by simp [itemEnd]))

end Lead

/-! ### Closing what has begun -/

/-- The tokens that close whatever has begun before a type: brackets, the type of a field behind its
arguments, and a location of a directive. -/
def closers : List TokenKind :=
  [.punctuator .parenClose, .punctuator .braceClose, .punctuator .colon, .name "on", .name "QUERY"]

namespace Lead

/-- Behind the lead and a type the phrase can be closed. -/
def Closes (L : Lead) (P : Phrase α) : Prop :=
  ∀ outside head kinds type, L outside head → Phrase.typeReference admitted kinds type →
    ∃ more ⊆ closers, ∃ a, P (outside ++ (head ++ (kinds ++ more))) a

namespace Closes

variable {L M : Lead} {P P' : Phrase α}

/-- A lead behind a phrase closes the phrase and what it closes. -/
theorem behind {L : α → Lead} {Q : α → Phrase β} (hL : ∀ a, (L a).Closes (Q a)) :
    (Lead.behind P L).Closes (P >>= Q) := by
  rintro _ head kinds type ⟨a, front, back, rfl, hfront, hback⟩ htype
  obtain ⟨more, hmore, b, hQ⟩ := hL a back head kinds type hback htype
  exact ⟨more, hmore, b, a, front, _, List.append_assoc _ _ _, hfront, hQ⟩

/-- Behind what is closed may come more that closes. -/
theorem first {Q : α → Phrase β} (hL : L.Closes P) (hQ : ∀ a, ∃ more ⊆ closers, ∃ b, Q a more b) :
    L.Closes (P >>= Q) := by
  intro outside head kinds type hlead htype
  obtain ⟨more, hmore, a, hP⟩ := hL outside head kinds type hlead htype
  obtain ⟨last, hlast, b, hQ⟩ := hQ a
  exact ⟨more ++ last, List.append_subset.2 ⟨hmore, hlast⟩, b, a, _, last, by simp, hP, hQ⟩

/-- What is made of a phrase is closed as the phrase is. -/
theorem last {f : α → β} (hL : L.Closes P) : L.Closes (do return f (← P)) :=
  hL.first fun a ↦ ⟨[], List.nil_subset _, f a, rfl, rfl⟩

/-- A choice is closed on the side that was begun. -/
theorem or (hL : L.Closes P) (hM : M.Closes P) : (L <|> M).Closes P :=
  fun outside head kinds type h ↦ h.elim (hL outside head kinds type) (hM outside head kinds type)

theorem oneOf {ι : Type} {L : ι → Lead} (hL : ∀ i, (L i).Closes P) : (Lead.oneOf L).Closes P :=
  fun outside head kinds type ⟨i, h⟩ ↦ hL i outside head kinds type h

/-- A longer phrase is closed if each run of the shorter one is one of it. -/
theorem mono (hL : L.Closes P) (hP : ∀ ts a, P ts a → P' ts a) : L.Closes P' := by
  intro outside head kinds type hlead htype
  obtain ⟨more, hmore, a, h⟩ := hL outside head kinds type hlead htype
  exact ⟨more, hmore, a, hP _ a h⟩

/-- A phrase that the node begins with. -/
theorem part {Q : α → Phrase Unit} {R : α → Phrase β} (h : ∀ a, (here (Q a)).Closes (R a)) :
    (here (P >>= Q)).Closes (P >>= R) := by
  rintro outside _ kinds type ⟨rfl, a, front, back, rfl, hfront, hback⟩ htype
  obtain ⟨more, hmore, b, hR⟩ := h a [] back kinds type ⟨rfl, hback⟩ htype
  exact ⟨more, hmore, b, a, front, _, List.append_assoc _ _ _, hfront, hR⟩

/-- The colon and the type, behind which nothing must come. -/
theorem colon {Q : TypeReference → Phrase β} (hQ : ∀ type, ∃ b, Q type [] b) :
    (here (Phrase.mark .colon)).Closes (do Phrase.mark .colon; Phrase.typeReference admitted >>= Q) := by
  rintro outside _ kinds type ⟨rfl, rfl⟩ htype
  obtain ⟨b, hb⟩ := hQ type
  exact ⟨[], List.nil_subset _, b, Phrase.mark_bind_iff.2 ⟨_, rfl, type, kinds, [], rfl, htype, hb⟩⟩

/-- A block is closed by its bracket. -/
theorem inBlock {brackets : Brackets} (hL : L.Closes P) :
    (Lead.inBlock brackets P L).Closes (Phrase.block brackets P) := by
  rintro _ head kinds type ⟨_, _, _, rfl, rfl, as, front, back, rfl, hfront, hback⟩ htype
  obtain ⟨more, hmore, a, hP⟩ := hL back head kinds type hback htype
  refine ⟨more ++ [.punctuator brackets.closing], List.append_subset.2 ⟨hmore, ?_⟩, as ++ [a],
    Phrase.block_iff.2 ⟨front ++ (back ++ (head ++ (kinds ++ more))), by simp, ?_, by simp⟩⟩
  · cases brackets <;> simp [closers, Brackets.closing]
  · have hmany := Phrase.Many.append hfront (.cons hP .nil)
    rwa [List.append_nil] at hmany

end Closes

theorem closes_inputValue : inputValue.Closes (Phrase.inputValue admitted) :=
  .part fun _ ↦ .part fun _ ↦ .colon fun _ ↦
    ⟨_, none, [], [], rfl, .inr ⟨rfl, rfl⟩, [], [], [], rfl, .nil, rfl, rfl⟩

theorem closes_arguments : arguments.Closes (Phrase.arguments admitted) :=
  Closes.mono closes_inputValue.inBlock fun _ _ ↦ .inl

theorem closes_field : field.Closes (Phrase.field admitted) := by
  refine .or ?_ ?_
  · exact .part fun _ ↦ .part fun _ ↦ .part fun _ ↦ .colon fun _ ↦ ⟨_, [], [], [], rfl, .nil, rfl, rfl⟩
  · refine .behind fun description ↦ .behind fun name ↦ closes_arguments.first fun arguments ↦ ?_
    have htype : Phrase.typeReference admitted [.name "QUERY"] (.named "QUERY" .nullable) :=
      ⟨TypeReference.isTypeReference_iff.2 rfl, Nat.succ_pos 63⟩
    exact ⟨[.punctuator .colon, .name "QUERY"], by simp [closers], _,
      Phrase.mark_bind_iff.2 ⟨_, rfl, _, _, [], rfl, htype, [], [], [], rfl, .nil, rfl, rfl⟩⟩

/-- Members between braces are members, wherever they may be missing too. -/
theorem Closes.members {L : Lead} {P : Phrase α} (hL : L.Closes P) (mayLack : Bool) :
    (Lead.inBlock .braces P L).Closes (Phrase.members mayLack (Phrase.block .braces P)) := by
  cases mayLack with
  | false => exact hL.inBlock
  | true => exact hL.inBlock.mono fun _ _ ↦ .inl

theorem closes_typeBody (mayLack : Bool) (kind : TypeKind) :
    (typeBody kind).Closes (Phrase.typeBody admitted mayLack kind) := by
  cases kind with
  | object | interface => exact .behind fun _ ↦ .behind fun _ ↦ (closes_field.members mayLack).last
  | inputObject => exact .behind fun _ ↦ (closes_inputValue.members mayLack).last
  | scalar | union | enum => exact fun _ _ _ _ h ↦ h.elim

theorem closes_typeDefinition (kind : TypeKind) (description : Option String) :
    (type kind).Closes (Phrase.typeDefinition admitted kind description) :=
  .behind fun _ ↦ .behind fun _ ↦ (closes_typeBody false kind).last

/-- An extension that has a type in it adds something. -/
theorem closes_typeExtension (kind : TypeKind) :
    (type kind).Closes (Phrase.typeExtension admitted kind) := by
  refine .behind fun _ ↦ .behind fun name ↦ ?_
  intro outside head kinds type hlead htype
  obtain ⟨more, hmore, body, hbody⟩ := closes_typeBody true kind outside head kinds type hlead htype
  refine ⟨more, hmore, _, body, _, [], (List.append_nil _).symm, hbody, Phrase.given_bind_iff.2 ⟨?_, rfl, rfl⟩⟩
  rintro ⟨hdirectives, hmembers⟩
  have hnil := Phrase.eq_nil_of_typeBody hbody hdirectives hmembers
  rw [TypeReference.isTypeReference_iff.1 htype.1] at hnil
  cases type <;> simp [TypeReference.kinds] at hnil

theorem closes_directiveDefinition (description : Option String) :
    directiveDefinition.Closes (Phrase.directiveDefinition admitted description) := by
  refine .behind fun _ ↦ .behind fun _ ↦ .behind fun _ ↦ closes_arguments.first fun arguments ↦ ?_
  refine ⟨[.name "on", .name "QUERY"], by simp [closers], _, false, [], _, rfl, .inr ⟨rfl, rfl⟩,
    Phrase.keyword_bind_iff.2 ⟨_, rfl, [.query], [.name "QUERY"], [], rfl, ?_, rfl, rfl⟩⟩
  exact ⟨false, [], _, rfl, .inr ⟨rfl, rfl⟩, .query, _, [], rfl, rfl, [], [], [], rfl, .nil, rfl, rfl⟩

theorem closes_described (description : Option String) :
    (described description).Closes (Phrase.described admitted description) := by
  refine .or (.oneOf fun kind ↦ ?_) (.or ?_ ?_)
  · exact (closes_typeDefinition kind description).last.mono fun _ _ h ↦ .inl ⟨kind, h⟩
  · exact (closes_directiveDefinition description).last.mono fun _ _ h ↦ .inr (.inl h)
  · have hextension : extension.Closes (do Phrase.keyword "extend"; Phrase.extensionBody admitted) :=
      .behind fun _ ↦ .oneOf fun kind ↦ (closes_typeExtension kind).last.mono fun _ _ h ↦ .inl ⟨kind, h⟩
    exact Closes.mono (.behind fun _ ↦ hextension) fun _ _ h ↦ .inr (.inr (.inr h))

/-- A document that has begun before a type can be closed behind it. -/
theorem closes_document : document.Closes (Phrase.document admitted) := by
  rintro _ head kinds type ⟨items, front, back, rfl, hfront, hback⟩ htype
  have hdefinition : definition.Closes (Phrase.definition admitted) := .behind closes_described
  obtain ⟨more, hmore, item, hitem⟩ := hdefinition back head kinds type hback htype
  have hmany := Phrase.Many.append hfront (.cons hitem .nil)
  rw [List.append_nil] at hmany
  refine ⟨more, hmore, _, Phrase.bind_return_iff.2 ⟨items ++ [item], ?_, rfl⟩⟩
  rw [List.append_assoc]
  exact hmany

/-! ### No place is left out -/

open HasTypes (HasType hasType_list)

/-- In front of each type that a phrase has according to `T` there is a lead. -/
def Finds (L : Lead) (P : Phrase α) (T : α → TypeReference → Prop) : Prop :=
  ∀ ts a type, P ts a → T a type →
    ∃ outside head back, ts = outside ++ (head ++ (type.kinds ++ back)) ∧ L outside head

namespace Finds

variable {L M : Lead} {P P' : Phrase α} {T : α → TypeReference → Prop} {U : β → TypeReference → Prop}

/-- What is found in the second of two phrases is found in both. -/
theorem behind {L : α → Lead} {Q : α → Phrase β} (hL : ∀ a, (L a).Finds (Q a) U) :
    (Lead.behind P L).Finds (P >>= Q) U := by
  rintro _ b type ⟨a, front, rest, rfl, hfront, hrest⟩ htype
  obtain ⟨outside, head, back, rfl, hlead⟩ := hL a rest b type hrest htype
  exact ⟨front ++ outside, head, back, (List.append_assoc _ _ _).symm, a, front, outside, rfl, hfront, hlead⟩

/-- The types are those of what comes first. -/
theorem first {Q : α → Phrase β} (hL : L.Finds P T) (hQ : ∀ a ts b, Q a ts b → ∀ type, U b type → T a type) :
    L.Finds (P >>= Q) U := by
  rintro _ b type ⟨a, front, rest, rfl, hfront, hrest⟩ htype
  obtain ⟨outside, head, back, rfl, hlead⟩ := hL front a type hfront (hQ a rest b hrest type htype)
  exact ⟨outside, head, back ++ rest, by simp, hlead⟩

/-- What has a type because of a part has it found there. -/
theorem last {f : α → β} (hL : L.Finds P T) (hf : ∀ a type, U (f a) type → T a type) :
    L.Finds (do return f (← P)) U :=
  hL.first fun a _ _ h ↦ by
    obtain ⟨-, rfl⟩ := h
    exact hf a

/-- More leads find no less. -/
theorem mono (hL : L.Finds P T) (h : ∀ outside head, L outside head → M outside head) : M.Finds P T := by
  intro ts a type hP htype
  obtain ⟨outside, head, back, hts, hlead⟩ := hL ts a type hP htype
  exact ⟨outside, head, back, hts, h outside head hlead⟩

/-- A choice of phrases is searched on both sides. -/
theorem or (hL : L.Finds P T) (hM : M.Finds P' T) : (L <|> M).Finds (P <|> P') T :=
  fun ts a type h ↦
    h.elim (hL.mono (fun _ _ ↦ .inl) ts a type) (hM.mono (fun _ _ ↦ .inr) ts a type)

theorem oneOf {ι : Type} {L : ι → Lead} {P : ι → Phrase α} (hL : ∀ i, (L i).Finds (P i) T) :
    (Lead.oneOf L).Finds (Phrase.oneOf P) T := by
  rintro ts a type ⟨i, h⟩
  exact (hL i).mono (fun _ _ hlead ↦ ⟨i, hlead⟩) ts a type h

/-- Some of the types have one lead in front of them, and the others another. -/
theorem either {T' : α → TypeReference → Prop} (hL : L.Finds P T) (hM : M.Finds P T') :
    (L <|> M).Finds P fun a type ↦ T a type ∨ T' a type :=
  fun ts a type h htype ↦
    htype.elim (hL.mono (fun _ _ ↦ .inl) ts a type h) (hM.mono (fun _ _ ↦ .inr) ts a type h)

/-- A phrase without types has none to find. -/
theorem none (hP : ∀ ts a type, P ts a → ¬ T a type) : L.Finds P T :=
  fun ts a type h htype ↦ absurd htype (hP ts a type h)

/-- An alternative without such types. -/
theorem or_none (hL : L.Finds P T) (hP' : ∀ ts a type, P' ts a → ¬ T a type) : L.Finds (P <|> P') T :=
  fun ts a type h ↦ h.elim (hL ts a type) (Finds.none hP' ts a type)

theorem none_or (hP : ∀ ts a type, P ts a → ¬ T a type) (hL : L.Finds P' T) : L.Finds (P <|> P') T :=
  fun ts a type h ↦ h.elim (Finds.none hP ts a type) (hL ts a type)

/-- A phrase that the node begins with. -/
theorem part {Q : α → Phrase Unit} {R : α → Phrase β} (h : ∀ a, (here (Q a)).Finds (R a) U) :
    (here (P >>= Q)).Finds (P >>= R) U := by
  rintro _ b type ⟨a, front, rest, rfl, hfront, hrest⟩ htype
  obtain ⟨_, head, back, rfl, rfl, hhead⟩ := h a rest b type hrest htype
  exact ⟨[], front ++ head, back, by simp, rfl, a, front, head, rfl, hfront, hhead⟩

/-- The colon and the type. -/
theorem colon {Q : TypeReference → Phrase β} (hQ : ∀ type ts b, Q type ts b → ∀ t, U b t → t = type) :
    (here (Phrase.mark .colon)).Finds (do Phrase.mark .colon; Phrase.typeReference admitted >>= Q) U := by
  intro ts b type h htype
  obtain ⟨_, rfl, t, front, rest, rfl, ht, hrest⟩ := Phrase.mark_bind_iff.1 h
  obtain rfl := hQ t rest b hrest type htype
  rw [TypeReference.isTypeReference_iff.1 ht.1]
  exact ⟨[], [.punctuator .colon], rest, rfl, rfl, rfl⟩

/-- One of many items has the type, behind others. -/
theorem many [HasTypes α] (hL : L.Finds P HasType) :
    (Lead.behind (Phrase.many P) fun _ ↦ L).Finds (Phrase.many P) HasType := by
  intro ts as type h htype
  induction h with
  | nil =>
    obtain ⟨_, h, -⟩ := hasType_list.1 htype
    cases h
  | @cons front rest a as first others ih =>
    obtain ⟨b, hb, hfound⟩ := hasType_list.1 htype
    rcases List.mem_cons.1 hb with rfl | hb
    · obtain ⟨outside, head, back, rfl, hlead⟩ := hL front b type first hfound
      exact ⟨outside, head, back ++ rest, by simp, [], [], outside, rfl, .nil, hlead⟩
    · obtain ⟨_, head, back, rfl, bs, before, outside, rfl, hbefore, hlead⟩ := ih (hasType_list.2 ⟨b, hb, hfound⟩)
      exact ⟨front ++ (before ++ outside), head, back, by simp, a :: bs, front ++ before, outside, by simp,
        .cons first hbefore, hlead⟩

/-- In a block the types of its items are found, each behind the items before it. -/
theorem inBlock [HasTypes α] {brackets : Brackets} (hL : L.Finds P HasType) :
    (Lead.inBlock brackets P L).Finds (Phrase.block brackets P) HasType := by
  intro ts as type h htype
  obtain ⟨inside, rfl, hmany, -⟩ := Phrase.block_iff.1 h
  obtain ⟨outside, head, back, rfl, hlead⟩ := hL.many inside as type hmany htype
  exact ⟨.punctuator brackets.opening :: outside, head, back ++ [.punctuator brackets.closing], by simp,
    (), [_], outside, rfl, rfl, hlead⟩

/-- Where a phrase is missing there are no types. -/
theorem orEmpty [HasTypes α] {P : Phrase (List α)} (hL : L.Finds P HasType) :
    L.Finds (Phrase.orEmpty P) HasType := by
  rintro ts as type (h | ⟨rfl, rfl⟩) htype
  · exact hL ts as type h htype
  · obtain ⟨_, h, -⟩ := hasType_list.1 htype
    cases h

/-- Members between braces, wherever they may be missing too. -/
theorem members [HasTypes α] (hL : L.Finds P HasType) (mayLack : Bool) :
    (Lead.inBlock .braces P L).Finds (Phrase.members mayLack (Phrase.block .braces P)) HasType := by
  cases mayLack with
  | false => exact hL.inBlock
  | true => exact hL.inBlock.orEmpty

end Finds

theorem finds_inputValue : inputValue.Finds (Phrase.inputValue admitted) HasType := by
  refine .part fun description ↦ .part fun name ↦ .colon fun type ts value h t ht ↦ ?_
  obtain ⟨defaultValue, _, _, rfl, -, h⟩ := h
  obtain ⟨directives, -, rfl⟩ := Phrase.bind_return_iff.1 h
  obtain ⟨start, hstart⟩ := ht
  exact (Prod.mk.inj (List.mem_singleton.1 hstart)).2

theorem finds_arguments : arguments.Finds (Phrase.arguments admitted) HasType :=
  finds_inputValue.inBlock.orEmpty

theorem finds_field : field.Finds (Phrase.field admitted) HasType := by
  -- the type of the field itself, and those of its arguments
  have hown : (here (do
      let _ ← Phrase.description
      let _ ← Phrase.name
      let _ ← Phrase.arguments admitted
      Phrase.mark .colon)).Finds (Phrase.field admitted) fun field type ↦ type = field.type := by
    refine .part fun description ↦ .part fun name ↦ .part fun arguments ↦ .colon fun type ts field h t ht ↦ ?_
    obtain ⟨directives, -, rfl⟩ := Phrase.bind_return_iff.1 h
    exact ht
  have hinside : (behind Phrase.description fun _ ↦ behind Phrase.name fun _ ↦ arguments).Finds
      (Phrase.field admitted) fun field type ↦ HasType field.arguments type := by
    refine .behind fun description ↦ .behind fun name ↦ finds_arguments.first fun arguments ts field h ↦ ?_
    obtain ⟨_, rfl, type, _, _, rfl, -, h⟩ := Phrase.mark_bind_iff.1 h
    obtain ⟨directives, -, rfl⟩ := Phrase.bind_return_iff.1 h
    exact fun _ ↦ id
  intro ts field type h htype
  refine hown.either hinside ts field type h ?_
  obtain ⟨start, hstart⟩ := htype
  exact (List.mem_cons.1 hstart).imp (fun heq ↦ (Prod.mk.inj heq).2) fun hmem ↦ ⟨start, hmem⟩

theorem finds_typeBody (mayLack : Bool) (kind : TypeKind) :
    (typeBody kind).Finds (Phrase.typeBody admitted mayLack kind) HasType := by
  cases kind with
  | object | interface =>
    exact .behind fun _ ↦ .behind fun _ ↦ (finds_field.members mayLack).last fun _ _ ↦ id
  | inputObject => exact .behind fun _ ↦ (finds_inputValue.members mayLack).last fun _ _ ↦ id
  | scalar =>
    refine .none fun ts body type h htype ↦ ?_
    obtain ⟨directives, -, rfl⟩ := Phrase.bind_return_iff.1 h
    cases htype.choose_spec
  | union | enum =>
    refine .none fun ts body type h htype ↦ ?_
    obtain ⟨directives, _, _, rfl, -, h⟩ := h
    obtain ⟨members, -, rfl⟩ := Phrase.bind_return_iff.1 h
    cases htype.choose_spec

theorem finds_typeDefinition (kind : TypeKind) (description : Option String) :
    (type kind).Finds (Phrase.typeDefinition admitted kind description) HasType :=
  .behind fun _ ↦ .behind fun _ ↦ (finds_typeBody false kind).last fun _ _ ↦ id

theorem finds_typeExtension (kind : TypeKind) :
    (type kind).Finds (Phrase.typeExtension admitted kind) HasType := by
  refine .behind fun _ ↦ .behind fun _ ↦ (finds_typeBody true kind).first fun body ts ext h ↦ ?_
  obtain ⟨-, -, rfl⟩ := Phrase.given_bind_iff.1 h
  exact fun _ ↦ id

theorem finds_directiveDefinition (description : Option String) :
    directiveDefinition.Finds (Phrase.directiveDefinition admitted description) HasType := by
  refine .behind fun _ ↦ .behind fun _ ↦ .behind fun _ ↦ finds_arguments.first fun arguments ts directive h ↦ ?_
  obtain ⟨repeatable, _, _, rfl, -, h⟩ := h
  obtain ⟨_, rfl, locations, _, _, rfl, -, -, rfl⟩ := Phrase.keyword_bind_iff.1 h
  exact fun _ ↦ id

theorem finds_extensionBody : (oneOf type).Finds (Phrase.extensionBody admitted) HasType := by
  refine .or_none (.oneOf fun kind ↦ (finds_typeExtension kind).last fun _ _ ↦ id) fun ts item t h htype ↦ ?_
  obtain ⟨ext, -, rfl⟩ := Phrase.bind_return_iff.1 h
  cases htype.choose_spec

theorem finds_described (description : Option String) :
    (described description).Finds (Phrase.described admitted description) HasType := by
  refine .or (.oneOf fun kind ↦ (finds_typeDefinition kind description).last fun _ _ ↦ id) ?_
  refine .or ((finds_directiveDefinition description).last fun _ _ ↦ id) (.none_or (fun ts item t h htype ↦ ?_) ?_)
  · obtain ⟨schema, -, rfl⟩ := Phrase.bind_return_iff.1 h
    cases htype.choose_spec
  · exact .behind fun _ ↦ .behind fun _ ↦ finds_extensionBody

/-- **Every type of a document has a lead in front of it.** -/
theorem finds_document : document.Finds (Phrase.document admitted) HasType :=
  (Finds.behind finds_described).many.last fun items _ ↦
    Exists.imp fun _ ↦ (HasTypes.perm_nodeTypes_ofDefinitions items).mem_iff.1

end Lead

end TypeSystem
