import TypeSystem.Proofs.Reading.Documents
import TypeSystem.Proofs.Syntax.Weight
import TypeSystem.Proofs.Token.Tiling

/-!
# What is read weighs no more than its text

A value that is read keeps texts of its tokens, each in one place at most, and every member of a list in it is
read from tokens of its own. So it is no heavier than the tokens (`Phrase.Affords`), where a token weighs the
bytes of the text that it keeps, and one for itself. This is said of phrases, which have one law for each way
of putting them together.

The tokens of a text weigh at most two for each byte of it, one as part of the token and one for the token
itself. So a document weighs at most twice as much as its text is long (`Document.weight_le_of_ofTokens`).
-/

namespace TypeSystem

open HasWeight (weight)

instance : HasWeight TokenKind := ⟨fun kind ↦ weight kind.rawText?⟩

namespace Phrase

variable {α β : Type} [HasWeight α] [HasWeight β] {carried spare : ℕ}

/-- A value of the phrase weighs no more than its run, with `spare` left over, if so much is carried already. -/
def Affords (P : Phrase α) (carried spare : ℕ) : Prop :=
  ∀ ts a, P ts a → weight a + spare ≤ carried + weight ts

namespace Affords

variable {P Q : Phrase α}

/-- What is made of what was read weighs no more, and leaves what is spare. -/
theorem pure {a : α} (h : weight a + spare ≤ carried) : (Pure.pure a : Phrase α).Affords carried spare := by
  rintro _ _ ⟨rfl, rfl⟩
  exact h

/-- What the value of the first phrase weighs is carried on, with what is left over. -/
theorem bind {k : α → Phrase β} {left : ℕ} (hP : P.Affords 0 left)
    (hk : ∀ a, (k a).Affords (carried + weight a + left) spare) : (P >>= k).Affords carried spare := by
  rintro _ b ⟨a, front, back, rfl, ha, hb⟩
  have hfront := hP front a ha
  have hback := hk a back b hb
  rw [weight_append]
  omega

/-- A value is only put into another form. -/
theorem wrapped {wrap : α → β} (hP : P.Affords carried spare) (h : ∀ a, weight (wrap a) = weight a) :
    (do return wrap (← P) : Phrase β).Affords carried spare := by
  rintro _ _ ⟨a, front, _, rfl, ha, rfl, rfl⟩
  rw [List.append_nil, h]
  exact hP front a ha

/-- A choice affords what both sides do. -/
theorem or (hP : P.Affords carried spare) (hQ : Q.Affords carried spare) : (P <|> Q).Affords carried spare :=
  fun ts a h ↦ h.elim (hP ts a) (hQ ts a)

/-- And so does a choice of several. -/
theorem oneOf {ι : Type} {P : ι → Phrase α} (hP : ∀ i, (P i).Affords carried spare) :
    (Phrase.oneOf P).Affords carried spare := by
  rintro ts a ⟨i, h⟩
  exact hP i ts a h

/-- Less may be left over, and more with what is carried. -/
theorem mono {left : ℕ} (hP : P.Affords 0 left) (h : spare ≤ carried + left) : P.Affords carried spare := by
  intro ts a ha
  have hleft := hP ts a ha
  omega

/-! ### Tokens -/

theorem given (condition : Prop) : (Phrase.given condition).Affords 0 0 := by
  rintro _ _ ⟨rfl, -⟩
  exact Nat.le_refl 0

/-- A mark gives one token and no value, so one is spare. -/
theorem mark (p : Punctuator) : (Phrase.mark p).Affords 0 1 := by
  rintro _ _ rfl
  exact Nat.le_refl 1

theorem keyword (text : String) : (Phrase.keyword text).Affords 0 1 := by
  rintro _ _ rfl
  exact Nat.le_add_left 1 _

theorem name : Phrase.name.Affords 0 1 := by
  rintro _ text rfl
  exact Nat.le_of_eq (Nat.zero_add _).symm

/-- Words stand for what weighs nothing. -/
theorem word {text : α → String} (h : ∀ a : α, weight a = 0) : (Phrase.word text).Affords 0 1 := by
  rintro _ a rfl
  rw [h]
  exact Nat.le_add_left 1 _

theorem value : Phrase.value.Affords 0 1 := by
  rintro _ text ⟨kind, rfl, h⟩
  have hkind : weight kind = weight text := by
    cases kind with
    | name | int | float | string | blockString =>
      obtain rfl := Option.some.inj h
      rfl
    | _ => cases h
  rw [weight_cons, weight_nil, hkind]
  omega

theorem text : Phrase.text.Affords 0 1 := by
  rintro _ text (rfl | rfl)
  · exact Nat.le_of_eq (Nat.zero_add _).symm
  · exact Nat.le_of_eq (Nat.zero_add _).symm

/-! ### Parts that may be missing or repeated -/

/-- Each item of a list costs one, which it has spare. -/
theorem many (hP : P.Affords 0 1) : (Phrase.many P).Affords 0 0 := by
  intro ts as h
  induction h with
  | nil => exact Nat.le_refl 0
  | @cons front back a as first others ih =>
    have hfront := hP front a first
    rw [weight_append, weight_cons]
    omega

theorem several (hP : P.Affords 0 1) : (Phrase.several P).Affords 0 0 :=
  fun ts as h ↦ many hP ts as h.1

theorem present {P : Phrase Unit} (hP : P.Affords 0 0) : (Phrase.present P).Affords 0 0 :=
  .or (.bind (β := Bool) hP fun _ ↦ .pure (Nat.le_refl 0)) (.pure (Nat.le_refl 0))

theorem description : Phrase.description.Affords 0 0 :=
  .or (.bind text fun a ↦ .pure (by simp)) (.pure (Nat.le_refl 0))

theorem afterMark {p : Punctuator} (hP : P.Affords 0 spare) : (Phrase.afterMark p P).Affords 0 0 :=
  .or (.bind (mark p) fun _ ↦ .bind hP fun a ↦ .pure (by simp; omega)) (.pure (Nat.le_refl 0))

theorem separated {p : Punctuator} (hP : P.Affords 0 1) : (Phrase.separated p P).Affords 0 0 := by
  have hothers : (Phrase.many (do Phrase.mark p; P)).Affords 0 0 :=
    many (.bind (mark p) fun _ ↦ hP.mono (by omega))
  refine .bind (present ((mark p).mono (Nat.zero_le _))) fun _ ↦ .bind hP fun first ↦
    .bind hothers fun others ↦ .pure ?_
  rw [weight_cons]
  omega

/-- The brackets pay for the list and leave one. -/
theorem block {brackets : Brackets} (hP : P.Affords 0 1) : (Phrase.block brackets P).Affords 0 1 := by
  refine .bind (mark _) fun _ ↦ .bind (several hP) fun as ↦ .bind (mark _) fun _ ↦ .pure ?_
  omega

theorem orEmpty {P : Phrase (List α)} (hP : P.Affords 0 0) : (Phrase.orEmpty P).Affords 0 0 :=
  .or hP (.pure (Nat.le_refl 0))

end Affords

/-! ### Nodes -/

/-- A reference weighs as many as it has tokens at most. Nothing is said of nesting here. -/
theorem affords_typeReference (admits : TypeReference → Prop) : (typeReference admits).Affords 0 1 := by
  rintro ts type ⟨htype, -⟩
  -- induction on the lists around the name
  induction htype with
  | @named name n marks _ =>
    show weight name + 1 ≤ 0 + weight (TokenKind.name name :: marks)
    have hname : weight (TokenKind.name name) = weight name := rfl
    rw [weight_cons]
    omega
  | @list inside marks element n _ _ ih =>
    have hlist : weight (TypeReference.list element n) = weight element := rfl
    rw [hlist, weight_cons, weight_append, weight_cons]
    omega

theorem affords_argument : argument.Affords 0 1 := by
  refine .bind .name fun n ↦ .bind (.mark _) fun _ ↦ .bind .value fun v ↦ .pure ?_
  show weight n + weight v + 1 ≤ _
  omega

theorem affords_appliedDirective : appliedDirective.Affords 0 1 := by
  refine .bind (.mark _) fun _ ↦ .bind .name fun n ↦
    .bind (.orEmpty ((Affords.block affords_argument).mono (Nat.zero_le _))) fun as ↦ .pure ?_
  show weight n + weight as + 1 ≤ _
  omega

theorem affords_appliedDirectives : appliedDirectives.Affords 0 0 := .many affords_appliedDirective

section Nodes

variable (admits : TypeReference → Prop)

theorem affords_inputValue : (inputValue admits).Affords 0 1 := by
  refine .bind .description fun d ↦ .bind .name fun n ↦ .bind (.mark _) fun _ ↦
    .bind (affords_typeReference admits) fun t ↦ .bind (.afterMark .value) fun v ↦
      .bind affords_appliedDirectives fun ds ↦ .pure ?_
  show weight d + weight n + weight t + weight v + weight ds + 1 ≤ _
  omega

theorem affords_arguments : (arguments admits).Affords 0 0 :=
  .orEmpty ((Affords.block (affords_inputValue admits)).mono (Nat.zero_le _))

theorem affords_field : (field admits).Affords 0 1 := by
  refine .bind .description fun d ↦ .bind .name fun n ↦ .bind (affords_arguments admits) fun as ↦
    .bind (.mark _) fun _ ↦ .bind (affords_typeReference admits) fun t ↦
      .bind affords_appliedDirectives fun ds ↦ .pure ?_
  show weight d + weight n + weight as + weight t + weight ds + 1 ≤ _
  omega

theorem affords_enumValue : enumValue.Affords 0 1 := by
  refine .bind .description fun d ↦ .bind .name fun n ↦ .bind (.given _) fun _ ↦
    .bind affords_appliedDirectives fun ds ↦ .pure ?_
  show weight d + weight n + weight ds + 1 ≤ _
  omega

theorem affords_implemented : implemented.Affords 0 0 :=
  .orEmpty (.bind (.keyword _) fun _ ↦ (Affords.separated .name).mono (Nat.zero_le _))

theorem affords_unionMembers : unionMembers.Affords 0 0 :=
  .bind (.mark _) fun _ ↦ (Affords.separated .name).mono (Nat.zero_le _)

theorem affords_members {α : Type} [HasWeight α] {mayLack : Bool} {P : Phrase (List α)} (hP : P.Affords 0 0) :
    (members mayLack P).Affords 0 0 := by
  cases mayLack with
  | true => exact .orEmpty hP
  | false => exact hP

theorem affords_bracedMembers {α : Type} [HasWeight α] {mayLack : Bool} {P : Phrase α} (hP : P.Affords 0 1) :
    (members mayLack (block .braces P)).Affords 0 0 :=
  affords_members ((Affords.block hP).mono (Nat.zero_le _))

/-- Each kind of type pays for its members with its tokens. -/
theorem affords_typeBody (mayLack : Bool) (kind : TypeKind) : (typeBody admits mayLack kind).Affords 0 0 := by
  cases kind with
  | scalar =>
    refine .bind affords_appliedDirectives fun ds ↦ .pure ?_
    show weight ds + 0 ≤ _
    omega
  | object | interface =>
    refine .bind affords_implemented fun is ↦ .bind affords_appliedDirectives fun ds ↦
      .bind (affords_bracedMembers (affords_field admits)) fun fs ↦ .pure ?_
    show weight ds + (weight is + weight fs + 0 + 0 + 0) ≤ _
    omega
  | union =>
    refine .bind affords_appliedDirectives fun ds ↦ .bind (affords_members affords_unionMembers) fun ms ↦ .pure ?_
    show weight ds + (0 + 0 + 0 + 0 + weight ms) ≤ _
    omega
  | enum =>
    refine .bind affords_appliedDirectives fun ds ↦ .bind (affords_bracedMembers affords_enumValue) fun vs ↦ .pure ?_
    show weight ds + (0 + 0 + 0 + weight vs + 0) ≤ _
    omega
  | inputObject =>
    refine .bind affords_appliedDirectives fun ds ↦
      .bind (affords_bracedMembers (affords_inputValue admits)) fun fs ↦ .pure ?_
    show weight ds + (0 + 0 + weight fs + 0 + 0) ≤ _
    omega

/-! ### Items

What stands in front of an item, its description, is carried. -/

theorem affords_typeDefinition (kind : TypeKind) (description : Option String) :
    (typeDefinition admits kind description).Affords (weight description) 1 := by
  refine .bind (.keyword _) fun _ ↦ .bind .name fun n ↦ .bind (affords_typeBody admits false kind) fun body ↦ .pure ?_
  show weight description + weight n + weight body.1 + weight body.2 + 1 ≤ _
  have hbody : weight body = weight body.1 + weight body.2 := rfl
  omega

theorem affords_typeExtension (kind : TypeKind) : (typeExtension admits kind).Affords 0 1 := by
  refine .bind (.keyword _) fun _ ↦ .bind .name fun n ↦ .bind (affords_typeBody admits true kind) fun body ↦
    .bind (.given _) fun _ ↦ .pure ?_
  show weight n + weight body.1 + weight body.2 + 1 ≤ _
  have hbody : weight body = weight body.1 + weight body.2 := rfl
  omega

theorem affords_directiveDefinition (description : Option String) :
    (directiveDefinition admits description).Affords (weight description) 1 := by
  refine .bind (.keyword _) fun _ ↦ .bind (.mark _) fun _ ↦ .bind .name fun n ↦
    .bind (affords_arguments admits) fun as ↦ .bind (.present ((Affords.keyword _).mono (Nat.zero_le _))) fun r ↦
      .bind (.keyword _) fun _ ↦ .bind (.separated (.word fun _ ↦ rfl)) fun ls ↦ .pure ?_
  show weight description + weight n + weight as + weight ls + 1 ≤ _
  omega

end Nodes

theorem affords_rootType : rootType.Affords 0 1 := by
  refine .bind (.word fun _ ↦ rfl) fun o ↦ .bind (.mark _) fun _ ↦ .bind .name fun n ↦ .pure ?_
  show weight o + weight n + 1 ≤ _
  omega

theorem weight_rootTypes (roots : RootTypes) :
    weight roots = weight roots.query + weight roots.mutation + weight roots.subscription := rfl

/-- Setting a root type adds its name. -/
theorem weight_set_le (roots : RootTypes) (operation : Operation) (name : String) :
    weight (roots.set operation name) ≤ weight roots + weight name := by
  rw [weight_rootTypes, weight_rootTypes]
  cases operation <;> simp only [RootTypes.set, weight_some] <;> omega

theorem weight_foldl_set_le (declared : List (Operation × String)) (roots : RootTypes) :
    weight (declared.foldl (fun roots root ↦ roots.set root.1 root.2) roots) ≤ weight roots + weight declared := by
  induction declared generalizing roots with
  | nil => exact Nat.le_refl _
  | cons root declared ih =>
    obtain ⟨operation, name⟩ := root
    have hset := weight_set_le roots operation name
    have hroot : weight (operation, name) = 0 + weight name := rfl
    rw [List.foldl_cons, weight_cons, hroot]
    refine (ih _).trans ?_
    dsimp only
    omega

theorem affords_rootTypes : rootTypes.Affords 0 0 := by
  refine .bind (.block affords_rootType) fun declared ↦ .bind (.given _) fun _ ↦ .pure ?_
  have hroots := weight_foldl_set_le declared .none
  have hnone : weight RootTypes.none = 0 := rfl
  omega

theorem affords_schemaDefinition (description : Option String) :
    (schemaDefinition description).Affords (weight description) 1 := by
  refine .bind (.keyword _) fun _ ↦ .bind affords_appliedDirectives fun ds ↦
    .bind affords_rootTypes fun roots ↦ .pure ?_
  show weight description + weight ds + weight roots + 1 ≤ _
  omega

theorem affords_schemaExtension : schemaExtension.Affords 0 1 := by
  refine .bind (.keyword _) fun _ ↦ .bind affords_appliedDirectives fun ds ↦
    .or (.bind affords_rootTypes fun roots ↦ .pure ?_) (.bind (.given _) fun _ ↦ .pure ?_)
  · show weight ds + weight roots + 1 ≤ _
    omega
  · show weight ds + 0 + 1 ≤ _
    omega

section Items

variable (admits : TypeReference → Prop)

theorem affords_extensionBody : (extensionBody admits).Affords 0 1 :=
  .or (.oneOf fun kind ↦ .wrapped (affords_typeExtension admits kind) fun _ ↦ rfl)
    (.wrapped affords_schemaExtension fun _ ↦ rfl)

theorem affords_described (description : Option String) :
    (described admits description).Affords (weight description) 1 := by
  refine .or (.oneOf fun kind ↦ .wrapped (affords_typeDefinition admits kind description) fun _ ↦ rfl)
    (.or (.wrapped (affords_directiveDefinition admits description) fun _ ↦ rfl)
      (.or (.wrapped (affords_schemaDefinition description) fun _ ↦ rfl) ?_))
  exact .bind (.given _) fun _ ↦ .bind (.keyword _) fun _ ↦ (affords_extensionBody admits).mono (by omega)

/-- Every item has a token to spare, which pays for its place in the list. -/
theorem affords_definition : (definition admits).Affords 0 1 := by
  refine .bind .description fun description ↦ ?_
  rw [Nat.add_zero, Nat.zero_add]
  exact affords_described admits description

/-- A document weighs no more than the tokens that stand for it. -/
theorem affords_document : (document admits).Affords 0 0 := by
  refine .bind (.many (affords_definition admits)) fun items ↦ .pure ?_
  rw [weight_ofDefinitions]
  omega

end Items

end Phrase

/-! ### The tokens of a text -/

namespace Token

open Text

/-- A token weighs no more than what it is written as. -/
theorem weight_le_of_writes {kind : TokenKind} {part : List Char} (h : kind.Writes (String.ofList part)) :
    weight kind ≤ width part := by
  have hwritten := h.eq_text
  rw [← utf8ByteSize_ofList]
  cases kind with
  | name text | int text | float text | string text | blockString text =>
    rw [hwritten text rfl]
    exact Nat.le_refl _
  | comment text =>
    rw [hwritten ("#" ++ text) rfl, String.utf8ByteSize_append]
    exact Nat.le_add_left _ _
  | punctuator | endOfInput | invalid => exact Nat.zero_le _

/-- A token is significant if it is no comment. -/
theorem significant_cons {t : Token} (h : t.kind ≠ .endOfInput) (ts : List Token) :
    significant (t :: ts) = if t.isComment then significant ts else t.kind :: significant ts := by
  unfold significant
  rw [List.takeWhile_cons_of_pos (by simpa using h), List.filter_cons]
  cases t.isComment <;> simp

/-- The significant tokens weigh at most twice what the text does: every token has a character, and its own.
-/
theorem weight_significant_le {place : Place} {cs : List Char} {ts : List Token} (h : Tiling place cs ts) :
    weight (significant ts) ≤ 2 * width cs := by
  induction h with
  | last => exact Nat.zero_le _
  | @token place gap part back kind ts _ part_ne_nil kind_ne writes _ ih =>
    have hkind := weight_le_of_writes writes
    have hpart := width_pos part_ne_nil
    rw [significant_cons kind_ne, width_append, width_append]
    split
    · omega
    · rw [weight_cons]
      dsimp only
      omega

end Token

/-- **A document weighs at most twice as much as its text.** -/
theorem Document.weight_le_of_ofTokens {source : Option String} {text : String} {document : Document}
    (h : Document.ofTokens source (Token.lex text) = .ok document) : weight document ≤ 2 * text.utf8ByteSize := by
  have hread : Parser.document source (.ofTokens (Token.lex text)) = (.ok document, _) := Prod.ext h rfl
  obtain ⟨ts, htaken, hphrase⟩ := (reads_document source).sound _ document _ hread
  have hweight := Phrase.affords_document _ _ _ hphrase
  rw [map_kind_of_taken htaken (current_of_document hread), weight_withoutSpans] at hweight
  have htext := Token.weight_significant_le (Token.tiling_lexFrom .origin text.toList)
  rw [Text.width_toList] at htext
  have hlex : Token.lex text = Token.lexFrom .origin text.toList := rfl
  rw [hlex] at hweight
  omega

end TypeSystem
