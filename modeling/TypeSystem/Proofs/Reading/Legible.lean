import TypeSystem.Proofs.Reading.Documents
import TypeSystem.Proofs.Token.Parts

/-!
# Documents hold no errors

The runs of a phrase are made of tokens that mean something: they hold no comment, no error and no end of
the input. This is so for single tokens, and every way of putting phrases together keeps it
(`Phrase.Legible`). So a text that is read has no error among its tokens (`isValid_of_ofTokens_eq`), and
any run of tokens that is a document is read, wherever its tokens stand (`exists_ofTokens_eq_of_document`).
-/

namespace TypeSystem

/-- What may stand in a document. -/
structure TokenKind.IsLegible (kind : TokenKind) : Prop where
  ne_comment : kind.sort ≠ .comment
  ne_endOfInput : kind ≠ .endOfInput
  isValid : kind.IsValid

theorem TokenKind.IsLegible.punctuator (p : Punctuator) : (TokenKind.punctuator p).IsLegible :=
  ⟨by simp [sort], by simp, by simp [IsValid, sort]⟩

theorem TokenKind.IsLegible.name (text : String) : (TokenKind.name text).IsLegible :=
  ⟨by simp [sort], by simp, by simp [IsValid, sort]⟩

/-- What can be a value is legible. -/
theorem TokenKind.IsLegible.of_value? {kind : TokenKind} {text : String} (h : kind.value? = some text) :
    kind.IsLegible := by
  cases kind with
  | punctuator _ | comment _ | endOfInput | invalid _ _ => cases h
  | _ => exact ⟨by simp [sort], by simp, by simp [IsValid, sort]⟩

/-- The runs of the phrase hold legible tokens only. -/
class Phrase.Legible {α : Type} (P : Phrase α) : Prop where
  isLegible : ∀ {ts : List TokenKind} {a : α}, P ts a → ∀ k ∈ ts, k.IsLegible

namespace Phrase

variable {α β : Type}

/-! ### Phrases put together -/

/-- A phrase of one legible token is legible. -/
theorem Legible.of_singleton {P : Phrase α} (h : ∀ ts a, P ts a → ∃ k, ts = [k] ∧ k.IsLegible) :
    P.Legible where
  isLegible := by
    intro ts a hP k hk
    obtain ⟨k', rfl, hlegible⟩ := h ts a hP
    rwa [List.mem_singleton.1 hk]

/-- A phrase of no tokens is legible. -/
theorem Legible.of_nil {P : Phrase α} (h : ∀ ts a, P ts a → ts = []) : P.Legible where
  isLegible := by
    intro ts a hP k hk
    rw [h ts a hP] at hk
    cases hk

instance (a : α) : (Pure.pure a : Phrase α).Legible :=
  .of_nil fun _ _ ↦ And.left

instance (condition : Prop) : (given condition).Legible :=
  .of_nil fun _ _ ↦ And.left

instance (P : Phrase α) (Q : α → Phrase β) [P.Legible] [∀ a, (Q a).Legible] : (P >>= Q).Legible where
  isLegible := by
    rintro _ b ⟨a, front, back, rfl, hfront, hback⟩ k hk
    exact (List.mem_append.1 hk).elim (Legible.isLegible hfront k) (Legible.isLegible hback k)

instance (P Q : Phrase α) [P.Legible] [Q.Legible] : (P <|> Q).Legible where
  isLegible h := h.elim Legible.isLegible Legible.isLegible

instance {ι : Type} (P : ι → Phrase α) [∀ i, (P i).Legible] : (oneOf P).Legible where
  isLegible := fun ⟨_, h⟩ ↦ Legible.isLegible h

instance (P : Phrase α) [P.Legible] : (many P).Legible where
  isLegible := by
    intro ts as h
    induction h with
    | nil => simp
    | cons first _ ih => exact fun k hk ↦ (List.mem_append.1 hk).elim (Legible.isLegible first k) (ih k)

instance (P : Phrase α) [P.Legible] : (several P).Legible where
  isLegible h := Legible.isLegible (P := many P) h.1

instance (condition : Prop) [Decidable condition] (P Q : Phrase α) [P.Legible] [Q.Legible] :
    (if condition then P else Q).Legible := by
  split <;> infer_instance

instance (P : Phrase Unit) [P.Legible] : (present P).Legible := by
  unfold present
  infer_instance

instance (P : Phrase (List α)) [P.Legible] : (orEmpty P).Legible := by
  unfold orEmpty
  infer_instance

/-! ### Tokens -/

instance (p : Punctuator) : (mark p).Legible :=
  .of_singleton fun _ _ h ↦ ⟨_, h, .punctuator p⟩

instance (text : String) : (keyword text).Legible :=
  .of_singleton fun _ _ h ↦ ⟨_, h, .name text⟩

instance (text : α → String) : (word text).Legible :=
  .of_singleton fun _ a h ↦ ⟨_, h, .name (text a)⟩

instance : name.Legible :=
  .of_singleton fun _ text h ↦ ⟨_, h, .name text⟩

instance : value.Legible :=
  .of_singleton fun _ _ ⟨kind, hts, htext⟩ ↦ ⟨kind, hts, .of_value? htext⟩

instance : text.Legible := by
  refine .of_singleton fun ts text h ↦ ?_
  have hstring : (TokenKind.string text).value? = some text := rfl
  have hblock : (TokenKind.blockString text).value? = some text := rfl
  exact h.elim (fun hts ↦ ⟨_, hts, .of_value? hstring⟩) fun hts ↦ ⟨_, hts, .of_value? hblock⟩

instance : description.Legible := by
  unfold description
  infer_instance

instance (p : Punctuator) (P : Phrase α) [P.Legible] : (afterMark p P).Legible := by
  unfold afterMark
  infer_instance

instance (p : Punctuator) (P : Phrase α) [P.Legible] : (separated p P).Legible := by
  unfold separated
  infer_instance

instance (brackets : Brackets) (P : Phrase α) [P.Legible] : (block brackets P).Legible := by
  unfold block
  infer_instance

/-! ### Nodes -/

instance : nullability.Legible := by
  unfold nullability
  infer_instance

instance : argument.Legible := by
  unfold argument
  infer_instance

instance : appliedDirective.Legible := by
  unfold appliedDirective
  infer_instance

instance : appliedDirectives.Legible := by
  unfold appliedDirectives
  infer_instance

section Nodes

variable (admits : TypeReference → Prop) (mayLack : Bool) (kind : TypeKind) (words : Option String)

instance : (typeReference admits).Legible where
  isLegible := by
    rintro ts type ⟨h, -⟩
    induction h with
    | named marked => exact List.forall_mem_cons.2 ⟨.name _, Legible.isLegible marked⟩
    | list _ marked ih =>
      refine List.forall_mem_cons.2 ⟨.punctuator _, List.forall_mem_append.2 ⟨ih, ?_⟩⟩
      exact List.forall_mem_cons.2 ⟨.punctuator _, Legible.isLegible marked⟩

instance : (inputValue admits).Legible := by
  unfold inputValue
  infer_instance

instance : (arguments admits).Legible := by
  unfold arguments
  infer_instance

instance : (field admits).Legible := by
  unfold field
  infer_instance

instance : enumValue.Legible := by
  unfold enumValue
  infer_instance

instance : implemented.Legible := by
  unfold implemented
  infer_instance

instance : unionMembers.Legible := by
  unfold unionMembers
  infer_instance

instance (P : Phrase (List α)) [P.Legible] : (members mayLack P).Legible := by
  unfold members
  infer_instance

instance : (typeBody admits mayLack kind).Legible := by
  cases kind <;> unfold typeBody <;> infer_instance

instance : (typeDefinition admits kind words).Legible := by
  unfold typeDefinition
  infer_instance

instance : (typeExtension admits kind).Legible := by
  unfold typeExtension
  infer_instance

instance : (directiveDefinition admits words).Legible := by
  unfold directiveDefinition
  infer_instance

instance : rootType.Legible := by
  unfold rootType
  infer_instance

instance : rootTypes.Legible := by
  unfold rootTypes
  infer_instance

instance : (schemaDefinition words).Legible := by
  unfold schemaDefinition
  infer_instance

instance : schemaExtension.Legible := by
  unfold schemaExtension
  infer_instance

instance : (extensionBody admits).Legible := by
  unfold extensionBody
  infer_instance

instance : (described admits words).Legible := by
  unfold described
  infer_instance

instance : (definition admits).Legible := by
  unfold definition
  infer_instance

instance : (document admits).Legible := by
  unfold document
  infer_instance

end Nodes

end Phrase

/-! ### Texts that are read -/

theorem exists_eq_ok_of_isOk {ε α : Type} {r : Except ε α} (h : r.isOk) : ∃ a, r = .ok a := by
  cases r with
  | ok a => exact ⟨a, rfl⟩
  | error e => cases h

variable {source : Option String} {tokens : List Token} {document : Document}

/-- What is significant in tokens that are read is a phrase for the document. -/
theorem document_of_ofTokens_eq (h : Document.ofTokens source tokens = .ok document) :
    Phrase.document admitted (significant tokens) (withoutSpans document) := by
  obtain ⟨ts, htaken, hdocument⟩ := (reads_document source).sound _ document _ (Prod.ext h rfl)
  rwa [map_kind_of_taken htaken (current_of_document (Prod.ext h rfl))] at hdocument

/-- Tokens are read if what is significant in them is a phrase for a document. -/
theorem exists_ofTokens_eq_of_document (source : Option String)
    (h : Phrase.document admitted (significant tokens) document) :
    ∃ read, Document.ofTokens source tokens = .ok read ∧ withoutSpans read = document := by
  obtain ⟨ts, rest, htokens, hts, hrest⟩ := exists_ofTokens_eq tokens
  rw [← hts] at h
  obtain ⟨read, e, hread, hx⟩ := (reads_document source).complete .origin ts rest document h hrest
  exact ⟨read, by rw [Document.ofTokens, htokens, hread], hx⟩

/-- The significant tokens of two runs are those of the first and those of the second, if the first does not
come to the end. -/
theorem significant_append {ts : List Token} (hts : ∀ t ∈ ts, t.kind ≠ .endOfInput) (us : List Token) :
    significant (ts ++ us) = (ts.filter fun t ↦ !t.isComment).map Token.kind ++ significant us := by
  have hgoesOn : ∀ t ∈ ts, decide (t.kind ≠ .endOfInput) = true := by simpa using hts
  rw [significant, List.takeWhile_append_of_pos hgoesOn, List.filter_append, List.map_append]
  rfl

/-- The end of the input is not significant. -/
@[simp] theorem significant_endAt (pos : Position) : significant [.endAt pos] = [] := rfl

/-- A text that is read has no error among its tokens. -/
theorem isValid_of_ofTokens_eq {text : String}
    (h : Document.ofTokens source (Token.lex text) = .ok document) :
    ∀ t ∈ Token.lex text, t.kind.IsValid := by
  have hlegible := Phrase.Legible.isLegible (document_of_ofTokens_eq h)
  obtain ⟨ts, hts, hend⟩ := (Token.tiling_lexFrom .origin text.toList).exists_last
  rw [Token.lex, hts, significant_append hend, significant_endAt, List.append_nil] at hlegible
  rw [Token.lex, hts]
  intro t ht
  rcases List.mem_append.1 ht with ht | ht
  · by_cases hcomment : t.isComment
    · have hsort : t.kind.sort = .comment := of_decide_eq_true hcomment
      rw [TokenKind.IsValid, hsort]
      simp
    · exact (hlegible _ (List.mem_map_of_mem (List.mem_filter.2 ⟨ht, by simpa using hcomment⟩))).isValid
  · rw [List.mem_singleton.1 ht]
    simp [Token.endAt, TokenKind.IsValid, TokenKind.sort]

end TypeSystem
