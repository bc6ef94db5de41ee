import TypeSystem.Proofs.Reading.Documents

/-!
# Beginnings of phrases

A list of tokens is viable for a phrase if it is the beginning of a run (`Phrase.Viable`). A beginning of a
phrase in sequence is one of the first phrase, or a run of the first and a beginning of the second; so that
the first kind is viable, whatever comes second must have some run for every value of the first.

Almost every phrase of the language has a run (`Phrase.Possible`), which is shown by the way it is put
together. Where a condition stands in a phrase a run is named that meets it.
-/

namespace TypeSystem.Phrase

variable {α β : Type}

/-- The phrase has a run. -/
class Possible (P : Phrase α) : Prop where
  exists_run : ∃ ts a, P ts a

/-- The tokens begin a run of the phrase. -/
def Viable (P : Phrase α) (ts : List TokenKind) : Prop :=
  ∃ more a, P (ts ++ more) a

/-- The tokens begin a round of a loop: one more item, or the end. -/
def ViableRound (P : Phrase α) (E : Phrase Unit) (ts : List TokenKind) : Prop :=
  P.Viable ts ∨ E.Viable ts

namespace Viable

variable {P : Phrase α} {Q : α → Phrase β} {ts us : List TokenKind}

/-- Nothing can always go on, where there is a phrase at all. -/
theorem nil [h : P.Possible] : P.Viable [] := h.exists_run

/-- Phrases with the same runs have the same beginnings. -/
theorem congr {P' : Phrase α} (hP : ∀ ts a, P ts a ↔ P' ts a) (h : P.Viable ts) : P'.Viable ts := by
  obtain ⟨more, a, h⟩ := h
  exact ⟨more, a, (hP _ a).1 h⟩

/-- A beginning of the first phrase begins both. -/
theorem first [∀ a, (Q a).Possible] (h : P.Viable ts) : (P >>= Q).Viable ts := by
  obtain ⟨more, a, hP⟩ := h
  obtain ⟨back, b, hQ⟩ := (inferInstance : (Q a).Possible).exists_run
  exact ⟨more ++ back, b, a, ts ++ more, back, (List.append_assoc _ _ _).symm, hP, hQ⟩

/-- A run of the first phrase and a beginning of the second begin both. -/
theorem second {a : α} (hP : P ts a) (hQ : (Q a).Viable us) : (P >>= Q).Viable (ts ++ us) := by
  obtain ⟨more, b, hQ⟩ := hQ
  exact ⟨more, b, a, ts, us ++ more, List.append_assoc _ _ _, hP, hQ⟩

/-- A run of a phrase that has no value, and a beginning of another. -/
theorem behind {P : Phrase Unit} {Q : Phrase β} (hP : P ts ()) (hQ : Q.Viable us) :
    (P >>= fun _ ↦ Q).Viable (ts ++ us) :=
  second hP hQ

/-- A condition that holds takes no token. -/
theorem provided {condition : Prop} {Q : Phrase β} (h : condition) (hQ : Q.Viable us) :
    (Phrase.given condition >>= fun _ ↦ Q).Viable us :=
  behind (P := Phrase.given condition) ⟨rfl, h⟩ hQ

/-- A beginning of one of two phrases is one of either. -/
theorem left {P' : Phrase α} (h : P.Viable ts) : (P <|> P').Viable ts := by
  obtain ⟨more, a, h⟩ := h
  exact ⟨more, a, .inl h⟩

/-- And so it is with the other. -/
theorem right {P' : Phrase α} (h : P'.Viable ts) : (P <|> P').Viable ts := by
  obtain ⟨more, a, h⟩ := h
  exact ⟨more, a, .inr h⟩

/-- A beginning of one of several phrases is one of any. -/
theorem oneOf {ι : Type} {P : ι → Phrase α} {i : ι} (h : (P i).Viable ts) : (Phrase.oneOf P).Viable ts := by
  obtain ⟨more, a, h⟩ := h
  exact ⟨more, a, i, h⟩

end Viable

/-! ### Phrases with runs -/

namespace Possible

instance (a : α) : (Pure.pure a : Phrase α).Possible := ⟨[], a, rfl, rfl⟩

instance (P : Phrase α) (Q : α → Phrase β) [P.Possible] [∀ a, (Q a).Possible] : (P >>= Q).Possible :=
  ⟨(Viable.nil (P := P)).first⟩

instance (P Q : Phrase α) [P.Possible] : (P <|> Q).Possible :=
  ⟨(Viable.nil (P := P)).left⟩

instance (P : Phrase α) : (many P).Possible := ⟨[], [], .nil⟩

instance (P : Phrase α) [h : P.Possible] : (several P).Possible where
  exists_run := by
    obtain ⟨ts, a, hP⟩ := h.exists_run
    exact ⟨_, [a], .cons hP .nil, List.cons_ne_nil a []⟩

instance (condition : Prop) [Decidable condition] (P Q : Phrase α) [P.Possible] [Q.Possible] :
    (if condition then P else Q).Possible := by
  split <;> infer_instance

instance (P : Phrase Unit) [P.Possible] : (present P).Possible := by
  unfold present
  infer_instance

instance (P : Phrase (List α)) [P.Possible] : (orEmpty P).Possible := by
  unfold orEmpty
  infer_instance

instance (p : Punctuator) : (mark p).Possible := ⟨_, (), rfl⟩

instance (text : String) : (keyword text).Possible := ⟨_, (), rfl⟩

instance [h : Nonempty α] (text : α → String) : (word text).Possible := ⟨h.elim fun a ↦ ⟨_, a, rfl⟩⟩

instance : name.Possible := ⟨_, "name", rfl⟩

instance : value.Possible := ⟨_, "name", .name "name", rfl, rfl⟩

instance : text.Possible := ⟨_, "", .inl rfl⟩

instance : description.Possible := by
  unfold description
  infer_instance

instance (p : Punctuator) (P : Phrase α) [P.Possible] : (afterMark p P).Possible := by
  unfold afterMark
  infer_instance

instance (p : Punctuator) (P : Phrase α) [P.Possible] : (separated p P).Possible := by
  unfold separated
  infer_instance

instance (brackets : Brackets) (P : Phrase α) [P.Possible] : (block brackets P).Possible := by
  unfold block
  infer_instance

/-! ### Nodes -/

instance : nullability.Possible := by
  unfold nullability
  infer_instance

instance : argument.Possible := by
  unfold argument
  infer_instance

instance : appliedDirective.Possible := by
  unfold appliedDirective
  infer_instance

instance : appliedDirectives.Possible := by
  unfold appliedDirectives
  infer_instance

section Nodes

variable (mayLack : Bool) (kind : TypeKind) (words : Option String)

instance (levels : ℕ) : (typeReference fun type ↦ type.depth < levels + 1).Possible where
  exists_run := by
    obtain ⟨marks, n, h⟩ := (inferInstance : nullability.Possible).exists_run
    exact ⟨_, .named "name" n, .named h, Nat.succ_pos levels⟩

instance : (typeReference admitted).Possible := by
  show (typeReference fun type ↦ type.depth < 63 + 1).Possible
  infer_instance

instance : (inputValue admitted).Possible := by
  unfold inputValue
  infer_instance

instance : (arguments admitted).Possible := by
  unfold arguments
  infer_instance

instance : (field admitted).Possible := by
  unfold field
  infer_instance

instance : implemented.Possible := by
  unfold implemented
  infer_instance

instance : unionMembers.Possible := by
  unfold unionMembers
  infer_instance

instance (P : Phrase (List α)) [P.Possible] : (members mayLack P).Possible := by
  unfold members
  infer_instance

instance (value : String → List AppliedDirective → EnumValueDefinition) : (do
    let name ← name
    given (name ∉ ["true", "false", "null"])
    let directives ← appliedDirectives
    return value name directives : Phrase EnumValueDefinition).Possible where
  exists_run := by
    obtain ⟨ts, a, h⟩ : (do
      let directives ← appliedDirectives
      return value "name" directives : Phrase EnumValueDefinition).Possible := inferInstance
    exact ⟨_, a, name_bind_iff.2 ⟨"name", ts, rfl, given_bind_iff.2 ⟨by decide, h⟩⟩⟩

instance : enumValue.Possible := by
  unfold enumValue
  infer_instance

instance : (typeBody admitted mayLack kind).Possible := by
  cases kind <;> unfold typeBody <;> infer_instance

instance : (typeDefinition admitted kind words).Possible := by
  unfold typeDefinition
  infer_instance

instance : Nonempty Operation := ⟨.query⟩

instance : rootType.Possible := by
  unfold rootType
  infer_instance

instance : rootTypes.Possible where
  exists_run := by
    obtain ⟨ts, root, h⟩ := (inferInstance : rootType.Possible).exists_run
    have hblock : block .braces rootType _ [root] :=
      block_iff.2 ⟨ts ++ [], rfl, .cons h .nil, List.cons_ne_nil root []⟩
    exact ⟨_, _, [root], _, [], rfl, hblock, given_bind_iff.2 ⟨by simp, rfl, rfl⟩⟩

end Nodes

end Possible

/-! ### Extensions -/

/-- If a phrase never gives an empty list, an empty one in its place is given by no tokens. -/
theorem eq_nil_of_orEmpty {P : Phrase (List α)} (hP : ∀ ts, ¬ P ts []) {ts : List TokenKind}
    (h : orEmpty P ts []) : ts = [] :=
  h.elim (fun hrun ↦ absurd hrun (hP ts)) And.left

/-- Nothing is listed only by no tokens. -/
theorem eq_nil_of_many {P : Phrase α} {ts : List TokenKind} (h : many P ts []) : ts = [] := by
  cases h
  rfl

/-- A block holds something. -/
theorem not_block_nil {brackets : Brackets} {P : Phrase α} (ts : List TokenKind) :
    ¬ block brackets P ts [] := by
  intro h
  obtain ⟨front, -, -, hne⟩ := block_iff.1 h
  exact hne rfl

/-- A list with separators holds something. -/
theorem not_separated_nil {p : Punctuator} {P : Phrase α} (ts : List TokenKind) : ¬ separated p P ts [] := by
  rintro ⟨_, _, _, -, -, first, _, _, -, -, others, _, _, -, -, -, h⟩
  cases h

theorem not_implements_nil (ts : List TokenKind) :
    ¬ (do keyword "implements"; separated .ampersand name : Phrase (List String)) ts [] := by
  intro h
  obtain ⟨back, -, hnames⟩ := keyword_bind_iff.1 h
  exact not_separated_nil back hnames

theorem not_unionMembers_nil (ts : List TokenKind) : ¬ unionMembers ts [] := by
  intro h
  obtain ⟨back, -, hnames⟩ := mark_bind_iff.1 h
  exact not_separated_nil back hnames

/-- Directives and members are missing only if there are no tokens. -/
theorem eq_nil_of_directivesAndMembers {P : Phrase (List α)} (hP : ∀ ts, ¬ P ts []) {body : List α → TypeBody}
    (hbody : ∀ as, (body as).isEmpty → as = []) {ts : List TokenKind} {r : List AppliedDirective × TypeBody}
    (h : (do
      let directives ← appliedDirectives
      let as ← members true P
      return (directives, body as) : Phrase (List AppliedDirective × TypeBody)) ts r)
    (hdirectives : r.1.isEmpty) (hmembers : r.2.isEmpty) : ts = [] ∧ r.2 = body [] := by
  obtain ⟨directives, front, back, rfl, hfront, hback⟩ := h
  obtain ⟨as, has, rfl⟩ := bind_return_iff.1 hback
  obtain rfl := hbody as hmembers
  obtain rfl := List.isEmpty_iff.1 hdirectives
  rw [eq_nil_of_many hfront, eq_nil_of_orEmpty hP has]
  exact ⟨rfl, rfl⟩

/-- Only no tokens add nothing to a type. -/
theorem eq_nil_of_typeBody {kind : TypeKind} {ts : List TokenKind}
    {r : List AppliedDirective × TypeBody} (h : typeBody admitted true kind ts r)
    (hdirectives : r.1.isEmpty) (hmembers : r.2.isEmpty) : ts = [] := by
  cases kind with
  | scalar =>
    obtain ⟨directives, has, rfl⟩ := bind_return_iff.1 h
    obtain rfl := List.isEmpty_iff.1 hdirectives
    exact eq_nil_of_many has
  | object | interface =>
    obtain ⟨interfaces, front, back, rfl, hfront, hback⟩ := h
    obtain ⟨rfl, hr⟩ := eq_nil_of_directivesAndMembers not_block_nil (by simp [TypeBody.isEmpty])
      hback hdirectives hmembers
    have hnone : interfaces = [] := by simpa [hr, TypeBody.isEmpty] using hmembers
    subst hnone
    rw [eq_nil_of_orEmpty not_implements_nil hfront, List.append_nil]
  | union =>
    exact (eq_nil_of_directivesAndMembers not_unionMembers_nil (by simp [TypeBody.isEmpty])
      h hdirectives hmembers).1
  | enum | inputObject =>
    exact (eq_nil_of_directivesAndMembers not_block_nil (by simp [TypeBody.isEmpty])
      h hdirectives hmembers).1

/-- An applied directive may come after the name of a type. -/
theorem viable_typeBody {mayLack : Bool} (kind : TypeKind) :
    (typeBody admitted mayLack kind).Viable [.punctuator .atSign] := by
  have hdirectives : appliedDirectives.Viable [.punctuator .atSign] := by
    obtain ⟨ts, directive, h⟩ := (inferInstance : appliedDirective.Possible).exists_run
    obtain ⟨back, rfl, -⟩ := mark_bind_iff.1 h
    have hmany := Many.cons h .nil
    rw [List.append_nil] at hmany
    exact ⟨back, [directive], hmany⟩
  have hnone : implemented [] [] := .inr ⟨rfl, rfl⟩
  cases kind with
  | object => exact .second hnone hdirectives.first
  | interface => exact .second hnone hdirectives.first
  | _ => exact hdirectives.first

/-- The body of an extension may go on as one that may be empty, and where nothing has been added yet
something still may be. -/
theorem Viable.adding {kind : TypeKind} {ts : List TokenKind} (value : List AppliedDirective × TypeBody → α)
    (h : (typeBody admitted true kind).Viable ts) : (do
      let body ← typeBody admitted true kind
      given ¬(body.1.isEmpty ∧ body.2.isEmpty)
      return value body : Phrase α).Viable ts := by
  have hne {ts : List TokenKind} {body : List AppliedDirective × TypeBody} (hts : ts ≠ [])
      (h : typeBody admitted true kind ts body) : ¬ (body.1.isEmpty ∧ body.2.isEmpty) :=
    fun hempty ↦ hts (eq_nil_of_typeBody h hempty.1 hempty.2)
  have hadds : ∃ more body, typeBody admitted true kind (ts ++ more) body ∧
      ¬ (body.1.isEmpty ∧ body.2.isEmpty) := by
    cases ts with
    | nil =>
      obtain ⟨more, body, hbody⟩ : (typeBody admitted true kind).Viable [.punctuator .atSign] :=
        viable_typeBody kind
      exact ⟨.punctuator .atSign :: more, body, hbody, hne (List.cons_ne_nil _ _) hbody⟩
    | cons k ts =>
      obtain ⟨more, body, hbody⟩ := h
      exact ⟨more, body, hbody, hne (List.cons_ne_nil _ _) hbody⟩
  obtain ⟨more, body, hbody, hadds⟩ := hadds
  exact ⟨more, value body, body, ts ++ more, [], (List.append_nil _).symm, hbody,
    given_bind_iff.2 ⟨hadds, rfl, rfl⟩⟩

/-! ### Items -/

namespace Possible

variable (kind : TypeKind) (words : Option String)

instance (value : List AppliedDirective × TypeBody → α) : (do
    let body ← typeBody admitted true kind
    given ¬(body.1.isEmpty ∧ body.2.isEmpty)
    return value body : Phrase α).Possible :=
  ⟨Viable.adding value .nil⟩

instance : (typeExtension admitted kind).Possible := by
  unfold typeExtension
  infer_instance

instance : schemaExtension.Possible := by
  unfold schemaExtension
  infer_instance

instance {ι : Type} [h : Nonempty ι] (P : ι → Phrase α) [∀ i, (P i).Possible] : (oneOf P).Possible :=
  h.elim fun i ↦ ⟨(Viable.nil (P := P i)).oneOf⟩

instance : Nonempty TypeKind := ⟨.scalar⟩

instance : (extensionBody admitted).Possible := by
  unfold extensionBody
  infer_instance

instance : Nonempty DirectiveLocation := ⟨.query⟩

instance : (described admitted words).Possible := by
  unfold described
  infer_instance

end Possible

end TypeSystem.Phrase
