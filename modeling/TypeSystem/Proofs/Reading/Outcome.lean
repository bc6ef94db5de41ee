import TypeSystem.Reading.Grammar

/-!
# What comes of a parser

What comes of one parser and then another, by what comes of each of them (`Parser.bind_eq_ok_iff`,
`Parser.bind_eq_error_iff`).

Of some parsers it is known on every stream. A parser that only looks, or takes a token if it fits, and then
puts a node together, never fails (`Parser.NeverFails`); and one that refuses what it has found always
fails (`Parser.AlwaysFails`).
-/

namespace TypeSystem.Parser

variable {α β : Type}

/-- Two parsers succeed, one after the other, just if the first does and the second does behind it. -/
theorem bind_eq_ok_iff {p : Parser α} {f : α → Parser β} {s s' : TokenStream} {b : β} :
    (p >>= f) s = (.ok b, s') ↔ ∃ a s₁, p s = (.ok a, s₁) ∧ f a s₁ = (.ok b, s') := by
  show Parser.bind p f s = _ ↔ _
  unfold Parser.bind
  split
  · next a s₁ heq => simp [heq, and_assoc]
  · next e s₁ heq => simp [heq]

/-- They fail just if the first does, or the second does behind it. -/
theorem bind_eq_error_iff {p : Parser α} {f : α → Parser β} {s s' : TokenStream} {e : ParseError} :
    (p >>= f) s = (.error e, s') ↔
      p s = (.error e, s') ∨ ∃ a s₁, p s = (.ok a, s₁) ∧ f a s₁ = (.error e, s') := by
  show Parser.bind p f s = _ ↔ _
  unfold Parser.bind
  split
  · next a s₁ heq => simp [heq, and_assoc]
  · next e s₁ heq => simp [heq]

/-! ### Parsers that never fail -/

/-- The parser succeeds on every stream. -/
class NeverFails (p : Parser α) : Prop where
  ne_error : ∀ s e s', p s ≠ (.error e, s')

namespace NeverFails

theorem of_ok {p : Parser α} (h : ∀ s, ∃ a s', p s = (.ok a, s')) : p.NeverFails where
  ne_error s e s' herror := by
    obtain ⟨a, s₁, hok⟩ := h s
    rw [hok] at herror
    cases herror

instance (a : α) : NeverFails (Pure.pure a : Parser α) := .of_ok fun _ ↦ ⟨_, _, rfl⟩

instance : peek.NeverFails := .of_ok fun _ ↦ ⟨_, _, rfl⟩

instance : next.NeverFails := .of_ok fun _ ↦ ⟨_, _, rfl⟩

instance (sort : TokenSort) : (peekIs sort).NeverFails := .of_ok fun _ ↦ ⟨_, _, rfl⟩

instance : here.NeverFails := .of_ok fun _ ↦ ⟨_, _, rfl⟩

instance : lastEnd.NeverFails := .of_ok fun _ ↦ ⟨_, _, rfl⟩

instance (sorts : List TokenSort) : (accept sorts).NeverFails := by
  refine .of_ok fun s ↦ ?_
  unfold accept
  split <;> exact ⟨_, _, rfl⟩

instance (keyword : String) : (acceptKeyword keyword).NeverFails := by
  refine .of_ok fun s ↦ ?_
  unfold acceptKeyword
  split <;> exact ⟨_, _, rfl⟩

/-- What never fails, one behind the other, never fails. -/
theorem bind {p : Parser α} {f : α → Parser β} [p.NeverFails] (hf : ∀ a, (f a).NeverFails) :
    (p >>= f).NeverFails where
  ne_error s e s' h := by
    rcases bind_eq_error_iff.1 h with h | ⟨a, s₁, -, h⟩
    · exact absurd h (ne_error s e s')
    · exact absurd h ((hf a).ne_error s₁ e s')

instance (p : Parser α) (f : α → Parser β) [p.NeverFails] [hf : ∀ a, (f a).NeverFails] :
    (p >>= f).NeverFails :=
  .bind hf

instance (p : Punctuator) : (acceptMark p).NeverFails := by
  unfold acceptMark
  infer_instance

instance : description?.NeverFails :=
  .bind fun found ↦ by cases found <;> infer_instance

instance : nullability.NeverFails := by
  unfold nullability
  infer_instance

instance (source : Option String) (start : Position) : (spanFrom source start).NeverFails := by
  unfold spanFrom
  infer_instance

end NeverFails

/-! ### Parsers that always fail -/

/-- The parser succeeds on no stream. -/
class AlwaysFails (p : Parser α) : Prop where
  ne_ok : ∀ s a s', p s ≠ (.ok a, s')

namespace AlwaysFails

instance (error : ParseError) : (fail error : Parser α).AlwaysFails where
  ne_ok s a s' h := by cases h

/-- What always fails at the end always fails. -/
theorem bind {p : Parser α} {f : α → Parser β} (hf : ∀ a, (f a).AlwaysFails) :
    (p >>= f).AlwaysFails where
  ne_ok s b s' h := by
    obtain ⟨a, s₁, -, h⟩ := bind_eq_ok_iff.1 h
    exact absurd h ((hf a).ne_ok s₁ b s')

instance (p : Parser α) (f : α → Parser β) [hf : ∀ a, (f a).AlwaysFails] : (p >>= f).AlwaysFails :=
  .bind hf

instance (expected : List String) : (unexpected (α := α) expected).AlwaysFails := by
  unfold unexpected
  infer_instance

instance (source : Option String) (start : Position) (kind requirement : String) :
    (emptyExtension (α := α) source start kind requirement).AlwaysFails := by
  unfold emptyExtension
  infer_instance

/-- A type reference has at least one level. -/
instance : (typeReferenceWithin 0).AlwaysFails := by
  unfold typeReferenceWithin
  infer_instance

end AlwaysFails

end TypeSystem.Parser
