import TypeSystem.Proofs.Reading.Reads
import TypeSystem.Proofs.Token.Parts

/-!
# One token of lookahead

What a parser gives depends on the tokens that it takes and on the one behind them, and on nothing further
on: of any stream that begins with these it takes the same and gives the same
(`Parser.LooksOneAhead.exists_passed`). This is so for the steps that look at a single token
(`LooksOneAhead.of_current`), and binding and iterating keep it, so it holds for every parser of the
grammar.
-/

namespace TypeSystem

/-- The stream `s` becomes `s'` when some tokens are passed. -/
structure Passed (s : TokenStream) (ts : List Token) (s' : TokenStream) : Prop where
  pending_eq : s.pending = ts ++ s'.pending
  lastEnd_eq : s'.lastEnd = Token.lastStop s.lastEnd ts

namespace Passed

variable {s s' s'' : TokenStream} {ts ts' : List Token}

/-- Nothing has been passed at first. -/
theorem refl (s : TokenStream) : Passed s [] s := ⟨rfl, rfl⟩

/-- What is passed in two steps is passed in one. -/
theorem trans (h : Passed s ts s') (h' : Passed s' ts' s'') : Passed s (ts ++ ts') s'' := by
  refine ⟨?_, ?_⟩
  · rw [h.pending_eq, h'.pending_eq, List.append_assoc]
  · rw [h'.lastEnd_eq, h.lastEnd_eq, Token.lastStop_append]

/-- What has been passed, with something else behind it. -/
theorem head?_append (h : Passed s ts s') {rest : List Token} (hrest : rest.head? = s'.pending.head?) :
    (ts ++ rest).head? = s.pending.head? := by
  rw [h.pending_eq, List.head?_append, List.head?_append, hrest]

/-- From a stream to itself nothing is passed. -/
theorem eq_nil (h : Passed s ts s) : ts = [] :=
  List.self_eq_append_left.1 h.pending_eq

/-- Fewer tokens are left just if some were passed. -/
theorem left_lt_iff (h : Passed s ts s') : s'.left < s.left ↔ ts ≠ [] := by
  rw [s.left_eq, s'.left_eq, h.pending_eq, List.length_append, ← List.length_pos_iff]
  omega

/-- There is one run of tokens between two points of a stream. -/
theorem eq_of_taken (h : Passed s ts s') (h' : Taken s ts' s') : ts = ts' :=
  List.append_cancel_right (h.pending_eq.symm.trans h'.pending_eq)

end Passed

/-- The current token depends on what comes next alone. -/
theorem TokenStream.current_after {s : TokenStream} {rest : List Token}
    (h : rest.head? = s.pending.head?) : (after s.lastEnd rest).current = s.current := by
  show rest.headD _ = s.pending.headD _
  rw [List.headD_eq_head?_getD, List.headD_eq_head?_getD, h]
  rfl

theorem TokenStream.left_after_lt {front : List Token} (h : front ≠ []) (e e' : Position)
    (rest : List Token) : (after e rest).left < (after e' (front ++ rest)).left := by
  have := List.length_pos_iff.2 h
  rw [left_eq, left_eq]
  show rest.length < (front ++ rest).length
  rw [List.length_append]
  omega

namespace Parser

variable {α β σ : Type}

/-- When the parser succeeds, this depends on nothing behind the token that comes next. -/
class LooksOneAhead (p : Parser α) : Prop where
  exists_passed : ∀ {s : TokenStream} {a : α} {s' : TokenStream}, p s = (.ok a, s') →
    ∃ ts, Passed s ts s' ∧ ∀ rest, rest.head? = s'.pending.head? →
      p (.after s.lastEnd (ts ++ rest)) = (.ok a, .after s'.lastEnd rest)

namespace LooksOneAhead

/-! ### Single steps -/

/-- A step that goes by the next token and takes it or leaves it. -/
theorem of_current {p : Parser α} (look : Token → Position → Except ParseError α × Bool)
    (h : ∀ s, p s = ((look s.current s.lastEnd).1,
      if (look s.current s.lastEnd).2 then s.advance else s)) : p.LooksOneAhead where
  exists_passed := by
    intro s a s' hp
    rw [h s] at hp
    obtain ⟨hok, hs'⟩ := Prod.mk.inj hp
    split at hs'
    · next htakes =>
      subst hs'
      rw [s.eq_after] at hok htakes ⊢
      -- the step saw one token at most, and that is still the first if the rest is another
      generalize s.pending = pending at hok htakes ⊢
      cases pending with
      | nil =>
        refine ⟨[], .refl _, fun rest hrest ↦ ?_⟩
        have hagain := h (.after s.lastEnd [])
        rw [hok, if_pos htakes] at hagain
        rw [List.head?_eq_none_iff.1 hrest]
        exact hagain
      | cons t pending =>
        refine ⟨[t], ⟨rfl, rfl⟩, fun rest _ ↦ ?_⟩
        have hagain := h (.after s.lastEnd (t :: rest))
        change (look t s.lastEnd).1 = _ at hok
        change (look t s.lastEnd).2 = true at htakes
        change p _ = ((look t s.lastEnd).1, if (look t s.lastEnd).2 then _ else _) at hagain
        rwa [hok, if_pos htakes] at hagain
    · next hleaves =>
      subst hs'
      refine ⟨[], .refl s, fun rest hrest ↦ ?_⟩
      rw [List.nil_append, h, TokenStream.current_after hrest]
      show ((look s.current s.lastEnd).1, if (look s.current s.lastEnd).2 then _ else _) = _
      rw [hok, if_neg hleaves]

instance (a : α) : LooksOneAhead (Pure.pure a : Parser α) :=
  .of_current (fun _ _ ↦ (.ok a, false)) fun _ ↦ rfl

instance (error : ParseError) : LooksOneAhead (fail error : Parser α) :=
  .of_current (fun _ _ ↦ (.error error, false)) fun _ ↦ rfl

instance : peek.LooksOneAhead :=
  .of_current (fun t _ ↦ (.ok t, false)) fun _ ↦ rfl

instance : next.LooksOneAhead :=
  .of_current (fun t _ ↦ (.ok t, true)) fun _ ↦ rfl

instance : here.LooksOneAhead :=
  .of_current (fun t _ ↦ (.ok t.span.start, false)) fun _ ↦ rfl

instance : lastEnd.LooksOneAhead :=
  .of_current (fun _ e ↦ (.ok e, false)) fun _ ↦ rfl

instance (sort : TokenSort) : (peekIs sort).LooksOneAhead :=
  .of_current (fun t _ ↦ (.ok (t.kind.sort = sort), false)) fun _ ↦ rfl

instance (sorts : List TokenSort) : (accept sorts).LooksOneAhead :=
  .of_current (fun t _ ↦ if sorts.contains t.kind.sort then (.ok (some t), true) else (.ok none, false))
    fun s ↦ by unfold accept; split <;> rfl

instance (keyword : String) : (acceptKeyword keyword).LooksOneAhead :=
  .of_current (fun t _ ↦ if t.isKeyword keyword then (.ok true, true) else (.ok false, false))
    fun s ↦ by unfold acceptKeyword; split <;> rfl

instance (keyword : String) : (requireKeyword keyword).LooksOneAhead :=
  .of_current (fun t _ ↦ if t.isKeyword keyword then (.ok t, true)
    else (.error (misfit t [Text.quoted keyword]), true))
    fun s ↦ by unfold requireKeyword; split <;> rfl

/-! ### Steps put together -/

/-- One parser after another: the second has seen one token ahead, and so has the first, where the second
takes none. -/
theorem bind {p : Parser α} {f : α → Parser β} [p.LooksOneAhead] (hf : ∀ a, (f a).LooksOneAhead) :
    (p >>= f).LooksOneAhead where
  exists_passed := by
    intro s b s' h
    obtain ⟨a, s₁, ha, hb⟩ := bind_eq_ok_iff.1 h
    obtain ⟨front, hfront, hagain⟩ := exists_passed ha
    obtain ⟨back, hback, hagain'⟩ := (hf a).exists_passed hb
    refine ⟨front ++ back, hfront.trans hback, fun rest hrest ↦ ?_⟩
    rw [List.append_assoc]
    exact bind_eq_ok_iff.2 ⟨a, _, hagain _ (hback.head?_append hrest), hagain' rest hrest⟩

instance (p : Parser α) (f : α → Parser β) [p.LooksOneAhead] [hf : ∀ a, (f a).LooksOneAhead] :
    (p >>= f).LooksOneAhead :=
  .bind hf

instance (condition : Prop) [Decidable condition] (p q : Parser α) [p.LooksOneAhead] [q.LooksOneAhead] :
    (if condition then p else q).LooksOneAhead := by
  split <;> infer_instance

instance (step : σ → Parser (Option σ)) (state : σ) [∀ state, (step state).LooksOneAhead] :
    (iterate step state).LooksOneAhead where
  exists_passed := by
    intro s state' s' h
    -- induction on the rounds
    fun_induction iterate step state s with
    | case1 state s e s₁ heq => cases h
    | case2 state s s₁ heq =>
      cases h
      obtain ⟨ts, hts, hagain⟩ := exists_passed heq
      refine ⟨ts, hts, fun rest hrest ↦ ?_⟩
      rw [iterate, hagain rest hrest]
    | case3 state s state₁ s₁ heq hleft ih =>
      obtain ⟨front, hfront, hagain⟩ := exists_passed heq
      obtain ⟨back, hback, hagain'⟩ := ih h
      refine ⟨front ++ back, hfront.trans hback, fun rest hrest ↦ ?_⟩
      have hleft' := TokenStream.left_after_lt (hfront.left_lt_iff.1 hleft) s₁.lastEnd s.lastEnd
        (back ++ rest)
      rw [List.append_assoc, iterate, hagain _ (hback.head?_append hrest)]
      simp only [hleft', if_true, hagain' rest hrest]
    | case4 state s state₁ s₁ heq hleft =>
      cases h
      obtain ⟨ts, hts, hagain⟩ := exists_passed heq
      refine ⟨ts, hts, fun rest hrest ↦ ?_⟩
      have hleft' : ¬ (TokenStream.after s'.lastEnd rest).left <
          (TokenStream.after s.lastEnd (ts ++ rest)).left := by
        have := mt hts.left_lt_iff.2 hleft
        simp only [TokenStream.after, List.length_append]
        simp_all
      rw [iterate, hagain rest hrest]
      simp only [hleft', if_false]

instance (item : Parser (Option α)) [item.LooksOneAhead] : (many item).LooksOneAhead := by
  unfold many
  infer_instance

instance (expected : List String) : (unexpected (α := α) expected).LooksOneAhead := by
  unfold unexpected
  infer_instance

instance (sorts : List TokenSort) (expected : String) : (require sorts expected).LooksOneAhead :=
  .bind fun found ↦ by cases found <;> infer_instance

instance (p : Punctuator) : (requireMark p).LooksOneAhead := by
  unfold requireMark
  infer_instance

instance (p : Punctuator) : (acceptMark p).LooksOneAhead := by
  unfold acceptMark
  infer_instance

instance (expected : String) : (requireName expected).LooksOneAhead :=
  .bind fun token ↦ by cases token.kind <;> infer_instance

instance (expected : String) : (name expected).LooksOneAhead := by
  unfold name
  infer_instance

instance : description?.LooksOneAhead :=
  .bind fun found ↦ by cases found <;> infer_instance

/-- Looking for a mark sees the one token. -/
theorem unlessMark {close : Punctuator} {item : Parser α} (h : item.LooksOneAhead) :
    (Parser.unlessMark close item).LooksOneAhead := by
  unfold Parser.unlessMark
  infer_instance

instance (close : Punctuator) (item : Parser α) [h : item.LooksOneAhead] :
    (Parser.unlessMark close item).LooksOneAhead :=
  .unlessMark h

instance (p : Punctuator) (item : Parser α) [item.LooksOneAhead] : (afterMark p item).LooksOneAhead := by
  unfold afterMark
  infer_instance

instance (p : Punctuator) (item : Parser α) [item.LooksOneAhead] : (separated p item).LooksOneAhead := by
  unfold separated
  infer_instance

instance (close : Punctuator) (construct : String) : (refuseEmpty close construct).LooksOneAhead := by
  unfold refuseEmpty
  infer_instance

instance (brackets : Brackets) (construct : String) (inside : Parser α) [inside.LooksOneAhead] :
    (enclosed brackets construct inside).LooksOneAhead := by
  unfold enclosed
  infer_instance

instance (brackets : Brackets) (construct : String) (item : Parser α) [item.LooksOneAhead] :
    (block brackets construct item).LooksOneAhead := by
  unfold block
  infer_instance

instance (brackets : Brackets) (construct : String) (item : Parser α) [item.LooksOneAhead] :
    (optionalBlock brackets construct item).LooksOneAhead := by
  unfold optionalBlock
  infer_instance

/-! ### The grammar -/

instance : nullability.LooksOneAhead := by
  unfold nullability
  infer_instance

instance (levels : Nat) : (typeReferenceWithin levels).LooksOneAhead := by
  induction levels with
  | zero =>
    unfold typeReferenceWithin
    infer_instance
  | succ levels ih =>
    unfold typeReferenceWithin
    infer_instance

instance : typeReference.LooksOneAhead := by
  unfold typeReference
  infer_instance

instance (expected : String) : (value expected).LooksOneAhead :=
  .bind fun token ↦ by cases token.kind.value? <;> infer_instance

instance : directiveLocation.LooksOneAhead :=
  .bind fun (name, _) ↦ by
    dsimp only
    cases DirectiveLocation.ofName? name <;> infer_instance

instance (roots : RootTypes) : (rootType roots).LooksOneAhead :=
  .unlessMark <| .bind fun (keyword, _) ↦ by
    dsimp only
    cases Operation.ofKeyword? keyword <;> infer_instance

instance : rootTypes.LooksOneAhead := by
  unfold rootTypes
  infer_instance

section Nodes

variable (source : Option String) (mayLack : Bool) (kind : TypeKind) (words : Option String)
  (start : Position)

instance : (spanFrom source start).LooksOneAhead := by
  unfold spanFrom
  infer_instance

instance : argument.LooksOneAhead := by
  unfold argument
  infer_instance

instance : (appliedDirective source).LooksOneAhead := by
  unfold appliedDirective
  infer_instance

instance : (appliedDirectives source).LooksOneAhead := by
  unfold appliedDirectives
  infer_instance

instance : (inputValue source).LooksOneAhead := by
  unfold inputValue
  infer_instance

instance : (arguments source).LooksOneAhead := by
  unfold arguments
  infer_instance

instance : (field source).LooksOneAhead := by
  unfold field
  infer_instance

instance : (enumValue source).LooksOneAhead := by
  unfold enumValue
  refine .bind fun start ↦ .bind fun description ↦ .bind fun (name, span) ↦ ?_
  infer_instance

instance : implemented.LooksOneAhead := by
  unfold implemented
  infer_instance

instance : unionMembers.LooksOneAhead := by
  unfold unionMembers
  infer_instance

instance (construct : String) (item : Parser α) [item.LooksOneAhead] :
    (members mayLack construct item).LooksOneAhead := by
  unfold members
  infer_instance

instance : (typeBody source mayLack kind).LooksOneAhead := by
  cases kind <;> unfold typeBody <;> infer_instance

instance : (typeDefinition source kind words start).LooksOneAhead :=
  .bind fun _ ↦ .bind fun _ ↦ .bind fun (_, _) ↦ by infer_instance

instance (word requirement : String) :
    (emptyExtension (α := α) source start word requirement).LooksOneAhead := by
  unfold emptyExtension
  infer_instance

instance : (typeExtension source kind start).LooksOneAhead :=
  .bind fun _ ↦ .bind fun _ ↦ .bind fun (_, _) ↦ by infer_instance

instance : (directiveDefinition source words start).LooksOneAhead := by
  unfold directiveDefinition
  infer_instance

instance : (schemaDefinition source words start).LooksOneAhead := by
  unfold schemaDefinition
  infer_instance

instance : (schemaExtension source start).LooksOneAhead := by
  unfold schemaExtension
  infer_instance

instance : peekName.LooksOneAhead :=
  .bind fun token ↦ by cases token.kind <;> infer_instance

instance : (extension source start).LooksOneAhead :=
  .bind fun _ ↦ .bind fun keyword ↦ by
    cases TypeKind.ofKeyword? keyword <;> infer_instance

instance (keyword : String) : (definitionOf source keyword words start).LooksOneAhead := by
  unfold definitionOf
  cases TypeKind.ofKeyword? keyword <;> infer_instance

instance : (definition source).LooksOneAhead :=
  .bind fun start ↦ .bind fun words ↦ .bind fun token ↦ by
    cases token.kind <;> infer_instance

instance : (document source).LooksOneAhead := by
  unfold document
  infer_instance

end Nodes

end LooksOneAhead

end Parser

end TypeSystem
