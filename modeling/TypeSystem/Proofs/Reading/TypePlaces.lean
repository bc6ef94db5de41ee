import TypeSystem.Proofs.Reading.Citing
import TypeSystem.Proofs.Reading.Leads

/-!
# Places of types

In front of a lead the parser has no choice. It reads what is complete, enters the productions that are not,
and comes to the type (`Parser.ComesTo`); the node that it then makes begins where its first token does and has
the type that is read there (`wantsType_document`). Nothing is said about what follows the lead, and so nothing
about whether there is a document in the end.
-/

namespace TypeSystem

open HasTypes (nodeTypes)

variable {α β : Type}

/-! ### What a parser gives -/

namespace Parser

/-- Whatever the parser gives is so, and it is given behind tokens that were passed. What an error cites is
still to come. -/
structure Gives (p : Parser α) (R : α → Prop) : Prop where
  of_ok : ∀ s a s', p s = (.ok a, s') → R a ∧ ∃ ts, Passed s ts s'
  of_error : ∀ s e s', p s = (.error e, s') → e.Cites s.shown

namespace Gives

variable {R : β → Prop}

/-- What a parser gives whatever the stream, it gives. -/
theorem of_forall {p : Parser β} [p.LooksOneAhead] [p.Cites] (h : ∀ s b s', p s = (.ok b, s') → R b) :
    p.Gives R where
  of_ok s b s' hb := by
    obtain ⟨ts, hts, -⟩ := LooksOneAhead.exists_passed hb
    exact ⟨h s b s' hb, ts, hts⟩
  of_error _ _ _ he := Cites.cites he

/-- What is given may be said more weakly. -/
theorem mono {p : Parser β} {R' : β → Prop} (hp : p.Gives R) (h : ∀ b, R b → R' b) : p.Gives R' where
  of_ok s b s' hb := (hp.of_ok s b s' hb).imp_left (h b)
  of_error := hp.of_error

theorem pure {b : β} (hb : R b) : (Pure.pure b : Parser β).Gives R := by
  refine .of_forall ?_
  rintro s _ s' ⟨⟩
  exact hb

/-- One parser after another gives what the second does, for anything the first may give. -/
theorem bind_of {p : Parser α} {f : α → Parser β} {S : α → Prop} (hp : p.Gives S)
    (hf : ∀ a, S a → (f a).Gives R) : (p >>= f).Gives R where
  of_ok s b s' h := by
    obtain ⟨a, s₁, ha, hb⟩ := bind_eq_ok_iff.1 h
    obtain ⟨hS, front, hfront⟩ := hp.of_ok s a s₁ ha
    obtain ⟨hR, back, hback⟩ := (hf a hS).of_ok s₁ b s' hb
    exact ⟨hR, front ++ back, hfront.trans hback⟩
  of_error s e s' h := by
    rcases bind_eq_error_iff.1 h with he | ⟨a, s₁, ha, he⟩
    · exact hp.of_error s e s' he
    · obtain ⟨hS, ts, hts⟩ := hp.of_ok s a s₁ ha
      rw [hts.shown_eq]
      exact ((hf a hS).of_error s₁ e s' he).mono (List.subset_append_right _ _)

/-- One parser after another, where nothing is asked of what the first gives. -/
theorem bind {p : Parser α} [p.LooksOneAhead] [p.Cites] {f : α → Parser β} (hf : ∀ a, (f a).Gives R) :
    (p >>= f).Gives R :=
  .bind_of (S := fun _ ↦ True) (.of_forall fun _ _ _ _ ↦ trivial) fun a _ ↦ hf a

/-- A span begins where its node did. -/
theorem spanFrom {source : Option String} {start : Position} {f : Span → Parser β}
    (hf : ∀ span : Span, span.start = start → (f span).Gives R) :
    (Parser.spanFrom source start >>= f).Gives R :=
  .bind_of (S := fun span ↦ span.start = start) (.bind fun _ ↦ .pure rfl) hf

theorem failing {p : Parser β} [p.AlwaysFails] [p.Cites] : p.Gives R where
  of_ok s b s' h := absurd h (AlwaysFails.ne_ok s b s')
  of_error _ _ _ he := Cites.cites he

theorem ite {condition : Prop} [Decidable condition] {p q : Parser β} (hp : p.Gives R) (hq : q.Gives R) :
    (if condition then p else q).Gives R := by
  split
  · exact hp
  · exact hq

end Gives

/-! ### Coming to a type -/

theorem bind_eq_of_eq_ok {p : Parser α} {f : α → Parser β} {s s' : TokenStream} {a : α}
    (h : p s = (.ok a, s')) : (p >>= f) s = f a s' := by
  show Parser.bind p f s = _
  rw [Parser.bind, h]

theorem bind_congr {p q : Parser α} {f : α → Parser β} {s s' : TokenStream} (h : p s = q s') :
    (p >>= f) s = (q >>= f) s' := by
  show Parser.bind p f s = Parser.bind q f s'
  rw [Parser.bind, Parser.bind, h]

theorem bind_assoc {γ : Type} (p : Parser α) (f : α → Parser β) (g : β → Parser γ) (s : TokenStream) :
    (p >>= f >>= g) s = (p >>= fun a ↦ f a >>= g) s := by
  show Parser.bind (Parser.bind p f) g s = Parser.bind p (fun a ↦ f a >>= g) s
  simp only [Parser.bind]
  generalize p s = r
  obtain ⟨_ | a, s'⟩ := r <;> rfl

/-- From one point of the stream the parser comes to another, where it reads a type and then gives
something that is so of the type. -/
def ComesTo (p : Parser α) (s s' : TokenStream) (R : TypeReference → α → Prop) : Prop :=
  ∃ k, p s = (typeReference >>= k) s' ∧ ∀ type, (k type).Gives (R type)

/-- What a loop does after a round, which began with so many tokens left. -/
def goOn (step : α → Parser (Option α)) (state : α) (left : ℕ) :
    Except ParseError (Option α) × TokenStream → Except ParseError α × TokenStream
  | (.error e, s) => (.error e, s)
  | (.ok none, s) => (.ok state, s)
  | (.ok (some state'), s) => if s.left < left then iterate step state' s else (.ok state', s)

/-- A loop is its first round, and what it does after a round. -/
theorem iterate_eq_goOn (step : α → Parser (Option α)) (state : α) (s : TokenStream) :
    iterate step state s = goOn step state s.left (step state s) := by
  rw [iterate]
  generalize step state s = r
  obtain ⟨_ | _ | state', s'⟩ := r <;> rfl

/-- The rest of a round, and then what the loop does after it. -/
theorem goOn_bind (step : β → Parser (Option β)) (state : β) (left : ℕ) (p : Parser α)
    (k : α → Parser (Option β)) (s : TokenStream) :
    goOn step state left ((p >>= k) s) = (p >>= fun a s' ↦ goOn step state left (k a s') : Parser β) s := by
  show goOn step state left (Parser.bind p k s) = Parser.bind p _ s
  simp only [Parser.bind]
  generalize p s = r
  obtain ⟨_ | a, s'⟩ := r <;> rfl

/-- A round of the loop that lists its items. -/
def listing (item : Parser (Option α)) (found : List α) : Parser (Option (List α)) := do
  return (← item).map (· :: found)

section Listing

variable (item : Parser (Option α)) [item.LooksOneAhead] [item.Cites] (found : List α)

instance : (listing item found).LooksOneAhead := by
  unfold listing
  infer_instance

instance : (listing item found).Cites := by
  unfold listing
  infer_instance

end Listing

/-- What was listed in one round is still there at the end. -/
theorem Gives.goOn {item : Parser (Option α)} [item.LooksOneAhead] [item.Cites] {round : Parser (Option (List α))}
    {found : List α} {S : α → Prop} (hround : round.Gives fun r ↦ ∃ a, r = some (a :: found) ∧ S a) (left : ℕ) :
    Gives (fun s ↦ Parser.goOn (listing item) found left (round s)) fun reversed ↦ ∃ a ∈ reversed, S a where
  of_ok s reversed s' hend := by
    rcases hr : round s with ⟨_ | r, s₁⟩ <;> simp only [hr] at hend
    · cases hend
    obtain ⟨⟨a, rfl, ha⟩, front, hfront⟩ := hround.of_ok s r s₁ hr
    rw [Parser.goOn] at hend
    split at hend
    · obtain ⟨as, -, rfl⟩ := exists_rounds_of_iterate hend
      obtain ⟨back, hback, -⟩ := LooksOneAhead.exists_passed hend
      exact ⟨⟨a, List.mem_append_right _ List.mem_cons_self, ha⟩, front ++ back, hfront.trans hback⟩
    · cases hend
      exact ⟨⟨a, List.mem_cons_self, ha⟩, front, hfront⟩
  of_error s e s' hend := by
    rcases hr : round s with ⟨e₁ | r, s₁⟩ <;> simp only [hr] at hend
    · cases hend
      exact hround.of_error s _ _ hr
    obtain ⟨⟨a, rfl, -⟩, front, hfront⟩ := hround.of_ok s r s₁ hr
    rw [Parser.goOn] at hend
    split at hend
    · rw [hfront.shown_eq]
      exact (Cites.cites hend).mono (List.subset_append_right _ _)
    · cases hend

namespace ComesTo

variable {s s₁ s' : TokenStream} {R : TypeReference → α → Prop} {R' : TypeReference → β → Prop}

/-- A type comes next. -/
theorem here {k : TypeReference → Parser α} (hk : ∀ type, (k type).Gives (R type)) :
    (typeReference >>= k).ComesTo s s R :=
  ⟨k, rfl, hk⟩

/-- What comes to a type goes on to something made of it. -/
theorem first {p : Parser α} {f : α → Parser β} (hp : p.ComesTo s s' R)
    (hf : ∀ type a, R type a → (f a).Gives (R' type)) : (p >>= f).ComesTo s s' R' := by
  obtain ⟨k, hk, hgives⟩ := hp
  refine ⟨fun type ↦ k type >>= f, ?_, fun type ↦ .bind_of (hgives type) (hf type)⟩
  rw [bind_congr hk, bind_assoc]

/-- What was read before the type does not matter. -/
theorem second {p : Parser α} {f : α → Parser β} {a : α} (ha : p s = (.ok a, s₁))
    (hf : (f a).ComesTo s₁ s' R') : (p >>= f).ComesTo s s' R' := by
  obtain ⟨k, hk, hgives⟩ := hf
  exact ⟨k, (bind_eq_of_eq_ok ha).trans hk, hgives⟩

theorem mono {p : Parser α} {R' : TypeReference → α → Prop} (hp : p.ComesTo s s' R)
    (h : ∀ type a, R type a → R' type a) : p.ComesTo s s' R' := by
  obtain ⟨k, hk, hgives⟩ := hp
  exact ⟨k, hk, fun type ↦ (hgives type).mono (h type)⟩

/-- A loop that lists its items comes to a type in its next round, and lists the item that is made of it. -/
theorem round {item : Parser (Option α)} [item.LooksOneAhead] [item.Cites] {S : TypeReference → α → Prop}
    (h : item.ComesTo s s' fun type r ↦ ∃ a, r = some a ∧ S type a) (found : List α) :
    (iterate (listing item) found).ComesTo s s' fun type reversed ↦ ∃ a ∈ reversed, S type a := by
  have hstep : (listing item found).ComesTo s s' fun type r ↦ ∃ a, r = some (a :: found) ∧ S type a := by
    refine h.first fun type r hr ↦ .pure ?_
    obtain ⟨a, rfl, ha⟩ := hr
    exact ⟨a, rfl, ha⟩
  obtain ⟨k, hk, hgives⟩ := hstep
  refine ⟨fun type s₁ ↦ goOn (listing item) found s.left (k type s₁), ?_, fun type ↦ (hgives type).goOn s.left⟩
  rw [iterate_eq_goOn, hk, goOn_bind]

end ComesTo

/-- The loop that lists its items has listed the complete ones when it comes to what is not complete. -/
theorem exists_iterate_eq [HasSpans α] {K₁ K₂ : Set TokenKind} {item : Parser (Option α)} {P : Phrase α}
    {E : Phrase Unit} (hitem : ReadsOrEnds K₁ K₂ item P E) (hP : P.Shields K₁ ∅) {ts rest : List Token}
    {as : List α} (h : Phrase.Many P (ts.map Token.kind) as) (hrest : Free K₁ (rest.map Token.kind))
    (e : Position) (found : List α) :
    ∃ e' found', iterate (listing item) found (.after e (ts ++ rest)) =
      iterate (listing item) found' (.after e' rest) := by
  generalize hkinds : ts.map Token.kind = kinds at h
  induction h generalizing ts e found with
  | nil =>
    obtain rfl := List.map_eq_nil_iff.1 hkinds
    exact ⟨e, found, rfl⟩
  | cons first others ih =>
    obtain ⟨front, back, rfl, rfl, rfl⟩ := List.map_eq_append_iff.1 hkinds
    have hshielded := (Phrase.Shields.many hP Set.Subset.rfl).free others hrest
    obtain ⟨a, e₁, ha, -⟩ := hitem.more e front (back ++ rest) _ first hshielded
    have hround : listing item found (.after e (front ++ (back ++ rest))) =
        (.ok (some (a :: found)), .after e₁ (back ++ rest)) :=
      bind_eq_ok_iff.2 ⟨some a, _, ha, rfl⟩
    obtain ⟨e', found', hothers⟩ := ih e₁ (a :: found) rfl
    refine ⟨e', found', ?_⟩
    rw [List.append_assoc, iterate_eq_goOn, hround, goOn, if_pos (hitem.left_lt ha), hothers]

/-! ### Parsers in front of a lead -/

/-- Behind tokens of the phrase the parser reads a type, and then gives something that is so of the type. -/
def TypeBehind (p : Parser α) (P : Phrase Unit) (R : TypeReference → α → Prop) : Prop :=
  ∀ e ts rest, P (ts.map Token.kind) () →
    ∃ e', p.ComesTo (.after e (ts ++ rest)) (.after e' rest) R

namespace TypeBehind

variable {R : TypeReference → β → Prop}

/-- Behind a colon stands a type. -/
theorem colon {k : TypeReference → Parser β} (hk : ∀ type, (k type).Gives (R type)) :
    (requireMark .colon >>= fun _ ↦ typeReference >>= k).TypeBehind (Phrase.mark .colon) R := by
  intro e ts rest h
  obtain ⟨t, rfl, ht⟩ := List.map_eq_singleton_iff.1 h
  exact ⟨t.span.stop, .second (requireMark_cons ht e rest) (.here hk)⟩

/-- In front of the colon, what is read may be any run of its phrase. -/
theorem bind [HasSpans α] {K : Set TokenKind} {p : Parser α} {f : α → Parser β} {P : Phrase α}
    {Q : α → Phrase Unit} (hp : Reads K p P) (hQ : ∀ x, (Q x).Shields K ∅)
    (hf : ∀ a, (f a).TypeBehind (Q (withoutSpans a)) R) : (p >>= f).TypeBehind (P >>= Q) R := by
  intro e ts rest h
  obtain ⟨x, _, _, hts, hfront, hback⟩ := h
  obtain ⟨front, back, rfl, rfl, rfl⟩ := List.map_eq_append_iff.1 hts
  have hshielded := (hQ x).free hback (free_empty (rest.map Token.kind))
  obtain ⟨a, e₁, ha, rfl⟩ := hp.complete e front (back ++ rest) x hfront hshielded
  obtain ⟨e', hcomes⟩ := hf a e₁ back rest hback
  rw [List.append_assoc]
  exact ⟨e', .second ha hcomes⟩

/-- A parser that leaves no doubt about where it ends may be followed by any other. -/
theorem andThen [HasSpans α] {p : Parser α} {f : α → Parser β} {P : Phrase α} {Q : α → Phrase Unit}
    (hp : Reads ∅ p P) (hf : ∀ a, (f a).TypeBehind (Q (withoutSpans a)) R) :
    (p >>= f).TypeBehind (P >>= Q) R :=
  .bind hp (fun x ↦ .empty ∅ (Q x)) hf

end TypeBehind

/-- In front of a lead the parser comes to the type behind it, and what it then gives has in it a node of
this type that begins where the lead says. -/
def WantsType [HasTypes α] (p : Parser α) (L : Lead) : Prop :=
  ∀ e outside first head rest, L (outside.map Token.kind) ((first :: head).map Token.kind) →
    ∃ e', p.ComesTo (.after e (outside ++ (first :: head ++ rest))) (.after e' rest)
      fun type a ↦ (first.span.start, type) ∈ nodeTypes a

namespace WantsType

variable [HasTypes α] [HasTypes β] {K : Set TokenKind} {L M : Lead}

/-- A node that begins with the next token. -/
theorem node {f : Position → Parser α} {P : Phrase Unit}
    (hf : ∀ start, (f start).TypeBehind P fun type a ↦ (start, type) ∈ nodeTypes a) :
    (Parser.here >>= f).WantsType (.here P) := by
  rintro e outside first head rest ⟨hnone, hhead⟩
  obtain rfl := List.map_eq_nil_iff.1 hnone
  obtain ⟨e', hcomes⟩ := hf first.span.start e (first :: head) rest hhead
  exact ⟨e', .second rfl hcomes⟩

omit [HasTypes α] in
/-- What is complete in front of a lead is read, and reading goes on. -/
theorem behind [HasSpans α] {p : Parser α} {f : α → Parser β} {P : Phrase α} {L : α → Lead}
    (hp : Reads K p P) (hL : ∀ x, (L x).Shields K) (hf : ∀ a, (f a).WantsType (L (withoutSpans a))) :
    (p >>= f).WantsType (.behind P L) := by
  rintro e outside first head rest ⟨x, _, _, houtside, hfront, hback⟩
  obtain ⟨front, back, rfl, rfl, rfl⟩ := List.map_eq_append_iff.1 houtside
  obtain ⟨a, e₁, ha, rfl⟩ := hp.complete e front (back ++ (first :: head ++ rest)) x hfront ((hL x).free hback)
  obtain ⟨e', hcomes⟩ := hf a e₁ back first head rest hback
  rw [List.append_assoc]
  exact ⟨e', .second ha hcomes⟩

omit [HasTypes α] in
/-- A parser that leaves no doubt about where it ends may be followed by any lead. -/
theorem andThen [HasSpans α] {p : Parser α} {f : α → Parser β} {P : Phrase α} {L : α → Lead}
    (hp : Reads ∅ p P) (hf : ∀ a, (f a).WantsType (L (withoutSpans a))) :
    (p >>= f).WantsType (.behind P L) :=
  .behind hp (fun _ _ _ _ _ ↦ free_empty _) hf

/-- What has the types of what the first parser gives. -/
theorem first {p : Parser α} {f : α → Parser β} (hp : p.WantsType L)
    (hf : ∀ a, (f a).Gives fun b ↦ nodeTypes a ⊆ nodeTypes b) : (p >>= f).WantsType L := by
  intro e outside first head rest h
  obtain ⟨e', hcomes⟩ := hp e outside first head rest h
  exact ⟨e', hcomes.first fun type a ha ↦ (hf a).mono fun b hb ↦ hb ha⟩

/-- A choice of leads: the parser goes the way of the one that is there. -/
theorem or {p : Parser α} (hL : p.WantsType L) (hM : p.WantsType M) : p.WantsType (L <|> M) :=
  fun e outside first head rest h ↦ h.elim (hL e outside first head rest) (hM e outside first head rest)

theorem oneOf {ι : Type} {p : Parser α} {L : ι → Lead} (hL : ∀ i, p.WantsType (L i)) :
    p.WantsType (.oneOf L) :=
  fun e outside first head rest ⟨i, h⟩ ↦ hL i e outside first head rest h

/-- A condition of the lead may be used. -/
theorem provided {condition : Prop} {p : Parser α} (hp : condition → p.WantsType L) :
    p.WantsType (.behind (Phrase.given condition) fun _ ↦ L) := by
  rintro e outside first head rest ⟨_, _, back, houtside, ⟨rfl, hcondition⟩, hback⟩
  rw [List.nil_append] at houtside
  exact hp hcondition e outside first head rest (houtside ▸ hback)

/-- A step that only looks at what comes next. -/
theorem look {γ : Type} {p : Parser γ} {f : γ → Parser α}
    (h : ∀ e outside first head rest, L (outside.map Token.kind) ((first :: head).map Token.kind) →
      ∃ c, p (.after e (outside ++ (first :: head ++ rest))) =
        (.ok c, .after e (outside ++ (first :: head ++ rest))) ∧ (f c).WantsType L) :
    (p >>= f).WantsType L := by
  intro e outside first head rest hlead
  obtain ⟨c, hc, hf⟩ := h e outside first head rest hlead
  obtain ⟨e', hcomes⟩ := hf e outside first head rest hlead
  exact ⟨e', .second hc hcomes⟩

theorem here {f : Position → Parser α} (hf : ∀ start, (f start).WantsType L) :
    (Parser.here >>= f).WantsType L :=
  .look fun _ _ _ _ _ _ ↦ ⟨_, rfl, hf _⟩

theorem take {p : Parser Token} {k : TokenKind} {expected : List String}
    (hp : p.Views (Token.ofKind? k) expected) {q : Parser α} (hq : q.WantsType L) :
    (p >>= fun _ ↦ q).WantsType (.behind (fun ts _ ↦ ts = [k] : Phrase Unit) fun _ ↦ L) := by
  rintro e outside first head rest ⟨_, _, _, houtside, rfl, hback⟩
  obtain ⟨front, back, rfl, hfront, rfl⟩ := List.map_eq_append_iff.1 houtside
  obtain ⟨t, rfl, ht⟩ := List.map_eq_singleton_iff.1 hfront
  obtain ⟨e', hcomes⟩ := hq t.span.stop back first head rest hback
  refine ⟨e', .second (hp.eq_ok_iff.2 ⟨Token.ofKind?_eq_some_iff.2 ⟨?_, rfl⟩, rfl⟩) hcomes⟩
  exact ht

theorem mark {p : Punctuator} {q : Parser α} (hq : q.WantsType L) :
    (requireMark p >>= fun _ ↦ q).WantsType (.behind (Phrase.mark p) fun _ ↦ L) :=
  take (views_requireMark p) hq

theorem keyword {text : String} {q : Parser α} (hq : q.WantsType L) :
    (requireKeyword text >>= fun _ ↦ q).WantsType (.behind (Phrase.keyword text) fun _ ↦ L) :=
  take (views_requireKeyword text) hq

/-! ### Loops and brackets -/

/-- In a loop the items in front are read, and then the one with the type is entered. -/
theorem many [HasSpans α] {K₁ K₂ : Set TokenKind} {item : Parser (Option α)} [item.LooksOneAhead]
    [item.Cites] {P : Phrase α}
    {E : Phrase Unit} (hreads : ReadsOrEnds K₁ K₂ item P E) (hP : P.Shields K₁ ∅) (hL : L.Shields K₁)
    (hitem : item.WantsType L) : (Parser.many item).WantsType (.behind (Phrase.many P) fun _ ↦ L) := by
  rintro e outside first head rest ⟨as, _, _, houtside, hfront, hback⟩
  obtain ⟨front, back, rfl, rfl, rfl⟩ := List.map_eq_append_iff.1 houtside
  obtain ⟨e₁, found, hfound⟩ := exists_iterate_eq hreads hP hfront (hL.free hback) e []
  obtain ⟨e', hcomes⟩ := hitem e₁ back first head rest hback
  have hround : item.ComesTo (.after e₁ (back ++ (first :: head ++ rest))) (.after e' rest)
      fun type r ↦ ∃ a, r = some a ∧ (first.span.start, type) ∈ nodeTypes a := by
    refine hcomes.mono fun type r hr ↦ ?_
    obtain ⟨a, ha, hmem⟩ := HasTypes.mem_nodeTypes_list.1 hr
    exact ⟨a, Option.mem_toList.1 ha, hmem⟩
  have hloop := hround.round found
  rw [ComesTo, ← hfound, ← List.append_assoc] at hloop
  refine ⟨e', ComesTo.first hloop fun type reversed h ↦ .pure ?_⟩
  obtain ⟨a, ha, hmem⟩ := h
  exact HasTypes.mem_nodeTypes_list.2 ⟨a, List.mem_reverse.2 ha, hmem⟩

theorem peekIs {p : Punctuator} {q r : Parser α} (hL : ∀ outside head, L outside head →
      outside.head? = some (.punctuator p)) (hq : q.WantsType L) :
    (Parser.peekIs (.punctuator p) >>= fun b ↦ if b = true then q else r).WantsType L := by
  refine .look fun e outside first head rest h ↦ ⟨true, peekIs_of_head? (hL _ _ h) _, ?_⟩
  exact hq

theorem unlessMark {item : Parser α} {close : Punctuator} (hL : L.Shields {.punctuator close})
    (hitem : item.WantsType L) : (Parser.unlessMark close item).WantsType L := by
  refine .look fun e outside first head rest h ↦ ⟨false, ?_, hitem.first fun a ↦ .pure ?_⟩
  · exact (accepts_acceptMark close).eq_false (by simp) (hL.free h)
  · exact fun entry hentry ↦ HasTypes.mem_nodeTypes_list.2 ⟨a, Option.mem_toList.2 rfl, hentry⟩

theorem refuseEmpty {close : Punctuator} {construct : String} {p : Parser α}
    (hL : L.Shields {.punctuator close}) (hp : p.WantsType L) :
    (Parser.refuseEmpty close construct >>= fun _ ↦ p).WantsType L := by
  refine .look fun e outside first head rest h ↦ ⟨(), ?_, hp⟩
  exact bind_eq_ok_iff.2 ⟨false, _, peekIs_of_free (hL.free h), rfl⟩

/-- In a block the brackets stand in front, and then it is a loop. -/
theorem block [HasSpans α] {item : Parser α} [item.LooksOneAhead] [item.Cites] {P : Phrase α}
    {brackets : Brackets} {construct : String}
    (hreads : Reads K item P) (hP : P.Shields K ∅) (hclose : P.Shields {.punctuator brackets.closing} ∅)
    (hL : L.Shields K) (hLclose : L.Shields {.punctuator brackets.closing}) (hitem : item.WantsType L) :
    (Parser.block brackets construct item).WantsType (.inBlock brackets P L) := by
  refine .mark (.refuseEmpty (.behind (.many hclose Set.Subset.rfl) fun _ ↦ hLclose) ?_)
  exact .many (readsOrEnds_unlessMark hreads hclose) hP hL (.unlessMark hLclose hitem)

theorem optionalBlock [HasSpans α] {item : Parser α} {P : Phrase α} {brackets : Brackets}
    {construct : String} (h : (Parser.block brackets construct item).WantsType (.inBlock brackets P L)) :
    (Parser.optionalBlock brackets construct item).WantsType (.inBlock brackets P L) := by
  refine .peekIs (fun outside head hlead ↦ ?_) h
  obtain ⟨_, _, _, rfl, rfl, -⟩ := hlead
  rfl

/-- Members between brackets, each beginning with a description or a name. -/
theorem members [HasSpans α] {item : Parser α} [item.LooksOneAhead] [item.Cites]
    {Q : Option String → String → Phrase α} {brackets : Brackets} {construct : String}
    (hreads : Reads memberEnd item (Phrase.description >>= fun description ↦ Phrase.name >>= Q description))
    (hL : ∀ K : Set TokenKind, (∀ k ∈ K, ∃ p, k = .punctuator p) → L.Shields K) (hitem : item.WantsType L) :
    (Parser.block brackets construct item).WantsType (.inBlock brackets
      (Phrase.description >>= fun description ↦ Phrase.name >>= Q description) L) := by
  have hclose : ∀ k ∈ ({.punctuator brackets.closing} : Set TokenKind), ∃ p, k = .punctuator p := by
    rintro _ rfl
    exact ⟨_, rfl⟩
  exact .block hreads (shields_member punctuator_of_mem_memberEnd) (shields_member hclose)
    (hL _ punctuator_of_mem_memberEnd) (hL _ hclose) hitem

end WantsType

end Parser

/-! ### The productions -/

section Nodes

variable (source : Option String)

theorem wantsType_inputValue : (Parser.inputValue source).WantsType .inputValue := by
  refine .node fun start ↦ .bind reads_description (fun _ ↦ .first (.name (by simp [mem_strings_iff])))
    fun description ↦ .andThen (.name _) fun name ↦ .colon fun type ↦ .bind fun defaultValue ↦
      .bind fun directives ↦ .spanFrom fun span hspan ↦ .pure ?_
  exact List.mem_singleton.2 (Prod.ext hspan.symm rfl)

theorem wantsType_arguments : (Parser.arguments source).WantsType .arguments :=
  .optionalBlock (.members (reads_inputValue source) (fun _ ↦ Lead.shields_inputValue)
    (wantsType_inputValue source))

theorem wantsType_field : (Parser.field source).WantsType .field := by
  refine .or ?_ ?_
  · refine .node fun start ↦ .bind reads_description (fun _ ↦ .first (.name (by simp [mem_strings_iff])))
      fun description ↦ .andThen (.name _) fun name ↦
        .bind (reads_arguments source) (fun _ ↦ .mark (by simp)) fun arguments ↦ .colon fun type ↦
          .bind fun directives ↦ .spanFrom fun span hspan ↦ .pure ?_
    exact List.mem_cons.2 (.inl (Prod.ext hspan.symm rfl))
  · refine .here fun start ↦ .behind reads_description (fun _ ↦ .first (.name (by simp [mem_strings_iff])))
      fun description ↦ .andThen (.name _) fun name ↦ (wantsType_arguments source).first fun arguments ↦ ?_
    refine .bind fun _ ↦ .bind fun type ↦ .bind fun directives ↦ .bind fun span ↦ .pure ?_
    exact List.subset_cons_self _ _

/-- Members, which may be missing from an extension but are there if a lead goes into them. -/
theorem Parser.WantsType.bracedMembers [HasTypes α] [HasSpans α] {item : Parser α} {P : Phrase α} {L : Lead}
    {construct : String} (h : (Parser.block .braces construct item).WantsType (.inBlock .braces P L))
    (mayLack : Bool) : (Parser.members mayLack construct item).WantsType (.inBlock .braces P L) := by
  cases mayLack with
  | false => exact h
  | true => exact .optionalBlock h

theorem wantsType_fields (mayLack : Bool) (body : List String → List FieldDefinition → TypeBody)
    (hbody : ∀ interfaces fields, nodeTypes (body interfaces fields) = nodeTypes fields) :
    Parser.WantsType (do
      let interfaces ← Parser.implemented
      let directives ← Parser.appliedDirectives source
      let fields ← Parser.members mayLack "fields block" (Parser.field source)
      return (directives, body interfaces fields)) .fields := by
  refine .behind reads_implemented (fun _ ↦ .behind (shields_appliedDirectives (by simp) Set.Subset.rfl)
    fun _ ↦ .inBlock (by simp [Brackets.opening])) fun interfaces ↦ ?_
  refine .behind (reads_appliedDirectives source) (fun _ ↦ .inBlock (by simp [directivesEnd, Brackets.opening]))
    fun directives ↦ ?_
  have hblock : (Parser.block .braces "fields block" (Parser.field source)).WantsType
      (.inBlock .braces (Phrase.field admitted) .field) :=
    .members (reads_field source) (fun _ ↦ Lead.shields_field) (wantsType_field source)
  refine (hblock.bracedMembers mayLack).first fun fields ↦ .pure ?_
  show nodeTypes fields ⊆ nodeTypes (body interfaces fields)
  rw [hbody]
  exact List.Subset.refl _

theorem wantsType_typeBody (mayLack : Bool) (kind : TypeKind) :
    (Parser.typeBody source mayLack kind).WantsType (.typeBody kind) := by
  cases kind with
  | object => exact wantsType_fields source mayLack .object fun _ _ ↦ rfl
  | interface => exact wantsType_fields source mayLack .interface fun _ _ ↦ rfl
  | inputObject =>
    refine .behind (reads_appliedDirectives source) (fun _ ↦ .inBlock (by simp [directivesEnd, Brackets.opening]))
      fun directives ↦ ?_
    have hblock : (Parser.block .braces "input fields block" (Parser.inputValue source)).WantsType
        (.inBlock .braces (Phrase.inputValue admitted) .inputValue) :=
      .members (reads_inputValue source) (fun _ ↦ Lead.shields_inputValue) (wantsType_inputValue source)
    exact (hblock.bracedMembers mayLack).first fun fields ↦ .pure (List.Subset.refl _)
  | scalar | union | enum => exact fun _ _ _ _ _ h ↦ h.elim

theorem wantsType_typeDefinition (kind : TypeKind) (description : Option String) (start : Position) :
    (Parser.typeDefinition source kind description start).WantsType (.type kind) :=
  .keyword <| .andThen (.name _) fun _ ↦ (wantsType_typeBody source false kind).first fun _ ↦
    .bind fun _ ↦ .pure (List.Subset.refl _)

theorem wantsType_typeExtension (kind : TypeKind) (start : Position) :
    (Parser.typeExtension source kind start).WantsType (.type kind) :=
  .keyword <| .andThen (.name _) fun _ ↦ (wantsType_typeBody source true kind).first fun _ ↦
    .ite .failing (.bind fun _ ↦ .pure (List.Subset.refl _))

theorem wantsType_directiveDefinition (description : Option String) (start : Position) :
    (Parser.directiveDefinition source description start).WantsType .directiveDefinition :=
  .keyword <| .mark <| .andThen (.name _) fun _ ↦ (wantsType_arguments source).first fun _ ↦
    .bind fun _ ↦ .bind fun _ ↦ .bind fun _ ↦ .bind fun _ ↦ .pure (List.Subset.refl _)

/-- The keyword comes next, and what the parser does then is what counts. -/
theorem Parser.WantsType.word [HasTypes α] {word : String} {L : Lead} (hL : L.Begins word) {f : String → Parser α}
    (h : (f word).WantsType L) : (Parser.peekName >>= f).WantsType L :=
  .look fun _ _ _ _ _ hlead ↦ ⟨word, Parser.peekName_of_head? (hL _ _ hlead) _, h⟩

theorem Parser.WantsType.peek [HasTypes α] {word : String} {L : Lead} (hL : L.Begins word)
    {f : Token → Parser α} (h : ∀ t, t.kind = .name word → (f t).WantsType L) :
    (Parser.peek >>= f).WantsType L :=
  .look fun _ _ _ _ _ hlead ↦ ⟨_, rfl, h _ (TokenStream.current_of_head? (hL _ _ hlead) _)⟩

theorem wantsType_extension (start : Position) : (Parser.extension source start).WantsType .extension := by
  refine .keyword <| .oneOf fun kind ↦ ?_
  have hkeyword : (Lead.type kind).Begins kind.keyword := .keyword
  refine .word hkeyword ?_
  rw [TypeKind.ofKeyword?_keyword]
  exact (wantsType_typeExtension source kind start).first fun _ ↦ .pure (List.Subset.refl _)

theorem wantsType_definition : (Parser.definition source).WantsType .definition := by
  refine .here fun start ↦ .behind reads_description
    (fun _ ↦ Lead.shields_described (by simp [mem_strings_iff]) _) fun description ↦ ?_
  rw [withoutSpans_string?]
  have hitem {item : Parser Definition} {L : Lead} (h : item.WantsType L) :
      Parser.WantsType (do return some (← item)) L :=
    h.first fun item ↦ .pure (by simp [nodeTypes])
  -- each of the leads begins with a keyword, and the parser goes by it
  refine .or (.oneOf fun kind ↦ .peek .keyword fun t ht ↦ ?_) <|
    .or (.peek .keyword fun t ht ↦ ?_) (.peek (.provided .keyword) fun t ht ↦ ?_)
  all_goals
    rw [ht]
    refine hitem ?_
    unfold Parser.definitionOf
  · rw [TypeKind.ofKeyword?_keyword]
    exact (wantsType_typeDefinition source kind description start).first fun _ ↦ .pure (List.Subset.refl _)
  · exact (wantsType_directiveDefinition source description start).first fun _ ↦ .pure (List.Subset.refl _)
  · refine .provided fun hnone ↦ ?_
    subst hnone
    exact wantsType_extension source start

/-- **The parser comes to the type behind every lead.** -/
theorem wantsType_document : (Parser.document source).WantsType .document := by
  have hitems : (Parser.many (Parser.definition source)).WantsType .document :=
    .many (reads_definition source) shields_definition Lead.shields_definition (wantsType_definition source)
  exact hitems.first fun items ↦ .pure (HasTypes.perm_nodeTypes_ofDefinitions items).symm.subset

end Nodes

end TypeSystem
