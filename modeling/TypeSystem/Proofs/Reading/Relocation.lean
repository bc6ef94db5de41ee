import TypeSystem.Proofs.Reading.Lookahead
import TypeSystem.Proofs.Reading.Documents

/-!
# Tokens read in another place

What a parser gives depends on where its tokens stand only in the spans of what it gives. On the same
tokens, moved, it gives the same, moved (`Relocates`); and this is so even if what comes behind the tokens
is not the same, as long as it begins with the same token, moved, or the input ends there.

A parser that looks at the next token may well give something else when the input ends instead. So no law
holds for such a look alone, but one holds for a look and then a parser that takes at least one token
(`Relocates.look`): then the token looked at is among those that were moved.
-/

namespace TypeSystem

/-- A value with all its spans moved. -/
def moved {α : Type} [HasSpans α] (f : Position → Position) (a : α) : α :=
  HasSpans.mapSpans (Span.move f) a

instance : HasSpans Token := ⟨fun g t ↦ ⟨t.kind, g t.span⟩⟩

@[simp] theorem moved_strings (f : Position → Position) (texts : List String) : moved f texts = texts :=
  List.map_id texts

@[simp] theorem moved_string? (f : Position → Position) (text : Option String) : moved f text = text := by
  cases text <;> rfl

@[simp] theorem moved_name (f : Position → Position) (text : String) (span : Span) :
    moved f (text, span) = (text, span.move f) := rfl

@[simp] theorem moved_roots (f : Position → Position) (roots : RootTypes) : moved f roots = roots := rfl

namespace Parser

variable {α β σ : Type} {f : Position → Position}

/-! ### Parsers that take something -/

/-- The parser takes at least one token when it succeeds. -/
def Advances (p : Parser α) : Prop := ∀ s a s', p s = (.ok a, s') → s'.left < s.left

namespace Advances

/-- What advances at its first step advances. -/
theorem first {p : Parser α} {k : α → Parser β} (hp : p.Advances) [∀ a, (k a).LooksOneAhead] :
    (p >>= k).Advances := by
  intro s b s' h
  obtain ⟨a, s₁, ha, hb⟩ := bind_eq_ok_iff.1 h
  obtain ⟨back, hback, -⟩ := LooksOneAhead.exists_passed hb
  have hle : s'.left ≤ s₁.left := by
    rw [s₁.left_eq, s'.left_eq, hback.pending_eq, List.length_append]
    omega
  exact hle.trans_lt (hp s a s₁ ha)

/-- What advances at its second step advances, as the first never goes back. -/
theorem second {p : Parser α} [p.LooksOneAhead] {k : α → Parser β} (hk : ∀ a, (k a).Advances) :
    (p >>= k).Advances := by
  intro s b s' h
  obtain ⟨a, s₁, ha, hb⟩ := bind_eq_ok_iff.1 h
  obtain ⟨front, hfront, -⟩ := LooksOneAhead.exists_passed ha
  have hle : s₁.left ≤ s.left := by
    rw [s.left_eq, s₁.left_eq, hfront.pending_eq, List.length_append]
    omega
  exact (hk a s₁ b s' hb).trans_le hle

/-- What fails never succeeds without advancing. -/
theorem failing {p : Parser α} [p.AlwaysFails] : p.Advances :=
  fun s a s' h ↦ absurd h (AlwaysFails.ne_ok s a s')

/-- A choice advances if both sides do. -/
theorem ite {condition : Prop} [Decidable condition] {p q : Parser α} (hp : p.Advances) (hq : q.Advances) :
    (if condition then p else q).Advances := by
  split
  · exact hp
  · exact hq

/-- What advances has passed some token. -/
theorem ne_nil {p : Parser α} (hp : p.Advances) {s s' : TokenStream} {a : α} {ts : List Token}
    (h : p s = (.ok a, s')) (hts : Passed s ts s') : ts ≠ [] :=
  hts.left_lt_iff.1 (hp s a s' h)

/-- A parser that takes one token. -/
theorem views {p : Parser α} {view : Token → Option α} {expected : List String}
    (hp : p.Views view expected) : p.Advances :=
  fun _ _ _ h ↦ (hp.taken h).left_lt (List.cons_ne_nil _ _)

theorem mark (p : Punctuator) : (requireMark p).Advances := .views (views_requireMark p)

theorem keyword (text : String) : (requireKeyword text).Advances := .views (views_requireKeyword text)

theorem requireName (expected : String) : (Parser.requireName expected).Advances :=
  .views (views_requireName expected)

theorem name (expected : String) : (Parser.name expected).Advances :=
  (requireName expected).first

end Advances

end Parser

/-! ### What comes next -/

/-- What comes next is as it was, moved, or the input ends. -/
def Resumes (f : Position → Position) (pending rest : List Token) : Prop :=
  rest.head? = pending.head?.map (Token.move f) ∨ ∀ t ∈ rest.head?, t.kind = .endOfInput

namespace Resumes

variable {f : Position → Position} {s s' : TokenStream} {ts rest : List Token}

/-- Tokens that are moved come next where they came before. -/
theorem append (h : Resumes f s'.pending rest) (hts : Passed s ts s') :
    Resumes f s.pending (ts.map (Token.move f) ++ rest) := by
  rw [hts.pending_eq]
  cases ts with
  | nil => exact h
  | cons t ts => exact .inl rfl

/-- What does not come next does not do so when the input ends instead. -/
theorem current_notMem (h : Resumes f s.pending rest) {K : Set TokenKind} (hend : .endOfInput ∉ K)
    (hnot : s.current.kind ∉ K) (e : Position) : (TokenStream.after e rest).current.kind ∉ K := by
  cases rest with
  | nil => exact hend
  | cons t rest =>
    rcases h with h | h
    · rw [List.head?_cons, eq_comm, Option.map_eq_some_iff] at h
      obtain ⟨t', ht', rfl⟩ := h
      rwa [TokenStream.current, List.headD_eq_head?_getD, ht'] at hnot
    · rw [TokenStream.current_cons, h t rfl]
      exact hend

/-- Where the next token is not of a kind, it is not of the kind in the other stream either. -/
theorem current_kind_ne (h : Resumes f s.pending rest) {k : TokenKind} (hk : k ≠ .endOfInput)
    (hne : s.current.kind ≠ k) (e : Position) : (TokenStream.after e rest).current.kind ≠ k :=
  h.current_notMem (K := {k}) hk.symm hne e

end Resumes

/-- Where a token is passed, the other stream shows that token moved. -/
theorem Passed.current_eq {s s' : TokenStream} {ts : List Token} (h : Passed s ts s') (hts : ts ≠ [])
    (f : Position → Position) (e : Position) (rest : List Token) :
    (TokenStream.after e (ts.map (Token.move f) ++ rest)).current = s.current.move f := by
  cases ts with
  | nil => exact absurd rfl hts
  | cons t ts =>
    rw [TokenStream.current, TokenStream.current, h.pending_eq]
    rfl

/-! ### Relocation -/

namespace Parser

variable {α β σ : Type} {f : Position → Position}

/-- On the tokens that `p` takes, moved, `q` gives what `p` gives, moved. -/
def Relocates [HasSpans α] (f : Position → Position) (p q : Parser α) : Prop :=
  ∀ s a s', p s = (.ok a, s') → ∃ ts, Passed s ts s' ∧ ∀ rest, Resumes f s'.pending rest →
    q (.after (f s.lastEnd) (ts.map (Token.move f) ++ rest)) =
      (.ok (moved f a), .after (f s'.lastEnd) rest)

namespace Relocates

variable [HasSpans α] [HasSpans β]

/-- Giving something moved relocates giving it. -/
theorem pure {a b : α} (h : moved f a = b) :
    Relocates f (Pure.pure a : Parser α) (Pure.pure b : Parser α) := by
  rintro s _ _ ⟨⟩
  exact ⟨[], .refl s, fun rest _ ↦ by rw [h]; rfl⟩

theorem failing {p q : Parser α} [p.AlwaysFails] : Relocates f p q :=
  fun s a s' h ↦ absurd h (AlwaysFails.ne_ok s a s')

/-- One parser after another: between them the streams are moved in the same way. -/
theorem bind {p p' : Parser α} {k k' : α → Parser β} (hp : Relocates f p p')
    (hk : ∀ a, Relocates f (k a) (k' (moved f a))) : Relocates f (p >>= k) (p' >>= k') := by
  intro s b s' h
  obtain ⟨a, s₁, ha, hb⟩ := bind_eq_ok_iff.1 h
  obtain ⟨front, hfront, hfirst⟩ := hp s a s₁ ha
  obtain ⟨back, hback, hsecond⟩ := hk a s₁ b s' hb
  refine ⟨front ++ back, hfront.trans hback, fun rest hrest ↦ ?_⟩
  rw [List.map_append, List.append_assoc]
  exact bind_eq_ok_iff.2 ⟨_, _, hfirst _ (hrest.append hback), hsecond rest hrest⟩

/-- A choice that does not depend on positions is the same on both sides. -/
theorem ite {condition : Prop} [Decidable condition] {p p' q q' : Parser α} (hp : Relocates f p p')
    (hq : Relocates f q q') :
    Relocates f (if condition then p else q) (if condition then p' else q') := by
  split
  · exact hp
  · exact hq

/-- A look at the next token, and then a parser that takes it. -/
theorem look {γ : Type} {p : Parser γ} (view : Token → γ) (hp : ∀ s, p s = (.ok (view s.current), s))
    {k k' : γ → Parser α} (hk : ∀ t, Relocates f (k (view t)) (k' (view (t.move f))))
    (hadvances : ∀ t, (k (view t)).Advances) : Relocates f (p >>= k) (p >>= k') := by
  intro s a s' h
  obtain ⟨c, s₁, hc, ha⟩ := bind_eq_ok_iff.1 h
  rw [hp] at hc
  cases hc
  obtain ⟨ts, hts, hagain⟩ := hk s.current s a s' ha
  refine ⟨ts, hts, fun rest hrest ↦ bind_eq_ok_iff.2 ⟨_, _, hp _, ?_⟩⟩
  rw [hts.current_eq ((hadvances _).ne_nil ha hts)]
  exact hagain rest hrest

/-- Where the next token starts is moved with the token, so there must be one. -/
theorem here {k k' : Position → Parser α} (hk : ∀ start, Relocates f (k start) (k' (f start)))
    (hadvances : ∀ start, (k start).Advances) : Relocates f (Parser.here >>= k) (Parser.here >>= k') :=
  look (fun t ↦ t.span.start) (fun _ ↦ rfl) (fun t ↦ hk t.span.start) fun t ↦ hadvances t.span.start

/-- A span is moved with its ends. -/
theorem spanFrom {source : Option String} {start : Position} {k k' : Span → Parser α}
    (hk : ∀ span, Relocates f (k span) (k' (span.move f))) :
    Relocates f (Parser.spanFrom source start >>= k) (Parser.spanFrom none (f start) >>= k') :=
  fun s ↦ hk ⟨start, s.lastEnd, source⟩ s

/-! ### Single tokens -/

/-- A parser that takes one token and sees the same in it wherever it stands. -/
theorem views {p : Parser α} {view : Token → Option α} {expected : List String} (hp : p.Views view expected)
    (hview : ∀ t a, view t = some a → view (t.move f) = some (moved f a)) : Relocates f p p := by
  intro s a s' ha
  obtain ⟨hseen, hs'⟩ := hp.eq_ok_iff.1 ha
  refine ⟨[s.current], ⟨(hp.taken ha).pending_eq, by rw [hs']; rfl⟩, fun rest _ ↦ ?_⟩
  refine hp.eq_ok_iff.2 ⟨hview s.current a hseen, ?_⟩
  rw [hs']
  rfl

/-- A parser that takes one token of a given kind. -/
theorem ofKind {p : Parser Token} {k : TokenKind} {expected : List String}
    (hp : p.Views (Token.ofKind? k) expected) : Relocates f p p := by
  refine views hp fun t t' h ↦ ?_
  obtain ⟨hkind, rfl⟩ := Token.ofKind?_eq_some_iff.1 h
  exact Token.ofKind?_eq_some_iff.2 ⟨hkind, rfl⟩

theorem mark (p : Punctuator) : Relocates f (requireMark p) (requireMark p) := ofKind (views_requireMark p)

theorem keyword (text : String) : Relocates f (requireKeyword text) (requireKeyword text) :=
  ofKind (views_requireKeyword text)

theorem requireName (expected : String) :
    Relocates f (Parser.requireName expected) (Parser.requireName expected) := by
  refine views (views_requireName expected) fun t found h ↦ ?_
  obtain ⟨text, htext, rfl⟩ := Option.map_eq_some_iff.1 h
  exact Option.map_eq_some_iff.2 ⟨text, htext, rfl⟩

theorem name (expected : String) : Relocates f (Parser.name expected) (Parser.name expected) :=
  (requireName expected).bind fun _ ↦ .pure rfl

theorem value (expected : String) : Relocates f (Parser.value expected) (Parser.value expected) :=
  views (views_value expected) fun _ _ ↦ id

/-- A description is text, which is not moved. -/
theorem description : Relocates f description? description? := by
  intro s text s' h
  by_cases hmem : s.current.kind ∈ strings
  · rw [description?_of_mem hmem] at h
    cases h
    have htaken : Taken s [s.current] s.advance :=
      .advance fun hend ↦ endOfInput_notMem_strings (hend ▸ hmem)
    refine ⟨[s.current], ⟨htaken.pending_eq, rfl⟩, fun rest _ ↦ ?_⟩
    rw [moved_string?]
    exact description?_of_mem (s := .after _ (s.current.move f :: rest)) hmem
  · rw [description?_of_notMem hmem] at h
    cases h
    refine ⟨[], .refl s, fun rest hrest ↦ ?_⟩
    exact description?_of_notMem (hrest.current_notMem endOfInput_notMem_strings hmem _)

/-- A token that may be there. -/
theorem accepts {p : Parser Bool} {k : TokenKind} (hp : p.Accepts k) (hk : k ≠ .endOfInput) :
    Relocates f p p := by
  intro s b s' h
  rw [hp s] at h
  split at h
  · next hkind =>
    cases h
    refine ⟨[s.current], ⟨(Taken.advance (hkind ▸ hk)).pending_eq, rfl⟩, fun rest _ ↦ ?_⟩
    exact hp.eq_true (t := s.current.move f) hkind rest
  · next hkind =>
    cases h
    refine ⟨[], .refl s, fun rest hrest ↦ ?_⟩
    have hne := hrest.current_kind_ne hk hkind (f s.lastEnd)
    exact (hp _).trans (if_neg hne)

/-! ### Choices -/

/-- A choice by the next token is the same on both sides, as kinds are. -/
theorem branch {p : Parser Bool} {k : TokenKind} (hp : p.Accepts k) (hk : k ≠ .endOfInput)
    {q q' r r' : Parser α} (hq : Relocates f q q') (hr : Relocates f r r') :
    Relocates f (p >>= fun b ↦ if b = true then q else r) (p >>= fun b ↦ if b = true then q' else r') :=
  (accepts hp hk).bind fun _ ↦ .ite hq hr

/-- A look whether a mark comes next, which is taken then. -/
theorem peek {p : Punctuator} {q q' r r' : Parser α} (hq : Relocates f q q') (hadvances : q.Advances)
    (hr : Relocates f r r') :
    Relocates f (peekIs (.punctuator p) >>= fun b ↦ if b = true then q else r)
      (peekIs (.punctuator p) >>= fun b ↦ if b = true then q' else r') := by
  have hpeek (s : TokenStream) : peekIs (.punctuator p) s = (.ok (s.current.kind = .punctuator p), s) := by
    simp [peekIs, TokenKind.sort_eq_punctuator_iff]
  intro s a s' h
  obtain ⟨b, s₁, hb, ha⟩ := bind_eq_ok_iff.1 h
  rw [hpeek] at hb
  cases hb
  by_cases hkind : s.current.kind = .punctuator p
  · rw [if_pos (decide_eq_true hkind)] at ha
    obtain ⟨ts, hts, hagain⟩ := hq s a s' ha
    refine ⟨ts, hts, fun rest hrest ↦ bind_eq_ok_iff.2 ⟨_, _, hpeek _, ?_⟩⟩
    rw [hts.current_eq (hadvances.ne_nil ha hts), Token.move_kind, if_pos (decide_eq_true hkind)]
    exact hagain rest hrest
  · rw [if_neg (by simpa using hkind)] at ha
    obtain ⟨ts, hts, hagain⟩ := hr s a s' ha
    refine ⟨ts, hts, fun rest hrest ↦ bind_eq_ok_iff.2 ⟨_, _, hpeek _, ?_⟩⟩
    have hne := (hrest.append hts).current_kind_ne (by simp) hkind (f s.lastEnd)
    rw [if_neg (by simpa using hne)]
    exact hagain rest hrest

/-! ### Loops -/

/-- A loop goes as many rounds on both sides. The induction is on what is left. -/
theorem iterate [HasSpans σ] {step step' : σ → Parser (Option σ)}
    (hstep : ∀ state, Relocates f (step state) (step' (moved f state))) (state : σ) :
    Relocates f (Parser.iterate step state) (Parser.iterate step' (moved f state)) := by
  intro s state' s' h
  -- induction on the rounds
  fun_induction Parser.iterate step state s with
  | case1 state s e s₁ heq => cases h
  | case2 state s s₁ heq =>
    cases h
    obtain ⟨ts, hts, hagain⟩ := hstep _ s none s' heq
    refine ⟨ts, hts, fun rest hrest ↦ ?_⟩
    rw [Parser.iterate, hagain rest hrest]
    rfl
  | case3 state s state₁ s₁ heq hleft ih =>
    obtain ⟨front, hfront, hround⟩ := hstep state s (some state₁) s₁ heq
    obtain ⟨back, hback, hrounds⟩ := ih h
    refine ⟨front ++ back, hfront.trans hback, fun rest hrest ↦ ?_⟩
    have hne : front.map (Token.move f) ≠ [] := by
      rw [Ne, List.map_eq_nil_iff]
      exact hfront.left_lt_iff.1 hleft
    have hleft' := TokenStream.left_after_lt hne (f s₁.lastEnd) (f s.lastEnd)
      (back.map (Token.move f) ++ rest)
    rw [List.map_append, List.append_assoc, Parser.iterate, hround _ (hrest.append hback)]
    show (if (TokenStream.after (f s₁.lastEnd) (back.map (Token.move f) ++ rest)).left <
        (TokenStream.after (f s.lastEnd) _).left then Parser.iterate step' (moved f state₁) _ else _) = _
    rw [if_pos hleft', hrounds rest hrest]
  | case4 state s state₁ s₁ heq hleft =>
    cases h
    obtain ⟨ts, hts, hagain⟩ := hstep state s _ s' heq
    refine ⟨ts, hts, fun rest hrest ↦ ?_⟩
    have hnone : ts = [] := not_not.1 (mt hts.left_lt_iff.2 hleft)
    subst hnone
    rw [Parser.iterate, hagain rest hrest]
    exact if_neg (lt_irrefl _)

/-- Items that are listed are moved one by one. -/
theorem many {item item' : Parser (Option α)} (h : Relocates f item item') :
    Relocates f (Parser.many item) (Parser.many item') := by
  refine .bind (.iterate (fun found ↦ ?_) []) fun reversed ↦ .pure ?_
  · refine .bind h fun r ↦ .pure ?_
    cases r <;> rfl
  · exact List.map_reverse

theorem unlessMark {p : Punctuator} {item item' : Parser α} (h : Relocates f item item') :
    Relocates f (Parser.unlessMark p item) (Parser.unlessMark p item') :=
  branch (accepts_acceptMark p) (by simp) (.pure rfl) (h.bind fun _ ↦ .pure rfl)

theorem afterMark {p : Punctuator} {item item' : Parser α} (h : Relocates f item item') :
    Relocates f (Parser.afterMark p item) (Parser.afterMark p item') :=
  branch (accepts_acceptMark p) (by simp) (h.bind fun _ ↦ .pure rfl) (.pure rfl)

theorem separated {p : Punctuator} {item item' : Parser α} (h : Relocates f item item') :
    Relocates f (Parser.separated p item) (Parser.separated p item') :=
  (accepts (accepts_acceptMark p) (by simp)).bind fun _ ↦ h.bind fun _ ↦
    (many (afterMark h)).bind fun _ ↦ .pure rfl

/-! ### Brackets -/

/-- Brackets are taken on both sides. -/
theorem enclosed {brackets : Brackets} {construct : String} {inside inside' : Parser α}
    (h : Relocates f inside inside') :
    Relocates f (Parser.enclosed brackets construct inside) (Parser.enclosed brackets construct inside') := by
  have hrefuse : Relocates f (Parser.refuseEmpty brackets.closing construct)
      (Parser.refuseEmpty brackets.closing construct) :=
    peek .failing .failing (.pure rfl)
  exact (mark _).bind fun _ ↦ hrefuse.bind fun _ ↦ h

theorem block {brackets : Brackets} {construct : String} {item item' : Parser α}
    (h : Relocates f item item') :
    Relocates f (Parser.block brackets construct item) (Parser.block brackets construct item') :=
  enclosed (many (unlessMark h))

theorem optionalBlock {brackets : Brackets} {construct : String} {item item' : Parser α}
    [item.LooksOneAhead] (h : Relocates f item item') :
    Relocates f (Parser.optionalBlock brackets construct item)
      (Parser.optionalBlock brackets construct item') :=
  peek (block h) (.first (.mark _)) (.pure rfl)

end Relocates

end Parser

/-! ### The grammar -/

open TypeSystem.Parser (Relocates)

section Grammar

variable {f : Position → Position}

theorem relocates_nullability : Relocates f Parser.nullability Parser.nullability :=
  (Relocates.accepts (Parser.accepts_acceptMark .bang) (by simp)).bind fun _ ↦ .pure rfl

theorem relocates_typeReferenceWithin (levels : ℕ) :
    Relocates f (Parser.typeReferenceWithin levels) (Parser.typeReferenceWithin levels) := by
  induction levels with
  | zero => exact .failing
  | succ levels ih =>
    refine .branch (Parser.accepts_acceptMark .bracketOpen) (by simp) ?_ ?_
    · exact .bind ih fun element ↦ .bind (.mark _) fun _ ↦ .bind relocates_nullability fun _ ↦ .pure rfl
    · exact .bind (.name _) fun name ↦ .bind relocates_nullability fun _ ↦ .pure rfl

theorem relocates_typeReference : Relocates f Parser.typeReference Parser.typeReference :=
  relocates_typeReferenceWithin Parser.maxLevels

theorem relocates_argument : Relocates f Parser.argument Parser.argument :=
  .bind (.name _) fun _ ↦ .bind (.mark _) fun _ ↦ .bind (.value _) fun _ ↦ .pure rfl

theorem relocates_directiveLocation : Relocates f Parser.directiveLocation Parser.directiveLocation := by
  refine .bind (.requireName _) fun found ↦ ?_
  obtain ⟨name, span⟩ := found
  rw [moved_name]
  dsimp only
  cases DirectiveLocation.ofName? name with
  | some location => exact .pure rfl
  | none => exact .failing

theorem relocates_rootTypes : Relocates f Parser.rootTypes Parser.rootTypes := by
  refine .enclosed (.iterate (fun roots ↦ ?_) RootTypes.none)
  refine .unlessMark (.bind (.requireName _) fun found ↦ ?_)
  obtain ⟨keyword, span⟩ := found
  rw [moved_name, moved_roots]
  dsimp only
  cases Operation.ofKeyword? keyword with
  | none => exact .failing
  | some operation =>
    exact .ite .failing (.bind (.mark _) fun _ ↦ .bind (.name _) fun name ↦ .pure rfl)

section Nodes

variable (source : Option String)

theorem relocates_appliedDirective :
    Relocates f (Parser.appliedDirective source) (Parser.appliedDirective none) := by
  refine .here (fun start ↦ .bind (.mark _) fun _ ↦ .bind (.name _) fun name ↦ ?_) fun start ↦
    .first (.mark _)
  refine .bind (.optionalBlock relocates_argument) fun arguments ↦ .spanFrom fun span ↦ .pure ?_
  simp [moved, HasSpans.mapSpans]

theorem relocates_appliedDirectives :
    Relocates f (Parser.appliedDirectives source) (Parser.appliedDirectives none) := by
  refine .many (.peek (.bind (relocates_appliedDirective source) fun _ ↦ .pure rfl) ?_ (.pure rfl))
  exact .first (.second fun _ ↦ .first (.mark _))

theorem relocates_inputValue : Relocates f (Parser.inputValue source) (Parser.inputValue none) := by
  refine .here (fun start ↦ ?_) fun start ↦ .second fun _ ↦ .first (.name _)
  refine .bind .description fun description ↦ .bind (.name _) fun name ↦ .bind (.mark _) fun _ ↦ ?_
  refine .bind relocates_typeReference fun type ↦ .bind (.afterMark (.value _)) fun value ↦ ?_
  refine .bind (relocates_appliedDirectives source) fun directives ↦ .spanFrom fun span ↦ .pure ?_
  rw [moved_string?, moved_string?]
  rfl

theorem relocates_arguments : Relocates f (Parser.arguments source) (Parser.arguments none) :=
  .optionalBlock (relocates_inputValue source)

theorem relocates_field : Relocates f (Parser.field source) (Parser.field none) := by
  refine .here (fun start ↦ ?_) fun start ↦ .second fun _ ↦ .first (.name _)
  refine .bind .description fun description ↦ .bind (.name _) fun name ↦ ?_
  refine .bind (relocates_arguments source) fun arguments ↦ .bind (.mark _) fun _ ↦ ?_
  refine .bind relocates_typeReference fun type ↦ ?_
  refine .bind (relocates_appliedDirectives source) fun directives ↦ .spanFrom fun span ↦ .pure ?_
  rw [moved_string?]
  rfl

theorem relocates_enumValue : Relocates f (Parser.enumValue source) (Parser.enumValue none) := by
  refine .here (fun start ↦ ?_) fun start ↦ .second fun _ ↦ .first (.requireName _)
  refine .bind .description fun description ↦ .bind (.requireName _) fun found ↦ ?_
  obtain ⟨name, span⟩ := found
  refine .ite .failing ?_
  refine .bind (relocates_appliedDirectives source) fun directives ↦ .spanFrom fun span ↦ .pure ?_
  rw [moved_string?]
  rfl

theorem relocates_implemented : Relocates f Parser.implemented Parser.implemented :=
  .branch (Parser.accepts_acceptKeyword "implements") (by simp) (.separated (.name _)) (.pure rfl)

theorem relocates_unionMembers : Relocates f Parser.unionMembers Parser.unionMembers :=
  .separated (.name _)

theorem relocates_members {α : Type} [HasSpans α] {mayLack : Bool} {construct : String}
    {item item' : Parser α} [item.LooksOneAhead] (h : Relocates f item item') :
    Relocates f (Parser.members mayLack construct item) (Parser.members mayLack construct item') := by
  cases mayLack with
  | false => exact .block h
  | true => exact .optionalBlock h

theorem relocates_typeBody (mayLack : Bool) (kind : TypeKind) :
    Relocates f (Parser.typeBody source mayLack kind) (Parser.typeBody none mayLack kind) := by
  cases kind with
  | scalar => exact .bind (relocates_appliedDirectives source) fun directives ↦ .pure rfl
  | object | interface =>
    refine .bind relocates_implemented fun interfaces ↦ ?_
    rw [moved_strings]
    exact .bind (relocates_appliedDirectives source) fun directives ↦
      .bind (relocates_members (relocates_field source)) fun fields ↦ .pure rfl
  | union =>
    refine .bind (relocates_appliedDirectives source) fun directives ↦ ?_
    cases mayLack with
    | false =>
      refine .bind (.mark _) fun _ ↦ .bind relocates_unionMembers fun members ↦ .pure ?_
      rw [moved_strings]
      rfl
    | true =>
      refine .bind (.afterMark relocates_unionMembers) fun members ↦ .pure ?_
      cases members with
      | none => rfl
      | some members =>
        show _ = (moved f directives, TypeBody.union (moved f members))
        rw [moved_strings]
        rfl
  | enum =>
    exact .bind (relocates_appliedDirectives source) fun directives ↦
      .bind (relocates_members (relocates_enumValue source)) fun values ↦ .pure rfl
  | inputObject =>
    exact .bind (relocates_appliedDirectives source) fun directives ↦
      .bind (relocates_members (relocates_inputValue source)) fun fields ↦ .pure rfl

variable {start : Position}

theorem relocates_typeDefinition (kind : TypeKind) (description : Option String) :
    Relocates f (Parser.typeDefinition source kind description start)
      (Parser.typeDefinition none kind description (f start)) := by
  refine .bind (.keyword _) fun _ ↦ .bind (.name _) fun name ↦ ?_
  refine .bind (relocates_typeBody source false kind) fun r ↦ ?_
  obtain ⟨directives, body⟩ := r
  exact .spanFrom fun span ↦ .pure rfl

theorem relocates_typeExtension (kind : TypeKind) :
    Relocates f (Parser.typeExtension source kind start) (Parser.typeExtension none kind (f start)) := by
  refine .bind (.keyword _) fun _ ↦ .bind (.name _) fun name ↦ ?_
  refine .bind (relocates_typeBody source true kind) fun r ↦ ?_
  obtain ⟨directives, body⟩ := r
  have hempty : ((moved f directives).isEmpty && (moved f body).isEmpty) =
      (directives.isEmpty && body.isEmpty) := by
    rw [show (moved f body).isEmpty = body.isEmpty from isEmpty_mapSpans _ body]
    simp [moved, HasSpans.mapSpans]
  show Relocates f (if directives.isEmpty && body.isEmpty then _ else _)
    (if (moved f directives).isEmpty && (moved f body).isEmpty then _ else _)
  rw [hempty]
  exact .ite .failing (.spanFrom fun span ↦ .pure rfl)

theorem relocates_directiveDefinition (description : Option String) :
    Relocates f (Parser.directiveDefinition source description start)
      (Parser.directiveDefinition none description (f start)) := by
  refine .bind (.keyword _) fun _ ↦ .bind (.mark _) fun _ ↦ .bind (.name _) fun name ↦ ?_
  refine .bind (relocates_arguments source) fun arguments ↦ ?_
  refine .bind (.accepts (Parser.accepts_acceptKeyword "repeatable") (by simp)) fun repeatable ↦ ?_
  refine .bind (.keyword _) fun _ ↦ .bind (.separated relocates_directiveLocation) fun locations ↦ ?_
  refine .spanFrom fun span ↦ .pure ?_
  rw [show moved f locations = locations from List.map_id locations]
  rfl

theorem relocates_schemaDefinition (description : Option String) :
    Relocates f (Parser.schemaDefinition source description start)
      (Parser.schemaDefinition none description (f start)) := by
  refine .bind (.keyword _) fun _ ↦ .bind (relocates_appliedDirectives source) fun directives ↦ ?_
  exact .bind relocates_rootTypes fun roots ↦ .spanFrom fun span ↦ .pure rfl

theorem relocates_schemaExtension :
    Relocates f (Parser.schemaExtension source start) (Parser.schemaExtension none (f start)) := by
  refine .bind (.keyword _) fun _ ↦ .bind (relocates_appliedDirectives source) fun directives ↦ ?_
  refine .peek (.bind relocates_rootTypes fun roots ↦ .spanFrom fun span ↦ .pure rfl)
    (.first (.first (.mark _))) ?_
  have hempty : (moved f directives).isEmpty = directives.isEmpty := by simp [moved, HasSpans.mapSpans]
  rw [hempty]
  exact .ite .failing (.spanFrom fun span ↦ .pure rfl)

theorem relocates_extension :
    Relocates f (Parser.extension source start) (Parser.extension none (f start)) := by
  refine .bind (.keyword _) fun _ ↦ .look (fun t ↦ t.name?.getD "") Parser.peekName_eq (fun t ↦ ?_) fun t ↦ ?_
  · rw [show (t.move f).name? = t.name? from rfl]
    generalize t.name?.getD "" = word
    cases TypeKind.ofKeyword? word with
    | some kind => exact .bind (relocates_typeExtension source kind) fun _ ↦ .pure rfl
    | none =>
      exact .ite (.bind (relocates_schemaExtension source) fun _ ↦ .pure rfl) .failing
  · generalize t.name?.getD "" = word
    cases TypeKind.ofKeyword? word with
    | some kind => exact .first (.first (.keyword _))
    | none => exact .ite (.first (.first (.keyword _))) .failing

theorem relocates_definitionOf (keyword : String) (description : Option String) :
    Relocates f (Parser.definitionOf source keyword description start)
      (Parser.definitionOf none keyword description (f start)) := by
  unfold Parser.definitionOf
  cases TypeKind.ofKeyword? keyword with
  | some kind => exact .bind (relocates_typeDefinition source kind description) fun _ ↦ .pure rfl
  | none =>
    exact .ite (.bind (relocates_directiveDefinition source description) fun _ ↦ .pure rfl) <|
      .ite (.bind (relocates_schemaDefinition source description) fun _ ↦ .pure rfl) <|
      .ite (.ite (relocates_extension source) .failing) .failing

theorem advances_definitionOf (keyword : String) (description : Option String) :
    (Parser.definitionOf source keyword description start).Advances := by
  intro s item s' h
  obtain ⟨ts, hts, -, hhead⟩ := (reads_definitionOf source keyword description start).sound s item s' h
  refine hts.left_lt ?_
  rintro rfl
  cases hhead

end Nodes

end Grammar

end TypeSystem
