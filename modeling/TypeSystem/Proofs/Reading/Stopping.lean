import TypeSystem.Proofs.Reading.Completion
import TypeSystem.Proofs.Reading.Legible
import TypeSystem.Proofs.Reading.Lookahead

/-!
# Where parsers stop

`Stops B V p` says where the parser `p` stops when it fails: it has passed tokens that are in `V`, and
fails because of the next one, whatever follows it. `V` holds the beginnings of the phrase that is read, so
what was passed could have gone on; and since the parser fails in the same way whatever follows, no way to
go on begins with the token that was found. `B` says what the error tells of the two.

Type references that are nested too deeply are left out: there a parser stops although the phrase could
have gone on.

As with reading there is one law for each way of putting parsers together. If the second of two parsers
stops, then the first has read a run of its phrase, and again it stops there because it has seen no more
than the token that comes next.
-/

namespace TypeSystem

/-! ### What errors tell -/

/-- The stream comes to the end of the input. -/
def TokenStream.Ends (s : TokenStream) : Prop := ∃ t ∈ s.pending, t.kind = .endOfInput

/-- What comes to the end does so behind what has been taken, as the end itself is never taken. -/
theorem TokenStream.Ends.of_taken {s s' : TokenStream} {ts : List Token} (h : s.Ends) (hts : Taken s ts s') :
    s'.Ends := by
  obtain ⟨t, ht, hkind⟩ := h
  rw [hts.pending_eq] at ht
  rcases List.mem_append.1 ht with hmem | hmem
  · exact absurd hkind (hts.kind_ne t hmem)
  · exact ⟨t, hmem, hkind⟩

/-- So there is always a token to come. -/
theorem TokenStream.Ends.exists_cons {s : TokenStream} (h : s.Ends) :
    ∃ rest, s.pending = s.current :: rest := by
  obtain ⟨t, ht, -⟩ := h
  obtain ⟨pending, lastEnd, left, rfl⟩ := s
  obtain ⟨t', rest, rfl⟩ := List.exists_cons_of_ne_nil (List.ne_nil_of_mem ht)
  exact ⟨rest, rfl⟩

/-- What is wrong may be so with a token that is neither an error nor the end of the input. -/
def SyntaxFault.IsOfLegible : SyntaxFault → Prop
  | .invalidToken | .unexpectedEnd _ | .emptyExtension _ _ => False
  | _ => True

/-- The error is about a token: it has the span of the token, an invalid token speaks for itself, and at the
end of the input the error says so. -/
structure ParseError.Blames (e : ParseError) (found : Token) : Prop where
  span_eq : e.span = found.span
  isInvalid_iff : e.fault = .invalidToken ↔ ¬ found.kind.IsValid
  of_invalid : ∀ message notes, found.kind = .invalid message notes → e.message = message ∧ e.notes = notes
  isEnd_iff : (∃ expected, e.fault = .unexpectedEnd expected) ↔ found.kind = .endOfInput
  ne_emptyExtension : ∀ kind requirement, e.fault ≠ .emptyExtension kind requirement

/-- What an error tells, given the place before the tokens passed, those tokens and the one that was
found. -/
def Blame : Type := ParseError → Position → List Token → Token → Prop

/-- The error is about the token that was found. -/
def Blame.token : Blame := fun e _ _ found ↦ e.Blames found

/-- What an error tells, it tells also if more tokens have been passed before. -/
def Blame.IsStable (B : Blame) : Prop :=
  ∀ e before front us found, B e (Token.lastStop before front) us found → B e before (front ++ us) found

theorem Blame.isStable_token : Blame.token.IsStable := fun _ _ _ _ _ ↦ id

namespace Parser

variable {α β σ : Type} {B : Blame} {V : List TokenKind → Prop} {K : Set TokenKind}

/-- The error of a token that does not fit is about that token. -/
theorem blames_misfit (found : Token) (expected : List String) : (misfit found expected).Blames found := by
  obtain ⟨kind, span⟩ := found
  cases kind with
  | invalid message notes =>
    exact ⟨rfl, by simp [misfit, TokenKind.IsValid, TokenKind.sort], by rintro _ _ ⟨⟩; exact ⟨rfl, rfl⟩,
      by simp [misfit], by simp [misfit]⟩
  | _ =>
    exact ⟨rfl, by simp [misfit, ParseError.plain, TokenKind.IsValid, TokenKind.sort], by rintro _ _ ⟨⟩,
      by simp [misfit, ParseError.plain], by simp [misfit, ParseError.plain]⟩

/-- A token that is neither an error nor the end of the input is blamed by any error of its own. -/
theorem blames_of_isLegible {e : ParseError} {found : Token} (hspan : e.span = found.span)
    (hlegible : found.kind.IsLegible) (hfault : e.fault.IsOfLegible) : e.Blames found where
  span_eq := hspan
  isInvalid_iff := by
    refine iff_of_false (fun h ↦ ?_) (not_not.2 hlegible.isValid)
    rwa [h] at hfault
  of_invalid message notes hkind := absurd (by rw [hkind]; rfl) hlegible.isValid
  isEnd_iff := by
    refine iff_of_false (fun ⟨expected, h⟩ ↦ ?_) hlegible.ne_endOfInput
    rwa [h] at hfault
  ne_emptyExtension kind requirement h := by rwa [h] at hfault

/-! ### Stopping -/

/-- The tokens that were passed, and the token because of which the parser fails. -/
def StopsAt (B : Blame) (V : List TokenKind → Prop) (p : Parser α) (s : TokenStream) (e : ParseError) :
    Prop :=
  ∃ ts found rest, s.pending = ts ++ found :: rest ∧ V (ts.map Token.kind) ∧ B e s.lastEnd ts found ∧
    ∀ rest', ∃ s', p (.after s.lastEnd (ts ++ found :: rest')) = (.error e, s')

/-- When the parser fails on the stream, other than because of the depth of a type reference, it stops at a
token, having passed tokens of `V`. -/
def StopsOn (B : Blame) (V : List TokenKind → Prop) (p : Parser α) (s : TokenStream) : Prop :=
  ∀ e s', s.Ends → p s = (.error e, s') → (∀ limit, e.fault ≠ .tooDeep limit) → StopsAt B V p s e

/-- The parser stops at a token on every stream on which it fails. -/
def Stops (B : Blame) (V : List TokenKind → Prop) (p : Parser α) : Prop :=
  ∀ s, StopsOn B V p s

/-- Whatever follows a token, the same token comes next. -/
theorem head?_append_cons {pending us rest : List Token} {found : Token}
    (h : pending = us ++ found :: rest) (rest' : List Token) :
    (us ++ found :: rest').head? = pending.head? := by
  rw [h, List.head?_append, List.head?_append]
  rfl

namespace StopsAt

variable {p : Parser α} {f : α → Parser β} {s s₁ : TokenStream} {e : ParseError}

/-- Less may be said of what was passed, and of the error. -/
theorem mono {B' : Blame} {V' : List TokenKind → Prop} (h : StopsAt B V p s e)
    (hV : ∀ ts : List Token, V (ts.map Token.kind) → V' (ts.map Token.kind))
    (hB : ∀ ts found, B e s.lastEnd ts found → B' e s.lastEnd ts found) : StopsAt B' V' p s e := by
  obtain ⟨ts, found, rest, hpending, hts, hblame, hagain⟩ := h
  exact ⟨ts, found, rest, hpending, hV ts hts, hB ts found hblame, hagain⟩

/-- Where the first parser stops, both do. -/
theorem first (h : StopsAt B V p s e) : StopsAt B V (p >>= f) s e := by
  obtain ⟨ts, found, rest, hpending, hts, hblame, hagain⟩ := h
  refine ⟨ts, found, rest, hpending, hts, hblame, fun rest' ↦ ?_⟩
  obtain ⟨s', hs'⟩ := hagain rest'
  exact ⟨s', bind_eq_error_iff.2 (.inl hs')⟩

/-- Where the second parser stops, both do, behind what the first has passed. -/
theorem second [p.LooksOneAhead] {a : α} {B' : Blame} {W : List TokenKind → Prop} (ha : p s = (.ok a, s₁))
    (h : StopsAt B' W (f a) s₁ e)
    (hV : ∀ front us, Passed s front s₁ → W us → V (front.map Token.kind ++ us))
    (hB : ∀ front us found, Passed s front s₁ → B' e s₁.lastEnd us found →
      B e s.lastEnd (front ++ us) found) : StopsAt B V (p >>= f) s e := by
  obtain ⟨us, found, rest, hpending, hus, hblame, hagain⟩ := h
  obtain ⟨front, hfront, hfirst⟩ := LooksOneAhead.exists_passed ha
  refine ⟨front ++ us, found, rest, ?_, ?_, hB front us found hfront hblame, fun rest' ↦ ?_⟩
  · rw [hfront.pending_eq, hpending, List.append_assoc]
  · rw [List.map_append]
    exact hV front _ hfront hus
  · obtain ⟨s', hs'⟩ := hagain rest'
    have hhead := head?_append_cons hpending rest'
    refine ⟨s', bind_eq_error_iff.2 (.inr ⟨a, _, ?_, hs'⟩)⟩
    rw [List.append_assoc]
    exact hfirst _ hhead

/-- A parser that goes by the next token stops there, if its error is about that token. -/
theorem current {p : Parser α} {s' : TokenStream} (look : Token → Except ParseError α)
    (h : ∀ s, (p s).1 = look s.current) (hends : s.Ends) (he : p s = (.error e, s'))
    (hlook : look s.current = .error e → e.Blames s.current) (hV : V []) : StopsAt .token V p s e := by
  have herror : look s.current = .error e := by rw [← h s, he]
  obtain ⟨rest, hpending⟩ := hends.exists_cons
  refine ⟨[], s.current, rest, hpending, hV, hlook herror, fun rest' ↦ ?_⟩
  exact ⟨_, Prod.ext ((h _).trans herror) rfl⟩

end StopsAt

namespace StopsOn

variable {p q : Parser α} {s : TokenStream}

/-- Nothing can go wrong after the first parser. -/
theorem andThen {f : α → Parser β} (hp : StopsOn B V p s) (hf : ∀ a, (f a).NeverFails) :
    StopsOn B V (p >>= f) s := by
  intro e s' hends he hdepth
  rcases bind_eq_error_iff.1 he with he | ⟨a, s₁, -, he⟩
  · exact (hp e s' hends he hdepth).first
  · exact absurd he (NeverFails.ne_error s₁ e s')

/-- A choice stops where the side that is taken stops. -/
theorem ite {condition : Prop} [Decidable condition] (hp : condition → StopsOn B V p s)
    (hq : ¬ condition → StopsOn B V q s) : StopsOn B V (if condition then p else q) s := by
  split
  · next h => exact hp h
  · next h => exact hq h

end StopsOn

/-- What the parser takes when it succeeds, and what it gives. -/
def Takes (p : Parser α) (R : List TokenKind → α → Prop) : Prop :=
  ∀ s a s', p s = (.ok a, s') → ∃ ts, Taken s ts s' ∧ R (ts.map Token.kind) a

/-- What reads a phrase takes runs of it. -/
theorem Takes.of_reads [HasSpans α] {p : Parser α} {P : Phrase α} (h : Reads K p P) :
    p.Takes fun ts a ↦ P ts (withoutSpans a) :=
  h.sound

namespace Stops

/-- Less may be said of what was passed. -/
theorem mono {p : Parser α} {V' : List TokenKind → Prop} (h : Stops B V p) (hV : ∀ ts, V ts → V' ts) :
    Stops B V' p :=
  fun s e s' hends he hdepth ↦ (h s e s' hends he hdepth).mono (fun _ ↦ hV _) fun _ _ ↦ id

/-- An error that tells this tells less. -/
theorem weaken {B' : Blame} {p : Parser α} (h : Stops B V p)
    (hB : ∀ e before ts found, B e before ts found → B' e before ts found) : Stops B' V p :=
  fun s e s' hends he hdepth ↦ (h s e s' hends he hdepth).mono (fun _ ↦ id) (hB e _)

/-- A parser that does not fail does not stop. -/
theorem succeeding {p : Parser α} [p.NeverFails] : Stops B V p :=
  fun s e s' _ he _ ↦ absurd he (NeverFails.ne_error s e s')

/-- A parser that goes by the next token stops there. -/
theorem of_current {p : Parser α} (look : Token → Except ParseError α) (h : ∀ s, (p s).1 = look s.current)
    (hlook : ∀ t e, look t = .error e → e.Blames t) (hV : V []) : Stops .token V p :=
  fun s e _ hends he _ ↦ .current look h hends he (hlook s.current e) hV

/-- One parser, then another: whatever stops stops both. -/
theorem bind_of {p : Parser α} {f : α → Parser β} [p.LooksOneAhead] {R : List TokenKind → α → Prop}
    {B' : α → Blame} {W : α → List TokenKind → Prop} (hR : p.Takes R) (hp : Stops B V p)
    (hf : ∀ a, Stops (B' a) (W a) (f a)) (hV : ∀ ts a us, R ts a → W a us → V (ts ++ us))
    (hB : ∀ a e before front us found, R (front.map Token.kind) a →
      B' a e (Token.lastStop before front) us found → B e before (front ++ us) found) :
    Stops B V (p >>= f) := by
  intro s e s' hends he hdepth
  rcases bind_eq_error_iff.1 he with he | ⟨a, s₁, ha, he⟩
  · exact (hp s e s' hends he hdepth).first
  · obtain ⟨ts, htaken, hrun⟩ := hR s a s₁ ha
    have hstop := hf a s₁ e s' (hends.of_taken htaken) he hdepth
    refine hstop.second ha (fun front us hfront ↦ ?_) fun front us found hfront ↦ ?_
    · rw [hfront.eq_of_taken htaken]
      exact hV _ a us hrun
    · rw [hfront.lastEnd_eq]
      rw [← hfront.eq_of_taken htaken] at hrun
      exact hB a e _ front us found hrun

/-- Nothing can go wrong after the first parser. -/
theorem andThen {p : Parser α} {f : α → Parser β} (hp : Stops B V p) [hf : ∀ a, (f a).NeverFails] :
    Stops B V (p >>= f) :=
  fun s ↦ (hp s).andThen hf

/-- A look at the next token, and then a parser that may depend on it. -/
theorem look {p : Parser α} {f : α → Parser β} [p.LooksOneAhead] (hp : ∀ s, ∃ a, p s = (.ok a, s))
    (hf : ∀ s a, p s = (.ok a, s) → StopsOn B V (f a) s) : Stops B V (p >>= f) := by
  intro s e s' hends he hdepth
  obtain ⟨a, ha⟩ := hp s
  rcases bind_eq_error_iff.1 he with he | ⟨a', s₁, ha', he⟩
  · rw [ha] at he
    cases he
  rw [ha] at ha'
  cases ha'
  refine (hf s a ha e s' hends he hdepth).second ha (fun front us hfront hus ↦ ?_)
    fun front us found hfront ↦ ?_
  · rwa [hfront.eq_nil]
  · rw [hfront.eq_nil]
    exact id

/-- One parser, then another, with errors about tokens only. -/
theorem bind_token {p : Parser α} {f : α → Parser β} [p.LooksOneAhead] {R : List TokenKind → α → Prop}
    {W : α → List TokenKind → Prop} (hR : p.Takes R) (hp : Stops .token V p)
    (hf : ∀ a, Stops .token (W a) (f a)) (hV : ∀ ts a us, R ts a → W a us → V (ts ++ us)) :
    Stops .token V (p >>= f) :=
  bind_of hR hp hf hV fun _ _ _ _ _ _ _ ↦ id

/-- Asking where the next token starts never stops. -/
theorem here {f : Position → Parser α} (hf : ∀ start, Stops B V (f start)) : Stops B V (Parser.here >>= f) :=
  look (fun _ ↦ ⟨_, rfl⟩) fun s start _ ↦ hf start s

section Phrases

variable {p : Parser α} {f : α → Parser β} {P : Phrase α} {Q : α → Phrase β}

/-- A parser that reads a phrase, and then another that reads another. -/
theorem bind [HasSpans α] [p.LooksOneAhead] [∀ a, (Q a).Possible] (hread : Reads K p P)
    (hp : Stops .token P.Viable p) (hf : ∀ a, Stops .token (Q (withoutSpans a)).Viable (f a)) :
    Stops .token (P >>= Q).Viable (p >>= f) :=
  bind_token (.of_reads hread) (hp.mono fun _ ↦ .first) hf fun _ _ _ ↦ .second

/-- A parser after which nothing can go wrong. -/
theorem last [∀ a, (Q a).Possible] (hp : Stops B P.Viable p) [∀ a, (f a).NeverFails] :
    Stops B (P >>= Q).Viable (p >>= f) :=
  (hp.mono fun _ ↦ .first).andThen

/-- A node is the same as an item. -/
theorem wrapped (wrap : α → β) (h : Stops B P.Viable p) :
    Stops B (do return wrap (← P) : Phrase β).Viable (do return wrap (← p)) :=
  h.last

end Phrases

end Stops

/-! ### Marks, words and names -/

/-- What views a token takes it. -/
theorem Views.takes {p : Parser Token} {k : TokenKind} {expected : List String}
    (hp : p.Views (Token.ofKind? k) expected) : p.Takes fun ts _ ↦ ts = [k] := by
  intro s t s' h
  obtain ⟨hkind, -⟩ := Token.ofKind?_eq_some_iff.1 (hp.eq_ok_iff.1 h).1
  exact ⟨[s.current], hp.taken h, by rw [List.map_singleton, hkind]⟩

/-- A parser of one token stops at a token in which it sees nothing. -/
theorem Views.stops {p : Parser α} {view : Token → Option α} {expected : List String}
    (hp : p.Views view expected) (hV : V []) : Stops .token V p := by
  refine .of_current (fun t ↦ (view t).elim (.error (misfit t expected)) .ok)
    (fun s ↦ congrArg Prod.fst (hp.eq s)) (fun t e h ↦ ?_) hV
  cases hview : view t with
  | some a =>
    rw [hview] at h
    cases h
  | none =>
    rw [hview] at h
    cases h
    exact blames_misfit t expected

theorem Accepts.takes {p : Parser Bool} {k : TokenKind} (hp : p.Accepts k) (hk : k ≠ .endOfInput) :
    p.Takes fun ts b ↦ if b = true then ts = [k] else ts = [] := by
  intro s b s' h
  rw [hp s] at h
  split at h
  · next hkind =>
    cases h
    exact ⟨[s.current], .advance (hkind ▸ hk), by rw [List.map_singleton, hkind]; rfl⟩
  · cases h
    exact ⟨[], .refl s, rfl⟩

theorem Accepts.neverFails {p : Parser Bool} {k : TokenKind} (hp : p.Accepts k) : p.NeverFails := by
  refine .of_ok fun s ↦ ?_
  rw [hp s]
  split <;> exact ⟨_, _, rfl⟩

theorem stops_unexpected (expected : List String) (hV : V []) :
    Stops .token V (unexpected (α := α) expected) := by
  refine .of_current (fun t ↦ .error (misfit t expected)) (fun _ ↦ rfl) ?_ hV
  rintro t _ ⟨⟩
  exact blames_misfit t expected

namespace Stops

section Phrases

variable {q : Parser β} {Q : Phrase β}

/-- A token of a given kind, and then another phrase. -/
theorem take {p : Parser Token} [p.LooksOneAhead] {k : TokenKind} {expected : List String} [Q.Possible]
    (hp : p.Views (Token.ofKind? k) expected) (hq : Stops .token Q.Viable q) :
    Stops .token ((fun ts _ ↦ ts = [k] : Phrase Unit) >>= fun _ ↦ Q).Viable (p >>= fun _ ↦ q) :=
  bind_token hp.takes (hp.stops (.first ⟨[k], (), rfl⟩)) (fun _ ↦ hq) fun _ _ _ hts ↦ .behind hts

/-- A phrase behind a mark stops at another token, or where the phrase does. -/
theorem mark {p : Punctuator} [Q.Possible] (hq : Stops .token Q.Viable q) :
    Stops .token (Phrase.mark p >>= fun _ ↦ Q).Viable (requireMark p >>= fun _ ↦ q) :=
  take (views_requireMark p) hq

/-- A phrase behind a keyword stops at another token, or where the phrase does. -/
theorem keyword {text : String} [Q.Possible] (hq : Stops .token Q.Viable q) :
    Stops .token (Phrase.keyword text >>= fun _ ↦ Q).Viable (requireKeyword text >>= fun _ ↦ q) :=
  take (views_requireKeyword text) hq

theorem name (expected : String) (hV : V []) : Stops .token V (Parser.name expected) :=
  ((views_requireName expected).stops hV).andThen

/-- A name, which may be one that does not fit. -/
theorem requireName {expected : String} {f : String × Span → Parser β} (good : String → Prop)
    (W : String → List TokenKind → Prop) (hnil : V [])
    (hgood : ∀ text span, good text → Stops .token (W text) (f (text, span)))
    (hV : ∀ text us, good text → W text us → V (.name text :: us))
    (hbad : ∀ text span, ¬ good text →
      ∃ e : ParseError, (∀ s, f (text, span) s = (.error e, s)) ∧ e.Blames ⟨.name text, span⟩) :
    Stops .token V (Parser.requireName expected >>= f) := by
  intro s e s' hends he hdepth
  rcases bind_eq_error_iff.1 he with he | ⟨⟨text, span⟩, s₁, ha, he⟩
  · exact ((views_requireName expected).stops hnil s e s' hends he hdepth).first
  have htaken := (views_requireName expected).taken ha
  obtain ⟨hcurrent, rfl⟩ := requireName_eq_ok_iff.1 ha
  by_cases hfits : good text
  · refine (hgood text span hfits _ e s' (hends.of_taken htaken) he hdepth).second ha
      (fun front us hfront hus ↦ ?_) fun _ _ _ _ ↦ id
    rw [hfront.eq_of_taken htaken, List.map_singleton, hcurrent]
    exact hV text us hfits hus
  · -- the name itself is what does not fit, and it has been taken already
    obtain ⟨e', hfails, hblames⟩ := hbad text span hfits
    rw [hfails] at he
    cases he
    obtain ⟨rest, hpending⟩ := hends.exists_cons
    rw [hcurrent] at hpending
    refine ⟨[], _, rest, hpending, hnil, hblames, fun rest' ↦ ⟨.after span.stop rest', ?_⟩⟩
    exact bind_eq_error_iff.2 (.inr ⟨(text, span), .after span.stop rest', rfl, hfails _⟩)

/-! ### Choices -/

/-- A choice stops where either side does. -/
theorem ite {condition : Prop} [Decidable condition] {p q : Parser α} (hp : condition → Stops B V p)
    (hq : ¬ condition → Stops B V q) : Stops B V (if condition then p else q) :=
  fun s ↦ .ite (fun h ↦ hp h s) fun h ↦ hq h s

/-- A parser that looks whether a token of a sort comes next. -/
theorem peekIs {sort : TokenSort} {p q : Parser α} (hp : Stops B V p) (hq : Stops B V q) :
    Stops B V (Parser.peekIs sort >>= fun b ↦ if b = true then p else q) :=
  look (fun _ ↦ ⟨_, rfl⟩) fun s _ _ ↦ .ite (fun _ ↦ hp s) fun _ ↦ hq s

/-- A parser that goes one way after a token and another way without it. -/
theorem branch {p : Parser Bool} [p.LooksOneAhead] {k : TokenKind} (hk : k ≠ .endOfInput)
    (hp : p.Accepts k) {q r : Parser α} {Q R : Phrase α} (hq : Stops .token Q.Viable q)
    (hr : Stops .token R.Viable r) :
    Stops .token (((fun ts _ ↦ ts = [k] : Phrase Unit) >>= fun _ ↦ Q) <|> R : Phrase α).Viable
      (p >>= fun b ↦ if b = true then q else r) := by
  have hways : ∀ b : Bool, Stops .token (if b = true then Q.Viable else R.Viable)
      (if b = true then q else r) := by
    intro b
    cases b
    · exact hr
    · exact hq
  have := hp.neverFails
  refine bind_token (hp.takes hk) .succeeding hways fun ts b us hts hus ↦ ?_
  cases b with
  | true =>
    exact .left (.behind hts hus)
  | false =>
    have hts : ts = [] := hts
    rw [hts]
    exact .right hus

end Phrases

/-! ### Loops -/

section Loops

variable {K₁ K₂ : Set TokenKind}

/-- A loop stops in one of its rounds. After the rounds before it the tokens that begin the round begin what
is left of the loop, which may always end. -/
theorem iterate [HasSpans σ] {step : σ → Parser (Option σ)} [∀ state, (step state).LooksOneAhead]
    {More : σ → Phrase σ} {E : Phrase Unit} [E.Possible]
    (hstep : ∀ state, ReadsOrEnds K₁ K₂ (step state) (More (withoutSpans state)) E)
    (hstops : ∀ state, Stops B ((More (withoutSpans state)).ViableRound E) (step state))
    (hB : B.IsStable) (state : σ) :
    Stops B (Phrase.Viable (Phrase.Loop More E (withoutSpans state))) (Parser.iterate step state) := by
  intro s e s' hends he hdepth
  fun_induction Parser.iterate step state s with
  | case1 state s e₁ s₁ heq =>
    cases he
    obtain ⟨ts, found, rest, hpending, hts, hblame, hagain⟩ := hstops state s e s' hends heq hdepth
    refine ⟨ts, found, rest, hpending, ?_, hblame, fun rest' ↦ ?_⟩
    · rcases hts with ⟨more, y, hy⟩ | ⟨more, _, hmore⟩
      · -- the round can be completed, and then the loop can end
        obtain ⟨last, _, hlast⟩ := (inferInstance : E.Possible).exists_run
        refine ⟨more ++ last, y, ?_⟩
        rw [← List.append_assoc]
        exact .more hy (.last hlast)
      · exact ⟨more, _, .last hmore⟩
    · obtain ⟨s₂, hs₂⟩ := hagain rest'
      exact ⟨s₂, by rw [Parser.iterate, hs₂]⟩
  | case2 state s s₁ heq => cases he
  | case3 state s state₁ s₁ heq hleft ih =>
    obtain ⟨front, htaken, hround⟩ := (hstep state).sound s _ s₁ heq
    obtain ⟨us, found, rest, hpending, hus, hblame, hagain⟩ := ih (hends.of_taken htaken) he
    obtain ⟨front', hpassed, hfirst⟩ := LooksOneAhead.exists_passed heq
    obtain rfl := hpassed.eq_of_taken htaken
    refine ⟨front' ++ us, found, rest, ?_, ?_, ?_, fun rest' ↦ ?_⟩
    · rw [hpassed.pending_eq, hpending, List.append_assoc]
    · obtain ⟨more, y, hy⟩ := hus
      refine ⟨more, y, ?_⟩
      rw [List.map_append, List.append_assoc]
      exact .more hround hy
    · rw [hpassed.lastEnd_eq] at hblame
      exact hB e _ front' us found hblame
    · obtain ⟨s₂, hs₂⟩ := hagain rest'
      have hhead := head?_append_cons hpending rest'
      have hleft' := TokenStream.left_after_lt (hpassed.left_lt_iff.1 hleft) s₁.lastEnd s.lastEnd
        (us ++ found :: rest')
      refine ⟨s₂, ?_⟩
      rw [List.append_assoc, Parser.iterate, hfirst _ hhead]
      simp only [hleft', if_true, hs₂]
  | case4 state s state₁ s₁ heq hleft => cases he

variable [HasSpans α] {item : Parser (Option α)} [item.LooksOneAhead] {P : Phrase α} {E : Phrase Unit}

/-- The loop that lists its items stops in one of them, or where it could end. -/
theorem many_of [E.Possible] (hitem : ReadsOrEnds K₁ K₂ item P E) (hstops : Stops B (P.ViableRound E) item)
    (hB : B.IsStable) :
    Stops B (do let as ← Phrase.many P; E; return as : Phrase (List α)).Viable (Parser.many item) := by
  have hloop : Stops B (Phrase.Viable (Phrase.Loop P.inFront E (withoutSpans [])))
      (Parser.iterate (fun found ↦ do return (← item).map (· :: found)) []) := by
    refine iterate (readsOrEnds_cons hitem) (fun found ↦ ?_) hB []
    refine hstops.andThen.mono fun ts hts ↦ hts.imp_left ?_
    rintro ⟨more, a, ha⟩
    exact ⟨more, _, a, ha, rfl⟩
  refine (hloop.mono fun ts ⟨more, r, h⟩ ↦ ?_).andThen
  obtain ⟨as, front, back, hts, has, hE, -⟩ := Phrase.loop_cons_iff.1 h
  exact ⟨more, as, as, front, back, hts, has, (), back, [], (List.append_nil _).symm, hE, rfl, rfl⟩

/-- A loop whose end takes nothing. -/
theorem many (hitem : ReadsOrEnds K₁ K₂ item P (pure ())) (hstops : Stops B (P.ViableRound (pure ())) item)
    (hB : B.IsStable) : Stops B (Phrase.many P).Viable (Parser.many item) := by
  refine (many_of hitem hstops hB).mono fun ts ⟨more, as, h⟩ ↦ ?_
  obtain ⟨as', front, _, hts, has, _, _, _, rfl, ⟨rfl, -⟩, rfl, rfl⟩ := h
  rw [List.append_nil, List.append_nil] at hts
  exact ⟨more, as, hts ▸ has⟩

end Loops

/-! ### Items that a mark ends or begins -/

section Marks

variable {p : Punctuator} {item : Parser α} {P : Phrase α}

/-- Up to a mark an item stops where it does; the mark itself stops nothing. -/
theorem unlessMark (h : Stops .token V item) : Stops .token V (Parser.unlessMark p item) := by
  have hways : ∀ b : Bool, Stops .token (fun us ↦ b = false ∧ V us)
      (if b = true then (Pure.pure none : Parser (Option α)) else do return some (← item)) := by
    intro b
    cases b
    · exact h.andThen.mono fun us hus ↦ ⟨rfl, hus⟩
    · exact succeeding (p := Pure.pure none)
  refine bind_token ((accepts_acceptMark p).takes (by simp)) .succeeding hways fun ts b us hts hus ↦ ?_
  obtain ⟨rfl, hus⟩ := hus
  have hts : ts = [] := hts
  rwa [hts]

/-- Behind a mark an item stops where it does; without the mark nothing stops. -/
theorem afterMark (h : Stops .token P.Viable item) :
    Stops .token (Phrase.afterMark p P).Viable (Parser.afterMark p item) := by
  have hsome : Stops .token (do return some (← P) : Phrase (Option α)).Viable (do return some (← item)) :=
    h.last
  exact branch (by simp) (accepts_acceptMark p) hsome .succeeding

/-- Items with a mark in front, as rounds of a loop. -/
theorem afterMark_round (h : Stops .token P.Viable item) :
    Stops .token ((do Phrase.mark p; P : Phrase α).ViableRound (pure ())) (Parser.afterMark p item) := by
  refine (afterMark h).mono fun ts ⟨more, r, hr⟩ ↦ ?_
  rcases hr with hr | ⟨hts, -⟩
  · obtain ⟨back, hback, hsome⟩ := Phrase.mark_bind_iff.1 hr
    obtain ⟨a, ha, -⟩ := Phrase.bind_return_iff.1 hsome
    exact .inl ⟨more, a, Phrase.mark_bind_iff.2 ⟨back, hback, ha⟩⟩
  · rw [(List.append_eq_nil_iff.1 hts).1]
    exact .inr .nil

variable [HasSpans α] [item.LooksOneAhead]

/-- Items with separators stop where the next one does. -/
theorem separated [P.Possible] (hread : Reads ∅ item P) (h : Stops .token P.Viable item) :
    Stops .token (Phrase.separated p P).Viable (Parser.separated p item) := by
  refine bind (.present (by simp) (accepts_acceptMark p)) .succeeding fun _ ↦ bind hread h fun first ↦ ?_
  exact (many (readsOrEnds_afterMark hread) (afterMark_round (p := p) h) Blame.isStable_token).last

end Marks

/-! ### Brackets -/

section Brackets

variable {brackets : Brackets} {construct : String}

/-- Nothing in brackets is an error at the closing one. -/
theorem refuseEmpty_eq (close : Punctuator) (s : TokenStream) : (Parser.refuseEmpty close construct s).1 =
    if s.current.kind = .punctuator close then
      .error (.plain (construct ++ " must not be empty") s.current.span (.emptyConstruct construct))
    else .ok () := by
  show ((if decide (s.current.kind.sort = .punctuator close) = true then (do
    let found ← next
    fail (.plain (construct ++ " must not be empty") found.span (.emptyConstruct construct)))
    else Pure.pure () : Parser Unit) s).1 = _
  by_cases h : s.current.kind = .punctuator close
  · rw [if_pos h, if_pos (by simp [h, TokenKind.sort])]
    rfl
  · rw [if_neg h, if_neg (by simpa using mt TokenKind.sort_eq_punctuator_iff.1 h)]
    rfl

theorem refuseEmpty {close : Punctuator} (hV : V []) :
    Stops .token V (Parser.refuseEmpty close construct) := by
  refine .of_current (fun t ↦ if t.kind = .punctuator close then
      .error (.plain (construct ++ " must not be empty") t.span (.emptyConstruct construct))
    else .ok ()) (refuseEmpty_eq close) (fun t e h ↦ ?_) hV
  split at h
  · next hkind =>
    cases h
    have hlegible : t.kind.IsLegible := hkind ▸ .punctuator close
    exact blames_of_isLegible rfl hlegible trivial
  · cases h

/-- What stands between brackets. The closing bracket must not come first, and nothing that has been passed
behind the opening one begins with it. -/
theorem enclosed [HasSpans α] {inside : Parser α} {Q : Phrase α} (h : Stops .token Q.Viable inside)
    (hQ : ∃ ts x, Q ts x ∧ ts.head? ≠ some (.punctuator brackets.closing)) :
    Stops .token (do
      Phrase.mark brackets.opening
      fun ts x ↦ Q ts x ∧ ts.head? ≠ some (.punctuator brackets.closing) : Phrase α).Viable
      (Parser.enclosed brackets construct inside) := by
  let Q' : Phrase α := fun ts x ↦ Q ts x ∧ ts.head? ≠ some (.punctuator brackets.closing)
  have : Q'.Possible := ⟨hQ⟩
  refine mark fun s e s' hends hfails hdepth ↦ ?_
  rcases bind_eq_error_iff.1 hfails with he | ⟨_, s₁, hrefuse, he⟩
  · exact (refuseEmpty .nil s e s' hends he hdepth).first
  -- nothing has been taken, and something else comes next
  have hnone : s₁ = s ∧ s.current.kind ≠ .punctuator brackets.closing := by
    obtain ⟨b, s₂, hb, hrefuse⟩ := bind_eq_ok_iff.1 hrefuse
    cases hb
    split at hrefuse
    · cases hrefuse
    · next hpeek =>
      cases hrefuse
      exact ⟨rfl, fun hkind ↦ hpeek (by simp [hkind, TokenKind.sort])⟩
  obtain ⟨rfl, hkind⟩ := hnone
  obtain ⟨ts, found, rest, hpending, ⟨more, x, hx⟩, hblame, hagain⟩ := h s₁ e s' hends he hdepth
  have hviable : Q'.Viable (ts.map Token.kind) := by
    cases ts with
    | nil => exact .nil
    | cons t ts =>
      refine ⟨more, x, hx, fun hhead ↦ hkind ?_⟩
      rw [TokenStream.current, hpending]
      exact Option.some.inj hhead
  have hstop : StopsAt .token Q'.Viable inside s₁ e :=
    ⟨ts, found, rest, hpending, hviable, hblame, hagain⟩
  refine hstop.second hrefuse (fun front us hfront hus ↦ ?_) fun _ _ _ _ ↦ id
  rwa [hfront.eq_nil]

/-- A block stops at a token that is neither its bracket nor part of an item. -/
theorem block [HasSpans α] {item : Parser α} {P : Phrase α} [item.LooksOneAhead] [P.Possible]
    (hread : Reads K item P) (hclose : P.Shields {.punctuator brackets.closing} ∅)
    (h : Stops .token P.Viable item) :
    Stops .token (Phrase.block brackets P).Viable (Parser.block brackets construct item) := by
  have hround : Stops .token (P.ViableRound (Phrase.mark brackets.closing))
      (Parser.unlessMark brackets.closing item) :=
    unlessMark (h.mono fun _ ↦ .inl)
  have hmany := many_of (readsOrEnds_unlessMark hread hclose) hround Blame.isStable_token
  have hsome : ∃ ts as, (do
      let as ← Phrase.many P
      Phrase.mark brackets.closing
      return as : Phrase (List α)) ts as ∧ ts.head? ≠ some (.punctuator brackets.closing) := by
    obtain ⟨ts, as, has⟩ : Phrase.Possible (do
      let as ← Phrase.several P
      Phrase.mark brackets.closing
      return as) := inferInstance
    exact ⟨ts, as, (Phrase.several_of_many hclose).2 has⟩
  refine (enclosed hmany hsome).mono fun ts hts ↦ hts.congr fun us x ↦ ?_
  simp only [Phrase.several_of_many hclose]
  rfl

theorem optionalBlock [HasSpans α] {item : Parser α} {P : Phrase α}
    (h : Stops .token (Phrase.block brackets P).Viable (Parser.block brackets construct item)) :
    Stops .token (Phrase.orEmpty (Phrase.block brackets P)).Viable
      (Parser.optionalBlock brackets construct item) :=
  peekIs (h.mono fun _ ↦ .left) .succeeding

end Brackets

end Stops

end Parser

end TypeSystem
