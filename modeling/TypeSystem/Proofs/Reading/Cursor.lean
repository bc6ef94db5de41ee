import TypeSystem.Proofs.Token.Parts
import TypeSystem.Reading.Buffer

/-!
# Questions about a cursor

What a buffer answers, and what parsers see, is what a cursor in the list of tokens without comments would
say (`TokenBuffer.answers_eq_cursorAnswers`). Each question is answered by the token at the cursor alone
(`Question.reply`), and either moves the cursor by one or leaves it where it is (`Question.passes`). Behind
the last token there are ends of the input, as many as are asked for.

A buffer and a stream go together (`TokenBuffer.Shows`) if what is held back is the next token of the stream
and what is not drawn yet is what follows it, comments left out. Steps of the two keep this, and agree in
what they give (`TokenBuffer.Follows`). The stream, in turn, is what is left of the list at the cursor
(`TokenStream.startingAt`).
-/

namespace TypeSystem

/-- The tokens that are no comments. -/
abbrev Token.withoutComments (tokens : List Token) : List Token := tokens.filter fun t ↦ !t.isComment

/-! ### The cursor -/

namespace Question

/-- What the question is answered where `t` is the current token. -/
def reply (t : Token) : Question → Except ParseError Answer
  | next | peek => .ok (.token t)
  | peekIs sort => .ok (.truth (t.kind.sort = sort))
  | peekIsKeyword keyword | acceptKeyword keyword => .ok (.truth (t.isKeyword keyword))
  | atEnd => .ok (.truth (t.kind = .endOfInput))
  | accept sorts => .ok (.token? (if t.kind.sort ∈ sorts then some t else none))
  | require sorts expected =>
    if t.kind.sort ∈ sorts then .ok (.token t) else .error (Parser.misfit t [expected])
  | requireKeyword keyword =>
    if t.isKeyword keyword then .ok (.token t) else .error (Parser.misfit t [Text.quoted keyword])
  | requireName expected =>
    match t.kind with
    | .name text => .ok (.name text t.span)
    | _ => .error (Parser.misfit t [expected])
  | description? =>
    match t.kind with
    | .string text | .blockString text => .ok (.text? (some text))
    | _ => .ok (.text? none)

/-- Whether the cursor moves on where `t` is the current token. -/
def passes (t : Token) : Question → Bool
  | peek | peekIs _ | peekIsKeyword _ | atEnd => false
  | accept sorts => t.kind.sort ∈ sorts
  | acceptKeyword keyword => t.isKeyword keyword
  | description? => t.kind.sort = .string ∨ t.kind.sort = .blockString
  | next | require _ _ | requireKeyword _ | requireName _ => true

end Question

namespace Token

/-- The token at the cursor: behind the last one, an end of the input where that ended. -/
def atCursor (ts : List Token) (i : ℕ) : Token :=
  ts[i]?.getD (.endAt (lastStop .origin ts))

/-- What questions are answered, one after another, by a cursor in a list of tokens, and where the last
token that it has passed ends then. -/
def cursorAnswers (ts : List Token) (i : ℕ) : List Question → List (Except ParseError Answer × Position)
  | [] => []
  | question :: questions =>
    let j := if question.passes (atCursor ts i) then i + 1 else i
    (question.reply (atCursor ts i), lastStop .origin (ts.take j)) :: cursorAnswers ts j questions

end Token

/-! ### Streams -/

theorem TokenKind.sort_eq_endOfInput_iff {kind : TokenKind} : kind.sort = .endOfInput ↔ kind = .endOfInput := by
  cases kind <;> simp [sort]

namespace Parser

/-- The parser of a single step. -/
def ask : Question → Parser Answer
  | .next => do return .token (← next)
  | .peek => do return .token (← peek)
  | .peekIs sort => do return .truth (← peekIs sort)
  | .peekIsKeyword keyword => do return .truth (← peekIsKeyword keyword)
  | .atEnd => do return .truth (← atEnd)
  | .accept sorts => do return .token? (← accept sorts)
  | .require sorts expected => do return .token (← require sorts expected)
  | .acceptKeyword keyword => do return .truth (← acceptKeyword keyword)
  | .requireKeyword keyword => do return .token (← requireKeyword keyword)
  | .requireName expected => do
    let (text, span) ← requireName expected
    return .name text span
  | .description? => do return .text? (← description?)

/-- A token is accepted for its sort, and only then is it taken. -/
theorem accept_eq (sorts : List TokenSort) (s : TokenStream) :
    accept sorts s = if s.current.kind.sort ∈ sorts then (.ok (some s.current), s.advance) else (.ok none, s) := by
  simp [accept]

/-- A step answers by the next token, and takes it or leaves it. -/
theorem ask_eq (question : Question) (s : TokenStream) :
    ask question s = (question.reply s.current, if question.passes s.current then s.advance else s) := by
  cases question with
  | next | peek | peekIs sort | peekIsKeyword keyword => rfl
  | atEnd =>
    show ((.ok (.truth (s.current.kind.sort = .endOfInput)), s) : Except ParseError Answer × TokenStream) = _
    simp only [TokenKind.sort_eq_endOfInput_iff]
    rfl
  | accept sorts =>
    show Parser.bind (accept sorts) _ s = _
    rw [Parser.bind, accept_eq]
    by_cases h : s.current.kind.sort ∈ sorts <;> simp [h, Question.reply, Question.passes] <;> rfl
  | require sorts expected =>
    -- a token that is refused is not taken
    show Parser.bind (Parser.bind (accept sorts) _) _ s = _
    rw [Parser.bind, Parser.bind, accept_eq]
    by_cases h : s.current.kind.sort ∈ sorts <;> simp [h, Question.reply, Question.passes] <;> rfl
  | acceptKeyword keyword =>
    show Parser.bind (acceptKeyword keyword) _ s = _
    rw [Parser.bind, acceptKeyword]
    by_cases h : s.current.isKeyword keyword <;> simp [h, Question.reply, Question.passes] <;> rfl
  | requireKeyword keyword =>
    show Parser.bind (requireKeyword keyword) _ s = _
    rw [Parser.bind, requireKeyword]
    by_cases h : s.current.isKeyword keyword <;> simp [h, Question.reply, Question.passes] <;> rfl
  | requireName expected =>
    unfold ask requireName
    simp only [bind, Parser.bind, next, Question.reply]
    cases s.current.kind <;> rfl
  | description? =>
    show Parser.bind (Parser.bind (accept [.string, .blockString]) _) _ s = _
    rw [Parser.bind, Parser.bind, accept_eq, Question.reply, Question.passes]
    cases h : s.current.kind <;> simp [h, TokenKind.sort] <;> rfl

end Parser

namespace TokenStream

/-- What questions about a stream are answered, one after another, and where the last token taken ended
then. -/
def answers (s : TokenStream) : List Question → List (Except ParseError Answer × Position)
  | [] => []
  | question :: questions =>
    let (answer, s') := Parser.ask question s
    (answer, s'.lastEnd) :: s'.answers questions

/-- What is left of a list of tokens at a cursor. -/
def startingAt (ts : List Token) (i : ℕ) : TokenStream := after (Token.lastStop .origin (ts.take i)) (ts.drop i)

/-- The stream that starts at a number shows the token with that number. -/
theorem current_startingAt (ts : List Token) (i : ℕ) : (startingAt ts i).current = Token.atCursor ts i := by
  rw [current, Token.atCursor, List.headD_eq_head?_getD]
  show (ts.drop i).head?.getD (.endAt (Token.lastStop .origin (ts.take i))) = _
  rw [List.head?_drop]
  cases h : ts[i]? with
  | some t => rfl
  | none => rw [List.take_of_length_le (List.getElem?_eq_none_iff.1 h)]

/-- Taking it leads to the next number. -/
theorem advance_startingAt (ts : List Token) (i : ℕ) : (startingAt ts i).advance = startingAt ts (i + 1) := by
  rw [startingAt, startingAt, ← List.tail_drop]
  cases h : ts.drop i with
  | nil =>
    have hlength := List.drop_eq_nil_iff.1 h
    rw [List.take_of_length_le hlength, List.take_of_length_le (by omega)]
    rfl
  | cons t others =>
    have hget : ts[i]? = some t := by rw [← List.head?_drop, h]; rfl
    rw [List.take_add_one, hget, Token.lastStop_append]
    rfl

/-- A stream answers as a cursor does, by induction on the questions. -/
theorem answers_startingAt (ts : List Token) (i : ℕ) (questions : List Question) :
    (startingAt ts i).answers questions = Token.cursorAnswers ts i questions := by
  induction questions generalizing i with
  | nil => rfl
  | cons question questions ih =>
    rw [answers, Parser.ask_eq, Token.cursorAnswers, current_startingAt]
    dsimp only
    split
    · rw [advance_startingAt, ih]
      rfl
    · rw [ih]
      rfl

end TokenStream

/-! ### Buffers -/

namespace TokenBuffer

variable {α β : Type} {b : TokenBuffer} {s : TokenStream}

theorem bind_eq (p : Step α) (k : α → Step β) (b : TokenBuffer) :
    (p >>= k) b = match p b with
      | (.ok a, b') => k a b'
      | (.error e, b') => (.error e, b') := by
  simp only [bind, ExceptT.bind, ExceptT.mk, StateT.bind]
  cases p b with
  | mk r b' => cases r <;> rfl

/-- The buffer has the tokens of the stream to come, the next one perhaps held back. -/
structure Shows (b : TokenBuffer) (s : TokenStream) : Prop where
  lastEnd_eq : b.lastEnd = s.lastEnd
  tokens_eq : b.slot = none ∧ Token.withoutComments b.undrawn = s.pending ∨
    b.slot = some s.current ∧ Token.withoutComments b.undrawn = s.pending.tail

/-- A buffer with nothing drawn shows all tokens. -/
theorem shows_ofTokens (tokens : List Token) : (ofTokens tokens).Shows (.ofTokens tokens) :=
  ⟨rfl, .inl ⟨rfl, rfl⟩⟩

/-- Comments are dropped until a token is found, or the list has run out. -/
theorem draw_eq (e : Position) (tokens : List Token) :
    (draw e tokens).1 = (Token.withoutComments tokens).headD (.endAt e) ∧
      Token.withoutComments (draw e tokens).2 = (Token.withoutComments tokens).tail := by
  induction tokens with
  | nil => exact ⟨rfl, rfl⟩
  | cons t ts ih =>
    unfold draw
    by_cases h : t.isComment
    · rw [if_pos h, Token.withoutComments, List.filter_cons_of_neg (by simp [h])]
      exact ih
    · rw [if_neg h, Token.withoutComments, List.filter_cons_of_pos (by simp [h])]
      exact ⟨rfl, rfl⟩

/-- Where nothing is held back, the token drawn is the next one of the stream. -/
theorem Shows.draw_eq (h : Shows b s) (hslot : b.slot = none) :
    (draw b.lastEnd b.undrawn).1 = s.current ∧
      Token.withoutComments (draw b.lastEnd b.undrawn).2 = s.pending.tail := by
  obtain ⟨hlast, ⟨-, htokens⟩ | ⟨hslot', -⟩⟩ := h
  · rw [TokenStream.current, ← hlast, ← htokens]
    exact TokenBuffer.draw_eq _ _
  · rw [hslot] at hslot'
    cases hslot'

/-- On a buffer, `p` gives what `q` gives on the stream that the buffer shows, and leaves a buffer that
shows what `q` leaves. -/
def Follows (p : Step α) (q : Parser α) : Prop :=
  ∀ b s, Shows b s → ∃ b', p b = ((q s).1, b') ∧ Shows b' (q s).2

namespace Follows

/-- Giving something draws nothing. -/
theorem pure (a : α) : Follows (Pure.pure a) (Pure.pure a) :=
  fun _ _ h ↦ ⟨_, rfl, h⟩

/-- Nor does failing. -/
theorem fail (e : ParseError) : Follows (throw e : Step α) (Parser.fail e) :=
  fun _ _ h ↦ ⟨_, rfl, h⟩

/-- One step after another follows one parser after another. -/
theorem bind {p : Step α} {q : Parser α} {k : α → Step β} {l : α → Parser β} (hp : Follows p q)
    (hk : ∀ a, Follows (k a) (l a)) : Follows (p >>= k) (q >>= l) := by
  intro b s h
  obtain ⟨b₁, hb₁, h₁⟩ := hp b s h
  have hq : (q >>= l) s = Parser.bind q l s := rfl
  rw [bind_eq, hb₁, hq, Parser.bind]
  cases hqs : q s with
  | mk r s₁ =>
    rw [hqs] at h₁
    cases r with
    | ok a => exact hk a b₁ s₁ h₁
    | error e => exact ⟨b₁, rfl, h₁⟩

/-- Taking a token empties the slot, or draws a token that never enters it. -/
theorem next : Follows TokenBuffer.next Parser.next := by
  intro b s h
  unfold TokenBuffer.next
  split
  · next t hslot =>
    obtain ⟨-, ⟨hnone, -⟩ | ⟨hsome, htokens⟩⟩ := h
    · rw [hslot] at hnone
      cases hnone
    · obtain rfl := Option.some.inj (hslot.symm.trans hsome)
      exact ⟨_, rfl, rfl, .inl ⟨rfl, htokens⟩⟩
  · next hslot =>
    obtain ⟨htoken, htokens⟩ := h.draw_eq hslot
    dsimp only
    rw [htoken]
    exact ⟨_, rfl, rfl, .inl ⟨rfl, htokens⟩⟩

/-- Looking at a token fills the slot, and what is shown stays. -/
theorem peek : Follows TokenBuffer.peek Parser.peek := by
  intro b s h
  unfold TokenBuffer.peek
  split
  · next t hslot =>
    obtain ⟨-, ⟨hnone, -⟩ | ⟨hsome, -⟩⟩ := id h
    · rw [hslot] at hnone
      cases hnone
    · obtain rfl := Option.some.inj (hslot.symm.trans hsome)
      exact ⟨b, rfl, h⟩
  · next hslot =>
    obtain ⟨htoken, htokens⟩ := h.draw_eq hslot
    dsimp only
    rw [htoken]
    exact ⟨_, rfl, h.lastEnd_eq, .inr ⟨rfl, htokens⟩⟩

/-- A choice follows a choice. -/
theorem ite {condition : Prop} [Decidable condition] {p p' : Step α} {q q' : Parser α} (h : Follows p q)
    (h' : Follows p' q') : Follows (if condition then p else p') (if condition then q else q') := by
  split
  · exact h
  · exact h'

/-- A step whose parser is written in another way. -/
theorem congr {p : Step α} {q q' : Parser α} (h : Follows p q) (heq : ∀ s, q' s = q s) : Follows p q' :=
  funext heq ▸ h

theorem unexpected (expected : List String) :
    Follows (TokenBuffer.unexpected expected : Step α) (Parser.unexpected expected) :=
  next.bind fun _ ↦ .fail _

theorem peekIs (sort : TokenSort) : Follows (TokenBuffer.peekIs sort) (Parser.peekIs sort) :=
  (peek.bind fun _ ↦ .pure _).congr fun _ ↦ rfl

theorem peekIsKeyword (keyword : String) :
    Follows (TokenBuffer.peekIsKeyword keyword) (Parser.peekIsKeyword keyword) :=
  (peek.bind fun _ ↦ .pure _).congr fun _ ↦ rfl

theorem accept (sorts : List TokenSort) : Follows (TokenBuffer.accept sorts) (Parser.accept sorts) := by
  refine congr (peek.bind fun t ↦ .ite (next.bind fun _ ↦ .pure _) (.pure _)) fun s ↦ ?_
  simp only [Parser.accept, Bind.bind, Parser.bind, Parser.peek]
  split <;> rfl

theorem acceptKeyword (keyword : String) :
    Follows (TokenBuffer.acceptKeyword keyword) (Parser.acceptKeyword keyword) := by
  refine congr ((peekIsKeyword keyword).bind fun t ↦ .ite (next.bind fun _ ↦ .pure _) (.pure _)) fun s ↦ ?_
  simp only [Parser.acceptKeyword, Bind.bind, Parser.bind, Parser.peekIsKeyword]
  split <;> rfl

theorem requireKeyword (keyword : String) :
    Follows (TokenBuffer.requireKeyword keyword) (Parser.requireKeyword keyword) := by
  refine congr ((peekIsKeyword keyword).bind fun t ↦ .ite next (.unexpected _)) fun s ↦ ?_
  simp only [Parser.requireKeyword, Bind.bind, Parser.bind, Parser.peekIsKeyword]
  split <;> rfl

theorem require (sorts : List TokenSort) (expected : String) :
    Follows (TokenBuffer.require sorts expected) (Parser.require sorts expected) := by
  refine (accept sorts).bind fun found ↦ ?_
  cases found with
  | some t => exact .pure t
  | none => exact .unexpected _

theorem requireName (expected : String) :
    Follows (TokenBuffer.requireName expected) (Parser.requireName expected) := by
  refine next.bind fun t ↦ ?_
  cases t.kind with
  | name text => exact .pure _
  | _ => exact .fail _

theorem description? : Follows TokenBuffer.description? Parser.description? := by
  refine (accept _).bind fun found ↦ ?_
  cases found with
  | some t => exact .pure _
  | none => exact .pure _

/-- Each question is followed by the parser for it. -/
theorem ask (question : Question) : Follows (TokenBuffer.ask question) (Parser.ask question) := by
  cases question with
  | next => exact next.bind fun _ ↦ .pure _
  | peek => exact peek.bind fun _ ↦ .pure _
  | peekIs sort => exact (peekIs sort).bind fun _ ↦ .pure _
  | peekIsKeyword keyword => exact (peekIsKeyword keyword).bind fun _ ↦ .pure _
  | atEnd => exact (peekIs .endOfInput).bind fun _ ↦ .pure _
  | accept sorts => exact (accept sorts).bind fun _ ↦ .pure _
  | require sorts expected => exact (require sorts expected).bind fun _ ↦ .pure _
  | acceptKeyword keyword => exact (acceptKeyword keyword).bind fun _ ↦ .pure _
  | requireKeyword keyword => exact (requireKeyword keyword).bind fun _ ↦ .pure _
  | requireName expected => exact (requireName expected).bind fun _ ↦ .pure _
  | description? => exact description?.bind fun _ ↦ .pure _

end Follows

/-- A buffer answers as what it shows, by induction on the questions. -/
theorem answers_eq_of_shows (h : Shows b s) (questions : List Question) :
    b.answers questions = s.answers questions := by
  induction questions generalizing b s with
  | nil => rfl
  | cons question questions ih =>
    obtain ⟨b', hb', h'⟩ := Follows.ask question b s h
    rw [answers, TokenStream.answers, hb']
    dsimp only
    rw [ih h', h'.lastEnd_eq]

/-- **A buffer is a cursor.** Whatever is asked of the buffer of some tokens, in whatever order, it answers
from the token at a cursor in the tokens without comments, and the cursor stands behind those that were
passed. So does the stream that parsers read. -/
theorem answers_eq_cursorAnswers (tokens : List Token) (questions : List Question) :
    (ofTokens tokens).answers questions = Token.cursorAnswers (Token.withoutComments tokens) 0 questions ∧
      (TokenStream.ofTokens tokens).answers questions =
        Token.cursorAnswers (Token.withoutComments tokens) 0 questions := by
  have hstream : (TokenStream.ofTokens tokens).answers questions =
      Token.cursorAnswers (Token.withoutComments tokens) 0 questions :=
    TokenStream.answers_startingAt (Token.withoutComments tokens) 0 questions
  exact ⟨(answers_eq_of_shows (shows_ofTokens tokens) questions).trans hstream, hstream⟩

end TokenBuffer

end TypeSystem
