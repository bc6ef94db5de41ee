import TypeSystem.Token.Basic

/-!
# Token streams

What a reader of tokens sees: the tokens that mean something, comments left out, and the place where
the last token passed ended. A stream that has run out shows the end of the input at that place, as
often as it is asked.
-/

namespace TypeSystem

/-- The tokens still to be read. -/
structure TokenStream where
  /-- The tokens that are left, none of them a comment. -/
  pending : List Token
  /-- Where the last token passed ended. -/
  lastEnd : Position
  /-- How many tokens are left, kept so that a loop can tell at once whether it has taken any. -/
  left : Nat
  left_eq : left = pending.length
deriving Repr

namespace TokenStream

/-- The stream of some tokens after a given place. -/
def after (lastEnd : Position) (pending : List Token) : TokenStream :=
  ⟨pending, lastEnd, pending.length, rfl⟩

/-- The stream of a list of tokens. -/
def ofTokens (tokens : List Token) : TokenStream :=
  after .origin (tokens.filter fun token ↦ !token.isComment)

/-- The next token. -/
def current (s : TokenStream) : Token :=
  s.pending.headD (.endAt s.lastEnd)

/-- The stream after its next token. -/
def advance (s : TokenStream) : TokenStream :=
  ⟨s.pending.tail, s.current.span.stop, s.left - 1, by rw [s.left_eq, List.length_tail]⟩

/-- A stream is its tokens and the place before them. -/
theorem eq_after (s : TokenStream) : s = after s.lastEnd s.pending := by
  obtain ⟨pending, lastEnd, left, rfl⟩ := s
  rfl

@[simp] theorem current_cons (t : Token) (ts : List Token) (e : Position) :
    (after e (t :: ts)).current = t := rfl

@[simp] theorem current_nil (e : Position) : (after e []).current = .endAt e := rfl

@[simp] theorem advance_cons (t : Token) (ts : List Token) (e : Position) :
    (after e (t :: ts)).advance = after t.span.stop ts := rfl

/-- Passing the end of the input changes nothing. -/
@[simp] theorem advance_nil (e : Position) : (after e []).advance = after e [] := rfl

end TokenStream

end TypeSystem
