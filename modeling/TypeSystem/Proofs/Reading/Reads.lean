import Mathlib.Data.Set.Insert
import TypeSystem.Proofs.Reading.Outcome
import TypeSystem.Proofs.Reading.Phrase

/-!
# Parsers that read a phrase

`Reads K p P` says that the parser `p` reads exactly the phrase `P`: what it takes when it succeeds is a run
of `P` with the value returned (`sound`), and of a stream that begins with a run of `P` it takes that run
and returns its value (`complete`). The second half is where a parser that looks one token ahead could go
wrong, since a run may be followed by a token with which it could have been longer. `K` holds the tokens
that must not follow.

There is one law for each way of putting parsers together. Where one parser follows another, the second
phrase, with whatever comes after it, has to keep the first parser from going on too far: it `Shields` what
stands before it.
-/

namespace TypeSystem

/-! ### Streams -/

/-- The stream `s` becomes `s'` when some tokens are taken, none of which ends the input. -/
structure Taken (s : TokenStream) (ts : List Token) (s' : TokenStream) : Prop where
  pending_eq : s.pending = ts ++ s'.pending
  kind_ne : ∀ t ∈ ts, t.kind ≠ .endOfInput

namespace Taken

variable {s s' s'' : TokenStream} {ts ts' : List Token}

/-- Nothing has been taken at first. -/
theorem refl (s : TokenStream) : Taken s [] s :=
  ⟨rfl, fun _ h ↦ absurd h List.not_mem_nil⟩

/-- What is taken in two steps is taken in one. -/
theorem trans (h : Taken s ts s') (h' : Taken s' ts' s'') : Taken s (ts ++ ts') s'' := by
  refine ⟨?_, fun t ht ↦ ?_⟩
  · rw [h.pending_eq, h'.pending_eq, List.append_assoc]
  · exact (List.mem_append.1 ht).elim (h.kind_ne t) (h'.kind_ne t)

/-- A token other than the end of the input is taken. -/
theorem advance (h : s.current.kind ≠ .endOfInput) : Taken s [s.current] s.advance := by
  rw [s.eq_after] at h ⊢
  generalize s.pending = pending at h ⊢
  cases pending with
  | nil => exact absurd rfl h
  | cons t ts => exact ⟨rfl, fun t' ht' ↦ by rw [List.mem_singleton.1 ht']; exact h⟩

/-- The first token that is taken is the one that was shown. -/
theorem head?_eq (h : Taken s ts s') (hts : ts ≠ []) :
    (ts.map Token.kind).head? = some s.current.kind := by
  cases ts with
  | nil => exact absurd rfl hts
  | cons t ts =>
    rw [TokenStream.current, h.pending_eq]
    rfl

theorem left_lt (h : Taken s ts s') (hts : ts ≠ []) : s'.left < s.left := by
  rw [s.left_eq, s'.left_eq, h.pending_eq, List.length_append]
  have := List.length_pos_iff.2 hts
  omega

end Taken

/-! ### What may follow -/

/-- A run of tokens does not begin with one of the set. -/
def Free (K : Set TokenKind) (ts : List TokenKind) : Prop :=
  ∀ k ∈ ts.head?, k ∉ K

variable {α β : Type} {K K₁ K₂ K₃ : Set TokenKind}

/-- What does not begin with one of many does not begin with one of fewer. -/
theorem Free.mono (hK : K₁ ⊆ K₂) {ts : List TokenKind} (h : Free K₂ ts) : Free K₁ ts :=
  fun k hk hmem ↦ h k hk (hK hmem)

theorem free_empty (ts : List TokenKind) : Free ∅ ts :=
  fun _ _ ↦ Set.notMem_empty _

/-- A stream that is free of some tokens shows none of them. -/
theorem Free.current_notMem {e : Position} {rest : List Token} (h : Free K (rest.map Token.kind))
    (hend : .endOfInput ∉ K) : (TokenStream.after e rest).current.kind ∉ K := by
  cases rest with
  | nil => exact hend
  | cons t rest => exact h t.kind (by simp)

/-- A stream that begins with a run of tokens shows the first of them. -/
theorem TokenStream.current_of_head? {e : Position} {ts : List Token} {k : TokenKind}
    (h : (ts.map Token.kind).head? = some k) (rest : List Token) :
    (after e (ts ++ rest)).current.kind = k := by
  cases ts with
  | nil => cases h
  | cons t ts => exact Option.some.inj h

theorem free_cons {k : TokenKind} {ts : List TokenKind} : Free K (k :: ts) ↔ k ∉ K := by
  simp [Free]

namespace Phrase

/-- A run of the phrase, together with what follows it, does not begin with a token of `K₁`, as long as
what follows does not begin with one of `K₂`. -/
def Shields (K₁ K₂ : Set TokenKind) (P : Phrase α) : Prop :=
  ∀ ts a rest, P ts a → Free K₂ rest → Free K₁ (ts ++ rest)

namespace Shields

/-- Every phrase shields against nothing. -/
theorem empty (K : Set TokenKind) (P : Phrase α) : P.Shields ∅ K :=
  fun _ _ _ _ _ ↦ free_empty _

/-- Where nothing stands, a run begins with what follows. -/
theorem pure (hK : K₁ ⊆ K₂) (a : α) : (Pure.pure a : Phrase α).Shields K₁ K₂ := by
  rintro _ _ rest ⟨rfl, rfl⟩ hfree
  exact hfree.mono hK

theorem given (hK : K₁ ⊆ K₂) (condition : Prop) : (Phrase.given condition).Shields K₁ K₂ := by
  rintro _ _ rest ⟨rfl, -⟩ hfree
  exact hfree.mono hK

/-- One phrase shields against what the next one lets through, and so on to what follows both. -/
theorem bind {P : Phrase α} {Q : α → Phrase β} (hP : P.Shields K₁ K₂)
    (hQ : ∀ a, (Q a).Shields K₂ K₃) : (P >>= Q).Shields K₁ K₃ := by
  rintro _ b rest ⟨a, front, back, rfl, hfront, hback⟩ hfree
  rw [List.append_assoc]
  exact hP front a _ hfront (hQ a back b rest hback hfree)

/-- A phrase that shields by itself does so whatever comes next. -/
theorem first {P : Phrase α} {Q : α → Phrase β} (hP : P.Shields K₁ ∅) : (P >>= Q).Shields K₁ K₂ :=
  hP.bind fun a ↦ .empty K₂ (Q a)

/-- A choice shields if both sides do. -/
theorem or {P Q : Phrase α} (hP : P.Shields K₁ K₂) (hQ : Q.Shields K₁ K₂) :
    (P <|> Q).Shields K₁ K₂ :=
  fun ts a rest h hfree ↦ h.elim (hP ts a rest · hfree) (hQ ts a rest · hfree)

/-- More may be asked of what follows. -/
theorem mono {P : Phrase α} (h : P.Shields K₁ K₂) (hK : K₂ ⊆ K₃) : P.Shields K₁ K₃ :=
  fun ts a rest hP hfree ↦ h ts a rest hP (hfree.mono hK)

theorem orEmpty {P : Phrase (List α)} (hP : P.Shields K₁ K₂) (hK : K₁ ⊆ K₂) :
    (Phrase.orEmpty P).Shields K₁ K₂ :=
  hP.or (.pure hK _)

/-- A part that may be missing shields as it does where it is there, and where it is not as what follows does.
-/
theorem present {P : Phrase Unit} (hP : P.Shields K₁ ∅) (hK : K₁ ⊆ K₂) :
    (Phrase.present P).Shields K₁ K₂ :=
  hP.first.or (.pure hK _)

/-- A list shields as its items do, and where it is empty as what follows does. -/
theorem many {P : Phrase α} (hP : P.Shields K₁ ∅) (hK : K₁ ⊆ K₂) :
    (Phrase.many P).Shields K₁ K₂ := by
  rintro _ _ rest hmany hfree
  cases hmany with
  | nil => exact hfree.mono hK
  | cons hfirst _ =>
    rw [List.append_assoc]
    exact hP _ _ _ hfirst (free_empty _)

/-- A phrase of one token shields by itself. -/
theorem token {P : Phrase α} (hP : ∀ ts a, P ts a → ∃ k ∉ K₁, ts = [k]) : P.Shields K₁ K₂ := by
  intro ts a rest h _
  obtain ⟨k, hk, rfl⟩ := hP ts a h
  exact free_cons.2 hk

/-- What is shielded from is not what the stream shows. -/
theorem free {P : Phrase α} (hP : P.Shields K₁ K₂) {ts rest : List Token} {a : α}
    (h : P (ts.map Token.kind) a) (hfree : Free K₂ (rest.map Token.kind)) :
    Free K₁ ((ts ++ rest).map Token.kind) := by
  rw [List.map_append]
  exact hP _ a _ h hfree

theorem mark {p : Punctuator} (hp : .punctuator p ∉ K₁) : (Phrase.mark p).Shields K₁ K₂ :=
  token fun _ _ h ↦ ⟨_, hp, h⟩

theorem keyword {text : String} (htext : .name text ∉ K₁) : (Phrase.keyword text).Shields K₁ K₂ :=
  token fun _ _ h ↦ ⟨_, htext, h⟩

theorem name (hK : ∀ text, .name text ∉ K₁) : Phrase.name.Shields K₁ K₂ :=
  token fun _ text h ↦ ⟨_, hK text, h⟩

theorem afterMark {p : Punctuator} {P : Phrase α} (hp : .punctuator p ∉ K₁) (hK : K₁ ⊆ K₂) :
    (Phrase.afterMark p P).Shields K₁ K₂ :=
  (mark hp).first.or (.pure hK _)

end Shields

end Phrase

/-! ### Runs of phrases in sequence -/

/-- What is made of a phrase has the runs of the phrase. -/
theorem Phrase.bind_return_iff {P : Phrase α} {f : α → β} {ts : List TokenKind} {b : β} :
    (do return f (← P) : Phrase β) ts b ↔ ∃ a, P ts a ∧ b = f a := by
  constructor
  · rintro ⟨a, front, _, rfl, h, rfl, rfl⟩
    rw [List.append_nil]
    exact ⟨a, h, rfl⟩
  · rintro ⟨a, h, rfl⟩
    exact ⟨a, ts, [], (List.append_nil ts).symm, h, rfl, rfl⟩

theorem Phrase.bind_pure_iff {P : Phrase α} {ts : List TokenKind} {a : α} :
    (P >>= Pure.pure) ts a ↔ P ts a := by
  have h : (P >>= Pure.pure) ts a ↔ ∃ b, P ts b ∧ a = b := Phrase.bind_return_iff
  simpa using h

/-- A phrase behind a token has that token in front. -/
theorem Phrase.token_bind_iff {k : TokenKind} {Q : Unit → Phrase α} {ts : List TokenKind} {a : α} :
    ((fun ts _ ↦ ts = [k] : Phrase Unit) >>= Q) ts a ↔ ∃ back, ts = k :: back ∧ Q () back a := by
  constructor
  · rintro ⟨_, _, back, rfl, rfl, h⟩
    exact ⟨back, rfl, h⟩
  · rintro ⟨back, rfl, h⟩
    exact ⟨(), [k], back, rfl, rfl, h⟩

theorem Phrase.mark_bind_iff {p : Punctuator} {Q : Unit → Phrase α} {ts : List TokenKind} {a : α} :
    (Phrase.mark p >>= Q) ts a ↔ ∃ back, ts = .punctuator p :: back ∧ Q () back a :=
  token_bind_iff

theorem Phrase.keyword_bind_iff {text : String} {Q : Unit → Phrase α} {ts : List TokenKind} {a : α} :
    (Phrase.keyword text >>= Q) ts a ↔ ∃ back, ts = .name text :: back ∧ Q () back a :=
  token_bind_iff

theorem Phrase.name_bind_iff {Q : String → Phrase α} {ts : List TokenKind} {a : α} :
    (Phrase.name >>= Q) ts a ↔ ∃ text back, ts = .name text :: back ∧ Q text back a := by
  constructor
  · rintro ⟨text, _, back, rfl, rfl, h⟩
    exact ⟨text, back, rfl, h⟩
  · rintro ⟨text, back, rfl, h⟩
    exact ⟨text, [.name text], back, rfl, rfl, h⟩

/-- A block is a list in brackets that is not empty. -/
theorem Phrase.block_iff {brackets : Brackets} {P : Phrase α} {ts : List TokenKind} {as : List α} :
    Phrase.block brackets P ts as ↔ ∃ front,
      ts = .punctuator brackets.opening :: (front ++ [.punctuator brackets.closing]) ∧
        Phrase.Many P front as ∧ as ≠ [] := by
  constructor
  · intro h
    obtain ⟨_, rfl, found, front, _, rfl, ⟨hmany, hne⟩, hclose⟩ := Phrase.mark_bind_iff.1 h
    obtain ⟨_, rfl, rfl, rfl⟩ := Phrase.mark_bind_iff.1 hclose
    exact ⟨front, rfl, hmany, hne⟩
  · rintro ⟨front, rfl, hmany, hne⟩
    refine Phrase.mark_bind_iff.2 ⟨_, rfl, as, front, _, rfl, ⟨hmany, hne⟩, ?_⟩
    exact Phrase.mark_bind_iff.2 ⟨[], rfl, rfl, rfl⟩

/-- A condition takes no token. -/
theorem Phrase.given_bind_iff {condition : Prop} {P : Phrase α} {ts : List TokenKind} {a : α} :
    (Phrase.given condition >>= fun _ ↦ P) ts a ↔ condition ∧ P ts a := by
  constructor
  · rintro ⟨_, _, _, rfl, ⟨rfl, hcondition⟩, h⟩
    exact ⟨hcondition, h⟩
  · rintro ⟨hcondition, h⟩
    exact ⟨(), [], ts, rfl, ⟨rfl, hcondition⟩, h⟩

/-- Phrases in sequence may be grouped in any way. -/
theorem Phrase.bind_assoc {γ : Type} (P : Phrase α) (Q : α → Phrase β) (R : β → Phrase γ) :
    P >>= Q >>= R = P >>= fun a ↦ Q a >>= R := by
  funext ts c
  refine propext ⟨?_, ?_⟩
  · rintro ⟨b, _, back, rfl, ⟨a, front, middle, rfl, hP, hQ⟩, hR⟩
    exact ⟨a, front, middle ++ back, List.append_assoc _ _ _, hP, b, middle, back, rfl, hQ, hR⟩
  · rintro ⟨a, front, _, rfl, hP, b, middle, back, rfl, hQ, hR⟩
    exact ⟨b, front ++ middle, back, (List.append_assoc _ _ _).symm, ⟨a, front, middle, rfl, hP, hQ⟩, hR⟩

/-- Nothing after a mark is an empty list. -/
theorem Phrase.afterMark_bind_getD {p : Punctuator} (P : Phrase (List α)) (Q : List α → Phrase β) :
    (Phrase.afterMark p P >>= fun found ↦ Q (found.getD [])) =
      Phrase.orEmpty (do Phrase.mark p; P) >>= Q := by
  funext ts b
  refine propext ⟨?_, ?_⟩
  · rintro ⟨found, front, back, rfl, h | ⟨rfl, rfl⟩, hQ⟩
    · obtain ⟨_, rfl, hlast⟩ := Phrase.mark_bind_iff.1 h
      obtain ⟨as, has, rfl⟩ := Phrase.bind_return_iff.1 hlast
      exact ⟨as, _, back, rfl, .inl (Phrase.mark_bind_iff.2 ⟨_, rfl, has⟩), hQ⟩
    · exact ⟨[], [], back, rfl, .inr ⟨rfl, rfl⟩, hQ⟩
  · rintro ⟨as, front, back, rfl, h | ⟨rfl, rfl⟩, hQ⟩
    · obtain ⟨last, rfl, has⟩ := Phrase.mark_bind_iff.1 h
      have hsome : (do return some (← P) : Phrase (Option (List α))) last (some as) :=
        Phrase.bind_return_iff.2 ⟨as, has, rfl⟩
      exact ⟨some as, _, back, rfl, .inl (Phrase.mark_bind_iff.2 ⟨last, rfl, hsome⟩), hQ⟩
    · exact ⟨none, [], back, rfl, .inr ⟨rfl, rfl⟩, hQ⟩

/-! ### Parsers of one token -/

theorem TokenKind.sort_eq_punctuator_iff {k : TokenKind} {p : Punctuator} :
    k.sort = .punctuator p ↔ k = .punctuator p := by
  cases k <;> simp [sort]

namespace Token

/-- The text of a token that is a name. -/
def name? (t : Token) : Option String :=
  match t.kind with
  | .name text => some text
  | _ => none

/-- The token, if it is of a given kind. -/
def ofKind? (k : TokenKind) (t : Token) : Option Token := if t.kind = k then some t else none

/-- A token is viewed as itself if it is of the kind. -/
theorem ofKind?_eq_some_iff {k : TokenKind} {t t' : Token} : t.ofKind? k = some t' ↔ t.kind = k ∧ t' = t := by
  unfold ofKind?
  split <;> simp_all [eq_comm]

end Token

namespace Parser

/-- The parser takes the next token and gives what is seen in it, or fails if nothing is. In the end of the
input nothing is seen. -/
structure Views (p : Parser α) (view : Token → Option α) (expected : List String) : Prop where
  eq : ∀ s, p s = ((view s.current).elim (.error (misfit s.current expected)) .ok, s.advance)
  view_end : ∀ t, t.kind = .endOfInput → view t = none

namespace Views

variable {p : Parser α} {view : Token → Option α} {expected : List String} {s s' : TokenStream} {a : α}

/-- A parser that views a token succeeds just if the token fits, and takes it. -/
theorem eq_ok_iff (hp : p.Views view expected) :
    p s = (.ok a, s') ↔ view s.current = some a ∧ s' = s.advance := by
  rw [hp.eq]
  cases view s.current <;> simp [eq_comm]

/-- So it takes the one token. -/
theorem taken (hp : p.Views view expected) (h : p s = (.ok a, s')) : Taken s [s.current] s' := by
  obtain ⟨hview, rfl⟩ := hp.eq_ok_iff.1 h
  refine .advance fun hend ↦ ?_
  rw [hp.view_end _ hend] at hview
  cases hview

end Views

theorem views_requireMark (p : Punctuator) :
    (requireMark p).Views (Token.ofKind? (.punctuator p)) [Text.quoted p.text] where
  eq s := by
    show Parser.bind (accept [.punctuator p]) _ s = _
    rw [Parser.bind, accept]
    by_cases h : s.current.kind = .punctuator p
    · rw [Token.ofKind?, if_pos h, if_pos (by simp [h, TokenKind.sort])]
      rfl
    · rw [Token.ofKind?, if_neg h, if_neg (by simpa using mt TokenKind.sort_eq_punctuator_iff.1 h)]
      rfl
  view_end t ht := by simp [Token.ofKind?, ht]

/-- A punctuator that is wanted and comes next is taken. -/
theorem requireMark_cons {p : Punctuator} {t : Token} (ht : t.kind = .punctuator p) (e : Position)
    (ts : List Token) : requireMark p (.after e (t :: ts)) = (.ok t, .after t.span.stop ts) :=
  (views_requireMark p).eq_ok_iff.2 ⟨Token.ofKind?_eq_some_iff.2 ⟨ht, rfl⟩, rfl⟩

theorem views_requireKeyword (text : String) :
    (requireKeyword text).Views (Token.ofKind? (.name text)) [Text.quoted text] where
  eq s := by
    by_cases h : s.current.kind = .name text
    · rw [requireKeyword, Token.ofKind?, if_pos h, if_pos (by simp [Token.isKeyword, h])]
      rfl
    · rw [requireKeyword, Token.ofKind?, if_neg h, if_neg (by simp [Token.isKeyword, h])]
      rfl
  view_end t ht := by simp [Token.ofKind?, ht]

theorem views_requireName (expected : String) :
    (requireName expected).Views (fun t ↦ t.name?.map fun text ↦ (text, t.span)) [expected] where
  eq s := by
    unfold requireName Token.name?
    simp only [bind, Parser.bind, next]
    cases s.current.kind <;> rfl
  view_end t ht := by simp [Token.name?, ht]

theorem views_value (expected : String) :
    (value expected).Views (fun t ↦ t.kind.value?) [expected] where
  eq s := by
    unfold value
    simp only [bind, Parser.bind, next]
    cases s.current.kind.value? <;> rfl
  view_end t ht := by rw [ht]; rfl

theorem requireName_eq_ok_iff {expected text : String} {span : Span} {s s' : TokenStream} :
    requireName expected s = (.ok (text, span), s') ↔ s.current = ⟨.name text, span⟩ ∧ s' = s.advance := by
  rw [(views_requireName expected).eq_ok_iff]
  refine and_congr_left' ?_
  generalize s.current = t
  obtain ⟨kind, span'⟩ := t
  cases kind <;> simp [Token.name?]

end Parser

/-! ### Reading -/

/-- The parser reads the phrase, in front of anything that does not begin with a token of `K`. -/
structure Reads [HasSpans α] (K : Set TokenKind) (p : Parser α) (P : Phrase α) : Prop where
  sound : ∀ s a s', p s = (.ok a, s') → ∃ ts, Taken s ts s' ∧ P (ts.map Token.kind) (withoutSpans a)
  complete : ∀ e ts rest x, P (ts.map Token.kind) x → Free K (rest.map Token.kind) →
    ∃ a e', p (.after e (ts ++ rest)) = (.ok a, .after e' rest) ∧ withoutSpans a = x

namespace Reads

variable [HasSpans α] [HasSpans β]

/-- What is read unless one of some tokens follows is read unless one of more tokens does. -/
theorem mono {p : Parser α} {P : Phrase α} (h : Reads K₁ p P) (hK : K₁ ⊆ K₂) : Reads K₂ p P where
  sound := h.sound
  complete e ts rest x hx hfree := h.complete e ts rest x hx (hfree.mono hK)

/-- Phrases with the same runs are read by the same parser. -/
theorem congr {p : Parser α} {P Q : Phrase α} (h : Reads K p P) (hPQ : ∀ ts x, P ts x ↔ Q ts x) :
    Reads K p Q where
  sound s a s' hp := by
    obtain ⟨ts, htaken, hP⟩ := h.sound s a s' hp
    exact ⟨ts, htaken, (hPQ _ _).1 hP⟩
  complete e ts rest x hx hfree := h.complete e ts rest x ((hPQ _ _).2 hx) hfree

/-- Since a parser gives one result, a run of a phrase that is read stands for one value only. -/
theorem unique {p : Parser α} {P : Phrase α} (h : Reads K p P) {ts : List TokenKind} {x y : α}
    (hx : P ts x) (hy : P ts y) : x = y := by
  -- tokens of these kinds, no matter where they stand
  have hkinds : (ts.map fun k ↦ (⟨k, .blank⟩ : Token)).map Token.kind = ts := by
    rw [List.map_map]
    exact List.map_id ts
  rw [← hkinds] at hx hy
  have hnothing : Free K ([].map Token.kind) := fun k hk ↦ by cases hk
  obtain ⟨a, _, ha, rfl⟩ := h.complete .origin _ [] x hx hnothing
  obtain ⟨b, _, hb, rfl⟩ := h.complete .origin _ [] y hy hnothing
  rw [ha] at hb
  cases hb
  rfl

/-- Giving something reads nothing. -/
theorem pure {a x : α} (h : withoutSpans a = x) :
    Reads K (Pure.pure a : Parser α) (Pure.pure x : Phrase α) where
  sound := by
    rintro s _ s' ⟨⟩
    exact ⟨[], .refl s, rfl, h⟩
  complete := by
    rintro e ts rest y ⟨hts, rfl⟩ -
    rw [List.map_eq_nil_iff.1 hts]
    exact ⟨a, e, rfl, h⟩

/-- One parser after the other reads one phrase after the other. -/
theorem bind {p : Parser α} {f : α → Parser β} {P : Phrase α} {Q : α → Phrase β}
    (hp : Reads K₁ p P) (hf : ∀ a, Reads K₂ (f a) (Q (withoutSpans a)))
    (hQ : ∀ x, (Q x).Shields K₁ K₂) : Reads K₂ (p >>= f) (P >>= Q) where
  sound s b s' h := by
    obtain ⟨a, s₁, ha, hb⟩ := Parser.bind_eq_ok_iff.1 h
    obtain ⟨front, hfront, hP⟩ := hp.sound s a s₁ ha
    obtain ⟨back, hback, hQ⟩ := (hf a).sound s₁ b s' hb
    refine ⟨front ++ back, hfront.trans hback, withoutSpans a, _, _, ?_, hP, hQ⟩
    exact List.map_append
  complete e ts rest x h hfree := by
    obtain ⟨y, _, _, hts, hfront, hback⟩ := h
    obtain ⟨front, back, rfl, rfl, rfl⟩ := List.map_eq_append_iff.1 hts
    -- the second run, with what follows it, keeps the first parser from going on
    have hshielded : Free K₁ ((back ++ rest).map Token.kind) := (hQ y).free hback hfree
    obtain ⟨a, e₁, ha, rfl⟩ := hp.complete e front (back ++ rest) y hfront hshielded
    obtain ⟨b, e₂, hb, rfl⟩ := (hf a).complete e₁ back rest x hback hfree
    rw [List.append_assoc]
    exact ⟨b, e₂, Parser.bind_eq_ok_iff.2 ⟨a, _, ha, hb⟩, rfl⟩

/-- A parser that leaves no doubt about where it ends may be followed by any other. -/
theorem andThen {p : Parser α} {f : α → Parser β} {P : Phrase α} {Q : α → Phrase β}
    (hp : Reads ∅ p P) (hf : ∀ a, Reads K (f a) (Q (withoutSpans a))) :
    Reads K (p >>= f) (P >>= Q) :=
  hp.bind hf fun x ↦ .empty K (Q x)

/-! ### Steps that take nothing -/

/-- Asking where the next token starts takes nothing. -/
theorem here {f : Position → Parser α} {P : Phrase α} (hf : ∀ start, Reads K (f start) P) :
    Reads K (Parser.here >>= f) P where
  sound s := (hf s.current.span.start).sound s
  complete e ts rest := (hf (TokenStream.after e (ts ++ rest)).current.span.start).complete e ts rest

/-- Nor does making a span. -/
theorem spanFrom {source : Option String} {start : Position} {f : Span → Parser α} {P : Phrase α}
    (hf : ∀ span, Reads K (f span) P) : Reads K (Parser.spanFrom source start >>= f) P where
  sound s := (hf ⟨start, s.lastEnd, source⟩).sound s
  complete e ts rest := (hf ⟨start, e, source⟩).complete e ts rest

/-- A parser that always fails reads the phrase without runs. -/
theorem failing {p : Parser α} [p.AlwaysFails] {P : Phrase α} (hP : ∀ ts x, ¬ P ts x) :
    Reads K p P where
  sound s a s' h := absurd h (Parser.AlwaysFails.ne_ok s a s')
  complete _ _ _ _ h _ := absurd h (hP _ _)

/-- A parser that fails on a condition reads the phrase without it. -/
theorem guarded {condition : Prop} [Decidable condition] {refusal p : Parser α} [refusal.AlwaysFails]
    {P : Phrase α} (hp : ¬ condition → Reads K p P) :
    Reads K (if condition then refusal else p) (Phrase.given (¬ condition) >>= fun _ ↦ P) := by
  split
  · next hcondition =>
    refine failing fun ts x h ↦ ?_
    exact (Phrase.given_bind_iff.1 h).1 hcondition
  · next hnot =>
    refine (hp hnot).congr fun ts x ↦ ?_
    rw [Phrase.given_bind_iff, and_iff_right hnot]

/-! ### Single tokens -/

theorem token {p : Parser α} {view : TokenKind → Option α} {expected : List String}
    (hp : p.Views (fun t ↦ view t.kind) expected) (hview : ∀ a : α, withoutSpans a = a) :
    Reads ∅ p fun ts x ↦ ∃ k, ts = [k] ∧ view k = some x where
  sound s a s' h := by
    obtain ⟨ha, -⟩ := hp.eq_ok_iff.1 h
    rw [hview]
    exact ⟨[s.current], hp.taken h, s.current.kind, rfl, ha⟩
  complete e ts rest x := by
    rintro ⟨k, hts, hx⟩ -
    obtain ⟨t, rfl, rfl⟩ := List.map_eq_singleton_iff.1 hts
    exact ⟨x, t.span.stop, hp.eq_ok_iff.2 ⟨hx, rfl⟩, hview x⟩

/-- A parser that takes one token of a given kind. -/
theorem take {p : Parser Token} {k : TokenKind} {expected : List String}
    (hp : p.Views (Token.ofKind? k) expected) {q : Parser α} {Q : Phrase α} (hq : Reads K q Q) :
    Reads K (p >>= fun _ ↦ q) ((fun ts _ ↦ ts = [k] : Phrase Unit) >>= fun _ ↦ Q) where
  sound s a s' h := by
    obtain ⟨t, s₁, ht, ha⟩ := Parser.bind_eq_ok_iff.1 h
    obtain ⟨hkind, -⟩ := Token.ofKind?_eq_some_iff.1 (hp.eq_ok_iff.1 ht).1
    obtain ⟨back, hback, hQ⟩ := hq.sound _ a s' ha
    exact ⟨_, (hp.taken ht).trans hback, Phrase.token_bind_iff.2 ⟨_, by simp [hkind], hQ⟩⟩
  complete e ts rest x h hfree := by
    obtain ⟨_, hts, hback⟩ := Phrase.token_bind_iff.1 h
    obtain ⟨t, back, rfl, hkind, rfl⟩ := List.map_eq_cons_iff.1 hts
    have ht : p (.after e (t :: (back ++ rest))) = (.ok t, .after t.span.stop (back ++ rest)) :=
      hp.eq_ok_iff.2 ⟨Token.ofKind?_eq_some_iff.2 ⟨hkind, rfl⟩, rfl⟩
    obtain ⟨a, e', ha, hx⟩ := hq.complete t.span.stop back rest x hback hfree
    exact ⟨a, e', Parser.bind_eq_ok_iff.2 ⟨t, _, ht, ha⟩, hx⟩

end Reads

/-! ### Tokens that may be there -/

/-- The parser takes the next token if it is of a given kind, and says whether it was. -/
def Parser.Accepts (p : Parser Bool) (k : TokenKind) : Prop :=
  ∀ s, p s = if s.current.kind = k then (.ok true, s.advance) else (.ok false, s)

theorem Parser.accepts_acceptMark (p : Punctuator) : (acceptMark p).Accepts (.punctuator p) := by
  intro s
  show Parser.bind (accept [.punctuator p]) _ s = _
  rw [Parser.bind, accept]
  by_cases h : s.current.kind = .punctuator p
  · rw [if_pos h, if_pos (by simp [h, TokenKind.sort])]
    rfl
  · rw [if_neg h, if_neg (by simpa using mt TokenKind.sort_eq_punctuator_iff.1 h)]
    rfl

theorem Parser.accepts_acceptKeyword (keyword : String) :
    (acceptKeyword keyword).Accepts (.name keyword) := by
  intro s
  simp only [acceptKeyword, Token.isKeyword, decide_eq_true_eq]

namespace Parser.Accepts

variable {p : Parser Bool} {k : TokenKind} {e : Position}

/-- A token that is there is taken. -/
theorem eq_true (hp : p.Accepts k) {t : Token} (ht : t.kind = k) (ts : List Token) :
    p (.after e (t :: ts)) = (.ok true, .after t.span.stop ts) := by
  rw [hp, TokenStream.current_cons, if_pos ht]
  rfl

/-- A token that is not there leaves the stream as it is. -/
theorem eq_false (hp : p.Accepts k) (hk : k ≠ .endOfInput) {ts : List Token}
    (hfree : Free {k} (ts.map Token.kind)) : p (.after e ts) = (.ok false, .after e ts) := by
  have hkind : (TokenStream.after e ts).current.kind ≠ k := hfree.current_notMem hk.symm
  rw [hp, if_neg hkind]

end Parser.Accepts

namespace Parser

variable {p : Punctuator} {e : Position} {ts : List Token}

theorem peekIs_of_head? (h : (ts.map Token.kind).head? = some (.punctuator p)) (rest : List Token) :
    peekIs (.punctuator p) (.after e (ts ++ rest)) = (.ok true, .after e (ts ++ rest)) := by
  rw [peekIs, TokenStream.current_of_head? h rest]
  simp [TokenKind.sort]

theorem peekIs_of_free (h : Free {.punctuator p} (ts.map Token.kind)) :
    peekIs (.punctuator p) (.after e ts) = (.ok false, .after e ts) := by
  have hkind := h.current_notMem (e := e) (by simp)
  simpa [peekIs, TokenKind.sort_eq_punctuator_iff] using hkind

end Parser

namespace Reads

variable [HasSpans α]

/-- Whether a token is there is read, in front of anything but that token. -/
theorem present {p : Parser Bool} {k : TokenKind} (hk : k ≠ .endOfInput) (hp : p.Accepts k) :
    Reads {k} p (Phrase.present fun ts _ ↦ ts = [k]) where
  sound s a s' h := by
    rw [hp s] at h
    split at h
    · next hkind =>
      cases h
      refine ⟨[s.current], .advance (hkind ▸ hk), .inl ⟨(), [k], [], ?_, rfl, rfl, rfl⟩⟩
      rw [List.map_singleton, hkind]
      rfl
    · cases h
      exact ⟨[], .refl s, .inr ⟨rfl, rfl⟩⟩
  complete e ts rest x h hfree := by
    rcases h with ⟨-, _, _, hts, rfl, rfl, rfl⟩ | ⟨hts, rfl⟩
    · obtain ⟨t, rfl, ht⟩ := List.map_eq_singleton_iff.1 hts
      exact ⟨true, t.span.stop, hp.eq_true ht rest, rfl⟩
    · obtain rfl := List.map_eq_nil_iff.1 hts
      exact ⟨false, e, hp.eq_false hk hfree, rfl⟩

/-- A parser that goes one way after a token and another way without it. -/
theorem branch {p : Parser Bool} {k : TokenKind} (hk : k ≠ .endOfInput) (hp : p.Accepts k)
    {q r : Parser α} {Q R : Phrase α} (hq : Reads K q Q) (hr : Reads K r R) (hR : R.Shields {k} K) :
    Reads K (p >>= fun b ↦ if b = true then q else r)
      (((fun ts _ ↦ ts = [k] : Phrase Unit) >>= fun _ ↦ Q) <|> R) where
  sound s a s' h := by
    obtain ⟨b, s₁, hb, ha⟩ := Parser.bind_eq_ok_iff.1 h
    rw [hp s] at hb
    split at hb
    · next hkind =>
      cases hb
      obtain ⟨back, hback, hQ⟩ := hq.sound _ a s' ha
      have htake : Taken s [s.current] s.advance := .advance (hkind ▸ hk)
      exact ⟨_, htake.trans hback, .inl (Phrase.token_bind_iff.2 ⟨_, by simp [hkind], hQ⟩)⟩
    · cases hb
      obtain ⟨ts, hts, hR⟩ := hr.sound s a s' ha
      exact ⟨ts, hts, .inr hR⟩
  complete e ts rest x h hfree := by
    rcases h with h | h
    · obtain ⟨_, hts, hback⟩ := Phrase.token_bind_iff.1 h
      obtain ⟨t, back, rfl, ht, rfl⟩ := List.map_eq_cons_iff.1 hts
      obtain ⟨a, e', ha, hx⟩ := hq.complete t.span.stop back rest x hback hfree
      exact ⟨a, e', Parser.bind_eq_ok_iff.2 ⟨true, _, hp.eq_true ht (back ++ rest), ha⟩, hx⟩
    · obtain ⟨a, e', ha, hx⟩ := hr.complete e ts rest x h hfree
      -- what is read without the token does not begin with it
      have hnot := hp.eq_false (e := e) hk (hR.free h hfree)
      exact ⟨a, e', Parser.bind_eq_ok_iff.2 ⟨false, _, hnot, ha⟩, hx⟩

/-- A parser that looks whether a mark comes next, and goes one way or the other. -/
theorem peek {p : Punctuator} {q r : Parser α} {Q R : Phrase α} (hq : Reads K q Q)
    (hQ : ∀ ts x, Q ts x → ts.head? = some (.punctuator p)) (hr : Reads K r R)
    (hR : R.Shields {.punctuator p} K) :
    Reads K (Parser.peekIs (.punctuator p) >>= fun b ↦ if b = true then q else r) (Q <|> R) where
  sound s a s' h := by
    obtain ⟨b, s₁, hb, ha⟩ := Parser.bind_eq_ok_iff.1 h
    cases hb
    split at ha
    · obtain ⟨ts, hts, hQ⟩ := hq.sound s a s' ha
      exact ⟨ts, hts, .inl hQ⟩
    · obtain ⟨ts, hts, hR⟩ := hr.sound s a s' ha
      exact ⟨ts, hts, .inr hR⟩
  complete e ts rest x h hfree := by
    rcases h with h | h
    · obtain ⟨a, e', ha, hx⟩ := hq.complete e ts rest x h hfree
      have hpeek := Parser.peekIs_of_head? (e := e) (hQ _ x h) rest
      exact ⟨a, e', Parser.bind_eq_ok_iff.2 ⟨true, _, hpeek, ha⟩, hx⟩
    · obtain ⟨a, e', ha, hx⟩ := hr.complete e ts rest x h hfree
      have hpeek := Parser.peekIs_of_free (e := e) (hR.free h hfree)
      exact ⟨a, e', Parser.bind_eq_ok_iff.2 ⟨false, _, hpeek, ha⟩, hx⟩

/-! ### Marks, words and names -/

/-- A phrase behind a mark is read by asking for the mark first. -/
theorem mark {p : Punctuator} {q : Parser α} {Q : Phrase α} (hq : Reads K q Q) :
    Reads K (Parser.requireMark p >>= fun _ ↦ q) (Phrase.mark p >>= fun _ ↦ Q) :=
  take (Parser.views_requireMark p) hq

/-- A phrase behind a keyword is read by asking for the keyword first. -/
theorem keyword {text : String} {q : Parser α} {Q : Phrase α} (hq : Reads K q Q) :
    Reads K (Parser.requireKeyword text >>= fun _ ↦ q) (Phrase.keyword text >>= fun _ ↦ Q) :=
  take (Parser.views_requireKeyword text) hq

/-- A phrase behind a name. The span of the name is no part of what is read. -/
theorem requireName {expected : String} {f : String × Span → Parser α} {Q : String → Phrase α}
    (hf : ∀ text span, Reads K (f (text, span)) (Q text)) :
    Reads K (Parser.requireName expected >>= f) (Phrase.name >>= Q) where
  sound s a s' h := by
    obtain ⟨⟨text, span⟩, s₁, hname, ha⟩ := Parser.bind_eq_ok_iff.1 h
    obtain ⟨hcurrent, rfl⟩ := Parser.requireName_eq_ok_iff.1 hname
    obtain ⟨back, hback, hQ⟩ := (hf text _).sound _ a s' ha
    have htake := (Parser.views_requireName expected).taken hname
    exact ⟨_, htake.trans hback, Phrase.name_bind_iff.2 ⟨text, _, by simp [hcurrent], hQ⟩⟩
  complete e ts rest x h hfree := by
    obtain ⟨text, _, hts, hback⟩ := Phrase.name_bind_iff.1 h
    obtain ⟨⟨kind, span⟩, back, rfl, rfl, rfl⟩ := List.map_eq_cons_iff.1 hts
    obtain ⟨a, e', ha, hx⟩ := (hf text span).complete span.stop back rest x hback hfree
    exact ⟨a, e', Parser.bind_eq_ok_iff.2 ⟨(text, span), _, rfl, ha⟩, hx⟩

theorem name (expected : String) : Reads ∅ (Parser.name expected) Phrase.name := by
  have h : Reads ∅ (Parser.name expected) (Phrase.name >>= Pure.pure) :=
    requireName fun text _ ↦ pure rfl
  exact h.congr fun ts x ↦ Phrase.bind_pure_iff

end Reads

end TypeSystem
