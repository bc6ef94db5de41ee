import TypeSystem.Proofs.Reading.Reads

/-!
# Loops that read a phrase

A loop makes its rounds until one gives nothing. A round reads one more item or else what ends the loop,
and the tokens that must not follow are not the same for the two: `ReadsOrEnds`. What the loop as a whole
reads is told from state to state (`Loop`), and for the loop that lists its items it is the items, one
after another, and then the end (`reads_many`).
-/

namespace TypeSystem

variable {α σ : Type} {K K₁ K₂ : Set TokenKind}

/-! ### Rounds -/

/-- The parser reads the phrase `P` and gives its value, in front of anything that does not begin with a
token of `K₁`, or it reads the phrase `E` and gives nothing, in front of anything that does not begin with
a token of `K₂`. -/
structure ReadsOrEnds [HasSpans α] (K₁ K₂ : Set TokenKind) (item : Parser (Option α)) (P : Phrase α)
    (E : Phrase Unit) : Prop where
  sound : ∀ s r s', item s = (.ok r, s') → ∃ ts, Taken s ts s' ∧
    match r with
    | some a => P (ts.map Token.kind) (withoutSpans a)
    | none => E (ts.map Token.kind) ()
  more : ∀ e ts rest x, P (ts.map Token.kind) x → Free K₁ (rest.map Token.kind) →
    ∃ a e', item (.after e (ts ++ rest)) = (.ok (some a), .after e' rest) ∧ withoutSpans a = x
  last : ∀ e ts rest, E (ts.map Token.kind) () → Free K₂ (rest.map Token.kind) →
    ∃ e', item (.after e (ts ++ rest)) = (.ok none, .after e' rest)
  nonempty : ∀ x, ¬ P [] x

/-- More tokens may be kept from following the end. -/
theorem ReadsOrEnds.mono [HasSpans α] {item : Parser (Option α)} {P : Phrase α} {E : Phrase Unit}
    (h : ReadsOrEnds K₁ K₂ item P E) {K₃ : Set TokenKind} (hK : K₂ ⊆ K₃) :
    ReadsOrEnds K₁ K₃ item P E where
  sound := h.sound
  more := h.more
  last e ts rest hend hfree := h.last e ts rest hend (hfree.mono hK)
  nonempty := h.nonempty

/-- A round that gives an item takes something. -/
theorem ReadsOrEnds.left_lt [HasSpans α] {item : Parser (Option α)} {P : Phrase α} {E : Phrase Unit}
    (h : ReadsOrEnds K₁ K₂ item P E) {s s' : TokenStream} {a : α} (hround : item s = (.ok (some a), s')) :
    s'.left < s.left := by
  obtain ⟨ts, htaken, hP⟩ := h.sound s (some a) s' hround
  refine htaken.left_lt ?_
  rintro rfl
  exact h.nonempty _ hP

/-- A way from one state to another: some phrases of `More`, each from the state that the one before it
led to, and then the phrase `E`. -/
inductive Phrase.Loop (More : σ → Phrase σ) (E : Phrase Unit) : σ → List TokenKind → σ → Prop where
  | last {x : σ} {ts : List TokenKind} (ends : E ts ()) : Loop More E x ts x
  | more {x y z : σ} {front back : List TokenKind} (round : More x front y)
      (others : Loop More E y back z) : Loop More E x (front ++ back) z

/-- A loop shields against what a round does not begin with, as its end does. -/
theorem Phrase.Shields.loop {More : σ → Phrase σ} {E : Phrase Unit}
    (hMore : ∀ x, (More x).Shields K₁ ∅) (hE : E.Shields K₁ K₂) (x : σ) :
    Phrase.Shields K₁ K₂ (Phrase.Loop More E x) := by
  intro ts y rest h hfree
  cases h with
  | last ends => exact hE _ () _ ends hfree
  | more round _ =>
    rw [List.append_assoc]
    exact hMore _ _ _ _ round (free_empty _)

/-- A phrase that shields from something takes at least one token. -/
theorem Phrase.Shields.not_nil {P : Phrase α} {k : TokenKind} (h : P.Shields {k} ∅) (x : α) :
    ¬ P [] x := by
  intro hP
  have hfree : Free {k} [k] := h [] x [k] hP (free_empty _)
  exact free_cons.1 hfree rfl

section Iterate

variable [HasSpans σ] {step : σ → Parser (Option σ)} {More : σ → Phrase σ} {E : Phrase Unit}

/-- What a loop takes is a way from state to state. -/
theorem sound_iterate
    (hstep : ∀ state, ReadsOrEnds K₁ K₂ (step state) (More (withoutSpans state)) E) {state state' : σ}
    {s s' : TokenStream} (h : Parser.iterate step state s = (.ok state', s')) :
    ∃ ts, Taken s ts s' ∧
      Phrase.Loop More E (withoutSpans state) (ts.map Token.kind) (withoutSpans state') := by
  -- induction on the rounds; the last case is a round that takes nothing, which gives no item
  fun_induction Parser.iterate step state s with
  | case1 state s e s₁ heq => cases h
  | case2 state s s₁ heq =>
    cases h
    obtain ⟨ts, htaken, hE⟩ := (hstep _).sound s none s' heq
    exact ⟨ts, htaken, .last hE⟩
  | case3 state s state₁ s₁ heq _ ih =>
    obtain ⟨front, hfront, hMore⟩ := (hstep state).sound s (some state₁) s₁ heq
    obtain ⟨back, hback, hLoop⟩ := ih h
    refine ⟨front ++ back, hfront.trans hback, ?_⟩
    rw [List.map_append]
    exact .more hMore hLoop
  | case4 state s state₁ s₁ heq hleft =>
    exact absurd ((hstep state).left_lt heq) hleft

/-- A loop goes every way from state to state. -/
theorem complete_iterate
    (hstep : ∀ state, ReadsOrEnds K₁ K₂ (step state) (More (withoutSpans state)) E)
    (hMore : ∀ x, (More x).Shields K₁ ∅) (hE : E.Shields K₁ K₂) {x y : σ} {kinds : List TokenKind}
    (h : Phrase.Loop More E x kinds y) {state : σ} (hstate : withoutSpans state = x) {e : Position}
    {ts rest : List Token} (hts : ts.map Token.kind = kinds) (hfree : Free K₂ (rest.map Token.kind)) :
    ∃ state' e', Parser.iterate step state (.after e (ts ++ rest)) = (.ok state', .after e' rest) ∧
      withoutSpans state' = y := by
  -- induction on the way; the state and the stream are those that the loop has come to
  induction h generalizing state e ts with
  | last ends =>
    subst hts
    obtain ⟨e', hnone⟩ := (hstep state).last e ts rest ends hfree
    refine ⟨state, e', ?_, hstate⟩
    rw [Parser.iterate, hnone]
  | more round others ih =>
    subst hstate
    obtain ⟨front, back, rfl, rfl, rfl⟩ := List.map_eq_append_iff.1 hts
    have hshielded := (Phrase.Shields.loop hMore hE _).free others hfree
    obtain ⟨state₁, e₁, hsome, hstate₁⟩ := (hstep state).more e front (back ++ rest) _ round hshielded
    obtain ⟨state', e', hrest, hy⟩ := ih hstate₁ (e := e₁) rfl
    refine ⟨state', e', ?_, hy⟩
    -- the round takes something, so the loop goes on
    have hfront : front ≠ [] := by
      rintro rfl
      exact (hstep state).nonempty _ round
    have hleft : (TokenStream.after e₁ (back ++ rest)).left <
        (TokenStream.after e (front ++ (back ++ rest))).left := by
      have := List.length_pos_iff.2 hfront
      simp only [TokenStream.after, List.length_append]
      omega
    rw [List.append_assoc, Parser.iterate, hsome]
    simp only [hleft, if_true, hrest]

/-- **A loop reads a loop**, if each round reads a round or ends. -/
theorem reads_iterate
    (hstep : ∀ state, ReadsOrEnds K₁ K₂ (step state) (More (withoutSpans state)) E)
    (hMore : ∀ x, (More x).Shields K₁ ∅) (hE : E.Shields K₁ K₂) (state : σ) :
    Reads K₂ (Parser.iterate step state) (Phrase.Loop More E (withoutSpans state)) where
  sound _ _ _ h := sound_iterate hstep h
  complete _ _ _ _ h hfree := complete_iterate hstep hMore hE h rfl rfl hfree

end Iterate

/-! ### Rounds that list items -/

namespace Parser

/-- The rounds of a loop that lists its items. Each gives one of them, until one gives none or has taken
nothing. -/
inductive Rounds (item : Parser (Option α)) : TokenStream → List α → TokenStream → Prop where
  | last {s s' : TokenStream} (ends : item s = (.ok none, s')) : Rounds item s [] s'
  | stuck {s s' : TokenStream} {a : α} (round : item s = (.ok (some a), s')) (not_lt : ¬ s'.left < s.left) :
    Rounds item s [a] s'
  | more {s s₁ s' : TokenStream} {a : α} {as : List α} (round : item s = (.ok (some a), s₁))
      (others : Rounds item s₁ as s') : Rounds item s (a :: as) s'

variable {item : Parser (Option α)} {s s' : TokenStream}

/-- A loop that lists items collects them in reverse, one round for each. -/
theorem exists_rounds_of_iterate {found reversed : List α}
    (h : iterate (fun found ↦ do return (← item).map (· :: found)) found s = (.ok reversed, s')) :
    ∃ as, Rounds item s as s' ∧ reversed = as.reverse ++ found := by
  fun_induction iterate _ found s with
  | case1 found s e s₁ heq => cases h
  | case2 found s s₁ heq =>
    obtain ⟨r, s₂, hr, heq⟩ := bind_eq_ok_iff.1 heq
    cases r with
    | some a => cases heq
    | none =>
      cases heq
      cases h
      exact ⟨[], .last hr, rfl⟩
  | case3 found s found₁ s₁ heq hleft ih =>
    obtain ⟨r, s₂, hr, heq⟩ := bind_eq_ok_iff.1 heq
    cases r with
    | none => cases heq
    | some a =>
      cases heq
      -- what this round finds is in front of the list when the others begin
      obtain ⟨as, hrounds, rfl⟩ := ih h
      exact ⟨a :: as, .more hr hrounds, by simp⟩
  | case4 found s found₁ s₁ heq hleft =>
    obtain ⟨r, s₂, hr, heq⟩ := bind_eq_ok_iff.1 heq
    cases r with
    | none => cases heq
    | some a =>
      cases heq
      cases h
      exact ⟨[a], .stuck hr hleft, rfl⟩

/-- A list of items is read in so many rounds. -/
theorem rounds_of_many {as : List α} (h : many item s = (.ok as, s')) : Rounds item s as s' := by
  obtain ⟨reversed, s₁, hloop, heq⟩ := bind_eq_ok_iff.1 h
  cases heq
  obtain ⟨as, hrounds, rfl⟩ := exists_rounds_of_iterate hloop
  rwa [List.append_nil, List.reverse_reverse]

end Parser

/-! ### Lists of items -/

/-- One more item, put in front of those found before it. -/
def Phrase.inFront (P : Phrase α) (found : List α) : Phrase (List α) := fun ts x ↦
  ∃ a, P ts a ∧ x = a :: found

/-- What a loop that lists its items goes through: the items, the last one first, and the end. -/
theorem Phrase.loop_cons_iff {P : Phrase α} {E : Phrase Unit} {found r : List α}
    {ts : List TokenKind} :
    Phrase.Loop P.inFront E found ts r ↔
      ∃ as front back, ts = front ++ back ∧ Phrase.Many P front as ∧ E back () ∧
        r = as.reverse ++ found := by
  constructor
  · intro h
    induction h with
    | last ends => exact ⟨[], [], _, rfl, .nil, ends, rfl⟩
    | more round _ ih =>
      obtain ⟨a, ha, rfl⟩ := round
      obtain ⟨as, front, back, rfl, has, hE, rfl⟩ := ih
      refine ⟨a :: as, _, back, (List.append_assoc _ _ _).symm, .cons ha has, hE, ?_⟩
      rw [List.reverse_cons, List.append_assoc]
      rfl
  · rintro ⟨as, front, back, rfl, has, hE, rfl⟩
    induction has generalizing found with
    | nil => exact .last hE
    | cons ha _ ih =>
      rw [List.append_assoc, List.reverse_cons, List.append_assoc]
      exact .more ⟨_, ha, rfl⟩ ih

variable [HasSpans α]

/-- A round of the loop that lists its items puts one more in front. -/
theorem readsOrEnds_cons {item : Parser (Option α)} {P : Phrase α} {E : Phrase Unit}
    (h : ReadsOrEnds K₁ K₂ item P E) (found : List α) :
    ReadsOrEnds K₁ K₂ (do return (← item).map (· :: found)) (P.inFront (withoutSpans found)) E where
  sound s r s' hround := by
    obtain ⟨r', _, hr', heq⟩ := Parser.bind_eq_ok_iff.1 hround
    cases heq
    obtain ⟨ts, htaken, hts⟩ := h.sound s r' s' hr'
    refine ⟨ts, htaken, ?_⟩
    cases r' with
    | none => exact hts
    | some a => exact ⟨_, hts, rfl⟩
  more := by
    rintro e ts rest _ ⟨x, hx, rfl⟩ hfree
    obtain ⟨a, e', ha, rfl⟩ := h.more e ts rest x hx hfree
    exact ⟨a :: found, e', Parser.bind_eq_ok_iff.2 ⟨some a, _, ha, rfl⟩, rfl⟩
  last e ts rest hend hfree := by
    obtain ⟨e', hnone⟩ := h.last e ts rest hend hfree
    exact ⟨e', Parser.bind_eq_ok_iff.2 ⟨none, _, hnone, rfl⟩⟩
  nonempty := by
    rintro x ⟨a, ha, -⟩
    exact h.nonempty a ha

/-- The loop that lists its items reads them one after another, and then the end. -/
theorem reads_many {item : Parser (Option α)} {P : Phrase α} {E : Phrase Unit}
    (h : ReadsOrEnds K₁ K₂ item P E) (hP : P.Shields K₁ ∅) (hE : E.Shields K₁ K₂) :
    Reads K₂ (Parser.many item) (do let as ← Phrase.many P; E; return as) := by
  have hMore (x : List α) : (P.inFront x).Shields K₁ ∅ :=
    fun ts _ rest ⟨a, ha, _⟩ hfree ↦ hP ts a rest ha hfree
  have hloop : Reads K₂ (Parser.iterate (fun found ↦ do return (← item).map (· :: found)) [])
      (Phrase.Loop P.inFront E []) :=
    reads_iterate (readsOrEnds_cons h) hMore hE []
  have hreverse (reversed : List α) :
      Reads K₂ (pure reversed.reverse) (pure (withoutSpans reversed).reverse) :=
    .pure List.map_reverse
  refine (hloop.bind hreverse fun x ↦ .pure Set.Subset.rfl _).congr fun ts r ↦ ?_
  constructor
  · rintro ⟨_, front, _, rfl, hfront, rfl, rfl⟩
    obtain ⟨as, items, last, rfl, has, hlast, rfl⟩ := Phrase.loop_cons_iff.1 hfront
    refine ⟨as, items, last, List.append_nil _, has, (), last, [], (List.append_nil _).symm, hlast, rfl, ?_⟩
    rw [List.append_nil, List.reverse_reverse]
  · rintro ⟨as, items, _, rfl, has, ⟨⟩, last, _, rfl, hlast, rfl, rfl⟩
    have hfront := Phrase.loop_cons_iff.2 ⟨r, items, last, rfl, has, hlast, (List.append_nil _).symm⟩
    refine ⟨r.reverse, items ++ last, [], ?_, hfront, rfl, r.reverse_reverse.symm⟩
    rw [List.append_nil, List.append_nil]

/-- The loop that lists its items is ended by a round without one. -/
theorem exists_last_item {item : Parser (Option α)} {P : Phrase α} {E : Phrase Unit}
    (h : ReadsOrEnds K₁ K₂ item P E) {s s' : TokenStream} {as : List α}
    (hmany : Parser.many item s = (.ok as, s')) : ∃ s₁, item s₁ = (.ok none, s') := by
  replace hmany := Parser.rounds_of_many hmany
  induction hmany with
  | last ends => exact ⟨_, ends⟩
  | stuck round not_lt => exact absurd (h.left_lt round) not_lt
  | more _ _ ih => exact ih

/-- A loop whose end takes nothing reads its items one after another. -/
theorem reads_many_of_pure {item : Parser (Option α)} {P : Phrase α}
    (h : ReadsOrEnds K₁ K₂ item P (pure ())) (hP : P.Shields K₁ ∅) (hK : K₁ ⊆ K₂) :
    Reads K₂ (Parser.many item) (Phrase.many P) := by
  refine (reads_many h hP (.pure hK ())).congr fun ts as ↦ ⟨?_, fun has ↦ ?_⟩
  · rintro ⟨as, front, _, rfl, has, ⟨⟩, _, _, rfl, ⟨rfl, -⟩, rfl, rfl⟩
    rw [List.append_nil, List.append_nil]
    exact has
  · exact ⟨as, ts, [], (List.append_nil ts).symm, has, (), [], [], rfl, ⟨rfl, rfl⟩, rfl, rfl⟩

/-! ### Items that a mark ends or begins -/

/-- Up to a mark, each round reads an item; the mark ends the list and is not taken. -/
theorem readsOrEnds_unlessMark {item : Parser α} {P : Phrase α} {close : Punctuator}
    (h : Reads K item P) (hP : P.Shields {.punctuator close} ∅) :
    ReadsOrEnds K ∅ (Parser.unlessMark close item) P (Phrase.mark close) where
  sound s r s' hround := by
    obtain ⟨b, s₁, hb, hround⟩ := Parser.bind_eq_ok_iff.1 hround
    rw [Parser.accepts_acceptMark close s] at hb
    split at hb
    · next hkind =>
      cases hb
      cases hround
      refine ⟨[s.current], .advance (by simp [hkind]), ?_⟩
      rw [List.map_singleton, hkind]
      rfl
    · cases hb
      obtain ⟨a, s₂, ha, heq⟩ := Parser.bind_eq_ok_iff.1 hround
      cases heq
      exact h.sound s a s' ha
  more e ts rest x hx hfree := by
    obtain ⟨a, e', ha, hax⟩ := h.complete e ts rest x hx hfree
    -- an item does not begin with the mark, so the round is not taken for the end
    have hshielded : Free {.punctuator close} ((ts ++ rest).map Token.kind) :=
      hP.free hx (free_empty _)
    have hnot := (Parser.accepts_acceptMark close).eq_false (e := e) (by simp) hshielded
    refine ⟨a, e', Parser.bind_eq_ok_iff.2 ⟨false, _, hnot, ?_⟩, hax⟩
    exact Parser.bind_eq_ok_iff.2 ⟨a, _, ha, rfl⟩
  last e ts rest hend _ := by
    obtain ⟨t, rfl, ht⟩ := List.map_eq_singleton_iff.1 hend
    have hmark := (Parser.accepts_acceptMark close).eq_true (e := e) ht rest
    exact ⟨t.span.stop, Parser.bind_eq_ok_iff.2 ⟨true, _, hmark, rfl⟩⟩
  nonempty := hP.not_nil

/-- Behind a mark, each round reads an item; where there is no mark, the list ends. -/
theorem readsOrEnds_afterMark {item : Parser α} {P : Phrase α} {p : Punctuator} (h : Reads K item P) :
    ReadsOrEnds K {.punctuator p} (Parser.afterMark p item) (do Phrase.mark p; P) (pure ()) where
  sound s r s' hround := by
    obtain ⟨b, s₁, hb, hround⟩ := Parser.bind_eq_ok_iff.1 hround
    rw [Parser.accepts_acceptMark p s] at hb
    split at hb
    · next hkind =>
      cases hb
      obtain ⟨a, s₂, ha, heq⟩ := Parser.bind_eq_ok_iff.1 hround
      cases heq
      obtain ⟨back, hback, hx⟩ := h.sound _ a s' ha
      have htake : Taken s [s.current] s.advance := .advance (by simp [hkind])
      exact ⟨_, htake.trans hback, Phrase.mark_bind_iff.2 ⟨_, by simp [hkind], hx⟩⟩
    · cases hb
      cases hround
      exact ⟨[], .refl s, rfl, rfl⟩
  more e ts rest x h' hfree := by
    obtain ⟨_, hts, hback⟩ := Phrase.mark_bind_iff.1 h'
    obtain ⟨t, back, rfl, ht, rfl⟩ := List.map_eq_cons_iff.1 hts
    obtain ⟨a, e', ha, hax⟩ := h.complete t.span.stop back rest x hback hfree
    have hmark := (Parser.accepts_acceptMark p).eq_true (e := e) ht (back ++ rest)
    refine ⟨a, e', Parser.bind_eq_ok_iff.2 ⟨true, _, hmark, ?_⟩, hax⟩
    exact Parser.bind_eq_ok_iff.2 ⟨a, _, ha, rfl⟩
  last e ts rest hend hfree := by
    obtain rfl := List.map_eq_nil_iff.1 hend.1
    have hnot := (Parser.accepts_acceptMark p).eq_false (e := e) (by simp) hfree
    exact ⟨e, Parser.bind_eq_ok_iff.2 ⟨false, _, hnot, rfl⟩⟩
  nonempty := (Phrase.Shields.mark (by simp)).first.not_nil (k := .endOfInput)

/-- Items that begin with a mark, as long as the mark comes next. -/
theorem readsOrEnds_peek {item : Parser α} {P : Phrase α} {p : Punctuator} (h : Reads K item P)
    (hP : ∀ ts x, P ts x → ts.head? = some (.punctuator p)) :
    ReadsOrEnds K {.punctuator p}
      (do if ← Parser.peekIs (.punctuator p) then return some (← item) else return none) P
      (pure ()) where
  sound s r s' hround := by
    obtain ⟨b, s₁, hb, hround⟩ := Parser.bind_eq_ok_iff.1 hround
    cases hb
    split at hround
    · obtain ⟨a, s₂, ha, heq⟩ := Parser.bind_eq_ok_iff.1 hround
      cases heq
      exact h.sound s a s' ha
    · cases hround
      exact ⟨[], .refl s, rfl, rfl⟩
  more e ts rest x hx hfree := by
    obtain ⟨a, e', ha, hax⟩ := h.complete e ts rest x hx hfree
    have hpeek := Parser.peekIs_of_head? (e := e) (hP _ x hx) rest
    refine ⟨a, e', Parser.bind_eq_ok_iff.2 ⟨true, _, hpeek, ?_⟩, hax⟩
    exact Parser.bind_eq_ok_iff.2 ⟨a, _, ha, rfl⟩
  last e ts rest hend hfree := by
    obtain rfl := List.map_eq_nil_iff.1 hend.1
    exact ⟨e, Parser.bind_eq_ok_iff.2 ⟨false, _, Parser.peekIs_of_free hfree, rfl⟩⟩
  nonempty x hx := by
    have hhead := hP [] x hx
    cases hhead

/-! ### Brackets -/

/-- What stands between brackets is read by what is inside, as long as the closing bracket does not come
first. -/
theorem reads_enclosed {inside : Parser α} {Q : Phrase α} {brackets : Brackets} {construct : String}
    (h : Reads K inside Q) (hQ : ∀ x, ¬ Q [] x) :
    Reads K (Parser.enclosed brackets construct inside) (do
      Phrase.mark brackets.opening
      fun ts x ↦ Q ts x ∧ ts.head? ≠ some (.punctuator brackets.closing)) := by
  refine .mark ?_
  constructor
  · intro s a s' hinside
    obtain ⟨_, s₁, hrefuse, ha⟩ := Parser.bind_eq_ok_iff.1 hinside
    obtain ⟨b, s₂, hb, hrefuse⟩ := Parser.bind_eq_ok_iff.1 hrefuse
    cases hb
    split at hrefuse
    · cases hrefuse
    · next hpeek =>
      cases hrefuse
      obtain ⟨ts, hts, hQts⟩ := h.sound s a s' ha
      -- what was looked at is the first token of the run, which is not empty
      refine ⟨ts, hts, hQts, fun hhead ↦ hpeek (decide_eq_true ?_)⟩
      have hne : ts ≠ [] := by
        rintro rfl
        exact hQ _ hQts
      rw [hts.head?_eq hne, Option.some.injEq] at hhead
      exact TokenKind.sort_eq_punctuator_iff.2 hhead
  · rintro e ts rest x ⟨hx, hhead⟩ hfree
    obtain ⟨a, e', ha, hax⟩ := h.complete e ts rest x hx hfree
    have hshielded : Free {.punctuator brackets.closing} ((ts ++ rest).map Token.kind) := by
      cases ts with
      | nil => exact absurd hx (hQ x)
      | cons t ts => exact free_cons.2 fun hkind ↦ hhead (congrArg some hkind)
    have hpeek := Parser.peekIs_of_free (e := e) hshielded
    have hrefuse : Parser.refuseEmpty brackets.closing construct (.after e (ts ++ rest)) =
        (.ok (), .after e (ts ++ rest)) :=
      Parser.bind_eq_ok_iff.2 ⟨false, _, hpeek, rfl⟩
    exact ⟨a, e', Parser.bind_eq_ok_iff.2 ⟨(), _, hrefuse, ha⟩, hax⟩

omit [HasSpans α] in
/-- Items up to a bracket, which does not come first, are at least one. -/
theorem Phrase.several_of_many {P : Phrase α} {close : Punctuator}
    (hP : P.Shields {.punctuator close} ∅) {ts : List TokenKind} {as : List α} :
    ((do let as ← Phrase.many P; Phrase.mark close; return as : Phrase (List α)) ts as ∧
        ts.head? ≠ some (.punctuator close)) ↔
      (do let as ← Phrase.several P; Phrase.mark close; return as : Phrase (List α)) ts as := by
  constructor
  · rintro ⟨⟨found, front, back, rfl, has, hback⟩, hhead⟩
    refine ⟨found, front, back, rfl, ⟨has, ?_⟩, hback⟩
    rintro rfl
    cases has
    obtain ⟨_, rfl, -⟩ := Phrase.mark_bind_iff.1 hback
    exact hhead rfl
  · rintro ⟨as, front, back, rfl, ⟨has, hne⟩, hback⟩
    refine ⟨⟨as, front, back, rfl, has, hback⟩, fun hhead ↦ ?_⟩
    cases has with
    | nil => exact hne rfl
    | cons ha _ =>
      rw [List.append_assoc] at hhead
      exact hP _ _ _ ha (free_empty _) _ hhead rfl

/-- Items between brackets are read as a phrase between brackets, if no item can begin with what would
close them. -/
theorem reads_block {item : Parser α} {P : Phrase α} {brackets : Brackets} {construct : String}
    (h : Reads K item P) (hP : P.Shields K ∅) (hclose : P.Shields {.punctuator brackets.closing} ∅)
    (hK : .punctuator brackets.closing ∉ K) :
    Reads ∅ (Parser.block brackets construct item) (Phrase.block brackets P) := by
  have hmany := reads_many (readsOrEnds_unlessMark h hclose) hP (.mark hK)
  refine (reads_enclosed hmany ?_).congr fun ts x ↦ ?_
  · rintro x ⟨as, front, back, hts, -, hback⟩
    obtain ⟨_, rfl, -⟩ := Phrase.mark_bind_iff.1 hback
    simp at hts
  · simp only [Phrase.several_of_many hclose]
    rfl

omit [HasSpans α] in
theorem Phrase.head?_of_bind {β : Type} {k : TokenKind} {P : Phrase α} {Q : α → Phrase β}
    (hP : ∀ ts a, P ts a → ts.head? = some k) {ts : List TokenKind} {b : β} (h : (P >>= Q) ts b) :
    ts.head? = some k := by
  obtain ⟨a, front, back, rfl, hfront, -⟩ := h
  rw [List.head?_append, hP front a hfront]
  rfl

omit [HasSpans α] in
theorem Phrase.head?_of_mark {p : Punctuator} {Q : Unit → Phrase α} {ts : List TokenKind} {a : α}
    (h : (Phrase.mark p >>= Q) ts a) : ts.head? = some (.punctuator p) := by
  obtain ⟨back, rfl, -⟩ := Phrase.mark_bind_iff.1 h
  rfl

omit [HasSpans α] in
theorem Phrase.head?_of_keyword {text : String} {Q : Unit → Phrase α} {ts : List TokenKind} {a : α}
    (h : (Phrase.keyword text >>= Q) ts a) : ts.head? = some (.name text) := by
  obtain ⟨back, rfl, -⟩ := Phrase.keyword_bind_iff.1 h
  rfl

/-- A block that may be missing is read if its bracket comes next, and is not there otherwise. -/
theorem reads_optionalBlock {item : Parser α} {P : Phrase α} {brackets : Brackets}
    {construct : String} (h : Reads ∅ (Parser.block brackets construct item) (Phrase.block brackets P)) :
    Reads {.punctuator brackets.opening} (Parser.optionalBlock brackets construct item)
      (Phrase.orEmpty (Phrase.block brackets P)) :=
  .peek (h.mono (Set.empty_subset _)) (fun _ _ ↦ Phrase.head?_of_mark) (.pure rfl)
    (.pure Set.Subset.rfl _)

/-- Behind a mark something is read, and without the mark nothing. -/
theorem reads_afterMark {item : Parser α} {P : Phrase α} {p : Punctuator} (h : Reads K item P)
    (hK : .punctuator p ∈ K) : Reads K (Parser.afterMark p item) (Phrase.afterMark p P) := by
  refine .branch (by simp) (Parser.accepts_acceptMark p) ?_ (.pure rfl) (.pure ?_ none)
  · exact h.bind (fun a ↦ .pure rfl) fun x ↦ .pure Set.Subset.rfl _
  · exact Set.singleton_subset_iff.2 hK

/-- Items with separators are read, with or without one in front. -/
theorem reads_separated {item : Parser α} {P : Phrase α} {p : Punctuator} (h : Reads ∅ item P)
    (hP : P.Shields {.punctuator p} ∅) :
    Reads {.punctuator p} (Parser.separated p item) (Phrase.separated p P) := by
  have hmarked : (do Phrase.mark p; P : Phrase α).Shields ∅ ∅ := .empty ∅ _
  have hothers := reads_many_of_pure (readsOrEnds_afterMark h) hmarked (Set.empty_subset _)
  refine .bind (.present (by simp) (Parser.accepts_acceptMark p)) (fun _ ↦ ?_) fun _ ↦ hP.first
  refine h.andThen fun first ↦ ?_
  exact hothers.bind (fun others ↦ .pure rfl) fun _ ↦ .pure Set.Subset.rfl _

end TypeSystem
