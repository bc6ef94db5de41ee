import TypeSystem.Proofs.Reading.Legible
import TypeSystem.Reading.Source

/-!
# Texts put one after another

A text continued by another on the next line defines what the two define, one after the other
(`joined_reads_as_merged`). On the side of the tokens this is because neither text has an error, so that
the first ends before the new line and the second begins after it as by itself (`significant_lex_joined`).
On the side of the language it is because a document is any number of items, so that two documents are one
(`document_append`). That no item of the first text goes on into the second needs no proof here: the run of
tokens as a whole is a document, and it is read as what it stands for.
-/

namespace TypeSystem

/-! ### Documents one after another -/

/-- Two lists of one phrase are one list. -/
theorem Phrase.Many.append {α : Type} {P : Phrase α} {ts us : List TokenKind} {as bs : List α}
    (h : Many P ts as) (h' : Many P us bs) : Many P (ts ++ us) (as ++ bs) := by
  induction h with
  | nil => exact h'
  | cons first _ ih =>
    rw [List.append_assoc]
    exact .cons first ih

/-- Two documents, one after the other, are a document. -/
theorem Phrase.document_append {admits : TypeReference → Prop} {ts us : List TokenKind} {a b : Document}
    (ha : Phrase.document admits ts a) (hb : Phrase.document admits us b) :
    Phrase.document admits (ts ++ us) (a ++ b) := by
  obtain ⟨items, hitems, rfl⟩ := Phrase.bind_return_iff.1 ha
  obtain ⟨others, hothers, rfl⟩ := Phrase.bind_return_iff.1 hb
  rw [← Document.ofDefinitions_append]
  exact Phrase.bind_return_iff.2 ⟨items ++ others, hitems.append hothers, rfl⟩

/-- Forgetting spans commutes with putting documents together. -/
theorem Document.withoutSpans_append (a b : Document) :
    withoutSpans (a ++ b) = withoutSpans a ++ withoutSpans b := by
  show HasSpans.mapSpans _ (append a b) = append (HasSpans.mapSpans _ a) (HasSpans.mapSpans _ b)
  simp [append, HasSpans.mapSpans]

/-! ### Texts one after another -/

/-- Only the kinds of the tokens matter for what is significant. -/
theorem significant_eq_of_map_kind {ts us : List Token} (h : ts.map Token.kind = us.map Token.kind) :
    significant ts = significant us := by
  have hkinds (ts : List Token) : significant ts =
      ((ts.map Token.kind).takeWhile fun k ↦ k ≠ .endOfInput).filter fun k ↦ !(k.sort = .comment) := by
    rw [significant, List.takeWhile_map, List.filter_map]
    rfl
  rw [hkinds, hkinds, h]

/-- What is significant in two texts without errors is significant in the first continued by the second on
the next line. -/
theorem significant_lex_joined {a b : String} (ha : ∀ t ∈ Token.lex a, t.kind.IsValid)
    (hb : ∀ t ∈ Token.lex b, t.kind.IsValid) :
    significant (Token.lex (a ++ "\n" ++ b)) = significant (Token.lex a) ++ significant (Token.lex b) := by
  obtain ⟨ts, hts, hend, hcontinued⟩ := Token.exists_lexFrom_append_lineEnd ha
  have htext : (a ++ "\n" ++ b).toList = a.toList ++ '\n' :: b.toList := by simp
  have hgap : ∀ c ∈ ['\n'], Text.isIgnored c := by
    intro c hc
    rw [List.mem_singleton.1 hc]
    rfl
  -- the second text begins after the line end
  have hsplit : Token.lex (a ++ "\n" ++ b) =
      ts ++ Token.lexFrom ((Place.origin.past a.toList).past ['\n']) b.toList := by
    rw [Token.lex, htext, hcontinued '\n' b.toList rfl, ← Token.lexFrom_gap_append hgap]
    rfl
  have hkinds : (Token.lexFrom ((Place.origin.past a.toList).past ['\n']) b.toList).map Token.kind =
      (Token.lex b).map Token.kind := by
    have hmoved : (Token.lex b).map (Token.move (.bytes _)) =
        (Token.lexFrom ((Place.origin.past a.toList).past ['\n']) b.toList).map (Token.move (.bytes _)) :=
      Token.map_move_lexFrom hb (Nat.add_comm _ _)
    replace hmoved := congrArg (List.map Token.kind) hmoved
    rw [Token.map_kind_map_move, Token.map_kind_map_move] at hmoved
    exact hmoved.symm
  have hfirst : significant (Token.lex a) = (ts.filter fun t ↦ !t.isComment).map Token.kind := by
    rw [Token.lex, hts, significant_append hend, significant_endAt, List.append_nil]
  rw [hsplit, significant_append hend, significant_eq_of_map_kind hkinds, hfirst]

/-- A text continued by another is read as the two documents together. -/
theorem exists_ofText_joined {a b : String} {first second : Document} (ha : Document.ofText a = .ok first)
    (hb : Document.ofText b = .ok second) :
    ∃ document, Document.ofText (a ++ "\n" ++ b) = .ok document ∧
      withoutSpans document = withoutSpans (first ++ second) := by
  refine exists_ofTokens_eq_of_document none ?_
  rw [significant_lex_joined (isValid_of_ofTokens_eq ha) (isValid_of_ofTokens_eq hb),
    Document.withoutSpans_append]
  exact Phrase.document_append (document_of_ofTokens_eq ha) (document_of_ofTokens_eq hb)

/-- Documents are merged up to their spans as they are without spans. -/
theorem Document.withoutSpans_append_congr {a a' b b' : Document} (ha : withoutSpans a = withoutSpans a')
    (hb : withoutSpans b = withoutSpans b') : withoutSpans (a ++ b) = withoutSpans (a' ++ b') := by
  rw [withoutSpans_append, withoutSpans_append, ha, hb]

/-- Texts, each continued by the next one, are read as their documents merged. -/
theorem exists_ofText_intercalate {bodies : List String} {documents : List Document}
    (h : List.Forall₂ (fun body document ↦ Document.ofText body = .ok document) bodies documents)
    (hne : bodies ≠ []) :
    ∃ document, Document.ofText ("\n".intercalate bodies) = .ok document ∧
      withoutSpans document = withoutSpans (Document.mergeAll documents) := by
  induction h with
  | nil => exact absurd rfl hne
  | @cons body document bodies documents hbody hbodies ih =>
    cases hbodies with
    | nil =>
      refine ⟨document, by rw [String.intercalate_singleton, hbody], ?_⟩
      rw [Document.mergeAll_cons]
      exact congrArg withoutSpans document.append_empty.symm
    | cons hnext hothers =>
      obtain ⟨others, hread, heq⟩ := ih (List.cons_ne_nil _ _)
      obtain ⟨joined, hjoined, hmerged⟩ := exists_ofText_joined hbody hread
      refine ⟨joined, by rw [String.intercalate_cons_cons, hjoined], ?_⟩
      rw [hmerged, Document.mergeAll_cons]
      exact Document.withoutSpans_append_congr rfl heq

/-- **How a text is split over sources does not change what it means.** A text continued by another on the
next line is read as the two documents merged, and so is any number of texts, one after another on lines
of their own. -/
theorem joined_reads_as_merged :
    (∀ {a b : String} {first second : Document}, Document.ofText a = .ok first →
      Document.ofText b = .ok second → ∃ document, Document.ofText (a ++ "\n" ++ b) = .ok document ∧
        withoutSpans document = withoutSpans (first.merge [second]) ∧
        withoutSpans document = withoutSpans (Document.mergeAll [first, second])) ∧
    ∀ {bodies : List String} {documents : List Document}, bodies ≠ [] →
      List.Forall₂ (fun body document ↦ Document.ofText body = .ok document) bodies documents →
      ∃ document, Document.ofText ("\n".intercalate bodies) = .ok document ∧
        withoutSpans document = withoutSpans (Document.mergeAll documents) := by
  refine ⟨fun {a b first second} ha hb ↦ ?_, fun hne h ↦ exists_ofText_intercalate h hne⟩
  obtain ⟨document, hread, heq⟩ := exists_ofText_joined ha hb
  have hmerge : first.merge [second] = first ++ second := rfl
  have hmergeAll : Document.mergeAll [first, second] = first ++ second := by
    rw [Document.mergeAll_cons]
    rfl
  exact ⟨document, hread, by rw [hmerge, heq], by rw [hmergeAll, heq]⟩

/-- Two texts, of which the first ends in a comment that the line end closes. -/
theorem joined_reads_two_scalars :
    ∃ first second, Document.ofText "scalar A #" = .ok first ∧ Document.ofText "scalar B" = .ok second ∧
      (∃ document, Document.ofText ("scalar A #" ++ "\n" ++ "scalar B") = .ok document ∧
        withoutSpans document = withoutSpans (first.merge [second])) ∧
      ∃ document, Document.ofText ("\n".intercalate ["scalar A #", "scalar B"]) = .ok document ∧
        withoutSpans document = withoutSpans (Document.mergeAll [first, second]) := by
  have hfirst : (Document.ofText "scalar A #").isOk := by decide +kernel
  have hsecond : (Document.ofText "scalar B").isOk := by decide +kernel
  obtain ⟨first, hfirst⟩ := exists_eq_ok_of_isOk hfirst
  obtain ⟨second, hsecond⟩ := exists_eq_ok_of_isOk hsecond
  obtain ⟨document, hjoined, hmerge, -⟩ := joined_reads_as_merged.1 hfirst hsecond
  exact ⟨first, second, hfirst, hsecond, ⟨document, hjoined, hmerge⟩,
    joined_reads_as_merged.2 (List.cons_ne_nil _ _) (.cons hfirst (.cons hsecond .nil))⟩

end TypeSystem
