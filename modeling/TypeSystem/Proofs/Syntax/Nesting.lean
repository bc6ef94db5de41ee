import Mathlib.Data.Nat.Basic
import Mathlib.Order.Basic
import TypeSystem.Proofs.Syntax.Outline

/-!
# Nesting

Tokens of a text stand one behind another and are not empty (`Token.InOrder`). Nodes that are laid over such
tokens are like brackets: those beside each other are disjoint and in order, and each contains the ones
inside it (`Outline.Nested`). If the outermost ones leave out no token (`Outline.Covers`), there is exactly
one of them around each token.

The lists of a document take turns in the text. Its outermost nodes are those of its items in another order
(`perm_tops_ofDefinitions`), and the nodes of one list are some of them, in order
(`nested_of_mem_outlines`).
-/

namespace TypeSystem

open HasOutline (outline)

/-! ### Spans beside and inside each other -/

namespace Span

/-- One span has ended where another begins. -/
def Before (a b : Span) : Prop := a.stop.offset ≤ b.start.offset

/-- No byte is in both spans. -/
def Disjoint (a b : Span) : Prop := a.Before b ∨ b.Before a

/-- One span lies within another. -/
def Contains (outer inner : Span) : Prop :=
  outer.start.offset ≤ inner.start.offset ∧ inner.stop.offset ≤ outer.stop.offset

instance (outer inner : Span) : Decidable (outer.Contains inner) :=
  inferInstanceAs (Decidable (_ ∧ _))

theorem Disjoint.symm {a b : Span} (h : a.Disjoint b) : b.Disjoint a := Or.symm h

/-- What has bytes in it is not within a span that has none of them. -/
theorem Disjoint.not_contains {a b : Span} (h : a.Disjoint b) (hb : b.start.offset < b.stop.offset) :
    ¬ a.Contains b := by
  rintro ⟨hstart, hstop⟩
  rcases h with hbefore | hbefore
  · exact absurd (hstop.trans hbefore) hb.not_ge
  · exact absurd (hbefore.trans hstart) hb.not_ge

end Span

/-! ### Tokens in order -/

namespace Token

/-- The tokens stand one behind another, and none is empty. -/
structure InOrder (ts : List Token) : Prop where
  nonempty : ∀ t ∈ ts, t.span.start.offset < t.span.stop.offset
  ordered : ts.Pairwise fun t u ↦ t.span.Before u.span

variable {ts us run : List Token} {t first : Token} {span : Span}

/-- Some of the tokens that stand in order stand in order. -/
theorem InOrder.sublist (h : InOrder us) (hsub : ts.Sublist us) : InOrder ts :=
  ⟨fun t ht ↦ h.nonempty t (hsub.subset ht), h.ordered.sublist hsub⟩

/-- Where a run of tokens stops, one of them stops. -/
theorem exists_lastStop_eq (first : Token) (run : List Token) :
    ∃ last ∈ first :: run, lastStop first.span.stop run = last.span.stop := by
  induction run generalizing first with
  | nil => exact ⟨first, List.mem_cons_self, rfl⟩
  | cons next run ih =>
    obtain ⟨last, hlast, hstop⟩ := ih next
    exact ⟨last, List.mem_cons_of_mem _ hlast, hstop⟩

/-- From the start of the first token to the end of the last one, there are all of them. -/
theorem InOrder.contains (h : InOrder (first :: run)) (ht : t ∈ first :: run) (source : Option String) :
    Span.Contains ⟨first.span.start, lastStop first.span.stop run, source⟩ t.span := by
  induction run generalizing first t with
  | nil =>
    obtain rfl := List.mem_singleton.1 ht
    exact ⟨le_rfl, le_rfl⟩
  | cons next run ih =>
    have hothers : InOrder (next :: run) := h.sublist (List.sublist_cons_self _ _)
    have hfirst := h.nonempty first List.mem_cons_self
    have hnext := hothers.nonempty next List.mem_cons_self
    have hbefore : first.span.stop.offset ≤ next.span.start.offset :=
      (List.pairwise_cons.1 h.ordered).1 next List.mem_cons_self
    rcases List.mem_cons.1 ht with rfl | ht
    · exact ⟨le_rfl, hbefore.trans (hnext.le.trans (ih hothers List.mem_cons_self).2)⟩
    · obtain ⟨hstart, hstop⟩ := ih hothers ht
      exact ⟨hfirst.le.trans (hbefore.trans hstart), hstop⟩

/-- A run of tokens has an extent, from the start of the first to the stop of the last. -/
theorem extent_run (first : Token) (run : List Token) (source : Option String) :
    Extent (first :: run) ⟨first.span.start, lastStop first.span.stop run, source⟩ :=
  ⟨[], first, run, [], by simp, rfl, rfl⟩

/-- An extent starts where one of the tokens starts, and stops where one stops. -/
theorem Extent.exists_ends (h : Extent ts span) :
    ∃ first ∈ ts, ∃ last ∈ ts, span.start = first.span.start ∧ span.stop = last.span.stop := by
  obtain ⟨before, first, run, after, rfl, hstart, hstop⟩ := h
  obtain ⟨last, hlast, heq⟩ := exists_lastStop_eq first run
  exact ⟨first, by simp, last, List.mem_append_left _ (List.mem_append_right _ hlast), hstart, hstop.trans heq⟩

/-- The extent of tokens in order is not empty, as no token is. -/
theorem InOrder.start_lt_stop (h : InOrder ts) (hspan : Extent ts span) :
    span.start.offset < span.stop.offset := by
  obtain ⟨before, first, run, after, rfl, hstart, hstop⟩ := hspan
  have hrun : InOrder (first :: run) :=
    h.sublist ((List.sublist_append_right _ _).trans (List.sublist_append_left _ _))
  have hfirst := hrun.nonempty first List.mem_cons_self
  have hlast := (hrun.contains List.mem_cons_self none).2
  rw [hstart, hstop]
  exact hfirst.trans_le hlast

/-- What begins and ends with tokens of a run lies within the run. -/
theorem InOrder.contains_extent (h : InOrder (first :: run)) (hspan : Extent (first :: run) span)
    (source : Option String) :
    Span.Contains ⟨first.span.start, lastStop first.span.stop run, source⟩ span := by
  obtain ⟨t, ht, u, hu, hstart, hstop⟩ := hspan.exists_ends
  refine ⟨?_, ?_⟩
  · rw [hstart]
    exact (h.contains ht source).1
  · rw [hstop]
    exact (h.contains hu source).2

/-- What begins and ends with earlier tokens is before what begins and ends with later ones. -/
theorem InOrder.before (h : InOrder (ts ++ us)) {a b : Span} (ha : Extent ts a) (hb : Extent us b) :
    a.Before b := by
  obtain ⟨-, -, t, ht, -, hstop⟩ := ha.exists_ends
  obtain ⟨u, hu, -, -, hstart, -⟩ := hb.exists_ends
  rw [Span.Before, hstop, hstart]
  exact (List.pairwise_append.1 h.ordered).2.2 t ht u hu

end Token

/-! ### Nodes in order -/

namespace Outline

variable {source : Option String} {span : Span} {a b : Outline} {ts us : List Token}

/-- The spans of the outermost nodes. -/
def tops : Outline → List Span
  | nil => []
  | cons span _ others => span :: others.tops

@[simp] theorem tops_append (a b : Outline) : (a ++ b).tops = a.tops ++ b.tops := by
  induction a with
  | nil => rfl
  | cons span inside others _ ih => rw [cons_append, tops, tops, ih, List.cons_append]

/-- The outermost spans are some of the spans. -/
theorem mem_spans_of_mem_tops (h : span ∈ a.tops) : span ∈ a.spans := by
  induction a with
  | nil => cases h
  | cons first inside others _ ih =>
    rw [tops, List.mem_cons] at h
    rw [spans, List.mem_cons, List.mem_append]
    exact h.imp_right fun hothers ↦ .inr (ih hothers)

/-- Nodes beside each other are disjoint and in order, and each contains those inside it. -/
inductive Nested : Outline → Prop where
  | nil : Nested .nil
  | cons {span : Span} {inside others : Outline} (contains : ∀ child ∈ inside.tops, span.Contains child)
      (before : ∀ next ∈ others.tops, span.Before next) (nested_inside : Nested inside)
      (nested_others : Nested others) : Nested (.cons span inside others)

/-- Nodes beside one another are nested if each side is, and if the outermost ones of the first come before
those of the second. -/
theorem nested_append_iff :
    (a ++ b).Nested ↔ a.Nested ∧ b.Nested ∧ ∀ x ∈ a.tops, ∀ y ∈ b.tops, x.Before y := by
  induction a with
  | nil => simp [nil_append, Nested.nil, tops]
  | cons span inside others _ ih =>
    rw [cons_append]
    constructor
    · rintro (_ | ⟨contains, before, hinside, hothers⟩)
      rw [tops_append, List.forall_mem_append] at before
      obtain ⟨ha, hb, hbefore⟩ := ih.1 hothers
      exact ⟨.cons contains before.1 hinside ha, hb, List.forall_mem_cons.2 ⟨before.2, hbefore⟩⟩
    · rintro ⟨_ | ⟨contains, before, hinside, ha⟩, hb, hbefore⟩
      obtain ⟨hspan, hbefore⟩ := List.forall_mem_cons.1 hbefore
      refine .cons contains ?_ hinside (ih.2 ⟨ha, hb, hbefore⟩)
      rw [tops_append, List.forall_mem_append]
      exact ⟨before, hspan⟩

/-- The outermost spans stand in order. -/
theorem Nested.pairwise_before (h : a.Nested) : a.tops.Pairwise Span.Before := by
  induction h with
  | nil => exact .nil
  | cons contains before _ _ _ ih => exact .cons before ih

/-- Nodes laid over tokens in order are in order. -/
theorem Over.nested (h : a.Over source ts) (hts : Token.InOrder ts) : a.Nested := by
  induction h with
  | nil => exact .nil
  | @cons inside others gap run rest first over_run over_rest ih ih' =>
    rw [List.append_assoc] at hts
    have hbehind := hts.sublist (List.sublist_append_right _ _)
    have hrun := hbehind.sublist (List.sublist_append_left _ _)
    refine .cons (fun child hchild ↦ ?_) (fun next hnext ↦ ?_) (ih hrun)
      (ih' (hbehind.sublist (List.sublist_append_right _ _)))
    · exact hrun.contains_extent (over_run.extent (mem_spans_of_mem_tops hchild)).1 source
    · exact hbehind.before (Token.extent_run first run source) (over_rest.extent (mem_spans_of_mem_tops hnext)).1

/-- The nodes inside a node lie over the same tokens. -/
theorem Over.inside {inside others : Outline} (h : (Outline.cons span inside others).Over source ts) :
    inside.Over source ts := by
  cases h with
  | @cons _ _ gap run rest first over_run over_rest =>
    have hwide := (Over.nil gap).append (over_run.more rest)
    rwa [nil_append, ← List.append_assoc] at hwide

/-! ### Nodes that cover tokens -/

/-- The outermost nodes cover runs of the tokens that leave out none. -/
inductive Covers (source : Option String) : Outline → List Token → Prop where
  | nil : Covers source .nil []
  | cons {inside others : Outline} {run rest : List Token} {first : Token}
      (over_run : Over source inside (first :: run)) (covers_rest : Covers source others rest) :
      Covers source (.cons ⟨first.span.start, Token.lastStop first.span.stop run, source⟩ inside others)
        (first :: run ++ rest)

namespace Covers

/-- Nodes that cover tokens lie over them. -/
theorem toOver (h : a.Covers source ts) : a.Over source ts := by
  induction h with
  | nil => exact .nil []
  | cons over_run covers_rest ih => exact .cons [] over_run ih

/-- Nodes beside one another cover the tokens of both. -/
theorem append (ha : a.Covers source ts) (hb : b.Covers source us) : (a ++ b).Covers source (ts ++ us) := by
  induction ha with
  | nil => exact hb
  | cons over_run covers_rest ih =>
    rw [cons_append, List.append_assoc]
    exact .cons over_run ih

/-- Each token is within exactly one of the outermost nodes. -/
theorem countP_contains (h : a.Covers source ts) (hts : Token.InOrder ts) {t : Token} (ht : t ∈ ts) :
    a.tops.countP (fun span ↦ span.Contains t.span) = 1 := by
  induction h with
  | nil => cases ht
  | @cons inside others run rest first over_run covers_rest ih =>
    have hrun := hts.sublist (List.sublist_append_left _ _)
    have hrest := hts.sublist (List.sublist_append_right _ _)
    have hlt := hts.nonempty t ht
    rw [tops]
    rcases List.mem_append.1 ht with ht | ht
    · have hothers : others.tops.countP (fun span ↦ span.Contains t.span) = 0 := by
        refine List.countP_eq_zero.2 fun next hnext ↦ ?_
        have hextent := (covers_rest.toOver.extent (mem_spans_of_mem_tops hnext)).1
        have hdisjoint : next.Disjoint t.span := .inr (hts.before (Token.extent_of_mem ht) hextent)
        simpa using hdisjoint.not_contains hlt
      rw [List.countP_cons_of_pos (by simpa using hrun.contains ht source), hothers]
    · have hdisjoint : Span.Disjoint ⟨first.span.start, Token.lastStop first.span.stop run, source⟩ t.span :=
        .inl (hts.before (Token.extent_run first run source) (Token.extent_of_mem ht))
      rw [List.countP_cons_of_neg (by simpa using hdisjoint.not_contains hlt)]
      exact ih hrest ht

end Covers

end Outline

/-! ### The lists of a document -/

section Lists

variable {α : Type} [HasOutline α]

/-- Some of the values have some of the outermost spans, in order. -/
theorem tops_sublist {as bs : List α} (h : as.Sublist bs) :
    (outline as).tops.Sublist (outline bs).tops := by
  induction h with
  | slnil => exact .slnil
  | cons b _ ih =>
    rw [HasOutline.outline_cons, Outline.tops_append]
    exact ih.trans (List.sublist_append_right _ _)
  | cons_cons b _ ih =>
    rw [HasOutline.outline_cons, HasOutline.outline_cons, Outline.tops_append, Outline.tops_append]
    exact ih.append_left _

/-- Some of the values have their nodes in order if all have. -/
theorem Outline.Nested.sublist {as bs : List α} (h : (outline bs).Nested) (hsub : as.Sublist bs) :
    (outline as).Nested := by
  induction hsub with
  | slnil => exact h
  | cons b _ ih =>
    rw [HasOutline.outline_cons] at h
    exact ih (nested_append_iff.1 h).2.1
  | cons_cons b hsub ih =>
    rw [HasOutline.outline_cons] at h ⊢
    obtain ⟨hb, hbs, hbefore⟩ := nested_append_iff.1 h
    exact nested_append_iff.2
      ⟨hb, ih hbs, fun x hx y hy ↦ hbefore x hx y ((tops_sublist hsub).subset hy)⟩

end Lists

/-- The nodes of each list. -/
def Document.outlines (document : Document) : List Outline :=
  [outline document.types, outline document.schemas, outline document.directives,
    outline document.typeExtensions, outline document.schemaExtensions]

variable {items : List Definition} {nodes : Outline}

/-- The outermost spans of a document are those of its five lists. -/
theorem tops_outline (document : Document) :
    (outline document).tops = document.outlines.flatMap Outline.tops := by
  show (_ ++ _ ++ _ ++ _ ++ _ : Outline).tops = _
  simp [Document.outlines]

/-- An item in front adds its nodes to one of the lists. -/
theorem exists_outlines_cons (item : Definition) (document : Document) :
    ∃ front others back, document.outlines = front ++ others :: back ∧
      (document.cons item).outlines = front ++ (outline item ++ others) :: back := by
  cases item with
  | type definition => exact ⟨[], _, _, rfl, rfl⟩
  | schema definition => exact ⟨[_], _, _, rfl, rfl⟩
  | directive definition => exact ⟨[_, _], _, _, rfl, rfl⟩
  | typeExtension ext => exact ⟨[_, _, _], _, _, rfl, rfl⟩
  | schemaExtension ext => exact ⟨[_, _, _, _], _, _, rfl, rfl⟩

/-- The outermost nodes of a document are those of its items, list by list. -/
theorem perm_tops_ofDefinitions (items : List Definition) :
    (outline (Document.ofDefinitions items)).tops.Perm (outline items).tops := by
  induction items with
  | nil => exact .nil
  | cons item items ih =>
    obtain ⟨front, others, back, heq, hcons⟩ := exists_outlines_cons item (.ofDefinitions items)
    rw [tops_outline, heq] at ih
    show (outline ((Document.ofDefinitions items).cons item)).tops.Perm _
    rw [tops_outline, hcons, HasOutline.outline_cons, Outline.tops_append]
    refine .trans ?_ (ih.append_left _)
    simp only [List.flatMap_append, List.flatMap_cons, Outline.tops_append, List.append_assoc]
    exact List.perm_append_comm_assoc _ _ _

/-- The nodes of each list of a document are those of some of its items, in order. -/
theorem exists_sublist_of_mem_outlines (h : nodes ∈ (Document.ofDefinitions items).outlines) :
    ∃ chosen : List Definition, chosen.Sublist items ∧ outline chosen = nodes := by
  induction items generalizing nodes with
  | nil =>
    simp only [Document.ofDefinitions, List.foldr_nil, Document.outlines, Document.empty,
      HasOutline.outline_nil, List.mem_cons, List.not_mem_nil, or_false, or_self] at h
    exact ⟨[], .slnil, h.symm⟩
  | cons item items ih =>
    obtain ⟨front, others, back, heq, hcons⟩ := exists_outlines_cons item (.ofDefinitions items)
    rw [heq] at ih
    have h : nodes ∈ ((Document.ofDefinitions items).cons item).outlines := h
    rw [hcons] at h
    rcases List.mem_append.1 h with h | h
    · obtain ⟨chosen, hsub, hchosen⟩ := ih (List.mem_append_left _ h)
      exact ⟨chosen, hsub.cons item, hchosen⟩
    rcases List.mem_cons.1 h with rfl | h
    · obtain ⟨chosen, hsub, rfl⟩ := ih (List.mem_append_right _ List.mem_cons_self)
      exact ⟨item :: chosen, hsub.cons_cons item, rfl⟩
    · obtain ⟨chosen, hsub, hchosen⟩ := ih (List.mem_append_right _ (List.mem_cons_of_mem _ h))
      exact ⟨chosen, hsub.cons item, hchosen⟩

/-- The nodes of each list of a document are in order if those of its items are. -/
theorem nested_of_mem_outlines (hitems : (outline items).Nested)
    (h : nodes ∈ (Document.ofDefinitions items).outlines) : nodes.Nested := by
  obtain ⟨chosen, hsub, rfl⟩ := exists_sublist_of_mem_outlines h
  exact hitems.sublist hsub

end TypeSystem
