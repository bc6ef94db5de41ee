import TypeSystem.Proofs.Text.Lines

/-!
# Line ends of one kind

A line feed in the place of every line end (`Text.unified`), whether that is a carriage return, a line feed or
the two together, leaves every character where it was: on the same line and in the same column, counted in
characters and in UTF-16 code units. Only the byte offsets change (`Place.past_unified`).

A text may be cut in two before that, unless the cut goes through a line end (`Text.unified_append_iff`); and
a run of characters of one class goes as far as before, if the class has both kinds of line end in it or
neither.
-/

namespace TypeSystem

namespace Text

variable {c : Char} {cs front back : List Char}

/-- The text with a line feed in the place of every line end. -/
def unified : List Char → List Char
  | [] => []
  | '\r' :: '\n' :: cs => '\n' :: unified cs
  | c :: cs => (if c = '\r' then '\n' else c) :: unified cs

/-- A carriage return with a line feed behind it becomes one line feed. -/
theorem unified_return_feed (cs : List Char) : unified ('\r' :: '\n' :: cs) = '\n' :: unified cs := by
  rw [unified]

/-- A carriage return alone becomes a line feed. -/
theorem unified_return (h : cs.head? ≠ some '\n') : unified ('\r' :: cs) = '\n' :: unified cs := by
  rw [unified, if_pos rfl]
  rintro rest - rfl
  exact h rfl

/-- Anything else stays. -/
theorem unified_cons (h : c ≠ '\r') (cs : List Char) : unified (c :: cs) = c :: unified cs := by
  rw [unified, if_neg h]
  exact fun rest heq ↦ absurd heq h

/-- A property of texts holds of all if it holds of the empty one, and stays where a text gets a line end or
another character in front. -/
theorem unified_induction {motive : List Char → Prop} (nil : motive [])
    (return_feed : ∀ cs, motive cs → motive ('\r' :: '\n' :: cs))
    (return_ : ∀ cs, cs.head? ≠ some '\n' → motive cs → motive ('\r' :: cs))
    (other : ∀ c cs, c ≠ '\r' → motive cs → motive (c :: cs)) (cs : List Char) : motive cs := by
  induction cs using unified.induct with
  | case1 => exact nil
  | case2 cs ih => exact return_feed cs ih
  | case3 c cs hnot ih =>
    by_cases hc : c = '\r'
    · subst hc
      refine return_ cs (fun hhead ↦ ?_) ih
      obtain ⟨rest, rfl⟩ := List.head?_eq_some_iff.1 hhead
      exact hnot rest rfl rfl
    · exact other c cs hc ih

/-- A text begins as before, unless it begins with a carriage return. -/
theorem unified_cases (cs : List Char) : cs = [] ∨ (∃ ds es, cs = '\r' :: ds ∧ unified cs = '\n' :: es) ∨
    ∃ c ds, c ≠ '\r' ∧ cs = c :: ds ∧ unified cs = c :: unified ds := by
  induction cs using unified_induction with
  | nil => exact .inl rfl
  | return_feed cs _ => exact .inr (.inl ⟨_, _, rfl, unified_return_feed cs⟩)
  | return_ cs hhead _ => exact .inr (.inl ⟨_, _, rfl, unified_return hhead⟩)
  | other c cs hc _ => exact .inr (.inr ⟨c, cs, hc, rfl, unified_cons hc cs⟩)

/-- Whatever ends a line becomes a line feed. -/
theorem exists_unified_of_isLineEnd (hc : isLineEnd c) (cs : List Char) :
    ∃ ds, unified (c :: cs) = '\n' :: ds := by
  rcases unified_cases (c :: cs) with hnil | ⟨ds, es, -, hcs⟩ | ⟨d, ds, hd, hcons, hcs⟩
  · cases hnil
  · exact ⟨es, hcs⟩
  · obtain ⟨rfl, rfl⟩ := List.cons.inj hcons
    obtain rfl : c = '\n' := by simpa [isLineEnd, hd] using hc
    exact ⟨_, hcs⟩

/-- What begins with no line end began in the same way before. -/
theorem exists_append_of_unified (hfront : '\n' ∉ front) (h : unified cs = front ++ back) :
    ∃ ds, cs = front ++ ds ∧ unified ds = back := by
  induction front generalizing cs with
  | nil => exact ⟨cs, rfl, h⟩
  | cons c front ih =>
    rw [List.mem_cons, not_or] at hfront
    rcases unified_cases cs with rfl | ⟨ds, es, -, hcs⟩ | ⟨d, ds, -, rfl, hcs⟩
    · cases h
    · rw [hcs] at h
      exact absurd (List.cons.inj h).1 hfront.1
    · rw [hcs] at h
      obtain ⟨rfl, hback⟩ := List.cons.inj h
      obtain ⟨es, rfl, hes⟩ := ih hfront.2 hback
      exact ⟨es, rfl, hes⟩

/-! ### Without carriage returns -/

/-- Without a carriage return a text has line ends of one kind already. -/
theorem unified_eq_self (h : '\r' ∉ cs) : unified cs = cs := by
  induction cs with
  | nil => rfl
  | cons c cs ih =>
    rw [List.mem_cons, not_or] at h
    rw [unified_cons (Ne.symm h.1), ih h.2]

/-- No carriage return is left. -/
theorem notMem_unified (cs : List Char) : '\r' ∉ unified cs := by
  induction cs using unified_induction with
  | nil => simp [unified]
  | return_feed cs ih => simp [unified_return_feed, ih]
  | return_ cs hhead ih => simp [unified_return hhead, ih]
  | other c cs hc ih => simp [unified_cons hc, ih, hc.symm]

/-- What holds of all characters, and of a line feed, holds of all that are left. -/
theorem forall_mem_unified {p : Char → Bool} (hp : p '\n') (h : ∀ c ∈ cs, p c) : ∀ c ∈ unified cs, p c := by
  induction cs using unified_induction with
  | nil => exact h
  | return_feed cs ih =>
    rw [unified_return_feed, List.forall_mem_cons]
    exact ⟨hp, ih (List.forall_mem_cons.1 (List.forall_mem_cons.1 h).2).2⟩
  | return_ cs hhead ih =>
    rw [unified_return hhead, List.forall_mem_cons]
    exact ⟨hp, ih (List.forall_mem_cons.1 h).2⟩
  | other c cs hc ih =>
    rw [unified_cons hc, List.forall_mem_cons]
    exact ⟨(List.forall_mem_cons.1 h).1, ih (List.forall_mem_cons.1 h).2⟩

/-! ### Cutting -/

/-- A text may be cut anywhere but between a carriage return and its line feed. -/
theorem unified_append (h : front.getLast? = some '\r' → back.head? ≠ some '\n') :
    unified (front ++ back) = unified front ++ unified back := by
  induction front using unified_induction with
  | nil => rfl
  | return_feed front ih =>
    rw [List.cons_append, List.cons_append, unified_return_feed, unified_return_feed, List.cons_append]
    cases front with
    | nil => rfl
    | cons d front => rw [ih (by simpa using h)]
  | return_ front hhead ih =>
    cases front with
    | nil => exact unified_return (h rfl)
    | cons d front =>
      rw [List.cons_append, unified_return (by simpa using hhead), unified_return hhead, ih (by simpa using h),
        List.cons_append]
  | other c front hc ih =>
    rw [List.cons_append, unified_cons hc, unified_cons hc, List.cons_append]
    cases front with
    | nil => rfl
    | cons d front => rw [ih (by simpa using h)]

/-- A text may be cut in two before its line ends are made of one kind, unless that cuts one in two. -/
theorem unified_append_iff : unified (front ++ back) = unified front ++ unified back ↔
    (front.getLast? = some '\r' → back.head? ≠ some '\n') := by
  refine ⟨fun h hlast hhead ↦ ?_, unified_append⟩
  obtain ⟨front, rfl⟩ := List.getLast?_eq_some_iff.1 hlast
  obtain ⟨back, rfl⟩ := List.head?_eq_some_iff.1 hhead
  -- in one piece there is one line end, in two pieces there are two
  have hlength := congrArg List.length h
  rw [List.append_assoc, List.singleton_append, unified_append (by simp), unified_append (by simp),
    unified_return_feed, unified_return (by simp), unified_cons (c := '\n') (by decide)] at hlength
  simp [unified] at hlength

/-! ### Runs of one class of characters -/

section Runs

variable {p : Char → Bool}

/-- A run of characters of one class is the run of the unified ones, if the class has both line ends or
neither. -/
theorem takeWhile_unified (hp : p '\r' = p '\n') (cs : List Char) :
    (unified cs).takeWhile p = unified (cs.takeWhile p) := by
  induction cs using unified_induction with
  | nil => rfl
  | return_feed cs ih =>
    rw [unified_return_feed, List.takeWhile_cons, List.takeWhile_cons, List.takeWhile_cons, hp, ih]
    split
    · exact (unified_return_feed _).symm
    · rfl
  | return_ cs hhead ih =>
    rw [unified_return hhead, List.takeWhile_cons, List.takeWhile_cons, hp, ih]
    split
    · rw [unified_return]
      cases cs with
      | nil => simp
      | cons d cs =>
        rw [List.takeWhile_cons]
        split
        · exact hhead
        · simp
    · rfl
  | other c cs hc ih =>
    rw [unified_cons hc, List.takeWhile_cons, List.takeWhile_cons, ih]
    split
    · rw [unified_cons hc]
    · rfl

/-- And so is what follows the run. -/
theorem dropWhile_unified (hp : p '\r' = p '\n') (cs : List Char) :
    (unified cs).dropWhile p = unified (cs.dropWhile p) := by
  induction cs using unified_induction with
  | nil => rfl
  | return_feed cs ih =>
    rw [unified_return_feed, List.dropWhile_cons, List.dropWhile_cons, List.dropWhile_cons, hp, ih]
    split
    · rfl
    · exact (unified_return_feed _).symm
  | return_ cs hhead ih =>
    rw [unified_return hhead, List.dropWhile_cons, List.dropWhile_cons, hp, ih]
    split
    · rfl
    · rw [unified_return hhead]
  | other c cs hc ih =>
    rw [unified_cons hc, List.dropWhile_cons, List.dropWhile_cons, ih]
    split
    · rfl
    · rw [unified_cons hc]

theorem notMem_takeWhile (hp : p '\r' = false) (cs : List Char) : '\r' ∉ cs.takeWhile p := by
  intro hmem
  have htrue := List.mem_takeWhile_imp hmem
  rw [hp] at htrue
  cases htrue

end Runs

end Text

open Text

/-! ### Positions -/

/-- Two positions are the same but for their byte offsets. -/
structure Position.SameButOffset (p q : Position) : Prop where
  line : p.line = q.line
  column : p.column = q.column
  unit16 : p.unit16 = q.unit16

namespace Place

/-- A place is behind a carriage return exactly if the character just passed is one. -/
theorem afterReturn_advance (p : Place) (c : Char) : (p.advance c).afterReturn = decide (c = '\r') := by
  by_cases hfeed : c = '\n'
  · cases hp : p.afterReturn <;> simp [advance, hfeed, hp]
  · by_cases hreturn : c = '\r' <;> simp [advance, hfeed, hreturn]

/-- A place that is clear of a text is clear of its front. -/
theorem Clear.left {p : Place} (h : p.Clear (front ++ back)) : p.Clear front := by
  intro hafter hhead
  refine h hafter ?_
  rw [List.head?_append, hhead]
  rfl

/-- Right behind a carriage return the last character is one. -/
theorem getLast?_of_afterReturn {p : Place} {cs : List Char} (hne : cs ≠ [])
    (h : (p.past cs).afterReturn = true) : cs.getLast? = some '\r' := by
  obtain ⟨front, c, rfl⟩ := (List.eq_nil_or_concat' cs).resolve_left hne
  rw [past_append, past_cons, past_nil, afterReturn_advance, decide_eq_true_eq] at h
  rw [List.getLast?_concat, h]

/-- Passing a text and passing it with line ends of one kind leads to the same position but for the byte
offset. -/
theorem past_unified {p q : Place} {cs : List Char} (hpos : p.pos.SameButOffset q.pos)
    (hq : q.afterReturn = false) (hclear : p.Clear cs) :
    (p.past cs).pos.SameButOffset (q.past (unified cs)).pos ∧ (q.past (unified cs)).afterReturn = false := by
  obtain ⟨hline, hcolumn, hunit⟩ := hpos
  induction cs using unified_induction generalizing p q with
  | nil => exact ⟨⟨hline, hcolumn, hunit⟩, hq⟩
  | return_feed cs ih =>
    rw [unified_return_feed, past_cons, past_cons, past_cons]
    refine ih ?_ ?_ ?_ ?_ ?_ <;> simp [advance, hq, hline, Clear]
  | return_ cs hhead ih =>
    rw [unified_return hhead, past_cons, past_cons]
    refine ih ?_ (fun _ ↦ hhead) ?_ ?_ ?_ <;> simp [advance, hq, hline]
  | other c cs hc ih =>
    rw [unified_cons hc, past_cons, past_cons]
    by_cases hfeed : c = '\n'
    · have hp : p.afterReturn = false := by
        subst hfeed
        simpa [Clear] using hclear
      refine ih ?_ ?_ ?_ ?_ ?_ <;> simp [advance, hfeed, hp, hq, hline, Clear]
    · refine ih ?_ ?_ ?_ ?_ ?_ <;> simp [advance, hfeed, hc, hline, hcolumn, hunit, Clear]

end Place

end TypeSystem
