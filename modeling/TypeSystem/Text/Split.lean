/-!
# Splitting text

A text is split at every place where a separator stands, also at its ends and between two separators, so
that the parts and the separator give the text again.
-/

namespace TypeSystem.Text

/-- The parts of a text between separators; there is always one more of them than of the separators. -/
def split (separator : Char) : List Char → List (List Char)
  | [] => [[]]
  | c :: cs =>
    if c = separator then [] :: split separator cs
    else
      match split separator cs with
      | [] => [[c]]
      | part :: parts => (c :: part) :: parts

/-- Parts with a separator between each two. -/
def joined (separator : Char) : List (List Char) → List Char
  | [] => []
  | [part] => part
  | part :: parts => part ++ separator :: joined separator parts

theorem split_ne_nil (separator : Char) (cs : List Char) : split separator cs ≠ [] := by
  cases cs with
  | nil => simp [split]
  | cons c cs =>
    simp only [split]
    split
    · simp
    · split <;> simp

/-- The last part stands behind a separator, unless it is the only one. -/
theorem joined_concat (separator : Char) {parts : List (List Char)} (h : parts ≠ []) (last : List Char) :
    joined separator (parts ++ [last]) = joined separator parts ++ separator :: last := by
  induction parts with
  | nil => exact absurd rfl h
  | cons part parts ih =>
    cases parts with
    | nil => rfl
    | cons second parts =>
      have hothers := ih (List.cons_ne_nil second parts)
      simp only [List.cons_append] at hothers
      simp only [List.cons_append, joined, hothers, List.append_assoc]

/-- Splitting loses nothing. -/
theorem joined_split (separator : Char) (cs : List Char) :
    joined separator (split separator cs) = cs := by
  induction cs with
  | nil => rfl
  | cons c cs ih =>
    have hne := split_ne_nil separator cs
    simp only [split]
    cases hs : split separator cs with
    | nil => exact absurd hs hne
    | cons part parts =>
      rw [hs] at ih
      by_cases hc : c = separator
      · simp [hc, joined, ih]
      · simp only [hc, if_false]
        cases parts with
        | nil => simpa [joined] using ih
        | cons second parts => simpa [joined] using ih

/-- A text is split at each separator in it. -/
theorem split_append_cons (separator : Char) (before after : List Char) :
    split separator (before ++ separator :: after) = split separator before ++ split separator after := by
  induction before with
  | nil => simp [split]
  | cons c before ih =>
    simp only [List.cons_append, split, ih]
    by_cases hc : c = separator
    · simp [hc]
    · cases hs : split separator before with
      | nil => exact absurd hs (split_ne_nil separator before)
      | cons part parts => simp [hc]

/-- A text without a separator is a part by itself. -/
theorem split_of_notMem {separator : Char} {cs : List Char} (h : separator ∉ cs) :
    split separator cs = [cs] := by
  induction cs with
  | nil => rfl
  | cons c cs ih =>
    have hc : c ≠ separator := fun heq ↦ h (heq ▸ List.mem_cons_self)
    rw [split, if_neg hc, ih fun hmem ↦ h (List.mem_cons_of_mem _ hmem)]

/-- No part has a separator in it. -/
theorem notMem_of_mem_split {separator : Char} {cs part : List Char} (h : part ∈ split separator cs) :
    separator ∉ part := by
  induction cs generalizing part with
  | nil =>
    obtain rfl := List.mem_singleton.1 h
    exact List.not_mem_nil
  | cons c cs ih =>
    rw [split] at h
    split at h
    · rcases List.mem_cons.1 h with rfl | h
      · exact List.not_mem_nil
      · exact ih h
    · next hc =>
      cases hs : split separator cs with
      | nil => exact absurd hs (split_ne_nil separator cs)
      | cons first others =>
        rw [hs] at h ih
        rcases List.mem_cons.1 h with rfl | h
        · intro hmem
          rcases List.mem_cons.1 hmem with heq | hmem
          · exact hc heq.symm
          · exact ih List.mem_cons_self hmem
        · exact ih (List.mem_cons_of_mem _ h)

end TypeSystem.Text
