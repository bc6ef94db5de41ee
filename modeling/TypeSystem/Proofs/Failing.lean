import Mathlib.Data.List.Forall2

/-!
# Steps that may fail

What comes of steps of which each may fail: they succeed if all of them do, and otherwise fail as the first that
does.
-/

namespace Except

variable {ε ε' α β : Type} {first : Except ε α} {next : α → Except ε β} {a : α} {b : β} {e : ε}

/-- Two steps succeed just if the first does and the second does with what it gives. -/
theorem bind_eq_ok_iff : (first >>= next) = .ok b ↔ ∃ a, first = .ok a ∧ next a = .ok b := by
  cases first with
  | error e =>
    constructor
    · intro h
      cases h
    · rintro ⟨a, h, -⟩
      cases h
  | ok a =>
    constructor
    · intro h
      exact ⟨a, rfl, h⟩
    · rintro ⟨a', h, hnext⟩
      cases h
      exact hnext

/-- Two steps fail with the error of the first, or with that of the second if the first succeeds. -/
theorem bind_eq_error_iff :
    (first >>= next) = .error e ↔ first = .error e ∨ ∃ a, first = .ok a ∧ next a = .error e := by
  cases first with
  | error e' =>
    show Except.error e' = .error e ↔ _
    simp
  | ok a =>
    show next a = .error e ↔ _
    simp

theorem map_eq_ok_iff {f : α → β} : first.map f = .ok b ↔ ∃ a, first = .ok a ∧ f a = b := by
  cases first <;> simp [Except.map]

theorem mapError_eq_error_iff {f : ε → ε'} {e' : ε'} :
    first.mapError f = .error e' ↔ ∃ e, first = .error e ∧ f e = e' := by
  cases first <;> simp [Except.mapError]

theorem mapError_eq_ok_iff {f : ε → ε'} : first.mapError f = .ok a ↔ first = .ok a := by
  cases first <;> simp [Except.mapError]

/-- A step for each of some values succeeds just if every one does, and gives what each gives, in order. -/
theorem mapM_eq_ok_iff {f : α → Except ε β} {as : List α} {bs : List β} :
    as.mapM f = .ok bs ↔ List.Forall₂ (fun a b ↦ f a = .ok b) as bs := by
  induction as generalizing bs with
  | nil =>
    rw [List.mapM_nil, List.forall₂_nil_left_iff]
    exact ⟨fun h ↦ (Except.ok.inj h).symm, fun h ↦ congrArg Except.ok h.symm⟩
  | cons a as ih =>
    rw [List.mapM_cons, bind_eq_ok_iff, List.forall₂_cons_left_iff]
    constructor
    · rintro ⟨b, hb, h⟩
      obtain ⟨others, hothers, h⟩ := bind_eq_ok_iff.1 h
      exact ⟨b, others, hb, ih.1 hothers, (Except.ok.inj h).symm⟩
    · rintro ⟨b, others, hb, hothers, rfl⟩
      exact ⟨b, hb, bind_eq_ok_iff.2 ⟨others, ih.2 hothers, rfl⟩⟩

/-- Where a list of steps fails, one of them does. -/
theorem exists_mem_of_mapM_eq_error {f : α → Except ε β} {as : List α} (h : as.mapM f = .error e) :
    ∃ a ∈ as, f a = .error e := by
  induction as with
  | nil => cases h
  | cons a as ih =>
    rw [List.mapM_cons, bind_eq_error_iff] at h
    rcases h with h | ⟨b, -, h⟩
    · exact ⟨a, List.mem_cons_self, h⟩
    · rcases bind_eq_error_iff.1 h with h | ⟨_, -, h⟩
      · obtain ⟨a', hmem, ha'⟩ := ih h
        exact ⟨a', List.mem_cons_of_mem a hmem, ha'⟩
      · cases h

end Except
