import Mathlib.Order.Bounds.Basic
import Mathlib.Order.MinMax
import Mathlib.Data.List.Basic
import TypeSystem.Text.EditDistance

/-!
# The edit distance is the least number of edits

An edit changes a text in one place, where it inserts, deletes or replaces a character (`Edit`), and edits
are made one after the other (`Edits`). The distance of two texts is the least number of edits that turn the
one into the other (`isLeast_editDistance`).

What the rows hold is the usual recursion (`distance`), here from the front of both texts. It is a number of
edits, as each of its cases adds at most one (`edits_distance`). It is the least, as a single edit of the
first text, wherever it is made, changes it by at most one (`distance_le_of_edit`). The rows recur from the
other end, so they hold it for texts turned around (`Rows.Holds`), which are as far apart
(`distance_reverse`). That a row is written over an old one does not matter, as it is said of its entries only
up to the last one written.
-/

namespace TypeSystem.Text

/-- A single character is inserted, deleted or replaced. -/
inductive Edit : List Char → List Char → Prop where
  | insert (before after : List Char) (c : Char) : Edit (before ++ after) (before ++ c :: after)
  | delete (before after : List Char) (c : Char) : Edit (before ++ c :: after) (before ++ after)
  | replace (before after : List Char) (c d : Char) : Edit (before ++ c :: after) (before ++ d :: after)

/-- So many edits, one after the other. -/
inductive Edits : ℕ → List Char → List Char → Prop where
  | none (cs : List Char) : Edits 0 cs cs
  | more {n : ℕ} {as bs cs : List Char} (first : Edit as bs) (others : Edits n bs cs) : Edits (n + 1) as cs

variable {as bs us vs : List Char} {a c d : Char} {n : ℕ}

/-! ### Edits in longer texts -/

/-- An edit may stand behind one more character. -/
theorem Edit.cons (h : Edit us vs) (c : Char) : Edit (c :: us) (c :: vs) := by
  cases h with
  | insert before after d => exact .insert (c :: before) after d
  | delete before after d => exact .delete (c :: before) after d
  | replace before after d e => exact .replace (c :: before) after d e

/-- So may several. -/
theorem Edits.cons (h : Edits n us vs) (c : Char) : Edits n (c :: us) (c :: vs) := by
  induction h with
  | none => exact .none _
  | more first _ ih => exact .more (first.cons c) ih

/-- An edit of reversed texts is an edit: what stands before and behind changes places. -/
theorem Edit.reverse (h : Edit us vs) : Edit us.reverse vs.reverse := by
  cases h with
  | insert before after c => simpa using Edit.insert after.reverse before.reverse c
  | delete before after c => simpa using Edit.delete after.reverse before.reverse c
  | replace before after c d => simpa using Edit.replace after.reverse before.reverse c d

/-- So it is with several. -/
theorem Edits.reverse (h : Edits n us vs) : Edits n us.reverse vs.reverse := by
  induction h with
  | none => exact .none _
  | more first _ ih => exact .more first.reverse ih

/-! ### The recursion -/

/-- The distance of two texts, from that of what follows their first characters. -/
def distance : List Char → List Char → ℕ
  | [], bs => bs.length
  | a :: as, [] => (a :: as).length
  | a :: as, b :: bs =>
    min (min (distance as (b :: bs) + 1) (distance (a :: as) bs + 1)) (distance as bs + if a = b then 0 else 1)
termination_by as bs => as.length + bs.length

@[simp] theorem distance_nil_left (bs : List Char) : distance [] bs = bs.length := by
  rw [distance]

@[simp] theorem distance_nil_right (as : List Char) : distance as [] = as.length := by
  cases as <;> simp [distance]

/-! ### So many edits are enough -/

/-- There are as many edits between two texts as their distance says. -/
theorem edits_distance (as bs : List Char) : Edits (distance as bs) as bs := by
  fun_induction distance as bs with
  | case1 bs =>
    induction bs with
    | nil => exact .none _
    | cons b bs ih => exact .more (.insert [] [] b) (ih.cons b)
  | case2 a as =>
    induction as generalizing a with
    | nil => exact .more (.delete [] [] a) (.none _)
    | cons a' as ih => exact .more (.delete [] (a' :: as) a) (ih a')
  | case3 a as b bs hdelete hinsert hkeep =>
    -- the least of three: delete first, insert first, or keep or replace first
    rcases min_choice (min (distance as (b :: bs) + 1) (distance (a :: as) bs + 1))
      (distance as bs + if a = b then 0 else 1) with heq | heq
    · rw [heq]
      rcases min_choice (distance as (b :: bs) + 1) (distance (a :: as) bs + 1) with heq | heq
      · rw [heq]
        exact .more (.delete [] as a) hdelete
      · rw [heq]
        exact .more (.insert [] (a :: as) b) (hinsert.cons b)
    · rw [heq]
      split
      · next hsame =>
        rw [hsame]
        exact hkeep.cons b
      · exact .more (.replace [] as a b) (hkeep.cons b)

/-! ### Fewer edits are not -/

/-- Equal texts are at no distance. -/
theorem distance_self (cs : List Char) : distance cs cs = 0 := by
  induction cs with
  | nil => rw [distance_nil_left, List.length_nil]
  | cons c cs ih => simp [distance, ih]

/-- One more character of the second text is at most one more edit. -/
theorem distance_cons_right_le (us vs : List Char) (c : Char) : distance us (c :: vs) ≤ distance us vs + 1 := by
  cases us with
  | nil => simp
  | cons u us =>
    rw [distance]
    omega

/-- One more character of the first text is at most one more edit. -/
theorem distance_cons_left_le (us vs : List Char) (c : Char) : distance (c :: us) vs ≤ distance us vs + 1 := by
  cases vs with
  | nil => simp
  | cons v vs =>
    rw [distance]
    omega

/-- One character less of the first text is at most one more edit. -/
theorem distance_le_cons_left (us vs : List Char) (c : Char) : distance us vs ≤ distance (c :: us) vs + 1 := by
  induction vs with
  | nil =>
    rw [distance_nil_right, distance_nil_right, List.length_cons]
    omega
  | cons v vs ih =>
    have hright := distance_cons_right_le us vs v
    rw [distance]
    split <;> omega

/-- Another character of the first text is at most one more edit. -/
theorem distance_cons_left_le_cons_left (us vs : List Char) (c d : Char) :
    distance (c :: us) vs ≤ distance (d :: us) vs + 1 := by
  induction vs with
  | nil => simp
  | cons v vs ih =>
    rw [distance, distance]
    split <;> split <;> omega

/-- What is at most one more edit is so behind a further character. -/
theorem distance_cons_le_of_forall (h : ∀ ws, distance us ws ≤ distance vs ws + 1) (c : Char)
    (ws : List Char) : distance (c :: us) ws ≤ distance (c :: vs) ws + 1 := by
  induction ws with
  | nil => simpa using h []
  | cons w ws ih =>
    have hdelete := h (w :: ws)
    have hkeep := h ws
    rw [distance, distance]
    omega

/-- Texts that are a single edit apart are at most one edit further from any other. -/
theorem distance_le_of_edit (h : Edit us vs) (ws : List Char) : distance us ws ≤ distance vs ws + 1 := by
  have hbehind (before : List Char) {us vs : List Char} (h : ∀ ws, distance us ws ≤ distance vs ws + 1) :
      ∀ ws, distance (before ++ us) ws ≤ distance (before ++ vs) ws + 1 := by
    induction before with
    | nil => exact h
    | cons c before ih => exact distance_cons_le_of_forall ih c
  cases h with
  | insert before after c => exact hbehind before (distance_le_cons_left after · c) ws
  | delete before after c => exact hbehind before (distance_cons_left_le after · c) ws
  | replace before after c d => exact hbehind before (distance_cons_left_le_cons_left after · c d) ws

/-- No script is shorter than the distance, by induction on the edits: each one makes the distance smaller by
one at most. -/
theorem distance_le_of_edits (h : Edits n us vs) : distance us vs ≤ n := by
  induction h with
  | none cs => exact (distance_self cs).le
  | @more n as bs cs first _ ih =>
    calc distance as cs ≤ distance bs cs + 1 := distance_le_of_edit first cs
      _ ≤ n + 1 := Nat.add_le_add_right ih 1

/-- **The distance is the least number of edits.** There is a script with so many, and none with fewer. -/
theorem isLeast_distance (as bs : List Char) : IsLeast {n | Edits n as bs} (distance as bs) :=
  ⟨edits_distance as bs, fun _ h ↦ distance_le_of_edits h⟩

/-- Texts turned around are as far apart. -/
theorem distance_reverse (as bs : List Char) : distance as.reverse bs.reverse = distance as bs := by
  refine (isLeast_distance as.reverse bs.reverse).unique ⟨(edits_distance as bs).reverse, fun n h ↦ ?_⟩
  have hback := Edits.reverse h
  rw [List.reverse_reverse, List.reverse_reverse] at hback
  exact distance_le_of_edits hback

/-! ### The rows -/

namespace Rows

/-- Up to the entry `j`, a row holds the distances between what has been read of the first text and the
prefixes of the second. Nothing is said of the entries behind. -/
def Holds (bs read : List Char) (j : ℕ) (row : Vector ℕ (bs.length + 1)) : Prop :=
  ∀ k, (hk : k < bs.length + 1) → k ≤ j → row[k] = distance read.reverse (bs.take k).reverse

variable {bs read : List Char} {above row : Vector ℕ (bs.length + 1)}

/-- The entry behind those that are there is written from the two at its sides and the one between them. -/
theorem Holds.set {j : ℕ} (hj : j < bs.length) (habove : Holds bs read bs.length above)
    (hrow : Holds bs (read ++ [a]) j row) :
    Holds bs (read ++ [a]) (j + 1) (row.set (j + 1)
      (min (min (above[j + 1] + 1) (row[j] + 1)) (above[j] + if a = bs[j] then 0 else 1))) := by
  intro k hk hle
  rw [Vector.getElem_set]
  split
  · next heq =>
    subst heq
    have htake : (bs.take (j + 1)).reverse = bs[j] :: (bs.take j).reverse := by
      rw [List.take_succ_eq_append_getElem hj, List.reverse_concat]
    have hread : (read ++ [a]).reverse = a :: read.reverse := List.reverse_concat
    have hleft := hrow j (by omega) le_rfl
    rw [hread] at hleft
    rw [hleft, habove (j + 1) hk (by omega), habove j (by omega) (by omega), htake, hread, distance]
  · exact hrow k hk (by omega)

/-- When a row is written over, it holds all distances in the end, whatever it held behind the entry `j`. -/
theorem holds_overwrite (habove : Holds bs read bs.length above) (left : List Char) (j : ℕ)
    (hleft : bs.drop j = left) (hj : j + left.length = bs.length) (hrow : Holds bs (read ++ [a]) j row) :
    Holds bs (read ++ [a]) bs.length (overwrite a above left j hj row) := by
  induction left generalizing j row with
  | nil =>
    rw [List.length_nil, Nat.add_zero] at hj
    rw [overwrite, ← hj]
    exact hrow
  | cons b left ih =>
    have hlt : j < bs.length := by
      rw [← hj, List.length_cons]
      omega
    rw [List.drop_eq_getElem_cons hlt] at hleft
    obtain ⟨rfl, hothers⟩ := List.cons.inj hleft
    rw [overwrite]
    exact ih (j + 1) hothers _ (habove.set hlt hrow)

/-- After a further character of the first text, the rows have changed places. -/
theorem holds_read {rows : Rows bs.length} (h : Holds bs read bs.length rows.above) (a : Char) :
    Holds bs (read ++ [a]) bs.length (rows.read bs read.length a).above := by
  refine holds_overwrite h bs 0 List.drop_zero _ fun k hk hle ↦ ?_
  obtain rfl := Nat.le_zero.1 hle
  simp

/-- Reading all of a text leaves the row for the whole of it. -/
theorem holds_readAll {rows : Rows bs.length} (h : Holds bs read bs.length rows.above) (as : List Char) :
    Holds bs (read ++ as) bs.length (rows.readAll bs read.length as).above := by
  induction as generalizing read rows with
  | nil =>
    rw [List.append_nil]
    exact h
  | cons a as ih =>
    have hnext := ih (holds_read h a)
    rw [List.append_assoc, List.length_append] at hnext
    exact hnext

/-- At first the row is the one for an empty text. -/
theorem holds_first (bs : List Char) : Holds bs [] bs.length (first bs.length).above := by
  intro k hk hle
  simp [first, hle]

end Rows

/-- The two rows compute the distance. -/
theorem editDistance_eq_distance (as bs : List Char) : editDistance as bs = distance as bs := by
  have hlast := Rows.holds_readAll (Rows.holds_first bs) as bs.length (Nat.lt_succ_self _) le_rfl
  rw [List.take_length, List.nil_append, distance_reverse] at hlast
  exact hlast

/-- **The edit distance is the least number of edits** that turn the one text into the other. -/
theorem isLeast_editDistance (as bs : List Char) : IsLeast {n | Edits n as bs} (editDistance as bs) := by
  rw [editDistance_eq_distance]
  exact isLeast_distance as bs

example : editDistance "FEILD".toList "FIELD".toList = 2 := by decide +kernel

end TypeSystem.Text
