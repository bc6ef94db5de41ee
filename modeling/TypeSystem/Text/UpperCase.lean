import TypeSystem.Text.Character

/-!
# Upper case against ASCII names

The upper-case form of a text, as far as a comparison with names in ASCII can tell. An ASCII letter
becomes its capital, and the few other characters whose capital form holds ASCII letters become that
form. Any further character matches no letter of such a name whatever its capital is, so of its form
only the length is kept.
-/

namespace TypeSystem.Text

/-- Characters outside ASCII whose upper-case form has ASCII letters in it. -/
def lettersInside : List (Char × String) :=
  [('ß', "SS"), ('ı', "I"), ('ŉ', "ʼN"), ('ſ', "S"), ('ǰ', "J̌"), ('ẖ', "H̱"), ('ẗ', "T̈"), ('ẘ', "W̊"),
    ('ẙ', "Y̊"), ('ẚ', "Aʾ"), ('ﬀ', "FF"), ('ﬁ', "FI"), ('ﬂ', "FL"), ('ﬃ', "FFI"), ('ﬄ', "FFL"),
    ('ﬅ', "ST"), ('ﬆ', "ST")]

/-- Ranges of characters whose upper-case form has two characters, none of them ASCII. -/
def doubled : List (Nat × Nat) :=
  [(0x587, 0x587), (0x1F50, 0x1F50), (0x1F80, 0x1FAF), (0x1FB2, 0x1FB4), (0x1FB6, 0x1FB6),
    (0x1FBC, 0x1FBC), (0x1FC2, 0x1FC4), (0x1FC6, 0x1FC6), (0x1FCC, 0x1FCC), (0x1FD6, 0x1FD6),
    (0x1FE4, 0x1FE4), (0x1FE6, 0x1FE6), (0x1FF2, 0x1FF4), (0x1FF6, 0x1FF6), (0x1FFC, 0x1FFC),
    (0xFB13, 0xFB17)]

/-- Characters whose upper-case form has three characters, none of them ASCII. -/
def tripled : List Nat :=
  [0x390, 0x3B0, 0x1F52, 0x1F54, 0x1F56, 0x1FB7, 0x1FC7, 0x1FD2, 0x1FD3, 0x1FD7, 0x1FE2, 0x1FE3,
    0x1FE7, 0x1FF7]

/-- The upper-case form of one character. -/
def upperChar (c : Char) : List Char :=
  if c.toNat < 0x80 then [c.toUpper]
  else match lettersInside.lookup c with
    | some form => form.toList
    | none =>
      if tripled.contains c.toNat then [c, c, c]
      else if doubled.any fun (low, high) ↦ low ≤ c.toNat && c.toNat ≤ high then [c, c]
      else [c]

/-- The upper-case form of a text. -/
def upperCase (cs : List Char) : List Char :=
  cs.flatMap upperChar

/-- On ASCII, upper case goes character by character. -/
theorem upperCase_of_ascii {cs : List Char} (h : ∀ c ∈ cs, c.toNat < 0x80) :
    upperCase cs = cs.map Char.toUpper := by
  induction cs with
  | nil => rfl
  | cons c cs ih =>
    have hc : upperChar c = [c.toUpper] := by simp [upperChar, h c (by simp)]
    have hcs := ih fun d hd ↦ h d (by simp [hd])
    simp only [upperCase, List.flatMap_cons, List.map_cons] at hcs ⊢
    rw [hc, hcs]
    rfl

end TypeSystem.Text
