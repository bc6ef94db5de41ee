import Mathlib.Algebra.GroupWithZero.Nat
import Mathlib.Data.List.Basic
import TypeSystem.Text.Span

/-!
# Byte offsets

Offsets count bytes of the UTF-8 form, and texts are lists of characters; `Text.width` goes from one to the
other. A place moves by the width of what is passed, and the widths of two neighbouring parts of a text are
offsets at which the second of them is cut out (`slice_append`).
-/

namespace TypeSystem

namespace Text

/-- How many bytes the UTF-8 form of a text has. -/
def width (cs : List Char) : Nat :=
  (cs.map Char.utf8Size).sum

@[simp] theorem width_nil : width [] = 0 := rfl

@[simp] theorem width_cons (c : Char) (cs : List Char) : width (c :: cs) = c.utf8Size + width cs := rfl

/-- Widths add up. -/
@[simp] theorem width_append (cs ds : List Char) : width (cs ++ ds) = width cs + width ds := by
  rw [width, List.map_append, List.sum_append]
  rfl

/-- Every character has a byte. -/
theorem width_pos {cs : List Char} (h : cs ≠ []) : 0 < width cs := by
  obtain ⟨c, ds, rfl⟩ := List.exists_cons_of_ne_nil h
  have hc := c.utf8Size_pos
  rw [width_cons]
  omega

/-- The width of a text is the size of the string of its characters. -/
theorem utf8ByteSize_ofList (cs : List Char) : (String.ofList cs).utf8ByteSize = width cs := by
  induction cs with
  | nil => rfl
  | cons c cs ih =>
    have hsplit : String.ofList (c :: cs) = String.singleton c ++ String.ofList cs := by
      rw [String.singleton_eq_ofList, ← String.ofList_append]
      rfl
    rw [hsplit, String.utf8ByteSize_append, ih, String.utf8ByteSize_singleton, width_cons]

/-- The width of a text is its size in bytes. -/
theorem width_toList (text : String) : width text.toList = text.utf8ByteSize := by
  rw [← utf8ByteSize_ofList, String.ofList_toList]

/-! ### Cutting at an offset -/

/-- A text is cut between two of its parts at the width of the first. -/
theorem splitBytes?_append (front back : List Char) :
    splitBytes? (width front) (front ++ back) = some (front, back) := by
  induction front with
  | nil => rw [width_nil, List.nil_append, splitBytes?]
  | cons c front ih =>
    have hc := c.utf8Size_pos
    obtain ⟨n, hn⟩ : ∃ n, width (c :: front) = n + 1 := ⟨width (c :: front) - 1, by rw [width_cons]; omega⟩
    have hle : c.utf8Size ≤ n + 1 := by
      rw [← hn, width_cons]
      omega
    have hrest : n + 1 - c.utf8Size = width front := by
      rw [← hn, width_cons]
      omega
    rw [hn, List.cons_append, splitBytes?, if_pos hle, hrest, ih]
    rfl

/-- What comes between two offsets is the part that they were measured around. -/
theorem slice_append (front part back : List Char) :
    slice (front ++ part ++ back) (width front) (width front + width part) = some part := by
  have hle : width front ≤ width front + width part := by omega
  have hpart : width front + width part - width front = width part := by omega
  rw [slice, if_pos hle, hpart, List.append_assoc, splitBytes?_append]
  show (splitBytes? (width part) (part ++ back)).bind (fun x ↦ some x.1) = some part
  rw [splitBytes?_append]
  rfl

end Text

open Text

/-- A span that begins after one part of a text and ends after the next covers that one. -/
theorem Span.slice_eq_some {span : Span} {text : String} {front part back : List Char}
    (htext : text.toList = front ++ part ++ back) (hstart : span.start.offset = width front)
    (hstop : span.stop.offset = width front + width part) :
    span.slice text = some (String.ofList part) := by
  rw [slice, htext, hstart, hstop, slice_append]
  rfl

/-- A place moves by the width of what is passed. -/
theorem Place.offset_past (p : Place) (cs : List Char) :
    (p.past cs).pos.offset = p.pos.offset + width cs := by
  induction cs generalizing p with
  | nil => rfl
  | cons c cs ih => rw [past_cons, ih, offset_advance, width_cons, Nat.add_assoc]

end TypeSystem
