/-!
# Edit distance

The least number of single characters to insert, delete or replace in order to turn one text into
another. It is computed row by row: the entry of a row at a prefix of the second text is the distance
from the part of the first text read so far to that prefix, and each row needs only the one above it.

So two rows are enough. A row is written from left to right over the one that is no longer needed, and
then the two change places. Until it has been written to its end, a row still holds old entries behind
the last one written.
-/

namespace TypeSystem.Text

/-- Two rows of entries, one entry for each prefix of a text of so many characters. -/
structure Rows (length : Nat) where
  /-- The row for the part of the other text that has been read. -/
  above : Vector Nat (length + 1)
  /-- The row that is no longer needed, to be written over. -/
  spare : Vector Nat (length + 1)

namespace Rows

variable {length : Nat}

/-- The rows before anything has been read: so many insertions, and nothing of use in the other row. -/
def first (length : Nat) : Rows length :=
  ⟨Vector.ofFn Fin.val, Vector.replicate (length + 1) 0⟩

/-- Writes the entries of a row behind the entry `j`, one for each character of the second text that is
left. Old entries are read nowhere. -/
def overwrite (a : Char) (above : Vector Nat (length + 1)) : (bs : List Char) → (j : Nat) →
    j + bs.length = length → Vector Nat (length + 1) → Vector Nat (length + 1)
  | [], _, _, row => row
  | b :: bs, j, h, row =>
    have hj : j < length := by rw [← h, List.length_cons]; omega
    let entry := min (min (above[j + 1] + 1) (row[j] + 1)) (above[j] + if a = b then 0 else 1)
    overwrite a above bs (j + 1) (by rw [← h, List.length_cons]; omega) (row.set (j + 1) entry)

/-- The rows after one more character of the first text, before which there are `i`. -/
def read (bs : List Char) (rows : Rows bs.length) (i : Nat) (a : Char) : Rows bs.length :=
  ⟨overwrite a rows.above bs 0 (Nat.zero_add _) (rows.spare.set 0 (i + 1)), rows.above⟩

/-- The rows after all characters of the first text that are left, before which there are `i`. -/
def readAll (bs : List Char) : Nat → List Char → Rows bs.length → Rows bs.length
  | _, [], rows => rows
  | i, a :: as, rows => readAll bs (i + 1) as (rows.read bs i a)

end Rows

/-- The edit distance of two texts. -/
def editDistance (as bs : List Char) : Nat :=
  ((Rows.first bs.length).readAll bs 0 as).above[bs.length]

end TypeSystem.Text
