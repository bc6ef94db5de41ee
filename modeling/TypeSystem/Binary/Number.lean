import TypeSystem.Binary.Codec

/-!
# Numbers

A small number is its own byte. A larger one is a marker that gives its width, then its bytes, lowest first.
A number is written in the least width that holds it, and read in any width that the reader admits; case
numbers admit four bytes, all others eight. Lists and texts stand after their lengths.
-/

namespace TypeSystem.Binary

/-! ### Bytes of a number -/

/-- How many numbers fit into so many bytes. -/
def byteRange : Nat → Nat
  | 0 => 1
  | width + 1 => 256 * byteRange width

/-- The lowest bytes of a number, lowest first. -/
def littleEndian : Nat → Nat → List UInt8
  | 0, _ => []
  | width + 1, n => UInt8.ofNat n :: littleEndian width (n / 256)

/-- The number that bytes make, the lowest first. -/
def ofLittleEndian : List UInt8 → Nat
  | [] => 0
  | b :: bytes => b.toNat + 256 * ofLittleEndian bytes

/-- A number is written with as many bytes as are asked for. -/
@[simp] theorem length_littleEndian (width n : Nat) : (littleEndian width n).length = width := by
  induction width generalizing n with
  | zero => rfl
  | succ width ih => simp [littleEndian, ih]

/-- A number is read back from as many bytes as hold it. -/
theorem ofLittleEndian_littleEndian {width n : Nat} (h : n < byteRange width) :
    ofLittleEndian (littleEndian width n) = n := by
  induction width generalizing n with
  | zero =>
    have : n = 0 := Nat.lt_one_iff.1 h
    subst this
    rfl
  | succ width ih =>
    have h : n < 256 * byteRange width := h
    have hdiv : n / 256 < byteRange width := by omega
    simp only [littleEndian, ofLittleEndian, ih hdiv, UInt8.toNat_ofNat']
    omega

/-- Bytes are those of the number that they make. -/
theorem littleEndian_ofLittleEndian (bytes : List UInt8) :
    littleEndian bytes.length (ofLittleEndian bytes) = bytes := by
  induction bytes with
  | nil => rfl
  | cons b bytes ih =>
    have hb : b.toNat < 256 := b.toNat_lt
    have hlow : UInt8.ofNat (b.toNat + 256 * ofLittleEndian bytes) = b := by
      apply UInt8.toNat_inj.1
      simp only [UInt8.toNat_ofNat']
      omega
    have hhigh : (b.toNat + 256 * ofLittleEndian bytes) / 256 = ofLittleEndian bytes := by omega
    simp only [List.length_cons, littleEndian, ofLittleEndian, hlow, hhigh, ih]

/-! ### Numbers after markers -/

/-- How many bytes a marker announces. -/
def widthOfMarker? (marker : UInt8) : Option Nat :=
  if marker = 251 then some 2 else if marker = 252 then some 4 else if marker = 253 then some 8 else none

/-- The bytes of a number, in the least width that holds it. -/
def writeNumber (n : Nat) : List UInt8 :=
  if n < 251 then littleEndian 1 n
  else if n < byteRange 2 then 251 :: littleEndian 2 n
  else if n < byteRange 4 then 252 :: littleEndian 4 n
  else 253 :: littleEndian 8 n

/-- Takes a number of any width up to the widest admitted. -/
def readNumber (widest : Nat) : Reader Nat
  | [] => .error .unexpectedEnd
  | marker :: bytes =>
    if marker < 251 then .ok (marker.toNat, bytes)
    else
      match widthOfMarker? marker with
      | none => .error .invalidNumber
      | some width =>
        if width ≤ widest then (ofLittleEndian <$> readBytes width) bytes
        else .error .invalidNumber

/-- A reader of numbers takes at least one byte. -/
theorem length_lt_of_readNumber {widest n : Nat} {bytes rest : List UInt8}
    (h : readNumber widest bytes = .ok (n, rest)) : rest.length < bytes.length := by
  cases bytes with
  | nil => cases h
  | cons marker bytes =>
    simp only [readNumber] at h
    split at h
    · cases h
      simp
    · split at h
      · cases h
      · rename_i width _
        split at h
        · rw [map_eq_pure_bind, Reader.bind_eq_ok_iff] at h
          obtain ⟨front, back, hread, heq⟩ := h
          cases heq
          simp only [(readBytes_eq_ok_iff.1 hread).1, List.length_cons, List.length_append]
          omega
        · cases h

namespace Codec

variable {α : Type}

/-- A number of up to eight bytes. -/
def number : Codec Nat := ⟨writeNumber, readNumber 8⟩

/-- One of several cases, by its number among them. -/
def oneOf [BEq α] (cases : List α) : Codec α where
  write a := writeNumber (cases.idxOf a)
  read := do
    let index ← readNumber 4
    match cases[index]? with
    | some a => return a
    | none => refuse .unknownCase

/-- Values after their number. -/
def list (codec : Codec α) : Codec (List α) where
  write as := writeNumber as.length ++ as.flatMap codec.write
  read := do
    let count ← number.read
    codec.readMany count

/-- A text in UTF-8, after the number of its bytes. -/
def text : Codec String where
  write s := writeNumber s.utf8ByteSize ++ s.toUTF8.data.toList
  read := do
    let count ← number.read
    let bytes ← readBytes count
    match String.fromUTF8? ⟨bytes.toArray⟩ with
    | some s => return s
    | none => refuse .invalidText

end Codec

end TypeSystem.Binary
