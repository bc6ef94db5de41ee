/-!
# Codecs

A codec is one way of keeping values as bytes: `write` gives the bytes of a value, and `read` takes a value
off the front of some bytes and leaves the rest. Codecs are put together from smaller ones, so that the two
directions cannot drift apart: `both` for one value after another, `optional` and `list` for none or several,
`choice` for a form that depends on a leading tag, `map` for the same bytes under another type.
-/

namespace TypeSystem.Binary

/-- Why bytes are not those of a value. -/
inductive DecodeError where
  /-- The bytes end too early. -/
  | unexpectedEnd
  /-- A byte that can begin no number, or only one too wide. -/
  | invalidNumber
  /-- A byte other than 0 and 1 for a truth value. -/
  | invalidBool
  /-- A byte other than 0 and 1 before a value that may be missing. -/
  | invalidOption
  /-- A number that stands for no case. -/
  | unknownCase
  /-- A text that is not UTF-8. -/
  | invalidText
deriving DecidableEq, Repr

/-- A computation that takes bytes off the front of some bytes. -/
abbrev Reader := StateT (List UInt8) (Except DecodeError)

/-- One reader after another succeeds exactly if each does on what it finds. -/
theorem Reader.bind_eq_ok_iff {α β : Type} {first : Reader α} {next : α → Reader β}
    {bytes rest : List UInt8} {b : β} :
    (first >>= next) bytes = .ok (b, rest) ↔
      ∃ a left, first bytes = .ok (a, left) ∧ next a left = .ok (b, rest) := by
  simp only [bind, StateT.bind, Except.bind]
  cases first bytes with
  | error e => simp
  | ok taken =>
    obtain ⟨a, left⟩ := taken
    constructor
    · exact fun h ↦ ⟨a, left, rfl, h⟩
    · rintro ⟨_, _, hread, h⟩
      cases hread
      exact h

/-- A way of keeping values as bytes. -/
structure Codec (α : Type) where
  /-- The bytes of a value. -/
  write : α → List UInt8
  /-- Takes a value off the front. -/
  read : Reader α

/-! ### Bytes -/

/-- Takes one byte. -/
def readByte : Reader UInt8
  | [] => .error .unexpectedEnd
  | b :: bytes => .ok (b, bytes)

/-- Takes a number of bytes. -/
def readBytes (count : Nat) : Reader (List UInt8) := fun bytes ↦
  let (front, back) := bytes.splitAt count
  if front.length = count then .ok (front, back) else .error .unexpectedEnd

/-- A reader that fails. -/
def refuse {α : Type} (error : DecodeError) : Reader α := fun _ ↦ .error error

/-- As many bytes as there are in front are read off the front. -/
theorem readBytes_append {count : Nat} {front : List UInt8} (h : front.length = count)
    (rest : List UInt8) : readBytes count (front ++ rest) = .ok (front, rest) := by
  subst h
  simp [readBytes]

/-- What is taken, followed by what is left, is what there was. -/
theorem readBytes_eq_ok_iff {count : Nat} {bytes front back : List UInt8} :
    readBytes count bytes = .ok (front, back) ↔ bytes = front ++ back ∧ front.length = count := by
  constructor
  · intro h
    simp only [readBytes, List.splitAt_eq] at h
    split at h
    · rename_i hlen
      injection h with h
      injection h with hf hb
      subst hf hb
      exact ⟨(List.take_append_drop count bytes).symm, hlen⟩
    · cases h
  · rintro ⟨rfl, h⟩
    exact readBytes_append h back

namespace Codec

variable {α β τ : Type}

/-! ### Putting codecs together -/

/-- One value after another. -/
def both (first : Codec α) (second : Codec β) : Codec (α × β) where
  write := fun (a, b) ↦ first.write a ++ second.write b
  read := do
    let a ← first.read
    let b ← second.read
    return (a, b)

/-- The bytes of one type taken for values of another. -/
def map (codec : Codec α) (make : α → β) (view : β → α) : Codec β where
  write b := codec.write (view b)
  read := make <$> codec.read

/-- A tag, then a form that depends on it. -/
def choice (tag : Codec τ) (tagOf : α → τ) (form : τ → Codec α) : Codec α where
  write a := tag.write (tagOf a) ++ (form (tagOf a)).write a
  read := do
    let t ← tag.read
    (form t).read

/-- A truth value, in one byte. -/
def bool : Codec Bool where
  write b := [if b then 1 else 0]
  read := do
    let b ← readByte
    if b = 0 then return false else if b = 1 then return true else refuse .invalidBool

/-- A value that may be missing, after a byte that says whether it is there. -/
def optional (codec : Codec α) : Codec (Option α) where
  write
    | none => [0]
    | some a => 1 :: codec.write a
  read := do
    let b ← readByte
    if b = 0 then return none
    else if b = 1 then return some (← codec.read)
    else refuse .invalidOption

/-- Takes a number of values. -/
def readMany (codec : Codec α) : Nat → Reader (List α)
  | 0 => return []
  | n + 1 => do
    let a ← codec.read
    let as ← readMany codec n
    return a :: as

end Codec

end TypeSystem.Binary
