import TypeSystem.Binary.Number

/-!
# What codecs keep

A reader *takes* some bytes for a value if it gives the value and leaves whatever follows the bytes, and
finds that the bytes end too early wherever they are cut off (`Reader.Takes`). A codec *keeps* a value if its
reader takes the bytes that are written for it (`Codec.Keeps`).

Taking goes from readers to the readers put together from them, because bytes that are cut off are cut off
either within the first part or behind it (`Reader.Takes.bind`). So there is one law for each way of putting
codecs together, and a codec for nodes keeps what the codecs for their parts keep.
-/

namespace TypeSystem.Binary

variable {α β τ : Type}

namespace Reader

theorem bind_of_ok {first : Reader α} {next : α → Reader β} {bytes left : List UInt8} {a : α}
    (h : first bytes = .ok (a, left)) : (first >>= next) bytes = next a left := by
  simp only [bind, StateT.bind, Except.bind, h]

theorem bind_of_error {first : Reader α} {next : α → Reader β} {bytes : List UInt8} {e : DecodeError}
    (h : first bytes = .error e) : (first >>= next) bytes = .error e := by
  simp only [bind, StateT.bind, Except.bind, h]

/-- The reader gives the value for the bytes, whatever follows them, and needs all of them. -/
structure Takes (reader : Reader α) (bytes : List UInt8) (a : α) : Prop where
  whole : ∀ rest, reader (bytes ++ rest) = .ok (a, rest)
  cut : ∀ front back, front ++ back = bytes → back ≠ [] → reader front = .error .unexpectedEnd

namespace Takes

theorem pure (a : α) : Takes (Pure.pure a) [] a where
  whole _ := rfl
  cut _ _ h hback := absurd (List.append_eq_nil_iff.1 h).2 hback

/-- One reader after another takes the bytes of the first and then those of the second. -/
theorem bind {first : Reader α} {next : α → Reader β} {bytes bytes' : List UInt8} {a : α} {b : β}
    (hfirst : first.Takes bytes a) (hnext : (next a).Takes bytes' b) :
    (first >>= next).Takes (bytes ++ bytes') b where
  whole rest := by
    rw [List.append_assoc, bind_of_ok (hfirst.whole _)]
    exact hnext.whole rest
  cut front back h hback := by
    rcases List.append_eq_append_iff.1 h with ⟨middle, hbytes, hmiddle⟩ | ⟨middle, rfl, hmiddle⟩
    · -- the cut is within the bytes of the first value, or right behind them
      by_cases hnil : middle = []
      · rw [hnil, List.append_nil] at hbytes
        rw [hnil, List.nil_append] at hmiddle
        have hfront : first front = .ok (a, []) := by
          rw [← hbytes, ← hfirst.whole, List.append_nil]
        rw [bind_of_ok hfront]
        exact hnext.cut [] back hmiddle hback
      · exact bind_of_error (hfirst.cut front middle hbytes.symm hnil)
    · rw [bind_of_ok (hfirst.whole middle)]
      exact hnext.cut middle back hmiddle.symm hback

/-- What comes after the first value takes no more bytes. -/
theorem last {first : Reader α} {next : α → Reader β} {bytes : List UInt8} {a : α} {b : β}
    (hfirst : first.Takes bytes a) (hnext : (next a).Takes [] b) : (first >>= next).Takes bytes b := by
  have h := hfirst.bind hnext
  rwa [List.append_nil] at h

/-- A reader whose value is made from that of another. -/
theorem map {reader : Reader α} {bytes : List UInt8} {a : α} (h : reader.Takes bytes a) (f : α → β) :
    Takes (f <$> reader) bytes (f a) := by
  rw [map_eq_pure_bind]
  exact h.last (pure (f a))

/-- A byte that says how to go on. -/
theorem byte {next : UInt8 → Reader α} {b : UInt8} {bytes : List UInt8} {a : α}
    (h : (next b).Takes bytes a) : Takes (readByte >>= next) (b :: bytes) a := by
  have hbyte : readByte.Takes [b] b := by
    refine ⟨fun rest ↦ rfl, fun front back h hback ↦ ?_⟩
    cases front with
    | nil => rfl
    | cons c front => exact absurd (List.append_eq_nil_iff.1 (List.cons.inj h).2).2 hback
  exact hbyte.bind h

/-- Reading as many bytes as there are takes just these. -/
theorem bytes (bytes : List UInt8) : (readBytes bytes.length).Takes bytes bytes where
  whole rest := readBytes_append rfl rest
  cut front back h hback := by
    have hshort : ¬ (front.take bytes.length).length = bytes.length := by
      have hpos := List.length_pos_iff.2 hback
      rw [← h, List.length_take, List.length_append]
      omega
    simp only [readBytes, List.splitAt_eq, if_neg hshort]

end Takes

end Reader

open Reader

/-! ### Numbers -/

/-- A number is taken after the marker of a width that is admitted and holds the number. -/
theorem takes_marked {widest width n : Nat} {marker : UInt8} (hmarker : ¬ marker < 251)
    (hwidth : widthOfMarker? marker = some width) (hwidest : width ≤ widest) (hn : n < byteRange width) :
    (readNumber widest).Takes (marker :: littleEndian width n) n := by
  have hnumber : Takes (ofLittleEndian <$> readBytes width) (littleEndian width n) n := by
    have hbytes := (Takes.bytes (littleEndian width n)).map ofLittleEndian
    rwa [length_littleEndian, ofLittleEndian_littleEndian hn] at hbytes
  have hread (bytes : List UInt8) :
      readNumber widest (marker :: bytes) = (ofLittleEndian <$> readBytes width) bytes := by
    simp only [readNumber, if_neg hmarker, hwidth, if_pos hwidest]
  refine ⟨fun rest ↦ (hread _).trans (hnumber.whole rest), fun front back h hback ↦ ?_⟩
  cases front with
  | nil => rfl
  | cons c front =>
    obtain ⟨rfl, hbytes⟩ := List.cons.inj h
    exact (hread front).trans (hnumber.cut front back hbytes hback)

/-- A small number is its own byte, however wide numbers may be. -/
theorem takes_small {widest n : Nat} (hn : n < 251) : (readNumber widest).Takes (writeNumber n) n := by
  have hwrite : writeNumber n = [UInt8.ofNat n] := by
    rw [writeNumber, if_pos hn]
    rfl
  have hnat : (UInt8.ofNat n).toNat = n := by
    rw [UInt8.toNat_ofNat']
    omega
  have hlt : UInt8.ofNat n < 251 := by
    rw [UInt8.lt_iff_toNat_lt, hnat]
    exact hn
  rw [hwrite]
  refine ⟨fun rest ↦ ?_, fun front back h hback ↦ ?_⟩
  · rw [List.singleton_append, readNumber, if_pos hlt, hnat]
  · cases front with
    | nil => rfl
    | cons c front => exact absurd (List.append_eq_nil_iff.1 (List.cons.inj h).2).2 hback

/-- Any number that fits into eight bytes is taken. -/
theorem takes_writeNumber {n : Nat} (hn : n < byteRange 8) : (readNumber 8).Takes (writeNumber n) n := by
  by_cases hsmall : n < 251
  · exact takes_small hsmall
  rw [writeNumber, if_neg hsmall]
  split
  · next htwo => exact takes_marked (by decide) rfl (by decide) htwo
  · split
    · next hfour => exact takes_marked (by decide) rfl (by decide) hfour
    · exact takes_marked (by decide) rfl (by decide) hn

namespace Codec

/-- The value is read back from the bytes that are written for it, and from no fewer. -/
def Keeps (codec : Codec α) (a : α) : Prop := codec.read.Takes (codec.write a) a

/-! ### Putting codecs together -/

theorem Keeps.both {first : Codec α} {second : Codec β} {a : α} {b : β} (hfirst : first.Keeps a)
    (hsecond : second.Keeps b) : (first.both second).Keeps (a, b) :=
  Takes.bind hfirst (Takes.last hsecond (.pure (a, b)))

/-- A codec seen through a view keeps a value if it keeps what is seen of the value, and the value can be made
from that again. -/
theorem Keeps.map {codec : Codec α} {make : α → β} {view : β → α} {b : β} (h : codec.Keeps (view b))
    (hmake : make (view b) = b) : (codec.map make view).Keeps b := by
  have hmap := Takes.map h make
  rwa [hmake] at hmap

/-- A value told apart by a tag is kept if the tag is, and if the codec for that tag keeps the value. -/
theorem Keeps.choice {tag : Codec τ} {tagOf : α → τ} {form : τ → Codec α} {a : α}
    (htag : tag.Keeps (tagOf a)) (hform : (form (tagOf a)).Keeps a) : (choice tag tagOf form).Keeps a :=
  Takes.bind htag hform

theorem keeps_bool (b : Bool) : bool.Keeps b := by
  cases b with
  | false => exact .byte (.pure false)
  | true => exact .byte (.pure true)

/-- A value that may be missing is kept if it is kept where it is there. -/
theorem keeps_optional {codec : Codec α} {found : Option α} (h : ∀ a ∈ found, codec.Keeps a) :
    codec.optional.Keeps found := by
  cases found with
  | none => exact .byte (.pure none)
  | some a => exact .byte (Takes.map (h a rfl) some)

/-- A run of values that are all kept is read back value by value. -/
theorem takes_readMany {codec : Codec α} {as : List α} (h : ∀ a ∈ as, codec.Keeps a) :
    (codec.readMany as.length).Takes (as.flatMap codec.write) as := by
  induction as with
  | nil => exact .pure []
  | cons a as ih =>
    obtain ⟨ha, has⟩ := List.forall_mem_cons.1 h
    exact Takes.bind ha (Takes.map (ih has) (a :: ·))

/-- A list is kept if its values are and if its length can be written. -/
theorem keeps_list {codec : Codec α} {as : List α} (hlength : as.length < byteRange 8)
    (h : ∀ a ∈ as, codec.Keeps a) : codec.list.Keeps as :=
  Takes.bind (takes_writeNumber hlength) (takes_readMany h)

/-- A number is kept if it fits into eight bytes. -/
theorem keeps_number {n : Nat} (hn : n < byteRange 8) : number.Keeps n := takes_writeNumber hn

/-- One of a few cases, none of which stands twice among them. -/
theorem keeps_oneOf [BEq α] [LawfulBEq α] {cases : List α} (hfew : cases.length ≤ 251) {a : α}
    (ha : a ∈ cases) : (oneOf cases).Keeps a := by
  have hlt : cases.idxOf a < cases.length := List.idxOf_lt_length_of_mem ha
  have hnumber : (readNumber 4).Takes (writeNumber (cases.idxOf a)) (cases.idxOf a) := takes_small (by omega)
  have hcase : cases[cases.idxOf a]? = some a := by
    rw [List.getElem?_eq_getElem hlt, List.getElem_idxOf hlt]
  refine hnumber.last ?_
  simp only [hcase]
  exact .pure a

/-- A text is kept if its size in bytes can be written. -/
theorem keeps_text {s : String} (hsize : s.utf8ByteSize < byteRange 8) : text.Keeps s := by
  have hlength : s.toUTF8.data.toList.length = s.utf8ByteSize := rfl
  have hbytes := Takes.bytes s.toUTF8.data.toList
  rw [hlength] at hbytes
  have hback : String.fromUTF8? ⟨s.toUTF8.data.toList.toArray⟩ = some s := by
    rw [Array.toArray_toList, String.fromUTF8?]
    exact dif_pos s.isValidUTF8
  refine (takes_writeNumber hsize).bind (hbytes.last ?_)
  simp only [hback]
  exact .pure s

end Codec

end TypeSystem.Binary
