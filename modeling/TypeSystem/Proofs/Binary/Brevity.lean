import TypeSystem.Proofs.Binary.Keeping

/-!
# What codecs read, and how briefly they write it

Bytes may spell a value in more than one way: a number may be written in more bytes than it needs. A reader
*yields* what is said of each value that it gives and the bytes that it takes for it (`Reader.Yields`). A
codec is *brief* if it keeps every value that it reads, and writes for it the bytes that it has read or
fewer (`Codec.IsBrief`).

Brevity goes from codecs to the codecs put together from them: where every part is the same bytes or fewer,
so is the whole (`NoLonger.append`). The only place where bytes are saved is a number
(`yields_readNumber`).
-/

namespace TypeSystem.Binary

variable {α β τ : Type}

/-! ### The same bytes, or fewer -/

/-- Some bytes are the same as others, or fewer. -/
def NoLonger (written taken : List UInt8) : Prop := written = taken ∨ written.length < taken.length

namespace NoLonger

variable {a b c a' b' : List UInt8}

theorem refl (a : List UInt8) : NoLonger a a := .inl rfl

theorem length_le (h : NoLonger a b) : a.length ≤ b.length := by
  rcases h with rfl | hlt
  · exact Nat.le_refl _
  · exact Nat.le_of_lt hlt

/-- Bytes that are no longer than others and have their length are those others: being shorter is the only way
to differ. -/
theorem eq_of_length_eq (h : NoLonger a b) (hlength : a.length = b.length) : a = b :=
  h.resolve_right fun hlt ↦ Nat.ne_of_lt hlt hlength

/-- Being the same or shorter carries over: what is shorter than bytes that are the same or shorter is
shorter. -/
theorem trans (h : NoLonger a b) (h' : NoLonger b c) : NoLonger a c := by
  rcases h with rfl | hlt
  · exact h'
  · exact .inr (Nat.lt_of_lt_of_le hlt h'.length_le)

/-- One behind the other, they are the same as the others, or fewer. -/
theorem append (h : NoLonger a b) (h' : NoLonger a' b') : NoLonger (a ++ a') (b ++ b') := by
  rcases h with rfl | hlt
  · rcases h' with rfl | hlt'
    · exact .refl _
    · exact .inr (by simpa using hlt')
  · refine .inr ?_
    rw [List.length_append, List.length_append]
    exact Nat.add_lt_add_of_lt_of_le hlt h'.length_le

end NoLonger

/-! ### What readers yield -/

namespace Reader

/-- What holds of each value that the reader gives, and the bytes that it takes off the front for it. -/
def Yields (reader : Reader α) (P : α → List UInt8 → Prop) : Prop :=
  ∀ bytes rest a, reader bytes = .ok (a, rest) → ∃ taken, bytes = taken ++ rest ∧ P a taken

namespace Yields

variable {reader : Reader α} {P P' : α → List UInt8 → Prop} {Q : β → List UInt8 → Prop}

/-- What a reader yields may be said more weakly. This is how the laws of the parts are fitted to one another.
-/
theorem mono (h : reader.Yields P) (hP : ∀ a taken, P a taken → P' a taken) : reader.Yields P' := by
  intro bytes rest a hread
  obtain ⟨taken, hbytes, hholds⟩ := h bytes rest a hread
  exact ⟨taken, hbytes, hP a taken hholds⟩

/-- The bytes taken are those before the rest, so that all that is yielded is said of the same bytes. -/
theorem and (h : reader.Yields P) (h' : reader.Yields P') :
    reader.Yields fun a taken ↦ P a taken ∧ P' a taken := by
  intro bytes rest a hread
  obtain ⟨taken, rfl, hholds⟩ := h bytes rest a hread
  obtain ⟨taken', hsame, hholds'⟩ := h' _ rest a hread
  rw [← List.append_cancel_right hsame] at hholds'
  exact ⟨taken, rfl, hholds, hholds'⟩

/-- A value that is given at once takes no bytes. -/
theorem pure {a : α} (h : P a []) : Yields (Pure.pure a) P := by
  intro bytes rest b hread
  cases hread
  exact ⟨[], rfl, h⟩

/-- A reader that always refuses yields whatever one likes. -/
theorem refuse (e : DecodeError) : Yields (refuse e) P := by
  intro bytes rest a hread
  cases hread

/-- One reader after another: the second is judged by the bytes that **both** have taken. -/
theorem bind {first : Reader α} {next : α → Reader β} (hfirst : first.Yields P)
    (hnext : ∀ a front, P a front → (next a).Yields fun b taken ↦ Q b (front ++ taken)) :
    (first >>= next).Yields Q := by
  intro bytes rest b hread
  obtain ⟨a, left, ha, hb⟩ := bind_eq_ok_iff.1 hread
  obtain ⟨front, rfl, hfront⟩ := hfirst bytes left a ha
  obtain ⟨taken, rfl, htaken⟩ := hnext a front hfront left rest b hb
  exact ⟨front ++ taken, (List.append_assoc _ _ _).symm, htaken⟩

theorem map {f : α → β} (h : reader.Yields fun a taken ↦ Q (f a) taken) : (f <$> reader).Yields Q := by
  rw [map_eq_pure_bind]
  refine h.bind fun a front hfront ↦ .pure ?_
  rwa [List.append_nil]

theorem byte : readByte.Yields fun b taken ↦ taken = [b] := by
  intro bytes rest b hread
  cases bytes with
  | nil => cases hread
  | cons c bytes =>
    cases hread
    exact ⟨[b], rfl, rfl⟩

/-- What is read as a run of bytes is what was taken, and there are as many as were asked for. -/
theorem bytes (count : Nat) :
    (readBytes count).Yields fun front taken ↦ taken = front ∧ front.length = count := by
  intro bytes rest front hread
  obtain ⟨hbytes, hlength⟩ := readBytes_eq_ok_iff.1 hread
  exact ⟨front, hbytes, rfl, hlength⟩

end Yields

end Reader

open Reader

/-! ### Numbers -/

/-- So many bytes hold only numbers below the range of so many bytes. -/
theorem ofLittleEndian_lt (bytes : List UInt8) : ofLittleEndian bytes < byteRange bytes.length := by
  induction bytes with
  | nil => exact Nat.zero_lt_one
  | cons b bytes ih =>
    have hb : b.toNat < 256 := b.toNat_lt
    simp only [ofLittleEndian, List.length_cons, byteRange]
    omega

theorem byteRange_mono {m n : Nat} (h : m ≤ n) : byteRange m ≤ byteRange n := by
  induction h with
  | refl => exact Nat.le_refl _
  | step _ ih =>
    simp only [byteRange]
    omega

/-- In how many bytes a number is written. -/
theorem length_writeNumber (n : Nat) : (writeNumber n).length =
    if n < 251 then 1 else if n < byteRange 2 then 3 else if n < byteRange 4 then 5 else 9 := by
  simp only [writeNumber, apply_ite List.length, List.length_cons, length_littleEndian]

/-- Every number takes at least one byte. So a run of numbers of no bytes is empty. -/
theorem length_writeNumber_pos (n : Nat) : 0 < (writeNumber n).length := by
  rw [length_writeNumber]
  repeat' split
  all_goals decide

/-- A larger number takes no fewer bytes. -/
theorem length_writeNumber_mono {m n : Nat} (h : m ≤ n) : (writeNumber m).length ≤ (writeNumber n).length := by
  rw [length_writeNumber, length_writeNumber]
  repeat' split
  all_goals omega

/-- Only three first bytes announce further bytes, and each one announces its own number of them. -/
theorem widthOfMarker?_eq_some_iff {marker : UInt8} {width : Nat} :
    widthOfMarker? marker = some width ↔
      marker = 251 ∧ width = 2 ∨ marker = 252 ∧ width = 4 ∨ marker = 253 ∧ width = 8 := by
  unfold widthOfMarker?
  grind

/-- Bytes behind the marker of their width make a number that is written as they are, or in fewer. -/
theorem noLonger_marked {marker : UInt8} {width : Nat} {front : List UInt8}
    (hmarker : widthOfMarker? marker = some width) (hlength : front.length = width) :
    NoLonger (writeNumber (ofLittleEndian front)) (marker :: front) := by
  have hlt := ofLittleEndian_lt front
  have hsame := littleEndian_ofLittleEndian front
  rw [hlength] at hlt hsame
  generalize ofLittleEndian front = n at hlt hsame
  have htwo : 251 ≤ byteRange 2 := by decide
  have hfour : byteRange 2 ≤ byteRange 4 := by decide
  by_cases hfewer : (writeNumber n).length < (marker :: front).length
  · exact .inr hfewer
  · -- the number is too large for a smaller width, so it is written behind the same marker
    rw [length_writeNumber, List.length_cons, hlength] at hfewer
    refine .inl ?_
    rcases widthOfMarker?_eq_some_iff.1 hmarker with ⟨rfl, rfl⟩ | ⟨rfl, rfl⟩ | ⟨rfl, rfl⟩
    · have hsmall : ¬ n < 251 := fun h ↦ hfewer (by rw [if_pos h]; decide)
      rw [writeNumber, if_neg hsmall, if_pos hlt, hsame]
    · have hsmall : ¬ n < byteRange 2 := by grind
      rw [writeNumber, if_neg (by omega), if_neg hsmall, if_pos hlt, hsame]
    · have hsmall : ¬ n < byteRange 4 := by grind
      rw [writeNumber, if_neg (by omega), if_neg (by omega), if_neg hsmall, hsame]

/-- A number that is read fits into eight bytes, and is written in those it was read from, or in fewer. -/
theorem yields_readNumber {widest : Nat} (hwidest : widest ≤ 8) :
    (readNumber widest).Yields fun n taken ↦ n < byteRange 8 ∧ NoLonger (writeNumber n) taken := by
  intro bytes rest n hread
  cases bytes with
  | nil => cases hread
  | cons marker bytes =>
    rw [readNumber] at hread
    split at hread
    · next hsmall =>
      cases hread
      have hlt : marker.toNat < 251 := UInt8.lt_iff_toNat_lt.1 hsmall
      have hwrite : writeNumber marker.toNat = [marker] := by
        rw [writeNumber, if_pos hlt]
        simp [littleEndian]
      refine ⟨[marker], rfl, Nat.lt_trans hlt (by decide), ?_⟩
      rw [hwrite]
      exact .refl _
    · split at hread
      · cases hread
      · next width hmarker =>
        split at hread
        · next hwide =>
          rw [map_eq_pure_bind] at hread
          obtain ⟨front, left, hfront, hn⟩ := bind_eq_ok_iff.1 hread
          cases hn
          obtain ⟨rfl, hlength⟩ := readBytes_eq_ok_iff.1 hfront
          refine ⟨marker :: front, rfl, ?_, noLonger_marked hmarker hlength⟩
          -- the marker may be too wide for the number, but not too narrow
          have hlt := ofLittleEndian_lt front
          rw [hlength] at hlt
          exact Nat.lt_of_lt_of_le hlt (byteRange_mono (Nat.le_trans hwide hwidest))
        · cases hread

namespace Codec

/-- Every value that is read is kept, and is written in the bytes it was read from, or in fewer. -/
def IsBrief (codec : Codec α) : Prop :=
  codec.read.Yields fun a taken ↦ codec.Keeps a ∧ NoLonger (codec.write a) taken

/-! ### Putting codecs together -/

theorem isBrief_number : number.IsBrief :=
  (yields_readNumber (Nat.le_refl 8)).mono fun _ _ h ↦ ⟨keeps_number h.1, h.2⟩

theorem isBrief_bool : bool.IsBrief := by
  refine Yields.byte.bind ?_
  rintro b _ rfl
  split
  · next h =>
    cases h
    exact .pure ⟨keeps_bool false, .refl _⟩
  · split
    · next h =>
      cases h
      exact .pure ⟨keeps_bool true, .refl _⟩
    · exact .refuse _

/-- One of a few cases, none of which stands twice among them. -/
theorem isBrief_oneOf [BEq α] [LawfulBEq α] {cases : List α} (hfew : cases.length ≤ 251)
    (hnodup : cases.Nodup) : (oneOf cases).IsBrief := by
  refine (yields_readNumber (by decide)).bind fun index taken h ↦ ?_
  split
  · next a hcase =>
    obtain ⟨hlt, rfl⟩ := List.getElem?_eq_some_iff.1 hcase
    refine .pure ⟨keeps_oneOf hfew (List.getElem_mem hlt), ?_⟩
    show NoLonger (writeNumber (cases.idxOf cases[index])) (taken ++ [])
    rw [List.append_nil, hnodup.idxOf_getElem index hlt]
    exact h.2
  · exact .refuse _

/-- Values of another type are written in the same bytes, and whatever holds of those that are made is
yielded. -/
theorem IsBrief.yields_map {codec : Codec α} {make : α → β} {view : β → α} {P : β → Prop} (h : codec.IsBrief)
    (hview : ∀ a, view (make a) = a) (hmake : ∀ a, P (make a)) :
    (codec.map make view).read.Yields fun b taken ↦ P b ∧ (codec.map make view).Keeps b ∧
      NoLonger ((codec.map make view).write b) taken := by
  refine Yields.map (h.mono fun a taken hbrief ↦ ⟨hmake a, ?_⟩)
  have hsame : view (make a) = a := hview a
  refine ⟨.map ?_ (congrArg make hsame), ?_⟩
  · rw [hsame]
    exact hbrief.1
  · show NoLonger (codec.write (view (make a))) taken
    rw [hsame]
    exact hbrief.2

/-- A codec seen through an invertible view is as brief as the codec. -/
theorem IsBrief.map {codec : Codec α} {make : α → β} {view : β → α} (h : codec.IsBrief)
    (hview : ∀ a, view (make a) = a) : (codec.map make view).IsBrief :=
  (h.yields_map (P := fun _ ↦ True) hview fun _ ↦ trivial).mono fun _ _ hbrief ↦ hbrief.2

/-- What is yielded by one value after another. -/
theorem yields_both {first : Codec α} {second : Codec β} {P : α → List UInt8 → Prop}
    {Q : β → List UInt8 → Prop} {R : α × β → List UInt8 → Prop} (hfirst : first.read.Yields P)
    (hsecond : second.read.Yields Q)
    (hboth : ∀ a b taken taken', P a taken → Q b taken' → R (a, b) (taken ++ taken')) :
    (first.both second).read.Yields R :=
  hfirst.bind fun a taken ha ↦ hsecond.bind fun b taken' hb ↦
    .pure (by simpa using hboth a b taken taken' ha hb)

/-- Two values one after the other: each part is no longer than what was read for it, so the whole is not. -/
theorem IsBrief.both {first : Codec α} {second : Codec β} (hfirst : first.IsBrief)
    (hsecond : second.IsBrief) : (first.both second).IsBrief :=
  yields_both hfirst hsecond fun _ _ _ _ ha hb ↦ ⟨ha.1.both hb.1, ha.2.append hb.2⟩

/-- A form that is read behind a tag has to be one that is written behind the same tag. -/
theorem IsBrief.choice {tag : Codec τ} {tagOf : α → τ} {form : τ → Codec α} (htag : tag.IsBrief)
    (hform : ∀ t, (form t).IsBrief) (htagOf : ∀ t, (form t).read.Yields fun a _ ↦ tagOf a = t) :
    (choice tag tagOf form).IsBrief := by
  refine Yields.bind htag fun t front ht ↦ ((hform t).and (htagOf t)).mono fun a taken h ↦ ?_
  obtain ⟨⟨hkeeps, hbrief⟩, rfl⟩ := h
  exact ⟨.choice ht.1 hkeeps, ht.2.append hbrief⟩

/-- An optional value costs one byte more than the value on both sides. -/
theorem IsBrief.optional {codec : Codec α} (h : codec.IsBrief) : codec.optional.IsBrief := by
  refine Yields.byte.bind ?_
  rintro b _ rfl
  split
  · next hb =>
    cases hb
    exact .pure ⟨keeps_optional (by simp), .refl _⟩
  · split
    · next hb =>
      cases hb
      refine Yields.map (h.mono fun a taken ha ↦ ⟨keeps_optional fun b hb ↦ ?_, ?_⟩)
      · cases hb
        exact ha.1
      · exact (NoLonger.refl [1]).append ha.2
    · exact .refuse _

/-- A run of values, by induction on how many there are: each is kept, and written out they are no longer than
what was taken. -/
theorem yields_readMany {codec : Codec α} (h : codec.IsBrief) (count : Nat) :
    (codec.readMany count).Yields fun as taken ↦ as.length = count ∧ (∀ a ∈ as, codec.Keeps a) ∧
      NoLonger (as.flatMap codec.write) taken := by
  induction count with
  | zero => exact .pure ⟨rfl, by simp, .refl _⟩
  | succ count ih =>
    refine Yields.bind h fun a front ha ↦ Yields.bind ih fun as taken has ↦ .pure ?_
    obtain ⟨rfl, hkeeps, hbrief⟩ := has
    refine ⟨rfl, List.forall_mem_cons.2 ⟨ha.1, hkeeps⟩, ?_⟩
    rw [List.append_nil, List.flatMap_cons]
    exact ha.2.append hbrief

/-- What is yielded by values after their number. -/
theorem yields_list {codec : Codec α} (h : codec.IsBrief) :
    codec.list.read.Yields fun as taken ↦ as.length < byteRange 8 ∧ (∀ a ∈ as, codec.Keeps a) ∧
      NoLonger (codec.list.write as) taken := by
  refine (yields_readNumber (Nat.le_refl 8)).bind fun count front hcount ↦ ?_
  refine (yields_readMany h count).mono fun as taken hmany ↦ ?_
  obtain ⟨rfl, hkeeps, hbrief⟩ := hmany
  exact ⟨hcount.1, hkeeps, hcount.2.append hbrief⟩

theorem IsBrief.list {codec : Codec α} (h : codec.IsBrief) : codec.list.IsBrief :=
  (yields_list h).mono fun _ _ hlist ↦ ⟨keeps_list hlist.1 hlist.2.1, hlist.2.2⟩

/-- A text is as brief as its length, since its letters can be written in one way only. -/
theorem isBrief_text : text.IsBrief := by
  refine (yields_readNumber (Nat.le_refl 8)).bind fun count front hcount ↦ ?_
  refine (Yields.bytes count).bind ?_
  rintro _ bytes ⟨rfl, hlength⟩
  split
  · next s hs =>
    have hbytes : s.toUTF8.data.toList = bytes := by
      rw [String.fromUTF8?] at hs
      split at hs
      · cases hs
        rfl
      · cases hs
    have hsize : s.utf8ByteSize = count := by
      rw [← hlength, ← hbytes]
      rfl
    refine .pure ⟨keeps_text (hsize ▸ hcount.1), ?_⟩
    rw [List.append_nil]
    show NoLonger (writeNumber s.utf8ByteSize ++ s.toUTF8.data.toList) (front ++ bytes)
    rw [hsize, hbytes]
    exact hcount.2.append (.refl _)
  · exact .refuse _

end Codec

end TypeSystem.Binary
