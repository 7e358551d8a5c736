import Mathlib.Data.String.Basic

/-!
# Parts of texts by byte offsets

A text may be taken apart by counting the bytes of its UTF-8 form. Not every pair of offsets leads
to a part of the text: an offset may lie beyond the end or within a character, or the first may be
the larger one. Offsets that are the sizes of texts put together lead back to these texts.

* `Text.part`: the part between two offsets; `Text.part_append`, `Text.part_of_toList`;
* `Text.byteAt?`: the byte at an offset; `Text.byteAt?_eq_some_iff`.
-/

namespace LuaTypes.Text

/-- Offsets between which a text has no part: they are not in order, or at one of them neither a
character of the text begins nor the text ends. -/
structure Misplaced where
  start : Nat
  stop : Nat
  deriving DecidableEq, Repr

/-- The part of a text between two byte offsets. -/
def part (text : String) (start stop : Nat) : Except Misplaced String :=
  if h : start ≤ stop ∧ String.Pos.Raw.IsValid text ⟨start⟩ ∧
      String.Pos.Raw.IsValid text ⟨stop⟩ then
    .ok (text.extract (text.pos ⟨start⟩ h.2.1) (text.pos ⟨stop⟩ h.2.2))
  else .error ⟨start, stop⟩

/-- The byte of a text at an offset. -/
def byteAt? (text : String) (offset : Nat) : Option UInt8 := text.toByteArray.data[offset]?

/-- The size of a text is an offset in every text that begins with it. -/
theorem isValid_append (front back : String) :
    String.Pos.Raw.IsValid (front ++ back) ⟨front.utf8ByteSize⟩ :=
  String.Pos.Raw.isValid_iff_exists_append.2 ⟨front, back, rfl, rfl⟩

theorem part_append (front middle back : String) :
    part (front ++ middle ++ back) front.utf8ByteSize (front ++ middle).utf8ByteSize =
      .ok middle := by
  have hstart := isValid_append front (middle ++ back)
  rw [← String.append_assoc] at hstart
  have hle : front.utf8ByteSize ≤ (front ++ middle).utf8ByteSize := by
    rw [String.utf8ByteSize_append]
    exact Nat.le_add_right _ _
  rw [part, dif_pos ⟨hle, hstart, isValid_append _ _⟩]
  congr 1
  rw [← String.toByteArray_inj, String.toByteArray_extract, String.offset_pos, String.offset_pos,
    ← String.size_toByteArray, ← String.size_toByteArray, String.toByteArray_append,
    String.toByteArray_append, ByteArray.extract_append_size_left]
  exact ByteArray.extract_append_eq_right rfl ByteArray.size_append

theorem part_of_toList {text : String} {front middle back : List Char}
    (h : text.toList = front ++ middle ++ back) :
    part text (String.utf8Len front) (String.utf8Len (front ++ middle)) =
      .ok (String.ofList middle) := by
  have htext : text = String.ofList front ++ String.ofList middle ++ String.ofList back := by
    rw [← String.ofList_append, ← String.ofList_append, ← h, String.ofList_toList]
  rw [htext, ← String.utf8ByteSize_ofList, ← String.utf8ByteSize_ofList, String.ofList_append]
  exact part_append _ _ _

/-- What follows a text of this size begins with the byte at the offset. -/
theorem byteAt?_append (front back : String) :
    byteAt? (front ++ back) front.utf8ByteSize = byteAt? back 0 := by
  rw [byteAt?, byteAt?, String.toByteArray_append, ByteArray.data_append, ← String.size_toByteArray,
    ← ByteArray.size_data, Array.getElem?_append_right (Nat.le_refl _), Nat.sub_self]

/-- A text begins with the byte of a character that takes one byte just when it begins with that
character: no form of a character is the beginning of another's. -/
theorem byteAt?_zero_eq_some_iff {c : Char} (hc : c.utf8Size = 1) (text : List Char) :
    byteAt? (String.ofList text) 0 = some c.toUInt8 ↔ text.head? = some c := by
  have hencoded : [c].utf8Encode = [c.toUInt8].toByteArray := by
    rw [List.utf8Encode_singleton, String.utf8EncodeChar_eq_singleton hc, Char.toUInt8_val]
  rw [byteAt?, String.toByteArray_ofList]
  constructor
  · intro h
    obtain ⟨bytes, hbytes⟩ : ∃ bytes : List UInt8, text.utf8Encode.data = bytes.toArray :=
      ⟨_, (Array.toArray_toList).symm⟩
    obtain ⟨rest, rfl⟩ : ∃ rest, bytes = c.toUInt8 :: rest := by
      cases bytes with
      | nil => simp [hbytes] at h
      | cons byte rest =>
        obtain rfl : byte = c.toUInt8 := by simpa [hbytes] using h
        exact ⟨rest, rfl⟩
    have hsplit : [c].utf8Encode ++ rest.toByteArray = text.utf8Encode := by
      apply ByteArray.ext
      rw [hbytes, hencoded, ByteArray.data_append, List.data_toByteArray, List.data_toByteArray]
      simp
    obtain ⟨rest, rfl⟩ := List.isPrefix_of_utf8Encode_append_eq_utf8Encode _ hsplit
    rfl
  · intro h
    obtain ⟨rest, rfl⟩ := List.head?_eq_some_iff.1 h
    rw [List.utf8Encode_cons, hencoded, ByteArray.data_append, List.data_toByteArray,
      Array.getElem?_append_left (by simp)]
    rfl

/-- After some characters the byte of a character that takes one byte stands just where that
character does. -/
theorem byteAt?_eq_some_iff {text : String} {front back : List Char}
    (h : text.toList = front ++ back) {c : Char} (hc : c.utf8Size = 1) :
    byteAt? text (String.utf8Len front) = some c.toUInt8 ↔ back.head? = some c := by
  have htext : text = String.ofList front ++ String.ofList back := by
    rw [← String.ofList_append, ← h, String.ofList_toList]
  rw [htext, ← String.utf8ByteSize_ofList, byteAt?_append]
  exact byteAt?_zero_eq_some_iff hc back

end LuaTypes.Text
