/-
  Reshape.Proofs.Text.Cuts — texts that are cut by bytes.

  A text is a row of characters, but it is stored as bytes, and places in it are counted in
  bytes. Not every byte is a place to cut: one inside a character leaves two pieces that are no
  texts, and behind the last one there is nothing to cut. `cutAt?` cuts the bytes and takes each
  piece for what it is.

  - `cutAt?_eq_some_iff`: the cuts that succeed are those between a text and a text behind it.
  - `isSome_cutAt?_iff`: they are the valid positions of the text.
  - `byteCount`: how many bytes characters take, so that one who goes over them knows where to cut.
-/

import Mathlib.Logic.Basic

namespace Reshape

/-- The pieces of a text that is cut behind so many bytes; nothing if it has not so many, or if one of the pieces
    is no text. -/
def cutAt? (text : String) (bytes : Nat) : Option (String × String) :=
  if bytes ≤ text.toByteArray.size then
    (String.fromUTF8? (text.toByteArray.extract 0 bytes)).bind fun front =>
      (String.fromUTF8? (text.toByteArray.extract bytes text.toByteArray.size)).map fun rest => (front, rest)
  else none

variable {text front rest : String} {bytes : Nat}

theorem fromUTF8?_eq_some_iff {b : ByteArray} : String.fromUTF8? b = some text ↔ text.toByteArray = b := by
  unfold String.fromUTF8?
  split
  · rename_i hb
    have hbytes : (String.fromUTF8 b hb).toByteArray = b := rfl
    rw [Option.some_inj, ← String.toByteArray_inj, hbytes, eq_comm]
  · rename_i hb
    refine ⟨nofun, fun h => absurd text.isValidUTF8 ?_⟩
    rw [h]
    exact hb

/-- The cuts that succeed are those between a text and a text behind it. -/
theorem cutAt?_eq_some_iff :
    cutAt? text bytes = some (front, rest) ↔ text = front ++ rest ∧ front.utf8ByteSize = bytes := by
  have hpieces : cutAt? text bytes = some (front, rest) ↔ bytes ≤ text.toByteArray.size ∧
      front.toByteArray = text.toByteArray.extract 0 bytes ∧
      rest.toByteArray = text.toByteArray.extract bytes text.toByteArray.size := by
    simp [cutAt?, Option.bind_eq_some_iff, ← fromUTF8?_eq_some_iff]
  rw [hpieces]
  constructor
  · rintro ⟨hle, hfront, hrest⟩
    have hwhole : (front ++ rest).toByteArray = text.toByteArray := by
      rw [String.toByteArray_append, hfront, hrest, ByteArray.extract_append_extract, Nat.zero_min,
        Nat.max_eq_right hle, ByteArray.extract_zero_size]
    refine ⟨(String.toByteArray_inj.mp hwhole).symm, ?_⟩
    rw [← String.size_toByteArray, hfront, ByteArray.size_extract]
    omega
  · rintro ⟨rfl, rfl⟩
    have hsize : (front ++ rest).toByteArray.size = front.utf8ByteSize + rest.utf8ByteSize := by
      rw [String.toByteArray_append, ByteArray.size_append, String.size_toByteArray, String.size_toByteArray]
    rw [hsize, String.toByteArray_append]
    exact ⟨Nat.le_add_right _ _, (ByteArray.extract_append_eq_left rfl).symm,
      (ByteArray.extract_append_eq_right rfl rfl).symm⟩

theorem cutAt?_append (front rest : String) : cutAt? (front ++ rest) front.utf8ByteSize = some (front, rest) :=
  cutAt?_eq_some_iff.mpr ⟨rfl, rfl⟩

/-- A text can be cut at its positions, and nowhere else. -/
theorem isSome_cutAt?_iff : (cutAt? text bytes).isSome = true ↔ (⟨bytes⟩ : String.Pos.Raw).IsValid text := by
  rw [Option.isSome_iff_exists, String.Pos.Raw.isValid_iff_exists_append]
  constructor
  · rintro ⟨⟨front, rest⟩, h⟩
    obtain ⟨htext, hbytes⟩ := cutAt?_eq_some_iff.mp h
    exact ⟨front, rest, htext, String.Pos.Raw.ext hbytes.symm⟩
  · rintro ⟨front, rest, htext, hbytes⟩
    exact ⟨(front, rest), cutAt?_eq_some_iff.mpr ⟨htext, (congrArg String.Pos.Raw.byteIdx hbytes).symm⟩⟩

/-! ## Characters and their bytes -/

def byteCount : List Char → Nat
  | [] => 0
  | c :: rest => c.utf8Size + byteCount rest

@[simp] theorem byteCount_nil : byteCount [] = 0 := rfl

@[simp] theorem byteCount_cons (c : Char) (chars : List Char) :
    byteCount (c :: chars) = c.utf8Size + byteCount chars := rfl

@[simp] theorem byteCount_append (chars more : List Char) :
    byteCount (chars ++ more) = byteCount chars + byteCount more := by
  induction chars with
  | nil => simp
  | cons c chars ih => simp [ih, Nat.add_assoc]

theorem utf8ByteSize_ofList (chars : List Char) : (String.ofList chars).utf8ByteSize = byteCount chars := by
  induction chars with
  | nil => rfl
  | cons c chars ih =>
    have hone : (String.ofList [c]).utf8ByteSize = c.utf8Size := by
      rw [← String.singleton_eq_ofList, String.utf8ByteSize_singleton]
    rw [← List.singleton_append, String.ofList_append, String.utf8ByteSize_append, hone, ih, List.singleton_append,
      byteCount_cons]

/-- Behind some of its characters, a text can be cut. -/
theorem cutAt?_ofList (chars more : List Char) :
    cutAt? (String.ofList (chars ++ more)) (byteCount chars) = some (String.ofList chars, String.ofList more) := by
  rw [String.ofList_append, ← utf8ByteSize_ofList, cutAt?_append]

end Reshape
