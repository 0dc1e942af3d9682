/-
  Reshape.Proofs.Text.Prefixes — cutting a head off a text, by characters and by bytes.

  Whether a text begins with a head can be settled without looking at a character: cut the text
  where the head would end, counting in bytes, and compare the bytes in front of the cut with those
  of the head (`stripBytes?`). The law is about characters. What joins the two is that a capital of
  ASCII and its small letter are a byte each, and that no byte of any other character is one of a
  letter: then comparing bytes is comparing characters (`foldedBytes_eq_iff`), texts that compare
  equal have equally many bytes, and the cut that succeeds is the one behind the head's counterpart.

  - `stripBytes?_eq`: the two ways agree on all texts and heads.
  - `head_stripped_exactly`: what is left of a text, under either rule.
-/

import Reshape.Proofs.Text.Cuts
import Reshape.Directive

namespace Reshape

namespace CaseRule

/-- The byte as it is compared: without regard to case, a capital of ASCII is its small letter. -/
def foldByte : CaseRule → UInt8 → UInt8
  | .sensitive, b => b
  | .insensitive, b => if 65 ≤ b ∧ b ≤ 90 then b + 32 else b

def foldedBytes (rule : CaseRule) (text : String) : List UInt8 := text.toByteArray.data.toList.map rule.foldByte

/-- What is behind the cut that leaves as many bytes in front as `head` has, if those bytes are `head`'s. -/
def stripBytes? (rule : CaseRule) (text head : String) : Option String :=
  (cutAt? text head.utf8ByteSize).bind fun (front, rest) =>
    if rule.foldedBytes front = rule.foldedBytes head then some rest else none

variable {rule : CaseRule} {text head rest : String}

/-! ## Bytes and characters -/

/-- A byte that ASCII has no character for is compared as it is. -/
theorem foldByte_of_le (rule : CaseRule) {b : UInt8} (h : 128 ≤ b) : rule.foldByte b = b := by
  cases rule with
  | sensitive => rfl
  | insensitive =>
    have hcapital : ¬ (65 ≤ b ∧ b ≤ 90) := by
      rw [UInt8.le_iff_toNat_le] at h
      rw [UInt8.le_iff_toNat_le, UInt8.le_iff_toNat_le]
      have h128 : (128 : UInt8).toNat = 128 := rfl
      have h90 : (90 : UInt8).toNat = 90 := rfl
      omega
    exact if_neg hcapital

theorem fold_of_not_ascii (rule : CaseRule) {c : Char} (h : 128 ≤ c.toNat) : rule.fold c = c := by
  cases rule with
  | sensitive => rfl
  | insensitive =>
    have hcapital : ¬ (c.val ≥ 'A'.val ∧ c.val ≤ 'Z'.val) := by
      rw [ge_iff_le, UInt32.le_iff_toNat_le, UInt32.le_iff_toNat_le]
      have hz : 'Z'.val.toNat = 90 := rfl
      have hc : c.toNat = c.val.toNat := rfl
      omega
    exact dif_neg hcapital

/-- Of a character outside ASCII, no byte is one of ASCII. -/
theorem le_of_mem_utf8EncodeChar {c : Char} (h : 128 ≤ c.toNat) {b : UInt8} (hb : b ∈ String.utf8EncodeChar c) :
    128 ≤ b := by
  have hval : 128 ≤ c.val.toNat := h
  have hbyte : ∀ n, 128 ≤ n → n < 256 → 128 ≤ UInt8.ofNat n := by
    intro n hn hlt
    rw [UInt8.le_iff_toNat_le, UInt8.toNat_ofNat', Nat.mod_eq_of_lt hlt]
    exact hn
  simp only [String.utf8EncodeChar] at hb
  split at hb
  · omega
  split at hb
  · simp only [List.mem_cons, List.not_mem_nil, or_false] at hb
    rcases hb with rfl | rfl <;> exact hbyte _ (by omega) (by omega)
  split at hb
  · simp only [List.mem_cons, List.not_mem_nil, or_false] at hb
    rcases hb with rfl | rfl | rfl <;> exact hbyte _ (by omega) (by omega)
  · simp only [List.mem_cons, List.not_mem_nil, or_false] at hb
    rcases hb with rfl | rfl | rfl | rfl <;> exact hbyte _ (by omega) (by omega)

/-- What a character of ASCII is compared as, is compared by its byte. -/
theorem utf8EncodeChar_fold_ascii (rule : CaseRule) : ∀ n < 128,
    String.utf8EncodeChar (rule.fold (Char.ofNat n)) = (String.utf8EncodeChar (Char.ofNat n)).map rule.foldByte := by
  cases rule <;> decide

/-- What a character is compared as, is compared byte by byte. -/
theorem utf8EncodeChar_fold (rule : CaseRule) (c : Char) :
    String.utf8EncodeChar (rule.fold c) = (String.utf8EncodeChar c).map rule.foldByte := by
  by_cases h : c.toNat < 128
  · rw [← Char.ofNat_toNat c]
    exact rule.utf8EncodeChar_fold_ascii c.toNat h
  · have hle : 128 ≤ c.toNat := Nat.le_of_not_lt h
    have hbytes : (String.utf8EncodeChar c).map rule.foldByte = (String.utf8EncodeChar c).map id :=
      List.map_congr_left fun b hb => rule.foldByte_of_le (le_of_mem_utf8EncodeChar hle hb)
    rw [rule.fold_of_not_ascii hle, hbytes, List.map_id]

theorem foldedBytes_eq (rule : CaseRule) (text : String) :
    rule.foldedBytes text = (String.ofList (rule.folded text.toList)).toByteArray.data.toList := by
  rw [foldedBytes, ← String.utf8Encode_toList, String.toByteArray_ofList]
  simp [List.utf8Encode, folded, List.flatMap_map, List.map_flatMap, utf8EncodeChar_fold]

/-- To compare bytes is to compare characters. -/
theorem foldedBytes_eq_iff :
    rule.foldedBytes text = rule.foldedBytes head ↔ rule.folded text.toList = rule.folded head.toList := by
  rw [foldedBytes_eq, foldedBytes_eq, Array.toList_inj, ← ByteArray.ext_iff, String.toByteArray_inj, String.ofList_inj]

theorem length_foldedBytes (rule : CaseRule) (text : String) :
    (rule.foldedBytes text).length = text.utf8ByteSize := by
  rw [foldedBytes, List.length_map, Array.length_toList]
  rfl

/-! ## Cutting off a head -/

theorem stripBytes?_eq_some_iff_cut :
    rule.stripBytes? text head = some rest ↔
      ∃ front, cutAt? text head.utf8ByteSize = some (front, rest) ∧ rule.foldedBytes front = rule.foldedBytes head := by
  simp only [stripBytes?, Option.bind_eq_some_iff, Prod.exists]
  constructor
  · rintro ⟨front, behind, hcut, h⟩
    split at h
    · rename_i hbytes
      obtain rfl := Option.some.inj h
      exact ⟨front, hcut, hbytes⟩
    · cases h
  · rintro ⟨front, hcut, hbytes⟩
    exact ⟨front, rest, hcut, if_pos hbytes⟩

/-- Cut by bytes, a text is a front that compares equal to the head, and what is left. -/
theorem stripBytes?_eq_some_iff :
    rule.stripBytes? text head = some rest ↔
      ∃ front, text = front ++ rest ∧ rule.folded front.toList = rule.folded head.toList := by
  simp only [stripBytes?_eq_some_iff_cut, cutAt?_eq_some_iff, foldedBytes_eq_iff]
  constructor
  · rintro ⟨front, ⟨htext, -⟩, hfolded⟩
    exact ⟨front, htext, hfolded⟩
  · rintro ⟨front, htext, hfolded⟩
    have hsize : front.utf8ByteSize = head.utf8ByteSize := by
      rw [← rule.length_foldedBytes, foldedBytes_eq_iff.mpr hfolded, rule.length_foldedBytes]
    exact ⟨front, ⟨htext, hsize⟩, hfolded⟩

theorem stripPrefix?_eq_some_iff :
    rule.stripPrefix? text head = some rest ↔
      ∃ front, text = front ++ rest ∧ rule.folded front.toList = rule.folded head.toList := by
  simp only [stripPrefix?, Option.map_eq_some_iff, strip?_eq_some_iff]
  constructor
  · rintro ⟨behind, ⟨front, htext, hfolded⟩, rfl⟩
    refine ⟨String.ofList front, ?_, by rwa [String.toList_ofList]⟩
    rw [← String.ofList_append, ← htext, String.ofList_toList]
  · rintro ⟨front, rfl, hfolded⟩
    exact ⟨rest.toList, ⟨front.toList, String.toList_append, hfolded⟩, String.ofList_toList⟩

/-- Cutting by characters and cutting by bytes is the same. -/
theorem stripBytes?_eq (rule : CaseRule) (text head : String) :
    rule.stripBytes? text head = rule.stripPrefix? text head := by
  ext rest
  rw [stripBytes?_eq_some_iff, stripPrefix?_eq_some_iff]

theorem folded_insensitive_iff :
    insensitive.folded text.toList = insensitive.folded head.toList ↔
      text.map Char.toLower = head.map Char.toLower := by
  rw [← String.toList_inj, String.toList_map, String.toList_map]
  rfl

theorem folded_sensitive_iff : sensitive.folded text.toList = sensitive.folded head.toList ↔ text = head := by
  have hid : ∀ t : String, sensitive.folded t.toList = t.toList := fun t => List.map_id' t.toList
  rw [hid, hid, String.toList_inj]

/-- Heads that compare equal are cut off a text at the same place. -/
theorem fronts_eq (rule : CaseRule) {front rest front' rest' : String} (h : text = front ++ rest)
    (h' : text = front' ++ rest')
    (hf : rule.folded front.toList = rule.folded front'.toList) : front = front' ∧ rest = rest' := by
  have hlength : front.toList.length = front'.toList.length := by simpa [folded] using congrArg List.length hf
  have hlists : front.toList ++ rest.toList = front'.toList ++ rest'.toList := by
    rw [← String.toList_append, ← String.toList_append, ← h, h']
  obtain ⟨hfront, hrest⟩ := List.append_inj hlists hlength
  exact ⟨String.toList_inj.mp hfront, String.toList_inj.mp hrest⟩

/-- What is left of a text: without regard to case, what stands behind a front that is the head once the capitals
    of ASCII are small letters in both; else what stands behind the head. There is one such front at most. What is
    left is found by cutting the text at the byte where the head would end and comparing bytes, and where it is
    found, that cut does not fall inside a character. -/
theorem head_stripped_exactly (text head : String) :
    (∀ rest, insensitive.stripPrefix? text head = some rest ↔
      ∃ front, text = front ++ rest ∧ front.map Char.toLower = head.map Char.toLower) ∧
    (∀ rest, sensitive.stripPrefix? text head = some rest ↔ text = head ++ rest) ∧
    (∀ front rest front' rest', text = front ++ rest → front.map Char.toLower = head.map Char.toLower →
      text = front' ++ rest' → front'.map Char.toLower = head.map Char.toLower → front = front' ∧ rest = rest') ∧
    ∀ rule : CaseRule, rule.stripPrefix? text head = rule.stripBytes? text head ∧
      ∀ rest, rule.stripPrefix? text head = some rest →
        (⟨head.utf8ByteSize⟩ : String.Pos.Raw).IsValid text ∧
          ∃ front, cutAt? text head.utf8ByteSize = some (front, rest) := by
  refine ⟨fun rest => ?_, fun rest => ?_, fun front rest front' rest' h hf h' hf' => ?_, fun rule => ⟨?_, ?_⟩⟩
  · simp only [stripPrefix?_eq_some_iff, folded_insensitive_iff]
  · simp only [stripPrefix?_eq_some_iff, folded_sensitive_iff]
    exact ⟨fun ⟨front, h, hf⟩ => hf ▸ h, fun h => ⟨head, h, rfl⟩⟩
  · exact fronts_eq insensitive h h' (folded_insensitive_iff.mpr (hf.trans hf'.symm))
  · exact (stripBytes?_eq rule text head).symm
  · intro rest h
    rw [← stripBytes?_eq, stripBytes?_eq_some_iff_cut] at h
    obtain ⟨front, hcut, -⟩ := h
    exact ⟨isSome_cutAt?_iff.mp (Option.isSome_of_eq_some hcut), front, hcut⟩

end CaseRule

/-- The name of a directive is what stands behind the prefix, in whatever case the prefix is written. -/
theorem directiveName?_eq_some_iff {key name : String} :
    directiveName? key = some name ↔ ∃ front, key = front ++ name ∧ front.map Char.toLower = directivePrefix := by
  have hprefix : directivePrefix.map Char.toLower = directivePrefix := by decide +kernel
  rw [directiveName?, directiveCase, CaseRule.stripPrefix?_eq_some_iff]
  simp only [CaseRule.folded_insensitive_iff, hprefix]

/-- The prefix would end inside the accented letter. -/
example : directiveName? "@jdé.remove" = none ∧ directiveName? "@JDt.é" = some "é" := by decide +kernel

end Reshape
