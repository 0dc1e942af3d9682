/-
  Reshape.Proofs.Json.RoundTrip — what is written is read back.

  The text of a value is one that the grammar derives, and what it derives there is the
  value (`Value.chars_spells`): by recursion on the value, in front of any text that may
  follow, in both layouts. So the reader, which takes up exactly what the grammar derives,
  gives the value back.

  - Only values with unique keys come back unchanged, since the reader merges the members
    of one key; the value of a well-formed document is such a one.
  - `written_reads_back`: a well-formed document that is written and read again has the same value,
    hence the same text.
-/

import Reshape.Json.Print
import Reshape.Proofs.Json.Parsing
import Reshape.Proofs.Number.Written

namespace Reshape

open Grammar (Gap Inside Quoted Spells SpellsMember MoreItems MoreMembers merged)

/-! ## Strings -/

theorem hexDigit_digitChar {n : Nat} (h : n < 16) : Grammar.HexDigit (Nat.digitChar n) n := by
  have all : ∀ n < 16, hexDigit? (Nat.digitChar n) = some n := by decide
  exact hexDigit?_eq_some_iff.1 (all n h)

/-- A character as it is written between double quotes stands for itself. -/
theorem escapedChar_inside {c : Char} {text chars rest : List Char} (h : Inside '"' text chars rest) :
    Inside '"' (escapedChar c ++ text) (c :: chars) rest := by
  unfold escapedChar
  split
  · subst c
    exact .letter (by decide) h
  split
  · subst c
    exact .letter (by decide) h
  split
  · subst c
    exact .letter (by decide) h
  split
  · subst c
    exact .letter (by decide) h
  split
  · subst c
    exact .letter (by decide) h
  split
  · subst c
    exact .letter (by decide) h
  split
  · subst c
    exact .letter (by decide) h
  split
  · rename_i hc
    have hzero : Grammar.HexDigit '0' 0 := .inl rfl
    have hhigh := hexDigit_digitChar (show c.toNat / 16 < 16 by omega)
    have hlow := hexDigit_digitChar (show c.toNat % 16 < 16 by omega)
    have hunit : 0 * 0x1000 + 0 * 0x100 + c.toNat / 16 * 0x10 + c.toNat % 16 = c.toNat := by omega
    have hspelled := Inside.unit (.mk hzero hzero hhigh hlow) (.inl (by omega)) h
    rw [hunit, Char.ofNat_toNat] at hspelled
    exact hspelled
  · rename_i hquote hslash _ _ _ _ _ _
    exact .raw hquote hslash h

theorem escapedChars_inside (chars rest : List Char) :
    Inside '"' (chars.flatMap escapedChar ++ '"' :: rest) chars rest := by
  induction chars with
  | nil => exact .close
  | cons c chars ih =>
    rw [List.flatMap_cons, List.append_assoc]
    exact escapedChar_inside ih

theorem quotedChars_quoted (s : String) (rest : List Char) : Quoted (quotedChars s ++ rest) s rest := by
  have h := Quoted.mk (.inl rfl) (escapedChars_inside s.toList rest)
  rw [String.ofList_toList] at h
  rwa [quotedChars, List.cons_append, List.append_assoc]

/-! ## Values -/

theorem newline_gap (layout : Layout) (depth : Nat) (rest : List Char) : Gap (layout.newline depth ++ rest) rest := by
  cases layout with
  | compact => exact .none
  | indented =>
    refine .separator (by decide) ?_
    induction 2 * depth with
    | zero => exact .none
    | succ n ih => exact .separator (by decide) ih

theorem colon_gap (layout : Layout) (rest : List Char) :
    ∃ t, layout.colon ++ rest = ':' :: t ∧ Gap t rest := by
  cases layout with
  | compact => exact ⟨rest, rfl, .none⟩
  | indented => exact ⟨' ' :: rest, rfl, .separator (by decide) .none⟩

theorem Scalar.chars_spells (s : Scalar) (rest : List Char) : Spells (s.chars ++ rest) (.scalar s) rest := by
  cases s with
  | null => exact .null
  | bool b =>
    cases b with
    | true => exact .yes
    | false => exact .no
  | number n =>
    obtain ⟨l, hchars, hproper, hnames⟩ := n.chars_spelled
    rw [Scalar.chars, ← hchars]
    exact .number hproper hnames
  | string s => exact .string (quotedChars_quoted s rest)

theorem member_spells {layout : Layout} {depth : Nat} {v : Value} {rest : List Char}
    (h : Spells (v.chars layout depth ++ rest) v rest) (key : String) :
    SpellsMember (quotedChars key ++ (layout.colon ++ (v.chars layout depth ++ rest))) (key, v) rest := by
  obtain ⟨t, ht, hg⟩ := colon_gap layout (v.chars layout depth ++ rest)
  rw [ht]
  exact .mk (quotedChars_quoted key _) .none hg h

namespace Value

mutual

/-- A value with unique keys is spelled by its text, whatever follows. -/
theorem chars_spells (layout : Layout) (depth : Nat) (v : Value) (h : v.Keyed) (rest : List Char) :
    Spells (v.chars layout depth ++ rest) v rest := by
  match v, h with
  | .scalar s, _ =>
    rw [chars]
    exact s.chars_spells rest
  | .array [], _ =>
    rw [chars]
    exact .emptyArray .none
  | .array (v :: items), h =>
    obtain ⟨hv, hitems⟩ : v.Keyed ∧ ItemsKeyed items := h
    rw [chars]
    simp only [List.cons_append, List.append_assoc]
    exact .array (newline_gap ..) (chars_spells layout (depth + 1) v hv _)
      (moreItems_spells layout (depth + 1) items hitems _) (.plain (newline_gap ..))
  | .object [], _ =>
    rw [chars]
    exact .emptyObject .none
  | .object ((key, v) :: members), h =>
    obtain ⟨hkeys, hv, hmembers⟩ : (((key, v) :: members).map Prod.fst).Nodup ∧ v.Keyed ∧ MembersKeyed members := h
    rw [chars]
    simp only [List.cons_append, List.append_assoc]
    rw [← merged_of_nodup hkeys]
    exact .object (newline_gap ..) (member_spells (chars_spells layout (depth + 1) v hv _) key)
      (moreMembers_spells layout (depth + 1) members hmembers _) (.plain (newline_gap ..))

theorem moreItems_spells (layout : Layout) (depth : Nat) (items : List Value) (h : ItemsKeyed items)
    (rest : List Char) : MoreItems (moreItems layout depth items ++ rest) items rest := by
  match items, h with
  | [], _ => exact .nil
  | v :: items, h =>
    obtain ⟨hv, hitems⟩ : v.Keyed ∧ ItemsKeyed items := h
    rw [moreItems]
    simp only [List.cons_append, List.append_assoc]
    exact .cons .none (newline_gap ..) (chars_spells layout depth v hv _)
      (moreItems_spells layout depth items hitems rest)

theorem moreMembers_spells (layout : Layout) (depth : Nat) (members : List (String × Value))
    (h : MembersKeyed members) (rest : List Char) :
    MoreMembers (moreMembers layout depth members ++ rest) members rest := by
  match members, h with
  | [], _ => exact .nil
  | (key, v) :: members, h =>
    obtain ⟨hv, hmembers⟩ : v.Keyed ∧ MembersKeyed members := h
    rw [moreMembers]
    simp only [List.cons_append, List.append_assoc]
    exact .cons .none (newline_gap ..) (member_spells (chars_spells layout depth v hv _) key)
      (moreMembers_spells layout depth members hmembers rest)

end

end Value

/-! ## Documents -/

theorem Value.itemsKeyed_iff {items : List Value} : ItemsKeyed items ↔ ∀ v ∈ items, v.Keyed := by
  induction items with
  | nil => simp [ItemsKeyed]
  | cons v items ih => simp [ItemsKeyed, ih]

theorem Value.membersKeyed_iff {members : List (String × Value)} : MembersKeyed members ↔ ∀ e ∈ members, e.2.Keyed := by
  induction members with
  | nil => simp [MembersKeyed]
  | cons e members ih => simp [MembersKeyed, ih]

/-- The value of a tree with unique keys has unique keys. -/
theorem Tree.Keyed.value {t : Tree} (h : t.Keyed) : t.value.Keyed := by
  induction t using Tree.parts_induction with
  | _ t ih =>
    obtain ⟨position, content⟩ := t
    cases content with
    | scalar s => trivial
    | array items =>
      rw [Tree.value, Tree.itemValues_eq]
      refine Value.itemsKeyed_iff.2 fun v hv => ?_
      obtain ⟨item, hi, rfl⟩ := List.mem_map.1 hv
      exact ih item hi (h.part hi)
    | object members =>
      rw [Tree.value, Tree.memberValues_eq]
      refine ⟨by rw [Tree.keys_of_entries]; exact h.keys, Value.membersKeyed_iff.2 fun e he => ?_⟩
      obtain ⟨m, hm, rfl⟩ := List.mem_map.1 he
      exact ih m.value (List.mem_map_of_mem hm) (h.member hm)

/-- Writing a well-formed document, in either layout, and reading the text gives a document of the same value,
    which is written as the same text. -/
theorem written_reads_back {d : Document} (h : d.WellFormed) (layout : Layout) :
    ∃ e, Document.parse (d.rootValue.text layout) = .ok e ∧ e.rootValue = d.rootValue ∧
      e.rootValue.text layout = d.rootValue.text layout := by
  have hkeyed : d.rootValue.Keyed := (h.toLinked.tree_keyed d.root).value
  have hspells := d.rootValue.chars_spells layout 0 hkeyed []
  rw [List.append_nil] at hspells
  have hgrammar : Grammar.Document (d.rootValue.text layout).toList d.rootValue := by
    rw [Value.text_eq, String.toList_ofList]
    exact ⟨_, _, [], .inl rfl, .none, hspells, .none⟩
  obtain ⟨e, he, hvalue⟩ := parse_eq_iff.2 hgrammar
  exact ⟨e, he, hvalue, by rw [hvalue]⟩

def nested : Document :=
  .ofValue (.object [("a", .array [.scalar .null, .object []]), ("b", .scalar (.string "\n"))])

theorem nested_reads_back : nested.WellFormed ∧
    ∃ e, Document.parse (nested.rootValue.text .indented) = .ok e ∧ e.rootValue = nested.rootValue ∧
      e.rootValue.text .indented = nested.rootValue.text .indented := by
  have hkeyed : (Value.object [("a", .array [.scalar .null, .object []]), ("b", .scalar (.string "\n"))]).Keyed := by
    simp [Value.Keyed, Value.ItemsKeyed, Value.MembersKeyed]
  have hwf : nested.WellFormed := Document.ofValue_wellFormed hkeyed
  exact ⟨hwf, written_reads_back hwf .indented⟩

end Reshape
