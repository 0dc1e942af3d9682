/-
  Reshape.Proofs.Path.Names — dotted names, and the spelling that normalizing gives them.

  A strict path has fewer names behind a dot than a loose one, but more than plain identifiers:
  characters beyond ASCII may stand in them. Normalizing puts such a name in brackets and quotes,
  and it is read back there, as is any name without controls.

  - `Dotted name selector`: a dotted name in a strict path, and what it selects.
  - `selects_quotedName`: a quoted name selects the members of this name.
  - `Dotted.heads`, `Dotted.heads_below`: what normalizing writes for a dotted name is the same
    segment.
-/

import Reshape.Proofs.Path.Segments

namespace Reshape.Path

variable {text name rest : List Char} {selector : Selector}

/-! ## Dotted names -/

inductive Dotted : List Char → Selector → Prop
  | wildcard : Dotted ['*'] .wildcard
  | name {c : Char} {rest : List Char} (first : startsName c = true)
      (others : ∀ d ∈ rest, (startsName d || isDigit d) = true) : Dotted (c :: rest) (.name (String.ofList (c :: rest)))

/-- Nothing follows, or what ends a dotted name in a loose path. -/
def Bounded (text : List Char) : Prop := ∀ c ∈ text.head?, endsName c = true

theorem bounded_cons {c : Char} (h : endsName c = true) (rest : List Char) : Bounded (c :: rest) := by
  intro d hd
  obtain rfl := Option.some.inj hd
  exact h

/-- What holds of an asterisk and of the characters of a name holds of a dotted name. -/
theorem Dotted.forall_mem {P : Char → Prop} (h : Dotted name selector) (hw : P '*')
    (hname : ∀ c, (startsName c || isDigit c) = true → P c) : ∀ c ∈ name, P c := by
  intro c hc
  cases h with
  | wildcard =>
    obtain rfl := List.mem_singleton.mp hc
    exact hw
  | name first others =>
    rcases List.mem_cons.mp hc with rfl | hc
    · exact hname c (by rw [first]; rfl)
    · exact hname c (others c hc)

theorem not_inName_of_endsName {c : Char} (h : endsName c = true) : (startsName c || isDigit c) = false := by
  simp only [endsName, Bool.or_eq_true, beq_iff_eq] at h
  rcases h with rfl | rfl <;> decide

theorem not_endsName_of_inName {c : Char} (h : (startsName c || isDigit c) = true) : endsName c = false := by
  refine Bool.eq_false_iff.mpr fun he => ?_
  rw [not_inName_of_endsName he] at h
  cases h

theorem Dotted.not_ends (h : Dotted name selector) : ∀ c ∈ name, endsName c = false :=
  h.forall_mem (by decide) fun _ => not_endsName_of_inName

/-- What a name begins with is no character that ends one. -/
theorem append_ne_of_not_ends (h : ∀ c ∈ name, endsName c = false) (hn : name ≠ []) {a : Char}
    (ha : endsName a = true) (rest more : List Char) : name ++ rest ≠ a :: more := by
  intro e
  obtain ⟨c, cs, rfl⟩ := List.exists_cons_of_ne_nil hn
  have hc := h c List.mem_cons_self
  rw [(List.cons.inj e).1, ha] at hc
  cases hc

theorem Dotted.append_ne (h : Dotted name selector) {a : Char} (ha : endsName a = true) (rest more : List Char) :
    name ++ rest ≠ a :: more := by
  have hn : name ≠ [] := by cases h <;> exact List.cons_ne_nil _ _
  exact append_ne_of_not_ends h.not_ends hn ha rest more

/-! ### Reading them -/

theorem dotted_of_readDotted? (h : readDotted? text = some (selector, rest)) :
    ∃ name, Dotted name selector ∧ text = name ++ rest := by
  unfold readDotted? at h
  split at h
  case h_1 =>
    obtain ⟨rfl, rfl⟩ := Prod.mk.inj (Option.some.inj h)
    exact ⟨['*'], .wildcard, rfl⟩
  case h_2 =>
    obtain ⟨⟨s, left⟩, hread, e⟩ := Option.map_eq_some_iff.mp h
    obtain ⟨rfl, rfl⟩ := Prod.mk.inj e
    cases text with
    | nil => cases hread
    | cons c text =>
      rw [readName?] at hread
      split at hread
      case isTrue first =>
        obtain ⟨rfl, rfl⟩ := Prod.mk.inj (Option.some.inj hread)
        refine ⟨_, .name first fun d hd => ?_, (congrArg _ List.takeWhile_append_dropWhile).symm⟩
        have hin := List.mem_takeWhile_imp hd
        exact hin
      case isFalse => cases hread

/-- A stretch of a class of characters ends where a character of another class follows. -/
theorem span_append {p : Char → Bool} (h : ∀ c ∈ name, p c = true) (hr : ∀ c ∈ rest.head?, p c = false) :
    (name ++ rest).takeWhile p = name ∧ (name ++ rest).dropWhile p = rest := by
  rw [List.takeWhile_append_of_pos h, List.dropWhile_append_of_pos h]
  cases rest with
  | nil => exact ⟨List.append_nil name, rfl⟩
  | cons c rest => simp [hr c rfl]

theorem Dotted.read (h : Dotted name selector) (hb : Bounded rest) :
    readDotted? (name ++ rest) = some (selector, rest) := by
  cases h with
  | wildcard => rfl
  | @name c cs first others =>
    have hw : ∀ more, c :: cs ++ rest ≠ '*' :: more := by
      intro more e
      rw [(List.cons.inj e).1] at first
      cases first
    have hbound : ∀ d ∈ rest.head?, (startsName d || isDigit d) = false := fun d hd => not_inName_of_endsName (hb d hd)
    have hspan := span_append (p := fun d => startsName d || isDigit d) others hbound
    rw [readDotted?_name hw, List.cons_append, readName?, if_pos first]
    simp only [hspan, Option.map_some]

/-! ## Names in brackets and quotes -/

def quotedName (name : List Char) : List Char := '\'' :: (name.flatMap quotedNameChar ++ ['\''])

theorem bracketed_eq (name : List Char) : bracketed name = '[' :: (quotedName name ++ [']']) := by
  simp [bracketed, quotedName]

/-- One character of a quoted name is read back, unless it is a control. -/
theorem readBody?_quotedNameChar (c : Char) (rest : List Char) :
    readBody? '\'' (quotedNameChar c ++ rest) =
      if c.toNat < 0x20 then none else (readBody? '\'' rest).map fun (cs, rest) => (c :: cs, rest) := by
  by_cases hc : c = '\\' ∨ c = '\''
  · have hescape : readEscape? '\'' (c :: rest) = some (c, rest) := by
      rcases hc with rfl | rfl <;> rfl
    have hquoted : quotedNameChar c = ['\\', c] := by
      rcases hc with rfl | rfl <;> rfl
    have hplain : ¬ c.toNat < 0x20 := by
      rcases hc with rfl | rfl <;> decide
    rw [hquoted, List.cons_append, List.cons_append, List.nil_append, readBody?_escape (by decide) hescape,
      if_neg hplain]
  · have hquoted : quotedNameChar c = [c] := by simp [quotedNameChar, hc]
    have hb : c ≠ '\\' := fun e => hc (Or.inl e)
    have hq : c ≠ '\'' := fun e => hc (Or.inr e)
    rw [hquoted, List.cons_append, List.nil_append]
    split
    · rename_i hcontrol
      exact readBody?_control hq hb hcontrol rest
    · rename_i hcontrol
      exact readBody?_char hq hb hcontrol rest

/-- What is quoted is read back. -/
theorem readBody?_quotedName (h : ∀ c ∈ name, ¬ c.toNat < 0x20) (rest : List Char) :
    readBody? '\'' (name.flatMap quotedNameChar ++ '\'' :: rest) = some (name, rest) := by
  induction name with
  | nil => exact readBody?_quote _ _
  | cons c name ih =>
    have ih := ih fun d hd => h d (List.mem_cons_of_mem _ hd)
    rw [List.flatMap_cons, List.append_assoc, readBody?_quotedNameChar, if_neg (h c List.mem_cons_self), ih]
    rfl

/-- In brackets, a quoted name selects the members of this name. -/
theorem selects_quotedName (h : ∀ c ∈ name, ¬ c.toNat < 0x20) :
    Selects (quotedName name) [.name (String.ofList name)] := by
  have hquoted : readQuoted? (quotedName name ++ [']']) = some (String.ofList name, [']']) := by
    rw [quotedName, List.cons_append, List.append_assoc, List.singleton_append, readQuoted?_of_quote isQuote_single,
      readBody?_quotedName h]
    rfl
  have hselector : ∀ n, readSelector? (n + 1) (quotedName name ++ [']']) =
      some (.name (String.ofList name), [']']) := by
    intro n
    have hne : ∀ c ≠ '\'', ∀ rest, quotedName name ++ [']'] ≠ c :: rest := fun c hc rest e =>
      hc (List.cons.inj e).1.symm
    rw [readSelector?_other n (hne '*' (by decide)) (hne '?' (by decide)), hquoted]
  have hselectors : ∀ n, readSelectors? (n + 2) (quotedName name ++ [']']) =
      some ([.name (String.ofList name)], []) := by
    intro n
    have hskip : skipBlanks (quotedName name ++ [']']) = quotedName name ++ [']'] := rfl
    rw [readSelectors?, hskip, hselector]
    rfl
  obtain ⟨inner, hinner, hselects⟩ := selects_of_readSelectors? (hselectors _) (Nat.le_refl _)
  rwa [List.append_cancel_right hinner]

theorem not_control_of_inName {c : Char} (h : (startsName c || isDigit c) = true) : ¬ c.toNat < 0x20 := by
  intro hc
  have nat_le (x y : Char) : x ≤ y ↔ x.toNat ≤ y.toNat := Iff.rfl
  simp only [startsName, isDigit, Bool.or_eq_true, Bool.and_eq_true, decide_eq_true_eq, beq_iff_eq, nat_le] at h
  have ea : 'a'.toNat = 97 := rfl
  have eA : 'A'.toNat = 65 := rfl
  have e0 : '0'.toNat = 48 := rfl
  rcases h with (((h | h) | rfl) | h) | h
  · omega
  · omega
  · exact absurd hc (by decide)
  · omega
  · omega

theorem Dotted.not_control (h : Dotted name selector) : ∀ c ∈ name, ¬ c.toNat < 0x20 :=
  h.forall_mem (by decide) fun _ => not_control_of_inName

/-! ## What normalizing writes for a name -/

/-- A dotted name is kept, or put in brackets and quotes. -/
theorem memberChars_of_dotted (h : Dotted name selector) (dot : List Char) :
    memberChars dot name = dot ++ name ∨
      memberChars dot name = bracketed name ∧ selector = .name (String.ofList name) := by
  unfold memberChars
  split
  case isTrue => exact Or.inl rfl
  case isFalse hplain =>
    refine Or.inr ?_
    cases h with
    | wildcard => exact absurd rfl hplain
    | name first others => exact ⟨if_neg (List.cons_ne_nil _ _), rfl⟩

theorem bracketed_append (name rest : List Char) :
    bracketed name ++ rest = '[' :: (quotedName name ++ ']' :: rest) := by
  rw [bracketed_eq]
  simp

theorem Dotted.heads (h : Dotted name selector) (hb : Bounded rest) :
    Heads (memberChars ['.'] name ++ rest) (.mk false [selector]) rest := by
  rcases memberChars_of_dotted h ['.'] with e | ⟨e, rfl⟩
  · have hchild : ∀ more, '.' :: (name ++ rest) ≠ '.' :: '.' :: more := fun more e =>
      h.append_ne (by decide) rest more (List.cons.inj e).2
    have hstart : segmentStart ('.' :: (name ++ rest)) = .dotted false (name ++ rest) := by
      rw [segmentStart_child hchild]
      rfl
    rw [e]
    exact .dotted hstart (h.read hb)
  · rw [e, bracketed_append]
    exact .bracket rfl (selects_quotedName h.not_control)

theorem Dotted.heads_below (h : Dotted name selector) (hb : Bounded rest) :
    Heads ('.' :: '.' :: (memberChars [] name ++ rest)) (.mk true [selector]) rest := by
  rcases memberChars_of_dotted h [] with e | ⟨e, rfl⟩
  · rw [e]
    exact .dotted (segmentStart_below fun more => h.append_ne (by decide) rest more) (h.read hb)
  · rw [e, bracketed_append]
    exact .bracket rfl (selects_quotedName h.not_control)

end Reshape.Path
