/-
  Reshape.Proofs.Json.Grammar — the texts that are documents, and what they say.

  The grammar is that of RFC 8259 with four liberties: comments count as white space, both
  in the form `//` and in the form `/* */`; a string may stand between single quotes, with
  `\'` as a further escape, and holds every other character as it is; and a comma may
  follow the last item or member. Each rule relates a text to what it says and to the text
  that follows, `text ⟶ rest`, so a sequence of tokens is a chain of such steps.

  - `Gap`, `Quoted`, `Spells` are what may stand between tokens, the strings and the values;
    `Grammar.Document` is a whole text, of which one byte order mark may be taken off.
  - A line comment reaches to the next line break or the end and no less, a block comment
    ends at the first `*/`.
  - An object says for each of its keys, in the order in which they come up first, the last
    value that is given for it (`merged`).
-/

import Reshape.Json.Value
import Reshape.Proofs.Number.Spelling

namespace Reshape.Grammar

/-! ## Between tokens -/

def separators : List Char := [' ', '\t', '\n', '\r']

def LineBreak (c : Char) : Prop := c = '\r' ∨ c = '\n'

inductive Gap : List Char → List Char → Prop where
  | none {rest : List Char} : Gap rest rest
  | separator {c : Char} {text rest : List Char} : c ∈ separators → Gap text rest → Gap (c :: text) rest
  | line {body text rest : List Char} : (∀ c ∈ body, ¬ LineBreak c) → (∀ c ∈ text.head?, LineBreak c) →
    Gap text rest → Gap ('/' :: '/' :: (body ++ text)) rest
  | block {body text rest : List Char} : ¬ ['*', '/'] <:+: body → Gap text rest →
    Gap ('/' :: '*' :: (body ++ '*' :: '/' :: text)) rest

/-! ## Strings -/

def letters : List (Char × Char) :=
  [('"', '"'), ('\'', '\''), ('\\', '\\'), ('/', '/'), ('b', '\x08'), ('f', '\x0c'), ('n', '\n'), ('r', '\r'),
   ('t', '\t')]

def HexDigit (c : Char) (n : Nat) : Prop :=
  "0123456789abcdef".toList[n]? = some c ∨ "0123456789ABCDEF".toList[n]? = some c

inductive Quad : List Char → Nat → List Char → Prop where
  | mk {a b c d : Char} {i j k l : Nat} {rest : List Char} : HexDigit a i → HexDigit b j → HexDigit c k →
    HexDigit d l → Quad (a :: b :: c :: d :: rest) (i * 0x1000 + j * 0x100 + k * 0x10 + l) rest

/-- The inside of a string that ends at the given quote, and that quote. -/
inductive Inside (quote : Char) : List Char → List Char → List Char → Prop where
  | close {rest : List Char} : Inside quote (quote :: rest) [] rest
  | raw {c : Char} {text chars rest : List Char} : c ≠ quote → c ≠ '\\' → Inside quote text chars rest →
    Inside quote (c :: text) (c :: chars) rest
  | letter {e c : Char} {text chars rest : List Char} : (e, c) ∈ letters → Inside quote text chars rest →
    Inside quote ('\\' :: e :: text) (c :: chars) rest
  | unit {unit : Nat} {text more chars rest : List Char} : Quad text unit more → unit < 0xD800 ∨ 0xE000 ≤ unit →
    Inside quote more chars rest → Inside quote ('\\' :: 'u' :: text) (Char.ofNat unit :: chars) rest
  | pair {high low : Nat} {text between more chars rest : List Char} :
    Quad text high ('\\' :: 'u' :: between) → 0xD800 ≤ high ∧ high < 0xDC00 →
    Quad between low more → 0xDC00 ≤ low ∧ low < 0xE000 → Inside quote more chars rest →
    Inside quote ('\\' :: 'u' :: text)
      (Char.ofNat (0x10000 + (high - 0xD800) * 0x400 + (low - 0xDC00)) :: chars) rest

inductive Escape : List Char → Char → List Char → Prop where
  | letter {e c : Char} {rest : List Char} : (e, c) ∈ letters → Escape (e :: rest) c rest
  | unit {unit : Nat} {text rest : List Char} : Quad text unit rest → unit < 0xD800 ∨ 0xE000 ≤ unit →
    Escape ('u' :: text) (Char.ofNat unit) rest
  | pair {high low : Nat} {text between rest : List Char} : Quad text high ('\\' :: 'u' :: between) →
    0xD800 ≤ high ∧ high < 0xDC00 → Quad between low rest → 0xDC00 ≤ low ∧ low < 0xE000 →
    Escape ('u' :: text) (Char.ofNat (0x10000 + (high - 0xD800) * 0x400 + (low - 0xDC00))) rest

inductive Quoted : List Char → String → List Char → Prop where
  | mk {quote : Char} {text chars rest : List Char} : quote = '"' ∨ quote = '\'' → Inside quote text chars rest →
    Quoted (quote :: text) (String.ofList chars) rest

/-! ## Values -/

/-- What members say together: each key once, where it comes up first, with the last value given for it. -/
def merged (members : List (String × Value)) : List (String × Value) :=
  (members.map Prod.fst).eraseDups.filterMap fun key => (Value.member? key members.reverse).map (key, ·)

/-- The end of a list that is not empty: its bracket, before which a comma may stand. -/
inductive Closes (bracket : Char) : List Char → List Char → Prop where
  | plain {text rest : List Char} : Gap text (bracket :: rest) → Closes bracket text rest
  | comma {text more rest : List Char} : Gap text (',' :: more) → Gap more (bracket :: rest) →
    Closes bracket text rest

mutual

inductive Spells : List Char → Value → List Char → Prop where
  | null {rest : List Char} : Spells ('n' :: 'u' :: 'l' :: 'l' :: rest) (.scalar .null) rest
  | yes {rest : List Char} : Spells ('t' :: 'r' :: 'u' :: 'e' :: rest) (.scalar (.bool true)) rest
  | no {rest : List Char} : Spells ('f' :: 'a' :: 'l' :: 's' :: 'e' :: rest) (.scalar (.bool false)) rest
  | number {l : Literal} {n : Number} {rest : List Char} : l.Proper → l.Names n →
    Spells (l.chars ++ rest) (.scalar (.number n)) rest
  | string {text rest : List Char} {s : String} : Quoted text s rest → Spells text (.scalar (.string s)) rest
  | emptyArray {text rest : List Char} : Gap text (']' :: rest) → Spells ('[' :: text) (.array []) rest
  | array {text t₁ t₂ t₃ rest : List Char} {v : Value} {items : List Value} : Gap text t₁ → Spells t₁ v t₂ →
    MoreItems t₂ items t₃ → Closes ']' t₃ rest → Spells ('[' :: text) (.array (v :: items)) rest
  | emptyObject {text rest : List Char} : Gap text ('\x7d' :: rest) → Spells ('\x7b' :: text) (.object []) rest
  | object {text t₁ t₂ t₃ rest : List Char} {m : String × Value} {members : List (String × Value)} : Gap text t₁ →
    SpellsMember t₁ m t₂ → MoreMembers t₂ members t₃ → Closes '\x7d' t₃ rest →
    Spells ('\x7b' :: text) (.object (merged (m :: members))) rest

inductive MoreItems : List Char → List Value → List Char → Prop where
  | nil {rest : List Char} : MoreItems rest [] rest
  | cons {text t₁ t₂ t₃ rest : List Char} {v : Value} {items : List Value} : Gap text (',' :: t₁) → Gap t₁ t₂ →
    Spells t₂ v t₃ → MoreItems t₃ items rest → MoreItems text (v :: items) rest

inductive SpellsMember : List Char → String × Value → List Char → Prop where
  | mk {text t₁ t₂ t₃ rest : List Char} {key : String} {v : Value} : Quoted text key t₁ → Gap t₁ (':' :: t₂) →
    Gap t₂ t₃ → Spells t₃ v rest → SpellsMember text (key, v) rest

inductive MoreMembers : List Char → List (String × Value) → List Char → Prop where
  | nil {rest : List Char} : MoreMembers rest [] rest
  | cons {text t₁ t₂ t₃ rest : List Char} {m : String × Value} {members : List (String × Value)} :
    Gap text (',' :: t₁) → Gap t₁ t₂ → SpellsMember t₂ m t₃ → MoreMembers t₃ members rest →
    MoreMembers text (m :: members) rest

end

/-- A whole text: a value between gaps, one byte order mark in front being no part of it. -/
def Document (text : List Char) (v : Value) : Prop :=
  ∃ body t u, (text = body ∨ text = '\ufeff' :: body) ∧ Gap body t ∧ Spells t v u ∧ Gap u []

/-- An escape inside a string. -/
theorem Escape.inside {quote char : Char} {text mid chars rest : List Char} (h : Escape text char mid)
    (hi : Inside quote mid chars rest) : Inside quote ('\\' :: text) (char :: chars) rest := by
  cases h with
  | letter hl => exact .letter hl hi
  | unit hq hu => exact .unit hq hu hi
  | pair hq hh hq' hl => exact .pair hq hh hq' hl hi

/-! ## What stands at the beginning of a rule -/

def Stops (rest : List Char) : Prop := ∀ c ∈ rest.head?, c ∉ separators ∧ c ≠ '/'

theorem Stops.cons {c : Char} {rest : List Char} (h : c ∉ separators ∧ c ≠ '/') : Stops (c :: rest) := by
  rintro d hd
  obtain rfl := Option.some.inj hd
  exact h

theorem Gap.trans {a b c : List Char} (h₁ : Gap a b) (h₂ : Gap b c) : Gap a c := by
  induction h₁ with
  | none => exact h₂
  | separator hc _ ih => exact .separator hc (ih h₂)
  | line hb ht _ ih => exact .line hb ht (ih h₂)
  | block hb _ ih => exact .block hb (ih h₂)

theorem Gap.length_le {a b : List Char} (h : Gap a b) : b.length ≤ a.length := by
  induction h with
  | none => exact Nat.le_refl _
  | separator _ _ ih => exact Nat.le_succ_of_le ih
  | line _ _ _ ih => simp only [List.length_cons, List.length_append]; omega
  | block _ _ ih => simp only [List.length_cons, List.length_append]; omega

/-- A gap in front of a token begins with white space, a comment or the token. -/
theorem Gap.head {text rest : List Char} (h : Gap text rest) :
    text = rest ∨ ∃ c more, text = c :: more ∧ (c ∈ separators ∨ c = '/') := by
  cases h with
  | none => exact .inl rfl
  | separator hc _ => exact .inr ⟨_, _, rfl, .inl hc⟩
  | line _ _ _ => exact .inr ⟨_, _, rfl, .inr rfl⟩
  | block _ _ => exact .inr ⟨_, _, rfl, .inr rfl⟩

/-- Behind a value comes a gap and the end or a sign of punctuation, and no number goes on with either. -/
theorem Gap.ends {text rest : List Char} (h : Gap text rest) (hr : Literal.Ends rest) : Literal.Ends text := by
  rcases h.head with rfl | ⟨c, more, rfl, hc⟩
  · exact hr
  · intro d hd
    obtain rfl := Option.some.inj hd
    rcases hc with hc | rfl
    · simp only [separators, List.mem_cons, List.not_mem_nil, or_false] at hc
      rcases hc with rfl | rfl | rfl | rfl <;> decide
    · decide

theorem ends_nil : Literal.Ends [] := by
  intro c hc
  cases hc

theorem ends_punctuation {c : Char} (h : c ∈ [',', ']', '\x7d']) (rest : List Char) : Literal.Ends (c :: rest) := by
  intro d hd
  obtain rfl := Option.some.inj hd
  simp only [List.mem_cons, List.not_mem_nil, or_false] at h
  rcases h with rfl | rfl | rfl <;> decide

theorem Closes.ends {bracket : Char} (hb : bracket ∈ [',', ']', '\x7d']) {text rest : List Char}
    (h : Closes bracket text rest) : Literal.Ends text := by
  cases h with
  | plain hg => exact hg.ends (ends_punctuation hb _)
  | comma hg _ => exact hg.ends (ends_punctuation (.head _) _)

theorem MoreItems.ends {text rest : List Char} {items : List Value} (h : MoreItems text items rest)
    (hr : Literal.Ends rest) : Literal.Ends text := by
  cases h with
  | nil => exact hr
  | cons hg _ _ _ => exact hg.ends (ends_punctuation (.head _) _)

theorem MoreMembers.ends {text rest : List Char} {members : List (String × Value)} (h : MoreMembers text members rest)
    (hr : Literal.Ends rest) : Literal.Ends text := by
  cases h with
  | nil => exact hr
  | cons hg _ _ _ => exact hg.ends (ends_punctuation (.head _) _)

theorem Quoted.head {text rest : List Char} {s : String} (h : Quoted text s rest) :
    ∃ quote more, text = quote :: more ∧ (quote = '"' ∨ quote = '\'') := by
  obtain ⟨hquote, -⟩ := h
  exact ⟨_, _, rfl, hquote⟩

theorem Quoted.stops {text rest : List Char} {s : String} (h : Quoted text s rest) : Stops text := by
  obtain ⟨quote, more, rfl, hquote⟩ := h.head
  rcases hquote with rfl | rfl
  · exact .cons (by decide)
  · exact .cons (by decide)

theorem SpellsMember.stops {text rest : List Char} {m : String × Value} (h : SpellsMember text m rest) :
    Stops text := by
  obtain ⟨hq, -, -, -⟩ := h
  exact hq.stops

def openings : List Char := ['n', 't', 'f', '-', '"', '\'', '[', '\x7b']

theorem Spells.head {text rest : List Char} {v : Value} (h : Spells text v rest) :
    ∃ c more, text = c :: more ∧ (c ∈ openings ∨ isDigit c = true) := by
  cases h with
  | number hproper _ =>
    obtain ⟨c, more, hc, hfirst⟩ := hproper.head
    rw [hc]
    refine ⟨c, _, rfl, ?_⟩
    rcases hfirst with rfl | h
    · exact .inl (by decide)
    · exact .inr h
  | string h =>
    obtain ⟨hquote, -⟩ := h
    rcases hquote with rfl | rfl
    · exact ⟨_, _, rfl, .inl (by decide)⟩
    · exact ⟨_, _, rfl, .inl (by decide)⟩
  | null => exact ⟨_, _, rfl, .inl (by decide)⟩
  | yes => exact ⟨_, _, rfl, .inl (by decide)⟩
  | no => exact ⟨_, _, rfl, .inl (by decide)⟩
  | emptyArray _ => exact ⟨_, _, rfl, .inl (by decide)⟩
  | array _ _ _ _ => exact ⟨_, _, rfl, .inl (by decide)⟩
  | emptyObject _ => exact ⟨_, _, rfl, .inl (by decide)⟩
  | object _ _ _ _ => exact ⟨_, _, rfl, .inl (by decide)⟩

theorem Spells.head_ne {text rest : List Char} {v : Value} (h : Spells text v rest) {c : Char}
    (ho : c ∉ openings) (hd : isDigit c = false) : text.head? ≠ some c := by
  obtain ⟨d, more, rfl, hfirst⟩ := h.head
  intro hc
  obtain rfl := Option.some.inj hc
  rcases hfirst with h | h
  · exact ho h
  · exact absurd (hd.symm.trans h) (by decide)

theorem Spells.stops {text rest : List Char} {v : Value} (h : Spells text v rest) : Stops text := by
  intro c hc
  constructor
  · intro hs
    simp only [separators, List.mem_cons, List.not_mem_nil, or_false] at hs
    rcases hs with rfl | rfl | rfl | rfl
    · exact h.head_ne (by decide) (by decide) hc
    · exact h.head_ne (by decide) (by decide) hc
    · exact h.head_ne (by decide) (by decide) hc
    · exact h.head_ne (by decide) (by decide) hc
  · rintro rfl
    exact h.head_ne (by decide) (by decide) hc

/-- A scalar begins with no opening bracket. -/
theorem scalar_head {text rest : List Char} {s : Scalar} (h : Spells text (.scalar s) rest) :
    text.head? ≠ some '\x7b' ∧ text.head? ≠ some '[' := by
  cases h with
  | null => exact ⟨by simp, by simp⟩
  | yes => exact ⟨by simp, by simp⟩
  | no => exact ⟨by simp, by simp⟩
  | number hproper _ =>
    obtain ⟨c, more, hc, hfirst⟩ := hproper.head
    rw [hc]
    refine ⟨fun hs => ?_, fun hs => ?_⟩
    · obtain rfl := Option.some.inj hs
      exact absurd hfirst (by decide)
    · obtain rfl := Option.some.inj hs
      exact absurd hfirst (by decide)
  | string h =>
    obtain ⟨hquote, -⟩ := h
    rcases hquote with rfl | rfl
    · exact ⟨by simp, by simp⟩
    · exact ⟨by simp, by simp⟩

/-! ## What follows is shorter -/

theorem Inside.length_lt {quote : Char} {text chars rest : List Char} (h : Inside quote text chars rest) :
    rest.length < text.length := by
  induction h with
  | close => exact Nat.lt_succ_self _
  | raw _ _ _ ih => exact Nat.lt_succ_of_lt ih
  | letter _ _ ih => simp only [List.length_cons]; omega
  | unit hq _ _ ih =>
    cases hq
    simp only [List.length_cons]
    omega
  | pair hq _ hq' _ _ ih =>
    cases hq
    cases hq'
    simp only [List.length_cons]
    omega

theorem Quoted.length_lt {text rest : List Char} {s : String} (h : Quoted text s rest) :
    rest.length < text.length := by
  obtain ⟨-, hi⟩ := h
  exact Nat.lt_succ_of_lt hi.length_lt

theorem Closes.length_lt {bracket : Char} {text rest : List Char} (h : Closes bracket text rest) :
    rest.length < text.length := by
  cases h with
  | plain hg => exact hg.length_le
  | comma hg hg' =>
    have := hg.length_le
    have := hg'.length_le
    simp only [List.length_cons] at *
    omega

/-- Behind a value there is less text than before it; the rules for lists are shown along with it. -/
theorem Spells.length_lt {text rest : List Char} {v : Value} (h : Spells text v rest) :
    rest.length < text.length := by
  refine @Spells.rec (fun text _ rest _ => rest.length < text.length) (fun text _ rest _ => rest.length ≤ text.length)
    (fun text _ rest _ => rest.length < text.length) (fun text _ rest _ => rest.length ≤ text.length)
    ?null ?yes ?no ?number ?string ?emptyArray ?array ?emptyObject ?object ?noItems ?items ?member ?noMembers
    ?members text v rest h
  case null | yes | no =>
    intro rest
    simp only [List.length_cons]
    omega
  case number =>
    intro l n rest hproper _
    have := List.length_pos_iff.2 hproper.chars_ne_nil
    rw [List.length_append]
    omega
  case string => exact fun hq => hq.length_lt
  case emptyArray | emptyObject =>
    intro text rest hg
    exact Nat.lt_succ_of_lt hg.length_le
  case array | object =>
    intro text t₁ t₂ t₃ rest _ _ hg _ _ hc h₁ h₂
    have := hg.length_le
    have := hc.length_lt
    rw [List.length_cons]
    omega
  case noItems | noMembers => exact fun {rest} => Nat.le_refl _
  case items | members =>
    intro text t₁ t₂ t₃ rest _ _ hg hg' _ _ h₁ h₂
    have := hg.length_le
    have := hg'.length_le
    simp only [List.length_cons] at *
    omega
  case member =>
    intro text t₁ t₂ t₃ rest _ _ hq hg hg' _ h₁
    have := hq.length_lt
    have := hg.length_le
    have := hg'.length_le
    simp only [List.length_cons] at *
    omega

theorem SpellsMember.length_lt {text rest : List Char} {m : String × Value} (h : SpellsMember text m rest) :
    rest.length < text.length := by
  obtain ⟨hq, hg, hg', hv⟩ := h
  have := hq.length_lt
  have := hg.length_le
  have := hg'.length_le
  have := hv.length_lt
  simp only [List.length_cons] at *
  omega

end Reshape.Grammar
