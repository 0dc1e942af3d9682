/-
  Reshape.Proofs.Path.LooseSegments — a loose path, segment by segment.

  A loose path is a root marker and segments: a name behind one dot or two, or a bracket that two
  dots may lead. The scanner that brings it into the strict spelling knows nothing of segments. It
  looks at the first characters that are left, and then for the next dot or opening bracket, or for
  the bracket that closes the one at hand. So what has to be shown is that it stops where a segment
  does, whatever follows: a name has neither dot nor opening bracket in it, and what stands in a
  bracket closes what it opens, quoted strings apart.

  - `Nested`: brackets pair off, outside quoted strings; `Nested.balanced`: the scan for a closing
    bracket goes over such a text.
  - `LooseSegment`: a segment as it is spelled (`text`) and in its own strict form (`strict`).
  - `normalizeSegments_text`: from segment to segment.
  - `normalize_spelled`: the strict path is a dollar sign and the strict form of each segment.
-/

import Reshape.Proofs.Path.Normalizing

namespace Reshape.Path

/-! ## What stands in a bracket -/

/-- What stands in a string between quotes of this kind: a backslash takes the character behind it along. -/
inductive InString (quote : Char) : List Char → Prop
  | nil : InString quote []
  | char {c : Char} {rest : List Char} (hq : c ≠ quote) (hb : c ≠ '\\') (tail : InString quote rest) :
      InString quote (c :: rest)
  | escape (c : Char) {rest : List Char} (tail : InString quote rest) : InString quote ('\\' :: c :: rest)

/-- Outside quoted strings each opening bracket has its closing one, and the other way round. -/
inductive Nested : List Char → Prop
  | nil : Nested []
  | plain {c : Char} {rest : List Char} (hc : isPlain c = true) (tail : Nested rest) : Nested (c :: rest)
  | string {quote : Char} {inside rest : List Char} (hq : IsQuote quote) (string : InString quote inside)
      (tail : Nested rest) : Nested (quote :: (inside ++ quote :: rest))
  | bracket {inner rest : List Char} (inside : Nested inner) (tail : Nested rest) :
      Nested ('[' :: (inner ++ ']' :: rest))

namespace BracketScan

variable {quote : Char} {text : List Char}

/-- Inside a string, the scan goes over whatever may stand there. -/
theorem run?_inString (h : InString quote text) (depth : Nat) :
    (inside quote depth).run? text = some (inside quote depth) := by
  induction h with
  | nil => rfl
  | @char c rest hq hb tail ih =>
    have hone : (inside quote depth).run? [c] = some (inside quote depth) :=
      run?_inside quote depth fun d hd => by rw [List.mem_singleton.mp hd]; exact ⟨hq, hb⟩
    rw [← List.singleton_append, run?_append, hone]
    exact ih
  | escape c tail ih => rw [run?_escape, ih]

/-- The scan goes over a quoted string. -/
theorem run?_string (hq : IsQuote quote) (h : InString quote text) (depth : Nat) (rest : List Char) :
    (outside depth).run? (quote :: (text ++ quote :: rest)) = (outside depth).run? rest := by
  have hstep : (outside depth).step quote = inside quote depth := by
    rcases hq with rfl | rfl
    · rfl
    · rfl
  rw [run?_cons_of_ne _ hq.ne_close, hstep, run?_append, run?_inString h depth, Option.bind_some,
    run?_quote hq.ne_backslash hq.ne_close]

end BracketScan

open BracketScan

variable {name path inner rest : List Char} {c : Char}

/-- Text whose brackets pair off is balanced. -/
theorem Nested.balanced (h : Nested inner) : Balanced inner := by
  induction h with
  | nil => exact balanced_nil
  | plain hc tail ih => exact ih.cons hc
  | string hq string tail ih =>
    intro depth hd
    rw [run?_string hq string]
    exact ih depth hd
  | @bracket inner rest inside tail ihinside ih =>
    have happend : '[' :: (inner ++ ']' :: rest) = '[' :: (inner ++ [']']) ++ rest := by simp
    rw [happend]
    exact ihinside.bracketed.append ih

/-! ## Segments -/

inductive LooseSegment where
  /-- A name behind a dot. -/
  | name (name : List Char)
  /-- A name behind two dots. -/
  | nameBelow (name : List Char)
  /-- A bracket, told by what stands in it. -/
  | bracket (inner : List Char)
  /-- A bracket behind two dots. -/
  | bracketBelow (inner : List Char)

/-- The name can stand behind a dot in a strict path as it is: it is an asterisk, or letters, digits and
    underscores of ASCII that do not begin with a digit. -/
def Bare (name : List Char) : Prop :=
  name = ['*'] ∨ ∃ c rest, name = c :: rest ∧ (c.isAlpha ∨ c = '_') ∧ ∀ d ∈ rest, d.isAlphanum ∨ d = '_'

theorem isLetter_eq_isAlpha (c : Char) : isLetter c = c.isAlpha := by
  have hlower : (decide ('a' ≤ c) && decide (c ≤ 'z')) = c.isLower := rfl
  have hupper : (decide ('A' ≤ c) && decide (c ≤ 'Z')) = c.isUpper := by
    show _ = decide ('A' ≤ c ∧ c ≤ 'Z')
    rw [Bool.decide_and]
  rw [isLetter, hlower, hupper, Bool.or_comm]
  rfl

theorem bare_iff : Bare name ↔ name = ['*'] ∨ isIdentifier name = true := by
  refine or_congr_right ?_
  have hdigit : ∀ d : Char, (decide ('0' ≤ d) && decide (d ≤ '9')) = d.isDigit := fun d => rfl
  cases name with
  | nil => simp [isIdentifier]
  | cons c rest =>
    simp [isIdentifier, isLetter_eq_isAlpha, hdigit, Char.isAlphanum]

instance : DecidablePred Bare := fun _ => decidable_of_iff' _ bare_iff

namespace LooseSegment

def text : LooseSegment → List Char
  | .name n => '.' :: n
  | .nameBelow n => '.' :: '.' :: n
  | .bracket inner => '[' :: (inner ++ [']'])
  | .bracketBelow inner => '.' :: '.' :: '[' :: (inner ++ [']'])

/-- The segment in its strict form: a name is put in brackets and quotes unless it can stand as it is, and a
    bracket stays. -/
def strict : LooseSegment → List Char
  | .name n => if Bare n then '.' :: n else bracketed n
  | .nameBelow n => '.' :: '.' :: if Bare n then n else bracketed n
  | .bracket inner => '[' :: (inner ++ [']'])
  | .bracketBelow inner => '.' :: '.' :: '[' :: (inner ++ [']'])

/-- A name is not empty and has neither a dot nor an opening bracket; the brackets in a bracket pair off. -/
def Proper : LooseSegment → Prop
  | .name n => n ≠ [] ∧ '.' ∉ n ∧ '[' ∉ n
  | .nameBelow n => n ≠ [] ∧ '.' ∉ n ∧ '[' ∉ n
  | .bracket inner => Nested inner
  | .bracketBelow inner => Nested inner

end LooseSegment

open LooseSegment

variable {s : LooseSegment} {segments : List LooseSegment}

theorem not_ends_of_not_mem (hd : '.' ∉ name) (hb : '[' ∉ name) : ∀ c ∈ name, endsName c = false := by
  intro c hc
  have hdot : c ≠ '.' := fun e => hd (e ▸ hc)
  have hbracket : c ≠ '[' := fun e => hb (e ▸ hc)
  simp [endsName, hdot, hbracket]

theorem memberChars_of_ne_nil (hn : name ≠ []) (dot : List Char) :
    memberChars dot name = if Bare name then dot ++ name else bracketed name := by
  rw [memberChars, if_neg hn]
  refine if_congr ?_ rfl rfl
  rw [bare_iff, Bool.or_eq_true, decide_eq_true_eq]

/-- Segments begin with a dot or an opening bracket. -/
theorem bounded_text (segments : List LooseSegment) : Bounded (segments.flatMap text) := by
  cases segments with
  | nil => exact nofun
  | cons s rest =>
    cases s with
    | bracket inner => exact bounded_cons (by decide) _
    | _ => exact bounded_cons (by decide) _

/-- One segment is brought into its strict form, whatever segments follow. -/
theorem normalizeSegments_cons (h : s.Proper) (hb : Bounded rest) :
    normalizeSegments (s.text ++ rest) = s.strict ++ normalizeSegments rest := by
  cases s with
  | name n =>
    obtain ⟨hn, hdot, hbracket⟩ := h
    have hends := not_ends_of_not_mem hdot hbracket
    have hsplit := splitName_append hends hb
    show normalizeSegments ('.' :: (n ++ rest)) = _
    rw [normalizeSegments, hsplit, memberChars_of_ne_nil hn]
    · rfl
    · intro more
      exact append_ne_of_not_ends hends hn rfl rest ('[' :: more)
    · intro more
      exact append_ne_of_not_ends hends hn rfl rest more
  | nameBelow n =>
    obtain ⟨hn, hdot, hbracket⟩ := h
    have hends := not_ends_of_not_mem hdot hbracket
    have hsplit := splitName_append hends hb
    show normalizeSegments ('.' :: '.' :: (n ++ rest)) = _
    rw [normalizeSegments, hsplit, memberChars_of_ne_nil hn]
    · rfl
    · intro more
      exact append_ne_of_not_ends hends hn rfl rest more
  | bracket inner =>
    have hnested : Nested inner := h
    simpa [text, strict] using normalizeSegments_bracket hnested.balanced rest
  | bracketBelow inner =>
    have hnested : Nested inner := h
    have hbracket := normalizeSegments_bracket hnested.balanced rest
    have happend : (bracketBelow inner).text ++ rest = '.' :: '.' :: '[' :: (inner ++ ']' :: rest) := by simp [text]
    rw [happend, normalizeSegments, hbracket]
    simp [strict]

/-- Segments are brought into their strict forms one after the other. -/
theorem normalizeSegments_text (h : ∀ s ∈ segments, s.Proper) :
    normalizeSegments (segments.flatMap text) = segments.flatMap strict := by
  induction segments with
  | nil => rw [List.flatMap_nil, normalizeSegments, List.flatMap_nil]
  | cons s rest ih =>
    rw [List.flatMap_cons, normalizeSegments_cons (h s List.mem_cons_self) (bounded_text rest),
      ih fun t ht => h t (List.mem_cons_of_mem _ ht), List.flatMap_cons]

/-- Strict forms begin with a dot or an opening bracket too. -/
theorem bounded_strict (h : ∀ s ∈ segments, s.Proper) : Bounded (segments.flatMap strict) := by
  rw [← normalizeSegments_text h]
  exact normalizeSegments_bounded (bounded_text segments)

/-! ## Paths -/

/-- The path is these segments, behind a root marker or without one. Without one a first name need not be led by
    its dot, unless it begins like a marker. -/
inductive SpelledOut : List Char → List LooseSegment → Prop
  | marked {marker : Char} (hm : marker = '$' ∨ marker = '@') (segments : List LooseSegment) :
      SpelledOut (marker :: segments.flatMap text) segments
  | unmarked (segments : List LooseSegment) : SpelledOut (segments.flatMap text) segments
  | undotted {name : List Char} (hd : name.head? ≠ some '$') (ha : name.head? ≠ some '@')
      (rest : List LooseSegment) : SpelledOut (name ++ rest.flatMap text) (.name name :: rest)

/-- Behind its marker, and with the dot that a first name need not have, the path is its segments. -/
theorem SpelledOut.withoutMarker (h : SpelledOut path segments) (hs : ∀ s ∈ segments, s.Proper) :
    withoutMarker path = segments.flatMap text := by
  cases h with
  | marked hm =>
    rcases hm with rfl | rfl
    · rfl
    · rfl
  | unmarked =>
    have hb := bounded_text segments
    cases htext : segments.flatMap text with
    | nil => rfl
    | cons c rest =>
      rw [htext] at hb
      have hc := hb c rfl
      simp only [endsName, Bool.or_eq_true, beq_iff_eq] at hc
      rcases hc with rfl | rfl
      · rfl
      · rfl
  | @undotted name hd ha rest =>
    obtain ⟨hn, hdot, hbracket⟩ := hs _ List.mem_cons_self
    obtain ⟨c, cs, rfl⟩ := List.exists_cons_of_ne_nil hn
    have hc := not_ends_of_not_mem hdot hbracket c List.mem_cons_self
    simp only [endsName, Bool.or_eq_false_iff, beq_eq_false_iff_ne] at hc
    have hdollar : c ≠ '$' := fun e => hd (e ▸ rfl)
    have hat : c ≠ '@' := fun e => ha (e ▸ rfl)
    simp [Path.withoutMarker, text, hdollar, hat, hc]

/-- A loose path without blanks around it is brought into the strict spelling segment by segment: a dollar sign,
    and then each segment in its own strict form. -/
theorem normalize_spelled (h : SpelledOut path segments) (hs : ∀ s ∈ segments, s.Proper)
    (htrim : trimBlank path = path) : normalize path = '$' :: segments.flatMap strict := by
  rw [normalize, htrim, h.withoutMarker hs, normalizeSegments_text hs]

/-- What stands in the first bracket of `crowded`: a bracket and an escaped quote in one string, and an opening
    bracket alone in another. -/
def crowdedInner : List Char :=
  '?' :: '@' :: '[' :: ('\'' :: ("it\\'s]".toList ++ ['\'']) ++ ']' :: (" == ".toList ++ '"' :: ("[".toList ++ ['"'])))

def crowded : List Char := "my-key..*[?@['it\\'s]'] == \"[\"]..[0].B".toList

/-- Only the name with a dash has to be put in brackets and quotes. -/
theorem crowded_normalized :
    SpelledOut crowded [.name "my-key".toList, .nameBelow ['*'], .bracket crowdedInner, .bracketBelow ['0'],
        .name ['B']] ∧
      normalize crowded = "$['my-key']..*[?@['it\\'s]'] == \"[\"]..[0].B".toList := by
  have hstring : InString '\'' "it\\'s]".toList :=
    .char (by decide) (by decide) (.char (by decide) (by decide) (.escape '\'' (.char (by decide) (by decide)
      (.char (by decide) (by decide) .nil))))
  have hbracket : InString '"' "[".toList := .char (by decide) (by decide) .nil
  have hinner : Nested crowdedInner :=
    .plain rfl (.plain rfl (.bracket (.string isQuote_single hstring .nil)
      (.plain rfl (.plain rfl (.plain rfl (.plain rfl (.string isQuote_double hbracket .nil)))))))
  have htext : crowded = "my-key".toList ++ [LooseSegment.nameBelow ['*'], .bracket crowdedInner, .bracketBelow ['0'],
      .name ['B']].flatMap text := by decide +kernel
  have hspelled : SpelledOut crowded [.name "my-key".toList, .nameBelow ['*'], .bracket crowdedInner,
      .bracketBelow ['0'], .name ['B']] := by
    rw [htext]
    exact .undotted (by decide) (by decide) _
  have hproper : ∀ s ∈ [LooseSegment.name "my-key".toList, .nameBelow ['*'], .bracket crowdedInner,
      .bracketBelow ['0'], .name ['B']], s.Proper := by
    intro s hs
    simp only [List.mem_cons, List.not_mem_nil, or_false] at hs
    rcases hs with rfl | rfl | rfl | rfl | rfl
    · exact ⟨by decide, by decide, by decide⟩
    · exact ⟨by decide, by decide, by decide⟩
    · exact hinner
    · exact .plain rfl .nil
    · exact ⟨by decide, by decide, by decide⟩
  refine ⟨hspelled, ?_⟩
  rw [normalize_spelled hspelled hproper (by decide +kernel)]
  decide +kernel

end Reshape.Path
