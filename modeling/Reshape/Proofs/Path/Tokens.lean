/-
  Reshape.Proofs.Path.Tokens — the tokens of a query, and the bracket that they stand in.

  The readers of a query cut tokens off a text: blanks, words, signs, names, integers and slices;
  strings and scalars are in `Strings`. Two things hold of each of them. What is cut off is
  balanced, as only strings have brackets and quotes in them (`Takes`, and `TakesSome` where it
  cannot be nothing). And in an open text a token ends before the bracket closes, so what stands
  behind the text makes no difference: the reader answers the same, with that much more left over
  (`Steady`).

  - `readName?_takes`, `readIndices?_takes` and the like: the first.
  - `readName?_steady`, `readIndices?_steady` and the like: the second.
-/

import Reshape.Path.Read
import Reshape.Proofs.Number.Spelling
import Reshape.Proofs.Path.Brackets

namespace Reshape.Path

open BracketScan

/-! ## Taking balanced text off -/

/-- Some balanced text has been taken off the front. -/
def Takes (text rest : List Char) : Prop := ∃ taken, text = taken ++ rest ∧ Balanced taken

section Takes

variable {c : Char} {text rest more : List Char}

theorem Takes.refl (text : List Char) : Takes text text := ⟨[], rfl, balanced_nil⟩

theorem Takes.trans (h : Takes text rest) (hm : Takes rest more) : Takes text more := by
  obtain ⟨taken, rfl, hb⟩ := h
  obtain ⟨next, rfl, hn⟩ := hm
  exact ⟨taken ++ next, by rw [List.append_assoc], hb.append hn⟩

theorem Takes.cons (hc : isPlain c = true) (h : Takes text rest) : Takes (c :: text) rest := by
  obtain ⟨taken, rfl, hb⟩ := h
  exact ⟨c :: taken, rfl, hb.cons hc⟩

theorem takes_cons (hc : isPlain c = true) (text : List Char) : Takes (c :: text) text := .cons hc (.refl text)

theorem Takes.length_le (h : Takes text rest) : rest.length ≤ text.length := by
  obtain ⟨taken, rfl, -⟩ := h
  rw [List.length_append]
  omega

theorem Takes.open (h : Takes text rest) (ho : Open text) : Open rest := by
  obtain ⟨taken, rfl, hb⟩ := h
  exact ho.behind hb

structure TakesSome (text rest : List Char) : Prop where
  takes : Takes text rest
  shorter : rest.length < text.length

theorem TakesSome.cons (hc : isPlain c = true) (h : Takes text rest) : TakesSome (c :: text) rest :=
  ⟨.cons hc h, Nat.lt_succ_of_le h.length_le⟩

theorem TakesSome.behind (h : Takes text more) (hm : TakesSome more rest) : TakesSome text rest :=
  ⟨h.trans hm.takes, Nat.lt_of_lt_of_le hm.shorter h.length_le⟩

theorem TakesSome.trans (h : TakesSome text more) (hm : Takes more rest) : TakesSome text rest :=
  ⟨h.takes.trans hm, Nat.lt_of_le_of_lt hm.length_le h.shorter⟩

/-- Characters of a class without brackets and quotes are plain. -/
theorem isPlain_of {p : Char → Bool} (h : p c = true) (hone : p '\'' = false) (htwo : p '"' = false)
    (hopen : p '[' = false) (hclose : p ']' = false) : isPlain c = true := by
  refine isPlain_iff.mpr ⟨?_, ?_, ?_, ?_⟩
  all_goals
    rintro rfl
    simp_all

theorem takes_dropWhile {p : Char → Bool} (hp : ∀ c, p c = true → isPlain c = true) (text : List Char) :
    Takes text (text.dropWhile p) :=
  ⟨text.takeWhile p, List.takeWhile_append_dropWhile.symm,
    balanced_of_plain fun c hc => hp c (List.mem_takeWhile_imp hc)⟩

theorem isPlain_of_isGap (h : isGap c = true) : isPlain c = true :=
  isPlain_of h (by decide) (by decide) (by decide) (by decide)

theorem isPlain_of_isDigit (h : isDigit c = true) : isPlain c = true :=
  isPlain_of h (by decide) (by decide) (by decide) (by decide)

theorem isPlain_of_inName (h : (startsName c || isDigit c) = true) : isPlain c = true :=
  isPlain_of (p := fun c => startsName c || isDigit c) h (by decide) (by decide) (by decide) (by decide)

theorem skipBlanks_takes (text : List Char) : Takes text (skipBlanks text) :=
  takes_dropWhile (fun _ => isPlain_of_isGap) text

end Takes

/-! ## Reading in an open text -/

def behind {α : Type} (more : List Char) (p : α × List Char) : α × List Char := (p.1, p.2 ++ more)

/-- The reader answers the same whatever stands behind the text. -/
def Steady {α : Type} (read : List Char → Option (α × List Char)) (text : List Char) : Prop :=
  ∀ more, read (text ++ more) = (read text).map (behind more)

/-- What a text does not begin with, it does not begin with because of what stands behind it. -/
theorem start_of_append {a : Char} {text more : List Char} (h : ']' ∈ text) (hn : ∀ rest, text ≠ a :: rest)
    (rest : List Char) : text ++ more ≠ a :: rest := by
  intro e
  obtain ⟨c, left, rfl⟩ := List.exists_cons_of_ne_nil (List.ne_nil_of_mem h)
  exact hn left (by rw [(List.cons.inj e).1])

theorem starts_of_append {a b : Char} {text more : List Char} (h : ']' ∈ text) (ha : a ≠ ']')
    (hn : ∀ rest, text ≠ a :: b :: rest) (rest : List Char) : text ++ more ≠ a :: b :: rest := by
  intro e
  rcases text with _ | ⟨c, _ | ⟨d, left⟩⟩
  · cases h
  · rw [← List.mem_singleton.mp h] at e
    exact ha (List.cons.inj e).1.symm
  · simp only [List.cons_append, List.cons.injEq] at e
    exact hn left (by rw [e.1, e.2.1])

section Stretches

variable {p : Char → Bool} {text : List Char}

/-- In an open text, a run of characters without the closing bracket ends before the text does. -/
theorem takeWhile_steady (h : Open text) (hp : p ']' = false) (more : List Char) :
    (text ++ more).takeWhile p = text.takeWhile p ∧ (text ++ more).dropWhile p = text.dropWhile p ++ more := by
  have hmem := h.mem
  clear h
  induction text with
  | nil => cases hmem
  | cons c rest ih =>
    rw [List.cons_append, List.takeWhile_cons, List.dropWhile_cons, List.takeWhile_cons, List.dropWhile_cons]
    cases hc : p c with
    | false => exact ⟨rfl, rfl⟩
    | true =>
      have hne : ']' ≠ c := by
        rintro rfl
        rw [hp] at hc
        cases hc
      obtain ⟨htake, hdrop⟩ := ih ((List.mem_cons.mp hmem).resolve_left hne)
      exact ⟨congrArg _ htake, hdrop⟩

theorem skipBlanks_append (h : Open text) (more : List Char) : skipBlanks (text ++ more) = skipBlanks text ++ more :=
  (takeWhile_steady h (by decide) more).2

theorem Open.skipBlanks (h : Open text) : Open (skipBlanks text) := (skipBlanks_takes text).open h

end Stretches

/-! ## Words -/

section Words

variable {word text rest : List Char}

theorem after?_eq_some_iff : after? word text = some rest ↔ text = word ++ rest := by
  induction word generalizing text with
  | nil => rw [after?, Option.some.injEq, List.nil_append]
  | cons w word ih =>
    cases text with
    | nil => simp [after?]
    | cons c text =>
      rw [after?, List.cons_append, List.cons.injEq]
      by_cases hc : c = w
      · rw [if_pos hc, ih, and_iff_right hc]
      · simp [hc]

def isPlainWord (word : List Char) : Bool := !word.isEmpty && word.all isPlain

theorem isPlainWord_iff : isPlainWord word = true ↔ word ≠ [] ∧ ∀ c ∈ word, isPlain c = true := by
  simp [isPlainWord]

theorem after?_takes (hw : isPlainWord word = true) (h : after? word text = some rest) : TakesSome text rest := by
  obtain rfl := after?_eq_some_iff.mp h
  obtain ⟨hne, hplain⟩ := isPlainWord_iff.mp hw
  refine ⟨⟨word, rfl, balanced_of_plain hplain⟩, ?_⟩
  have hpos := List.length_pos_of_ne_nil hne
  rw [List.length_append]
  omega

theorem after?_steady (hw : isPlainWord word = true) (h : Open text) (more : List Char) :
    after? word (text ++ more) = (after? word text).map (· ++ more) := by
  have hplain := (isPlainWord_iff.mp hw).2
  clear hw
  induction word generalizing text with
  | nil => rfl
  | cons w word ih =>
    obtain ⟨c, rest, rfl⟩ := h.exists_cons
    rw [List.cons_append, after?, after?]
    by_cases hc : c = w
    · rw [if_pos hc, if_pos hc]
      exact ih (h.tail (hc ▸ hplain w List.mem_cons_self)) fun d hd => hplain d (List.mem_cons_of_mem _ hd)
    · rw [if_neg hc, if_neg hc]
      rfl

theorem afterBlanks?_takes (hw : isPlainWord word = true) (h : afterBlanks? word text = some rest) : TakesSome text rest :=
  .behind (skipBlanks_takes text) (after?_takes hw h)

theorem afterBlanks?_steady (hw : isPlainWord word = true) (h : Open text) (more : List Char) :
    afterBlanks? word (text ++ more) = (afterBlanks? word text).map (· ++ more) := by
  rw [afterBlanks?, skipBlanks_append h]
  exact after?_steady hw h.skipBlanks more

/-! ## Marks -/

theorem readComparison?_takes {how : Comparison} (h : readComparison? text = some (how, rest)) :
    TakesSome text rest := by
  unfold readComparison? at h
  split at h
  case h_7 => cases h
  case h_5 | h_6 =>
    obtain ⟨-, rfl⟩ := Prod.mk.inj (Option.some.inj h)
    exact .cons (by decide) (.refl _)
  all_goals
    obtain ⟨-, rfl⟩ := Prod.mk.inj (Option.some.inj h)
    exact .cons (by decide) (takes_cons (by decide) _)

/-- A sign has two characters at most. -/
theorem readComparison?_append (c d : Char) (text more : List Char) :
    readComparison? (c :: d :: (text ++ more)) = (readComparison? (c :: d :: text)).map (behind more) := by
  by_cases hmark : c = '<' ∨ c = '>'
  · by_cases hd : d = '='
    · rcases hmark with rfl | rfl <;> rw [hd] <;> rfl
    · rcases hmark with rfl | rfl <;> simp [readComparison?, hd, behind]
  · rw [readComparison?.eq_def, readComparison?.eq_def]
    split <;> simp_all [behind]

theorem readComparison?_steady (h : Open text) : Steady readComparison? text := by
  intro more
  obtain ⟨c, rest, rfl⟩ := h.exists_cons
  cases rest with
  | nil =>
    obtain rfl := List.mem_singleton.mp h.mem
    rfl
  | cons d rest => exact readComparison?_append c d rest more

theorem readOrigin?_takes {origin : Origin} (h : readOrigin? text = some (origin, rest)) : TakesSome text rest := by
  unfold readOrigin? at h
  split at h
  case h_3 => cases h
  all_goals
    obtain ⟨-, rfl⟩ := Prod.mk.inj (Option.some.inj h)
    exact .cons (by decide) (.refl _)

theorem readOrigin?_steady (h : Open text) : Steady readOrigin? text := by
  intro more
  obtain ⟨c, rest, rfl⟩ := h.exists_cons
  rw [List.cons_append, readOrigin?.eq_def, readOrigin?.eq_def]
  split <;> simp_all [behind]

end Words

/-! ## Names -/

section Names

variable {text rest : List Char} {name : String}

theorem readName?_takes (h : readName? text = some (name, rest)) : Takes text rest := by
  cases text with
  | nil => cases h
  | cons c text =>
    rw [readName?] at h
    split at h
    · rename_i hc
      obtain ⟨-, rfl⟩ := Prod.mk.inj (Option.some.inj h)
      have hplain : isPlain c = true := isPlain_of_inName (by rw [hc]; rfl)
      exact .cons hplain (takes_dropWhile (fun _ => isPlain_of_inName) text)
    · cases h

theorem readName?_steady (h : Open text) : Steady readName? text := by
  intro more
  obtain ⟨c, rest, rfl⟩ := h.exists_cons
  rw [List.cons_append, readName?, readName?]
  cases hc : startsName c with
  | false => rfl
  | true =>
    have hrest : Open rest := h.tail (isPlain_of_inName (by rw [hc]; rfl))
    obtain ⟨htake, hdrop⟩ := takeWhile_steady (p := fun c => startsName c || isDigit c) hrest (by decide) more
    simp only [if_true, htake, hdrop]
    rfl

end Names

/-! ## Numbers -/

section Numbers

variable {text rest : List Char}

theorem scanSign_takes (text : List Char) : Takes text (Literal.scanSign text).2 := by
  unfold Literal.scanSign
  split
  · exact takes_cons (by decide) _
  · exact .refl _

theorem scanSign_append (h : Open text) (more : List Char) :
    Literal.scanSign (text ++ more) = behind more (Literal.scanSign text) := by
  obtain ⟨c, rest, rfl⟩ := h.exists_cons
  rw [List.cons_append]
  unfold Literal.scanSign
  split
  · rename_i e
    obtain ⟨rfl, rfl⟩ := List.cons.inj e
    rfl
  · rename_i hne
    split
    · rename_i e
      obtain ⟨rfl, rfl⟩ := List.cons.inj e
      exact absurd rfl (hne _)
    · rfl

theorem scanWhole_takes (text : List Char) : Takes text (Literal.scanWhole text).2 := by
  unfold Literal.scanWhole
  split
  · exact takes_cons (by decide) _
  · exact takes_dropWhile (fun _ => isPlain_of_isDigit) _

theorem scanWhole_append (h : Open text) (more : List Char) :
    Literal.scanWhole (text ++ more) = behind more (Literal.scanWhole text) := by
  obtain ⟨htake, hdrop⟩ := takeWhile_steady (p := isDigit) h (by decide) more
  obtain ⟨c, rest, rfl⟩ := h.exists_cons
  unfold Literal.scanWhole
  split
  · rename_i e
    obtain ⟨rfl, rfl⟩ := List.cons.inj e
    rfl
  · rename_i hne
    split
    · rename_i e
      exact absurd (congrArg (· ++ more) e) (hne _)
    · rw [htake, hdrop]
      rfl

theorem readInt?_takes {i : Int} (h : readInt? text = some (i, rest)) : Takes text rest := by
  unfold readInt? at h
  simp only at h
  split at h
  · cases h
  · obtain ⟨-, rfl⟩ := Prod.mk.inj (Option.some.inj h)
    exact (scanSign_takes text).trans (scanWhole_takes _)

theorem readInt?_steady (h : Open text) : Steady readInt? text := by
  intro more
  have hsign := (scanSign_takes text).open h
  unfold readInt?
  simp only [scanSign_append h, behind, scanWhole_append hsign]
  split <;> rfl

def scanBehind (more : List Char) : LiteralScan → LiteralScan
  | .literal l rest => .literal l (rest ++ more)
  | .none => .none
  | .broken => .broken

theorem scanFraction?_append (h : Open text) (more : List Char) :
    Literal.scanFraction? (text ++ more) = (Literal.scanFraction? text).map (behind more) := by
  obtain ⟨c, rest, rfl⟩ := h.exists_cons
  rw [List.cons_append]
  by_cases hc : c = '.'
  · obtain rfl := hc
    obtain ⟨htake, hdrop⟩ := takeWhile_steady (p := isDigit) (h.tail (by decide)) (by decide) more
    rw [Literal.scanFraction?, Literal.scanFraction?]
    simp only [htake, hdrop]
    split <;> rfl
  · have hpoint : ∀ rest, Literal.scanFraction? (c :: rest) = some ([], c :: rest) := by
      intro rest
      unfold Literal.scanFraction?
      split
      · rename_i e
        exact absurd (List.cons.inj e).1 hc
      · rfl
    rw [hpoint, hpoint]
    rfl

theorem scanExponentSign_takes (text : List Char) : Takes text (Literal.scanExponentSign text).2 := by
  unfold Literal.scanExponentSign
  split
  · exact takes_cons (by decide) _
  · exact takes_cons (by decide) _
  · exact .refl _

theorem scanExponentSign_append (h : Open text) (more : List Char) :
    Literal.scanExponentSign (text ++ more) = behind more (Literal.scanExponentSign text) := by
  obtain ⟨c, rest, rfl⟩ := h.exists_cons
  rw [List.cons_append]
  by_cases hp : c = '+'
  · obtain rfl := hp
    rfl
  · by_cases hm : c = '-'
    · obtain rfl := hm
      rfl
    · have hnone : ∀ rest, Literal.scanExponentSign (c :: rest) = (none, c :: rest) := by
        intro rest
        unfold Literal.scanExponentSign
        split
        · rename_i e
          exact absurd (List.cons.inj e).1 hp
        · rename_i e
          exact absurd (List.cons.inj e).1 hm
        · rfl
      rw [hnone, hnone]
      rfl

theorem scanExponent?_append (h : Open text) (more : List Char) :
    Literal.scanExponent? (text ++ more) = (Literal.scanExponent? text).map (behind more) := by
  obtain ⟨c, rest, rfl⟩ := h.exists_cons
  rw [List.cons_append, Literal.scanExponent?, Literal.scanExponent?]
  by_cases hc : c = 'e' ∨ c = 'E'
  · have hplain : isPlain c = true := by rcases hc with rfl | rfl <;> decide
    have hrest := h.tail hplain
    have hsign := (scanExponentSign_takes rest).open hrest
    obtain ⟨htake, hdrop⟩ := takeWhile_steady (p := isDigit) hsign (by decide) more
    simp only [if_pos hc, scanExponentSign_append hrest, behind, htake, hdrop]
    split <;> rfl
  · rw [if_neg hc, if_neg hc]
    rfl

theorem exponent_plain {e : Exponent} (h : Literal.ProperExponent e) :
    ∀ c ∈ Literal.exponentChars (some e), isPlain c = true := by
  intro c hc
  obtain ⟨mark, sign, digits⟩ := e
  simp only [Literal.exponentChars, List.cons_append, List.mem_cons, List.mem_append, Option.mem_toList] at hc
  rcases hc with rfl | hs | hd
  · rcases h.mark with e | e <;> rw [show c = _ from e] <;> decide
  · rcases h.sign with e | e | e <;> rw [show sign = _ from e] at hs <;> cases hs <;> decide
  · exact isPlain_of_isDigit (h.digits c hd)

/-- A literal is spelled with plain characters. -/
theorem chars_plain {l : Literal} (h : l.Proper) : ∀ c ∈ l.chars, isPlain c = true := by
  intro c hc
  obtain ⟨negative, whole, fraction, exponent⟩ := l
  simp only [Literal.chars, List.mem_append, or_assoc] at hc
  rcases hc with hn | hw | hf | he
  · split at hn
    · rw [List.mem_singleton.mp hn]
      decide
    · cases hn
  · exact isPlain_of_isDigit (h.whole.digits c hw)
  · split at hf
    · cases hf
    · rcases List.mem_cons.mp hf with rfl | hf
      · decide
      · exact isPlain_of_isDigit (h.fraction c hf)
  · cases exponent with
    | none => cases he
    | some e => exact exponent_plain (h.exponent e rfl) c he

theorem scan_takes {l : Literal} (h : Literal.scan text = .literal l rest) : Takes text rest := by
  obtain ⟨rfl, hproper⟩ := Literal.scan_sound h
  exact ⟨l.chars, rfl, balanced_of_plain (chars_plain hproper)⟩

theorem scanFraction?_takes {digits : List Char} (h : Literal.scanFraction? text = some (digits, rest)) :
    Takes text rest := by
  unfold Literal.scanFraction? at h
  split at h
  · simp only at h
    split at h
    · cases h
    · obtain ⟨-, rfl⟩ := Prod.mk.inj (Option.some.inj h)
      exact .cons (by decide) (takes_dropWhile (fun _ => isPlain_of_isDigit) _)
  · obtain ⟨-, rfl⟩ := Prod.mk.inj (Option.some.inj h)
    exact .refl _

theorem scan_append (h : Open text) (more : List Char) :
    Literal.scan (text ++ more) = scanBehind more (Literal.scan text) := by
  have hsign := (scanSign_takes text).open h
  have hwhole := (scanWhole_takes _).open hsign
  unfold Literal.scan
  simp only [scanSign_append h, behind, scanWhole_append hsign]
  split
  · rfl
  · rw [scanFraction?_append hwhole]
    cases hf : Literal.scanFraction? (Literal.scanWhole (Literal.scanSign text).2).2 with
    | none => rfl
    | some p =>
      have hfraction := (scanFraction?_takes hf).open hwhole
      simp only [Option.map_some, behind, scanExponent?_append hfraction]
      cases Literal.scanExponent? p.2 with
      | none => rfl
      | some q => rfl

/-! ### Indices and slices -/

theorem readOptional_takes (text : List Char) : Takes text (readOptional text).2 := by
  unfold readOptional
  split
  · exact readInt?_takes ‹_›
  · exact .refl text

theorem readOptional_append (h : Open text) (more : List Char) :
    readOptional (text ++ more) = behind more (readOptional text) := by
  rw [readOptional, readOptional, readInt?_steady h more]
  cases readInt? text <;> rfl

theorem readBound_takes (text : List Char) : Takes text (readBound text).2 := by
  unfold readBound
  split
  · exact (skipBlanks_takes text).trans (readInt?_takes ‹_›)
  · exact .refl text

theorem readBound_append (h : Open text) (more : List Char) :
    readBound (text ++ more) = behind more (readBound text) := by
  rw [readBound, readBound, skipBlanks_append h, readInt?_steady h.skipBlanks more]
  cases readInt? (skipBlanks text) <;> rfl

theorem isPlainWord_colon : isPlainWord [':'] = true := by decide

theorem readIndices?_takes {selector : Selector} (h : readIndices? text = some (selector, rest)) : Takes text rest := by
  have hstart := readOptional_takes text
  unfold readIndices? at h
  simp only at h
  split at h
  · obtain ⟨i, -, e⟩ := Option.map_eq_some_iff.mp h
    obtain ⟨-, rfl⟩ := Prod.mk.inj e
    exact hstart
  · rename_i behindColon hcolon
    have hstop := (hstart.trans (afterBlanks?_takes isPlainWord_colon hcolon).takes).trans (readBound_takes behindColon)
    split at h
    · obtain ⟨-, rfl⟩ := Prod.mk.inj (Option.some.inj h)
      exact hstop
    · rename_i behindColon hcolon
      obtain ⟨-, rfl⟩ := Prod.mk.inj (Option.some.inj h)
      exact (hstop.trans (afterBlanks?_takes isPlainWord_colon hcolon).takes).trans (readBound_takes behindColon)

theorem readIndices?_steady (h : Open text) : Steady readIndices? text := by
  intro more
  have hstart := (readOptional_takes text).open h
  unfold readIndices?
  simp only [readOptional_append h, behind, afterBlanks?_steady isPlainWord_colon hstart more]
  cases hcolon : afterBlanks? [':'] (readOptional text).2 with
  | none =>
    simp only [Option.map_none, Option.map_map]
    rfl
  | some rest =>
    have hrest := (afterBlanks?_takes isPlainWord_colon hcolon).takes.open hstart
    have hstop := (readBound_takes rest).open hrest
    simp only [Option.map_some, readBound_append hrest, behind, afterBlanks?_steady isPlainWord_colon hstop more]
    cases hcolon : afterBlanks? [':'] (readBound rest).2 with
    | none => rfl
    | some rest =>
      have hrest := (afterBlanks?_takes isPlainWord_colon hcolon).takes.open hstop
      simp only [Option.map_some, readBound_append hrest, behind]

end Numbers

end Reshape.Path
