/-
  Reshape.Proofs.Path.Strings — the strings of a query, and the bracket that they stand in.

  Only in a string can a query hold a bracket or a quote that is not its own. The scan for the
  closing bracket knows where a string ends because it takes every backslash with the character
  behind it, and the reader reads no escape that would have the two disagree: behind a backslash
  there is one character, or an escape by four digits, and no digit is a quote or a backslash.

  - `readBody?_quote`, `readBody?_escape`, `readBody?_char`: one character, or one escape, at a time.
  - `readBody?_within`: what is read of a string reaches to its own quote.
  - `readBody?_steady`: in an open text the string ends before the bracket closes.
  - `readScalar?_takes`, `readScalar?_steady`: the same of a string or another scalar as a whole.
-/

import Reshape.Proofs.Path.Tokens

namespace Reshape.Path

open BracketScan

/-! ## Strings -/

section Strings

variable {quote c : Char} {text rest more : List Char}

def IsQuote (c : Char) : Prop := c = '\'' ∨ c = '"'

theorem IsQuote.ne_backslash (h : IsQuote quote) : quote ≠ '\\' := by rcases h with rfl | rfl <;> decide

theorem IsQuote.ne_close (h : IsQuote quote) : quote ≠ ']' := by rcases h with rfl | rfl <;> decide

/-- What has been taken off leaves the scan inside its string. -/
def Within (quote : Char) (text rest : List Char) : Prop :=
  ∃ taken, text = taken ++ rest ∧ ∀ depth, (inside quote depth).run? taken = some (inside quote depth)

theorem Within.trans (h : Within quote text rest) (hm : Within quote rest more) : Within quote text more := by
  obtain ⟨taken, rfl, hb⟩ := h
  obtain ⟨next, rfl, hn⟩ := hm
  refine ⟨taken ++ next, by rw [List.append_assoc], fun depth => ?_⟩
  rw [run?_append, hb depth]
  exact hn depth

/-- A stretch without the quote and without backslashes. -/
theorem within_append {taken : List Char} (h : ∀ c ∈ taken, c ≠ quote ∧ c ≠ '\\') (text : List Char) :
    Within quote (taken ++ text) text := ⟨taken, rfl, fun depth => run?_inside quote depth h⟩

theorem within_cons (hq : c ≠ quote) (hb : c ≠ '\\') (text : List Char) : Within quote (c :: text) text := by
  have hone : ∀ d ∈ [c], d ≠ quote ∧ d ≠ '\\' := by
    intro d hd
    rw [List.mem_singleton.mp hd]
    exact ⟨hq, hb⟩
  exact within_append hone text

/-- A backslash takes the next character with it. -/
theorem within_escape (quote c : Char) (text : List Char) : Within quote ('\\' :: c :: text) text :=
  ⟨['\\', c], rfl, fun depth => run?_escape quote depth c []⟩

theorem hexDigits_of_hexQuad? {a b d e : Char} {unit : Nat} (h : hexQuad? a b d e = some unit) :
    ∀ c ∈ [a, b, d, e], (hexDigit? c).isSome = true := by
  simp only [hexQuad?, bind, pure, Option.bind_eq_some_iff] at h
  obtain ⟨w, hw, x, hx, y, hy, z, hz, -⟩ := h
  simp [hw, hx, hy, hz]

theorem IsQuote.ne_of_hexDigit (h : IsQuote quote) (hc : (hexDigit? c).isSome = true) : c ≠ quote ∧ c ≠ '\\' := by
  constructor
  · rintro rfl
    rcases h with rfl | rfl <;> cases hc
  · rintro rfl
    cases hc

theorem readQuad?_eq_some {unit : Bool × Nat} (h : readQuad? text = some (unit, rest)) :
    ∃ digits : List Char, text = digits ++ rest ∧ digits.length = 4 ∧ ∀ c ∈ digits, (hexDigit? c).isSome = true := by
  unfold readQuad? at h
  split at h
  · rename_i a b d e _
    obtain ⟨u, hu, e'⟩ := Option.map_eq_some_iff.mp h
    obtain ⟨-, rfl⟩ := Prod.mk.inj e'
    exact ⟨[a, b, d, e], rfl, rfl, hexDigits_of_hexQuad? hu⟩
  · cases h

theorem readQuad?_within (hq : IsQuote quote) {unit : Bool × Nat} (h : readQuad? text = some (unit, rest)) :
    Within quote text rest := by
  obtain ⟨digits, rfl, -, hd⟩ := readQuad?_eq_some h
  exact within_append (fun c hc => hq.ne_of_hexDigit (hd c hc)) rest

theorem readPartner?_within (hq : IsQuote quote) {high : Nat} (h : readPartner? high text = some (c, rest)) :
    Within quote text rest := by
  unfold readPartner? at h
  split at h
  · split at h
    · rename_i hquad
      split at h
      · obtain ⟨d, -, e⟩ := Option.map_eq_some_iff.mp h
        obtain ⟨-, rfl⟩ := Prod.mk.inj e
        exact (within_escape quote 'u' _).trans (readQuad?_within hq hquad)
      · cases h
    · cases h
  · cases h

theorem readEscape?_within (hq : IsQuote quote) (h : readEscape? quote text = some (c, rest)) :
    Within quote ('\\' :: text) rest := by
  unfold readEscape? at h
  split at h
  · split at h
    · rename_i hquad
      exact ((within_escape quote 'u' _).trans (readQuad?_within hq hquad)).trans (readPartner?_within hq h)
    · rename_i hquad
      obtain ⟨d, -, e⟩ := Option.map_eq_some_iff.mp h
      obtain ⟨-, rfl⟩ := Prod.mk.inj e
      exact (within_escape quote 'u' _).trans (readQuad?_within hq hquad)
    · cases h
  · obtain ⟨d, -, e⟩ := Option.map_eq_some_iff.mp h
    obtain ⟨-, rfl⟩ := Prod.mk.inj e
    exact within_escape quote _ _
  · cases h

/-! ### One character, or one escape, at a time -/

theorem readBody?_quote (quote : Char) (text : List Char) : readBody? quote (quote :: text) = some ([], text) := by
  rw [readBody?, if_pos rfl]

theorem readBody?_escape (hq : '\\' ≠ quote) (h : readEscape? quote text = some (c, rest)) :
    readBody? quote ('\\' :: text) = (readBody? quote rest).map fun (cs, rest) => (c :: cs, rest) := by
  rw [readBody?, if_neg hq, if_pos rfl]
  split
  · rename_i e
    obtain ⟨rfl, rfl⟩ := Prod.mk.inj (Option.some.inj (h.symm.trans e))
    rfl
  · rename_i e
    cases h.symm.trans e

theorem readBody?_broken (hq : '\\' ≠ quote) (h : readEscape? quote text = none) :
    readBody? quote ('\\' :: text) = none := by
  rw [readBody?, if_neg hq, if_pos rfl]
  split
  · rename_i e
    cases h.symm.trans e
  · rfl

theorem readBody?_control (hq : c ≠ quote) (hb : c ≠ '\\') (hc : c.toNat < 0x20) (text : List Char) :
    readBody? quote (c :: text) = none := by
  rw [readBody?, if_neg hq, if_neg hb, if_pos hc]

theorem readBody?_char (hq : c ≠ quote) (hb : c ≠ '\\') (hc : ¬ c.toNat < 0x20) (text : List Char) :
    readBody? quote (c :: text) = (readBody? quote text).map fun (cs, rest) => (c :: cs, rest) := by
  rw [readBody?, if_neg hq, if_neg hb, if_neg hc]

/-- What is read of a string reaches to its own quote. -/
theorem readBody?_within (hquote : IsQuote quote) {cs : List Char} (h : readBody? quote text = some (cs, rest)) :
    Within quote text (quote :: rest) := by
  induction text using readBody?.induct quote generalizing cs rest with
  | case1 =>
    rw [readBody?] at h
    cases h
  | case2 text =>
    rw [readBody?_quote] at h
    obtain ⟨-, rfl⟩ := Prod.mk.inj (Option.some.inj h)
    exact ⟨[], rfl, fun _ => rfl⟩
  | case3 text c next he hq ih =>
    rw [readBody?_escape hq he] at h
    obtain ⟨⟨ds, left⟩, hbody, e⟩ := Option.map_eq_some_iff.mp h
    obtain ⟨-, rfl⟩ := Prod.mk.inj e
    exact (readEscape?_within hquote he).trans (ih hbody)
  | case4 text he hq =>
    rw [readBody?_broken hq he] at h
    cases h
  | case5 c text hq hb hc =>
    rw [readBody?_control hq hb hc] at h
    cases h
  | case6 c text hq hb hc ih =>
    rw [readBody?_char hq hb hc] at h
    obtain ⟨⟨ds, left⟩, hbody, e⟩ := Option.map_eq_some_iff.mp h
    obtain ⟨-, rfl⟩ := Prod.mk.inj e
    exact (within_cons hq hb text).trans (ih hbody)

/-! ### In an open text -/

/-- The text begins inside a string in a bracket, and ends with the character that closes this bracket. -/
def OpenString (quote : Char) (text : List Char) : Prop := ∃ depth, 0 < depth ∧ (inside quote depth).ClosedBy text

theorem OpenString.mem (h : OpenString quote text) : ']' ∈ text := h.elim fun _ hd => hd.2.mem

theorem OpenString.behind (h : OpenString quote text) (hw : Within quote text rest) : OpenString quote rest := by
  obtain ⟨depth, hd, hc⟩ := h
  obtain ⟨taken, rfl, ht⟩ := hw
  exact ⟨depth, hd, (closedBy_append_iff (ht depth)).mp hc⟩

/-- A string opens with its quote. -/
theorem Open.string (hq : IsQuote quote) (h : Open (quote :: text)) : OpenString quote text := by
  obtain ⟨depth, hd, hc⟩ := h
  have hone : (outside depth).run? [quote] = some (inside quote depth) := by
    rw [run?_cons_of_ne _ hq.ne_close]
    rcases hq with rfl | rfl <;> rfl
  have hbehind : (outside depth).ClosedBy ([quote] ++ text) ↔ (inside quote depth).ClosedBy text :=
    closedBy_append_iff hone
  exact ⟨depth, hd, hbehind.mp hc⟩

/-- A closing bracket is no digit. -/
theorem readQuad?_eq_none (h : ']' ∈ text.take 4) : readQuad? text = none := by
  refine Option.eq_none_iff_forall_ne_some.mpr ?_
  rintro ⟨unit, rest⟩ hsome
  obtain ⟨digits, rfl, hlength, hd⟩ := readQuad?_eq_some hsome
  rw [← hlength, List.take_left] at h
  cases hd _ h

theorem readQuad?_steady (h : ']' ∈ text) : Steady readQuad? text := by
  intro more
  by_cases hlong : 4 ≤ text.length
  · obtain ⟨a, b, d, e, rest, rfl⟩ : ∃ a b d e rest, text = a :: b :: d :: e :: rest := by
      rcases text with _ | ⟨a, _ | ⟨b, _ | ⟨d, _ | ⟨e, rest⟩⟩⟩⟩
      case cons.cons.cons.cons => exact ⟨a, b, d, e, rest, rfl⟩
      all_goals simp at hlong
    rw [readQuad?, Option.map_map]
    rfl
  · -- In a text too short for four digits, the bracket stands where a digit would have to.
    have hshort : text.length ≤ 4 := by omega
    rw [readQuad?_eq_none, readQuad?_eq_none]
    · rfl
    · rwa [List.take_of_length_le hshort]
    · rw [List.take_append, List.take_of_length_le hshort]
      exact List.mem_append_left _ h

/-- The bracket is still to come behind what begins with another character. -/
theorem mem_behind (h : ']' ∈ c :: text) (hc : c ≠ ']') : ']' ∈ text :=
  (List.mem_cons.mp h).resolve_left (Ne.symm hc)

theorem mem_behind_quad {unit : Bool × Nat} (h : ']' ∈ text) (hq : readQuad? text = some (unit, rest)) :
    ']' ∈ rest := by
  obtain ⟨digits, rfl, -, hd⟩ := readQuad?_eq_some hq
  exact (List.mem_append.mp h).resolve_left fun hmem => nomatch hd _ hmem

theorem readPartner?_eq_none {high : Nat} (h : ∀ rest, text ≠ '\\' :: 'u' :: rest) : readPartner? high text = none := by
  unfold readPartner?
  split
  · exact absurd rfl (h _)
  · rfl

theorem readPartner?_steady (high : Nat) (h : ']' ∈ text) : Steady (readPartner? high) text := by
  intro more
  by_cases hescape : ∃ rest, text = '\\' :: 'u' :: rest
  · obtain ⟨rest, rfl⟩ := hescape
    have hmem : ']' ∈ rest := mem_behind (mem_behind h (by decide)) (by decide)
    simp only [List.cons_append, readPartner?, readQuad?_steady hmem more]
    rcases readQuad? rest with _ | ⟨⟨opens, low⟩, left⟩
    · rfl
    · simp only [Option.map_some, behind]
      split
      · rw [Option.map_map]
        rfl
      · rfl
  · have hnone : ∀ rest, text ≠ '\\' :: 'u' :: rest := fun rest e => hescape ⟨rest, e⟩
    rw [readPartner?_eq_none hnone, readPartner?_eq_none (starts_of_append h (by decide) hnone)]
    rfl

theorem readEscape?_letter (hc : c ≠ 'u') (text : List Char) :
    readEscape? quote (c :: text) = (letterEscape? quote c).map fun c => (c, text) := by
  unfold readEscape?
  split
  · rename_i e
    exact absurd (List.cons.inj e).1 hc
  · rename_i e
    obtain ⟨rfl, rfl⟩ := List.cons.inj e
    rfl
  · rename_i e
    cases e

theorem readEscape?_steady (quote : Char) (h : ']' ∈ text) : Steady (readEscape? quote) text := by
  intro more
  cases text with
  | nil => cases h
  | cons c text =>
    rw [List.cons_append]
    by_cases hc : c = 'u'
    · obtain rfl := hc
      have hmem := mem_behind h (by decide)
      simp only [readEscape?, readQuad?_steady hmem more]
      rcases hquad : readQuad? text with _ | ⟨⟨opens, unit⟩, left⟩
      · rfl
      · cases opens with
        | true => exact readPartner?_steady unit (mem_behind_quad hmem hquad) more
        | false =>
          simp only [Option.map_some, behind, Option.map_map]
          rfl
    · rw [readEscape?_letter hc, readEscape?_letter hc, Option.map_map]
      rfl

theorem readBody?_steady (hquote : IsQuote quote) (h : OpenString quote text) : Steady (readBody? quote) text := by
  intro more
  induction text using readBody?.induct quote with
  | case1 => cases h.mem
  | case2 text =>
    rw [List.cons_append, readBody?_quote, readBody?_quote]
    rfl
  | case3 text c next he hq ih =>
    have hmem := mem_behind h.mem (by decide)
    have he' : readEscape? quote (text ++ more) = some (c, next ++ more) := by
      rw [readEscape?_steady quote hmem more, he]
      rfl
    rw [List.cons_append, readBody?_escape hq he, readBody?_escape hq he', ih (h.behind (readEscape?_within hquote he)),
      Option.map_map, Option.map_map]
    rfl
  | case4 text he hq =>
    have hmem := mem_behind h.mem (by decide)
    have he' : readEscape? quote (text ++ more) = none := by
      rw [readEscape?_steady quote hmem more, he]
      rfl
    rw [List.cons_append, readBody?_broken hq he, readBody?_broken hq he']
    rfl
  | case5 c text hq hb hc =>
    rw [List.cons_append, readBody?_control hq hb hc, readBody?_control hq hb hc]
    rfl
  | case6 c text hq hb hc ih =>
    rw [List.cons_append, readBody?_char hq hb hc, readBody?_char hq hb hc, ih (h.behind (within_cons hq hb text)),
      Option.map_map, Option.map_map]
    rfl

end Strings

/-! ## Scalars -/

section Scalars

variable {quote c : Char} {text rest more : List Char}

/-- A string that has been read is balanced with its quotes. -/
theorem takes_of_readBody? (hq : IsQuote quote) {cs : List Char} (h : readBody? quote text = some (cs, rest)) :
    Takes (quote :: text) rest := by
  obtain ⟨taken, rfl, ht⟩ := readBody?_within hq h
  refine ⟨quote :: (taken ++ [quote]), by simp, fun depth _ => ?_⟩
  have hopen : (outside depth).step quote = inside quote depth := by rcases hq with rfl | rfl <;> rfl
  rw [run?_cons_of_ne _ hq.ne_close, hopen, run?_append, ht depth, Option.bind_some,
    run?_quote hq.ne_backslash hq.ne_close]
  rfl

theorem isQuote_double : IsQuote '"' := Or.inr rfl

theorem isQuote_single : IsQuote '\'' := Or.inl rfl

theorem readQuoted?_takes {name : String} (h : readQuoted? text = some (name, rest)) : Takes text rest := by
  unfold readQuoted? at h
  split at h
  case h_3 => cases h
  case h_1 =>
    obtain ⟨⟨cs, left⟩, hbody, e⟩ := Option.map_eq_some_iff.mp h
    obtain ⟨-, rfl⟩ := Prod.mk.inj e
    exact takes_of_readBody? isQuote_double hbody
  case h_2 =>
    obtain ⟨⟨cs, left⟩, hbody, e⟩ := Option.map_eq_some_iff.mp h
    obtain ⟨-, rfl⟩ := Prod.mk.inj e
    exact takes_of_readBody? isQuote_single hbody

theorem readQuoted?_of_quote (hq : IsQuote quote) (text : List Char) :
    readQuoted? (quote :: text) = (readBody? quote text).map fun (cs, rest) => (String.ofList cs, rest) := by
  rcases hq with rfl | rfl <;> rfl

theorem readQuoted?_eq_none (hc : ¬ IsQuote c) (text : List Char) : readQuoted? (c :: text) = none := by
  unfold readQuoted?
  split
  · rename_i e
    exact absurd (Or.inr (List.cons.inj e).1) hc
  · rename_i e
    exact absurd (Or.inl (List.cons.inj e).1) hc
  · rfl

theorem readQuoted?_steady (h : Open text) : Steady readQuoted? text := by
  intro more
  obtain ⟨c, rest, rfl⟩ := h.exists_cons
  rw [List.cons_append]
  by_cases hq : IsQuote c
  · rw [readQuoted?_of_quote hq, readQuoted?_of_quote hq, readBody?_steady hq (h.string hq) more, Option.map_map,
      Option.map_map]
    rfl
  · rw [readQuoted?_eq_none hq, readQuoted?_eq_none hq]
    rfl

theorem readScalar?_takes {s : Scalar} (h : readScalar? text = some (s, rest)) : Takes text rest := by
  unfold readScalar? at h
  split at h
  · obtain ⟨-, rfl⟩ := Prod.mk.inj (Option.some.inj h)
    exact readQuoted?_takes ‹_›
  · split at h
    case h_4 =>
      split at h
      · rename_i hscan
        obtain ⟨n, -, e⟩ := Option.map_eq_some_iff.mp h
        obtain ⟨-, rfl⟩ := Prod.mk.inj e
        exact scan_takes hscan
      · cases h
    all_goals
      obtain ⟨-, rfl⟩ := Prod.mk.inj (Option.some.inj h)
      refine (after?_takes ?_ ‹after? _ _ = some _›).takes
      decide

theorem readScalar?_steady (h : Open text) : Steady readScalar? text := by
  intro more
  unfold readScalar?
  rw [readQuoted?_steady h more]
  cases readQuoted? text with
  | some p => rfl
  | none =>
    rw [after?_steady (by decide) h more, after?_steady (by decide) h more, after?_steady (by decide) h more]
    cases after? "true".toList text with
    | some rest => rfl
    | none =>
      cases after? "false".toList text with
      | some rest => rfl
      | none =>
        cases after? "null".toList text with
        | some rest => rfl
        | none =>
          simp only [Option.map_none, scan_append h more]
          cases Literal.scan text with
          | literal l rest =>
            simp only [scanBehind, Option.map_map]
            rfl
          | _ => rfl

end Scalars

end Reshape.Path
