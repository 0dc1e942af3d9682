/-
  Reshape.Proofs.Json.Tokens — the readers of gaps, strings and scalars keep to the grammar.

  What such a reader finds the grammar derives (`_sound`), and what the grammar derives the
  reader finds (`_complete`), up to the cursor at which it stops. The grammar may end a gap
  early, and a number too; the readers never do. So completeness asks that the text behind
  does not go on with what was read, which every text that the grammar lets follow fulfils.
-/

import Reshape.Json.Read
import Reshape.Proofs.Json.Grammar

namespace Reshape

open Grammar

/-! ## Gaps -/

theorem isSeparator_iff {c : Char} : isSeparator c = true ↔ c ∈ separators := by
  simp [isSeparator, separators]
  grind

/-- What a gap reader in some state has still to pass over. -/
def Passed : GapState → List Char → List Char → Prop
  | .blank, text, rest => Gap text rest
  | .line, text, rest =>
    ∃ body t, text = body ++ t ∧ (∀ c ∈ body, ¬ LineBreak c) ∧ (∀ c ∈ t.head?, LineBreak c) ∧ Gap t rest
  | .block _, text, rest => ∃ body t, text = body ++ '*' :: '/' :: t ∧ ¬ ['*', '/'] <:+: body ∧ Gap t rest

theorem skipFrom_sound {state : GapState} {text : List Char} {p : Position} {next : Cursor}
    (h : skipFrom state text p = .found () next) : Passed state text next.rest := by
  fun_induction skipFrom state text p with
  | case1 rest p ih =>
    obtain ⟨body, t, rfl, hbody, ht, hgap⟩ := ih h
    exact Gap.line hbody ht hgap
  | case2 rest p ih =>
    obtain ⟨body, t, rfl, hbody, hgap⟩ := ih h
    exact Gap.block hbody hgap
  | case3 c rest p h₁ h₂ hc ih => exact Gap.separator (isSeparator_iff.1 hc) (ih h)
  | case4 c rest p h₁ h₂ hc =>
    cases h
    exact Gap.none
  | case5 p =>
    cases h
    exact Gap.none
  | case6 c rest p ih =>
    by_cases hc : c = '\r' ∨ c = '\n'
    · have hsep : c ∈ separators := by rcases hc with rfl | rfl <;> decide
      simp only [Bool.or_eq_true, beq_iff_eq, hc, if_true] at ih h
      refine ⟨[], c :: rest, rfl, by simp, ?_, Gap.separator hsep (ih h)⟩
      intro d hd
      obtain rfl := Option.some.inj hd
      exact hc
    · simp only [Bool.or_eq_true, beq_iff_eq, hc, if_false] at ih h
      obtain ⟨body, t, rfl, hbody, ht, hgap⟩ := ih h
      refine ⟨c :: body, t, rfl, ?_, ht, hgap⟩
      intro d hd
      rcases List.mem_cons.1 hd with rfl | hd
      · exact hc
      · exact hbody d hd
  | case7 p =>
    cases h
    exact ⟨[], [], rfl, by simp, by simp, Gap.none⟩
  | case8 opened rest p ih => exact ⟨[], rest, rfl, by simp, ih h⟩
  | case9 opened c rest p hclose ih =>
    obtain ⟨body, t, rfl, hbody, hgap⟩ := ih h
    refine ⟨c :: body, t, rfl, ?_, hgap⟩
    rw [List.infix_cons_iff]
    rintro (hfirst | hlater)
    · -- the comment would have been closed at its first character
      obtain ⟨more, hmore⟩ := hfirst
      cases hmore
      exact hclose _ rfl rfl
    · exact hbody hlater
  | case10 opened p => cases h

theorem skipGap_sound {c next : Cursor} (h : skipGap c = .found () next) : Gap c.rest next.rest := skipFrom_sound h

/-- A gap reader that is past the gap stops. -/
theorem skipFrom_stops {rest : List Char} (h : Stops rest) (p : Position) :
    skipFrom .blank rest p = .found () ⟨rest, p⟩ := by
  cases rest with
  | nil => simp [skipFrom]
  | cons c rest =>
    obtain ⟨hsep, hslash⟩ := h c rfl
    have hsep : isSeparator c = false := Bool.eq_false_iff.2 fun h => hsep (isSeparator_iff.1 h)
    rw [skipFrom, hsep]
    · rfl
    · rintro - rfl; exact absurd rfl hslash
    · rintro - rfl; exact absurd rfl hslash

theorem skipFrom_separator {c : Char} (hc : c ∈ separators) (text : List Char) (p : Position) :
    skipFrom .blank (c :: text) p = skipFrom .blank text (p.after c) := by
  have hslash : c ≠ '/' := by rintro rfl; exact absurd hc (by decide)
  rw [skipFrom, if_pos (isSeparator_iff.2 hc)]
  · rintro - rfl; exact absurd rfl hslash
  · rintro - rfl; exact absurd rfl hslash

theorem skipFrom_line {body : List Char} (hb : ∀ c ∈ body, ¬ LineBreak c) (text : List Char) (p : Position) :
    ∃ q, skipFrom .line (body ++ text) p = skipFrom .line text q := by
  induction body generalizing p with
  | nil => exact ⟨p, rfl⟩
  | cons c body ih =>
    have hc : ¬ (c = '\r' ∨ c = '\n') := hb c (.head _)
    rw [List.cons_append, skipFrom]
    simp only [Bool.or_eq_true, beq_iff_eq, hc, if_false]
    exact ih (fun d hd => hb d (.tail _ hd)) _

theorem skipFrom_block {body : List Char} (hb : ¬ ['*', '/'] <:+: body) (opened : Cursor) (text : List Char)
    (p : Position) : ∃ q, skipFrom (.block opened) (body ++ '*' :: '/' :: text) p = skipFrom .blank text q := by
  induction body generalizing p with
  | nil => exact ⟨_, skipFrom.eq_7 ..⟩
  | cons c body ih =>
    rw [List.infix_cons_iff, not_or] at hb
    rw [List.cons_append, skipFrom]
    · exact ih hb.2 _
    · rintro more rfl hmore
      refine hb.1 ?_
      cases body with
      | nil => cases hmore
      | cons d body =>
        obtain ⟨rfl, -⟩ := List.cons.inj hmore
        exact ⟨body, rfl⟩

theorem skipGap_complete {text rest : List Char} (h : Gap text rest) (hs : Stops rest) (p : Position) :
    ∃ q, skipGap ⟨text, p⟩ = .found () ⟨rest, q⟩ := by
  induction h generalizing p with
  | none => exact ⟨p, skipFrom_stops hs p⟩
  | separator hc _ ih =>
    obtain ⟨q, hq⟩ := ih hs (p.after _)
    exact ⟨q, (skipFrom_separator hc _ p).trans hq⟩
  | @line body text rest hb ht hgap ih =>
    obtain ⟨q, hq⟩ := skipFrom_line hb text (p.past ['/', '/'])
    have hopen : skipGap ⟨'/' :: '/' :: (body ++ text), p⟩ = skipFrom .line text q := hq
    cases text with
    | nil =>
      obtain ⟨q', hq'⟩ := ih hs q
      obtain rfl : rest = [] := by
        cases hgap
        rfl
      exact ⟨q, hopen⟩
    | cons c text =>
      -- the line break ends the comment and is white space itself
      have hc : LineBreak c := ht c rfl
      have hsep : c ∈ separators := by rcases hc with rfl | rfl <;> decide
      have hend : skipFrom .line (c :: text) q = skipFrom .blank text (q.after c) := by
        rw [skipFrom]
        simp only [Bool.or_eq_true, beq_iff_eq, show c = '\r' ∨ c = '\n' from hc, if_true]
      obtain ⟨q', hq'⟩ := ih hs q
      exact ⟨q', by rw [hopen, hend, ← skipFrom_separator hsep]; exact hq'⟩
  | @block body text rest hb hgap ih =>
    obtain ⟨q, hq⟩ := skipFrom_block hb ⟨body ++ '*' :: '/' :: text, p.past ['/', '*']⟩ text (p.past ['/', '*'])
    obtain ⟨q', hq'⟩ := ih hs q
    exact ⟨q', Eq.trans hq hq'⟩

/-! ## Strings -/

theorem letterEscape?_eq_some_iff {e c : Char} : letterEscape? e = some c ↔ (e, c) ∈ letters := by
  unfold letterEscape?
  split
  all_goals simp only [letters, List.mem_cons, List.not_mem_nil, Prod.mk.injEq, Option.some.injEq, reduceCtorEq]
  all_goals grind

theorem hexDigit?_eq_some_iff {c : Char} {n : Nat} : hexDigit? c = some n ↔ HexDigit c n := by
  constructor
  · have all : ∀ code < 128, ∀ n ∈ hexDigit? (Char.ofNat code), HexDigit (Char.ofNat code) n := by
      unfold HexDigit
      decide +kernel
    intro h
    have hc : c.toNat < 128 := by
      simp only [hexDigit?, Char.le_def, UInt32.le_iff_toNat_le] at h
      have e9 : '9'.val.toNat = 57 := rfl
      have ef : 'f'.val.toNat = 102 := rfl
      have eF : 'F'.val.toNat = 70 := rfl
      simp only [e9, ef, eF] at h
      change c.val.toNat < 128
      split at h
      · omega
      · split at h
        · omega
        · split at h
          · omega
          · cases h
    rw [← Char.ofNat_toNat c] at h ⊢
    exact all c.toNat hc n h
  · have all : ∀ n < 16, hexDigit? ("0123456789abcdef".toList.getD n ' ') = some n ∧
        hexDigit? ("0123456789ABCDEF".toList.getD n ' ') = some n := by decide +kernel
    rintro (h | h)
    · have hn : n < 16 := (List.getElem?_eq_some_iff.1 h).1
      have := (all n hn).1
      rwa [List.getD_eq_getElem?_getD, h] at this
    · have hn : n < 16 := (List.getElem?_eq_some_iff.1 h).1
      have := (all n hn).2
      rwa [List.getD_eq_getElem?_getD, h] at this

theorem scalar?_eq_some_iff {code : Nat} {c : Char} :
    scalar? code = some c ↔ (code < 0xD800 ∨ 0xDFFF < code ∧ code < 0x110000) ∧ c = Char.ofNat code := by
  unfold scalar?
  split
  · rename_i h
    simp only [Option.some.injEq, eq_comm]
    exact ⟨fun hc => ⟨h, hc⟩, fun hc => hc.2⟩
  · rename_i h
    exact ⟨nofun, fun hc => absurd hc.1 h⟩

theorem readQuad_sound {c next : Cursor} {unit : Nat} (h : readQuad c = .found unit next) :
    Quad c.rest unit next.rest := by
  unfold readQuad at h
  split at h
  · rename_i i j k l rest hc
    split at h
    · rename_i unit' hq
      cases h
      simp only [hexQuad?, bind, pure, Option.bind_eq_some_iff, Option.some.injEq] at hq
      obtain ⟨w, hw, x, hx, y, hy, z, hz, rfl⟩ := hq
      rw [hc, show ((w * 16 + x) * 16 + y) * 16 + z = w * 0x1000 + x * 0x100 + y * 0x10 + z by omega]
      exact .mk (hexDigit?_eq_some_iff.1 hw) (hexDigit?_eq_some_iff.1 hx) (hexDigit?_eq_some_iff.1 hy)
        (hexDigit?_eq_some_iff.1 hz)
    · cases h
  · cases h

theorem readQuad_complete {text rest : List Char} {unit : Nat} (h : Quad text unit rest) (p : Position) :
    ∃ q, readQuad ⟨text, p⟩ = .found unit ⟨rest, q⟩ := by
  obtain ⟨hi, hj, hk, hl⟩ := h
  rename_i i j k l w x y z
  have hq : hexQuad? i j k l = some (w * 0x1000 + x * 0x100 + y * 0x10 + z) := by
    simp only [hexQuad?, bind, pure, hexDigit?_eq_some_iff.2 hi, hexDigit?_eq_some_iff.2 hj,
      hexDigit?_eq_some_iff.2 hk, hexDigit?_eq_some_iff.2 hl, Option.bind_some, Option.some.injEq]
    omega
  simp only [readQuad, hq]
  exact ⟨_, rfl⟩

theorem Grammar.Quad.lt {text rest : List Char} {unit : Nat} (h : Quad text unit rest) : unit < 0x10000 := by
  obtain ⟨hi, hj, hk, hl⟩ := h
  have := hexDigit?_lt (hexDigit?_eq_some_iff.2 hi)
  have := hexDigit?_lt (hexDigit?_eq_some_iff.2 hj)
  have := hexDigit?_lt (hexDigit?_eq_some_iff.2 hk)
  have := hexDigit?_lt (hexDigit?_eq_some_iff.2 hl)
  omega

theorem isHighSurrogate_iff {unit : Nat} : isHighSurrogate unit = true ↔ 0xD800 ≤ unit ∧ unit < 0xDC00 := by
  simp [isHighSurrogate]

theorem isLowSurrogate_iff {unit : Nat} : isLowSurrogate unit = true ↔ 0xDC00 ≤ unit ∧ unit < 0xE000 := by
  simp [isLowSurrogate]

theorem readUnit_sound {c next : Cursor} {char : Char} (h : readUnit c = .found char next) :
    Escape ('u' :: c.rest) char next.rest := by
  obtain ⟨unit, between, hq, h⟩ := Outcome.andThen_eq_found h
  have hquad := readQuad_sound hq
  split at h
  · rename_i hhigh
    split at h
    · rename_i more hmore
      obtain ⟨low, last, hq', h⟩ := Outcome.andThen_eq_found h
      split at h
      · rename_i hlow
        cases hs : scalar? (joinSurrogates unit low) with
        | none =>
          rw [hs] at h
          cases h
        | some joined =>
          rw [hs] at h
          cases h
          have hchar := scalar?_eq_some_iff.1 hs
          rw [hmore] at hquad
          rw [hchar.2]
          exact .pair hquad (isHighSurrogate_iff.1 hhigh) (readQuad_sound hq') (isLowSurrogate_iff.1 hlow)
      · cases h
    · cases h
  · rename_i hhigh
    split at h
    · rename_i hs
      cases h
      obtain ⟨hu, hchar⟩ := scalar?_eq_some_iff.1 hs
      rw [hchar]
      exact .unit hquad (by omega)
    · cases h

theorem readEscape_sound {c next : Cursor} {char : Char} (h : readEscape c = .found char next) :
    Escape c.rest char next.rest := by
  unfold readEscape at h
  split at h
  · cases h
  · rename_i letter more hc
    rw [hc]
    split at h
    · rename_i hu
      subst hu
      exact readUnit_sound (Outcome.required_eq_found h)
    · split at h
      · rename_i hl
        cases h
        exact .letter (letterEscape?_eq_some_iff.1 hl)
      · cases h

theorem quotedBody_sound {quote : Char} {c next : Cursor} {chars : List Char}
    (h : quotedBody quote c = .found chars next) : Inside quote c.rest chars next.rest := by
  fun_induction quotedBody quote c generalizing chars with
  | case1 c hc => cases h
  | case2 c rest hc =>
    cases h
    rw [hc]
    exact .close
  | case3 c rest char between hc hquote he ih =>
    obtain ⟨chars', between', hb, h⟩ := Outcome.andThen_eq_found h
    cases h
    rw [hc]
    exact (readEscape_sound he).inside (ih hb)
  | case4 => cases h
  | case5 => cases h
  | case6 c d rest hc hquote hslash ih =>
    obtain ⟨chars', between', hb, h⟩ := Outcome.andThen_eq_found h
    cases h
    rw [hc]
    exact .raw hquote hslash (ih hb)

theorem readUnit_unit {unit : Nat} {text rest : List Char} (hq : Quad text unit rest)
    (hu : unit < 0xD800 ∨ 0xE000 ≤ unit) (p : Position) :
    ∃ q, readUnit ⟨text, p⟩ = .found (Char.ofNat unit) ⟨rest, q⟩ := by
  obtain ⟨q, hread⟩ := readQuad_complete hq p
  have hlt := hq.lt
  have hhigh : isHighSurrogate unit = false := Bool.eq_false_iff.2 fun h => by
    have := isHighSurrogate_iff.1 h
    omega
  have hs : scalar? unit = some (Char.ofNat unit) := scalar?_eq_some_iff.2 ⟨by omega, rfl⟩
  exact ⟨q, by simp only [readUnit, hread, Outcome.andThen, hhigh, Bool.false_eq_true, if_false, hs]⟩

theorem readUnit_pair {high low : Nat} {text between rest : List Char}
    (hq : Quad text high ('\\' :: 'u' :: between)) (hh : 0xD800 ≤ high ∧ high < 0xDC00)
    (hq' : Quad between low rest) (hl : 0xDC00 ≤ low ∧ low < 0xE000) (p : Position) :
    ∃ q, readUnit ⟨text, p⟩ =
      .found (Char.ofNat (0x10000 + (high - 0xD800) * 0x400 + (low - 0xDC00))) ⟨rest, q⟩ := by
  obtain ⟨q, hread⟩ := readQuad_complete hq p
  obtain ⟨q', hread'⟩ := readQuad_complete hq' (q.past ['\\', 'u'])
  have hs : scalar? (joinSurrogates high low) = some (Char.ofNat (joinSurrogates high low)) :=
    scalar?_eq_some_iff.2 ⟨by unfold joinSurrogates; omega, rfl⟩
  refine ⟨q', ?_⟩
  simp only [readUnit, hread, Outcome.andThen, isHighSurrogate_iff.2 hh, if_true, Cursor.past, hread',
    isLowSurrogate_iff.2 hl, hs]
  rfl

theorem letters_ne_u {e c : Char} (h : (e, c) ∈ letters) : e ≠ 'u' := by
  rintro rfl
  have := letterEscape?_eq_some_iff.2 h
  cases this

theorem readEscape_complete {char : Char} {text rest : List Char} (h : Escape text char rest) (p : Position) :
    ∃ q, readEscape ⟨text, p⟩ = .found char ⟨rest, q⟩ := by
  cases h with
  | @letter e c rest hl =>
    refine ⟨p.after e, ?_⟩
    simp only [readEscape, letters_ne_u hl, if_false, letterEscape?_eq_some_iff.2 hl]
    rfl
  | unit hq hu =>
    obtain ⟨q, hread⟩ := readUnit_unit hq hu (p.after 'u')
    refine ⟨q, ?_⟩
    simp only [readEscape, if_true, Cursor.past, Position.past_cons, Position.past_nil, hread]
    rfl
  | pair hq hh hq' hl =>
    obtain ⟨q, hread⟩ := readUnit_pair hq hh hq' hl (p.after 'u')
    refine ⟨q, ?_⟩
    simp only [readEscape, if_true, Cursor.past, Position.past_cons, Position.past_nil, hread]
    rfl

/-- The body reader goes over one escape. -/
theorem quotedBody_escape {quote char : Char} {text rest chars : List Char} {p q : Position} {last : Cursor}
    (hquote : quote ≠ '\\') (h : readEscape ⟨text, p.after '\\'⟩ = .found char ⟨rest, q⟩)
    (hb : quotedBody quote ⟨rest, q⟩ = .found chars last) :
    quotedBody quote ⟨'\\' :: text, p⟩ = .found (char :: chars) last := by
  rw [quotedBody]
  simp only [Ne.symm hquote, if_false, if_true]
  split
  · rename_i char' next he
    rw [Cursor.past, Position.past_cons, Position.past_nil, h] at he
    cases he
    rw [hb]
    rfl
  · rename_i he
    rw [Cursor.past, Position.past_cons, Position.past_nil, h] at he
    cases he
  · rename_i f he
    rw [Cursor.past, Position.past_cons, Position.past_nil, h] at he
    cases he

theorem quotedBody_complete {quote : Char} {text chars rest : List Char} (hquote : quote ≠ '\\')
    (h : Inside quote text chars rest) (p : Position) :
    ∃ q, quotedBody quote ⟨text, p⟩ = .found chars ⟨rest, q⟩ := by
  induction h generalizing p with
  | close =>
    rw [quotedBody]
    simp only [if_true]
    exact ⟨_, rfl⟩
  | raw hc hs _ ih =>
    obtain ⟨q, hq⟩ := ih (p.after _)
    rw [quotedBody]
    simp only [hc, hs, if_false, Cursor.past, Position.past_cons, Position.past_nil]
    exact ⟨q, by rw [hq]; rfl⟩
  | letter hl _ ih =>
    obtain ⟨r, hr⟩ := readEscape_complete (.letter hl) (p.after '\\')
    obtain ⟨q, hq⟩ := ih r
    exact ⟨q, quotedBody_escape hquote hr hq⟩
  | unit hq hu _ ih =>
    obtain ⟨r, hr⟩ := readEscape_complete (.unit hq hu) (p.after '\\')
    obtain ⟨q, hq⟩ := ih r
    exact ⟨q, quotedBody_escape hquote hr hq⟩
  | pair hq hh hq' hl _ ih =>
    obtain ⟨r, hr⟩ := readEscape_complete (.pair hq hh hq' hl) (p.after '\\')
    obtain ⟨q, hq⟩ := ih r
    exact ⟨q, quotedBody_escape hquote hr hq⟩

theorem readString_sound {c next : Cursor} {s : String} (h : readString c = .found s next) :
    Quoted c.rest s next.rest := by
  unfold readString at h
  split at h
  · rename_i rest hc
    obtain ⟨chars, between, hb, h⟩ := Outcome.andThen_eq_found h
    cases h
    rw [hc]
    exact .mk (.inl rfl) (quotedBody_sound hb)
  · rename_i rest hc
    obtain ⟨chars, between, hb, h⟩ := Outcome.andThen_eq_found h
    cases h
    rw [hc]
    exact .mk (.inr rfl) (quotedBody_sound hb)
  · cases h

theorem readString_complete {text rest : List Char} {s : String} (h : Quoted text s rest) (p : Position) :
    ∃ q, readString ⟨text, p⟩ = .found s ⟨rest, q⟩ := by
  obtain ⟨hquote, hi⟩ := h
  rcases hquote with rfl | rfl
  · obtain ⟨q, hq⟩ := quotedBody_complete (by decide) hi (p.after '"')
    exact ⟨q, by simp only [readString, Cursor.past, Position.past_cons, Position.past_nil, hq]; rfl⟩
  · obtain ⟨q, hq⟩ := quotedBody_complete (by decide) hi (p.after '\'')
    exact ⟨q, by simp only [readString, Cursor.past, Position.past_cons, Position.past_nil, hq]; rfl⟩

/-- Where no quote stands no string begins. -/
theorem readString_absent {c : Char} (h₁ : c ≠ '"') (h₂ : c ≠ '\'') (text : List Char) (p : Position) :
    readString ⟨c :: text, p⟩ = .absent := by
  unfold readString
  split
  · rename_i hc
    cases hc
    exact absurd rfl h₁
  · rename_i hc
    cases hc
    exact absurd rfl h₂
  · rfl

/-! ## Scalars -/

theorem afterWord?_eq_some_iff {word text rest : List Char} : afterWord? word text = some rest ↔ text = word ++ rest := by
  induction word generalizing text with
  | nil => simp [afterWord?]
  | cons w word ih =>
    cases text with
    | nil => simp [afterWord?]
    | cons c text =>
      simp only [afterWord?, List.cons_append, List.cons.injEq]
      split
      · rename_i hc
        rw [ih]
        exact ⟨fun h => ⟨hc, h⟩, fun h => h.2⟩
      · rename_i hc
        exact ⟨nofun, fun h => absurd h.1 hc⟩

def keywords : List (List Char × Scalar) :=
  [(['t', 'r', 'u', 'e'], .bool true), (['f', 'a', 'l', 's', 'e'], .bool false), (['n', 'u', 'l', 'l'], .null)]

/-- One of the three words is found, or nothing is. -/
theorem readKeyword_cases (c : Cursor) : readKeyword c = .absent ∨
    ∃ word s rest, (word, s) ∈ keywords ∧ c.rest = word ++ rest ∧ readKeyword c = .found s (c.past word rest) := by
  cases ht : afterWord? "true".toList c.rest with
  | some rest =>
    refine .inr ⟨_, _, rest, .head _, afterWord?_eq_some_iff.1 ht, ?_⟩
    simp only [readKeyword, ht, Option.map_some, Option.some_or, Option.getD_some]
    rfl
  | none =>
    cases hf : afterWord? "false".toList c.rest with
    | some rest =>
      refine .inr ⟨_, _, rest, .tail _ (.head _), afterWord?_eq_some_iff.1 hf, ?_⟩
      simp only [readKeyword, ht, hf, Option.map_none, Option.map_some, Option.none_or, Option.some_or,
        Option.getD_some]
      rfl
    | none =>
      cases hn : afterWord? "null".toList c.rest with
      | some rest =>
        refine .inr ⟨_, _, rest, .tail _ (.tail _ (.head _)), afterWord?_eq_some_iff.1 hn, ?_⟩
        simp only [readKeyword, ht, hf, hn, Option.map_none, Option.map_some, Option.none_or, Option.getD_some]
        rfl
      | none =>
        refine .inl ?_
        simp only [readKeyword, ht, hf, hn, Option.map_none, Option.none_or, Option.getD_none]

theorem readKeyword_sound {c next : Cursor} {s : Scalar} (h : readKeyword c = .found s next) :
    ∃ word, (word, s) ∈ keywords ∧ c.rest = word ++ next.rest := by
  rcases readKeyword_cases c with habsent | ⟨word, s', rest, hword, hc, hfound⟩
  · rw [habsent] at h
    cases h
  · rw [hfound] at h
    cases h
    exact ⟨word, hword, hc⟩

theorem Grammar.Spells.keyword {word : List Char} {s : Scalar} (h : (word, s) ∈ keywords) (rest : List Char) :
    Spells (word ++ rest) (.scalar s) rest := by
  simp only [keywords, List.mem_cons, List.not_mem_nil, or_false, Prod.mk.injEq] at h
  rcases h with ⟨rfl, rfl⟩ | ⟨rfl, rfl⟩ | ⟨rfl, rfl⟩
  · exact .yes
  · exact .no
  · exact .null

theorem readScalar_sound {c next : Cursor} {s : Scalar} (h : readScalar c = .found s next) :
    Spells c.rest (.scalar s) next.rest := by
  unfold readScalar at h
  cases hs : readString c with
  | found str between =>
    rw [hs] at h
    cases h
    exact .string (readString_sound hs)
  | broken f =>
    rw [hs] at h
    cases h
  | absent =>
    rw [hs] at h
    simp only [Outcome.map, Outcome.andThen] at h
    split at h
    · cases h
    · obtain ⟨word, hword, hc⟩ := readKeyword_sound h
      rw [hc]
      exact .keyword hword _
    · rename_i l rest hscan
      obtain ⟨htext, hproper⟩ := Literal.scan_sound hscan
      split at h
      · rename_i n hn
        cases h
        rw [htext]
        exact .number hproper (Literal.number?_eq_some_iff.1 hn)
      · cases h

/-- A scalar is read from a text behind which no number goes on. -/
theorem readScalar_complete {text rest : List Char} {s : Scalar} (h : Spells text (.scalar s) rest)
    (hr : Literal.Ends rest) (p : Position) : ∃ q, readScalar ⟨text, p⟩ = .found s ⟨rest, q⟩ := by
  cases h with
  | null => exact ⟨_, rfl⟩
  | yes => exact ⟨_, rfl⟩
  | no => exact ⟨_, rfl⟩
  | @number l n _ hproper hn =>
    obtain ⟨c, more, hc, hfirst⟩ := hproper.head
    have habsent : readString ⟨l.chars ++ rest, p⟩ = .absent := by
      rw [hc]
      refine readString_absent ?_ ?_ _ p
      · rintro rfl
        rcases hfirst with h | h <;> exact absurd h (by decide)
      · rintro rfl
        rcases hfirst with h | h <;> exact absurd h (by decide)
    simp only [readScalar, habsent, Outcome.map, Outcome.andThen, Literal.scan_complete hproper hr,
      Literal.number?_eq_some_iff.2 hn]
    exact ⟨_, rfl⟩
  | string hq =>
    obtain ⟨q, hread⟩ := readString_complete hq p
    exact ⟨q, by simp only [readScalar, hread, Outcome.map, Outcome.andThen]⟩

/-! ## Punctuation -/

theorem readChar_eq_found {wanted : Char} {c next : Cursor} (h : readChar wanted c = .found () next) :
    c.rest = wanted :: next.rest := by
  unfold readChar at h
  split at h
  · cases h
  · rename_i d rest hc
    split at h
    · rename_i hd
      cases h
      rw [hc, hd]
    · cases h

end Reshape
