/-
  Reshape.Proofs.Json.Continuing — what a rule of the grammar takes it takes whatever follows.

  The rules look at what they take and at nothing behind it, so the piece of text that a rule
  has taken in one text it takes in every other (`Spans`). There is one exception: a comment
  that reaches to the end of the text takes its line, and cannot do so if the line goes on. Such
  a gap ends at the end of the text and nowhere else, so within a value, where a sign or a
  token comes behind every gap, the exception does not come up.

  - `Gap.spans`: gaps; `Inside.spans`, `Quoted.spans`: strings; `Spells.spans` and the like: values.
-/

import Mathlib.Logic.Relation
import Reshape.Proofs.Json.Grammar

namespace Reshape.Grammar

/-- The rule takes this piece of text, whatever follows. -/
def Spans (R : List Char → List Char → Prop) (taken : List Char) : Prop := ∀ rest, R (taken ++ rest) rest

/-- What the rule has taken, from the text on to the rest, it takes whatever follows. -/
def Takes (R : List Char → List Char → Prop) (text rest : List Char) : Prop :=
  ∃ taken, text = taken ++ rest ∧ Spans R taken

variable {R S : List Char → List Char → Prop} {text rest mid : List Char}

theorem Spans.mono {taken : List Char} (h : Spans R taken) (hR : ∀ text rest, R text rest → S text rest) :
    Spans S taken := fun rest => hR _ _ (h rest)

theorem Spans.comp {a b : List Char} (h : Spans R a) (h' : Spans S b) : Spans (Relation.Comp R S) (a ++ b) := by
  intro rest
  rw [List.append_assoc]
  exact ⟨b ++ rest, h _, h' rest⟩

namespace Takes

theorem mono (h : Takes R text rest) (hR : ∀ text rest, R text rest → S text rest) : Takes S text rest := by
  obtain ⟨taken, ht, hs⟩ := h
  exact ⟨taken, ht, hs.mono hR⟩

theorem comp (h : Takes R text mid) (h' : Takes S mid rest) : Takes (Relation.Comp R S) text rest := by
  obtain ⟨a, rfl, ha⟩ := h
  obtain ⟨b, rfl, hb⟩ := h'
  exact ⟨a ++ b, (List.append_assoc a b rest).symm, ha.comp hb⟩

/-- What begins with a sign takes the sign and goes on. -/
theorem cons {c : Char} (h : Takes R text rest) (hR : ∀ text rest, R text rest → S (c :: text) rest) :
    Takes S (c :: text) rest := by
  obtain ⟨taken, rfl, hs⟩ := h
  exact ⟨c :: taken, rfl, fun rest => hR _ _ (hs rest)⟩

/-- A piece of text that is taken as it is. -/
theorem piece (taken : List Char) (h : ∀ rest, R (taken ++ rest) rest) (rest : List Char) :
    Takes R (taken ++ rest) rest := ⟨taken, rfl, h⟩

end Takes

/-! ## Gaps -/

/-- A gap ends where it does in any other text, unless that goes on with a line that it should have taken. -/
theorem Gap.continues (h : Gap text rest) : ∃ taken, text = taken ++ rest ∧ ∀ rest',
    ((∀ c ∈ rest.head?, LineBreak c) → ∀ c ∈ rest'.head?, LineBreak c) → Gap (taken ++ rest') rest' := by
  induction h with
  | none => exact ⟨[], rfl, fun _ _ => .none⟩
  | @separator c text rest hc _ ih =>
    obtain ⟨taken, rfl, hgap⟩ := ih
    exact ⟨c :: taken, rfl, fun rest' hr => .separator hc (hgap rest' hr)⟩
  | @line body text rest hb ht _ ih =>
    obtain ⟨taken, rfl, hgap⟩ := ih
    refine ⟨'/' :: '/' :: (body ++ taken), by simp, fun rest' hr => ?_⟩
    have htext : '/' :: '/' :: (body ++ taken) ++ rest' = '/' :: '/' :: (body ++ (taken ++ rest')) := by simp
    rw [htext]
    refine .line hb ?_ (hgap rest' hr)
    cases taken with
    | nil => exact hr ht
    | cons c taken => exact ht
  | @block body text rest hb _ ih =>
    obtain ⟨taken, rfl, hgap⟩ := ih
    refine ⟨'/' :: '*' :: (body ++ '*' :: '/' :: taken), by simp, fun rest' hr => ?_⟩
    have htext : '/' :: '*' :: (body ++ '*' :: '/' :: taken) ++ rest' =
        '/' :: '*' :: (body ++ '*' :: '/' :: (taken ++ rest')) := by simp
    rw [htext]
    exact .block hb (hgap rest' hr)

theorem LineBreak.separator {c : Char} (h : LineBreak c) : c ∈ separators := by
  rcases h with rfl | rfl <;> decide

/-- A gap in front of something else than a line break ends there whatever follows. -/
theorem Gap.spans (h : Gap text rest) {c : Char} (hc : rest.head? = some c) (hno : ¬ LineBreak c) :
    Takes Gap text rest := by
  obtain ⟨taken, htext, hgap⟩ := h.continues
  exact ⟨taken, htext, fun rest' => hgap rest' fun hall => absurd (hall c hc) hno⟩

/-- Wherever a gap has ended, a line feed would have ended it. -/
theorem Gap.spans_line (h : Gap text rest) : ∃ taken, text = taken ++ rest ∧ Spans Gap (taken ++ ['\n']) := by
  obtain ⟨taken, htext, hgap⟩ := h.continues
  refine ⟨taken, htext, fun rest' => ?_⟩
  rw [List.append_assoc]
  refine (hgap ('\n' :: rest') fun _ c hc => ?_).trans (.separator (by decide) .none)
  obtain rfl := Option.some.inj hc
  exact .inr rfl

def Sign (c : Char) (text rest : List Char) : Prop := text = c :: rest

theorem Sign.takes {c : Char} (h : Sign c text rest) : Takes (Sign c) text rest := ⟨[c], h, fun _ => rfl⟩

/-- A gap and a sign behind it. -/
theorem Gap.spans_sign {c : Char} (h : Gap text (c :: rest)) (hc : ¬ LineBreak c) :
    Takes (fun text rest => Gap text (c :: rest)) text rest := by
  refine ((h.spans rfl hc).comp (Sign.takes rfl)).mono ?_
  rintro text rest ⟨_, hgap, rfl⟩
  exact hgap

/-! ## Strings -/

theorem Quad.spans {unit : Nat} (h : Quad text unit rest) : Takes (Quad · unit ·) text rest := by
  obtain ⟨ha, hb, hc, hd⟩ := h
  exact .piece [_, _, _, _] (fun _ => .mk ha hb hc hd) rest

theorem Escape.spans {char : Char} (h : Escape text char rest) : Takes (Escape · char ·) text rest := by
  cases h with
  | @letter e c rest hl => exact .piece [e] (fun _ => .letter hl) rest
  | unit hq hu => exact hq.spans.cons fun _ _ hq => .unit hq hu
  | @pair high low text between rest hq hh hq' hl =>
    obtain ⟨second, rfl, hsecond⟩ := hq'.spans
    obtain ⟨first, rfl, hfirst⟩ := hq.spans
    refine ⟨'u' :: (first ++ '\\' :: 'u' :: second), by simp, fun rest' => ?_⟩
    have hescape := Escape.pair (hfirst ('\\' :: 'u' :: (second ++ rest'))) hh (hsecond rest') hl
    simpa using hescape

/-- An escape and what comes behind it. -/
theorem takes_escape {quote char : Char} {chars : List Char} (h : Takes (Escape · char ·) text mid)
    (hi : Takes (Inside quote · chars ·) mid rest) : Takes (Inside quote · (char :: chars) ·) ('\\' :: text) rest := by
  refine (h.comp hi).cons ?_
  rintro text rest ⟨mid, he, hi⟩
  exact he.inside hi

theorem Inside.spans {quote : Char} {chars : List Char} (h : Inside quote text chars rest) :
    Takes (Inside quote · chars ·) text rest := by
  induction h with
  | close => exact .piece [quote] (fun _ => .close) _
  | raw hc hs _ ih => exact ih.cons fun _ _ => .raw hc hs
  | letter hl _ ih => exact takes_escape (Escape.letter hl).spans ih
  | unit hq hu _ ih => exact takes_escape (Escape.unit hq hu).spans ih
  | pair hq hh hq' hl _ ih => exact takes_escape (Escape.pair hq hh hq' hl).spans ih

theorem Quoted.spans {s : String} (h : Quoted text s rest) : Takes (Quoted · s ·) text rest := by
  obtain ⟨hquote, hi⟩ := h
  exact hi.spans.cons fun _ _ => .mk hquote

/-! ## Values -/

theorem Closes.spans {bracket : Char} (hb : ¬ LineBreak bracket) (h : Closes bracket text rest) :
    Takes (Closes bracket) text rest := by
  cases h with
  | plain hg => exact (hg.spans_sign hb).mono fun _ _ => .plain
  | comma hg hg' =>
    refine ((hg.spans_sign (by unfold LineBreak; decide)).comp (hg'.spans_sign hb)).mono ?_
    rintro text rest ⟨more, hgap, hgap'⟩
    exact .comma hgap hgap'

/-- A gap in front of a text at which gaps are over. -/
theorem Gap.spans_stops (h : Gap text rest) (hs : Stops rest) (hne : rest ≠ []) : Takes Gap text rest := by
  obtain ⟨c, more, rfl⟩ := List.exists_cons_of_ne_nil hne
  exact h.spans rfl fun hc => (hs c rfl).1 hc.separator

theorem Spells.ne_nil {v : Value} (h : Spells text v rest) : text ≠ [] := by
  obtain ⟨c, more, rfl, -⟩ := h.head
  exact List.cons_ne_nil c more

theorem SpellsMember.ne_nil {m : String × Value} (h : SpellsMember text m rest) : text ≠ [] := by
  obtain ⟨hq, -, -, -⟩ := h
  obtain ⟨quote, more, rfl, -⟩ := hq.head
  exact List.cons_ne_nil quote more

theorem not_lineBreak {c : Char} (h : c ∉ separators) : ¬ LineBreak c := fun hc => h hc.separator

section

variable {text t₁ t₂ t₃ rest : List Char}

/-- One item more, led by a comma. -/
theorem takes_item {v : Value} {vs : List Value} (hg : Gap text (',' :: t₁)) (hg' : Gap t₁ t₂) (hv : Spells t₂ v t₃)
    (hfirst : Takes (Spells · v ·) t₂ t₃) (hmore : Takes (MoreItems · vs ·) t₃ rest) :
    Takes (MoreItems · (v :: vs) ·) text rest := by
  have hcomma := hg.spans_sign (not_lineBreak (by decide))
  refine (hcomma.comp ((hg'.spans_stops hv.stops hv.ne_nil).comp (hfirst.comp hmore))).mono ?_
  rintro text rest ⟨t₁, hg, t₂, hg', t₃, hv, hmore⟩
  exact .cons hg hg' hv hmore

/-- One member more, led by a comma. -/
theorem takes_member {m : String × Value} {ms : List (String × Value)} (hg : Gap text (',' :: t₁)) (hg' : Gap t₁ t₂)
    (hm : SpellsMember t₂ m t₃) (hfirst : Takes (SpellsMember · m ·) t₂ t₃)
    (hmore : Takes (MoreMembers · ms ·) t₃ rest) : Takes (MoreMembers · (m :: ms) ·) text rest := by
  have hcomma := hg.spans_sign (not_lineBreak (by decide))
  refine (hcomma.comp ((hg'.spans_stops hm.stops hm.ne_nil).comp (hfirst.comp hmore))).mono ?_
  rintro text rest ⟨t₁, hg, t₂, hg', t₃, hm, hmore⟩
  exact .cons hg hg' hm hmore

/-- A key, a colon and a value. -/
theorem takes_pair {key : String} {v : Value} (hq : Quoted text key t₁) (hg : Gap t₁ (':' :: t₂)) (hg' : Gap t₂ t₃)
    (hv : Spells t₃ v rest) (hvalue : Takes (Spells · v ·) t₃ rest) : Takes (SpellsMember · (key, v) ·) text rest := by
  have hcolon := hg.spans_sign (not_lineBreak (by decide))
  refine (hq.spans.comp (hcolon.comp ((hg'.spans_stops hv.stops hv.ne_nil).comp hvalue))).mono ?_
  rintro text rest ⟨t₁, hq, t₂, hg, t₃, hg', hv⟩
  exact .mk hq hg hg' hv

end

/-- A value takes what it takes whatever follows; the rules for lists are shown along with it. -/
theorem Spells.spans {v : Value} (h : Spells text v rest) : Takes (Spells · v ·) text rest := by
  refine @Spells.rec (fun text v rest _ => Takes (Spells · v ·) text rest)
    (fun text vs rest _ => Takes (MoreItems · vs ·) text rest)
    (fun text m rest _ => Takes (SpellsMember · m ·) text rest)
    (fun text ms rest _ => Takes (MoreMembers · ms ·) text rest)
    ?null ?yes ?no ?number ?string ?emptyArray ?array ?emptyObject ?object ?noItems ?items ?member ?noMembers
    ?members text v rest h
  case null => exact fun {rest} => .piece ['n', 'u', 'l', 'l'] (fun _ => .null) rest
  case yes => exact fun {rest} => .piece ['t', 'r', 'u', 'e'] (fun _ => .yes) rest
  case no => exact fun {rest} => .piece ['f', 'a', 'l', 's', 'e'] (fun _ => .no) rest
  case number => exact fun {l n rest} hproper hn => .piece l.chars (fun _ => .number hproper hn) rest
  case string => exact fun hq => hq.spans.mono fun _ _ => .string
  case emptyArray => exact fun hg => (hg.spans_sign (not_lineBreak (by decide))).cons fun _ _ => .emptyArray
  case emptyObject => exact fun hg => (hg.spans_sign (not_lineBreak (by decide))).cons fun _ _ => .emptyObject
  case array =>
    intro text t₁ t₂ t₃ rest v items hg hv hmore hc hfirst hitems
    have hclose := hc.spans (not_lineBreak (by decide))
    refine ((hg.spans_stops hv.stops hv.ne_nil).comp (hfirst.comp (hitems.comp hclose))).cons ?_
    rintro text rest ⟨t₁, hg, t₂, hv, t₃, hmore, hc⟩
    exact .array hg hv hmore hc
  case object =>
    intro text t₁ t₂ t₃ rest m members hg hm hmore hc hfirst hmembers
    have hclose := hc.spans (not_lineBreak (by decide))
    refine ((hg.spans_stops hm.stops hm.ne_nil).comp (hfirst.comp (hmembers.comp hclose))).cons ?_
    rintro text rest ⟨t₁, hg, t₂, hm, t₃, hmore, hc⟩
    exact .object hg hm hmore hc
  case noItems | noMembers => exact fun {rest} => .piece [] (fun _ => .nil) rest
  case items => exact fun hg hg' hv _ hfirst hmore => takes_item hg hg' hv hfirst hmore
  case members => exact fun hg hg' hm _ hfirst hmore => takes_member hg hg' hm hfirst hmore
  case member => exact fun hq hg hg' hv hvalue => takes_pair hq hg hg' hv hvalue

theorem SpellsMember.spans {m : String × Value} (h : SpellsMember text m rest) :
    Takes (SpellsMember · m ·) text rest := by
  obtain ⟨hq, hg, hg', hv⟩ := h
  exact takes_pair hq hg hg' hv hv.spans

theorem MoreItems.spans {vs : List Value} (h : MoreItems text vs rest) : Takes (MoreItems · vs ·) text rest := by
  induction vs generalizing text with
  | nil =>
    cases h
    exact .piece [] (fun _ => .nil) rest
  | cons v vs ih =>
    cases h with
    | cons hg hg' hv hmore => exact takes_item hg hg' hv hv.spans (ih hmore)

theorem MoreMembers.spans {ms : List (String × Value)} (h : MoreMembers text ms rest) :
    Takes (MoreMembers · ms ·) text rest := by
  induction ms generalizing text with
  | nil =>
    cases h
    exact .piece [] (fun _ => .nil) rest
  | cons m ms ih =>
    cases h with
    | cons hg hg' hm hmore => exact takes_member hg hg' hm hm.spans (ih hmore)

end Reshape.Grammar
