/-
  Reshape.Proofs.Json.Viable — a text is fine up to where it is reported not to be.

  When a reader gives up, the text before the place that it reports can still be made into
  what the reader was reading (`Viable`): the comment can be closed, the escape and the string
  ended, the missing sign or value supplied, the brackets closed that are still open. Behind a
  gap the supplement begins on a new line, for the gap may be a comment that would take it in. What a
  reader has found before it goes on to the next it would have found in any other text, so a
  supplement for the last one is a supplement for the whole (`Repairable.andThen`, `Repairable.gap`).

  - `parse_error_viable`: what stands before the reported position some text goes on to make a document of.
-/

import Reshape.Proofs.Json.Continuing
import Reshape.Proofs.Json.Labels

namespace Reshape

open Grammar
open Relation (Comp)

namespace Grammar

/-- The piece of text can be supplemented so that the rule takes it, whatever follows. -/
def Viable (R : List Char → List Char → Prop) (taken : List Char) : Prop := ∃ more, Spans R (taken ++ more)

def Any {α : Type} (R : List Char → α → List Char → Prop) (text rest : List Char) : Prop := ∃ a, R text a rest

variable {R S : List Char → List Char → Prop} {a b : List Char}

namespace Viable

theorem mono (h : Viable R a) (hR : ∀ text rest, R text rest → S text rest) : Viable S a := by
  obtain ⟨more, hs⟩ := h
  exact ⟨more, hs.mono hR⟩

theorem of_spans (h : Spans R a) : Viable R a := ⟨[], by rwa [List.append_nil]⟩

/-- The supplement of what comes behind is a supplement of the whole. -/
theorem behind (h : Spans R a) (h' : Viable S b) : Viable (Comp R S) (a ++ b) := by
  obtain ⟨more, hs⟩ := h'
  exact ⟨more, by rw [List.append_assoc]; exact h.comp hs⟩

/-- What is missing behind is part of the supplement. -/
theorem before (h : Viable R a) (h' : Viable S []) : Viable (Comp R S) a := by
  obtain ⟨more, hs⟩ := h
  obtain ⟨last, hs'⟩ := h'
  exact ⟨more ++ last, by rw [← List.append_assoc]; exact hs.comp hs'⟩

theorem cons {c : Char} (h : Viable R a) (hR : ∀ text rest, R text rest → S (c :: text) rest) :
    Viable S (c :: a) := by
  obtain ⟨more, hs⟩ := h
  exact ⟨more, fun rest => hR _ _ (hs rest)⟩

theorem gap : Viable Gap [] := of_spans fun _ => .none

theorem sign (c : Char) : Viable (Sign c) [] := ⟨[c], fun _ => rfl⟩

theorem string : Viable (Any Quoted) [] := ⟨['"', '"'], fun _ => ⟨_, .mk (.inl rfl) .close⟩⟩

theorem value : Viable (Any Spells) [] := ⟨['n', 'u', 'l', 'l'], fun _ => ⟨_, .null⟩⟩

end Viable

end Grammar

/-! ## Repairable outcomes -/

/-- If the outcome is a failure, the text up to there is viable. -/
def Outcome.Repairable {α : Type} (R : List Char → List Char → Prop) (c : Cursor) (o : Outcome α) : Prop :=
  ∀ f, o = .broken f → ∃ taken, c.rest = taken ++ f.cursor.rest ∧ Viable R taken

namespace Outcome.Repairable

variable {α β : Type} {R S : List Char → List Char → Prop} {c mid : Cursor} {o : Outcome α}

theorem found (a : α) (next : Cursor) : Repairable R c (.found a next) := nofun

theorem absent : Repairable R c (.absent : Outcome α) := nofun

/-- A failure is handed on as it is. -/
theorem broken {f : Failure} (ho : Repairable R c o) (h : o = .broken f) : Repairable R c (.broken f : Outcome β) := by
  rintro f' e
  cases e
  exact ho f h

theorem mono (ho : Repairable R c o) (hR : ∀ text rest, R text rest → S text rest) : Repairable S c o := by
  intro f hf
  obtain ⟨taken, hc, hv⟩ := ho f hf
  exact ⟨taken, hc, hv.mono hR⟩

/-- Where nothing has been taken yet. -/
theorem here (wanted : Expected) (h : Viable R []) : Repairable R c (.broken (.unexpected wanted c) : Outcome α) := by
  rintro f e
  cases e
  exact ⟨[], rfl, h⟩

theorem behind (h : Takes R c.rest mid.rest) (ho : Repairable S mid o) : Repairable (Comp R S) c o := by
  intro f hf
  obtain ⟨a, hc, ha⟩ := h
  obtain ⟨b, hmid, hb⟩ := ho f hf
  exact ⟨a ++ b, by rw [hc, hmid, List.append_assoc], hb.behind ha⟩

theorem cons {d : Char} (hc : c.rest = d :: mid.rest) (ho : Repairable R mid o)
    (hR : ∀ text rest, R text rest → S (d :: text) rest) : Repairable S c o := by
  intro f hf
  obtain ⟨taken, hmid, hv⟩ := ho f hf
  exact ⟨d :: taken, by rw [hc, hmid, List.cons_append], hv.cons hR⟩

/-- What would have come behind is part of the supplement. -/
theorem before (ho : Repairable R c o) (h : Viable S []) : Repairable (Comp R S) c o := by
  intro f hf
  obtain ⟨taken, hc, hv⟩ := ho f hf
  exact ⟨taken, hc, hv.before h⟩

theorem andThen {g : α → Cursor → Outcome β} (ho : Repairable R c o) (h : Viable S [])
    (hg : ∀ a next, o = .found a next → Takes R c.rest next.rest ∧ Repairable S next (g a next)) :
    Repairable (Comp R S) c (o.andThen g) := by
  cases o with
  | found a next => exact behind (hg a next rfl).1 (hg a next rfl).2
  | absent => exact absent
  | broken f => exact (ho.before h).broken rfl

theorem map (f : α → β) (ho : Repairable R c o) : Repairable R c (o.map f) := by
  cases o with
  | found a next => exact found _ _
  | absent => exact absent
  | broken f' => exact ho.broken rfl

theorem required (ho : Repairable R c o) (wanted : Expected) (h : Viable R []) :
    Repairable R c (o.required wanted c) := by
  cases o with
  | absent => exact here wanted h
  | _ => exact ho

end Outcome.Repairable

open Outcome (Repairable)

/-! ## Gaps -/

/-- What a gap reader in some state has passed over, up to where it is broken. -/
def Interrupted (f : Failure) : GapState → List Char → Prop
  | .blank, text => ∃ taken, text = taken ++ f.cursor.rest ∧ Viable Gap taken
  | .line, text => ∃ body c t, text = body ++ c :: t ∧ (∀ d ∈ body, ¬ LineBreak d) ∧ LineBreak c ∧
    ∃ taken, t = taken ++ f.cursor.rest ∧ Viable Gap taken
  | .block opened, text => f.cursor = opened ∨ ∃ body t, text = body ++ '*' :: '/' :: t ∧ ¬ ['*', '/'] <:+: body ∧
    ∃ taken, t = taken ++ f.cursor.rest ∧ Viable Gap taken

theorem skipFrom_interrupted {state : GapState} {text : List Char} {p : Position} {f : Failure}
    (h : skipFrom state text p = .broken f) : Interrupted f state text := by
  fun_induction skipFrom state text p with
  | case1 rest p ih =>
    obtain ⟨body, c, t, rfl, hbody, hc, taken, rfl, more, hv⟩ := ih h
    refine ⟨'/' :: '/' :: (body ++ c :: taken), by simp, more, fun rest => ?_⟩
    have hhead : ∀ d ∈ (c :: (taken ++ more ++ rest)).head?, LineBreak d := by
      intro d hd
      obtain rfl := Option.some.inj hd
      exact hc
    have hline := Gap.line hbody hhead (.separator hc.separator (hv rest))
    simpa using hline
  | case2 rest p ih =>
    rcases ih h with hf | ⟨body, t, rfl, hbody, taken, rfl, more, hv⟩
    · refine ⟨['/', '*'], by rw [hf]; rfl, ['*', '/'], fun rest => ?_⟩
      exact @Gap.block [] rest rest (by simp) .none
    · refine ⟨'/' :: '*' :: (body ++ '*' :: '/' :: taken), by simp, more, fun rest => ?_⟩
      have hblock := Gap.block hbody (hv rest)
      simpa using hblock
  | case3 d rest p _ _ hd ih =>
    obtain ⟨taken, rfl, hv⟩ := ih h
    exact ⟨d :: taken, rfl, hv.cons fun _ _ => .separator (isSeparator_iff.1 hd)⟩
  | case4 => cases h
  | case5 => cases h
  | case6 d rest p ih =>
    by_cases hd : LineBreak d
    · have hstate : (if d == '\r' || d == '\n' then GapState.blank else .line) = .blank :=
        if_pos (by rcases hd with rfl | rfl <;> rfl)
      rw [hstate] at h ih
      obtain ⟨taken, rfl, hv⟩ := ih h
      exact ⟨[], d, _, rfl, List.forall_mem_nil _, hd, taken, rfl, hv⟩
    · have hstate : (if d == '\r' || d == '\n' then GapState.blank else .line) = .line :=
        if_neg (by simpa [LineBreak] using hd)
      rw [hstate] at h ih
      obtain ⟨body, c, t, rfl, hbody, hc, htaken⟩ := ih h
      exact ⟨d :: body, c, t, rfl, List.forall_mem_cons.mpr ⟨hd, hbody⟩, hc, htaken⟩
  | case7 => cases h
  | case8 opened rest p ih => exact .inr ⟨[], rest, rfl, by simp, ih h⟩
  | case9 opened d rest p hclose ih =>
    rcases ih h with hf | ⟨body, t, rfl, hbody, htaken⟩
    · exact .inl hf
    · refine .inr ⟨d :: body, t, rfl, ?_, htaken⟩
      rw [List.infix_cons_iff]
      rintro (⟨more, hmore⟩ | hlater)
      · cases hmore
        exact hclose _ rfl rfl
      · exact hbody hlater
  | case10 opened p =>
    cases h
    exact .inl rfl

theorem skipGap_repairable (c : Cursor) : Repairable Gap c (skipGap c) := fun _ h => skipFrom_interrupted h

/-- A gap reader stops in front of what separates no tokens. -/
theorem skipFrom_head {state : GapState} {text : List Char} {p : Position} {next : Cursor}
    (h : skipFrom state text p = .found () next) : ∀ c ∈ next.rest.head?, c ∉ separators := by
  fun_induction skipFrom state text p with
  | case1 _ _ ih | case2 _ _ ih | case3 _ _ _ _ _ _ ih | case6 _ _ _ ih | case8 _ _ _ ih | case9 _ _ _ _ _ ih =>
    exact ih h
  | case4 d rest p _ _ hd =>
    cases h
    intro c hc
    obtain rfl := Option.some.inj hc
    exact fun hsep => hd (isSeparator_iff.2 hsep)
  | case5 | case7 =>
    cases h
    simp
  | case10 => cases h

theorem gap_takes {c next : Cursor} (h : skipGap c = .found () next) (hne : next.rest ≠ []) :
    Takes Gap c.rest next.rest := by
  obtain ⟨d, more, hd⟩ := List.exists_cons_of_ne_nil hne
  have hhead : next.rest.head? = some d := by rw [hd]; rfl
  exact (skipGap_sound h).spans hhead (not_lineBreak (skipFrom_head h d hhead))

/-- A gap and what comes behind it. At the end of the text the supplement begins on a new line. -/
theorem Outcome.Repairable.gap {α : Type} {R : List Char → List Char → Prop} {c : Cursor} {g : Cursor → Outcome α}
    (hR : Viable R []) (hg : ∀ next, Repairable R next (g next)) :
    Repairable (Comp Gap R) c ((skipGap c).andThen fun _ next => g next) := by
  cases hgap : skipGap c with
  | absent => exact .absent
  | broken f => exact ((skipGap_repairable c).before hR).broken hgap
  | found u next =>
    by_cases hne : next.rest = []
    · intro f hf
      obtain ⟨b, hb, -⟩ := hg next f hf
      obtain ⟨rfl, hend⟩ := List.append_eq_nil_iff.mp (hb.symm.trans hne)
      obtain ⟨taken, hc, hline⟩ := (skipGap_sound hgap).spans_line
      rw [hne] at hc
      exact ⟨taken, by rw [hc, hend], Viable.before ⟨['\n'], hline⟩ hR⟩
    · exact .behind (gap_takes hgap hne) (hg next)

/-! ## Strings and scalars -/

namespace Grammar.Viable

theorem escape : Viable (Any Escape) [] := ⟨['n'], fun _ => ⟨'\n', .letter (by decide)⟩⟩

/-- Behind `u`, where four digits can follow. -/
theorem unit : Viable (fun text rest => Any Escape ('u' :: text) rest) [] := by
  have hquad : ∀ rest, Quad ('0' :: '0' :: '4' :: '1' :: rest) (0 * 0x1000 + 0 * 0x100 + 4 * 0x10 + 1) rest :=
    fun rest => .mk (.inl rfl) (.inl rfl) (.inl rfl) (.inl rfl)
  exact ⟨['0', '0', '4', '1'], fun rest => ⟨_, .unit (hquad rest) (.inl (by decide))⟩⟩

theorem inside (quote : Char) : Viable (Any (Inside quote)) [] := ⟨[quote], fun _ => ⟨[], .close⟩⟩

end Grammar.Viable

theorem readUnit_repairable (c : Cursor) :
    Repairable (fun text rest => Any Escape ('u' :: text) rest) c (readUnit c) := by
  intro f hf
  obtain ⟨wanted, rfl, -⟩ := readUnit_broken hf
  exact ⟨[], rfl, .unit⟩

theorem readEscape_repairable (c : Cursor) : Repairable (Any Escape) c (readEscape c) := by
  unfold readEscape
  split
  · exact .here _ .escape
  · rename_i letter rest hc
    split
    · rename_i hu
      subst hu
      exact (Repairable.cons hc (readUnit_repairable (c.past ['u'] rest)) fun _ _ h => h).required _ .escape
    · split
      · exact .found _ _
      · exact .here _ .escape

theorem inside_of_escape {quote : Char} {text rest : List Char} (h : Comp (Any Escape) (Any (Inside quote)) text rest) :
    Any (Inside quote) ('\\' :: text) rest := by
  obtain ⟨mid, ⟨char, he⟩, chars, hi⟩ := h
  exact ⟨char :: chars, he.inside hi⟩

theorem quotedBody_repairable (quote : Char) (c : Cursor) :
    Repairable (Any (Inside quote)) c (quotedBody quote c) := by
  fun_induction quotedBody quote c with
  | case1 c hc => exact .here _ (.inside quote)
  | case2 c rest hc => exact .found _ _
  | case3 c rest char between hc _ he ih =>
    have htakes : Takes (Any Escape) (c.past ['\\'] rest).rest between.rest :=
      (readEscape_sound he).spans.mono fun _ _ h => ⟨char, h⟩
    exact Repairable.cons hc (.behind htakes (ih.map _)) fun _ _ => inside_of_escape
  | case4 => exact .absent
  | case5 c rest f hc _ he =>
    have hescape := (readEscape_repairable (c.past ['\\'] rest)).before (.inside quote)
    exact (Repairable.cons hc hescape fun _ _ => inside_of_escape).broken he
  | case6 c d rest hc hquote hslash ih =>
    refine Repairable.cons hc (ih.map _) ?_
    rintro text rest ⟨chars, hi⟩
    exact ⟨d :: chars, .raw hquote hslash hi⟩

theorem readString_repairable (c : Cursor) : Repairable (Any Quoted) c (readString c) := by
  have hquoted : ∀ {quote}, quote = '"' ∨ quote = '\'' → ∀ text rest, Any (Inside quote) text rest →
      Any Quoted (quote :: text) rest := by
    rintro quote hquote text rest ⟨chars, hi⟩
    exact ⟨_, .mk hquote hi⟩
  unfold readString
  split
  · rename_i rest hc
    exact Repairable.cons hc ((quotedBody_repairable _ _).map _) (hquoted (.inl rfl))
  · rename_i rest hc
    exact Repairable.cons hc ((quotedBody_repairable _ _).map _) (hquoted (.inr rfl))
  · exact .absent

theorem readScalar_repairable (c : Cursor) : Repairable (Any Spells) c (readScalar c) := by
  intro f hf
  rcases readScalar_broken hf with hstring | rfl
  · refine (readString_repairable c).mono ?_ f hstring
    rintro text rest ⟨s, hs⟩
    exact ⟨_, .string hs⟩
  · exact ⟨[], rfl, .value⟩

/-! ## Signs -/

theorem readChar_repairable (wanted : Char) (c : Cursor) : Repairable (Sign wanted) c (readChar wanted c) := by
  unfold readChar
  split
  · exact .absent
  · split
    · exact .found _ _
    · exact .absent

theorem readChar_takes {wanted : Char} {c next : Cursor} (h : readChar wanted c = .found () next) :
    Takes (Sign wanted) c.rest next.rest := Sign.takes (readChar_eq_found h)

/-- What was found behind a gap was found in front of something, so the gap was over there. -/
theorem behindGap_takes {α : Type} {R : List Char → List Char → Prop} {g : Cursor → Outcome α} {c next : Cursor} {a : α}
    (h : (skipGap c).andThen (fun _ mid => g mid) = .found a next)
    (hg : ∀ mid, g mid = .found a next → mid.rest ≠ [] ∧ Takes R mid.rest next.rest) :
    Takes (Comp Gap R) c.rest next.rest := by
  obtain ⟨_, mid, hgap, hfound⟩ := Outcome.andThen_eq_found h
  obtain ⟨hne, htakes⟩ := hg mid hfound
  exact (gap_takes hgap hne).comp htakes

theorem comma_repairable (c : Cursor) :
    Repairable (Comp Gap (Sign ',')) c ((skipGap c).andThen fun _ c => readChar ',' c) :=
  .gap (.sign ',') fun next => readChar_repairable ',' next

theorem comma_takes {c next : Cursor} (h : (skipGap c).andThen (fun _ c => readChar ',' c) = .found () next) :
    Takes (Comp Gap (Sign ',')) c.rest next.rest :=
  behindGap_takes h fun mid hmid => ⟨by rw [readChar_eq_found hmid]; exact List.cons_ne_nil _ _, readChar_takes hmid⟩

/-- The end of an empty list. -/
theorem readEnd_repairable_empty (close : Char) (wanted : Expected) (c : Cursor) :
    Repairable (Comp Gap (Sign close)) c (readEnd false close wanted c) := by
  unfold readEnd
  refine .mono (.gap (.before .gap (.sign close)) fun c₁ => .gap (.sign close) fun c₂ =>
    (readChar_repairable close c₂).required wanted (.sign close)) ?_
  rintro text rest ⟨t₁, hgap, t₂, hgap', hsign⟩
  exact ⟨t₂, hgap.trans hgap', hsign⟩

/-- The end of a list with something in it. -/
theorem readEnd_repairable (close : Char) (wanted : Expected) (c : Cursor) :
    Repairable (Closes close) c (readEnd true close wanted c) := by
  unfold readEnd
  have hend : ∀ c, Repairable (Comp Gap (Sign close)) c ((skipGap c).andThen fun _ c =>
      (readChar close c).required wanted c) := fun c =>
    .gap (.sign close) fun c₂ => (readChar_repairable close c₂).required wanted (.sign close)
  -- Behind the first gap there is a comma with another gap, or no comma.
  let Rest := fun text rest => Comp (Sign ',') (Comp Gap (Sign close)) text rest ∨ Comp Gap (Sign close) text rest
  have hrest : Viable Rest [] := (Viable.before .gap (.sign close)).mono fun _ _ => .inr
  refine .mono (R := Comp Gap Rest) (.gap hrest fun c₁ => ?_) ?_
  · simp only [if_true]
    split
    · rename_i next hcomma
      exact .mono (.behind (readChar_takes hcomma) (hend next)) fun _ _ => .inl
    · exact .mono (hend c₁) fun _ _ => .inr
  · rintro text rest ⟨t₁, hgap, ⟨t₂, rfl, t₃, hgap', rfl⟩ | ⟨t₂, hgap', rfl⟩⟩
    · exact .comma hgap hgap'
    · exact .plain (hgap.trans hgap')

/-! ## Values -/

/-- A list in brackets: `Listed` takes a list that may be empty, `Filled` one with something in it. -/
theorem Outcome.Repairable.list {α β : Type} {Listed Filled Body : List Char → List Char → Prop} {close : Char}
    {c : Cursor} {o : Outcome (List α)} (wanted : Expected) (k : List α → β) (ho : Repairable Listed c o)
    (hempty : ∀ last, o = .found [] last → c.rest = last.rest)
    (hfilled : ∀ x xs last, o = .found (x :: xs) last → Takes Filled c.rest last.rest)
    (hlisted : ∀ text rest, Comp Listed (Comp Gap (Sign close)) text rest → Body text rest)
    (hnone : ∀ text rest, Comp Gap (Sign close) text rest → Body text rest)
    (hbody : ∀ text rest, Comp Filled (Closes close) text rest → Body text rest) :
    Repairable Body c (o.andThen fun xs last =>
      (readEnd (!xs.isEmpty) close wanted last).andThen fun _ next => .found (k xs) next) := by
  cases o with
  | absent => exact .absent
  | broken f => exact ((ho.before (.before .gap (.sign close))).mono hlisted).broken rfl
  | found xs last =>
    cases xs with
    | nil =>
      intro f hf
      rw [hempty last rfl]
      exact ((readEnd_repairable_empty close wanted last).map fun _ => k []).mono hnone f hf
    | cons x xs =>
      exact .mono (.behind (hfilled x xs last rfl) ((readEnd_repairable close wanted last).map fun _ => k (x :: xs)))
        hbody

def FirstItems : List Char → List Char → Prop := Comp (Comp Gap (Any Spells)) (Any MoreItems)

def FirstMembers : List Char → List Char → Prop := Comp (Comp Gap (Any SpellsMember)) (Any MoreMembers)

section

variable {text rest : List Char}

theorem takes_value {v : Value} (h : Spells text v rest) : Takes (Any Spells) text rest :=
  h.spans.mono fun _ _ h => ⟨v, h⟩

theorem takes_firstItems {t₁ t₂ : List Char} {v : Value} {vs : List Value} (hg : Gap text t₁) (hv : Spells t₁ v t₂)
    (hmore : MoreItems t₂ vs rest) : Takes FirstItems text rest :=
  ((hg.spans_stops hv.stops hv.ne_nil).comp (takes_value hv)).comp (hmore.spans.mono fun _ _ h => ⟨vs, h⟩)

theorem takes_firstMembers {t₁ t₂ : List Char} {m : String × Value} {ms : List (String × Value)} (hg : Gap text t₁)
    (hm : SpellsMember t₁ m t₂) (hmore : MoreMembers t₂ ms rest) : Takes FirstMembers text rest :=
  ((hg.spans_stops hm.stops hm.ne_nil).comp (hm.spans.mono fun _ _ h => ⟨m, h⟩)).comp
    (hmore.spans.mono fun _ _ h => ⟨ms, h⟩)

theorem items_of_first (h : FirstItems text rest) : Any Items text rest := by
  obtain ⟨t₂, ⟨t₁, hg, v, hv⟩, vs, hmore⟩ := h
  exact ⟨v :: vs, .inr ⟨v, vs, t₁, t₂, rfl, hg, hv, hmore⟩⟩

theorem members_of_first (h : FirstMembers text rest) : Any Members text rest := by
  obtain ⟨t₂, ⟨t₁, hg, m, hm⟩, ms, hmore⟩ := h
  exact ⟨m :: ms, .inr ⟨m, ms, t₁, t₂, rfl, hg, hm, hmore⟩⟩

/-- An item alone is a list of items. -/
theorem firstItems_of_item (h : Comp Gap (Any Spells) text rest) : FirstItems text rest := ⟨rest, h, [], .nil⟩

theorem firstMembers_of_member (h : Comp Gap (Any SpellsMember) text rest) : FirstMembers text rest :=
  ⟨rest, h, [], .nil⟩

theorem array_of_first (h : Comp FirstItems (Closes ']') text rest) : Any Spells ('[' :: text) rest := by
  obtain ⟨t₃, ⟨t₂, ⟨t₁, hg, v, hv⟩, vs, hmore⟩, hc⟩ := h
  exact ⟨_, .array hg hv hmore hc⟩

theorem array_of_none (h : Comp Gap (Sign ']') text rest) : Any Spells ('[' :: text) rest := by
  obtain ⟨t, hg, rfl⟩ := h
  exact ⟨_, .emptyArray hg⟩

theorem array_of_items (h : Comp (Any Items) (Comp Gap (Sign ']')) text rest) : Any Spells ('[' :: text) rest := by
  obtain ⟨t₃, ⟨vs, ⟨-, rfl⟩ | ⟨v, more, t₁, t₂, -, hg, hv, hmore⟩⟩, hend⟩ := h
  · exact array_of_none hend
  · obtain ⟨t, hg', rfl⟩ := hend
    exact ⟨_, .array hg hv hmore (.plain hg')⟩

theorem object_of_first (h : Comp FirstMembers (Closes '\x7d') text rest) : Any Spells ('\x7b' :: text) rest := by
  obtain ⟨t₃, ⟨t₂, ⟨t₁, hg, m, hm⟩, ms, hmore⟩, hc⟩ := h
  exact ⟨_, .object hg hm hmore hc⟩

theorem object_of_none (h : Comp Gap (Sign '\x7d') text rest) : Any Spells ('\x7b' :: text) rest := by
  obtain ⟨t, hg, rfl⟩ := h
  exact ⟨_, .emptyObject hg⟩

theorem object_of_members (h : Comp (Any Members) (Comp Gap (Sign '\x7d')) text rest) :
    Any Spells ('\x7b' :: text) rest := by
  obtain ⟨t₃, ⟨ms, ⟨-, rfl⟩ | ⟨m, more, t₁, t₂, -, hg, hm, hmore⟩⟩, hend⟩ := h
  · exact object_of_none hend
  · obtain ⟨t, hg', rfl⟩ := hend
    exact ⟨_, .object hg hm hmore (.plain hg')⟩

theorem moreItems_of_item (h : Comp (Comp Gap (Sign ',')) (FirstItems) text rest) : Any MoreItems text rest := by
  obtain ⟨t₁, ⟨t, hg, rfl⟩, t₃, ⟨t₂, hg', v, hv⟩, vs, hmore⟩ := h
  exact ⟨v :: vs, .cons hg hg' hv hmore⟩

theorem moreMembers_of_member (h : Comp (Comp Gap (Sign ',')) FirstMembers text rest) : Any MoreMembers text rest := by
  obtain ⟨t₁, ⟨t, hg, rfl⟩, t₃, ⟨t₂, hg', m, hm⟩, ms, hmore⟩ := h
  exact ⟨m :: ms, .cons hg hg' hm hmore⟩

/-- A key, a colon behind a gap, and a value behind another. -/
theorem member_of_parts (h : Comp (Any Quoted) (Comp Gap (Comp (Sign ':') (Comp Gap (Any Spells)))) text rest) :
    Any SpellsMember text rest := by
  obtain ⟨t₁, ⟨key, hq⟩, t, hg, t₂, rfl, t₃, hg', v, hv⟩ := h
  exact ⟨(key, v), .mk hq hg hg' hv⟩

end

theorem Grammar.Viable.member : Viable (Any SpellsMember) [] :=
  Viable.mono (.before .string (.before .gap (.before (.sign ':') (.before .gap .value)))) fun _ _ => member_of_parts

theorem Grammar.Viable.firstItems : Viable FirstItems [] :=
  Viable.mono (.before .gap .value) fun _ _ => firstItems_of_item

theorem Grammar.Viable.firstMembers : Viable FirstMembers [] :=
  Viable.mono (.before .gap .member) fun _ _ => firstMembers_of_member

structure AllRepairable (depth : Nat) : Prop where
  node : ∀ c, Repairable (Any Spells) c (readNode depth c)
  items : ∀ c, Repairable (Any Items) c (readItems depth c)
  moreItems : ∀ c, Repairable (Any MoreItems) c (readMoreItems depth c)
  member : ∀ c, Repairable (Comp Gap (Any SpellsMember)) c (readMember depth c)
  members : ∀ c, Repairable (Any Members) c (readMembers depth c)
  moreMembers : ∀ c, Repairable (Any MoreMembers) c (readMoreMembers depth c)

theorem allRepairable_zero : AllRepairable 0 where
  node _ := by rw [readNode]; exact .absent
  items c := by rw [readItems]; exact .found _ _
  moreItems c := by rw [readMoreItems]; exact .found _ _
  member _ := by rw [readMember]; exact .absent
  members c := by rw [readMembers]; exact .found _ _
  moreMembers c := by rw [readMoreMembers]; exact .found _ _

namespace AllRepairable

variable {depth : Nat} (ih : AllRepairable depth) (c : Cursor)
include ih

theorem object_repairable (k : List (Member Tree) → Tree) :
    Repairable (fun text rest => Any Spells ('\x7b' :: text) rest) c ((readMembers depth c).andThen fun ms last =>
      (readEnd (!ms.isEmpty) '\x7d' .memberEnd last).andThen fun _ next => .found (k ms) next) := by
  refine Repairable.list .memberEnd k (ih.members c) (fun last h => ?_) (fun m ms last h => ?_)
    (fun _ _ => object_of_members) (fun _ _ => object_of_none) (fun _ _ => object_of_first)
  · rcases (sound depth).members h with ⟨-, hrest⟩ | ⟨m, ms, t₁, t₂, hms, -⟩
    · exact hrest
    · cases hms
  · rcases (sound depth).members h with ⟨hms, -⟩ | ⟨m, ms, t₁, t₂, -, hg, hm, hmore⟩
    · cases hms
    · exact takes_firstMembers hg hm hmore

theorem array_repairable (k : List Tree → Tree) :
    Repairable (fun text rest => Any Spells ('[' :: text) rest) c ((readItems depth c).andThen fun ts last =>
      (readEnd (!ts.isEmpty) ']' .itemEnd last).andThen fun _ next => .found (k ts) next) := by
  refine Repairable.list .itemEnd k (ih.items c) (fun last h => ?_) (fun t ts last h => ?_)
    (fun _ _ => array_of_items) (fun _ _ => array_of_none) (fun _ _ => array_of_first)
  · rcases (sound depth).items h with ⟨-, hrest⟩ | ⟨v, vs, t₁, t₂, hvs, -⟩
    · exact hrest
    · cases hvs
  · rcases (sound depth).items h with ⟨hvs, -⟩ | ⟨v, vs, t₁, t₂, -, hg, hv, hmore⟩
    · cases hvs
    · exact takes_firstItems hg hv hmore

theorem node_succ : Repairable (Any Spells) c (readNode (depth + 1) c) := by
  rw [readNode]
  split
  · rename_i rest hc
    exact Repairable.cons hc (ih.object_repairable ⟨rest, _⟩ _) fun _ _ h => h
  · rename_i rest hc
    exact Repairable.cons hc (ih.array_repairable ⟨rest, _⟩ _) fun _ _ h => h
  · exact (readScalar_repairable c).map _

/-- Behind a gap too. -/
theorem nodeBehindGap : Repairable (Comp Gap (Any Spells)) c ((skipGap c).andThen fun _ c => readNode depth c) :=
  .gap .value fun next => ih.node next

omit ih in
theorem nodeBehindGap_takes {c next : Cursor} {t : Tree}
    (h : (skipGap c).andThen (fun _ c => readNode depth c) = .found t next) :
    Takes (Comp Gap (Any Spells)) c.rest next.rest :=
  behindGap_takes h fun _ hnode => ⟨((sound depth).node hnode).ne_nil, takes_value ((sound depth).node hnode)⟩

omit ih in
theorem member_takes {c next : Cursor} {m : Member Tree} (h : readMember depth c = .found m next) :
    Takes (Comp Gap (Any SpellsMember)) c.rest next.rest := by
  obtain ⟨t, hg, hm⟩ := (sound depth).member h
  exact (hg.spans_stops hm.stops hm.ne_nil).comp (hm.spans.mono fun _ _ h => ⟨_, h⟩)

theorem items_succ : Repairable (Any Items) c (readItems (depth + 1) c) := by
  rw [readItems]
  split
  · exact .found _ _
  · rename_i hbroken
    exact ((ih.nodeBehindGap c).mono fun _ _ h => items_of_first (firstItems_of_item h)).broken hbroken
  · rename_i item next hfound
    exact .mono (.behind (nodeBehindGap_takes hfound) ((ih.moreItems next).map _)) fun _ _ => items_of_first

theorem moreItems_succ : Repairable (Any MoreItems) c (readMoreItems (depth + 1) c) := by
  rw [readMoreItems]
  split
  · exact .found _ _
  · rename_i hbroken
    exact (((comma_repairable c).before .firstItems).mono fun _ _ => moreItems_of_item).broken hbroken
  · rename_i behind hcomma
    refine .mono (.behind (comma_takes hcomma) ?_) fun _ _ => moreItems_of_item
    split
    · exact .found _ _
    · rename_i hbroken
      exact ((ih.nodeBehindGap behind).mono fun _ _ => firstItems_of_item).broken hbroken
    · rename_i item next hfound
      exact .behind (nodeBehindGap_takes hfound) ((ih.moreItems next).map _)

theorem member_succ : Repairable (Comp Gap (Any SpellsMember)) c (readMember (depth + 1) c) := by
  rw [readMember]
  have hvalue : Viable (Comp Gap (Any Spells)) [] := .before .gap .value
  have hcolon : Viable (Comp Gap (Comp (Sign ':') (Comp Gap (Any Spells)))) [] :=
    .before .gap (.before (.sign ':') hvalue)
  refine .gap .member fun start => .mono (.andThen (readString_repairable start) hcolon fun key c₁ hkey => ?_)
    fun _ _ => member_of_parts
  refine ⟨(readString_sound hkey).spans.mono fun _ _ h => ⟨key, h⟩, ?_⟩
  refine .gap (.before (.sign ':') hvalue) fun c₂ => ?_
  refine .andThen ((readChar_repairable ':' c₂).required .colon (.sign ':')) hvalue fun _ c₃ hsign => ?_
  refine ⟨readChar_takes (Outcome.required_eq_found hsign), ?_⟩
  exact .gap .value fun c₄ => ((ih.node c₄).required .value .value).map _

theorem members_succ : Repairable (Any Members) c (readMembers (depth + 1) c) := by
  rw [readMembers]
  split
  · exact .found _ _
  · rename_i hbroken
    exact ((ih.member c).mono fun _ _ h => members_of_first (firstMembers_of_member h)).broken hbroken
  · rename_i m next hfound
    exact .mono (.behind (member_takes hfound) ((ih.moreMembers next).map _)) fun _ _ => members_of_first

theorem moreMembers_succ : Repairable (Any MoreMembers) c (readMoreMembers (depth + 1) c) := by
  rw [readMoreMembers]
  split
  · exact .found _ _
  · rename_i hbroken
    exact (((comma_repairable c).before .firstMembers).mono fun _ _ => moreMembers_of_member).broken hbroken
  · rename_i behind hcomma
    refine .mono (.behind (comma_takes hcomma) ?_) fun _ _ => moreMembers_of_member
    split
    · exact .found _ _
    · rename_i hbroken
      exact ((ih.member behind).mono fun _ _ => firstMembers_of_member).broken hbroken
    · rename_i m next hfound
      exact .behind (member_takes hfound) ((ih.moreMembers next).map _)

end AllRepairable

theorem allRepairable (depth : Nat) : AllRepairable depth := by
  induction depth with
  | zero => exact allRepairable_zero
  | succ depth ih =>
    exact ⟨ih.node_succ, ih.items_succ, ih.moreItems_succ, ih.member_succ, ih.members_succ, ih.moreMembers_succ⟩

/-! ## Whole texts -/

def Whole : List Char → List Char → Prop := Comp Gap (Comp (Any Spells) Gap)

theorem reading_repairable (text : List Char) : Repairable Whole (.start text) (reading text) := by
  refine .gap (.before .value .gap) fun start => ?_
  refine .andThen (((allRepairable _).node start).required .value .value) .gap fun tree c hnode => ?_
  exact ⟨takes_value ((sound _).node (Outcome.required_eq_found hnode)), (skipGap_repairable c).map fun _ => tree⟩

/-- A document is over before more text comes. -/
theorem reading_takes {text : List Char} {t : Tree} {last : Cursor} (h : reading text = .found t last)
    (hne : last.rest ≠ []) : Takes Whole text last.rest := by
  obtain ⟨_, start, hgap, h⟩ := Outcome.andThen_eq_found h
  obtain ⟨t, c, hnode, h⟩ := Outcome.andThen_eq_found h
  obtain ⟨_, last', hgap', h⟩ := Outcome.andThen_eq_found h
  obtain ⟨-, rfl⟩ := Outcome.found.inj h
  have hvalue := (sound _).node (Outcome.required_eq_found hnode)
  exact (gap_takes hgap hvalue.ne_nil).comp ((takes_value hvalue).comp (gap_takes hgap' hne))

/-- The text up to where it is reported not to be a document can be supplemented. -/
theorem readRaw_viable {text : List Char} {f : Failure} (h : readRaw text = .error f) :
    ∃ taken, text = taken ++ f.cursor.rest ∧ Viable Whole taken := by
  rcases readRaw_eq_error h with hbroken | ⟨t, last, hfound, hne, rfl⟩
  · exact reading_repairable text f hbroken
  · obtain ⟨taken, htext, hspans⟩ := reading_takes hfound hne
    exact ⟨taken, htext, .of_spans hspans⟩

theorem withoutMark_append {before : List Char} (h : before ≠ []) (after : List Char) :
    withoutMark (before ++ after) = withoutMark before ++ after := by
  obtain ⟨c, more, rfl⟩ := List.exists_cons_of_ne_nil h
  by_cases hc : c = '\ufeff'
  · subst hc
    rfl
  · have hhead : ∀ text : List Char, (c :: text).head? ≠ some '\ufeff' := fun text e => hc (Option.some.inj e)
    rw [withoutMark_of_head (hhead more), List.cons_append, withoutMark_of_head (hhead _)]

/-- A text that is viable, apart from the mark that may lead it, some text goes on to make a document of. -/
theorem document_of_viable {before : List Char} (h : Viable Whole (withoutMark before)) :
    ∃ more d, Document.parse (String.ofList (before ++ more)) = .ok d := by
  obtain ⟨more, hs⟩ := h
  obtain ⟨t, hgap, u, ⟨v, hv⟩, hend⟩ := hs []
  rw [List.append_nil] at hgap
  have hmarked : before ++ more = withoutMark before ++ more ∨
      before ++ more = '\ufeff' :: (withoutMark before ++ more) := by
    unfold withoutMark
    split
    · exact .inr rfl
    · exact .inl rfl
  have hdocument : Grammar.Document (String.ofList (before ++ more)).toList v := by
    rw [String.toList_ofList]
    exact ⟨withoutMark before ++ more, t, u, hmarked, hgap, hv, hend⟩
  obtain ⟨d, hd, -⟩ := parse_eq_iff.mpr hdocument
  exact ⟨more, d, hd⟩

/-- What stands in front of a place that has the position at which a text is reported not to be a document, some
    text goes on to make a document of; and there is such a place. -/
theorem parse_error_viable {text : String} {f : Failure} (h : Document.parse text = .error f) :
    (∃ before after, text.toList = before ++ after ∧ f.position = .behind (withoutMark before)) ∧
      ∀ before after, text.toList = before ++ after → f.position = .behind (withoutMark before) →
        ∃ more d, Document.parse (String.ofList (before ++ more)) = .ok d := by
  have hraw := readRaw_of_parse h
  obtain ⟨taken, htext, hplace, -⟩ := readRaw_reported hraw
  obtain ⟨taken', htext', hviable⟩ := readRaw_viable hraw
  have hsame : withoutMark text.toList = taken ++ f.cursor.rest := htext
  obtain rfl : taken = taken' := List.append_cancel_right (hsame.symm.trans htext')
  have hposition : f.position = .behind taken := hplace.trans (Position.past_start taken)
  constructor
  · by_cases hmark : text.toList.head? = some '\ufeff'
    · obtain ⟨rest, hrest⟩ := List.head?_eq_some_iff.mp hmark
      rw [hrest, withoutMark_cons] at hsame
      refine ⟨'\ufeff' :: taken, f.cursor.rest, by rw [hrest, hsame, List.cons_append], ?_⟩
      rw [withoutMark_cons, hposition]
    · rw [withoutMark_of_head hmark] at hsame
      refine ⟨taken, f.cursor.rest, hsame, ?_⟩
      have hhead : taken.head? ≠ some '\ufeff' := by
        intro hhead
        obtain ⟨more, rfl⟩ := List.head?_eq_some_iff.mp hhead
        rw [hsame] at hmark
        exact hmark rfl
      rw [withoutMark_of_head hhead, hposition]
  · intro before after hsplit hp
    by_cases hnil : before = []
    · subst hnil
      exact document_of_viable (.before .gap (.before .value .gap))
    · rw [hsplit, withoutMark_append hnil] at hsame
      have htaken : withoutMark before = taken := Position.behind_inj hsame (hp.symm.trans hposition)
      exact document_of_viable (htaken ▸ hviable)

def cutShort : String := "\ufeff[1, // one\n \x7b'k': \"\\ud83d\\u0041"

/-- The text before the half of a pair, with its mark, can be continued to a document. -/
theorem cutShort_viable : ∃ f, Document.parse cutShort = .error f ∧ f.position = ⟨2, 11⟩ ∧
    f.text = "invalid surrogate pair, found 'd'" ∧
    ∃ before after, cutShort.toList = before ++ after ∧ f.position = .behind (withoutMark before) ∧
      ∃ more d, Document.parse (String.ofList (before ++ more)) = .ok d := by
  have hcomplaint : complaint? cutShort = some (⟨2, 11⟩, "invalid surrogate pair, found 'd'") := by decide +kernel
  obtain ⟨f, hf, hposition, htext⟩ := complaint?_eq_some hcomplaint
  obtain ⟨⟨before, after, hsplit, hplace⟩, hviable⟩ := parse_error_viable hf
  exact ⟨f, hf, hposition, htext, before, after, hsplit, hplace, hviable before after hsplit hplace⟩

end Reshape
