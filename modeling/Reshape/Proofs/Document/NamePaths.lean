/-
  Reshape.Proofs.Document.NamePaths — a path of names leads from member to member.

  Names with dots between them are the plainest of loose paths. Each is brought into the strict
  spelling, as it is or escaped in quotes, and read again from there: what is read should be the
  name that was written, whatever characters are in it. It is, but for controls. In quotes a strict
  path must escape them, and the strict spelling of a loose name leaves them as they are. So a name
  with a control in it makes the path none at all, and a member of that name cannot be reached.

  - `DottedNames`: what names can be put together to a path.
  - `names_read`: without controls, the strict spelling is read as the names.
  - `names_unread`: with one, it is not read as anything.
  - `locations_names`: what a query of names finds in a value is what the keys lead to.
  - `query_names`: the path finds just the node that the keys lead to; with a control it is refused.
-/

import Reshape.Proofs.Document.Querying
import Reshape.Proofs.Path.LooseSegments

namespace Reshape

namespace Path

variable {name text rest left : List Char} {names : List String} {segment other : Segment} {q : Query} {root v : Value}
variable {l : Location}

/-! ## Reading one name -/

/-- The name has a control in it, which a string in quotes cannot hold as it is. -/
def HasControl (name : List Char) : Prop := ∃ c ∈ name, c.toNat < 0x20

instance : DecidablePred HasControl := List.decidableBEx fun c : Char => c.toNat < 0x20

theorem dotted_of_identifier (h : isIdentifier name = true) : Dotted name (.name (String.ofList name)) := by
  cases name with
  | nil => cases h
  | cons c rest =>
    simp only [isIdentifier, isLetter, Bool.and_eq_true, Bool.or_eq_true, List.all_eq_true] at h
    obtain ⟨hfirst, hothers⟩ := h
    refine .name ?_ fun d hd => ?_
    · simp only [startsName, Bool.or_eq_true, Bool.and_eq_true]
      exact Or.inl hfirst
    · have hd := hothers d hd
      simp only [startsName, isDigit, Bool.or_eq_true, Bool.and_eq_true]
      rcases hd with (hletter | hdigit) | hunderscore
      · exact Or.inl (Or.inl (Or.inl hletter))
      · exact Or.inr hdigit
      · exact Or.inl (Or.inl (Or.inr hunderscore))

/-- A name with a control is put in brackets and quotes. -/
theorem HasControl.strict (hc : HasControl name) : (LooseSegment.name name).strict = bracketed name := by
  refine if_neg fun hbare => ?_
  obtain ⟨c, hm, hcontrol⟩ := hc
  rcases bare_iff.mp hbare with rfl | hid
  · rw [List.mem_singleton.mp hm] at hcontrol
    exact absurd hcontrol (by decide)
  · exact (dotted_of_identifier hid).not_control c hm hcontrol

/-- The strict form of a name without controls is the segment that selects the members of this name. -/
theorem heads_name (hn : name ≠ []) (hw : name ≠ ['*']) (hc : ¬ HasControl name) (hb : Bounded rest) :
    Heads ((LooseSegment.name name).strict ++ rest) (.mk false [.name (String.ofList name)]) rest := by
  by_cases hbare : Bare name
  · have hid : isIdentifier name = true := (bare_iff.mp hbare).resolve_left hw
    have hstrict : (LooseSegment.name name).strict = memberChars ['.'] name := by
      rw [memberChars_of_ne_nil hn]
      rfl
    rw [hstrict]
    exact (dotted_of_identifier hid).heads hb
  · have hstrict : (LooseSegment.name name).strict = bracketed name := if_neg hbare
    rw [hstrict, bracketed_append]
    exact .bracket rfl (selects_quotedName fun c hm hcontrol => hc ⟨c, hm, hcontrol⟩)

/-- A control breaks off the string that a name is quoted in. -/
theorem readBody?_quotedName_control (hc : HasControl name) (rest : List Char) :
    readBody? '\'' (name.flatMap quotedNameChar ++ rest) = none := by
  induction name with
  | nil =>
    obtain ⟨c, hm, -⟩ := hc
    cases hm
  | cons c name ih =>
    rw [List.flatMap_cons, List.append_assoc, readBody?_quotedNameChar]
    split
    · rfl
    · rename_i hplain
      obtain ⟨d, hd, hdc⟩ := hc
      have hrest : HasControl name := by
        rcases List.mem_cons.mp hd with rfl | hd
        · exact absurd hdc hplain
        · exact ⟨d, hd, hdc⟩
      rw [ih hrest]
      rfl

/-- The strict form of a name with a control is no segment. -/
theorem not_heads_control (hc : HasControl name) : ¬ Heads (bracketed name ++ rest) segment left := by
  intro h
  have hselector : ∀ n, readSelector? n (quotedName name ++ ']' :: rest) = none := by
    intro n
    have hne : ∀ c ≠ '\'', ∀ more, quotedName name ++ ']' :: rest ≠ c :: more := fun c hc more e =>
      hc (List.cons.inj e).1.symm
    have hquoted : readQuoted? (quotedName name ++ ']' :: rest) = none := by
      rw [quotedName, List.cons_append, List.append_assoc, readQuoted?_of_quote isQuote_single,
        readBody?_quotedName_control hc]
      rfl
    cases n with
    | zero => rfl
    | succ n =>
      rw [readSelector?_other n (hne '*' (by decide)) (hne '?' (by decide)), hquoted]
      rfl
  have hselectors : ∀ n, readSelectors? n (quotedName name ++ ']' :: rest) = none := by
    intro n
    have hskip : skipBlanks (quotedName name ++ ']' :: rest) = quotedName name ++ ']' :: rest := rfl
    cases n with
    | zero => rfl
    | succ n => rw [readSelectors?, hskip, hselector]
  have hstart : segmentStart (bracketed name ++ rest) = .bracket false (quotedName name ++ ']' :: rest) := by
    rw [bracketed_append]
    rfl
  have hread := h.read (Nat.le_refl _)
  rw [readSegment?_eq, hstart] at hread
  simp only [hselectors] at hread
  cases hread

/-! ## Reading names -/

/-- A text begins with one segment at most. -/
theorem Heads.unique (h : Heads text segment rest) (h' : Heads text other left) : segment = other ∧ rest = left :=
  Prod.mk.inj (Option.some.inj ((h.read (Nat.le_refl _)).symm.trans (h'.read (Nat.le_refl _))))

/-- Behind its first segment, a text is the rest of its query. -/
theorem Reads.behind (h : Reads text q) (hh : Heads text segment rest) : ∃ more, Reads rest more := by
  cases h with
  | nil => exact absurd hh.shorter (Nat.not_lt_zero _)
  | cons head tail =>
    obtain ⟨-, rfl⟩ := head.unique hh
    exact ⟨_, tail⟩

@[mk_iff]
structure ProperName (n : String) : Prop where
  nonempty : n ≠ ""
  no_wildcard : n ≠ "*"
  no_dot : '.' ∉ n.toList
  no_bracket : '[' ∉ n.toList

instance : DecidablePred ProperName := fun n => decidable_of_iff' _ (properName_iff n)

def nameSegments (names : List String) : List LooseSegment := names.map fun n => .name n.toList

def nameQuery (names : List String) : Query := names.map fun n => .mk false [.name n]

theorem nameSegments_proper (h : ∀ n ∈ names, ProperName n) : ∀ s ∈ nameSegments names, s.Proper := by
  intro s hs
  obtain ⟨n, hn, rfl⟩ := List.mem_map.mp hs
  exact ⟨fun e => (h n hn).nonempty (String.toList_eq_nil_iff.mp e), (h n hn).no_dot, (h n hn).no_bracket⟩

/-- The first name is a segment of the strict spelling, if it has no controls. -/
theorem heads_names {n : String} (h : ∀ m ∈ n :: names, ProperName m) (hc : ¬ HasControl n.toList) :
    Heads ((nameSegments (n :: names)).flatMap LooseSegment.strict) (.mk false [.name n])
      ((nameSegments names).flatMap LooseSegment.strict) := by
  have hn := h n List.mem_cons_self
  have hne : n.toList ≠ [] := fun e => hn.nonempty (String.toList_eq_nil_iff.mp e)
  have hw : n.toList ≠ ['*'] := fun e => hn.no_wildcard (String.toList_inj.mp e)
  have hb := bounded_strict (nameSegments_proper fun m hm => h m (List.mem_cons_of_mem _ hm))
  have heads := heads_name hne hw hc hb
  rwa [String.ofList_toList] at heads

/-- Names without controls are read as they were written. -/
theorem names_read (h : ∀ n ∈ names, ProperName n) (hc : ∀ n ∈ names, ¬ HasControl n.toList) :
    Reads ((nameSegments names).flatMap LooseSegment.strict) (nameQuery names) := by
  induction names with
  | nil => exact .nil
  | cons n rest ih =>
    exact .cons (heads_names h (hc n List.mem_cons_self))
      (ih (fun m hm => h m (List.mem_cons_of_mem _ hm)) fun m hm => hc m (List.mem_cons_of_mem _ hm))

/-- Names of which one has a control are not read as anything. -/
theorem names_unread (h : ∀ n ∈ names, ProperName n) (hc : ∃ n ∈ names, HasControl n.toList) :
    ¬ Reads ((nameSegments names).flatMap LooseSegment.strict) q := by
  induction names generalizing q with
  | nil =>
    obtain ⟨n, hn, -⟩ := hc
    cases hn
  | cons n rest ih =>
    intro hreads
    by_cases hfirst : HasControl n.toList
    · have htext : (nameSegments (n :: rest)).flatMap LooseSegment.strict =
          bracketed n.toList ++ (nameSegments rest).flatMap LooseSegment.strict := by
        rw [nameSegments, List.map_cons, List.flatMap_cons, hfirst.strict]
        rfl
      rw [htext] at hreads
      generalize htext' : bracketed n.toList ++ (nameSegments rest).flatMap LooseSegment.strict = text at hreads
      cases hreads with
      | nil => cases htext'
      | cons head tail => exact not_heads_control hfirst (htext' ▸ head)
    · obtain ⟨m, hm, hcontrol⟩ := hc
      have hlater : m ∈ rest := by
        rcases List.mem_cons.mp hm with rfl | hm
        · exact absurd hcontrol hfirst
        · exact hm
      obtain ⟨more, hmore⟩ := hreads.behind (heads_names h hfirst)
      exact ih (fun k hk => h k (List.mem_cons_of_mem _ hk)) ⟨m, hlater, hcontrol⟩ hmore

/-! ## The path of names -/

@[mk_iff]
structure DottedNames (names : List String) : Prop where
  nonempty : names ≠ []
  proper : ∀ n ∈ names, ProperName n
  /-- The first does not begin like a root marker. -/
  unmarked : ∀ n ∈ names.head?, n.toList.head? ≠ some '$' ∧ n.toList.head? ≠ some '@'
  /-- There are no blanks around them. -/
  trimmed : trimBlank (".".intercalate names).toList = (".".intercalate names).toList

instance : DecidablePred DottedNames := fun names => decidable_of_iff' _ (dottedNames_iff names)

theorem toList_intercalate_dots (n : String) (rest : List String) :
    (".".intercalate (n :: rest)).toList = n.toList ++ (nameSegments rest).flatMap LooseSegment.text := by
  rw [String.toList_intercalate]
  induction rest generalizing n with
  | nil => simp [nameSegments]
  | cons m rest ih =>
    rw [List.map_cons, List.map_cons, List.intercalate_cons_cons, ← List.map_cons, ih m]
    simp [nameSegments, LooseSegment.text]

/-- The strict spelling of the path is that of each name. -/
theorem DottedNames.normalize (h : DottedNames names) :
    normalize (".".intercalate names).toList = '$' :: (nameSegments names).flatMap LooseSegment.strict := by
  obtain ⟨n, rest, rfl⟩ := List.exists_cons_of_ne_nil h.nonempty
  have hmarker := h.unmarked n rfl
  have hspelled : SpelledOut (".".intercalate (n :: rest)).toList (nameSegments (n :: rest)) := by
    rw [toList_intercalate_dots]
    exact .undotted hmarker.1 hmarker.2 (nameSegments rest)
  have hproper := nameSegments_proper h.proper
  rw [Path.normalize, h.trimmed, hspelled.withoutMarker hproper, normalizeSegments_text hproper]

/-! ## What a query of names finds -/

theorem applyAll_nil (segments : List Segment) : applyAll root [] segments = [] := by
  induction segments with
  | nil => rfl
  | cons segment rest ih =>
    cases segment
    exact ih

/-- From a find on, a query of names finds what the keys lead to. -/
theorem applyAll_names (root v : Value) (l : Location) (names : List String) :
    applyAll root [⟨l, v⟩] (nameQuery names) =
      ((v.at? (names.map Step.key)).map fun w => Find.mk (l ++ names.map Step.key) w).toList := by
  induction names generalizing v l with
  | nil => simp [nameQuery, applyAll, Value.at?]
  | cons n rest ih =>
    have hstep : Segment.apply root [⟨l, v⟩] (.mk false [.name n]) =
        ((v.child? (.key n)).map fun w => Find.mk (l ++ [.key n]) w).toList := by
      cases hc : v.child? (.key n) with
      | none => simp [Segment.apply, pickAll, Selector.pick, hc]
      | some w => simp [Segment.apply, pickAll, Selector.pick, hc]
    show applyAll root (Segment.apply root [⟨l, v⟩] (.mk false [.name n])) (nameQuery rest) = _
    rw [hstep, List.map_cons, Value.at?]
    cases v.child? (.key n) with
    | none => exact applyAll_nil _
    | some w =>
      have hrest := ih w (l ++ [.key n])
      rw [List.append_assoc] at hrest
      exact hrest

theorem locations_names (v : Value) (names : List String) :
    Query.locations (nameQuery names) v = ((v.at? (names.map Step.key)).map fun _ => names.map Step.key).toList := by
  rw [Query.locations, Query.select, applyAll_names]
  cases v.at? (names.map Step.key) <;> rfl

end Path

namespace Document

variable {d : Document} {top x : NodeId} {names : List String}

/-! ## Following names -/

theorem child?_key (d : Document) (id : NodeId) (key : String) : d.child? id (.key key) = d.get? id key := by
  rw [child?, get?, member?, members]
  cases d.content id <;> rfl

/-- Locations of keys are followed member by member. -/
theorem at?_keys (d : Document) (top : NodeId) (names : List String) :
    d.at? top (names.map Step.key) = names.foldlM d.get? top := by
  induction names generalizing top with
  | nil => rfl
  | cons n rest ih =>
    rw [List.map_cons, at?, child?_key, List.foldlM_cons]
    cases d.get? top n with
    | none => rfl
    | some part => exact ih part

theorem tokenPart?_of_get? {part : NodeId} {key : String} (h : d.get? top key = some part) :
    d.tokenPart? top key.toList = some part := by
  rw [tokenPart?, content_of_isObject (isObject_of_get? h)]
  simp only [String.ofList_toList, h]

/-- The pointer of keys leads where the keys do. -/
theorem resolve?_keys (h : names.foldlM d.get? top = some x) :
    d.resolve? top (Location.pointer (names.map Step.key)) = some x := by
  have htexts : (names.map Step.key).map Step.text = names.map String.toList := by
    rw [List.map_map]
    rfl
  rw [resolve?, pointerTokens?_pointer, htexts, Option.bind_some]
  induction names generalizing top with
  | nil => exact h
  | cons n rest ih =>
    rw [List.foldlM_cons] at h
    obtain ⟨part, hpart, hrest⟩ := Option.bind_eq_some_iff.mp h
    rw [List.map_cons, followTokens?, tokenPart?_of_get? hpart]
    exact ih hrest (by rw [List.map_map]; rfl)

/-- A path of names without controls finds just the node that the names lead to, from member to member, and
    nothing if one of them is missing or asked of something that is no object. A path with a control in a name is
    refused. -/
theorem query_names (h : d.WellFormed) (hn : Path.DottedNames names) (top : NodeId) :
    ((∀ n ∈ names, ¬ Path.HasControl n.toList) →
      d.query top (".".intercalate names) = .ok (names.foldlM d.get? top).toList) ∧
    ((∃ n ∈ names, Path.HasControl n.toList) → ∃ malformed, d.query top (".".intercalate names) = .error malformed) := by
  constructor
  · intro hc
    have hread : Path.Query.read (Path.normalize (".".intercalate names).toList) = .ok (Path.nameQuery names) :=
      Path.read_eq_ok_iff.mpr ⟨_, hn.normalize, Path.names_read hn.proper hc⟩
    have hfound : (Path.nameQuery names).locations (d.value top) =
        ((names.foldlM d.get? top).map fun _ => names.map Step.key).toList := by
      rw [Path.locations_names, h.toLinked.value_at?, at?_keys, Option.map_map]
      rfl
    rw [query, hread]
    show Except.ok (((Path.nameQuery names).locations (d.value top)).filterMap fun location =>
      d.resolve? top location.pointer) = _
    rw [hfound]
    cases hx : names.foldlM d.get? top with
    | none => rfl
    | some x => simp [resolve?_keys hx]
  · intro hc
    cases hread : Path.Query.read (Path.normalize (".".intercalate names).toList) with
    | error malformed => exact ⟨malformed, by rw [query, hread]; rfl⟩
    | ok q =>
      obtain ⟨text, htext, hreads⟩ := Path.read_eq_ok_iff.mp hread
      rw [hn.normalize] at htext
      obtain ⟨-, rfl⟩ := List.cons.inj htext
      exact absurd hreads (Path.names_unread hn.proper hc)

def quotedMembers : Document :=
  .ofValue (.object [("it's", .object [("a\\\"]", .object [("9 lives", .ofNat 9), ("é", .ofNat 1)])])])

/-- They are found by their names. -/
theorem quotedMembers_followed :
    quotedMembers.query ⟨0⟩ "it's.a\\\"].9 lives" = .ok [⟨3⟩] ∧ quotedMembers.query ⟨0⟩ "it's.é" = .ok [] := by
  have hw : quotedMembers.WellFormed :=
    ofValue_wellFormed (by simp [Value.Keyed, Value.MembersKeyed, Value.ofNat])
  have hlives : Path.DottedNames ["it's", "a\\\"]", "9 lives"] := by decide +kernel
  have hmissing : Path.DottedNames ["it's", "é"] := by decide +kernel
  exact ⟨(query_names hw hlives ⟨0⟩).1 (by decide +kernel), (query_names hw hmissing ⟨0⟩).1 (by decide +kernel)⟩

def tabbed : Document := .ofValue (.object [("a\tb", .ofNat 1)])

/-- The key leads to the member, but as a path its name is refused. -/
theorem tabbed_not_followed :
    tabbed.WellFormed ∧ Path.DottedNames ["a\tb"] ∧ ["a\tb"].foldlM tabbed.get? ⟨0⟩ = some ⟨1⟩ ∧
      tabbed.query ⟨0⟩ (".".intercalate ["a\tb"]) = .error ⟨1⟩ :=
  ⟨ofValue_wellFormed (by simp [Value.Keyed, Value.MembersKeyed, Value.ofNat]), by decide +kernel, by decide +kernel,
    by decide +kernel⟩

end Document

end Reshape
