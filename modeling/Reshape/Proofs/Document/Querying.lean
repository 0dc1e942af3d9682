/-
  Reshape.Proofs.Document.Querying — a query's finds, as nodes of the document.

  A query is evaluated on the value of a node. What it finds there goes back to the document as
  text: the location is written as a pointer, the pointer cut at its slashes, each token read
  again, and followed as a key or as an index, whichever the node at hand calls for. A pointer
  that led nowhere would be passed over in silence. None does: a key is read as it was written,
  whatever tildes and slashes are in it, and an index too, as long as it fits a machine word.

  - `pointerTokens?_pointer`: the tokens of a location's pointer are the texts of its steps.
  - `Linked.resolve?_pointer`: the pointer of a location leads where the location does.
  - `Linked.at?_inj`: no two locations lead from a node to the same node.
  - `query_located`: a path finds one node for each location that the query selects, in their
    order; it is the node at that location, and two are the same exactly if the locations are.
-/

import Mathlib.Data.List.Nodup
import Reshape.Proofs.Document.Refinement
import Reshape.Proofs.Json.Likeness
import Reshape.Proofs.Number.Written
import Reshape.Proofs.Path.Finds
import Reshape.Proofs.Path.Segments

namespace Reshape

/-! ## Pointers -/

def Step.text : Step → List Char
  | .key k => k.toList
  | .index i => natChars i

section Escaping

variable {c : Char} {text : List Char}

theorem unescapeSlashes_cons (h : c ≠ '~') : unescapeSlashes (c :: text) = c :: unescapeSlashes text := by
  rw [unescapeSlashes]
  intro rest e
  exact absurd e h

theorem unescapeTildes_cons (h : c ≠ '~') : unescapeTildes (c :: text) = c :: unescapeTildes text := by
  rw [unescapeTildes]
  intro rest e
  exact absurd e h

theorem tokenText_cons (h : c ≠ '~') : tokenText (c :: text) = c :: tokenText text := by
  rw [tokenText, unescapeSlashes_cons h, unescapeTildes_cons h]
  rfl

theorem tokenText_of_no_tilde (h : '~' ∉ text) : tokenText text = text := by
  induction text with
  | nil => rfl
  | cons c rest ih =>
    rw [List.mem_cons, not_or] at h
    rw [tokenText_cons (Ne.symm h.1), ih h.2]

/-- A key is read from a token as it was written there. -/
theorem tokenText_escaped (key : List Char) : tokenText (key.flatMap pointerChar) = key := by
  induction key with
  | nil => rfl
  | cons c rest ih =>
    rw [List.flatMap_cons, pointerChar]
    by_cases ht : c = '~'
    · rw [if_pos ht, ht]
      have hzero : unescapeSlashes ('~' :: '0' :: rest.flatMap pointerChar) =
          '~' :: '0' :: unescapeSlashes (rest.flatMap pointerChar) := by
        rw [unescapeSlashes, unescapeSlashes_cons (by decide)]
        intro more _ e
        exact absurd (List.cons.inj e).1 (by decide)
      show unescapeTildes (unescapeSlashes ('~' :: '0' :: rest.flatMap pointerChar)) = '~' :: rest
      rw [hzero, unescapeTildes]
      exact congrArg _ ih
    · by_cases hs : c = '/'
      · rw [if_neg ht, if_pos hs, hs]
        have hone : unescapeSlashes ('~' :: '1' :: rest.flatMap pointerChar) =
            '/' :: unescapeSlashes (rest.flatMap pointerChar) := by rw [unescapeSlashes]
        show unescapeTildes (unescapeSlashes ('~' :: '1' :: rest.flatMap pointerChar)) = '/' :: rest
        rw [hone, unescapeTildes_cons (by decide)]
        exact congrArg _ ih
      · rw [if_neg ht, if_neg hs, List.singleton_append, tokenText_cons ht, ih]

theorem not_digit_of_mem_natChars {n : Nat} (h : isDigit c = false) : c ∉ natChars n := by
  intro hc
  rw [digits_natChars n c hc] at h
  cases h

theorem Step.tokenText_token (s : Step) : tokenText s.token = s.text := by
  cases s with
  | key k => exact tokenText_escaped k.toList
  | index i => exact tokenText_of_no_tilde (not_digit_of_mem_natChars (by decide))

/-- A token has no slash. -/
theorem Step.slash_not_mem_token (s : Step) : '/' ∉ s.token := by
  cases s with
  | key k =>
    intro h
    obtain ⟨c, -, hc⟩ := List.mem_flatMap.mp h
    rw [pointerChar] at hc
    split at hc
    · exact absurd hc (by decide)
    · split at hc
      · exact absurd hc (by decide)
      · rename_i hne
        exact hne (List.mem_singleton.mp hc).symm
  | index i => exact not_digit_of_mem_natChars (by decide)

end Escaping

theorem pieces_of_no_slash {text : List Char} (h : '/' ∉ text) : pieces text = [text] := by
  induction text with
  | nil => rfl
  | cons c rest ih =>
    rw [List.mem_cons, not_or] at h
    rw [pieces, if_neg (Ne.symm h.1), ih h.2]

theorem pieces_append {text : List Char} (h : '/' ∉ text) (rest : List Char) :
    pieces (text ++ '/' :: rest) = text :: pieces rest := by
  induction text with
  | nil => rfl
  | cons c more ih =>
    rw [List.mem_cons, not_or] at h
    rw [List.cons_append, pieces, if_neg (Ne.symm h.1), ih h.2]

theorem Location.pointer_cons (s : Step) (l : Location) :
    Location.pointer (s :: l) = '/' :: (s.token ++ l.pointer) := rfl

theorem pieces_pointer (s : Step) (l : Location) : pieces (s.token ++ l.pointer) = (s :: l).map Step.token := by
  induction l generalizing s with
  | nil =>
    show pieces (s.token ++ []) = [s.token]
    rw [List.append_nil, pieces_of_no_slash s.slash_not_mem_token]
  | cons t rest ih => rw [Location.pointer_cons, pieces_append s.slash_not_mem_token, ih t, ← List.map_cons]

/-- The tokens of a location's pointer are the texts of its steps. -/
theorem pointerTokens?_pointer (l : Location) : pointerTokens? l.pointer = some (l.map Step.text) := by
  cases l with
  | nil => rfl
  | cons s rest =>
    rw [Location.pointer_cons, pointerTokens?, pieces_pointer, List.map_map]
    exact congrArg some (List.map_congr_left fun t _ => t.tokenText_token)

/-- An index that fits a machine word is read as it was written. -/
theorem readIndex?_natChars {i : Nat} (h : i < 2 ^ 64) : readIndex? (natChars i) = some i := by
  have hread : readNat? (natChars i) = some i := by
    have hall : (natChars i).all isDigit = true := List.all_eq_true.mpr (digits_natChars i)
    rw [readNat?, hall, if_pos (by simp [natChars_ne_nil]), decimal_natChars]
  have hplus : ∀ rest, natChars i ≠ '+' :: rest := by
    intro rest e
    have hmem : '+' ∈ natChars i := e ▸ List.mem_cons_self
    exact not_digit_of_mem_natChars (by decide) hmem
  rw [readIndex?, hread, Option.filter_some, if_pos (decide_eq_true (by omega))]
  exact hplus

namespace Document

variable {d : Document} {top x part : NodeId} {s : Step} {l l' : Location}

/-! ## Following -/

/-- An array has no more items than the document has nodes. -/
theorem Linked.length_parts_le (h : d.Linked) (id : NodeId) : (d.parts id).length ≤ d.nodes.size := by
  have hnodup : ((d.parts id).map NodeId.index).Nodup :=
    (h.parts_nodup id).map fun a b e => NodeId.eq_iff.mpr e
  have hsub : (d.parts id).map NodeId.index ⊆ List.range d.nodes.size := by
    intro i hi
    obtain ⟨p, hp, rfl⟩ := List.mem_map.mp hi
    exact List.mem_range.mpr (h.parts_held hp)
  have hle := (List.subperm_of_subset hnodup hsub).length_le
  rwa [List.length_map, List.length_range] at hle

/-- The text of a step leads where the step does. -/
theorem Linked.tokenPart?_text (h : d.Linked) (hsize : d.nodes.size ≤ 2 ^ 64) (hc : d.child? top s = some part) :
    d.tokenPart? top s.text = some part := by
  unfold child? at hc
  unfold tokenPart?
  cases hcontent : d.content top with
  | scalar c => rw [hcontent] at hc; cases s <;> cases hc
  | array items =>
    rw [hcontent] at hc
    cases s with
    | key k => cases hc
    | index i =>
      have hi : items[i]? = some part := hc
      have hlt : i < items.length := (List.getElem?_eq_some_iff.mp hi).1
      have hle := h.length_parts_le top
      rw [parts_of_array hcontent] at hle
      show (readIndex? (natChars i)).bind _ = _
      rw [readIndex?_natChars (by omega)]
      exact hi
  | object members =>
    rw [hcontent] at hc
    cases s with
    | key k =>
      show d.get? top (String.ofList k.toList) = some part
      rw [String.ofList_toList, get?, member?, Document.members, hcontent]
      exact hc
    | index i => cases hc

theorem Linked.followTokens?_texts (h : d.Linked) (hsize : d.nodes.size ≤ 2 ^ 64) (hl : d.at? top l = some x) :
    d.followTokens? top (l.map Step.text) = some x := by
  induction l generalizing top with
  | nil => exact hl
  | cons s rest ih =>
    obtain ⟨part, hp, hrest⟩ := Option.bind_eq_some_iff.mp hl
    rw [List.map_cons, followTokens?, h.tokenPart?_text hsize hp]
    exact ih hrest

/-- The pointer of a location leads where the location does. -/
theorem Linked.resolve?_pointer (h : d.Linked) (hsize : d.nodes.size ≤ 2 ^ 64) (hl : d.at? top l = some x) :
    d.resolve? top l.pointer = some x := by
  rw [resolve?, pointerTokens?_pointer]
  exact h.followTokens?_texts hsize hl

/-- No two steps lead to the same part. -/
theorem Linked.child?_inj (h : d.Linked) {t : Step} (hs : d.child? top s = some part)
    (ht : d.child? top t = some part) : s = t := by
  have hnodup := h.parts_nodup top
  unfold child? at hs ht
  unfold parts at hnodup
  cases hcontent : d.content top with
  | scalar c => rw [hcontent] at hs; cases s <;> cases hs
  | array items =>
    rw [hcontent] at hs ht hnodup
    cases s with
    | key k => cases hs
    | index i =>
      cases t with
      | key k => cases ht
      | index j =>
        have hi : items[i]? = some part := hs
        have hj : items[j]? = some part := ht
        have hlt : i < items.length := (List.getElem?_eq_some_iff.mp hi).1
        rw [(List.getElem?_inj hlt hnodup).mp (hi.trans hj.symm)]
  | object members =>
    rw [hcontent] at hs ht hnodup
    cases s with
    | index i => cases hs
    | key k =>
      cases t with
      | index i => cases ht
      | key k' =>
        obtain ⟨m, hm, rfl⟩ := Option.map_eq_some_iff.mp hs
        obtain ⟨n, hn, e⟩ := Option.map_eq_some_iff.mp ht
        have hmem := Member.find?_mem hm
        have hmem' := Member.find?_mem hn
        rw [← hmem.2, ← hmem'.2, List.inj_on_of_nodup_map hnodup hmem.1 hmem'.1 e.symm]

/-- No two locations lead from a node to the same node. -/
theorem Linked.at?_inj (h : d.Linked) (hl : d.at? top l = some x) (hl' : d.at? top l' = some x) : l = l' := by
  -- A location that leads back to where it starts has no steps.
  have stays : ∀ {y : NodeId} {s : Step} {rest : Location}, d.at? y (s :: rest) ≠ some y := by
    intro y s rest hy
    obtain ⟨part, hp, hrest⟩ := Option.bind_eq_some_iff.mp hy
    exact h.not_under_part (mem_parts_of_child? hp) (h.under_of_at? hrest)
  induction l generalizing top l' with
  | nil =>
    obtain rfl : top = x := Option.some.inj hl
    cases l' with
    | nil => rfl
    | cons s rest => exact absurd hl' stays
  | cons s rest ih =>
    cases l' with
    | nil =>
      obtain rfl : top = x := Option.some.inj hl'
      exact absurd hl stays
    | cons t rest' =>
      obtain ⟨p, hp, hrest⟩ := Option.bind_eq_some_iff.mp hl
      obtain ⟨q, hq, hrest'⟩ := Option.bind_eq_some_iff.mp hl'
      have hsame : p = q := h.eq_of_under_parts (mem_parts_of_child? hp) (mem_parts_of_child? hq)
        (h.under_of_at? hrest) (h.under_of_at? hrest')
      rw [h.child?_inj hp (hsame ▸ hq), ih hrest (hsame ▸ hrest')]

/-! ## What a path finds -/

/-- The node is the one at the find's location, and has the find's value. -/
structure Reaches (d : Document) (top : NodeId) (handle : NodeId) (f : Path.Find) : Prop where
  at_location : d.at? top f.location = some handle
  value : d.value handle = f.value

/-- What is found in the value of a node is a node of the document. -/
theorem Linked.exists_reaches (h : d.Linked) {f : Path.Find} (hf : f.StandsIn (d.value top)) :
    ∃ handle, d.Reaches top handle f := by
  rw [Path.Find.StandsIn, h.value_at?] at hf
  obtain ⟨handle, hat, hvalue⟩ := Option.map_eq_some_iff.mp hf
  exact ⟨handle, hat, hvalue⟩

/-- Following the pointers of finds that stand in the value of a node leads to a node for each of them. -/
theorem Linked.filterMap_resolve? (h : d.Linked) (hsize : d.nodes.size ≤ 2 ^ 64) {finds : List Path.Find}
    (hf : ∀ f ∈ finds, f.StandsIn (d.value top)) :
    List.Forall₂ (d.Reaches top)
      ((finds.map Path.Find.location).filterMap fun location => d.resolve? top location.pointer) finds := by
  induction finds with
  | nil => exact .nil
  | cons f rest ih =>
    obtain ⟨handle, hr⟩ := h.exists_reaches (hf f List.mem_cons_self)
    rw [List.map_cons, List.filterMap_cons, h.resolve?_pointer hsize hr.at_location]
    exact .cons hr (ih fun g hg => hf g (List.mem_cons_of_mem _ hg))

/-- Nodes that have been reached are the same exactly where their locations are. -/
theorem Linked.reached_iff (h : d.Linked) {handles : List NodeId} {finds : List Path.Find}
    (hr : List.Forall₂ (d.Reaches top) handles finds) (i j : Nat) :
    handles[i]? = handles[j]? ↔ (finds.map Path.Find.location)[i]? = (finds.map Path.Find.location)[j]? := by
  have hi := forall₂_getElem? hr i
  have hj := forall₂_getElem? hr j
  rw [List.getElem?_map, List.getElem?_map]
  generalize handles[i]? = x, finds[i]? = f at hi ⊢
  generalize handles[j]? = y, finds[j]? = g at hj ⊢
  cases hi with
  | none =>
    cases hj with
    | none => exact iff_of_true rfl rfl
    | some => exact iff_of_false nofun nofun
  | some hx =>
    cases hj with
    | none => exact iff_of_false nofun nofun
    | some hy =>
      simp only [Option.map_some, Option.some.injEq]
      constructor
      · intro e
        exact h.at?_inj hx.at_location (e ▸ hy.at_location)
      · intro e
        exact Option.some.inj (hx.at_location.symm.trans (e ▸ hy.at_location))

/-- A path that spells a query finds, from a node on, exactly one node for each location that the query selects in
    the value of the node, in the order of the locations. The node is the one that the keys and indices of the
    location lead to, and its value is the one selected; and two of the nodes are the same exactly if their
    locations are. Nodes are numbered by machine words, so a document has no more than there are words. -/
theorem query_located (h : d.WellFormed) (hsize : d.nodes.size ≤ 2 ^ 64) (top : NodeId) {path : String}
    {q : Path.Query} (hq : Path.Query.read (Path.normalize path.toList) = .ok q) :
    ∃ handles, d.query top path = .ok handles ∧ List.Forall₂ (d.Reaches top) handles (q.select (d.value top)) ∧
      ∀ i j : Nat, handles[i]? = handles[j]? ↔
        (q.locations (d.value top))[i]? = (q.locations (d.value top))[j]? := by
  have hkeyed : (d.value top).Keyed := (h.tree_keyed top).value
  have hreached := h.filterMap_resolve? hsize (Path.Query.select_standsIn hkeyed q)
  refine ⟨_, ?_, hreached, h.reached_iff hreached⟩
  rw [query, hq]
  rfl

def awkwardKeys : Document :=
  .ofValue (.object [("", .object [("~1", .ofNat 1), ("~", .ofNat 2)]), ("/", .array [.object [("~0", .ofNat 3)]])])

/-- Every part is found, each by the pointer of its own location. -/
theorem awkwardKeys_located :
    awkwardKeys.query ⟨0⟩ "$..*" = .ok [⟨1⟩, ⟨4⟩, ⟨2⟩, ⟨3⟩, ⟨5⟩, ⟨6⟩] ∧
      List.Forall₂ (awkwardKeys.Reaches ⟨0⟩) [⟨1⟩, ⟨4⟩, ⟨2⟩, ⟨3⟩, ⟨5⟩, ⟨6⟩]
        (Path.Query.select [.mk true [.wildcard]] (awkwardKeys.value ⟨0⟩)) := by
  have hw : awkwardKeys.WellFormed :=
    ofValue_wellFormed (by simp [Value.Keyed, Value.MembersKeyed, Value.ItemsKeyed, Value.ofNat])
  have hnormal : Path.normalize "$..*".toList = "$..*".toList := by decide +kernel
  have hreads : Path.Reads "..*".toList [.mk true [.wildcard]] := .cons (.dotted rfl rfl) .nil
  have hread : Path.Query.read (Path.normalize "$..*".toList) = .ok [.mk true [.wildcard]] :=
    Path.read_eq_ok_iff.mpr ⟨_, hnormal, hreads⟩
  have hfound : awkwardKeys.query ⟨0⟩ "$..*" = .ok [⟨1⟩, ⟨4⟩, ⟨2⟩, ⟨3⟩, ⟨5⟩, ⟨6⟩] := by decide +kernel
  obtain ⟨handles, hquery, hreached, -⟩ := query_located hw (by decide) ⟨0⟩ hread
  obtain rfl := Except.ok.inj (hfound.symm.trans hquery)
  exact ⟨hfound, hreached⟩

end Document

end Reshape
