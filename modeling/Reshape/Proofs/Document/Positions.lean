/-
  Reshape.Proofs.Document.Positions — the positions in a document that was read are those of the text.

  A document is made of the tree that was read, with the members of one key merged. Its nodes
  are the nodes of that tree (`ofTree_contains`), so none of them has a position of its own
  making: each was read as it stands in the text, repeated keys and all, and only then merged
  (`Tree.distinct_contains`). Where a key comes up more than once, its member has the position
  of the first and the value of the last (`Member.find?_distinct`).

  - `parse_sited`: where the nodes and the keys of a document stand.
-/

import Reshape.Proofs.Json.Sites

namespace Reshape

/-! ## Repeated keys -/

theorem Member.find?_concat {α : Type} (key : String) (ms : List (Member α)) (m : Member α) :
    find? key (ms ++ [m]) = (find? key ms).or (if m.key = key then some m else none) := by
  induction ms with
  | nil => simp [find?]
  | cons n ms ih =>
    rw [List.cons_append, find?, find?]
    split
    · rfl
    · exact ih

theorem Member.find?_put {α : Type} (key other : String) (position : Option Position) (v : α) (ms : List (Member α)) :
    find? other (put key position v ms) =
      if key = other then some ⟨key, ((find? key ms).map Member.position).getD position, v⟩ else find? other ms := by
  induction ms with
  | nil => simp [put, find?]
  | cons n ms ih =>
    rw [put]
    by_cases hn : n.key = key
    · subst hn
      by_cases hk : n.key = other
      · simp [find?, hk]
      · simp [find?, hk]
    · by_cases hk : key = other
      · subst hk
        simp [find?, hn, ih]
      · simp [find?, hn, hk, ih]

/-- Merged, the members of one key have the position of the first of them and the value of the last. -/
theorem Member.find?_distinct (key : String) (ms : List (Member Tree)) :
    find? key (Tree.distinctMembers [] ms) = (find? key ms).bind fun first =>
      (find? key ms.reverse).map fun last => ⟨key, first.position, last.value.distinct⟩ := by
  induction ms using List.reverseRecOn with
  | nil => rfl
  | append_singleton ms m ih =>
    rw [Tree.distinctMembers_append, find?_put, find?_concat, List.reverse_append, List.reverse_singleton,
      List.singleton_append, find?]
    by_cases hm : m.key = key
    · subst hm
      rw [if_pos rfl, if_pos rfl, if_pos rfl, ih]
      cases hfirst : find? m.key ms with
      | none => rfl
      | some first =>
        obtain ⟨last, hlast⟩ : ∃ last, find? m.key ms.reverse = some last := by
          rw [← Option.ne_none_iff_exists', ne_eq, find?_eq_none_iff, List.map_reverse, List.mem_reverse, not_not]
          exact (find?_mem hfirst).2 ▸ List.mem_map_of_mem (find?_mem hfirst).1
        rw [hlast]
        rfl
    · rw [if_neg hm, if_neg hm, if_neg hm, ih, Option.or_none]

namespace Tree

theorem Contains.trans {t u v : Tree} (h : t.Contains u) (h' : u.Contains v) : t.Contains v := by
  induction h with
  | self => exact h'
  | part hp _ ih => exact .part hp (ih h')

/-- A member of an object in which repeated keys are merged: the first of its key says where it stands, the last
    what it holds. -/
theorem mem_distinctMembers {ms : List (Member Tree)} {n : Member Tree} (h : n ∈ distinctMembers [] ms) :
    ∃ first last, Member.find? n.key ms = some first ∧ last ∈ ms ∧
      n.position = first.position ∧ n.value = last.value.distinct := by
  have hkeys := (distinctMembers_keyed [] ms List.nodup_nil (by simp [MembersKeyed])).1
  have hfind := Member.find?_of_mem hkeys h
  rw [Member.find?_distinct] at hfind
  obtain ⟨first, hfirst, hfind⟩ := Option.bind_eq_some_iff.mp hfind
  obtain ⟨last, hlast, hn⟩ := Option.map_eq_some_iff.mp hfind
  refine ⟨first, last, hfirst, List.mem_reverse.mp (Member.find?_mem hlast).1, ?_, ?_⟩
  · exact (congrArg Member.position hn).symm
  · exact (congrArg Member.value hn).symm

theorem mem_distinct_members {t : Tree} {n : Member Tree} (h : n ∈ t.distinct.members) :
    ∃ first, Member.find? n.key t.members = some first ∧ n.position = first.position := by
  obtain ⟨position, content⟩ := t
  cases content with
  | object ms =>
    obtain ⟨first, -, hfirst, -, hposition, -⟩ := mem_distinctMembers h
    exact ⟨first, hfirst, hposition⟩
  | _ => cases h

theorem distinct_parts {t inner : Tree} (h : inner ∈ t.distinct.content.parts) :
    ∃ p ∈ t.content.parts, p.distinct = inner := by
  obtain ⟨position, content⟩ := t
  cases content with
  | scalar s => cases h
  | array items =>
    rw [distinct, distinctItems_eq] at h
    exact List.mem_map.mp h
  | object ms =>
    obtain ⟨n, hn, rfl⟩ := List.mem_map.mp h
    obtain ⟨-, last, -, hlast, -, hvalue⟩ := mem_distinctMembers hn
    exact ⟨last.value, List.mem_map_of_mem hlast, hvalue.symm⟩

/-- What a tree in which repeated keys are merged contains was contained in the tree, and then merged. -/
theorem distinct_contains {t u : Tree} (h : t.distinct.Contains u) : ∃ r, t.Contains r ∧ r.distinct = u := by
  generalize hm : t.distinct = merged at h
  induction h generalizing t with
  | self => exact ⟨t, .self t, hm⟩
  | part hp _ ih =>
    subst hm
    obtain ⟨p, hpart, rfl⟩ := distinct_parts hp
    obtain ⟨r, hr, he⟩ := ih rfl
    exact ⟨r, .part hpart hr, he⟩

theorem position_distinct (t : Tree) : t.distinct.position = t.position := by
  obtain ⟨position, content⟩ := t
  cases content <;> rfl

end Tree

/-! ## Nodes of a document -/

namespace Document

/-- Every node of a document that is made of a tree reads as a part of the tree. -/
theorem ofTree_contains {t : Tree} (ht : t.Keyed) {id : NodeId} (hh : (ofTree t).Holds id) :
    t.Contains ((ofTree t).tree id) := by
  have hlinked := (ofTree_wellFormed ht).toLinked
  have hlaid := laid_nodes none 0 t ht
  have hroot : (ofTree t).tree ⟨0⟩ = t := by
    rw [ofTree_eq_add]
    exact blank_linked.tree_nextId_add ht
  have hnode : ∀ {id n}, laidAt? 0 (t.nodes none 0) id = some n → (ofTree t).node id = n := fun hn => by
    rw [ofTree_eq_add]
    exact node_store_laid hn
  -- A node that is not the root hangs in one that was laid out before it.
  induction hi : id.index using Nat.strong_induction_on generalizing id with
  | h index ih =>
    by_cases hid : id = ⟨0⟩
    · rw [hid, hroot]
      exact .self t
    · obtain ⟨n, hn⟩ : ∃ n, laidAt? 0 (t.nodes none 0) id = some n := by
        have hlt : id.index < (t.nodes none 0).length := by simpa [Holds, ofTree] using hh
        exact ⟨(t.nodes none 0)[id.index], by simp [laidAt?, hlt]⟩
      obtain ⟨above, m, hm, hmem⟩ := hlaid.others_hang hn (by simpa using hid)
      have hlt := (hlaid.parts_hang hm hmem).1
      have hpart : id ∈ (ofTree t).parts above := by
        rw [parts, content, hnode hm]
        exact hmem
      have hinner : (ofTree t).tree id ∈ ((ofTree t).tree above).content.parts := by
        rw [hlinked.tree_eq above, Content.parts_map]
        exact List.mem_map_of_mem hpart
      exact (ih above.index (hi ▸ hlt) (holds_of_mem_parts hpart) rfl).trans (.part hinner (.self _))

/-- Every node of a document that was read stands at a place in the text at which the reader of values finds it,
    repeated keys not yet merged; every member stands where the first member of its key stands there, which is a
    place at which the reader of strings finds the key; and in the tree as it was read, no key merged yet, the
    positions of nodes and keys rise in the order of the text. -/
theorem parse_sited {text : String} {d : Document} (h : parse text = .ok d) :
    ∃ whole, readRaw (withoutMark text.toList) = .ok whole ∧
      (∃ ps : List Position, whole.positions = ps.map some ∧ ps.Pairwise Position.Before) ∧
      ∀ id, d.Holds id → ∃ raw, whole.Contains raw ∧ raw.distinct = d.tree id ∧
        (∃ before after next, withoutMark text.toList = before ++ after ∧
          d.position id = some (.behind before) ∧ readValue ⟨after, .behind before⟩ = .found raw next) ∧
        ∀ m ∈ d.members id, ∃ first, Member.find? m.key raw.members = some first ∧ m.position = first.position ∧
          ∃ quote before after next, withoutMark text.toList = before ++ quote :: after ∧
            (quote = '"' ∨ quote = '\'') ∧ m.position = some (.behind before) ∧
            readString ⟨quote :: after, .behind before⟩ = .found m.key next := by
  obtain ⟨whole, hraw, rfl⟩ : ∃ whole, readRaw (withoutMark text.toList) = .ok whole ∧ ofTree whole.distinct = d := by
    unfold parse Tree.parse at h
    cases hr : readRaw (withoutMark text.toList) with
    | error f => rw [hr] at h; cases h
    | ok whole => rw [hr] at h; exact ⟨whole, rfl, Except.ok.inj h⟩
  refine ⟨whole, hraw, readRaw_rising hraw, fun id hh => ?_⟩
  have hkeyed := Tree.distinct_keyed whole
  have hlinked := (ofTree_wellFormed hkeyed).toLinked
  obtain ⟨raw, hcontains, hdistinct⟩ := Tree.distinct_contains (ofTree_contains hkeyed hh)
  obtain ⟨⟨site, next, hsite, hposition, hread⟩, hkeys⟩ := readRaw_sited hraw raw hcontains
  refine ⟨raw, hcontains, hdistinct, ?_, fun m hm => ?_⟩
  · obtain ⟨before, htext, hplace⟩ := Cursor.ahead_start hsite
    refine ⟨before, site.rest, next, htext, ?_, hplace ▸ hread⟩
    have hsame : (ofTree whole.distinct).position id = raw.position := by
      rw [← Tree.position_distinct, hdistinct, hlinked.tree_eq]
    rw [hsame, hposition, hplace]
  · have hmember : (⟨m.key, m.position, (ofTree whole.distinct).tree m.value⟩ : Member Tree) ∈
        raw.distinct.members := by
      rw [hdistinct, hlinked.tree_members]
      exact List.mem_map_of_mem hm
    obtain ⟨first, hfirst, hsame⟩ := Tree.mem_distinct_members hmember
    obtain ⟨hmem, hkey⟩ := Member.find?_mem hfirst
    obtain ⟨site, next, hsite, hposition, hread⟩ := hkeys first hmem
    obtain ⟨before, htext, hplace⟩ := Cursor.ahead_start hsite
    obtain ⟨quote, after, hrest, hquote⟩ := (readString_sound hread).head
    refine ⟨first, hfirst, hsame, quote, before, after, next, hrest ▸ htext, hquote, ?_, ?_⟩
    · rw [show m.position = first.position from hsame, hposition, hplace]
    · rw [← hplace, ← hrest, hread]
      exact congrArg (Outcome.found · next) hkey

def givenTwice : String := "\ufeff\x7b\"a\": 1, // first\n  'b': [null], \"a\": \x7b\x7d\x7d"

/-- The key that is given twice stands where it is given first, and the object in front of it, where it is read. -/
theorem givenTwice_sited : ∃ d, parse givenTwice = .ok d ∧
    (d.members d.root).map (fun m => (m.key, m.position)) = [("a", some ⟨1, 2⟩), ("b", some ⟨2, 3⟩)] ∧
    ∃ before after raw next, withoutMark givenTwice.toList = before ++ after ∧
      d.position d.root = some (.behind before) ∧ readValue ⟨after, .behind before⟩ = .found raw next := by
  have hkeys : (parse givenTwice).toOption.map (fun d => (d.members d.root).map fun m => (m.key, m.position)) =
      some [("a", some ⟨1, 2⟩), ("b", some ⟨2, 3⟩)] := by decide +kernel
  cases hd : parse givenTwice with
  | error f =>
    rw [hd] at hkeys
    cases hkeys
  | ok d =>
    rw [hd] at hkeys
    obtain ⟨whole, -, -, hnodes⟩ := parse_sited hd
    obtain ⟨raw, -, -, ⟨before, after, next, htext, hposition, hread⟩, -⟩ :=
      hnodes d.root (parse_wellFormed hd).root_held
    exact ⟨d, rfl, Option.some.inj hkeys, before, after, raw, next, htext, hposition, hread⟩

end Document

end Reshape
