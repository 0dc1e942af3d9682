/-
  Reshape.Proofs.Json.Parsing — a text is read exactly if the grammar derives it, and as it says.

  Soundness and completeness go by induction on the depth that the readers are given, all
  readers at once (`Sound`, `Complete`). Completeness must know that the depth suffices:
  three levels for each character are enough, since between two levels of nesting a reader
  goes through at most three others and at least one character.

  - `merged_distinct`: merging repeated keys one by one as the reader does, the first one's
    place and the last one's value are left.
  - `parse_iff_grammar`: which texts are read, and as which values.
-/

import Reshape.Document.Build
import Reshape.Proofs.Document.Entries
import Reshape.Proofs.Json.Tokens

namespace Reshape

open Grammar (Gap Spells MoreItems MoreMembers SpellsMember Closes Stops Quoted merged)

/-! ## Repeated keys -/

theorem eraseDups_append_singleton (keys : List String) (key : String) :
    (keys ++ [key]).eraseDups = if key ∈ keys then keys.eraseDups else keys.eraseDups ++ [key] := by
  rw [List.eraseDups_append, List.cons_removeAll]
  by_cases h : key ∈ keys
  · simp [h]
  · simp [h, List.eraseDups_cons]

theorem eraseDups_of_nodup {keys : List String} (h : keys.Nodup) : keys.eraseDups = keys := by
  induction keys using List.reverseRecOn with
  | nil => rfl
  | append_singleton keys key ih =>
    rw [List.nodup_append] at h
    have hk : key ∉ keys := fun hk => h.2.2 key hk key (.head _) rfl
    rw [eraseDups_append_singleton, if_neg hk, ih h.1]

/-- Pairing keys with what a lookup finds for them, provided that it finds something for each. -/
theorem filterMap_lookup {keys : List String} {f : String → Option Value} (h : ∀ key ∈ keys, (f key).isSome) :
    (keys.filterMap fun key => (f key).map (key, ·)).map Prod.fst = keys ∧
      ∀ key, Value.member? key (keys.filterMap fun key => (f key).map (key, ·)) =
        if key ∈ keys then f key else none := by
  induction keys with
  | nil => simp
  | cons k keys ih =>
    obtain ⟨v, hv⟩ := Option.isSome_iff_exists.1 (h k (.head _))
    obtain ⟨hkeys, hlook⟩ := ih fun key hk => h key (.tail _ hk)
    simp only [List.filterMap_cons, hv, Option.map_some, List.map_cons, hkeys, Value.member?_cons, hlook,
      List.mem_cons, true_and]
    intro key
    by_cases hk : k = key
    · subst hk
      simp [hv]
    · simp [hk, Ne.symm hk]

theorem isSome_last {members : List (String × Value)} {key : String} (h : key ∈ members.map Prod.fst) :
    (Value.member? key members.reverse).isSome := by
  rw [Option.isSome_iff_ne_none, ne_eq, Value.member?_eq_none_iff, List.map_reverse, List.mem_reverse]
  exact not_not_intro h

theorem keys_merged (members : List (String × Value)) :
    (merged members).map Prod.fst = (members.map Prod.fst).eraseDups :=
  (filterMap_lookup fun _ hk => isSome_last (List.mem_eraseDups.1 hk)).1

theorem member?_merged (key : String) (members : List (String × Value)) :
    Value.member? key (merged members) = Value.member? key members.reverse := by
  rw [merged, (filterMap_lookup fun _ hk => isSome_last (List.mem_eraseDups.1 hk)).2]
  split
  · rfl
  · rename_i h
    rw [List.mem_eraseDups, ← List.mem_reverse, ← List.map_reverse] at h
    exact (Value.member?_eq_none_iff.2 h).symm

theorem merged_of_nodup {members : List (String × Value)} (h : (members.map Prod.fst).Nodup) :
    merged members = members := by
  have hkeys : (merged members).map Prod.fst = members.map Prod.fst := by rw [keys_merged, eraseDups_of_nodup h]
  refine Value.members_ext hkeys (hkeys ▸ h) fun key => ?_
  rw [member?_merged]
  cases hv : Value.member? key members with
  | none =>
    rw [Value.member?_eq_none_iff] at hv ⊢
    rwa [List.map_reverse, List.mem_reverse]
  | some v =>
    refine Value.member?_of_mem ?_ (List.mem_reverse.2 (Value.mem_of_member? hv))
    rw [List.map_reverse]
    exact List.nodup_reverse.2 h

namespace Tree

/-- What a tree says once the members of one key are merged. -/
def said (t : Tree) : Value := t.distinct.value

def saidMember (m : Member Tree) : String × Value := (m.key, m.value.said)

theorem distinctMembers_append (seen members : List (Member Tree)) (m : Member Tree) :
    distinctMembers seen (members ++ [m]) =
      Member.put m.key m.position m.value.distinct (distinctMembers seen members) := by
  induction members generalizing seen with
  | nil => rfl
  | cons n members ih => exact ih _

theorem keys_distinct (members : List (Member Tree)) :
    (distinctMembers [] members).map Member.key = (members.map Member.key).eraseDups := by
  induction members using List.reverseRecOn with
  | nil => rfl
  | append_singleton members m ih =>
    have hmem : m.key ∈ (members.map Member.key).eraseDups ↔ m.key ∈ members.map Member.key := List.mem_eraseDups
    rw [distinctMembers_append, Member.keys_put, ih, List.map_append, List.map_singleton, eraseDups_append_singleton]
    simp only [hmem]

theorem member?_put (key other : String) (position : Option Position) (t : Tree) (members : List (Member Tree)) :
    Value.member? other (memberValues (Member.put key position t members)) =
      if key = other then some t.value else Value.member? other (memberValues members) := by
  induction members with
  | nil => simp [Member.put, memberValues, Value.member?]
  | cons m members ih =>
    rw [Member.put]
    by_cases hm : m.key = key
    · subst hm
      simp only [if_true, memberValues, Value.member?_cons]
      by_cases hk : m.key = other
      · simp [hk]
      · simp [hk]
    · rw [if_neg hm]
      simp only [memberValues, Value.member?_cons, ih]
      by_cases hk : key = other
      · subst hk
        simp [hm]
      · simp [hk]

/-- Merging repeated keys one after the other leaves each key once, with its last value. -/
theorem merged_distinct (members : List (Member Tree)) :
    memberValues (distinctMembers [] members) = merged (members.map saidMember) := by
  have hkeys : (memberValues (distinctMembers [] members)).map Prod.fst = (members.map Member.key).eraseDups := by
    rw [memberValues_eq, keys_of_entries, keys_distinct]
  have hsaid : (members.map saidMember).map Prod.fst = members.map Member.key := by
    rw [List.map_map]
    rfl
  refine Value.members_ext ?_ ?_ fun key => ?_
  · rw [hkeys, keys_merged, hsaid]
  · rw [memberValues_eq, keys_of_entries]
    exact (distinctMembers_keyed [] members List.nodup_nil (by simp [MembersKeyed])).1
  · rw [member?_merged]
    induction members using List.reverseRecOn with
    | nil => rfl
    | append_singleton members m ih =>
      rw [distinctMembers_append, member?_put, List.map_append, List.map_singleton, List.reverse_append,
        List.reverse_singleton, List.singleton_append, Value.member?_cons]
      rw [ih]
      · rfl
      · rw [memberValues_eq, keys_of_entries, keys_distinct]
      · rw [List.map_map]
        rfl

@[simp] theorem said_array (position : Option Position) (items : List Tree) :
    said ⟨position, .array items⟩ = .array (items.map said) := by
  have h : itemValues (distinctItems items) = items.map said := by
    induction items with
    | nil => rfl
    | cons t items ih => rw [List.map_cons, ← ih]; rfl
  rw [← h]
  rfl

@[simp] theorem said_object (position : Option Position) (members : List (Member Tree)) :
    said ⟨position, .object members⟩ = .object (merged (members.map saidMember)) := by
  rw [← merged_distinct]
  rfl

end Tree

/-! ## What is read the grammar derives -/

/-- The end of a list, or of one that is empty. -/
theorem readEnd_sound {nonempty : Bool} {close : Char} {wanted : Expected} {c next : Cursor}
    (h : readEnd nonempty close wanted c = .found () next) :
    (nonempty = true → Closes close c.rest next.rest) ∧ (nonempty = false → Gap c.rest (close :: next.rest)) := by
  obtain ⟨_, c₁, hgap₁, h⟩ := Outcome.andThen_eq_found h
  obtain ⟨_, c₂, hgap₂, h⟩ := Outcome.andThen_eq_found h
  have hclose := readChar_eq_found (Outcome.required_eq_found h)
  have hgap₁ := skipGap_sound hgap₁
  have hgap₂ := skipGap_sound hgap₂
  rw [hclose] at hgap₂
  cases nonempty with
  | false => exact ⟨nofun, fun _ => hgap₁.trans hgap₂⟩
  | true =>
    refine ⟨fun _ => ?_, nofun⟩
    simp only [if_true] at hgap₂
    split at hgap₂
    · rename_i hcomma
      exact .comma (readChar_eq_found hcomma ▸ hgap₁) hgap₂
    · exact .plain (hgap₁.trans hgap₂)

def Items (text : List Char) (items : List Value) (rest : List Char) : Prop :=
  items = [] ∧ text = rest ∨ ∃ v more t₁ t₂, items = v :: more ∧ Gap text t₁ ∧ Spells t₁ v t₂ ∧ MoreItems t₂ more rest

def Members (text : List Char) (members : List (String × Value)) (rest : List Char) : Prop :=
  members = [] ∧ text = rest ∨
    ∃ m more t₁ t₂, members = m :: more ∧ Gap text t₁ ∧ SpellsMember t₁ m t₂ ∧ MoreMembers t₂ more rest

/-- Whatever the readers find within some depth, the grammar derives. -/
structure Sound (depth : Nat) : Prop where
  node : ∀ {c next : Cursor} {t : Tree}, readNode depth c = .found t next → Spells c.rest t.said next.rest
  items : ∀ {c next : Cursor} {ts : List Tree}, readItems depth c = .found ts next →
    Items c.rest (ts.map Tree.said) next.rest
  moreItems : ∀ {c next : Cursor} {ts : List Tree}, readMoreItems depth c = .found ts next →
    MoreItems c.rest (ts.map Tree.said) next.rest
  member : ∀ {c next : Cursor} {m : Member Tree}, readMember depth c = .found m next →
    ∃ t, Gap c.rest t ∧ SpellsMember t (Tree.saidMember m) next.rest
  members : ∀ {c next : Cursor} {ms : List (Member Tree)}, readMembers depth c = .found ms next →
    Members c.rest (ms.map Tree.saidMember) next.rest
  moreMembers : ∀ {c next : Cursor} {ms : List (Member Tree)}, readMoreMembers depth c = .found ms next →
    MoreMembers c.rest (ms.map Tree.saidMember) next.rest

theorem isEmpty_of_map {α β : Type} {f : α → β} {xs : List α} {y : β} {ys : List β} (h : xs.map f = y :: ys) :
    xs.isEmpty = false := by
  cases xs with
  | nil => cases h
  | cons => rfl

theorem sound_zero : Sound 0 where
  node h := by rw [readNode] at h; cases h
  items h := by rw [readItems] at h; cases h; exact .inl ⟨rfl, rfl⟩
  moreItems h := by rw [readMoreItems] at h; cases h; exact .nil
  member h := by rw [readMember] at h; cases h
  members h := by rw [readMembers] at h; cases h; exact .inl ⟨rfl, rfl⟩
  moreMembers h := by rw [readMoreMembers] at h; cases h; exact .nil

namespace Sound

variable {depth : Nat} {c next : Cursor}

theorem node_succ (ih : Sound depth) {t : Tree} (h : readNode (depth + 1) c = .found t next) :
    Spells c.rest t.said next.rest := by
  rw [readNode] at h
  split at h
  · rename_i rest hc
    obtain ⟨members, last, hm, h⟩ := Outcome.andThen_eq_found h
    obtain ⟨_, after, hend, h⟩ := Outcome.andThen_eq_found h
    cases h
    obtain ⟨hcloses, hgap⟩ := readEnd_sound hend
    rw [hc, Tree.said_object]
    rcases ih.members hm with ⟨hnil, hrest⟩ | ⟨m, more, t₁, t₂, hms, hg, hfirst, hmore⟩
    · obtain rfl := List.map_eq_nil_iff.1 hnil
      have hgap := hgap rfl
      rw [← hrest] at hgap
      exact .emptyObject hgap
    · rw [hms]
      refine .object hg hfirst hmore (hcloses ?_)
      rw [isEmpty_of_map hms, Bool.not_false]
  · rename_i rest hc
    obtain ⟨items, last, hi, h⟩ := Outcome.andThen_eq_found h
    obtain ⟨_, after, hend, h⟩ := Outcome.andThen_eq_found h
    cases h
    obtain ⟨hcloses, hgap⟩ := readEnd_sound hend
    rw [hc, Tree.said_array]
    rcases ih.items hi with ⟨hnil, hrest⟩ | ⟨v, more, t₁, t₂, hvs, hg, hfirst, hmore⟩
    · obtain rfl := List.map_eq_nil_iff.1 hnil
      have hgap := hgap rfl
      rw [← hrest] at hgap
      exact .emptyArray hgap
    · rw [hvs]
      refine .array hg hfirst hmore (hcloses ?_)
      rw [isEmpty_of_map hvs, Bool.not_false]
  · obtain ⟨s, after, hs, h⟩ := Outcome.andThen_eq_found h
    cases h
    exact readScalar_sound hs

theorem moreItems_succ (ih : Sound depth) {ts : List Tree} (h : readMoreItems (depth + 1) c = .found ts next) :
    MoreItems c.rest (ts.map Tree.said) next.rest := by
  rw [readMoreItems] at h
  split at h
  · cases h
    exact .nil
  · cases h
  · rename_i hcomma
    obtain ⟨_, c₁, hg₁, hchar⟩ := Outcome.andThen_eq_found hcomma
    have hg₁ := skipGap_sound hg₁
    rw [readChar_eq_found hchar] at hg₁
    split at h
    · cases h
      exact .nil
    · cases h
    · rename_i hitem
      obtain ⟨_, c₂, hg₂, hnode⟩ := Outcome.andThen_eq_found hitem
      obtain ⟨more, last, hmore, h⟩ := Outcome.andThen_eq_found h
      cases h
      exact .cons hg₁ (skipGap_sound hg₂) (ih.node hnode) (ih.moreItems hmore)

theorem items_succ (ih : Sound depth) {ts : List Tree} (h : readItems (depth + 1) c = .found ts next) :
    Items c.rest (ts.map Tree.said) next.rest := by
  rw [readItems] at h
  split at h
  · cases h
    exact .inl ⟨rfl, rfl⟩
  · cases h
  · rename_i hitem
    obtain ⟨_, c₁, hg, hnode⟩ := Outcome.andThen_eq_found hitem
    obtain ⟨more, last, hmore, h⟩ := Outcome.andThen_eq_found h
    cases h
    exact .inr ⟨_, _, _, _, rfl, skipGap_sound hg, ih.node hnode, ih.moreItems hmore⟩

theorem member_succ (ih : Sound depth) {m : Member Tree} (h : readMember (depth + 1) c = .found m next) :
    ∃ t, Gap c.rest t ∧ SpellsMember t (Tree.saidMember m) next.rest := by
  rw [readMember] at h
  obtain ⟨_, start, hg, h⟩ := Outcome.andThen_eq_found h
  obtain ⟨key, c₁, hkey, h⟩ := Outcome.andThen_eq_found h
  obtain ⟨_, c₂, hg₁, h⟩ := Outcome.andThen_eq_found h
  obtain ⟨_, c₃, hcolon, h⟩ := Outcome.andThen_eq_found h
  obtain ⟨_, c₄, hg₂, h⟩ := Outcome.andThen_eq_found h
  obtain ⟨t, last, ht, h⟩ := Outcome.andThen_eq_found h
  cases h
  have hg₁ := skipGap_sound hg₁
  rw [readChar_eq_found (Outcome.required_eq_found hcolon)] at hg₁
  exact ⟨_, skipGap_sound hg, .mk (readString_sound hkey) hg₁ (skipGap_sound hg₂)
    (ih.node (Outcome.required_eq_found ht))⟩

theorem moreMembers_succ (ih : Sound depth) {ms : List (Member Tree)}
    (h : readMoreMembers (depth + 1) c = .found ms next) :
    MoreMembers c.rest (ms.map Tree.saidMember) next.rest := by
  rw [readMoreMembers] at h
  split at h
  · cases h
    exact .nil
  · cases h
  · rename_i hcomma
    obtain ⟨_, c₁, hg₁, hchar⟩ := Outcome.andThen_eq_found hcomma
    have hg₁ := skipGap_sound hg₁
    rw [readChar_eq_found hchar] at hg₁
    split at h
    · cases h
      exact .nil
    · cases h
    · rename_i hmember
      obtain ⟨t, hg₂, hspells⟩ := ih.member hmember
      obtain ⟨more, last, hmore, h⟩ := Outcome.andThen_eq_found h
      cases h
      exact .cons hg₁ hg₂ hspells (ih.moreMembers hmore)

theorem members_succ (ih : Sound depth) {ms : List (Member Tree)} (h : readMembers (depth + 1) c = .found ms next) :
    Members c.rest (ms.map Tree.saidMember) next.rest := by
  rw [readMembers] at h
  split at h
  · cases h
    exact .inl ⟨rfl, rfl⟩
  · cases h
  · rename_i hmember
    obtain ⟨t, hg, hspells⟩ := ih.member hmember
    obtain ⟨more, last, hmore, h⟩ := Outcome.andThen_eq_found h
    cases h
    exact .inr ⟨_, _, _, _, rfl, hg, hspells, ih.moreMembers hmore⟩

end Sound

theorem sound (depth : Nat) : Sound depth := by
  induction depth with
  | zero => exact sound_zero
  | succ depth ih =>
    exact ⟨ih.node_succ, ih.items_succ, ih.moreItems_succ, ih.member_succ, ih.members_succ, ih.moreMembers_succ⟩

/-! ## What the grammar derives is read -/

section

variable {bracket : Char} {text more rest : List Char}

theorem readChar_self (wanted : Char) (rest : List Char) (p : Position) :
    readChar wanted ⟨wanted :: rest, p⟩ = .found () ⟨rest, p.after wanted⟩ := by
  simp only [readChar, if_true]

theorem readChar_other {wanted c : Char} (h : c ≠ wanted) (rest : List Char) (p : Position) :
    readChar wanted ⟨c :: rest, p⟩ = .absent := by
  simp only [readChar, h, if_false]

theorem stops_bracket (hb : bracket = ']' ∨ bracket = '\x7d') : Stops (bracket :: rest) := by
  rcases hb with rfl | rfl <;> exact .cons (by decide)

/-- A reader that looks for a comma behind a gap finds the one that is there. -/
theorem comma_found (h : Gap text (',' :: more)) (p : Position) :
    ∃ q, ((skipGap ⟨text, p⟩).andThen fun _ c => readChar ',' c) = .found () ⟨more, q⟩ := by
  obtain ⟨q, hq⟩ := skipGap_complete h (.cons (by decide)) p
  exact ⟨q.after ',', by rw [hq]; exact readChar_self ',' more q⟩

theorem comma_absent (hb : bracket = ']' ∨ bracket = '\x7d') (h : Gap text (bracket :: rest)) (p : Position) :
    ((skipGap ⟨text, p⟩).andThen fun _ c => readChar ',' c) = .absent := by
  obtain ⟨q, hq⟩ := skipGap_complete h (stops_bracket hb) p
  rw [hq]
  exact readChar_other (by rcases hb with rfl | rfl <;> decide) rest q

theorem readEnd_empty (hb : bracket = ']' ∨ bracket = '\x7d') (h : Gap text (bracket :: rest)) (wanted : Expected)
    (p : Position) :
    ∃ q, readEnd false bracket wanted ⟨text, p⟩ = .found () ⟨rest, q⟩ := by
  obtain ⟨q, hq⟩ := skipGap_complete h (stops_bracket hb) p
  have hagain : skipGap ⟨bracket :: rest, q⟩ = .found () ⟨bracket :: rest, q⟩ := skipFrom_stops (stops_bracket hb) q
  refine ⟨q.after bracket, ?_⟩
  simp only [readEnd, hq, Outcome.andThen, Bool.false_eq_true, if_false, hagain, readChar_self, Outcome.required]

theorem readEnd_nonempty (hb : bracket = ']' ∨ bracket = '\x7d') (h : Closes bracket text rest) (wanted : Expected)
    (p : Position) :
    ∃ q, readEnd true bracket wanted ⟨text, p⟩ = .found () ⟨rest, q⟩ := by
  cases h with
  | plain hg =>
    obtain ⟨q, hq⟩ := skipGap_complete hg (stops_bracket hb) p
    have hagain : skipGap ⟨bracket :: rest, q⟩ = .found () ⟨bracket :: rest, q⟩ := skipFrom_stops (stops_bracket hb) q
    have hother : readChar ',' ⟨bracket :: rest, q⟩ = .absent :=
      readChar_other (by rcases hb with rfl | rfl <;> decide) rest q
    refine ⟨q.after bracket, ?_⟩
    simp only [readEnd, hq, Outcome.andThen, if_true, hother, hagain, readChar_self, Outcome.required]
  | comma hg hg' =>
    obtain ⟨q, hq⟩ := skipGap_complete hg (.cons (by decide)) p
    obtain ⟨q', hq'⟩ := skipGap_complete hg' (stops_bracket hb) (q.after ',')
    refine ⟨q'.after bracket, ?_⟩
    simp only [readEnd, hq, Outcome.andThen, if_true, readChar_self, hq', Outcome.required]

/-- No value begins with a closing bracket. -/
theorem readNode_bracket (depth : Nat) (p : Position) : readNode depth ⟨']' :: rest, p⟩ = .absent := by
  cases depth with
  | zero => rw [readNode]
  | succ depth =>
    rw [readNode]
    rfl

theorem item_absent (depth : Nat) (h : Gap text (']' :: rest)) (p : Position) :
    ((skipGap ⟨text, p⟩).andThen fun _ c => readNode depth c) = .absent := by
  obtain ⟨q, hq⟩ := skipGap_complete h (.cons (by decide)) p
  rw [hq]
  exact readNode_bracket depth q

/-- No member begins with a closing brace. -/
theorem member_absent (depth : Nat) (h : Gap text ('\x7d' :: rest)) (p : Position) :
    readMember depth ⟨text, p⟩ = .absent := by
  cases depth with
  | zero => rw [readMember]
  | succ depth =>
    obtain ⟨q, hq⟩ := skipGap_complete h (.cons (by decide)) p
    rw [readMember, hq]
    rfl

theorem readItems_empty (depth : Nat) (h : Gap text (']' :: rest)) (p : Position) :
    readItems depth ⟨text, p⟩ = .found [] ⟨text, p⟩ := by
  cases depth with
  | zero => rw [readItems]
  | succ depth => rw [readItems, item_absent depth h p]

theorem readMembers_empty (depth : Nat) (h : Gap text ('\x7d' :: rest)) (p : Position) :
    readMembers depth ⟨text, p⟩ = .found [] ⟨text, p⟩ := by
  cases depth with
  | zero => rw [readMembers]
  | succ depth => rw [readMembers, member_absent depth h p]

/-- At the end of an array no further item is read, be there a comma or not. -/
theorem readMoreItems_end (depth : Nat) (h : Closes ']' text rest) (p : Position) :
    readMoreItems depth ⟨text, p⟩ = .found [] ⟨text, p⟩ := by
  cases depth with
  | zero => rw [readMoreItems]
  | succ depth =>
    rw [readMoreItems]
    cases h with
    | plain hg => rw [comma_absent (.inl rfl) hg p]
    | comma hg hg' =>
      obtain ⟨q, hq⟩ := comma_found hg p
      simp only [hq, item_absent depth hg' q]

theorem readMoreMembers_end (depth : Nat) (h : Closes '\x7d' text rest) (p : Position) :
    readMoreMembers depth ⟨text, p⟩ = .found [] ⟨text, p⟩ := by
  cases depth with
  | zero => rw [readMoreMembers]
  | succ depth =>
    rw [readMoreMembers]
    cases h with
    | plain hg => rw [comma_absent (.inr rfl) hg p]
    | comma hg hg' =>
      obtain ⟨q, hq⟩ := comma_found hg p
      simp only [hq, member_absent depth hg' q]

end

/-- Whatever the grammar derives, the readers find within some depth if the text is not too long for it. -/
structure Complete (depth : Nat) : Prop where
  node : ∀ {text rest : List Char} {v : Value}, Spells text v rest → Literal.Ends rest → 3 * text.length ≤ depth →
    ∀ p, ∃ t q, readNode depth ⟨text, p⟩ = .found t ⟨rest, q⟩ ∧ t.said = v
  items : ∀ {text t₁ t₂ t₃ rest : List Char} {v : Value} {vs : List Value}, Gap text t₁ → Spells t₁ v t₂ →
    MoreItems t₂ vs t₃ → Closes ']' t₃ rest → 3 * text.length + 1 ≤ depth →
    ∀ p, ∃ ts q, readItems depth ⟨text, p⟩ = .found ts ⟨t₃, q⟩ ∧ ts.map Tree.said = v :: vs
  moreItems : ∀ {text t rest : List Char} {vs : List Value}, MoreItems text vs t → Closes ']' t rest →
    3 * text.length ≤ depth → ∀ p, ∃ ts q, readMoreItems depth ⟨text, p⟩ = .found ts ⟨t, q⟩ ∧ ts.map Tree.said = vs
  member : ∀ {text t₁ rest : List Char} {m : String × Value}, Gap text t₁ → SpellsMember t₁ m rest →
    Literal.Ends rest → 3 * text.length + 1 ≤ depth →
    ∀ p, ∃ tm q, readMember depth ⟨text, p⟩ = .found tm ⟨rest, q⟩ ∧ Tree.saidMember tm = m
  members : ∀ {text t₁ t₂ t₃ rest : List Char} {m : String × Value} {ms : List (String × Value)}, Gap text t₁ →
    SpellsMember t₁ m t₂ → MoreMembers t₂ ms t₃ → Closes '\x7d' t₃ rest → 3 * text.length + 2 ≤ depth →
    ∀ p, ∃ tms q, readMembers depth ⟨text, p⟩ = .found tms ⟨t₃, q⟩ ∧ tms.map Tree.saidMember = m :: ms
  moreMembers : ∀ {text t rest : List Char} {ms : List (String × Value)}, MoreMembers text ms t →
    Closes '\x7d' t rest → 3 * text.length ≤ depth →
    ∀ p, ∃ tms q, readMoreMembers depth ⟨text, p⟩ = .found tms ⟨t, q⟩ ∧ tms.map Tree.saidMember = ms

theorem complete_zero : Complete 0 where
  node h _ hd _ := by
    have := h.length_lt
    omega
  items _ _ _ _ hd _ := by omega
  moreItems h hc hd _ := by
    cases h with
    | nil =>
      have := hc.length_lt
      omega
    | cons hg _ _ _ =>
      have := hg.length_le
      rw [List.length_cons] at this
      omega
  member _ _ _ hd _ := by omega
  members _ _ _ _ hd _ := by omega
  moreMembers h hc hd _ := by
    cases h with
    | nil =>
      have := hc.length_lt
      omega
    | cons hg _ _ _ =>
      have := hg.length_le
      rw [List.length_cons] at this
      omega

/-- What is no container is read as a scalar. -/
theorem readNode_scalar {text rest : List Char} {s : Scalar} (h : Spells text (.scalar s) rest) (depth : Nat)
    (p : Position) : readNode (depth + 1) ⟨text, p⟩ = (readScalar ⟨text, p⟩).map fun s => ⟨some p, .scalar s⟩ := by
  obtain ⟨h₁, h₂⟩ := Grammar.scalar_head h
  rw [readNode]
  split
  · rename_i more hc
    exact absurd (congrArg List.head? hc) h₁
  · rename_i more hc
    exact absurd (congrArg List.head? hc) h₂
  · rfl

namespace Complete

variable {depth : Nat} {text t₁ t₂ t₃ rest : List Char}

theorem node_succ (ih : Complete depth) {v : Value} (h : Spells text v rest) (hr : Literal.Ends rest)
    (hd : 3 * text.length ≤ depth + 1) (p : Position) :
    ∃ t q, readNode (depth + 1) ⟨text, p⟩ = .found t ⟨rest, q⟩ ∧ t.said = v := by
  cases v with
  | scalar s =>
    obtain ⟨q, hq⟩ := readScalar_complete h hr p
    exact ⟨_, q, by rw [readNode_scalar h, hq]; rfl, rfl⟩
  | array items =>
    cases h with
    | emptyArray hg =>
      obtain ⟨q, hq⟩ := readEnd_empty (.inl rfl) hg .itemEnd (p.after '[')
      refine ⟨_, q, ?_, Tree.said_array (some p) []⟩
      rw [readNode]
      simp only [readItems_empty depth hg, Outcome.andThen, List.isEmpty_nil, Bool.not_true, hq]
    | array hg hv hmore hc =>
      rw [List.length_cons] at hd
      obtain ⟨ts, q, hread, hsaid⟩ := ih.items hg hv hmore hc (by omega) (p.after '[')
      obtain ⟨q', hq'⟩ := readEnd_nonempty (.inl rfl) hc .itemEnd q
      have hts := isEmpty_of_map hsaid
      refine ⟨⟨some p, .array ts⟩, q', ?_, by rw [Tree.said_array, hsaid]⟩
      rw [readNode]
      simp only [hread, Outcome.andThen, hts, Bool.not_false, hq']
  | object members =>
    cases h with
    | emptyObject hg =>
      obtain ⟨q, hq⟩ := readEnd_empty (.inr rfl) hg .memberEnd (p.after '\x7b')
      refine ⟨_, q, ?_, Tree.said_object (some p) []⟩
      rw [readNode]
      simp only [readMembers_empty depth hg, Outcome.andThen, List.isEmpty_nil, Bool.not_true, hq]
    | object hg hm hmore hc =>
      rw [List.length_cons] at hd
      obtain ⟨ts, q, hread, hsaid⟩ := ih.members hg hm hmore hc (by omega) (p.after '\x7b')
      obtain ⟨q', hq'⟩ := readEnd_nonempty (.inr rfl) hc .memberEnd q
      have hts := isEmpty_of_map hsaid
      refine ⟨⟨some p, .object ts⟩, q', ?_, by rw [Tree.said_object, hsaid]⟩
      rw [readNode]
      simp only [hread, Outcome.andThen, hts, Bool.not_false, hq']

theorem items_succ (ih : Complete depth) {v : Value} {vs : List Value} (hg : Gap text t₁) (hv : Spells t₁ v t₂)
    (hmore : MoreItems t₂ vs t₃) (hc : Closes ']' t₃ rest) (hd : 3 * text.length + 1 ≤ depth + 1) (p : Position) :
    ∃ ts q, readItems (depth + 1) ⟨text, p⟩ = .found ts ⟨t₃, q⟩ ∧ ts.map Tree.said = v :: vs := by
  have hle := hg.length_le
  have hlt := hv.length_lt
  have hends := hmore.ends (hc.ends (by simp))
  obtain ⟨q₁, hq₁⟩ := skipGap_complete hg hv.stops p
  obtain ⟨t, q₂, hread, hsaid⟩ := ih.node hv hends (by omega) q₁
  obtain ⟨ts, q₃, hrest, hsaids⟩ := ih.moreItems hmore hc (by omega) q₂
  refine ⟨t :: ts, q₃, ?_, by rw [List.map_cons, hsaid, hsaids]⟩
  rw [readItems]
  simp only [hq₁, Outcome.andThen, hread, hrest]
  rfl

theorem moreItems_succ (ih : Complete depth) {vs : List Value} (h : MoreItems text vs t₁) (hc : Closes ']' t₁ rest)
    (hd : 3 * text.length ≤ depth + 1) (p : Position) :
    ∃ ts q, readMoreItems (depth + 1) ⟨text, p⟩ = .found ts ⟨t₁, q⟩ ∧ ts.map Tree.said = vs := by
  cases h with
  | nil => exact ⟨[], p, readMoreItems_end (depth + 1) hc p, rfl⟩
  | cons hg hg' hv hmore =>
    have hle := hg.length_le
    have hle' := hg'.length_le
    have hlt := hv.length_lt
    rw [List.length_cons] at hle
    have hends := hmore.ends (hc.ends (by simp))
    obtain ⟨q, hq⟩ := comma_found hg p
    obtain ⟨q₁, hq₁⟩ := skipGap_complete hg' hv.stops q
    obtain ⟨t, q₂, hread, hsaid⟩ := ih.node hv hends (by omega) q₁
    obtain ⟨ts, q₃, hrest, hsaids⟩ := ih.moreItems hmore hc (by omega) q₂
    refine ⟨t :: ts, q₃, ?_, by rw [List.map_cons, hsaid, hsaids]⟩
    rw [readMoreItems]
    simp only [hq]
    simp only [hq₁, Outcome.andThen, hread, hrest]
    rfl

theorem member_succ (ih : Complete depth) {m : String × Value} (hg : Gap text t₁) (hm : SpellsMember t₁ m rest)
    (hr : Literal.Ends rest) (hd : 3 * text.length + 1 ≤ depth + 1) (p : Position) :
    ∃ tm q, readMember (depth + 1) ⟨text, p⟩ = .found tm ⟨rest, q⟩ ∧ Tree.saidMember tm = m := by
  obtain ⟨q₁, hq₁⟩ := skipGap_complete hg hm.stops p
  obtain ⟨hkey, hg₁, hg₂, hv⟩ := hm
  have hle := hg.length_le
  have hle₁ := hg₁.length_le
  have hle₂ := hg₂.length_le
  have hlt := hkey.length_lt
  rw [List.length_cons] at hle₁
  obtain ⟨q₂, hq₂⟩ := readString_complete hkey q₁
  obtain ⟨q₃, hq₃⟩ := skipGap_complete hg₁ (.cons (by decide)) q₂
  obtain ⟨q₄, hq₄⟩ := skipGap_complete hg₂ hv.stops (q₃.after ':')
  obtain ⟨t, q₅, hread, hsaid⟩ := ih.node hv hr (by omega) q₄
  refine ⟨⟨_, some q₁, t⟩, q₅, ?_, by rw [Tree.saidMember, hsaid]⟩
  rw [readMember]
  simp only [hq₁, hq₂, hq₃, hq₄, Outcome.andThen, readChar_self, Outcome.required, hread]
  rfl

theorem members_succ (ih : Complete depth) {m : String × Value} {ms : List (String × Value)} (hg : Gap text t₁)
    (hm : SpellsMember t₁ m t₂) (hmore : MoreMembers t₂ ms t₃) (hc : Closes '\x7d' t₃ rest)
    (hd : 3 * text.length + 2 ≤ depth + 1) (p : Position) :
    ∃ tms q, readMembers (depth + 1) ⟨text, p⟩ = .found tms ⟨t₃, q⟩ ∧ tms.map Tree.saidMember = m :: ms := by
  have hle := hg.length_le
  have hlt := hm.length_lt
  have hends := hmore.ends (hc.ends (by simp))
  obtain ⟨tm, q₂, hread, hsaid⟩ := ih.member hg hm hends (by omega) p
  obtain ⟨tms, q₃, hrest, hsaids⟩ := ih.moreMembers hmore hc (by omega) q₂
  refine ⟨tm :: tms, q₃, ?_, by rw [List.map_cons, hsaid, hsaids]⟩
  rw [readMembers]
  simp only [hread, hrest]
  rfl

theorem moreMembers_succ (ih : Complete depth) {ms : List (String × Value)} (h : MoreMembers text ms t₁)
    (hc : Closes '\x7d' t₁ rest) (hd : 3 * text.length ≤ depth + 1) (p : Position) :
    ∃ tms q, readMoreMembers (depth + 1) ⟨text, p⟩ = .found tms ⟨t₁, q⟩ ∧ tms.map Tree.saidMember = ms := by
  cases h with
  | nil => exact ⟨[], p, readMoreMembers_end (depth + 1) hc p, rfl⟩
  | cons hg hg' hm hmore =>
    have hle := hg.length_le
    have hle' := hg'.length_le
    have hlt := hm.length_lt
    rw [List.length_cons] at hle
    have hends := hmore.ends (hc.ends (by simp))
    obtain ⟨q, hq⟩ := comma_found hg p
    obtain ⟨tm, q₂, hread, hsaid⟩ := ih.member hg' hm hends (by omega) q
    obtain ⟨tms, q₃, hrest, hsaids⟩ := ih.moreMembers hmore hc (by omega) q₂
    refine ⟨tm :: tms, q₃, ?_, by rw [List.map_cons, hsaid, hsaids]⟩
    rw [readMoreMembers]
    simp only [hq, hread, hrest]
    rfl

end Complete

theorem complete (depth : Nat) : Complete depth := by
  induction depth with
  | zero => exact complete_zero
  | succ depth ih =>
    exact ⟨ih.node_succ, ih.items_succ, ih.moreItems_succ, ih.member_succ, ih.members_succ, ih.moreMembers_succ⟩

/-! ## Whole texts -/

/-- The root of a document that is made of a tree has the tree's value. -/
theorem Document.rootValue_ofTree {t : Tree} (h : t.Keyed) : (Document.ofTree t).rootValue = t.value := by
  rw [ofTree_eq_add]
  exact congrArg Tree.value (blank_linked.tree_nextId_add h)

theorem withoutMark_cons (text : List Char) : withoutMark ('\ufeff' :: text) = text := rfl

theorem withoutMark_of_head {text : List Char} (h : text.head? ≠ some '\ufeff') : withoutMark text = text := by
  unfold withoutMark
  split
  · exact absurd rfl h
  · rfl

theorem readRaw_sound {text : List Char} {t : Tree} (h : readRaw text = .ok t) :
    ∃ body rest, Gap text body ∧ Spells body t.said rest ∧ Gap rest [] := by
  unfold readRaw at h
  dsimp only at h
  split at h
  · rename_i tree place hread
    cases h
    obtain ⟨_, start, hg, hread⟩ := Outcome.andThen_eq_found hread
    obtain ⟨t, c, hnode, hread⟩ := Outcome.andThen_eq_found hread
    obtain ⟨_, last, hg', hread⟩ := Outcome.andThen_eq_found hread
    cases hread
    exact ⟨_, _, skipGap_sound hg, (sound _).node (Outcome.required_eq_found hnode), skipGap_sound hg'⟩
  · cases h
  · cases h
  · cases h

theorem readRaw_complete {text body rest : List Char} {v : Value} (hg : Gap text body) (hv : Spells body v rest)
    (hend : Gap rest []) : ∃ t, readRaw text = .ok t ∧ t.said = v := by
  have hle := hg.length_le
  obtain ⟨p, hp⟩ := skipGap_complete hg hv.stops .start
  obtain ⟨t, q, hread, hsaid⟩ := (complete (readDepth text)).node hv (hend.ends Grammar.ends_nil)
    (by unfold readDepth; omega) p
  obtain ⟨r, hr⟩ := skipGap_complete hend (fun _ hc => nomatch hc) q
  refine ⟨t, ?_, hsaid⟩
  simp only [readRaw, Cursor.start, hp, Outcome.andThen, hread, Outcome.required, hr]

/-- No document begins with a byte order mark, apart from the one that is taken off. -/
theorem head_ne_mark {text body rest : List Char} {v : Value} (hg : Gap text body) (hv : Spells body v rest) :
    text.head? ≠ some '\ufeff' := by
  rcases hg.head with rfl | ⟨c, more, rfl, hc⟩
  · exact hv.head_ne (by decide) (by decide)
  · intro h
    obtain rfl := Option.some.inj h
    exact absurd hc (by decide)

theorem treeParse_sound {text : String} {t : Tree} (h : Tree.parse text = .ok t) :
    Grammar.Document text.toList t.value := by
  unfold Tree.parse at h
  cases hr : readRaw (withoutMark text.toList) with
  | error f => rw [hr] at h; cases h
  | ok raw =>
    rw [hr] at h
    obtain rfl : raw.distinct = t := Except.ok.inj h
    obtain ⟨body, rest, hg, hv, hend⟩ := readRaw_sound hr
    refine ⟨withoutMark text.toList, body, rest, ?_, hg, hv, hend⟩
    unfold withoutMark
    split
    · exact .inr ‹_›
    · exact .inl rfl

theorem treeParse_complete {text : String} {v : Value} (h : Grammar.Document text.toList v) :
    ∃ t, Tree.parse text = .ok t ∧ t.value = v := by
  obtain ⟨body, t, rest, htext, hg, hv, hend⟩ := h
  have hmark : withoutMark text.toList = body := by
    rcases htext with htext | htext
    · rw [htext]
      exact withoutMark_of_head (head_ne_mark hg hv)
    · rw [htext, withoutMark_cons]
  obtain ⟨raw, hread, hsaid⟩ := readRaw_complete hg hv hend
  exact ⟨raw.distinct, by rw [Tree.parse, hmark, hread]; rfl, hsaid⟩

/-- What a text is read as is what the grammar derives for it, and nothing else is. -/
theorem parse_eq_iff {text : String} {v : Value} :
    (∃ d, Document.parse text = .ok d ∧ d.rootValue = v) ↔ Grammar.Document text.toList v := by
  constructor
  · rintro ⟨d, hd, rfl⟩
    unfold Document.parse at hd
    cases ht : Tree.parse text with
    | error f => rw [ht] at hd; cases hd
    | ok t =>
      rw [ht] at hd
      obtain rfl : Document.ofTree t = d := Except.ok.inj hd
      rw [Document.rootValue_ofTree (Document.treeParse_keyed ht)]
      exact treeParse_sound ht
  · intro h
    obtain ⟨t, ht, rfl⟩ := treeParse_complete h
    refine ⟨Document.ofTree t, by rw [Document.parse, ht]; rfl, ?_⟩
    exact Document.rootValue_ofTree (Document.treeParse_keyed ht)

/-- A text is read as a document exactly if the grammar derives it, and the values that the grammar derives for
    it are those of the documents it is read as, so there is just one. -/
theorem parse_iff_grammar (text : String) :
    ((∃ d, Document.parse text = .ok d) ↔ ∃ v, Grammar.Document text.toList v) ∧
      ∀ v, Grammar.Document text.toList v ↔ ∃ d, Document.parse text = .ok d ∧ d.rootValue = v := by
  refine ⟨⟨?_, ?_⟩, fun v => parse_eq_iff.symm⟩
  · rintro ⟨d, hd⟩
    exact ⟨d.rootValue, parse_eq_iff.1 ⟨d, hd, rfl⟩⟩
  · rintro ⟨v, hv⟩
    obtain ⟨d, hd, -⟩ := parse_eq_iff.2 hv
    exact ⟨d, hd⟩

end Reshape
