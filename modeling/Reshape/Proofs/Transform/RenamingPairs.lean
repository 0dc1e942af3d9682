/-
  Reshape.Proofs.Transform.RenamingPairs — pairs of names, one after the other or all at once.

  The pairs of a `rename` are taken in turn, each on the object as those before it have left
  it. A pair whose old name is not there is warned about; otherwise the member gets the new
  name in its place, and another member of that name is dropped. To rename all at once would
  be to look each old name up in the object as it was (`atOnce`, `missing`).

  Where renaming at once leaves no name twice, both come to the same unless pairs are chained:
  unless a member is given the name that a pair behind renames (`Unchained`). Then either the
  member that had this name is dropped before its turn, or what has just been given the name
  is renamed on, and that the name was missing goes unsaid. Two names that are there cannot be
  swapped, in either order; `b` to `c` and then `a` to `b` are unchained, the other way round not.

  - `exec_renamePairs`: what the verb does with pairs, told by members and warnings alone.
  - `inTurn_iff`: the two ways of renaming compared, by induction on the pairs.
  - `pairs_rename_at_once_iff`: renaming pairs of names ends well, and comes to renaming them
    at once exactly if they are unchained.
  - `chain_drops`: two members, the first given the name of the second.
-/

import Reshape.Proofs.Transform.Overtaking

namespace Reshape

/-! ## Members of which one is renamed -/

namespace Member

variable {α : Type} {old new key : String} {ms : List (Member α)}

theorem length_renamed_le : (renamed old new ms).length ≤ ms.length := by
  rw [renamed, List.length_map]
  exact List.length_filter_le _ ms

/-- A member that has the new name already is dropped. -/
theorem length_renamed_lt (hne : new ≠ old) (hnew : new ∈ ms.map Member.key) :
    (renamed old new ms).length < ms.length := by
  obtain ⟨m, hm, rfl⟩ := List.mem_map.mp hnew
  rw [renamed, List.length_map]
  exact List.length_filter_lt_length_iff_exists.mpr ⟨m, hm, by simp [hne]⟩

/-- Other names are there if they were. -/
theorem mem_keys_renamed (hold : key ≠ old) (hnew : key ≠ new) :
    key ∈ (renamed old new ms).map Member.key ↔ key ∈ ms.map Member.key := by
  simp only [renamed, List.mem_map, List.mem_filter]
  constructor
  · intro h
    obtain ⟨n, ⟨m, ⟨hm, -⟩, rfl⟩, hk⟩ := h
    split at hk
    · exact absurd hk.symm hnew
    · exact ⟨m, hm, hk⟩
  · intro h
    obtain ⟨m, hm, rfl⟩ := h
    exact ⟨m, ⟨m, ⟨hm, by simp [hnew]⟩, if_neg hold⟩, rfl⟩

theorem new_mem_keys_renamed (hold : old ∈ ms.map Member.key) : new ∈ (renamed old new ms).map Member.key := by
  obtain ⟨m, hm, rfl⟩ := List.mem_map.mp hold
  refine List.mem_map.mpr ⟨{ m with key := new }, List.mem_map.mpr ⟨m, ?_, if_pos rfl⟩, rfl⟩
  exact List.mem_filter.mpr ⟨hm, by simp⟩

/-- Nothing is dropped for a name that no other member has. -/
theorem renamed_of_free (hfree : new ∈ ms.map Member.key → new = old) :
    renamed old new ms = ms.map fun m => if m.key = old then { m with key := new } else m := by
  have hall : ms.filter (fun m => m.key == old || m.key != new) = ms := by
    refine List.filter_eq_self.mpr fun m hm => ?_
    by_cases e : m.key = new
    · simp [e, hfree (e ▸ List.mem_map_of_mem hm)]
    · simp [e]
  rw [renamed, hall]

end Member

namespace Renaming

variable {s s' : Session} {d : Document} {node x : NodeId} {operand : Tree} {name : String} {keys : List String}
variable {pair q : Member Tree} {pairs rest : List (Member Tree)} {ms : List (Member NodeId)}

/-! ## Pairs of names -/

def newName (pair : Member Tree) : String := pair.value.string?.getD pair.key

def renamedBy (pair : Member Tree) (ms : List (Member NodeId)) : List (Member NodeId) :=
  if pair.key ∈ ms.map Member.key then Member.renamed pair.key (newName pair) ms else ms

def inTurn (ms : List (Member NodeId)) : List (Member Tree) → List (Member NodeId)
  | [] => ms
  | pair :: rest => inTurn (renamedBy pair ms) rest

/-- The warnings about the old names that are not there in their turn. -/
def missedInTurn (ms : List (Member NodeId)) : List (Member Tree) → List Warning
  | [] => []
  | pair :: rest =>
    if pair.key ∈ ms.map Member.key then missedInTurn (renamedBy pair ms) rest
    else ⟨pair.key, pair.position⟩ :: missedInTurn (renamedBy pair ms) rest

/-- What the pairs make of a name: the new name of the pair for it, if there is one. -/
def newKey (pairs : List (Member Tree)) (key : String) : String :=
  ((Member.find? key pairs).map newName).getD key

/-- The members with each name replaced by what the pairs make of it. -/
def atOnce (pairs : List (Member Tree)) (ms : List (Member NodeId)) : List (Member NodeId) :=
  ms.map fun m => { m with key := newKey pairs m.key }

def missing (pairs : List (Member Tree)) (ms : List (Member NodeId)) : List Warning :=
  (pairs.filter fun pair => pair.key ∉ ms.map Member.key).map fun pair => ⟨pair.key, pair.position⟩

/-- No pair that finds its old name among `keys` gives the name that a pair behind it renames. -/
def Unchained (keys : List String) (pairs : List (Member Tree)) : Prop :=
  pairs.Pairwise fun first later => first.key ∈ keys → newName first ≠ later.key

instance (keys : List String) (pairs : List (Member Tree)) : Decidable (Unchained keys pairs) :=
  inferInstanceAs (Decidable (pairs.Pairwise _))

structure RenamedAtOnce (pairs : List (Member Tree)) (node : NodeId) (s s' : Session) : Prop where
  members : s'.document.members node = atOnce pairs (s.document.members node)
  warnings : s'.warnings = s.warnings ++ missing pairs (s.document.members node)

/-! ## The verb -/

/-- The members of an object one of whose properties gets another name. -/
theorem members_rename (h : d.WellFormed) (hx : d.get? node name = some x) (new : String) :
    (d.perform (.rename x new)).members node = Member.renamed name new (d.members node) := by
  have hp := h.parent_of_get? hx
  obtain ⟨-, -, hiff⟩ := h.slot_listed hp (h.slot_eq_property_iff.mpr hx)
  rw [Document.members, h.content_rename hp, if_pos rfl, Document.content_of_isObject (Document.isObject_of_get? hx),
    ← Content.object_renamed hiff]
  rfl

/-- A pair whose old name is there renames that property. -/
theorem exec_renamePairs_present (h : s.document.WellFormed) (hnew : pair.value.string? = some name)
    (hx : s.document.get? node pair.key = some x) :
    (renamePairs node (pair :: rest)).exec s = (renamePairs node rest).exec (s.changed (.rename x name)) := by
  rw [renamePairs]
  simp only [hnew]
  rw [Run.exec_bind_ok (Run.exec_document s), hx]
  exact Run.exec_bind_ok (exec_renameNode_ok h ⟨node, pair.key, hx⟩)

/-- A pair whose old name is not there is warned about. -/
theorem exec_renamePairs_absent (hnew : pair.value.string? = some name)
    (hx : s.document.get? node pair.key = none) :
    (renamePairs node (pair :: rest)).exec s =
      (renamePairs node rest).exec (s.missed ⟨pair.key, pair.position⟩) := by
  rw [renamePairs]
  simp only [hnew]
  rw [Run.exec_bind_ok (Run.exec_document s), hx]
  exact Run.exec_bind_ok (Run.exec_warn pair.key pair.position s)

/-- Pairs of names are renamed in turn, and what is not there is warned about. -/
theorem exec_renamePairs (h : s.document.WellFormed) (node : NodeId)
    (hnames : ∀ pair ∈ pairs, pair.value.string?.isSome) :
    ∃ s', (renamePairs node pairs).exec s = (.ok (), s') ∧
      s'.document.members node = inTurn (s.document.members node) pairs ∧
      s'.warnings = s.warnings ++ missedInTurn (s.document.members node) pairs := by
  induction pairs generalizing s with
  | nil => exact ⟨s, rfl, rfl, (List.append_nil _).symm⟩
  | cons pair rest ih =>
    have hrest := fun p hp => hnames p (List.mem_cons_of_mem _ hp)
    obtain ⟨new, hnew⟩ := Option.isSome_iff_exists.mp (hnames pair List.mem_cons_self)
    have hname : newName pair = new := by rw [newName, hnew]; rfl
    rw [inTurn, missedInTurn, renamedBy, hname]
    cases hx : s.document.get? node pair.key with
    | none =>
      have hk := Document.get?_eq_none_iff.mp hx
      rw [exec_renamePairs_absent hnew hx, if_neg hk, if_neg hk]
      obtain ⟨s', hrun, hmembers, hwarnings⟩ := ih (s := s.missed ⟨pair.key, pair.position⟩) h hrest
      refine ⟨s', hrun, hmembers, ?_⟩
      rw [hwarnings, Session.warnings_missed, List.append_assoc]
      rfl
    | some x =>
      have hk : pair.key ∈ (s.document.members node).map Member.key := by
        by_contra hnot
        rw [Document.get?_eq_none_iff.mpr hnot] at hx
        cases hx
      have hafter : (s.changed (.rename x new)).document.members node =
          Member.renamed pair.key new (s.document.members node) := members_rename h hx new
      rw [exec_renamePairs_present h hnew hx, if_pos hk, if_pos hk, ← hafter]
      obtain ⟨s', hrun, hmembers, hwarnings⟩ := ih (s := s.changed (.rename x new)) (h.rename hx new) hrest
      rw [Session.warnings_changed] at hwarnings
      exact ⟨s', hrun, hmembers, hwarnings⟩

/-- An operand without directive keys is taken for pairs of names. -/
theorem exec_act_of_literal (ho : operand.isObject = true)
    (hliteral : ∀ m ∈ operand.members, directiveName? m.key = none) (node : NodeId) (s : Session) :
    (act node operand).exec s = ((renamePairs node operand.members >>= fun _ => pure .proceed : Run Flow).exec s) := by
  have hdata := Target.ofOperand?_of_literal hliteral .rename
  rw [act, ho, Bool.not_true, if_neg Bool.false_ne_true, Run.exec_bind_ok (Run.exec_demand_ok hdata s)]

/-! ## In turn and at once -/

theorem length_renamedBy_le : (renamedBy pair ms).length ≤ ms.length := by
  unfold renamedBy
  split
  · exact Member.length_renamed_le
  · exact le_rfl

theorem length_inTurn_le : (inTurn ms pairs).length ≤ ms.length := by
  induction pairs generalizing ms with
  | nil => exact le_rfl
  | cons pair rest ih => exact ih.trans length_renamedBy_le

theorem length_atOnce : (atOnce pairs ms).length = ms.length := List.length_map _

/-- What is warned about is an old name of the pairs. -/
theorem mem_missedInTurn {w : Warning} (h : w ∈ missedInTurn ms pairs) : w.name ∈ pairs.map Member.key := by
  induction pairs generalizing ms with
  | nil => cases h
  | cons pair rest ih =>
    rw [missedInTurn] at h
    rw [List.map_cons, List.mem_cons]
    split at h
    · exact Or.inr (ih h)
    · rcases List.mem_cons.mp h with rfl | h
      · exact Or.inl rfl
      · exact Or.inr (ih h)

/-- A name that is there is found in its turn, unless a member has been dropped before. -/
theorem dropped_or_found (hn : (pairs.map Member.key).Nodup) (hq : q ∈ pairs) (hk : q.key ∈ ms.map Member.key) :
    (inTurn ms pairs).length < ms.length ∨ q.key ∉ (missedInTurn ms pairs).map Warning.name := by
  induction pairs generalizing ms with
  | nil => cases hq
  | cons pair rest ih =>
    rw [List.map_cons, List.nodup_cons] at hn
    rw [inTurn, missedInTurn]
    rcases List.mem_cons.mp hq with rfl | hq
    · refine Or.inr fun hw => ?_
      rw [if_pos hk] at hw
      obtain ⟨w, hw, he⟩ := List.mem_map.mp hw
      exact hn.1 (he ▸ mem_missedInTurn hw)
    · have hne : q.key ≠ pair.key := fun e => hn.1 (e ▸ List.mem_map_of_mem hq)
      by_cases hp : pair.key ∈ ms.map Member.key
      · rw [if_pos hp, renamedBy, if_pos hp]
        by_cases e : q.key = newName pair
        · -- The pair takes the name from the member that has it.
          have hlt : (Member.renamed pair.key (newName pair) ms).length < ms.length :=
            Member.length_renamed_lt (e ▸ hne) (e ▸ hk)
          exact Or.inl (length_inTurn_le.trans_lt hlt)
        · have hstays := (Member.mem_keys_renamed hne e).mpr hk
          exact (ih hn.2 hq hstays).imp_left fun hlt => hlt.trans_le Member.length_renamed_le
      · rw [if_neg hp, renamedBy, if_neg hp, List.map_cons, List.mem_cons]
        exact (ih hn.2 hq hk).imp_right fun hnot => not_or.mpr ⟨hne, hnot⟩

theorem newKey_cons (pair : Member Tree) (rest : List (Member Tree)) (key : String) :
    newKey (pair :: rest) key = if pair.key = key then newName pair else newKey rest key := by
  rw [newKey, Member.find?]
  split <;> rfl

theorem newKey_of_absent (h : name ∉ pairs.map Member.key) : newKey pairs name = name := by
  rw [newKey, Member.find?_eq_none_iff.mpr h]
  rfl

/-- A pair that finds nothing makes no difference. -/
theorem atOnce_cons_absent (hk : pair.key ∉ ms.map Member.key) : atOnce (pair :: rest) ms = atOnce rest ms := by
  refine List.map_congr_left fun m hm => ?_
  have hne : pair.key ≠ m.key := fun e => hk (e ▸ List.mem_map_of_mem hm)
  rw [newKey_cons, if_neg hne]

theorem keys_atOnce : (atOnce pairs ms).map Member.key = ms.map fun m => newKey pairs m.key := by
  rw [atOnce, List.map_map]
  rfl

/-- A name that a pair gives, and that no pair behind it renames, is free if the new names are distinct. -/
theorem newName_free (hk : pair.key ∈ ms.map Member.key) (hrest : newName pair ∉ rest.map Member.key)
    (hd : ((atOnce (pair :: rest) ms).map Member.key).Nodup) (hnew : newName pair ∈ ms.map Member.key) :
    newName pair = pair.key := by
  obtain ⟨m, hm, hmk⟩ := List.mem_map.mp hk
  obtain ⟨n, hn, hnk⟩ := List.mem_map.mp hnew
  by_contra hne
  have hmnew : newKey (pair :: rest) m.key = newName pair := by rw [newKey_cons, if_pos hmk.symm]
  have hnnew : newKey (pair :: rest) n.key = newName pair := by
    rw [newKey_cons, hnk, if_neg (Ne.symm hne), newKey_of_absent hrest]
  rw [keys_atOnce] at hd
  obtain rfl : m = n := List.inj_on_of_nodup_map hd hm hn (hmnew.trans hnnew.symm)
  exact hne (hnk.symm.trans hmk)

/-- The first pair may go first if no pair behind it renames the name that it gives. -/
theorem atOnce_cons_present (hk : pair.key ∈ ms.map Member.key) (hrest : newName pair ∉ rest.map Member.key)
    (hd : ((atOnce (pair :: rest) ms).map Member.key).Nodup) :
    atOnce (pair :: rest) ms = atOnce rest (Member.renamed pair.key (newName pair) ms) := by
  rw [Member.renamed_of_free (newName_free hk hrest hd), atOnce, atOnce, List.map_map]
  refine List.map_congr_left fun m _ => ?_
  rw [Function.comp_apply, newKey_cons]
  by_cases e : m.key = pair.key
  · rw [if_pos e.symm, if_pos e]
    show _ = { m with key := newKey rest (newName pair) }
    rw [newKey_of_absent hrest]
  · rw [if_neg (Ne.symm e), if_neg e]

theorem missing_cons_absent (hk : pair.key ∉ ms.map Member.key) :
    missing (pair :: rest) ms = ⟨pair.key, pair.position⟩ :: missing rest ms := by
  rw [missing, List.filter_cons_of_pos (by simpa using hk)]
  rfl

theorem missing_cons_present (hk : pair.key ∈ ms.map Member.key) : missing (pair :: rest) ms = missing rest ms := by
  rw [missing, List.filter_cons_of_neg (by simpa using hk)]
  rfl

section Behind

variable (hold : pair.key ∉ rest.map Member.key) (hnew : name ∉ rest.map Member.key)
include hold hnew

/-- What the pairs behind rename is there after a pair that has other names if it was before. -/
theorem mem_keys_behind (hq : q ∈ rest) :
    q.key ∈ (Member.renamed pair.key name ms).map Member.key ↔ q.key ∈ ms.map Member.key := by
  have hmem : q.key ∈ rest.map Member.key := List.mem_map_of_mem hq
  exact Member.mem_keys_renamed (ne_of_mem_of_not_mem hmem hold) (ne_of_mem_of_not_mem hmem hnew)

theorem missing_renamed : missing rest (Member.renamed pair.key name ms) = missing rest ms := by
  refine congrArg (List.map _) (List.filter_congr fun q hq => ?_)
  exact decide_eq_decide.mpr (not_congr (mem_keys_behind hold hnew hq))

theorem unchained_renamed :
    Unchained ((Member.renamed pair.key name ms).map Member.key) rest ↔ Unchained (ms.map Member.key) rest := by
  refine List.Pairwise.iff_of_mem fun {q later} hq _ => ?_
  rw [mem_keys_behind hold hnew hq]

end Behind

theorem unchained_cons : Unchained keys (pair :: rest) ↔
    (pair.key ∈ keys → newName pair ∉ rest.map Member.key) ∧ Unchained keys rest := by
  rw [Unchained, List.pairwise_cons]
  refine and_congr_left fun _ => ?_
  constructor
  · intro h hk hmem
    obtain ⟨later, hlater, he⟩ := List.mem_map.mp hmem
    exact h later hlater hk he.symm
  · intro h later hlater hk e
    exact h hk (e ▸ List.mem_map_of_mem hlater)

/-- A chain shows: a member is dropped, or a name that was missing is not warned about. -/
theorem chained_differs (hn : ((pair :: rest).map Member.key).Nodup) (hk : pair.key ∈ ms.map Member.key)
    (hchained : newName pair ∈ rest.map Member.key) (hlength : (inTurn ms (pair :: rest)).length = ms.length) :
    missedInTurn ms (pair :: rest) ≠ missing (pair :: rest) ms := by
  obtain ⟨q, hq, hqk⟩ := List.mem_map.mp hchained
  rw [List.map_cons, List.nodup_cons] at hn
  have hne : newName pair ≠ pair.key := fun e => hn.1 (e ▸ hchained)
  rw [inTurn, renamedBy, if_pos hk] at hlength
  rw [missedInTurn, if_pos hk, renamedBy, if_pos hk]
  set after := Member.renamed pair.key (newName pair) ms
  have hle : after.length ≤ ms.length := Member.length_renamed_le
  -- Nothing has been dropped, so the member of the new name is found in the turn of `q`, ...
  have hfound : q.key ∉ (missedInTurn after rest).map Warning.name := by
    have hthere : q.key ∈ after.map Member.key := hqk ▸ Member.new_mem_keys_renamed hk
    refine (dropped_or_found hn.2 hq hthere).resolve_left fun hlt => ?_
    omega
  -- ... and it had not been there before, or it would have been dropped.
  have hmissing : q.key ∉ ms.map Member.key := by
    intro hthere
    have hlt : after.length < ms.length := Member.length_renamed_lt hne (hqk ▸ hthere)
    have hrest : (inTurn after rest).length ≤ after.length := length_inTurn_le
    omega
  intro e
  have hwarned : (⟨q.key, q.position⟩ : Warning) ∈ missing (pair :: rest) ms :=
    List.mem_map.mpr ⟨q, List.mem_filter.mpr ⟨List.mem_cons_of_mem _ hq, by simpa using hmissing⟩, rfl⟩
  exact hfound (List.mem_map.mpr ⟨_, e ▸ hwarned, rfl⟩)

/-- Where renaming at once leaves no name twice, renaming in turn comes to the same if the pairs are unchained,
    and to something else if they are not. -/
theorem inTurn_iff (hn : (pairs.map Member.key).Nodup) (hd : ((atOnce pairs ms).map Member.key).Nodup) :
    (inTurn ms pairs = atOnce pairs ms ∧ missedInTurn ms pairs = missing pairs ms) ↔
      Unchained (ms.map Member.key) pairs := by
  induction pairs generalizing ms with
  | nil =>
    have hsame : atOnce [] ms = ms := List.map_id ms
    exact iff_of_true ⟨hsame.symm, rfl⟩ List.Pairwise.nil
  | cons pair rest ih =>
    obtain ⟨hold, hrest⟩ := List.nodup_cons.mp hn
    rw [unchained_cons]
    by_cases hk : pair.key ∈ ms.map Member.key
    · rw [imp_iff_right hk]
      by_cases hchained : newName pair ∈ rest.map Member.key
      · refine iff_of_false (fun hsame => ?_) fun hand => hand.1 hchained
        exact chained_differs hn hk hchained (hsame.1 ▸ length_atOnce) hsame.2
      · have hcons := atOnce_cons_present hk hchained hd
        rw [hcons] at hd
        rw [and_iff_right hchained, ← unchained_renamed hold hchained, ← ih hrest hd, hcons, missing_cons_present hk,
          missing_renamed hold hchained, inTurn, missedInTurn, if_pos hk, renamedBy, if_pos hk]
    · have hcons : atOnce (pair :: rest) ms = atOnce rest ms := atOnce_cons_absent hk
      rw [hcons] at hd
      rw [and_iff_right (fun hmem => absurd hmem hk), ← ih hrest hd, hcons, missing_cons_absent hk, inTurn,
        missedInTurn, if_neg hk, renamedBy, if_neg hk, List.cons_inj_right]

/-! ## Renaming pairs -/

/-- Renaming an object's properties by pairs of names ends well. Where renaming them at once leaves no name
    twice, it comes to just that, exactly if no pair gives the name that a pair behind it renames. -/
theorem pairs_rename_at_once_iff (h : s.document.WellFormed) (ht : operand.Keyed) (ho : operand.isObject = true)
    (hliteral : ∀ m ∈ operand.members, directiveName? m.key = none)
    (hnames : ∀ m ∈ operand.members, m.value.string?.isSome)
    (hd : ((atOnce operand.members (s.document.members node)).map Member.key).Nodup) :
    ∃ s', (act node operand).exec s = (.ok .proceed, s') ∧
      (RenamedAtOnce operand.members node s s' ↔
        Unchained ((s.document.members node).map Member.key) operand.members) := by
  obtain ⟨s', hrun, hmembers, hwarnings⟩ := exec_renamePairs h node hnames
  refine ⟨s', ?_, ?_⟩
  · rw [exec_act_of_literal ho hliteral, Run.exec_bind_ok hrun]
    rfl
  · rw [← inTurn_iff ht.keys hd]
    constructor
    · intro hr
      exact ⟨hmembers ▸ hr.members, List.append_cancel_left (hwarnings.symm.trans hr.warnings)⟩
    · intro hsame
      exact ⟨hmembers.trans hsame.1, by rw [hwarnings, hsame.2]⟩

def paired (names : List (String × String)) : Tree :=
  .ofValue (.object (names.map fun pair => (pair.1, .ofString pair.2)))

/-- The name of one property is freed before another is given it; what has no such name is warned about. -/
theorem freed_names_at_once : ∃ s', (act ⟨0⟩ (paired [("b", "c"), ("z", "y"), ("a", "b")])).exec ⟨siblings, []⟩ =
      (.ok .proceed, s') ∧
    s'.document.members ⟨0⟩ = [⟨"b", none, ⟨1⟩⟩, ⟨"c", none, ⟨2⟩⟩] ∧ s'.warnings = [⟨"z", none⟩] := by
  set operand := paired [("b", "c"), ("z", "y"), ("a", "b")]
  have hkeyed : operand.Keyed :=
    Tree.keyed_ofValue _ (by simp [Value.Keyed, Value.MembersKeyed, Value.ofString])
  have hliteral : ∀ m ∈ operand.members, directiveName? m.key = none := by decide +kernel
  have hnames : ∀ m ∈ operand.members, m.value.string?.isSome := by decide +kernel
  have hdistinct : ((atOnce operand.members (siblings.members ⟨0⟩)).map Member.key).Nodup := by decide +kernel
  obtain ⟨s', hrun, hiff⟩ := pairs_rename_at_once_iff (s := ⟨siblings, []⟩) siblings_wellFormed hkeyed rfl hliteral
    hnames hdistinct
  obtain ⟨hmembers, hwarnings⟩ := hiff.mpr (by decide +kernel)
  exact ⟨s', hrun, hmembers.trans (by decide +kernel), hwarnings.trans (by decide +kernel)⟩

/-- The first property is given the name of the second and renamed on, in the place of the second. Renamed at
    once, both would stay, with distinct names. -/
theorem chain_drops :
    siblings.WellFormed ∧ siblings.isObject ⟨0⟩ = true ∧
    (paired [("a", "b"), ("b", "c")]).Keyed ∧ (paired [("a", "b"), ("b", "c")]).isObject = true ∧
    (∀ m ∈ (paired [("a", "b"), ("b", "c")]).members, directiveName? m.key = none ∧ m.value.string?.isSome) ∧
    atOnce (paired [("a", "b"), ("b", "c")]).members (siblings.members ⟨0⟩) =
      [⟨"b", none, ⟨1⟩⟩, ⟨"c", none, ⟨2⟩⟩] ∧
    ((act ⟨0⟩ (paired [("a", "b"), ("b", "c")])).exec ⟨siblings, []⟩).1 = .ok .proceed ∧
    ((act ⟨0⟩ (paired [("a", "b"), ("b", "c")])).exec ⟨siblings, []⟩).2.document.members ⟨0⟩ =
      [⟨"c", none, ⟨1⟩⟩] := by
  refine ⟨siblings_wellFormed, rfl, ?_, rfl, ?_, ?_, ?_, ?_⟩
  · exact Tree.keyed_ofValue _ (by simp [Value.Keyed, Value.MembersKeyed, Value.ofString])
  all_goals decide +kernel

end Renaming

end Reshape
