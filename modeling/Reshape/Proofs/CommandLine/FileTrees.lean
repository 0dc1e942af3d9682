/-
  Reshape.Proofs.CommandLine.FileTrees — what has been written to a file tree is read back.

  A path is read by walking to its last name, and written by walking to the directory that its last
  name stands in. Both walks lead to the same place: a walk goes through directories only, and a file
  is not written where a directory is, so that what is written stands in the way of no walk that led
  somewhere before.

  - `entry?_put`: a new entry takes its place, and all others stay.
  - `walk_put`: walks that do not lead through a place are not affected by a new entry there.
  - `read_write`: a text that has been written is what its path reads as.
  - `change_write`: whether a file can be written is a matter of its path.
-/

import Reshape.CommandLine.FileTree

namespace Reshape

namespace FileTree

variable {t after : FileTree} {here reached names : Names} {path text : String}

/-- A new entry takes its place, and all others stay. -/
theorem entry?_put (t : FileTree) (h : names ≠ []) (e : FileEntry) (other : Names) :
    entry? (t.put names e) other = if other = names then some e else t.entry? other := by
  by_cases hnil : other = []
  · subst hnil
    rw [if_neg h.symm]
    rfl
  unfold entry?
  simp only [List.isEmpty_iff, hnil, if_false]
  unfold put
  split
  case isTrue hthere =>
    -- The entry is replaced in its place, which does not change the names.
    have hkeys : ((·.1 == other) ∘ fun old : Names × FileEntry => if old.1 = names then (names, e) else old) =
        (·.1 == other) := by
      funext old
      by_cases ho : old.1 = names <;> simp [ho]
    rw [List.find?_map, hkeys]
    cases hfound : t.entries.find? (·.1 == other) with
    | none =>
      rw [if_neg fun hother => ?_]
      · rfl
      · rw [← hother] at hthere
        obtain ⟨old, hmem, hold⟩ := List.any_eq_true.mp hthere
        exact List.find?_eq_none.mp hfound old hmem hold
    | some old =>
      have hold : old.1 = other := by simpa using List.find?_some hfound
      by_cases hother : other = names <;> simp [hold, hother]
  case isFalse hmissing =>
    rw [List.find?_append]
    by_cases hother : other = names
    · subst hother
      have hnone : t.entries.find? (·.1 == other) = none :=
        List.find?_eq_none.mpr fun old hmem hold => hmissing (List.any_eq_true.mpr ⟨old, hmem, hold⟩)
      simp [hnone]
    · simp [hother, Ne.symm hother]

/-- A walk that does not lead through a place is not affected by a new entry there. -/
theorem walk_put (hne : names ≠ []) (hfree : t.entry? names ≠ some .directory) (e : FileEntry) {route : List String}
    (h : t.walk here route = .ok reached) : (t.put names e).walk here route = .ok reached := by
  -- Walks lead through directories, and there was none at the place.
  have hstays {passed : Names} (hdir : t.entry? passed = some .directory) :
      entry? (t.put names e) passed = some .directory := by
    have hother : passed ≠ names := fun he => hfree (he ▸ hdir)
    rw [entry?_put t hne, if_neg hother, hdir]
  fun_induction walk t here route with
  | case1 here => exact h
  | case2 => cases h
  | case3 => cases h
  | case4 here name rest hdir hidle ih =>
    rw [walk, hstays hdir]
    simp only [if_pos hidle]
    exact ih h
  | case5 here rest hdir hidle ih =>
    rw [walk, hstays hdir]
    simp only [if_neg hidle, if_pos]
    exact ih h
  | case6 here name rest hdir hidle hup ih =>
    rw [walk, hstays hdir]
    simp only [if_neg hidle, if_neg hup]
    exact ih h

/-- A walk can be interrupted anywhere. -/
theorem walk_append_ok {route more : List String} :
    t.walk here (route ++ more) = .ok reached ↔
      ∃ between, t.walk here route = .ok between ∧ t.walk between more = .ok reached := by
  fun_induction walk t here route with
  | case1 here => simp
  | case2 here name rest hnone => simp [walk, hnone]
  | case3 here name rest bytes hfile => simp [walk, hfile]
  | case4 here name rest hdir hidle ih =>
    rw [List.cons_append, walk, hdir]
    simp only [if_pos hidle, ih]
  | case5 here rest hdir hidle ih =>
    rw [List.cons_append, walk, hdir]
    simp only [if_neg hidle, if_pos, ih]
  | case6 here name rest hdir hidle hup ih =>
    rw [List.cons_append, walk, hdir]
    simp only [if_neg hidle, if_neg hup, ih]

theorem walk_point : t.walk here ["."] = .ok reached ↔ t.entry? here = some .directory ∧ here = reached := by
  rw [walk]
  split
  case h_1 hnone => simp [hnone]
  case h_2 bytes hfile => simp [hfile]
  case h_3 hdir => simp [walk, hdir]

theorem walk_name {last : String} (hdir : t.entry? here = some .directory) (hempty : last ≠ "")
    (hplace : isPlace last = false) : t.walk here [last] = .ok (here ++ [last]) := by
  obtain ⟨hpoint, hpoints⟩ : last ≠ "." ∧ last ≠ ".." := by simpa [isPlace] using hplace
  rw [walk, hdir]
  simp only [hempty, hpoint, hpoints, or_self, if_false, walk]

/-- Without a slash at the end, the last name of a path is its last piece. -/
theorem resolveLast_ok {last : String} (h : t.resolveLast path = .ok (here, last, false)) :
    ∃ above, (pieces path.toList).map String.ofList = above ++ [last] ∧ last ≠ "" ∧
      t.walk [] (above ++ ["."]) = .ok here := by
  simp only [resolveLast] at h
  split at h
  case h_1 =>
    split at h <;> cases h
  case h_2 name above hnames =>
    cases hwalk : t.walk [] (above.reverse ++ ["."]) with
    | error e =>
      rw [hwalk] at h
      cases h
    | ok reached =>
      rw [hwalk] at h
      simp only [Except.map, Except.ok.injEq, Prod.mk.injEq] at h
      obtain ⟨rfl, rfl, hslash⟩ := h
      cases hall : ((pieces path.toList).map String.ofList).reverse with
      | nil => 
        rw [hall] at hnames
        cases hnames
      | cons first rest =>
        rw [hall] at hnames hslash
        have hfirst : first ≠ "" := by simpa using hslash
        rw [List.dropWhile_cons_of_neg (by simpa using hfirst)] at hnames
        obtain ⟨rfl, rfl⟩ := List.cons.inj hnames
        refine ⟨rest.reverse, ?_, hfirst, hwalk⟩
        rw [← List.reverse_reverse (List.map _ _), hall, List.reverse_cons]

theorem write_ok (h : t.write path text = .ok after) :
    ∃ here last, t.resolveLast path = .ok (here, last, false) ∧ isPlace last = false ∧
      t.entry? (here ++ [last]) ≠ some .directory ∧ after = t.put (here ++ [last]) (.file text.toUTF8) := by
  unfold write at h
  cases hlast : t.resolveLast path with
  | error e =>
    rw [hlast] at h
    cases h
  | ok found =>
    obtain ⟨here, last, slash⟩ := found
    rw [hlast] at h
    simp only [Except.bind] at h
    split at h
    case isTrue => cases h
    case isFalse hproper =>
      obtain ⟨rfl, hplace⟩ : slash = false ∧ isPlace last = false := by simpa using hproper
      split at h
      case h_1 => cases h
      case h_2 hfree => exact ⟨here, last, rfl, hplace, hfree, (Except.ok.inj h).symm⟩

/-- A text that has been written is what its path reads as. -/
theorem read_write (h : t.write path text = .ok after) : after.read path = .ok text.toUTF8 := by
  obtain ⟨here, last, hlast, hplace, hfree, rfl⟩ := write_ok h
  obtain ⟨above, hpieces, hempty, hwalk⟩ := resolveLast_ok hlast
  have hne : here ++ [last] ≠ [] := by simp
  have hpath : path.isEmpty = false := by
    rw [Bool.eq_false_iff]
    intro hp
    rw [String.isEmpty_iff.mp hp] at hpieces
    have hnames := congrArg List.getLast? hpieces
    rw [List.getLast?_concat] at hnames
    exact hempty (Option.some.inj hnames).symm
  -- The walk to the directory is the same as before, and goes one name further.
  obtain ⟨between, habove, hpoint⟩ := walk_append_ok.mp (walk_put hne hfree (.file text.toUTF8) hwalk)
  obtain ⟨hdir, rfl⟩ := walk_point.mp hpoint
  have hresolve : (t.put (between ++ [last]) (.file text.toUTF8)).resolve path = .ok (between ++ [last]) := by
    rw [resolve, hpath, hpieces]
    exact walk_append_ok.mpr ⟨between, habove, walk_name hdir hempty hplace⟩
  rw [read, find, hresolve]
  simp only [Except.bind, entry?_put t hne, if_pos]

theorem change_ok {changed : Except FileError FileTree} (h : t.change changed = (.ok (), after)) :
    changed = .ok after := by
  cases changed with
  | ok changed => exact congrArg Except.ok (Prod.mk.inj h).2
  | error e => cases h

/-- Whether a file can be written does not depend on what is written. -/
theorem change_write (t : FileTree) (path text other : String) :
    (t.change (t.write path text)).1 = (t.change (t.write path other)).1 := by
  unfold write
  cases t.resolveLast path with
  | error e => rfl
  | ok found =>
    obtain ⟨here, last, slash⟩ := found
    simp only [Except.bind]
    split
    case isTrue => rfl
    case isFalse => split <;> rfl

end FileTree

end Reshape
