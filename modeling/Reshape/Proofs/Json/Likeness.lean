/-
  Reshape.Proofs.Json.Likeness — contents that differ in nothing but positions and handles.

  Two contents are alike if they hold the same scalar, or as many parts in the same order
  and under the same keys, each related to the other's. What is done with members by key is
  done alike to both sides. Trees are alike if they have the same value, wherever their
  nodes stand: then their contents are alike, and so on down (`Tree.Alike.induction`).
-/

import Mathlib.Data.List.Forall2
import Reshape.Proofs.Json.Keyed

namespace Reshape

variable {α β γ δ : Type} {R : α → β → Prop} {S : γ → δ → Prop}

/-! ## Options and lists -/

section Options

variable {x : Option α} {y : Option β} (h : Option.Rel R x y)
include h

theorem optionRel_bind {f : α → Option γ} {g : β → Option δ} (hf : ∀ a b, R a b → Option.Rel S (f a) (g b)) :
    Option.Rel S (x.bind f) (y.bind g) := by
  cases h with
  | none => exact .none
  | some hr => exact hf _ _ hr

theorem optionRel_map {f : α → γ} {g : β → δ} (hf : ∀ a b, R a b → S (f a) (g b)) :
    Option.Rel S (x.map f) (y.map g) := by
  cases h with
  | none => exact .none
  | some hr => exact .some (hf _ _ hr)

theorem optionRel_mono {Q : α → β → Prop} (hs : ∀ a b, R a b → Q a b) : Option.Rel Q x y := by
  cases h with
  | none => exact .none
  | some hr => exact .some (hs _ _ hr)

theorem optionRel_filter {p : α → Bool} {q : β → Bool} (hpq : ∀ a b, R a b → p a = q b) :
    Option.Rel R (x.filter p) (y.filter q) := by
  cases h with
  | none => exact .none
  | some hr =>
    rw [Option.filter_some, Option.filter_some, hpq _ _ hr]
    split
    · exact .some hr
    · exact .none

theorem optionRel_getD {a : α} {b : β} (hr : R a b) : R (x.getD a) (y.getD b) := by
  cases h with
  | none => exact hr
  | some hr => exact hr

end Options

section Lists

variable {xs : List α} {ys : List β} (h : List.Forall₂ R xs ys)
include h

theorem forall₂_getElem? (i : Nat) : Option.Rel R xs[i]? ys[i]? := by
  induction h generalizing i with
  | nil => exact .none
  | cons hr _ ih =>
    cases i with
    | zero => exact .some hr
    | succ i => exact ih i

theorem forall₂_find? {p : α → Bool} {q : β → Bool} (hpq : ∀ a b, R a b → p a = q b) :
    Option.Rel R (xs.find? p) (ys.find? q) := by
  induction h with
  | nil => exact .none
  | cons hr _ ih =>
    rw [List.find?_cons, List.find?_cons, hpq _ _ hr]
    split
    · exact .some hr
    · exact ih

theorem forall₂_findIdx? {p : α → Bool} {q : β → Bool} (hpq : ∀ a b, R a b → p a = q b) :
    xs.findIdx? p = ys.findIdx? q := by
  induction h with
  | nil => rfl
  | cons hr _ ih => rw [List.findIdx?_cons, List.findIdx?_cons, hpq _ _ hr, ih]

theorem forall₂_eraseIdx (i : Nat) : List.Forall₂ R (xs.eraseIdx i) (ys.eraseIdx i) := by
  induction h generalizing i with
  | nil => exact .nil
  | cons hr hrest ih =>
    cases i with
    | zero => exact hrest
    | succ i => exact .cons hr (ih i)

/-- Lists related part by part are so by whatever relates what they hold at one index. -/
theorem forall₂_of_getElem? {Q : α → β → Prop}
    (hs : ∀ (i : Nat) a b, xs[i]? = some a → ys[i]? = some b → R a b → Q a b) : List.Forall₂ Q xs ys := by
  induction h with
  | nil => exact .nil
  | @cons a b _ _ hab _ ih => exact .cons (hs 0 a b rfl rfl hab) (ih fun i => hs (i + 1))

end Lists

/-! ## Members -/

namespace Member

structure Alike (R : α → β → Prop) (m : Member α) (n : Member β) : Prop where
  key : m.key = n.key
  value : R m.value n.value

variable {ms : List (Member α)} {ns : List (Member β)} (h : List.Forall₂ (Alike R) ms ns)
include h

theorem values_alike : List.Forall₂ R (ms.map Member.value) (ns.map Member.value) := by
  induction h with
  | nil => exact .nil
  | cons hm _ ih => exact .cons hm.value ih

theorem find?_alike (key : String) : Option.Rel (Alike R) (find? key ms) (find? key ns) := by
  induction h with
  | nil => exact .none
  | @cons m n _ _ hm _ ih =>
    rw [find?, find?, ← hm.key]
    by_cases e : m.key = key
    · rw [if_pos e, if_pos e]; exact .some hm
    · rw [if_neg e, if_neg e]; exact ih

theorem put_alike (key : String) (p q : Option Position) {v : α} {w : β} (hv : R v w) :
    List.Forall₂ (Alike R) (put key p v ms) (put key q w ns) := by
  induction h with
  | nil => exact .cons ⟨rfl, hv⟩ .nil
  | @cons m n _ _ hm hrest ih =>
    rw [put, put, ← hm.key]
    by_cases e : m.key = key
    · rw [if_pos e, if_pos e]; exact .cons ⟨rfl, hv⟩ hrest
    · rw [if_neg e, if_neg e]; exact .cons hm ih

theorem erase_alike (key : String) : List.Forall₂ (Alike R) (erase key ms) (erase key ns) := by
  induction h with
  | nil => exact .nil
  | @cons m n _ _ hm hrest ih =>
    rw [erase, erase, ← hm.key]
    by_cases e : m.key = key
    · rw [if_pos e, if_pos e]; exact hrest
    · rw [if_neg e, if_neg e]; exact .cons hm ih

theorem eraseAll_alike (keys : List String) :
    List.Forall₂ (Alike R) (keys.foldl (fun ms key => erase key ms) ms)
      (keys.foldl (fun ns key => erase key ns) ns) := by
  induction keys generalizing ms ns with
  | nil => exact h
  | cons key rest ih => exact ih (erase_alike h key)

theorem rekey_alike (old new : String) :
    List.Forall₂ (Alike R) (rekey old new ms) (rekey old new ns) := by
  induction h with
  | nil => exact .nil
  | @cons m n _ _ hm hrest ih =>
    rw [rekey, rekey, ← hm.key]
    by_cases e : m.key = old
    · rw [if_pos e, if_pos e]; exact .cons ⟨rfl, hm.value⟩ hrest
    · rw [if_neg e, if_neg e]; exact .cons hm ih

end Member

/-! ## Contents -/

namespace Content

inductive Alike (R : α → β → Prop) : Content α → Content β → Prop
  | scalar (s : Scalar) : Alike R (.scalar s) (.scalar s)
  | array {xs : List α} {ys : List β} : List.Forall₂ R xs ys → Alike R (.array xs) (.array ys)
  | object {ms : List (Member α)} {ns : List (Member β)} :
      List.Forall₂ (Member.Alike R) ms ns → Alike R (.object ms) (.object ns)

namespace Alike

variable {c : Content α} {c' : Content β} (h : Alike R c c')
include h

theorem isObject_eq : c.isObject = c'.isObject := by cases h <;> rfl

theorem isArray_eq : c.isArray = c'.isArray := by cases h <;> rfl

theorem string?_eq : c.string? = c'.string? := by
  cases h with
  | scalar s => cases s <;> rfl
  | _ => rfl

theorem type_eq : c.type = c'.type := by cases h <;> rfl

theorem members : List.Forall₂ (Member.Alike R) c.members c'.members := by
  cases h with
  | object hm => exact hm
  | _ => exact .nil

theorem items : List.Forall₂ R c.items c'.items := by
  cases h with
  | array hi => exact hi
  | _ => exact .nil

theorem parts : List.Forall₂ R c.parts c'.parts := by
  cases h with
  | scalar s => exact .nil
  | array hi => exact hi
  | object hm => exact Member.values_alike hm

/-- What relates the parts is exchanged for what else relates those in one place. -/
theorem of_getElem? {Q : α → β → Prop}
    (hs : ∀ (i : Nat) a b, c.parts[i]? = some a → c'.parts[i]? = some b → R a b → Q a b) :
    Alike Q c c' := by
  cases h with
  | scalar s => exact .scalar s
  | array hi => exact .array (forall₂_of_getElem? hi hs)
  | @object ms ns hm =>
    refine .object (forall₂_of_getElem? hm fun i m n hmi hni hmn => ⟨hmn.key, ?_⟩)
    exact hs i m.value n.value (by simp [Content.parts, hmi]) (by simp [Content.parts, hni]) hmn.value

theorem of_mem {Q : α → β → Prop} (hs : ∀ a ∈ c.parts, ∀ b ∈ c'.parts, R a b → Q a b) : Alike Q c c' :=
  h.of_getElem? fun _ a b ha hb => hs a (List.mem_of_getElem? ha) b (List.mem_of_getElem? hb)

theorem mono {Q : α → β → Prop} (hs : ∀ a b, R a b → Q a b) : Alike Q c c' := h.of_mem fun a _ b _ => hs a b

end Alike

/-- Contents are alike with other parts exactly if what the parts become is related. -/
theorem alike_map_iff {c : Content α} {c' : Content β} {f : α → γ} {g : β → δ} :
    Alike S (c.map f) (c'.map g) ↔ Alike (fun a b => S (f a) (g b)) c c' := by
  constructor
  · intro h
    cases c <;> cases c' <;> cases h
    · exact .scalar _
    · rename_i hi
      rw [List.forall₂_map_left_iff, List.forall₂_map_right_iff] at hi
      exact .array hi
    · rename_i hm
      rw [List.forall₂_map_left_iff, List.forall₂_map_right_iff] at hm
      exact .object (hm.imp fun _ _ hmn => ⟨hmn.key, hmn.value⟩)
  · intro h
    cases h with
    | scalar s => exact .scalar s
    | array hi =>
      refine .array ?_
      rwa [List.forall₂_map_left_iff, List.forall₂_map_right_iff]
    | object hm =>
      refine .object ?_
      rw [List.forall₂_map_left_iff, List.forall₂_map_right_iff]
      exact hm.imp fun _ _ hmn => ⟨hmn.key, hmn.value⟩

end Content

/-! ## Trees -/

namespace Tree

theorem itemValues_eq_iff {xs ys : List Tree} :
    itemValues xs = itemValues ys ↔ List.Forall₂ (fun t u => t.value = u.value) xs ys := by
  rw [itemValues_eq, itemValues_eq, ← List.forall₂_eq_eq_eq, List.forall₂_map_left_iff, List.forall₂_map_right_iff]

theorem memberValues_eq_iff {ms ns : List (Member Tree)} :
    memberValues ms = memberValues ns ↔
      List.Forall₂ (Member.Alike fun t u => t.value = u.value) ms ns := by
  rw [memberValues_eq, memberValues_eq, ← List.forall₂_eq_eq_eq, List.forall₂_map_left_iff,
    List.forall₂_map_right_iff]
  refine ⟨fun h => h.imp fun m n e => ?_, fun h => h.imp fun m n e => ?_⟩
  · obtain ⟨hk, hv⟩ := Prod.mk.inj e
    exact ⟨hk, hv⟩
  · exact Prod.ext e.key e.value

/-- Trees of one value hold alike contents, their parts being of one value again. -/
theorem value_eq_iff {t u : Tree} :
    t.value = u.value ↔ Content.Alike (fun a b => a.value = b.value) t.content u.content := by
  obtain ⟨p, c⟩ := t
  obtain ⟨q, c'⟩ := u
  constructor
  · intro h
    cases c <;> cases c' <;> simp only [value, Value.scalar.injEq, Value.array.injEq, Value.object.injEq,
      reduceCtorEq] at h
    · subst h; exact .scalar _
    · exact .array (itemValues_eq_iff.mp h)
    · exact .object (memberValues_eq_iff.mp h)
  · intro h
    cases h with
    | scalar s => rfl
    | array hi => simp only [value, itemValues_eq_iff.mpr hi]
    | object hm => simp only [value, memberValues_eq_iff.mpr hm]

/-- Trees of one value with unique keys. Their positions may differ. -/
structure Alike (t u : Tree) : Prop where
  value : t.value = u.value
  left : t.Keyed
  right : u.Keyed

namespace Alike

theorem content {t u : Tree} (h : t.Alike u) : Content.Alike Alike t.content u.content :=
  (value_eq_iff.mp h.value).of_mem fun _ ha _ hb e => ⟨e, h.left.part ha, h.right.part hb⟩

/-- What holds of alike trees whenever it holds of their parts holds of all alike trees. -/
theorem induction {motive : Tree → Tree → Prop}
    (step : ∀ t u, Content.Alike (fun a b => a.Alike b ∧ motive a b) t.content u.content → motive t u)
    {t u : Tree} (h : t.Alike u) : motive t u := by
  induction t using parts_induction generalizing u with
  | step t ih => exact step t u (h.content.of_mem fun a ha b _ hab => ⟨hab, ih a ha hab⟩)

variable {t u : Tree} (h : t.Alike u)
include h

theorem isObject_eq : t.isObject = u.isObject := h.content.isObject_eq

theorem isArray_eq : t.isArray = u.isArray := h.content.isArray_eq

theorem string?_eq : t.string? = u.string? := h.content.string?_eq

theorem type_eq : t.type = u.type := h.content.type_eq

theorem members : List.Forall₂ (Member.Alike Alike) t.members u.members := h.content.members

theorem items : List.Forall₂ Alike t.items u.items := h.content.items

theorem size_eq : t.size = u.size := by
  refine h.induction (motive := fun t u => t.size = u.size) fun t u hc => ?_
  obtain ⟨p, c⟩ := t
  obtain ⟨q, c'⟩ := u
  cases hc with
  | scalar s => rfl
  | array hi =>
    simp only [size, Nat.add_right_inj]
    induction hi with
    | nil => rfl
    | cons hx _ ih => rw [itemsSize, itemsSize, hx.2, ih]
  | object hm =>
    simp only [size, Nat.add_right_inj]
    induction hm with
    | nil => rfl
    | cons hx _ ih => rw [membersSize, membersSize, hx.value.2, ih]

theorem without (keys : List String) : (t.without keys).Alike (u.without keys) := by
  refine ⟨?_, h.left.without keys, h.right.without keys⟩
  have hc := value_eq_iff.mp h.value
  obtain ⟨p, c⟩ := t
  obtain ⟨q, c'⟩ := u
  cases hc with
  | object hm => exact value_eq_iff.mpr (.object (Member.eraseAll_alike hm keys))
  | _ => exact h.value

end Alike

end Tree

end Reshape
