/-
  Reshape.Proofs.Json.Exchange — many parts of a value, exchanged at once.

  Locations are chosen in a value as it stands, and all parts that they lead to are exchanged
  in one go: each gives way to one other value, or to nothing at all. No part has moved when
  another is looked up, and what remains keeps its order. What lies inside a part goes with
  the part, whether it was chosen too or not, so it is the outermost of the chosen locations
  that count (`exchange_outermost`). The whole value is a part of nothing, and stays.

  - `Value.exchange`, and `Value.exchangePart` for the part that one step leads to.
  - `Content.toValue_exchange`: to exchange parts in what a content reads as is to exchange
    parts of the content, and parts of its parts.
-/

import Reshape.Proofs.Json.Updating

namespace Reshape

namespace Value

/-! ## Exchanging parts -/

mutual

/-- The value with the part at each chosen location exchanged for `new`, or left out if that is nothing. -/
def exchange (chosen : Location → Bool) (new : Option Value) : Value → Value
  | .scalar s => .scalar s
  | .array items => .array (exchangeItems chosen new 0 items)
  | .object members => .object (exchangeMembers chosen new members)

def exchangeItems (chosen : Location → Bool) (new : Option Value) (index : Nat) : List Value → List Value
  | [] => []
  | v :: rest =>
    (if chosen [.index index] then new else some (v.exchange (fun l => chosen (.index index :: l)) new)).toList ++
      exchangeItems chosen new (index + 1) rest

def exchangeMembers (chosen : Location → Bool) (new : Option Value) :
    List (String × Value) → List (String × Value)
  | [] => []
  | (k, v) :: rest =>
    ((if chosen [.key k] then new else some (v.exchange (fun l => chosen (.key k :: l)) new)).map (k, ·)).toList ++
      exchangeMembers chosen new rest

end

def exchangePart (chosen : Location → Bool) (new : Option Value) (s : Step) (v : Value) : Option Value :=
  if chosen [s] then new else some (v.exchange (fun l => chosen (s :: l)) new)

variable {chosen : Location → Bool} {new : Option Value}

theorem exchangeItems_cons (index : Nat) (v : Value) (rest : List Value) :
    exchangeItems chosen new index (v :: rest) =
      (exchangePart chosen new (.index index) v).toList ++ exchangeItems chosen new (index + 1) rest := by
  rw [exchangeItems, exchangePart]

theorem exchangeMembers_cons (k : String) (v : Value) (rest : List (String × Value)) :
    exchangeMembers chosen new ((k, v) :: rest) =
      ((exchangePart chosen new (.key k) v).map (k, ·)).toList ++ exchangeMembers chosen new rest := by
  rw [exchangeMembers, exchangePart]

/-! ## Outermost locations -/

/-- The location is chosen, and none that leads to it on the way is. -/
def outermost (chosen : Location → Bool) (l : Location) : Bool :=
  chosen l && (List.range l.length).all fun n => !chosen (l.take n)

theorem outermost_cons (h : chosen [] = false) (s : Step) (l : Location) :
    outermost chosen (s :: l) = outermost (fun m => chosen (s :: m)) l := by
  rw [outermost, outermost, List.length_cons, List.range_succ_eq_map, List.all_cons, List.take_zero, h, List.all_map]
  simp only [Bool.not_false, Bool.true_and]
  rfl

/-- What becomes of a part is the same for the outermost locations if it is the same inside the part. -/
theorem exchangePart_outermost (h : chosen [] = false) (s : Step) (v : Value)
    (ih : ∀ {inside : Location → Bool}, inside [] = false →
      v.exchange (outermost inside) new = v.exchange inside new) :
    exchangePart (outermost chosen) new s v = exchangePart chosen new s v := by
  have hstep : outermost chosen [s] = chosen [s] := by
    rw [outermost_cons h, outermost]
    simp
  rw [exchangePart, exchangePart, hstep]
  by_cases hs : chosen [s] = true
  · rw [if_pos hs, if_pos hs]
  · rw [if_neg hs, if_neg hs, funext (outermost_cons h s), ih (Bool.eq_false_iff.mpr hs)]

mutual

/-- Chosen locations inside other chosen ones make no difference. -/
theorem exchange_outermost {chosen : Location → Bool} (h : chosen [] = false) (v : Value) :
    v.exchange (outermost chosen) new = v.exchange chosen new := by
  match v with
  | .scalar s => rfl
  | .array items => exact congrArg Value.array (exchangeItems_outermost h 0 items)
  | .object members => exact congrArg Value.object (exchangeMembers_outermost h members)

theorem exchangeItems_outermost {chosen : Location → Bool} (h : chosen [] = false) (index : Nat)
    (items : List Value) :
    exchangeItems (outermost chosen) new index items = exchangeItems chosen new index items := by
  match items with
  | [] => rfl
  | v :: rest =>
    rw [exchangeItems_cons, exchangeItems_cons, exchangeItems_outermost h (index + 1) rest,
      exchangePart_outermost h (.index index) v fun hv => exchange_outermost hv v]

theorem exchangeMembers_outermost {chosen : Location → Bool} (h : chosen [] = false)
    (members : List (String × Value)) :
    exchangeMembers (outermost chosen) new members = exchangeMembers chosen new members := by
  match members with
  | [] => rfl
  | (k, v) :: rest =>
    rw [exchangeMembers_cons, exchangeMembers_cons, exchangeMembers_outermost h rest,
      exchangePart_outermost h (.key k) v fun hv => exchange_outermost hv v]

end

end Value

/-! ## Contents whose parts are exchanged -/

namespace Content

variable {α β : Type} {c : Content α} {f : α → Value} {g : α → Option Value}
variable {chosen : Location → Bool} {new : Option Value}

def filterMap (g : α → Option β) : Content α → Content β
  | .scalar s => .scalar s
  | .array items => .array (items.filterMap g)
  | .object members => .object (members.filterMap fun m => (g m.value).map fun v => ⟨m.key, m.position, v⟩)

/-- To leave no part out is to exchange each part for another. -/
theorem filterMap_eq_map {f : α → β} {g : α → Option β} (h : ∀ x ∈ c.parts, g x = some (f x)) :
    c.filterMap g = c.map f := by
  cases c with
  | scalar s => rfl
  | array items =>
    have hitems : ∀ x ∈ items, g x = some (f x) := h
    rw [filterMap, List.filterMap_congr hitems, List.filterMap_eq_map']
    rfl
  | object ms =>
    have hms : ∀ m ∈ ms, ((g m.value).map fun v => (⟨m.key, m.position, v⟩ : Member β)) =
        some ⟨m.key, m.position, f m.value⟩ := fun m hm => by
      rw [h m.value (List.mem_map_of_mem hm)]
      rfl
    rw [filterMap, List.filterMap_congr hms, List.filterMap_eq_map']
    rfl

/-- To exchange each part for itself is to change nothing. -/
theorem filterMap_eq_self {g : α → Option α} (h : ∀ x ∈ c.parts, g x = some x) : c.filterMap g = c := by
  rw [filterMap_eq_map (f := id) h]
  cases c <;> simp [map]

theorem map_filterMap {γ : Type} (f : β → γ) (g : α → Option β) (c : Content α) :
    (c.filterMap g).map f = c.filterMap fun x => (g x).map f := by
  cases c <;> simp [filterMap, map, List.map_filterMap, Function.comp_def]

/-- To leave out one part first is to leave it out with the others. -/
theorem omitting_filterMap (x : NodeId) (g : NodeId → Option β) (c : Content NodeId) :
    (c.omitting x).filterMap g = c.filterMap fun y => if y = x then none else g y := by
  cases c with
  | scalar s => rfl
  | array items =>
    rw [omitting, filterMap, filterMap, List.filterMap_filter]
    refine congrArg Content.array (List.filterMap_congr fun y _ => ?_)
    by_cases e : y = x <;> simp [e]
  | object ms =>
    rw [omitting, filterMap, filterMap, List.filterMap_filter]
    refine congrArg Content.object (List.filterMap_congr fun m _ => ?_)
    by_cases e : m.value = x <;> simp [e]

theorem exchangeItems_map {index : Nat} {items : List α}
    (h : ∀ i x, items[i]? = some x → Value.exchangePart chosen new (.index (index + i)) (f x) = g x) :
    Value.exchangeItems chosen new index (items.map f) = items.filterMap g := by
  induction items generalizing index with
  | nil => rfl
  | cons x rest ih =>
    have hrest : Value.exchangeItems chosen new (index + 1) (rest.map f) = rest.filterMap g := by
      apply ih
      intro i y hy
      rw [Nat.add_assoc, Nat.add_comm 1 i]
      exact h (i + 1) y hy
    rw [List.map_cons, Value.exchangeItems_cons, hrest, List.filterMap_cons, ← h 0 x rfl, Nat.add_zero]
    cases Value.exchangePart chosen new (.index index) (f x) <;> rfl

theorem exchangeMembers_map {ms : List (Member α)}
    (h : ∀ m ∈ ms, Value.exchangePart chosen new (.key m.key) (f m.value) = g m.value) :
    Value.exchangeMembers chosen new (ms.map fun m => (m.key, f m.value)) =
      ms.filterMap fun m => (g m.value).map (m.key, ·) := by
  induction ms with
  | nil => rfl
  | cons m rest ih =>
    rw [List.map_cons, Value.exchangeMembers_cons, ih fun n hn => h n (List.mem_cons_of_mem _ hn),
      List.filterMap_cons, ← h m List.mem_cons_self]
    cases Value.exchangePart chosen new (.key m.key) (f m.value) <;> rfl

/-- The parts of what a content reads as are exchanged as the parts of the content are. -/
theorem toValue_exchange (hk : (c.members.map Member.key).Nodup)
    (h : ∀ s x, c.child? s = some x → Value.exchangePart chosen new s (f x) = g x) :
    (c.map f).toValue.exchange chosen new = (c.filterMap g).toValue := by
  cases c with
  | scalar s => rfl
  | array items =>
    refine congrArg Value.array (exchangeItems_map fun i x hx => ?_)
    rw [Nat.zero_add]
    exact h (.index i) x hx
  | object ms =>
    have hparts : ∀ m ∈ ms, Value.exchangePart chosen new (.key m.key) (f m.value) = g m.value := by
      intro m hm
      apply h
      have hfind : Member.find? m.key ms = some m := Member.find?_of_mem hk hm
      rw [child?, hfind]
      rfl
    rw [toValue_object, Value.exchange, exchangeMembers_map hparts, filterMap, toValue, List.map_filterMap]
    simp only [Option.map_map]
    rfl

end Content

end Reshape
