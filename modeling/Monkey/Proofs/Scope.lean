import Monkey.Scope

/-!
The laws of scopes and heaps as stores: what is found after a write, and what a write leaves alone.
-/

namespace Monkey

namespace Scope

theorem lookup_cons (n : String) (b : String × Value) (bindings : List (String × Value)) :
    (b :: bindings).lookup n = if n = b.1 then some b.2 else bindings.lookup n := by
  obtain ⟨k, v⟩ := b
  by_cases h : n = k
  · simp [h]
  · rw [if_neg h, List.lookup_cons, beq_false_of_ne h]

theorem lookup_bindIn (name : String) (value : Value) (n : String)
    (bindings : List (String × Value)) :
    (bindIn name value bindings).lookup n =
      if n = name then some value else bindings.lookup n := by
  have replaced (bs : List (String × Value)) (hbs : n = name → bs.any (·.1 == name) = true) :
      (bs.map fun b => if b.1 == name then (name, value) else b).lookup n =
        if n = name then some value else bs.lookup n := by
    induction bs with
    | nil =>
      have hn : n ≠ name := fun hn => by simpa using hbs hn
      rw [if_neg hn, List.map_nil]
    | cons b bs ih =>
      rw [List.map_cons, lookup_cons, lookup_cons]
      by_cases hb : b.1 = name
      · rw [if_pos (beq_iff_eq.mpr hb), hb]
        by_cases hn : n = name
        · rw [if_pos hn, if_pos hn]
        · rw [if_neg hn, if_neg hn, ih fun h => absurd h hn, if_neg hn, if_neg hn]
      · have kept : (if b.1 == name then (name, value) else b) = b := if_neg (by simpa using hb)
        rw [kept, ih (by simpa [hb] using hbs)]
        by_cases hn : n = b.1
        · rw [if_pos hn, if_pos hn, if_neg (hn ▸ hb)]
        · rw [if_neg hn, if_neg hn]
  unfold bindIn
  split
  · rename_i hany
    exact replaced bindings fun _ => hany
  · exact lookup_cons n _ bindings

@[simp] theorem find?_set (name : String) (value : Value) (s : Scope) (n : String) :
    (s.set name value).find? n = if n = name then some value else s.find? n :=
  lookup_bindIn name value n s.bindings

theorem mem_bindings_of_find? {name : String} {value : Value} {s : Scope}
    (h : s.find? name = some value) : (name, value) ∈ s.bindings := by
  obtain ⟨before, after, hs, -⟩ := List.lookup_eq_some_iff.mp h
  rw [hs]
  exact List.mem_append_right before List.mem_cons_self

theorem mem_bindings_set {name : String} {value : Value} {s : Scope} {b : String × Value}
    (h : b ∈ (s.set name value).bindings) : b = (name, value) ∨ b ∈ s.bindings := by
  unfold Scope.set bindIn at h
  dsimp only at h
  split at h
  · obtain ⟨c, hc, rfl⟩ := List.mem_map.mp h
    split
    · exact .inl rfl
    · exact .inr hc
  · exact List.mem_cons.mp h

end Scope

namespace Heap

@[simp] theorem size_push (h : Heap) (outer : Option ScopeId) : (h.push outer).size = h.size + 1 :=
  Array.size_push _

@[simp] theorem size_set (h : Heap) (id : ScopeId) (name : String) (value : Value) :
    (h.set id name value).size = h.size := Array.size_modify

theorem getElem?_push (h : Heap) (outer : Option ScopeId) (i : ScopeId) :
    (h.push outer).scopes[i]? = if i = h.size then some ⟨[], outer⟩ else h.scopes[i]? :=
  Array.getElem?_push

theorem getElem?_set (h : Heap) (id : ScopeId) (name : String) (value : Value) (i : ScopeId) :
    (h.set id name value).scopes[i]? =
      if id = i then h.scopes[i]?.map (Scope.set name value) else h.scopes[i]? :=
  Array.getElem?_modify

@[simp] theorem size_setAll (h : Heap) (id : ScopeId) (bindings : List (String × Value)) :
    (h.setAll id bindings).size = h.size := by
  induction bindings generalizing h with
  | nil => rfl
  | cons b bindings ih =>
    obtain ⟨name, value⟩ := b
    rw [setAll, ih, size_set]

theorem getElem?_setAll_of_ne {id i : ScopeId} (hi : i ≠ id) (h : Heap)
    (bindings : List (String × Value)) : (h.setAll id bindings).scopes[i]? = h.scopes[i]? := by
  induction bindings generalizing h with
  | nil => rfl
  | cons b bindings ih =>
    obtain ⟨name, value⟩ := b
    rw [setAll, ih, getElem?_set, if_neg hi.symm]

theorem exists_mem_bindings_of_find? {h : Heap} {reach : Reach} {name : String} {id : ScopeId}
    {value : Value} (hv : h.find? reach name id = some value) :
    ∃ (i : ScopeId) (s : Scope), h.scopes[i]? = some s ∧ (name, value) ∈ s.bindings := by
  induction id using Nat.strongRecOn with
  | ind id ih =>
    unfold Heap.find? at hv
    cases hs : h.scopes[id]? with
    | none => simp [hs] at hv
    | some s =>
      simp only [hs] at hv
      split at hv
      · rename_i v hfind
        obtain rfl := Option.some.inj hv
        exact ⟨id, s, hs, Scope.mem_bindings_of_find? hfind⟩
      · split at hv
        · split at hv
          · rename_i hlt
            exact ih _ hlt hv
          · cases hv
        · cases hv

/-- A look-up goes to no scope younger than the one it starts from. -/
theorem find?_congr {h h' : Heap} {id : ScopeId}
    (hscopes : ∀ i ≤ id, h'.scopes[i]? = h.scopes[i]?) (reach : Reach) (name : String) :
    h'.find? reach name id = h.find? reach name id := by
  induction id using Nat.strongRecOn with
  | ind id ih =>
    rw [Heap.find?, Heap.find?, hscopes id (Nat.le_refl id)]
    cases h.scopes[id]? with
    | none => rfl
    | some s =>
      dsimp only
      cases s.find? name with
      | some v => rfl
      | none =>
        cases reach with
        | own => rfl
        | outwards =>
          cases s.outer with
          | none => rfl
          | some outer =>
            dsimp only
            by_cases hlt : outer < id
            · rw [dif_pos hlt, dif_pos hlt,
                ih outer hlt fun i hi => hscopes i (Nat.le_trans hi (Nat.le_of_lt hlt))]
            · rw [dif_neg hlt, dif_neg hlt]

theorem find?_set_self {h : Heap} {id : ScopeId} (hid : id < h.size) (reach : Reach)
    (name : String) (value : Value) (n : String) :
    (h.set id name value).find? reach n id =
      if n = name then some value else h.find? reach n id := by
  have hs : h.scopes[id]? = some h.scopes[id] := Array.getElem?_eq_getElem hid
  rw [Heap.find?, Heap.find?, getElem?_set, if_pos rfl, hs]
  simp only [Option.map_some, Scope.find?_set]
  by_cases hn : n = name
  · rw [if_pos hn, if_pos hn]
  · rw [if_neg hn, if_neg hn]
    cases h.scopes[id].find? n with
    | some v => rfl
    | none =>
      cases reach with
      | own => rfl
      | outwards =>
        simp only [Scope.set]
        cases h.scopes[id].outer with
        | none => rfl
        | some outer =>
          dsimp only
          by_cases hlt : outer < id
          · rw [dif_pos hlt, dif_pos hlt]
            refine find?_congr (fun i hi => ?_) _ n
            rw [getElem?_set, if_neg (Nat.ne_of_gt (Nat.lt_of_le_of_lt hi hlt))]
          · rw [dif_neg hlt, dif_neg hlt]

/-- After writes, seen from the scope that was written to: the last one for a name counts. -/
theorem find?_setAll_self {h : Heap} {id : ScopeId} (hid : id < h.size) (reach : Reach)
    (bindings : List (String × Value)) (n : String) :
    (h.setAll id bindings).find? reach n id =
      (bindings.reverse.lookup n).or (h.find? reach n id) := by
  induction bindings generalizing h with
  | nil => rfl
  | cons b bindings ih =>
    obtain ⟨name, value⟩ := b
    rw [setAll, ih (by rwa [size_set]), find?_set_self hid, List.reverse_cons, List.lookup_append,
      Scope.lookup_cons, List.lookup_nil, Option.or_assoc]
    by_cases hn : n = name
    · rw [if_pos hn, if_pos hn, Option.some_or]
    · rw [if_neg hn, if_neg hn, Option.none_or]

theorem find?_push_self {h : Heap} {outer : ScopeId} (houter : outer < h.size) (name : String) :
    (h.push (some outer)).find? .outwards name h.size = h.find? .outwards name outer := by
  rw [Heap.find?, getElem?_push, if_pos rfl]
  simp only [Scope.find?, List.lookup_nil, houter, dite_true]
  refine find?_congr (fun i hi => ?_) _ name
  rw [getElem?_push, if_neg (Nat.ne_of_lt (Nat.lt_of_le_of_lt hi houter))]

theorem find?_push_global (h : Heap) (reach : Reach) (name : String) :
    (h.push none).find? reach name h.size = none := by
  rw [Heap.find?, getElem?_push, if_pos rfl]
  cases reach <;> rfl

end Heap

end Monkey
