import Mathlib.Data.List.Basic
import Monkey.Proofs.Eval.Invariant
import Monkey.Proofs.Scope.Chain

/-!
Scopes and the history that made them. Scopes can be made and written to in any order: a value may
be set on a scope after others were made within it, and many can lie within one. What a look-up
finds is still read off the history: of the scopes on the way outwards, the nearest on which the
name was ever set counts, and on it the last value set.
-/

namespace Monkey

/-- What has been done to scopes until there were `n` of them, numbered in the order in which they
were made. Only scopes that exist are written to or have others made within them. -/
inductive History : Nat → Type where
  | start : History 0
  | newGlobal {n : Nat} : History n → History (n + 1)
  | newScope {n : Nat} : History n → (outer : Fin n) → History (n + 1)
  | set {n : Nat} : History n → (id : Fin n) → (name : String) → (value : Value) → History n

namespace History

def run (sink : Sink) (filter : Filter) {n : Nat} : History n → State
  | start => .ofSink sink filter
  | newGlobal h => (h.run sink filter).newGlobal.2
  | newScope h outer => ((h.run sink filter).newScope outer).2
  | set h id name value => (Eval.define id name value (h.run sink filter)).2

def lastSet (name : String) (id : ScopeId) {n : Nat} : History n → Option Value
  | start => none
  | newGlobal h => h.lastSet name id
  | newScope h _ => h.lastSet name id
  | set h i m v => if id = i ∧ name = m then some v else h.lastSet name id

def chain {n : Nat} : History n → ScopeId → List ScopeId
  | start, _ => []
  | @newGlobal n h, id => if id = n then [id] else h.chain id
  | @newScope n h outer, id => if id = n then id :: h.chain outer else h.chain id
  | set h _ _ _, id => h.chain id

end History

theorem Reach.along_subset (reach : Reach) (ids : List ScopeId) : reach.along ids ⊆ ids := by
  cases reach with
  | outwards => exact List.Subset.refl ids
  | own => exact List.take_subset 1 ids

theorem Scope.has_eq_isSome (name : String) (s : Scope) : s.has name = (s.find? name).isSome := by
  unfold Scope.has Scope.find?
  induction s.bindings with
  | nil => rfl
  | cons b bindings ih =>
    rw [List.any_cons, lookup_cons, ih]
    by_cases h : b.1 = name
    · simp [h]
    · rw [if_neg (Ne.symm h), beq_false_of_ne h, Bool.false_or]

namespace Heap

/-- Asking whether a name is there and asking for its value take the same way. -/
theorem has_eq_isSome (h : Heap) (reach : Reach) (name : String) (id : ScopeId) :
    h.has reach name id = (h.find? reach name id).isSome := by
  induction id using Nat.strongRecOn with
  | ind id ih =>
    rw [Heap.has, Heap.find?]
    cases h.scopes[id]? with
    | none => rfl
    | some s =>
      dsimp only
      rw [Scope.has_eq_isSome]
      cases s.find? name with
      | some v => rfl
      | none =>
        cases reach with
        | own => rfl
        | outwards =>
          cases s.outer with
          | none => rfl
          | some outer =>
            dsimp only [Option.isSome_none, Bool.false_or]
            split
            · rename_i hlt
              exact ih outer hlt
            · rfl

theorem Aged.set {h : Heap} (hh : h.Aged) (id : ScopeId) (name : String) (value : Value) :
    (h.set id name value).Aged := by
  intro i o s hs ho
  rw [getElem?_set] at hs
  split at hs
  · obtain ⟨t, ht, rfl⟩ := Option.map_eq_some_iff.mp hs
    exact hh i o t ht ho
  · exact hh i o s hs ho

theorem Aged.push {h : Heap} (hh : h.Aged) {outer : Option ScopeId}
    (houter : ∀ o, outer = some o → o < h.size) : (h.push outer).Aged := by
  intro i o s hs ho
  rw [getElem?_push] at hs
  split at hs
  · rename_i hi
    obtain rfl := Option.some.inj hs
    rw [hi]
    exact houter o ho
  · exact hh i o s hs ho

end Heap

namespace History

variable (sink : Sink) (filter : Filter) {n : Nat}

@[simp] theorem size_run (h : History n) : (h.run sink filter).heap.size = n := by
  induction h with
  | start => rfl
  | newGlobal h ih => exact (Heap.size_push _ none).trans (congrArg (· + 1) ih)
  | newScope h outer ih => exact (Heap.size_push _ (some outer.val)).trans (congrArg (· + 1) ih)
  | set h id name value ih => exact (Heap.size_set _ id name value).trans ih

theorem aged_run (h : History n) : (h.run sink filter).heap.Aged := by
  induction h with
  | start =>
    intro id o s hs
    cases hs
  | newGlobal h ih => exact ih.push nofun
  | newScope h outer ih =>
    apply ih.push
    intro o ho
    obtain rfl := Option.some.inj ho
    rw [size_run]
    exact outer.isLt
  | set h id name value ih => exact ih.set id name value

theorem lastSet_of_le (h : History n) (name : String) {id : ScopeId} (hid : n ≤ id) :
    h.lastSet name id = none := by
  induction h with
  | start => rfl
  | newGlobal h ih => exact ih (Nat.le_of_succ_le hid)
  | newScope h outer ih => exact ih (Nat.le_of_succ_le hid)
  | set h i m v ih =>
    have hne : ¬(id = i ∧ name = m) := fun hi => Nat.not_lt.mpr hid (hi.1 ▸ i.isLt)
    rw [lastSet, if_neg hne]
    exact ih hid

theorem find?_run (h : History n) (name : String) (id : ScopeId) :
    (h.run sink filter).heap.scopes[id]?.bind (Scope.find? name) = h.lastSet name id := by
  -- A new scope starts empty, and its number was not in use before.
  have made {n : Nat} (h : History n) (outer : Option ScopeId)
      (ih : (h.run sink filter).heap.scopes[id]?.bind (Scope.find? name) = h.lastSet name id) :
      ((h.run sink filter).heap.push outer).scopes[id]?.bind (Scope.find? name) =
        h.lastSet name id := by
    rw [Heap.getElem?_push, size_run]
    split
    · rename_i hid
      rw [h.lastSet_of_le name (Nat.le_of_eq hid.symm)]
      rfl
    · exact ih
  induction h with
  | start => rfl
  | newGlobal h ih => exact made h none ih
  | newScope h outer ih => exact made h (some outer.val) ih
  | @set n h i m v ih =>
    have hlt : (i : ScopeId) < (h.run sink filter).heap.scopes.size :=
      Nat.lt_of_lt_of_eq i.isLt (h.size_run sink filter).symm
    show ((h.run sink filter).heap.set i m v).scopes[id]?.bind (Scope.find? name) = _
    rw [Heap.getElem?_set, lastSet]
    by_cases hi : id = i
    · subst hi
      rw [if_pos rfl, ← ih, Array.getElem?_eq_getElem hlt]
      simp
    · rw [if_neg (Ne.symm hi), if_neg fun h => hi h.1]
      exact ih

theorem scope_made (h : History n) (outer : Option ScopeId) :
    ((h.run sink filter).heap.push outer).scopes[n]? = some ⟨[], outer⟩ := by
  rw [Heap.getElem?_push, size_run, if_pos rfl]

theorem chain_run (h : History n) {id : ScopeId} (hid : id < n) :
    (h.run sink filter).heap.Chain id (h.chain id) := by
  induction h generalizing id with
  | start => cases hid
  | @newGlobal n h ih =>
    rw [chain]
    split
    · rename_i heq
      rw [heq]
      exact .global (h.scope_made sink filter none) rfl
    · rename_i hne
      have hlt : id < n := Nat.lt_of_le_of_ne (Nat.le_of_lt_succ hid) hne
      exact (ih hlt).imp (Grows.push _ none).outer_eq
  | @newScope n h outer ih =>
    have hgrows := Grows.push (h.run sink filter) (some outer)
    rw [chain]
    split
    · rename_i heq
      rw [heq]
      exact .within (h.scope_made sink filter (some outer)) rfl
        ((ih outer.isLt).imp hgrows.outer_eq)
    · rename_i hne
      have hlt : id < n := Nat.lt_of_le_of_ne (Nat.le_of_lt_succ hid) hne
      exact (ih hlt).imp hgrows.outer_eq
  | set h i m v ih => exact (ih hid).imp (Grows.set _ i m v).outer_eq

/-- A look-up goes by nearness first and by recency second. -/
theorem find?_eq (h : History n) (reach : Reach) (name : String) (id : Fin n) :
    (h.run sink filter).heap.find? reach name id =
      (reach.along (h.chain id)).findSome? (h.lastSet name) := by
  rw [(h.chain_run sink filter id.isLt).find?_eq (h.aged_run sink filter)]
  exact congrArg (List.findSome? · _) (funext (h.find?_run sink filter name))

theorem along_own_chain (h : History n) (id : Fin n) : Reach.own.along (h.chain id) = [id.val] := by
  obtain ⟨rest, hrest⟩ := (h.chain_run .unlimited .silent id.isLt).exists_cons
  rw [hrest]
  rfl

theorem find?_set (h : History n) (reach : Reach) {name m : String} {id i : Fin n} (v : Value)
    (hoff : i.val ∉ h.chain id ∨ m ≠ name) :
    ((h.set i m v).run sink filter).heap.find? reach name id =
      (h.run sink filter).heap.find? reach name id := by
  have kept : ∀ j ∈ reach.along (h.chain id), (h.set i m v).lastSet name j = h.lastSet name j := by
    intro j hj
    have hne : ¬(j = i ∧ name = m) := by
      rintro ⟨rfl, rfl⟩
      exact hoff.elim (· (reach.along_subset _ hj)) (· rfl)
    exact if_neg hne
  rw [find?_eq, find?_eq, ← List.head?_filterMap, ← List.head?_filterMap]
  exact congrArg List.head? (List.filterMap_congr kept)

end History

/-- Whatever has been done to scopes, a look-up from a scope finds the value most recently set on
the nearest scope of its chain on which the name was ever set; one that does not go outwards finds
the value most recently set on the scope itself. A name is there exactly if it is found. Setting a
value off the chain, or for another name, changes no look-up. -/
theorem lookups_follow_history (sink : Sink) (filter : Filter) {n : Nat} (h : History n)
    (id : Fin n) (name : String) :
    (h.run sink filter).heap.find? .outwards name id = (h.chain id).findSome? (h.lastSet name) ∧
    (h.run sink filter).heap.find? .own name id = h.lastSet name id ∧
    (∀ reach, (h.run sink filter).heap.has reach name id =
      ((h.run sink filter).heap.find? reach name id).isSome) ∧
    ∀ (i : Fin n) (m : String) (v : Value), i.val ∉ h.chain id ∨ m ≠ name → ∀ reach,
      ((h.set i m v).run sink filter).heap.find? reach name id =
        (h.run sink filter).heap.find? reach name id ∧
      ((h.set i m v).run sink filter).heap.has reach name id =
        (h.run sink filter).heap.has reach name id := by
  refine ⟨h.find?_eq sink filter .outwards name id, ?_, ?_, ?_⟩
  · rw [h.find?_eq, h.along_own_chain]
    exact List.findSome?_singleton
  · intro reach
    exact Heap.has_eq_isSome _ reach name id
  · intro i m v hoff reach
    have hfind := h.find?_set sink filter reach v hoff
    exact ⟨hfind, by rw [Heap.has_eq_isSome, Heap.has_eq_isSome, hfind]⟩

def History.siblings : History 3 :=
  History.start.newGlobal.set 0 "x" (.integer 1) |>.newScope 0 |>.newScope 0
    |>.set 1 "x" (.integer 2) |>.set 1 "y" .null |>.set 0 "x" (.integer 3)

theorem lookups_follow_history_siblings :
    (History.siblings.chain 1 = [1, 0] ∧ History.siblings.chain 2 = [2, 0]) ∧
    (History.siblings.run .unlimited .silent).heap.find? .outwards "x" 1 = some (.integer 2) ∧
    (History.siblings.run .unlimited .silent).heap.find? .outwards "x" 2 = some (.integer 3) ∧
    (History.siblings.run .unlimited .silent).heap.find? .own "x" 2 = none ∧
    ((History.siblings.set 1 "x" .null).run .unlimited .silent).heap.find? .outwards "x" 2 =
      (History.siblings.run .unlimited .silent).heap.find? .outwards "x" 2 := by
  have left := lookups_follow_history .unlimited .silent History.siblings 1 "x"
  obtain ⟨outwards, own, -, unaffected⟩ :=
    lookups_follow_history .unlimited .silent History.siblings 2 "x"
  have hoff : (1 : Fin 3).val ∉ History.siblings.chain (2 : Fin 3) := by decide
  exact ⟨⟨rfl, rfl⟩, left.1, outwards, own, (unaffected 1 "x" .null (.inl hoff) .outwards).1⟩

end Monkey
