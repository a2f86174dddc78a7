import Monkey.Proofs.Scope

/-!
Chains of scopes. The chain of a scope leads outwards to a global one, whatever the numbers of the
scopes on it. Where outer scopes are older than the scopes within them, every scope has a chain, no
chain comes back to where it was, and a look-up goes through all of it.
-/

namespace Monkey

/-- The scopes on the way from a scope to a global one, itself and the global one included. -/
inductive Heap.Chain (h : Heap) : ScopeId → List ScopeId → Prop where
  | global {id : ScopeId} {s : Scope} : h.scopes[id]? = some s → s.outer = none → Chain h id [id]
  | within {id outer : ScopeId} {s : Scope} {ids : List ScopeId} : h.scopes[id]? = some s →
      s.outer = some outer → Chain h outer ids → Chain h id (id :: ids)

def Reach.along : Reach → List ScopeId → List ScopeId
  | .outwards, ids => ids
  | .own, ids => ids.take 1

namespace Heap

def Aged (h : Heap) : Prop :=
  ∀ (id o : ScopeId) (s : Scope), h.scopes[id]? = some s → s.outer = some o → o < id

namespace Chain

variable {h : Heap} {id : ScopeId} {ids : List ScopeId}

theorem lt_size (hc : h.Chain id ids) : id < h.size := by
  cases hc with
  | global hs _ => exact (Array.getElem?_eq_some_iff.mp hs).1
  | within hs _ _ => exact (Array.getElem?_eq_some_iff.mp hs).1

theorem exists_cons (hc : h.Chain id ids) : ∃ rest, ids = id :: rest := by
  cases hc with
  | global _ _ => exact ⟨[], rfl⟩
  | within _ _ _ => exact ⟨_, rfl⟩

theorem imp {h' : Heap} (hc : h.Chain id ids)
    (houter : ∀ {id : ScopeId} {s : Scope}, h.scopes[id]? = some s →
      ∃ s', h'.scopes[id]? = some s' ∧ s'.outer = s.outer) : h'.Chain id ids := by
  induction hc with
  | global hs ho =>
    obtain ⟨s', hs', ho'⟩ := houter hs
    exact .global hs' (ho'.trans ho)
  | within hs ho _ ih =>
    obtain ⟨s', hs', ho'⟩ := houter hs
    exact .within hs' (ho'.trans ho) ih

/-- Where outer scopes are older, a chain leads to ever older scopes. -/
theorem pairwise (hc : h.Chain id ids) (hh : h.Aged) : ids.Pairwise (· > ·) := by
  induction hc with
  | global _ _ => exact List.pairwise_singleton _ _
  | @within id outer s ids hs ho hc ih =>
    have hlt : outer < id := hh id outer s hs ho
    refine List.pairwise_cons.mpr ⟨?_, ih⟩
    intro i hi
    obtain ⟨rest, rfl⟩ := hc.exists_cons
    rcases List.mem_cons.mp hi with rfl | hi
    · exact hlt
    · exact Nat.lt_trans ((List.pairwise_cons.mp ih).1 i hi) hlt

/-- A look-up finds what the first scope on its way has. -/
theorem find?_eq (hc : h.Chain id ids) (hh : h.Aged) (reach : Reach) (name : String) :
    h.find? reach name id =
      (reach.along ids).findSome? fun i => h.scopes[i]?.bind (Scope.find? name) := by
  induction hc with
  | @global id s hs ho =>
    rw [Heap.find?]
    cases hfind : s.find? name <;> cases reach <;> simp [hs, ho, hfind, Reach.along]
  | @within id outer s ids hs ho hc ih =>
    have hlt : outer < id := hh id outer s hs ho
    rw [Heap.find?]
    cases hfind : s.find? name with
    | some v => cases reach <;> simp [hs, hfind, Reach.along]
    | none =>
      cases reach with
      | own => simp [hs, hfind, Reach.along]
      | outwards => simpa [hs, ho, hfind, hlt, Reach.along] using ih

theorem has_eq (hc : h.Chain id ids) (hh : h.Aged) (reach : Reach) (name : String) :
    h.has reach name id = (reach.along ids).any fun i => h.scopes[i]?.any (Scope.has name) := by
  induction hc with
  | @global id s hs ho =>
    rw [Heap.has]
    cases reach <;> simp [hs, ho, Reach.along]
  | @within id outer s ids hs ho hc ih =>
    have hlt : outer < id := hh id outer s hs ho
    rw [Heap.has]
    cases reach with
    | own => simp [hs, Reach.along]
    | outwards => simpa [hs, ho, hlt, Reach.along] using congrArg (s.has name || ·) ih

end Chain

/-- Where outer scopes are older, every scope has a chain. -/
theorem Aged.exists_chain {h : Heap} (hh : h.Aged) {id : ScopeId} (hid : id < h.size) :
    ∃ ids, h.Chain id ids := by
  induction id using Nat.strongRecOn with
  | ind id ih =>
    have hs : h.scopes[id]? = some h.scopes[id] := Array.getElem?_eq_getElem hid
    cases ho : h.scopes[id].outer with
    | none => exact ⟨[id], .global hs ho⟩
    | some outer =>
      have hlt : outer < id := hh id outer _ hs ho
      obtain ⟨ids, hids⟩ := ih outer hlt (Nat.lt_trans hlt hid)
      exact ⟨id :: ids, .within hs ho hids⟩

end Heap

end Monkey
