import Monkey.Eval
import Monkey.Proofs.State
import Monkey.Proofs.Value.Lookup

/-!
Hash literals. Their pairs are evaluated from left to right, each key before its value, and filed in
that order; a literal has a value exactly when all its keys and values have one and every key can be
a key. Looking something up in it follows the equality of values as far as slots do.
-/

namespace Monkey

open Monkey.Action

/-- From `st` to `st'`, the expressions of the pairs yield the given keys and values. -/
inductive Expr.PairsYield (call : CallRule) (scope : ScopeId) :
    List (Expr × Expr) → State → List (Key × Value) → State → Prop
  | nil (st : State) : PairsYield call scope [] st [] st
  | cons {k v : Expr} {ps : List (Expr × Expr)} {st mid mid' st' : State} {key : Key}
      {value : Value} {pairs : List (Key × Value)} :
      k.eval call scope st = (.ok key.value, mid) →
      v.eval call scope mid = (.ok value, mid') →
      PairsYield call scope ps mid' pairs st' →
      PairsYield call scope ((k, v) :: ps) st ((key, value) :: pairs) st'

section Literals

variable {call : CallRule} {scope : ScopeId} {st st' : State}

theorem Expr.PairsYield.evalPairs_eq {ps : List (Expr × Expr)} {pairs : List (Key × Value)}
    (h : Expr.PairsYield call scope ps st pairs st') (es : List Entry) :
    Expr.evalPairs call scope es ps st = (.ok (Entry.fileAll es pairs), st') := by
  induction h generalizing es with
  | nil st => rfl
  | @cons _ _ _ _ _ _ _ key _ _ hkey hvalue _ ih =>
    refine (bind_of_ok hkey _).trans ?_
    simp only [key.hashKey?_value]
    exact (bind_of_ok hvalue _).trans (ih _)

theorem Expr.evalPairs_eq_ok_iff {ps : List (Expr × Expr)} {es fs : List Entry} :
    Expr.evalPairs call scope es ps st = (.ok fs, st') ↔
      ∃ pairs, Expr.PairsYield call scope ps st pairs st' ∧ Entry.fileAll es pairs = fs := by
  constructor
  · intro h
    induction ps generalizing es st with
    | nil =>
      obtain ⟨hes, rfl⟩ := Prod.mk.inj h
      exact ⟨[], .nil st, Except.ok.inj hes⟩
    | cons p ps ih =>
      obtain ⟨k, v⟩ := p
      obtain ⟨key, mid, hkey, hrest⟩ := bind_eq_ok.mp h
      cases hslot : key.hashKey? with
      | none =>
        rw [hslot] at hrest
        cases hrest
      | some slot =>
        rw [hslot] at hrest
        obtain ⟨value, mid', hvalue, hrest⟩ := bind_eq_ok.mp hrest
        obtain ⟨key, rfl, rfl⟩ := Key.exists_of_hashKey? hslot
        obtain ⟨pairs, hpairs, hfiled⟩ := ih hrest
        exact ⟨(key, value) :: pairs, .cons hkey hvalue hpairs, hfiled⟩
  · rintro ⟨pairs, hpairs, rfl⟩
    exact hpairs.evalPairs_eq es

/-- A hash literal has a value when its pairs have, and then they are filed in order. -/
theorem Expr.eval_hash_eq_ok_iff {t : Token} {ps : List (Expr × Expr)} {v : Value} :
    (Expr.hash t ps).eval call scope st = (.ok v, st') ↔
      ∃ pairs, Expr.PairsYield call scope ps st pairs st' ∧
        v = .hash (Entry.fileAll [] pairs) := by
  constructor
  · intro h
    obtain ⟨entries, mid, hentries, hdone⟩ := bind_eq_ok.mp h
    obtain ⟨hvalue, rfl⟩ := Prod.mk.inj hdone
    obtain ⟨pairs, hpairs, rfl⟩ := Expr.evalPairs_eq_ok_iff.mp hentries
    exact ⟨pairs, hpairs, (Except.ok.inj hvalue).symm⟩
  · rintro ⟨pairs, hpairs, rfl⟩
    exact bind_of_ok (hpairs.evalPairs_eq []) _

end Literals

/-- A lookup follows the equality of values, for a key that collides with none of those filed. In
the value of a hash literal with the given pairs, it finds the last pair whose key is equal, and
`null` if there is none; filing something under another key that does not collide with it changes
nothing. -/
theorem lookup_follows_equality {pairs : List (Key × Value)} {k : Key}
    (hapart : ∀ p ∈ pairs, ¬p.1.Collides k) :
    let hash := Value.hash (Entry.fileAll [] pairs)
    (∀ (call : CallRule) (scope : ScopeId) (t : Token) (ps : List (Expr × Expr)) (st st' : State),
      Expr.PairsYield call scope ps st pairs st' →
        (Expr.hash t ps).eval call scope st = (.ok hash, st')) ∧
    hash.index k.value =
      .ok (((pairs.filter (·.1.value == k.value)).getLast?.map Prod.snd).getD .null) ∧
    ((∀ p ∈ pairs, (p.1.value == k.value) = false) → hash.index k.value = .ok .null) ∧
    (∀ (other : Key) (v : Value), (other.value == k.value) = false → ¬other.Collides k →
      (Value.hash (Entry.fileAll [] (pairs ++ [(other, v)]))).index k.value =
        hash.index k.value) := by
  intro hash
  have hindex : hash.index k.value = .ok (Value.lastUnder k pairs) := Value.index_of_apart hapart
  refine ⟨?_, hindex, ?_, ?_⟩
  · intro call scope t ps st st' hpairs
    exact Expr.eval_hash_eq_ok_iff.mpr ⟨pairs, hpairs, rfl⟩
  · intro habsent
    have hnone : pairs.filter (·.1.value == k.value) = [] := by
      simpa [List.filter_eq_nil_iff] using habsent
    rw [hindex, Value.lastUnder, hnone]
    rfl
  · intro other v hne hother
    have hall : ∀ p ∈ pairs ++ [(other, v)], ¬p.1.Collides k := by
      intro p hp
      rcases List.mem_append.mp hp with hp | hp
      · exact hapart p hp
      · rw [List.mem_singleton.mp hp]
        exact hother
    rw [Value.index_of_apart hall, hindex]
    have hfilter : (pairs ++ [(other, v)]).filter (·.1.value == k.value) =
        pairs.filter (·.1.value == k.value) := by
      rw [List.filter_append, List.filter_cons_of_neg (by simp [hne]), List.filter_nil,
        List.append_nil]
    simp only [Value.lastUnder, hfilter]

/-- Keys of all kinds beside each other; one of them comes up twice. -/
theorem lookup_follows_equality_instance :
    let pairs : List (Key × Value) := [(.string "one", .integer 1), (.integer 1, .integer 2),
      (.boolean true, .integer 3), (.string "one", .integer 4), (.string "two", .integer 5)]
    (∀ p ∈ pairs, ¬p.1.Collides (.string "one")) ∧
      (Value.hash (Entry.fileAll [] pairs)).index (.string "one") = .ok (.integer 4) := by
  intro pairs
  have hapart : ∀ p ∈ pairs, ¬p.1.Collides (.string "one") := by decide +kernel
  obtain ⟨-, hindex, -⟩ := lookup_follows_equality hapart
  exact ⟨hapart, hindex⟩

/-- Two strings with one digest: the second finds what was filed under the first, though it was
never filed, and what is filed under it takes the place of what was filed under the first. -/
theorem colliding_keys_replace_each_other :
    let a := Key.string "zAGZwpJzG4f"
    let b := Key.string "5mzg7oknpko"
    (a.value == b.value) = false ∧
      (Value.hash (Entry.fileAll [] [(a, .integer 1)])).index b.value = .ok (.integer 1) ∧
      (Value.hash (Entry.fileAll [] [(a, .integer 1), (b, .integer 2)])).index a.value =
        .ok (.integer 2) := by
  intro a b
  have hslot : a.slot = b.slot := (Key.slot_eq_iff a b).mpr (.inr (by decide +kernel))
  refine ⟨by decide +kernel, ?_, ?_⟩
  · rw [Value.index_fileAll]
    simp [hslot]
  · rw [Value.index_fileAll]
    simp [hslot]

end Monkey
