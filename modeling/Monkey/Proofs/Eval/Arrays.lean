import Mathlib.Algebra.Group.Int.Defs
import Mathlib.Algebra.Group.Nat.Defs
import Monkey.Eval

/-!
Arrays and what is done with them. Indexing looks at a place among all integers of 64 bits and finds
`null` outside the array; the builtins look at the elements themselves. Both see the same array, as
long as its length is such an integer.
-/

namespace Monkey

namespace Value

section Elements

variable {vs : List Value} {v x : Value} {i : Int64}

theorem elementAt_eq (vs : List Value) (i : Int64) :
    elementAt vs i = if i.toInt < 0 then .null else (vs[i.toInt.toNat]?).getD .null := by
  unfold elementAt
  simp only [Int64.lt_iff_toInt_lt, Int64.toInt_zero, Int64.toNat_toInt]

theorem elementAt_of_eq {k : Nat} (hi : i.toInt = k) : elementAt vs i = (vs[k]?).getD .null := by
  have hnonneg : ¬i.toInt < 0 := by omega
  rw [elementAt_eq, if_neg hnonneg, hi, Int.toNat_natCast]

theorem elementAt_of_neg (hi : i.toInt < 0) : elementAt vs i = .null := by
  rw [elementAt_eq, if_pos hi]

theorem elementAt_of_le (hi : vs.length ≤ i.toInt) : elementAt vs i = .null := by
  have hnone : vs[i.toInt.toNat]? = none := List.getElem?_eq_none (by omega)
  rw [elementAt_eq, if_neg (by omega), hnone, Option.getD_none]

theorem elementAt_zero (vs : List Value) : elementAt vs 0 = vs.head?.getD .null := by
  rw [elementAt_of_eq (k := 0) Int64.toInt_zero, List.head?_eq_getElem?]

theorem elementAt_last (vs : List Value) (hsize : vs.length < 2 ^ 63) :
    elementAt vs (Int64.ofNat vs.length - 1) = vs.getLast?.getD .null := by
  have hlength : (Int64.ofNat vs.length).toInt = vs.length := Int64.toInt_ofNat_of_lt hsize
  have hplace : (Int64.ofNat vs.length - 1).toInt = (vs.length : Int) - 1 := by
    rw [Int64.toInt_sub, hlength, Int64.toInt_one]
    exact Int.bmod_eq_of_le (by omega) (by omega)
  rcases Nat.eq_zero_or_pos vs.length with hzero | hpos
  · rw [elementAt_of_neg (by omega), List.eq_nil_of_length_eq_zero hzero]
    rfl
  · rw [elementAt_of_eq (k := vs.length - 1) (by omega), List.getLast?_eq_getElem?]

/-- Behind the first element everything stands one place further on. The place behind the greatest
one is negative, and there is nothing at either. -/
theorem elementAt_cons_add_one (hsize : vs.length < 2 ^ 63) (hi : 0 ≤ i.toInt) :
    elementAt (v :: vs) (i + 1) = elementAt vs i := by
  have hlt := i.toInt_lt
  have hsum : (i + 1).toInt = (i.toInt + 1).bmod (2 ^ 64) := by
    rw [Int64.toInt_add, Int64.toInt_one]
  by_cases hgreatest : i.toInt + 1 < 2 ^ 63
  · have hnext : (i + 1).toInt = ((i.toInt.toNat + 1 : Nat) : Int) := by
      rw [hsum, Int.bmod_eq_of_le (by omega) (by omega)]
      omega
    rw [elementAt_of_eq hnext, elementAt_of_eq (k := i.toInt.toNat) (by omega),
      List.getElem?_cons_succ]
  · have hwrapped : (i + 1).toInt = -2 ^ 63 := by
      have hvalue : i.toInt = 2 ^ 63 - 1 := by omega
      rw [hsum, hvalue]
      rfl
    rw [elementAt_of_neg (by omega), elementAt_of_le (by omega)]

theorem elementAt_concat (vs : List Value) (x : Value) (i : Int64) :
    elementAt (vs ++ [x]) i = if i.toInt = vs.length then x else elementAt vs i := by
  by_cases hi : i.toInt = vs.length
  · rw [if_pos hi, elementAt_of_eq hi, List.getElem?_concat_length, Option.getD_some]
  · rw [if_neg hi]
    rcases Int.lt_or_le i.toInt 0 with hneg | hnonneg
    · rw [elementAt_of_neg hneg, elementAt_of_neg hneg]
    · rcases Int.lt_or_le i.toInt vs.length with hlt | hle
      · have hplace : i.toInt = (i.toInt.toNat : Int) := by omega
        rw [elementAt_of_eq hplace, elementAt_of_eq hplace, List.getElem?_append_left (by omega)]
      · have houtside : ((vs ++ [x]).length : Int) ≤ i.toInt := by
          rw [List.length_append, List.length_singleton]
          omega
        rw [elementAt_of_le houtside, elementAt_of_le hle]

end Elements

end Value

/-- Indexing and the builtins agree on every array. An array is held in memory, so its length is an
integer of 64 bits, also with one more element. -/
theorem array_operations_agree {a : List Value} (hsize : a.length + 1 < 2 ^ 63) (x : Value) :
    let array : Value := .array a
    let n : Int64 := .ofNat a.length
    let item (v : Value) (i : Int64) : Eval Value := Eval.ofExcept (v.index (.integer i))
    let len (v : Value) : Eval Value := Builtin.len.apply [v]
    let rest (v : Value) : Eval Value := Builtin.rest.apply [v]
    let push (v w : Value) : Eval Value := Builtin.push.apply [v, w]
    (∀ (i : Int64) (k : Nat) (hk : k < a.length), i.toInt = k → item array i = pure a[k]) ∧
    (∀ i : Int64, i.toInt < 0 ∨ a.length ≤ i.toInt → item array i = pure .null) ∧
    n.toInt = a.length ∧ len array = pure (.integer n) ∧
    Builtin.first.apply [array] = item array 0 ∧
    Builtin.last.apply [array] = (do
      let last ← Eval.ofExcept ((← len array).binary "-" (.integer 1))
      Eval.ofExcept (array.index last)) ∧
    (0 < a.length →
      (n - 1).toInt = a.length - 1 ∧ (do len (← rest array)) = pure (.integer (n - 1)) ∧
      (∀ i : Int64, 0 ≤ i → (do item (← rest array) i) = item array (i + 1)) ∧
      ∃ v, (do rest (← push array x)) = pure v ∧ (do push (← rest array) x) = pure v) ∧
    (n + 1).toInt = a.length + 1 ∧ (do len (← push array x)) = pure (.integer (n + 1)) ∧
    (∀ i : Int64, i ≠ n → (do item (← push array x) i) = item array i) ∧
    (do item (← push array x) n) = pure x := by
  intro array n item len rest push
  have hn : n.toInt = a.length := Int64.toInt_ofNat_of_lt (by omega)
  have hsucc (k : Nat) : Int64.ofNat (k + 1) = Int64.ofNat k + 1 := Int64.ofNat_add k 1
  have hitem (vs : List Value) (i : Int64) : item (.array vs) i = pure (Value.elementAt vs i) := rfl
  have hpushed (i : Int64) :
      (do item (← push array x) i) = pure (Value.elementAt (a ++ [x]) i) := rfl
  refine ⟨?_, ?_, hn, rfl, ?_, ?_, ?_, ?_, ?_, ?_, ?_⟩
  · intro i k hk hi
    rw [hitem, Value.elementAt_of_eq hi, List.getElem?_eq_getElem hk, Option.getD_some]
  · rintro i (hneg | hle)
    · rw [hitem, Value.elementAt_of_neg hneg]
    · rw [hitem, Value.elementAt_of_le hle]
  · rw [hitem, Value.elementAt_zero]
    rfl
  · have hlast := Value.elementAt_last a (by omega)
    have hbuiltin : Builtin.last.apply [array] = pure (a.getLast?.getD .null) := rfl
    rw [hbuiltin, ← hlast]
    rfl
  · intro hpos
    obtain ⟨v, vs, rfl⟩ := List.exists_cons_of_length_pos hpos
    rw [List.length_cons] at hsize
    have hless : n - 1 = Int64.ofNat vs.length := by
      change Int64.ofNat (vs.length + 1) - 1 = Int64.ofNat vs.length
      rw [hsucc, Int64.add_sub_cancel]
    refine ⟨?_, ?_, ?_, .array (vs ++ [x]), rfl, rfl⟩
    · rw [hless, Int64.toInt_ofNat_of_lt (by omega), List.length_cons]
      omega
    · rw [hless]
      rfl
    · intro i hi
      rw [hitem, Value.elementAt_cons_add_one (by omega) (Int64.le_iff_toInt_le.mp hi)]
      rfl
  · rw [← hsucc, Int64.toInt_ofNat_of_lt hsize]
    rfl
  · have hlength : (a ++ [x]).length = a.length + 1 := List.length_append
    have hlen : (do len (← push array x)) = pure (.integer (.ofNat (a ++ [x]).length)) := rfl
    rw [hlen, hlength, hsucc]
  · intro i hi
    have hplace : i.toInt ≠ a.length := fun heq => hi (Int64.toInt_inj.mp (heq.trans hn.symm))
    rw [hpushed, Value.elementAt_concat, if_neg hplace, hitem]
  · rw [hpushed, Value.elementAt_concat, if_pos hn]

/-- The empty array, at a negative place; and an array of two, at the greatest place there is. -/
theorem array_operations_agree_instances :
    let item (v : Value) (i : Int64) : Eval Value := Eval.ofExcept (v.index (.integer i))
    let pair : List Value := [.integer 1, .null]
    ([] : List Value).length + 1 < 2 ^ 63 ∧
      Builtin.last.apply [.array []] = item (.array []) (-1) ∧ item (.array []) (-1) = pure .null ∧
      pair.length + 1 < 2 ^ 63 ∧
      (do item (← Builtin.rest.apply [.array pair]) Int64.maxValue) =
        item (.array pair) Int64.minValue ∧
      (do item (← Builtin.push.apply [.array pair, .boolean true]) 2) = pure (.boolean true) := by
  intro item pair
  have hempty : ([] : List Value).length + 1 < 2 ^ 63 := by decide
  have hpair : pair.length + 1 < 2 ^ 63 := by decide
  obtain ⟨-, houtside, -, -, -, hlast, -⟩ := array_operations_agree hempty .null
  obtain ⟨-, -, -, -, -, -, hrest, -, -, -, hpushed⟩ := array_operations_agree hpair (.boolean true)
  obtain ⟨-, -, hshifted, -⟩ := hrest (by decide)
  exact ⟨hempty, hlast, houtside (-1) (.inl (by decide)), hpair,
    hshifted Int64.maxValue (by decide), hpushed⟩

end Monkey
