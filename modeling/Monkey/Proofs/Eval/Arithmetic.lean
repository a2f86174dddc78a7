import Mathlib.Data.Int.ModEq
import Monkey.Eval
import Monkey.Proofs.State
import Monkey.Proofs.Syntax.Tree

/-!
Arithmetic on integer literals. Going from the integers to 64 bits commutes with negation, sums,
differences and products, so however such an expression is built, its value is the exact one reduced
once. A quotient is taken of reduced operands; it is the only operation that can fail.
-/

namespace Monkey

/-- Built from integer literals, with `-` before operands and the operators `ops` between them. -/
def Expr.arithmetic (ops : List String) : Expr → Bool
  | .integer _ _ => true
  | .unary _ t e => t.text == "-" && e.arithmetic ops
  | .binary l _ t r => ops.contains t.text && (l.arithmetic ops && r.arithmetic ops)
  | _ => false
termination_by structural e => e

def ringOperators : List String := ["+", "-", "*"]

def integerOperators : List String := ["+", "-", "*", "/"]

def exactBinary (x : Int) (op : String) (y : Int) : Int :=
  match op with
  | "+" => x + y
  | "-" => x - y
  | "*" => x * y
  | _ => 0

/-- What an expression without quotients is worth among all integers. -/
def Expr.exact : Expr → Int
  | .integer _ n => n.toInt
  | .unary _ _ e => -e.exact
  | .binary l _ t r => exactBinary l.exact t.text r.exact
  | _ => 0
termination_by structural e => e

section Words

/-- There is one integer of 64 bits in each class modulo `2 ^ 64`. -/
theorem eq_toInt_ofInt_iff (m x : Int) :
    (-2 ^ 63 ≤ m ∧ m ≤ 2 ^ 63 - 1 ∧ m ≡ x [ZMOD 2 ^ 64]) ↔ m = (Int64.ofInt x).toInt := by
  rw [Int64.toInt_ofInt]
  constructor
  · rintro ⟨hlow, hhigh, hmod⟩
    have hfits : m.bmod Int64.size = m := Int.bmod_eq_of_le (by simpa using hlow) (by simp; omega)
    have hclass : m % (Int64.size : Int) = x % (Int64.size : Int) := hmod
    rw [← hfits, ← Int.emod_bmod, hclass, Int.emod_bmod]
  · rintro rfl
    have hlow := (Int64.ofInt x).le_toInt
    have hhigh := (Int64.ofInt x).toInt_lt
    rw [Int64.toInt_ofInt] at hlow hhigh
    refine ⟨hlow, by omega, ?_⟩
    exact Int.bmod_emod

/-- A quotient is reduced in one case only. -/
theorem quotient_reduced_iff (a b : Int64) :
    (a.toInt.tdiv b.toInt).bmod (2 ^ 64) ≠ a.toInt.tdiv b.toInt ↔
      a.toInt = -2 ^ 63 ∧ b.toInt = -1 := by
  rw [← Int64.toInt_div]
  constructor
  · intro hreduced
    constructor
    · by_contra ha
      have hne : a ≠ Int64.minValue := by
        rintro rfl
        exact ha Int64.toInt_minValue
      exact hreduced (Int64.toInt_div_of_ne_left a b hne)
    · by_contra hb
      have hne : b ≠ -1 := by
        rintro rfl
        exact hb rfl
      exact hreduced (Int64.toInt_div_of_ne_right a b hne)
  · rintro ⟨ha, hb⟩ heq
    have hlt := (a / b).toInt_lt
    rw [heq, ha, hb] at hlt
    exact absurd hlt (by decide)

end Words

section Operations

variable {call : CallRule} {scope : ScopeId} {t : Token} {v : Value} {s : Signal}

abbrev Eval.failing (r : Except RuntimeError Value) : Except Signal Value := r.mapError .failed

theorem Eval.gives_ofExcept (r : Except RuntimeError Value) :
    (Eval.ofExcept r).Gives (Eval.failing r) := by
  intro st
  cases r with
  | ok v => rfl
  | error e => rfl

theorem Expr.gives_unary {e : Expr} (op : UnaryOp) (he : (e.eval call scope).Gives (.ok v)) :
    ((Expr.unary op t e).eval call scope).Gives (Eval.failing (v.unary t.text)) :=
  he.bind (Eval.gives_ofExcept _)

theorem Expr.gives_unary_error {e : Expr} (op : UnaryOp)
    (he : (e.eval call scope).Gives (.error s)) :
    ((Expr.unary op t e).eval call scope).Gives (.error s) :=
  he.bind_error _

theorem Expr.gives_integerBinary {l r : Expr} {m n : Int64} (op : BinaryOp)
    (hl : (l.eval call scope).Gives (.ok (.integer m)))
    (hr : (r.eval call scope).Gives (.ok (.integer n))) :
    ((Expr.binary l op t r).eval call scope).Gives
      (Eval.failing (Value.integerBinary m t.text n)) :=
  hl.bind (hr.bind (Eval.gives_ofExcept _))

theorem Expr.gives_binary_left {l : Expr} (op : BinaryOp) (r : Expr)
    (hl : (l.eval call scope).Gives (.error s)) :
    ((Expr.binary l op t r).eval call scope).Gives (.error s) :=
  hl.bind_error _

theorem Expr.gives_binary_right {l r : Expr} (op : BinaryOp)
    (hl : (l.eval call scope).Gives (.ok v)) (hr : (r.eval call scope).Gives (.error s)) :
    ((Expr.binary l op t r).eval call scope).Gives (.error s) :=
  hl.bind (hr.bind_error _)

end Operations

/-- Reduction to 64 bits commutes with sums, differences and products. -/
theorem Value.integerBinary_ofInt {op : String} (hop : op ∈ ringOperators) (x y : Int) :
    Value.integerBinary (Int64.ofInt x) op (Int64.ofInt y) =
      .ok (.integer (Int64.ofInt (exactBinary x op y))) := by
  simp only [ringOperators, List.mem_cons, List.not_mem_nil, or_false] at hop
  rcases hop with rfl | rfl | rfl
  · exact congrArg (fun n => Except.ok (Value.integer n)) (Int64.ofInt_add x y).symm
  · exact congrArg (fun n => Except.ok (Value.integer n)) (Int64.ofInt_sub x y).symm
  · exact congrArg (fun n => Except.ok (Value.integer n)) (Int64.ofInt_mul x y).symm

theorem Expr.arithmetic_unary {ops : List String} {op : UnaryOp} {t : Token} {e : Expr} :
    (Expr.unary op t e).arithmetic ops = true ↔ t.text = "-" ∧ e.arithmetic ops = true := by
  simp [Expr.arithmetic]

theorem Expr.arithmetic_binary {ops : List String} {op : BinaryOp} {t : Token} {l r : Expr} :
    (Expr.binary l op t r).arithmetic ops = true ↔
      t.text ∈ ops ∧ l.arithmetic ops = true ∧ r.arithmetic ops = true := by
  simp [Expr.arithmetic]

section Evaluation

variable (call : CallRule) (scope : ScopeId)

theorem Expr.gives_exact (e : Expr) (h : e.arithmetic ringOperators = true) :
    (e.eval call scope).Gives (.ok (.integer (Int64.ofInt e.exact))) := by
  match e with
  | .integer t n =>
    rw [Expr.exact, Int64.ofInt_toInt]
    exact .pure _
  | .unary op t e =>
    obtain ⟨ht, he⟩ := Expr.arithmetic_unary.mp h
    have hgives := Expr.gives_unary (t := t) op (Expr.gives_exact e he)
    rw [ht] at hgives
    rw [Expr.exact, Int64.ofInt_neg]
    exact hgives
  | .binary l op t r =>
    obtain ⟨ht, hl, hr⟩ := Expr.arithmetic_binary.mp h
    have hgives := Expr.gives_integerBinary (t := t) op (Expr.gives_exact l hl)
      (Expr.gives_exact r hr)
    rw [Value.integerBinary_ofInt ht] at hgives
    exact hgives
  | .ident _ | .boolean _ _ | .string _ _ | .array _ _ | .hash _ _ | .cond _ _ _ _ | .function _
  | .call _ _ _ | .index _ _ _ => cases h
termination_by structural e

/-- Within the expression a quotient is taken whose divisor is worth zero. -/
def Expr.DividesByZero (e : Expr) : Prop :=
  ∃ (l : Expr) (op : BinaryOp) (t : Token) (r : Expr) (a : Int64),
    (Part.expr e).Contains (.expr (.binary l op t r)) ∧ t.text = "/" ∧
      (l.eval call scope).Gives (.ok (.integer a)) ∧ (r.eval call scope).Gives (.ok (.integer 0))

variable {call scope}

theorem Expr.not_dividesByZero_integer (t : Token) (n : Int64) :
    ¬(Expr.integer t n).DividesByZero call scope := by
  rintro ⟨l, op, u, r, a, hcontains, -⟩
  rcases hcontains.cases_head with heq | ⟨x, hx, -⟩
  · cases heq
  · cases hx

theorem Expr.dividesByZero_unary {op : UnaryOp} {t : Token} {e : Expr} :
    (Expr.unary op t e).DividesByZero call scope ↔ e.DividesByZero call scope := by
  constructor
  · rintro ⟨l, o, u, r, a, hcontains, hquotient⟩
    rcases hcontains.cases_head with heq | ⟨x, hx, hcontains⟩
    · cases heq
    · obtain rfl := List.mem_singleton.mp hx
      exact ⟨l, o, u, r, a, hcontains, hquotient⟩
  · rintro ⟨l, o, u, r, a, hcontains, hquotient⟩
    exact ⟨l, o, u, r, a, hcontains.head List.mem_cons_self, hquotient⟩

theorem Expr.dividesByZero_binary {op : BinaryOp} {t : Token} {l r : Expr} :
    (Expr.binary l op t r).DividesByZero call scope ↔
      l.DividesByZero call scope ∨ r.DividesByZero call scope ∨
        (t.text = "/" ∧ (∃ a, (l.eval call scope).Gives (.ok (.integer a))) ∧
          (r.eval call scope).Gives (.ok (.integer 0))) := by
  constructor
  · rintro ⟨l', o, u, r', a, hcontains, hquotient⟩
    rcases hcontains.cases_head with heq | ⟨x, hx, hcontains⟩
    · obtain ⟨rfl, rfl, rfl, rfl⟩ := Expr.binary.inj (Part.expr.inj heq)
      exact .inr (.inr ⟨hquotient.1, ⟨a, hquotient.2.1⟩, hquotient.2.2⟩)
    · rcases List.mem_cons.mp hx with rfl | hx
      · exact .inl ⟨l', o, u, r', a, hcontains, hquotient⟩
      · obtain rfl := List.mem_singleton.mp hx
        exact .inr (.inl ⟨l', o, u, r', a, hcontains, hquotient⟩)
  · rintro (⟨l', o, u, r', a, hcontains, hquotient⟩ | ⟨l', o, u, r', a, hcontains, hquotient⟩ |
      ⟨ht, ⟨a, ha⟩, hzero⟩)
    · exact ⟨l', o, u, r', a, hcontains.head List.mem_cons_self, hquotient⟩
    · refine ⟨l', o, u, r', a, hcontains.head ?_, hquotient⟩
      exact List.mem_cons_of_mem _ List.mem_cons_self
    · exact ⟨l, op, t, r, a, .refl, ht, ha, hzero⟩

theorem Expr.gives_quotient {l r : Expr} (op : BinaryOp) {t : Token} {a b : Int64}
    (ht : t.text = "/") (hl : (l.eval call scope).Gives (.ok (.integer a)))
    (hr : (r.eval call scope).Gives (.ok (.integer b))) :
    ((Expr.binary l op t r).eval call scope).Gives
      (if b = 0 then .error (.failed .divisionByZero) else .ok (.integer (a / b))) := by
  have hgives := Expr.gives_integerBinary (t := t) op hl hr
  rw [ht] at hgives
  by_cases hb : b = 0
  · rw [if_pos hb]
    have hzero : Value.integerBinary a "/" b = .error .divisionByZero := if_pos hb
    rwa [hzero] at hgives
  · rw [if_neg hb]
    have hquotient : Value.integerBinary a "/" b = .ok (.integer (a / b)) := if_neg hb
    rwa [hquotient] at hgives

theorem Expr.gives_arithmetic {l r : Expr} (op : BinaryOp) {t : Token} {m n : Int64}
    (ht : t.text ∈ integerOperators) (hl : (l.eval call scope).Gives (.ok (.integer m)))
    (hr : (r.eval call scope).Gives (.ok (.integer n))) :
    let eval := (Expr.binary l op t r).eval call scope
    ((∃ k, eval.Gives (.ok (.integer k))) ∧ ¬(t.text = "/" ∧ n = 0)) ∨
      (eval.Gives (.error (.failed .divisionByZero)) ∧ t.text = "/" ∧ n = 0) := by
  intro eval
  by_cases hquotient : t.text = "/"
  · have hgives : eval.Gives _ := Expr.gives_quotient op hquotient hl hr
    by_cases hzero : n = 0
    · rw [if_pos hzero] at hgives
      exact .inr ⟨hgives, hquotient, hzero⟩
    · rw [if_neg hzero] at hgives
      exact .inl ⟨⟨m / n, hgives⟩, fun h => hzero h.2⟩
  · have hring : t.text ∈ ringOperators := by
      simp only [integerOperators, ringOperators, List.mem_cons, List.not_mem_nil, or_false] at ht ⊢
      tauto
    have hgives : eval.Gives _ := Expr.gives_integerBinary op hl hr
    have hexact := Value.integerBinary_ofInt hring m.toInt n.toInt
    rw [Int64.ofInt_toInt, Int64.ofInt_toInt] at hexact
    rw [hexact] at hgives
    exact .inl ⟨⟨_, hgives⟩, fun h => hquotient h.1⟩

/-- An arithmetic expression has an integer value unless it divides by zero; then it fails with
that. -/
theorem Expr.eval_arithmetic (e : Expr) (h : e.arithmetic integerOperators = true) :
    ((∃ n, (e.eval call scope).Gives (.ok (.integer n))) ∧ ¬e.DividesByZero call scope) ∨
      ((e.eval call scope).Gives (.error (.failed .divisionByZero)) ∧
        e.DividesByZero call scope) := by
  match e with
  | .integer t n => exact .inl ⟨⟨n, .pure _⟩, Expr.not_dividesByZero_integer t n⟩
  | .unary op t e =>
    obtain ⟨ht, he⟩ := Expr.arithmetic_unary.mp h
    rw [Expr.dividesByZero_unary]
    rcases Expr.eval_arithmetic e he with ⟨⟨n, hn⟩, hnot⟩ | ⟨hfails, hzero⟩
    · have hgives := Expr.gives_unary (t := t) op hn
      rw [ht] at hgives
      exact .inl ⟨⟨-n, hgives⟩, hnot⟩
    · exact .inr ⟨Expr.gives_unary_error op hfails, hzero⟩
  | .binary l op t r =>
    obtain ⟨ht, hl, hr⟩ := Expr.arithmetic_binary.mp h
    rw [Expr.dividesByZero_binary]
    -- The operands are looked at from left to right; the first that fails decides.
    rcases Expr.eval_arithmetic l hl with ⟨⟨m, hm⟩, hleft⟩ | ⟨hfails, hzero⟩
    · rcases Expr.eval_arithmetic r hr with ⟨⟨n, hn⟩, hright⟩ | ⟨hfails, hzero⟩
      · rcases Expr.gives_arithmetic op ht hm hn with ⟨hvalue, hnot⟩ | ⟨hfails, hquotient, rfl⟩
        · refine .inl ⟨hvalue, ?_⟩
          rintro (hzero | hzero | ⟨hquotient, -, hdivisor⟩)
          · exact hleft hzero
          · exact hright hzero
          · cases hn.unique hdivisor
            exact hnot ⟨hquotient, rfl⟩
        · exact .inr ⟨hfails, .inr (.inr ⟨hquotient, ⟨m, hm⟩, hn⟩)⟩
      · exact .inr ⟨Expr.gives_binary_right op hm hfails, .inr (.inl hzero)⟩
    · exact .inr ⟨Expr.gives_binary_left op r hfails, .inl hzero⟩
  | .ident _ | .boolean _ _ | .string _ _ | .array _ _ | .hash _ _ | .cond _ _ _ _ | .function _
  | .call _ _ _ | .index _ _ _ => cases h
termination_by structural e

end Evaluation

/-- Without quotients, an arithmetic expression of any shape has a value, and it is the one integer
of 64 bits that its exact value is congruent to. With quotients it has a value or fails by a
division by zero, and it fails exactly if the divisor of a quotient within it is worth zero; every
other quotient within it is the exact one cut towards zero, reduced to 64 bits, and there is only
one case in which that makes a difference. -/
theorem arithmetic_exact_modulo_word (call : CallRule) (scope : ScopeId) :
    (∀ e : Expr, e.arithmetic ringOperators = true →
      ∃ n : Int64, (e.eval call scope).Gives (.ok (.integer n)) ∧
        ∀ m : Int, (-2 ^ 63 ≤ m ∧ m ≤ 2 ^ 63 - 1 ∧ m ≡ e.exact [ZMOD 2 ^ 64]) ↔ m = n.toInt) ∧
    ∀ e : Expr, e.arithmetic integerOperators = true →
      ((∃ n : Int64, (e.eval call scope).Gives (.ok (.integer n))) ∨
        (e.eval call scope).Gives (.error (.failed .divisionByZero))) ∧
      ((e.eval call scope).Gives (.error (.failed .divisionByZero)) ↔
        e.DividesByZero call scope) ∧
      ∀ (l : Expr) (op : BinaryOp) (t : Token) (r : Expr) (a b : Int64),
        (Part.expr e).Contains (.expr (.binary l op t r)) → t.text = "/" →
        (l.eval call scope).Gives (.ok (.integer a)) →
        (r.eval call scope).Gives (.ok (.integer b)) →
        let quotient := (Expr.binary l op t r).eval call scope
        (b.toInt = 0 → quotient.Gives (.error (.failed .divisionByZero))) ∧
        (b.toInt ≠ 0 → ∃ q : Int64, quotient.Gives (.ok (.integer q)) ∧
          q.toInt = (a.toInt.tdiv b.toInt).bmod (2 ^ 64) ∧
          (q.toInt ≠ a.toInt.tdiv b.toInt ↔ a.toInt = -2 ^ 63 ∧ b.toInt = -1)) := by
  refine ⟨?_, ?_⟩
  · intro e he
    refine ⟨Int64.ofInt e.exact, e.gives_exact call scope he, ?_⟩
    intro m
    exact eq_toInt_ofInt_iff m e.exact
  · intro e he
    refine ⟨?_, ?_, ?_⟩
    · rcases e.eval_arithmetic he with ⟨hvalue, -⟩ | ⟨hfails, -⟩
      · exact .inl hvalue
      · exact .inr hfails
    · rcases e.eval_arithmetic he with ⟨⟨n, hn⟩, hnot⟩ | ⟨hfails, hzero⟩
      · constructor
        · intro hfails
          cases hn.unique hfails
        · intro hzero
          exact absurd hzero hnot
      · exact ⟨fun _ => hzero, fun _ => hfails⟩
    · intro l op t r a b _ ht hl hr quotient
      have hgives : quotient.Gives _ := Expr.gives_quotient op ht hl hr
      constructor
      · intro hb
        rwa [if_pos (Int64.toInt_inj.mp hb)] at hgives
      · intro hb
        have hne : b ≠ 0 := fun hzero => hb (congrArg Int64.toInt hzero)
        rw [if_neg hne] at hgives
        refine ⟨a / b, hgives, Int64.toInt_div a b, ?_⟩
        rw [Int64.toInt_div]
        exact quotient_reduced_iff a b

/-- A product beyond 64 bits, the one quotient that is reduced, and a sum with a division by zero in
its second operand. -/
theorem arithmetic_exact_modulo_word_instance :
    let t (text : String) : Token := { (default : Token) with text }
    let number (n : Int64) : Expr := .integer default n
    let negated (e : Expr) : Expr := .unary .neg (t "-") e
    let greatest : Expr := number 9223372036854775807
    let product : Expr :=
      .binary (.binary greatest .add (t "+") (number 1)) .mul (t "*") (negated (number 3))
    let least : Expr := .binary (negated greatest) .sub (t "-") (number 1)
    let quotient : Expr := .binary least .div (t "/") (negated (number 1))
    let zero : Expr := .binary (number 3) .sub (t "-") (number 3)
    let sum : Expr := .binary (number 1) .add (t "+") (.binary (number 2) .div (t "/") zero)
    product.arithmetic ringOperators = true ∧ product.exact = -3 * 2 ^ 63 ∧
      (product.eval (Closure.call 0) 0).Gives (.ok (.integer Int64.minValue)) ∧
      quotient.arithmetic integerOperators = true ∧
      (quotient.eval (Closure.call 0) 0).Gives (.ok (.integer Int64.minValue)) ∧
      sum.arithmetic integerOperators = true ∧
      (sum.eval (Closure.call 0) 0).Gives (.error (.failed .divisionByZero)) := by
  intro t number negated greatest product least quotient zero sum
  obtain ⟨hexact, hquotients⟩ := arithmetic_exact_modulo_word (Closure.call 0) 0
  have hproduct : product.arithmetic ringOperators = true := by decide +kernel
  have hquotient : quotient.arithmetic integerOperators = true := by decide +kernel
  have hsum : sum.arithmetic integerOperators = true := by decide +kernel
  refine ⟨hproduct, by decide +kernel, ?_, hquotient, ?_, hsum, ?_⟩
  · obtain ⟨n, hn, hunique⟩ := hexact product hproduct
    have hleast : Int64.minValue.toInt = n.toInt :=
      (hunique _).mp ⟨by decide +kernel, by decide +kernel, by decide +kernel⟩
    rwa [Int64.toInt_inj.mp hleast]
  · have hnode := (hquotients quotient hquotient).2.2 least .div (t "/") (negated (number 1))
      Int64.minValue (-1) .refl rfl (fun _ => rfl) (fun _ => rfl)
    obtain ⟨q, hq, hvalue, -⟩ := hnode.2 (by decide)
    have hleast : q.toInt = Int64.minValue.toInt := hvalue.trans (by decide +kernel)
    rwa [Int64.toInt_inj.mp hleast] at hq
  · refine (hquotients sum hsum).2.1.mpr ?_
    refine ⟨number 2, .div, t "/", zero, 2, .single ?_, rfl, fun _ => rfl, fun _ => rfl⟩
    exact List.mem_cons_of_mem _ List.mem_cons_self

end Monkey
