import Monkey.Syntax.Parse

/-!
The grammar of programs, over tokens. Expressions come in layers: a layer is a chain of its own
operators over the next tighter layer, and brackets lead back to the loosest one. A phrase is a list
of tokens and the tree it stands for; nothing here refers to how a reader goes about finding it.

One rule looks beyond its own phrase: a statement without a semicolon ends only where the next token
could not go on with its expression.
-/

namespace Monkey

open Text

namespace Grammar

/-- From loosest to tightest. -/
inductive Layer where
  | equality | comparison | sum | product | unary | applied | primary
  deriving DecidableEq, Repr

def Layer.inner : Layer → Layer
  | .equality => .comparison
  | .comparison => .sum
  | .sum => .product
  | .product => .unary
  | .unary => .applied
  | .applied => .primary
  | .primary => .primary

def Layer.level : Layer → Nat
  | .equality => 1
  | .comparison => 2
  | .sum => 3
  | .product => 4
  | .unary => 5
  | .applied => 6
  | .primary => 7

end Grammar

def BinaryOp.layer : BinaryOp → Grammar.Layer
  | .eq | .ne => .equality
  | .lt | .gt => .comparison
  | .add | .sub => .sum
  | .mul | .div => .product

def TokenKind.continuesExpr : TokenKind → Bool
  | .plus | .minus | .star | .slash | .less | .greater | .equal | .notEqual
  | .leftParen | .leftBracket => true
  | _ => false

namespace Grammar

inductive Names : List Token → List Ident → Prop where
  | one {i} : i.kind = .identifier → Names [i] [⟨i⟩]
  | more {i c w is} : i.kind = .identifier → c.kind = .comma → Names w is →
      Names (i :: c :: w) (⟨i⟩ :: is)

inductive Params : List Token → List Ident → Prop where
  | none {c} : c.kind = .rightParen → Params [c] []
  | some {c w is} : Names w is → c.kind = .rightParen → Params (w ++ [c]) is

/-- The end of a statement after its expression, before a token of kind `next`. -/
inductive Ending (next : TokenKind) : List Token → Prop where
  | semicolon {s} : s.kind = .semicolon → Ending next [s]
  | omitted : next.continuesExpr = false → Ending next []

mutual

inductive Expression : Layer → List Token → Expr → Prop where
  | inner {l w e} : Expression l.inner w e → Expression l w e
  | binary {op t w v l r} : BinaryOp.ofKind? t.kind = some op → Expression op.layer w l →
      Expression op.layer.inner v r → Expression op.layer (w ++ t :: v) (.binary l op t r)
  | unary {op t w e} : UnaryOp.ofKind? t.kind = some op → Expression .unary w e →
      Expression .unary (t :: w) (.unary op t e)
  | call {t w v f as} : Expression .applied w f → t.kind = .leftParen → Items .rightParen v as →
      Expression .applied (w ++ t :: v) (.call f t as)
  | index {t c w v e i} : Expression .applied w e → t.kind = .leftBracket →
      Expression .equality v i → c.kind = .rightBracket →
      Expression .applied (w ++ t :: (v ++ [c])) (.index e t i)
  | ident {t} : t.kind = .identifier → Expression .primary [t] (.ident ⟨t⟩)
  | integer {t} : t.kind = .integer → decimalValue t.text.toList ≤ 0x7fffffffffffffff →
      Expression .primary [t] (.integer t (Int64.ofNat (decimalValue t.text.toList)))
  | string {t} : t.kind = .string → Expression .primary [t] (.string t t.text)
  | kwTrue {t} : t.kind = .kwTrue → Expression .primary [t] (.boolean t true)
  | kwFalse {t} : t.kind = .kwFalse → Expression .primary [t] (.boolean t false)
  | group {t c w e} : t.kind = .leftParen → Expression .equality w e → c.kind = .rightParen →
      Expression .primary (t :: (w ++ [c])) e
  | cond {t o c w v e b} : t.kind = .kwIf → o.kind = .leftParen → Expression .equality w e →
      c.kind = .rightParen → Braced v b →
      Expression .primary (t :: o :: (w ++ c :: v)) (.cond t e b none)
  | condElse {t o c s w v u e b a} : t.kind = .kwIf → o.kind = .leftParen →
      Expression .equality w e → c.kind = .rightParen → Braced v b → s.kind = .kwElse → Braced u a →
      Expression .primary (t :: o :: (w ++ c :: (v ++ s :: u))) (.cond t e b (some a))
  | function {t o w v is b} : t.kind = .kwFn → o.kind = .leftParen → Params w is → Braced v b →
      Expression .primary (t :: o :: (w ++ v)) (.function (.mk t is b))
  | array {t w es} : t.kind = .leftBracket → Items .rightBracket w es →
      Expression .primary (t :: w) (.array t es)
  | hash {t w ps} : t.kind = .leftBrace → Pairs w ps → Expression .primary (t :: w) (.hash t ps)

inductive Exprs : List Token → List Expr → Prop where
  | one {w e} : Expression .equality w e → Exprs w [e]
  | more {c w v e es} : Expression .equality w e → c.kind = .comma → Exprs v es →
      Exprs (w ++ c :: v) (e :: es)

/-- A list of expressions, after which one comma may stand, and the bracket behind it. -/
inductive Items : TokenKind → List Token → List Expr → Prop where
  | none {close b} : b.kind = close → Items close [b] []
  | some {close b w es} : Exprs w es → b.kind = close → Items close (w ++ [b]) es
  | trailing {close c b w es} : Exprs w es → c.kind = .comma → b.kind = close →
      Items close (w ++ [c, b]) es

inductive KeyValues : List Token → List (Expr × Expr) → Prop where
  | one {s w v k e} : Expression .equality w k → s.kind = .colon → Expression .equality v e →
      KeyValues (w ++ s :: v) [(k, e)]
  | more {s c w v u k e ps} : Expression .equality w k → s.kind = .colon →
      Expression .equality v e → c.kind = .comma → KeyValues u ps →
      KeyValues (w ++ s :: (v ++ c :: u)) ((k, e) :: ps)

inductive Pairs : List Token → List (Expr × Expr) → Prop where
  | none {b} : b.kind = .rightBrace → Pairs [b] []
  | some {b w ps} : KeyValues w ps → b.kind = .rightBrace → Pairs (w ++ [b]) ps
  | trailing {c b w ps} : KeyValues w ps → c.kind = .comma → b.kind = .rightBrace →
      Pairs (w ++ [c, b]) ps

/-- A statement before a token of kind `next`. -/
inductive Statement : TokenKind → List Token → Stmt → Prop where
  | bind {next t i a w z e} : t.kind = .kwLet → i.kind = .identifier → a.kind = .assign →
      Expression .equality w e → Ending next z →
      Statement next (t :: i :: a :: (w ++ z)) (.bind t ⟨i⟩ (some e))
  | ret {next t w z e} : t.kind = .kwReturn → Expression .equality w e → Ending next z →
      Statement next (t :: (w ++ z)) (.ret t (some e))
  | bareRet {next t} : t.kind = .kwReturn → next = .rightBrace ∨ next = .eof →
      Statement next [t] (.ret t none)
  | bareRetSemicolon {next t s} : t.kind = .kwReturn → s.kind = .semicolon →
      Statement next [t, s] (.ret t none)
  | expr {next t w z e} : Expression .equality (t :: w) e → Ending next z →
      Statement next (t :: (w ++ z)) (.expr t e)

inductive Body : TokenKind → List Token → List Stmt → Prop where
  | done {close t} : t.kind = close → Body close [t] []
  | step {close w v s ss} : Statement (kindAt v) w s → Body close v ss →
      Body close (w ++ v) (s :: ss)

inductive Braced : List Token → Block → Prop where
  | mk {b w ss} : b.kind = .leftBrace → Body .rightBrace w ss → Braced (b :: w) (.mk b ss)

end

def startsExpr : TokenKind → Bool
  | .identifier | .integer | .string | .kwTrue | .kwFalse | .bang | .minus | .leftParen | .kwIf
  | .kwFn | .leftBracket | .leftBrace => true
  | _ => false

theorem Expression.starts {l w e} (h : Expression l w e) :
    ∃ t v, w = t :: v ∧ startsExpr t.kind := by
  match h with
  | .inner h => exact h.starts
  | .binary _ h _ => obtain ⟨t, v, rfl, ht⟩ := h.starts; exact ⟨t, _, rfl, ht⟩
  | .unary (t := t) h _ =>
    refine ⟨_, _, rfl, ?_⟩
    revert h; cases t.kind <;> simp [UnaryOp.ofKind?, startsExpr]
  | .call h _ _ => obtain ⟨t, v, rfl, ht⟩ := h.starts; exact ⟨t, _, rfl, ht⟩
  | .index h _ _ _ => obtain ⟨t, v, rfl, ht⟩ := h.starts; exact ⟨t, _, rfl, ht⟩
  | .ident h | .integer h _ | .string h | .kwTrue h | .kwFalse h | .group h _ _ | .cond h _ _ _ _
  | .condElse h _ _ _ _ _ _ | .function h _ _ _ | .array h _ | .hash h _ =>
    exact ⟨_, _, rfl, by rw [h]; rfl⟩

def Closed (w : List Token) : Prop := ∃ v t, w = v ++ [t] ∧ t.kind = .semicolon

theorem closed_append_singleton {w : List Token} {t : Token} :
    Closed (w ++ [t]) ↔ t.kind = .semicolon := by
  constructor
  · rintro ⟨v, u, heq, hu⟩
    obtain ⟨-, htu⟩ := List.append_inj' heq rfl
    rw [List.singleton_inj.mp htu]
    exact hu
  · intro ht
    exact ⟨w, t, rfl, ht⟩

theorem closed_iff {w : List Token} : Closed w ↔ w.getLast?.map Token.kind = some .semicolon := by
  rcases List.eq_nil_or_concat w with rfl | ⟨v, t, rfl⟩
  · simp [Closed]
  · simp [closed_append_singleton]

instance (w : List Token) : Decidable (Closed w) := decidable_of_iff _ closed_iff.symm

theorem Items.ends {close w es} (h : Items close w es) : ∃ v t, w = v ++ [t] ∧ t.kind = close := by
  match h with
  | .none hb => exact ⟨[], _, rfl, hb⟩
  | .some _ hb => exact ⟨_, _, rfl, hb⟩
  | @Items.trailing _ c b w _ _ _ hb => exact ⟨w ++ [c], b, by simp, hb⟩

theorem Pairs.ends {w ps} (h : Pairs w ps) : ∃ v t, w = v ++ [t] ∧ t.kind = .rightBrace := by
  match h with
  | .none hb => exact ⟨[], _, rfl, hb⟩
  | .some _ hb => exact ⟨_, _, rfl, hb⟩
  | @Pairs.trailing c b w _ _ _ hb => exact ⟨w ++ [c], b, by simp, hb⟩

theorem Body.ends {close w ss} (h : Body close w ss) : ∃ v t, w = v ++ [t] ∧ t.kind = close := by
  match h with
  | .done ht => exact ⟨[], _, rfl, ht⟩
  | @Body.step _ w _ _ _ _ h =>
    obtain ⟨v, t, rfl, ht⟩ := h.ends
    exact ⟨w ++ v, t, by simp, ht⟩

theorem Braced.ends {w b} (h : Braced w b) : ∃ v t, w = v ++ [t] ∧ t.kind = .rightBrace := by
  match h with
  | @Braced.mk b _ _ _ h =>
    obtain ⟨v, t, rfl, ht⟩ := h.ends
    exact ⟨b :: v, t, rfl, ht⟩

theorem Expression.not_closed {l w e} (h : Expression l w e) (u : List Token) :
    ¬Closed (u ++ w) := by
  have other {u v w : List Token} {t : Token} {k : TokenKind} (hw : w = v ++ [t])
      (ht : t.kind = k) (hk : k ≠ .semicolon) : ¬Closed (u ++ w) := by
    rw [hw, ← List.append_assoc, closed_append_singleton, ht]
    exact hk
  match h with
  | .inner h => exact h.not_closed u
  | @Expression.binary _ t w v _ _ _ _ h =>
    have hv := h.not_closed (u ++ (w ++ [t]))
    simpa using hv
  | @Expression.unary _ t w _ _ h =>
    have hw := h.not_closed (u ++ [t])
    simpa using hw
  | @Expression.call t w v _ _ _ _ h =>
    obtain ⟨v', b, rfl, hb⟩ := h.ends
    exact other (v := w ++ t :: v') (by simp) hb (by decide)
  | @Expression.index t c w v _ _ _ _ _ hc =>
    exact other (v := w ++ t :: v) (by simp) hc (by decide)
  | .ident ht | .integer ht _ | .string ht | .kwTrue ht | .kwFalse ht =>
    exact other (v := []) rfl ht (by decide)
  | @Expression.group t c w _ _ _ hc => exact other (v := t :: w) (by simp) hc (by decide)
  | @Expression.cond t o c w v _ _ _ _ _ _ h =>
    obtain ⟨v', b, rfl, hb⟩ := h.ends
    exact other (v := t :: o :: (w ++ c :: v')) (by simp) hb (by decide)
  | @Expression.condElse t o c s w v u' _ _ _ _ _ _ _ _ _ h =>
    obtain ⟨v', b, rfl, hb⟩ := h.ends
    exact other (v := t :: o :: (w ++ c :: (v ++ s :: v'))) (by simp) hb (by decide)
  | @Expression.function t o w v _ _ _ _ _ h =>
    obtain ⟨v', b, rfl, hb⟩ := h.ends
    exact other (v := t :: o :: (w ++ v')) (by simp) hb (by decide)
  | @Expression.array t w _ _ h =>
    obtain ⟨v', b, rfl, hb⟩ := h.ends
    exact other (v := t :: v') (by simp) hb (by decide)
  | @Expression.hash t w _ _ h =>
    obtain ⟨v', b, rfl, hb⟩ := h.ends
    exact other (v := t :: v') (by simp) hb (by decide)

theorem Layer.level_le (l : Layer) : l.level ≤ 7 := by cases l <;> decide

theorem Layer.level_inner {l : Layer} (h : l.level < 7) : l.inner.level = l.level + 1 := by
  cases l <;> first | rfl | exact absurd h (by decide)

theorem Layer.level_injective {l m : Layer} (h : l.level = m.level) : l = m := by
  cases l <;> cases m <;> first | rfl | exact absurd h (by decide)

/-- A phrase of a layer is one of every looser layer. -/
theorem Expression.loosen {l m w e} (h : Expression l w e) (hl : m.level ≤ l.level) :
    Expression m w e := by
  have climb (k : Nat) : ∀ m : Layer, m.level + k = l.level → Expression m w e := by
    induction k with
    | zero =>
      intro m hm
      exact Layer.level_injective hm ▸ h
    | succ k ih =>
      intro m hm
      have hmax := l.level_le
      have hinner : m.inner.level = m.level + 1 := Layer.level_inner (by omega)
      exact .inner (ih m.inner (by omega))
  exact climb (l.level - m.level) m (by omega)

end Grammar

end Monkey
