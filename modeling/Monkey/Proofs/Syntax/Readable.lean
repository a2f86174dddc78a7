import Monkey.Proofs.Syntax.Bare
import Monkey.Proofs.Syntax.Completeness
import Monkey.Proofs.Token.Spelling
import Monkey.Syntax.Print

/-!
What is printed for a tree is read as tokens from which the grammar derives the same tree, tokens
apart: one statement for each construct, from the same statement for its parts. Printed operators
and index expressions stand in parentheses, so every printed expression can be called or indexed as
it is.
-/

namespace Monkey

open Text Grammar Lexical

attribute [simp] Expr.print Expr.printAll Expr.printPairs Stmt.print Stmt.printAll Block.print
  Lambda.print

/-- Tokens from which `derive` gets something that stands for `a`. -/
def Denoting {ξ α : Type} (derive : List Token → ξ → Prop) (stands : ξ → α → Prop) (a : α)
    (w : List Token) : Prop := ∃ x, derive w x ∧ stands x a

def Upto {α : Type} (derive : List Token → α → Prop) (bare : α → α) (a : α) (w : List Token) :
    Prop := ∃ a', derive w a' ∧ bare a' = bare a

def Expr.Readable (e : Expr) : Prop :=
  Spells isWordChar e.print.toList (Upto (Expression .applied) Expr.bare e)

def Block.Readable (b : Block) : Prop :=
  Spells never b.print.toList (Upto Braced Block.bare b)

def Ident.Readable (i : Ident) : Prop :=
  Spells isWordChar i.name.toList fun w => ∃ t, w = [t] ∧ t.kind = .identifier ∧ t.text = i.name

/-- A statement before whatever may follow it: a terminated one before any token, another before one
that ends its expression. -/
def Stmt.Derived (w : List Token) (s : Stmt) : Prop :=
  ∀ next, s.terminated = true ∨ TokenKind.continuesExpr next = false → Statement next w s

def Stmt.Readable (s : Stmt) : Prop :=
  Spells (if s.terminated then never else isWordChar) s.print.toList
    (Upto Stmt.Derived Stmt.bare s)

theorem Expr.printAll_eq_map (es : List Expr) : Expr.printAll es = es.map Expr.print := by
  induction es with
  | nil => rfl
  | cons e es ih => rw [Expr.printAll, ih, List.map_cons]

theorem Expr.printPairs_eq_map (ps : List (Expr × Expr)) :
    Expr.printPairs ps = ps.map fun p => p.1.print ++ ": " ++ p.2.print := by
  induction ps with
  | nil => rfl
  | cons p ps ih => rw [Expr.printPairs, ih, List.map_cons]

/-- A form of list: things with commas between them, and a bracket behind them. -/
structure Listed {α : Type} (close : TokenKind) (One : α → List Token → Prop)
    (Many All : List α → List Token → Prop) : Prop where
  one : ∀ {a w}, One a w → Many [a] w
  more : ∀ {a as w v} {c : Token}, One a w → c.kind = .comma → Many as v →
    Many (a :: as) (w ++ c :: v)
  empty : ∀ {b : Token}, b.kind = close → All [] [b]
  closed : ∀ {as w} {b : Token}, Many as w → b.kind = close → All as (w ++ [b])

namespace Listed

variable {α : Type} {close : TokenKind} {One : α → List Token → Prop}
  {Many All : List α → List Token → Prop} {print : α → String}

theorem spells_joined (h : Listed close One Many All) {as : List α} (hne : as ≠ [])
    (has : ∀ a ∈ as, Spells isWordChar (print a).toList (One a)) :
    Spells isWordChar (", ".intercalate (as.map print)).toList (Many as) := by
  induction as with
  | nil => exact absurd rfl hne
  | cons a as ih =>
    rw [List.forall_mem_cons] at has
    cases as with
    | nil => exact has.1.imp fun w => h.one
    | cons b bs =>
      have htext : (", ".intercalate ((a :: b :: bs).map print)).toList =
          (print a).toList ++ ',' :: ' ' :: (", ".intercalate ((b :: bs).map print)).toList := by
        simp [String.intercalate_cons_cons]
      rw [htext]
      refine has.1.before rfl fun w hw => ?_
      refine .symbol rfl fun c hc => .blank ?_
      exact (ih (List.cons_ne_nil _ _) has.2).imp fun v hv => h.more hw hc hv

theorem spells (h : Listed close One Many All) {c : Char} (hc : symbol? c = some close)
    {as : List α} (has : ∀ a ∈ as, Spells isWordChar (print a).toList (One a)) :
    Spells never ((", ".intercalate (as.map print)).toList ++ [c]) (All as) := by
  have hword : isWordChar c = false := by
    rw [Bool.eq_false_iff]
    intro hword
    have hnone := (not_symbol_of_isWordChar hword).2.2.2
    rw [hc] at hnone
    cases hnone
  by_cases hne : as = []
  · subst hne
    exact .symbol hc fun b hb => .nil (h.empty hb)
  · refine (h.spells_joined hne has).before hword fun w hw => ?_
    exact .symbol hc fun b hb => .nil (h.closed hw hb)

end Listed

theorem Grammar.Expression.loosest {l : Layer} {w : List Token} {e : Expr}
    (h : Expression l w e) : Expression .equality w e :=
  h.loosen (by cases l <;> decide)

theorem Grammar.Expression.grouped {l : Layer} {o c : Token} {w : List Token} {e : Expr}
    (h : Expression l w e) (ho : o.kind = .leftParen) (hc : c.kind = .rightParen) :
    Expression .applied (o :: (w ++ [c])) e :=
  .inner (.group ho h.loosest hc)

theorem Ident.bare_eq {t : Token} {i : Ident} (h : t.text = i.name) :
    Ident.bare ⟨t⟩ = i.bare := by
  simp only [Ident.bare, Ident.name, h]

namespace Expr

theorem kindAt_ne {e : Expr} {w : List Token} (h : Upto (Expression .applied) Expr.bare e w) :
    kindAt w ≠ .eof ∧ kindAt w ≠ .assign ∧ kindAt w ≠ .equal := by
  obtain ⟨e', he', -⟩ := h
  have hstarts := he'.startsExpr_kindAt []
  rw [List.append_nil] at hstarts
  exact ⟨startsExpr_ne hstarts rfl, startsExpr_ne hstarts rfl, startsExpr_ne hstarts rfl⟩

theorem readable_ident {i : Ident} (h : i.Readable) : (Expr.ident i).Readable := by
  refine Spells.imp h ?_
  rintro _ ⟨t, rfl, ht, htext⟩
  exact ⟨.ident ⟨t⟩, .inner (.ident ht), by simp only [Expr.bare, Ident.bare_eq htext]⟩

theorem readable_integer (t : Token) {n : Nat} (hn : n ≤ 0x7fffffffffffffff) :
    (Expr.integer t (Int64.ofNat n)).Readable := by
  have htext : (Expr.integer t (Int64.ofNat n)).print = n.repr := by
    change toString (Int64.ofNat n).toInt = n.repr
    rw [Int64.toInt_ofNat_of_lt (by omega)]
    rfl
  rw [Readable, htext]
  refine (Spells.number n).imp ?_
  rintro _ ⟨u, rfl, hu, rfl⟩
  exact ⟨.integer u _, .inner (.integer hu hn), rfl⟩

theorem readable_boolean (t : Token) (b : Bool) : (Expr.boolean t b).Readable := by
  cases b with
  | true =>
    refine (@Spells.keyword "true" .kwTrue rfl).imp ?_
    rintro _ ⟨u, rfl, hu⟩
    exact ⟨.boolean u true, .inner (.kwTrue hu), rfl⟩
  | false =>
    refine (@Spells.keyword "false" .kwFalse rfl).imp ?_
    rintro _ ⟨u, rfl, hu⟩
    exact ⟨.boolean u false, .inner (.kwFalse hu), rfl⟩

theorem readable_string (t : Token) {s : String} (hs : '"' ∉ s.toList) :
    (Expr.string t s).Readable := by
  have htext : (Expr.string t s).print.toList = '"' :: (s.toList ++ ['"']) := by
    simp
  rw [Readable, htext]
  refine (Spells.quoted hs).of_never.imp ?_
  rintro _ ⟨u, rfl, hu, rfl⟩
  exact ⟨.string u u.text, .inner (.string hu), rfl⟩

theorem readable_unary (op : UnaryOp) (t : Token) {e : Expr} (he : e.Readable) :
    (Expr.unary op t e).Readable := by
  have htext : (Expr.unary op t e).print.toList =
      '(' :: (op.symbol.toList ++ (e.print.toList ++ [')'])) := by
    simp
  rw [Readable, htext]
  refine .symbol rfl fun o ho => (Spells.unaryOp op).append (fun rest _ => ?_) ?_
  · rw [List.append_assoc]
    exact Spells.ends_equals he (fun w hw => kindAt_ne hw) _
  · rintro _ ⟨u, rfl, hu⟩
    refine Spells.before he rfl ?_
    rintro w ⟨e', he', hbare⟩
    refine .symbol rfl fun c hc => .nil ?_
    refine ⟨.unary op u e', (Expression.unary hu (he'.loosen (by decide))).grouped ho hc, ?_⟩
    simp only [Expr.bare, hbare]

theorem readable_binary (op : BinaryOp) (t : Token) {l r : Expr} (hl : l.Readable)
    (hr : r.Readable) : (Expr.binary l op t r).Readable := by
  have htext : (Expr.binary l op t r).print.toList = '(' :: (l.print.toList ++
      ' ' :: (op.symbol.toList ++ ' ' :: (r.print.toList ++ [')']))) := by
    simp
  have hlayer : op.layer.level ≤ Layer.applied.level := by cases op <;> decide
  have hinner : op.layer.inner.level ≤ Layer.applied.level := by cases op <;> decide
  rw [Readable, htext]
  refine .symbol rfl fun o ho => Spells.before hl rfl ?_
  rintro w ⟨l', hl', hbare⟩
  refine .blank ((Spells.binaryOp op).closed ?_)
  rintro _ ⟨u, rfl, hu⟩
  refine .blank (Spells.before hr rfl ?_)
  rintro v ⟨r', hr', hbare'⟩
  refine .symbol rfl fun c hc => .nil ?_
  have hphrase := (Expression.binary hu (hl'.loosen hlayer) (hr'.loosen hinner)).grouped ho hc
  refine ⟨.binary l' op u r', by simpa using hphrase, ?_⟩
  simp only [Expr.bare, hbare, hbare']

theorem readable_index (t : Token) {e i : Expr} (he : e.Readable) (hi : i.Readable) :
    (Expr.index e t i).Readable := by
  have htext : (Expr.index e t i).print.toList =
      '(' :: (e.print.toList ++ '[' :: (i.print.toList ++ [']', ')'])) := by
    simp
  rw [Readable, htext]
  refine .symbol rfl fun o ho => Spells.before he rfl ?_
  rintro w ⟨e', he', hbare⟩
  refine .symbol rfl fun u hu => Spells.before hi rfl ?_
  rintro v ⟨i', hi', hbare'⟩
  refine .symbol rfl fun s hs => .symbol rfl fun c hc => .nil ?_
  have hphrase := (Expression.index he' hu hi'.loosest hs).grouped ho hc
  refine ⟨.index e' u i', by simpa using hphrase, ?_⟩
  simp only [Expr.bare, hbare, hbare']

theorem listed_exprs {α : Type} {l : Layer} {one : Expr → α → Prop}
    {all : List Expr → List α → Prop} (close : TokenKind) (hnil : all [] [])
    (hcons : ∀ {e es a as}, one e a → all es as → all (e :: es) (a :: as)) :
    Listed close (Denoting (Expression l) one) (Denoting Exprs all)
      (Denoting (Items close) all) where
  one := by
    rintro a w ⟨e, he, ha⟩
    exact ⟨[e], .one he.loosest, hcons ha hnil⟩
  more := by
    rintro a as w v c ⟨e, he, ha⟩ hc ⟨es, hes, has⟩
    exact ⟨e :: es, .more he.loosest hc hes, hcons ha has⟩
  empty hb := ⟨[], .none hb, hnil⟩
  closed := by
    rintro as w b ⟨es, hes, has⟩ hb
    exact ⟨es, .some hes hb, has⟩

theorem listed_items (close : TokenKind) :
    Listed close (Upto (Expression .applied) Expr.bare) (Upto Exprs Expr.bareAll)
      (Upto (Items close) Expr.bareAll) :=
  listed_exprs close rfl fun hbare hbares => by simp only [Expr.bareAll, hbare, hbares]

theorem spells_items {c : Char} {close : TokenKind} (hc : symbol? c = some close) {es : List Expr}
    (hes : ∀ e ∈ es, e.Readable) :
    Spells never ((", ".intercalate (Expr.printAll es)).toList ++ [c])
      (Upto (Items close) Expr.bareAll es) := by
  rw [Expr.printAll_eq_map]
  exact (listed_items close).spells hc hes

theorem readable_call (t : Token) {f : Expr} {as : List Expr} (hf : f.Readable)
    (has : ∀ a ∈ as, a.Readable) : (Expr.call f t as).Readable := by
  have htext : (Expr.call f t as).print.toList =
      f.print.toList ++ '(' :: ((", ".intercalate (Expr.printAll as)).toList ++ [')']) := by
    simp
  rw [Readable, htext]
  refine Spells.before hf rfl ?_
  rintro w ⟨f', hf', hbare⟩
  refine .symbol rfl fun u hu => (spells_items rfl has).of_never.imp ?_
  rintro v ⟨as', has', hbares⟩
  refine ⟨.call f' u as', .call hf' hu has', ?_⟩
  simp only [Expr.bare, hbare, hbares]

theorem readable_array (t : Token) {es : List Expr} (hes : ∀ e ∈ es, e.Readable) :
    (Expr.array t es).Readable := by
  have htext : (Expr.array t es).print.toList =
      '[' :: ((", ".intercalate (Expr.printAll es)).toList ++ [']']) := by
    simp
  rw [Readable, htext]
  refine .symbol rfl fun u hu => (spells_items rfl hes).of_never.imp ?_
  rintro v ⟨es', hes', hbares⟩
  refine ⟨.array u es', .inner (.array hu hes'), ?_⟩
  simp only [Expr.bare, hbares]

def PairDerived (w : List Token) (p : Expr × Expr) : Prop :=
  ∃ u s v, w = u ++ s :: v ∧ Expression .equality u p.1 ∧ Token.kind s = .colon ∧
    Expression .equality v p.2

theorem spells_keyValue {l : Layer} {key value : String} {K V : Expr → Prop}
    (hk : Spells isWordChar key.toList fun w => ∃ e, Expression l w e ∧ K e)
    (hv : Spells isWordChar value.toList fun w => ∃ e, Expression l w e ∧ V e) :
    Spells isWordChar (key ++ ": " ++ value).toList fun w =>
      ∃ p, PairDerived w p ∧ K p.1 ∧ V p.2 := by
  have htext : (key ++ ": " ++ value).toList = key.toList ++ ':' :: ' ' :: value.toList := by
    simp
  rw [htext]
  refine hk.before rfl ?_
  rintro u ⟨k, hk', hK⟩
  refine .symbol rfl fun s hs => .blank (hv.imp ?_)
  rintro v ⟨e, he', hV⟩
  exact ⟨(k, e), ⟨u, s, v, rfl, hk'.loosest, hs, he'.loosest⟩, hK, hV⟩

theorem spells_pair {p : Expr × Expr} (hk : p.1.Readable) (hv : p.2.Readable) :
    Spells isWordChar (p.1.print ++ ": " ++ p.2.print).toList
      (Upto PairDerived (fun p => (p.1.bare, p.2.bare)) p) := by
  refine (spells_keyValue hk hv).imp ?_
  rintro w ⟨q, hq, hbare, hbare'⟩
  exact ⟨q, hq, by simp only [hbare, hbare']⟩

theorem listed_keyValues {α : Type} {one : Expr × Expr → α → Prop}
    {all : List (Expr × Expr) → List α → Prop} (hnil : all [] [])
    (hcons : ∀ {p ps a as}, one p a → all ps as → all (p :: ps) (a :: as)) :
    Listed .rightBrace (Denoting PairDerived one) (Denoting KeyValues all)
      (Denoting Pairs all) where
  one := by
    rintro a w ⟨⟨k, e⟩, ⟨u, s, v, rfl, hk, hs, he⟩, ha⟩
    exact ⟨[(k, e)], .one hk hs he, hcons ha hnil⟩
  more := by
    rintro a as w y c ⟨⟨k, e⟩, ⟨u, s, v, rfl, hk, hs, he⟩, ha⟩ hc ⟨ps, hps, has⟩
    have hmore := KeyValues.more hk hs he hc hps
    exact ⟨(k, e) :: ps, by simpa using hmore, hcons ha has⟩
  empty hb := ⟨[], .none hb, hnil⟩
  closed := by
    rintro as w b ⟨ps, hps, has⟩ hb
    exact ⟨ps, .some hps hb, has⟩

theorem listed_pairs :
    Listed .rightBrace (Upto PairDerived fun p => (p.1.bare, p.2.bare))
      (Upto KeyValues Expr.barePairs) (Upto Pairs Expr.barePairs) := by
  refine listed_keyValues rfl ?_
  rintro ⟨k, e⟩ ps ⟨k', e'⟩ ps' hbare hbares
  simp only [Expr.barePairs, hbares, List.cons.injEq, and_true]
  exact hbare

theorem spells_pairs {ps : List (Expr × Expr)}
    (hps : ∀ p ∈ ps, p.1.Readable ∧ p.2.Readable) :
    Spells never ((", ".intercalate (Expr.printPairs ps)).toList ++ ['}'])
      (Upto Pairs Expr.barePairs ps) := by
  rw [Expr.printPairs_eq_map]
  exact listed_pairs.spells rfl fun p hp => spells_pair (hps p hp).1 (hps p hp).2

theorem readable_hash (t : Token) {ps : List (Expr × Expr)}
    (hps : ∀ p ∈ ps, p.1.Readable ∧ p.2.Readable) : (Expr.hash t ps).Readable := by
  have htext : (Expr.hash t ps).print.toList =
      '{' :: ((", ".intercalate (Expr.printPairs ps)).toList ++ ['}']) := by
    simp
  rw [Readable, htext]
  refine .symbol rfl fun u hu => (spells_pairs hps).of_never.imp ?_
  rintro v ⟨ps', hps', hbares⟩
  refine ⟨.hash u ps', .inner (.hash hu hps'), ?_⟩
  simp only [Expr.bare, hbares]

theorem readable_cond (t : Token) {c : Expr} {b : Block} (hc : c.Readable) (hb : b.Readable) :
    (Expr.cond t c b none).Readable := by
  have htext : (Expr.cond t c b none).print.toList =
      "if".toList ++ ' ' :: '(' :: (c.print.toList ++ ')' :: ' ' :: b.print.toList) := by
    simp
  rw [Readable, htext]
  refine (@Spells.keyword "if" .kwIf rfl).before rfl ?_
  rintro _ ⟨u, rfl, hu⟩
  refine .blank (.symbol rfl fun o ho => Spells.before hc rfl ?_)
  rintro w ⟨c', hc', hbare⟩
  refine .symbol rfl fun s hs => .blank (Spells.imp (Spells.of_never hb) ?_)
  rintro v ⟨b', hb', hbare'⟩
  refine ⟨.cond u c' b' none, .inner (.cond hu ho hc'.loosest hs hb'), ?_⟩
  simp only [Expr.bare, hbare, hbare']

theorem readable_condElse (t : Token) {c : Expr} {b a : Block} (hc : c.Readable) (hb : b.Readable)
    (ha : a.Readable) : (Expr.cond t c b (some a)).Readable := by
  have htext : (Expr.cond t c b (some a)).print.toList =
      "if".toList ++ ' ' :: '(' :: (c.print.toList ++ ')' :: ' ' :: (b.print.toList ++
        ' ' :: ("else".toList ++ ' ' :: a.print.toList))) := by
    simp
  rw [Readable, htext]
  refine (@Spells.keyword "if" .kwIf rfl).before rfl ?_
  rintro _ ⟨u, rfl, hu⟩
  refine .blank (.symbol rfl fun o ho => Spells.before hc rfl ?_)
  rintro w ⟨c', hc', hbare⟩
  refine .symbol rfl fun s hs => .blank (Spells.closed hb ?_)
  rintro v ⟨b', hb', hbare'⟩
  refine .blank ((@Spells.keyword "else" .kwElse rfl).before rfl ?_)
  rintro _ ⟨x, rfl, hx⟩
  refine .blank (Spells.imp (Spells.of_never ha) ?_)
  rintro y ⟨a', ha', hbare''⟩
  have hphrase := Expression.condElse hu ho hc'.loosest hs hb' hx ha'
  refine ⟨.cond u c' b' (some a'), .inner hphrase, ?_⟩
  simp only [Expr.bare, hbare, hbare', hbare'']

theorem listed_params :
    Listed .rightParen (fun i w => ∃ t, w = [t] ∧ t.kind = .identifier ∧ t.text = Ident.name i)
      (Upto Names (List.map Ident.bare)) (Upto Params (List.map Ident.bare)) where
  one := by
    rintro i w ⟨t, rfl, ht, htext⟩
    exact ⟨[⟨t⟩], .one ht, by simp only [List.map_cons, List.map_nil, Ident.bare_eq htext]⟩
  more := by
    rintro i is w v c ⟨t, rfl, ht, htext⟩ hc ⟨is', his', hbares⟩
    refine ⟨⟨t⟩ :: is', .more ht hc his', ?_⟩
    simp only [List.map_cons, Ident.bare_eq htext, hbares]
  empty hb := ⟨[], .none hb, rfl⟩
  closed := by
    rintro is w b ⟨is', his', hbares⟩ hb
    exact ⟨is', .some his' hb, hbares⟩

theorem readable_function (t : Token) {is : List Ident} {b : Block} (his : ∀ i ∈ is, i.Readable)
    (hb : b.Readable) : (Expr.function (.mk t is b)).Readable := by
  have htext : (Expr.function (.mk t is b)).print.toList = "fn".toList ++ '(' ::
      (((", ".intercalate (is.map Ident.name)).toList ++ [')']) ++ ' ' :: b.print.toList) := by
    simp
  rw [Readable, htext]
  refine (@Spells.keyword "fn" .kwFn rfl).before rfl ?_
  rintro _ ⟨u, rfl, hu⟩
  refine .symbol rfl fun o ho => (listed_params.spells rfl his).closed ?_
  rintro w ⟨is', his', hbares⟩
  refine .blank (Spells.imp (Spells.of_never hb) ?_)
  rintro v ⟨b', hb', hbare⟩
  refine ⟨.function (.mk u is' b'), .inner (.function hu ho his' hb'), ?_⟩
  simp only [Expr.bare, Lambda.bare, hbares, hbare]

end Expr

namespace Stmt

theorem readable_bind (t : Token) {i : Ident} {e : Expr} (hi : i.Readable) (he : e.Readable) :
    (Stmt.bind t i (some e)).Readable := by
  have htext : (Stmt.bind t i (some e)).print.toList = "let".toList ++ ' ' :: (i.name.toList ++
      ' ' :: (['='] ++ ' ' :: (e.print.toList ++ [';']))) := by
    simp
  rw [Readable, htext]
  refine (@Spells.keyword "let" .kwLet rfl).before rfl ?_
  rintro _ ⟨u, rfl, hu⟩
  refine .blank (Spells.before hi rfl ?_)
  rintro _ ⟨n, rfl, hn, hname⟩
  refine .blank (Spells.equalsSign.before rfl ?_)
  rintro _ ⟨a, rfl, ha⟩
  refine .blank (Spells.before he rfl ?_)
  rintro w ⟨e', he', hbare⟩
  refine .symbol rfl fun s hs => .nil ?_
  refine ⟨.bind u ⟨n⟩ (some e'), fun next _ => ?_, ?_⟩
  · have hend : Ending next [s] := .semicolon hs
    have hstmt := Statement.bind hu hn ha he'.loosest hend
    exact hstmt
  · simp only [Stmt.bare, Ident.bare_eq hname, hbare]

theorem readable_ret (t : Token) {e : Expr} (he : e.Readable) :
    (Stmt.ret t (some e)).Readable := by
  have htext : (Stmt.ret t (some e)).print.toList =
      "return".toList ++ ' ' :: (e.print.toList ++ [';']) := by
    simp
  rw [Readable, htext]
  refine (@Spells.keyword "return" .kwReturn rfl).before rfl ?_
  rintro _ ⟨u, rfl, hu⟩
  refine .blank (Spells.before he rfl ?_)
  rintro w ⟨e', he', hbare⟩
  refine .symbol rfl fun s hs => .nil ?_
  refine ⟨.ret u (some e'), fun next _ => ?_, by simp only [Stmt.bare, hbare]⟩
  have hend : Ending next [s] := .semicolon hs
  have hstmt := Statement.ret hu he'.loosest hend
  exact hstmt

theorem readable_bareRet (t : Token) : (Stmt.ret t none).Readable := by
  have htext : (Stmt.ret t none).print.toList = "return".toList ++ [';'] := by
    simp
  rw [Readable, htext]
  refine (@Spells.keyword "return" .kwReturn rfl).before rfl ?_
  rintro _ ⟨u, rfl, hu⟩
  refine .symbol rfl fun s hs => .nil ?_
  exact ⟨.ret u none, fun next _ => .bareRetSemicolon hu hs, rfl⟩

theorem readable_expr (t : Token) {e : Expr} (he : e.Readable) : (Stmt.expr t e).Readable := by
  refine Spells.imp he ?_
  rintro w ⟨e', he', hbare⟩
  obtain ⟨u, v, rfl, -⟩ := he'.starts
  refine ⟨.expr u e', fun next hnext => ?_, by simp only [Stmt.bare, hbare]⟩
  have hends : next.continuesExpr = false := hnext.resolve_left nofun
  have hstmt := Statement.expr he'.loosest (.omitted hends)
  rwa [List.append_nil] at hstmt

def ClosedBy (w : List Token) (ss : List Stmt) : Prop :=
  ∀ t : Token, t.kind.continuesExpr = false → Body t.kind (w ++ [t]) ss

theorem spells_statements {sep : String} (hsep : sep = "" ∨ sep = " ") {ss : List Stmt}
    (hss : ∀ s ∈ ss, s.Readable) (hseparated : Stmt.separatedAll ss = true) :
    Spells isWordChar (sep.intercalate (Stmt.printAll ss)).toList
      (Upto ClosedBy Stmt.bareAll ss) := by
  induction ss with
  | nil => exact .nil ⟨[], fun t _ => .done rfl, rfl⟩
  | cons s ss ih =>
    obtain ⟨hs, hss⟩ := List.forall_mem_cons.mp hss
    unfold Readable at hs
    cases ss with
    | nil =>
      have hlast : Spells isWordChar s.print.toList (Upto Derived Stmt.bare s) := by
        split at hs
        · exact hs.of_never
        · exact hs
      refine hlast.imp ?_
      rintro w ⟨s', hs', hbare⟩
      refine ⟨[s'], fun t ht => ?_, by simp only [Stmt.bareAll, hbare]⟩
      exact .step (hs' t.kind (.inr ht)) (.done rfl)
    | cons s₂ ss =>
      simp only [Stmt.separatedAll, Bool.and_eq_true] at hseparated
      obtain ⟨⟨hterminated, -⟩, hrest⟩ := hseparated
      have htext : (sep.intercalate (Stmt.printAll (s :: s₂ :: ss))).toList = s.print.toList ++
          (sep.toList ++ (sep.intercalate (Stmt.printAll (s₂ :: ss))).toList) := by
        simp [String.intercalate_cons_cons]
      rw [if_pos hterminated] at hs
      rw [htext]
      refine hs.closed ?_
      rintro w ⟨s', hs', hbare⟩
      have hterminated' : s'.terminated = true := by
        rw [← Stmt.terminated_bare, hbare, Stmt.terminated_bare, hterminated]
      have hmore := (ih hss hrest).imp
        (Q := fun v => Upto ClosedBy Stmt.bareAll (s :: s₂ :: ss) (w ++ v)) ?_
      · rcases hsep with rfl | rfl
        · exact hmore
        · exact .blank hmore
      · rintro v ⟨ss', hss', hbares⟩
        refine ⟨s' :: ss', fun t ht => ?_, ?_⟩
        · rw [List.append_assoc]
          exact .step (hs' _ (.inl hterminated')) (hss' t ht)
        · simp only [Stmt.bareAll, hbare] at hbares ⊢
          rw [hbares]

end Stmt

theorem Block.readable (t : Token) {ss : List Stmt} (hss : ∀ s ∈ ss, s.Readable)
    (hseparated : Stmt.separatedAll ss = true) : (Block.mk t ss).Readable := by
  have htext : (Block.mk t ss).print.toList =
      '{' :: ' ' :: ((" ".intercalate (Stmt.printAll ss)).toList ++ [' ', '}']) := by
    simp
  unfold Block.Readable
  rw [htext]
  refine .symbol rfl fun o ho => .blank ?_
  refine (Stmt.spells_statements (.inr rfl) hss hseparated).before rfl ?_
  rintro w ⟨ss', hss', hbares⟩
  refine .blank (.symbol rfl fun c hc => .nil ⟨.mk o ss', .mk ho ?_, ?_⟩)
  · have hbody := hss' c (by rw [hc]; rfl)
    rwa [hc] at hbody
  · simp only [Block.bare, hbares]

end Monkey
