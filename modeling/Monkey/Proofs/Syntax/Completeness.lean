import Monkey.Proofs.Syntax.Soundness

/-!
Whatever the grammar derives is read without a fault. The loop over operators is reached with the
phrase already read as its left side, so a phrase may be followed by anything that does not bind
tighter than its own layer. Every rule of expressions keeps this, and the induction over derivations
puts the rules together.
-/

namespace Monkey

open Monkey.Parser Grammar

namespace Grammar

theorem startsExpr_ne {k k' : TokenKind} (h : startsExpr k = true) (h' : startsExpr k' = false) :
    k ≠ k' := by
  rintro rfl
  rw [h] at h'
  cases h'

theorem Expression.startsExpr_kindAt {l : Layer} {w : List Token} {e : Expr}
    (h : Expression l w e) (rest : List Token) : startsExpr (kindAt (w ++ rest)) = true := by
  obtain ⟨t, v, rfl, ht⟩ := h.starts
  exact ht

theorem Exprs.startsExpr_kindAt {w : List Token} {es : List Expr} (h : Exprs w es)
    (rest : List Token) : startsExpr (kindAt (w ++ rest)) = true := by
  cases h with
  | one h => exact h.startsExpr_kindAt rest
  | more h _ _ =>
    rw [List.append_assoc]
    exact h.startsExpr_kindAt _

theorem KeyValues.startsExpr_kindAt {w : List Token} {ps : List (Expr × Expr)}
    (h : KeyValues w ps) (rest : List Token) : startsExpr (kindAt (w ++ rest)) = true := by
  cases h with
  | one h _ _ | more h _ _ _ _ =>
    rw [List.append_assoc]
    exact h.startsExpr_kindAt _

def startsStmt (k : TokenKind) : Prop := k = .kwLet ∨ k = .kwReturn ∨ startsExpr k = true

theorem Statement.startsStmt_kindAt {next : TokenKind} {w : List Token} {s : Stmt}
    (h : Statement next w s) (rest : List Token) : startsStmt (kindAt (w ++ rest)) := by
  cases h with
  | bind ht => exact .inl ht
  | ret ht | bareRet ht | bareRetSemicolon ht => exact .inr (.inl ht)
  | expr he => exact .inr (.inr (he.startsExpr_kindAt []))

theorem startsStmt.ne {k k' : TokenKind} (h : startsStmt k) (hl : k' ≠ .kwLet)
    (hr : k' ≠ .kwReturn) (he : startsExpr k' = false) : k ≠ k' := by
  rcases h with rfl | rfl | h
  · exact hl.symm
  · exact hr.symm
  · exact startsExpr_ne h he

theorem Body.kindAt_ne {close k : TokenKind} {w : List Token} {ss : List Stmt}
    (h : Body close w ss) (hc : close ≠ k) (hl : k ≠ .kwLet) (hr : k ≠ .kwReturn)
    (he : startsExpr k = false) : kindAt w ≠ k := by
  cases h with
  | done ht =>
    simp only [kindAt_cons, ht]
    exact hc
  | step hs hss => exact (hs.startsStmt_kindAt _).ne hl hr he

theorem Layer.level_le_inner (l : Layer) : l.level ≤ l.inner.level := by
  cases l <;> decide

structure Stops (k : TokenKind) : Prop where
  precedence : k.precedence = 0
  ne_else : k ≠ .kwElse

instance (k : TokenKind) : Decidable (Stops k) :=
  decidable_of_iff (k.precedence = 0 ∧ k ≠ .kwElse) ⟨fun h => ⟨h.1, h.2⟩, fun h => ⟨h.1, h.2⟩⟩

theorem Stops.cons {t : Token} {k : TokenKind} (ht : t.kind = k) (hk : Stops k)
    (ts : List Token) : Stops (kindAt (t :: ts)) := by
  rwa [kindAt_cons, ht]

def Closes (k : TokenKind) : Prop := k = .rightParen ∨ k = .rightBracket

theorem Closes.stops {k : TokenKind} (h : Closes k) : Stops k := by
  rcases h with rfl | rfl <;> decide

theorem Closes.startsExpr {k : TokenKind} (h : Closes k) : startsExpr k = false := by
  rcases h with rfl | rfl <;> rfl

theorem Closes.ne_comma {k : TokenKind} (h : Closes k) : k ≠ .comma := by
  rcases h with rfl | rfl <;> decide

end Grammar

theorem reads_expect_cons {t : Token} {kind : TokenKind} (h : t.kind = kind) (ts : List Token) :
    Reads (expect kind) (t :: ts) t ts := reads_expect.mpr ⟨rfl, h⟩

/-- Tokens of which the first has the kind `next`, and neither ends a statement nor goes on with a
conditional. -/
structure Grammar.Precedes (next : TokenKind) (rest : List Token) : Prop where
  kindAt_eq : kindAt rest = next
  ne_semicolon : next ≠ .semicolon
  ne_else : next ≠ .kwElse

theorem reads_statementEnd_of_ending {next : TokenKind} {z rest : List Token}
    (hz : Ending next z) (hrest : z = [] → Precedes next rest) :
    Reads statementEnd (z ++ rest) () rest := by
  rw [reads_statementEnd]
  cases hz with
  | semicolon hs => exact .inl ⟨_, hs, rfl⟩
  | omitted _ =>
    have hprecedes := hrest rfl
    exact .inr ⟨hprecedes.kindAt_eq ▸ hprecedes.ne_semicolon, rfl⟩

theorem Grammar.Ending.stops {next : TokenKind} {z rest : List Token} (h : Ending next z)
    (hrest : z = [] → Precedes next rest) : Stops (kindAt (z ++ rest)) := by
  cases h with
  | semicolon hs => exact .cons hs (by decide) rest
  | omitted hk =>
    have hprecedes := hrest rfl
    rw [List.nil_append, hprecedes.kindAt_eq]
    exact ⟨TokenKind.continuesExpr_eq_false.mp hk, hprecedes.ne_else⟩

theorem Parser.Reads.attempt {α : Type} {p : Parser α} {ts rest : List Token} {a : α}
    (h : Reads p ts a rest) : Reads (attempt p) ts (some a) rest := by
  unfold Reads Parser.attempt
  rw [h]

theorem moreParams_complete {w : List Token} {is : List Ident} (h : Names w is)
    {rest : List Token} (hrest : kindAt rest ≠ .comma) :
    ∃ i v js, w = i :: v ∧ is = ⟨i⟩ :: js ∧ i.kind = .identifier ∧
      Reads moreParams (v ++ rest) js rest := by
  induction h with
  | one hi =>
    refine ⟨_, [], [], rfl, rfl, hi, ?_⟩
    rw [reads_iff, List.nil_append]
    match rest, hrest with
    | [], _ => rfl
    | [c], hc => simp [moreParams, show c.kind ≠ .comma from hc]
    | c :: _ :: _, hc => simp [moreParams, show c.kind ≠ .comma from hc]
  | more hi hc _ ih =>
    obtain ⟨j, v, js, rfl, rfl, hj, hjs⟩ := ih
    refine ⟨_, _, _, rfl, rfl, hi, ?_⟩
    unfold Reads at hjs ⊢
    simp [moreParams, hc, hj, hjs]

theorem params_complete {w : List Token} {is : List Ident} (h : Params w is) (rest : List Token) :
    Reads params (w ++ rest) is rest := by
  unfold Reads params
  cases h with
  | none hc =>
    rw [if_pos (by simpa using hc)]
    rfl
  | @some c w is hn hc =>
    have hcomma : kindAt (c :: rest) ≠ .comma := by simp [hc]
    obtain ⟨i, v, js, rfl, rfl, hi, hjs⟩ := moreParams_complete hn hcomma
    rw [if_neg (by simp [hi])]
    simp only [List.append_assoc, List.cons_append, List.nil_append, read_eq_iff, reads_bind,
      reads_pure]
    exact ⟨_, _, reads_expect_cons hi _, _, _, hjs, _, _, reads_expect_cons hc _, rfl, rfl⟩

namespace Unbounded

theorem operators_stop {prec : Nat} {ts : List Token} (left : Expr)
    (h : (kindAt ts).precedence ≤ prec) : Reads (operators prec left) ts left ts := by
  cases ts with
  | nil => exact operators_nil prec left
  | cons t ts =>
    rw [reads_iff, operators_cons, if_neg (Nat.not_lt.mpr h : ¬prec < t.kind.precedence)]

/-- Reading an expression from `w` on comes to the loop over operators behind `w`, with `e` as the
left side, unless something follows that binds tighter than the layer `l`. -/
def Continues (l : Layer) (w : List Token) (e : Expr) : Prop :=
  ∀ prec rest, prec ≤ 5 → min (prec + 1) 5 ≤ l.level → (kindAt rest).precedence ≤ l.level →
    kindAt rest ≠ .kwElse → expression prec (w ++ rest) = operators prec e rest

theorem Continues.reads {l : Layer} {w : List Token} {e : Expr} (h : Continues l w e)
    (prec : Nat) (rest : List Token) (hprec : prec ≤ 5) (hl : min (prec + 1) 5 ≤ l.level)
    (hrest : (kindAt rest).precedence ≤ l.level) (hstop : (kindAt rest).precedence ≤ prec)
    (helse : kindAt rest ≠ .kwElse) : Reads (expression prec) (w ++ rest) e rest :=
  (h prec rest hprec hl hrest helse).trans (operators_stop e hstop)

theorem Continues.whole {w : List Token} {e : Expr} (h : Continues .equality w e)
    (rest : List Token) (hrest : Stops (kindAt rest)) : Reads (expression 0) (w ++ rest) e rest :=
  h.reads 0 rest (by decide) (by decide) (by rw [hrest.precedence]; decide)
    (Nat.le_of_eq hrest.precedence) hrest.ne_else

inductive ReadsBraced : List Token → Block → Prop where
  | mk {t u ss} : t.kind = .leftBrace → (∀ rest, Reads blockBody (u ++ rest) ss rest) →
      ReadsBraced (t :: u) (.mk t ss)

theorem reads_no_else {rest : List Token} (h : kindAt rest ≠ .kwElse) :
    Reads elseBranch rest none rest := by
  rw [reads_iff, elseBranch_eq, if_neg h]

theorem ReadsBraced.else {s : Token} {w : List Token} {b : Block} (hs : s.kind = .kwElse)
    (hb : ReadsBraced w b) (rest : List Token) :
    Reads elseBranch (s :: (w ++ rest)) (some b) rest := by
  obtain ⟨hbrace, hss⟩ := hb
  rw [reads_iff, elseBranch_eq, if_pos (by simpa using hs)]
  simp only [List.tail_cons, List.cons_append, read_eq_iff, reads_bind, reads_pure]
  exact ⟨_, _, reads_expect_cons hbrace _, _, _, hss rest, rfl, rfl⟩

namespace Continues

variable {l : Layer} {t o c : Token} {u v w : List Token} {e : Expr}

/-- What is read as an operand may be followed by anything but an `else`. -/
theorem of_operand
    (h : ∀ rest, (kindAt rest).precedence ≤ l.level → kindAt rest ≠ .kwElse →
      Reads operand (w ++ rest) e rest) : Continues l w e := by
  intro prec rest _ _ hrest helse
  rw [expression_eq]
  exact (h rest hrest helse).bind _

theorem inner (h : Continues l.inner w e) : Continues l w e := by
  intro prec rest hprec hl hrest helse
  have hle := l.level_le_inner
  exact h prec rest hprec (by omega) (by omega) helse

theorem binary {op : BinaryOp} {left right : Expr} (hop : BinaryOp.ofKind? t.kind = some op)
    (hleft : Continues op.layer w left) (hright : Continues op.layer.inner v right) :
    Continues op.layer (w ++ t :: v) (.binary left op t right) := by
  intro prec rest hprec hl hrest helse
  have hlevel := BinaryOp.level_layer_of_ofKind? hop
  have hinner := op.level_inner_layer
  have hfour := op.level_layer_le
  have hnot : kindAt (t :: (v ++ rest)) ≠ .kwElse := by
    simp only [kindAt_cons]
    intro hk
    rw [hk] at hop
    cases hop
  have hr := hright.reads t.kind.precedence rest (by omega) (by omega) (by omega) (by omega) helse
  rw [List.append_assoc, List.cons_append,
    hleft prec _ hprec hl (by simp only [kindAt_cons]; omega) hnot, operators_cons,
    if_pos (by omega), hop]
  exact hr.bind _

theorem unary {op : UnaryOp} (hop : UnaryOp.ofKind? t.kind = some op) (h : Continues .unary w e) :
    Continues .unary (t :: w) (.unary op t e) := by
  refine of_operand fun rest hrest helse => ?_
  have hr := h.reads unaryPrecedence rest (by decide) (by decide) hrest hrest helse
  rw [List.cons_append, reads_iff, operand_cons]
  cases hk : t.kind <;> rw [hk] at hop <;> cases hop
  all_goals exact hr.bind _

/-- A bracket binds tighter than any operator, so an applied expression goes on with it. -/
theorem postfix_step (h : Continues .applied w e) (hk : t.kind.precedence = 6) {prec : Nat}
    (hprec : prec ≤ 5) (hl : min (prec + 1) 5 ≤ Layer.applied.level) (ts : List Token) :
    expression prec (w ++ t :: ts) = operators prec e (t :: ts) := by
  refine h prec _ hprec hl ?_ ?_
  · rw [kindAt_cons, hk]
    decide
  · rw [kindAt_cons]
    intro helse
    rw [helse] at hk
    cases hk

theorem call {args : List Expr} (h : Continues .applied w e) (ht : t.kind = .leftParen)
    (hargs : ∀ rest, Reads (listItems .rightParen) (v ++ rest) args rest) :
    Continues .applied (w ++ t :: v) (.call e t args) := by
  intro prec rest hprec hl _ _
  rw [List.append_assoc, List.cons_append, h.postfix_step (by rw [ht]; rfl) hprec hl,
    operators_cons, if_pos (by rw [ht]; exact Nat.lt_succ_of_le hprec), ht]
  exact (hargs rest).bind _

theorem index {i : Expr} (h : Continues .applied w e) (ht : t.kind = .leftBracket)
    (hi : Continues .equality v i) (hc : c.kind = .rightBracket) :
    Continues .applied (w ++ t :: (v ++ [c])) (.index e t i) := by
  intro prec rest hprec hl _ _
  have hr := hi.whole (c :: rest) (.cons hc (by decide) _)
  rw [List.append_assoc, List.cons_append, List.append_assoc,
    h.postfix_step (by rw [ht]; rfl) hprec hl, operators_cons,
    if_pos (by rw [ht]; exact Nat.lt_succ_of_le hprec), ht]
  exact (hr.bind _).trans ((reads_expect_cons hc rest).bind _)

theorem group (ht : t.kind = .leftParen) (h : Continues .equality w e)
    (hc : c.kind = .rightParen) : Continues .primary (t :: (w ++ [c])) e := by
  refine of_operand fun rest _ _ => ?_
  have hr := h.whole (c :: rest) (.cons hc (by decide) _)
  rw [reads_iff, List.cons_append, List.append_assoc, operand_cons, ht]
  exact (hr.bind _).trans ((reads_expect_cons hc rest).bind _)

theorem reads_cond {b : Block} {a : Option Block} {ts rest : List Token} (ht : t.kind = .kwIf)
    (ho : o.kind = .leftParen) (h : Continues .equality w e) (hc : c.kind = .rightParen)
    (hb : ReadsBraced v b) (ha : Reads elseBranch ts a rest) :
    Reads operand (t :: o :: (w ++ c :: (v ++ ts))) (.cond t e b a) rest := by
  obtain ⟨hbrace, hss⟩ := hb
  rw [reads_iff, operand_cons, ht]
  simp only [List.cons_append, read_eq_iff, reads_bind, reads_pure]
  exact ⟨_, _, reads_expect_cons ho _, _, _, h.whole _ (.cons hc (by decide) _), _, _,
    reads_expect_cons hc _, _, _, reads_expect_cons hbrace _, _, _, hss ts, _, _, ha, rfl, rfl⟩

theorem cond {b : Block} (ht : t.kind = .kwIf) (ho : o.kind = .leftParen)
    (h : Continues .equality w e) (hc : c.kind = .rightParen) (hb : ReadsBraced v b) :
    Continues .primary (t :: o :: (w ++ c :: v)) (.cond t e b none) := by
  refine of_operand fun rest _ helse => ?_
  simpa using reads_cond ht ho h hc hb (reads_no_else helse)

theorem condElse {s : Token} {b a : Block} (ht : t.kind = .kwIf) (ho : o.kind = .leftParen)
    (h : Continues .equality w e) (hc : c.kind = .rightParen) (hb : ReadsBraced v b)
    (hs : s.kind = .kwElse) (ha : ReadsBraced u a) :
    Continues .primary (t :: o :: (w ++ c :: (v ++ s :: u))) (.cond t e b (some a)) := by
  refine of_operand fun rest _ _ => ?_
  simpa using reads_cond ht ho h hc hb (ha.else hs rest)

theorem function {is : List Ident} {b : Block} (ht : t.kind = .kwFn) (ho : o.kind = .leftParen)
    (hw : Params w is) (hb : ReadsBraced v b) :
    Continues .primary (t :: o :: (w ++ v)) (.function (.mk t is b)) := by
  refine of_operand fun rest _ _ => ?_
  obtain ⟨hbrace, hss⟩ := hb
  simp only [List.cons_append, List.append_assoc]
  rw [reads_iff, operand_cons, ht]
  simp only [read_eq_iff, reads_bind, reads_pure]
  exact ⟨_, _, reads_expect_cons ho _, _, _, params_complete hw _, _, _,
    reads_expect_cons hbrace _, _, _, hss rest, rfl, rfl⟩

theorem array {es : List Expr} (ht : t.kind = .leftBracket)
    (h : ∀ rest, Reads (listItems .rightBracket) (w ++ rest) es rest) :
    Continues .primary (t :: w) (.array t es) := by
  refine of_operand fun rest _ _ => ?_
  rw [reads_iff, List.cons_append, operand_cons, ht]
  exact (h rest).bind _

theorem hash {ps : List (Expr × Expr)} (ht : t.kind = .leftBrace)
    (h : ∀ rest, Reads hashPairs (w ++ rest) ps rest) : Continues .primary (t :: w) (.hash t ps) := by
  refine of_operand fun rest _ _ => ?_
  rw [reads_iff, List.cons_append, operand_cons, ht]
  exact (h rest).bind _

/-- An expression and the end of its statement, of which `u` is what stands before it. -/
theorem ended {next : TokenKind} {z rest : List Token} (h : Continues .equality w e)
    (he : Expression .equality w e) (hz : Ending next z) (u : List Token)
    (hrest : ¬Closed (u ++ (w ++ z)) → Precedes next rest) :
    Reads (expression 0) (w ++ (z ++ rest)) e (z ++ rest) ∧
      Reads statementEnd (z ++ rest) () rest := by
  have hopen : z = [] → Precedes next rest := by
    rintro rfl
    exact hrest (by simpa using he.not_closed u)
  exact ⟨h.whole _ (hz.stops hopen), reads_statementEnd_of_ending hz hopen⟩

end Continues

mutual

theorem expression_complete {l : Layer} {w : List Token} {e : Expr} (h : Expression l w e) :
    Continues l w e := by
  match h with
  | .inner h => exact (expression_complete h).inner
  | .binary hop hleft hright =>
    exact (expression_complete hleft).binary hop (expression_complete hright)
  | .unary hop h => exact (expression_complete h).unary hop
  | .call h ht hargs => exact (expression_complete h).call ht (items_complete hargs (.inl rfl))
  | .index h ht hi hc => exact (expression_complete h).index ht (expression_complete hi) hc
  | .ident ht | .string ht | .kwTrue ht | .kwFalse ht =>
    refine .of_operand fun rest _ _ => ?_
    rw [reads_iff, List.singleton_append, operand_cons, ht]
  | .integer ht hv =>
    refine .of_operand fun rest _ _ => ?_
    have hlt : Text.decimalValue _ < 0x8000000000000000 := Nat.lt_of_le_of_lt hv (by decide)
    rw [reads_iff, List.singleton_append, operand_cons, ht]
    simp only [integer?, if_pos hlt]
  | .group ht h hc => exact .group ht (expression_complete h) hc
  | .cond ht ho h hc hb => exact .cond ht ho (expression_complete h) hc (braced_complete hb)
  | .condElse ht ho h hc hb hs ha =>
    exact .condElse ht ho (expression_complete h) hc (braced_complete hb) hs (braced_complete ha)
  | .function ht ho hw hb => exact .function ht ho hw (braced_complete hb)
  | .array ht h => exact .array ht (items_complete h (.inr rfl))
  | .hash ht h => exact .hash ht (pairs_complete h)

/-- `z` is what closes the list, with or without a comma before the bracket. -/
theorem exprs_complete {w : List Token} {es : List Expr} (h : Exprs w es) {close : TokenKind}
    (hclose : Closes close) {z rest : List Token} (hz : Reads (moreItems close) z [] rest)
    (hstop : Stops (kindAt z)) :
    Reads (do let e ← expression 0; let es ← moreItems close; return e :: es) (w ++ z) es rest := by
  match h with
  | .one h =>
    simp only [reads_bind, reads_pure]
    exact ⟨_, _, (expression_complete h).whole z hstop, _, _, hz, rfl, rfl⟩
  | @Exprs.more c w v e es h hc hmore =>
    have hr := (expression_complete h).whole (c :: (v ++ z)) (.cons hc (by decide) _)
    have hnext := startsExpr_ne (hmore.startsExpr_kindAt z) hclose.startsExpr
    have hitems : Reads (moreItems close) (c :: (v ++ z)) es rest := by
      rw [reads_iff, moreItems_eq, if_pos (by simp only [kindAt_cons, hc]), List.tail_cons,
        if_neg hnext]
      exact exprs_complete hmore hclose hz hstop
    rw [List.append_assoc, List.cons_append]
    simp only [reads_bind, reads_pure]
    exact ⟨_, _, hr, _, _, hitems, rfl, rfl⟩

theorem items_complete {close : TokenKind} {w : List Token} {es : List Expr}
    (h : Items close w es) (hclose : Closes close) (rest : List Token) :
    Reads (listItems close) (w ++ rest) es rest := by
  match h with
  | .none hb =>
    rw [reads_iff, listItems_eq, if_pos (by simpa using hb)]
    rfl
  | @Items.some close b w es h hb =>
    have hz : Reads (moreItems close) (b :: rest) [] rest := by
      rw [reads_iff, moreItems_eq, if_neg (by simpa [hb] using hclose.ne_comma)]
      exact (reads_expect_cons hb rest).bind _
    rw [reads_iff, List.append_assoc, List.singleton_append, listItems_eq,
      if_neg (startsExpr_ne (h.startsExpr_kindAt _) hclose.startsExpr)]
    exact exprs_complete h hclose hz (.cons hb hclose.stops _)
  | @Items.trailing close c b w es h hc hb =>
    have hz : Reads (moreItems close) (c :: b :: rest) [] rest := by
      rw [reads_iff, moreItems_eq, if_pos (by simpa using hc), if_pos (by simpa using hb)]
      rfl
    rw [reads_iff, List.append_assoc, List.cons_append, List.singleton_append, listItems_eq,
      if_neg (startsExpr_ne (h.startsExpr_kindAt _) hclose.startsExpr)]
    exact exprs_complete h hclose hz (.cons hc (by decide) _)

theorem keyValues_complete {w : List Token} {ps : List (Expr × Expr)} (h : KeyValues w ps)
    {z rest : List Token} (hz : Reads morePairs z [] rest) (hstop : Stops (kindAt z)) :
    Reads hashPairs (w ++ z) ps rest := by
  have hbrace : kindAt (w ++ z) ≠ .rightBrace := startsExpr_ne (h.startsExpr_kindAt z) rfl
  rw [reads_iff, hashPairs_eq, if_neg hbrace]
  match h with
  | @KeyValues.one s w v k e hk hs he =>
    have hkey := (expression_complete hk).whole (s :: (v ++ z))
      (.cons hs (by decide) _)
    have hvalue := (expression_complete he).whole z hstop
    simp only [List.append_assoc, List.cons_append, read_eq_iff, reads_bind, reads_pure]
    exact ⟨_, _, hkey, _, _, reads_expect_cons hs _, _, _, hvalue, _, _, hz, rfl, rfl⟩
  | @KeyValues.more s c w v u k e ps hk hs he hc hmore =>
    have hkey := (expression_complete hk).whole (s :: (v ++ c :: (u ++ z)))
      (.cons hs (by decide) _)
    have hvalue := (expression_complete he).whole (c :: (u ++ z))
      (.cons hc (by decide) _)
    have hpairs : Reads morePairs (c :: (u ++ z)) ps rest := by
      rw [reads_iff, morePairs_eq, if_neg (by simp [hc])]
      exact ((reads_expect_cons hc _).bind _).trans (keyValues_complete hmore hz hstop)
    simp only [List.append_assoc, List.cons_append, read_eq_iff, reads_bind, reads_pure]
    exact ⟨_, _, hkey, _, _, reads_expect_cons hs _, _, _, hvalue, _, _, hpairs, rfl, rfl⟩

theorem pairs_complete {w : List Token} {ps : List (Expr × Expr)} (h : Pairs w ps)
    (rest : List Token) : Reads hashPairs (w ++ rest) ps rest := by
  match h with
  | .none hb =>
    rw [reads_iff, hashPairs_eq, if_pos (by simpa using hb)]
    rfl
  | @Pairs.some b w ps h hb =>
    have hz : Reads morePairs (b :: rest) [] rest := by
      rw [reads_iff, morePairs_eq, if_pos (by simpa using hb)]
      rfl
    rw [List.append_assoc, List.singleton_append]
    exact keyValues_complete h hz (.cons hb (by decide) _)
  | @Pairs.trailing c b w ps h hc hb =>
    have hend : Reads hashPairs (b :: rest) [] rest := by
      rw [reads_iff, hashPairs_eq, if_pos (by simpa using hb)]
      rfl
    have hz : Reads morePairs (c :: b :: rest) [] rest := by
      rw [reads_iff, morePairs_eq, if_neg (by simp [hc])]
      exact ((reads_expect_cons hc _).bind _).trans hend
    rw [List.append_assoc, List.cons_append, List.singleton_append]
    exact keyValues_complete h hz (.cons hc (by decide) _)

/-- Behind a semicolon that ends a statement, anything may stand. -/
theorem statement_complete {next : TokenKind} {w : List Token} {s : Stmt} (h : Statement next w s)
    {rest : List Token} (hrest : ¬Closed w → Precedes next rest) :
    Reads statement (w ++ rest) s rest := by
  match h with
  | @Statement.bind _ t i a w z e ht hi ha he hz =>
    obtain ⟨hr, hend⟩ := (expression_complete he).ended he hz [t, i, a] hrest
    simp only [List.cons_append, List.append_assoc]
    rw [reads_iff, statement_cons, ht]
    simp only [read_eq_iff, reads_bind]
    exact ⟨_, _, (reads_expect_cons hi _).attempt, _, _, (reads_expect_cons ha _).attempt, _, _,
      hr.attempt, _, _, hend, reads_pure.mpr ⟨rfl, rfl⟩⟩
  | @Statement.ret _ t w z e ht he hz =>
    obtain ⟨hr, hend⟩ := (expression_complete he).ended he hz [t] hrest
    have hstart := he.startsExpr_kindAt (z ++ rest)
    simp only [List.cons_append, List.append_assoc]
    rw [reads_iff, statement_cons, ht]
    dsimp only
    rw [if_neg (by
      rintro (hk | hk | hk) <;> rw [hk] at hstart <;> cases hstart)]
    simp only [read_eq_iff, reads_bind, reads_pure]
    exact ⟨_, _, hr, _, _, hend, rfl, rfl⟩
  | @Statement.bareRet _ t ht hclose =>
    have hopen : ¬Closed ([] ++ [t]) := by
      rw [closed_append_singleton, ht]
      decide
    have hprecedes := hrest hopen
    have hend : Reads statementEnd rest () rest :=
      reads_statementEnd.mpr (.inr ⟨hprecedes.kindAt_eq ▸ hprecedes.ne_semicolon, rfl⟩)
    rw [reads_iff, List.singleton_append, statement_cons, ht]
    dsimp only
    rw [if_pos (.inr (hprecedes.kindAt_eq ▸ hclose))]
    exact hend.bind _
  | @Statement.bareRetSemicolon _ t s ht hs =>
    have hend : Reads statementEnd (s :: rest) () rest :=
      reads_statementEnd.mpr (.inl ⟨s, hs, rfl⟩)
    rw [reads_iff]
    simp only [List.cons_append, List.nil_append]
    rw [statement_cons, ht]
    dsimp only
    rw [if_pos (.inl (by simpa using hs))]
    exact hend.bind _
  | @Statement.expr _ t w z e he hz =>
    obtain ⟨hr, hend⟩ := (expression_complete he).ended he hz [] hrest
    have hstart : startsExpr t.kind = true := he.startsExpr_kindAt []
    simp only [List.cons_append, List.append_assoc] at hr ⊢
    rw [reads_iff, statement_cons]
    split
    · rename_i hk
      rw [hk] at hstart
      cases hstart
    · rename_i hk
      rw [hk] at hstart
      cases hstart
    · simp only [read_eq_iff, reads_bind, reads_pure]
      exact ⟨_, _, hr, _, _, hend, rfl, rfl⟩

theorem body_complete {close : TokenKind} {w : List Token} {ss : List Stmt} (h : Body close w ss)
    (hclose : close = .rightBrace) (rest : List Token) : Reads blockBody (w ++ rest) ss rest := by
  match h with
  | .done ht =>
    rw [reads_iff, blockBody_eq, if_pos (by simpa [ht] using hclose)]
    rfl
  | @Body.step close w v s ss hs hss =>
    have hfirst := hs.startsStmt_kindAt (v ++ rest)
    have hr : Reads statement (w ++ (v ++ rest)) s (v ++ rest) := statement_complete hs fun _ =>
      ⟨hss.kindAt_append, hss.kindAt_ne (by rw [hclose]; decide) (by decide) (by decide) rfl,
        hss.kindAt_ne (by rw [hclose]; decide) (by decide) (by decide) rfl⟩
    rw [reads_iff, List.append_assoc, blockBody_eq, if_neg (hfirst.ne (by decide) (by decide) rfl),
      if_neg (hfirst.ne (by decide) (by decide) rfl)]
    simp only [read_eq_iff, reads_bind, reads_pure]
    exact ⟨_, _, hr.attempt, _, _, body_complete hss hclose rest, rfl, rfl⟩

theorem braced_complete {w : List Token} {b : Block} (h : Braced w b) : ReadsBraced w b := by
  match h with
  | .mk hb h => exact .mk hb (body_complete h rfl)

end

end Unbounded

end Monkey
