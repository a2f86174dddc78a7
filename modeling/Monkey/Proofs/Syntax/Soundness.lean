import Monkey.Proofs.Syntax.Grammar
import Monkey.Proofs.Syntax.Loud

/-!
Whatever is read without a fault is a phrase of the grammar, by induction on the length of the
stream. The loop over operators holds the phrase read so far: it is of a layer tight enough for what
was asked and for the token that stands next.
-/

namespace Monkey

open Monkey.Parser

theorem BinaryOp.level_layer_of_ofKind? {k : TokenKind} {op : BinaryOp}
    (h : BinaryOp.ofKind? k = some op) : op.layer.level = k.precedence := by
  cases k <;> simp [BinaryOp.ofKind?] at h <;> subst h <;> rfl

theorem BinaryOp.level_inner_layer (op : BinaryOp) : op.layer.inner.level = op.layer.level + 1 := by
  cases op <;> rfl

theorem BinaryOp.level_layer_le (op : BinaryOp) : op.layer.level ≤ 4 := by
  cases op <;> decide

theorem TokenKind.precedence_le (k : TokenKind) : k.precedence ≤ 6 := by
  cases k <;> decide

theorem TokenKind.continuesExpr_eq_false {k : TokenKind} :
    k.continuesExpr = false ↔ k.precedence = 0 := by
  cases k <;> decide

theorem TokenKind.bracket_of_precedence {k : TokenKind} (h : BinaryOp.ofKind? k = none)
    (hp : 0 < k.precedence) : k = .leftParen ∨ k = .leftBracket := by
  revert h hp
  cases k <;> decide

namespace Parser.Reads

variable {α : Type} {p : Parser α} {ts rest : List Token} {a : α}

theorem length_lt (h : Reads p ts a rest) (hp : Takes p) : rest.length < ts.length := by
  have hlt : (p ts).rest.length < ts.length := hp.length_lt (by rw [h])
  rwa [h] at hlt

theorem length_le (h : Reads p ts a rest) (hp : Trims p) : rest.length ≤ ts.length := by
  have hle := (hp ts).length_le
  rwa [h] at hle

end Parser.Reads

open Grammar

namespace Grammar

theorem Items.cons {close : TokenKind} {c : Token} {w v : List Token} {e : Expr} {es : List Expr}
    (he : Expression .equality w e) (hc : c.kind = .comma) (h : Items close v es) (hne : es ≠ []) :
    Items close (w ++ c :: v) (e :: es) := by
  cases h with
  | none => exact absurd rfl hne
  | some h hb => rw [← List.cons_append, ← List.append_assoc]; exact .some (.more he hc h) hb
  | trailing h hd hb =>
    rw [← List.cons_append, ← List.append_assoc]; exact .trailing (.more he hc h) hd hb

theorem Pairs.cons {s c : Token} {w v u : List Token} {k e : Expr} {ps : List (Expr × Expr)}
    (hk : Expression .equality w k) (hs : s.kind = .colon) (he : Expression .equality v e)
    (hc : c.kind = .comma) (h : Pairs u ps) :
    Pairs (w ++ s :: (v ++ c :: u)) ((k, e) :: ps) := by
  cases h with
  | none hb =>
    have := Pairs.trailing (.one hk hs he) hc hb
    simpa using this
  | some h hb =>
    have := Pairs.some (.more hk hs he hc h) hb
    simpa using this
  | trailing h hd hb =>
    have := Pairs.trailing (.more hk hs he hc h) hd hb
    simpa using this

end Grammar

namespace Grammar

theorem Body.ne_nil {close : TokenKind} {w : List Token} {ss : List Stmt} (h : Body close w ss) :
    w ≠ [] := by
  match h with
  | .done _ => simp
  | .step _ h => simp [h.ne_nil]

theorem Body.kindAt_append {close : TokenKind} {w rest : List Token} {ss : List Stmt}
    (h : Body close w ss) : kindAt (w ++ rest) = kindAt w := by
  obtain ⟨t, v, rfl⟩ := List.exists_cons_of_ne_nil h.ne_nil
  rfl

end Grammar

theorem closing {α : Type} {close : TokenKind} {ts rest : List Token} {xs : List α}
    (hne : close ≠ .eof) (hk : kindAt ts = close)
    (h : (⟨some [], ts.tail, []⟩ : Parsed (List α)) = ⟨some xs, rest, []⟩) :
    ∃ b, b.kind = close ∧ ts = b :: rest ∧ xs = [] := by
  cases ts with
  | nil => exact absurd hk.symm hne
  | cons b ts =>
    obtain ⟨rfl, rfl⟩ := reads_pure.mp h
    exact ⟨b, hk, rfl, rfl⟩

theorem moreParams_sound {i : Token} (hi : i.kind = .identifier) {ts rest : List Token}
    {is : List Ident} (h : Reads moreParams ts is rest) :
    ∃ w, ts = w ++ rest ∧ Names (i :: w) (⟨i⟩ :: is) := by
  rw [reads_iff] at h
  fun_induction moreParams ts generalizing i is rest with
  | case4 =>
    rename_i c j ts hc hj q ih
    simp only [Parsed.mk.injEq, Option.map_eq_some_iff] at h
    obtain ⟨⟨js, hjs, rfl⟩, rfl, hd⟩ := h
    obtain ⟨w, hw, hn⟩ := ih hj (show q = ⟨some js, q.rest, []⟩ by rw [← hjs, ← hd])
    refine ⟨c :: j :: w, by rw [hw]; simp, .more hi hc hn⟩
  | case1 | case3 | case6 =>
    obtain ⟨rfl, rfl⟩ := reads_pure.mp h
    exact ⟨[], rfl, .one hi⟩
  | case2 | case5 => simp at h

theorem params_sound {ts rest : List Token} {is : List Ident} (h : Reads params ts is rest) :
    ∃ w, ts = w ++ rest ∧ Params w is := by
  unfold Reads params at h
  split at h
  · rename_i hk
    obtain ⟨c, hc, rfl, rfl⟩ := closing (by decide) hk h
    exact ⟨[c], rfl, .none hc⟩
  · simp only [read_eq_iff, reads_bind, reads_expect, reads_pure] at h
    obtain ⟨i, _, ⟨rfl, hi⟩, js, _, hj, c, _, ⟨rfl, hc⟩, rfl, rfl⟩ := h
    obtain ⟨w, rfl, hw⟩ := moreParams_sound hi hj
    exact ⟨i :: w ++ [c], by simp, .some hw hc⟩

namespace Unbounded

/-- What is read without a fault from at most `L` tokens is derived from the tokens taken. An
expression stops at a token that does not bind tighter than asked, and the layer of its phrase is as
tight as asked and not looser than that token. -/
structure Soundness (L : Nat) : Prop where
  operand : ∀ {ts e rest}, ts.length ≤ L → Reads operand ts e rest →
    ∃ w l, ts = w ++ rest ∧ Expression l w e ∧ 5 ≤ l.level ∧ (kindAt rest).precedence ≤ l.level
  expression : ∀ {prec ts e rest}, ts.length ≤ L → Reads (expression prec) ts e rest →
    ∃ w l, ts = w ++ rest ∧ Expression l w e ∧ min (prec + 1) 5 ≤ l.level ∧
      (kindAt rest).precedence ≤ prec
  operators : ∀ {prec left ts e rest w l}, ts.length ≤ L → Expression l w left →
    min (prec + 1) 5 ≤ l.level → (kindAt ts).precedence ≤ l.level →
    Reads (operators prec left) ts e rest →
    ∃ v m, ts = v ++ rest ∧ Expression m (w ++ v) e ∧ min (prec + 1) 5 ≤ m.level ∧
      (kindAt rest).precedence ≤ prec
  statement : ∀ {ts s rest}, ts.length ≤ L → Reads statement ts s rest →
    ∃ w, ts = w ++ rest ∧ Statement (kindAt rest) w s
  blockBody : ∀ {ts ss rest}, ts.length ≤ L → Reads blockBody ts ss rest →
    ∃ w, ts = w ++ rest ∧ Body .rightBrace w ss
  elseBranch : ∀ {ts a rest}, ts.length ≤ L → Reads elseBranch ts a rest →
    a = none ∧ ts = rest ∨
      ∃ s u b, a = some b ∧ s.kind = .kwElse ∧ Braced u b ∧ ts = s :: (u ++ rest)
  listItems : ∀ {close ts es rest}, ts.length ≤ L → close ≠ .eof →
    Reads (listItems close) ts es rest → ∃ w, ts = w ++ rest ∧ Items close w es
  moreItems : ∀ {close ts es rest v e}, ts.length ≤ L → close ≠ .eof →
    Expression .equality v e → Reads (moreItems close) ts es rest →
    ∃ w, ts = w ++ rest ∧ Items close (v ++ w) (e :: es)
  hashPairs : ∀ {ts ps rest}, ts.length ≤ L → Reads hashPairs ts ps rest →
    ∃ w, ts = w ++ rest ∧ Pairs w ps
  morePairs : ∀ {ts ps rest s v u k e}, ts.length ≤ L → Expression .equality v k →
    s.kind = .colon → Expression .equality u e → Reads morePairs ts ps rest →
    ∃ w, ts = w ++ rest ∧ Pairs (v ++ s :: (u ++ w)) ((k, e) :: ps)

namespace Soundness

variable {L : Nat}

theorem whole (h : Soundness L) {ts rest : List Token} {e : Expr} (hts : ts.length ≤ L)
    (hr : Reads (Unbounded.expression 0) ts e rest) :
    ∃ w, ts = w ++ rest ∧ Expression .equality w e ∧ (kindAt rest).precedence = 0 := by
  obtain ⟨w, l, hw, he, hl, hp⟩ := h.expression hts hr
  exact ⟨w, hw, he.loosen (show 1 ≤ l.level by omega), by omega⟩

theorem block (h : Soundness L) {b : Token} {ts rest : List Token} {ss : List Stmt}
    (hb : b.kind = .leftBrace) (hts : ts.length ≤ L) (hr : Reads Unbounded.blockBody ts ss rest) :
    ∃ w, b :: ts = w ++ rest ∧ Braced w (.mk b ss) := by
  obtain ⟨w, rfl, hw⟩ := h.blockBody hts hr
  exact ⟨b :: w, rfl, .mk hb hw⟩

/-! ### Operands, from their first token -/

section

variable {t : Token} {ts rest : List Token} {e : Expr}

theorem literal_step {k : TokenKind} (hk : t.kind = k)
    (hlit : k = .identifier ∨ k = .string ∨ k = .kwTrue ∨ k = .kwFalse)
    (h : Reads Unbounded.operand (t :: ts) e rest) :
    ∃ w, ts = w ++ rest ∧ Expression .primary (t :: w) e := by
  rw [reads_iff, operand_cons] at h
  rcases hlit with rfl | rfl | rfl | rfl
  all_goals
    rw [hk] at h
    obtain ⟨rfl, rfl⟩ := reads_pure.mp h
    refine ⟨[], rfl, ?_⟩
  · exact .ident hk
  · exact .string hk
  · exact .kwTrue hk
  · exact .kwFalse hk

theorem integer_step (hk : t.kind = .integer) (h : Reads Unbounded.operand (t :: ts) e rest) :
    ∃ w, ts = w ++ rest ∧ Expression .primary (t :: w) e := by
  rw [reads_iff, operand_cons] at h
  simp only [hk, integer?] at h
  split at h
  · rename_i value hv
    obtain ⟨rfl, rfl⟩ := reads_pure.mp h
    split at hv
    · obtain rfl := Option.some.inj hv
      exact ⟨[], rfl, .integer hk (by omega)⟩
    · cases hv
  · simp at h

theorem unary_step (I : Soundness ts.length) (hk : t.kind = .bang ∨ t.kind = .minus)
    (h : Reads Unbounded.operand (t :: ts) e rest) :
    ∃ w, ts = w ++ rest ∧ Expression .unary (t :: w) e ∧ (kindAt rest).precedence ≤ 5 := by
  rw [reads_iff, operand_cons] at h
  rcases hk with hk | hk
  all_goals
    simp only [hk, read_eq_iff, reads_bind, reads_pure] at h
    obtain ⟨x, mid, hx, rfl, rfl⟩ := h
    obtain ⟨w, l, rfl, hw, hl, hp⟩ := I.expression (Nat.le_refl _) hx
    exact ⟨w, rfl, .unary (by rw [hk]; rfl) (hw.loosen hl), hp⟩

theorem group_step (I : Soundness ts.length) (hk : t.kind = .leftParen)
    (h : Reads Unbounded.operand (t :: ts) e rest) :
    ∃ w, ts = w ++ rest ∧ Expression .primary (t :: w) e := by
  rw [reads_iff, operand_cons] at h
  simp only [hk, read_eq_iff, reads_bind, reads_pure, reads_expect] at h
  obtain ⟨x, mid, hx, c, _, ⟨rfl, hc⟩, rfl, rfl⟩ := h
  obtain ⟨w, rfl, hw, _⟩ := I.whole (Nat.le_refl _) hx
  exact ⟨w ++ [c], by simp, .group hk hw hc⟩

theorem cond_step (I : Soundness ts.length) (hk : t.kind = .kwIf)
    (h : Reads Unbounded.operand (t :: ts) e rest) :
    ∃ w, ts = w ++ rest ∧ Expression .primary (t :: w) e := by
  rw [reads_iff, operand_cons] at h
  simp only [hk, read_eq_iff, reads_bind, reads_pure, reads_expect] at h
  obtain ⟨o, ts, ⟨rfl, ho⟩, c, _, hc, p, _, ⟨rfl, hp⟩, b, us, ⟨rfl, hb⟩, ss, vs, hss, a, _, ha,
    rfl, rfl⟩ := h
  obtain ⟨w, rfl, hw, _⟩ := I.whole (Nat.le_succ _) hc
  have hus : us.length ≤ (o :: (w ++ p :: b :: us)).length := by simp; omega
  have hvs : vs.length ≤ us.length := hss.length_le trims_blockBody
  obtain ⟨v, hv, hblock⟩ := I.block hb hus hss
  obtain ⟨rfl, rfl⟩ | ⟨s, u, d, rfl, hs, hd, rfl⟩ := I.elseBranch (Nat.le_trans hvs hus) ha
  · exact ⟨o :: (w ++ p :: v), by simp [hv], .cond hk ho hw hp hblock⟩
  · exact ⟨o :: (w ++ p :: (v ++ s :: u)), by simp [hv], .condElse hk ho hw hp hblock hs hd⟩

theorem function_step (I : Soundness ts.length) (hk : t.kind = .kwFn)
    (h : Reads Unbounded.operand (t :: ts) e rest) :
    ∃ w, ts = w ++ rest ∧ Expression .primary (t :: w) e := by
  rw [reads_iff, operand_cons] at h
  simp only [hk, read_eq_iff, reads_bind, reads_pure, reads_expect] at h
  obtain ⟨o, _, ⟨rfl, ho⟩, is, mid, hp, b, body, ⟨rfl, hb⟩, ss, _, hs, rfl, rfl⟩ := h
  obtain ⟨w, rfl, hw⟩ := params_sound hp
  obtain ⟨v, hv, hblock⟩ := I.block hb (by simp; omega) hs
  exact ⟨o :: (w ++ v), by simp [hv], .function hk ho hw hblock⟩

theorem array_step (I : Soundness ts.length) (hk : t.kind = .leftBracket)
    (h : Reads Unbounded.operand (t :: ts) e rest) :
    ∃ w, ts = w ++ rest ∧ Expression .primary (t :: w) e := by
  rw [reads_iff, operand_cons] at h
  simp only [hk, read_eq_iff, reads_bind, reads_pure] at h
  obtain ⟨es, mid, hx, rfl, rfl⟩ := h
  obtain ⟨w, hw, hi⟩ := I.listItems (Nat.le_refl _) (by decide) hx
  exact ⟨w, hw, .array hk hi⟩

theorem hash_step (I : Soundness ts.length) (hk : t.kind = .leftBrace)
    (h : Reads Unbounded.operand (t :: ts) e rest) :
    ∃ w, ts = w ++ rest ∧ Expression .primary (t :: w) e := by
  rw [reads_iff, operand_cons] at h
  simp only [hk, read_eq_iff, reads_bind, reads_pure] at h
  obtain ⟨ps, mid, hx, rfl, rfl⟩ := h
  obtain ⟨w, hw, hi⟩ := I.hashPairs (Nat.le_refl _) hx
  exact ⟨w, hw, .hash hk hi⟩

/-- Nothing binds tighter than a primary expression, so it may stand before any token. -/
theorem of_primary (h : ∃ w, ts = w ++ rest ∧ Expression .primary (t :: w) e) :
    ∃ w l, t :: ts = w ++ rest ∧ Expression l w e ∧ 5 ≤ l.level ∧
      (kindAt rest).precedence ≤ l.level := by
  obtain ⟨w, rfl, he⟩ := h
  exact ⟨t :: w, .primary, rfl, he, by decide,
    Nat.le_trans (TokenKind.precedence_le _) (by decide)⟩

end

theorem operand_step (ih : ∀ K < L, Soundness K) {ts rest : List Token} {e : Expr}
    (hts : ts.length ≤ L) (h : Reads Unbounded.operand ts e rest) :
    ∃ w l, ts = w ++ rest ∧ Expression l w e ∧ 5 ≤ l.level ∧
      (kindAt rest).precedence ≤ l.level := by
  cases ts with
  | nil => cases h
  | cons t ts =>
    have I := ih ts.length hts
    cases hk : t.kind with
    | identifier | string | kwTrue | kwFalse => exact of_primary (literal_step hk (by simp) h)
    | integer => exact of_primary (integer_step hk h)
    | bang | minus =>
      obtain ⟨w, rfl, hw, hp⟩ := I.unary_step (by simp [hk]) h
      exact ⟨t :: w, .unary, rfl, hw, by decide, hp⟩
    | leftParen => exact of_primary (I.group_step hk h)
    | kwIf => exact of_primary (I.cond_step hk h)
    | kwFn => exact of_primary (I.function_step hk h)
    | leftBracket => exact of_primary (I.array_step hk h)
    | leftBrace => exact of_primary (I.hash_step hk h)
    | _ => simp [reads_iff, operand_cons, hk] at h

theorem expression_step (ih : ∀ K < L, Soundness K) {prec : Nat} {ts rest : List Token} {e : Expr}
    (hts : ts.length ≤ L) (h : Reads (Unbounded.expression prec) ts e rest) :
    ∃ w l, ts = w ++ rest ∧ Expression l w e ∧ min (prec + 1) 5 ≤ l.level ∧
      (kindAt rest).precedence ≤ prec := by
  rw [expression_eq, reads_bind] at h
  obtain ⟨left, mid, hleft, hmore⟩ := h
  have hlt : mid.length < ts.length := hleft.length_lt takes_operand
  obtain ⟨w, l, rfl, hw, hl, hp⟩ := operand_step ih hts hleft
  obtain ⟨v, m, rfl, hv, hm, hq⟩ :=
    (ih mid.length (by omega)).operators (Nat.le_refl _) hw (by omega) hp hmore
  exact ⟨w ++ v, m, by simp, hv, hm, hq⟩

/-! ### The loop over operators, from the operator it takes -/

section

variable {prec : Nat} {left e : Expr} {t : Token} {ts rest w : List Token} {l : Layer}

/-- `left` goes down to the layer of the operator, and the right side stands in the next one. -/
theorem binary_step (I : Soundness ts.length) {op : BinaryOp} (hprec : prec < t.kind.precedence)
    (hop : BinaryOp.ofKind? t.kind = some op) (hw : Expression l w left)
    (hp : t.kind.precedence ≤ l.level)
    (h : Reads (Unbounded.operators prec left) (t :: ts) e rest) :
    ∃ v m, ts = v ++ rest ∧ Expression m (w ++ t :: v) e ∧ min (prec + 1) 5 ≤ m.level ∧
      (kindAt rest).precedence ≤ prec := by
  have hlevel := BinaryOp.level_layer_of_ofKind? hop
  have hfour := op.level_layer_le
  rw [reads_iff, operators_cons, if_pos hprec, hop] at h
  simp only [read_eq_iff, reads_bind] at h
  obtain ⟨r, mid, hr, hmore⟩ := h
  have hlt := hr.length_lt (takes_expression _)
  obtain ⟨v, m, rfl, hv, hm, hq⟩ := I.expression (Nat.le_refl _) hr
  have hright : Expression op.layer.inner v r := hv.loosen (by rw [op.level_inner_layer]; omega)
  have hnew := Expression.binary hop (hw.loosen (by omega)) hright
  obtain ⟨u, m', rfl, hu, hm', hq'⟩ := I.operators (by omega) hnew (by omega) (by omega) hmore
  exact ⟨v ++ u, m', by simp, by simpa using hu, hm', hq'⟩

theorem call_step (I : Soundness ts.length) (hprec : prec < t.kind.precedence)
    (hk : t.kind = .leftParen) (hw : Expression .applied w left)
    (h : Reads (Unbounded.operators prec left) (t :: ts) e rest) :
    ∃ v m, ts = v ++ rest ∧ Expression m (w ++ t :: v) e ∧ min (prec + 1) 5 ≤ m.level ∧
      (kindAt rest).precedence ≤ prec := by
  rw [reads_iff, operators_cons, if_pos hprec, hk] at h
  simp only [BinaryOp.ofKind?, if_true, read_eq_iff, reads_bind] at h
  obtain ⟨as, mid, has, hmore⟩ := h
  have hle := has.length_le (trims_listItems _)
  obtain ⟨v, rfl, hv⟩ := I.listItems (Nat.le_refl _) (by decide) has
  obtain ⟨u, m, rfl, hu, hm, hq⟩ := I.operators hle (.call hw hk hv)
    (show min (prec + 1) 5 ≤ 6 by omega) (TokenKind.precedence_le _) hmore
  exact ⟨v ++ u, m, by simp, by simpa using hu, hm, hq⟩

theorem index_step (I : Soundness ts.length) (hprec : prec < t.kind.precedence)
    (hk : t.kind = .leftBracket) (hw : Expression .applied w left)
    (h : Reads (Unbounded.operators prec left) (t :: ts) e rest) :
    ∃ v m, ts = v ++ rest ∧ Expression m (w ++ t :: v) e ∧ min (prec + 1) 5 ≤ m.level ∧
      (kindAt rest).precedence ≤ prec := by
  rw [reads_iff, operators_cons, if_pos hprec, hk] at h
  simp only [BinaryOp.ofKind?, reduceCtorEq, if_false, read_eq_iff, reads_bind, reads_expect] at h
  obtain ⟨i, mid, hi, c, _, ⟨rfl, hc⟩, hmore⟩ := h
  have hlt := hi.length_lt (takes_expression _)
  obtain ⟨v, rfl, hv, _⟩ := I.whole (Nat.le_refl _) hi
  obtain ⟨u, m, rfl, hu, hm, hq⟩ := I.operators (by simp; omega) (.index hw hk hv hc)
    (show min (prec + 1) 5 ≤ 6 by omega) (TokenKind.precedence_le _) hmore
  exact ⟨v ++ c :: u, m, by simp, by simpa using hu, hm, hq⟩

end

theorem operators_step (ih : ∀ K < L, Soundness K) {prec : Nat} {left e : Expr}
    {ts rest w : List Token} {l : Layer} (hts : ts.length ≤ L) (hw : Expression l w left)
    (hl : min (prec + 1) 5 ≤ l.level) (hp : (kindAt ts).precedence ≤ l.level)
    (h : Reads (Unbounded.operators prec left) ts e rest) :
    ∃ v m, ts = v ++ rest ∧ Expression m (w ++ v) e ∧ min (prec + 1) 5 ≤ m.level ∧
      (kindAt rest).precedence ≤ prec := by
  cases ts with
  | nil =>
    obtain ⟨rfl, rfl⟩ := reads_pure.mp h
    exact ⟨[], l, rfl, by simpa using hw, hl, Nat.zero_le _⟩
  | cons t ts =>
    have I := ih ts.length hts
    simp only [kindAt_cons] at hp
    by_cases hprec : prec < t.kind.precedence
    · have htaken : ∃ v m, ts = v ++ rest ∧ Expression m (w ++ t :: v) e ∧
          min (prec + 1) 5 ≤ m.level ∧ (kindAt rest).precedence ≤ prec := by
        cases hop : BinaryOp.ofKind? t.kind with
        | some op => exact I.binary_step hprec hop hw hp h
        | none =>
          -- Calls and indexing bind tightest, so `left` is no unary expression.
          obtain hk | hk := TokenKind.bracket_of_precedence hop (by omega)
          all_goals rw [hk] at hp
          · exact I.call_step hprec hk (hw.loosen hp) h
          · exact I.index_step hprec hk (hw.loosen hp) h
      obtain ⟨v, m, rfl, hv, hm, hq⟩ := htaken
      exact ⟨t :: v, m, rfl, hv, hm, hq⟩
    · rw [reads_iff, operators_cons, if_neg hprec] at h
      obtain ⟨rfl, rfl⟩ := reads_pure.mp h
      exact ⟨[], l, rfl, by simpa using hw, hl, by simp; omega⟩

/-! ### Statements -/

theorem ending {ts rest : List Token} (hp : (kindAt ts).precedence = 0)
    (h : Reads statementEnd ts () rest) : ∃ z, ts = z ++ rest ∧ Ending (kindAt rest) z := by
  rcases reads_statementEnd.mp h with ⟨s, hs, rfl⟩ | ⟨_, rfl⟩
  · exact ⟨[s], rfl, .semicolon hs⟩
  · exact ⟨[], rfl, .omitted (TokenKind.continuesExpr_eq_false.mpr hp)⟩

theorem let_step {t : Token} {ts rest : List Token} {s : Stmt} (I : Soundness ts.length)
    (hk : t.kind = .kwLet) (h : Reads Unbounded.statement (t :: ts) s rest) :
    ∃ w, ts = w ++ rest ∧ Statement (kindAt rest) (t :: w) s := by
  rw [reads_iff, statement_cons] at h
  simp only [hk, read_eq_iff, reads_bind] at h
  obtain ⟨name, us, hname, assign, vs, hassign, value, xs, hvalue, _, _, hend, h⟩ := h
  obtain ⟨i, rfl, hi⟩ := LoudTo.reads_attempt (LoudTo.expect _ _ _ (Nat.le_refl _)) hname
  obtain ⟨a, rfl, ha⟩ := LoudTo.reads_attempt (LoudTo.expect _ _ _ (Nat.le_refl _)) hassign
  obtain ⟨e, rfl, he⟩ := LoudTo.reads_attempt ((loudness _).expression 0 _ (Nat.le_refl _)) hvalue
  obtain ⟨rfl, hik⟩ := reads_expect.mp hi
  obtain ⟨rfl, hak⟩ := reads_expect.mp ha
  obtain ⟨rfl, rfl⟩ := reads_pure.mp h
  obtain ⟨w, rfl, hw, hp⟩ := I.whole (by simp; omega) he
  obtain ⟨z, rfl, hz⟩ := ending hp hend
  exact ⟨i :: a :: (w ++ z), by simp, .bind hk hik hak hw hz⟩

theorem return_step {t : Token} {ts rest : List Token} {s : Stmt} (I : Soundness ts.length)
    (hk : t.kind = .kwReturn) (h : Reads Unbounded.statement (t :: ts) s rest) :
    ∃ w, ts = w ++ rest ∧ Statement (kindAt rest) (t :: w) s := by
  rw [reads_iff, statement_cons, hk] at h
  dsimp only at h
  split at h
  · rename_i hnext
    simp only [read_eq_iff, reads_bind, reads_pure] at h
    obtain ⟨_, _, hend, rfl, rfl⟩ := h
    rcases reads_statementEnd.mp hend with ⟨s, hs, rfl⟩ | ⟨hn, rfl⟩
    · exact ⟨[s], rfl, .bareRetSemicolon hk hs⟩
    · exact ⟨[], rfl, .bareRet hk (hnext.resolve_left hn)⟩
  · simp only [read_eq_iff, reads_bind, reads_pure] at h
    obtain ⟨e, _, he, _, _, hend, rfl, rfl⟩ := h
    obtain ⟨w, rfl, hw, hp⟩ := I.whole (Nat.le_refl _) he
    obtain ⟨z, rfl, hz⟩ := ending hp hend
    exact ⟨w ++ z, by simp, .ret hk hw hz⟩

theorem statement_step (ih : ∀ K < L, Soundness K) {ts rest : List Token} {s : Stmt}
    (hts : ts.length ≤ L) (h : Reads Unbounded.statement ts s rest) :
    ∃ w, ts = w ++ rest ∧ Statement (kindAt rest) w s := by
  cases ts with
  | nil => cases h
  | cons t ts =>
    have I := ih ts.length hts
    by_cases hlet : t.kind = .kwLet
    · obtain ⟨w, rfl, hw⟩ := I.let_step hlet h
      exact ⟨t :: w, rfl, hw⟩
    by_cases hret : t.kind = .kwReturn
    · obtain ⟨w, rfl, hw⟩ := I.return_step hret h
      exact ⟨t :: w, rfl, hw⟩
    rw [reads_iff, statement_cons] at h
    simp only [read_eq_iff, reads_bind, reads_pure] at h
    obtain ⟨e, _, he, _, _, hend, rfl, rfl⟩ := h
    obtain ⟨w, l, hw, hphrase, hl, hp⟩ := expression_step ih hts he
    obtain ⟨z, rfl, hz⟩ := ending (Nat.le_zero.mp hp) hend
    obtain ⟨t', w, rfl, _⟩ := hphrase.starts
    obtain ⟨rfl, rfl⟩ := List.cons.inj hw
    exact ⟨t :: (w ++ z), by simp, .expr (hphrase.loosen (show 1 ≤ l.level by omega)) hz⟩

/-! ### Blocks and lists -/

theorem blockBody_step (ih : ∀ K < L, Soundness K) {ts rest : List Token} {ss : List Stmt}
    (hts : ts.length ≤ L) (h : Reads Unbounded.blockBody ts ss rest) :
    ∃ w, ts = w ++ rest ∧ Body .rightBrace w ss := by
  rw [reads_iff, blockBody_eq] at h
  split at h
  · rename_i hk
    obtain ⟨b, hb, rfl, rfl⟩ := closing (by decide) hk h
    exact ⟨[b], rfl, .done hb⟩
  split at h
  · simp at h
  · rename_i he
    cases ts with
    | nil => exact absurd rfl he
    | cons t ts =>
      simp only [read_eq_iff, reads_bind, reads_pure] at h
      obtain ⟨o, mid, ho, more, _, hmore, rfl, rfl⟩ := h
      obtain ⟨s, rfl, hs⟩ :=
        LoudTo.reads_attempt ((loudness _).statement t ts (Nat.lt_succ_self _)) ho
      have hlt := hs.length_lt takes_statement
      obtain ⟨w, hw, hstmt⟩ := statement_step ih hts hs
      obtain ⟨v, rfl, hbody⟩ := (ih mid.length (by omega)).blockBody (Nat.le_refl _) hmore
      rw [hbody.kindAt_append] at hstmt
      exact ⟨w ++ v, by rw [hw, List.append_assoc], .step hstmt hbody⟩

theorem elseBranch_step (ih : ∀ K < L, Soundness K) {ts rest : List Token} {a : Option Block}
    (hts : ts.length ≤ L) (h : Reads Unbounded.elseBranch ts a rest) :
    a = none ∧ ts = rest ∨
      ∃ s u b, a = some b ∧ s.kind = .kwElse ∧ Braced u b ∧ ts = s :: (u ++ rest) := by
  rw [reads_iff, elseBranch_eq] at h
  split at h
  · rename_i hk
    cases ts with
    | nil => cases hk
    | cons s ts =>
      simp only [List.tail_cons, read_eq_iff, reads_bind, reads_expect, reads_pure] at h
      obtain ⟨b, us, ⟨rfl, hb⟩, ss, _, hss, rfl, rfl⟩ := h
      obtain ⟨w, hw, hblock⟩ := (ih us.length (by simp at hts; omega)).block hb (Nat.le_refl _) hss
      exact .inr ⟨s, w, _, rfl, hk, hblock, by rw [hw]⟩
  · obtain ⟨rfl, rfl⟩ := reads_pure.mp h
    exact .inl ⟨rfl, rfl⟩

theorem listItems_step (ih : ∀ K < L, Soundness K) {close : TokenKind} {ts rest : List Token}
    {es : List Expr} (hts : ts.length ≤ L) (hne : close ≠ .eof)
    (h : Reads (Unbounded.listItems close) ts es rest) :
    ∃ w, ts = w ++ rest ∧ Items close w es := by
  rw [reads_iff, listItems_eq] at h
  split at h
  · rename_i hk
    obtain ⟨b, hb, rfl, rfl⟩ := closing hne hk h
    exact ⟨[b], rfl, .none hb⟩
  · simp only [read_eq_iff, reads_bind, reads_pure] at h
    obtain ⟨e, mid, he, more, _, hmore, rfl, rfl⟩ := h
    have hlt := he.length_lt (takes_expression _)
    obtain ⟨v, l, rfl, hv, hl, _⟩ := expression_step ih hts he
    have hv : Expression .equality v e := hv.loosen (show 1 ≤ l.level by omega)
    obtain ⟨w, rfl, hw⟩ := (ih mid.length (by omega)).moreItems (Nat.le_refl _) hne hv hmore
    exact ⟨v ++ w, by simp, hw⟩

theorem moreItems_step (ih : ∀ K < L, Soundness K) {close : TokenKind} {ts rest v : List Token}
    {e : Expr} {es : List Expr} (hts : ts.length ≤ L) (hne : close ≠ .eof)
    (hv : Expression .equality v e) (h : Reads (Unbounded.moreItems close) ts es rest) :
    ∃ w, ts = w ++ rest ∧ Items close (v ++ w) (e :: es) := by
  rw [reads_iff, moreItems_eq] at h
  split at h
  · rename_i hc
    cases ts with
    | nil => cases hc
    | cons c ts =>
      split at h
      · rename_i hk
        obtain ⟨b, hb, rfl, rfl⟩ := closing hne hk h
        exact ⟨[c, b], rfl, .trailing (.one hv) hc hb⟩
      · simp only [List.tail_cons, read_eq_iff, reads_bind, reads_pure] at h
        obtain ⟨e', mid, he, more, _, hmore, rfl, rfl⟩ := h
        have I := ih ts.length hts
        have hlt := he.length_lt (takes_expression _)
        obtain ⟨u, rfl, hu, _⟩ := I.whole (Nat.le_refl _) he
        obtain ⟨w, rfl, hw⟩ := I.moreItems (Nat.le_of_lt hlt) hne hu hmore
        exact ⟨c :: (u ++ w), by simp, .cons hv hc hw (by simp)⟩
  · simp only [read_eq_iff, reads_bind, reads_expect, reads_pure] at h
    obtain ⟨b, _, ⟨rfl, hb⟩, rfl, rfl⟩ := h
    exact ⟨[b], rfl, .some (.one hv) hb⟩

theorem hashPairs_step (ih : ∀ K < L, Soundness K) {ts rest : List Token}
    {ps : List (Expr × Expr)} (hts : ts.length ≤ L) (h : Reads Unbounded.hashPairs ts ps rest) :
    ∃ w, ts = w ++ rest ∧ Pairs w ps := by
  rw [reads_iff, hashPairs_eq] at h
  split at h
  · rename_i hk
    obtain ⟨b, hb, rfl, rfl⟩ := closing (by decide) hk h
    exact ⟨[b], rfl, .none hb⟩
  · simp only [read_eq_iff, reads_bind, reads_expect, reads_pure] at h
    obtain ⟨k, _, hk, s, us, ⟨rfl, hs⟩, e, vs, he, more, _, hmore, rfl, rfl⟩ := h
    have hlt := hk.length_lt (takes_expression _)
    have hlt' := he.length_lt (takes_expression _)
    simp only [List.length_cons] at hlt
    have I := ih us.length (by omega)
    obtain ⟨w, l, rfl, hw, hl, _⟩ := expression_step ih hts hk
    have hw : Expression .equality w k := hw.loosen (show 1 ≤ l.level by omega)
    obtain ⟨v, rfl, hv, _⟩ := I.whole (Nat.le_refl _) he
    obtain ⟨u, rfl, hu⟩ := I.morePairs (Nat.le_of_lt hlt') hw hs hv hmore
    exact ⟨w ++ s :: (v ++ u), by simp, hu⟩

theorem morePairs_step (ih : ∀ K < L, Soundness K) {ts rest v u : List Token} {s : Token}
    {k e : Expr} {ps : List (Expr × Expr)} (hts : ts.length ≤ L) (hk : Expression .equality v k)
    (hs : s.kind = .colon) (he : Expression .equality u e)
    (h : Reads Unbounded.morePairs ts ps rest) :
    ∃ w, ts = w ++ rest ∧ Pairs (v ++ s :: (u ++ w)) ((k, e) :: ps) := by
  rw [reads_iff, morePairs_eq] at h
  split at h
  · rename_i hbrace
    obtain ⟨b, hb, rfl, rfl⟩ := closing (by decide) hbrace h
    have hpairs := Pairs.some (.one hk hs he) hb
    exact ⟨[b], rfl, by simpa using hpairs⟩
  · have h := reads_bind.mp h
    simp only [reads_expect] at h
    obtain ⟨c, us, ⟨rfl, hc⟩, hmore⟩ := h
    obtain ⟨w, rfl, hw⟩ := (ih us.length hts).hashPairs (Nat.le_refl _) hmore
    exact ⟨c :: w, rfl, .cons hk hs he hc hw⟩

end Soundness

theorem soundness (L : Nat) : Soundness L := by
  induction L using Nat.strongRecOn with
  | ind L ih =>
    exact ⟨Soundness.operand_step ih, Soundness.expression_step ih, Soundness.operators_step ih,
      Soundness.statement_step ih, Soundness.blockBody_step ih, Soundness.elseBranch_step ih,
      Soundness.listItems_step ih, Soundness.moreItems_step ih, Soundness.hashPairs_step ih,
      Soundness.morePairs_step ih⟩

end Unbounded

end Monkey
