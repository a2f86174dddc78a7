import Monkey.Proofs.Syntax.Tree
import Monkey.Proofs.Syntax.Recursion
import Monkey.Proofs.Token.Place

/-!
Where the tokens of a tree come from. Whatever a reader returns, also after faults, keeps tokens of
the stream in the order in which they were taken, and every node is labelled by a token that means
what the node says. The invariant is about a reader in the middle of a construct: `held` is what the
construct has kept so far, and the left operand of an operator is part of that.
-/

namespace Monkey

open Monkey.Parser

variable {G : Token → Prop}

def Ident.Labelled (G : Token → Prop) (i : Ident) : Prop := G i.token ∧ i.token.kind = .identifier

/-- The token of a node means what the node says, and has the property `G`. Only blocks of
conditionals and functions are read. -/
def Part.Labelled (G : Token → Prop) : Part → Prop
  | .expr (.ident i) => i.Labelled G
  | .expr (.integer t n) => G t ∧ t.kind = .integer ∧ integer? t.text = some n
  | .expr (.boolean t b) => G t ∧ t.kind = if b then .kwTrue else .kwFalse
  | .expr (.string t s) => G t ∧ t.kind = .string ∧ s = t.text
  | .expr (.unary op t _) => G t ∧ UnaryOp.ofKind? t.kind = some op
  | .expr (.binary _ op t _) => G t ∧ BinaryOp.ofKind? t.kind = some op
  | .expr (.function f) => ∀ i ∈ f.params, i.Labelled G
  | .stmt (.bind _ name _) => name.Labelled G
  | .stmt (.block _) => False
  | _ => True

/-- What values of a type keep of a stream, and what holds of them. -/
structure Content (α : Type) where
  tokens : α → List Token
  Sound : α → Prop

namespace Content

variable {α : Type}

def nothing : Content Unit := ⟨fun _ => [], fun _ => True⟩

def option (C : Content α) : Content (Option α) :=
  ⟨fun o => o.elim [] C.tokens, fun o => ∀ a ∈ o, C.Sound a⟩

def token (G : Token → Prop) (kind : TokenKind) : Content Token :=
  ⟨fun t => [t], fun t => G t ∧ t.kind = kind⟩

def expr (G : Token → Prop) : Content Expr :=
  ⟨Expr.tokens, fun e => (Part.expr e).Everywhere (Part.Labelled G)⟩

def exprs (G : Token → Prop) : Content (List Expr) :=
  ⟨Expr.tokensAll, fun es => ∀ e ∈ es, (expr G).Sound e⟩

def pairs (G : Token → Prop) : Content (List (Expr × Expr)) :=
  ⟨Expr.tokensPairs, fun ps => ∀ p ∈ ps, (expr G).Sound p.1 ∧ (expr G).Sound p.2⟩

def stmt (G : Token → Prop) : Content Stmt :=
  ⟨Stmt.tokens, fun s => (Part.stmt s).Everywhere (Part.Labelled G)⟩

def stmts (G : Token → Prop) : Content (List Stmt) :=
  ⟨Stmt.tokensAll, fun ss => ∀ s ∈ ss, (stmt G).Sound s⟩

def block (G : Token → Prop) : Content Block :=
  ⟨Block.tokens, fun b => (Part.block b).Everywhere (Part.Labelled G)⟩

def names (G : Token → Prop) : Content (List Ident) :=
  ⟨fun is => is.map Ident.token, fun is => ∀ i ∈ is, i.Labelled G⟩

end Content

section Rules

variable {α β : Type} {C : Content α} {D : Content β} {held held' : List Token}

/-- Out of `ts`, with `held` kept before: what is kept in the end stands in `held` and in what was
taken, one behind the other. -/
def Parsed.Keeps (G : Token → Prop) (held : List Token) (C : Content α) (ts : List Token)
    (q : Parsed α) : Prop :=
  (∀ t ∈ ts, G t) →
    ∃ w, ts = w ++ q.rest ∧ ∀ a ∈ q.value, (C.tokens a).Sublist (held ++ w) ∧ C.Sound a

def Parser.Keeps (G : Token → Prop) (held : List Token) (C : Content α) (p : Parser α) : Prop :=
  ∀ ts, (p ts).Keeps G held C ts

namespace Parsed.Keeps

variable {t : Token} {ts : List Token} {q : Parsed α}

theorem none (ds : List Diagnostic) {rest : List Token} (h : rest <:+ ts) :
    Keeps G held C ts ⟨.none, rest, ds⟩ := by
  obtain ⟨w, rfl⟩ := h
  exact fun _ => ⟨w, rfl, nofun⟩

theorem some (ds : List Diagnostic) {a : α} {rest : List Token} (h : rest <:+ ts)
    (hkept : (C.tokens a).Sublist held) (hsound : C.Sound a) :
    Keeps G held C ts ⟨.some a, rest, ds⟩ := by
  obtain ⟨w, rfl⟩ := h
  intro _
  refine ⟨w, rfl, fun b hb => ?_⟩
  obtain rfl := Option.some.inj hb
  exact ⟨hkept.trans (List.sublist_append_left _ _), hsound⟩

theorem mono (hle : held.Sublist held') (h : q.Keeps G held C ts) : q.Keeps G held' C ts := by
  intro hts
  obtain ⟨w, heq, hw⟩ := h hts
  exact ⟨w, heq, fun a ha => ⟨(hw a ha).1.trans (hle.append_right w), (hw a ha).2⟩⟩

theorem cons (h : G t → q.Keeps G (held ++ [t]) C ts) : q.Keeps G held C (t :: ts) := by
  intro hts
  rw [List.forall_mem_cons] at hts
  obtain ⟨w, heq, hw⟩ := h hts.1 hts.2
  refine ⟨t :: w, by rw [heq, List.cons_append], fun a ha => ⟨?_, (hw a ha).2⟩⟩
  simpa using (hw a ha).1

theorem drop (h : q.Keeps G held C ts) : q.Keeps G held C (t :: ts) :=
  .cons fun _ => h.mono (List.sublist_append_left _ _)

theorem tail (h : q.Keeps G held C ts.tail) : q.Keeps G held C ts := by
  cases ts with
  | nil => exact h
  | cons t ts => exact h.drop

end Parsed.Keeps

namespace Parser.Keeps

theorem mono {p : Parser α} (hle : held.Sublist held') (h : p.Keeps G held C) :
    p.Keeps G held' C := fun ts => (h ts).mono hle

/-- What the first reader keeps is held while the second one goes on. -/
theorem bind {p : Parser α} {k : α → Parser β} (hp : p.Keeps G [] C)
    (hk : ∀ a, C.Sound a → (k a).Keeps G (held ++ C.tokens a) D) : (p >>= k).Keeps G held D := by
  intro ts hts
  obtain ⟨w, heq, hw⟩ := hp ts hts
  rcases h : p ts with ⟨_ | a, rest, ds⟩
  · rw [h] at heq
    rw [bind_of_none k h]
    exact ⟨w, heq, nofun⟩
  · rw [h] at heq hw
    obtain ⟨hkept, hsound⟩ := hw a rfl
    obtain ⟨w', hrest, hw'⟩ := hk a hsound rest fun t ht =>
      hts t (heq ▸ List.mem_append_right w ht)
    rw [bind_of_some k h]
    have hwhole : ts = w ++ w' ++ (k a rest).rest := by
      rw [List.append_assoc]
      exact heq.trans (congrArg (w ++ ·) hrest)
    refine ⟨w ++ w', hwhole, fun b hb => ⟨?_, (hw' b hb).2⟩⟩
    refine (hw' b hb).1.trans ?_
    rw [← List.append_assoc]
    exact (hkept.append_left held).append_right w'

theorem then_drop {p : Parser α} {q : Parser β} (hp : p.Keeps G [] C) (hq : q.Keeps G held D) :
    (p >>= fun _ => q).Keeps G held D :=
  hp.bind fun _ _ => hq.mono (List.sublist_append_left _ _)

theorem bind_at {p : Parser α} {k : α → Parser β} {ts : List Token} (hp : p.Keeps G [] C)
    (hk : ∀ a, C.Sound a → (k a).Keeps G (held ++ C.tokens a) D) :
    ((p >>= k) ts).Keeps G held D ts := hp.bind hk ts

theorem pure {b : β} (hkept : (D.tokens b).Sublist held) (hsound : D.Sound b) :
    (pure b : Parser β).Keeps G held D := fun _ => .some _ (List.suffix_refl _) hkept hsound

theorem skip : (skip : Parser β).Keeps G held D := fun _ => .none _ (List.suffix_refl _)

theorem attempt {p : Parser α} (h : p.Keeps G held C) : (attempt p).Keeps G held C.option := by
  intro ts hts
  obtain ⟨w, heq, hw⟩ := h ts hts
  refine ⟨w, heq, fun o ho => ?_⟩
  obtain rfl : (p ts).value = o := Option.some.inj ho
  cases hvalue : (p ts).value with
  | none => exact ⟨List.nil_sublist _, nofun⟩
  | some a =>
    obtain ⟨hkept, hsound⟩ := hw a hvalue
    refine ⟨hkept, fun b hb => ?_⟩
    obtain rfl := Option.some.inj hb
    exact hsound

theorem expect (kind : TokenKind) : (expect kind).Keeps G [] (.token G kind) := by
  intro ts
  cases ts with
  | nil => exact .none _ (List.suffix_refl _)
  | cons t ts =>
    by_cases hkind : t.kind = kind
    · simp only [Parser.expect, if_pos hkind]
      exact .cons fun ht => .some _ (List.suffix_refl _) (List.Sublist.refl _) ⟨ht, hkind⟩
    · simp only [Parser.expect, if_neg hkind]
      exact .none _ (List.suffix_refl _)

theorem statementEnd : statementEnd.Keeps G [] .nothing := by
  intro ts
  unfold Parser.statementEnd
  split
  · exact .some _ (List.tail_suffix ts) (List.Sublist.refl _) trivial
  · exact .some _ (List.suffix_refl ts) (List.Sublist.refl _) trivial

end Parser.Keeps

end Rules

theorem keeps_moreParams : moreParams.Keeps G [] (.names G) := by
  intro ts
  fun_induction moreParams ts with
  | case1 => exact .some _ List.nil_suffix (List.Sublist.refl _) (List.forall_mem_nil _)
  | case2 c h => exact .none _ List.nil_suffix
  | case3 c h => exact .some _ (List.suffix_refl _) (List.Sublist.refl _) (List.forall_mem_nil _)
  | case4 c i ts hc hi q ih =>
    refine .drop (.cons fun hG hts => ?_)
    obtain ⟨w, heq, hw⟩ := ih hts
    refine ⟨w, heq, fun is his => ?_⟩
    obtain ⟨more, hmore, rfl⟩ := Option.map_eq_some_iff.mp his
    obtain ⟨hkept, hsound⟩ := hw more hmore
    exact ⟨hkept.cons_cons i, List.forall_mem_cons.mpr ⟨⟨hG, hi⟩, hsound⟩⟩
  | case5 c i ts => exact .none _ (List.suffix_cons c _)
  | case6 c i ts h =>
    exact .some _ (List.suffix_refl _) (List.Sublist.refl _) (List.forall_mem_nil _)

theorem keeps_params : params.Keeps G [] (.names G) := by
  intro ts
  unfold params
  split
  · exact .some _ (List.tail_suffix ts) (List.Sublist.refl _) (List.forall_mem_nil _)
  · refine (Parser.Keeps.expect .identifier).bind_at fun t ht => keeps_moreParams.bind
      fun more hmore => (Parser.Keeps.expect .rightParen).then_drop (.pure ?_ ?_)
    · exact List.Sublist.refl _
    · exact List.forall_mem_cons.mpr ⟨ht, hmore⟩

section Readers

variable {α : Type}

def Reader.content (G : Token → Prop) : Reader α → Content α
  | .statement => .stmt G
  | .blockBody | .statements => .stmts G
  | .expression _ | .operators _ _ | .operand => .expr G
  | .elseBranch => (Content.block G).option
  | .listItems _ | .moreItems _ => .exprs G
  | .hashPairs | .morePairs => .pairs G

def Reader.held : Reader α → List Token
  | .operators _ left => left.tokens
  | _ => []

def Reader.Fed (G : Token → Prop) : Reader α → Prop
  | .operators _ left => (Content.expr G).Sound left
  | _ => True

def Answers.Keep (G : Token → Prop) (X : Answers) : Prop :=
  ∀ ⦃α : Type⦄ (r : Reader α), r.Fed G → (X.answer r).Keeps G r.held (r.content G)

theorem Part.everywhere_of_children {P : Part → Prop} {x : Part} (hx : P x)
    (h : ∀ y ∈ x.children, y.Everywhere P) : x.Everywhere P := Part.everywhere_iff.mpr ⟨hx, h⟩

theorem Content.sound_block {t : Token} {ss : List Stmt} (h : (stmts G).Sound ss) :
    (block G).Sound (.mk t ss) :=
  Part.everywhere_of_children trivial (List.forall_mem_map.mpr h)

theorem Content.sound_append {s : Option Stmt} {ss : List Stmt} (hs : (stmt G).option.Sound s)
    (hss : (stmts G).Sound ss) : (stmts G).Sound (s.toList ++ ss) := by
  intro t ht
  rcases List.mem_append.mp ht with ht | ht
  · exact hs t (Option.mem_toList.mp ht)
  · exact hss t ht

namespace Answers.Keep

variable {X : Answers}

theorem expression (h : X.Keep G) (prec : Nat) :
    (X.answer (.expression prec)).Keeps G [] (.expr G) := h (.expression prec) trivial

theorem operators (h : X.Keep G) (prec : Nat) {left : Expr} {held : List Token}
    (hleft : (Content.expr G).Sound left) (hheld : left.tokens.Sublist held) :
    (X.answer (.operators prec left)).Keeps G held (.expr G) :=
  (h (.operators prec left) hleft).mono hheld

theorem statement_turn (h : X.Keep G) : (X.turn.answer .statement).Keeps G [] (.stmt G) := by
  have ending := @Parser.Keeps.statementEnd G
  intro ts
  cases ts with
  | nil => exact .none _ (List.suffix_refl _)
  | cons t ts =>
    dsimp only [Answers.turn]
    split
    · refine .cons fun _ => (Parser.Keeps.expect .identifier).attempt.bind_at fun name hname => ?_
      refine (Parser.Keeps.expect .assign).attempt.then_drop ?_
      refine (h.expression 0).attempt.bind fun value hvalue => ending.then_drop ?_
      cases name with
      | none => exact .skip
      | some name =>
        refine .pure ?_ (Part.everywhere_of_children (hname name rfl) ?_)
        · cases value <;> exact List.Sublist.refl _
        · exact List.forall_mem_map.mpr fun e he => hvalue e (Option.mem_toList.mp he)
    · split
      · exact .cons fun _ => ending.then_drop (.pure (List.Sublist.refl _)
          (Part.everywhere_of_children trivial nofun)) ts
      · refine .cons fun _ => (h.expression 0).bind_at fun value hvalue => ending.then_drop ?_
        refine .pure (List.Sublist.refl _) (Part.everywhere_of_children trivial ?_)
        exact List.forall_mem_singleton.mpr hvalue
    · refine (h.expression 0).bind_at fun value hvalue => ending.then_drop ?_
      refine .pure (List.Sublist.refl _) (Part.everywhere_of_children trivial ?_)
      exact List.forall_mem_singleton.mpr hvalue

theorem listed_statements (h : X.Keep G) {r : Reader (List Stmt)}
    (hr : (X.answer r).Keeps G [] (.stmts G)) :
    (do
      let s ← Monkey.Parser.attempt (X.answer .statement)
      let ss ← X.answer r
      return s.toList ++ ss : Parser (List Stmt)).Keeps G [] (.stmts G) := by
  refine (h .statement trivial).attempt.bind fun s hs => hr.bind fun ss hss => .pure ?_ ?_
  · cases s <;> exact List.Sublist.refl _
  · exact Content.sound_append hs hss

theorem blockBody_turn (h : X.Keep G) : (X.turn.answer .blockBody).Keeps G [] (.stmts G) := by
  intro ts
  dsimp only [Answers.turn]
  split
  · exact .some _ (List.tail_suffix ts) (List.Sublist.refl _) (List.forall_mem_nil _)
  split
  · exact .some _ (List.tail_suffix ts) (List.Sublist.refl _) (List.forall_mem_nil _)
  · exact h.listed_statements (h .blockBody trivial) ts

theorem statements_turn (h : X.Keep G) : (X.turn.answer .statements).Keeps G [] (.stmts G) := by
  intro ts
  dsimp only [Answers.turn]
  split
  · exact .some _ (List.tail_suffix ts) (List.Sublist.refl _) (List.forall_mem_nil _)
  · exact h.listed_statements (h .statements trivial) ts

theorem expression_turn (h : X.Keep G) (prec : Nat) :
    (X.turn.answer (.expression prec)).Keeps G [] (.expr G) :=
  (h .operand trivial).bind fun _ hleft => h.operators prec hleft (List.Sublist.refl _)

/-- The left operand is held from the start; the operator and what stands behind it come next. -/
theorem operators_turn (h : X.Keep G) (prec : Nat) {left : Expr}
    (hleft : (Content.expr G).Sound left) :
    (X.turn.answer (.operators prec left)).Keeps G left.tokens (.expr G) := by
  intro ts
  cases ts with
  | nil => exact .some _ (List.suffix_refl _) (List.Sublist.refl _) hleft
  | cons t ts =>
    have whole (e : Expr) (w : List Token) (he : e.tokens = left.tokens ++ t :: w) :
        e.tokens.Sublist (left.tokens ++ [t] ++ w) := by
      rw [he, List.append_assoc, List.singleton_append]
    dsimp only [Answers.turn]
    split
    · split
      · rename_i op hop
        refine .cons fun ht => (h.expression _).bind_at fun right hright =>
          h.operators prec (Part.everywhere_of_children ⟨ht, hop⟩ ?_) (whole _ _ rfl)
        exact List.forall_mem_cons.mpr ⟨hleft, List.forall_mem_singleton.mpr hright⟩
      split
      · refine .cons fun _ => (h (.listItems .rightParen) trivial).bind_at fun args hargs =>
          h.operators prec (Part.everywhere_of_children trivial ?_) (whole _ _ rfl)
        exact List.forall_mem_cons.mpr ⟨hleft, List.forall_mem_map.mpr hargs⟩
      · refine .cons fun _ => (h.expression 0).bind_at fun position hposition =>
          (Parser.Keeps.expect .rightBracket).then_drop
            (h.operators prec (Part.everywhere_of_children trivial ?_) (whole _ _ rfl))
        exact List.forall_mem_cons.mpr ⟨hleft, List.forall_mem_singleton.mpr hposition⟩
    · exact .some _ (List.suffix_refl _) (List.Sublist.refl _) hleft

theorem leaf_keeps {t : Token} {ts : List Token} {e : Expr} (htokens : e.tokens = [t])
    (hlabel : G t → (Part.expr e).Labelled G) (hchildren : (Part.expr e).children = []) :
    (⟨some e, ts, []⟩ : Parsed Expr).Keeps G [] (.expr G) (t :: ts) := by
  refine .cons fun ht => .some _ (List.suffix_refl _) ?_ ?_
  · exact htokens ▸ List.Sublist.refl _
  · exact Part.everywhere_of_children (hlabel ht) (by simp [hchildren])

theorem unary_keeps (h : X.Keep G) {op : UnaryOp} {t : Token}
    (hop : UnaryOp.ofKind? t.kind = some op) (ts : List Token) :
    ((do return .unary op t (← X.answer (.expression unaryPrecedence)) : Parser Expr) ts).Keeps
      G [] (.expr G) (t :: ts) := by
  refine .cons fun ht => (h.expression _).bind_at fun e he =>
    .pure (List.Sublist.refl _) (Part.everywhere_of_children ⟨ht, hop⟩ ?_)
  exact List.forall_mem_singleton.mpr he

theorem cond_keeps (h : X.Keep G) (t : Token) (ts : List Token) :
    ((do
      let _ ← expect .leftParen
      let condition ← X.answer (.expression 0)
      let _ ← expect .rightParen
      let brace ← expect .leftBrace
      let consequence ← X.answer .blockBody
      let alternative ← X.answer .elseBranch
      return .cond t condition (.mk brace consequence) alternative : Parser Expr) ts).Keeps
      G [] (.expr G) (t :: ts) := by
  refine .cons fun _ => (Parser.Keeps.expect .leftParen).then_drop ?_ ts
  refine (h.expression 0).bind fun c hc => (Parser.Keeps.expect .rightParen).then_drop ?_
  refine (Parser.Keeps.expect .leftBrace).bind fun brace _ => ?_
  refine (h .blockBody trivial).bind fun b hb => (h .elseBranch trivial).bind fun a ha => ?_
  refine .pure ?_ (Part.everywhere_of_children trivial ?_)
  · cases a <;> simp [Reader.content, Content.option, Content.expr, Content.stmts,
      Content.token, Content.block, Expr.tokens, Block.tokens]
  · refine List.forall_mem_cons.mpr ⟨hc, List.forall_mem_cons.mpr ⟨Content.sound_block hb, ?_⟩⟩
    exact List.forall_mem_map.mpr fun b hb => ha b (Option.mem_toList.mp hb)

theorem function_keeps (h : X.Keep G) (t : Token) (ts : List Token) :
    ((do
      let _ ← expect .leftParen
      let ps ← params
      let brace ← expect .leftBrace
      let body ← X.answer .blockBody
      return .function (.mk t ps (.mk brace body)) : Parser Expr) ts).Keeps
      G [] (.expr G) (t :: ts) := by
  refine .cons fun _ => (Parser.Keeps.expect .leftParen).then_drop ?_ ts
  refine keeps_params.bind fun ps hps => (Parser.Keeps.expect .leftBrace).bind fun brace _ => ?_
  refine (h .blockBody trivial).bind fun b hb => ?_
  refine .pure ?_ (Part.everywhere_of_children hps ?_)
  · simp [Reader.content, Content.names, Content.expr, Content.stmts, Content.token,
      Expr.tokens, Lambda.tokens, Block.tokens]
  · exact List.forall_mem_singleton.mpr (Content.sound_block hb)

theorem hash_keeps (h : X.Keep G) (t : Token) (ts : List Token) :
    ((do return .hash t (← X.answer .hashPairs) : Parser Expr) ts).Keeps
      G [] (.expr G) (t :: ts) := by
  refine .cons fun _ => (h .hashPairs trivial).bind_at fun ps hps =>
    .pure (List.Sublist.refl _) (Part.everywhere_of_children trivial ?_)
  intro y hy
  obtain ⟨p, hp, hy⟩ := List.mem_flatMap.mp hy
  have hpair : ∀ y ∈ [Part.expr p.1, Part.expr p.2], y.Everywhere (Part.Labelled G) :=
    List.forall_mem_cons.mpr ⟨(hps p hp).1, List.forall_mem_singleton.mpr (hps p hp).2⟩
  exact hpair y hy

theorem operand_turn (h : X.Keep G) : (X.turn.answer .operand).Keeps G [] (.expr G) := by
  intro ts
  cases ts with
  | nil => exact .none _ (List.suffix_refl _)
  | cons t ts =>
    dsimp only [Answers.turn]
    split
    case h_1 hkind => exact leaf_keeps rfl (fun ht => ⟨ht, hkind⟩) rfl
    case h_2 hkind =>
      split
      · rename_i n hn
        exact leaf_keeps rfl (fun ht => ⟨ht, hkind, hn⟩) rfl
      · exact .none _ (List.suffix_cons t ts)
    case h_3 hkind => exact leaf_keeps rfl (fun ht => ⟨ht, hkind, rfl⟩) rfl
    case h_4 hkind => exact leaf_keeps rfl (fun ht => ⟨ht, hkind⟩) rfl
    case h_5 hkind => exact leaf_keeps rfl (fun ht => ⟨ht, hkind⟩) rfl
    case h_6 hkind => exact h.unary_keeps (by rw [hkind]; rfl) ts
    case h_7 hkind => exact h.unary_keeps (by rw [hkind]; rfl) ts
    case h_8 =>
      exact .drop ((h.expression 0).bind_at fun e he =>
        (Parser.Keeps.expect .rightParen).then_drop (.pure (List.Sublist.refl _) he))
    case h_9 => exact h.cond_keeps t ts
    case h_10 => exact h.function_keeps t ts
    case h_11 =>
      refine .cons fun _ => (h (.listItems .rightBracket) trivial).bind_at fun es hes =>
        .pure (List.Sublist.refl _) (Part.everywhere_of_children trivial ?_)
      exact List.forall_mem_map.mpr hes
    case h_12 => exact h.hash_keeps t ts
    case h_13 => exact .none _ (List.suffix_cons t ts)

theorem elseBranch_turn (h : X.Keep G) :
    (X.turn.answer .elseBranch).Keeps G [] (Content.block G).option := by
  intro ts
  dsimp only [Answers.turn]
  split
  · refine .tail ((Parser.Keeps.expect .leftBrace).bind_at fun brace _ =>
      (h .blockBody trivial).bind fun b hb => .pure (List.Sublist.refl _) ?_)
    intro _ hblock
    obtain rfl := Option.some.inj hblock
    exact Content.sound_block hb
  · exact .some _ (List.suffix_refl _) (List.Sublist.refl _) nofun

theorem item_step (h : X.Keep G) (close : TokenKind) :
    (do
      let e ← X.answer (.expression 0)
      let es ← X.answer (.moreItems close)
      return e :: es : Parser (List Expr)).Keeps G [] (.exprs G) :=
  (h.expression 0).bind fun _ he => (h (.moreItems close) trivial).bind fun _ hes =>
    .pure (List.Sublist.refl _) (List.forall_mem_cons.mpr ⟨he, hes⟩)

theorem listItems_turn (h : X.Keep G) (close : TokenKind) :
    (X.turn.answer (.listItems close)).Keeps G [] (.exprs G) := by
  intro ts
  dsimp only [Answers.turn]
  split
  · exact .some _ (List.tail_suffix ts) (List.Sublist.refl _) (List.forall_mem_nil _)
  · exact h.item_step close ts

theorem moreItems_turn (h : X.Keep G) (close : TokenKind) :
    (X.turn.answer (.moreItems close)).Keeps G [] (.exprs G) := by
  intro ts
  dsimp only [Answers.turn]
  split
  · split
    · refine .some _ ?_ (List.Sublist.refl _) (List.forall_mem_nil _)
      exact (List.tail_suffix _).trans (List.tail_suffix ts)
    · exact .tail (h.item_step close ts.tail)
  · exact (Parser.Keeps.expect close).then_drop
      (.pure (List.Sublist.refl _) (List.forall_mem_nil _)) ts

theorem hashPairs_turn (h : X.Keep G) : (X.turn.answer .hashPairs).Keeps G [] (.pairs G) := by
  intro ts
  dsimp only [Answers.turn]
  split
  · exact .some _ (List.tail_suffix ts) (List.Sublist.refl _) (List.forall_mem_nil _)
  · refine (h.expression 0).bind_at fun k hk => (Parser.Keeps.expect .colon).then_drop ?_
    refine (h.expression 0).bind fun v hv => (h .morePairs trivial).bind fun ps hps => ?_
    refine .pure ?_ (List.forall_mem_cons.mpr ⟨⟨hk, hv⟩, hps⟩)
    simp [Reader.content, Content.pairs, Content.expr, Expr.tokensPairs]

theorem morePairs_turn (h : X.Keep G) : (X.turn.answer .morePairs).Keeps G [] (.pairs G) := by
  intro ts
  dsimp only [Answers.turn]
  split
  · exact .some _ (List.tail_suffix ts) (List.Sublist.refl _) (List.forall_mem_nil _)
  · exact (Parser.Keeps.expect .comma).then_drop (h .hashPairs trivial) ts

theorem turn (h : X.Keep G) : X.turn.Keep G := by
  intro α r hr
  cases r with
  | statement => exact h.statement_turn
  | blockBody => exact h.blockBody_turn
  | expression prec => exact h.expression_turn prec
  | operators prec left => exact h.operators_turn prec hr
  | operand => exact h.operand_turn
  | elseBranch => exact h.elseBranch_turn
  | listItems close => exact h.listItems_turn close
  | moreItems close => exact h.moreItems_turn close
  | hashPairs => exact h.hashPairs_turn
  | morePairs => exact h.morePairs_turn
  | statements => exact h.statements_turn

end Answers.Keep

theorem readers_keep (n : Nat) : (readers n).Keep G := by
  induction n with
  | zero =>
    intro α r _
    cases r <;> exact .skip
  | succ n ih =>
    rw [readers_succ]
    exact ih.turn

end Readers

/-- Out of any stream, the program keeps tokens in the order of the stream, and each of its nodes is
labelled by tokens of the stream. -/
theorem parseTokens_keeps {ts : List Token} (hG : ∀ t ∈ ts, G t) :
    (parseTokens ts).1.tokens.Sublist ts ∧
      ∀ x, (parseTokens ts).1.Contains x → x.Labelled G := by
  obtain ⟨w, hts, hw⟩ := readers_keep (parseBudget ts.length) .statements trivial ts hG
  have hprefix : w <+: ts := ⟨_, hts.symm⟩
  have hprogram : (parseTokens ts).1 =
      ⟨(statements (parseBudget ts.length) ts).value.getD []⟩ := rfl
  rw [hprogram]
  cases hvalue : (statements (parseBudget ts.length) ts).value with
  | none =>
    refine ⟨List.nil_sublist _, ?_⟩
    rintro x ⟨s, hs, -⟩
    cases hs
  | some ss =>
    obtain ⟨hkept, hsound⟩ := hw ss hvalue
    refine ⟨hkept.trans hprefix.sublist, ?_⟩
    rintro x ⟨s, hs, hx⟩
    exact hsound s hs x hx

/-- The tokens of a tree, listed in the order of the source, are a subsequence of the token stream,
whether or not the source has faults; so they stand at places that come one after the other, and
none is listed twice. -/
theorem tree_keeps_token_order (source : String) :
    (parse source).1.tokens.Sublist (tokenize source) ∧
      (parse source).1.tokens.Pairwise fun t u => t.span.first.Before u.span.first := by
  have hkept : (parse source).1.tokens.Sublist (tokenize source) :=
    (parseTokens_keeps fun t ht => ht).1
  exact ⟨hkept, (Lexical.tokenize_ordered source).sublist hkept⟩

end Monkey
