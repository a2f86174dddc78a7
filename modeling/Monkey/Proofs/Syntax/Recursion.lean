import Mathlib.Logic.Function.Iterate
import Monkey.Proofs.Syntax.Progress

/-!
The recursion of the readers ends. A turn of it says what a reader does, given answers to the calls
that it makes; these are calls on fewer tokens, or on the same tokens and of a reader of lower rank.
So after as many turns as a call weighs, it does not matter any more what the recursion was started
from, and what the readers do within their budget is what they do without one.
-/

namespace Monkey

open Monkey.Parser

inductive Reader : Type → Type where
  | statement : Reader Stmt
  | blockBody : Reader (List Stmt)
  | expression (prec : Nat) : Reader Expr
  | operators (prec : Nat) (left : Expr) : Reader Expr
  | operand : Reader Expr
  | elseBranch : Reader (Option Block)
  | listItems (close : TokenKind) : Reader (List Expr)
  | moreItems (close : TokenKind) : Reader (List Expr)
  | hashPairs : Reader (List (Expr × Expr))
  | morePairs : Reader (List (Expr × Expr))
  | statements : Reader (List Stmt)

structure Answers where
  answer : {α : Type} → Reader α → Parser α

def readers (n : Nat) : Answers where
  answer
    | .statement => statement n
    | .blockBody => blockBody n
    | .expression prec => expression n prec
    | .operators prec left => operators n prec left
    | .operand => operand n
    | .elseBranch => elseBranch n
    | .listItems close => listItems n close
    | .moreItems close => moreItems n close
    | .hashPairs => hashPairs n
    | .morePairs => morePairs n
    | .statements => statements n

/-- One turn of the recursion: what the readers do when the calls that they make are answered as
given. -/
def Answers.turn (X : Answers) : Answers where
  answer
    | .statement => fun
      | [] => ⟨none, [], []⟩
      | t :: ts => match t.kind with
        | .kwLet => read ts do
            let name ← attempt (expect .identifier)
            let _ ← attempt (expect .assign)
            let value ← attempt (X.answer (.expression 0))
            statementEnd
            match name with
            | some name => return .bind t ⟨name⟩ value
            | none => skip
        | .kwReturn =>
          if kindAt ts = .semicolon ∨ kindAt ts = .rightBrace ∨ kindAt ts = .eof then read ts do
            statementEnd
            return .ret t none
          else read ts do
            let value ← X.answer (.expression 0)
            statementEnd
            return .ret t (some value)
        | _ => read (t :: ts) do
            let value ← X.answer (.expression 0)
            statementEnd
            return .expr t value
    | .blockBody => fun ts =>
      if kindAt ts = .rightBrace then ⟨some [], ts.tail, []⟩
      else if kindAt ts = .eof then
        ⟨some [], ts.tail, [⟨.expected .rightBrace .eof, ts.length⟩]⟩
      else read ts do
        let s ← attempt (X.answer .statement)
        let ss ← X.answer .blockBody
        return s.toList ++ ss
    | .expression prec => do
      let left ← X.answer .operand
      X.answer (.operators prec left)
    | .operators prec left => fun
      | [] => ⟨some left, [], []⟩
      | t :: ts =>
        if prec < t.kind.precedence then
          match BinaryOp.ofKind? t.kind with
          | some op => read ts do
              let right ← X.answer (.expression t.kind.precedence)
              X.answer (.operators prec (.binary left op t right))
          | none =>
            if t.kind = .leftParen then read ts do
              let args ← X.answer (.listItems .rightParen)
              X.answer (.operators prec (.call left t args))
            else read ts do
              let position ← X.answer (.expression 0)
              let _ ← expect .rightBracket
              X.answer (.operators prec (.index left t position))
        else ⟨some left, t :: ts, []⟩
    | .operand => fun
      | [] => ⟨none, [], [⟨.noExpression "EOF", 0⟩]⟩
      | t :: ts => match t.kind with
        | .identifier => ⟨some (.ident ⟨t⟩), ts, []⟩
        | .integer => match integer? t.text with
          | some value => ⟨some (.integer t value), ts, []⟩
          | none => ⟨none, ts, [⟨.integerRange t.text, ts.length + 1⟩]⟩
        | .string => ⟨some (.string t t.text), ts, []⟩
        | .kwTrue => ⟨some (.boolean t true), ts, []⟩
        | .kwFalse => ⟨some (.boolean t false), ts, []⟩
        | .bang => read ts do return .unary .not t (← X.answer (.expression unaryPrecedence))
        | .minus => read ts do return .unary .neg t (← X.answer (.expression unaryPrecedence))
        | .leftParen => read ts do
            let e ← X.answer (.expression 0)
            let _ ← expect .rightParen
            return e
        | .kwIf => read ts do
            let _ ← expect .leftParen
            let condition ← X.answer (.expression 0)
            let _ ← expect .rightParen
            let brace ← expect .leftBrace
            let consequence ← X.answer .blockBody
            let alternative ← X.answer .elseBranch
            return .cond t condition (.mk brace consequence) alternative
        | .kwFn => read ts do
            let _ ← expect .leftParen
            let ps ← params
            let brace ← expect .leftBrace
            let body ← X.answer .blockBody
            return .function (.mk t ps (.mk brace body))
        | .leftBracket => read ts do return .array t (← X.answer (.listItems .rightBracket))
        | .leftBrace => read ts do return .hash t (← X.answer .hashPairs)
        | _ => ⟨none, ts, [⟨.noExpression t.render, ts.length + 1⟩]⟩
    | .elseBranch => fun ts =>
      if kindAt ts = .kwElse then read ts.tail do
        let brace ← expect .leftBrace
        let body ← X.answer .blockBody
        return some (.mk brace body)
      else ⟨some none, ts, []⟩
    | .listItems close => fun ts =>
      if kindAt ts = close then ⟨some [], ts.tail, []⟩
      else read ts do
        let e ← X.answer (.expression 0)
        let es ← X.answer (.moreItems close)
        return e :: es
    | .moreItems close => fun ts =>
      if kindAt ts = .comma then
        if kindAt ts.tail = close then ⟨some [], ts.tail.tail, []⟩
        else read ts.tail do
          let e ← X.answer (.expression 0)
          let es ← X.answer (.moreItems close)
          return e :: es
      else read ts do
        let _ ← expect close
        return []
    | .hashPairs => fun ts =>
      if kindAt ts = .rightBrace then ⟨some [], ts.tail, []⟩
      else read ts do
        let key ← X.answer (.expression 0)
        let _ ← expect .colon
        let value ← X.answer (.expression 0)
        let more ← X.answer .morePairs
        return (key, value) :: more
    | .morePairs => fun ts =>
      if kindAt ts = .rightBrace then ⟨some [], ts.tail, []⟩
      else read ts do
        let _ ← expect .comma
        X.answer .hashPairs
    | .statements => fun ts =>
      if kindAt ts = .eof then ⟨some [], ts.tail, []⟩
      else read ts do
        let s ← attempt (X.answer .statement)
        let ss ← X.answer .statements
        return s.toList ++ ss

/-- A budget counts the turns. -/
theorem readers_succ (n : Nat) : readers (n + 1) = (readers n).turn := by
  refine congrArg Answers.mk ?_
  funext α r ts
  cases r <;> rfl

namespace Reader

variable {α β : Type}

def rank : Reader α → Nat
  | .operand => 0
  | .expression _ => 1
  | .statement => 2
  | _ => 3

theorem rank_le (r : Reader α) : r.rank ≤ 3 := by
  cases r <;> simp [rank]

/-- What a call weighs. Ranks are below four, so it is the number of tokens that counts, and between
calls on as many tokens the rank. -/
def weight (r : Reader α) (ts : List Token) : Nat := 4 * ts.length + r.rank

theorem weight_lt_iff (c : Reader β) (us : List Token) (r : Reader α) (ts : List Token) :
    c.weight us < r.weight ts ↔
      us.length < ts.length ∨ us.length = ts.length ∧ c.rank < r.rank := by
  have hr := r.rank_le
  have hc := c.rank_le
  unfold weight
  constructor
  · intro h
    omega
  · rintro (h | ⟨h, hrank⟩)
    · omega
    · omega

/-- What is left is an end of the stream. A reader of operands, expressions or statements also takes
the first token, whatever comes of it, and fails if there is none. -/
structure Leaves (r : Reader α) (ts : List Token) (q : Parsed α) : Prop where
  rest : q.rest <:+ ts
  takes : r.rank < 3 → q.rest <:+ ts.tail
  fails : r.rank < 3 → ts = [] → q.value = none

end Reader

def Answers.SureBelow (k : Nat) (X Y : Answers) : Prop :=
  ∀ ⦃α : Type⦄ (r : Reader α) (ts : List Token), r.weight ts < k →
    X.answer r ts = Y.answer r ts ∧ r.Leaves ts (X.answer r ts)

namespace Parser

variable {α β : Type}

def SureAt (ts us : List Token) (p q : Parser α) : Prop := p ts = q ts ∧ (p ts).rest <:+ us

def Sure (L : Nat) (p q : Parser α) : Prop := ∀ ts, ts.length ≤ L → SureAt ts ts p q

theorem Trims.sure {p : Parser α} (h : Trims p) (L : Nat) : Sure L p p := by
  intro ts _
  exact ⟨rfl, h ts⟩

theorem SureAt.bind {p q : Parser α} {f g : α → Parser β} {ts us : List Token}
    (hp : SureAt ts us p q)
    (hf : ∀ a, (p ts).value = some a → Sure (p ts).rest.length (f a) (g a)) :
    SureAt ts us (p >>= f) (q >>= g) := by
  obtain ⟨heq, hrest⟩ := hp
  rcases h : p ts with ⟨_ | a, rest, ds⟩
  · rw [h] at heq hrest
    constructor
    · rw [bind_of_none f h, bind_of_none g heq.symm]
    · rw [bind_of_none f h]
      exact hrest
  · rw [h] at heq hrest hf
    obtain ⟨hsame, hend⟩ := hf a rfl rest (Nat.le_refl _)
    constructor
    · rw [bind_of_some f h, bind_of_some g heq.symm, hsame]
    · rw [bind_of_some f h]
      exact hend.trans hrest

theorem SureAt.attempt {p q : Parser α} {ts us : List Token} (h : SureAt ts us p q) :
    SureAt ts us (attempt p) (attempt q) := by
  obtain ⟨heq, hrest⟩ := h
  refine ⟨?_, hrest⟩
  simp only [Parser.attempt, heq]

theorem SureAt.trans_suffix {p q : Parser α} {ts us vs : List Token} (h : SureAt ts us p q)
    (hus : us <:+ vs) : SureAt ts vs p q := ⟨h.1, h.2.trans hus⟩

theorem Sure.bind {L : Nat} {p q : Parser α} {f g : α → Parser β} (hp : Sure L p q)
    (hf : ∀ a, Sure L (f a) (g a)) : Sure L (p >>= f) (q >>= g) := by
  intro ts hts
  refine (hp ts hts).bind fun a _ us hus => hf a us ?_
  have hrest := (hp ts hts).2.length_le
  omega

theorem Sure.attempt {L : Nat} {p q : Parser α} (h : Sure L p q) :
    Sure L (attempt p) (attempt q) := fun ts hts => (h ts hts).attempt

theorem expect_length_lt {kind : TokenKind} {ts : List Token} {t : Token}
    (h : (expect kind ts).value = some t) : (expect kind ts).rest.length < ts.length := by
  cases ts with
  | nil => cases h
  | cons c ts =>
    simp only [expect] at h ⊢
    split at h
    · rw [if_pos (by assumption)]
      exact Nat.lt_succ_self _
    · cases h

theorem bind_value_none {p : Parser α} (f : α → Parser β) {ts : List Token}
    (h : (p ts).value = none) : ((p >>= f) ts).value = none := by
  rcases hp : p ts with ⟨_ | a, rest, ds⟩
  · rw [bind_of_none f hp]
  · rw [hp] at h
    cases h

end Parser

namespace Answers.SureBelow

variable {α β γ : Type} {X Y : Answers} {ts : List Token}

theorem mono {j k : Nat} (h : SureBelow k X Y) (hjk : j ≤ k) : SureBelow j X Y := by
  intro α r ts hts
  exact h r ts (Nat.lt_of_lt_of_le hts hjk)

/-- On fewer tokens, calls of all readers are answered alike. -/
theorem called {r : Reader α} (h : SureBelow (r.weight ts) X Y) {L : Nat} (hL : L < ts.length)
    (c : Reader β) : Sure L (X.answer c) (Y.answer c) := by
  intro us hus
  have hweight : c.weight us < r.weight ts :=
    (c.weight_lt_iff us r ts).mpr (.inl (Nat.lt_of_le_of_lt hus hL))
  obtain ⟨heq, hleaves⟩ := h c us hweight
  exact ⟨heq, hleaves.rest⟩

/-- On the same tokens, calls of readers of lower rank are; each of these takes a token. -/
theorem called_first {r : Reader α} (h : SureBelow (r.weight ts) X Y) (c : Reader β)
    (hrank : c.rank < r.rank) :
    SureAt ts ts.tail (X.answer c) (Y.answer c) ∧ (ts = [] → (X.answer c ts).value = none) := by
  have hweight : c.weight ts < r.weight ts := (c.weight_lt_iff ts r ts).mpr (.inr ⟨rfl, hrank⟩)
  have htakes : c.rank < 3 := Nat.lt_of_lt_of_le hrank r.rank_le
  obtain ⟨heq, hleaves⟩ := h c ts hweight
  exact ⟨⟨heq, hleaves.takes htakes⟩, hleaves.fails htakes⟩

theorem bind_first {r : Reader α} (h : SureBelow (r.weight ts) X Y) (c : Reader β)
    (hrank : c.rank < r.rank) {f g : β → Parser γ}
    (hf : ∀ a, ∀ L < ts.length, Sure L (f a) (g a)) :
    SureAt ts ts.tail (X.answer c >>= f) (Y.answer c >>= g) := by
  obtain ⟨hsure, hfails⟩ := h.called_first c hrank
  refine hsure.bind fun a ha => ?_
  have hlength := hsure.2.length_le
  cases ts with
  | nil =>
    rw [hfails rfl] at ha
    cases ha
  | cons t ts => exact hf a _ (Nat.lt_succ_of_le hlength)

theorem operand_turn (h : SureBelow (Reader.weight .operand ts) X Y) :
    SureAt ts ts.tail (X.turn.answer .operand) (Y.turn.answer .operand) := by
  cases ts with
  | nil => exact ⟨rfl, List.suffix_refl _⟩
  | cons t ts =>
    have called {α : Type} (c : Reader α) := h.called (Nat.lt_succ_self ts.length) c
    have hexpect (kind : TokenKind) := (trims_expect kind).sure ts.length
    have hpure {α : Type} (a : α) := (trims_pure a).sure ts.length
    have hl := Nat.le_refl ts.length
    unfold SureAt
    simp only [Answers.turn, List.tail_cons]
    split
    · exact ⟨rfl, List.suffix_refl _⟩
    · split <;> exact ⟨rfl, List.suffix_refl _⟩
    · exact ⟨rfl, List.suffix_refl _⟩
    · exact ⟨rfl, List.suffix_refl _⟩
    · exact ⟨rfl, List.suffix_refl _⟩
    · exact (called _).bind (fun _ => hpure _) ts hl
    · exact (called _).bind (fun _ => hpure _) ts hl
    · exact (called _).bind (fun _ => (hexpect _).bind fun _ => hpure _) ts hl
    · exact (hexpect _).bind (fun _ => (called _).bind fun _ => (hexpect _).bind fun _ =>
        (hexpect _).bind fun _ => (called _).bind fun _ => (called _).bind fun _ => hpure _) ts hl
    · exact (hexpect _).bind (fun _ => (trims_params.sure _).bind fun _ => (hexpect _).bind fun _ =>
        (called _).bind fun _ => hpure _) ts hl
    · exact (called _).bind (fun _ => hpure _) ts hl
    · exact (called _).bind (fun _ => hpure _) ts hl
    · exact ⟨rfl, List.suffix_refl _⟩

theorem expression_turn {prec : Nat} (h : SureBelow (Reader.weight (.expression prec) ts) X Y) :
    SureAt ts ts.tail (X.turn.answer (.expression prec)) (Y.turn.answer (.expression prec)) :=
  h.bind_first .operand Nat.one_pos fun left _ hL => h.called hL (.operators prec left)

theorem statement_turn (h : SureBelow (Reader.weight .statement ts) X Y) :
    SureAt ts ts.tail (X.turn.answer .statement) (Y.turn.answer .statement) := by
  cases ts with
  | nil => exact ⟨rfl, List.suffix_refl _⟩
  | cons t ts =>
    have hexpression := h.called (Nat.lt_succ_self ts.length) (.expression 0)
    have hexpect (kind : TokenKind) := (trims_expect kind).sure ts.length
    have hend (L : Nat) := trims_statementEnd.sure L
    have hpure {α : Type} (a : α) (L : Nat) := (trims_pure a).sure L
    have hl := Nat.le_refl ts.length
    unfold SureAt
    simp only [Answers.turn, List.tail_cons]
    split
    · refine (hexpect _).attempt.bind (fun name => (hexpect _).attempt.bind fun _ =>
        hexpression.attempt.bind fun _ => (hend _).bind fun _ => ?_) ts hl
      cases name with
      | none => exact trims_skip.sure _
      | some name => exact hpure _ _
    · split
      · exact (hend _).bind (fun _ => hpure _ _) ts hl
      · exact hexpression.bind (fun _ => (hend _).bind fun _ => hpure _ _) ts hl
    · exact h.bind_first (.expression 0) (by decide) fun _ L _ =>
        (hend L).bind fun _ => hpure _ L

/-- In a loop over statements, each of them takes a token, whether it is read or not. -/
theorem loop_turn {loop : Reader (List Stmt)} (h : SureBelow (loop.weight ts) X Y)
    (hrank : Reader.rank .statement < loop.rank) (hk : kindAt ts ≠ .eof) :
    SureAt ts ts
      (do let s ← attempt (X.answer .statement)
          let ss ← X.answer loop
          return s.toList ++ ss)
      (do let s ← attempt (Y.answer .statement)
          let ss ← Y.answer loop
          return s.toList ++ ss) := by
  cases ts with
  | nil => exact absurd rfl hk
  | cons t ts =>
    obtain ⟨hstatement, -⟩ := h.called_first .statement hrank
    have hlength := hstatement.2.length_le
    refine (hstatement.trans_suffix (List.suffix_cons t ts)).attempt.bind fun s _ => ?_
    refine Sure.bind ?_ fun _ => (trims_pure _).sure _
    exact h.called (Nat.lt_succ_of_le hlength) loop

theorem blockBody_turn (h : SureBelow (Reader.weight .blockBody ts) X Y) :
    SureAt ts ts (X.turn.answer .blockBody) (Y.turn.answer .blockBody) := by
  unfold SureAt
  simp only [Answers.turn]
  split
  · exact ⟨rfl, List.tail_suffix ts⟩
  split
  · exact ⟨rfl, List.tail_suffix ts⟩
  · rename_i hk
    exact h.loop_turn (by decide) hk

theorem statements_turn (h : SureBelow (Reader.weight .statements ts) X Y) :
    SureAt ts ts (X.turn.answer .statements) (Y.turn.answer .statements) := by
  unfold SureAt
  simp only [Answers.turn]
  split
  · exact ⟨rfl, List.tail_suffix ts⟩
  · rename_i hk
    exact h.loop_turn (by decide) hk

theorem operators_turn {prec : Nat} {left : Expr}
    (h : SureBelow (Reader.weight (.operators prec left) ts) X Y) :
    SureAt ts ts (X.turn.answer (.operators prec left)) (Y.turn.answer (.operators prec left)) := by
  cases ts with
  | nil => exact ⟨rfl, List.suffix_refl _⟩
  | cons t ts =>
    have called {α : Type} (c : Reader α) := h.called (Nat.lt_succ_self ts.length) c
    have hl := Nat.le_refl ts.length
    have hsuffix := List.suffix_cons t ts
    unfold SureAt
    simp only [Answers.turn]
    split
    · split
      · exact ((called _).bind (fun _ => called _) ts hl).trans_suffix hsuffix
      split
      · exact ((called _).bind (fun _ => called _) ts hl).trans_suffix hsuffix
      · exact ((called _).bind (fun _ => ((trims_expect _).sure _).bind fun _ => called _)
          ts hl).trans_suffix hsuffix
    · exact ⟨rfl, List.suffix_refl _⟩

theorem elseBranch_turn (h : SureBelow (Reader.weight .elseBranch ts) X Y) :
    SureAt ts ts (X.turn.answer .elseBranch) (Y.turn.answer .elseBranch) := by
  cases ts with
  | nil => exact ⟨rfl, List.suffix_refl _⟩
  | cons t ts =>
    have hbody := h.called (Nat.lt_succ_self ts.length) .blockBody
    unfold SureAt
    simp only [Answers.turn, List.tail_cons]
    split
    · exact (((trims_expect _).sure _).bind (fun _ => hbody.bind fun _ => (trims_pure _).sure _)
        ts (Nat.le_refl _)).trans_suffix (List.suffix_cons t ts)
    · exact ⟨rfl, List.suffix_refl _⟩

theorem listItems_turn {close : TokenKind}
    (h : SureBelow (Reader.weight (.listItems close) ts) X Y) :
    SureAt ts ts (X.turn.answer (.listItems close)) (Y.turn.answer (.listItems close)) := by
  unfold SureAt
  simp only [Answers.turn]
  split
  · exact ⟨rfl, List.tail_suffix ts⟩
  · refine SureAt.trans_suffix ?_ (List.tail_suffix ts)
    exact h.bind_first (.expression 0) (by simp [Reader.rank]) fun _ L hL =>
      (h.called hL (.moreItems close)).bind fun _ => (trims_pure _).sure L

theorem moreItems_turn {close : TokenKind}
    (h : SureBelow (Reader.weight (.moreItems close) ts) X Y) :
    SureAt ts ts (X.turn.answer (.moreItems close)) (Y.turn.answer (.moreItems close)) := by
  unfold SureAt
  simp only [Answers.turn]
  split
  · rename_i hk
    cases ts with
    | nil => cases hk
    | cons t ts =>
      have called {α : Type} (c : Reader α) := h.called (Nat.lt_succ_self ts.length) c
      have hsuffix := List.suffix_cons t ts
      split
      · exact ⟨rfl, (List.tail_suffix ts).trans hsuffix⟩
      · exact ((called _).bind (fun _ => (called _).bind fun _ => (trims_pure _).sure _) ts
          (Nat.le_refl _)).trans_suffix hsuffix
  · exact ((trims_expect _).sure _).bind (fun _ => (trims_pure _).sure _) ts (Nat.le_refl _)

theorem hashPairs_turn (h : SureBelow (Reader.weight .hashPairs ts) X Y) :
    SureAt ts ts (X.turn.answer .hashPairs) (Y.turn.answer .hashPairs) := by
  unfold SureAt
  simp only [Answers.turn]
  split
  · exact ⟨rfl, List.tail_suffix ts⟩
  · refine SureAt.trans_suffix ?_ (List.tail_suffix ts)
    exact h.bind_first (.expression 0) (by decide) fun _ L hL =>
      ((trims_expect _).sure L).bind fun _ => (h.called hL (.expression 0)).bind fun _ =>
      (h.called hL .morePairs).bind fun _ => (trims_pure _).sure L

theorem morePairs_turn (h : SureBelow (Reader.weight .morePairs ts) X Y) :
    SureAt ts ts (X.turn.answer .morePairs) (Y.turn.answer .morePairs) := by
  unfold SureAt
  simp only [Answers.turn]
  split
  · exact ⟨rfl, List.tail_suffix ts⟩
  · refine SureAt.bind ⟨rfl, trims_expect _ ts⟩ fun c hc => ?_
    exact h.called (expect_length_lt hc) .hashPairs

/-- All calls that a call makes weigh less than it does, so their answers decide its own. -/
theorem answer_turn {r : Reader α} (h : SureBelow (r.weight ts) X Y) :
    X.turn.answer r ts = Y.turn.answer r ts ∧ r.Leaves ts (X.turn.answer r ts) := by
  -- Readers of rank three promise no more than that an end of the stream is left.
  have loosely (hr : ¬r.rank < 3) (hsure : SureAt ts ts (X.turn.answer r) (Y.turn.answer r)) :
      X.turn.answer r ts = Y.turn.answer r ts ∧ r.Leaves ts (X.turn.answer r ts) :=
    ⟨hsure.1, hsure.2, fun hlt => absurd hlt hr, fun hlt => absurd hlt hr⟩
  have strictly (hsure : SureAt ts ts.tail (X.turn.answer r) (Y.turn.answer r))
      (hfails : ts = [] → (X.turn.answer r ts).value = none) :
      X.turn.answer r ts = Y.turn.answer r ts ∧ r.Leaves ts (X.turn.answer r ts) :=
    ⟨hsure.1, hsure.2.trans (List.tail_suffix ts), fun _ => hsure.2, fun _ => hfails⟩
  cases r with
  | operand => exact strictly h.operand_turn (by rintro rfl; rfl)
  | expression prec =>
    refine strictly h.expression_turn fun hts => ?_
    exact bind_value_none _ ((h.called_first .operand Nat.one_pos).2 hts)
  | statement => exact strictly h.statement_turn (by rintro rfl; rfl)
  | blockBody => exact loosely (Nat.lt_irrefl 3) h.blockBody_turn
  | operators prec left => exact loosely (Nat.lt_irrefl 3) h.operators_turn
  | elseBranch => exact loosely (Nat.lt_irrefl 3) h.elseBranch_turn
  | listItems close => exact loosely (Nat.lt_irrefl 3) h.listItems_turn
  | moreItems close => exact loosely (Nat.lt_irrefl 3) h.moreItems_turn
  | hashPairs => exact loosely (Nat.lt_irrefl 3) h.hashPairs_turn
  | morePairs => exact loosely (Nat.lt_irrefl 3) h.morePairs_turn
  | statements => exact loosely (Nat.lt_irrefl 3) h.statements_turn

theorem turn {k : Nat} (h : SureBelow k X Y) : SureBelow (k + 1) X.turn Y.turn := by
  intro α r ts hts
  exact (h.mono (Nat.le_of_lt_succ hts)).answer_turn

end Answers.SureBelow

/-- After `n` turns it does not matter to calls that weigh less than `n` what the recursion was
started from. -/
theorem Answers.iterate_turn_sure (n : Nat) (X Y : Answers) :
    SureBelow n (Answers.turn^[n] X) (Answers.turn^[n] Y) := by
  induction n with
  | zero =>
    intro α r ts hts
    exact absurd hts (Nat.not_lt_zero _)
  | succ n ih =>
    rw [Function.iterate_succ_apply', Function.iterate_succ_apply']
    exact ih.turn

theorem readers_add (n k : Nat) : readers (n + k) = Answers.turn^[k] (readers n) := by
  induction k with
  | zero => rfl
  | succ k ih => rw [Nat.add_succ, readers_succ, ih, Function.iterate_succ_apply']

theorem readers_sure {n m k : Nat} (hn : k ≤ n) (hm : k ≤ m) :
    Answers.SureBelow k (readers n) (readers m) := by
  obtain ⟨i, rfl⟩ := Nat.exists_eq_add_of_le' hn
  obtain ⟨j, rfl⟩ := Nat.exists_eq_add_of_le' hm
  rw [readers_add, readers_add]
  exact Answers.iterate_turn_sure k _ _

end Monkey
