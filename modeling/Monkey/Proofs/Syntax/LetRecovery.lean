import Monkey.Proofs.Syntax.Append
import Monkey.Proofs.Token.Spaced

/-!
Recovery from an incomplete `let`. Any of its name, its `=` and its value may be missing. Each part
that is leaves one fault, and what comes behind the semicolon is read as it is on its own. A missing
value takes the semicolon with it, so what follows must not begin with another one.
-/

namespace Monkey

open Text Monkey.Parser Monkey.Lexical Grammar

theorem parseTokens_of_answer {ts rest : List Token} {ss : List Stmt} {ds : List Diagnostic}
    (h : Unbounded.answers.answer .statements ts = ⟨some ss, rest, ds⟩) :
    parseTokens ts = (⟨ss⟩, ds) := by
  unfold parseTokens
  rw [show statements (parseBudget ts.length) ts = _ from h]
  rfl

theorem parseTokens_step {ts rest : List Token} {s : Option Stmt} {ds : List Diagnostic}
    (hfirst : kindAt ts ≠ .eof) (h : Unbounded.statement ts = ⟨s, rest, ds⟩) :
    parseTokens ts =
      (⟨s.toList ++ (parseTokens rest).1.statements⟩, ds ++ (parseTokens rest).2) := by
  have hattempt : attempt (Unbounded.answers.answer .statement) ts = ⟨some s, rest, ds⟩ :=
    congrArg (fun q => Parsed.mk (some q.value) q.rest q.diagnostics) h
  have hsome := statements_value_ne_none (Unbounded.lt_parseBudget rest.length)
  rcases hrest : Unbounded.answers.answer .statements rest with ⟨_ | ss, rest', ds'⟩
  · exact absurd (congrArg Parsed.value hrest) hsome
  have hall : Unbounded.answers.answer .statements ts =
      ⟨some (s.toList ++ ss), rest', ds ++ ds'⟩ := by
    rw [Unbounded.answer_eq_turn]
    simp only [Answers.turn, if_neg hfirst]
    rw [Parser.read, bind_of_some _ hattempt, bind_of_some _ hrest]
    simp [Pure.pure, Parser.pure]
  rw [parseTokens_of_answer hall, parseTokens_of_answer hrest]

namespace Unbounded

/-- What is read of a `let` whose parts are tried one after another. -/
theorem statement_let {t : Token} (ht : t.kind = .kwLet) {ts ts₁ ts₂ ts₃ rest : List Token}
    {name sign : Option Token} {value : Option Expr} {ds₁ ds₂ ds₃ : List Diagnostic}
    (hname : attempt (expect .identifier) ts = ⟨some name, ts₁, ds₁⟩)
    (hsign : attempt (expect .assign) ts₁ = ⟨some sign, ts₂, ds₂⟩)
    (hvalue : attempt (expression 0) ts₂ = ⟨some value, ts₃, ds₃⟩)
    (hend : Reads statementEnd ts₃ () rest) :
    statement (t :: ts) = ⟨name.map fun i => .bind t ⟨i⟩ value, rest, ds₁ ++ (ds₂ ++ ds₃)⟩ := by
  rw [statement_cons, ht]
  dsimp only
  rw [Parser.read, bind_of_some _ hname, bind_of_some _ hsign, bind_of_some _ hvalue,
    bind_of_some _ hend]
  cases name with
  | none => simp [skip]
  | some i => simp [Pure.pure, Parser.pure]

/-- No expression starts with a semicolon, which is passed over. -/
theorem attempt_expression_semicolon {s : Token} (hs : s.kind = .semicolon) (us : List Token) :
    attempt (expression 0) (s :: us) =
      ⟨some none, us, [⟨.noExpression s.render, us.length + 1⟩]⟩ := by
  have hoperand : operand (s :: us) = ⟨none, us, [⟨.noExpression s.render, us.length + 1⟩]⟩ := by
    rw [operand_cons, hs]
  simp only [attempt, expression_eq, bind_of_none _ hoperand]

end Unbounded

def faultUnless (present : Bool) (e : SyntaxError) : List SyntaxError :=
  if present then [] else [e]

theorem attempt_expect {kind : TokenKind} {o : Option Token} (ho : ∀ t ∈ o, t.kind = kind)
    (ts : List Token) (hts : o = none → kindAt ts ≠ kind) :
    ∃ ds, attempt (expect kind) (o.toList ++ ts) = ⟨some o, ts, ds⟩ ∧
      ds.map Diagnostic.error = faultUnless o.isSome (.expected kind (kindAt ts)) := by
  cases o with
  | some t => exact ⟨[], (reads_expect_cons (ho t rfl) ts).attempt, rfl⟩
  | none =>
    cases ts with
    | nil => exact ⟨_, rfl, rfl⟩
    | cons t ts =>
      have ht : t.kind ≠ kind := hts rfl
      refine ⟨[⟨.expected kind t.kind, ts.length + 2⟩], ?_, rfl⟩
      simp only [Option.toList_none, List.nil_append, attempt, expect, if_neg ht]

def IsName (n : String) : Prop :=
  ∃ c cs, n.toList = c :: cs ∧ isLetter c = true ∧ (∀ d ∈ cs, isWordChar d = true) ∧
    keyword? n = none

/-- The text is one expression and has no faults. Neither is a string of it left open, nor is it
closed by a semicolon. -/
structure IsExpression (e : String) (v : Expr) : Prop where
  parsed : ∃ t, parse e = (⟨[.expr t v]⟩, [])
  unbroken : Unbroken e
  not_closed : ¬Closed (tokenize e).dropLast

def nameToken (n : String) : Token := ⟨.identifier, n, default⟩

theorem IsName.partition {n : String} (h : IsName n) :
    Partition n.toList [⟨[], .identifier, n, n.toList⟩] [] := by
  obtain ⟨c, cs, hn, hc, hcs, hk⟩ := h
  have hwritten : Written .identifier n.toList n.toList [] := by
    rw [hn]
    refine .identifier hc hcs nofun ?_
    rwa [← hn, String.ofList_toList]
  have hword : isWordChar c = true := by simp [isWordChar, hc]
  have hfits : Piece.Fits ⟨[], .identifier, n, n.toList⟩ [] :=
    ⟨List.forall_mem_nil _, hn ▸ ends_cons (isBlank_of_isWordChar hword) cs, hwritten⟩
  simpa using Partition.piece hfits (.last (List.forall_mem_nil _))

theorem IsName.unbroken {n : String} (h : IsName n) : Unbroken n :=
  ⟨_, _, h.partition, by simp [Piece.Shut]⟩

theorem IsName.tokens {n : String} (h : IsName n) : unplacedTokens n = [nameToken n] := by
  rw [unplacedTokens, show tokenize n = _ from h.partition.tokens .start]
  rfl

theorem IsExpression.expression {e : String} {v : Expr} (h : IsExpression e v) :
    Expression .equality (tokenize e).dropLast v := by
  obtain ⟨⟨t, hparse⟩, -, hopen⟩ := h
  have hbody := derived_of_parse hparse
  generalize tokenize e = ts at hbody hopen
  cases hbody with
  | step hs hrest =>
    cases hrest with
    | done _ =>
      rw [List.dropLast_concat] at hopen ⊢
      cases hs with
      | @expr _ _ w z _ he hz =>
        cases hz with
        | omitted _ => simpa using he
        | @semicolon s hs =>
          refine absurd ?_ hopen
          rw [← List.cons_append]
          exact closed_append_singleton.mpr hs

structure LetDraft where
  name : Option String
  assign : Bool
  value : Option String

namespace LetDraft

def texts (d : LetDraft) : List String :=
  d.name.toList ++ ((if d.assign then ["="] else []) ++ d.value.toList)

def valueKind (d : LetDraft) : TokenKind :=
  (d.value.map fun e => kindAt (tokenize e)).getD .semicolon

def faults (d : LetDraft) : List SyntaxError :=
  faultUnless d.name.isSome (.expected .identifier (if d.assign then .assign else d.valueKind)) ++
    (faultUnless d.assign (.expected .assign d.valueKind) ++
      faultUnless d.value.isSome (.noExpression ";"))

def statement (d : LetDraft) (v : Option Expr) : Option Stmt :=
  d.name.map fun n => .bind (TokenKind.unplaced .kwLet) ⟨nameToken n⟩ v

structure Proper (d : LetDraft) (v : Option Expr) : Prop where
  name : ∀ n ∈ d.name, IsName n
  value : Option.Rel IsExpression d.value v

def nameToken? (d : LetDraft) : Option Token := d.name.map nameToken

def assignToken? (d : LetDraft) : Option Token :=
  if d.assign then some (TokenKind.unplaced .assign) else none

def valueTokens (d : LetDraft) : List Token :=
  (d.value.map fun e => (tokenize e).dropLast).getD []

def tokens (d : LetDraft) : List Token :=
  d.nameToken?.toList ++ (d.assignToken?.toList ++ d.valueTokens)

variable {d : LetDraft} {v : Option Expr}

theorem Proper.unbroken (h : d.Proper v) : ∀ w ∈ d.texts, Unbroken w := by
  obtain ⟨name, assign, value⟩ := d
  obtain ⟨hname, hvalue⟩ := h
  intro w hw
  simp only [texts, List.mem_append, Option.mem_toList] at hw
  rcases hw with hw | hw | hw
  · exact (hname w hw).unbroken
  · cases assign with
    | false => cases hw
    | true =>
      rw [List.mem_singleton.mp hw]
      decide
  · cases hvalue with
    | none => cases hw
    | some he => exact Option.some.inj hw ▸ he.unbroken

theorem Proper.map_tokens (h : d.Proper v) :
    d.texts.flatMap unplacedTokens = d.tokens.map Token.unplaced := by
  obtain ⟨name, assign, value⟩ := d
  have hname : name.toList.flatMap unplacedTokens =
      (name.map nameToken).toList.map Token.unplaced := by
    cases name with
    | none => rfl
    | some n => exact (List.flatMap_singleton _ _).trans (h.name n rfl).tokens
  have hassign : (if assign then ["="] else []).flatMap unplacedTokens =
      (if assign then some (TokenKind.unplaced .assign) else none).toList.map Token.unplaced := by
    cases assign with
    | false => rfl
    | true => decide +kernel
  have hvalue : value.toList.flatMap unplacedTokens =
      ((value.map fun e => (tokenize e).dropLast).getD []).map Token.unplaced := by
    cases value with
    | none => rfl
    | some e => exact List.flatMap_singleton _ _
  simp only [texts, tokens, nameToken?, assignToken?, valueTokens, List.flatMap_append,
    List.map_append, hname, hassign, hvalue]

theorem kindAt_dropLast_append {ts : List Token} (h : ts.dropLast ≠ []) (us : List Token) :
    kindAt (ts.dropLast ++ us) = kindAt ts := by
  match ts with
  | [] | [_] => exact absurd rfl h
  | _ :: _ :: _ => rfl

theorem Proper.kindAt_value (h : d.Proper v) (us : List Token) :
    kindAt (d.valueTokens ++ TokenKind.unplaced .semicolon :: us) = d.valueKind := by
  obtain ⟨name, assign, value⟩ := d
  cases h.value with
  | none => rfl
  | some he =>
    obtain ⟨t, w, hw, -⟩ := he.expression.starts
    exact kindAt_dropLast_append (hw ▸ List.cons_ne_nil t w) _

theorem Proper.valueKind_ne_assign (h : d.Proper v) : d.valueKind ≠ .assign := by
  rw [← h.kindAt_value []]
  obtain ⟨name, assign, value⟩ := d
  cases h.value with
  | none => exact (by decide : TokenKind.semicolon ≠ .assign)
  | some he => exact startsExpr_ne (he.expression.startsExpr_kindAt _) rfl

/-- The value is read up to the semicolon, or passed over together with it. -/
theorem Proper.reads_value (h : d.Proper v) {us : List Token}
    (hus : d.value = none → kindAt us ≠ .semicolon) :
    ∃ rest ds, attempt (Unbounded.expression 0)
        (d.valueTokens ++ TokenKind.unplaced .semicolon :: us) = ⟨some v, rest, ds⟩ ∧
      Reads statementEnd rest () us ∧
      ds.map Diagnostic.error = faultUnless d.value.isSome (.noExpression ";") := by
  obtain ⟨name, assign, value⟩ := d
  cases h.value with
  | none =>
    exact ⟨_, _, Unbounded.attempt_expression_semicolon rfl us,
      reads_statementEnd.mpr (.inr ⟨hus rfl, rfl⟩), rfl⟩
  | some he =>
    have hreads := (Unbounded.expression_complete he.expression).whole
      (TokenKind.unplaced .semicolon :: us) (.cons rfl (by decide) us)
    exact ⟨_, _, hreads.attempt, reads_statementEnd.mpr (.inl ⟨_, rfl, rfl⟩), rfl⟩

theorem kind_nameToken? (d : LetDraft) : ∀ t ∈ d.nameToken?, t.kind = .identifier := by
  unfold nameToken?
  cases d.name with
  | none => nofun
  | some n => exact fun t ht => Option.some.inj ht ▸ rfl

theorem kind_assignToken? (d : LetDraft) : ∀ t ∈ d.assignToken?, t.kind = .assign := by
  unfold assignToken?
  cases d.assign with
  | false => nofun
  | true => exact fun t ht => Option.some.inj ht ▸ rfl

theorem Proper.kindAt_assign (h : d.Proper v) (us : List Token) :
    kindAt (d.assignToken?.toList ++ (d.valueTokens ++ TokenKind.unplaced .semicolon :: us)) =
      if d.assign then .assign else d.valueKind := by
  rw [← h.kindAt_value us]
  unfold assignToken?
  cases d.assign <;> rfl

/-- A `let` is read up to its semicolon whatever is missing of it. -/
theorem Proper.reads (h : d.Proper v) {us : List Token}
    (hname : d.name = none → d.assign = false → d.valueKind ≠ .identifier)
    (hus : d.value = none → kindAt us ≠ .semicolon) :
    ∃ ds, Unbounded.statement
        (TokenKind.unplaced .kwLet :: (d.tokens ++ TokenKind.unplaced .semicolon :: us)) =
          ⟨d.statement v, us, ds⟩ ∧ ds.map Diagnostic.error = d.faults := by
  have hkind : d.nameToken? = none → (if d.assign then .assign else d.valueKind) ≠ .identifier := by
    intro hnone
    have hid := hname (Option.map_eq_none_iff.mp hnone)
    cases hassign : d.assign with
    | true => exact nofun
    | false => exact hid hassign
  obtain ⟨ds₁, hident, hfaults₁⟩ := attempt_expect d.kind_nameToken?
    (d.assignToken?.toList ++ (d.valueTokens ++ TokenKind.unplaced .semicolon :: us))
    fun hnone => h.kindAt_assign us ▸ hkind hnone
  obtain ⟨ds₂, hassign, hfaults₂⟩ := attempt_expect d.kind_assignToken?
    (d.valueTokens ++ TokenKind.unplaced .semicolon :: us)
    fun _ => h.kindAt_value us ▸ h.valueKind_ne_assign
  obtain ⟨rest, ds₃, hvalue, hend, hfaults₃⟩ := h.reads_value hus
  have hstatement := Unbounded.statement_let (t := TokenKind.unplaced .kwLet) rfl hident hassign
    hvalue hend
  refine ⟨ds₁ ++ (ds₂ ++ ds₃), ?_, ?_⟩
  · rw [tokens, List.append_assoc, List.append_assoc, hstatement, statement, nameToken?,
      Option.map_map]
    rfl
  · rw [List.map_append, List.map_append, hfaults₁, hfaults₂, hfaults₃, h.kindAt_assign us,
      h.kindAt_value us, faults, nameToken?, assignToken?, Option.isSome_map]
    cases d.assign <;> rfl

theorem Proper.tokenize (h : d.Proper v) {a : String} (ha : Spaced d.texts a.toList) (b : String) :
    (tokenize ("let" ++ a ++ b)).map Token.unplaced =
      (TokenKind.unplaced .kwLet ::
        (d.tokens ++ TokenKind.unplaced .semicolon :: Monkey.tokenize b)).map Token.unplaced := by
  have hjoined : ("let" ++ a ++ b).toList = "let".toList ++ (a.toList ++ b.toList) := by
    rw [String.toList_append, String.toList_append, List.append_assoc]
  have hlet : unplacedTokens "let" = [TokenKind.unplaced .kwLet] := by decide +kernel
  have hunbroken : Unbroken "let" := by decide
  rw [Monkey.tokenize, Cursor.ofString, hjoined, hunbroken.tokens_append (ha.ends _), hlet,
    ha.tokens h.unbroken, h.map_tokens, List.map_cons, List.map_append, List.map_cons]
  rfl

end LetDraft

/-- `b` is read behind `a` as it is on its own. What `a` adds is the faults `es` and, up to places,
the statements `ss`. -/
structure Resumes (a b : String) (es : List SyntaxError) (ss : List Stmt) : Prop where
  faults : ∃ ds, (parse (a ++ b)).2 = ds ++ (parse b).2 ∧ ds.map Diagnostic.error = es
  statements : (parse (a ++ b)).1.unplaced = Program.unplaced ⟨ss ++ (parse b).1.statements⟩

/-- Reading resumes behind the semicolon of a `let`, whatever is missing of it. Each part that is
missing leaves one fault. There is a statement if there is a name, and it has a value if one is
written. Two texts are taken for parts that they are not: without a name and a `=`, a value that
begins with a name, and without a value, a semicolon behind the one of the `let`. -/
theorem incomplete_let_recovers {d : LetDraft} {v : Option Expr} (h : d.Proper v) {a : String}
    (ha : Spaced d.texts a.toList) (b : String)
    (hname : d.name = none → d.assign = false → d.valueKind ≠ .identifier)
    (hb : d.value = none → kindAt (tokenize b) ≠ .semicolon) :
    Resumes ("let" ++ a) b d.faults (d.statement v).toList := by
  have hfirst (us : List Token) : kindAt (TokenKind.unplaced .kwLet :: us) ≠ .eof :=
    (by decide : TokenKind.kwLet ≠ .eof)
  obtain ⟨ds, hreads, herrors⟩ := h.reads hname hb
  obtain ⟨hfaults, hprogram⟩ := parseTokens_unplaced (h.tokenize ha b)
  rw [parseTokens_step (hfirst _) hreads] at hfaults hprogram
  exact ⟨⟨ds, hfaults, herrors⟩, hprogram⟩

def Program.soleExpr? : Program → Option Expr
  | ⟨[.expr _ v]⟩ => some v
  | _ => none

theorem Program.eq_of_soleExpr? {p : Program} {v : Expr} (h : p.soleExpr? = some v) :
    ∃ t, p = ⟨[.expr t v]⟩ := by
  unfold Program.soleExpr? at h
  split at h
  · obtain rfl := Option.some.inj h
    exact ⟨_, rfl⟩
  · cases h

/-- A value alone, with a semicolon inside one of its strings, and a name and a `=` alone. What
follows has faults of its own. -/
theorem incomplete_let_recovers_instances :
    (let e := "-f(1)[\"a;\"]"
      let a := " \n" ++ e ++ ";"
      let b := "let x = ; )"
      ∃ v, LetDraft.Proper ⟨none, false, some e⟩ (some v) ∧ (parse b).2.length = 2 ∧
        Resumes ("let" ++ a) b [.expected .identifier .minus, .expected .assign .minus] []) ∧
    (let a := " x = ;"
      let b := ") ; y"
      (parse b).2.length = 2 ∧ Resumes ("let" ++ a) b [.noExpression ";"]
        [.bind (TokenKind.unplaced .kwLet) ⟨nameToken "x"⟩ none]) := by
  constructor
  · intro e a b
    have hsole : (parse e).1.soleExpr?.isSome = true := by decide +kernel
    have hclean : (parse e).2 = [] := by decide +kernel
    obtain ⟨v, hsole⟩ := Option.isSome_iff_exists.mp hsole
    obtain ⟨t, hprogram⟩ := Program.eq_of_soleExpr? hsole
    have hv : IsExpression e v := ⟨⟨t, Prod.ext hprogram hclean⟩, by decide, by decide +kernel⟩
    have hproper : LetDraft.Proper ⟨none, false, some e⟩ (some v) := ⟨by simp, .some hv⟩
    have hspaced : Spaced [e] a.toList := by
      rw [show a.toList = [' ', '\n'] ++ (e.toList ++ ([] ++ [';'])) by decide]
      exact .text (List.all_eq_true.mp rfl) (List.cons_ne_nil _ _)
        (.ending (List.forall_mem_nil _))
    have hfaults : LetDraft.faults ⟨none, false, some e⟩ =
        [.expected .identifier .minus, .expected .assign .minus] := by decide +kernel
    refine ⟨v, hproper, by decide +kernel, ?_⟩
    rw [← hfaults]
    exact incomplete_let_recovers hproper hspaced b (by decide +kernel) (by simp)
  · intro a b
    have hname : IsName "x" := ⟨'x', [], by decide, by decide, List.forall_mem_nil _, by decide⟩
    have hproper : LetDraft.Proper ⟨some "x", true, none⟩ none :=
      ⟨fun n hn => Option.some.inj hn ▸ hname, .none⟩
    have hspaced : Spaced ["x", "="] a.toList := by
      rw [show a.toList = [' '] ++ ("x".toList ++ ([' '] ++ ("=".toList ++ ([' '] ++ [';']))))
        by decide]
      have hblank : ∀ c ∈ [' '], isBlank c = true := List.all_eq_true.mp rfl
      exact .text hblank (List.cons_ne_nil _ _)
        (.text hblank (List.cons_ne_nil _ _) (.ending hblank))
    exact ⟨by decide +kernel, incomplete_let_recovers hproper hspaced b (by simp) (by decide +kernel)⟩

/-- It is the first token behind the `let` that counts, not the first character. Here a blank comes
before the second semicolon, which is passed over for the first one all the same. -/
theorem semicolon_behind_blank_is_passed_over :
    let d : LetDraft := ⟨none, false, none⟩
    let a := " ;"
    let b := " ;"
    d.Proper none ∧ Spaced d.texts a.toList ∧ b.toList.head? ≠ some ';' ∧
      ¬Resumes ("let" ++ a) b d.faults (d.statement none).toList := by
  intro d a b
  have hspaced : Spaced d.texts a.toList := by
    rw [show a.toList = [' '] ++ [';'] by decide]
    exact .ending (List.all_eq_true.mp rfl)
  refine ⟨⟨nofun, .none⟩, hspaced, by decide, ?_⟩
  rintro ⟨⟨ds, hfaults, herrors⟩, -⟩
  have hall : (parse ("let" ++ a ++ b)).2.length = 3 := by decide +kernel
  have hown : (parse b).2.length = 1 := by decide +kernel
  have hmissing : ds.length = 3 := by
    have hlength := congrArg List.length herrors
    rwa [List.length_map] at hlength
  rw [hfaults, List.length_append] at hall
  omega

end Monkey
