import Monkey.Proofs.Syntax.Acceptance
import Monkey.Proofs.Syntax.Readable

/-!
Printed programs read back. A tree that has been read can be printed in a form that is read again:
its names are words, its numbers are not negative and its strings hold no quotes. Only an expression
before another statement gets in the way, since it is printed without a semicolon.
-/

namespace Monkey

open Grammar Lexical

namespace Grammar

theorem Names.readable {w : List Token} {is : List Ident} (h : Names w is)
    (hw : ∀ t ∈ w, Genuine t) : ∀ i ∈ is, i.Readable := by
  induction h with
  | one hi =>
    rw [List.forall_mem_singleton] at hw ⊢
    exact hw.name hi
  | more hi _ _ ih =>
    simp only [List.forall_mem_cons] at hw ⊢
    exact ⟨hw.1.name hi, ih hw.2.2⟩

theorem Params.readable {w : List Token} {is : List Ident} (h : Params w is)
    (hw : ∀ t ∈ w, Genuine t) : ∀ i ∈ is, i.Readable := by
  cases h with
  | none _ => exact List.forall_mem_nil _
  | some hn _ => exact hn.readable (List.forall_mem_append.mp hw).1

mutual

theorem Expression.readable {l : Layer} {w : List Token} {e : Expr} (h : Expression l w e)
    (hw : ∀ t ∈ w, Genuine t) (he : e.separated = true) : e.Readable := by
  match h with
  | .inner h => exact h.readable hw he
  | .binary _ hl hr =>
    simp only [List.forall_mem_append, List.forall_mem_cons] at hw
    simp only [Expr.separated, Bool.and_eq_true] at he
    exact Expr.readable_binary _ _ (hl.readable hw.1 he.1) (hr.readable hw.2.2 he.2)
  | .unary _ h =>
    rw [List.forall_mem_cons] at hw
    exact Expr.readable_unary _ _ (h.readable hw.2 he)
  | .call hf _ has =>
    simp only [List.forall_mem_append, List.forall_mem_cons] at hw
    simp only [Expr.separated, Bool.and_eq_true] at he
    exact Expr.readable_call _ (hf.readable hw.1 he.1) (has.readable hw.2.2 he.2)
  | .index h _ hi _ =>
    simp only [List.forall_mem_append, List.forall_mem_cons] at hw
    simp only [Expr.separated, Bool.and_eq_true] at he
    exact Expr.readable_index _ (h.readable hw.1 he.1) (hi.readable hw.2.2.1 he.2)
  | .ident ht =>
    rw [List.forall_mem_singleton] at hw
    exact Expr.readable_ident (hw.name ht)
  | .integer _ hn => exact Expr.readable_integer _ hn
  | .string ht =>
    rw [List.forall_mem_singleton] at hw
    exact Expr.readable_string _ (hw.no_quote ht)
  | .kwTrue _ => exact Expr.readable_boolean _ true
  | .kwFalse _ => exact Expr.readable_boolean _ false
  | .group _ h _ =>
    simp only [List.forall_mem_append, List.forall_mem_cons] at hw
    exact h.readable hw.2.1 he
  | .cond _ _ hc _ hb =>
    simp only [List.forall_mem_append, List.forall_mem_cons] at hw
    simp only [Expr.separated, Bool.and_eq_true] at he
    obtain ⟨-, -, hc', -, hb'⟩ := hw
    exact Expr.readable_cond _ (hc.readable hc' he.1) (hb.readable hb' he.2)
  | .condElse _ _ hc _ hb _ ha =>
    simp only [List.forall_mem_append, List.forall_mem_cons] at hw
    simp only [Expr.separated, Bool.and_eq_true] at he
    obtain ⟨-, -, hc', -, hb', -, ha'⟩ := hw
    exact Expr.readable_condElse _ (hc.readable hc' he.1.1) (hb.readable hb' he.1.2)
      (ha.readable ha' he.2)
  | .function _ _ hp hb =>
    simp only [List.forall_mem_append, List.forall_mem_cons] at hw
    exact Expr.readable_function _ (hp.readable hw.2.2.1) (hb.readable hw.2.2.2 he)
  | .array _ h =>
    rw [List.forall_mem_cons] at hw
    exact Expr.readable_array _ (h.readable hw.2 he)
  | .hash _ h =>
    rw [List.forall_mem_cons] at hw
    exact Expr.readable_hash _ (h.readable hw.2 he)

theorem Exprs.readable {w : List Token} {es : List Expr} (h : Exprs w es)
    (hw : ∀ t ∈ w, Genuine t) (hes : Expr.separatedAll es = true) : ∀ e ∈ es, e.Readable := by
  match h with
  | .one h =>
    simp only [Expr.separatedAll, Bool.and_true] at hes
    exact List.forall_mem_singleton.mpr (h.readable hw hes)
  | .more h _ hmore =>
    simp only [Expr.separatedAll, Bool.and_eq_true] at hes
    simp only [List.forall_mem_append, List.forall_mem_cons] at hw ⊢
    exact ⟨h.readable hw.1 hes.1, hmore.readable hw.2.2 hes.2⟩

theorem Items.readable {close : TokenKind} {w : List Token} {es : List Expr} (h : Items close w es)
    (hw : ∀ t ∈ w, Genuine t) (hes : Expr.separatedAll es = true) : ∀ e ∈ es, e.Readable := by
  match h with
  | .none _ => exact List.forall_mem_nil _
  | .some h _ | .trailing h _ _ => exact h.readable (List.forall_mem_append.mp hw).1 hes

theorem KeyValues.readable {w : List Token} {ps : List (Expr × Expr)} (h : KeyValues w ps)
    (hw : ∀ t ∈ w, Genuine t) (hps : Expr.separatedPairs ps = true) :
    ∀ p ∈ ps, p.1.Readable ∧ p.2.Readable := by
  match h with
  | .one hk _ he =>
    simp only [List.forall_mem_append, List.forall_mem_cons] at hw
    simp only [Expr.separatedPairs, Bool.and_true, Bool.and_eq_true] at hps
    exact List.forall_mem_singleton.mpr ⟨hk.readable hw.1 hps.1, he.readable hw.2.2 hps.2⟩
  | .more hk _ he _ hmore =>
    simp only [List.forall_mem_append, List.forall_mem_cons] at hw ⊢
    simp only [Expr.separatedPairs, Bool.and_eq_true] at hps
    obtain ⟨hk', -, he', -, hmore'⟩ := hw
    exact ⟨⟨hk.readable hk' hps.1.1, he.readable he' hps.1.2⟩, hmore.readable hmore' hps.2⟩

theorem Pairs.readable {w : List Token} {ps : List (Expr × Expr)} (h : Pairs w ps)
    (hw : ∀ t ∈ w, Genuine t) (hps : Expr.separatedPairs ps = true) :
    ∀ p ∈ ps, p.1.Readable ∧ p.2.Readable := by
  match h with
  | .none _ => exact List.forall_mem_nil _
  | .some h _ | .trailing h _ _ => exact h.readable (List.forall_mem_append.mp hw).1 hps

theorem Statement.readable {next : TokenKind} {w : List Token} {s : Stmt} (h : Statement next w s)
    (hw : ∀ t ∈ w, Genuine t) (hs : s.separated = true) : s.Readable := by
  match h with
  | .bind _ hi _ he _ =>
    simp only [List.forall_mem_append, List.forall_mem_cons] at hw
    obtain ⟨-, hi', -, he', -⟩ := hw
    exact Stmt.readable_bind _ (hi'.name hi) (he.readable he' hs)
  | .ret _ he _ =>
    simp only [List.forall_mem_append, List.forall_mem_cons] at hw
    exact Stmt.readable_ret _ (he.readable hw.2.1 hs)
  | .bareRet _ _ | .bareRetSemicolon _ _ => exact Stmt.readable_bareRet _
  | .expr he _ =>
    rw [← List.cons_append, List.forall_mem_append] at hw
    exact Stmt.readable_expr _ (he.readable hw.1 hs)

theorem Body.readable {close : TokenKind} {w : List Token} {ss : List Stmt} (h : Body close w ss)
    (hw : ∀ t ∈ w, Genuine t) (hss : Stmt.separatedAll ss = true) : ∀ s ∈ ss, s.Readable := by
  match h with
  | .done _ => exact List.forall_mem_nil _
  | .step hs hbody =>
    rw [List.forall_mem_append] at hw
    rw [List.forall_mem_cons]
    obtain ⟨hfirst, hrest⟩ := Stmt.separated_of_cons hss
    exact ⟨hs.readable hw.1 hfirst, hbody.readable hw.2 hrest⟩

theorem Braced.readable {w : List Token} {b : Block} (h : Braced w b) (hw : ∀ t ∈ w, Genuine t)
    (hb : b.separated = true) : b.Readable := by
  match h with
  | .mk _ hbody =>
    rw [List.forall_mem_cons] at hw
    exact Block.readable _ (hbody.readable hw.2 hb) hb

end

end Grammar

theorem Program.toList_print (p : Program) :
    p.print.toList = ("".intercalate (Stmt.printAll p.statements)).toList := by
  rw [Program.print, String.toList_join, String.toList_intercalate]
  generalize Stmt.printAll p.statements = texts
  induction texts with
  | nil => rfl
  | cons text texts ih =>
    rw [List.flatMap_cons, ih]
    cases texts with
    | nil => simp
    | cons _ _ => simp [List.intercalate_cons_cons]

/-- What is printed for a program that was read, and in which only `let` and `return` statements
stand before others, is read without a fault as the same program, tokens apart. -/
theorem parse_print {source : String} {p : Program} (h : parse source = (p, []))
    (hp : p.separated = true) : ∃ p', parse p.print = (p', []) ∧ p'.bare = p.bare := by
  have hreadable := (derived_of_parse h).readable (genuine_tokenize source) hp
  have hspells := Stmt.spells_statements (.inl rfl) hreadable hp
  obtain ⟨w, stop, htokens, ss, hss, hbare⟩ := hspells [] .start nofun
  rw [List.append_nil, tokens_nil] at htokens
  have hprinted : tokenize p.print = w ++ [⟨.eof, "", stop, stop⟩] := by
    rw [tokenize, Cursor.ofString, p.toList_print, htokens]
  refine ⟨⟨ss⟩, parse_of_derived ?_, ?_⟩
  · rw [hprinted]
    exact hss ⟨.eof, "", stop, stop⟩ rfl
  · exact congrArg Program.mk hbare

/-- A statement without a semicolon before a function literal that is called at once. -/
theorem parse_print_instance :
    let source := "let a = -1 fn(b) \x7b return; \x7b 0: !a \x7d[b] \x7d(\"s\")"
    let p := (parse source).1
    parse source = (p, []) ∧ p.separated = true ∧
      ∃ p', parse p.print = (p', []) ∧ p'.bare = p.bare := by
  intro source p
  have hclean : (parse source).2.isEmpty = true := by decide +kernel
  have hparse : parse source = (p, []) := Prod.ext rfl (List.isEmpty_iff.mp hclean)
  have hseparated : p.separated = true := by decide +kernel
  exact ⟨hparse, hseparated, parse_print hparse hseparated⟩

end Monkey
