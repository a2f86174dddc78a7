import Monkey.Proofs.Syntax.Acceptance
import Monkey.Proofs.Syntax.Layout
import Monkey.Proofs.Token.Append

/-!
Reading one text behind another. Behind a text that is read without a fault and ends in a semicolon,
or has no tokens, another one is read as it would be on its own, whatever is wrong with it.
-/

namespace Monkey

open Monkey.Parser Grammar

def Parsed.prepend (ss : List Stmt) (q : Parsed (List Stmt)) : Parsed (List Stmt) :=
  ⟨q.value.map (ss ++ ·), q.rest, q.diagnostics⟩

theorem statements_step {n : Nat} {w rest : List Token} {s : Stmt} {next : TokenKind}
    (hs : Statement next w s) (hrest : ¬Closed w → Precedes next rest)
    (hn : 4 * (w ++ rest).length + 3 < n + 1) :
    statements (n + 1) (w ++ rest) = (statements n rest).prepend [s] := by
  have hread : Reads (statement n) (w ++ rest) s rest :=
    (statement_settled hn).trans (Unbounded.statement_complete hs hrest)
  have hfirst : kindAt (w ++ rest) ≠ .eof := (hs.startsStmt_kindAt rest).ne (by decide) (by decide) rfl
  simp only [statements, if_neg hfirst]
  refine (hread.attempt.bind _).trans ?_
  rcases h : statements n rest with ⟨_ | ss, rest', ds⟩
  · rw [bind_of_none _ h]
    rfl
  · rw [bind_of_some _ h]
    change Parsed.mk _ rest' (ds ++ []) = _
    rw [List.append_nil]
    rfl

theorem Parsed.prepend_prepend (ss ts : List Stmt) (q : Parsed (List Stmt)) :
    (q.prepend ts).prepend ss = q.prepend (ss ++ ts) := by
  rcases q with ⟨_ | us, rest, ds⟩
  · rfl
  · simp [Parsed.prepend]

theorem Parsed.prepend_nil (q : Parsed (List Stmt)) : q.prepend [] = q := by
  rcases q with ⟨_ | us, rest, ds⟩
  · rfl
  · rfl

theorem Grammar.Statement.ne_nil {next : TokenKind} {w : List Token} {s : Stmt}
    (h : Statement next w s) : w ≠ [] := by
  cases h <;> exact List.cons_ne_nil _ _

theorem Grammar.closed_append {w v : List Token} (hv : v ≠ []) : Closed (w ++ v) ↔ Closed v := by
  obtain ⟨u, t, rfl⟩ : ∃ u t, v = u ++ [t] := ⟨_, _, (List.dropLast_concat_getLast hv).symm⟩
  rw [← List.append_assoc, closed_append_singleton, closed_append_singleton]

/-- The loop reads the statements of a text that is concluded, and goes on behind it. -/
theorem statements_append {u : List Token} {ss : List Stmt} (h : Body .eof u ss) {w : List Token}
    {e : Token} (hu : u = w ++ [e]) (hw : w = [] ∨ Closed w) (ts : List Token) {n : Nat}
    (hn : 4 * (w ++ ts).length + 3 < n) :
    statements n (w ++ ts) = (statements (parseBudget ts.length) ts).prepend ss := by
  induction n generalizing u ss w with
  | zero => omega
  | succ n ih =>
    cases h with
    | @done _ t _ =>
      obtain rfl : w = [] := by
        have hlength := congrArg List.length hu
        simp only [List.length_singleton, List.length_append] at hlength
        exact List.eq_nil_of_length_eq_zero (by omega)
      rw [Parsed.prepend_nil]
      exact Unbounded.readers_eq .statements hn
    | @step _ w₁ v s ss hs hss =>
      obtain ⟨v', t, rfl, -⟩ := hss.ends
      rw [← List.append_assoc] at hu
      obtain ⟨rfl, ht⟩ := List.append_inj' hu rfl
      -- Behind the first statement, the text is concluded as well; if nothing of it is left, the
      -- statement ends in a semicolon and it does not matter what comes.
      have hclosed : Closed (w₁ ++ v') := by
        refine hw.resolve_left ?_
        simp [hs.ne_nil]
      have hrest : ¬Closed w₁ → Precedes (kindAt (v' ++ [t])) (v' ++ ts) := by
        intro hopen
        cases v' with
        | nil => exact absurd (by simpa using hclosed) hopen
        | cons t' v' =>
          exact ⟨rfl, hss.kindAt_ne (by decide) (by decide) (by decide) rfl,
            hss.kindAt_ne (by decide) (by decide) (by decide) rfl⟩
      have hv' : v' = [] ∨ Closed v' := by
        by_cases hnil : v' = []
        · exact .inl hnil
        · exact .inr ((closed_append hnil).mp hclosed)
      have hlength : 0 < w₁.length := List.length_pos_iff.mpr hs.ne_nil
      rw [List.append_assoc] at hn ⊢
      have hbudget : 4 * (v' ++ ts).length + 3 < n := by
        rw [List.length_append] at hn
        omega
      rw [statements_step hs hrest hn, ih hss (congrArg (v' ++ ·) ht) hv' hbudget,
        Parsed.prepend_prepend, List.singleton_append]

theorem parseTokens_append {a : String} {p : Program} (ha : parse a = (p, []))
    (hconcluded : Concluded a) (ts : List Token) :
    parseTokens ((tokenize a).dropLast ++ ts) =
      (⟨p.statements ++ (parseTokens ts).1.statements⟩, (parseTokens ts).2) := by
  have hbody := derived_of_parse ha
  obtain ⟨w, e, hw, -⟩ := hbody.ends
  have hdrop : (tokenize a).dropLast = w := by rw [hw, List.dropLast_concat]
  unfold Concluded at hconcluded
  rw [hdrop] at hconcluded ⊢
  have hall := statements_append hbody hw hconcluded ts (Unbounded.lt_parseBudget (w ++ ts).length)
  unfold parseTokens
  rw [hall]
  have hsome := statements_value_ne_none (Unbounded.lt_parseBudget ts.length)
  rcases h : statements (parseBudget ts.length) ts with ⟨_ | ss, rest, ds⟩
  · exact absurd (by rw [h]) hsome
  · rfl

/-- The program of a text that starts at the given place, and what is wrong with it. -/
def parseAt (start : Position) (source : String) : Program × List Diagnostic :=
  parseTokens (Cursor.mk source.toList start).tokens

theorem parseAt_unplaced (start : Position) (source : String) :
    (parseAt start source).2 = (parse source).2 ∧
      (parseAt start source).1.unplaced = (parse source).1.unplaced :=
  parseTokens_unplaced (tokens_unplaced source start)

/-- Behind a concluded text, another one is read as if it started where the first one ends. -/
theorem parse_append {a : String} (ha : (parse a).2 = []) (hconcluded : Concluded a) (b : String) :
    let later := parseAt (Position.start.after a.toList) b
    parse (a ++ b) = (⟨(parse a).1.statements ++ later.1.statements⟩, later.2) := by
  intro later
  have hclean : parse a = ((parse a).1, []) := Prod.ext rfl ha
  have hparse := parseTokens_append hclean hconcluded
    (Cursor.mk b.toList (Position.start.after a.toList)).tokens
  rwa [← tokenize_append hconcluded b] at hparse

/-- A text behind one that has no faults and ends in a semicolon, or has no tokens, has the faults
that it has on its own, in the same order. Its statements come behind those of the other; they are
those of the text read from the place where the other one ends, so they differ from those of the
text on its own in places only. -/
theorem parsing_composes_at_semicolons {a : String} (ha : (parse a).2 = [])
    (hconcluded : Concluded a) (b : String) :
    let later := (parseAt (Position.start.after a.toList) b).1
    (parse (a ++ b)).2 = (parse b).2 ∧
      (parse (a ++ b)).1.statements = (parse a).1.statements ++ later.statements ∧
      later.unplaced = (parse b).1.unplaced := by
  intro later
  obtain ⟨hfaults, hprogram⟩ := parseAt_unplaced (Position.start.after a.toList) b
  rw [parse_append ha hconcluded b]
  exact ⟨hfaults, rfl, hprogram⟩

/-- A `let` on a line of its own. Without its semicolon, the parenthesis behind it would go on with
its value; it is never closed, and another `let` has no name. -/
theorem parsing_composes_at_semicolons_instance :
    let a := "let x = 1;\n"
    let b := "(x + ; let = 2; -x"
    Concluded a ∧ (parse a).2 = [] ∧ (parse b).2.length = 2 ∧
      (parse (a ++ b)).2 = (parse b).2 ∧
      (parse (a ++ b)).1.statements.map Stmt.print = ["let x = 1;", "(-x)"] ∧
      ∃ later : Program, (parse (a ++ b)).1.statements = (parse a).1.statements ++ later.statements ∧
        later.unplaced = (parse b).1.unplaced := by
  intro a b
  have hconcluded : Concluded a := by decide +kernel
  have ha : (parse a).2 = [] := by decide +kernel
  obtain ⟨hfaults, hstatements, hplaces⟩ := parsing_composes_at_semicolons ha hconcluded b
  exact ⟨hconcluded, ha, by decide +kernel, hfaults, by decide +kernel, _, hstatements, hplaces⟩

end Monkey
