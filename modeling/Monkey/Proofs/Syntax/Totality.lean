import Monkey.Proofs.Syntax.Acceptance

/-!
Reading a source comes to an end, whatever is wrong with it. At the end of input an expression fails
without a call, so no loop goes on there; the loop over the program then leaves nothing of the
stream, since it stops at an end-of-input token only and a source has that one token at its end.
-/

namespace Monkey

open Monkey.Parser

theorem Answers.operand_turn_eof (X : Answers) {ts : List Token} (h : kindAt ts = .eof) :
    X.turn.answer .operand ts = ⟨none, ts.tail, [⟨.noExpression "EOF", ts.length⟩]⟩ := by
  cases ts with
  | nil => rfl
  | cons t ts =>
    rw [kindAt_cons] at h
    simp only [Answers.turn, h, Token.render, List.tail_cons, List.length_cons]

/-- At the end of input, an expression fails at once: the second turn does not ask `X`. -/
theorem Answers.expression_turn_eof (X : Answers) (prec : Nat) {ts : List Token}
    (h : kindAt ts = .eof) :
    X.turn.turn.answer (.expression prec) ts =
      ⟨none, ts.tail, [⟨.noExpression "EOF", ts.length⟩]⟩ :=
  bind_of_none (fun left => X.turn.answer (.operators prec left)) (X.operand_turn_eof h)

theorem Ended.suffix {ts us : List Token} (h : Ended ts) (hus : us <:+ ts) :
    us = [] ∨ Ended us := by
  induction ts with
  | nil => exact h.elim
  | cons t ts ih =>
    rcases List.suffix_cons_iff.mp hus with rfl | hus
    · exact .inr h
    · by_cases ht : t.kind = .eof
      · rw [Ended, if_pos ht] at h
        rw [h] at hus
        exact .inl (List.suffix_nil.mp hus)
      · rw [Ended, if_neg ht] at h
        exact ih h hus

/-- The loop over a whole stream returns, and nothing of the stream is left. A statement may have
taken the end-of-input token with it; then there is nothing left to read. -/
theorem Unbounded.statements_consume {ts : List Token} (h : ts = [] ∨ Ended ts) :
    ∃ ss ds, answers.answer .statements ts = ⟨some ss, [], ds⟩ := by
  induction hL : ts.length using Nat.strongRecOn generalizing ts with
  | _ L ih =>
    rw [answer_eq_turn]
    simp only [Answers.turn]
    cases ts with
    | nil => exact ⟨[], [], rfl⟩
    | cons t ts =>
      have hended : Ended (t :: ts) := h.resolve_left (List.cons_ne_nil t ts)
      by_cases ht : t.kind = .eof
      · rw [Ended, if_pos ht] at hended
        rw [kindAt_cons, if_pos ht, hended]
        exact ⟨[], [], rfl⟩
      · rw [kindAt_cons, if_neg ht]
        obtain ⟨value, rest, faults, hstatement⟩ :
            ∃ value rest faults, answers.answer .statement (t :: ts) = ⟨value, rest, faults⟩ :=
          ⟨_, _, _, rfl⟩
        have hrest : rest <:+ ts := by
          have htakes := (leaves .statement (t :: ts)).takes (by decide)
          rwa [hstatement] at htakes
        have hlength := hrest.length_le
        rw [List.length_cons] at hL
        obtain ⟨ss, ds, hss⟩ := ih rest.length (by omega)
          (hended.suffix (hrest.trans (List.suffix_cons t ts))) rfl
        have hattempt : attempt (answers.answer .statement) (t :: ts) =
            ⟨some value, rest, faults⟩ := by
          simp only [attempt, hstatement]
        refine ⟨value.toList ++ ss, faults ++ (ds ++ []), ?_⟩
        rw [Parser.read, bind_of_some _ hattempt, bind_of_some _ hss]
        rfl

/-- Reading is total. The readers take turns in a recursion. Each call is decided by the answers to
others that it makes: on fewer tokens than are left to it, or on as many and then of lower rank. (A
call is made on what the one before left, so answers are also to leave an end of the stream.) At the
end of input an expression calls for no more than its operand, and fails. So as many turns as the
budget has decide the program of any source, whatever they start from; it is the one that `parse`
gives, and no token is left. -/
theorem parsing_is_total (source : String) :
    (∀ n, readers (n + 1) = (readers n).turn) ∧
    (∀ (X Y : Answers) ⦃α : Type⦄ (r : Reader α) (ts : List Token),
      (∀ ⦃β : Type⦄ (c : Reader β) (us : List Token),
        us.length < ts.length ∨ us.length = ts.length ∧ c.rank < r.rank →
          X.answer c us = Y.answer c us ∧ c.Leaves us (X.answer c us)) →
      X.turn.answer r ts = Y.turn.answer r ts ∧ r.Leaves ts (X.turn.answer r ts)) ∧
    (∀ (X : Answers) (prec : Nat) (ts : List Token), kindAt ts = .eof →
      X.turn.turn.answer (.expression prec) ts =
        ⟨none, ts.tail, [⟨.noExpression "EOF", ts.length⟩]⟩) ∧
    (∀ (X : Answers) (n : Nat), parseBudget (tokenize source).length ≤ n →
      (Answers.turn^[n] X).answer .statements (tokenize source) =
        ⟨some (parse source).1.statements, [], (parse source).2⟩) := by
  refine ⟨readers_succ, ?_, fun X prec ts => X.expression_turn_eof prec, ?_⟩
  · intro X Y α r ts hcalls
    have hsure : X.SureBelow (r.weight ts) Y := by
      intro β c us hweight
      exact hcalls c us ((c.weight_lt_iff us r ts).mp hweight)
    exact hsure.answer_turn
  · intro X n hn
    have hweight := Unbounded.weight_lt_parseBudget .statements (tokenize source)
    have hseed := Answers.iterate_turn_sure n X (readers 0) .statements (tokenize source)
      (Nat.lt_of_lt_of_le hweight hn)
    rw [← readers_add, Nat.zero_add] at hseed
    obtain ⟨ss, ds, hss⟩ := Unbounded.statements_consume (.inr (ended_tokenize source))
    have hparse : parse source = (⟨ss⟩, ds) := by
      unfold parse parseTokens
      rw [show statements _ _ = _ from hss]
      rfl
    rw [hseed.1, Unbounded.readers_eq .statements (Nat.lt_of_lt_of_le hweight hn), hss, hparse]

/-- A source that breaks off inside a hash inside a list inside a block. -/
theorem parsing_is_total_truncated :
    let source := "if (x) \x7b let y = [1, \x7b2:"
    (parse source).2.length = 2 ∧
    ∀ X : Answers, (Answers.turn^[68] X).answer .statements (tokenize source) =
      ⟨some (parse source).1.statements, [], (parse source).2⟩ := by
  intro source
  obtain ⟨-, -, -, hall⟩ := parsing_is_total source
  exact ⟨by decide +kernel, fun X => hall X 68 (by decide +kernel)⟩

end Monkey
