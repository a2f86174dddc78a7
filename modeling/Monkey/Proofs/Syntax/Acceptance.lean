import Monkey.Proofs.Syntax.Completeness

/-!
A source is read without a fault exactly when the grammar derives its tokens, and then the
statements read are those of the derivation. Above the statements there is one more loop, over the
whole stream; it relies on the end-of-input token standing at the end of the stream and nowhere
else.
-/

namespace Monkey

open Monkey.Parser Grammar

namespace Grammar

def Inside (w : List Token) : Prop := ∀ t ∈ w, t.kind ≠ .eof

@[simp] theorem inside_nil : Inside [] := by simp [Inside]

@[simp] theorem inside_cons {t : Token} {w : List Token} :
    Inside (t :: w) ↔ t.kind ≠ .eof ∧ Inside w := by simp [Inside]

@[simp] theorem inside_append {w v : List Token} : Inside (w ++ v) ↔ Inside w ∧ Inside v := by
  simp only [Inside, List.mem_append, or_imp, forall_and]

theorem Names.inside {w : List Token} {is : List Ident} (h : Names w is) : Inside w := by
  induction h with
  | one hi => simp [hi]
  | more hi hc _ ih => simp [hi, hc, ih]

theorem Params.inside {w : List Token} {is : List Ident} (h : Params w is) : Inside w := by
  cases h with
  | none hc => simp [hc]
  | some hn hc => simp [hn.inside, hc]

theorem Ending.inside {next : TokenKind} {z : List Token} (h : Ending next z) : Inside z := by
  cases h with
  | semicolon hs => simp [hs]
  | omitted _ => simp

mutual

theorem Expression.inside {l : Layer} {w : List Token} {e : Expr} (h : Expression l w e) :
    Inside w := by
  match h with
  | .inner h => exact h.inside
  | @Expression.binary op t _ _ _ _ hop hl hr =>
    have ht : t.kind ≠ .eof := by
      intro hk
      rw [hk] at hop
      cases hop
    simp [ht, hl.inside, hr.inside]
  | @Expression.unary op t _ _ hop h =>
    have ht : t.kind ≠ .eof := by
      intro hk
      rw [hk] at hop
      cases hop
    simp [ht, h.inside]
  | .call hf ht has => simp [hf.inside, ht, has.inside (by decide)]
  | .index he ht hi hc => simp [he.inside, ht, hi.inside, hc]
  | .ident ht | .integer ht _ | .string ht | .kwTrue ht | .kwFalse ht => simp [ht]
  | .group ht h hc => simp [ht, h.inside, hc]
  | .cond ht ho h hc hb => simp [ht, ho, h.inside, hc, hb.inside]
  | .condElse ht ho h hc hb hs ha => simp [ht, ho, h.inside, hc, hb.inside, hs, ha.inside]
  | .function ht ho hp hb => simp [ht, ho, hp.inside, hb.inside]
  | .array ht h => simp [ht, h.inside (by decide)]
  | .hash ht h => simp [ht, h.inside]

theorem Exprs.inside {w : List Token} {es : List Expr} (h : Exprs w es) : Inside w := by
  match h with
  | .one h => exact h.inside
  | .more h hc hs => simp [h.inside, hc, hs.inside]

theorem Items.inside {close : TokenKind} {w : List Token} {es : List Expr} (h : Items close w es)
    (hclose : close ≠ .eof) : Inside w := by
  match h with
  | .none hb => simp [hb, hclose]
  | .some h hb => simp [h.inside, hb, hclose]
  | .trailing h hc hb => simp [h.inside, hc, hb, hclose]

theorem KeyValues.inside {w : List Token} {ps : List (Expr × Expr)} (h : KeyValues w ps) :
    Inside w := by
  match h with
  | .one hk hs he => simp [hk.inside, hs, he.inside]
  | .more hk hs he hc h => simp [hk.inside, hs, he.inside, hc, h.inside]

theorem Pairs.inside {w : List Token} {ps : List (Expr × Expr)} (h : Pairs w ps) : Inside w := by
  match h with
  | .none hb => simp [hb]
  | .some h hb => simp [h.inside, hb]
  | .trailing h hc hb => simp [h.inside, hc, hb]

theorem Statement.inside {next : TokenKind} {w : List Token} {s : Stmt}
    (h : Statement next w s) : Inside w := by
  match h with
  | .bind ht hi ha he hz => simp [ht, hi, ha, he.inside, hz.inside]
  | .ret ht he hz => simp [ht, he.inside, hz.inside]
  | .bareRet ht _ => simp [ht]
  | .bareRetSemicolon ht hs => simp [ht, hs]
  | .expr he hz =>
    have hw := he.inside
    simp only [inside_cons, inside_append] at hw ⊢
    exact ⟨hw.1, hw.2, hz.inside⟩

theorem Body.inside {close : TokenKind} {w : List Token} {ss : List Stmt} (h : Body close w ss)
    (hclose : close ≠ .eof) : Inside w := by
  match h with
  | .done ht => simp [ht, hclose]
  | .step hs h => simp [hs.inside, h.inside hclose]

theorem Braced.inside {w : List Token} {b : Block} (h : Braced w b) : Inside w := by
  match h with
  | .mk hb h => simp [hb, h.inside (by decide)]

end

end Grammar

/-- Ends in the only end-of-input token it holds. -/
def Ended : List Token → Prop
  | [] => False
  | t :: ts => if t.kind = .eof then ts = [] else Ended ts

theorem Ended.of_inside {w ts : List Token} (hw : Inside w) (h : Ended (w ++ ts)) : Ended ts := by
  induction w with
  | nil => exact h
  | cons t w ih =>
    obtain ⟨ht, hw⟩ := inside_cons.mp hw
    rw [List.cons_append, Ended, if_neg ht] at h
    exact ih hw h

theorem Cursor.ended_tokens (c : Cursor) : Ended c.tokens := by
  fun_induction Cursor.tokens c with
  | case1 c step h =>
    rw [Ended, if_pos h]
  | case2 c step h ih =>
    rw [Ended, if_neg h]
    exact ih

theorem ended_tokenize (source : String) : Ended (tokenize source) := Cursor.ended_tokens _

/-- A budget that is enough for a stream is enough for its first statement. -/
theorem statement_settled {n : Nat} {ts : List Token} (hn : 4 * ts.length + 3 < n + 1) :
    statement n ts = Unbounded.statement ts :=
  Unbounded.readers_eq .statement (Nat.lt_of_succ_lt_succ hn)

theorem Parser.bind_value_ne_none {α β : Type} {p : Parser α} {f : α → Parser β} {ts : List Token}
    (hp : (p ts).value ≠ none) (hf : ∀ a, (f a (p ts).rest).value ≠ none) :
    ((p >>= f) ts).value ≠ none := by
  rcases h : p ts with ⟨_ | a, rest, ds⟩
  · exact absurd (by rw [h]) hp
  · rw [bind_of_some f h]
    have hfa := hf a
    rwa [h] at hfa

theorem statements_value_ne_none {n : Nat} {ts : List Token} (hn : 4 * ts.length + 3 < n) :
    (statements n ts).value ≠ none := by
  induction n generalizing ts with
  | zero => omega
  | succ n ih =>
    simp only [statements]
    split
    · simp
    · rename_i hk
      cases ts with
      | nil => exact absurd rfl hk
      | cons t ts =>
        have hle := (Unbounded.takes_statement.rest (t :: ts)).length_le
        rw [← statement_settled hn] at hle
        simp only [List.length_cons, List.tail_cons] at hn hle
        exact bind_value_ne_none nofun fun s =>
          bind_value_ne_none (ih (by simp only [attempt]; omega)) nofun

theorem statements_sound {n : Nat} {ts rest : List Token} {ss : List Stmt} (hts : Ended ts)
    (hn : 4 * ts.length + 3 < n) (h : Reads (statements n) ts ss rest) : Body .eof ts ss := by
  induction n generalizing ts ss with
  | zero => omega
  | succ n ih =>
    rw [reads_iff] at h
    simp only [statements] at h
    cases ts with
    | nil => cases hts
    | cons t ts =>
      split at h
      · rename_i hk
        rw [kindAt_cons] at hk
        rw [Ended, if_pos hk] at hts
        obtain rfl : [] = ss := by simpa using congrArg Parsed.value h
        exact hts ▸ .done hk
      · simp only [read_eq_iff, reads_bind, reads_pure] at h
        obtain ⟨o, mid, ho, more, _, hmore, rfl, rfl⟩ := h
        have hloud := (Unbounded.loudness _).statement t ts (Nat.lt_succ_self _)
        rw [← statement_settled hn] at hloud
        obtain ⟨s, rfl, hs⟩ := LoudTo.reads_attempt hloud ho
        replace hs : Reads Unbounded.statement (t :: ts) s mid :=
          (statement_settled hn).symm.trans hs
        have hlt := hs.length_lt Unbounded.takes_statement
        obtain ⟨w, hw, hstmt⟩ := (Unbounded.soundness _).statement (Nat.le_refl _) hs
        have hbody := ih (.of_inside hstmt.inside (hw ▸ hts)) (by omega) hmore
        rw [hw]
        exact .step hstmt hbody

theorem statements_complete {n : Nat} {ts : List Token} {ss : List Stmt} (h : Body .eof ts ss)
    (hn : 4 * ts.length + 3 < n) : Reads (statements n) ts ss [] := by
  induction n generalizing ts ss with
  | zero => omega
  | succ n ih =>
    rw [reads_iff]
    cases h with
    | done ht => simp [statements, ht]
    | @step _ w v s ss hs hss =>
      have hr : Reads Unbounded.statement (w ++ v) s v := Unbounded.statement_complete hs fun _ =>
        ⟨rfl, hss.kindAt_ne (by decide) (by decide) (by decide) rfl,
          hss.kindAt_ne (by decide) (by decide) (by decide) rfl⟩
      have hlt := hr.length_lt Unbounded.takes_statement
      replace hr : Reads (statement n) (w ++ v) s v := (statement_settled hn).trans hr
      have hfirst : kindAt (w ++ v) ≠ .eof :=
        (hs.startsStmt_kindAt v).ne (by decide) (by decide) rfl
      simp only [statements, if_neg hfirst, read_eq_iff, reads_bind, reads_pure]
      exact ⟨_, _, hr.attempt, _, _, ih hss (by omega), rfl, rfl⟩

theorem derived_of_parse {source : String} {p : Program} (h : parse source = (p, [])) :
    Body .eof (tokenize source) p.statements := by
  have hn := Unbounded.lt_parseBudget (tokenize source).length
  unfold parse parseTokens at h
  obtain ⟨hp, hd⟩ := Prod.mk.inj h
  obtain ⟨ss, hss⟩ := Option.ne_none_iff_exists'.mp (statements_value_ne_none hn)
  have hr : Reads (statements (parseBudget (tokenize source).length)) (tokenize source) ss
      (statements (parseBudget (tokenize source).length) (tokenize source)).rest := by
    rw [reads_iff, ← hss, ← hd]
  have hbody := statements_sound (ended_tokenize source) hn hr
  rw [hss] at hp
  exact hp ▸ hbody

theorem parse_of_derived {source : String} {ss : List Stmt} (h : Body .eof (tokenize source) ss) :
    parse source = (⟨ss⟩, []) := by
  have hr := statements_complete h (Unbounded.lt_parseBudget (tokenize source).length)
  unfold parse parseTokens
  simp only [show statements _ _ = _ from hr]
  rfl

/-- A source is accepted without a diagnostic exactly when its tokens form a program of the grammar,
and the tree is the one they stand for. -/
theorem parse_eq_iff_derived (source : String) (p : Program) :
    parse source = (p, []) ↔ Body .eof (tokenize source) p.statements :=
  ⟨derived_of_parse, parse_of_derived⟩

end Monkey
