import Monkey.Proofs.Syntax.Unbounded

/-!
Reading without a fault, and the fact that no reader fails without a word. So where nothing is
reported, what was tried has been read.
-/

namespace Monkey

namespace Parser

variable {α β : Type}

theorem Takes.length_lt {p : Parser α} (h : Takes p) {ts : List Token} {a : α}
    (ha : (p ts).value = some a) : (p ts).rest.length < ts.length := by
  cases ts with
  | nil => rw [h.nil] at ha; cases ha
  | cons t ts => exact Nat.lt_succ_of_le (h.rest (t :: ts)).length_le

/-- Yields `a` without a fault and leaves `rest`. -/
def Reads (p : Parser α) (ts : List Token) (a : α) (rest : List Token) : Prop :=
  p ts = ⟨some a, rest, []⟩

theorem reads_iff {p : Parser α} {ts rest : List Token} {a : α} :
    Reads p ts a rest ↔ p ts = ⟨some a, rest, []⟩ := Iff.rfl

theorem read_eq_iff {p : Parser α} {ts rest : List Token} {a : α} :
    read ts p = ⟨some a, rest, []⟩ ↔ Reads p ts a rest := Iff.rfl

theorem reads_pure {a b : α} {ts rest : List Token} :
    Reads (pure a) ts b rest ↔ a = b ∧ ts = rest := by
  change (⟨some a, ts, []⟩ : Parsed α) = _ ↔ _
  simp

theorem reads_bind {p : Parser α} {f : α → Parser β} {ts rest : List Token} {b : β} :
    Reads (p >>= f) ts b rest ↔ ∃ a mid, Reads p ts a mid ∧ Reads (f a) mid b rest := by
  simp only [reads_iff]
  rcases h : p ts with ⟨_ | a, mid, ds⟩
  · rw [bind_of_none f h]; simp
  · rw [bind_of_some f h]
    rcases hq : f a mid with ⟨v, r, es⟩
    constructor
    · intro he
      simp only [Parsed.mk.injEq, List.append_eq_nil_iff] at he
      obtain ⟨rfl, rfl, rfl, rfl⟩ := he
      exact ⟨a, mid, rfl, hq⟩
    · rintro ⟨a', mid', ha, hb⟩
      simp only [Parsed.mk.injEq, Option.some.injEq] at ha
      obtain ⟨rfl, rfl, rfl⟩ := ha
      rw [hq] at hb
      simpa using hb

theorem Reads.bind {p : Parser α} {ts mid : List Token} {a : α} (h : Reads p ts a mid)
    (f : α → Parser β) : (p >>= f) ts = f a mid := by
  rw [bind_of_some f h]
  rfl

theorem reads_expect {kind : TokenKind} {ts rest : List Token} {t : Token} :
    Reads (expect kind) ts t rest ↔ ts = t :: rest ∧ t.kind = kind := by
  rw [reads_iff]
  cases ts with
  | nil => simp [expect]
  | cons s ts =>
    by_cases hs : s.kind = kind
    · simp only [expect, hs, ↓reduceIte, Parsed.mk.injEq, Option.some.injEq, and_true,
        List.cons.injEq]
      constructor
      · rintro ⟨rfl, rfl⟩; exact ⟨⟨rfl, rfl⟩, hs⟩
      · rintro ⟨⟨rfl, rfl⟩, _⟩; exact ⟨rfl, rfl⟩
    · simp only [expect, hs, ↓reduceIte, Parsed.mk.injEq, reduceCtorEq, false_and, List.cons.injEq,
        false_iff, not_and, and_imp]
      rintro rfl _ hk
      exact hs hk

theorem reads_statementEnd {ts rest : List Token} :
    Reads statementEnd ts () rest ↔
      (∃ s, s.kind = .semicolon ∧ ts = s :: rest) ∨ kindAt ts ≠ .semicolon ∧ ts = rest := by
  unfold Reads statementEnd
  cases ts with
  | nil => simp
  | cons s ts =>
    by_cases hs : s.kind = .semicolon
    · constructor
      · intro h
        obtain rfl : ts = rest := by simpa [hs] using h
        exact .inl ⟨s, hs, rfl⟩
      · rintro (⟨s', hs', heq⟩ | ⟨hne, -⟩)
        · obtain ⟨rfl, rfl⟩ := List.cons.inj heq
          simp [hs]
        · exact absurd hs hne
    · constructor
      · intro h
        obtain rfl : s :: ts = rest := by simpa [hs] using h
        exact .inr ⟨hs, rfl⟩
      · rintro (⟨s', hs', heq⟩ | ⟨-, rfl⟩)
        · obtain ⟨rfl, rfl⟩ := List.cons.inj heq
          exact absurd hs' hs
        · simp [hs]

theorem bind_clean {p : Parser α} {f : α → Parser β} {ts : List Token}
    (h : ((p >>= f) ts).diagnostics = []) : (p ts).diagnostics = [] := by
  rcases hp : p ts with ⟨_ | a, mid, ds⟩
  · rwa [bind_of_none f hp] at h
  · rw [bind_of_some f hp] at h
    exact (List.append_eq_nil_iff.mp h).1

/-- Says why whenever it fails on at most `L` tokens. -/
def LoudTo (L : Nat) (p : Parser α) : Prop :=
  ∀ ts, ts.length ≤ L → (p ts).value = none → (p ts).diagnostics ≠ []

namespace LoudTo

variable {L : Nat} {p : Parser α} {f : α → Parser β}

theorem bind_at {ts : List Token} (hp : (p ts).value = none → (p ts).diagnostics ≠ [])
    (hf : ∀ a, (p ts).value = some a →
      (f a (p ts).rest).value = none → (f a (p ts).rest).diagnostics ≠ []) :
    ((p >>= f) ts).value = none → ((p >>= f) ts).diagnostics ≠ [] := by
  rcases h : p ts with ⟨_ | a, mid, ds⟩
  · rw [h] at hp
    rw [bind_of_none f h]
    exact fun _ => hp rfl
  · rw [bind_of_some f h]
    intro hn hd
    have hfa := hf a (by rw [h])
    rw [h] at hfa
    exact hfa hn (List.append_eq_nil_iff.mp hd).2

theorem bind (hp : LoudTo L p) (ht : Trims p) (hf : ∀ a, LoudTo L (f a)) :
    LoudTo L (p >>= f) := fun ts hts =>
  bind_at (hp ts hts) fun a _ => hf a _ (Nat.le_trans (ht ts).length_le hts)

theorem bind_takes (hp : LoudTo L p) (ht : Takes p) (hf : ∀ K < L, ∀ a, LoudTo K (f a)) :
    LoudTo L (p >>= f) := by
  intro ts hts
  refine bind_at (hp ts hts) fun a ha => ?_
  have hlt := ht.length_lt ha
  exact hf (p ts).rest.length (by omega) a _ (Nat.le_refl _)

theorem pure (L : Nat) (a : α) : LoudTo L (pure a : Parser α) := by
  intro ts _ h
  cases h

theorem expect (L : Nat) (kind : TokenKind) : LoudTo L (expect kind) := by
  intro ts _
  cases ts with
  | nil => simp [Parser.expect]
  | cons t ts => by_cases ht : t.kind = kind <;> simp [Parser.expect, ht]

theorem attempt (L : Nat) : LoudTo L (attempt p) := by
  intro ts _ h
  cases h

theorem statementEnd (L : Nat) : LoudTo L statementEnd := by
  intro ts _
  unfold Parser.statementEnd
  split <;> simp

/-- Where failure is loud, a clean attempt is a success. -/
theorem reads_attempt {ts rest : List Token} {o : Option α}
    (hp : (p ts).value = none → (p ts).diagnostics ≠ []) (h : Reads (Parser.attempt p) ts o rest) :
    ∃ a, o = some a ∧ Reads p ts a rest := by
  unfold Reads Parser.attempt at h
  simp only [Parsed.mk.injEq, Option.some.injEq] at h
  obtain ⟨rfl, rfl, hd⟩ := h
  cases hv : (p ts).value with
  | none => exact absurd hd (hp hv)
  | some a => exact ⟨a, rfl, by unfold Reads; rw [← hv, ← hd]⟩

end LoudTo

end Parser

open Monkey.Parser

theorem loud_moreParams (L : Nat) : LoudTo L moreParams := by
  intro ts _
  fun_induction moreParams ts with
  | case4 c i ts hc hi q ih =>
    intro hn
    exact ih (by simp_all; omega) (by simpa [q] using hn)
  | _ => simp

theorem loud_params (L : Nat) : LoudTo L params := by
  intro ts hts
  unfold params
  split
  · simp
  · exact (LoudTo.expect L _).bind (trims_expect _) (fun _ => (loud_moreParams L).bind
      trims_moreParams fun _ => (LoudTo.expect L _).bind (trims_expect _) fun _ => .pure L _) ts hts

namespace Unbounded

/-- No reader fails without a word on at most `L` tokens. A statement is never looked for where the
stream has ended. -/
structure Loudness (L : Nat) : Prop where
  operand : LoudTo L operand
  expression : ∀ prec, LoudTo L (expression prec)
  statement : ∀ t ts, ts.length < L → (statement (t :: ts)).value = none →
    (statement (t :: ts)).diagnostics ≠ []
  operators : ∀ prec left, LoudTo L (operators prec left)
  blockBody : LoudTo L blockBody
  elseBranch : LoudTo L elseBranch
  listItems : ∀ close, LoudTo L (listItems close)
  moreItems : ∀ close, LoudTo L (moreItems close)
  hashPairs : LoudTo L hashPairs
  morePairs : LoudTo L morePairs

namespace Loudness

variable {L : Nat}

theorem operand_step (ih : ∀ K < L, Loudness K) : LoudTo L Unbounded.operand := by
  intro ts hts
  cases ts with
  | nil => simp [operand_nil]
  | cons t ts =>
    simp only [List.length_cons] at hts
    have I := ih ts.length (by omega)
    have hl := Nat.le_refl ts.length
    have hx (prec : Nat) := (takes_expression prec).trims
    rw [operand_cons]
    split <;> try simp
    · split <;> simp
    · exact (I.expression _).bind (hx _) (fun _ => .pure _ _) ts hl
    · exact (I.expression _).bind (hx _) (fun _ => .pure _ _) ts hl
    · exact (I.expression _).bind (hx _) (fun _ => (LoudTo.expect _ _).bind (trims_expect _)
        fun _ => .pure _ _) ts hl
    · exact (LoudTo.expect _ _).bind (trims_expect _) (fun _ => (I.expression _).bind (hx _)
        fun _ => (LoudTo.expect _ _).bind (trims_expect _) fun _ =>
        (LoudTo.expect _ _).bind (trims_expect _) fun _ => I.blockBody.bind trims_blockBody fun _ =>
        I.elseBranch.bind trims_elseBranch fun _ => .pure _ _) ts hl
    · exact (LoudTo.expect _ _).bind (trims_expect _) (fun _ => (loud_params _).bind trims_params
        fun _ => (LoudTo.expect _ _).bind (trims_expect _) fun _ => I.blockBody.bind trims_blockBody
        fun _ => .pure _ _) ts hl
    · exact (I.listItems _).bind (trims_listItems _) (fun _ => .pure _ _) ts hl
    · exact I.hashPairs.bind trims_hashPairs (fun _ => .pure _ _) ts hl

theorem expression_step (ih : ∀ K < L, Loudness K) (prec : Nat) :
    LoudTo L (Unbounded.expression prec) := by
  rw [expression_eq]
  exact (operand_step ih).bind_takes takes_operand fun K hK left => (ih K hK).operators prec left

theorem statement_step (ih : ∀ K < L, Loudness K) (t : Token) (ts : List Token)
    (hts : ts.length < L) : (Unbounded.statement (t :: ts)).value = none →
      (Unbounded.statement (t :: ts)).diagnostics ≠ [] := by
  have hx := (takes_expression 0).trims
  rw [statement_cons]
  split
  · intro hn hd
    have hname : (Parser.expect .identifier ts).value ≠ none := fun h =>
      LoudTo.expect _ _ ts (Nat.le_refl _) h (bind_clean (p := attempt (expect .identifier)) hd)
    refine LoudTo.bind_at (fun h => by cases h) (fun name ha => ?_) hn hd
    cases name with
    | none => exact absurd (Option.some.inj ha) hname
    | some name =>
      exact (LoudTo.attempt ts.length).bind (trims_expect _).attempt (fun _ =>
        (LoudTo.attempt _).bind hx.attempt fun _ => (LoudTo.statementEnd _).bind trims_statementEnd
        fun _ => .pure _ _) _ (trims_expect _ ts).length_le
  · split
    · exact (LoudTo.statementEnd _).bind trims_statementEnd (fun _ => .pure _ _) ts (Nat.le_refl _)
    · exact ((ih _ hts).expression 0).bind hx (fun _ => (LoudTo.statementEnd _).bind
        trims_statementEnd fun _ => .pure _ _) ts (Nat.le_refl _)
  · exact (expression_step ih 0).bind hx (fun _ => (LoudTo.statementEnd _).bind
      trims_statementEnd fun _ => .pure _ _) (t :: ts) hts

theorem operators_step (ih : ∀ K < L, Loudness K) (prec : Nat) (left : Expr) :
    LoudTo L (Unbounded.operators prec left) := by
  intro ts hts
  cases ts with
  | nil => simp [operators_nil]
  | cons t ts =>
    simp only [List.length_cons] at hts
    have I := ih ts.length (by omega)
    have hl := Nat.le_refl ts.length
    have hx (prec : Nat) := (takes_expression prec).trims
    rw [operators_cons]
    split
    · split
      · exact (I.expression _).bind (hx _) (fun _ => I.operators _ _) ts hl
      split
      · exact (I.listItems _).bind (trims_listItems _) (fun _ => I.operators _ _) ts hl
      · exact (I.expression _).bind (hx _) (fun _ => (LoudTo.expect _ _).bind (trims_expect _)
          fun _ => I.operators _ _) ts hl
    · simp

theorem blockBody_step (ih : ∀ K < L, Loudness K) : LoudTo L Unbounded.blockBody := by
  intro ts hts
  rw [blockBody_eq]
  split
  · simp
  split
  · simp
  · rename_i he
    cases ts with
    | nil => exact absurd rfl he
    | cons t ts =>
      have hlt := (takes_statement.rest (t :: ts)).length_le
      simp only [List.tail_cons, List.length_cons] at hlt hts
      refine LoudTo.bind_at (fun h => by cases h) fun s _ => ?_
      exact (ih ts.length (by omega)).blockBody.bind trims_blockBody (fun _ => .pure _ _) _ hlt

theorem elseBranch_step (ih : ∀ K < L, Loudness K) : LoudTo L Unbounded.elseBranch := by
  intro ts hts
  rw [elseBranch_eq]
  split
  · cases ts with
    | nil => simp_all
    | cons t ts =>
      exact (LoudTo.expect _ _).bind (trims_expect _) (fun _ => (ih ts.length hts).blockBody.bind
        trims_blockBody fun _ => .pure _ _) ts (Nat.le_refl _)
  · simp

theorem listItems_step (ih : ∀ K < L, Loudness K) (close : TokenKind) :
    LoudTo L (Unbounded.listItems close) := by
  intro ts hts
  rw [listItems_eq]
  split
  · simp
  · exact (expression_step ih 0).bind_takes (takes_expression 0) (fun K hK _ =>
      ((ih K hK).moreItems close).bind (trims_moreItems close) fun _ => .pure _ _) ts hts

theorem moreItems_step (ih : ∀ K < L, Loudness K) (close : TokenKind) :
    LoudTo L (Unbounded.moreItems close) := by
  intro ts hts
  rw [moreItems_eq]
  split
  · split
    · simp
    · cases ts with
      | nil => simp_all
      | cons t ts =>
        exact ((ih ts.length hts).expression 0).bind (takes_expression 0).trims (fun _ =>
          ((ih ts.length hts).moreItems close).bind (trims_moreItems close) fun _ => .pure _ _)
          ts (Nat.le_refl _)
  · exact (LoudTo.expect _ _).bind (trims_expect _) (fun _ => .pure _ _) ts hts

theorem hashPairs_step (ih : ∀ K < L, Loudness K) : LoudTo L Unbounded.hashPairs := by
  intro ts hts
  rw [hashPairs_eq]
  split
  · simp
  · exact (expression_step ih 0).bind_takes (takes_expression 0) (fun K hK _ =>
      (LoudTo.expect _ _).bind (trims_expect _) fun _ => ((ih K hK).expression 0).bind
      (takes_expression 0).trims fun _ => (ih K hK).morePairs.bind trims_morePairs
      fun _ => .pure _ _) ts hts

theorem morePairs_step (ih : ∀ K < L, Loudness K) : LoudTo L Unbounded.morePairs := by
  intro ts hts
  rw [morePairs_eq]
  split
  · simp
  · refine LoudTo.bind_at (LoudTo.expect L _ ts hts) fun c hc => ?_
    cases ts with
    | nil => cases hc
    | cons t ts =>
      simp only [List.length_cons] at hts
      simp only [expect] at hc ⊢
      split at hc
      · rw [if_pos (by assumption)]
        exact (ih ts.length (by omega)).hashPairs ts (Nat.le_refl _)
      · cases hc

end Loudness

theorem loudness (L : Nat) : Loudness L := by
  induction L using Nat.strongRecOn with
  | ind L ih =>
    exact ⟨Loudness.operand_step ih, Loudness.expression_step ih, Loudness.statement_step ih,
      Loudness.operators_step ih, Loudness.blockBody_step ih, Loudness.elseBranch_step ih,
      Loudness.listItems_step ih, Loudness.moreItems_step ih, Loudness.hashPairs_step ih,
      Loudness.morePairs_step ih⟩

end Unbounded

end Monkey
