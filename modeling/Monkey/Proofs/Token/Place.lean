import Mathlib.Data.List.DropRight
import Monkey.Proofs.Token.Partition

/-!
Where tokens stand. Reading counts lines and columns up character by character, over blanks, strings
and line ends alike. What it has counted is always the place behind the text read so far, and that
place can be told from the text alone: the line by the line feeds in it, the column by what follows
the last of them.
-/

namespace Monkey

namespace Position

def behind (cs : List Char) : Position :=
  ⟨1 + cs.count '\n', 1 + (cs.rtakeWhile (· != '\n')).length⟩

theorem behind_concat (cs : List Char) (c : Char) : behind (cs ++ [c]) = (behind cs).advance c := by
  unfold behind advance
  by_cases hc : c = '\n'
  · subst hc
    rw [if_pos rfl, List.rtakeWhile_concat_neg _ _ _ (by decide)]
    simp [Nat.add_assoc]
  · rw [if_neg hc, List.rtakeWhile_concat_pos _ _ _ (by simpa using hc)]
    simp [hc, Nat.add_assoc]

theorem after_behind (before cs : List Char) :
    (behind before).after cs = behind (before ++ cs) := by
  induction cs generalizing before with
  | nil => rw [after_nil, List.append_nil]
  | cons c cs ih => rw [after_cons, ← behind_concat, ih, List.append_assoc, List.singleton_append]

/-- A line feed costs the columns before it, so lines and columns together stay within the text. -/
theorem line_add_column_behind_le (cs : List Char) :
    (behind cs).line + (behind cs).column ≤ cs.length + 2 := by
  have hsplit := List.rdropWhile_append_rtakeWhile (p := (· != '\n')) (l := cs)
  have hlast : (cs.rtakeWhile (· != '\n')).count '\n' = 0 := by
    rw [List.count_eq_zero]
    intro hmem
    simpa using List.mem_rtakeWhile_imp hmem
  have hcount : cs.count '\n' ≤ (cs.rdropWhile (· != '\n')).length := by
    rw [← hsplit, List.count_append, hlast, hsplit]
    exact List.count_le_length
  have hlength := congrArg List.length hsplit
  rw [List.length_append] at hlength
  simp only [behind]
  omega

def Before (p q : Position) : Prop := p.line < q.line ∨ p.line = q.line ∧ p.column < q.column

theorem Before.trans {p q r : Position} (h : p.Before q) (h' : q.Before r) : p.Before r := by
  unfold Before at *
  omega

theorem before_advance (p : Position) (c : Char) : p.Before (p.advance c) := by
  unfold advance
  split
  · exact .inl (Nat.lt_succ_self _)
  · exact .inr ⟨rfl, Nat.lt_succ_self _⟩

theorem before_behind_append (cs : List Char) {ds : List Char} (h : ds ≠ []) :
    (behind cs).Before (behind (cs ++ ds)) := by
  induction ds generalizing cs with
  | nil => exact absurd rfl h
  | cons d ds ih =>
    have hfirst : (behind cs).Before (behind (cs ++ [d])) :=
      behind_concat cs d ▸ before_advance _ d
    by_cases hds : ds = []
    · rw [hds]
      exact hfirst
    · rw [← List.singleton_append, ← List.append_assoc]
      exact hfirst.trans (ih _ hds)

end Position

namespace Lexical

def covered (ps : List Piece) : List Char := ps.flatMap fun p => p.gap ++ p.raw

@[simp] theorem covered_nil : covered [] = [] := rfl

@[simp] theorem covered_cons (p : Piece) (ps : List Piece) :
    covered (p :: ps) = p.gap ++ p.raw ++ covered ps := rfl

/-- The tokens of pieces that stand behind `before`, each placed by all the text in front of it. -/
def placed (before : List Char) : List Piece → List Token
  | [] => []
  | p :: ps =>
    ⟨p.kind, p.text, .behind (before ++ p.gap), .behind (before ++ p.gap ++ p.raw)⟩ ::
      placed (before ++ p.gap ++ p.raw) ps

def endOf (text : List Char) : Token := ⟨.eof, "", .behind text, .behind text⟩

theorem length_placed (before : List Char) (ps : List Piece) :
    (placed before ps).length = ps.length := by
  induction ps generalizing before with
  | nil => rfl
  | cons p ps ih => rw [placed, List.length_cons, List.length_cons, ih]

theorem getElem?_placed (before : List Char) (front : List Piece) (p : Piece) (back : List Piece) :
    (placed before (front ++ p :: back))[front.length]? =
      some ⟨p.kind, p.text, .behind (before ++ covered front ++ p.gap),
        .behind (before ++ covered front ++ p.gap ++ p.raw)⟩ := by
  induction front generalizing before with
  | nil => simp [placed]
  | cons q front ih => simp [placed, ih, List.append_assoc]

theorem span_of_mem_placed {before : List Char} {ps : List Piece} {t : Token}
    (h : t ∈ placed before ps) :
    ∃ cs cs', t.span = ⟨.behind cs, .behind cs'⟩ ∧ before <+: cs ∧ cs <+: cs' ∧
      cs' <+: before ++ covered ps := by
  induction ps generalizing before with
  | nil => cases h
  | cons p ps ih =>
    rw [covered_cons, ← List.append_assoc, ← List.append_assoc]
    rcases List.mem_cons.mp h with rfl | h
    · exact ⟨_, _, rfl, List.prefix_append _ _, List.prefix_append _ _, List.prefix_append _ _⟩
    · obtain ⟨cs, cs', hspan, hbefore, hcs, hcs'⟩ := ih h
      rw [List.append_assoc] at hbefore
      exact ⟨cs, cs', hspan, (List.prefix_append _ _).trans hbefore, hcs, hcs'⟩

theorem tokensOf_eq_placed (before : List Char) (ps : List Piece) (last : List Char) :
    tokensOf (.behind before) ps last =
      placed before ps ++ [endOf (before ++ covered ps ++ last)] := by
  induction ps generalizing before with
  | nil => simp [tokensOf, placed, endOf, Position.after_behind]
  | cons p ps ih => simp [tokensOf, placed, Piece.token, Position.after_behind, ih]

theorem pull_blank {gap : List Char} (hgap : ∀ c ∈ gap, Text.isBlank c = true) (start : Position)
    (n : Nat) : (Cursor.mk gap start).pull n =
      List.replicate n ⟨.eof, "", start.after gap, start.after gap⟩ := by
  induction n generalizing gap start with
  | zero => rfl
  | succ n ih =>
    simp only [Cursor.pull, next_blank hgap, List.replicate_succ]
    rw [ih (List.forall_mem_nil _), Position.after_nil]

theorem Partition.pull {cs : List Char} {ps : List Piece} {last : List Char}
    (h : Partition cs ps last) (before : List Char) (n : Nat) :
    (Cursor.mk cs (.behind before)).pull (ps.length + n) =
      placed before ps ++ List.replicate n (endOf (before ++ cs)) := by
  induction h generalizing before with
  | last hgap =>
    rw [List.length_nil, Nat.zero_add, pull_blank hgap, Position.after_behind]
    rfl
  | @piece p rest ps last hp _ ih =>
    rw [List.length_cons, Nat.add_right_comm, Cursor.pull, hp.next]
    simp only [Piece.token, Position.after_behind, placed, List.cons_append, ih, List.append_assoc]

/-- A token stands behind all the text in front of its first character, and ends behind all the text
up to its last one; end of input, however often it is asked for, stands behind the whole source. No
line and no column is beyond the length of the source. -/
theorem tokens_placed_by_text (source : String) :
    ∃ ps last ts, Partition source.toList ps last ∧ ts.length = ps.length ∧
      tokenize source = ts ++ [endOf source.toList] ∧
      (∀ n, (Cursor.ofString source).pull (ts.length + n) =
        ts ++ List.replicate n (endOf source.toList)) ∧
      (∀ front p back, ps = front ++ p :: back →
        let before := covered front ++ p.gap
        before ++ p.raw <+: source.toList ∧
        ts[front.length]? = some ⟨p.kind, p.text, .behind before, .behind (before ++ p.raw)⟩) ∧
      ∀ t ∈ tokenize source, ∀ place ∈ [t.span.first, t.span.stop],
        place.line + place.column ≤ source.length + 2 := by
  obtain ⟨ps, last, hps⟩ := exists_partition source.toList
  have hjoin : covered ps ++ last = source.toList := hps.join
  have htokens : tokenize source = placed [] ps ++ [endOf source.toList] := by
    have h := (hps.tokens .start).trans (tokensOf_eq_placed [] ps last)
    rwa [List.nil_append, hjoin] at h
  have hplaced (front : List Piece) (p : Piece) (back : List Piece) (h : ps = front ++ p :: back) :
      covered front ++ p.gap ++ p.raw <+: source.toList ∧
      (placed [] ps)[front.length]? = some ⟨p.kind, p.text, .behind (covered front ++ p.gap),
        .behind (covered front ++ p.gap ++ p.raw)⟩ := by
    constructor
    · refine ⟨covered back ++ last, ?_⟩
      rw [← hjoin, h]
      simp [covered]
    · rw [h]
      simpa using getElem?_placed [] front p back
  refine ⟨ps, last, placed [] ps, hps, length_placed _ _, htokens, ?_, hplaced, ?_⟩
  · intro n
    rw [length_placed]
    exact hps.pull [] n
  · have hbound {cs : List Char} (h : cs <+: source.toList) :
        (Position.behind cs).line + (Position.behind cs).column ≤ source.length + 2 := by
      have hlength := h.length_le
      rw [String.length_toList] at hlength
      exact (Position.line_add_column_behind_le cs).trans (by omega)
    intro t ht
    rw [htokens, List.mem_append, List.mem_singleton] at ht
    have hspan : ∃ cs cs', t.span = ⟨.behind cs, .behind cs'⟩ ∧ cs <+: cs' ∧
        cs' <+: source.toList := by
      rcases ht with ht | rfl
      · obtain ⟨cs, cs', hspan, -, hcs, hcs'⟩ := span_of_mem_placed ht
        exact ⟨cs, cs', hspan, hcs, hcs'.trans ⟨last, hjoin⟩⟩
      · exact ⟨_, _, rfl, List.prefix_refl _, List.prefix_refl _⟩
    obtain ⟨cs, cs', hspan, hcs, hcs'⟩ := hspan
    rw [hspan, List.forall_mem_cons, List.forall_mem_singleton]
    exact ⟨hbound (hcs.trans hcs'), hbound hcs'⟩

theorem Partition.ordered {cs : List Char} {ps : List Piece} {last : List Char}
    (h : Partition cs ps last) (before : List Char) :
    (tokensOf (.behind before) ps last).Pairwise fun t u => t.span.first.Before u.span.first := by
  induction h generalizing before with
  | last _ => exact List.pairwise_singleton _ _
  | @piece p rest ps last hp _ ih =>
    have hrest := ih (before ++ p.gap ++ p.raw)
    rw [tokensOf, Position.after_behind, Position.after_behind, List.pairwise_cons]
    refine ⟨fun u hu => ?_, hrest⟩
    have hlater : ∃ ds, u.span.first = .behind (before ++ p.gap ++ (p.raw ++ ds)) := by
      rw [tokensOf_eq_placed, List.mem_append, List.mem_singleton] at hu
      rcases hu with hu | rfl
      · obtain ⟨_, _, hspan, ⟨ds, rfl⟩, -⟩ := span_of_mem_placed hu
        exact ⟨ds, by rw [hspan, List.append_assoc _ p.raw]⟩
      · exact ⟨covered ps ++ last, by simp [endOf]⟩
    obtain ⟨ds, hfirst⟩ := hlater
    rw [hfirst, Piece.token, Position.after_behind]
    exact Position.before_behind_append _ (by simp [hp.written.ne_nil])

/-- The tokens of a source come in the order of their places, and no two stand at one place. -/
theorem tokenize_ordered (source : String) :
    (tokenize source).Pairwise fun t u => t.span.first.Before u.span.first := by
  obtain ⟨ps, last, hps⟩ := exists_partition source.toList
  rw [show tokenize source = tokensOf .start ps last from hps.tokens .start]
  exact hps.ordered []

end Lexical

end Monkey
