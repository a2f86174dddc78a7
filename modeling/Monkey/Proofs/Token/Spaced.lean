import Monkey.Proofs.Token.Append
import Monkey.Proofs.Token.Spelling

/-!
Texts with blanks between them. A text that leaves no string open keeps its tokens before anything
that does not go on with the last of them, and neither a blank nor a semicolon does. So texts with
blanks between them, and a semicolon behind the last one, have their tokens one after another.
-/

namespace Monkey

open Text

def TokenKind.unplaced (k : TokenKind) : Token := ⟨k, k.label, default⟩

def unplacedTokens (text : String) : List Token := (tokenize text).dropLast.map Token.unplaced

namespace Lexical

def Piece.Shut (p : Piece) : Prop := p.kind = .string → p.raw = '"' :: (p.text.toList ++ ['"'])

/-- No string of the text lacks its closing quote. -/
def Unbroken (text : String) : Prop :=
  ∃ ps last, Partition text.toList ps last ∧ ∀ p ∈ ps, p.Shut

section Quotes

theorem quote_notMem {p : Char → Bool} {cs : List Char} (hp : p '"' = false)
    (h : ∀ c ∈ cs, p c = true) : '"' ∉ cs := by
  intro hmem
  rw [h _ hmem] at hp
  cases hp

theorem Written.quote_notMem {k : TokenKind} {text raw rest : List Char}
    (h : Written k text raw rest) (hk : k ≠ .string) : '"' ∉ raw := by
  have hword {c : Char} {cs : List Char} (hc : isLetter c = true)
      (hcs : ∀ d ∈ cs, isWordChar d = true) : '"' ∉ c :: cs :=
    Lexical.quote_notMem (p := isWordChar) rfl
      (List.forall_mem_cons.mpr ⟨by simp [isWordChar, hc], hcs⟩)
  cases h with
  | @symbol _ c _ hc =>
    rw [← hc]
    cases k <;> decide
  | assign | equal | bang | notEqual => decide
  | integer hcs => exact Lexical.quote_notMem (p := isDigit) rfl hcs
  | keyword hc hcs => exact hword hc hcs
  | identifier hc hcs => exact hword hc hcs
  | string | openString => exact absurd rfl hk
  | illegal hc =>
    intro hmem
    exact hc (.inl (List.mem_singleton.mp hmem).symm)

theorem Written.string_cases {text raw rest : List Char} (h : Written .string text raw rest) :
    '"' ∉ text ∧ (raw = '"' :: (text ++ ['"']) ∨ raw = '"' :: text ∧ rest = []) := by
  cases h with
  | symbol hc => cases hc
  | keyword _ _ _ hk => exact absurd rfl (keyword?_eq_some hk).2
  | string hcs => exact ⟨hcs, .inl rfl⟩
  | openString hcs => exact ⟨hcs, .inr ⟨rfl, rfl⟩⟩

theorem not_shut {text : List Char} : '"' :: text ≠ '"' :: (text ++ ['"']) := by
  intro heq
  have hlength := congrArg List.length heq
  simp at hlength

/-- Quotes come in pairs up to a string that is not closed. -/
theorem Partition.count_quote {cs : List Char} {ps : List Piece} {last : List Char}
    (h : Partition cs ps last) : cs.count '"' % 2 = 0 ↔ ∀ p ∈ ps, p.Shut := by
  induction h with
  | last hgap =>
    have hcount := List.count_eq_zero.mpr (quote_notMem (p := isBlank) rfl hgap)
    simp [hcount]
  | @piece p rest ps last hp hps ih =>
    have hgap := List.count_eq_zero.mpr (quote_notMem (p := isBlank) rfl hp.gap_blank)
    rw [List.count_append, List.count_append, hgap, Nat.zero_add, List.forall_mem_cons]
    by_cases hk : p.kind = .string
    · have hwritten := hp.written
      rw [hk] at hwritten
      obtain ⟨htext, hraw | ⟨hraw, rfl⟩⟩ := hwritten.string_cases
      · have hshut : p.Shut := fun _ => hraw
        have htwo : p.raw.count '"' = 2 := by simp [hraw, List.count_eq_zero.mpr htext]
        rw [htwo, ← ih]
        simp [hshut]
      · have hopen : ¬p.Shut := fun hshut => not_shut (hraw.symm.trans (hshut hk))
        have hone : p.raw.count '"' = 1 := by simp [hraw, List.count_eq_zero.mpr htext]
        simp [hone, hopen]
    · have hshut : p.Shut := fun hstring => absurd hstring hk
      have hnone := List.count_eq_zero.mpr (hp.written.quote_notMem hk)
      rw [hnone, Nat.zero_add, ih]
      simp [hshut]

theorem unbroken_iff {text : String} : Unbroken text ↔ text.toList.count '"' % 2 = 0 := by
  constructor
  · rintro ⟨ps, last, hps, hshut⟩
    exact hps.count_quote.mpr hshut
  · intro heven
    obtain ⟨ps, last, hps⟩ := exists_partition text.toList
    exact ⟨ps, last, hps, hps.count_quote.mp heven⟩

instance (text : String) : Decidable (Unbroken text) := decidable_of_iff _ unbroken_iff.symm

end Quotes

/-- Characters that some token could go on with. -/
def joins (c : Char) : Bool := isWordChar c || c == '='

theorem Ends.imp {p q : Char → Bool} {cs : List Char} (h : Ends p cs)
    (hpq : ∀ c, p c = false → q c = false) : Ends q cs := fun c hc => hpq c (h c hc)

/-- A token other than an open string can stand before anything that does not go on with it. -/
theorem Written.before {k : TokenKind} {text raw rest rest' : List Char}
    (h : Written k text raw rest) (hshut : k = .string → raw = '"' :: (text ++ ['"']))
    (hends : Ends joins rest') : Written k text raw rest' := by
  have hword : Ends isWordChar rest' := hends.imp fun c hc => (Bool.or_eq_false_iff.mp hc).1
  have hequals : Ends (· == '=') rest' := hends.imp fun c hc => (Bool.or_eq_false_iff.mp hc).2
  have hdigit : Ends isDigit rest' := hword.imp fun c hc => (Bool.or_eq_false_iff.mp hc).2
  cases h with
  | symbol hc hassign hbang => exact .symbol hc hassign hbang
  | assign _ => exact .assign hequals
  | equal => exact .equal
  | bang _ => exact .bang hequals
  | notEqual => exact .notEqual
  | integer hcs _ => exact .integer hcs hdigit
  | keyword hc hcs _ hk => exact .keyword hc hcs hword hk
  | identifier hc hcs _ hk => exact .identifier hc hcs hword hk
  | string hcs => exact .string hcs
  | openString _ => exact absurd (hshut rfl) not_shut
  | illegal hc => exact .illegal hc

theorem Partition.last_blank {cs : List Char} {ps : List Piece} {last : List Char}
    (h : Partition cs ps last) : ∀ c ∈ last, isBlank c = true := by
  induction h with
  | last hgap => exact hgap
  | piece _ _ ih => exact ih

theorem ends_joins_blanks {gap cs : List Char} (hgap : ∀ c ∈ gap, isBlank c = true)
    (hcs : gap = [] → Ends joins cs) : Ends joins (gap ++ cs) := by
  cases gap with
  | nil => exact hcs rfl
  | cons c gap =>
    have hblank := hgap c List.mem_cons_self
    refine ends_cons ?_ _
    simp only [isBlank, Bool.or_eq_true, beq_iff_eq] at hblank
    rcases hblank with ((rfl | rfl) | rfl) | rfl <;> rfl

/-- A text without an open string keeps its tokens before anything that does not go on with the last
of them. -/
theorem Unbroken.tokens_append {w : String} (hw : Unbroken w) {rest : List Char}
    (hends : Ends joins rest) (start : Position) :
    (Cursor.mk (w.toList ++ rest) start).tokens.map Token.unplaced =
      unplacedTokens w ++ (Cursor.mk rest (start.after w.toList)).tokens.map Token.unplaced := by
  obtain ⟨ps, last, hps, hshut⟩ := hw
  have hlast : Ends joins (last ++ rest) := ends_joins_blanks hps.last_blank fun _ => hends
  have hend : ∀ p ∈ ps.getLast?, Written p.kind p.text.toList p.raw (last ++ rest) := by
    intro p hp
    exact (hps.written_getLast p hp).before (hshut p (List.mem_of_getLast? hp)) hlast
  have htokens : tokenize w = tokensOf .start ps last := hps.tokens .start
  rw [hps.tokens_append hend start, List.map_append, unplacedTokens, htokens, List.map_dropLast,
    List.map_dropLast, map_unplaced_tokensOf start .start]

/-- The texts `ws`, each behind at least one blank, and a semicolon, with or without blanks before
it. -/
inductive Spaced : List String → List Char → Prop where
  | ending {gap} : (∀ c ∈ gap, isBlank c = true) → Spaced [] (gap ++ [';'])
  | text {w ws gap cs} : (∀ c ∈ gap, isBlank c = true) → gap ≠ [] → Spaced ws cs →
      Spaced (w :: ws) (gap ++ (w.toList ++ cs))

theorem Spaced.ends {ws : List String} {cs : List Char} (h : Spaced ws cs) (rest : List Char) :
    Ends joins (cs ++ rest) := by
  cases h with
  | ending hgap =>
    rw [List.append_assoc]
    exact ends_joins_blanks hgap fun _ => ends_cons rfl rest
  | text hgap hne _ =>
    rw [List.append_assoc]
    exact ends_joins_blanks hgap fun hnil => absurd hnil hne

theorem Spaced.tokens {ws : List String} {cs : List Char} (h : Spaced ws cs)
    (hws : ∀ w ∈ ws, Unbroken w) (b : String) (start : Position) :
    (Cursor.mk (cs ++ b.toList) start).tokens.map Token.unplaced =
      ws.flatMap unplacedTokens ++
        TokenKind.unplaced .semicolon :: (tokenize b).map Token.unplaced := by
  induction h generalizing start with
  | @ending gap hgap =>
    have hwritten : Written .semicolon [';'] [';'] b.toList := .symbol rfl (by decide) (by decide)
    rw [List.append_assoc, tokens_blanks hgap, tokens_of_written hwritten (ends_cons rfl _),
      List.map_cons, tokens_unplaced]
    rfl
  | @text w ws gap cs hgap _ hcs ih =>
    obtain ⟨hw, hws⟩ := List.forall_mem_cons.mp hws
    rw [List.append_assoc, List.append_assoc, tokens_blanks hgap, hw.tokens_append (hcs.ends _),
      ih hws, List.flatMap_cons, List.append_assoc]

end Lexical

end Monkey
