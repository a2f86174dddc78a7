import Monkey.Proofs.Syntax.Grammar
import Monkey.Proofs.Syntax.Retoken
import Monkey.Proofs.Token.Partition

/-!
The tokens of one text behind another. A token depends on the character right behind it at most, and
a semicolon not even on that; so a text that ends in a semicolon, or has no tokens, keeps its tokens
whatever comes behind it. What comes behind it is read from the place where the text ends, and has
the tokens it has elsewhere but for their places.
-/

namespace Monkey

open Text

namespace Lexical

/-- Only the first character behind a token has a say in it. -/
theorem Written.append {k : TokenKind} {text raw rest : List Char} (h : Written k text raw rest)
    (hne : rest ≠ []) (more : List Char) : Written k text raw (rest ++ more) := by
  cases h with
  | symbol hc hassign hbang => exact .symbol hc hassign hbang
  | assign hrest => exact .assign ((ends_append hne).mpr hrest)
  | equal => exact .equal
  | bang hrest => exact .bang ((ends_append hne).mpr hrest)
  | notEqual => exact .notEqual
  | integer hcs hrest => exact .integer hcs ((ends_append hne).mpr hrest)
  | keyword hc hcs hrest hk => exact .keyword hc hcs ((ends_append hne).mpr hrest) hk
  | identifier hc hcs hrest hk => exact .identifier hc hcs ((ends_append hne).mpr hrest) hk
  | string hcs => exact .string hcs
  | openString hcs => exact absurd rfl hne
  | illegal hc => exact .illegal hc

theorem Written.semicolon {text raw rest : List Char} (h : Written .semicolon text raw rest)
    (rest' : List Char) : Written .semicolon text raw rest' := by
  cases h with
  | symbol hc hassign hbang => exact .symbol hc hassign hbang
  | @keyword _ c cs _ _ _ _ hk =>
    unfold keyword? at hk
    split at hk <;> cases hk

theorem Partition.ne_nil {cs : List Char} {p : Piece} {ps : List Piece} {last : List Char}
    (h : Partition cs (p :: ps) last) : cs ≠ [] := by
  cases h with
  | piece hp _ => simp [hp.written.ne_nil]

theorem tokens_blanks {gap : List Char} (hgap : ∀ c ∈ gap, isBlank c = true) (cs : List Char)
    (start : Position) :
    (Cursor.mk (gap ++ cs) start).tokens = (Cursor.mk cs (start.after gap)).tokens := by
  have hnext : (Cursor.mk (gap ++ cs) start).next = (Cursor.mk cs (start.after gap)).next := by
    simp only [Cursor.next, List.takeWhile_append_of_pos hgap, List.dropWhile_append_of_pos hgap,
      Position.after_append]
  rw [Cursor.tokens, hnext, ← Cursor.tokens]

theorem tokensOf_ne_nil (start : Position) (ps : List Piece) (last : List Char) :
    tokensOf start ps last ≠ [] := by
  cases ps <;> simp [tokensOf]

theorem Partition.written_getLast {cs : List Char} {ps : List Piece} {last : List Char}
    (h : Partition cs ps last) :
    ∀ p ∈ ps.getLast?, Written p.kind p.text.toList p.raw last := by
  induction h with
  | last _ => nofun
  | @piece p rest ps last hp hps ih =>
    cases hps with
    | last _ =>
      intro q hq
      obtain rfl := Option.some.inj hq
      exact hp.written
    | piece _ _ => simpa only [List.getLast?_cons_cons] using ih

/-- The tokens of a text stay when something is put behind it that the last of them can do with, and
reading goes on where the text ends. -/
theorem Partition.tokens_append {as : List Char} {ps : List Piece} {last : List Char}
    (h : Partition as ps last) {bs : List Char}
    (hend : ∀ p ∈ ps.getLast?, Written p.kind p.text.toList p.raw (last ++ bs)) (start : Position) :
    (Cursor.mk (as ++ bs) start).tokens =
      (tokensOf start ps last).dropLast ++ (Cursor.mk bs (start.after as)).tokens := by
  induction h generalizing start with
  | last hgap => exact tokens_blanks hgap bs start
  | @piece p rest ps last hp hps ih =>
    have hfits : p.Fits (rest ++ bs) := by
      refine ⟨hp.gap_blank, hp.gap_ends, ?_⟩
      cases hps with
      | last _ => exact hend p rfl
      | piece hq hqs => exact hp.written.append (Partition.piece hq hqs).ne_nil bs
    have hrest : ∀ q ∈ ps.getLast?, Written q.kind q.text.toList q.raw (last ++ bs) := by
      intro q hq
      apply hend q
      cases ps with
      | nil => cases hq
      | cons r rs => simpa [List.getLast?_cons] using hq
    have hkind : (p.token start).kind ≠ .eof := hfits.kind_ne_eof
    rw [List.append_assoc, List.append_assoc, Cursor.tokens, hfits.next start]
    dsimp only
    rw [dif_neg hkind, ih hrest, tokensOf, List.dropLast_cons_of_ne_nil (tokensOf_ne_nil _ _ _),
      List.cons_append, Position.after_append, Position.after_append]

theorem map_unplaced_tokensOf (start start' : Position) (ps : List Piece) (last : List Char) :
    (tokensOf start ps last).map Token.unplaced = (tokensOf start' ps last).map Token.unplaced := by
  induction ps generalizing start start' with
  | nil => rfl
  | cons p ps ih =>
    rw [tokensOf, tokensOf, List.map_cons, List.map_cons, ih]
    rfl

theorem kinds_tokensOf (start : Position) (ps : List Piece) (last : List Char) :
    (tokensOf start ps last).dropLast.map Token.kind = ps.map Piece.kind := by
  induction ps generalizing start with
  | nil => rfl
  | cons p ps ih =>
    rw [tokensOf, List.dropLast_cons_of_ne_nil (tokensOf_ne_nil _ _ _), List.map_cons, ih]
    rfl

end Lexical

open Lexical

/-- A text without tokens, or with a semicolon as the last of them. -/
def Concluded (source : String) : Prop :=
  (tokenize source).dropLast = [] ∨ Grammar.Closed (tokenize source).dropLast

instance (source : String) : Decidable (Concluded source) :=
  inferInstanceAs (Decidable (_ ∨ _))

/-- Behind a concluded text, another one is read from the place where the first one ends. -/
theorem tokenize_append {a : String} (ha : Concluded a) (b : String) :
    tokenize (a ++ b) =
      (tokenize a).dropLast ++ (Cursor.mk b.toList (Position.start.after a.toList)).tokens := by
  obtain ⟨ps, last, hps⟩ := exists_partition a.toList
  have htokens : tokenize a = tokensOf .start ps last := hps.tokens .start
  have hsemicolon : ∀ p ∈ ps.getLast?, p.kind = .semicolon := by
    intro p hp
    have hkinds := congrArg List.getLast? (kinds_tokensOf .start ps last)
    rw [List.getLast?_map, List.getLast?_map, Option.mem_def.mp hp, ← htokens] at hkinds
    rcases ha with hnil | hclosed
    · rw [hnil] at hkinds
      cases hkinds
    · exact Option.some.inj (hkinds.symm.trans (Grammar.closed_iff.mp hclosed))
  have hend : ∀ p ∈ ps.getLast?, Written p.kind p.text.toList p.raw (last ++ b.toList) := by
    intro p hp
    have hwritten := hps.written_getLast p hp
    rw [hsemicolon p hp] at hwritten ⊢
    exact hwritten.semicolon _
  have hjoined : (a ++ b).toList = a.toList ++ b.toList := String.toList_append
  rw [htokens, ← hps.tokens_append hend .start, ← hjoined]
  rfl

theorem tokens_unplaced (text : String) (start : Position) :
    (Cursor.mk text.toList start).tokens.map Token.unplaced =
      (tokenize text).map Token.unplaced := by
  obtain ⟨ps, last, hps⟩ := exists_partition text.toList
  have htokens : tokenize text = tokensOf .start ps last := hps.tokens .start
  rw [hps.tokens start, htokens]
  exact map_unplaced_tokensOf start .start ps last

end Monkey
