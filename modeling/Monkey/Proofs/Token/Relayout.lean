import Monkey.Proofs.Token.Spaced

/-!
Tokens survive a new layout. Whatever its place was, a token can be read back from what it is shown
as, where a blank or nothing follows: an unterminated string is shown with its closing quote, and
every other token as it was written. So the tokens of a source, shown in order with blanks between
them, are the tokens of the text that this makes.
-/

namespace Monkey

open Text

theorem Token.render_eq_text {t : Token} (heof : t.kind ≠ .eof) (hstring : t.kind ≠ .string) :
    t.render = t.text := by
  unfold Token.render
  split
  · contradiction
  · contradiction
  · rfl

namespace Lexical

def Blank (gap : String) : Prop := ∀ c ∈ gap.toList, isBlank c = true

instance (gap : String) : Decidable (Blank gap) :=
  List.decidableBAll (fun c => isBlank c = true) gap.toList

/-- Tokens in a text of their own: the blanks in front, and every token with the blanks behind it,
which only the last one may lack. -/
structure Layout where
  front : String
  laid : List (Token × String)
  front_blank : Blank front
  gaps_blank : ∀ p ∈ laid, Blank p.2
  gaps_apart : ∀ p ∈ laid.dropLast, p.2 ≠ ""

def shown : List (Token × String) → List Char
  | [] => []
  | (t, gap) :: laid => t.render.toList ++ (gap.toList ++ shown laid)

namespace Layout

def tokens (l : Layout) : List Token := l.laid.map Prod.fst

def text (l : Layout) : String := String.ofList (l.front.toList ++ shown l.laid)

end Layout

/-- A token that is read from what it is shown as, before anything that does not go on with it. -/
structure Legible (t : Token) : Prop where
  front : Ends isBlank t.render.toList
  written : ∀ rest, Ends joins rest → Written t.kind t.text.toList t.render.toList rest

/-- Only the quotes of a string are not part of its text. -/
theorem Written.raw_eq {k : TokenKind} {text raw rest : List Char} (h : Written k text raw rest)
    (hk : k ≠ .string) : raw = text := by
  cases h with
  | string | openString => exact absurd rfl hk
  | _ => rfl

theorem Piece.Fits.legible {p : Piece} {rest : List Char} (h : p.Fits rest) (start : Position) :
    Legible (p.token start) := by
  have hwritten := h.written
  by_cases hk : p.kind = .string
  · -- An open string gets its closing quote here.
    have hrender : (p.token start).render.toList = '"' :: (p.text.toList ++ ['"']) := by
      simp [Token.render, Piece.token, hk]
    rw [hk] at hwritten
    obtain ⟨htext, -⟩ := hwritten.string_cases
    constructor
    · rw [hrender]
      exact ends_cons rfl _
    · intro rest' _
      have hkind : (p.token start).kind = .string := hk
      rw [hrender, hkind]
      exact .string htext
  · have hrender : (p.token start).render.toList = p.raw := by
      rw [Token.render_eq_text h.kind_ne_eof hk, hwritten.raw_eq hk]
      rfl
    constructor
    · rw [hrender]
      exact h.gap_ends
    · intro rest' hends
      rw [hrender]
      exact hwritten.before (fun hstring => absurd hstring hk) hends

theorem Partition.legible {cs : List Char} {ps : List Piece} {last : List Char}
    (h : Partition cs ps last) (start : Position) :
    ∀ t ∈ (tokensOf start ps last).dropLast, Legible t := by
  induction h generalizing start with
  | last _ => exact List.forall_mem_nil _
  | piece hp _ ih =>
    rw [tokensOf, List.dropLast_cons_of_ne_nil (tokensOf_ne_nil _ _ _), List.forall_mem_cons]
    exact ⟨hp.legible start, ih _⟩

theorem legible_tokenize (source : String) : ∀ t ∈ (tokenize source).dropLast, Legible t := by
  obtain ⟨ps, last, h⟩ := exists_partition source.toList
  rw [tokenize, Cursor.ofString, h.tokens]
  exact h.legible .start

theorem map_tokens_shown {laid : List (Token × String)} (hlegible : ∀ p ∈ laid, Legible p.1)
    (hblank : ∀ p ∈ laid, Blank p.2) (hapart : ∀ p ∈ laid.dropLast, p.2 ≠ "") (start : Position) :
    (Cursor.mk (shown laid) start).tokens.map (fun t => (t.kind, t.text)) =
      laid.map (fun p => (p.1.kind, p.1.text)) ++ [(.eof, "")] := by
  induction laid generalizing start with
  | nil =>
    rw [shown, tokens_nil]
    rfl
  | cons p laid ih =>
    obtain ⟨t, gap⟩ := p
    obtain ⟨ht, hlegible⟩ := List.forall_mem_cons.mp hlegible
    obtain ⟨hgap, hblank⟩ := List.forall_mem_cons.mp hblank
    -- Only the last token may lack a blank, and nothing at all comes behind it then.
    have hends : Ends joins (gap.toList ++ shown laid) := by
      refine ends_joins_blanks hgap fun hnil => ?_
      cases laid with
      | nil => exact nofun
      | cons q laid =>
        have hne : gap ≠ "" := hapart (t, gap) List.mem_cons_self
        exact absurd (String.toList_inj.mp hnil) hne
    have hapart' : ∀ q ∈ laid.dropLast, q.2 ≠ "" := by
      intro q hq
      apply hapart q
      cases laid with
      | nil => cases hq
      | cons r laid => exact List.mem_cons_of_mem _ hq
    rw [shown, tokens_of_written (ht.written _ hends) ht.front, tokens_blanks hgap, List.map_cons,
      ih hlegible hblank hapart', String.ofList_toList, List.map_cons, List.cons_append]

/-- The tokens of a source, in any layout: reading the text gives tokens of the same kinds and texts
in the same order, and then end of input. -/
theorem tokens_survive_layout {source : String} {l : Layout}
    (h : l.tokens = (tokenize source).dropLast) :
    (tokenize l.text).map (fun t => (t.kind, t.text)) =
      (tokenize source).dropLast.map (fun t => (t.kind, t.text)) ++ [(.eof, "")] := by
  have hlegible : ∀ p ∈ l.laid, Legible p.1 := by
    intro p hp
    apply legible_tokenize source
    rw [← h]
    exact List.mem_map_of_mem hp
  rw [tokenize, Cursor.ofString, Layout.text, String.toList_ofList, tokens_blanks l.front_blank,
    map_tokens_shown hlegible l.gaps_blank l.gaps_apart, ← h, Layout.tokens, List.map_map]
  rfl

/-- Tokens that touch, operators that could run together, a line end within a string and a string
without an end. -/
theorem tokens_survive_layout_instance :
    let source := "12ab!==\"x\ny\"é@\"z"
    ∃ l : Layout, l.tokens = (tokenize source).dropLast ∧
      l.text = "\n12\tab !=\r\n= \"x\ny\" é\n@  \"z\"" ∧
      (tokenize l.text).map (fun t => (t.kind, t.text)) =
        [(.integer, "12"), (.identifier, "ab"), (.notEqual, "!="), (.assign, "="),
          (.string, "x\ny"), (.identifier, "é"), (.illegal, "@"), (.string, "z"), (.eof, "")] := by
  intro source
  let laid := (tokenize source).dropLast.zip ["\t", " ", "\r\n", " ", " ", "\n", "  ", ""]
  let l : Layout := ⟨"\n", laid, by decide, by decide +kernel, by decide +kernel⟩
  have htokens : l.tokens = (tokenize source).dropLast := by decide +kernel
  have hsource : (tokenize source).dropLast.map (fun t => (t.kind, t.text)) =
      [(.integer, "12"), (.identifier, "ab"), (.notEqual, "!="), (.assign, "="),
        (.string, "x\ny"), (.identifier, "é"), (.illegal, "@"), (.string, "z")] := by
    decide +kernel
  have hread := tokens_survive_layout htokens
  rw [hsource] at hread
  exact ⟨l, htokens, by decide +kernel, hread⟩

end Lexical

end Monkey
