import Mathlib.Data.List.TakeWhile
import Monkey.Token.Scan

/-!
Token streams as partitions of their source. A source falls into pieces, each a gap of blanks with a
token behind it, and a last gap. The rules below say how a token is written and what may follow it;
nothing in them refers to how a reader goes about finding it. They leave no choice, so every source
has exactly one partition, and the tokens of the source are those of the pieces.
-/

namespace Monkey

open Text

namespace Lexical

def Ends (p : Char → Bool) (cs : List Char) : Prop := ∀ c ∈ cs.head?, p c = false

def Symbol (k : TokenKind) (c : Char) : Prop := k.label.toList = [c]

def StartsToken (c : Char) : Prop :=
  c = '"' ∨ (∃ k, Symbol k c) ∨ isDigit c = true ∨ isLetter c = true

/-- `Written k text raw rest`: a token of kind `k` with the given text is written as `raw` where
`rest` follows. -/
inductive Written : TokenKind → List Char → List Char → List Char → Prop where
  | symbol {k c rest} : Symbol k c → k ≠ .assign → k ≠ .bang → Written k [c] [c] rest
  | assign {rest} : Ends (· == '=') rest → Written .assign ['='] ['='] rest
  | equal {rest} : Written .equal ['=', '='] ['=', '='] rest
  | bang {rest} : Ends (· == '=') rest → Written .bang ['!'] ['!'] rest
  | notEqual {rest} : Written .notEqual ['!', '='] ['!', '='] rest
  | integer {c cs rest} : (∀ d ∈ c :: cs, isDigit d = true) → Ends isDigit rest →
      Written .integer (c :: cs) (c :: cs) rest
  | keyword {k c cs rest} : isLetter c = true → (∀ d ∈ cs, isWordChar d = true) →
      Ends isWordChar rest → keyword? (String.ofList (c :: cs)) = some k →
      Written k (c :: cs) (c :: cs) rest
  | identifier {c cs rest} : isLetter c = true → (∀ d ∈ cs, isWordChar d = true) →
      Ends isWordChar rest → keyword? (String.ofList (c :: cs)) = none →
      Written .identifier (c :: cs) (c :: cs) rest
  | string {cs rest} : '"' ∉ cs → Written .string cs ('"' :: (cs ++ ['"'])) rest
  | openString {cs} : '"' ∉ cs → Written .string cs ('"' :: cs) []
  | illegal {c rest} : ¬StartsToken c → Written .illegal [c] [c] rest

@[ext]
structure Piece where
  gap : List Char
  kind : TokenKind
  text : String
  raw : List Char

/-- A piece that the rules allow where `rest` follows. Its gap goes as far as the blanks do. -/
structure Piece.Fits (p : Piece) (rest : List Char) : Prop where
  gap_blank : ∀ c ∈ p.gap, isBlank c = true
  gap_ends : Ends isBlank p.raw
  written : Written p.kind p.text.toList p.raw rest

/-- A source, its pieces and the gap behind the last of them. -/
inductive Partition : List Char → List Piece → List Char → Prop where
  | last {gap} : (∀ c ∈ gap, isBlank c = true) → Partition gap [] gap
  | piece {p rest ps last} : p.Fits rest → Partition rest ps last →
      Partition (p.gap ++ (p.raw ++ rest)) (p :: ps) last

def Piece.token (p : Piece) (start : Position) : Token :=
  ⟨p.kind, p.text, start.after p.gap, (start.after p.gap).after p.raw⟩

def tokensOf (start : Position) : List Piece → List Char → List Token
  | [], last => [⟨.eof, "", start.after last, start.after last⟩]
  | p :: ps, last => p.token start :: tokensOf ((start.after p.gap).after p.raw) ps last

section Runs

variable {p : Char → Bool} {w rest : List Char}

theorem takeWhile_of_ends (hw : ∀ c ∈ w, p c = true) (hr : Ends p rest) :
    (w ++ rest).takeWhile p = w := by
  have hnone : rest.takeWhile p = [] := by
    cases rest with
    | nil => rfl
    | cons c cs => simp [hr c rfl]
  rw [List.takeWhile_append_of_pos hw, hnone, List.append_nil]

theorem dropWhile_of_ends (hw : ∀ c ∈ w, p c = true) (hr : Ends p rest) :
    (w ++ rest).dropWhile p = rest := by
  have hall : rest.dropWhile p = rest := by
    cases rest with
    | nil => rfl
    | cons c cs => simp [hr c rfl]
  rw [List.dropWhile_append_of_pos hw, hall]

theorem ends_dropWhile (cs : List Char) : Ends p (cs.dropWhile p) := by
  intro c hc
  have hhead := List.head?_dropWhile_not p cs
  rwa [Option.mem_def.mp hc] at hhead

theorem ends_append (hw : w ≠ []) : Ends p (w ++ rest) ↔ Ends p w := by
  cases w with
  | nil => exact absurd rfl hw
  | cons c cs => rfl

end Runs

section Cut

open Monkey.Lexeme

theorem isLetter_eq_false_of_isDigit {c : Char} (h : isDigit c = true) : isLetter c = false := by
  simp only [isDigit, Bool.and_eq_true, decide_eq_true_eq] at h
  have hle : c.toNat ≤ 57 := h.2
  have halpha : isAlphabetic c = false := if_pos (Nat.lt_of_le_of_lt hle (by decide))
  have hne : c ≠ '_' := by
    rintro rfl
    exact absurd hle (by decide)
  simp [isLetter, halpha, hne]

theorem symbol?_eq_some_iff {c : Char} {k : TokenKind} :
    symbol? c = some k ↔ Symbol k c ∧ k ≠ .assign ∧ k ≠ .bang := by
  unfold Symbol
  constructor
  · intro h
    unfold symbol? at h
    split at h
    all_goals cases h
    all_goals decide
  · rintro ⟨hlabel, hassign, hbang⟩
    cases k <;> simp [TokenKind.label] at hlabel hassign hbang
    all_goals
      subst hlabel
      rfl

theorem not_symbol_of_isWordChar {c : Char} (h : isWordChar c = true) :
    c ≠ '"' ∧ c ≠ '=' ∧ c ≠ '!' ∧ symbol? c = none := by
  refine ⟨?_, ?_, ?_, ?_⟩
  · rintro rfl
    cases h
  · rintro rfl
    cases h
  · rintro rfl
    cases h
  · unfold symbol?
    split
    all_goals first | rfl | cases h

theorem cut_symbol {c : Char} {k : TokenKind} (h : symbol? c = some k) (cs : List Char) :
    cut c cs = single k c cs := by
  have hquote : c ≠ '"' := by
    rintro rfl
    cases h
  have hassign : c ≠ '=' := by
    rintro rfl
    cases h
  have hbang : c ≠ '!' := by
    rintro rfl
    cases h
  simp only [cut, if_neg hquote, if_neg hassign, if_neg hbang, h]

theorem cut_digit {c : Char} (h : isDigit c = true) (cs : List Char) :
    cut c cs = run (fun _ => .integer) isDigit c cs := by
  have hword : isWordChar c = true := by simp [isWordChar, h]
  obtain ⟨hquote, hassign, hbang, hsymbol⟩ := not_symbol_of_isWordChar hword
  simp only [cut, if_neg hquote, if_neg hassign, if_neg hbang, hsymbol, if_pos h]

theorem cut_letter {c : Char} (h : isLetter c = true) (cs : List Char) :
    cut c cs = run wordKind isWordChar c cs := by
  have hword : isWordChar c = true := by simp [isWordChar, h]
  obtain ⟨hquote, hassign, hbang, hsymbol⟩ := not_symbol_of_isWordChar hword
  have hdigit : ¬isDigit c = true := by
    intro hd
    rw [isLetter_eq_false_of_isDigit hd] at h
    cases h
  simp only [cut, if_neg hquote, if_neg hassign, if_neg hbang, hsymbol, if_neg hdigit, if_pos h]

theorem cut_illegal {c : Char} (h : ¬StartsToken c) (cs : List Char) :
    cut c cs = single .illegal c cs := by
  simp only [StartsToken, not_or, not_exists] at h
  obtain ⟨hquote, hsymbol, hdigit, hletter⟩ := h
  have hassign : c ≠ '=' := by
    rintro rfl
    exact hsymbol .assign rfl
  have hbang : c ≠ '!' := by
    rintro rfl
    exact hsymbol .bang rfl
  have hnone : symbol? c = none :=
    Option.eq_none_iff_forall_ne_some.mpr fun k hk => hsymbol k (symbol?_eq_some_iff.mp hk).1
  simp only [cut, if_neg hquote, if_neg hassign, if_neg hbang, hnone, if_neg hdigit,
    if_neg hletter]

theorem withEquals_of_ends {cs : List Char} (h : Ends (· == '=') cs) (alone together : TokenKind)
    (c : Char) : withEquals alone together c cs = single alone c cs := by
  unfold withEquals
  split
  · cases h '=' rfl
  · rfl

/-- A token that is written by the rules is the one that is cut off. -/
theorem Written.cut_eq {k : TokenKind} {text raw rest : List Char} (h : Written k text raw rest) :
    ∃ c cs, raw ++ rest = c :: cs ∧ cut c cs = ⟨k, text, raw, rest⟩ := by
  have noQuote {cs : List Char} (h : '"' ∉ cs) : ∀ d ∈ cs, (d != '"') = true := by
    intro d hd
    simpa using ne_of_mem_of_not_mem hd h
  cases h with
  | symbol h hassign hbang =>
    exact ⟨_, _, rfl, cut_symbol (symbol?_eq_some_iff.mpr ⟨h, hassign, hbang⟩) _⟩
  | assign h => exact ⟨_, _, rfl, withEquals_of_ends h _ _ _⟩
  | bang h => exact ⟨_, _, rfl, withEquals_of_ends h _ _ _⟩
  | equal => exact ⟨_, _, rfl, rfl⟩
  | notEqual => exact ⟨_, _, rfl, rfl⟩
  | @integer c cs _ hcs hrest =>
    rw [List.forall_mem_cons] at hcs
    refine ⟨c, cs ++ rest, rfl, ?_⟩
    rw [cut_digit hcs.1]
    simp only [run, takeWhile_of_ends hcs.2 hrest, dropWhile_of_ends hcs.2 hrest]
  | @keyword _ c cs _ hc hcs hrest hk =>
    refine ⟨c, cs ++ rest, rfl, ?_⟩
    rw [cut_letter hc]
    simp only [run, takeWhile_of_ends hcs hrest, dropWhile_of_ends hcs hrest, wordKind, hk,
      Option.getD_some]
  | @identifier c cs _ hc hcs hrest hk =>
    refine ⟨c, cs ++ rest, rfl, ?_⟩
    rw [cut_letter hc]
    simp only [run, takeWhile_of_ends hcs hrest, dropWhile_of_ends hcs hrest, wordKind, hk,
      Option.getD_none]
  | string hcs =>
    have hclose : Ends (· != '"') ('"' :: rest) := by simp [Ends]
    refine ⟨'"', text ++ '"' :: rest, by simp, ?_⟩
    rw [cut, if_pos rfl]
    simp only [quotedText, takeWhile_of_ends (noQuote hcs) hclose,
      dropWhile_of_ends (noQuote hcs) hclose, List.take_succ_cons, List.take_zero,
      List.drop_succ_cons, List.drop_zero, List.cons_append]
  | openString hcs =>
    have hend : Ends (· != '"') [] := by simp [Ends]
    refine ⟨'"', text ++ [], rfl, ?_⟩
    rw [cut, if_pos rfl, quotedText, takeWhile_of_ends (noQuote hcs) hend,
      dropWhile_of_ends (noQuote hcs) hend]
    simp
  | illegal h => exact ⟨_, _, rfl, cut_illegal h _⟩

theorem Written.ne_nil {k : TokenKind} {text raw rest : List Char} (h : Written k text raw rest) :
    raw ≠ [] := by
  cases h <;> exact List.cons_ne_nil _ _

theorem written_quotedText (cs : List Char) :
    Written .string (quotedText cs).text (quotedText cs).taken (quotedText cs).rest := by
  have hcontent : '"' ∉ cs.takeWhile (· != '"') := by
    intro hmem
    simpa using List.mem_takeWhile_imp hmem
  have hends := ends_dropWhile (p := (· != '"')) cs
  unfold quotedText
  cases hrest : cs.dropWhile (· != '"') with
  | nil => simpa using Written.openString hcontent
  | cons q rest =>
    rw [hrest] at hends
    obtain rfl : q = '"' := by simpa using hends q rfl
    exact .string hcontent

theorem written_withEquals {c : Char} {alone together : TokenKind} (cs : List Char)
    (halone : ∀ {rest}, Ends (· == '=') rest → Written alone [c] [c] rest)
    (htogether : ∀ {rest}, Written together [c, '='] [c, '='] rest) :
    Written (withEquals alone together c cs).kind (withEquals alone together c cs).text
      (withEquals alone together c cs).taken (withEquals alone together c cs).rest := by
  unfold withEquals
  split
  · exact htogether
  · rename_i hne
    refine halone fun d hd => ?_
    obtain ⟨tail, rfl⟩ := List.head?_eq_some_iff.mp hd
    simpa using fun h : d = '=' => hne tail (h ▸ rfl)

theorem written_word {c : Char} (hc : isLetter c = true) (cs : List Char) :
    Written (run wordKind isWordChar c cs).kind (run wordKind isWordChar c cs).text
      (run wordKind isWordChar c cs).taken (run wordKind isWordChar c cs).rest := by
  have hcs : ∀ d ∈ cs.takeWhile isWordChar, isWordChar d = true := fun d => List.mem_takeWhile_imp
  have hrest := ends_dropWhile (p := isWordChar) cs
  simp only [run, wordKind]
  cases hk : keyword? (String.ofList (c :: cs.takeWhile isWordChar)) with
  | none => exact .identifier hc hcs hrest hk
  | some k => exact .keyword hc hcs hrest hk

/-- The longest token is written by the rules. -/
theorem written_cut (c : Char) (cs : List Char) :
    Written (cut c cs).kind (cut c cs).text (cut c cs).taken (cut c cs).rest := by
  by_cases hquote : c = '"'
  · rw [cut, if_pos hquote]
    exact written_quotedText cs
  by_cases hassign : c = '='
  · subst hassign
    exact written_withEquals cs .assign .equal
  by_cases hbang : c = '!'
  · subst hbang
    exact written_withEquals cs .bang .notEqual
  cases hsymbol : symbol? c with
  | some k =>
    obtain ⟨hlabel, hne, hne'⟩ := symbol?_eq_some_iff.mp hsymbol
    rw [cut_symbol hsymbol]
    exact .symbol hlabel hne hne'
  | none =>
    by_cases hdigit : isDigit c = true
    · rw [cut_digit hdigit]
      refine .integer (List.forall_mem_cons.mpr ⟨hdigit, fun d => List.mem_takeWhile_imp⟩) ?_
      exact ends_dropWhile cs
    by_cases hletter : isLetter c = true
    · rw [cut_letter hletter]
      exact written_word hletter cs
    · have hnone : ¬StartsToken c := by
        rintro (h | ⟨k, hk⟩ | h | h)
        · exact hquote h
        · have hne : k ≠ .assign := by
            rintro rfl
            exact hassign (List.cons.inj (show ['='] = [c] from hk)).1.symm
          have hne' : k ≠ .bang := by
            rintro rfl
            exact hbang (List.cons.inj (show ['!'] = [c] from hk)).1.symm
          have hsome := symbol?_eq_some_iff.mpr ⟨hk, hne, hne'⟩
          rw [hsymbol] at hsome
          cases hsome
        · exact hdigit h
        · exact hletter h
      rw [cut_illegal hnone]
      exact .illegal hnone

end Cut

theorem exists_partition (cs : List Char) : ∃ ps last, Partition cs ps last := by
  induction hn : cs.length using Nat.strongRecOn generalizing cs with
  | ind n ih =>
    have hblank : ∀ c ∈ cs.takeWhile isBlank, isBlank c = true := fun c => List.mem_takeWhile_imp
    have hends := ends_dropWhile (p := isBlank) cs
    have hsplit := List.takeWhile_append_dropWhile (p := isBlank) (l := cs)
    cases hrest : cs.dropWhile isBlank with
    | nil =>
      rw [hrest, List.append_nil] at hsplit
      exact ⟨[], cs, .last (hsplit ▸ hblank)⟩
    | cons c rest =>
      rw [hrest] at hends hsplit
      have hshorter := Lexeme.length_rest_lt c rest
      have hlength := congrArg List.length hsplit
      rw [List.length_append] at hlength
      obtain ⟨ps, last, hps⟩ := ih _ (by omega) (Lexeme.cut c rest).rest rfl
      let p : Piece := ⟨cs.takeWhile isBlank, (Lexeme.cut c rest).kind,
        String.ofList (Lexeme.cut c rest).text, (Lexeme.cut c rest).taken⟩
      have hwritten := written_cut c rest
      have hp : p.Fits (Lexeme.cut c rest).rest := by
        refine ⟨hblank, ?_, String.toList_ofList.symm ▸ hwritten⟩
        rwa [← ends_append hwritten.ne_nil, Lexeme.taken_append_rest]
      refine ⟨p :: ps, last, ?_⟩
      have hwhole := Partition.piece hp hps
      rwa [Lexeme.taken_append_rest, hsplit] at hwhole

/-- A piece at the front of a source is what comes before its first token and that token. -/
theorem Piece.Fits.takeWhile {p : Piece} {rest : List Char} (h : p.Fits rest) :
    (p.gap ++ (p.raw ++ rest)).takeWhile isBlank = p.gap :=
  takeWhile_of_ends h.gap_blank ((ends_append h.written.ne_nil).mpr h.gap_ends)

theorem Piece.Fits.dropWhile {p : Piece} {rest : List Char} (h : p.Fits rest) :
    (p.gap ++ (p.raw ++ rest)).dropWhile isBlank = p.raw ++ rest :=
  dropWhile_of_ends h.gap_blank ((ends_append h.written.ne_nil).mpr h.gap_ends)

theorem Piece.Fits.unique {p q : Piece} {rest rest' : List Char} (h : p.Fits rest)
    (h' : q.Fits rest') (heq : p.gap ++ (p.raw ++ rest) = q.gap ++ (q.raw ++ rest')) :
    p = q ∧ rest = rest' := by
  have hgap : p.gap = q.gap := by rw [← h.takeWhile, heq, h'.takeWhile]
  have hraw : p.raw ++ rest = q.raw ++ rest' := by rw [← h.dropWhile, heq, h'.dropWhile]
  obtain ⟨c, cs, hcs, hcut⟩ := h.written.cut_eq
  obtain ⟨d, ds, hds, hcut'⟩ := h'.written.cut_eq
  obtain ⟨rfl, rfl⟩ : c = d ∧ cs = ds := List.cons.inj (hcs.symm.trans (hraw.trans hds))
  obtain ⟨hkind, htext, hraw, hrest⟩ := Lexeme.mk.inj (hcut.symm.trans hcut')
  exact ⟨Piece.ext hgap hkind (String.toList_inj.mp htext) hraw, hrest⟩

theorem Piece.Fits.not_blank {p : Piece} {rest : List Char} (h : p.Fits rest) :
    ¬∀ c ∈ p.gap ++ (p.raw ++ rest), isBlank c = true := by
  intro hblank
  have hnil : p.raw ++ rest = [] := by
    rw [← h.dropWhile, List.dropWhile_eq_nil_iff]
    exact hblank
  exact h.written.ne_nil (List.append_eq_nil_iff.mp hnil).1

theorem Partition.unique {cs : List Char} {ps qs : List Piece} {last last' : List Char}
    (h : Partition cs ps last) (h' : Partition cs qs last') : ps = qs ∧ last = last' := by
  induction h generalizing qs last' with
  | last hgap =>
    cases h' with
    | last _ => exact ⟨rfl, rfl⟩
    | piece hq _ => exact absurd hgap hq.not_blank
  | @piece p rest ps last hp _ ih =>
    generalize hcs : p.gap ++ (p.raw ++ rest) = cs at h'
    cases h' with
    | last hgap => exact absurd (hcs ▸ hgap) hp.not_blank
    | piece hq hqs =>
      obtain ⟨rfl, rfl⟩ := hp.unique hq hcs
      obtain ⟨rfl, rfl⟩ := ih hqs
      exact ⟨rfl, rfl⟩

theorem Partition.join {cs : List Char} {ps : List Piece} {last : List Char}
    (h : Partition cs ps last) : ps.flatMap (fun p => p.gap ++ p.raw) ++ last = cs := by
  induction h with
  | last _ => rfl
  | piece _ _ ih => rw [List.flatMap_cons, List.append_assoc, ih, List.append_assoc]

theorem Piece.Fits.next {p : Piece} {rest : List Char} (h : p.Fits rest) (start : Position) :
    (Cursor.mk (p.gap ++ (p.raw ++ rest)) start).next =
      (p.token start, ⟨rest, (start.after p.gap).after p.raw⟩) := by
  obtain ⟨c, cs, hcs, hcut⟩ := h.written.cut_eq
  simp only [Cursor.next, h.takeWhile, h.dropWhile.trans hcs, hcut, String.ofList_toList,
    Piece.token]

theorem Piece.Fits.kind_ne_eof {p : Piece} {rest : List Char} (h : p.Fits rest) :
    p.kind ≠ .eof := by
  obtain ⟨c, cs, -, hcut⟩ := h.written.cut_eq
  have hkind := Lexeme.kind_ne_eof c cs
  rwa [hcut] at hkind

theorem next_blank {gap : List Char} (hgap : ∀ c ∈ gap, isBlank c = true) (start : Position) :
    (Cursor.mk gap start).next =
      (⟨.eof, "", start.after gap, start.after gap⟩, ⟨[], start.after gap⟩) := by
  have htake : gap.takeWhile isBlank = gap := by
    have := @takeWhile_of_ends isBlank gap [] hgap nofun
    rwa [List.append_nil] at this
  have hdrop : gap.dropWhile isBlank = [] := List.dropWhile_eq_nil_iff.mpr hgap
  simp only [Cursor.next, htake, hdrop]

theorem Partition.tokens {cs : List Char} {ps : List Piece} {last : List Char}
    (h : Partition cs ps last) (start : Position) :
    (Cursor.mk cs start).tokens = tokensOf start ps last := by
  induction h generalizing start with
  | last hgap =>
    rw [Cursor.tokens, next_blank hgap]
    rfl
  | @piece p rest ps last hp _ ih =>
    have hkind : (p.token start).kind ≠ .eof := hp.kind_ne_eof
    rw [Cursor.tokens, hp.next start]
    dsimp only
    rw [dif_neg hkind, ih, tokensOf]

/-- Every source falls into gaps and tokens in exactly one way that the rules allow, and its tokens
are those. -/
theorem tokenize_partition (source : String) :
    ∃ ps last, Partition source.toList ps last ∧
      ps.flatMap (fun p => p.gap ++ p.raw) ++ last = source.toList ∧
      tokenize source = tokensOf .start ps last ∧
      ∀ qs last', Partition source.toList qs last' → qs = ps ∧ last' = last := by
  obtain ⟨ps, last, h⟩ := exists_partition source.toList
  exact ⟨ps, last, h, h.join, h.tokens .start, fun _ _ h' => h'.unique h⟩

end Lexical

end Monkey
