import Monkey.Proofs.Token.Partition
import Monkey.Syntax

/-!
Texts that are read as the same tokens wherever they stand. A text is taken from its front: a blank
leaves no token, a symbol ends of its own accord, and a word ends where no further character of a
word follows. What has been read so far is passed on to what is said about the rest.
-/

namespace Monkey.Lexical

open Text

/-- From any place, and before anything that does not begin with a character of class `p`, the text
`cs` is read as tokens with the property `Q`. -/
def Spells (p : Char → Bool) (cs : List Char) (Q : List Token → Prop) : Prop :=
  ∀ rest start, Ends p rest → ∃ w stop,
    (Cursor.mk (cs ++ rest) start).tokens = w ++ (Cursor.mk rest stop).tokens ∧ Q w

def never (_ : Char) : Bool := false

theorem ends_never (cs : List Char) : Ends never cs := fun _ _ => rfl

theorem ends_cons {p : Char → Bool} {c : Char} (h : p c = false) (cs : List Char) :
    Ends p (c :: cs) := by
  intro d hd
  obtain rfl := Option.some.inj hd
  exact h

theorem isBlank_of_isWordChar {c : Char} (h : isWordChar c = true) : isBlank c = false := by
  rw [Bool.eq_false_iff]
  intro hblank
  simp only [isBlank, Bool.or_eq_true, beq_iff_eq] at hblank
  rcases hblank with ((rfl | rfl) | rfl) | rfl <;> cases h

theorem tokens_of_written {k : TokenKind} {text raw rest : List Char} (h : Written k text raw rest)
    (hraw : Ends isBlank raw) (start : Position) :
    (Cursor.mk (raw ++ rest) start).tokens =
      ⟨k, String.ofList text, start, start.after raw⟩ ::
        (Cursor.mk rest (start.after raw)).tokens := by
  let piece : Piece := ⟨[], k, String.ofList text, raw⟩
  have hfits : piece.Fits rest := ⟨nofun, hraw, String.toList_ofList.symm ▸ h⟩
  have hnext := hfits.next start
  have hkind : (piece.token start).kind ≠ .eof := hfits.kind_ne_eof
  rw [Cursor.tokens, show (Cursor.mk (raw ++ rest) start).next = _ from hnext, dif_neg hkind]
  rfl

theorem tokens_blank (cs : List Char) (start : Position) :
    (Cursor.mk (' ' :: cs) start).tokens = (Cursor.mk cs (start.advance ' ')).tokens := by
  have hnext : (Cursor.mk (' ' :: cs) start).next = (Cursor.mk cs (start.advance ' ')).next := rfl
  rw [Cursor.tokens, hnext, ← Cursor.tokens]

namespace Spells

variable {p q : Char → Bool} {cs ds : List Char} {Q R : List Token → Prop}

theorem nil (h : Q []) : Spells p [] Q := fun _ start _ => ⟨[], start, rfl, h⟩

theorem imp (h : Spells p cs R) (hQ : ∀ w, R w → Q w) : Spells p cs Q := by
  intro rest start hrest
  obtain ⟨w, stop, htokens, hw⟩ := h rest start hrest
  exact ⟨w, stop, htokens, hQ w hw⟩

theorem of_never (h : Spells never cs Q) : Spells p cs Q :=
  fun rest start _ => h rest start (ends_never rest)

theorem append (h : Spells q cs R) (hends : ∀ rest, Ends p rest → Ends q (ds ++ rest))
    (hds : ∀ w, R w → Spells p ds fun v => Q (w ++ v)) : Spells p (cs ++ ds) Q := by
  intro rest start hrest
  obtain ⟨w, mid, hcs, hw⟩ := h (ds ++ rest) start (hends rest hrest)
  obtain ⟨v, stop, hrest, hv⟩ := hds w hw rest mid hrest
  refine ⟨w ++ v, stop, ?_, hv⟩
  rw [List.append_assoc, hcs, hrest, List.append_assoc]

theorem before {c : Char} (h : Spells q cs R) (hc : q c = false)
    (hds : ∀ w, R w → Spells p (c :: ds) fun v => Q (w ++ v)) : Spells p (cs ++ c :: ds) Q :=
  h.append (fun rest _ => ends_cons hc (ds ++ rest)) hds

theorem closed (h : Spells never cs R) (hds : ∀ w, R w → Spells p ds fun v => Q (w ++ v)) :
    Spells p (cs ++ ds) Q :=
  h.append (fun _ _ => ends_never _) hds

theorem blank (h : Spells p cs Q) : Spells p (' ' :: cs) Q := by
  intro rest start hrest
  obtain ⟨w, stop, htokens, hw⟩ := h rest (start.advance ' ') hrest
  exact ⟨w, stop, (tokens_blank (cs ++ rest) start).trans htokens, hw⟩

theorem token {k : TokenKind} {text raw : List Char}
    (h : ∀ rest, Ends p rest → Written k text raw rest) (hraw : Ends isBlank raw)
    (hQ : ∀ t : Token, t.kind = k → t.text = String.ofList text → Q [t]) : Spells p raw Q := by
  intro rest start hrest
  exact ⟨[_], _, tokens_of_written (h rest hrest) hraw start, hQ _ rfl rfl⟩

theorem symbol {c : Char} {k : TokenKind} (hk : symbol? c = some k)
    (hds : ∀ t : Token, t.kind = k → Spells p ds fun v => Q (t :: v)) : Spells p (c :: ds) Q := by
  obtain ⟨hlabel, hassign, hbang⟩ := symbol?_eq_some_iff.mp hk
  have hblank : isBlank c = false := by
    cases k <;> simp [Symbol, TokenKind.label] at hlabel
    all_goals first | rfl | (subst hlabel; rfl)
  have hc : Spells never [c] fun w => ∃ t, w = [t] ∧ t.kind = k :=
    token (fun _ _ => .symbol hlabel hassign hbang) (ends_cons hblank []) fun t ht _ => ⟨t, rfl, ht⟩
  refine hc.closed ?_
  rintro _ ⟨t, rfl, ht⟩
  exact hds t ht

theorem word {c : Char} {k : TokenKind} (hc : isLetter c = true)
    (hcs : ∀ d ∈ cs, isWordChar d = true) (hk : wordKind (String.ofList (c :: cs)) = k) :
    Spells isWordChar (c :: cs) fun w =>
      ∃ t, w = [t] ∧ t.kind = k ∧ t.text = String.ofList (c :: cs) := by
  have hword : isWordChar c = true := by simp [isWordChar, hc]
  refine token (fun rest hrest => ?_) (ends_cons (isBlank_of_isWordChar hword) cs)
    fun t ht htext => ⟨t, rfl, ht, htext⟩
  unfold wordKind at hk
  cases hkeyword : keyword? (String.ofList (c :: cs)) with
  | none =>
    rw [hkeyword] at hk
    exact hk ▸ .identifier hc hcs hrest hkeyword
  | some k' =>
    rw [hkeyword] at hk
    exact hk ▸ .keyword hc hcs hrest hkeyword

theorem keyword {name : String} {k : TokenKind} (hk : keyword? name = some k) :
    Spells isWordChar name.toList fun w => ∃ t, w = [t] ∧ t.kind = k := by
  obtain ⟨c, cs, hname, hc, hcs⟩ : ∃ c cs, name.toList = c :: cs ∧ isLetter c = true ∧
      ∀ d ∈ cs, isWordChar d = true := by
    unfold keyword? at hk
    split at hk
    all_goals first | exact ⟨_, _, rfl, rfl, List.all_eq_true.mp rfl⟩ | cases hk
  have hkind : wordKind (String.ofList (c :: cs)) = k := by
    rw [← hname, String.ofList_toList, wordKind, hk, Option.getD_some]
  rw [hname]
  refine (word hc hcs hkind).imp ?_
  rintro _ ⟨t, rfl, ht, -⟩
  exact ⟨t, rfl, ht⟩

theorem quoted {text : String} (h : '"' ∉ text.toList) :
    Spells never ('"' :: (text.toList ++ ['"'])) fun w =>
      ∃ t, w = [t] ∧ t.kind = .string ∧ t.text = text :=
  token (fun _ _ => .string h) (ends_cons rfl _) fun t ht htext =>
    ⟨t, rfl, ht, htext.trans String.ofList_toList⟩

theorem number (n : Nat) : Spells isWordChar n.repr.toList fun w =>
    ∃ t, w = [t] ∧ t.kind = .integer ∧ decimalValue t.text.toList = n := by
  rw [Nat.repr_eq_ofList_toDigits, String.toList_ofList]
  have hdigits : ∀ d ∈ Nat.toDigits 10 n, isDigit d = true := fun d hd =>
    Nat.isDigit_of_mem_toDigits (by decide) (by decide) hd
  have hvalue : decimalValue (Nat.toDigits 10 n) = n :=
    Nat.ofDigitChars_toDigits (by decide) (by decide)
  cases hcs : Nat.toDigits 10 n with
  | nil => exact absurd hcs Nat.toDigits_ne_nil
  | cons c cs =>
    rw [hcs] at hdigits hvalue
    have hword : isWordChar c = true := by simp [isWordChar, hdigits c List.mem_cons_self]
    refine token (fun rest hrest => .integer hdigits fun d hd => ?_)
      (ends_cons (isBlank_of_isWordChar hword) cs) fun t ht htext => ⟨t, rfl, ht, ?_⟩
    · have hnot := hrest d hd
      simp only [isWordChar, Bool.or_eq_false_iff] at hnot
      exact hnot.2
    · rw [htext, String.toList_ofList, hvalue]

theorem equalsSign : Spells (· == '=') ['='] fun w => ∃ t, w = [t] ∧ t.kind = .assign :=
  token (fun _ hrest => .assign hrest) (ends_cons rfl _) fun t ht _ => ⟨t, rfl, ht⟩

theorem minusSign : Spells never ['-'] fun w => ∃ t, w = [t] ∧ t.kind = .minus ∧ t.text = "-" := by
  obtain ⟨hlabel, hassign, hbang⟩ := symbol?_eq_some_iff.mp (rfl : symbol? '-' = some .minus)
  exact token (fun _ _ => .symbol hlabel hassign hbang) (ends_cons rfl _) fun t ht htext =>
    ⟨t, rfl, ht, htext⟩

/-- A binary operator ends of its own accord: none of them begins another token. -/
theorem binaryOp (op : BinaryOp) : Spells never op.symbol.toList fun w =>
    ∃ t, w = [t] ∧ BinaryOp.ofKind? t.kind = some op := by
  have single {c : Char} {k : TokenKind} (hk : symbol? c = some k)
      (hop : BinaryOp.ofKind? k = some op) :
      Spells never [c] fun w => ∃ t, w = [t] ∧ BinaryOp.ofKind? t.kind = some op :=
    symbol hk fun t ht => nil ⟨t, rfl, ht ▸ hop⟩
  cases op with
  | eq => exact token (fun _ _ => .equal) (ends_cons rfl _) fun t ht _ => ⟨t, rfl, by rw [ht]; rfl⟩
  | ne =>
    exact token (fun _ _ => .notEqual) (ends_cons rfl _) fun t ht _ => ⟨t, rfl, by rw [ht]; rfl⟩
  | _ => exact single rfl rfl

/-- A unary operator must not run into a `=`. -/
theorem unaryOp (op : UnaryOp) : Spells (· == '=') op.symbol.toList fun w =>
    ∃ t, w = [t] ∧ UnaryOp.ofKind? t.kind = some op := by
  cases op with
  | not =>
    exact token (fun _ hrest => .bang hrest) (ends_cons rfl _) fun t ht _ => ⟨t, rfl, by rw [ht]; rfl⟩
  | neg => exact symbol rfl fun t ht => nil ⟨t, rfl, by rw [ht]; rfl⟩

end Spells

theorem kindAt_tokens_equals (cs : List Char) (start : Position) :
    kindAt (Cursor.mk ('=' :: cs) start).tokens = .assign ∨
      kindAt (Cursor.mk ('=' :: cs) start).tokens = .equal := by
  by_cases hcs : Ends (· == '=') cs
  · have htokens := tokens_of_written (.assign hcs) (ends_cons rfl _) start
    exact .inl (congrArg kindAt htokens)
  · obtain ⟨rest, rfl⟩ : ∃ rest, cs = '=' :: rest := by
      simp only [Ends, not_forall] at hcs
      obtain ⟨d, hd, hne⟩ := hcs
      obtain ⟨rest, rfl⟩ := List.head?_eq_some_iff.mp hd
      exact ⟨rest, by simpa using hne⟩
    have htokens := tokens_of_written (@Written.equal rest) (ends_cons rfl _) start
    exact .inr (congrArg kindAt htokens)

theorem tokens_nil (start : Position) : (Cursor.mk [] start).tokens = [⟨.eof, "", start, start⟩] :=
  (Partition.last (List.forall_mem_nil _)).tokens start

theorem Spells.ends_equals {p : Char → Bool} {cs : List Char} {Q : List Token → Prop}
    (h : Spells p cs Q)
    (hQ : ∀ w, Q w → kindAt w ≠ .eof ∧ kindAt w ≠ .assign ∧ kindAt w ≠ .equal) (rest : List Char) :
    Ends (· == '=') (cs ++ rest) := by
  obtain ⟨w, stop, htokens, hw⟩ := h [] .start nofun
  obtain ⟨heof, hassign, hequal⟩ := hQ w hw
  rw [List.append_nil] at htokens
  have hkind : kindAt (Cursor.mk cs .start).tokens = kindAt w := by
    rw [htokens]
    cases w with
    | nil => exact absurd rfl heof
    | cons t w => rfl
  cases cs with
  | nil =>
    rw [tokens_nil] at hkind
    exact absurd hkind.symm heof
  | cons c cs =>
    have hne : c ≠ '=' := by
      rintro rfl
      rcases kindAt_tokens_equals cs .start with hfirst | hfirst
      · exact hassign (hkind.symm.trans hfirst)
      · exact hequal (hkind.symm.trans hfirst)
    rw [List.cons_append]
    refine ends_cons ?_ _
    simpa using hne

def Genuine (t : Token) : Prop :=
  t.kind ≠ .eof → ∃ raw rest, Written t.kind t.text.toList raw rest

theorem Partition.genuine {cs : List Char} {ps : List Piece} {last : List Char}
    (h : Partition cs ps last) (start : Position) : ∀ t ∈ tokensOf start ps last, Genuine t := by
  induction h generalizing start with
  | last _ =>
    intro t ht heof
    obtain rfl := List.mem_singleton.mp ht
    exact absurd rfl heof
  | piece hp _ ih =>
    rw [tokensOf, List.forall_mem_cons]
    exact ⟨fun _ => ⟨_, _, hp.written⟩, ih _⟩

theorem genuine_tokenize (source : String) : ∀ t ∈ tokenize source, Genuine t := by
  obtain ⟨ps, last, h⟩ := exists_partition source.toList
  rw [tokenize, Cursor.ofString, h.tokens]
  exact h.genuine .start

theorem keyword?_eq_some {name : String} {k : TokenKind} (h : keyword? name = some k) :
    k ≠ .identifier ∧ k ≠ .string := by
  unfold keyword? at h
  split at h
  all_goals cases h
  all_goals decide

theorem Genuine.name {t : Token} (h : Genuine t) (hk : t.kind = .identifier) :
    Spells isWordChar t.text.toList fun w =>
      ∃ u, w = [u] ∧ u.kind = .identifier ∧ u.text = t.text := by
  obtain ⟨raw, rest, hwritten⟩ := h (by rw [hk]; decide)
  rw [hk] at hwritten
  generalize htext : t.text.toList = text at hwritten
  cases hwritten with
  | symbol hlabel => cases hlabel
  | keyword _ _ _ hkeyword => exact absurd rfl (keyword?_eq_some hkeyword).1
  | identifier hc hcs _ hkeyword =>
    refine (Spells.word hc hcs (by rw [wordKind, hkeyword, Option.getD_none])).imp ?_
    rintro _ ⟨u, rfl, hu, hutext⟩
    exact ⟨u, rfl, hu, by rw [hutext, ← htext, String.ofList_toList]⟩

theorem Genuine.no_quote {t : Token} (h : Genuine t) (hk : t.kind = .string) :
    '"' ∉ t.text.toList := by
  obtain ⟨raw, rest, hwritten⟩ := h (by rw [hk]; decide)
  rw [hk] at hwritten
  generalize t.text.toList = text at hwritten
  cases hwritten with
  | symbol hlabel => cases hlabel
  | keyword _ _ _ hkeyword => exact absurd rfl (keyword?_eq_some hkeyword).2
  | string hquote => exact hquote
  | openString hquote => exact hquote

end Monkey.Lexical
