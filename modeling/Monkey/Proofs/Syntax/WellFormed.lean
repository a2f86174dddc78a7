import Mathlib.Algebra.Group.Int.Defs
import Monkey.Proofs.Syntax.Provenance
import Monkey.Proofs.Token.Spelling

/-!
What nodes of a tree say about texts. The readers go by the kinds of tokens; evaluation goes by the
texts of operators, the names of variables and the values of literals. The rules of tokens tie the
two together, so that whatever is read, with or without faults, has only nodes that make sense.
-/

namespace Monkey

open Text Monkey.Lexical

namespace Lexical

/-- A kind that goes with one text only. -/
def Fixed (k : TokenKind) : Prop :=
  k ≠ .illegal ∧ k ≠ .identifier ∧ k ≠ .integer ∧ k ≠ .string ∧ k ≠ .eof

instance (k : TokenKind) : Decidable (Fixed k) := inferInstanceAs (Decidable (_ ∧ _))

theorem label_of_keyword? {name : String} {k : TokenKind} (h : keyword? name = some k) :
    name = k.label := by
  unfold keyword? at h
  split at h
  all_goals
    cases h
    try rfl

theorem Genuine.text_eq_label {t : Token} (h : Genuine t) (hk : Fixed t.kind) :
    t.text = t.kind.label := by
  obtain ⟨hillegal, hidentifier, hinteger, hstring, heof⟩ := hk
  obtain ⟨raw, rest, hwritten⟩ := h heof
  apply String.toList_inj.mp
  generalize t.kind = k at *
  generalize t.text.toList = text at *
  cases hwritten with
  | symbol hlabel => exact hlabel.symm
  | assign => rfl
  | equal => rfl
  | bang => rfl
  | notEqual => rfl
  | keyword _ _ _ hk => rw [← label_of_keyword? hk, String.toList_ofList]
  | integer => exact absurd rfl hinteger
  | identifier => exact absurd rfl hidentifier
  | string => exact absurd rfl hstring
  | openString => exact absurd rfl hstring
  | illegal => exact absurd rfl hillegal

theorem Genuine.identifier_text {t : Token} (h : Genuine t) (hk : t.kind = .identifier) :
    t.text ≠ "" ∧ keyword? t.text = none := by
  obtain ⟨raw, rest, hwritten⟩ := h (by rw [hk]; decide)
  rw [hk] at hwritten
  generalize htext : t.text.toList = text at hwritten
  have heq : t.text = String.ofList text := by rw [← htext, String.ofList_toList]
  cases hwritten with
  | symbol hlabel => cases hlabel
  | keyword _ _ _ hkeyword => exact absurd rfl (keyword?_eq_some hkeyword).1
  | identifier _ _ _ hnone =>
    refine ⟨fun hempty => ?_, heq ▸ hnone⟩
    rw [hempty] at htext
    cases htext

theorem Genuine.integer_text {t : Token} (h : Genuine t) (hk : t.kind = .integer) :
    t.text ≠ "" ∧ ∀ c ∈ t.text.toList, isDigit c = true := by
  obtain ⟨raw, rest, hwritten⟩ := h (by rw [hk]; decide)
  rw [hk] at hwritten
  generalize htext : t.text.toList = text at hwritten
  cases hwritten with
  | symbol hlabel => cases hlabel
  | keyword _ _ _ hkeyword =>
    unfold keyword? at hkeyword
    split at hkeyword <;> cases hkeyword
  | integer hdigits _ =>
    refine ⟨fun hempty => ?_, hdigits⟩
    rw [hempty] at htext
    cases htext

end Lexical

theorem UnaryOp.symbol_of_ofKind? {k : TokenKind} {op : UnaryOp} (h : ofKind? k = some op) :
    Fixed k ∧ k.label = op.symbol := by
  unfold ofKind? at h
  split at h
  all_goals
    cases h
    try exact ⟨by decide, rfl⟩

theorem BinaryOp.symbol_of_ofKind? {k : TokenKind} {op : BinaryOp} (h : ofKind? k = some op) :
    Fixed k ∧ k.label = op.symbol := by
  unfold ofKind? at h
  split at h
  all_goals
    cases h
    try exact ⟨by decide, rfl⟩

theorem toInt_of_integer? {digits : String} {n : Int64} (h : integer? digits = some n) :
    n.toInt = decimalValue digits.toList ∧ n.toInt < 2 ^ 63 := by
  unfold integer? at h
  dsimp only at h
  split at h
  · rename_i hlt
    obtain rfl := Option.some.inj h
    rw [Int64.toInt_ofNat_of_lt (by omega)]
    omega
  · cases h

def Ident.Proper (i : Ident) : Prop :=
  i.token.kind = .identifier ∧ i.name ≠ "" ∧ keyword? i.name = none

/-- What a node says is what its token says. -/
def Part.WellFormed : Part → Prop
  | .expr (.ident i) => i.Proper
  | .expr (.integer t n) =>
    t.kind = .integer ∧ t.text ≠ "" ∧ (∀ c ∈ t.text.toList, isDigit c = true) ∧
      n.toInt = decimalValue t.text.toList ∧ 0 ≤ n.toInt ∧ n.toInt ≤ 2 ^ 63 - 1
  | .expr (.boolean t b) =>
    t.kind = .kwTrue ∧ t.text = "true" ∧ b = true ∨ t.kind = .kwFalse ∧ t.text = "false" ∧ b = false
  | .expr (.string t s) => t.kind = .string ∧ s = t.text ∧ '"' ∉ s.toList
  | .expr (.unary op t _) => t.text ∈ ["!", "-"] ∧ t.text = op.symbol
  | .expr (.binary _ op t _) =>
    t.text ∈ ["+", "-", "*", "/", "<", ">", "==", "!="] ∧ t.text = op.symbol
  | .expr (.function f) => ∀ i ∈ f.params, i.Proper
  | .stmt (.bind _ name _) => name.Proper
  | .stmt (.block _) => False
  | _ => True

theorem Ident.Labelled.proper {i : Ident} (h : i.Labelled Genuine) : i.Proper :=
  ⟨h.2, h.1.identifier_text h.2⟩

theorem Part.Labelled.wellFormed {x : Part} (h : x.Labelled Genuine) : x.WellFormed := by
  match x with
  | .expr (.ident i) => exact h.proper
  | .expr (.integer t n) =>
    obtain ⟨hgenuine, hk, hn⟩ := h
    obtain ⟨hne, hdigits⟩ := hgenuine.integer_text hk
    obtain ⟨hvalue, hlt⟩ := toInt_of_integer? hn
    exact ⟨hk, hne, hdigits, hvalue, by omega, by omega⟩
  | .expr (.boolean t true) =>
    obtain ⟨hgenuine, hk⟩ := h
    have htext := hgenuine.text_eq_label (hk ▸ by decide)
    exact .inl ⟨hk, htext.trans (congrArg TokenKind.label hk), rfl⟩
  | .expr (.boolean t false) =>
    obtain ⟨hgenuine, hk⟩ := h
    have htext := hgenuine.text_eq_label (hk ▸ by decide)
    exact .inr ⟨hk, htext.trans (congrArg TokenKind.label hk), rfl⟩
  | .expr (.string t s) => exact ⟨h.2.1, h.2.2, h.2.2 ▸ h.1.no_quote h.2.1⟩
  | .expr (.unary op t e) =>
    obtain ⟨hgenuine, hop⟩ := h
    obtain ⟨hfixed, hlabel⟩ := UnaryOp.symbol_of_ofKind? hop
    have htext : t.text = op.symbol := (hgenuine.text_eq_label hfixed).trans hlabel
    refine ⟨?_, htext⟩
    rw [htext]
    cases op <;> decide
  | .expr (.binary l op t r) =>
    obtain ⟨hgenuine, hop⟩ := h
    obtain ⟨hfixed, hlabel⟩ := BinaryOp.symbol_of_ofKind? hop
    have htext : t.text = op.symbol := (hgenuine.text_eq_label hfixed).trans hlabel
    refine ⟨?_, htext⟩
    rw [htext]
    cases op <;> decide
  | .expr (.function f) => exact fun i hi => (h i hi).proper
  | .stmt (.bind t name e) => exact h.proper
  | .stmt (.block b) => exact h
  | .expr (.array ..) | .expr (.hash ..) | .expr (.cond ..) | .expr (.call ..) | .expr (.index ..)
  | .stmt (.ret ..) | .stmt (.expr ..) | .block _ => trivial

theorem Program.Contains.wellFormed {source : String} {x : Part}
    (h : (parse source).1.Contains x) : x.WellFormed :=
  ((parseTokens_keeps (genuine_tokenize source)).2 x h).wellFormed

end Monkey
