import Monkey.Text.Characters
import Monkey.Token

/-!
From characters to tokens. A cursor holds what is left to read and where it stands; `Cursor.next`
skips blanks and takes the longest token there is. Reading never fails: a character that starts
nothing is an illegal token of its own, and an exhausted cursor yields end of input forever.
-/

namespace Monkey

open Text

/-- A token cut off the front of a text: its kind and text, the characters it took, the rest. -/
structure Lexeme where
  kind : TokenKind
  text : List Char
  taken : List Char
  rest : List Char
  deriving DecidableEq, Repr

def keyword? : String → Option TokenKind
  | "fn" => some .kwFn
  | "let" => some .kwLet
  | "true" => some .kwTrue
  | "false" => some .kwFalse
  | "if" => some .kwIf
  | "else" => some .kwElse
  | "return" => some .kwReturn
  | _ => none

def wordKind (word : String) : TokenKind := (keyword? word).getD .identifier

def symbol? : Char → Option TokenKind
  | '(' => some .leftParen
  | ')' => some .rightParen
  | '{' => some .leftBrace
  | '}' => some .rightBrace
  | '[' => some .leftBracket
  | ']' => some .rightBracket
  | ',' => some .comma
  | ';' => some .semicolon
  | ':' => some .colon
  | '>' => some .greater
  | '<' => some .less
  | '+' => some .plus
  | '-' => some .minus
  | '*' => some .star
  | '/' => some .slash
  | _ => none

namespace Lexeme

def single (kind : TokenKind) (c : Char) (cs : List Char) : Lexeme := ⟨kind, [c], [c], cs⟩

def withEquals (alone together : TokenKind) (c : Char) : List Char → Lexeme
  | '=' :: cs => ⟨together, [c, '='], [c, '='], cs⟩
  | cs => single alone c cs

def run (kind : String → TokenKind) (p : Char → Bool) (c : Char) (cs : List Char) : Lexeme :=
  let word := c :: cs.takeWhile p
  ⟨kind (String.ofList word), word, word, cs.dropWhile p⟩

/-- Everything up to the next quote, or up to the end when there is none. -/
def quotedText (cs : List Char) : Lexeme :=
  let content := cs.takeWhile (· != '"')
  let rest := cs.dropWhile (· != '"')
  ⟨.string, content, '"' :: content ++ rest.take 1, rest.drop 1⟩

/-- The longest token at the front of `c :: cs`. -/
def cut (c : Char) (cs : List Char) : Lexeme :=
  if c = '"' then quotedText cs
  else if c = '=' then withEquals .assign .equal c cs
  else if c = '!' then withEquals .bang .notEqual c cs
  else match symbol? c with
    | some kind => single kind c cs
    | none =>
      if isDigit c then run (fun _ => .integer) isDigit c cs
      else if isLetter c then run wordKind isWordChar c cs
      else single .illegal c cs

theorem taken_append_rest (c : Char) (cs : List Char) :
    (cut c cs).taken ++ (cut c cs).rest = c :: cs := by
  unfold cut
  split
  · rename_i h
    simp only [quotedText, h, List.cons_append, List.append_assoc, List.take_append_drop,
      List.takeWhile_append_dropWhile]
  split
  · unfold withEquals; split <;> simp [single]
  split
  · unfold withEquals; split <;> simp [single]
  split
  · simp [single]
  split
  · simp [run]
  split
  · simp [run]
  · simp [single]

theorem length_rest_lt (c : Char) (cs : List Char) :
    (cut c cs).rest.length < (c :: cs).length := by
  unfold cut
  split
  · simp only [quotedText, List.length_drop, List.length_cons]
    have := (List.dropWhile_sublist (· != '"') (l := cs)).length_le
    omega
  split
  · unfold withEquals; split <;> simp only [single, List.length_cons] <;> omega
  split
  · unfold withEquals; split <;> simp only [single, List.length_cons] <;> omega
  split
  · simp [single]
  split
  · have := (List.dropWhile_sublist isDigit (l := cs)).length_le
    simp only [run, List.length_cons]; omega
  split
  · have := (List.dropWhile_sublist isWordChar (l := cs)).length_le
    simp only [run, List.length_cons]; omega
  · simp [single]

theorem kind_ne_eof (c : Char) (cs : List Char) : (cut c cs).kind ≠ .eof := by
  have keyword (s : String) : wordKind s ≠ .eof := by
    unfold wordKind keyword?; split <;> simp
  have symbol (k : TokenKind) (h : symbol? c = some k) : k ≠ .eof := by
    revert h; unfold symbol?; split <;> rintro ⟨⟩ <;> simp
  unfold cut
  split
  · simp [quotedText]
  split
  · unfold withEquals; split <;> simp [single]
  split
  · unfold withEquals; split <;> simp [single]
  split
  · rename_i k h; exact symbol k h
  split
  · simp [run]
  split
  · exact keyword _
  · simp [single]

end Lexeme

structure Cursor where
  rest : List Char
  position : Position
  deriving DecidableEq, Repr

namespace Cursor

def ofString (source : String) : Cursor := ⟨source.toList, .start⟩

def next (c : Cursor) : Token × Cursor :=
  let first := c.position.after (c.rest.takeWhile isBlank)
  match c.rest.dropWhile isBlank with
  | [] => (⟨.eof, "", first, first⟩, ⟨[], first⟩)
  | ch :: cs =>
    let lexeme := Lexeme.cut ch cs
    let stop := first.after lexeme.taken
    (⟨lexeme.kind, String.ofList lexeme.text, first, stop⟩, ⟨lexeme.rest, stop⟩)

theorem length_next_lt {c : Cursor} (h : c.next.1.kind ≠ .eof) :
    c.next.2.rest.length < c.rest.length := by
  have shorter := (List.dropWhile_sublist isBlank (l := c.rest)).length_le
  unfold next at h ⊢
  split
  · simp_all
  · rename_i ch cs hd
    have := Lexeme.length_rest_lt ch cs
    simp only [hd] at shorter ⊢
    omega

def tokens (c : Cursor) : List Token :=
  let step := c.next
  if _h : step.1.kind = .eof then [step.1] else step.1 :: tokens step.2
termination_by c.rest.length
decreasing_by exact length_next_lt _h

def pull : Nat → Cursor → List Token
  | 0, _ => []
  | n + 1, c =>
    let step := c.next
    step.1 :: pull n step.2

def next? (c : Cursor) : Option Token × Cursor :=
  let step := c.next
  (if step.1.kind = .eof then none else some step.1, step.2)

def draw : Nat → Cursor → List (Option Token)
  | 0, _ => []
  | n + 1, c =>
    let step := c.next?
    step.1 :: draw n step.2

end Cursor

def tokenize (source : String) : List Token := (Cursor.ofString source).tokens

end Monkey
