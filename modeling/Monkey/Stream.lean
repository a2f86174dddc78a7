/-!
Byte streams. A sink stores what is written up to an optional limit; the first byte beyond it makes
the write fail, after the bytes before it have been stored. An input is cut into lines that keep
their line feed.
-/

namespace Monkey

inductive StreamError where
  | sinkFull
  | notUtf8
  | noSuchFile
  | permissionDenied
  | notDirectory
  | isDirectory
  | nameTooLong
  deriving DecidableEq, Repr

def StreamError.message : StreamError → String
  | .sinkFull => "sink full"
  | .notUtf8 => "stream did not contain valid UTF-8"
  | .noSuchFile => "No such file or directory (os error 2)"
  | .permissionDenied => "Permission denied (os error 13)"
  | .notDirectory => "Not a directory (os error 20)"
  | .isDirectory => "Is a directory (os error 21)"
  | .nameTooLong => "File name too long (os error 36)"

structure Sink where
  limit : Option Nat
  bytes : ByteArray

namespace Sink

def ofLimit (limit : Option Nat) : Sink := ⟨limit, .empty⟩

def unlimited : Sink := ofLimit none

/-- Stores what fits of `text`; the flag tells whether all of it did. -/
def write (s : Sink) (text : String) : Bool × Sink :=
  match s.limit with
  | none => (true, { s with bytes := s.bytes ++ text.toUTF8 })
  | some limit =>
    let new := text.toUTF8
    let room := limit - s.bytes.size
    (new.size ≤ room, { s with bytes := s.bytes ++ new.extract 0 room })

/-- Bytes as text. A character that the limit cut short shows as U+FFFD. -/
def textOf (bytes : ByteArray) : String :=
  let upTo (k : Nat) := String.fromUTF8? (bytes.extract 0 (bytes.size - k))
  match upTo 0 with
  | some s => s
  | none => ((upTo 1 <|> upTo 2 <|> upTo 3).getD "") ++ "\ufffd"

def text (s : Sink) : String := textOf s.bytes

end Sink

/-- Cuts bytes after every line feed. The last line may lack one; there is no empty last line. -/
def splitLines : List UInt8 → List (List UInt8)
  | [] => []
  | b :: bs =>
    if b = 10 then [b] :: splitLines bs
    else match splitLines bs with
      | [] => [[b]]
      | line :: lines => (b :: line) :: lines

def decodeUtf8? (bytes : List UInt8) : Option String := String.fromUTF8? ⟨bytes.toArray⟩

end Monkey
