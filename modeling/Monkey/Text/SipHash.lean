/-!
SipHash-1-3 under the zero key: one mixing round per eight-byte word, three rounds at the end.
Strings used as hash keys are filed under this digest.
-/

namespace Monkey.Text

structure SipState where
  v0 : UInt64
  v1 : UInt64
  v2 : UInt64
  v3 : UInt64
  deriving DecidableEq, Repr

namespace SipState

def initial : SipState :=
  ⟨0x736f6d6570736575, 0x646f72616e646f6d, 0x6c7967656e657261, 0x7465646279746573⟩

def rotl (x : UInt64) (n : UInt64) : UInt64 := (x <<< n) ||| (x >>> (64 - n))

def round (s : SipState) : SipState :=
  let v0 := s.v0 + s.v1
  let v1 := rotl s.v1 13 ^^^ v0
  let v0 := rotl v0 32
  let v2 := s.v2 + s.v3
  let v3 := rotl s.v3 16 ^^^ v2
  let v0 := v0 + v3
  let v3 := rotl v3 21 ^^^ v0
  let v2 := v2 + v1
  let v1 := rotl v1 17 ^^^ v2
  let v2 := rotl v2 32
  ⟨v0, v1, v2, v3⟩

def absorb (s : SipState) (word : UInt64) : SipState :=
  let t := round { s with v3 := s.v3 ^^^ word }
  { t with v0 := t.v0 ^^^ word }

def finish (s : SipState) : UInt64 :=
  let t := round (round (round { s with v2 := s.v2 ^^^ 0xff }))
  t.v0 ^^^ t.v1 ^^^ t.v2 ^^^ t.v3

end SipState

def littleEndian : List UInt8 → UInt64
  | [] => 0
  | b :: bs => b.toUInt64 ||| (littleEndian bs <<< 8)

/-- Absorbs the full words of a message of `length` bytes; the last word holds the bytes left over
and, in its top byte, the length modulo 256. -/
def sipWords (length : Nat) (s : SipState) : List UInt8 → SipState
  | b0 :: b1 :: b2 :: b3 :: b4 :: b5 :: b6 :: b7 :: rest =>
    sipWords length (s.absorb (littleEndian [b0, b1, b2, b3, b4, b5, b6, b7])) rest
  | tail => s.absorb (littleEndian tail ||| (length.toUInt64 <<< 56))

def sipHash13 (message : List UInt8) : UInt64 :=
  (sipWords message.length .initial message).finish

/-- The digest of a string: its UTF-8 bytes, closed by a byte that UTF-8 never uses. -/
def digest (s : String) : UInt64 := sipHash13 (s.toUTF8.toList ++ [0xff])

end Monkey.Text
