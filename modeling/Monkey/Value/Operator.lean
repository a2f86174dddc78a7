import Monkey.Value

/-!
The operators on values. An operator is told by its text, and a text that is none of them fails like
an operator that does not take its operands. None of the operators looks at or changes the state of
a run.
-/

namespace Monkey.Value

def unary (op : String) (v : Value) : Except RuntimeError Value :=
  match op, v with
  | "!", v => .ok (.boolean (!v.truthy))
  | "-", .integer n => .ok (.integer (-n))
  | op, v => .error (.unknownUnary op v.kind)

/-- 64-bit arithmetic wraps around; quotients are cut towards zero. -/
def integerBinary (m : Int64) (op : String) (n : Int64) : Except RuntimeError Value :=
  match op with
  | "+" => .ok (.integer (m + n))
  | "-" => .ok (.integer (m - n))
  | "*" => .ok (.integer (m * n))
  | "/" => if n = 0 then .error .divisionByZero else .ok (.integer (m / n))
  | "<" => .ok (.boolean (m < n))
  | ">" => .ok (.boolean (n < m))
  | "==" => .ok (.boolean (m == n))
  | "!=" => .ok (.boolean (m != n))
  | op => .error (.unknownBinary .integer op .integer)

def concat (s : String) : Value → Except RuntimeError Value
  | .string t => .ok (.string (s ++ t))
  | .integer n => .ok (.string (s ++ toString n))
  | .boolean b => .ok (.string (s ++ toString b))
  | v => .error (.unknownBinary .string "+" v.kind)

/-- Apart from what strings take, both sides have to be of one kind. -/
def binary (left : Value) (op : String) (right : Value) : Except RuntimeError Value :=
  match left, op, right with
  | .string s, "+", right => concat s right
  | .integer m, op, .integer n => integerBinary m op n
  | left, op, right =>
    if left.kind ≠ right.kind then .error (.typeMismatch left.kind op right.kind)
    else match op with
      | "==" => .ok (.boolean (left.same right))
      | "!=" => .ok (.boolean (!left.same right))
      | op => .error (.unknownBinary left.kind op right.kind)

def elementAt (elements : List Value) (i : Int64) : Value :=
  if i < 0 then .null else (elements[i.toNatClampNeg]?).getD .null

def entryAt (entries : List Entry) (slot : HashKey) : Value :=
  ((Entry.find? slot entries).map Entry.value).getD .null

def index (target position : Value) : Except RuntimeError Value :=
  match target, position with
  | .array elements, .integer i => .ok (elementAt elements i)
  | .hash entries, position =>
    match position.hashKey? with
    | some slot => .ok (entryAt entries slot)
    | none => .error (.unusableAsHashKey position.kind)
  | target, _ => .error (.indexNotSupported target.kind)

end Monkey.Value
