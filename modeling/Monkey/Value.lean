import Monkey.RuntimeError
import Monkey.Syntax
import Monkey.Text.SipHash

/-!
Runtime values. A function is its literal, the scope it was evaluated in and a number that no other
function has; two functions are equal only if the numbers are. A hash keeps its entries in the
order in which their keys first came up, each filed under the slot of its key.

`returned` and `error` wrap what ended an evaluation when it is handed out as a value; programs
themselves never build them.
-/

namespace Monkey

abbrev ScopeId := Nat

structure Closure where
  id : Nat
  literal : Lambda
  scope : ScopeId
  deriving Inhabited

/-- Where a hash files a key: its kind and 64 bits of its content. -/
structure HashKey where
  kind : Kind
  bits : UInt64
  deriving DecidableEq, Repr

mutual

inductive Value where
  | integer (n : Int64)
  | boolean (b : Bool)
  | string (s : String)
  | null
  | array (elements : List Value)
  | hash (entries : List Entry)
  | function (f : Closure)
  | builtin (b : Builtin)
  | returned (value : Value)
  | error (e : RuntimeError)

inductive Entry where
  | mk (slot : HashKey) (key value : Value)

end

instance : Inhabited Value := ⟨.null⟩

namespace Entry

def slot : Entry → HashKey
  | .mk s _ _ => s

def key : Entry → Value
  | .mk _ k _ => k

def value : Entry → Value
  | .mk _ _ v => v

end Entry

namespace Value

def kind : Value → Kind
  | .integer _ => .integer
  | .boolean _ => .boolean
  | .string _ => .string
  | .null => .null
  | .array _ => .array
  | .hash _ => .hash
  | .function _ => .function
  | .builtin _ => .builtin
  | .returned _ => .returned
  | .error _ => .error

def truthy : Value → Bool
  | .null => false
  | .boolean b => b
  | _ => true

def hashKey? : Value → Option HashKey
  | .integer n => some ⟨.integer, n.toUInt64⟩
  | .boolean b => some ⟨.boolean, if b then 1 else 0⟩
  | .string s => some ⟨.string, Text.digest s⟩
  | _ => none

end Value

namespace Entry

/-- Files an entry: in place of the one with its slot, else behind all others. -/
def insert (e : Entry) : List Entry → List Entry
  | [] => [e]
  | f :: fs => if f.slot = e.slot then e :: fs else f :: e.insert fs

def find? (slot : HashKey) (entries : List Entry) : Option Entry :=
  entries.find? (·.slot = slot)

end Entry

mutual

/-- Equality of values: by content, but functions by their number and hashes without order. -/
def Value.same : Value → Value → Bool
  | .integer m, .integer n => m == n
  | .boolean a, .boolean b => a == b
  | .string s, .string t => s == t
  | .null, .null => true
  | .array as, .array bs => Value.sameAll as bs
  | .hash es, .hash fs => es.length == fs.length && Entry.allIn fs es
  | .function f, .function g => f.id == g.id
  | .builtin a, .builtin b => a == b
  | .returned a, .returned b => a.same b
  | .error d, .error e => d == e
  | _, _ => false
termination_by structural v => v

def Value.sameAll : List Value → List Value → Bool
  | [], [] => true
  | a :: as, b :: bs => a.same b && Value.sameAll as bs
  | _, _ => false
termination_by structural as => as

def Entry.allIn (fs : List Entry) : List Entry → Bool
  | [] => true
  | .mk slot key value :: es =>
    (match Entry.find? slot fs with
      | some f => key.same f.key && value.same f.value
      | none => false) && Entry.allIn fs es
termination_by structural es => es

end

instance : BEq Value := ⟨Value.same⟩

end Monkey
