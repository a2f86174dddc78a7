import Monkey.Value

/-!
Lexical scopes. A heap numbers its scopes in the order of their creation and never drops one. Every
scope but a global one lies within an older scope; look-ups walk outwards, writes land in the scope
they are made on.
-/

namespace Monkey

structure Scope where
  bindings : List (String × Value)
  outer : Option ScopeId
  deriving Inhabited

namespace Scope

def find? (name : String) (s : Scope) : Option Value := s.bindings.lookup name

def has (name : String) (s : Scope) : Bool := s.bindings.any (·.1 == name)

/-- The bindings with `name` bound to `value`: in place if it was bound, else in front. -/
def bindIn (name : String) (value : Value) (bindings : List (String × Value)) :
    List (String × Value) :=
  if bindings.any (·.1 == name) then
    bindings.map fun b => if b.1 == name then (name, value) else b
  else (name, value) :: bindings

def set (name : String) (value : Value) (s : Scope) : Scope :=
  { s with bindings := bindIn name value s.bindings }

end Scope

inductive Reach where
  | outwards | own
  deriving DecidableEq, Repr

structure Heap where
  scopes : Array Scope
  deriving Inhabited

namespace Heap

def empty : Heap := ⟨#[]⟩

def size (h : Heap) : Nat := h.scopes.size

def push (h : Heap) (outer : Option ScopeId) : Heap := ⟨h.scopes.push ⟨[], outer⟩⟩

def set (h : Heap) (id : ScopeId) (name : String) (value : Value) : Heap :=
  ⟨h.scopes.modify id (·.set name value)⟩

/-- The value of `name` seen from scope `id`. Outer scopes are older, so the walk ends. -/
def find? (h : Heap) (reach : Reach) (name : String) (id : ScopeId) : Option Value :=
  match h.scopes[id]? with
  | none => none
  | some s =>
    match s.find? name with
    | some v => some v
    | none =>
      match reach, s.outer with
      | .outwards, some outer =>
        if _h : outer < id then find? h reach name outer else none
      | _, _ => none
termination_by id

def has (h : Heap) (reach : Reach) (name : String) (id : ScopeId) : Bool :=
  match h.scopes[id]? with
  | none => false
  | some s =>
    s.has name ||
      match reach, s.outer with
      | .outwards, some outer =>
        if _h : outer < id then has h reach name outer else false
      | _, _ => false
termination_by id

def setAll (h : Heap) (id : ScopeId) : List (String × Value) → Heap
  | [] => h
  | (name, value) :: rest => setAll (h.set id name value) id rest

end Heap

end Monkey
