import Monkey.Proofs.Scope
import Monkey.Proofs.Value
import Monkey.Value.Print

/-!
Changing the functions that values refer to. Operators look at functions only to tell whether they
have one number, and printing only at their literals; so they cannot tell a value from one whose
functions have been changed otherwise.
-/

namespace Monkey

mutual

def Value.map (g : Closure → Closure) : Value → Value
  | .array vs => .array (Value.mapAll g vs)
  | .hash es => .hash (Entry.mapAll g es)
  | .function f => .function (g f)
  | .returned v => .returned (v.map g)
  | .integer n => .integer n
  | .boolean b => .boolean b
  | .string s => .string s
  | .null => .null
  | .builtin b => .builtin b
  | .error e => .error e
termination_by structural v => v

def Value.mapAll (g : Closure → Closure) : List Value → List Value
  | [] => []
  | v :: vs => v.map g :: Value.mapAll g vs
termination_by structural vs => vs

def Entry.mapAll (g : Closure → Closure) : List Entry → List Entry
  | [] => []
  | .mk slot k v :: es => .mk slot (k.map g) (v.map g) :: Entry.mapAll g es
termination_by structural es => es

end

def Entry.map (g : Closure → Closure) (e : Entry) : Entry := .mk e.slot (e.key.map g) (e.value.map g)

def Scope.map (g : Closure → Closure) (place : ScopeId → ScopeId) (s : Scope) : Scope :=
  ⟨s.bindings.map fun b => (b.1, b.2.map g), s.outer.map place⟩

variable {g : Closure → Closure}

@[simp] theorem Value.mapAll_eq_map (vs : List Value) : Value.mapAll g vs = vs.map (Value.map g) := by
  induction vs with
  | nil => rfl
  | cons v vs ih => rw [Value.mapAll, ih, List.map_cons]

@[simp] theorem Entry.mapAll_eq_map (es : List Entry) : Entry.mapAll g es = es.map (Entry.map g) := by
  induction es with
  | nil => rfl
  | cons e es ih =>
    obtain ⟨slot, k, v⟩ := e
    rw [Entry.mapAll, ih, List.map_cons]
    rfl

@[simp] theorem Entry.slot_map (e : Entry) : (e.map g).slot = e.slot := rfl

@[simp] theorem Entry.key_map (e : Entry) : (e.map g).key = e.key.map g := rfl

@[simp] theorem Entry.value_map (e : Entry) : (e.map g).value = e.value.map g := rfl

namespace Value

@[simp] theorem kind_map (v : Value) : (v.map g).kind = v.kind := by cases v <;> rfl

@[simp] theorem truthy_map (v : Value) : (v.map g).truthy = v.truthy := by cases v <;> rfl

@[simp] theorem hashKey?_map (v : Value) : (v.map g).hashKey? = v.hashKey? := by cases v <;> rfl

end Value

theorem Entry.find?_map (slot : HashKey) (es : List Entry) :
    Entry.find? slot (es.map (Entry.map g)) = (Entry.find? slot es).map (Entry.map g) := by
  unfold Entry.find?
  rw [List.find?_map]
  rfl

theorem Entry.insert_map (e : Entry) (es : List Entry) :
    (e.map g).insert (es.map (Entry.map g)) = (e.insert es).map (Entry.map g) := by
  induction es with
  | nil => rfl
  | cons f fs ih =>
    rw [List.map_cons, Entry.insert, Entry.insert, Entry.slot_map, Entry.slot_map]
    by_cases h : f.slot = e.slot
    · rw [if_pos h, if_pos h, List.map_cons]
    · rw [if_neg h, if_neg h, ih, List.map_cons]

mutual

theorem Value.inspect_map (hg : ∀ f, (g f).literal.print = f.literal.print) (v : Value) :
    (v.map g).inspect = v.inspect := by
  match v with
  | .array vs =>
    have hvs := Value.inspectAll_map hg vs
    exact congrArg (fun texts => "[" ++ ", ".intercalate texts ++ "]") hvs
  | .hash es =>
    have hes := Entry.inspectAll_map hg es
    exact congrArg (fun texts => "\x7b" ++ ", ".intercalate texts ++ "\x7d") hes
  | .function f => exact hg f
  | .returned w => exact Value.inspect_map hg w
  | .integer _ | .boolean _ | .string _ | .null | .builtin _ | .error _ => rfl
termination_by structural v

theorem Value.inspectAll_map (hg : ∀ f, (g f).literal.print = f.literal.print) (vs : List Value) :
    Value.inspectAll (Value.mapAll g vs) = Value.inspectAll vs := by
  match vs with
  | [] => rfl
  | v :: vs =>
    change (v.map g).inspect :: Value.inspectAll (Value.mapAll g vs) =
      v.inspect :: Value.inspectAll vs
    rw [Value.inspect_map hg v, Value.inspectAll_map hg vs]
termination_by structural vs

theorem Entry.inspectAll_map (hg : ∀ f, (g f).literal.print = f.literal.print) (es : List Entry) :
    Entry.inspectAll (Entry.mapAll g es) = Entry.inspectAll es := by
  match es with
  | [] => rfl
  | .mk _ k v :: es =>
    change ((k.map g).inspect ++ ": " ++ (v.map g).inspect) ::
      Entry.inspectAll (Entry.mapAll g es) =
        (k.inspect ++ ": " ++ v.inspect) :: Entry.inspectAll es
    rw [Value.inspect_map hg k, Value.inspect_map hg v, Entry.inspectAll_map hg es]
termination_by structural es

end

/-- Keeps the numbers of functions apart, and together. -/
def KeepsApart (g : Closure → Closure) : Prop := ∀ f f', (g f).id = (g f').id ↔ f.id = f'.id

mutual

/-- Functions are told apart by their numbers alone. -/
theorem Value.same_map (hg : KeepsApart g) (v w : Value) : (v.map g).same (w.map g) = v.same w := by
  match v with
  | .array vs =>
    cases w with
    | array ws =>
      rw [Value.map, Value.map, Value.same, Value.same]
      exact Value.sameAll_map hg vs ws
    | _ => rfl
  | .hash es =>
    cases w with
    | hash fs =>
      simp only [Value.map, Value.same]
      rw [Entry.allIn_map hg fs es]
      simp
    | _ => rfl
  | .returned v =>
    cases w with
    | returned w => exact Value.same_map hg v w
    | _ => rfl
  | .function f =>
    cases w with
    | function f' =>
      simp only [Value.map, Value.same]
      exact Bool.eq_iff_iff.mpr (by simpa using hg f f')
    | _ => rfl
  | .integer _ | .boolean _ | .string _ | .null | .builtin _ | .error _ => cases w <;> rfl
termination_by structural v

theorem Value.sameAll_map (hg : KeepsApart g) (vs ws : List Value) :
    Value.sameAll (Value.mapAll g vs) (Value.mapAll g ws) = Value.sameAll vs ws := by
  match vs with
  | [] => cases ws <;> rfl
  | v :: vs =>
    cases ws with
    | nil => rfl
    | cons w ws =>
      simp only [Value.mapAll, Value.sameAll]
      rw [Value.same_map hg v w, Value.sameAll_map hg vs ws]
termination_by structural vs

theorem Entry.allIn_map (hg : KeepsApart g) (fs es : List Entry) :
    Entry.allIn (Entry.mapAll g fs) (Entry.mapAll g es) = Entry.allIn fs es := by
  match es with
  | [] => rfl
  | .mk slot k v :: es =>
    simp only [Entry.mapAll, Entry.allIn]
    rw [Entry.allIn_map hg fs es, Entry.mapAll_eq_map, Entry.find?_map]
    cases Entry.find? slot fs with
    | none => rfl
    | some f =>
      simp only [Option.map_some, Entry.key_map, Entry.value_map]
      rw [Value.same_map hg k f.key, Value.same_map hg v f.value]
termination_by structural es

end

namespace Value

theorem Atom.map {v : Value} (h : v.Atom) : v.map g = v := by
  cases v with
  | integer _ | boolean _ | string _ | null => rfl
  | _ => cases h

theorem map_map_of_atom {r : Except RuntimeError Value} (h : ∀ v, r = .ok v → v.Atom) :
    r.map (Value.map g) = r := by
  cases r with
  | error e => rfl
  | ok v => exact congrArg Except.ok (h v rfl).map

theorem unary_map (op : String) (v : Value) :
    (v.map g).unary op = (v.unary op).map (Value.map g) := by
  rw [map_map_of_atom fun w => atom_of_unary]
  unfold Value.unary
  split
  · rw [truthy_map]
  · rename_i n hv
    cases v <;> cases hv
    rfl
  · rename_i hnot hneg
    cases v <;> simp_all [Value.map, Value.kind]

def compared (op : String) (v w : Value) : Except RuntimeError Value :=
  if v.kind ≠ w.kind then .error (.typeMismatch v.kind op w.kind)
  else match op with
    | "==" => .ok (.boolean (v.same w))
    | "!=" => .ok (.boolean (!v.same w))
    | op => .error (.unknownBinary v.kind op w.kind)

theorem binary_map (hg : KeepsApart g) (op : String) (v w : Value) :
    (v.map g).binary op (w.map g) = (v.binary op w).map (Value.map g) := by
  rw [map_map_of_atom fun u => atom_of_binary]
  have hcompared : compared op (v.map g) (w.map g) = compared op v w := by
    simp only [compared, kind_map, same_map hg]
  cases v with
  | string s =>
    by_cases hadd : op = "+"
    · subst hadd
      cases w <;> rfl
    · have hstring (u : Value) : (Value.string s).binary op u = compared op (.string s) u := by
        unfold Value.binary
        split
        · exact absurd rfl hadd
        · cases ‹Value.string s = .integer _›
        · rfl
      simpa only [hstring, Value.map] using hcompared
  | integer m =>
    cases w with
    | integer n => rfl
    | _ => exact hcompared
  | _ => exact hcompared

theorem elementAt_map (vs : List Value) (i : Int64) :
    Value.elementAt (vs.map (Value.map g)) i = (Value.elementAt vs i).map g := by
  unfold Value.elementAt
  split
  · rfl
  · rw [List.getElem?_map]
    cases vs[i.toNatClampNeg]? <;> rfl

theorem entryAt_map (es : List Entry) (slot : HashKey) :
    Value.entryAt (es.map (Entry.map g)) slot = (Value.entryAt es slot).map g := by
  unfold Value.entryAt
  rw [Entry.find?_map]
  cases Entry.find? slot es <;> rfl

theorem index_map (v w : Value) : (v.map g).index (w.map g) = (v.index w).map (Value.map g) := by
  cases v with
  | array vs =>
    cases w with
    | integer i =>
      rw [Value.map, mapAll_eq_map]
      exact congrArg Except.ok (elementAt_map vs i)
    | _ => rfl
  | hash es =>
    rw [Value.map, Entry.mapAll_eq_map]
    simp only [Value.index, hashKey?_map, kind_map]
    cases w.hashKey? with
    | none => rfl
    | some slot => exact congrArg Except.ok (entryAt_map es slot)
  | _ => rfl

end Value

namespace Scope

variable {place : ScopeId → ScopeId}

theorem find?_map (name : String) (s : Scope) :
    (s.map g place).find? name = (s.find? name).map (Value.map g) := by
  obtain ⟨bindings, outer⟩ := s
  unfold Scope.find? Scope.map
  dsimp only
  induction bindings with
  | nil => rfl
  | cons b bindings ih =>
    rw [List.map_cons, lookup_cons, lookup_cons]
    by_cases h : name = b.1
    · rw [if_pos h, if_pos h, Option.map_some]
    · rw [if_neg h, if_neg h, ih]

theorem set_map (name : String) (value : Value) (s : Scope) :
    (s.set name value).map g place = (s.map g place).set name (value.map g) := by
  obtain ⟨bindings, outer⟩ := s
  have hany : (bindings.map fun b => (b.1, b.2.map g)).any (·.1 == name) =
      bindings.any (·.1 == name) := List.any_map
  unfold Scope.set Scope.map Scope.bindIn
  dsimp only
  rw [hany]
  split
  · congr 1
    rw [List.map_map, List.map_map]
    refine List.map_congr_left fun b _ => ?_
    by_cases hb : b.1 = name <;> simp [hb]
  · rfl

end Scope

end Monkey
