import Monkey.Value.Operator

/-!
Properties that hold all the way down a value. Operators build new values only out of plain ones,
and otherwise hand on parts of their operands, so they keep any such property that plain values
have.
-/

namespace Monkey

/-- Entries as a hash keeps them: no two in one slot, and each in the slot of its key. -/
structure Entry.Filed (es : List Entry) : Prop where
  distinct : (es.map Entry.slot).Nodup
  own_slot : ∀ e ∈ es, e.key.hashKey? = some e.slot

/-- Neither a function nor one of the wrappers around what ended an evaluation; the entries of a
hash are filed. -/
def Value.Plain : Value → Prop
  | .function _ | .returned _ | .error _ => False
  | .hash es => Entry.Filed es
  | _ => True

theorem Value.Plain.ne_function {v : Value} (h : v.Plain) (f : Closure) : v ≠ .function f := by
  rintro rfl
  exact h

def Value.Atom : Value → Prop
  | .integer _ | .boolean _ | .string _ | .null => True
  | _ => False

theorem Value.atom_of_unary {op : String} {v w : Value} (h : v.unary op = .ok w) : w.Atom := by
  unfold Value.unary at h
  split at h
  · obtain rfl := Except.ok.inj h
    trivial
  · obtain rfl := Except.ok.inj h
    trivial
  · cases h

theorem Value.atom_of_integerBinary {op : String} {m n : Int64} {u : Value}
    (h : Value.integerBinary m op n = .ok u) : u.Atom := by
  unfold Value.integerBinary at h
  split at h
  case h_4 =>
    split at h
    · cases h
    · obtain rfl := Except.ok.inj h
      trivial
  case h_9 => cases h
  all_goals
    obtain rfl := Except.ok.inj h
    trivial

theorem Value.atom_of_concat {s : String} {v u : Value} (h : Value.concat s v = .ok u) :
    u.Atom := by
  unfold Value.concat at h
  split at h
  any_goals
    obtain rfl := Except.ok.inj h
    trivial
  cases h

theorem Value.atom_of_binary {op : String} {v w u : Value} (h : v.binary op w = .ok u) :
    u.Atom := by
  unfold Value.binary at h
  split at h
  · exact Value.atom_of_concat h
  · exact Value.atom_of_integerBinary h
  · split at h
    · cases h
    · split at h
      · obtain rfl := Except.ok.inj h
        trivial
      · obtain rfl := Except.ok.inj h
        trivial
      · cases h

mutual

def Value.Every (P : Value → Prop) : Value → Prop
  | .array vs => P (.array vs) ∧ Value.EveryAll P vs
  | .hash es => P (.hash es) ∧ Entry.EveryAll P es
  | .returned v => P (.returned v) ∧ v.Every P
  | .integer n => P (.integer n)
  | .boolean b => P (.boolean b)
  | .string s => P (.string s)
  | .null => P .null
  | .function f => P (.function f)
  | .builtin b => P (.builtin b)
  | .error e => P (.error e)
termination_by structural v => v

def Value.EveryAll (P : Value → Prop) : List Value → Prop
  | [] => True
  | v :: vs => v.Every P ∧ Value.EveryAll P vs
termination_by structural vs => vs

def Entry.EveryAll (P : Value → Prop) : List Entry → Prop
  | [] => True
  | .mk _ k v :: es => k.Every P ∧ v.Every P ∧ Entry.EveryAll P es
termination_by structural es => es

end

def Entry.Every (P : Value → Prop) (e : Entry) : Prop := e.key.Every P ∧ e.value.Every P

theorem Value.everyAll_iff {P : Value → Prop} {vs : List Value} :
    Value.EveryAll P vs ↔ ∀ v ∈ vs, v.Every P := by
  induction vs with
  | nil => simp [Value.EveryAll]
  | cons v vs ih => simp [Value.EveryAll, ih]

theorem Entry.everyAll_iff {P : Value → Prop} {es : List Entry} :
    Entry.EveryAll P es ↔ ∀ e ∈ es, e.Every P := by
  induction es with
  | nil => simp [Entry.EveryAll]
  | cons e es ih =>
    obtain ⟨slot, k, v⟩ := e
    simp [Entry.EveryAll, Entry.Every, Entry.key, Entry.value, ih, and_assoc]

mutual

theorem Value.Every.imp {P Q : Value → Prop} (h : ∀ v, P v → Q v) (v : Value) (hv : v.Every P) :
    v.Every Q := by
  match v with
  | .array vs => exact ⟨h _ hv.1, Value.EveryAll.imp h vs hv.2⟩
  | .hash es => exact ⟨h _ hv.1, Entry.EveryAll.imp h es hv.2⟩
  | .returned w => exact ⟨h _ hv.1, Value.Every.imp h w hv.2⟩
  | .integer _ | .boolean _ | .string _ | .null | .function _ | .builtin _ | .error _ =>
    exact h _ hv
termination_by structural v

theorem Value.EveryAll.imp {P Q : Value → Prop} (h : ∀ v, P v → Q v) (vs : List Value)
    (hvs : Value.EveryAll P vs) : Value.EveryAll Q vs := by
  match vs with
  | [] => trivial
  | v :: vs => exact ⟨Value.Every.imp h v hvs.1, Value.EveryAll.imp h vs hvs.2⟩
termination_by structural vs

theorem Entry.EveryAll.imp {P Q : Value → Prop} (h : ∀ v, P v → Q v) (es : List Entry)
    (hes : Entry.EveryAll P es) : Entry.EveryAll Q es := by
  match es with
  | [] => trivial
  | .mk _ k v :: es =>
    exact ⟨Value.Every.imp h k hes.1, Value.Every.imp h v hes.2.1, Entry.EveryAll.imp h es hes.2.2⟩
termination_by structural es

end

mutual

theorem Value.Every.and {P Q : Value → Prop} (v : Value) (hP : v.Every P) (hQ : v.Every Q) :
    v.Every fun w => P w ∧ Q w := by
  match v with
  | .array vs => exact ⟨⟨hP.1, hQ.1⟩, Value.EveryAll.and vs hP.2 hQ.2⟩
  | .hash es => exact ⟨⟨hP.1, hQ.1⟩, Entry.EveryAll.and es hP.2 hQ.2⟩
  | .returned w => exact ⟨⟨hP.1, hQ.1⟩, Value.Every.and w hP.2 hQ.2⟩
  | .integer _ | .boolean _ | .string _ | .null | .function _ | .builtin _ | .error _ =>
    exact ⟨hP, hQ⟩
termination_by structural v

theorem Value.EveryAll.and {P Q : Value → Prop} (vs : List Value) (hP : Value.EveryAll P vs)
    (hQ : Value.EveryAll Q vs) : Value.EveryAll (fun w => P w ∧ Q w) vs := by
  match vs with
  | [] => trivial
  | v :: vs => exact ⟨Value.Every.and v hP.1 hQ.1, Value.EveryAll.and vs hP.2 hQ.2⟩
termination_by structural vs

theorem Entry.EveryAll.and {P Q : Value → Prop} (es : List Entry) (hP : Entry.EveryAll P es)
    (hQ : Entry.EveryAll Q es) : Entry.EveryAll (fun w => P w ∧ Q w) es := by
  match es with
  | [] => trivial
  | .mk _ k v :: es =>
    exact ⟨Value.Every.and k hP.1 hQ.1, Value.Every.and v hP.2.1 hQ.2.1,
      Entry.EveryAll.and es hP.2.2 hQ.2.2⟩
termination_by structural es

end

section Operators

variable {P : Value → Prop} (hP : ∀ v : Value, v.Plain → P v)
include hP

theorem Value.every_array {vs : List Value} (h : ∀ v ∈ vs, v.Every P) : (Value.array vs).Every P :=
  ⟨hP _ trivial, Value.everyAll_iff.mpr h⟩

theorem Value.every_hash {es : List Entry} (hes : Entry.Filed es) (h : ∀ e ∈ es, e.Every P) :
    (Value.hash es).Every P :=
  ⟨hP _ hes, Entry.everyAll_iff.mpr h⟩

theorem Value.Atom.every {v : Value} (h : v.Atom) : v.Every P := by
  cases v with
  | integer _ | boolean _ | string _ | null => exact hP _ trivial
  | _ => cases h

/-- What is found in a value is a part of it, or `null`. -/
theorem Value.every_index {v w u : Value} (hv : v.Every P) (h : v.index w = .ok u) : u.Every P := by
  have null : Value.null.Every P := hP _ trivial
  unfold Value.index at h
  split at h
  · rename_i elements i
    obtain rfl := Except.ok.inj h
    unfold Value.elementAt
    split
    · exact null
    · cases hi : elements[i.toNatClampNeg]? with
      | none => exact null
      | some u => exact Value.everyAll_iff.mp hv.2 u (List.mem_of_getElem? hi)
  · rename_i entries
    split at h
    · rename_i slot _
      obtain rfl := Except.ok.inj h
      unfold Value.entryAt
      cases he : Entry.find? slot entries with
      | none => exact null
      | some e => exact (Entry.everyAll_iff.mp hv.2 e (List.mem_of_find?_eq_some he)).2
    · cases h
  · cases h

end Operators

theorem Entry.filed_nil : Entry.Filed [] := ⟨List.nodup_nil, List.forall_mem_nil _⟩

theorem Entry.mem_insert {e f : Entry} {es : List Entry} (h : f ∈ e.insert es) : f = e ∨ f ∈ es := by
  induction es with
  | nil => exact .inl (List.mem_singleton.mp h)
  | cons g gs ih =>
    rw [Entry.insert] at h
    split at h
    · exact (List.mem_cons.mp h).imp_right (List.mem_cons_of_mem g)
    · rcases List.mem_cons.mp h with rfl | h
      · exact .inr List.mem_cons_self
      · exact (ih h).imp_right (List.mem_cons_of_mem g)

/-- A slot that is taken stays where it is; a new one comes last. -/
theorem Entry.slots_insert (e : Entry) (es : List Entry) :
    (e.insert es).map Entry.slot =
      if e.slot ∈ es.map Entry.slot then es.map Entry.slot else es.map Entry.slot ++ [e.slot] := by
  induction es with
  | nil => rfl
  | cons f fs ih =>
    rw [Entry.insert]
    by_cases hf : f.slot = e.slot
    · simp [hf]
    · simp only [hf, if_false, List.map_cons, ih, List.mem_cons, Ne.symm hf, false_or]
      split <;> rfl

theorem Entry.Filed.insert {e : Entry} {es : List Entry} (hes : Entry.Filed es)
    (he : e.key.hashKey? = some e.slot) : Entry.Filed (e.insert es) := by
  constructor
  · rw [Entry.slots_insert]
    split
    · exact hes.distinct
    · rename_i hnew
      refine List.nodup_append.mpr ⟨hes.distinct, by simp, ?_⟩
      rintro s hs t ht rfl
      exact hnew (List.mem_singleton.mp ht ▸ hs)
  · intro f hf
    rcases Entry.mem_insert hf with rfl | hf
    · exact he
    · exact hes.own_slot f hf

theorem Entry.every_insert {P : Value → Prop} {e : Entry} {es : List Entry} (he : e.Every P)
    (hes : ∀ f ∈ es, f.Every P) : ∀ f ∈ e.insert es, f.Every P := by
  intro f hf
  rcases Entry.mem_insert hf with rfl | hf
  · exact he
  · exact hes f hf

end Monkey
