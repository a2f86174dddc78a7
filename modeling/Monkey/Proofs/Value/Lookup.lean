import Mathlib.Data.List.Nodup
import Monkey.Proofs.Value

/-!
What is found in a hash. Keys are compared through their slots: the slots of integers and of
booleans tell them apart, those of strings are digests, and two strings may have one digest. A key
therefore finds what was last filed under an equal key or under one that it collides with.
-/

namespace Monkey

inductive Key where
  | integer (n : Int64)
  | boolean (b : Bool)
  | string (s : String)
  deriving DecidableEq

namespace Key

def value : Key → Value
  | .integer n => .integer n
  | .boolean b => .boolean b
  | .string s => .string s

def slot : Key → HashKey
  | .integer n => ⟨.integer, n.toUInt64⟩
  | .boolean b => ⟨.boolean, if b then 1 else 0⟩
  | .string s => ⟨.string, Text.digest s⟩

/-- Two different strings with one digest. -/
def Collides : Key → Key → Prop
  | .string s, .string t => s ≠ t ∧ Text.digest s = Text.digest t
  | _, _ => False

instance : DecidableRel Collides
  | .string s, .string t => inferInstanceAs (Decidable (s ≠ t ∧ Text.digest s = Text.digest t))
  | .string _, .integer _ | .string _, .boolean _ => .isFalse id
  | .integer _, _ | .boolean _, _ => .isFalse id

@[simp] theorem hashKey?_value (k : Key) : k.value.hashKey? = some k.slot := by
  cases k <;> rfl

theorem exists_of_hashKey? {v : Value} {slot : HashKey} (h : v.hashKey? = some slot) :
    ∃ k : Key, k.value = v ∧ k.slot = slot := by
  cases v with
  | integer n => exact ⟨.integer n, rfl, Option.some.inj h⟩
  | boolean b => exact ⟨.boolean b, rfl, Option.some.inj h⟩
  | string s => exact ⟨.string s, rfl, Option.some.inj h⟩
  | _ => cases h

theorem value_beq_iff (a b : Key) : a.value == b.value ↔ a = b := by
  change a.value.same b.value = true ↔ a = b
  cases a with
  | integer m => cases b <;> simp [value, Value.same]
  | boolean c => cases b <;> simp [value, Value.same]
  | string s => cases b <;> simp [value, Value.same]

/-- Slots tell apart all keys that do not collide. -/
theorem slot_eq_iff (a b : Key) : a.slot = b.slot ↔ a = b ∨ a.Collides b := by
  cases a with
  | integer m =>
    cases b with
    | integer n =>
      have hbits : m.toUInt64 = n.toUInt64 ↔ m = n :=
        Function.LeftInverse.injective Int64.toInt64_toUInt64 |>.eq_iff
      simp [slot, Collides, hbits]
    | _ => simp [slot, Collides]
  | boolean c =>
    cases b with
    | boolean d => cases c <;> cases d <;> simp [slot, Collides]
    | _ => simp [slot, Collides]
  | string s =>
    cases b with
    | string t =>
      by_cases h : s = t
      · simp [slot, h]
      · simp [slot, Collides, h]
    | _ => simp [slot, Collides]

end Key

namespace Entry

def ofPair (p : Key × Value) : Entry := .mk p.1.slot p.1.value p.2

@[simp] theorem slot_ofPair (p : Key × Value) : (ofPair p).slot = p.1.slot := rfl

def fileAll (entries : List Entry) : List (Key × Value) → List Entry
  | [] => entries
  | p :: pairs => fileAll ((ofPair p).insert entries) pairs

theorem find?_eq_some_iff {es : List Entry} (h : (es.map slot).Nodup) {s : HashKey} {e : Entry} :
    find? s es = some e ↔ e ∈ es ∧ e.slot = s := by
  unfold find?
  constructor
  · intro he
    exact ⟨List.mem_of_find?_eq_some he, by simpa using List.find?_some he⟩
  · rintro ⟨he, rfl⟩
    obtain ⟨f, hf⟩ : ∃ f, es.find? (·.slot = e.slot) = some f := by
      rw [← Option.isSome_iff_exists, List.find?_isSome]
      exact ⟨e, he, by simp⟩
    have hslot : f.slot = e.slot := by simpa using List.find?_some hf
    rw [hf, List.inj_on_of_nodup_map h (List.mem_of_find?_eq_some hf) he hslot]

theorem find?_insert (e : Entry) (es : List Entry) (slot : HashKey) :
    find? slot (e.insert es) = if e.slot = slot then some e else find? slot es := by
  unfold find?
  induction es with
  | nil => by_cases h : e.slot = slot <;> simp [insert, h]
  | cons f fs ih =>
    rw [insert]
    by_cases hf : f.slot = e.slot
    · rw [if_pos hf]
      by_cases h : e.slot = slot
      · simp [h]
      · simp [h, hf]
    · rw [if_neg hf]
      by_cases h : f.slot = slot
      · have he : e.slot ≠ slot := fun he => hf (h.trans he.symm)
        simp [h, he]
      · simp only [List.find?_cons, h, decide_false, ih]

/-- Under a slot stands the last pair that was filed there; where there is none, what was there
before. -/
theorem find?_fileAll (es : List Entry) (pairs : List (Key × Value)) (slot : HashKey) :
    find? slot (fileAll es pairs) =
      ((pairs.filter (·.1.slot = slot)).getLast?.map ofPair).or (find? slot es) := by
  induction pairs generalizing es with
  | nil => rfl
  | cons p pairs ih =>
    rw [fileAll, ih, find?_insert, slot_ofPair]
    by_cases h : p.1.slot = slot
    · rw [List.filter_cons_of_pos (by simpa using h), List.getLast?_cons, if_pos h]
      cases (pairs.filter (·.1.slot = slot)).getLast? with
      | none => rfl
      | some q => rfl
    · rw [List.filter_cons_of_neg (by simpa using h), if_neg h]

end Entry

/-- What the last pair with the given key has beside it; where there is none, `null`. -/
def Value.lastUnder (k : Key) (pairs : List (Key × Value)) : Value :=
  ((pairs.filter (·.1.value == k.value)).getLast?.map Prod.snd).getD .null

theorem Value.index_fileAll (pairs : List (Key × Value)) (k : Key) :
    (Value.hash (Entry.fileAll [] pairs)).index k.value =
      .ok (((pairs.filter (·.1.slot = k.slot)).getLast?.map Prod.snd).getD .null) := by
  simp only [Value.index, Key.hashKey?_value, Value.entryAt, Entry.find?_fileAll]
  cases (pairs.filter (·.1.slot = k.slot)).getLast? with
  | none => rfl
  | some p => rfl

theorem Value.index_of_apart {pairs : List (Key × Value)} {k : Key}
    (h : ∀ p ∈ pairs, ¬p.1.Collides k) :
    (Value.hash (Entry.fileAll [] pairs)).index k.value = .ok (Value.lastUnder k pairs) := by
  have hfilter : pairs.filter (·.1.slot = k.slot) = pairs.filter (·.1.value == k.value) := by
    apply List.filter_congr
    intro p hp
    have hslot := p.1.slot_eq_iff k
    rw [or_iff_left (h p hp), ← Key.value_beq_iff] at hslot
    simp only [Bool.decide_coe, decide_eq_decide.mpr hslot]
  rw [Value.index_fileAll, hfilter]
  rfl

end Monkey
