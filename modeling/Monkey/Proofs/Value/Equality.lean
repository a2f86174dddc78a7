import Mathlib.Data.List.Perm.Subperm
import Monkey.Proofs.Value.Lookup

/-!
Equality of values is an equivalence. Hashes are compared in one direction only: every entry of the
left one has to have an equal one in the right one. Where the slots of a hash are distinct, equally
many entries leave none of the right one out, so the other direction holds as well. Kinds, conditions
and slots do not tell equal values apart, and `!=` is the opposite of `==`.
-/

namespace Monkey

namespace Value

def Leaf : Value → Prop
  | .array _ | .hash _ | .returned _ => False
  | _ => True

/-- What holds of a value as soon as it holds of its parts holds of all values. -/
theorem induction_on_parts {P : Value → Prop} (leaf : ∀ v : Value, v.Leaf → P v)
    (array : ∀ vs, (∀ v ∈ vs, P v) → P (.array vs))
    (hash : ∀ es, (∀ e ∈ es, P (Entry.key e) ∧ P (Entry.value e)) → P (.hash es))
    (returned : ∀ v, P v → P (.returned v)) (v : Value) : P v := by
  -- The parts of a value come in lists, and lists of values and of entries get motives of their own.
  refine @Value.rec P (fun e => P e.key ∧ P e.value) (fun vs => ∀ v ∈ vs, P v)
    (fun es => ∀ e ∈ es, P e.key ∧ P e.value)
    (fun _ => leaf _ trivial) (fun _ => leaf _ trivial) (fun _ => leaf _ trivial) (leaf _ trivial)
    array hash (fun _ => leaf _ trivial) (fun _ => leaf _ trivial) returned
    (fun _ => leaf _ trivial) (fun _ _ _ hk hv => ⟨hk, hv⟩) (List.forall_mem_nil _)
    (fun v vs hv hvs => ?_) (List.forall_mem_nil _) (fun e es he hes => ?_) v
  · exact List.forall_mem_cons.mpr ⟨hv, hvs⟩
  · exact List.forall_mem_cons.mpr ⟨he, hes⟩

def SlotsDistinct : Value → Prop
  | .hash es => (es.map Entry.slot).Nodup
  | _ => True

def bare : Value → Value
  | .function f => .function ⟨f.id, default, 0⟩
  | v => v

end Value

def Entry.Same (e f : Entry) : Prop := e.key.same f.key = true ∧ e.value.same f.value = true

section Inversion

/-- Leaves are compared as a whole, but for functions, and all other values part by part. -/
theorem Value.same_iff {v w : Value} : v.same w = true ↔
    (v.Leaf ∧ w.Leaf ∧ v.bare = w.bare) ∨
    (∃ vs ws, v = .array vs ∧ w = .array ws ∧ Value.sameAll vs ws = true) ∨
    (∃ es fs, v = .hash es ∧ w = .hash fs ∧ es.length = fs.length ∧ Entry.allIn fs es = true) ∨
    ∃ x y, v = .returned x ∧ w = .returned y ∧ x.same y = true := by
  cases v <;> cases w <;> simp [Value.same, Value.Leaf, Value.bare]

theorem Value.Leaf.same_iff {v w : Value} (hv : v.Leaf) :
    v.same w = true ↔ w.Leaf ∧ v.bare = w.bare := by
  rw [Value.same_iff]
  constructor
  · rintro (h | ⟨vs, ws, rfl, -⟩ | ⟨es, fs, rfl, -⟩ | ⟨x, y, rfl, -⟩)
    · exact h.2
    · exact hv.elim
    · exact hv.elim
    · exact hv.elim
  · exact fun h => .inl ⟨hv, h⟩

theorem Value.same_array_iff {vs : List Value} {w : Value} :
    (Value.array vs).same w = true ↔ ∃ ws, w = .array ws ∧ Value.sameAll vs ws = true := by
  rw [Value.same_iff]
  simp [Value.Leaf]

theorem Value.same_returned_iff {v w : Value} :
    (Value.returned v).same w = true ↔ ∃ u, w = .returned u ∧ v.same u = true := by
  rw [Value.same_iff]
  simp [Value.Leaf]

theorem Entry.allIn_iff {es fs : List Entry} :
    Entry.allIn fs es = true ↔ ∀ e ∈ es, ∃ f, Entry.find? e.slot fs = some f ∧ e.Same f := by
  induction es with
  | nil => simp [Entry.allIn]
  | cons e es ih =>
    obtain ⟨slot, k, v⟩ := e
    rw [Entry.allIn, Bool.and_eq_true, ih, List.forall_mem_cons]
    refine and_congr_left fun _ => ?_
    cases h : Entry.find? slot fs with
    | none => simp [Entry.slot, h]
    | some f => simp [Entry.slot, Entry.Same, Entry.key, Entry.value, h]

theorem Value.same_hash_iff {es : List Entry} {w : Value} :
    (Value.hash es).same w = true ↔ ∃ fs, w = .hash fs ∧ es.length = fs.length ∧
      ∀ e ∈ es, ∃ f, Entry.find? e.slot fs = some f ∧ e.Same f := by
  rw [Value.same_iff]
  simp [Value.Leaf, Entry.allIn_iff]

end Inversion

section Lists

variable {vs ws us : List Value}

theorem Value.sameAll_iff :
    Value.sameAll vs ws = true ↔ vs.Forall₂ (fun v w => v.same w = true) ws := by
  induction vs generalizing ws with
  | nil => cases ws <;> simp [Value.sameAll]
  | cons v vs ih => cases ws <;> simp [Value.sameAll, ih]

theorem Value.sameAll_refl (h : ∀ v ∈ vs, v.same v = true) : Value.sameAll vs vs = true :=
  Value.sameAll_iff.mpr (List.forall₂_same.mpr h)

theorem Value.sameAll_symm (h : ∀ v ∈ vs, ∀ w : Value, v.same w = true → w.same v = true)
    (hws : Value.sameAll vs ws = true) : Value.sameAll ws vs = true := by
  rw [Value.sameAll_iff] at hws ⊢
  induction hws with
  | nil => exact .nil
  | @cons v w vs ws hvw _ ih =>
    obtain ⟨hv, hvs⟩ := List.forall_mem_cons.mp h
    exact .cons (hv w hvw) (ih hvs)

theorem Value.sameAll_trans
    (h : ∀ v ∈ vs, ∀ w u : Value, v.same w = true → w.same u = true → v.same u = true)
    (hws : Value.sameAll vs ws = true) (hus : Value.sameAll ws us = true) :
    Value.sameAll vs us = true := by
  rw [Value.sameAll_iff] at hws hus ⊢
  induction hws generalizing us with
  | nil => exact hus
  | @cons v w vs ws hvw _ ih =>
    obtain ⟨hv, hvs⟩ := List.forall_mem_cons.mp h
    obtain ⟨u, us, hwu, htail, rfl⟩ := List.forall₂_cons_left_iff.mp hus
    exact .cons (hv w u hvw hwu) (ih hvs htail)

end Lists

namespace Entry

variable {es fs : List Entry}

/-- Equally many entries in distinct slots, all of which have a counterpart under their slot, are
counterparts of all the others: no slot is left over for one without. -/
theorem counterparts_swap {R : Entry → Entry → Prop} (hdistinct : (es.map slot).Nodup)
    (hlength : es.length = fs.length) (h : ∀ e ∈ es, ∃ f, find? e.slot fs = some f ∧ R e f) :
    ∀ f ∈ fs, ∃ e ∈ es, find? f.slot es = some e ∧ R e f := by
  have hsubset : es.map slot ⊆ fs.map slot := by
    intro s hs
    obtain ⟨e, he, rfl⟩ := List.mem_map.mp hs
    obtain ⟨f, hf, -⟩ := h e he
    have hslot : f.slot = e.slot := by simpa using List.find?_some hf
    exact List.mem_map.mpr ⟨f, List.mem_of_find?_eq_some hf, hslot⟩
  have hperm : (es.map slot).Perm (fs.map slot) :=
    (hdistinct.subperm hsubset).perm_of_length_le (by simp [hlength])
  have hdistinct' : (fs.map slot).Nodup := hperm.nodup_iff.mp hdistinct
  intro f hf
  obtain ⟨e, he, hslot⟩ := List.mem_map.mp (hperm.mem_iff.mpr (List.mem_map_of_mem hf))
  obtain ⟨f', hf', hR⟩ := h e he
  have hown : find? e.slot fs = some f := (find?_eq_some_iff hdistinct').mpr ⟨hf, hslot.symm⟩
  obtain rfl : f' = f := Option.some.inj (hf'.symm.trans hown)
  exact ⟨e, he, (find?_eq_some_iff hdistinct).mpr ⟨he, hslot⟩, hR⟩

theorem same_of_perm (hperm : es.Perm fs) (hdistinct : (es.map slot).Nodup)
    (h : ∀ e ∈ es, e.Same e) : (Value.hash es).same (.hash fs) = true := by
  have hdistinct' : (fs.map slot).Nodup := (hperm.map slot).nodup_iff.mp hdistinct
  refine Value.same_hash_iff.mpr ⟨fs, rfl, hperm.length_eq, fun e he => ⟨e, ?_, h e he⟩⟩
  exact (find?_eq_some_iff hdistinct').mpr ⟨hperm.mem_iff.mp he, rfl⟩

end Entry

namespace Value

theorem same_refl (v : Value) (hv : v.Every SlotsDistinct) : v.same v = true := by
  induction v using induction_on_parts with
  | leaf v hleaf => exact hleaf.same_iff.mpr ⟨hleaf, rfl⟩
  | array vs ih =>
    have hvs := everyAll_iff.mp hv.2
    exact same_array_iff.mpr ⟨vs, rfl, sameAll_refl fun v hmem => ih v hmem (hvs v hmem)⟩
  | hash es ih =>
    have hes := Entry.everyAll_iff.mp hv.2
    refine Entry.same_of_perm (.refl es) hv.1 fun e he => ?_
    exact ⟨(ih e he).1 (hes e he).1, (ih e he).2 (hes e he).2⟩
  | returned v ih => exact same_returned_iff.mpr ⟨v, rfl, ih hv.2⟩

theorem same_symm (v w : Value) (hv : v.Every SlotsDistinct) (h : v.same w = true) :
    w.same v = true := by
  induction v using induction_on_parts generalizing w with
  | leaf v hleaf =>
    obtain ⟨hleaf', hbare⟩ := hleaf.same_iff.mp h
    exact hleaf'.same_iff.mpr ⟨hleaf, hbare.symm⟩
  | array vs ih =>
    have hvs := everyAll_iff.mp hv.2
    obtain ⟨ws, rfl, hall⟩ := same_array_iff.mp h
    exact same_array_iff.mpr ⟨vs, rfl, sameAll_symm (fun v hmem w => ih v hmem w (hvs v hmem)) hall⟩
  | hash es ih =>
    have hes := Entry.everyAll_iff.mp hv.2
    obtain ⟨fs, rfl, hlength, hall⟩ := same_hash_iff.mp h
    refine same_hash_iff.mpr ⟨es, rfl, hlength.symm, fun f hf => ?_⟩
    obtain ⟨e, he, hfound, hkey, hvalue⟩ := Entry.counterparts_swap hv.1 hlength hall f hf
    refine ⟨e, hfound, ?_, ?_⟩
    · exact (ih e he).1 f.key (hes e he).1 hkey
    · exact (ih e he).2 f.value (hes e he).2 hvalue
  | returned v ih =>
    obtain ⟨u, rfl, hu⟩ := same_returned_iff.mp h
    exact same_returned_iff.mpr ⟨v, rfl, ih u hv.2 hu⟩

theorem same_trans (v w u : Value) (h : v.same w = true) (h' : w.same u = true) :
    v.same u = true := by
  induction v using induction_on_parts generalizing w u with
  | leaf v hleaf =>
    obtain ⟨hleaf', hbare⟩ := hleaf.same_iff.mp h
    obtain ⟨hleaf'', hbare'⟩ := hleaf'.same_iff.mp h'
    exact hleaf.same_iff.mpr ⟨hleaf'', hbare.trans hbare'⟩
  | array vs ih =>
    obtain ⟨ws, rfl, hall⟩ := same_array_iff.mp h
    obtain ⟨us, rfl, hall'⟩ := same_array_iff.mp h'
    exact same_array_iff.mpr ⟨us, rfl, sameAll_trans ih hall hall'⟩
  | hash es ih =>
    obtain ⟨fs, rfl, hlength, hall⟩ := same_hash_iff.mp h
    obtain ⟨gs, rfl, hlength', hall'⟩ := same_hash_iff.mp h'
    refine same_hash_iff.mpr ⟨gs, rfl, hlength.trans hlength', fun e he => ?_⟩
    obtain ⟨f, hf, hef⟩ := hall e he
    have hslot : f.slot = e.slot := by simpa using List.find?_some hf
    obtain ⟨g, hg, hfg⟩ := hall' f (List.mem_of_find?_eq_some hf)
    refine ⟨g, hslot ▸ hg, ?_, ?_⟩
    · exact (ih e he).1 f.key g.key hef.1 hfg.1
    · exact (ih e he).2 f.value g.value hef.2 hfg.2
  | returned v ih =>
    obtain ⟨w, rfl, hw⟩ := same_returned_iff.mp h
    obtain ⟨u, rfl, hu⟩ := same_returned_iff.mp h'
    exact same_returned_iff.mpr ⟨u, rfl, ih w u hw hu⟩

theorem agree_bare (v : Value) :
    v.bare.kind = v.kind ∧ v.bare.truthy = v.truthy ∧ v.bare.hashKey? = v.hashKey? := by
  cases v <;> exact ⟨rfl, rfl, rfl⟩

theorem agree_of_same {v w : Value} (h : v.same w = true) :
    v.kind = w.kind ∧ v.truthy = w.truthy ∧ v.hashKey? = w.hashKey? := by
  obtain ⟨-, -, hbare⟩ | ⟨vs, ws, rfl, rfl, -⟩ | ⟨es, fs, rfl, rfl, -⟩ | ⟨x, y, rfl, rfl, -⟩ :=
    same_iff.mp h
  · obtain ⟨hkind, htruthy, hslot⟩ := v.agree_bare
    rw [← hkind, ← htruthy, ← hslot, hbare]
    exact w.agree_bare
  · exact ⟨rfl, rfl, rfl⟩
  · exact ⟨rfl, rfl, rfl⟩
  · exact ⟨rfl, rfl, rfl⟩

theorem binary_equality {v w : Value} (h : v.kind = w.kind) :
    v.binary "==" w = .ok (.boolean (v.same w)) ∧
      v.binary "!=" w = .ok (.boolean (!v.same w)) := by
  cases v <;> cases w <;> cases h <;> exact ⟨rfl, rfl⟩

/-- Values in which no hash, however deep, has two entries in one slot. -/
abbrev Keyed : Type := { v : Value // v.Every SlotsDistinct }

end Value

/-- Equality of values with distinct slots is an equivalence, however deep they are nested; the order
of the entries of a hash does not matter to it. Equal values are of one kind, count alike as
conditions and go into one slot, and on operands of one kind `!=` is the opposite of `==`. -/
theorem equality_is_equivalence :
    Equivalence (fun v w : Value.Keyed => (v.val == w.val) = true) ∧
    (∀ es fs : List Entry, (Value.hash es).Every Value.SlotsDistinct → es.Perm fs →
      (Value.hash es == Value.hash fs) = true) ∧
    (∀ v w : Value, (v == w) = true →
      v.kind = w.kind ∧ v.truthy = w.truthy ∧ v.hashKey? = w.hashKey?) ∧
    (∀ v w : Value, v.kind = w.kind →
      v.binary "==" w = .ok (.boolean (v == w)) ∧
        v.binary "!=" w = .ok (.boolean (!(v == w)))) := by
  refine ⟨⟨fun v => ?_, fun {v w} h => ?_, fun {v w u} h h' => ?_⟩, ?_, ?_, ?_⟩
  · exact v.val.same_refl v.property
  · exact v.val.same_symm w.val v.property h
  · exact v.val.same_trans w.val u.val h h'
  · intro es fs hes hperm
    have hparts := Entry.everyAll_iff.mp hes.2
    refine Entry.same_of_perm hperm hes.1 fun e he => ?_
    exact ⟨e.key.same_refl (hparts e he).1, e.value.same_refl (hparts e he).2⟩
  · intro v w h
    exact Value.agree_of_same h
  · intro v w h
    exact Value.binary_equality h

/-- Two entries in both orders, one of them with a hash in an array. -/
theorem equality_is_equivalence_instance :
    let inner : Value := .array [.integer 1, .hash [.mk ⟨.boolean, 1⟩ (.boolean true) .null]]
    let es : List Entry := [.mk ⟨.integer, 1⟩ (.integer 1) inner,
      .mk ⟨.integer, 2⟩ (.integer 2) (.function ⟨0, default, 0⟩)]
    (Value.hash es).Every Value.SlotsDistinct ∧ es.reverse ≠ es ∧
      (Value.hash es == Value.hash es.reverse) = true ∧
      (Value.hash es.reverse == Value.hash es) = true ∧
      (Value.hash es).truthy = (Value.hash es.reverse).truthy ∧
      (Value.hash es).binary "!=" (.hash es.reverse) = .ok (.boolean false) := by
  intro inner es
  obtain ⟨hequivalence, hperm, hagree, hoperators⟩ := equality_is_equivalence
  have hes : (Value.hash es).Every Value.SlotsDistinct := by
    simp [es, inner, Value.Every, Value.EveryAll, Entry.EveryAll, Value.SlotsDistinct, Entry.slot]
  have hback : (Value.hash es.reverse).Every Value.SlotsDistinct := by
    simp [es, inner, Value.Every, Value.EveryAll, Entry.EveryAll, Value.SlotsDistinct, Entry.slot]
  have hsame := hperm es es.reverse hes es.reverse_perm.symm
  have hswap := @hequivalence.symm ⟨_, hes⟩ ⟨_, hback⟩ hsame
  obtain ⟨hkind, htruthy, -⟩ := hagree _ _ hsame
  obtain ⟨-, hne⟩ := hoperators _ _ hkind
  rw [hsame] at hne
  exact ⟨hes, by simp [es], hsame, hswap, htruthy, hne⟩

end Monkey
