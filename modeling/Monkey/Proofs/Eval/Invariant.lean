import Monkey.Proofs.Eval.Builtins
import Monkey.Proofs.Eval.Effects
import Monkey.Proofs.Scope
import Monkey.Proofs.Syntax.Tree
import Monkey.Proofs.Value

/-!
Invariants of the values a run works with. A property of values that plain values have, that new
functions have, and that does not get lost while a state grows, holds of everything that evaluation
binds or yields, if it holds of everything bound at the start. Whether a function may be made in a
scope can depend on how deep its literal is nested; the scopes that calls add are fit for the bodies
they are made for.
-/

namespace Monkey

structure Grows (st st' : State) : Prop where
  size_le : st.heap.size ≤ st'.heap.size
  functions_le : st.functions ≤ st'.functions
  outer_eq : ∀ {id : ScopeId} {s : Scope}, st.heap.scopes[id]? = some s →
    ∃ s', st'.heap.scopes[id]? = some s' ∧ s'.outer = s.outer

/-- Every value bound in the heap has the property `P`, all the way down, and outer scopes are
older. -/
structure Heap.Holds (P : Value → Prop) (h : Heap) : Prop where
  bound : ∀ {id : ScopeId} {s : Scope}, h.scopes[id]? = some s → ∀ b ∈ s.bindings, b.2.Every P
  outer_lt : ∀ {id o : ScopeId} {s : Scope}, h.scopes[id]? = some s → s.outer = some o → o < id

def State.Obeys (P : State → Value → Prop) (st : State) : Prop := st.heap.Holds (P st)

/-- A property of values that evaluation keeps up. `Fit st scope k` says that code with function
literals nested `k` deep may run in `scope`. -/
structure Discipline (P : State → Value → Prop) (Fit : State → ScopeId → Nat → Prop) : Prop where
  grow : ∀ {st st' v}, Grows st st' → P st v → P st' v
  fit_grow : ∀ {st st' scope k}, Grows st st' → Fit st scope k → Fit st' scope k
  narrow : ∀ {st scope k m}, m ≤ k → Fit st scope k → Fit st scope m
  plain : ∀ {st v}, v.Plain → P st v
  close : ∀ {st scope literal}, Fit st scope literal.nesting →
    P { st with functions := st.functions + 1 } (.function ⟨st.functions, literal, scope⟩)
  captured : ∀ {st f}, P st (.function f) → f.scope < st.heap.size
  enter : ∀ {st f}, P st (.function f) →
    Fit { st with heap := st.heap.push (some f.scope) } st.heap.size f.literal.body.nesting

def Adds (Fit : State → ScopeId → Nat → Prop) (st st' : State) : Prop :=
  ∀ st'', Grows st' st'' → ∀ id, st.heap.size ≤ id → id < st'.heap.size → Fit st'' id 0

structure Advances (P : State → Value → Prop) (Fit : State → ScopeId → Nat → Prop)
    (st st' : State) : Prop where
  grows : Grows st st'
  obeys : st'.Obeys P
  adds : Adds Fit st st'

/-- An evaluation from `st` that ended as it should: in a state that has grown and obeys `P`, with
an `α` of the property `Q` or a returned value of the property `P`. -/
structure Sound {α : Type} (P : State → Value → Prop) (Fit : State → ScopeId → Nat → Prop)
    (Q : State → α → Prop) (st : State) (r : Except Signal α × State) : Prop
    extends Advances P Fit st r.2 where
  ok : ∀ a, r.1 = .ok a → Q r.2 a
  returned : ∀ v, r.1 = .error (.returned v) → v.Every (P r.2)

namespace Grows

theorem refl (st : State) : Grows st st := ⟨Nat.le_refl _, Nat.le_refl _, fun h => ⟨_, h, rfl⟩⟩

theorem trans {st mid st' : State} (h : Grows st mid) (h' : Grows mid st') : Grows st st' where
  size_le := Nat.le_trans h.size_le h'.size_le
  functions_le := Nat.le_trans h.functions_le h'.functions_le
  outer_eq hs := by
    obtain ⟨t, ht, hst⟩ := h.outer_eq hs
    obtain ⟨u, hu, htu⟩ := h'.outer_eq ht
    exact ⟨u, hu, htu.trans hst⟩

theorem of_heap_eq {st st' : State} (h : st'.heap = st.heap)
    (hf : st.functions ≤ st'.functions) : Grows st st' where
  size_le := Nat.le_of_eq (by rw [h])
  functions_le := hf
  outer_eq hs := ⟨_, by rw [h]; exact hs, rfl⟩

theorem set (st : State) (id : ScopeId) (name : String) (value : Value) :
    Grows st { st with heap := st.heap.set id name value } where
  size_le := by simp
  functions_le := Nat.le_refl _
  outer_eq := by
    intro i s hs
    by_cases hi : id = i
    · refine ⟨s.set name value, ?_, rfl⟩
      simp only [Heap.getElem?_set, if_pos hi, hs, Option.map_some]
    · refine ⟨s, ?_, rfl⟩
      simp only [Heap.getElem?_set, if_neg hi, hs]

theorem setAll (st : State) (id : ScopeId) (bindings : List (String × Value)) :
    Grows st { st with heap := st.heap.setAll id bindings } := by
  induction bindings generalizing st with
  | nil => exact refl st
  | cons b bindings ih =>
    obtain ⟨name, value⟩ := b
    exact (set st id name value).trans (ih { st with heap := st.heap.set id name value })

theorem push (st : State) (outer : Option ScopeId) :
    Grows st { st with heap := st.heap.push outer } where
  size_le := by simp
  functions_le := Nat.le_refl _
  outer_eq := by
    intro i s hs
    have hlt : i < st.heap.size := (Array.getElem?_eq_some_iff.mp hs).1
    refine ⟨s, ?_, rfl⟩
    simp only [Heap.getElem?_push, if_neg (Nat.ne_of_lt hlt), hs]

end Grows

namespace Heap.Holds

variable {P Q : Value → Prop} {h : Heap}

theorem empty : Heap.empty.Holds P := by
  constructor
  · intro id s hs
    cases hs
  · intro id o s hs
    cases hs

theorem imp (hh : h.Holds P) (hPQ : ∀ v, P v → Q v) : h.Holds Q where
  bound hs b hb := (hh.bound hs b hb).imp hPQ _
  outer_lt := hh.outer_lt

theorem set (hh : h.Holds P) (id : ScopeId) (name : String) {value : Value}
    (hv : value.Every P) : (h.set id name value).Holds P := by
  have old {i : ScopeId} {s' : Scope} (hs' : (h.set id name value).scopes[i]? = some s') :
      ∃ s, h.scopes[i]? = some s ∧ s'.outer = s.outer ∧
        ∀ b ∈ s'.bindings, b = (name, value) ∨ b ∈ s.bindings := by
    rw [Heap.getElem?_set] at hs'
    split at hs'
    · obtain ⟨s, hs, rfl⟩ := Option.map_eq_some_iff.mp hs'
      exact ⟨s, hs, rfl, fun b => Scope.mem_bindings_set⟩
    · exact ⟨s', hs', rfl, fun b => .inr⟩
  constructor
  · intro i s' hs' b hb
    obtain ⟨s, hs, -, hold⟩ := old hs'
    rcases hold b hb with rfl | hb
    · exact hv
    · exact hh.bound hs b hb
  · intro i o s' hs' ho
    obtain ⟨s, hs, houter, -⟩ := old hs'
    exact hh.outer_lt hs (houter ▸ ho)

theorem setAll (hh : h.Holds P) (id : ScopeId) {bindings : List (String × Value)}
    (hb : ∀ b ∈ bindings, b.2.Every P) : (h.setAll id bindings).Holds P := by
  induction bindings generalizing h with
  | nil => exact hh
  | cons b bindings ih =>
    obtain ⟨name, value⟩ := b
    rw [List.forall_mem_cons] at hb
    exact ih (hh.set id name hb.1) hb.2

theorem push (hh : h.Holds P) {outer : Option ScopeId} (ho : ∀ o, outer = some o → o < h.size) :
    (h.push outer).Holds P := by
  constructor
  · intro i s hs b hb
    rw [Heap.getElem?_push] at hs
    split at hs
    · obtain rfl := Option.some.inj hs
      cases hb
    · exact hh.bound hs b hb
  · intro i o s hs houter
    rw [Heap.getElem?_push] at hs
    split at hs
    · rename_i hi
      obtain rfl := Option.some.inj hs
      rw [hi]
      exact ho o houter
    · exact hh.outer_lt hs houter

theorem find? (hh : h.Holds P) {reach : Reach} {name : String} {id : ScopeId} {value : Value}
    (hv : h.find? reach name id = some value) : value.Every P := by
  obtain ⟨i, s, hs, hb⟩ := Heap.exists_mem_bindings_of_find? hv
  exact hh.bound hs _ hb

end Heap.Holds

section Evaluation

open Monkey.Action

abbrev Values (P : State → Value → Prop) (st : State) (v : Value) : Prop := v.Every (P st)

def CallRule.Follows (P : State → Value → Prop) (Fit : State → ScopeId → Nat → Prop)
    (call : CallRule) : Prop :=
  ∀ f args st, st.Obeys P → P st (.function f) → (∀ v ∈ args, v.Every (P st)) →
    Sound P Fit (Values P) st (call f args st)

variable {α β : Type} {P : State → Value → Prop} {Fit : State → ScopeId → Nat → Prop}
  {Q : State → α → Prop} {Q' : State → β → Prop} {call : CallRule} {scope : ScopeId}
  {st mid st' : State}

theorem Adds.of_size_eq (h : st'.heap.size = st.heap.size) : Adds Fit st st' := by
  intro st'' _ id hle hlt
  omega

theorem Advances.refl (hst : st.Obeys P) : Advances P Fit st st :=
  ⟨.refl st, hst, .of_size_eq rfl⟩

theorem Advances.trans (h : Advances P Fit st mid) (h' : Advances P Fit mid st') :
    Advances P Fit st st' := by
  refine ⟨h.grows.trans h'.grows, h'.obeys, ?_⟩
  intro st'' hg id hle hlt
  by_cases hid : id < mid.heap.size
  · exact h.adds st'' (h'.grows.trans hg) id hle hid
  · exact h'.adds st'' hg id (Nat.not_lt.mp hid) hlt

theorem Sound.bind {x : Eval α} {f : α → Eval β} (hx : Sound P Fit Q st (x st))
    (hf : ∀ a st', Grows st st' → st'.Obeys P → Q st' a → Sound P Fit Q' st' (f a st')) :
    Sound P Fit Q' st ((x >>= f) st) := by
  rcases h : x st with ⟨s | a, mid⟩
  · rw [h] at hx
    rw [bind_of_error h]
    refine ⟨hx.toAdvances, fun b hb => ?_, fun v hv => ?_⟩
    · cases hb
    · exact hx.returned v (congrArg Except.error (Except.error.inj hv))
  · rw [h] at hx
    rw [bind_of_ok h]
    have hmid := hf a mid hx.grows hx.obeys (hx.ok a rfl)
    exact ⟨hx.toAdvances.trans hmid.toAdvances, hmid.ok, hmid.returned⟩

theorem Sound.pure (hst : st.Obeys P) {a : α} (ha : Q st a) :
    Sound P Fit Q st ((pure a : Eval α) st) where
  toAdvances := .refl hst
  ok b hb := by
    obtain rfl := Except.ok.inj hb
    exact ha
  returned v hv := by cases hv

theorem Sound.fail (hst : st.Obeys P) (e : RuntimeError) :
    Sound P Fit Q st ((Eval.fail e : Eval α) st) where
  toAdvances := .refl hst
  ok a ha := by cases ha
  returned v hv := by cases hv

theorem Sound.returning (hst : st.Obeys P) {v : Value} (hv : v.Every (P st)) :
    Sound P Fit Q st ((Action.stop (.returned v) : Eval α) st) where
  toAdvances := .refl hst
  ok a ha := by cases ha
  returned w hw := by
    obtain rfl := Signal.returned.inj (Except.error.inj hw)
    exact hv

theorem Sound.ofExcept (hst : st.Obeys P) {r : Except RuntimeError α}
    (hr : ∀ a, r = .ok a → Q st a) : Sound P Fit Q st (Eval.ofExcept r st) := by
  cases r with
  | ok a => exact .pure hst (hr a rfl)
  | error e => exact .fail hst e

namespace Discipline

theorem advances_of_heap_eq (h : Discipline P Fit) (hst : st.Obeys P)
    (hheap : st'.heap = st.heap) (hf : st.functions ≤ st'.functions) : Advances P Fit st st' where
  grows := .of_heap_eq hheap hf
  obeys := by
    have hgrow := Grows.of_heap_eq hheap hf
    have hold : st'.heap.Holds (P st) := hheap ▸ hst
    exact hold.imp fun _ => h.grow hgrow
  adds := .of_size_eq (by rw [hheap])

theorem record (h : Discipline P Fit) (hst : st.Obeys P) (e : Event) :
    Sound P Fit (fun _ (_ : Unit) => True) st ((Action.record e : Eval Unit) st) where
  toAdvances := h.advances_of_heap_eq hst rfl (Nat.le_refl _)
  ok _ _ := trivial
  returned v hv := by cases hv

theorem writeLine (h : Discipline P Fit) (hst : st.Obeys P) (text : String) :
    Sound P Fit (fun _ (_ : Unit) => True) st (Eval.writeLine text st) := by
  unfold Eval.writeLine Action.write
  rcases st.sink.write (text ++ "\n") with ⟨_ | _, sink⟩
  · exact ⟨h.advances_of_heap_eq hst rfl (Nat.le_refl _), fun _ _ => trivial, nofun⟩
  · exact ⟨h.advances_of_heap_eq hst rfl (Nat.le_refl _), fun _ _ => trivial, nofun⟩

theorem define (h : Discipline P Fit) (hst : st.Obeys P) (name : String) {value : Value}
    (hv : value.Every (P st)) : Sound P Fit (Values P) st (Eval.define scope name value st) where
  grows := .set st scope name value
  obeys := (hst.set scope name hv).imp fun v => h.grow (.set st scope name value)
  adds := .of_size_eq (Heap.size_set _ _ _ _)
  ok w hw := by
    obtain rfl := Except.ok.inj hw
    exact hv.imp (fun v => h.grow (.set st scope name value)) _
  returned v hv := by cases hv

theorem lookUp (h : Discipline P Fit) (hst : st.Obeys P) (name : String) :
    Sound P Fit (Values P) st (Eval.lookUp scope name st) := by
  unfold Eval.lookUp
  split
  · rename_i v hv
    exact .pure hst (hst.find? hv)
  · split
    · exact .pure hst (h.plain trivial)
    · exact .fail hst _

theorem newFunction (h : Discipline P Fit) (hst : st.Obeys P) {literal : Lambda}
    (hscope : Fit st scope literal.nesting) :
    Sound P Fit (Values P) st (Eval.close scope literal st) where
  toAdvances := h.advances_of_heap_eq hst rfl (Nat.le_succ _)
  ok v hv := by
    obtain rfl := Except.ok.inj hv
    exact h.close hscope
  returned v hv := by cases hv

theorem putLines (h : Discipline P Fit) (hst : st.Obeys P) (vs : List Value) :
    Sound P Fit (Values P) st (Builtin.putLines vs st) := by
  induction vs generalizing st with
  | nil => exact .pure hst (h.plain trivial)
  | cons v vs ih => exact (h.writeLine hst v.inspect).bind fun _ st' _ hst' _ => ih hst'

theorem builtin (h : Discipline P Fit) (hst : st.Obeys P) (b : Builtin) {args : List Value}
    (hargs : ∀ v ∈ args, v.Every (P st)) : Sound P Fit (Values P) st (b.apply args st) := by
  rcases b.apply_cases args with hb | ⟨e, hb, -⟩ | ⟨v, hb, hv⟩
  · rw [hb]
    exact h.putLines hst args
  · rw [hb]
    exact .fail hst e
  · rw [hb]
    exact .pure hst (hv _ (fun _ => h.plain) hargs)

theorem apply (h : Discipline P Fit) (hcall : call.Follows P Fit) (hst : st.Obeys P) {callee : Value}
    {args : List Value} (hcallee : callee.Every (P st)) (hargs : ∀ v ∈ args, v.Every (P st)) :
    Sound P Fit (Values P) st (callee.apply call args st) := by
  cases callee with
  | function f => exact hcall f args st hst hcallee hargs
  | builtin b =>
    refine (h.record hst _).bind fun _ st' hgrow hst' _ => ?_
    exact h.builtin hst' b fun v hv => (hargs v hv).imp (fun _ => h.grow hgrow) v
  | _ => exact .fail hst _

theorem grow_every (h : Discipline P Fit) {st' : State} (hg : Grows st st') {v : Value}
    (hv : v.Every (P st)) : v.Every (P st') := hv.imp (fun _ => h.grow hg) v

theorem grow_entries (h : Discipline P Fit) {st' : State} (hg : Grows st st') {es : List Entry}
    (hes : ∀ e ∈ es, e.Every (P st)) : ∀ e ∈ es, e.Every (P st') := fun e he =>
  ⟨h.grow_every hg (hes e he).1, h.grow_every hg (hes e he).2⟩

end Discipline

mutual

theorem Expr.eval_sound (h : Discipline P Fit) (hcall : call.Follows P Fit) (e : Expr) (st : State)
    (hst : st.Obeys P) (hscope : Fit st scope e.nesting) :
    Sound P Fit (Values P) st (e.eval call scope st) := by
  match e with
  | .ident i => exact h.lookUp hst i.name
  | .integer _ n => exact .pure hst (h.plain trivial)
  | .boolean _ b => exact .pure hst (h.plain trivial)
  | .string _ s => exact .pure hst (h.plain trivial)
  | .array _ es =>
    refine (Expr.evalAll_sound h hcall es st hst hscope).bind fun vs st' _ hst' hvs => ?_
    exact .pure hst' (Value.every_array (fun _ => h.plain) hvs)
  | .hash _ ps =>
    refine (Expr.evalPairs_sound h hcall ps [] st hst hscope Entry.filed_nil (by simp)).bind
      fun es st' _ hst' hes => ?_
    exact .pure hst' (Value.every_hash (fun _ => h.plain) hes.1 hes.2)
  | .unary _ _ e =>
    refine (Expr.eval_sound h hcall e st hst hscope).bind fun v st' _ hst' hv => ?_
    exact .ofExcept hst' fun w hw => (Value.atom_of_unary hw).every fun _ => h.plain
  | .binary l _ _ r =>
    have hl : Fit st scope l.nesting := h.narrow (Nat.le_max_left _ _) hscope
    have hr : Fit st scope r.nesting := h.narrow (Nat.le_max_right _ _) hscope
    refine (Expr.eval_sound h hcall l st hst hl).bind fun v st' hg hst' hv => ?_
    refine (Expr.eval_sound h hcall r st' hst' (h.fit_grow hg hr)).bind fun w st'' _ hst'' hw => ?_
    exact .ofExcept hst'' fun u hu => (Value.atom_of_binary hu).every fun _ => h.plain
  | .cond _ c b none =>
    have hc : Fit st scope c.nesting := h.narrow (Nat.le_max_left _ _) hscope
    have hb : Fit st scope b.nesting := h.narrow (Nat.le_max_right _ _) hscope
    refine (Expr.eval_sound h hcall c st hst hc).bind fun v st' hg hst' hv => ?_
    by_cases hv : v.truthy
    · rw [if_pos hv]
      exact Block.eval_sound h hcall b st' hst' (h.fit_grow hg hb)
    · rw [if_neg hv]
      exact .pure hst' (h.plain trivial)
  | .cond _ c b (some a) =>
    have hc : Fit st scope c.nesting := h.narrow (Nat.le_max_left _ _) hscope
    have hba : Fit st scope (max b.nesting a.nesting) := h.narrow (Nat.le_max_right _ _) hscope
    refine (Expr.eval_sound h hcall c st hst hc).bind fun v st' hg hst' hv => ?_
    by_cases hv : v.truthy
    · rw [if_pos hv]
      exact Block.eval_sound h hcall b st' hst' (h.fit_grow hg (h.narrow (Nat.le_max_left _ _) hba))
    · rw [if_neg hv]
      exact Block.eval_sound h hcall a st' hst' (h.fit_grow hg (h.narrow (Nat.le_max_right _ _) hba))
  | .function f => exact h.newFunction hst hscope
  | .call f _ as =>
    have hf : Fit st scope f.nesting := h.narrow (Nat.le_max_left _ _) hscope
    have has : Fit st scope (Expr.nestingAll as) := h.narrow (Nat.le_max_right _ _) hscope
    refine (Expr.eval_sound h hcall f st hst hf).bind fun v st' hg hst' hv => ?_
    refine (Expr.evalAll_sound h hcall as st' hst' (h.fit_grow hg has)).bind
      fun vs st'' hg' hst'' hvs => ?_
    exact h.apply hcall hst'' (h.grow_every hg' hv) hvs
  | .index t _ i =>
    have ht : Fit st scope t.nesting := h.narrow (Nat.le_max_left _ _) hscope
    have hi : Fit st scope i.nesting := h.narrow (Nat.le_max_right _ _) hscope
    refine (Expr.eval_sound h hcall t st hst ht).bind fun v st' hg hst' hv => ?_
    refine (Expr.eval_sound h hcall i st' hst' (h.fit_grow hg hi)).bind
      fun w st'' hg' hst'' hw => ?_
    exact .ofExcept hst'' fun u => Value.every_index (fun _ => h.plain) (h.grow_every hg' hv)
termination_by structural e

theorem Expr.evalAll_sound (h : Discipline P Fit) (hcall : call.Follows P Fit) (es : List Expr)
    (st : State) (hst : st.Obeys P) (hscope : Fit st scope (Expr.nestingAll es)) :
    Sound P Fit (fun st vs => ∀ v ∈ vs, v.Every (P st)) st (Expr.evalAll call scope es st) := by
  match es with
  | [] => exact .pure hst (by simp)
  | e :: es =>
    have he : Fit st scope e.nesting := h.narrow (Nat.le_max_left _ _) hscope
    have hes : Fit st scope (Expr.nestingAll es) := h.narrow (Nat.le_max_right _ _) hscope
    refine (Expr.eval_sound h hcall e st hst he).bind fun v st' hg hst' hv => ?_
    refine (Expr.evalAll_sound h hcall es st' hst' (h.fit_grow hg hes)).bind
      fun vs st'' hg' hst'' hvs => ?_
    exact .pure hst'' (List.forall_mem_cons.mpr ⟨h.grow_every hg' hv, hvs⟩)
termination_by structural es

theorem Expr.evalPairs_sound (h : Discipline P Fit) (hcall : call.Follows P Fit)
    (ps : List (Expr × Expr)) (entries : List Entry) (st : State) (hst : st.Obeys P)
    (hscope : Fit st scope (Expr.nestingPairs ps)) (hfiled : Entry.Filed entries)
    (hes : ∀ e ∈ entries, e.Every (P st)) :
    Sound P Fit (fun st es => Entry.Filed es ∧ ∀ e ∈ es, Entry.Every (P st) e) st
      (Expr.evalPairs call scope entries ps st) := by
  match ps with
  | [] => exact .pure hst ⟨hfiled, hes⟩
  | (k, v) :: ps =>
    have hk : Fit st scope k.nesting := h.narrow (Nat.le_max_left _ _) hscope
    have hvps : Fit st scope (max v.nesting (Expr.nestingPairs ps)) :=
      h.narrow (Nat.le_max_right _ _) hscope
    refine (Expr.eval_sound h hcall k st hst hk).bind fun key st' hg hst' hkey => ?_
    cases hslot : key.hashKey? with
    | none => exact .fail hst' _
    | some slot =>
      have hfit := h.fit_grow hg hvps
      refine (Expr.eval_sound h hcall v st' hst' (h.narrow (Nat.le_max_left _ _) hfit)).bind
        fun value st'' hg' hst'' hvalue => ?_
      refine Expr.evalPairs_sound h hcall ps _ st'' hst''
        (h.fit_grow hg' (h.narrow (Nat.le_max_right _ _) hfit)) (hfiled.insert hslot) ?_
      exact Entry.every_insert ⟨h.grow_every hg' hkey, hvalue⟩
        (h.grow_entries (hg.trans hg') hes)
termination_by structural ps

theorem Stmt.eval_sound (h : Discipline P Fit) (hcall : call.Follows P Fit) (s : Stmt) (st : State)
    (hst : st.Obeys P) (hscope : Fit st scope s.nesting) :
    Sound P Fit (Values P) st (s.eval call scope st) := by
  match s with
  | .bind _ name none => exact h.define hst name.name (h.plain trivial)
  | .bind _ name (some e) =>
    refine (Expr.eval_sound h hcall e st hst hscope).bind fun v st' _ hst' hv => ?_
    exact h.define hst' name.name hv
  | .ret _ none =>
    exact .returning hst (h.plain trivial)
  | .ret _ (some e) =>
    refine (Expr.eval_sound h hcall e st hst hscope).bind fun v st' _ hst' hv => ?_
    exact .returning hst' hv
  | .expr _ e => exact Expr.eval_sound h hcall e st hst hscope
  | .block b => exact Block.eval_sound h hcall b st hst hscope
termination_by structural s

theorem Stmt.evalAll_sound (h : Discipline P Fit) (hcall : call.Follows P Fit) (ss : List Stmt)
    (st : State) (hst : st.Obeys P) (hscope : Fit st scope (Stmt.nestingAll ss)) :
    Sound P Fit (Values P) st (Stmt.evalAll call scope ss st) := by
  match ss with
  | [] => exact .pure hst (h.plain trivial)
  | [s] =>
    have hs : Fit st scope s.nesting := h.narrow (Nat.le_max_left _ _) hscope
    refine (h.record hst _).bind fun _ st' hg hst' _ => ?_
    exact Stmt.eval_sound h hcall s st' hst' (h.fit_grow hg hs)
  | s :: t :: ss =>
    have hs : Fit st scope s.nesting := h.narrow (Nat.le_max_left _ _) hscope
    have hss : Fit st scope (Stmt.nestingAll (t :: ss)) := h.narrow (Nat.le_max_right _ _) hscope
    refine (h.record hst _).bind fun _ st' hg hst' _ => ?_
    refine (Stmt.eval_sound h hcall s st' hst' (h.fit_grow hg hs)).bind fun _ st'' hg' hst'' _ => ?_
    exact Stmt.evalAll_sound h hcall (t :: ss) st'' hst'' (h.fit_grow hg' (h.fit_grow hg hss))
termination_by structural ss

theorem Block.eval_sound (h : Discipline P Fit) (hcall : call.Follows P Fit) (b : Block)
    (st : State) (hst : st.Obeys P) (hscope : Fit st scope b.nesting) :
    Sound P Fit (Values P) st (b.eval call scope st) := by
  match b with
  | .mk _ ss => exact Stmt.evalAll_sound h hcall ss st hst hscope
termination_by structural b

end

theorem Sound.catchReturn {x : Eval Value} (hx : Sound P Fit (Values P) st (x st)) :
    Sound P Fit (Values P) st (Eval.catchReturn x st) := by
  unfold Eval.catchReturn
  split
  · rename_i v st' h
    rw [h] at hx
    refine ⟨hx.toAdvances, fun w hw => ?_, nofun⟩
    obtain rfl := Except.ok.inj hw
    exact hx.returned v rfl
  · exact hx

/-- A new scope for a call of `f`, in which some of the parameters have been bound to arguments. -/
theorem Closure.binding_advances (h : Discipline P Fit) (hst : st.Obeys P) {f : Closure}
    {args : List Value} (hf : (Value.function f).Every (P st)) (hargs : ∀ v ∈ args, v.Every (P st))
    {bindings : List (String × Value)}
    (hb : ∀ b ∈ bindings, b ∈ (f.literal.params.map Ident.name).zip args) :
    Advances P Fit st { st with
      heap := (st.heap.push (some f.scope)).setAll st.heap.size bindings } := by
  have hpush : (st.heap.push (some f.scope)).Holds (P st) :=
    hst.push fun o ho => Option.some.inj ho ▸ h.captured hf
  have hbound := Grows.setAll { st with heap := st.heap.push (some f.scope) } st.heap.size bindings
  have hgrow := (Grows.push st (some f.scope)).trans hbound
  refine ⟨hgrow, ?_, ?_⟩
  · refine (hpush.setAll st.heap.size fun b hmem => ?_).imp fun _ => h.grow hgrow
    exact hargs b.2 (List.of_mem_zip (hb b hmem)).2
  · intro st'' hg id hle hlt
    have hid : id = st.heap.size := by
      simp only [Heap.size_setAll, Heap.size_push] at hlt
      omega
    rw [hid]
    exact h.narrow (Nat.zero_le _) (h.fit_grow (hbound.trans hg) (h.enter hf))

theorem Closure.entered_advances (h : Discipline P Fit) (hst : st.Obeys P) {f : Closure}
    {args : List Value} (hf : (Value.function f).Every (P st))
    (hargs : ∀ v ∈ args, v.Every (P st)) : Advances P Fit st (f.entered args st) := by
  have hbound := Closure.binding_advances h hst hf hargs fun _ hb => hb
  exact hbound.trans (h.advances_of_heap_eq hbound.obeys rfl (Nat.le_refl _))

/-- The body of a function fits into the scope that a call makes for it. -/
theorem Closure.entered_fit (h : Discipline P Fit) {f : Closure} (hf : P st (.function f))
    (args : List Value) : Fit (f.entered args st) st.heap.size f.literal.body.nesting := by
  have hbound := Grows.setAll { st with heap := st.heap.push (some f.scope) } st.heap.size
    ((f.literal.params.map Ident.name).zip args)
  exact h.fit_grow (hbound.trans (.of_heap_eq rfl (Nat.le_refl _))) (h.enter hf)

theorem Closure.call_follows (h : Discipline P Fit) (depth : Nat) :
    CallRule.Follows P Fit (Closure.call depth) := by
  induction depth with
  | zero =>
    intro f args st hst hf hargs
    exact ⟨.refl hst, nofun, nofun⟩
  | succ depth ih =>
    intro f args st hst hf hargs
    rw [Closure.call_succ]
    split
    · exact .fail hst _
    · have hentered := Closure.entered_advances h hst hf hargs
      have hbody := Block.eval_sound h ih f.literal.body _ hentered.obeys
        (Closure.entered_fit h hf args)
      have hcatch := hbody.catchReturn
      exact ⟨hentered.trans hcatch.toAdvances, hcatch.ok, hcatch.returned⟩

theorem Program.run_advances (h : Discipline P Fit) (depth : Nat) (p : Program) (hst : st.Obeys P)
    (hscope : Fit st scope p.nesting) : Advances P Fit st (p.run depth scope st).2 := by
  have recorded {st : State} (hst : st.Obeys P) (e : Event) : Advances P Fit st (st.record e) :=
    (h.record hst e).toAdvances
  have hstart := recorded hst (.evaluating p.statements.length)
  have hall := Stmt.evalAll_sound h (Closure.call_follows h depth) p.statements _ hstart.obeys
    (h.fit_grow hstart.grows hscope)
  unfold Program.run
  split
  · rename_i v st' hst'
    rw [hst'] at hall
    exact (hstart.trans hall.toAdvances).trans (recorded hall.obeys _)
  · rename_i s st' hst'
    rw [hst'] at hall
    split
    · exact (hstart.trans hall.toAdvances).trans (recorded hall.obeys _)
    · exact hstart.trans hall.toAdvances

end Evaluation

end Monkey
