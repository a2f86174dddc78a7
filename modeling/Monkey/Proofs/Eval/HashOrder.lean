import Mathlib.Data.List.Induction
import Monkey.Proofs.Eval.HashLiteral
import Monkey.Proofs.Eval.Signals

/-!
The order of a hash literal. Filing a pair under a slot that is taken replaces the entry where it
stands, and a new slot comes last; so the entries of a literal stand where their slots first came
up, and hold what came last. A key that cannot be filed ends the literal as soon as it has been
evaluated.
-/

namespace Monkey

/-- `firsts` has the members of `slots`, each of them once, in the order in which they first come
up. -/
structure FirstsOf (slots firsts : List HashKey) : Prop where
  distinct : firsts.Nodup
  mem_iff : ∀ s, s ∈ firsts ↔ s ∈ slots
  ordered : firsts.Pairwise fun s t => slots.idxOf s < slots.idxOf t

namespace FirstsOf

theorem of_ordered {slots firsts : List HashKey} (hmem : ∀ s, s ∈ firsts ↔ s ∈ slots)
    (hordered : firsts.Pairwise fun s t => slots.idxOf s < slots.idxOf t) :
    FirstsOf slots firsts where
  distinct := by
    refine hordered.imp fun {s t} hlt heq => ?_
    rw [heq] at hlt
    exact Nat.lt_irrefl _ hlt
  mem_iff := hmem
  ordered := hordered

theorem ordered_append {slots firsts : List HashKey} (h : FirstsOf slots firsts) (s : HashKey) :
    firsts.Pairwise fun t u => (slots ++ [s]).idxOf t < (slots ++ [s]).idxOf u := by
  refine h.ordered.imp_of_mem fun {t u} ht hu hlt => ?_
  rw [List.idxOf_append_of_mem ((h.mem_iff t).mp ht), List.idxOf_append_of_mem ((h.mem_iff u).mp hu)]
  exact hlt

/-- One more slot: nothing happens to the firsts when it is among them, else it comes last. -/
theorem concat {slots firsts : List HashKey} (h : FirstsOf slots firsts) (s : HashKey) :
    FirstsOf (slots ++ [s]) (if s ∈ firsts then firsts else firsts ++ [s]) := by
  by_cases hs : s ∈ firsts
  · rw [if_pos hs]
    refine of_ordered (fun t => ?_) (h.ordered_append s)
    rw [List.mem_append, List.mem_singleton, h.mem_iff]
    constructor
    · exact Or.inl
    · rintro (ht | rfl)
      · exact ht
      · exact (h.mem_iff t).mp hs
  · rw [if_neg hs]
    refine of_ordered (fun t => ?_) ?_
    · rw [List.mem_append, List.mem_append, h.mem_iff]
    · rw [List.pairwise_append]
      refine ⟨h.ordered_append s, List.pairwise_singleton _ s, fun t ht u hu => ?_⟩
      obtain rfl := List.mem_singleton.mp hu
      have htslots : t ∈ slots := (h.mem_iff t).mp ht
      have huslots : u ∉ slots := fun hmem => hs ((h.mem_iff u).mpr hmem)
      rw [List.idxOf_append_of_mem htslots, List.idxOf_append_of_notMem huslots]
      exact Nat.lt_add_right _ (List.idxOf_lt_length_of_mem htslots)

end FirstsOf

namespace Entry

theorem fileAll_concat (es : List Entry) (pairs : List (Key × Value)) (p : Key × Value) :
    fileAll es (pairs ++ [p]) = (ofPair p).insert (fileAll es pairs) := by
  induction pairs generalizing es with
  | nil => rfl
  | cons q pairs ih => exact ih ((ofPair q).insert es)

/-- Entries stand where the slots of their pairs first come up. -/
theorem firstsOf_fileAll (pairs : List (Key × Value)) :
    FirstsOf (pairs.map (·.1.slot)) ((fileAll [] pairs).map slot) := by
  induction pairs using List.reverseRecOn with
  | nil => exact .of_ordered (fun _ => Iff.rfl) .nil
  | append_singleton pairs p ih =>
    rw [fileAll_concat, slots_insert, slot_ofPair, List.map_append]
    exact ih.concat p.1.slot

theorem last_of_mem_fileAll {pairs : List (Key × Value)} {e : Entry} (he : e ∈ fileAll [] pairs) :
    (pairs.filter (·.1.slot = e.slot)).getLast?.map ofPair = some e := by
  have hfound := (find?_eq_some_iff (firstsOf_fileAll pairs).distinct).mpr ⟨he, rfl⟩
  rw [find?_fileAll] at hfound
  simpa [find?] using hfound

theorem inspectAll_eq_map (es : List Entry) :
    inspectAll es = es.map fun e => e.key.inspect ++ ": " ++ e.value.inspect := by
  induction es with
  | nil => rfl
  | cons e es ih =>
    obtain ⟨slot, k, v⟩ := e
    rw [inspectAll, ih]
    rfl

end Entry

/-- A key that cannot be filed ends a literal, in the state that its evaluation has left. -/
theorem Expr.eval_hash_unusable {call : CallRule} {scope : ScopeId} {st mid st' : State} (t : Token)
    {before : List (Expr × Expr)} {pairs : List (Key × Value)} {k : Expr} {key : Value}
    (hbefore : Expr.PairsYield call scope before st pairs mid)
    (hkey : k.eval call scope mid = (.ok key, st')) (hunusable : key.hashKey? = none) (v : Expr)
    (after : List (Expr × Expr)) :
    (Expr.hash t (before ++ (k, v) :: after)).eval call scope st =
      (.error (.failed (.unusableAsHashKey key.kind)), st') := by
  refine Action.bind_of_error ?_ _
  rw [Expr.evalPairs_append (hbefore.evalPairs_eq [])]
  refine (Action.bind_of_ok hkey _).trans ?_
  simp only [hunusable]
  rfl

/-- A hash literal whose keys and values are all evaluated normally has one entry for each slot, in
the order in which the slots first come up, each with the key and the value that came last; it is
shown in that order. A literal in which that goes well up to a key that cannot be filed fails with
the kind of that key, and nothing behind the key is evaluated. -/
theorem literal_keeps_first_places_and_last_contents (call : CallRule) (scope : ScopeId)
    (t : Token) :
    (∀ (ps : List (Expr × Expr)) (pairs : List (Key × Value)) (st st' : State),
      Expr.PairsYield call scope ps st pairs st' →
        ∃ entries, (Expr.hash t ps).eval call scope st = (.ok (.hash entries), st') ∧
          FirstsOf (pairs.map (·.1.slot)) (entries.map Entry.slot) ∧
          (∀ e ∈ entries,
            (pairs.filter (·.1.slot = e.slot)).getLast?.map Entry.ofPair = some e) ∧
          (Value.hash entries).inspect =
            "\x7b" ++ ", ".intercalate
              (entries.map fun e => e.key.inspect ++ ": " ++ e.value.inspect) ++ "\x7d") ∧
    (∀ (before after : List (Expr × Expr)) (k v : Expr) (pairs : List (Key × Value)) (key : Value)
      (st mid st' : State), Expr.PairsYield call scope before st pairs mid →
        k.eval call scope mid = (.ok key, st') → key.hashKey? = none →
        (Expr.hash t (before ++ (k, v) :: after)).eval call scope st =
          (.error (.failed (.unusableAsHashKey key.kind)), st')) := by
  constructor
  · intro ps pairs st st' hpairs
    refine ⟨Entry.fileAll [] pairs, ?_, Entry.firstsOf_fileAll pairs, ?_, ?_⟩
    · exact Expr.eval_hash_eq_ok_iff.mpr ⟨pairs, hpairs, rfl⟩
    · intro e he
      exact Entry.last_of_mem_fileAll he
    · have hshown := Entry.inspectAll_eq_map (Entry.fileAll [] pairs)
      exact congrArg (fun texts => "\x7b" ++ ", ".intercalate texts ++ "\x7d") hshown
  · intro before after k v pairs key st mid st' hbefore hkey hunusable
    exact Expr.eval_hash_unusable t hbefore hkey hunusable v after

/-- Two strings with one digest and an integer that comes up twice; and a literal with an array as
its second key, behind which there is a name that is not bound. -/
theorem literal_keeps_first_places_and_last_contents_instance :
    let t : Token := default
    let number (n : Int64) : Expr := .integer t n
    let ps : List (Expr × Expr) := [(.string t "zAGZwpJzG4f", number 1), (number 7, number 2),
      (.string t "5mzg7oknpko", number 3), (number 7, number 4)]
    let st := (State.ofSink .unlimited .silent).newGlobal.2
    let literal := (Expr.hash t ps).eval (Closure.call 0) 0 st
    (∃ entries, literal = (.ok (.hash entries), st) ∧
      (entries.map Entry.slot).Nodup ∧
      (Value.hash entries).inspect = "\x7b5mzg7oknpko: 3, 7: 4\x7d") ∧
    (Expr.hash t [(number 7, number 1), (.array t [], .ident ⟨t⟩)]).eval (Closure.call 0) 0 st =
      (.error (.failed (.unusableAsHashKey .array)), st) := by
  intro t number ps st literal
  have hpairs : Expr.PairsYield (Closure.call 0) 0 ps st
      [(.string "zAGZwpJzG4f", .integer 1), (.integer 7, .integer 2),
        (.string "5mzg7oknpko", .integer 3), (.integer 7, .integer 4)] st :=
    .cons rfl rfl (.cons rfl rfl (.cons rfl rfl (.cons rfl rfl (.nil st))))
  have hbefore : Expr.PairsYield (Closure.call 0) 0 [(number 7, number 1)] st
      [(.integer 7, .integer 1)] st := .cons rfl rfl (.nil st)
  obtain ⟨hliteral, hunusable⟩ :=
    literal_keeps_first_places_and_last_contents (Closure.call 0) 0 t
  constructor
  · obtain ⟨entries, heval, hfirsts, -, -⟩ := hliteral ps _ st st hpairs
    refine ⟨entries, heval, hfirsts.distinct, ?_⟩
    have hinspect : literal.1.toOption.map Value.inspect =
        some "\x7b5mzg7oknpko: 3, 7: 4\x7d" := by decide +kernel
    rw [show literal = _ from heval] at hinspect
    exact Option.some.inj hinspect
  · exact hunusable _ [] (.array t []) (.ident ⟨t⟩) _ (.array []) st st st hbefore rfl rfl

end Monkey
