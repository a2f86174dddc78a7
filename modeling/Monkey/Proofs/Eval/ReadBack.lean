import Monkey.Proofs.Eval.Arithmetic
import Monkey.Proofs.Eval.HashOrder
import Monkey.Proofs.Syntax.Acceptance
import Monkey.Proofs.Syntax.Readable
import Monkey.Proofs.Value.Equality

/-!
Data read back. What is printed for a value made of integers, booleans, arrays and hashes is the
text of an expression, and that expression is worth the value, wherever it is evaluated: one
statement for each kind of value, from the same statement for its parts. A negative integer is read
as the negation of a number, and the number that belongs to the least integer is too great.
-/

namespace Monkey

open Text Grammar Lexical

/-- Can be written as a literal, if its parts can. Keys are values with a slot of their own, and the
only such values here are integers and booleans. -/
def Value.Literal : Value → Prop
  | .integer n => n ≠ Int64.minValue
  | .boolean _ | .array _ => True
  | .hash es => Entry.Filed es
  | _ => False

namespace Expr

def Yields (e : Expr) (v : Value) : Prop :=
  ∀ call scope, (e.eval call scope).Gives (.ok v)

def YieldAll (es : List Expr) (vs : List Value) : Prop :=
  ∀ call scope, (Expr.evalAll call scope es).Gives (.ok vs)

def YieldPair (p : Expr × Expr) (q : Key × Value) : Prop :=
  p.1.Yields q.1.value ∧ p.2.Yields q.2

def YieldPairs (ps : List (Expr × Expr)) (pairs : List (Key × Value)) : Prop :=
  ∀ call scope st, Expr.PairsYield call scope ps st pairs st

theorem yieldAll_nil : YieldAll [] [] := fun _ _ => .pure []

theorem YieldAll.cons {e : Expr} {es : List Expr} {v : Value} {vs : List Value} (he : e.Yields v)
    (hes : YieldAll es vs) : YieldAll (e :: es) (v :: vs) := by
  intro call scope
  exact (he call scope).bind ((hes call scope).bind (.pure (v :: vs)))

theorem yields_array {es : List Expr} {vs : List Value} (t : Token) (hes : YieldAll es vs) :
    (Expr.array t es).Yields (.array vs) := by
  intro call scope
  exact (hes call scope).bind (.pure (Value.array vs))

theorem yieldPairs_nil : YieldPairs [] [] := fun _ _ st => .nil st

theorem YieldPairs.cons {p : Expr × Expr} {ps : List (Expr × Expr)} {q : Key × Value}
    {pairs : List (Key × Value)} (hp : YieldPair p q) (hps : YieldPairs ps pairs) :
    YieldPairs (p :: ps) (q :: pairs) := by
  intro call scope st
  exact .cons (hp.1 call scope st) (hp.2 call scope st) (hps call scope st)

theorem yields_hash {ps : List (Expr × Expr)} {pairs : List (Key × Value)} (t : Token)
    (hps : YieldPairs ps pairs) :
    (Expr.hash t ps).Yields (.hash (Entry.fileAll [] pairs)) := by
  intro call scope st
  exact Expr.eval_hash_eq_ok_iff.mpr ⟨pairs, hps call scope st, rfl⟩

end Expr

namespace Entry

theorem exists_pairs {es : List Entry} (h : ∀ e ∈ es, e.key.hashKey? = some e.slot) :
    ∃ pairs : List (Key × Value), pairs.map ofPair = es := by
  induction es with
  | nil => exact ⟨[], rfl⟩
  | cons e es ih =>
    rw [List.forall_mem_cons] at h
    obtain ⟨s, k, v⟩ := e
    obtain ⟨key, rfl, rfl⟩ := Key.exists_of_hashKey? h.1
    obtain ⟨pairs, rfl⟩ := ih h.2
    exact ⟨(key, v) :: pairs, rfl⟩

theorem insert_of_notMem {e : Entry} {es : List Entry} (h : e.slot ∉ es.map slot) :
    e.insert es = es ++ [e] := by
  induction es with
  | nil => rfl
  | cons f fs ih =>
    rw [List.map_cons, List.mem_cons, not_or] at h
    rw [insert, if_neg (Ne.symm h.1), ih h.2, List.cons_append]

/-- Where no slot comes twice, entries stand as they were filed. -/
theorem fileAll_of_distinct {pairs : List (Key × Value)}
    (h : ((pairs.map ofPair).map slot).Nodup) : fileAll [] pairs = pairs.map ofPair := by
  induction pairs using List.reverseRecOn with
  | nil => rfl
  | append_singleton pairs p ih =>
    simp only [List.map_append, List.map_cons, List.map_nil] at h ⊢
    obtain ⟨hdistinct, -, hapart⟩ := List.nodup_append.mp h
    have hnew : (ofPair p).slot ∉ (pairs.map ofPair).map slot := by
      intro hmem
      exact hapart _ hmem _ (List.mem_singleton_self _) rfl
    rw [fileAll_concat, ih hdistinct, insert_of_notMem hnew]

end Entry

/-- What is printed for the value is read as an expression that yields it. -/
def Value.ReadsBack (v : Value) : Prop :=
  Spells isWordChar v.inspect.toList (Denoting (Expression .equality) Expr.Yields v)

namespace Value

theorem inspectAll_eq_map (vs : List Value) : Value.inspectAll vs = vs.map Value.inspect := by
  induction vs with
  | nil => rfl
  | cons v vs ih => rw [Value.inspectAll, ih, List.map_cons]

theorem spells_number {k : Nat} (hk : k < 2 ^ 63) :
    Spells isWordChar k.repr.toList
      (Denoting (Expression .unary) Expr.Yields (.integer (Int64.ofNat k))) := by
  refine (Spells.number k).imp ?_
  rintro _ ⟨t, rfl, ht, rfl⟩
  have hderived : Expression .primary [t] _ := .integer ht (by omega)
  exact ⟨_, hderived.loosen (by decide), fun call scope => .pure _⟩

theorem spells_negated {k : Nat} (hk : k < 2 ^ 63) :
    Spells isWordChar ("-" ++ k.repr).toList
      (Denoting (Expression .unary) Expr.Yields (.integer (-Int64.ofNat k))) := by
  rw [String.toList_append]
  refine Spells.minusSign.closed ?_
  rintro _ ⟨t, rfl, ht, hminus⟩
  refine (spells_number hk).imp ?_
  rintro w ⟨e, he, hyields⟩
  have hop : UnaryOp.ofKind? t.kind = some .neg := by
    rw [ht]
    rfl
  refine ⟨.unary .neg t e, .unary hop he, ?_⟩
  intro call scope
  have hgives := Expr.gives_unary (t := t) .neg (hyields call scope)
  rw [hminus] at hgives
  exact hgives

theorem readsBack_integer {n : Int64} (hn : n ≠ Int64.minValue) : (Value.integer n).ReadsBack := by
  have htext : (Value.integer n).inspect = toString n.toInt := rfl
  have hlow := n.le_toInt
  have hhigh := n.toInt_lt
  have hleast : n.toInt ≠ -2 ^ 63 := by
    rw [← Int64.toInt_minValue]
    exact fun heq => hn (Int64.toInt_inj.mp heq)
  rw [ReadsBack, htext]
  cases hvalue : n.toInt with
  | ofNat k =>
    have heq : n = Int64.ofNat k := by
      rw [← Int64.ofInt_toInt n, hvalue]
      rfl
    have hk : k < 2 ^ 63 := by
      rw [hvalue] at hhigh
      exact Int.ofNat_lt.mp hhigh
    rw [heq]
    refine (spells_number hk).imp ?_
    rintro w ⟨e, he, hyields⟩
    exact ⟨e, he.loosest, hyields⟩
  | negSucc k =>
    -- The number behind the sign is one greater than `k`, and fits unless `n` is the least.
    have heq : n = -Int64.ofNat (k + 1) := by
      rw [← Int64.ofInt_toInt n, hvalue, Int.negSucc_eq, Int64.ofInt_neg]
      rfl
    rw [heq]
    refine (spells_negated (by omega)).imp ?_
    rintro w ⟨e, he, hyields⟩
    exact ⟨e, he.loosest, hyields⟩

theorem readsBack_boolean (b : Bool) : (Value.boolean b).ReadsBack := by
  cases b with
  | true =>
    refine (@Spells.keyword "true" .kwTrue rfl).imp ?_
    rintro _ ⟨t, rfl, ht⟩
    exact ⟨.boolean t true, (Expression.kwTrue ht).loosest, fun call scope => .pure _⟩
  | false =>
    refine (@Spells.keyword "false" .kwFalse rfl).imp ?_
    rintro _ ⟨t, rfl, ht⟩
    exact ⟨.boolean t false, (Expression.kwFalse ht).loosest, fun call scope => .pure _⟩

theorem readsBack_array {vs : List Value} (hvs : ∀ v ∈ vs, v.ReadsBack) :
    (Value.array vs).ReadsBack := by
  have htext : (Value.array vs).inspect.toList =
      '[' :: ((", ".intercalate (vs.map Value.inspect)).toList ++ [']']) := by
    rw [← inspectAll_eq_map]
    change ("[" ++ ", ".intercalate (Value.inspectAll vs) ++ "]").toList = _
    simp
  have hlisted := Expr.listed_exprs (l := .equality) .rightBracket Expr.yieldAll_nil .cons
  rw [ReadsBack, htext]
  refine .symbol rfl fun t ht => (hlisted.spells rfl hvs).of_never.imp ?_
  rintro w ⟨es, hes, hyield⟩
  exact ⟨.array t es, (Expression.array ht hes).loosest, Expr.yields_array t hyield⟩

theorem readsBack_hash {es : List Entry} (hfiled : Entry.Filed es)
    (hes : ∀ e ∈ es, e.key.ReadsBack ∧ e.value.ReadsBack) : (Value.hash es).ReadsBack := by
  obtain ⟨pairs, rfl⟩ := Entry.exists_pairs hfiled.own_slot
  have hpairs : ∀ p ∈ pairs, p.1.value.ReadsBack ∧ p.2.ReadsBack := List.forall_mem_map.mp hes
  have hentries : Entry.inspectAll (pairs.map Entry.ofPair) =
      pairs.map fun p => p.1.value.inspect ++ ": " ++ p.2.inspect := by
    rw [Entry.inspectAll_eq_map, List.map_map]
    rfl
  have htext : (Value.hash (pairs.map Entry.ofPair)).inspect.toList = '{' ::
      ((", ".intercalate (Entry.inspectAll (pairs.map Entry.ofPair))).toList ++ ['}']) := by
    change ("\x7b" ++ ", ".intercalate (Entry.inspectAll (pairs.map Entry.ofPair)) ++
      "\x7d").toList = _
    simp
  have hlisted := Expr.listed_keyValues Expr.yieldPairs_nil .cons
  have hspells : ∀ p ∈ pairs, Spells isWordChar (p.1.value.inspect ++ ": " ++ p.2.inspect).toList
      (Denoting Expr.PairDerived Expr.YieldPair p) := by
    intro p hp
    exact Expr.spells_keyValue (hpairs p hp).1 (hpairs p hp).2
  rw [ReadsBack, htext, hentries]
  refine .symbol rfl fun t ht => (hlisted.spells rfl hspells).of_never.imp ?_
  rintro w ⟨ps, hps, hyields⟩
  refine ⟨.hash t ps, (Expression.hash ht hps).loosest, ?_⟩
  rw [← Entry.fileAll_of_distinct hfiled.distinct]
  exact Expr.yields_hash t hyields

theorem readsBack (v : Value) (h : v.Every Value.Literal) : v.ReadsBack := by
  induction v using induction_on_parts with
  | leaf v hleaf =>
    cases v with
    | integer n => exact readsBack_integer h
    | boolean b => exact readsBack_boolean b
    | array _ | hash _ | returned _ => cases hleaf
    | string _ | null | function _ | builtin _ | error _ => cases h
  | array vs ih =>
    have hvs := everyAll_iff.mp h.2
    exact readsBack_array fun v hv => ih v hv (hvs v hv)
  | hash es ih =>
    have hes := Entry.everyAll_iff.mp h.2
    refine readsBack_hash h.1 ?_
    intro e he
    exact ⟨(ih e he).1 (hes e he).1, (ih e he).2 (hes e he).2⟩
  | returned v _ => cases h.1

end Value

theorem Program.run_expr {e : Expr} {v : Value} (h : e.Yields v) (t : Token) (depth : Nat)
    (scope : ScopeId) (st : State) :
    ∃ journal, (Program.mk [.expr t e]).run depth scope st = (some v, { st with journal }) := by
  have heval : Stmt.evalAll (Closure.call depth) scope [.expr t e] (st.record (.evaluating 1)) =
      (.ok v, (st.record (.evaluating 1)).record (.statement (.expr t e))) :=
    (Action.bind_of_ok rfl _).trans (h (Closure.call depth) scope _)
  unfold Program.run
  simp only [List.length_singleton, heval]
  exact ⟨_, rfl⟩

/-- What is printed for data is read without a fault as a program, and the program is worth the same
data again, entries of hashes in the same order, in whatever scope and state it is run; it writes
nothing and leaves all scopes as they are. -/
theorem data_reads_back {v : Value} (h : v.Every Value.Literal) :
    ∃ p, parse v.inspect = (p, []) ∧ ∀ (depth : Nat) (scope : ScopeId) (st : State),
      (p.run depth scope st).1 = some v ∧ (p.run depth scope st).2.sink = st.sink ∧
        (p.run depth scope st).2.heap = st.heap := by
  obtain ⟨w, stop, htokens, e, he, hyields⟩ := v.readsBack h [] .start nofun
  obtain ⟨t, u, rfl, -⟩ := he.starts
  rw [List.append_nil, tokens_nil] at htokens
  have hstmt : Statement .eof (t :: (u ++ [])) (.expr t e) := .expr he (.omitted rfl)
  have hbody : Body .eof (tokenize v.inspect) [.expr t e] := by
    have hdone : Body .eof [⟨.eof, "", stop, stop⟩] [] := .done rfl
    rw [tokenize, Cursor.ofString, htokens]
    rw [List.append_nil] at hstmt
    exact .step hstmt hdone
  refine ⟨⟨[.expr t e]⟩, parse_of_derived hbody, ?_⟩
  intro depth scope st
  obtain ⟨journal, hrun⟩ := Program.run_expr hyields t depth scope st
  rw [hrun]
  exact ⟨rfl, rfl, rfl⟩

/-- A hash within an array, with a negative key and empty parts. -/
theorem data_reads_back_instance :
    let entries : List Entry :=
      [.ofPair (.integer (-9223372036854775807), .array []), .ofPair (.boolean false, .hash [])]
    let v : Value := .array [.integer (-1), .hash entries, .boolean true]
    v.inspect = "[-1, \x7b-9223372036854775807: [], false: \x7b\x7d\x7d, true]" ∧
      v.Every Value.Literal ∧
      ∃ p, parse v.inspect = (p, []) ∧
        let (scope, st) := (State.ofSink .unlimited .silent).newGlobal
        (p.run 0 scope st).1 = some v ∧ (p.run 0 scope st).2.sink = .unlimited := by
  intro entries v
  have hfiled : Entry.Filed entries := by
    constructor
    · decide
    · exact List.forall_mem_cons.mpr ⟨rfl, List.forall_mem_singleton.mpr rfl⟩
  have hkey : (-9223372036854775807 : Int64) ≠ Int64.minValue := by decide
  have helement : (-1 : Int64) ≠ Int64.minValue := by decide
  have hentries : Entry.EveryAll Value.Literal entries :=
    ⟨hkey, ⟨trivial, trivial⟩, trivial, ⟨Entry.filed_nil, trivial⟩, trivial⟩
  have hdata : v.Every Value.Literal :=
    ⟨trivial, helement, ⟨hfiled, hentries⟩, trivial, trivial⟩
  obtain ⟨p, hparse, hrun⟩ := data_reads_back hdata
  refine ⟨by decide +kernel, hdata, p, hparse, ?_⟩
  obtain ⟨hvalue, hsink, -⟩ := hrun 0 0 (State.ofSink .unlimited .silent).newGlobal.2
  exact ⟨hvalue, hsink⟩

end Monkey
