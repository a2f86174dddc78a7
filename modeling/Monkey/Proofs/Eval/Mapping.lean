import Mathlib.Data.Int.ModEq
import Mathlib.Data.List.Forall2
import Monkey.Proofs.Eval.Contract
import Monkey.Proofs.Eval.Layout

/-!
A higher-order function written in the language. `map` applies a function to the elements of an
array, from left to right; the work is done by a closure that calls itself, has captured the
function, and makes a scope for every element. This is proved for every function and array, by
induction on the array; doubling is an example of a function.
-/

namespace Monkey

namespace Mapping

def source : String := "let map = fn(arr, f) \x7b
  let iter = fn(arr, accumulated) \x7b
    if (len(arr) == 0) \x7b
      accumulated
    \x7d else \x7b
      iter(rest(arr), push(accumulated, f(first(arr))));
    \x7d
  \x7d;
  iter(arr, []);
\x7d;
let double = fn(x) \x7b x * 2 \x7d;
map(a, double);"

section Trees

-- The tree of the text, with tokens that have no place.

def word (kind : TokenKind) (text : String) : Token := ⟨kind, text, default⟩

def named (name : String) : Expr := .ident ⟨word .identifier name⟩

def applied (f : String) (args : List Expr) : Expr := .call (named f) (word .leftParen "(") args

def block (ss : List Stmt) : Block := .mk (word .leftBrace "\x7b") ss

def function (params : List String) (ss : List Stmt) : Lambda :=
  .mk (word .kwFn "fn") (params.map fun p => ⟨word .identifier p⟩) (block ss)

def bind (name : String) (f : Lambda) : Stmt :=
  .bind (word .kwLet "let") ⟨word .identifier name⟩ (some (.function f))

def lengthIsZero : Expr :=
  .binary (applied "len" [named "arr"]) .eq (word .equal "==") (.integer (word .integer "0") 0)

def next : Expr :=
  applied "iter" [applied "rest" [named "arr"],
    applied "push" [named "accumulated", applied "f" [applied "first" [named "arr"]]]]

def turn : Expr :=
  .cond (word .kwIf "if") lengthIsZero
    (block [.expr (word .identifier "accumulated") (named "accumulated")])
    (some (block [.expr (word .identifier "iter") next]))

def iterLiteral : Lambda :=
  function ["arr", "accumulated"] [.expr (word .kwIf "if") turn]

def mapLiteral : Lambda :=
  function ["arr", "f"] [bind "iter" iterLiteral, .expr (word .identifier "iter")
    (applied "iter" [named "arr", .array (word .leftBracket "[") []])]

def doubleLiteral : Lambda :=
  function ["x"] [.expr (word .identifier "x")
    (.binary (named "x") .mul (word .star "*") (.integer (word .integer "2") 2))]

def application : Stmt :=
  .expr (word .identifier "map") (applied "map" [named "a", named "double"])

def program : Program := ⟨[bind "map" mapLiteral, bind "double" doubleLiteral, application]⟩

end Trees

section Tokens

def sign (kind : TokenKind) : Token := word kind kind.label

def name (text : String) : Token := word .identifier text

def tokens : List Token :=
  [sign .kwLet, name "map", sign .assign, sign .kwFn, sign .leftParen, name "arr", sign .comma,
    name "f", sign .rightParen, sign .leftBrace] ++
  [sign .kwLet, name "iter", sign .assign, sign .kwFn, sign .leftParen, name "arr", sign .comma,
    name "accumulated", sign .rightParen, sign .leftBrace] ++
  [sign .kwIf, sign .leftParen, name "len", sign .leftParen, name "arr", sign .rightParen,
    sign .equal, word .integer "0", sign .rightParen, sign .leftBrace] ++
  [name "accumulated"] ++
  [sign .rightBrace, sign .kwElse, sign .leftBrace] ++
  [name "iter", sign .leftParen, name "rest", sign .leftParen, name "arr", sign .rightParen,
    sign .comma, name "push", sign .leftParen, name "accumulated", sign .comma, name "f",
    sign .leftParen, name "first", sign .leftParen, name "arr", sign .rightParen, sign .rightParen,
    sign .rightParen, sign .rightParen, sign .semicolon] ++
  [sign .rightBrace] ++
  [sign .rightBrace, sign .semicolon] ++
  [name "iter", sign .leftParen, name "arr", sign .comma, sign .leftBracket, sign .rightBracket,
    sign .rightParen, sign .semicolon] ++
  [sign .rightBrace, sign .semicolon] ++
  [sign .kwLet, name "double", sign .assign, sign .kwFn, sign .leftParen, name "x",
    sign .rightParen, sign .leftBrace, name "x", sign .star, word .integer "2", sign .rightBrace,
    sign .semicolon] ++
  [name "map", sign .leftParen, name "a", sign .comma, name "double", sign .rightParen,
    sign .semicolon] ++
  [word .eof ""]

-- The literal is opened before the text is taken apart, so that no bytes have to be decoded.
set_option maxRecDepth 8000 in
theorem tokenize_source : (tokenize source).map Token.unplaced = tokens := by
  have htext : source.toList = _ := String.toList_ofList
  unfold tokenize Cursor.ofString
  rw [htext]
  decide +kernel

set_option maxRecDepth 10000 in
theorem parseTokens_tokens : parseTokens tokens = (program, []) := rfl

theorem parse_source :
    (parse source).1.unplaced = program.unplaced ∧ (parse source).2 = [] := by
  have htokens : (tokenize source).map Token.unplaced = tokens.map Token.unplaced := by
    rw [tokenize_source]
    rfl
  obtain ⟨hfaults, hprogram⟩ := parseTokens_unplaced htokens
  rw [parseTokens_tokens] at hfaults hprogram
  exact ⟨hprogram, hfaults⟩

end Tokens

theorem ofNat_beq_zero {n : Nat} (hn : n < 2 ^ 64) : (Int64.ofNat n == 0) = decide (n = 0) := by
  have hbits : (Int64.ofNat n).toBitVec.toNat = n := by
    rw [Int64.toBitVec_ofNat', BitVec.toNat_ofNat, Nat.mod_eq_of_lt hn]
  by_cases h : n = 0
  · rw [h]
    rfl
  · have hne : Int64.ofNat n ≠ 0 := by
      intro heq
      rw [heq] at hbits
      exact h hbits.symm
    rw [beq_false_of_ne hne, decide_eq_false h]

section Iteration

variable {α : Type} {st : State} {f : Value} {it : Closure} {input output : α → Value}

/-- From `st` on, calls of `f` take `input a` to `output a`, if any depth is left. -/
def Takes (st : State) (f : Value) (input output : α → Value) : Prop :=
  ∀ a depth, Eval.Yields st (f.apply (Closure.call (depth + 1)) [input a]) (output a)

theorem Takes.later (h : Takes st f input output) {st' : State} (hst : Later st st') :
    Takes st' f input output := fun a depth => (h a depth).later hst

/-- `it` is the closure `iter`, and it has captured a scope in which it finds itself, the function
`f`, and the builtins. -/
structure Ready (st : State) (it : Closure) (f : Value) : Prop where
  literal : it.literal = iterLiteral
  itself : st.Sees it.scope "iter" (.function it)
  applied : st.Sees it.scope "f" f
  builtin : ∀ b : Builtin, st.Sees it.scope b.name (.builtin b)

theorem Ready.later (h : Ready st it f) {st' : State} (hst : Later st st') : Ready st' it f :=
  ⟨h.literal, h.itself.later hst, h.applied.later hst, fun b => (h.builtin b).later hst⟩

structure Started (st : State) (scope : ScopeId) (it : Closure) (f : Value)
    (elements done : List Value) : Prop where
  arr : st.Sees scope "arr" (.array elements)
  accumulated : st.Sees scope "accumulated" (.array done)
  iter : st.Sees scope "iter" (.function it)
  f : st.Sees scope "f" f
  builtin : ∀ b : Builtin, st.Sees scope b.name (.builtin b)

theorem Ready.started (h : Ready st it f) (elements done : List Value) :
    Started (it.entered [.array elements, .array done] st) st.heap.size it f elements done := by
  have hparams : it.literal.params.map Ident.name = ["arr", "accumulated"] := by rw [h.literal]; rfl
  have hscope := h.itself.lt_size
  constructor
  · exact Closure.entered_sees_arg hscope (by rw [hparams]; rfl)
  · exact Closure.entered_sees_arg hscope (by rw [hparams]; rfl)
  · exact Closure.entered_sees_captured h.itself (by rw [hparams]; rfl)
  · exact Closure.entered_sees_captured h.applied (by rw [hparams]; rfl)
  · intro b
    refine Closure.entered_sees_captured (h.builtin b) ?_
    rw [hparams]
    cases b <;> rfl

section Body

variable {scope : ScopeId} {elements done : List Value} {call : CallRule}

theorem named_yields {name : String} {v : Value} (h : st.Sees scope name v) :
    Eval.Yields st ((named name).eval call scope) v := .ident h

theorem applied_yields {name : String} {args : List Expr} {vs : List Value} {v w : Value}
    (hname : st.Sees scope name v) (hargs : Eval.Yields st (Expr.evalAll call scope args) vs)
    (hw : Eval.Yields st (v.apply call vs) w) :
    Eval.Yields st ((applied name args).eval call scope) w :=
  .application (named_yields hname) hargs hw

theorem block_yields {t : Token} {e : Expr} {v : Value}
    (h : Eval.Yields st (e.eval call scope) v) :
    Eval.Yields st ((block [.expr t e]).eval call scope) v :=
  Eval.Yields.single (s := .expr t e) h

theorem Started.onArr (h : Started st scope it f elements done) (b : Builtin) {w : Value}
    (hw : b.apply [.array elements] = pure w) :
    Eval.Yields st ((applied b.name [named "arr"]).eval call scope) w :=
  applied_yields (h.builtin b) (.evalAll_cons (named_yields h.arr) .evalAll_nil) (.builtin hw)

theorem Started.lengthIsZero (h : Started st scope it f elements done) :
    Eval.Yields st (lengthIsZero.eval call scope)
      (.boolean (Int64.ofNat elements.length == 0)) :=
  .binary (h.onArr .len rfl) (.pure _) rfl

theorem Started.turn_nil (h : Started st scope it f [] done) :
    Eval.Yields st (turn.eval call scope) (.array done) :=
  .cond_of_truthy h.lengthIsZero rfl (block_yields (named_yields h.accumulated))

theorem Started.next {a : α} {depth : Nat} {v : Value}
    (h : Started st scope it f (input a :: elements) done) (hf : Takes st f input output)
    (hnext : Eval.Yields st
      (Closure.call (depth + 1) it [.array elements, .array (done ++ [output a])]) v) :
    Eval.Yields st (next.eval (Closure.call (depth + 1)) scope) v := by
  have happlied : Eval.Yields st ((applied "f" [applied "first" [named "arr"]]).eval
      (Closure.call (depth + 1)) scope) (output a) :=
    applied_yields h.f (.evalAll_cons (h.onArr .first rfl) .evalAll_nil) (hf a depth)
  have hpush : Eval.Yields st ((applied "push" [named "accumulated",
      applied "f" [applied "first" [named "arr"]]]).eval (Closure.call (depth + 1)) scope)
      (.array (done ++ [output a])) := by
    have hargs : Eval.Yields st (Expr.evalAll (Closure.call (depth + 1)) scope
        [named "accumulated", applied "f" [applied "first" [named "arr"]]])
        [.array done, output a] :=
      .evalAll_cons (named_yields h.accumulated) (.evalAll_cons happlied .evalAll_nil)
    exact applied_yields (h.builtin .push) hargs (.builtin rfl)
  refine applied_yields h.iter ?_ hnext
  exact .evalAll_cons (h.onArr .rest rfl) (.evalAll_cons hpush .evalAll_nil)

theorem Started.turn_cons {a : α} {depth : Nat} {v : Value}
    (h : Started st scope it f (input a :: elements) done) (hsize : elements.length + 1 < 2 ^ 64)
    (hf : Takes st f input output)
    (hnext : Eval.Yields st
      (Closure.call (depth + 1) it [.array elements, .array (done ++ [output a])]) v) :
    Eval.Yields st (turn.eval (Closure.call (depth + 1)) scope) v := by
  have hlength : (Int64.ofNat (input a :: elements).length == 0) = false := ofNat_beq_zero hsize
  exact .cond_of_not_truthy h.lengthIsZero hlength (block_yields (h.next hf hnext))

end Body

theorem Ready.call_yields (h : Ready st it f) {elements done : List Value} {depth : Nat} {v : Value}
    (hturn : ∀ st' scope, Later st st' → Started st' scope it f elements done →
      Eval.Yields st' (turn.eval (Closure.call depth) scope) v) :
    Eval.Yields st (Closure.call (depth + 1) it [.array elements, .array done]) v := by
  refine Closure.call_yields (by rw [h.literal]; rfl) fun mid hmid => ?_
  have hlater := it.entered_later [.array elements, .array done] mid
  have hyields := hturn _ _ (hmid.trans hlater) ((h.later hmid).started elements done)
  obtain ⟨st', hst', hend⟩ := (block_yields (t := word .kwIf "if") hyields).exists_end
  rw [h.literal]
  exact ⟨st', hend.sink_eq, hst'⟩

/-- By induction on the elements that are left: `iter` adds what the function makes of them. -/
theorem Ready.iter_yields (h : Ready st it f) (hf : Takes st f input output) {xs : List α}
    (hsize : xs.length < 2 ^ 64) {depth : Nat} (hdepth : xs.length ≤ depth) (done : List Value) :
    Eval.Yields st (Closure.call (depth + 1) it [.array (xs.map input), .array done])
      (.array (done ++ xs.map output)) := by
  induction xs generalizing st depth done with
  | nil =>
    rw [List.map_nil, List.map_nil, List.append_nil]
    exact h.call_yields fun _ _ _ hstart => hstart.turn_nil
  | cons x xs ih =>
    obtain ⟨depth, rfl⟩ := Nat.exists_eq_add_one_of_ne_zero (Nat.ne_zero_of_lt hdepth)
    refine h.call_yields fun st' scope hlater hstart => ?_
    refine hstart.turn_cons (by simpa using hsize) (hf.later hlater) ?_
    have hnext := ih (h.later hlater) (hf.later hlater) (Nat.lt_of_succ_lt hsize)
      (Nat.le_of_succ_le_succ hdepth) (done ++ [output x])
    rwa [List.append_assoc, List.singleton_append] at hnext

/-- A call of `map` makes the closure `iter` and calls it on all elements. -/
theorem map_yields {m : Closure} (hm : m.literal = mapLiteral)
    (hbuiltin : ∀ b : Builtin, st.Sees m.scope b.name (.builtin b)) (hf : Takes st f input output)
    {xs : List α} (hsize : xs.length < 2 ^ 64) {depth : Nat} (hdepth : xs.length ≤ depth) :
    Eval.Yields st (Closure.call (depth + 2) m [.array (xs.map input), f])
      (.array (xs.map output)) := by
  refine Closure.call_yields (by rw [hm]; rfl) fun mid hmid => ?_
  let args := [.array (xs.map input), f]
  let scope := mid.heap.size
  let start := m.entered args mid
  let it : Closure := ⟨start.functions, iterLiteral, scope⟩
  let bound := start.bindFunction scope (word .kwLet "let") ⟨word .identifier "iter"⟩ iterLiteral
  have hparams : m.literal.params.map Ident.name = ["arr", "f"] := by rw [hm]; rfl
  have hscope : m.scope < mid.heap.size := ((hbuiltin .len).later hmid).lt_size
  have harr : bound.Sees scope "arr" (.array (xs.map input)) :=
    (Closure.entered_sees_arg hscope (by rw [hparams]; rfl)).bindFunction (by decide)
  have hready : Ready bound it f := by
    refine ⟨rfl, State.bindFunction_sees_self ?_, ?_, fun b => ?_⟩
    · rw [Closure.size_entered]
      exact Nat.lt_succ_self _
    · exact (Closure.entered_sees_arg hscope (by rw [hparams]; rfl)).bindFunction (by decide)
    · refine (Closure.entered_sees_captured ((hbuiltin b).later hmid) ?_).bindFunction ?_
      · rw [hparams]
        cases b <;> rfl
      · cases b <;> decide
  have hlater : Later mid bound := by
    refine ⟨(m.entered_untouched args mid).of_fresh ?_ (start.bindFunction_framed ..), rfl⟩
    rw [Closure.size_entered]
    exact Nat.lt_succ_self _
  have hiter := hready.iter_yields ((hf.later hmid).later hlater) hsize hdepth []
  have hargs : Eval.Yields bound (Expr.evalAll (Closure.call (depth + 1)) scope
      [named "arr", .array (word .leftBracket "[") []]) [.array (xs.map input), .array []] :=
    .evalAll_cons (named_yields harr) (.evalAll_cons (.bind .evalAll_nil (.pure _)) .evalAll_nil)
  obtain ⟨st', hst', hend⟩ := (block_yields (t := word .identifier "iter")
    (applied_yields hready.itself hargs hiter)).exists_end
  rw [hm]
  exact ⟨st', hend.sink_eq, (Stmt.evalAll_bindFunction ..).trans hst'⟩

theorem double_takes {d : Closure} (hd : d.literal = doubleLiteral)
    (hscope : d.scope < st.heap.size) :
    Takes st (.function d) Value.integer fun n => .integer (n * 2) := by
  intro n depth
  refine Closure.call_yields (by rw [hd]; rfl) fun mid hmid => ?_
  have hparams : d.literal.params.map Ident.name = ["x"] := by rw [hd]; rfl
  have hx : (d.entered [.integer n] mid).Sees mid.heap.size "x" (.integer n) :=
    Closure.entered_sees_arg (Nat.lt_of_lt_of_le hscope hmid.untouched.size_le)
      (by rw [hparams]; rfl)
  have hproduct : Eval.Yields (d.entered [.integer n] mid) ((Expr.binary (named "x") .mul
      (word .star "*") (.integer (word .integer "2") 2)).eval (Closure.call depth) mid.heap.size)
      (.integer (n * 2)) := .binary (named_yields hx) (.pure _) rfl
  obtain ⟨st', hst', hend⟩ := (block_yields (t := word .identifier "x") hproduct).exists_end
  rw [hd]
  exact ⟨st', hend.sink_eq, hst'⟩

end Iteration

section Run

variable {st : State} {scope : ScopeId} {xs : List Int64}

theorem run_program (hscope : scope < st.heap.size)
    (ha : st.Sees scope "a" (.array (xs.map .integer)))
    (hbuiltin : ∀ b : Builtin, st.Sees scope b.name (.builtin b)) (hsize : xs.length < 2 ^ 64)
    {depth : Nat} (hdepth : xs.length ≤ depth) :
    let r := program.run (depth + 2) scope st
    r.1 = some (.array ((xs.map (· * 2)).map .integer)) ∧ r.2.sink = st.sink ∧
      ∀ reach, r.2.heap.find? reach "a" scope = st.heap.find? reach "a" scope := by
  intro r
  let noted := st.record (.evaluating program.statements.length)
  let mapped := noted.bindFunction scope (word .kwLet "let") ⟨word .identifier "map"⟩ mapLiteral
  let doubled :=
    mapped.bindFunction scope (word .kwLet "let") ⟨word .identifier "double"⟩ doubleLiteral
  let m : Closure := ⟨noted.functions, mapLiteral, scope⟩
  let d : Closure := ⟨mapped.functions, doubleLiteral, scope⟩
  have kept {name : String} {v : Value} (h : st.Sees scope name v) (hmap : name ≠ "map")
      (hdouble : name ≠ "double") : doubled.Sees scope name v := by
    have hmapped : mapped.Sees scope name v := (h.later (.record st _)).bindFunction hmap
    exact hmapped.bindFunction hdouble
  have hnoted : scope < noted.heap.size := hscope
  have hm : mapped.Sees scope "map" (.function m) := State.bindFunction_sees_self hnoted
  have hd : doubled.Sees scope "double" (.function d) := State.bindFunction_sees_self hm.lt_size
  have htakes := double_takes (d := d) rfl hd.lt_size
  have hcall := map_yields (m := m) rfl
    (fun b => kept (hbuiltin b) (by cases b <;> decide) (by cases b <;> decide)) htakes hsize hdepth
  have hargs : Eval.Yields doubled (Expr.evalAll (Closure.call (depth + 2)) scope
      [named "a", named "double"]) [.array (xs.map .integer), .function d] :=
    .evalAll_cons (named_yields (kept ha (by decide) (by decide)))
      (.evalAll_cons (named_yields hd) .evalAll_nil)
  obtain ⟨st', hst', hlater⟩ := (block_yields (t := word .identifier "map")
    (applied_yields (hm.bindFunction (by decide)) hargs hcall)).exists_end
  have hstatements : Stmt.evalAll (Closure.call (depth + 2)) scope program.statements noted =
      (.ok (.array (xs.map fun n => .integer (n * 2))), st') :=
    calc Stmt.evalAll (Closure.call (depth + 2)) scope program.statements noted
      _ = Stmt.evalAll (Closure.call (depth + 2)) scope [bind "double" doubleLiteral, application]
            mapped := Stmt.evalAll_bindFunction ..
      _ = Stmt.evalAll (Closure.call (depth + 2)) scope [application] doubled :=
          Stmt.evalAll_bindFunction ..
      _ = _ := hst'
  obtain ⟨journal, hrun⟩ := program.run_eq (depth + 2) scope st
  have hr : r = (some (.array (xs.map fun n => .integer (n * 2))), { st' with journal }) := by
    refine hrun.trans ?_
    rw [hstatements]
    rfl
  rw [hr, List.map_map]
  refine ⟨rfl, hlater.sink_eq, fun reach => ?_⟩
  calc st'.heap.find? reach "a" scope = doubled.heap.find? reach "a" scope :=
        hlater.untouched.find?_eq hd.lt_size reach "a"
    _ = mapped.heap.find? reach "a" scope := State.find?_bindFunction hm.lt_size (by decide) reach
    _ = noted.heap.find? reach "a" scope := State.find?_bindFunction hnoted (by decide) reach

end Run

end Mapping

theorem Value.map_eq_integers {g : Closure → Closure} {v : Value} {ns : List Int64} :
    v.map g = .array (ns.map .integer) ↔ v = .array (ns.map .integer) := by
  have hinteger (w : Value) (n : Int64) : w.map g = .integer n ↔ w = .integer n := by
    cases w <;> simp [Value.map]
  cases v with
  | array vs =>
    simp only [Value.map, mapAll_eq_map, Value.array.injEq]
    induction vs generalizing ns with
    | nil => simp
    | cons w vs ih =>
      cases ns with
      | nil => simp
      | cons n ns => simp [hinteger, ih]
  | _ => simp [Value.map]

theorem Value.eq_some_integers {o : Option Value} {ns : List Int64}
    (h : o.map Value.unplaced = some (Value.array (ns.map .integer)).unplaced) :
    o = some (.array (ns.map .integer)) := by
  obtain ⟨v, rfl, hv⟩ := Option.map_eq_some_iff.mp h
  exact congrArg some (map_eq_integers.mp (hv.trans (map_eq_integers.mpr rfl)))

theorem Mapping.run_unplaced {p : Program} (hp : p.unplaced = program.unplaced) (st : State)
    {xs : List Int64} (hsize : xs.length < 2 ^ 64) {depth : Nat} (hdepth : xs.length + 2 ≤ depth) :
    let a : Value := .array (xs.map .integer)
    let scope := st.newGlobal.1
    let start : State := { st.newGlobal.2 with heap := st.newGlobal.2.heap.set scope "a" a }
    let r := p.run depth scope start
    r.1 = some (.array ((xs.map (· * 2)).map .integer)) ∧ r.2.sink = st.sink ∧
      ∀ reach, r.2.heap.find? reach "a" scope = some a := by
  intro a scope start r
  obtain ⟨depth, rfl⟩ := Nat.exists_eq_add_of_le' (Nat.le_of_add_left_le hdepth)
  have hscope : scope < st.newGlobal.2.heap.size := by simp [scope, State.newGlobal]
  have ha : start.Sees scope "a" a := .set_self hscope "a" a
  have hbuiltin (b : Builtin) : start.Sees scope b.name (.builtin b) := by
    refine State.Sees.set_of_ne ⟨hscope, ?_⟩ (by cases b <;> decide) a
    have hnone : st.newGlobal.2.heap.find? .outwards b.name scope = none :=
      st.heap.find?_push_global .outwards b.name
    rw [hnone]
    cases b <;> rfl
  obtain ⟨hvalue, hsink, hkept⟩ := run_program ha.lt_size ha hbuiltin hsize
    (Nat.le_of_add_le_add_right hdepth)
  obtain ⟨hresult, hend⟩ := Program.run_alike (depth + 2) scope hp (.refl start)
  refine ⟨?_, ?_, fun reach => ?_⟩
  · rw [hvalue] at hresult
    exact Value.eq_some_integers hresult
  · obtain ⟨w, hw, hw'⟩ := hend.output
    exact (hw.trans hw'.symm).trans hsink
  · have hfound := hend.find?_unplaced reach "a" scope
    rw [hkept, Heap.find?_set_self hscope, if_pos rfl] at hfound
    exact Value.eq_some_integers hfound

/-- Where `a` is an array of integers in a new global scope, the program yields the array of twice
these integers, modulo the size of a word, as soon as there is depth for one call per element and
two more. It writes nothing, and `a` is the array that it was. An array is held in memory, so its
length is a number of 64 bits. -/
theorem mapping_doubles_array (st : State) {xs : List Int64} (hsize : xs.length < 2 ^ 64) :
    let a : Value := .array (xs.map .integer)
    let scope := st.newGlobal.1
    let start : State := { st.newGlobal.2 with heap := st.newGlobal.2.heap.set scope "a" a }
    (parse Mapping.source).2 = [] ∧ ∀ depth, xs.length + 2 ≤ depth →
      let r := (parse Mapping.source).1.run depth scope start
      (∃ ys : List Int64, r.1 = some (.array (ys.map .integer)) ∧
        List.Forall₂ (fun x y => y.toInt ≡ 2 * x.toInt [ZMOD 2 ^ 64]) xs ys) ∧
      r.2.sink = st.sink ∧ ∀ reach, r.2.heap.find? reach "a" scope = some a := by
  intro a scope start
  obtain ⟨hprogram, hfaults⟩ := Mapping.parse_source
  have hdoubled : List.Forall₂ (fun x y : Int64 => y.toInt ≡ 2 * x.toInt [ZMOD 2 ^ 64]) xs
      (xs.map (· * 2)) := by
    rw [List.forall₂_map_right_iff, List.forall₂_same]
    intro x _
    rw [Int64.toInt_mul, Int.mul_comm]
    exact Int.bmod_emod
  refine ⟨hfaults, ?_⟩
  generalize (parse Mapping.source).1 = p at hprogram
  intro depth hdepth
  obtain ⟨hvalue, hsink, ha⟩ := Mapping.run_unplaced hprogram st hsize hdepth
  exact ⟨⟨_, hvalue, hdoubled⟩, hsink, ha⟩

/-- Twice the greatest integer is -2, and twice the least is 0. -/
theorem mapping_doubles_array_instance :
    let xs : List Int64 := [3, Int64.maxValue, Int64.minValue]
    let a : Value := .array (xs.map .integer)
    let st : State := .ofSink .unlimited .silent
    let scope := st.newGlobal.1
    let start : State := { st.newGlobal.2 with heap := st.newGlobal.2.heap.set scope "a" a }
    let r := (parse Mapping.source).1.run 5 scope start
    xs.length < 2 ^ 64 ∧ r.1 = some (.array [.integer 6, .integer (-2), .integer 0]) ∧
      r.2.sink = st.sink ∧ r.2.heap.find? .outwards "a" scope = some a := by
  intro xs a st scope start
  have hsize : xs.length < 2 ^ 64 := by decide
  have hruns := (mapping_doubles_array st hsize).2
  generalize (parse Mapping.source).1 = p at hruns
  obtain ⟨⟨ys, hys, hdoubled⟩, hsink, ha⟩ := hruns 5 (by decide)
  have word {y n : Int64} {k : Int} (hy : y.toInt ≡ k [ZMOD 2 ^ 64])
      (hn : n.toInt % 2 ^ 64 = k % 2 ^ 64) : y = n := by
    have hlow := y.le_toInt
    have hhigh := y.toInt_lt
    have hlow' := n.le_toInt
    have hhigh' := n.toInt_lt
    refine Int64.toInt_inj.mp ?_
    unfold Int.ModEq at hy
    omega
  obtain ⟨y₁, _, h₁, hrest₁, rfl⟩ := List.forall₂_cons_left_iff.mp hdoubled
  obtain ⟨y₂, _, h₂, hrest₂, rfl⟩ := List.forall₂_cons_left_iff.mp hrest₁
  obtain ⟨y₃, _, h₃, hrest₃, rfl⟩ := List.forall₂_cons_left_iff.mp hrest₂
  obtain rfl := List.forall₂_nil_left_iff.mp hrest₃
  obtain rfl := word h₁ (n := 6) (by decide)
  obtain rfl := word h₂ (n := -2) (by decide)
  obtain rfl := word h₃ (n := 0) (by decide)
  exact ⟨hsize, hys, hsink, ha .outwards⟩

end Monkey
