import Monkey.Proofs.Eval.Compositional
import Monkey.Proofs.State
import Monkey.Session

/-!
Running over a sink with a limit. A run does the same over a limited and over an unlimited sink until
the output no longer fits. From then on there is no way back: what was stored is the output of the
unlimited run, cut at the limit, and the failure reaches the top.
-/

namespace Monkey

namespace State

def unlimited (st : State) : State := { st with sink := { st.sink with limit := none } }

def limitedTo (limit : Nat) (st : State) : State :=
  { st with sink := { st.sink with limit := some limit } }

def withRoom (k : Nat) (st : State) : State := st.limitedTo (st.sink.bytes.size + k)

end State

structure Appends (st st' : State) : Prop where
  limit : st'.sink.limit = none
  bytes : ∃ w, st'.sink.bytes = st.sink.bytes ++ w

structure Overflown {α : Type} (limit : Nat) (full : α) (st' : State) (r : α × State) : Prop where
  outcome : r.1 = full
  limit_eq : r.2.sink.limit = some limit
  stored : r.2.sink.bytes = st'.sink.bytes.extract 0 limit

/-- Over a sink of `limit` bytes, `x` does what it does without a limit, unless that writes more:
then it ends as `full` and the output is cut. -/
structure Truncates {α : Type} (limit : Nat) (full : α) (x : State → α × State) : Prop where
  appends : ∀ st, st.sink.limit = none → Appends st (x st).2
  agrees : ∀ st, st.sink.limit = none → (x st).2.sink.bytes.size ≤ limit →
    x (st.limitedTo limit) = ((x st).1, (x st).2.limitedTo limit)
  overflows : ∀ st, st.sink.limit = none → st.sink.bytes.size ≤ limit →
    limit < (x st).2.sink.bytes.size → Overflown limit full (x st).2 (x (st.limitedTo limit))

namespace Appends

theorem trans {st mid st' : State} (h : Appends st mid) (h' : Appends mid st') :
    Appends st st' := by
  obtain ⟨w, hw⟩ := h.bytes
  obtain ⟨v, hv⟩ := h'.bytes
  exact ⟨h'.limit, w ++ v, by rw [hv, hw, ByteArray.append_assoc]⟩

theorem size_le {st st' : State} (h : Appends st st') :
    st.sink.bytes.size ≤ st'.sink.bytes.size := by
  obtain ⟨w, hw⟩ := h.bytes
  rw [hw, ByteArray.size_append]
  exact Nat.le_add_right _ _

theorem extract_eq {st st' : State} (h : Appends st st') {limit : Nat}
    (hlimit : limit ≤ st.sink.bytes.size) :
    st'.sink.bytes.extract 0 limit = st.sink.bytes.extract 0 limit := by
  obtain ⟨w, hw⟩ := h.bytes
  have hnone : w.extract (0 - st.sink.bytes.size) (limit - st.sink.bytes.size) = .empty := by
    rw [ByteArray.extract_eq_empty_iff]
    omega
  rw [hw, ByteArray.extract_append, hnone, ByteArray.append_empty]

end Appends

theorem ByteArray.extract_of_size_le {a : ByteArray} {n : Nat} (h : a.size ≤ n) :
    a.extract 0 n = a := by
  have := @ByteArray.extract_zero_max_size a n
  rwa [Nat.max_eq_left h] at this

namespace Overflown

open Monkey.Action

variable {α : Type} {limit : Nat} {full : α} {st' : State} {r : α × State}

theorem size_eq (h : Overflown limit full st' r) (hlimit : limit < st'.sink.bytes.size) :
    r.2.sink.bytes.size = limit := by
  rw [h.stored, ByteArray.size_extract]
  omega

theorem append {mid : State} (h : Overflown limit full mid r) (happends : Appends mid st')
    (hlimit : limit ≤ mid.sink.bytes.size) : Overflown limit full st' r :=
  ⟨h.outcome, h.limit_eq, h.stored.trans (happends.extract_eq hlimit).symm⟩

theorem bind_error {ε β : Type} {full : ε} {x : Action ε α} {b : State}
    (h : Overflown limit (.error full) st' (x b)) (f : α → Action ε β) :
    Overflown limit (.error full) st' ((x >>= f) b) := by
  have hx : x b = (.error full, (x b).2) := Prod.ext h.outcome rfl
  rw [bind_of_error hx]
  exact ⟨rfl, h.limit_eq, h.stored⟩

/-- The failure was turned into a value `a`, and what comes next finds the sink full. -/
theorem bind_ok {ε β : Type} {full : ε} {a : α} {x : Action ε α} {b : State}
    (h : Overflown limit (.ok a) st' (x b)) {f : α → Action ε β}
    (hf : f a (x b).2 = (.error full, (x b).2)) :
    Overflown limit (.error full) st' ((x >>= f) b) := by
  have hx : x b = (.ok a, (x b).2) := Prod.ext h.outcome rfl
  rw [bind_of_ok hx, hf]
  exact ⟨rfl, h.limit_eq, h.stored⟩

end Overflown

def Eval.caught : Except Signal Value × State → Except Signal Value × State
  | (.error (.returned v), st) => (.ok v, st)
  | r => r

def Program.conclude : Except Signal Value × State → Option Value × State
  | (.ok v, st) => (some v, st.record (.finished v.kind))
  | (.error s, st) =>
    match s.toResult with
    | some v => (some v, st.record (.finished v.kind))
    | none => (none, st)

def Session.concluded : Option Value × State → Except RunError Value × State
  | (some v, st) => (.ok v, st)
  | (none, st) => (.error .tooDeep, st)

namespace Truncates

open Monkey.Action

variable {ε α β : Type} {limit : Nat} {full : ε}

theorem of_sink_eq {full : α} {x : State → α × State} (hsink : ∀ st, (x st).2.sink = st.sink)
    (hx : ∀ st, x (st.limitedTo limit) = ((x st).1, (x st).2.limitedTo limit)) :
    Truncates limit full x where
  appends st hst := by
    refine ⟨(congrArg Sink.limit (hsink st)).trans hst, .empty, ?_⟩
    rw [hsink st, ByteArray.append_empty]
  agrees st _ _ := hx st
  overflows st _ hle hlt := by
    rw [hsink st] at hlt
    exact absurd hle (Nat.not_le.mpr hlt)

theorem write (text : String) : Truncates limit (.error full) (Action.write full text) := by
  have unlimited {st : State} (hst : st.sink.limit = none) : Action.write full text st =
      (.ok (), { st with sink := { st.sink with bytes := st.sink.bytes ++ text.toUTF8 } }) := by
    simp only [Action.write, Sink.write, hst]
  have limited (st : State) : Action.write full text (st.limitedTo limit) =
      (if text.toUTF8.size ≤ limit - st.sink.bytes.size then .ok () else .error full,
        { st with sink := ⟨some limit,
          st.sink.bytes ++ text.toUTF8.extract 0 (limit - st.sink.bytes.size)⟩ }) := by
    simp only [Action.write, Sink.write, State.limitedTo]
    by_cases h : text.toUTF8.size ≤ limit - st.sink.bytes.size
    · simp only [h, decide_true, if_true]
    · simp only [h, decide_false, if_false]
  constructor
  · intro st hst
    rw [unlimited hst]
    exact ⟨hst, _, rfl⟩
  · intro st hst hfits
    rw [unlimited hst] at hfits ⊢
    rw [ByteArray.size_append] at hfits
    have hroom : text.toUTF8.size ≤ limit - st.sink.bytes.size := by omega
    rw [limited, if_pos hroom, ByteArray.extract_of_size_le hroom]
    rfl
  · intro st hst hle hlt
    rw [unlimited hst] at hlt ⊢
    rw [ByteArray.size_append] at hlt
    have hroom : ¬text.toUTF8.size ≤ limit - st.sink.bytes.size := by omega
    rw [limited, if_neg hroom]
    refine ⟨rfl, rfl, ?_⟩
    rw [ByteArray.extract_append, ByteArray.extract_of_size_le hle, Nat.zero_sub]

/-- A sequence whose first action ends as `first` when the sink is full. -/
theorem bind_of {first : Except ε α} {x : Action ε α} {f : α → Action ε β}
    (hx : Truncates limit first x) (hf : ∀ a, Truncates limit (.error full) (f a))
    (hfull : ∀ st' b, Overflown limit first st' (x b) → limit < st'.sink.bytes.size →
      Overflown limit (.error full) st' ((x >>= f) b)) :
    Truncates limit (.error full) (x >>= f) := by
  constructor
  · intro st hst
    have hmid := hx.appends st hst
    rcases h : x st with ⟨s | a, mid⟩
    · rw [bind_of_error h]
      rwa [h] at hmid
    · rw [bind_of_ok h]
      rw [h] at hmid
      exact hmid.trans ((hf a).appends mid hmid.limit)
  · intro st hst hfits
    have hmid := hx.appends st hst
    have hagrees := hx.agrees st hst
    rcases h : x st with ⟨s | a, mid⟩
    · rw [bind_of_error h] at hfits ⊢
      rw [h] at hagrees
      exact bind_of_error (hagrees hfits) f
    · rw [bind_of_ok h] at hfits ⊢
      rw [h] at hagrees hmid
      have hend := (hf a).appends mid hmid.limit
      rw [bind_of_ok (hagrees (Nat.le_trans hend.size_le hfits))]
      exact (hf a).agrees mid hmid.limit hfits
  · intro st hst hle hlt
    have hmid := hx.appends st hst
    have hagrees := hx.agrees st hst
    have hover := hx.overflows st hst hle
    rcases h : x st with ⟨s | a, mid⟩
    · rw [bind_of_error h] at hlt ⊢
      rw [h] at hover
      exact hfull _ _ (hover hlt) hlt
    · rw [bind_of_ok h] at hlt ⊢
      rw [h] at hagrees hmid hover
      -- The limit is hit either by the first action or, after it, by the second.
      by_cases hfirst : mid.sink.bytes.size ≤ limit
      · rw [bind_of_ok (hagrees hfirst)]
        exact (hf a).overflows mid hmid.limit hfirst hlt
      · have hcut : limit < mid.sink.bytes.size := Nat.not_le.mp hfirst
        have hend := (hf a).appends mid hmid.limit
        exact (hfull _ _ (hover hcut) hcut).append hend (Nat.le_of_lt hcut)

theorem bind {x : Action ε α} {f : α → Action ε β} (hx : Truncates limit (.error full) x)
    (hf : ∀ a, Truncates limit (.error full) (f a)) : Truncates limit (.error full) (x >>= f) :=
  bind_of hx hf fun _ _ h _ => h.bind_error f

theorem pure (a : α) : Truncates limit (.error full) (pure a : Action ε α) :=
  of_sink_eq (fun _ => rfl) fun _ => rfl

theorem stop (s : ε) : Truncates limit (.error full) (Action.stop s : Action ε α) :=
  of_sink_eq (fun _ => rfl) fun _ => rfl

theorem record (e : Event) : Truncates limit (.error full) (Action.record e : Action ε Unit) :=
  of_sink_eq (fun _ => rfl) fun _ => rfl

theorem map {first : α} {last : β} {x : State → α × State} {g : α × State → β × State}
    (hx : Truncates limit first x) (hsink : ∀ r, (g r).2.sink = r.2.sink)
    (hg : ∀ a st, g (a, st.limitedTo limit) = ((g (a, st)).1, (g (a, st)).2.limitedTo limit))
    (hfull : ∀ st, (g (first, st)).1 = last) : Truncates limit last fun st => g (x st) := by
  constructor
  · intro st hst
    obtain ⟨hlimit, w, hw⟩ := hx.appends st hst
    refine ⟨?_, w, ?_⟩
    · rw [hsink, hlimit]
    · rw [hsink, hw]
  · intro st hst hfits
    rw [hsink] at hfits
    rw [hx.agrees st hst hfits, hg]
  · intro st hst hle hlt
    rw [hsink] at hlt
    have hover := hx.overflows st hst hle hlt
    have hend : x (st.limitedTo limit) = (first, (x (st.limitedTo limit)).2) :=
      Prod.ext hover.outcome rfl
    refine ⟨?_, ?_, ?_⟩
    · rw [hend, hfull]
    · rw [hsink, hover.limit_eq]
    · rw [hsink, hsink, hover.stored]

theorem catchReturn {e : RuntimeError} {x : Eval Value}
    (hx : Truncates limit (.error (.failed e)) x) :
    Truncates limit (.error (.failed e)) (Eval.catchReturn x) := by
  refine hx.map (g := Eval.caught) (fun r => ?_) (fun o st => ?_) fun _ => rfl
  · rcases r with ⟨(_ | _ | _) | _, _⟩ <;> rfl
  · rcases o with (_ | _ | _) | _ <;> rfl

end Truncates

/-- Evaluation fails where its output no longer fits. -/
theorem truncates_compositional (limit : Nat) : Compositional fun α x =>
    @Truncates (Except Signal α) limit (.error (.failed (.output .sinkFull))) x where
  pure := .pure
  bind := .bind
  stop := .stop
  catchReturn := .catchReturn
  record := .record
  writeLine text := .write (text ++ "\n")
  lookUp scope name := by
    refine .of_sink_eq (fun st => ?_) fun st => ?_
    all_goals
      simp only [Eval.lookUp, State.limitedTo]
      cases st.heap.find? .outwards name scope with
      | some v => rfl
      | none => cases Builtin.ofName? name <;> rfl
  define _ _ _ := .of_sink_eq (fun _ => rfl) fun _ => rfl
  close _ _ := .of_sink_eq (fun _ => rfl) fun _ => rfl
  enter _ _ := .of_sink_eq (fun _ => rfl) fun _ => rfl

theorem Program.run_truncates (limit depth : Nat) (scope : ScopeId) (p : Program) :
    Truncates limit (some (.error (.output .sinkFull))) (p.run depth scope) := by
  have compositional := truncates_compositional limit
  have hall := @Stmt.evalAll_has _ (Closure.call depth) scope compositional
    (Closure.call_has compositional depth) p.statements
  have hrun := Truncates.bind (.record (.evaluating p.statements.length)) fun _ => hall
  refine hrun.map (g := Program.conclude) (fun r => ?_) (fun o st => ?_) fun _ => rfl
  · rcases r with ⟨(_ | _ | _) | _, _⟩ <;> rfl
  · rcases o with (_ | _ | _) | _ <;> rfl

namespace Session

variable {limit : Nat}

theorem run_truncates (depth : Nat) (scope : ScopeId) (p : Program) :
    Truncates limit (.ok (.error (.output .sinkFull))) (Session.run depth scope p) := by
  refine (p.run_truncates limit depth scope).map (g := Session.concluded) (fun r => ?_)
    (fun o st => ?_) fun _ => rfl
  · rcases r with ⟨_ | _, _⟩ <;> rfl
  · rcases o with _ | _ <;> rfl

theorem print_truncates (text : String) :
    Truncates limit (.error (.stream .sinkFull)) (Session.print text) := .write text

theorem print_of_full {st : State} (hlimit : st.sink.limit = some limit)
    (hsize : st.sink.bytes.size = limit) (text : String) :
    Session.print (text ++ "\n") st = (.error (.stream .sinkFull), st) := by
  have hpos : ¬(text ++ "\n").toUTF8.size ≤ 0 := by
    simp
  simp only [Session.print, Action.write, Sink.write, hlimit, hsize, Nat.sub_self, hpos,
    decide_false, ByteArray.extract_same, ByteArray.append_empty]
  rw [← hlimit]

/-- What follows a program sees its failure as a value, and cannot print on the full sink. -/
theorem run_bind_truncates (depth : Nat) (scope : ScopeId) (p : Program)
    {f : Value → Session Unit} (hf : ∀ v, Truncates limit (.error (.stream .sinkFull)) (f v))
    (hfull : ∀ st : State, st.sink.limit = some limit → st.sink.bytes.size = limit →
      f (.error (.output .sinkFull)) st = (.error (.stream .sinkFull), st)) :
    Truncates limit (.error (.stream .sinkFull)) (Session.run depth scope p >>= f) :=
  .bind_of (run_truncates depth scope p) hf fun _ _ h hlt =>
    h.bind_ok (hfull _ h.limit_eq (h.size_eq hlt))

theorem read_truncates (source : String) :
    Truncates limit (.error (.stream .sinkFull)) (Session.read source) := by
  have recorded (ds : List Diagnostic) (st : State) :
      let faults := ds.foldl fun st d => st.record (.syntaxError (tokenize source) d)
      (faults st).sink = st.sink ∧
        faults (st.limitedTo limit) = (faults st).limitedTo limit := by
    induction ds generalizing st with
    | nil => exact ⟨rfl, rfl⟩
    | cons d ds ih => exact ih (st.record _)
  refine .of_sink_eq (fun st => (recorded (parse source).2 st).1) fun st => ?_
  have hlimited := (recorded (parse source).2 st).2
  let done := Event.parsed (parse source).1.statements.length (parse source).2.length
  exact congrArg (fun mid : State => (Except.ok (parse source), mid.record done)) hlimited

theorem reportLines_truncates (lines : List String) :
    Truncates limit (.error (.stream .sinkFull)) (Session.reportLines lines) := by
  induction lines with
  | nil => exact .pure _
  | cons line lines ih =>
    exact .bind (.of_sink_eq (fun _ => rfl) fun _ => rfl) fun _ => ih

theorem printLines_truncates (lines : List String) :
    Truncates limit (.error (.stream .sinkFull)) (Session.printLines lines) := by
  induction lines with
  | nil => exact .pure _
  | cons line lines ih => exact .bind (print_truncates _) fun _ => ih

theorem load_truncates (depth : Nat) (scope : ScopeId) (source : String) :
    Truncates limit (.error (.stream .sinkFull)) (Session.load depth scope source) := by
  refine .bind (read_truncates source) fun ⟨program, ds⟩ => ?_
  by_cases hds : ds.isEmpty
  · simp only [hds, if_true]
    refine run_bind_truncates depth scope program (fun v => ?_) fun st hlimit hsize => ?_
    · cases v with
      | null => exact .pure _
      | error e => exact .bind (print_truncates _) fun _ => .stop _
      | _ => exact print_truncates _
    · exact Action.bind_of_error (print_of_full hlimit hsize _) _
  · simp only [hds]
    exact .bind (reportLines_truncates _) fun _ => .stop _

theorem respond_truncates (depth : Nat) (scope : ScopeId) (line : String) :
    Truncates limit (.error (.stream .sinkFull)) (Session.respond depth scope line) := by
  refine .bind (read_truncates line) fun ⟨program, ds⟩ => ?_
  by_cases hds : ds.isEmpty
  · simp only [hds, if_true]
    refine run_bind_truncates depth scope program (fun v => print_truncates _) ?_
    exact fun st hlimit hsize => print_of_full hlimit hsize _
  · simp only [hds]
    exact .bind (.record _) fun _ => printLines_truncates _

theorem hear_truncates (depth : Nat) (scope : ScopeId) (input : Option (List UInt8)) :
    Truncates limit (.error (.stream .sinkFull)) (Session.hear depth scope input) := by
  cases input with
  | none => exact print_truncates _
  | some line =>
    refine .bind ?_ fun _ => print_truncates _
    unfold Session.respondBytes
    split
    · exact .stop _
    · exact respond_truncates depth scope _

theorem respondAll_truncates (depth : Nat) (scope : ScopeId) (lines : List (List UInt8)) :
    Truncates limit (.error (.stream .sinkFull)) (Session.respondAll depth scope lines) := by
  refine .bind (print_truncates _) fun _ => ?_
  induction lines with
  | nil => exact hear_truncates depth scope none
  | cons line lines ih => exact .bind (hear_truncates depth scope (some line)) fun _ => ih

end Session

/-- With room for `k` bytes, `x` does what it does without a limit if that writes at most `k` bytes;
otherwise it ends as `full`, and the first `k` bytes are stored. -/
def CutsAt {α : Type} (k : Nat) (full : α) (x : State → α × State) : Prop :=
  ∀ st : State, ∃ w, (x st.unlimited).2.sink.bytes = st.sink.bytes ++ w ∧
    (w.size ≤ k → x (st.withRoom k) =
      ((x st.unlimited).1, (x st.unlimited).2.limitedTo (st.sink.bytes.size + k))) ∧
    (k < w.size → (x (st.withRoom k)).1 = full ∧
      (x (st.withRoom k)).2.sink.bytes = st.sink.bytes ++ w.extract 0 k)

theorem Truncates.cutsAt {α : Type} {full : α} {x : State → α × State}
    (h : ∀ limit, Truncates limit full x) (k : Nat) : CutsAt k full x := by
  intro st
  obtain ⟨-, w, hw⟩ := (h 0).appends st.unlimited rfl
  replace hw : (x st.unlimited).2.sink.bytes = st.sink.bytes ++ w := hw
  have hsize : (x st.unlimited).2.sink.bytes.size = st.sink.bytes.size + w.size := by
    rw [hw, ByteArray.size_append]
  refine ⟨w, hw, fun hk => ?_, fun hk => ?_⟩
  · exact (h _).agrees st.unlimited rfl (by omega)
  · have hover := (h (st.sink.bytes.size + k)).overflows st.unlimited rfl (Nat.le_add_right _ _)
      (by omega)
    refine ⟨hover.outcome, hover.stored.trans ?_⟩
    rw [hw, ByteArray.extract_append, ByteArray.extract_of_size_le (Nat.le_add_right _ _),
      Nat.zero_sub, Nat.add_sub_cancel_left]

/-- A limited sink only truncates: a run whose output fits is the same as without a limit, and one
whose output does not fit stores as much of it as fits and fails on writing. -/
theorem limited_sink_truncates (k depth : Nat) (scope : ScopeId) :
    (∀ p : Program, CutsAt k (some (.error (.output .sinkFull))) (p.run depth scope)) ∧
    (∀ source, CutsAt k (.error (.stream .sinkFull)) (Session.load depth scope source)) ∧
    (∀ input, CutsAt k (.error (.stream .sinkFull)) (Session.converse depth scope input)) := by
  refine ⟨fun p => ?_, fun source => ?_, fun input => ?_⟩
  · exact Truncates.cutsAt (fun limit => p.run_truncates limit depth scope) k
  · exact Truncates.cutsAt (fun _ => Session.load_truncates depth scope source) k
  · exact Truncates.cutsAt (fun _ => Session.respondAll_truncates depth scope _) k

end Monkey
