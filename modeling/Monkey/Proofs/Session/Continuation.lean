import Monkey.Proofs.Session.Truncation
import Monkey.Proofs.Stream

/-!
A conversation can be broken off where a line ends, and taken up again. What a line does depends on
the scopes that it finds, not on what has been shown before it, and whatever comes of it, the
conversation goes on with the next line; so two conversations, one in the scopes that the other has
left behind, are one conversation over both inputs.
-/

namespace Monkey

structure SameScopes (st st' : State) : Prop where
  heap : st.heap = st'.heap
  functions : st.functions = st'.functions
  limit : st.sink.limit = none
  limit' : st'.sink.limit = none

/-- What `x` comes to, does and writes depends on scopes and functions alone. -/
def Oblivious {α : Type} (x : State → α × State) : Prop :=
  ∀ st st' : State, SameScopes st st' →
    (x st).1 = (x st').1 ∧ SameScopes (x st).2 (x st').2 ∧
      ∃ w, (x st).2.sink = st.sink.append w ∧ (x st').2.sink = st'.sink.append w

namespace Oblivious

open Monkey.Action

variable {ε α β : Type}

/-- What does not write and looks at nothing but scopes and functions. -/
theorem of_silent {x : State → α × State} (hsink : ∀ st, (x st).2.sink = st.sink)
    (hx : ∀ st st' : State, st.heap = st'.heap → st.functions = st'.functions →
      (x st).1 = (x st').1 ∧ (x st).2.heap = (x st').2.heap ∧
        (x st).2.functions = (x st').2.functions) : Oblivious x := by
  intro st st' h
  obtain ⟨houtcome, hheap, hfunctions⟩ := hx st st' h.heap h.functions
  refine ⟨houtcome, ⟨hheap, hfunctions, ?_, ?_⟩, .empty, ?_, ?_⟩
  · rw [hsink, h.limit]
  · rw [hsink, h.limit']
  · rw [hsink, Sink.append_empty]
  · rw [hsink, Sink.append_empty]

theorem pure (a : α) : Oblivious (pure a : Action ε α) :=
  of_silent (fun _ => rfl) fun _ _ hheap hfunctions => ⟨rfl, hheap, hfunctions⟩

theorem stop (s : ε) : Oblivious (Action.stop s : Action ε α) :=
  of_silent (fun _ => rfl) fun _ _ hheap hfunctions => ⟨rfl, hheap, hfunctions⟩

theorem record (e : Event) : Oblivious (Action.record e : Action ε Unit) :=
  of_silent (fun _ => rfl) fun _ _ hheap hfunctions => ⟨rfl, hheap, hfunctions⟩

theorem write (full : ε) (text : String) : Oblivious (Action.write full text) := by
  intro st st' h
  rw [write_of_unlimited h.limit, write_of_unlimited h.limit']
  exact ⟨rfl, ⟨h.heap, h.functions, h.limit, h.limit'⟩, text.toUTF8, rfl, rfl⟩

theorem bind {x : Action ε α} {f : α → Action ε β} (hx : Oblivious x)
    (hf : ∀ a, Oblivious (f a)) : Oblivious (x >>= f) := by
  intro st st' h
  obtain ⟨houtcome, hmid, w, hw, hw'⟩ := hx st st' h
  rcases hst : x st with ⟨s | a, mid⟩ <;> rcases hst' : x st' with ⟨s' | a', mid'⟩
  all_goals
    rw [hst, hst'] at houtcome hmid
    rw [hst] at hw
    rw [hst'] at hw'
    cases houtcome
  · rw [bind_of_error hst, bind_of_error hst']
    exact ⟨rfl, hmid, w, hw, hw'⟩
  · rw [bind_of_ok hst, bind_of_ok hst']
    obtain ⟨hend, hscopes, v, hv, hv'⟩ := hf a mid mid' hmid
    refine ⟨hend, hscopes, w ++ v, ?_, ?_⟩
    · rw [hv, hw, Sink.append_append]
    · rw [hv', hw', Sink.append_append]

theorem map {x : State → α × State} {g : α × State → β × State} (hx : Oblivious x)
    (houtcome : ∀ a st st', (g (a, st)).1 = (g (a, st')).1)
    (hstate : ∀ r, ∃ journal, (g r).2 = { r.2 with journal }) : Oblivious fun st => g (x st) := by
  intro st st' h
  obtain ⟨hends, hend, w, hw, hw'⟩ := hx st st' h
  obtain ⟨_, hg⟩ := hstate (x st)
  obtain ⟨_, hg'⟩ := hstate (x st')
  dsimp only
  refine ⟨?_, ?_, w, ?_, ?_⟩
  · have hsame : g (x st) = g ((x st').1, (x st).2) := by rw [← hends]
    rw [hsame]
    exact houtcome _ _ _
  · rw [hg, hg']
    exact ⟨hend.heap, hend.functions, hend.limit, hend.limit'⟩
  · rw [hg]
    exact hw
  · rw [hg']
    exact hw'

end Oblivious

theorem oblivious_compositional :
    Compositional fun α x => @Oblivious (Except Signal α) x where
  pure := .pure
  bind := .bind
  stop := .stop
  catchReturn hx := by
    refine hx.map (g := Eval.caught) (fun o st st' => ?_) fun r => ?_
    · rcases o with (_ | _ | _) | _ <;> rfl
    · rcases r with ⟨(_ | _ | _) | _, st⟩ <;> exact ⟨st.journal, rfl⟩
  record := .record
  writeLine text := .write _ (text ++ "\n")
  lookUp scope name := by
    refine .of_silent (fun st => ?_) fun st st' hheap hfunctions => ?_
    · simp only [Eval.lookUp]
      cases st.heap.find? .outwards name scope with
      | some v => rfl
      | none => cases Builtin.ofName? name <;> rfl
    · simp only [Eval.lookUp, hheap]
      cases st'.heap.find? .outwards name scope with
      | some v => exact ⟨rfl, hheap, hfunctions⟩
      | none => cases Builtin.ofName? name <;> exact ⟨rfl, hheap, hfunctions⟩
  define scope name value := by
    refine .of_silent (fun _ => rfl) fun st st' hheap hfunctions => ?_
    simp only [Eval.define, hheap, hfunctions, and_self]
  close scope literal := by
    refine .of_silent (fun _ => rfl) fun st st' hheap hfunctions => ?_
    simp only [Eval.close, hheap, hfunctions, and_self]
  enter outer bindings := by
    refine .of_silent (fun _ => rfl) fun st st' hheap hfunctions => ?_
    simp only [Eval.enter, State.newScope, hheap, hfunctions, and_self]

theorem Program.run_oblivious (depth : Nat) (scope : ScopeId) (p : Program) :
    Oblivious (p.run depth scope) := by
  have hall := @Stmt.evalAll_has _ (Closure.call depth) scope oblivious_compositional
    (Closure.call_has oblivious_compositional depth) p.statements
  have hrun := Oblivious.bind (.record (.evaluating p.statements.length)) fun _ => hall
  refine hrun.map (g := Program.conclude) (fun o st st' => ?_) fun r => ?_
  · rcases o with (_ | _ | _) | _ <;> rfl
  · rcases r with ⟨(_ | _ | _) | _, st⟩ <;> exact ⟨_, rfl⟩

namespace Session

variable {depth : Nat} {scope : ScopeId}

theorem read_eq (source : String) (st : State) :
    ∃ journal, Session.read source st = (.ok (parse source), { st with journal }) := by
  have recorded (ds : List Diagnostic) (st : State) : ∃ journal,
      ds.foldl (fun st d => st.record (.syntaxError (tokenize source) d)) st =
        { st with journal } := by
    induction ds generalizing st with
    | nil => exact ⟨st.journal, rfl⟩
    | cons d ds ih => exact ih (st.record (.syntaxError (tokenize source) d))
  obtain ⟨journal, hrecorded⟩ := recorded (parse source).2 st
  let done := Event.parsed (parse source).1.statements.length (parse source).2.length
  refine ⟨journal.record done, ?_⟩
  exact congrArg (fun mid : State => (Except.ok (parse source), mid.record done)) hrecorded

theorem read_oblivious (source : String) : Oblivious (Session.read source) := by
  refine .of_silent (fun st => ?_) fun st st' hheap hfunctions => ?_
  · obtain ⟨_, hread⟩ := read_eq source st
    rw [hread]
  · obtain ⟨_, hread⟩ := read_eq source st
    obtain ⟨_, hread'⟩ := read_eq source st'
    rw [hread, hread']
    exact ⟨rfl, hheap, hfunctions⟩

theorem run_oblivious (depth : Nat) (scope : ScopeId) (p : Program) :
    Oblivious (Session.run depth scope p) := by
  refine (p.run_oblivious depth scope).map (g := Session.concluded) (fun o st st' => ?_) fun r => ?_
  · rcases o with _ | _ <;> rfl
  · rcases r with ⟨_ | _, st⟩ <;> exact ⟨st.journal, rfl⟩

theorem printLines_oblivious (lines : List String) : Oblivious (Session.printLines lines) := by
  induction lines with
  | nil => exact .pure _
  | cons line lines ih => exact .bind (.write _ _) fun _ => ih

theorem respond_oblivious (depth : Nat) (scope : ScopeId) (line : String) :
    Oblivious (Session.respond depth scope line) := by
  refine .bind (read_oblivious line) fun ⟨program, ds⟩ => ?_
  by_cases hds : ds.isEmpty
  · simp only [hds, if_true]
    exact .bind (run_oblivious depth scope program) fun v => .write _ _
  · simp only [hds]
    exact .bind (.record _) fun _ => printLines_oblivious _

theorem respondBytes_oblivious (depth : Nat) (scope : ScopeId) (line : List UInt8) :
    Oblivious (Session.respondBytes depth scope line) := by
  unfold Session.respondBytes
  split
  · exact .stop _
  · exact respond_oblivious depth scope _

def answerAll (depth : Nat) (scope : ScopeId) : List (List UInt8) → Session Unit
  | [] => pure ()
  | line :: lines => do
    print prompt
    respondBytes depth scope line
    answerAll depth scope lines

theorem answerAll_oblivious (depth : Nat) (scope : ScopeId) (lines : List (List UInt8)) :
    Oblivious (answerAll depth scope lines) := by
  induction lines with
  | nil => exact .pure _
  | cons line lines ih =>
    exact .bind (.write _ _) fun _ => .bind (respondBytes_oblivious depth scope line) fun _ => ih

theorem respondAll_cons (line : List UInt8) (lines : List (List UInt8)) :
    respondAll depth scope (line :: lines) = (do
      print prompt
      respondBytes depth scope line
      respondAll depth scope lines) := by
  simp only [respondAll, hearAll, hear, bind_assoc]

/-- Lines are answered in the same way whether or not others come behind them. -/
theorem respondAll_append (lines more : List (List UInt8)) :
    respondAll depth scope (lines ++ more) =
      answerAll depth scope lines >>= fun _ => respondAll depth scope more := by
  induction lines with
  | nil => rfl
  | cons line lines ih =>
    rw [List.cons_append, respondAll_cons, answerAll, ih]
    simp only [bind_assoc]

theorem respondAll_eq (lines : List (List UInt8)) :
    respondAll depth scope lines =
      answerAll depth scope lines >>= fun _ => respondAll depth scope [] := by
  rw [← respondAll_append, List.append_nil]

theorem respondAll_oblivious (depth : Nat) (scope : ScopeId) (lines : List (List UInt8)) :
    Oblivious (respondAll depth scope lines) := by
  rw [respondAll_eq]
  refine .bind (answerAll_oblivious depth scope lines) fun _ => ?_
  exact .bind (.write _ _) fun _ => .write _ _

theorem respondAll_nil {st : State} (h : st.sink.limit = none) :
    respondAll depth scope [] st =
      (.ok (), { st with sink := st.sink.append (prompt ++ "\n").toUTF8 }) := by
  have hprompt : print prompt st = (.ok (), { st with sink := st.sink.append prompt.toUTF8 }) :=
    Action.write_of_unlimited h prompt
  let mid : State := { st with sink := st.sink.append prompt.toUTF8 }
  have hmid : mid.sink.limit = none := h
  have hlast : print "\n" mid = (.ok (), { st with sink := mid.sink.append "\n".toUTF8 }) :=
    Action.write_of_unlimited hmid "\n"
  rw [Sink.append_append] at hlast
  exact (Action.bind_of_ok hprompt _).trans hlast

theorem printLines_heap (lines : List String) (st : State) :
    (Session.printLines lines st).2.heap = st.heap := by
  induction lines generalizing st with
  | nil => rfl
  | cons line lines ih =>
    have hprint : (print (line ++ "\n") st).2.heap = st.heap := by
      simp only [print, Action.write]
      split <;> rfl
    rcases h : print (line ++ "\n") st with ⟨s | _, mid⟩
    · rw [h] at hprint
      rw [printLines, Action.bind_of_error h]
      exact hprint
    · rw [h] at hprint
      rw [printLines, Action.bind_of_ok h, ih]
      exact hprint

/-- A line with faults is not run, so it binds nothing. -/
theorem respond_heap_of_faults {line : String} (h : (parse line).2 ≠ []) (st : State) :
    (respond depth scope line st).2.heap = st.heap := by
  obtain ⟨journal, hread⟩ := read_eq line st
  have hfaults : ¬(parse line).2.isEmpty := by simpa using h
  rw [respond, Action.bind_of_ok hread]
  simp only [hfaults]
  exact printLines_heap _ _

end Session

/-- A conversation over two inputs, the first of which ends with a line, is a conversation over the
first and then one over the second in the scopes left behind: it ends normally if both do, leaves
the same scopes, and shows what they show but for the empty prompt at the end of the first. -/
theorem conversation_cuts_at_lines {a : String} (ha : EndsLine a) (b : String) (depth : Nat)
    (scope : ScopeId) (st : State) :
    let converse (input : String) (st : State) :=
      Session.converse depth scope (utf8 input) { st with sink := .unlimited }
    let first := converse a st
    let second := converse b first.2
    let whole := converse (a ++ b) st
    (whole.1 = .ok () ↔ first.1 = .ok () ∧ second.1 = .ok ()) ∧
    (whole.1 = .ok () → whole.2.heap = second.2.heap ∧ whole.2.functions = second.2.functions ∧
      ∃ shown, first.2.sink.bytes = shown ++ (Session.prompt ++ "\n").toUTF8 ∧
        whole.2.sink.bytes = shown ++ second.2.sink.bytes) ∧
    ∀ line, (parse line).2 ≠ [] →
      ∀ mid, (Session.respond depth scope line mid).2.heap = mid.heap := by
  intro converse first second whole
  let opened : State := { st with sink := .unlimited }
  have hopened : SameScopes opened opened := ⟨rfl, rfl, rfl, rfl⟩
  have hfirst : first = (Session.answerAll depth scope (splitLines (utf8 a)) >>= fun _ =>
      Session.respondAll depth scope []) opened :=
    congrFun (Session.respondAll_eq (splitLines (utf8 a))) opened
  have hwhole : whole = (Session.answerAll depth scope (splitLines (utf8 a)) >>= fun _ =>
      Session.respondAll depth scope (splitLines (utf8 b))) opened := by
    rw [← Session.respondAll_append, ← ha.splitLines_append]
    rfl
  have hanswered := Session.answerAll_oblivious depth scope (splitLines (utf8 a)) _ _ hopened
  have hfaults (line : String) (h : (parse line).2 ≠ []) (mid : State) :
      (Session.respond depth scope line mid).2.heap = mid.heap :=
    Session.respond_heap_of_faults h mid
  rcases h : Session.answerAll depth scope (splitLines (utf8 a)) opened with ⟨s | _, mid⟩
  · -- A line of the first input does not finish, with or without the second behind it.
    rw [Action.bind_of_error h] at hfirst hwhole
    rw [hfirst, hwhole]
    exact ⟨by simp, by simp, hfaults⟩
  · rw [h] at hanswered
    obtain ⟨-, hmid, shown, hshown, -⟩ := hanswered
    rw [Action.bind_of_ok h, Session.respondAll_nil hmid.limit] at hfirst
    rw [Action.bind_of_ok h] at hwhole
    have hlater : SameScopes mid { first.2 with sink := .unlimited } := by
      rw [hfirst]
      exact ⟨rfl, rfl, hmid.limit, rfl⟩
    obtain ⟨houtcome, hscopes, w, hw, hw'⟩ :=
      Session.respondAll_oblivious depth scope (splitLines (utf8 b)) _ _ hlater
    rw [← hwhole] at houtcome hscopes hw
    refine ⟨?_, fun _ => ⟨hscopes.heap, hscopes.functions, mid.sink.bytes, ?_, ?_⟩, hfaults⟩
    · have hok : first.1 = .ok () := by rw [hfirst]
      rw [houtcome]
      exact (and_iff_right hok).symm
    · rw [hfirst]
      rfl
    · rw [hw]
      refine congrArg (mid.sink.bytes ++ ·) ?_
      have hsecond := congrArg Sink.bytes hw'
      exact (hsecond.trans ByteArray.empty_append).symm

/-- Lines with a fault, output, a failure, a function and a `return`, then one that calls the
function. -/
theorem conversation_cuts_at_lines_instance :
    let a := "let 5;\nputs(1)\nmissing\nlet f = fn(x) \x7b x \x7d\nreturn 2\n"
    let b := "f(3)"
    let converse (input : String) (st : State) :=
      Session.converse 1 0 (utf8 input) { st with sink := .unlimited }
    let first := converse a (State.ofSink .unlimited .silent).newGlobal.2
    let second := converse b first.2
    let whole := converse (a ++ b) (State.ofSink .unlimited .silent).newGlobal.2
    EndsLine a ∧ first.1 = .ok () ∧ second.1 = .ok () ∧
      second.2.sink.bytes = ">> 3\n>> \n".toUTF8 ∧ whole.1 = .ok () ∧
      whole.2.heap = second.2.heap ∧ ∃ shown,
        first.2.sink.bytes = shown ++ ">> \n".toUTF8 ∧
        whole.2.sink.bytes = shown ++ ">> 3\n>> \n".toUTF8 := by
  intro a b converse first second whole
  have ha : EndsLine a := by decide
  have hok {x : Except RunError Unit} (h : x.isOk) : x = .ok () := by
    cases x with
    | error s => cases h
    | ok u => rfl
  have hfirst : first.1 = .ok () := hok (by decide +kernel)
  have hsecond : second.1 = .ok () := hok (by decide +kernel)
  have hshown : second.2.sink.bytes = ">> 3\n>> \n".toUTF8 := by decide +kernel
  obtain ⟨hends, hcut, -⟩ := conversation_cuts_at_lines ha b 1 0
    (State.ofSink .unlimited .silent).newGlobal.2
  have hwhole : whole.1 = .ok () := hends.mpr ⟨hfirst, hsecond⟩
  obtain ⟨hheap, -, shown, hbefore, hafter⟩ := hcut hwhole
  exact ⟨ha, hfirst, hsecond, hshown, hwhole, hheap, shown, hbefore, hshown ▸ hafter⟩

end Monkey
