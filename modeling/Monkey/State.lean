import Monkey.Journal
import Monkey.Scope
import Monkey.Value.Print

/-!
The state of a run, and actions on it. An action ends with a result or with a reason to stop, and in
both cases with the state it has reached: what was written and bound before a stop stays.
-/

namespace Monkey

structure State where
  heap : Heap
  /-- How many functions have been made; the next one gets this number. -/
  functions : Nat
  sink : Sink
  journal : Journal

namespace State

def ofSink (sink : Sink) (filter : Filter) : State := ⟨.empty, 0, sink, .ofFilter filter⟩

def newGlobal (st : State) : ScopeId × State :=
  (st.heap.size, { st with heap := st.heap.push none })

def newScope (st : State) (outer : ScopeId) : ScopeId × State :=
  (st.heap.size, { st with heap := st.heap.push (some outer) })

def record (st : State) (e : Event) : State := { st with journal := st.journal.record e }

def report (st : State) (line : String) : State := { st with journal := st.journal.report line }

end State

/-- Stops with a reason of type `ε` or yields an `α`. -/
def Action (ε α : Type) : Type := State → Except ε α × State

namespace Action

variable {ε α β : Type}

@[inline] protected def pure (a : α) : Action ε α := fun st => (.ok a, st)

@[inline] protected def bind (x : Action ε α) (f : α → Action ε β) : Action ε β := fun st =>
  match x st with
  | (.ok a, st) => f a st
  | (.error s, st) => (.error s, st)

instance : Monad (Action ε) where
  pure := Action.pure
  bind := Action.bind

@[inline] def stop (s : ε) : Action ε α := fun st => (.error s, st)

def record (e : Event) : Action ε Unit := fun st => (.ok (), st.record e)

def report (line : String) : Action ε Unit := fun st => (.ok (), st.report line)

/-- Writes to the output; `full` is the reason to stop when it does not fit. -/
def write (full : ε) (text : String) : Action ε Unit := fun st =>
  match st.sink.write text with
  | (true, sink) => (.ok (), { st with sink })
  | (false, sink) => (.error full, { st with sink })

end Action

end Monkey
