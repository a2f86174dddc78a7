import Monkey.Proofs.Eval.Tracking
import Monkey.Proofs.Syntax.Layout

/-!
Layout does not matter. What a source means depends on its tokens and not on where they stand, from
reading over evaluation to what is written and bound in the end; functions that have been bound
differ at most in the places of their literals. Neither does it matter what was written before.
-/

namespace Monkey

def Closure.unplaced (f : Closure) : Closure := { f with literal := f.literal.unplaced }

def Value.unplaced : Value → Value := Value.map Closure.unplaced

def Scope.unplaced : Scope → Scope := Scope.map Closure.unplaced id

def Heap.unplaced (h : Heap) : Heap := ⟨h.scopes.map Scope.unplaced⟩

theorem Value.inspect_unplaced (v : Value) : v.unplaced.inspect = v.inspect :=
  v.inspect_map fun f => f.literal.print_retoken moves_unplaced

/-- The states are equal up to places, and since the sinks were `s` and `s'`, the same has been
written. -/
structure Alike (s s' : Sink) (st st' : State) : Prop where
  room : s.room = s'.room
  heap : st.heap.unplaced = st'.heap.unplaced
  functions : st.functions = st'.functions
  output : ∃ w, st.sink = s.append w ∧ st'.sink = s'.append w

def unplacing : Translation := ⟨⟨id, id⟩, Token.unplaced⟩

theorem unplacing_faithful : unplacing.Faithful where
  moves := moves_unplaced
  scope_lt_iff := Iff.rfl
  function_injective := Function.injective_id

section Evaluation

variable {s s' : Sink} {st st' : State}

def State.unplaced (st : State) : State := { st with heap := st.heap.unplaced }

theorem Alike.tracks (h : Alike s s' st st') :
    Tracks unplacing s s st st.unplaced ∧ Tracks unplacing s' s st' st.unplaced := by
  obtain ⟨w, hw, hw'⟩ := h.output
  have hsize : st'.heap.size = st.heap.size := by
    have hsizes := congrArg Heap.size h.heap
    simpa [Heap.size, Heap.unplaced] using hsizes.symm
  constructor
  · refine ⟨rfl, fun i => ?_, fun i => rfl, fun i => ?_, w, hw, hw⟩
    · simp [unplacing, State.unplaced, Heap.unplaced, Heap.size]
    · exact Array.getElem?_map
  · refine ⟨h.room.symm, fun i => ?_, fun i => ?_, fun i => ?_, w, hw', hw⟩
    · rw [hsize]
      simp [unplacing, State.unplaced, Heap.unplaced, Heap.size]
    · exact congrArg (· + i) h.functions.symm
    · have hscopes : st.unplaced.heap = st'.heap.unplaced := h.heap
      rw [hscopes]
      exact Array.getElem?_map

theorem Tracks.alike {mid : State} (h : Tracks unplacing s s st mid)
    (h' : Tracks unplacing s' s st' mid) : Alike s s' st st' where
  room := h'.room.symm
  heap := by
    refine congrArg Heap.mk (Array.ext_getElem? fun i => ?_)
    rw [Array.getElem?_map, Array.getElem?_map]
    exact (h.scopes i).symm.trans (h'.scopes i)
  functions := (h.function_next 0).trans (h'.function_next 0).symm
  output := by
    obtain ⟨w, hw, hmid⟩ := h.output
    obtain ⟨w', hw', hmid'⟩ := h'.output
    have hbytes := congrArg Sink.bytes (hmid.symm.trans hmid')
    obtain rfl : w = w' := (ByteArray.append_right_inj s.bytes).mp hbytes
    exact ⟨w, hw, hw'⟩

theorem Alike.refl (st : State) : Alike st.sink st.sink st st :=
  ⟨rfl, rfl, rfl, .empty, by simp, by simp⟩

theorem Alike.find?_unplaced (h : Alike s s' st st') (reach : Reach) (name : String)
    (id : ScopeId) : (st.heap.find? reach name id).map Value.unplaced =
      (st'.heap.find? reach name id).map Value.unplaced := by
  obtain ⟨hst, hst'⟩ := h.tracks
  exact (hst.find? unplacing_faithful reach name id).symm.trans
    (hst'.find? unplacing_faithful reach name id)

theorem Alike.setJournal (h : Alike s s' st st') (journal journal' : Journal) :
    Alike s s' { st with journal } { st' with journal := journal' } :=
  ⟨h.room, h.heap, h.functions, h.output⟩

/-- Statements that are equal up to places do the same in states that are alike. -/
theorem Stmt.evalAll_alike {ss ss' : List Stmt} (depth : Nat) (scope : ScopeId)
    (hss : Stmt.retokenAll Token.unplaced ss = Stmt.retokenAll Token.unplaced ss')
    (h : Alike s s' st st') :
    let x := Stmt.evalAll (Closure.call depth) scope ss st
    let y := Stmt.evalAll (Closure.call depth) scope ss' st'
    mapOutcome Closure.unplaced Value.unplaced x.1 =
      mapOutcome Closure.unplaced Value.unplaced y.1 ∧ Alike s s' x.2 y.2 := by
  intro x y
  obtain ⟨hst, hst'⟩ := h.tracks
  obtain ⟨hx, hxend⟩ := Stmt.evalAll_parallels unplacing_faithful
    (Closure.call_parallels unplacing_faithful depth) ss _ _ hst
  obtain ⟨hy, hyend⟩ := Stmt.evalAll_parallels unplacing_faithful
    (Closure.call_parallels unplacing_faithful depth) ss' _ _ hst'
  have hmiddle : Stmt.retokenAll unplacing.token ss' = Stmt.retokenAll unplacing.token ss := hss.symm
  rw [hmiddle] at hy hyend
  exact ⟨hx.symm.trans hy, hxend.alike hyend⟩

def resultOf : Except Signal Value → Option Value
  | .ok v => some v
  | .error sig => sig.toResult

theorem resultOf_mapOutcome (g : Closure → Closure) (o : Except Signal Value) :
    resultOf (mapOutcome g (Value.map g) o) = (resultOf o).map (Value.map g) := by
  rcases o with (v | e | _) | v
  · rfl
  · rfl
  · rfl
  · rfl

/-- A program does what its statements do, and keeps a journal of it. -/
theorem Program.run_eq (depth : Nat) (scope : ScopeId) (p : Program) (st : State) :
    let r := Stmt.evalAll (Closure.call depth) scope p.statements
      (st.record (.evaluating p.statements.length))
    ∃ journal, p.run depth scope st = (resultOf r.1, { r.2 with journal }) := by
  intro r
  have hr : Stmt.evalAll (Closure.call depth) scope p.statements
    (st.record (.evaluating p.statements.length)) = r := rfl
  unfold Program.run
  rw [hr]
  rcases r with ⟨(v | e | _) | v, mid⟩
  · exact ⟨_, rfl⟩
  · exact ⟨_, rfl⟩
  · exact ⟨_, rfl⟩
  · exact ⟨_, rfl⟩

theorem Program.run_alike {p p' : Program} (depth : Nat) (scope : ScopeId)
    (hp : p.unplaced = p'.unplaced) (h : Alike s s' st st') :
    (p.run depth scope st).1.map Value.unplaced = (p'.run depth scope st').1.map Value.unplaced ∧
      Alike s s' (p.run depth scope st).2 (p'.run depth scope st').2 := by
  have hss : Stmt.retokenAll Token.unplaced p.statements =
      Stmt.retokenAll Token.unplaced p'.statements := congrArg Program.statements hp
  obtain ⟨houtcome, hend⟩ := Stmt.evalAll_alike depth scope hss (h.setJournal _ _)
  obtain ⟨journal, hrun⟩ := p.run_eq depth scope st
  obtain ⟨journal', hrun'⟩ := p'.run_eq depth scope st'
  rw [hrun, hrun']
  refine ⟨?_, hend.setJournal journal journal'⟩
  have hresult := congrArg resultOf houtcome
  exact (resultOf_mapOutcome _ _).symm.trans (hresult.trans (resultOf_mapOutcome _ _))

end Evaluation

theorem map_unplaced_eq {ts us : List Token}
    (h : ts.map (fun t => (t.kind, t.text)) = us.map fun t => (t.kind, t.text)) :
    ts.map Token.unplaced = us.map Token.unplaced := by
  have hmaps := congrArg (List.map fun c : TokenKind × String => Token.mk c.1 c.2 default) h
  rw [List.map_map, List.map_map] at hmaps
  exact hmaps

/-- Sources whose tokens have the same kinds and texts have the same faults and the same program up
to places; run in one state, they yield the same, write the same and leave the same bindings, up to
places in the literals of functions. -/
theorem layout_does_not_matter {a b : String}
    (h : (tokenize a).map (fun t => (t.kind, t.text)) =
      (tokenize b).map fun t => (t.kind, t.text)) :
    (parse a).2 = (parse b).2 ∧ (parse a).1.unplaced = (parse b).1.unplaced ∧
      ∀ (depth : Nat) (scope : ScopeId) (st : State),
        let x := (parse a).1.run depth scope st
        let y := (parse b).1.run depth scope st
        x.1.map Value.unplaced = y.1.map Value.unplaced ∧
        x.1.map Value.inspect = y.1.map Value.inspect ∧
        (∃ w, x.2.sink = st.sink.append w ∧ y.2.sink = st.sink.append w) ∧
        x.2.heap.unplaced = y.2.heap.unplaced ∧ x.2.functions = y.2.functions := by
  obtain ⟨hfaults, hprogram⟩ := parseTokens_unplaced (map_unplaced_eq h)
  refine ⟨hfaults, hprogram, ?_⟩
  intro depth scope st x y
  obtain ⟨hresult, hend⟩ := Program.run_alike depth scope hprogram (.refl st)
  have hinspect (o : Option Value) : o.map Value.inspect = (o.map Value.unplaced).map Value.inspect := by
    cases o with
    | none => rfl
    | some v => exact congrArg some v.inspect_unplaced.symm
  refine ⟨hresult, ?_, hend.output, hend.heap, hend.functions⟩
  rw [hinspect x.1, hinspect y.1]
  exact congrArg (Option.map Value.inspect) hresult

/-- A function literal on one line and on three. -/
theorem layout_does_not_matter_instance :
    let a := "puts(1); fn(x) \x7b x \x7d"
    let b := "puts(1);\nfn(x) \x7b\n  x\n\x7d"
    let st := (State.ofSink .unlimited .silent).newGlobal.2
    let x := (parse a).1.run 0 0 st
    let y := (parse b).1.run 0 0 st
    tokenize a ≠ tokenize b ∧ x.1.map Value.inspect = some "fn(x) \x7b x \x7d" ∧
      x.1.map Value.inspect = y.1.map Value.inspect ∧
      (∃ w, x.2.sink = st.sink.append w ∧ y.2.sink = st.sink.append w) ∧
      x.2.heap.unplaced = y.2.heap.unplaced := by
  intro a b st x y
  have htokens : (tokenize a).map (fun t => (t.kind, t.text)) =
      (tokenize b).map fun t => (t.kind, t.text) := by decide +kernel
  have hplaces : tokenize a ≠ tokenize b := by decide +kernel
  have hshown : x.1.map Value.inspect = some "fn(x) \x7b x \x7d" := by decide +kernel
  obtain ⟨-, hinspect, hsink, hheap, -⟩ := (layout_does_not_matter htokens).2.2 0 0 st
  exact ⟨hplaces, hshown, hinspect, hsink, hheap⟩

end Monkey
