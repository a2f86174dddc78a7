import Monkey.Proofs.Eval.Layout
import Monkey.Proofs.Session.Continuation
import Monkey.Proofs.Session.Integrity
import Monkey.Proofs.Syntax.Append

/-!
A conversation and a script agree. Lines that are complete and run without a failure leave the same
bindings whether they are answered one by one or run as one script. They write the same as well; a
conversation shows prompts and results around it, a script the last result.
-/

namespace Monkey

structure Answer where
  program : Program
  written : ByteArray
  result : Value

/-- Lines without faults, each of them concluded, that run one after the other and end normally:
`Proceeds depth scope st lines answers st'` when they start in `st`, come to `answers` and end in
`st'`. -/
inductive Proceeds (depth : Nat) (scope : ScopeId) :
    State → List String → List Answer → State → Prop where
  | nil (st : State) : Proceeds depth scope st [] [] st
  | cons {st mid st' line lines w r answers} : IsLine line → (parse line).2 = [] →
      Concluded line →
      Stmt.evalAll (Closure.call depth) scope (parse line).1.statements st = (.ok r, mid) →
      mid.sink = st.sink.append w → Proceeds depth scope mid lines answers st' →
      Proceeds depth scope st (line :: lines) (⟨(parse line).1, w, r⟩ :: answers) st'

namespace Answer

/-- What a conversation shows: before each line a prompt, then what the line writes and its result,
and at the end an empty prompt. -/
def transcript : List Answer → ByteArray
  | [] => (Session.prompt ++ "\n").toUTF8
  | a :: as => Session.prompt.toUTF8 ++ a.written ++ (a.result.inspect ++ "\n").toUTF8 ++
      transcript as

def writtenAll : List Answer → ByteArray
  | [] => .empty
  | a :: as => a.written ++ writtenAll as

def statements (as : List Answer) : List Stmt := as.flatMap fun a => a.program.statements

/-- The value of the last statement, if there is one: the result of the last line that has any. -/
def lastValue? : List Answer → Option Value
  | [] => none
  | a :: as => (lastValue? as).or (if a.program.statements.isEmpty then none else some a.result)

theorem lastValue?_eq_none_iff {as : List Answer} : lastValue? as = none ↔ statements as = [] := by
  induction as with
  | nil => simp [lastValue?, statements]
  | cons a as ih =>
    have hstatements : statements (a :: as) = a.program.statements ++ statements as := rfl
    simp [lastValue?, hstatements, ih, and_comm]

def lastLine : Option Value → String
  | none | some .null => ""
  | some v => v.inspect ++ "\n"

end Answer

section Actions

variable {st : State}

theorem Session.print_of_unlimited (h : st.sink.limit = none) (text : String) :
    Session.print text st = (.ok (), { st with sink := st.sink.append text.toUTF8 }) :=
  Action.write_of_unlimited h text

theorem Session.read_of_clean {source : String} (h : (parse source).2 = []) (st : State) :
    ∃ journal, Session.read source st = (.ok ((parse source).1, []), { st with journal }) := by
  have hparse : parseTokens (tokenize source) = ((parse source).1, []) := Prod.ext rfl h
  refine ⟨(st.record (.parsed (parse source).1.statements.length 0)).journal, ?_⟩
  simp only [Session.read, State.read, hparse]
  rfl

end Actions

/-- The states are equal up to places and journals, and all that is written to them fits. -/
structure InStep (st st' : State) : Prop where
  heap : st.heap.unplaced = st'.heap.unplaced
  functions : st.functions = st'.functions
  limit : st.sink.limit = none
  limit' : st'.sink.limit = none

namespace InStep

variable {st st' mid : State} {depth : Nat} {scope : ScopeId} {ss : List Stmt} {p : Program}
  {r : Value} {w : ByteArray}

theorem alike (h : InStep st st') : Alike st.sink st'.sink st st' where
  room := by simp [Sink.room, h.limit, h.limit']
  heap := h.heap
  functions := h.functions
  output := ⟨.empty, by simp, by simp⟩

/-- A program does in one of the states what its statements do in the other. -/
theorem run (h : InStep st st')
    (hss : Stmt.retokenAll Token.unplaced ss = Stmt.retokenAll Token.unplaced p.statements)
    (hrun : Stmt.evalAll (Closure.call depth) scope ss st = (.ok r, mid))
    (hw : mid.sink = st.sink.append w) :
    ∃ v mid', Session.run depth scope p st' = (.ok v, mid') ∧ v.unplaced = r.unplaced ∧
      InStep mid mid' ∧ mid'.sink = st'.sink.append w := by
  have hstart : Alike st.sink st'.sink st (st'.record (.evaluating p.statements.length)) :=
    h.alike.setJournal st.journal _
  obtain ⟨houtcome, hend⟩ := Stmt.evalAll_alike depth scope hss hstart
  obtain ⟨journal, hp⟩ := p.run_eq depth scope st'
  rw [hrun] at houtcome hend
  generalize Stmt.evalAll (Closure.call depth) scope p.statements
    (st'.record (.evaluating p.statements.length)) = result at houtcome hend hp
  obtain ⟨o, mid'⟩ := result
  obtain ⟨v, rfl, hv⟩ : ∃ v, o = .ok v ∧ v.unplaced = r.unplaced := by
    cases o with
    | error s => cases houtcome
    | ok v => exact ⟨v, rfl, (Except.ok.inj houtcome).symm⟩
  obtain ⟨w', hmid, hmid'⟩ := hend.output
  obtain rfl : w = w' := by
    have hbytes := congrArg Sink.bytes (hw.symm.trans hmid)
    exact (ByteArray.append_right_inj st.sink.bytes).mp hbytes
  refine ⟨v, { mid' with journal }, ?_, hv, ⟨hend.heap, hend.functions, ?_, ?_⟩, hmid'⟩
  · simp only [Session.run, hp, resultOf]
  · rw [hw]
    exact h.limit
  · rw [hmid']
    exact h.limit'

theorem readRun {source : String} (h : InStep st st') (hclean : (parse source).2 = [])
    (hss : Stmt.retokenAll Token.unplaced ss =
      Stmt.retokenAll Token.unplaced (parse source).1.statements)
    (hrun : Stmt.evalAll (Closure.call depth) scope ss st = (.ok r, mid))
    (hw : mid.sink = st.sink.append w) :
    ∃ st₁ v mid', Session.read source st' = (.ok ((parse source).1, []), st₁) ∧
      Session.run depth scope (parse source).1 st₁ = (.ok v, mid') ∧ v.unplaced = r.unplaced ∧
      InStep mid mid' ∧ mid'.sink = st'.sink.append w := by
  obtain ⟨journal, hread⟩ := Session.read_of_clean hclean st'
  have hread' : InStep st { st' with journal } := ⟨h.heap, h.functions, h.limit, h.limit'⟩
  obtain ⟨v, mid', hrun', hv, hmid, hsink⟩ := hread'.run hss hrun hw
  exact ⟨_, v, mid', hread, hrun', hv, hmid, hsink⟩

theorem print (h : InStep st st') (text : ByteArray) :
    InStep st { st' with sink := st'.sink.append text } := ⟨h.heap, h.functions, h.limit, h.limit'⟩

end InStep

theorem Value.inspect_eq_of_unplaced {v w : Value} (h : v.unplaced = w.unplaced) :
    v.inspect = w.inspect := by
  rw [← v.inspect_unplaced, h, w.inspect_unplaced]

section Lines

open Monkey.Action

variable {st st' rt : State} {depth : Nat} {scope : ScopeId} {lines : List String}
  {answers : List Answer}

theorem InStep.respond {mid : State} {line : String} {w : ByteArray} {r : Value}
    (h : InStep st rt) (hclean : (parse line).2 = [])
    (hrun : Stmt.evalAll (Closure.call depth) scope (parse line).1.statements st = (.ok r, mid))
    (hw : mid.sink = st.sink.append w) :
    ∃ rt', Session.respond depth scope line rt = (.ok (), rt') ∧ InStep mid rt' ∧
      rt'.sink = rt.sink.append (w ++ (r.inspect ++ "\n").toUTF8) := by
  obtain ⟨_, v, rt₁, hread, hrun', hv, hmid, hsink⟩ := h.readRun hclean rfl hrun hw
  refine ⟨_, ?_, hmid.print (r.inspect ++ "\n").toUTF8, ?_⟩
  · unfold Session.respond
    refine (bind_of_ok hread _).trans ((bind_of_ok hrun' _).trans ?_)
    rw [Value.inspect_eq_of_unplaced hv]
    exact Session.print_of_unlimited hmid.limit' _
  · rw [← Sink.append_append, ← hsink]

theorem Proceeds.respondAll (h : Proceeds depth scope st lines answers st') (hrt : InStep st rt) :
    ∃ rt', Session.respondAll depth scope (lines.map utf8) rt = (.ok (), rt') ∧ InStep st' rt' ∧
      rt'.sink = rt.sink.append (Answer.transcript answers) := by
  induction h generalizing rt with
  | nil st =>
    exact ⟨_, Session.respondAll_nil hrt.limit', hrt.print (Session.prompt ++ "\n").toUTF8, rfl⟩
  | @cons st mid st' line lines w r answers _ hclean _ hrun hw _ ih =>
    have hprompt := Session.print_of_unlimited hrt.limit' Session.prompt
    have hprompted := hrt.print Session.prompt.toUTF8
    obtain ⟨rt₁, hrespond, hmid, hsink⟩ := hprompted.respond hclean hrun hw
    obtain ⟨rt₂, hall, hend, hsink'⟩ := ih hmid
    refine ⟨rt₂, ?_, hend, ?_⟩
    · have hbytes : Session.respondBytes depth scope (utf8 line) =
          Session.respond depth scope line := by
        simp only [Session.respondBytes, decodeUtf8?_utf8]
      rw [List.map_cons, Session.respondAll_cons, hbytes]
      exact (bind_of_ok hprompt _).trans ((bind_of_ok hrespond _).trans hall)
    · rw [hsink', hsink, Sink.append_append, Sink.append_append, Answer.transcript]
      simp only [ByteArray.append_assoc]

/-- All statements, run at once, end where the lines end, with the value of the last statement. -/
theorem Proceeds.evalAll (h : Proceeds depth scope st lines answers st') :
    Stmt.evalAll (Closure.call depth) scope (Answer.statements answers) st =
        (.ok ((Answer.lastValue? answers).getD .null), st') ∧
      st'.sink = st.sink.append (Answer.writtenAll answers) := by
  induction h with
  | nil st => exact ⟨rfl, by simp [Answer.writtenAll]⟩
  | @cons st mid st' line lines w r answers _ _ _ hrun hw _ ih =>
    obtain ⟨hall, hsink⟩ := ih
    refine ⟨?_, by rw [hsink, hw, Sink.append_append, Answer.writtenAll]⟩
    have hstatements : Answer.statements (⟨(parse line).1, w, r⟩ :: answers) =
        (parse line).1.statements ++ Answer.statements answers := rfl
    rw [hstatements]
    rw [Answer.lastValue?]
    by_cases hrest : Answer.statements answers = []
    · rw [Answer.lastValue?_eq_none_iff.mpr hrest, Option.none_or]
      rw [hrest] at hall ⊢
      obtain rfl : mid = st' := (Prod.mk.inj hall).2
      rw [List.append_nil, hrun]
      -- A line without statements comes to nothing.
      cases hline : (parse line).1.statements with
      | nil =>
        rw [hline] at hrun
        obtain ⟨hr, -⟩ := Prod.mk.inj hrun
        rw [← hr]
        rfl
      | cons t ts => rfl
    · obtain ⟨v, hv⟩ := Option.ne_none_iff_exists'.mp (mt Answer.lastValue?_eq_none_iff.mp hrest)
      rw [Stmt.evalAll_append hrest hrun, hall, hv, Option.some_or]

theorem Proceeds.isLine (h : Proceeds depth scope st lines answers st') :
    ∀ line ∈ lines, IsLine line := by
  induction h with
  | nil => exact List.forall_mem_nil _
  | cons hline _ _ _ _ _ ih => exact List.forall_mem_cons.mpr ⟨hline, ih⟩

/-- The lines put together are read without a fault, and as the statements of all lines. -/
theorem Proceeds.parse_join (h : Proceeds depth scope st lines answers st') :
    (parse (String.join lines)).2 = [] ∧
      Stmt.retokenAll Token.unplaced (parse (String.join lines)).1.statements =
        Stmt.retokenAll Token.unplaced (Answer.statements answers) := by
  induction h with
  | nil st =>
    have htokens : tokenize "" = Lexical.tokensOf .start [] [] :=
      (Lexical.Partition.last (List.forall_mem_nil _)).tokens .start
    have hempty : parse (String.join []) = (⟨[]⟩, []) := by
      change parseTokens (tokenize "") = _
      rw [htokens]
      rfl
    rw [hempty]
    exact ⟨rfl, rfl⟩
  | @cons st mid st' line lines w r answers _ hclean hconcluded _ _ _ ih =>
    let later := (parseAt (Position.start.after line.toList) (String.join lines)).1
    obtain ⟨hfaults, hlater⟩ := parseAt_unplaced (Position.start.after line.toList) (String.join lines)
    rw [String.join_cons, parse_append hclean hconcluded]
    refine ⟨hfaults.trans ih.1, ?_⟩
    have hrest : Stmt.retokenAll Token.unplaced later.statements =
        Stmt.retokenAll Token.unplaced (parse (String.join lines)).1.statements :=
      congrArg Program.statements hlater
    change Stmt.retokenAll Token.unplaced ((parse line).1.statements ++ later.statements) = _
    rw [Stmt.retokenAll_append, hrest, ih.2, ← Stmt.retokenAll_append]
    rfl

theorem Answer.lastLine_eq (o : Option Value) :
    lastLine o = if (o.getD .null).kind = .null then "" else (o.getD .null).inspect ++ "\n" := by
  cases o with
  | none => rfl
  | some v => cases v <;> rfl

theorem Session.load_of_run {source : String} {p : Program} {rt₁ rt₂ : State} {v : Value}
    (hread : Session.read source rt = (.ok (p, []), rt₁))
    (hrun : Session.run depth scope p rt₁ = (.ok v, rt₂)) (hv : v.kind ≠ .error)
    (hlimit : rt₂.sink.limit = none) :
    Session.load depth scope source rt =
      (.ok (), { rt₂ with sink := rt₂.sink.append (Answer.lastLine (some v)).toUTF8 }) := by
  refine (bind_of_ok hread _).trans ((bind_of_ok hrun _).trans ?_)
  cases v with
  | null =>
    have hnothing : rt₂.sink.append (Answer.lastLine (some .null)).toUTF8 = rt₂.sink :=
      Sink.append_empty _
    rw [hnothing]
    rfl
  | error e => exact absurd rfl hv
  | _ => exact Session.print_of_unlimited hlimit _

theorem Proceeds.load (h : Proceeds depth scope st lines answers st') (hrt : InStep st rt)
    (hproper : ((Answer.lastValue? answers).getD .null).kind ≠ .error) :
    ∃ rt', Session.load depth scope (String.join lines) rt = (.ok (), rt') ∧ InStep st' rt' ∧
      rt'.sink = rt.sink.append (Answer.writtenAll answers ++
        (Answer.lastLine (Answer.lastValue? answers)).toUTF8) := by
  obtain ⟨hclean, hstatements⟩ := h.parse_join
  obtain ⟨hall, hsink⟩ := h.evalAll
  obtain ⟨_, v, rt₁, hread, hrun, hv, hmid, hsink'⟩ :=
    hrt.readRun hclean hstatements.symm hall hsink
  have hkind : v.kind = ((Answer.lastValue? answers).getD .null).kind := by
    have hkinds := congrArg Value.kind hv
    simpa only [Value.unplaced, Value.kind_map] using hkinds
  have hload := Session.load_of_run hread hrun (hkind ▸ hproper) hmid.limit'
  refine ⟨_, hload, hmid.print _, ?_⟩
  have hshown : Answer.lastLine (some v) = Answer.lastLine (Answer.lastValue? answers) := by
    simp only [Answer.lastLine_eq, Option.getD_some, hkind, Value.inspect_eq_of_unplaced hv]
  rw [hshown, hsink', Sink.append_append]

end Lines

/-- Lines that run normally in a fresh global scope come to values that wrap no failure. -/
theorem Proceeds.kind_ne_error {sink : Sink} {filter : Filter} {depth : Nat} {lines : List String}
    {answers : List Answer} {st' : State}
    (h : Proceeds depth 0 (State.ofSink sink filter).newGlobal.2 lines answers st') :
    ((Answer.lastValue? answers).getD .null).kind ≠ .error := by
  have hfresh : (State.ofSink sink filter).newGlobal.2.Obeys fun st v => Made st v ∧ v.Proper :=
    Heap.Holds.empty.push nofun
  have hsound := Stmt.evalAll_sound proper_discipline (Closure.call_follows proper_discipline depth)
    (Answer.statements answers) _ hfresh Nat.zero_lt_one
  rw [h.evalAll.1] at hsound
  have hproper := (hsound.ok _ rfl).imp (fun _ hv => hv.2) _
  intro hkind
  cases hlast : (Answer.lastValue? answers).getD .null with
  | error e =>
    rw [hlast] at hproper
    exact hproper
  | _ =>
    rw [hlast] at hkind
    cases hkind

/-- Lines that are concluded and run normally in a fresh global scope: a conversation over them and
the script that they make up end normally and leave the same bindings, up to places. The one shows a
prompt, what is written and the result for each line, the other what is written and the value of
the last statement, if there is one and it is not null. -/
theorem conversation_agrees_with_script (filter : Filter) (depth : Nat) {lines : List String}
    {answers : List Answer} {st' : State} :
    let fresh := (State.ofSink .unlimited filter).newGlobal
    let conversed := Session.converse depth fresh.1 (utf8 (String.join lines)) fresh.2
    let loaded := Session.load depth fresh.1 (String.join lines) fresh.2
    Proceeds depth fresh.1 fresh.2 lines answers st' →
      conversed.1 = .ok () ∧ loaded.1 = .ok () ∧
      conversed.2.heap.unplaced = loaded.2.heap.unplaced ∧
      conversed.2.sink.bytes = Answer.transcript answers ∧
      loaded.2.sink.bytes =
        Answer.writtenAll answers ++ (Answer.lastLine (Answer.lastValue? answers)).toUTF8 := by
  intro fresh conversed loaded h
  have hstart : InStep fresh.2 fresh.2 := ⟨rfl, rfl, rfl, rfl⟩
  obtain ⟨rt, hall, hrt, hsink⟩ := h.respondAll hstart
  obtain ⟨rt', hload, hrt', hsink'⟩ := h.load hstart h.kind_ne_error
  have hconversed : conversed = (.ok (), rt) := by
    rw [← splitLines_join h.isLine] at hall
    exact hall
  have hloaded : loaded = (.ok (), rt') := hload
  rw [hconversed, hloaded]
  refine ⟨rfl, rfl, hrt.heap.symm.trans hrt'.heap, ?_, ?_⟩
  · rw [hsink]
    exact ByteArray.empty_append
  · rw [hsink']
    exact ByteArray.empty_append

/-- A definition, a blank line, and a line that writes and calls the function. -/
theorem conversation_agrees_with_script_instance :
    let lines := ["let f = fn(x) \x7b x \x7d;\n", "\n", "puts(1); f(2);\n"]
    let fresh := (State.ofSink .unlimited .silent).newGlobal
    let conversed := Session.converse 1 fresh.1 (utf8 (String.join lines)) fresh.2
    let loaded := Session.load 1 fresh.1 (String.join lines) fresh.2
    ∃ answers st', Proceeds 1 fresh.1 fresh.2 lines answers st' ∧
      conversed.1 = .ok () ∧ loaded.1 = .ok () ∧
      conversed.2.heap.unplaced = loaded.2.heap.unplaced ∧
      conversed.2.sink.bytes = ">> fn(x) \x7b x \x7d\n>> null\n>> 1\n2\n>> \n".toUTF8 ∧
      loaded.2.sink.bytes = "1\n2\n".toUTF8 := by
  intro lines fresh conversed loaded
  have hok {x : Except Signal Value × State} {text : String}
      (h : x.1.toOption.map Value.inspect = some text) :
      ∃ r, x = (.ok r, x.2) ∧ r.inspect = text := by
    obtain ⟨o | r, st⟩ := x
    · cases h
    · exact ⟨r, rfl, Option.some.inj h⟩
  have hsink {s s' : Sink} {w : ByteArray}
      (h : s'.limit = s.limit ∧ s'.bytes = s.bytes ++ w) : s' = s.append w := by
    cases s'
    obtain ⟨rfl, rfl⟩ := h
    rfl
  let answer (line : String) (st : State) :=
    Stmt.evalAll (Closure.call 1) 0 (parse line).1.statements st
  let st₁ := (answer "let f = fn(x) \x7b x \x7d;\n" fresh.2).2
  let st₂ := (answer "\n" st₁).2
  let st₃ := (answer "puts(1); f(2);\n" st₂).2
  obtain ⟨r₁, h₁, hr₁⟩ := @hok (answer "let f = fn(x) \x7b x \x7d;\n" fresh.2)
    "fn(x) \x7b x \x7d" (by decide +kernel)
  obtain ⟨r₂, h₂, hr₂⟩ := @hok (answer "\n" st₁) "null" (by decide +kernel)
  obtain ⟨r₃, h₃, hr₃⟩ := @hok (answer "puts(1); f(2);\n" st₂) "2" (by decide +kernel)
  have hw₁ : st₁.sink = fresh.2.sink.append .empty := hsink (by decide +kernel)
  have hw₂ : st₂.sink = st₁.sink.append .empty := hsink (by decide +kernel)
  have hw₃ : st₃.sink = st₂.sink.append "1\n".toUTF8 := hsink (by decide +kernel)
  have h : Proceeds 1 fresh.1 fresh.2 lines _ st₃ :=
    .cons ⟨"let f = fn(x) \x7b x \x7d;".toList, by decide, rfl⟩ (by decide +kernel)
      (by decide +kernel) h₁ hw₁ <|
    .cons ⟨[], by decide, rfl⟩ (by decide +kernel) (by decide +kernel) h₂ hw₂ <|
    .cons ⟨"puts(1); f(2);".toList, by decide, rfl⟩ (by decide +kernel)
      (by decide +kernel) h₃ hw₃ <|
    .nil st₃
  obtain ⟨hconversed, hloaded, hheap, hshown, hwritten⟩ := conversation_agrees_with_script .silent 1 h
  refine ⟨_, _, h, hconversed, hloaded, hheap, hshown.trans ?_, hwritten.trans ?_⟩
  · simp only [Answer.transcript, hr₁, hr₂, hr₃]
    decide +kernel
  · have hstatements : (parse "puts(1); f(2);\n").1.statements.isEmpty = false := by decide +kernel
    have hlast : Answer.lastLine (some r₃) = "2\n" := by
      cases r₃ with
      | null => exact absurd hr₃ (by decide)
      | _ => exact congrArg (· ++ "\n") hr₃
    simp only [Answer.writtenAll, Answer.lastValue?, hstatements, Option.none_or, Option.some_or,
      Bool.false_eq_true, if_false, hlast]
    decide +kernel

end Monkey
