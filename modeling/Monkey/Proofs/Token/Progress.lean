import Monkey.Token.Scan

/-!
How reading comes to its end. A call of `next` either takes a part of the text that is not empty, or
finds nothing but blanks before the end of it. The first can happen only as often as there are
characters; after the second the cursor has nothing left, and stays as it is.
-/

namespace Monkey

open Text

namespace Cursor

def skip : Nat → Cursor → Cursor
  | 0, c => c
  | n + 1, c => skip n c.next.2

def ending (place : Position) : Token := ⟨.eof, "", place, place⟩

/-- What a call of `next` can do. -/
theorem next_cases (c : Cursor) :
    (c.next.1.kind ≠ .eof ∧ ∃ taken, taken ≠ [] ∧ c.rest = taken ++ c.next.2.rest) ∨
      ∃ place, c.next = (ending place, ⟨[], place⟩) := by
  have hsplit := List.takeWhile_append_dropWhile (p := isBlank) (l := c.rest)
  cases hrest : c.rest.dropWhile isBlank with
  | nil =>
    right
    refine ⟨c.position.after (c.rest.takeWhile isBlank), ?_⟩
    simp only [next, hrest, ending]
  | cons ch cs =>
    left
    have hkind : c.next.1.kind ≠ .eof := by
      simp only [next, hrest]
      exact Lexeme.kind_ne_eof ch cs
    have hleft : c.next.2.rest = (Lexeme.cut ch cs).rest := by simp only [next, hrest]
    have htaken : c.rest =
        (c.rest.takeWhile isBlank ++ (Lexeme.cut ch cs).taken) ++ c.next.2.rest := by
      rw [hleft, List.append_assoc, Lexeme.taken_append_rest, ← hrest, hsplit]
    refine ⟨hkind, _, ?_, htaken⟩
    intro hnil
    have hshorter := length_next_lt hkind
    rw [hnil, List.nil_append] at htaken
    rw [htaken] at hshorter
    exact Nat.lt_irrefl _ hshorter

theorem next_exhausted (place : Position) :
    (Cursor.mk [] place).next = (ending place, ⟨[], place⟩) := rfl

theorem skip_exhausted (place : Position) (n : Nat) :
    (Cursor.mk [] place).skip n = ⟨[], place⟩ := by
  induction n with
  | zero => rfl
  | succ n ih => exact ih

theorem rest_skip_suffix (c : Cursor) (n : Nat) : (c.skip n).rest <:+ c.rest := by
  induction n generalizing c with
  | zero => exact List.suffix_refl _
  | succ n ih =>
    apply (ih c.next.2).trans
    rcases c.next_cases with ⟨-, taken, -, htaken⟩ | ⟨place, hnext⟩
    · exact ⟨taken, htaken.symm⟩
    · rw [hnext]
      exact List.nil_suffix

/-- From the cursor on come the tokens `ts`, no more than there are characters left, and then the
token `last` for good; whoever asks for tokens before end of input gets `ts` and then nothing. -/
structure Yields (c : Cursor) (ts : List Token) (last : Token) : Prop where
  length_le : ts.length ≤ c.rest.length
  kind_ne_eof : ∀ t ∈ ts, t.kind ≠ .eof
  last_eq : ∃ place, last = ending place
  tokens : c.tokens = ts ++ [last]
  pull : ∀ k, c.pull (ts.length + k) = ts ++ List.replicate k last
  draw : ∀ k, c.draw (ts.length + k) = ts.map some ++ List.replicate k none

theorem yields_of_end {c : Cursor} {place : Position} (h : c.next = (ending place, ⟨[], place⟩)) :
    c.Yields [] (ending place) := by
  refine ⟨Nat.zero_le _, List.forall_mem_nil _, ⟨place, rfl⟩, ?_, ?_, ?_⟩
  · rw [Cursor.tokens, h]
    rfl
  · intro k
    rw [List.length_nil, Nat.zero_add, List.nil_append]
    induction k generalizing c with
    | zero => rfl
    | succ k ih => rw [Cursor.pull, h, ih (next_exhausted place), List.replicate_succ]
  · intro k
    rw [List.length_nil, Nat.zero_add, List.map_nil, List.nil_append]
    induction k generalizing c with
    | zero => rfl
    | succ k ih =>
      rw [Cursor.draw, Cursor.next?, h, ih (next_exhausted place), List.replicate_succ]
      rfl

theorem Yields.cons {c : Cursor} {ts : List Token} {last : Token} (hkind : c.next.1.kind ≠ .eof)
    (h : c.next.2.Yields ts last) : c.Yields (c.next.1 :: ts) last := by
  have hshorter := length_next_lt hkind
  have hlength := h.length_le
  refine ⟨?_, List.forall_mem_cons.mpr ⟨hkind, h.kind_ne_eof⟩, h.last_eq, ?_, ?_, ?_⟩
  · rw [List.length_cons]
    omega
  · rw [Cursor.tokens, dif_neg hkind, h.tokens, List.cons_append]
  · intro k
    rw [List.length_cons, Nat.add_right_comm, Cursor.pull, h.pull, List.cons_append]
  · intro k
    rw [List.length_cons, Nat.add_right_comm, Cursor.draw, Cursor.next?, h.draw, if_neg hkind]
    rfl

theorem exists_yields (c : Cursor) : ∃ ts last, c.Yields ts last := by
  induction hn : c.rest.length using Nat.strongRecOn generalizing c with
  | ind n ih =>
    rcases c.next_cases with ⟨hkind, -⟩ | ⟨place, hnext⟩
    · have hshorter := length_next_lt hkind
      obtain ⟨ts, last, hrest⟩ := ih _ (by omega) c.next.2 rfl
      exact ⟨_, last, hrest.cons hkind⟩
    · exact ⟨[], _, yields_of_end hnext⟩

end Cursor

/-- In every state that calls of `next` lead to: a call that does not answer end of input takes at
least one character, so that end of input comes after at most as many tokens as there are characters
left. After end of input has been answered, every call answers the same token, which is empty and
ends where it starts, and leaves the cursor as it is. Drawn one by one, the tokens before end of
input come in order and then nothing, however often one asks. -/
theorem reading_ends_for_good (source : String) (n : Nat) :
    let c := (Cursor.ofString source).skip n
    (c.next.1.kind ≠ .eof → ∃ taken, taken ≠ [] ∧ c.rest = taken ++ c.next.2.rest) ∧
    (c.next.1.kind = .eof →
      c.next.1.text = "" ∧ c.next.1.span.first = c.next.1.span.stop ∧
      ∀ k, (c.next.2.skip k).next = c.next ∧ c.next.2.skip k = c.next.2) ∧
    c.rest <:+ source.toList ∧
    ∃ ts last, ts.length ≤ c.rest.length ∧ (∀ t ∈ ts, t.kind ≠ .eof) ∧ last.kind = .eof ∧
      c.tokens = ts ++ [last] ∧
      (∀ k, c.pull (ts.length + k) = ts ++ List.replicate k last) ∧
      ∀ k, c.draw (ts.length + k) = ts.map some ++ List.replicate k none := by
  intro c
  refine ⟨?_, ?_, Cursor.rest_skip_suffix _ n, ?_⟩
  · intro hkind
    rcases c.next_cases with ⟨-, htaken⟩ | ⟨place, hnext⟩
    · exact htaken
    · exact absurd (congrArg (fun r => r.1.kind) hnext) hkind
  · intro hkind
    rcases c.next_cases with ⟨hne, -⟩ | ⟨place, hnext⟩
    · exact absurd hkind hne
    · rw [hnext]
      refine ⟨rfl, rfl, fun k => ?_⟩
      rw [Cursor.skip_exhausted]
      exact ⟨Cursor.next_exhausted place, rfl⟩
  · obtain ⟨ts, last, h⟩ := c.exists_yields
    obtain ⟨place, hlast⟩ := h.last_eq
    refine ⟨ts, last, h.length_le, h.kind_ne_eof, ?_, h.tokens, h.pull, h.draw⟩
    rw [hlast]
    rfl

end Monkey
