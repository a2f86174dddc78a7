import Monkey.Syntax.Parse

/-!
How much of a stream a reader takes. None of them makes up tokens: what is left is an end of what
was there. Some take at least one token, also when they fail.
-/

namespace Monkey

namespace Parser

variable {α β : Type}

def Trims (p : Parser α) : Prop := ∀ ts, (p ts).rest <:+ ts

/-- Takes the first token of the stream whether it fails or not, and fails if there is none. -/
structure Takes (p : Parser α) : Prop where
  rest : ∀ ts, (p ts).rest <:+ ts.tail
  nil : (p []).value = none

theorem Takes.trims {p : Parser α} (h : Takes p) : Trims p := fun ts =>
  (h.rest ts).trans (List.tail_suffix ts)

theorem bind_of_some {p : Parser α} {ts rest : List Token} {a : α} {ds : List Diagnostic}
    (f : α → Parser β) (h : p ts = ⟨some a, rest, ds⟩) :
    (p >>= f) ts = ⟨(f a rest).value, (f a rest).rest, ds ++ (f a rest).diagnostics⟩ := by
  change Parser.bind p f ts = _
  simp only [Parser.bind, h]

theorem bind_of_none {p : Parser α} {ts rest : List Token} {ds : List Diagnostic}
    (f : α → Parser β) (h : p ts = ⟨none, rest, ds⟩) : (p >>= f) ts = ⟨none, rest, ds⟩ := by
  change Parser.bind p f ts = _
  simp only [Parser.bind, h]

theorem Trims.bind {p : Parser α} {f : α → Parser β} (hp : Trims p) (hf : ∀ a, Trims (f a)) :
    Trims (p >>= f) := by
  intro ts
  have hrest := hp ts
  rcases h : p ts with ⟨_ | a, rest, ds⟩
  · rw [h] at hrest
    rw [bind_of_none f h]
    exact hrest
  · rw [h] at hrest
    rw [bind_of_some f h]
    exact (hf a rest).trans hrest

theorem trims_pure (a : α) : Trims (pure a : Parser α) := fun ts => List.suffix_refl ts

theorem trims_skip : Trims (skip : Parser α) := fun ts => List.suffix_refl ts

theorem Trims.attempt {p : Parser α} (h : Trims p) : Trims (attempt p) := h

theorem trims_expect (kind : TokenKind) : Trims (expect kind) := by
  intro ts
  cases ts with
  | nil => exact List.suffix_refl _
  | cons t ts =>
    simp only [expect]
    split
    · exact List.suffix_cons t ts
    · exact List.suffix_refl _

theorem trims_statementEnd : Trims statementEnd := by
  intro ts
  unfold statementEnd
  split
  · exact List.tail_suffix ts
  · exact List.suffix_refl ts

end Parser

open Monkey.Parser

theorem trims_moreParams : Trims moreParams := by
  intro ts
  fun_induction moreParams ts with
  | case1 => exact List.suffix_refl _
  | case2 c h => exact List.nil_suffix
  | case3 => exact List.suffix_refl _
  | case4 c i ts hc hi q ih => exact ih.trans ((List.suffix_cons i ts).trans (List.suffix_cons c _))
  | case5 c i ts => exact List.suffix_cons c _
  | case6 => exact List.suffix_refl _

theorem trims_params : Trims params := by
  intro ts
  unfold params
  split
  · exact List.tail_suffix ts
  · exact ((trims_expect _).bind fun _ => trims_moreParams.bind fun _ =>
      (trims_expect _).bind fun _ => trims_pure _) ts

end Monkey
