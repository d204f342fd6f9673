import Mathlib.Tactic.TypeStar

namespace MiniOS.Lib

variable {α β ε : Type*} {step : α → Option ε → α → Prop} {step' : β → Option ε → β → Prop} {related : α → β → Prop}
  {s t : α} {events : List ε}

/-- A run with the events that its steps show, the latest event last. -/
inductive Trace (step : α → Option ε → α → Prop) (s : α) : List ε → α → Prop
  | start : Trace step s [] s
  | next {t u : α} {events : List ε} {event : Option ε} : Trace step s events t → step t event u →
      Trace step s (events ++ event.toList) u

theorem Trace.silent {u : α} (trace : Trace step s events t) (last : step t none u) :
    Trace step s events u := by
  have longer := trace.next last
  rwa [Option.toList_none, List.append_nil] at longer

/-- If every step is answered by a step with the same event, every run is answered by a run with the same events. -/
theorem Trace.simulates (answers : ∀ {s t event a}, related s a → step s event t → ∃ b, step' a event b ∧ related t b)
    {a : β} (start : related s a) (trace : Trace step s events t) :
    ∃ b, Trace step' a events b ∧ related t b := by
  induction trace with
  | start => exact ⟨a, .start, start⟩
  | next _ last ih =>
    obtain ⟨b, before, related⟩ := ih
    obtain ⟨c, answer, related'⟩ := answers related last
    exact ⟨c, .next before answer, related'⟩

end MiniOS.Lib
