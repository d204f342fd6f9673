import Mathlib.Logic.Relation

namespace MiniOS.Lib

open Relation

variable {α β : Type*} {step : α → α → Prop} {step' : β → β → Prop} {good : α → Prop} {s t : α}

/-- What the start satisfies and every step keeps holds in every state that a run reaches. -/
theorem run_induction (keeps : ∀ {s t}, good s → step s t → good t) (start : good s)
    (run : ReflTransGen step s t) : good t := by
  induction run with
  | refl => exact start
  | tail _ last ih => exact keeps ih last

/-- If every step from a good state is answered by a run of another system, so is every run. -/
theorem run_simulation {f : α → β} (keeps : ∀ {s t}, good s → step s t → good t)
    (answers : ∀ {s t}, good s → step s t → ReflTransGen step' (f s) (f t)) (start : good s)
    (run : ReflTransGen step s t) : ReflTransGen step' (f s) (f t) := by
  induction run with
  | refl => exact .refl
  | tail before last ih => exact ih.trans (answers (run_induction keeps start before) last)

end MiniOS.Lib
