import Mathlib
import HuffmanStrings.Bits.Basic

/-!
Calls that are made one after another, also behind one that has failed. What each call keeps, all of them keep, and
what each of them adds to a list is what all of them have added.
-/

namespace HuffmanStrings

structure Call (ι σ ρ : Type) where
  action : ι
  before : σ
  result : EStateM.Result Failure σ ρ

namespace Call

variable {ι σ ρ β : Type}

/-- The state that a call leaves behind, be it that it fails. -/
def after (call : Call ι σ ρ) : σ :=
  match call.result with
  | .ok _ s => s
  | .error _ s => s

section Sequences

variable (perform : ι → EStateM Failure σ ρ)

def make (s : σ) (action : ι) : Call ι σ ρ where
  action
  before := s
  result := perform action s

def makeAll : List ι → σ → List (Call ι σ ρ)
  | [], _ => []
  | action :: later, s => make perform s action :: makeAll later (make perform s action).after

def finish : List ι → σ → σ
  | [], s => s
  | action :: later, s => finish later (make perform s action).after

end Sequences

variable {perform : ι → EStateM Failure σ ρ} {Holds : σ → Prop} {s : σ}

theorem holds_finish (step : ∀ s action, Holds s → Holds (make perform s action).after) (actions : List ι)
    (holds : Holds s) : Holds (finish perform actions s) := by
  induction actions generalizing s with
  | nil => exact holds
  | cons action later ih => exact ih (step s action holds)

theorem forall_makeAll {Sound : Call ι σ ρ → Prop} (step : ∀ s action, Holds s → Holds (make perform s action).after)
    (sound : ∀ s action, Holds s → Sound (make perform s action)) (actions : List ι) (holds : Holds s) :
    ∀ call ∈ makeAll perform actions s, Sound call := by
  induction actions generalizing s with
  | nil => exact fun _ none => absurd none (List.not_mem_nil)
  | cons action later ih => exact List.forall_mem_cons.2 ⟨sound s action holds, ih (step s action holds)⟩

theorem view_finish (view : σ → List β) {part : Call ι σ ρ → List β}
    (step : ∀ s action, Holds s → Holds (make perform s action).after)
    (adds : ∀ s action, Holds s → view (make perform s action).after = view s ++ part (make perform s action))
    (actions : List ι) (holds : Holds s) :
    view (finish perform actions s) = view s ++ (makeAll perform actions s).flatMap part := by
  induction actions generalizing s with
  | nil => exact (List.append_nil _).symm
  | cons action later ih =>
    rw [finish, ih (step s action holds), adds s action holds, makeAll, List.flatMap_cons, List.append_assoc]

end Call

end HuffmanStrings
