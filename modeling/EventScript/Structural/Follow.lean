import EventScript.Scope

/-!
# Following handles

A handle may lead to another one. A chain of handles is followed to a value that is none, for a limited number of
steps.
-/

namespace EventScript

/-- The limit on chains of handles where none is configured. -/
def defaultHandleDepth : Int := ({} : Limits).handleDepth

/-- Follows at most `steps` handles. -/
def followFrom (read : HandleId → Exec Value) (limit : Int) : (steps : Nat) → Value → Exec Value
  | 0, .handle _ => Exec.fail (.handleDepth limit)
  | steps + 1, .handle h => do followFrom read limit steps (← read h)
  | _, v => pure v

/-- The value at the end of a chain of handles, which may not be longer than the limit. -/
def follow (read : HandleId → Exec Value) (limit : Int) (v : Value) : Exec Value :=
  followFrom read limit limit.toNat v

theorem follow_of_not_handle (read : HandleId → Exec Value) (limit : Int) (v : Value)
    (h : ∀ x, v ≠ .handle x) : follow read limit v = pure v := by
  unfold follow
  cases v with
  | handle x => exact absurd rfl (h x)
  | _ => cases limit.toNat <;> rfl

end EventScript
