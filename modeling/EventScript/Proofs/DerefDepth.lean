import EventScript.Proofs.Engines

/-!
# The limit on dereferences

A text that takes the place of a computed part spells a path in which nothing is computed. So no path leads from one
such text to another, and as long as the limit on dereferences is not negative, no evaluation fails because of it,
except by a function of the host that reports such a failure itself.
-/

namespace EventScript

/-- The limit on dereferences allows the first one. -/
def World.AllowsDeref (w : World) : Prop := 0 ≤ w.limits.derefDepth

namespace Fault

/-- Faults that are not due to the limit on dereferences, and those of a kind. -/
def Excused (R : Fault → Prop) (f : Fault) : Prop := f.isDerefDepth = true → R f

variable {R : Fault → Prop} {f : Fault}

theorem Excused.of_other (h : f.isDerefDepth = false) : f.Excused R := by
  intro hf
  rw [h] at hf
  cases hf

instance : AdmitsCalm (Excused R) := ⟨fun _ h => .of_other h⟩

instance : AdmitsForeign (Excused R) where
  foreign {f} h := by
    apply Excused.of_other
    cases f with
    | unresolved cause => cases h
    | _ => rfl

instance : AdmitsMalformed (Excused R) := ⟨fun _ => .of_other rfl⟩

instance : AdmitsDepth World.AllowsDeref (Excused R) := ⟨fun _ hw => .inl hw⟩

end Fault

instance : World.Survives World.AllowsDeref where
  grown h hw := by
    unfold World.AllowsDeref
    rw [h.limits]
    exact hw

/-- A function of the host fails with a fault. -/
inductive Embedding.Raises (em : Embedding) (f : Fault) : Prop where
  | native {name : String} {scope : Option ScopeId} {v : Value} {w w' : World}
      (h : em.native name scope v w = .error f w') : Raises em f
  | function {name : String} {vs : List Value} {w w' : World} (h : em.function name vs w = .error f w') : Raises em f

/-- No function of the host makes the limit on dereferences negative. -/
structure Embedding.KeepsDepth (em : Embedding) : Prop where
  native : ∀ name scope v (w : World), 0 ≤ w.limits.derefDepth →
    0 ≤ ((em.native name scope v).after w).limits.derefDepth
  function : ∀ name vs (w : World), 0 ≤ w.limits.derefDepth →
    0 ≤ ((em.function name vs).after w).limits.derefDepth

theorem Embedding.plain_keepsDepth : Embedding.plain.KeepsDepth := ⟨fun _ _ _ _ h => h, fun _ _ _ h => h⟩

theorem Embedding.KeepsDepth.maintains {em : Embedding} (hem : em.KeepsDepth) :
    em.Maintains World.AllowsDeref (Fault.Excused em.Raises) where
  native name scope v w hw := ⟨hem.native name scope v w hw, fun _ _ hf _ => .native hf⟩
  function name vs w hw := ⟨hem.function name vs w hw, fun _ _ hf _ => .function hf⟩

namespace Engine

theorem level_allows_derefs {em : Embedding} (hem : em.KeepsDepth) (n : Nat) :
    (level em n).Maintains World.AllowsDeref (Fault.Excused em.Raises) :=
  level_maintains hem.maintains n

/-- Making a path concrete fails because of the limit only if a function of the host reports such a failure. -/
theorem raises_of_concretePath {em : Embedding} (hem : em.KeepsDepth) {p : Path} {scope : Option ScopeId} {w w' : World}
    (hw : 0 ≤ w.limits.derefDepth) {f : Fault} (hf : (full em).concretePath p scope w = .error f w')
    (hlimit : f.isDerefDepth = true) : em.Raises f := by
  have hpath := concretePath_maintains (level_allows_derefs hem depth) p scope
  exact (hpath w hw).2 f w' hf hlimit

end Engine

end EventScript
