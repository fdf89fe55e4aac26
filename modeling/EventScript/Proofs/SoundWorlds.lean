import EventScript.Proofs.ConcretePaths
import EventScript.Proofs.Engines

/-!
# Well-formed expressions and sound worlds

Expressions are well formed if each operator has the operands that it needs and each path has a root at its beginning
alone. A world is sound if its function values and handles are of this kind. It stays sound where values of other kinds
are made, and where a handle along a well-formed path or a function value with a well-formed body is.
-/

namespace EventScript

mutual

/-- A part that may stand after the root of a path. -/
inductive Part.WellFormed : Part → Prop where
  | key (k : String) : Part.WellFormed (.key k)
  | index (i : Int) : Part.WellFormed (.index i)
  | dyn {e : Expr} (h : e.WellFormed) : Part.WellFormed (.dyn e)
  | deref {e : Expr} (h : e.WellFormed) : Part.WellFormed (.deref e)

/-- A path with a root at its beginning alone, all of whose expressions are well formed. -/
inductive Path.WellFormed : Path → Prop where
  | root (r : Root) {parts : List Part} (h : ∀ q ∈ parts, q.WellFormed) : Path.WellFormed (.mk (.root r) parts)
  | deref {e : Expr} {parts : List Part} (he : e.WellFormed) (h : ∀ q ∈ parts, q.WellFormed) :
      Path.WellFormed (.mk (.deref e) parts)

/-- An expression in which every operator has the operands that it needs, and every path is well formed. -/
inductive Expr.WellFormed : Expr → Prop where
  | literal (v : Value) : Expr.WellFormed (.literal v)
  | path {p : Path} (h : p.WellFormed) : Expr.WellFormed (.path p)
  | array {items : List Expr} (h : ∀ e ∈ items, e.WellFormed) : Expr.WellFormed (.array items)
  | object {entries : List (Expr × Expr)} (keys : ∀ e ∈ entries, e.1.WellFormed)
      (values : ∀ e ∈ entries, e.2.WellFormed) : Expr.WellFormed (.object entries)
  | range {first last : Expr} (h : first.WellFormed) (h' : last.WellFormed) : Expr.WellFormed (.range first last)
  | op {o : Operator} {operands : List Expr} (takes : o.takes operands.length = true)
      (h : ∀ e ∈ operands, e.WellFormed) : Expr.WellFormed (.op o operands)
  | call (name : String) {args : List Expr} (h : ∀ e ∈ args, e.WellFormed) : Expr.WellFormed (.call name args)
  | format {e : Expr} {args : Option Expr} (he : e.WellFormed) (ha : ∀ a ∈ args, a.WellFormed) :
      Expr.WellFormed (.format e args)
  | ref {p : Path} (h : p.WellFormed) : Expr.WellFormed (.ref p)
  | isRef {e : Expr} (h : e.WellFormed) : Expr.WellFormed (.isRef e)
  | refInfo {e : Expr} (h : e.WellFormed) : Expr.WellFormed (.refInfo e)
  | invoke {e : Expr} {params : Option Expr} (he : e.WellFormed) (hp : ∀ p ∈ params, p.WellFormed) :
      Expr.WellFormed (.invoke e params)
  | lambda {body : Expr} (h : body.WellFormed) : Expr.WellFormed (.lambda body)

end

/-- All function values of a world have well-formed bodies, and all handles lead along well-formed paths: from a scope,
or along keys and indices into a cell. -/
structure World.Sound (w : World) : Prop where
  lambda : ∀ l body own, w.store.lambda l = .closure body own → body.WellFormed
  bound : ∀ h p scope, w.store.handle h = .bound p scope → p.WellFormed ∧ scope.isSome = true
  rooted : ∀ h cell p, w.store.handle h = .rooted cell p → ∀ q ∈ p.rest, q.isSpelled = true

/-- In a sound world, a computation leaves a sound world behind, and if it fails, with a fault of a kind. -/
def Exec.FailsWith {α : Type} (E : Fault → Prop) (x : Exec α) : Prop :=
  ∀ w : World, w.Sound → (x.after w).Sound ∧ ∀ f w', x w = .error f w' → E f

theorem World.Sound.of_same {w w' : World} (h : w.Sound) (hl : w'.store.lambdas = w.store.lambdas)
    (hh : w'.store.handles = w.store.handles) : w'.Sound where
  lambda l := by
    unfold Store.lambda
    rw [hl]
    exact h.lambda l
  bound x := by
    unfold Store.handle
    rw [hh]
    exact h.bound x
  rooted x := by
    unfold Store.handle
    rw [hh]
    exact h.rooted x

instance : World.Lasts World.Sound := ⟨fun h hw => hw.of_same h.lambdas h.handles⟩

instance : Fault.Reports Fault.IsMild Fault.IsCalm where
  of_eval := Fault.IsCalm.mild
  of_own h hown := .soft (h hown)

theorem Exec.failsWith_iff {α : Type} {E : Fault → Prop} {x : Exec α} :
    x.FailsWith E ↔ x.Maintains World.Sound E := Iff.rfl

namespace Exec.Maintains

variable {E : Fault → Prop}

/-- A handle along a well-formed path in a scope keeps the world sound. -/
theorem newBound {p : Path} (hp : p.WellFormed) (s : ScopeId) :
    (Exec.newHandle (.bound p (some s))).Maintains World.Sound E := by
  refine total fun w => ⟨_, _, rfl, fun hw => ?_⟩
  have hnew (x : HandleId) : (w.store.newHandle (.bound p (some s))).2.handle x = .bound p (some s) ∨
      (w.store.newHandle (.bound p (some s))).2.handle x = w.store.handle x := getD_push_cases _ _ _ _
  constructor
  · exact hw.lambda
  · intro x q scope hx
    rcases hnew x with h | h
    · cases h.symm.trans hx
      exact ⟨hp, rfl⟩
    · exact hw.bound x q scope (h.symm.trans hx)
  · intro x cell q hx
    rcases hnew x with h | h
    · cases h.symm.trans hx
    · exact hw.rooted x cell q (h.symm.trans hx)

theorem newClosure {body : Expr} (h : body.WellFormed) (own : Option ScopeId) :
    (Exec.newLambda (.closure body own)).Maintains World.Sound E := by
  refine total fun w => ⟨_, _, rfl, fun hw => ?_⟩
  constructor
  · intro l body' own' hl
    rcases getD_push_cases w.store.lambdas (.closure body own) default l with hn | hn
    · cases hn.symm.trans hl
      exact h
    · exact hw.lambda l body' own' (hn.symm.trans hl)
  · exact hw.bound
  · exact hw.rooted

end Exec.Maintains

end EventScript
