import EventScript.Proofs.Engines

/-!
# Evaluation along a relation

Evaluation reads and allocates, and so follows every relation that tolerates growth, as long as the functions of
the host do.
-/

namespace EventScript

variable {rel : World → World → Prop} [World.Tolerates rel] {read : HandleId → Exec Value}

namespace Exec

@[grind ←]
theorem rootValue_along (s : ScopeId) (key : RootKey) (caret : Nat) : (rootValue s key caret).Along rel :=
  .of_maintains fun _ => rootValue_maintains s key caret

@[grind ←]
theorem childScope_along (parent : ScopeId) (context : Entries Value) (html : String) (blocksLocal : Bool) :
    (childScope parent context html blocksLocal).Along rel :=
  .newScope _ _

end Exec

@[grind ←]
theorem displayOf_along (v : Value) : (displayOf v).Along rel :=
  .of_maintains fun _ => displayOf_maintains v

@[grind ←]
theorem elementsOf_along (v : Value) : (elementsOf v).Along rel :=
  .of_maintains fun _ => elementsOf_maintains v

section Reading

variable (hr : ∀ h, (read h).Along rel)
include hr

@[grind ←]
theorem follow_along (limit : Int) (v : Value) : (follow read limit v).Along rel :=
  .of_maintains fun first => follow_maintains (fun h => (hr h).maintains first) limit v

@[grind ←]
theorem seeThrough_along (resolve : Bool) (v : Value) : (seeThrough read resolve v).Along rel :=
  .of_maintains fun first => seeThrough_maintains (fun h => (hr h).maintains first) resolve v

@[grind ←]
theorem copyFrom_along (resolve : Bool) (fuel : Nat) (active : List Value) (trail : List String) (v : Value) :
    (copyFrom read resolve fuel active trail v).Along rel :=
  .of_maintains fun first => copyFrom_maintains (fun h => (hr h).maintains first) resolve fuel active trail v

@[grind ←]
theorem deepCopy_along (resolve : Bool) (v : Value) : (deepCopy read resolve v).Along rel :=
  .of_maintains fun first => deepCopy_maintains (fun h => (hr h).maintains first) resolve v

theorem Builtin.apply_along (b : Builtin) (args : List Value) : (b.apply read args).Along rel :=
  .of_maintains fun first => Builtin.apply_maintains (fun h => (hr h).maintains first) b args

@[grind ←]
theorem Path.walk_along (limits : Limits) (text : String) (markAbsent : Bool) (parts : List Part) (v : Value) :
    (Path.walk read limits text markAbsent parts v).Along rel :=
  .of_maintains fun first => Path.walk_maintains (fun h => (hr h).maintains first) limits text markAbsent
    (.inr fun _ => trivial) v

end Reading

@[grind ←]
theorem Path.concrete_along {eval : Evaluate} (he : ∀ e scope, (eval e scope).Along rel) (limits : Limits)
    (scope : Option ScopeId) (p : Path) : (Path.concrete eval limits scope p).Along rel :=
  .of_maintains fun first => Path.concrete_maintains (.inr trivial) fun _ _ e _ => (he e scope).maintains first

/-! ### Engines -/

/-- What the host adds to the language follows a relation. -/
structure Embedding.Along (rel : World → World → Prop) (em : Embedding) : Prop where
  native : ∀ name scope v, (em.native name scope v).Along rel
  function : ∀ name vs, (em.function name vs).Along rel

theorem Embedding.plain_along : Embedding.plain.Along rel := ⟨fun _ _ _ => .throw _, fun _ _ => .throw _⟩

omit [World.Tolerates rel] in
theorem Embedding.Along.mono {rel' : World → World → Prop} {em : Embedding} (h : em.Along rel)
    (hrel : ∀ w w', rel w w' → rel' w w') : em.Along rel' :=
  ⟨fun name scope v w => hrel _ _ (h.native name scope v w), fun name vs w => hrel _ _ (h.function name vs w)⟩

/-- Evaluating and reading through handles follow a relation. -/
structure Engine.Along (rel : World → World → Prop) (g : Engine) : Prop where
  eval : ∀ e scope, (g.eval e scope).Along rel
  read : ∀ h, (g.access.read h).Along rel

namespace Engine

theorem Along.maintains {g : Engine} (hg : g.Along rel) (first : World) :
    g.Maintains (World.Since rel first) Fault.Any where
  eval e scope := (hg.eval e scope).maintains first
  read h := (hg.read h).maintains first

section Expressions

variable {g : Engine} (hg : g.Along rel)
include hg

@[grind ←]
theorem through_along (v : Value) : (g.through v).Along rel :=
  .of_maintains fun first => through_maintains (hg.maintains first).read v

@[grind ←]
theorem evalResolved_along (e : Expr) (scope : Option ScopeId) : (g.evalResolved e scope).Along rel :=
  .of_maintains fun first => evalResolved_maintains (hg.maintains first).read ((hg.maintains first).eval e scope)

@[grind ←]
theorem concretePath_along (p : Path) (scope : Option ScopeId) : (g.concretePath p scope).Along rel :=
  .of_maintains fun first => concretePath_maintains (hg.maintains first) p scope

theorem evalNamed_along (mode : String) (e : Expr) (scope : Option ScopeId) :
    (g.evalNamed mode e scope).Along rel := by
  unfold evalNamed
  cases Mode.ofName? mode with
  | none => exact .bind (hg.eval e scope) fun _ => .reject _
  | some m =>
    cases m with
    | natural => exact hg.eval e scope
    | resolve => exact evalResolved_along hg e scope

/-- One level of evaluation follows a relation if the level below does, and so do calls of functions. -/
theorem above_along_of_calls {em : Embedding} (hn : ∀ name scope v, (em.native name scope v).Along rel)
    (hc : ∀ name args scope, (evalNode em g (.call name args) scope).Along rel) : (above em g).Along rel := by
  have habove (first : World) : (above em g).Maintains (World.Since rel first) Fault.Any := by
    apply above_maintains (hg.maintains first)
    · exact fun name scope v => (hn name scope v).maintains first
    · exact fun name args scope => (hc name args scope).maintains first
  exact ⟨fun e scope => .of_maintains fun first => (habove first).eval e scope,
    fun h => .of_maintains fun first => (habove first).read h⟩

end Expressions

variable {em : Embedding}

/-- Evaluation follows a relation if all that it calls does, at every level. -/
theorem level_along_of_calls (hn : ∀ name scope v, (em.native name scope v).Along rel)
    (hc : ∀ g : Engine, g.Along rel → ∀ name args scope, (evalNode em g (.call name args) scope).Along rel) (n : Nat) :
    (level em n).Along rel := by
  induction n with
  | zero => exact ⟨fun _ _ => .throw _, fun _ => .throw _⟩
  | succ n ih => exact above_along_of_calls ih hn (hc _ ih)

variable (hem : em.Along rel)
include hem

theorem level_along (n : Nat) : (level em n).Along rel := by
  apply level_along_of_calls hem.native
  intro g hg name args scope
  apply Exec.Along.of_maintains
  intro first
  exact evalCall_maintains (hg.maintains first) (fun name vs => (hem.function name vs).maintains first) name args scope

theorem full_along : (full em).Along rel := level_along hem depth

end Engine

end EventScript
