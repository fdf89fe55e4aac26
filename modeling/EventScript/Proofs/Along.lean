import EventScript.Proofs.Growth

/-!
# Computations along a relation

What a computation does to the world, whatever it gives and whether it fails or not, as a relation between the
worlds before and after. A relation that tolerates growth is kept by everything that only reads and allocates.
-/

namespace EventScript

/-- A relation between worlds that composes and holds between a world and one that has grown from it. -/
class World.Tolerates (rel : World → World → Prop) : Prop where
  trans : ∀ {a b c}, rel a b → rel b c → rel a c
  grown : ∀ {a b : World}, a.Grown b → rel a b

theorem World.Tolerates.refl {rel : World → World → Prop} [Tolerates rel] (w : World) : rel w w :=
  grown (.refl w)

instance : World.Tolerates World.Grown where
  trans := .trans
  grown h := h

namespace Exec

variable {α β ε : Type} {rel : World → World → Prop}

/-- The world that a computation leaves behind, whether it fails or not. -/
def after (x : Exec α) (w : World) : World :=
  match x w with
  | .ok _ w' => w'
  | .error _ w' => w'

/-- Whatever world a computation starts in, the one it leaves behind is related to it. -/
def Along (rel : World → World → Prop) (x : Exec α) : Prop := ∀ w, rel w (x.after w)

theorem after_ok {x : Exec α} {w w' : World} {a : α} (h : x w = .ok a w') : x.after w = w' := by
  unfold after
  rw [h]

theorem after_error {x : Exec α} {w w' : World} {e : Fault} (h : x w = .error e w') :
    x.after w = w' := by
  unfold after
  rw [h]

theorem bind_ok {x : Exec α} {f : α → Exec β} {w w' : World} {a : α} (h : x w = .ok a w') :
    (x >>= f) w = f a w' := by
  change EStateM.bind x f w = _
  simp only [EStateM.bind, h]

theorem bind_eq_ok {x : Exec α} {f : α → Exec β} {w w' : World} {b : β} (h : (x >>= f) w = .ok b w') :
    ∃ a w₁, x w = .ok a w₁ ∧ f a w₁ = .ok b w' := by
  cases hx : x w with
  | ok a w₁ =>
    rw [bind_ok hx] at h
    exact ⟨a, w₁, rfl, h⟩
  | error e w₁ =>
    change EStateM.bind x f w = _ at h
    simp only [EStateM.bind, hx, reduceCtorEq] at h

theorem bind_error {x : Exec α} {f : α → Exec β} {w w' : World} {e : Fault} (h : x w = .error e w') :
    (x >>= f) w = .error e w' := by
  change EStateM.bind x f w = _
  simp only [EStateM.bind, h]

theorem after_bind [World.Tolerates rel] {x : Exec α} {f : α → Exec β} {w : World} (hx : rel w (x.after w))
    (hf : ∀ a w', x w = .ok a w' → rel w' ((f a).after w')) : rel w ((x >>= f).after w) := by
  cases h : x w with
  | ok a w' =>
    rw [after_ok h] at hx
    unfold after
    rw [bind_ok h]
    exact World.Tolerates.trans hx (hf a w' h)
  | error e w' =>
    rw [after_error h] at hx
    rw [after_error (bind_error h)]
    exact hx

theorem store_bind (f : Store → Exec β) (w : World) : (Exec.store >>= f) w = f w.store w := rfl

theorem tryCatch_ok {x : Exec α} {f : Fault → Exec α} {w w' : World} {a : α} (h : x w = .ok a w') :
    tryCatch x f w = .ok a w' := by
  change EStateM.tryCatch x f w = _
  delta EStateM.tryCatch
  rw [h]

theorem tryCatch_error {x : Exec α} {f : Fault → Exec α} {w w' : World} {e : Fault} (h : x w = .error e w') :
    tryCatch x f w = f e w' := by
  change EStateM.tryCatch x f w = _
  delta EStateM.tryCatch
  rw [h]
  rfl

theorem after_tryCatch [World.Tolerates rel] {x : Exec α} {f : Fault → Exec α} {w : World} (hx : rel w (x.after w))
    (hf : ∀ e w', x w = .error e w' → rel w' ((f e).after w')) : rel w ((tryCatch x f).after w) := by
  cases h : x w with
  | ok a w' =>
    rw [after_ok h] at hx
    rw [after_ok (tryCatch_ok h)]
    exact hx
  | error e w' =>
    rw [after_error h] at hx
    unfold after
    rw [tryCatch_error h]
    exact World.Tolerates.trans hx (hf e w' h)

namespace Along

variable [World.Tolerates rel]

open World.Tolerates (trans grown)

theorem of_grown {x : Exec α} (h : ∀ w : World, w.Grown (x.after w)) : x.Along rel := fun w => grown (h w)

@[grind ←]
theorem pure (a : α) : Along rel (Pure.pure a) := fun w => World.Tolerates.refl w

@[grind ←]
theorem throw (e : Fault) : Along rel (MonadExcept.throw e : Exec α) := fun w => World.Tolerates.refl w

@[grind ←]
theorem get : Along rel (MonadState.get : Exec World) := fun w => World.Tolerates.refl w

@[grind ←]
theorem store : Along rel Exec.store := fun w => World.Tolerates.refl w

@[grind ←]
theorem fail (cause : Unresolved) : Along rel (Exec.fail cause : Exec α) := fun w => World.Tolerates.refl w

@[grind ←]
theorem reject (cause : Malformed) : Along rel (Exec.reject cause : Exec α) := fun w => World.Tolerates.refl w

omit [World.Tolerates rel] in
theorem modify {f : World → World} (h : ∀ w, rel w (f w)) : (modify f : Exec Unit).Along rel := h

@[grind ←]
theorem ofExcept (f : ε → Fault) (x : Except ε α) : Along rel (Exec.ofExcept f x) := by
  cases x with
  | ok a => exact pure a
  | error e => exact throw (f e)

@[grind ←]
theorem bind {x : Exec α} {f : α → Exec β} (hx : x.Along rel) (hf : ∀ a, (f a).Along rel) :
    (x >>= f).Along rel := fun w => after_bind (hx w) fun a w' _ => hf a w'

@[grind ←]
theorem map {x : Exec α} (f : α → β) (hx : x.Along rel) : (f <$> x).Along rel :=
  bind hx fun a => pure (f a)

theorem guard {c : Prop} [Decidable c] {x : Exec β} {y : Exec α} (hx : x.Along rel) (hy : y.Along rel) :
    (if c then x >>= fun _ => y else y).Along rel := by
  split
  · exact bind hx fun _ => hy
  · exact hy

theorem choose {c : Prop} [Decidable c] {x y : Exec α} {f : α → Exec β} (hx : x.Along rel) (hy : y.Along rel)
    (hf : ∀ a, (f a).Along rel) : (if c then x >>= f else y >>= f).Along rel := by
  split
  · exact bind hx hf
  · exact bind hy hf

@[grind ←]
theorem mapM {f : α → Exec β} (hf : ∀ a, (f a).Along rel) (xs : List α) : (xs.mapM f).Along rel := by
  induction xs with
  | nil => exact pure []
  | cons x rest ih =>
    rw [List.mapM_cons]
    exact bind (hf x) fun _ => bind ih fun _ => pure _

@[grind ←]
theorem forIn {f : α → β → Exec (ForInStep β)} (hf : ∀ a b, (f a b).Along rel) (xs : List α) (b : β) :
    (ForIn.forIn xs b f).Along rel := by
  induction xs generalizing b with
  | nil => exact pure b
  | cons x rest ih =>
    rw [List.forIn_cons]
    refine bind (hf x b) fun s => ?_
    cases s with
    | done b => exact pure b
    | yield b => exact ih b

section Primitives

variable {make : Store → α × Store}

theorem allocate (h : ∀ s : Store, s.Grown (make s).2) : (Exec.allocate make).Along rel :=
  .of_grown fun w => .ofStore (h w.store)

theorem allocateObject (es : Entries Value) : (Exec.allocate (·.newObject es)).Along rel :=
  .allocate (Store.Grown.newObject · es)

@[grind ←]
theorem newArray (xs : Array Value) : (Exec.newArray xs).Along rel :=
  .map _ (.allocate (Store.Grown.newArray · xs))

@[grind ←]
theorem newObject (es : Entries Value) : (Exec.newObject es).Along rel :=
  .map _ (.allocateObject es)

@[grind ←]
theorem newError (e : ErrorRecord) : (Exec.newError e).Along rel :=
  .allocate (Store.Grown.newError · e)

@[grind ←]
theorem log (level : LogLevel) (text : String) : (Exec.log level text).Along rel :=
  .of_grown fun w => { World.Grown.refl w with }

@[grind ←]
theorem debugLine (parts : List String) : (Exec.debugLine parts).Along rel := by
  refine .of_grown fun w => ?_
  change w.Grown (if w.debug then _ else w)
  split
  · exact { World.Grown.refl w with }
  · exact .refl w

@[grind ←]
theorem newScope (s : Scope) (context : Entries Value) : (Exec.newScope s context).Along rel :=
  .bind (.allocateObject context) fun _ =>
    .of_grown fun w => { World.Grown.refl w with scopes := prefix_push _ _ }

end Primitives

end Along

end Exec

end EventScript
