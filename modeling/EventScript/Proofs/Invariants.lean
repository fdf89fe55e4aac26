import EventScript.Proofs.Along

/-!
# Invariants of computations

What a computation leaves of a world and what it fails with, as one notion: it maintains an invariant of worlds, and
where it fails, it does so with a fault of some kind. A relation that a computation follows is the case of the
invariants that say what the world has come from. The laws below say what is maintained by the parts of a computation
and by all of it, for every invariant that allocation leaves intact.
-/

namespace EventScript

/-! ### Kinds of faults -/

namespace Fault

/-- Any fault at all. -/
def Any (_ : Fault) : Prop := True

/-- Faults that the call of a function turns into soft ones: they are soft, or not of the language. -/
def IsMild (f : Fault) : Prop := f.isOwn = true → f.isSoft = true

/-- Faults of evaluation: soft ones, numbers out of the range of floating point numbers or with too many digits for a
text, and nesting too deep. -/
inductive IsCalm : Fault → Prop where
  | soft {f : Fault} (h : f.isSoft = true) : IsCalm f
  | overflow (cause : Number.Overflow) : IsCalm (.overflow cause)
  | digits (cause : Number.TooLong) : IsCalm (.digits cause)
  | tooDeep (cause : TooDeep) : IsCalm (.tooDeep cause)

/-- Whether a path had more dereferences than the limit allows. -/
abbrev isDerefDepth : Fault → Bool
  | .unresolved (.derefDepth _) => true
  | _ => false

/-- A kind of faults that contains those of evaluation, except perhaps that a path has too many dereferences. -/
class AdmitsCalm (E : Fault → Prop) : Prop where
  calm : ∀ {f : Fault}, f.IsCalm → f.isDerefDepth = false → E f

/-- A kind of faults that contains all that are not of the language. -/
class AdmitsForeign (E : Fault → Prop) : Prop where
  foreign : ∀ {f : Fault}, f.isOwn = false → E f

/-- A kind of faults that contains those of construction. -/
class AdmitsMalformed (E : Fault → Prop) : Prop where
  malformed : ∀ cause, E (.malformed cause)

/-- A kind of faults that contains those of numbers with too many digits. -/
class AdmitsDigits (E : Fault → Prop) : Prop where
  digits : ∀ cause, E (.digits cause)

instance {E : Fault → Prop} [AdmitsCalm E] : AdmitsDigits E := ⟨fun cause => AdmitsCalm.calm (.digits cause) rfl⟩
instance {E : Fault → Prop} [AdmitsForeign E] : AdmitsDigits E := ⟨fun _ => AdmitsForeign.foreign rfl⟩

instance : AdmitsCalm Any := ⟨fun _ _ => trivial⟩
instance : AdmitsForeign Any := ⟨fun _ => trivial⟩
instance : AdmitsMalformed Any := ⟨fun _ => trivial⟩

instance : AdmitsCalm IsCalm := ⟨fun h _ => h⟩

theorem IsCalm.mild {f : Fault} (h : f.IsCalm) : f.IsMild := by
  cases h with
  | soft h => exact fun _ => h
  | overflow | digits | tooDeep => exact nofun

instance : AdmitsCalm IsMild := ⟨fun h _ => h.mild⟩

instance : AdmitsForeign IsMild := ⟨fun {f} h ho => by rw [h] at ho; cases ho⟩

end Fault

/-! ### Invariants of worlds -/

namespace World

/-- A world that has been added to, but for handles and function values. -/
structure Enlarged (w w' : World) : Prop extends w.Grown w' where
  lambdas : w'.store.lambdas = w.store.lambdas
  handles : w'.store.handles = w.store.handles

/-- An invariant that stays when values are added that are neither handles nor function values. -/
class Lasts (I : World → Prop) : Prop where
  enlarged : ∀ {w w' : World}, w.Enlarged w' → I w → I w'

/-- An invariant that stays whatever is added. -/
class Survives (I : World → Prop) : Prop where
  grown : ∀ {w w' : World}, w.Grown w' → I w → I w'

instance {I : World → Prop} [Survives I] : Lasts I := ⟨fun h => Survives.grown h.toGrown⟩

/-- What has come from a world along a relation. -/
def Since (rel : World → World → Prop) (first : World) : World → Prop := rel first

instance {rel : World → World → Prop} [Tolerates rel] (first : World) : Survives (Since rel first) where
  grown {_ w'} h hw := show rel first w' from Tolerates.trans hw (Tolerates.grown h)

theorem Enlarged.ofStore {w : World} {s : Store} (h : w.store.Grown s) (hl : s.lambdas = w.store.lambdas)
    (hh : s.handles = w.store.handles) : w.Enlarged { w with store := s } where
  toGrown := .ofStore h
  lambdas := hl
  handles := hh

end World

/-- From a world with an invariant, a computation leaves a world with the invariant behind, and if it fails, with a
fault of a kind. -/
def Exec.Maintains {α : Type} (I : World → Prop) (E : Fault → Prop) (x : Exec α) : Prop :=
  ∀ w : World, I w → I (x.after w) ∧ ∀ f w', x w = .error f w' → E f

namespace Exec

variable {α β ε : Type} {I : World → Prop} {E E' : Fault → Prop}

section Relations

variable {rel : World → World → Prop} [World.Tolerates rel] {x : Exec α}

theorem Along.maintains (h : x.Along rel) (first : World) : x.Maintains (World.Since rel first) Fault.Any := by
  intro w hw
  have hfirst : rel first (x.after w) := World.Tolerates.trans hw (h w)
  exact ⟨hfirst, fun _ _ _ => trivial⟩

theorem Along.of_maintains (h : ∀ first, x.Maintains (World.Since rel first) Fault.Any) : x.Along rel := by
  intro w
  have hw : rel w w := World.Tolerates.refl w
  exact (h w w hw).1

end Relations

namespace Maintains

theorem mono {x : Exec α} (h : x.Maintains I E) (hE : ∀ f, E f → E' f) : x.Maintains I E' := fun w hw =>
  ⟨(h w hw).1, fun f w' hf => hE f ((h w hw).2 f w' hf)⟩

theorem total {x : Exec α} (h : ∀ w, ∃ a w', x w = .ok a w' ∧ (I w → I w')) : x.Maintains I E := by
  intro w hw
  obtain ⟨a, w', hx, hs⟩ := h w
  rw [after_ok hx, hx]
  exact ⟨hs hw, fun _ _ hf => by cases hf⟩

@[grind ←]
theorem pure (a : α) : Maintains I E (Pure.pure a) := total fun w => ⟨a, w, rfl, id⟩

@[grind ←]
theorem get : Maintains I E (MonadState.get : Exec World) := total fun w => ⟨w, w, rfl, id⟩

@[grind ←]
theorem store : Maintains I E Exec.store := total fun w => ⟨w.store, w, rfl, id⟩

theorem throw {f : Fault} (h : E f) : Maintains I E (MonadExcept.throw f : Exec α) := by
  refine fun w hw => ⟨hw, fun f' w' hf => ?_⟩
  cases hf
  exact h

theorem ofExcept {f : ε → Fault} (h : ∀ e, E (f e)) (x : Except ε α) : Maintains I E (Exec.ofExcept f x) := by
  cases x with
  | ok a => exact pure a
  | error e => exact throw (h e)

theorem bindOk {x : Exec α} {f : α → Exec β} (hx : x.Maintains I E)
    (hf : ∀ a w w', x w = .ok a w' → (f a).Maintains I E) : (x >>= f).Maintains I E := by
  intro w hw
  obtain ⟨hs, he⟩ := hx w hw
  cases h : x w with
  | ok a w₁ =>
    rw [after_ok h] at hs
    unfold after
    rw [bind_ok h]
    exact hf a w w₁ h w₁ hs
  | error e w₁ =>
    rw [after_error h] at hs
    rw [after_error (bind_error h), bind_error h]
    refine ⟨hs, fun f w' hf => ?_⟩
    cases hf
    exact he e w₁ h

@[grind ←]
theorem bind {x : Exec α} {f : α → Exec β} (hx : x.Maintains I E) (hf : ∀ a, (f a).Maintains I E) :
    (x >>= f).Maintains I E := bindOk hx fun a _ _ _ => hf a

@[grind ←]
theorem map {x : Exec α} (f : α → β) (hx : x.Maintains I E) : (f <$> x).Maintains I E :=
  bind hx fun a => pure (f a)

theorem guard {c : Prop} [Decidable c] {x : Exec β} {y : Exec α} (hx : c → x.Maintains I E) (hy : y.Maintains I E) :
    (if c then x >>= fun _ => y else y).Maintains I E := by
  split
  · exact bind (hx ‹_›) fun _ => hy
  · exact hy

theorem bindGet {f : World → Exec β} (hf : ∀ w, I w → (f w).Maintains I E) :
    ((MonadState.get : Exec World) >>= f).Maintains I E := fun w hw => hf w hw w hw

theorem bindStore {f : Store → Exec β} (hf : ∀ w : World, I w → (f w.store).Maintains I E) :
    (Exec.store >>= f).Maintains I E := fun w hw => hf w hw w hw

/-- What a computation fails with is what is done about its faults fails with. -/
theorem tryCatch {x : Exec α} {f : Fault → Exec α} (hx : x.Maintains I E')
    (hf : ∀ e, E' e → (f e).Maintains I E) : (MonadExcept.tryCatch x f).Maintains I E := by
  intro w hw
  obtain ⟨hs, he⟩ := hx w hw
  cases h : x w with
  | ok a w₁ =>
    rw [after_ok h] at hs
    rw [after_ok (tryCatch_ok h), tryCatch_ok h]
    exact ⟨hs, fun _ _ hf => by cases hf⟩
  | error e w₁ =>
    rw [after_error h] at hs
    unfold after
    rw [tryCatch_error h]
    exact hf e (he e w₁ h) w₁ hs

@[grind ←]
theorem mapM {f : α → Exec β} {xs : List α} (hf : ∀ a ∈ xs, (f a).Maintains I E) : (xs.mapM f).Maintains I E := by
  induction xs with
  | nil => exact pure []
  | cons x rest ih =>
    obtain ⟨hx, hrest⟩ := List.forall_mem_cons.mp hf
    rw [List.mapM_cons]
    exact bind hx fun _ => bind (ih hrest) fun _ => pure _

@[grind ←]
theorem foldlM {f : β → α → Exec β} (hf : ∀ b a, (f b a).Maintains I E) (b : β) (xs : List α) :
    (xs.foldlM f b).Maintains I E := by
  induction xs generalizing b with
  | nil => exact pure b
  | cons x rest ih =>
    rw [List.foldlM_cons]
    exact bind (hf b x) ih

/-! ### Making things -/

section Things

variable [World.Lasts I]

open World (Enlarged)

theorem of_enlarged {x : Exec α} (h : ∀ w, ∃ a w', x w = .ok a w' ∧ w.Enlarged w') : x.Maintains I E := by
  refine total fun w => ?_
  obtain ⟨a, w', hx, hw⟩ := h w
  exact ⟨a, w', hx, World.Lasts.enlarged hw⟩

theorem allocate {make : Store → α × Store} (h : ∀ s : Store, s.Grown (make s).2)
    (hl : ∀ s, (make s).2.lambdas = s.lambdas) (hh : ∀ s, (make s).2.handles = s.handles) :
    (Exec.allocate make).Maintains I E :=
  of_enlarged fun w => ⟨_, _, rfl, .ofStore (h w.store) (hl w.store) (hh w.store)⟩

@[grind ←]
theorem newArray (xs : Array Value) : (Exec.newArray xs).Maintains I E :=
  map _ (allocate (Store.Grown.newArray · xs) (fun _ => rfl) fun _ => rfl)

theorem allocateObject (es : Entries Value) : (Exec.allocate (·.newObject es)).Maintains I E :=
  allocate (Store.Grown.newObject · es) (fun _ => rfl) fun _ => rfl

@[grind ←]
theorem newObject (es : Entries Value) : (Exec.newObject es).Maintains I E := map _ (allocateObject es)

@[grind ←]
theorem newBlob (b : Blob) : (Exec.newBlob b).Maintains I E :=
  map _ (allocate (Store.Grown.newBlob · b) (fun _ => rfl) fun _ => rfl)

@[grind ←]
theorem newNodes (ns : List Node) : (Exec.newNodes ns).Maintains I E :=
  map _ (allocate (Store.Grown.newNodeList · ns) (fun _ => rfl) fun _ => rfl)

theorem newView (scope : ScopeId) : (Exec.allocate (·.newView scope)).Maintains I E :=
  allocate (Store.Grown.newView · scope) (fun _ => rfl) fun _ => rfl

@[grind ←]
theorem freshNan : Exec.freshNan.Maintains I E :=
  of_enlarged fun w => ⟨_, _, rfl, { World.Grown.refl w with lambdas := rfl, handles := rfl }⟩

@[grind ←]
theorem debugLine (parts : List String) : (Exec.debugLine parts).Maintains I E := by
  refine of_enlarged fun w => ⟨(), _, rfl, ?_⟩
  dsimp only
  split <;> exact { World.Grown.refl w with lambdas := rfl, handles := rfl }

@[grind ←]
theorem newScope (s : Scope) (context : Entries Value) : (Exec.newScope s context).Maintains I E :=
  bind (allocateObject context) fun _ =>
    of_enlarged fun w => ⟨_, _, rfl, { World.Grown.refl w with
      scopes := prefix_push _ _
      lambdas := rfl
      handles := rfl }⟩

omit [World.Lasts I] in
theorem of_grown [World.Survives I] {x : Exec α} (h : ∀ w, ∃ a w', x w = .ok a w' ∧ w.Grown w') :
    x.Maintains I E := by
  refine total fun w => ?_
  obtain ⟨a, w', hx, hw⟩ := h w
  exact ⟨a, w', hx, World.Survives.grown hw⟩

omit [World.Lasts I] in
@[grind ←]
theorem newHandle [World.Survives I] (h : Handle) : (Exec.newHandle h).Maintains I E :=
  of_grown fun w => ⟨_, _, rfl, .ofStore (Store.Grown.newHandle w.store h)⟩

omit [World.Lasts I] in
@[grind ←]
theorem newLambda [World.Survives I] (l : Lambda) : (Exec.newLambda l).Maintains I E :=
  of_grown fun w => ⟨_, _, rfl, .ofStore (Store.Grown.newLambda w.store l)⟩

end Things

/-! ### Failing -/

section Digits

variable [Fault.AdmitsDigits E]

@[grind ←]
theorem digits (x : Except Number.TooLong α) : Maintains I E (Exec.ofExcept .digits x) :=
  ofExcept Fault.AdmitsDigits.digits x

@[grind ←]
theorem checkWritten (long : Bool) : Maintains I E (Exec.checkWritten long) := by
  cases long with
  | true => exact throw (Fault.AdmitsDigits.digits _)
  | false => exact pure ()

@[grind ←]
theorem numberOf (v : Value) : Maintains I E (Exec.numberOf v) := bind (digits _) fun _ => pure _

end Digits

section Evaluation

variable [Fault.AdmitsCalm E]

@[grind ←]
theorem fail {cause : Unresolved} (h : (Fault.unresolved cause).isDerefDepth = false) :
    Maintains I E (Exec.fail cause : Exec α) := by
  unfold Exec.fail
  rcases Fault.refusal_cases cause with hc | hc
  · rw [hc]
    exact throw (Fault.AdmitsCalm.calm (.soft rfl) h)
  · rw [hc]
    exact throw (Fault.AdmitsDigits.digits _)

@[grind ←]
theorem overflow (x : Except Number.Overflow α) : Maintains I E (Exec.ofExcept .overflow x) :=
  ofExcept (fun e => Fault.AdmitsCalm.calm (.overflow e) rfl) x

@[grind ←]
theorem tooDeep (cause : TooDeep) : Maintains I E (MonadExcept.throw (.tooDeep cause) : Exec α) :=
  throw (Fault.AdmitsCalm.calm (.tooDeep cause) rfl)

@[grind ←]
theorem cycle (trail : List String) : Maintains I E (MonadExcept.throw (.cycle trail) : Exec α) :=
  throw (Fault.AdmitsCalm.calm (.soft rfl) rfl)

end Evaluation

section Foreign

variable [Fault.AdmitsForeign E]

theorem foreign {f : Fault} (h : f.isOwn = false) : Maintains I E (MonadExcept.throw f : Exec α) :=
  throw (Fault.AdmitsForeign.foreign h)

theorem ofForeign {f : ε → Fault} (h : ∀ e, (f e).isOwn = false) (x : Except ε α) :
    Maintains I E (Exec.ofExcept f x) := ofExcept (fun e => Fault.AdmitsForeign.foreign (h e)) x

@[grind ←]
theorem notWhole (x : Except Number.NotWhole α) : Maintains I E (Exec.ofExcept .notWhole x) :=
  ofForeign (fun _ => rfl) x

@[grind ←]
theorem json (x : Except Json.Error α) : Maintains I E (Exec.ofExcept .json x) := ofForeign (fun _ => rfl) x

@[grind ←]
theorem base64 (x : Except Text.Base64.Malformed α) : Maintains I E (Exec.ofExcept .base64 x) :=
  ofForeign (fun _ => rfl) x

@[grind ←]
theorem pattern (x : Except Pattern.Error α) : Maintains I E (Exec.ofExcept .pattern x) := ofForeign (fun _ => rfl) x

@[grind ←]
theorem printf (x : Except Printf.Error α) : Maintains I E (Exec.ofExcept .printf x) := ofForeign (fun _ => rfl) x

@[grind ←]
theorem mustache (x : Except Mustache.Error α) : Maintains I E (Exec.ofExcept .mustache x) :=
  ofForeign (fun _ => rfl) x

@[grind ←]
theorem notIterable (typeName : String) : Maintains I E (MonadExcept.throw (.notIterable typeName) : Exec α) :=
  foreign rfl

@[grind ←]
theorem arity : Maintains I E (MonadExcept.throw .arity : Exec α) := foreign rfl

@[grind ←]
theorem noAttribute (typeName name : String) :
    Maintains I E (MonadExcept.throw (.attribute typeName name) : Exec α) := foreign rfl

end Foreign

@[grind ←]
theorem reject [Fault.AdmitsMalformed E] (cause : Malformed) : Maintains I E (Exec.reject cause : Exec α) :=
  throw (Fault.AdmitsMalformed.malformed cause)

end Maintains

end Exec

end EventScript
