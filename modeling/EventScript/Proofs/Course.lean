import EventScript.Proofs.Computations

/-!
# Courses of runs

The course of a run tells what it adds to its journal and to its track, what becomes of its call stack and of the world,
and how it ends. Its rules say what may follow what: a block performs its items in order, an event goes to the handler
that is found for it, and what fails in there is delivered. What is computed on the way, and what others do while a run
pauses, may change the world as far as a relation allows; all else that a run does to the world its rules spell out.
Everything that runs actions follows a course, so what holds of courses, by induction on their rules, holds of runs.
-/

namespace EventScript

namespace Job

variable {α β : Type}

theorem exec_bind {x : Exec α} {f : α → Job β} {p : Progress} {w w' : World} {a : α} (h : x w = .ok a w') :
    (exec x >>= f) p w = f a p w' := by
  change (exec x p w).bind _ = _
  unfold exec
  rw [h]
  rfl

theorem exec_bind_error {x : Exec α} {f : α → Job β} {p : Progress} {w w' : World} {e : Fault}
    (h : x w = .error e w') : (exec x >>= f) p w = (fail e : Job β) p w' := by
  change (exec x p w).bind _ = _
  unfold exec
  rw [h]
  rfl

@[simp] theorem world_bind (f : World → Job β) (p : Progress) (w : World) : (world >>= f) p w = f w p w := rfl

@[simp] theorem callStack_bind (f : CallStack → Job β) (p : Progress) (w : World) :
    (callStack >>= f) p w = f p.stack p w := rfl

@[simp] theorem changeStack_bind (f : CallStack → CallStack) (x : Unit → Job β) (p : Progress) (w : World) :
    (changeStack f >>= x) p w = x () (p.move (f p.stack)) w := rfl

@[simp] theorem deliver_bind (e : ErrorId) (x : Unit → Job β) (p : Progress) (w : World) :
    (deliver e >>= x) p w = x () (p.pass (.delivered e (w.store.error e))) w := rfl

@[simp] theorem note_bind (h : Happening) (x : Unit → Job β) (p : Progress) (w : World) :
    (note h >>= x) p w = x () { p with journal := p.journal.push h } w := rfl

/-- What goes on after an attempt goes on with the result or the failure of what was attempted. -/
theorem attempt_ensures {rely : World → World → Prop} {P : Except Fault α × Progress → World → Prop}
    {Q : Except Fault β × Progress → World → Prop} {x : Job α} {f : Except Fault α → Job β} {p : Progress} {w : World}
    (hx : (x p w).Ensures rely P) (hf : ∀ a q w', P (a, q) w' → (f a q w').Ensures rely Q) :
    ((x.attempt >>= f) p w).Ensures rely Q := by
  refine Step.Ensures.bind (P := fun r w' => ∃ a, r.1 = .ok a ∧ P (a, r.2) w') ?_ fun r w' hr => ?_
  · exact Step.Ensures.bind hx fun r w' hr => ⟨r.1, rfl, hr⟩
  · obtain ⟨a, q⟩ := r
    obtain ⟨a, rfl, ha⟩ := hr
    exact hf a q w' ha

end Job

/-- The world with the call stack of an error replaced by another one, and the error itself on top. -/
def World.rethrow (w : World) (err : ErrorId) (stack : CallStack) : World :=
  let x := w.store.error err
  { w with store := w.store.setError err { x with stack := stack.pushError x.message } }

theorem World.error_rethrow {w : World} {err : ErrorId} (h : err < w.store.errors.size) (stack : CallStack) :
    (w.rethrow err stack).store.error err =
      { w.store.error err with stack := stack.pushError (w.store.error err).message } := by
  unfold rethrow
  rw [Store.error_setError, if_pos ⟨rfl, h⟩]

namespace Run

/-- How a part of a run ends: well, or with a failure. -/
def failureOf {α : Type} : Except Fault α → Option Fault
  | .ok _ => none
  | .error f => some f

/-- What a stretch of a run is about. -/
inductive Chapter where
  /-- What leaves the call stack alone, in a scope. -/
  | calm (scope : ScopeId)
  /-- A block as handlers have it. -/
  | script (block : Block) (scope : ScopeId)
  | block (items : List BlockItem) (scope : ScopeId)
  /-- The items that are left of a block that runs inside what has these frames. -/
  | items (outer : List Frame) (left : List BlockItem) (scope : ScopeId)
  | item (scope : ScopeId)
  /-- What an item does under the frame of its own, the last one. -/
  | body (scope : ScopeId)
  /-- What a call does once it has called the host. -/
  | answer (scope : ScopeId)
  /-- An event that is fired in a scope. -/
  | event (event : Event) (scope : ScopeId)
  /-- An event in the hands of a handler, with the scope where it started and the one that has the handler. -/
  | handler (event : Event) (block : Block) (start owner : ScopeId)
  /-- What becomes of the failure of such a handler. -/
  | delivery (event : Event) (start : ScopeId) (err : ErrorId)

/-- The scope of a chapter that computes on its way. -/
def Chapter.place? : Chapter → Option ScopeId
  | .calm scope | .item scope | .body scope | .answer scope => some scope
  | _ => none

/-- The frame of the handler of an event. -/
def handlerFrame (event : Event) (owner : ScopeId) (desc : String) : Frame :=
  { desc, handler := some event.name, scope := some owner }

/-- The course of a run: in a chapter, from a call stack and a world, what is added to the journal and to the track, the
failure at the end if there is one, and the call stack and the world then. Under `isPure` only the context is assigned
to. -/
inductive Course (rel : World → World → Prop) (g : Engine) (isPure : Bool) :
    Chapter → CallStack → World → List Happening → List Moment → Option Fault → CallStack → World → Prop where
  /-- Between what is told, the world changes as far as the relation allows. -/
  | computed {scope s w w'} : rel w w' → Course rel g isPure (.calm scope) s w [] [] none s w'
  | raised (scope s w f) : Course rel g isPure (.calm scope) s w [] [.raised f s (f.ownStack w)] (some f) s w
  | threw {s w err message w'} (scope) : Exec.newError { message, stack := s } w = .ok err w' →
      Course rel g isPure (.calm scope) s w [] [.threw err message false s] (some (.thrown err message)) s w'
  /-- An error that is thrown again learns the call stack up to here. -/
  | rethrew {w : World} {err} (scope s) : err < w.store.errors.size →
      Course rel g isPure (.calm scope) s w [] [.threw err (w.store.error err).message true s]
        (some (.thrown err (w.store.error err).message)) s (w.rethrow err s)
  | assigned {p : Path} {s w scope op v w'} : p.isStatic = true →
      (isPure = true → p.rootKey?.any RootKey.isContext = true) → g.writePath p scope v op true w = .ok () w' →
      Course rel g isPure (.calm scope) s w [.assigned w scope p op v] [] none s w'
  | refused {p : Path} {s w scope op v f w'} : p.isStatic = true →
      (isPure = true → p.rootKey?.any RootKey.isContext = true) → g.writePath p scope v op true w = .error f w' →
      Course rel g isPure (.calm scope) s w [.assigned w scope p op v] [.raised f s (f.ownStack w')] (some f) s w'
  | seq {c scope s w t w₁ t' m e s' w'} : c.place? = some scope → Course rel g isPure (.calm scope) s w t [] none s w₁ →
      Course rel g isPure c s w₁ t' m e s' w' → Course rel g isPure c s w (t ++ t') m e s' w'
  | gaveUp {c scope s w t m f s' w'} : c.place? = some scope →
      Course rel g isPure (.calm scope) s w t m (some f) s' w' → Course rel g isPure c s w t m (some f) s' w'
  /-- What should be a block is none. -/
  | malformed {block s w f w'} (scope) : BlockItem.ofBlock block w = .error f w' →
      Course rel g isPure (.script block scope) s w [] [.raised f s (f.ownStack w')] (some f) s w'
  | wellFormed {block scope s w items w₁ t m e s' w'} : BlockItem.ofBlock block w = .ok items w₁ →
      Course rel g isPure (.block items scope) s w₁ t m e s' w' →
      Course rel g isPure (.script block scope) s w t m e s' w'
  | tooDeep {s : CallStack} {w} (items scope) : w.limits.stack < (s.depth : Int) →
      Course rel g isPure (.block items scope) s w [.exceeded (.stack w.limits.stack)]
        [.raised (.ceiling (.stack w.limits.stack) none) s none] (some (.ceiling (.stack w.limits.stack) none)) s w
  /-- A block that ends well has performed all its items. -/
  | left {items scope w t m w'} {s s' : CallStack} (lines) : (s.depth : Int) ≤ w.limits.stack →
      Course rel g isPure (.items s.frames items scope) s w t m none s' w' →
      Course rel g isPure (.block items scope) s w (.entered s.depth items :: (t ++ [.left]))
        (m ++ [.moved (s'.onto s.frames)]) none (s'.onto s.frames) { w' with debugLines := lines }
  | stopped {items scope w t m f s' w'} {s : CallStack} : (s.depth : Int) ≤ w.limits.stack →
      Course rel g isPure (.items s.frames items scope) s w t m (some f) s' w' →
      Course rel g isPure (.block items scope) s w (.entered s.depth items :: t) m (some f) s' w'
  | finished (outer scope s w) : Course rel g isPure (.items outer [] scope) s w [] [] none s w
  | tooMany {s : CallStack} {w} (outer item rest scope) : w.limits.actions < ((s.actions + 1 : Nat) : Int) →
      Course rel g isPure (.items outer (item :: rest) scope) s w [.exceeded (.actions w.limits.actions)]
        [.moved (s.onto outer), .moved (s.onto outer).countAction,
          .raised (.ceiling (.actions w.limits.actions) none) (s.onto outer).countAction none]
        (some (.ceiling (.actions w.limits.actions) none)) (s.onto outer).countAction w
  /-- Every item is run on the frames of what the block runs inside, whatever the one before has left. -/
  | performed {outer item rest scope s w t m s₁ w₁ t' m' e s' w'} : ((s.actions + 1 : Nat) : Int) ≤ w.limits.actions →
      Course rel g isPure (.item scope) (s.onto outer).countAction w t m none s₁ w₁ →
      Course rel g isPure (.items outer rest scope) s₁ w₁ t' m' e s' w' →
      Course rel g isPure (.items outer (item :: rest) scope) s w (.performed item :: (t ++ t'))
        (.moved (s.onto outer) :: .moved (s.onto outer).countAction :: (m ++ m')) e s' w'
  | broken {outer item rest scope s w t m f s' w'} : ((s.actions + 1 : Nat) : Int) ≤ w.limits.actions →
      Course rel g isPure (.item scope) (s.onto outer).countAction w t m (some f) s' w' →
      Course rel g isPure (.items outer (item :: rest) scope) s w (.performed item :: t)
        (.moved (s.onto outer) :: .moved (s.onto outer).countAction :: m) (some f) s' w'
  /-- No budget is left for an action. -/
  | spent (scope s w cause) : Course rel g isPure (.item scope) s w [.exceeded cause]
      [.raised (.ceiling cause none) s none] (some (.ceiling cause none)) s w
  | described {scope s w t m e s' w'} (desc) : Course rel g isPure (.body scope) (s.pushDesc desc) w t m e s' w' →
      Course rel g isPure (.item scope) s w t (.moved (s.pushDesc desc) :: m) e s' w'
  | plain {scope s w t w'} : Course rel g isPure (.calm scope) s w t [] none s w' →
      Course rel g isPure (.body scope) s w t [] none s w'
  | clause {scope s w t m e s' w'} (desc items) :
      Course rel g isPure (.block items scope) (s.pushDesc desc) w t m e s' w' →
      Course rel g isPure (.body scope) s w t (.moved (s.pushDesc desc) :: m) e s' w'
  | fired {event scope s w t m e s' w'} : Course rel g isPure (.event event scope) s w t m e s' w' →
      Course rel g isPure (.body scope) s w t m e s' w'
  /-- A call has a frame of its own in the place of that of the item. -/
  | called {scope s w t m e s' w'} (desc path) : Course rel g isPure (.answer scope) (s.replace desc) w t m e s' w' →
      Course rel g isPure (.body scope) s w t (.moved (s.replace desc) :: .called path :: m) e s' w'
  | answered {scope s w t w'} : Course rel g isPure (.calm scope) s w t [] none s w' →
      Course rel g isPure (.answer scope) s w t [] none s w'
  | ran {items inner scope s w t m s₁ w₁ t' m' e s' w'} : Course rel g isPure (.block items inner) s w t m none s₁ w₁ →
      Course rel g isPure (.calm scope) s₁ w₁ t' m' e s' w' →
      Course rel g isPure (.answer scope) s w (t ++ t') (m ++ m') e s' w'
  | unanswered {items inner s w t m f s' w'} (scope) :
      Course rel g isPure (.block items inner) s w t m (some f) s' w' →
      Course rel g isPure (.answer scope) s w t m (some f) s' w'
  /-- An event for which no handler is found; if it bubbles, the host is told. -/
  | unheard {event scope s w} :
      ((startOf w event scope).bind fun start => w.findHandler start event.name s event.bubble) = none →
      Course rel g isPure (.event event scope) s w [] [] none s
        (if event.bubble then (Exec.unhandledEvent event).after w else w)
  | heard {event scope s w start block owner t m e s' w'} : startOf w event scope = some start →
      w.findHandler start event.name s event.bubble = some (block, owner) →
      Course rel g isPure (.handler event block start owner) s w t m e s' w' →
      Course rel g isPure (.event event scope) s w t m e s' w'
  /-- The handler of an event runs in a scope of its own, whose context has the data of the event. -/
  | handled {event block start owner s w html inner w₁ desc t m s' w'} :
      Exec.childScope owner event.data html false w = .ok inner w₁ →
      Course rel g isPure (.script block inner) (s.push (handlerFrame event owner desc)) w₁ t m none s' w' →
      Course rel g isPure (.handler event block start owner) s w (.handled event start owner :: t)
        (.moved (s.push (handlerFrame event owner desc)) :: (m ++ [.moved (s'.onto s.frames)])) none
        (s'.onto s.frames) w'
  /-- A ceiling that is exceeded notes the call stack on its way out. -/
  | fatal {event block start owner s w html inner w₁ desc t m f s' w'} :
      Exec.childScope owner event.data html false w = .ok inner w₁ →
      Course rel g isPure (.script block inner) (s.push (handlerFrame event owner desc)) w₁ t m (some f) s' w' →
      isCeiling f = true →
      Course rel g isPure (.handler event block start owner) s w (.handled event start owner :: t)
        (.moved (s.push (handlerFrame event owner desc)) :: (m ++ [.moved (s'.onto s.frames)]))
        (some (noteStack s' f)) (s'.onto s.frames) w'
  /-- Of any other failure an error is made, which is delivered. -/
  | failed {event block start owner s w html inner w₁ desc t m f s₁ w₂ err w₃ t' m' e s₂ w'} (lines) :
      Exec.childScope owner event.data html false w = .ok inner w₁ →
      Course rel g isPure (.script block inner) (s.push (handlerFrame event owner desc)) w₁ t m (some f) s₁ w₂ →
      isCeiling f = false → Exec.errorOf f s₁ (some event.name) w₂ = .ok err w₃ →
      Course rel g isPure (.delivery event start err) (s₁.onto s.frames) { w₃ with debugLines := lines } t' m' e s₂ w' →
      Course rel g isPure (.handler event block start owner) s w
        (.handled event start owner :: (t ++ .failed event start err :: t'))
        (.moved (s.push (handlerFrame event owner desc)) ::
          (m ++ .moved (s₁.onto s.frames) :: (m' ++ [.moved (s₂.onto s.frames)]))) e (s₂.onto s.frames) w'
  /-- An error goes to the host if it is of an event of an error itself, on too deep a stack, or of no interest to any
  handler. -/
  | escalated {event start err w} {s : CallStack} :
      event.name = "error" ∨ w.limits.errorStack < (s.depth : Int) ∨ w.findHandler start "error" s true = none →
      Course rel g isPure (.delivery event start err) s w [.escalated err] [.delivered err (w.store.error err)] none s
        ((Exec.unhandledError err).after w)
  /-- Otherwise it is an event for the handler that is found where the failed one started. -/
  | refired {event start err w block owner t m e s' w'} {s : CallStack} : event.name ≠ "error" →
      (s.depth : Int) ≤ w.limits.errorStack → w.findHandler start "error" s true = some (block, owner) →
      Course rel g isPure
        (.handler { name := "error", bubble := true
                    data := [(.str "error", .error err), (.str "event", .str event.name)] } block start owner)
        (s.pushError (w.store.error err).message) w t m e s' w' →
      Course rel g isPure (.delivery event start err) s w t
        (.delivered err (w.store.error err) :: .moved (s.pushError (w.store.error err).message) :: m) e s' w'

section Calm

variable {rel : World → World → Prop} {g : Engine} {isPure : Bool} {scope : ScopeId} {s s' : CallStack} {w w' : World}
  {t : List Happening} {m : List Moment} {e : Option Fault}

theorem course_calm_stack (h : Course rel g isPure (.calm scope) s w t m e s' w') : s' = s := by
  generalize hc : Chapter.calm scope = c at h
  induction h with
  | computed | raised | threw | rethrew | assigned | refused => rfl
  | seq _ _ _ _ ih => exact ih hc
  | gaveUp hp _ ih =>
    subst hc
    exact ih (congrArg Chapter.calm (Option.some.inj hp))
  | _ => cases hc

/-- What leaves the call stack alone and ends well tells nothing of it. -/
theorem course_calm_track (h : Course rel g isPure (.calm scope) s w t m none s' w') : m = [] := by
  generalize hc : Chapter.calm scope = c at h
  generalize he : (none : Option Fault) = e at h
  induction h with
  | computed | assigned => rfl
  | seq _ _ _ _ ih => exact ih hc he
  | raised | threw | rethrew | refused | gaveUp => cases he
  | _ => cases hc

theorem Course.inBody (h : Course rel g isPure (.calm scope) s w t m e s' w') :
    Course rel g isPure (.body scope) s w t m e s' w' := by
  cases e with
  | some f => exact .gaveUp rfl h
  | none =>
    obtain rfl := course_calm_track h
    obtain rfl := course_calm_stack h
    exact .plain h

theorem Course.inAnswer (h : Course rel g isPure (.calm scope) s w t m e s' w') :
    Course rel g isPure (.answer scope) s w t m e s' w' := by
  cases e with
  | some f => exact .gaveUp rfl h
  | none =>
    obtain rfl := course_calm_track h
    obtain rfl := course_calm_stack h
    exact .answered h

end Calm

/-- What a part of a run does from some progress and world is the course of a chapter. -/
def Follows (rel : World → World → Prop) (g : Engine) (isPure : Bool) {α : Type} (c : Chapter) (x : Job α)
    (p : Progress) (w : World) : Prop :=
  (x p w).Ensures rel fun r w' =>
    ∃ t m, r.2.journal.toList = p.journal.toList ++ t ∧ r.2.track.toList = p.track.toList ++ m ∧
      Course rel g isPure c p.stack w t m (failureOf r.1) r.2.stack w'

theorem toList_of_push {α : Type} {xs ys : Array α} {x : α} {l : List α} (h : ys.toList = (xs.push x).toList ++ l) :
    ys.toList = xs.toList ++ x :: l := by
  rw [h, Array.toList_push, List.append_assoc]
  rfl

section Rules

variable {rel : World → World → Prop} {g : Engine} {isPure : Bool} {α β : Type} {c : Chapter} {scope : ScopeId}
  {p : Progress} {w : World}

theorem Follows.mono {x : Job α} {c' : Chapter} (hx : Follows rel g isPure c x p w)
    (hc : ∀ {t m e s' w'}, Course rel g isPure c p.stack w t m e s' w' →
      Course rel g isPure c' p.stack w t m e s' w') : Follows rel g isPure c' x p w :=
  Step.Ensures.mono hx fun _ _ ⟨t, m, ht, hm, h⟩ => ⟨t, m, ht, hm, hc h⟩

theorem Follows.drop {x : Job α} (b : β) (hx : Follows rel g isPure c x p w) :
    Follows rel g isPure c (x >>= fun _ => Pure.pure b) p w := by
  refine Step.Ensures.bind hx fun r w₁ hr => ?_
  obtain ⟨a | a, p₁⟩ := r
  · exact hr
  · exact hr

/-- What leaves the call stack alone can stand before all that computes on its way. -/
theorem Follows.bind {x : Job α} {f : α → Job β} (hc : c.place? = some scope)
    (hx : Follows rel g isPure (.calm scope) x p w) (hf : ∀ a q w', Follows rel g isPure c (f a) q w') :
    Follows rel g isPure c (x >>= f) p w := by
  refine Step.Ensures.bind hx fun r w₁ hr => ?_
  obtain ⟨t, m, ht, hm, h⟩ := hr
  obtain ⟨f | a, q⟩ := r
  · exact ⟨t, m, ht, hm, .gaveUp hc h⟩
  · refine Step.Ensures.mono (hf a q w₁) fun r w₂ hr => ?_
    obtain ⟨t', m', ht', hm', h'⟩ := hr
    have hs : q.stack = p.stack := course_calm_stack h
    obtain rfl := course_calm_track h
    rw [hs] at h h'
    exact ⟨t ++ t', m', by rw [ht', ht, List.append_assoc], by rw [hm', hm, List.append_nil], .seq hc h h'⟩

theorem Follows.bindCalm {x : Job α} {f : α → Job β} (hx : Follows rel g isPure (.calm scope) x p w)
    (hf : ∀ a q w', Follows rel g isPure (.calm scope) (f a) q w') :
    Follows rel g isPure (.calm scope) (x >>= f) p w :=
  .bind rfl hx hf

/-- A block that is done may be followed by what leaves the stack alone. -/
theorem Follows.ran {items : List BlockItem} {inner : ScopeId} {x : Job α} {f : α → Job β}
    (hx : Follows rel g isPure (.block items inner) x p w)
    (hf : ∀ a q w', Follows rel g isPure (.calm scope) (f a) q w') :
    Follows rel g isPure (.answer scope) (x >>= f) p w := by
  refine Step.Ensures.bind hx fun r w₁ hr => ?_
  obtain ⟨t, m, ht, hm, h⟩ := hr
  obtain ⟨f | a, q⟩ := r
  · exact ⟨t, m, ht, hm, .unanswered scope h⟩
  · refine Step.Ensures.mono (hf a q w₁) fun r w₂ hr => ?_
    obtain ⟨t', m', ht', hm', h'⟩ := hr
    exact ⟨t ++ t', m ++ m', by rw [ht', ht, List.append_assoc], by rw [hm', hm, List.append_assoc], .ran h h'⟩

/-- A chapter on another stack makes one on this stack. -/
theorem Follows.changeStack {c' : Chapter} {f : CallStack → CallStack} {x : Unit → Job α}
    (hx : Follows rel g isPure c (x ()) (p.move (f p.stack)) w)
    (hc : ∀ {t m e s' w'}, Course rel g isPure c (f p.stack) w t m e s' w' →
      Course rel g isPure c' p.stack w t (.moved (f p.stack) :: m) e s' w') :
    Follows rel g isPure c' (Job.changeStack f >>= x) p w :=
  Step.Ensures.mono hx fun _ _ ⟨t, _, ht, hm, h⟩ => ⟨t, _, ht, toList_of_push hm, hc h⟩

/-- A call is made on a stack with a frame of its own. -/
theorem Follows.called {desc : String} {path : HandlerPath} {x : Unit → Job α}
    (hx : Follows rel g isPure (.answer scope) (x ()) ((p.move (p.stack.replace desc)).pass (.called path)) w) :
    Follows rel g isPure (.body scope) (Job.changeStack (·.replace desc) >>= fun _ => Job.pass (.called path) >>= x)
      p w :=
  Step.Ensures.mono hx fun _ _ ⟨t, _, ht, hm, h⟩ =>
    ⟨t, _, ht, toList_of_push (toList_of_push hm), .called desc path h⟩

theorem Follows.fail (f : Fault) : Follows rel g isPure (.calm scope) (Job.fail f : Job α) p w :=
  ⟨[], _, by simp, by simp, .raised _ _ _ f⟩

variable [World.Tolerates rel]

theorem Follows.pure (a : α) : Follows rel g isPure (.calm scope) (Pure.pure a) p w :=
  ⟨[], [], by simp, by simp, .computed (World.Tolerates.refl w)⟩

theorem Follows.world : Follows rel g isPure (.calm scope) Job.world p w :=
  ⟨[], [], by simp, by simp, .computed (World.Tolerates.refl w)⟩

theorem Follows.callStack : Follows rel g isPure (.calm scope) Job.callStack p w :=
  ⟨[], [], by simp, by simp, .computed (World.Tolerates.refl w)⟩

theorem Follows.addEffect (topic message : String) :
    Follows rel g isPure (.calm scope) (Job.addEffect topic message) p w :=
  ⟨[], [], by simp, by simp, .computed (World.Tolerates.refl w)⟩

omit [World.Tolerates rel] in
theorem Follows.exec {x : Exec α} (hx : x.Along rel) : Follows rel g isPure (.calm scope) (Job.exec x) p w := by
  have hw := hx w
  unfold Follows Job.exec
  unfold Exec.after at hw
  cases h : x w with
  | ok a w' =>
    rw [h] at hw
    exact ⟨[], [], by simp, by simp, .computed hw⟩
  | error f w' =>
    rw [h] at hw
    exact ⟨[], _, by simp, by simp, .seq rfl (.computed hw) (.raised _ _ _ f)⟩

theorem Follows.await {x : World → Step (Except Fault α)} (hx : ∀ w, (x w).Along rel w) :
    Follows rel g isPure (.calm scope) (Job.await x) p w := by
  refine Step.Ensures.bind (hx w).ensures fun r w' hw => ?_
  cases r with
  | ok a => exact ⟨[], [], by simp, by simp, .computed hw⟩
  | error f => exact ⟨[], _, by simp, by simp, .seq rfl (.computed hw) (.raised _ _ _ f)⟩

end Rules

end Run

end EventScript
