import EventScript.Proofs.Places
import EventScript.Proofs.Runs

/-!
# Dispatch

Which handler an event goes to, and what firing it does. The search goes up from the scope where the event starts: a
handler that is running is passed over, and a hard boundary ends the search after its own handler has been asked,
unless the event bubbles. Whatever runs blocks, it is asked for the block of that handler once.
-/

namespace EventScript

namespace World

variable {w : World} {event : String} {running : ScopeId → Bool} {bubble : Bool} {b : Block} {s owner : ScopeId}

/-! ### The choice of a handler -/

/-- A scope has a handler for an event that is not running. -/
def Takes (w : World) (event : String) (running : ScopeId → Bool) (s : ScopeId) (b : Block) : Prop :=
  w.handler? s event = some b ∧ running s = false

/-- The first scope of a chain that takes an event. If the event does not bubble, no scope before it is a hard
boundary. -/
def ChosenIn (w : World) (event : String) (running : ScopeId → Bool) (bubble : Bool) (chain : List ScopeId) (b : Block)
    (owner : ScopeId) : Prop :=
  ∃ below above, chain = below ++ owner :: above ∧ w.Takes event running owner b ∧
    (∀ t ∈ below, ∀ c, ¬w.Takes event running t c) ∧
    (bubble = true ∨ ∀ t ∈ below, (w.scope t).boundary ≠ some .hard)

/-- The handler that an event is for that starts in a scope, with a call stack. -/
def Chosen (w : World) (s : ScopeId) (event : String) (stack : CallStack) (bubble : Bool) (b : Block)
    (owner : ScopeId) : Prop :=
  w.ChosenIn event (fun t => stack.isRunning (some t) event) bubble (w.chain s) b owner

theorem handlerIn_of_takes (h : w.Takes event running s b) (rest : List ScopeId) :
    w.handlerIn event running bubble (s :: rest) = some (b, s) := by
  unfold handlerIn
  simp only [h.1, h.2, Bool.false_eq_true, if_false]

theorem handlerIn_of_passed (h : ∀ c, ¬w.Takes event running s c) (rest : List ScopeId) :
    w.handlerIn event running bubble (s :: rest) =
      if (w.scope s).boundary == some .hard && !bubble then none else w.handlerIn event running bubble rest := by
  rw [handlerIn]
  cases hb : w.handler? s event with
  | none => rfl
  | some c =>
    have hr : running s = true := by simpa using fun hr => h c ⟨hb, hr⟩
    simp only [hr, if_true]

theorem chosenIn_of_takes (h : w.Takes event running s b) (rest : List ScopeId) {c : Block} :
    w.ChosenIn event running bubble (s :: rest) c owner ↔ s = owner ∧ b = c := by
  constructor
  · rintro ⟨below, above, hchain, ht, hbelow, -⟩
    cases below with
    | nil =>
      cases hchain
      exact ⟨rfl, Option.some.inj (h.1.symm.trans ht.1)⟩
    | cons t below =>
      cases hchain
      exact absurd h (hbelow s List.mem_cons_self b)
  · rintro ⟨rfl, rfl⟩
    exact ⟨[], rest, rfl, h, nofun, .inr nofun⟩

theorem chosenIn_of_passed (h : ∀ c, ¬w.Takes event running s c) (rest : List ScopeId) :
    w.ChosenIn event running bubble (s :: rest) b owner ↔
      (bubble = true ∨ (w.scope s).boundary ≠ some .hard) ∧ w.ChosenIn event running bubble rest b owner := by
  constructor
  · rintro ⟨below, above, hchain, ht, hbelow, hhard⟩
    cases below with
    | nil =>
      cases hchain
      exact absurd ht (h b)
    | cons t below =>
      cases hchain
      obtain ⟨-, hbelow⟩ := List.forall_mem_cons.mp hbelow
      exact ⟨hhard.imp_right fun hall => hall s List.mem_cons_self,
        below, above, rfl, ht, hbelow, hhard.imp_right fun hall t ht => hall t (List.mem_cons_of_mem _ ht)⟩
  · rintro ⟨hs, below, above, rfl, ht, hbelow, hhard⟩
    refine ⟨s :: below, above, rfl, ht, List.forall_mem_cons.mpr ⟨h, hbelow⟩, ?_⟩
    rcases hs with hs | hs
    · exact .inl hs
    · exact hhard.imp_right fun hall => List.forall_mem_cons.mpr ⟨hs, hall⟩

/-- The search along a chain finds the handler that is chosen, and no other. -/
theorem handlerIn_eq_some_iff {chain : List ScopeId} :
    w.handlerIn event running bubble chain = some (b, owner) ↔ w.ChosenIn event running bubble chain b owner := by
  induction chain with
  | nil => exact ⟨nofun, fun ⟨below, above, h, _⟩ => by cases below <;> cases h⟩
  | cons s rest ih =>
    by_cases ht : ∃ c, w.Takes event running s c
    · obtain ⟨c, ht⟩ := ht
      rw [handlerIn_of_takes ht, chosenIn_of_takes ht, Option.some.injEq, Prod.mk.injEq, and_comm]
    · have ht := not_exists.mp ht
      rw [handlerIn_of_passed ht, chosenIn_of_passed ht, ← ih]
      cases bubble <;> by_cases hs : (w.scope s).boundary = some .hard <;> simp [hs]

theorem findHandler_eq_some_iff {stack : CallStack} :
    w.findHandler s event stack bubble = some (b, owner) ↔ w.Chosen s event stack bubble b owner :=
  handlerIn_eq_some_iff

theorem Chosen.unique {stack : CallStack} {c : Block} {other : ScopeId} (h : w.Chosen s event stack bubble b owner)
    (h' : w.Chosen s event stack bubble c other) : b = c ∧ owner = other := by
  have heq := (findHandler_eq_some_iff.mpr h).symm.trans (findHandler_eq_some_iff.mpr h')
  exact Prod.mk.inj (Option.some.inj heq)

end World

theorem Step.bind_assoc {ρ τ υ : Type} (s : Step ρ) (f : ρ → World → Step τ) (g : τ → World → Step υ) :
    (s.bind f).bind g = s.bind fun r w => (f r w).bind g := by
  induction s with
  | done r w => rfl
  | paused why w resume ih => exact congrArg (Step.paused why w) (funext ih)

theorem Job.attempt_bind {α β : Type} (x : Job α) (f : Except Fault α → Job β) (p : Progress) (w : World) :
    (x.attempt >>= f) p w = (x p w).bind fun r w' => f r.1 r.2 w' :=
  Step.bind_assoc _ _ _

namespace Run

/-! ### What firing an event does -/

/-- The scope of a handler is new, below the one that has the handler, with the data of the event in its context. -/
theorem childScope_ok (owner : ScopeId) (data : Entries Value) (html : String) (blocksLocal : Bool) (w : World) :
    ∃ w₁, Exec.childScope owner data html blocksLocal w = .ok w.scopes.size w₁ ∧ w.Grown w₁ ∧
      w₁.scopes.size = w.scopes.size + 1 ∧ (w₁.scope w.scopes.size).parent = some owner ∧
      w₁.contextOf w.scopes.size = data := by
  obtain ⟨w₁, hrun⟩ : ∃ w₁, Exec.childScope owner data html blocksLocal w = .ok w.scopes.size w₁ := ⟨_, rfl⟩
  have hgrown : w.Grown _ := Exec.childScope_along owner data html blocksLocal w
  rw [Exec.after_ok hrun] at hgrown
  refine ⟨w₁, hrun, hgrown, ?_⟩
  cases hrun
  refine ⟨Array.size_push _, congrArg Scope.parent (getD_push_size w.scopes _ default), ?_⟩
  change (w.store.newObject data).2.object ((w.scopes.push _).getD w.scopes.size default).context = data
  rw [getD_push_size]
  exact getD_push_size w.store.objects data []

/-- How the block of a handler begins: in a new scope below the one that has the handler, with the data of the event as
its own context, and with a frame for the handler on the stack. -/
structure Begins (event : Event) (owner : ScopeId) (p p₁ : Progress) (w w₁ : World) : Prop where
  grown : w.Grown w₁
  size : w₁.scopes.size = w.scopes.size + 1
  parent : (w₁.scope w.scopes.size).parent = some owner
  context : w₁.contextOf w.scopes.size = event.data
  stack : ∃ desc, p₁.stack = p.stack.push { desc, handler := some event.name, scope := some owner }

/-- What comes after the block of a handler: nothing but that the stack is cut back, if the block succeeds or exceeds a
ceiling. After any other failure, the error is to be recovered from, once. -/
structure Settles (depth : Nat) (after : (ErrorId → Job Unit) → Except Fault Value × Progress → World →
    Step (Except Fault Value × Progress)) : Prop where
  ok : ∀ recover v q w, after recover (.ok v, q) w = .done (.ok v, q.move (q.stack.revert depth)) w
  ceiling : ∀ recover f q w, isCeiling f = true →
    after recover (.error f, q) w = .done (.error (noteStack q.stack f), q.move (q.stack.revert depth)) w
  failed : ∀ f q w, isCeiling f = false → ∃ err q₁ w₁ last, ∀ recover,
    after recover (.error f, q) w = (recover err q₁ w₁).bind last

/-- Whatever runs blocks, a handler is its block run once, in a scope of its own. -/
theorem runHandlerOf_eq (event : Event) (b : Block) (start owner : ScopeId) (pure : Bool) (p : Progress) (w : World) :
    ∃ p₁ w₁ after, Begins event owner p p₁ w w₁ ∧ Settles p.stack.depth after ∧ ∀ run recover,
      runHandlerOf run event b start owner pure recover p w =
        (runBlock run b w.scopes.size pure "handler" p₁ w₁).bind (after recover) := by
  let html := "event" ++ (if event.bubble then "-bubble" else "") ++ "(" ++ event.name ++ ")"
  obtain ⟨w₁, hchild, hgrown, hsize, hparent, hcontext⟩ := childScope_ok owner event.data html false w
  refine ⟨?first, w₁, ?rest, ⟨hgrown, hsize, hparent, hcontext, ?stack⟩, ?after, fun run recover => ?run⟩
  case run =>
    unfold runHandlerOf
    rw [Job.note_bind, Job.exec_bind hchild]
    simp only [Job.callStack_bind, Job.world_bind, Job.changeStack_bind]
    exact Job.attempt_bind _ _ _ _
  case stack => exact ⟨_, rfl⟩
  case after =>
    refine ⟨fun recover v q w => rfl, fun recover f q w hf => ?_, fun f q w hf => ?_⟩
    · simp only [Job.callStack_bind, hf, if_true]
      rfl
    · obtain ⟨err, w₃, he⟩ := errorOf_total f q.stack (some event.name) w
      obtain ⟨w₄, hl⟩ : ∃ w₄, Exec.debugLine ["EVENT error", event.name, (w₃.store.error err).message] w₃ = .ok () w₄ :=
        ⟨_, rfl⟩
      refine ⟨err, ?before, w₄, ?last, fun recover => ?recovered⟩
      case recovered =>
        simp only [Job.callStack_bind, hf, Bool.false_eq_true, if_false]
        rw [Job.exec_bind he, Job.world_bind, Job.exec_bind hl]
        simp only [Job.changeStack_bind, Job.note_bind]
        exact Job.attempt_bind _ _ _ _

/-- Firing an event runs one block, once, whatever runs blocks: that of the handler that is chosen from where the event
starts, in a new scope below the one that has it. Without a handler, or a place to start, no block is run, and the
host is told once of an event that bubbles. -/
theorem fireEvent_dispatches (event : Event) (scope : ScopeId) (pure : Bool) (p : Progress) (w : World) :
    (∀ start b owner, startOf w event scope = some start →
      w.Chosen start event.name p.stack event.bubble b owner →
      ∃ p₁ w₁ after, Begins event owner p p₁ w w₁ ∧ Settles p.stack.depth after ∧ ∀ run,
        fireEvent run event scope pure p w =
          (runBlock run b w.scopes.size pure "handler" p₁ w₁).bind (after (fireError run event pure start))) ∧
    ((∀ start b owner, startOf w event scope = some start →
      ¬w.Chosen start event.name p.stack event.bubble b owner) →
      ∀ run, fireEvent run event scope pure p w =
        .done (.ok .null, p) (if event.bubble then (Exec.unhandledEvent event).after w else w)) := by
  constructor
  · intro start b owner hstart hchosen
    obtain ⟨p₁, w₁, after, hbegins, hafter, heq⟩ := runHandlerOf_eq event b start owner pure p w
    refine ⟨p₁, w₁, after, hbegins, hafter, fun run => ?_⟩
    rw [← heq, fireEvent, dispatch_eq, hstart]
    simp only [Option.bind_some, World.findHandler_eq_some_iff.mpr hchosen, Option.map_some]
  · intro hnone run
    have hfound : ((startOf w event scope).bind fun s =>
        (w.findHandler s event.name p.stack event.bubble).map (s, ·)) = none := by
      rw [Option.bind_eq_none_iff]
      intro s hs
      rw [Option.map_eq_none_iff, Option.eq_none_iff_forall_ne_some]
      exact fun a ha => hnone s a.1 a.2 hs (World.findHandler_eq_some_iff.mp ha)
    rw [fireEvent, dispatch_eq, hfound]

/-- A scope with a handler, one inside it with a handler and a hard boundary, and one inside that. -/
def floorsWorld : World where
  store := { objects := #[[], [], []], cells := #[{ value := .null }, { value := .null }] }
  scopes := #[{ context := 0, handlers := [("go", some (.list []))] },
    { parent := some 0, context := 1, handlers := [("go", some (.list [.nop]))], boundary := some .hard },
    { parent := some 1, context := 2 }]
  stateCell := 1

/-- While the handler at the boundary is running, a bubbling event passes it on its way up, and another one ends
there. -/
theorem fired_inside_boundary :
    let p : Progress := { stack := { frames := [{ desc := "", handler := some "go", scope := some 1 }] } }
    let event : Event := { name := "go", data := [(.str "x", .int 1)], bubble := true }
    (∃ p₁ w₁ after, Begins event 0 p p₁ floorsWorld w₁ ∧ Settles 1 after ∧ ∀ run,
      fireEvent run event 2 false p floorsWorld =
        (runBlock run (.list []) 3 false "handler" p₁ w₁).bind (after (fireError run event false 2))) ∧
    ∀ run, fireEvent run { event with bubble := false } 2 false p floorsWorld = .done (.ok .null, p) floorsWorld := by
  intro p event
  have hchosen : floorsWorld.Chosen 2 "go" p.stack true (.list []) 0 := World.findHandler_eq_some_iff.mp rfl
  have hnone : floorsWorld.findHandler 2 "go" p.stack false = none := rfl
  refine ⟨(fireEvent_dispatches event 2 false p floorsWorld).1 2 (.list []) 0 rfl hchosen, ?_⟩
  refine (fireEvent_dispatches { event with bubble := false } 2 false p floorsWorld).2 fun start b owner hs hc => ?_
  cases hs
  have hfound := World.findHandler_eq_some_iff.mpr hc
  rw [hnone] at hfound
  cases hfound

end Run

end EventScript
