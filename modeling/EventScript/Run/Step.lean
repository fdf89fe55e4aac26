import EventScript.Eval
import EventScript.Run.Journal

/-!
# Runs that pause

A run changes the world until it is done or waits for its host. A paused run goes on from whatever world it is
given then, so several runs can share one. Besides the world, a run has a call stack, effects, a journal and a track of
its own, which it keeps when it fails.
-/

namespace EventScript

/-- Why a run pauses: to let others have their turn, or until the gate opens. -/
inductive Pause where
  | turn
  | gate
  deriving DecidableEq, Repr

/-- How far a computation has come: it is done with a result, or it pauses. -/
inductive Step (ρ : Type) where
  | done (r : ρ) (w : World)
  | paused (why : Pause) (w : World) (resume : World → Step ρ)

namespace Step

variable {ρ τ : Type}

/-- Goes on with the result once there is one. -/
def bind : Step ρ → (ρ → World → Step τ) → Step τ
  | .done r w, f => f r w
  | .paused why w resume, f => .paused why w fun w' => bind (resume w') f

/-- Goes through all pauses at once. -/
def finish : Step ρ → ρ × World
  | .done r w => (r, w)
  | .paused _ w resume => finish (resume w)

@[simp] theorem bind_done (r : ρ) (w : World) (f : ρ → World → Step τ) :
    bind (.done r w) f = f r w := rfl

theorem finish_bind (s : Step ρ) (f : ρ → World → Step τ) :
    finish (s.bind f) = finish (f s.finish.1 s.finish.2) := by
  induction s with
  | done r w => rfl
  | paused why w resume ih => exact ih w

end Step

/-- A message that a run leaves behind, under a topic. -/
structure Effect where
  topic : String
  message : String
  deriving DecidableEq, Repr

/-- What belongs to a run alone. -/
structure Progress where
  stack : CallStack := {}
  effects : Array Effect := #[]
  journal : Array Happening := #[]
  track : Array Moment := #[]
  deriving Inhabited

namespace Progress

/-- Goes on after a moment. -/
def pass (p : Progress) (m : Moment) : Progress := { p with track := p.track.push m }

/-- Goes on with another call stack. -/
def move (p : Progress) (s : CallStack) : Progress := { p.pass (.moved s) with stack := s }

variable (p : Progress) (m : Moment) (s : CallStack)

@[simp] theorem stack_pass : (p.pass m).stack = p.stack := rfl

@[simp] theorem journal_pass : (p.pass m).journal = p.journal := rfl

@[simp] theorem track_pass : (p.pass m).track = p.track.push m := rfl

@[simp] theorem stack_move : (p.move s).stack = s := rfl

@[simp] theorem journal_move : (p.move s).journal = p.journal := rfl

@[simp] theorem track_move : (p.move s).track = p.track.push (.moved s) := rfl

end Progress

/-- A part of a run. -/
def Job (α : Type) := Progress → World → Step (Except Fault α × Progress)

namespace Job

variable {α β : Type}

instance : Monad Job where
  pure a := fun p w => .done (.ok a, p) w
  bind x f := fun p w =>
    (x p w).bind fun r w =>
      match r with
      | (.ok a, p) => f a p w
      | (.error e, p) => .done (.error e, p) w

/-- Fails. -/
def fail (e : Fault) : Job α := fun p w => .done (.error e, p.pass (.raised e p.stack (e.ownStack w))) w

/-- Fails with an error that a throw action throws. -/
def failWith (e : ErrorId) (message : String) (again : Bool) : Job α := fun p w =>
  .done (.error (.thrown e message), p.pass (.threw e message again p.stack)) w

/-- Goes on failing. -/
def failOn (e : Fault) : Job α := fun p w => .done (.error e, p) w

/-- A computation over the world alone. -/
def exec (x : Exec α) : Job α := fun p w =>
  match x w with
  | .ok a w => .done (.ok a, p) w
  | .error e w => fail e p w

/-- Runs a part of the run and hands over its failure instead of failing. -/
def attempt (x : Job α) : Job (Except Fault α) := fun p w =>
  (x p w).bind fun r w => .done (.ok r.1, r.2) w

def world : Job World := fun p w => .done (.ok w, p) w

def callStack : Job CallStack := fun p w => .done (.ok p.stack, p) w

/-- Passes a moment. -/
def pass (m : Moment) : Job Unit := fun p w => .done (.ok (), p.pass m) w

def changeStack (f : CallStack → CallStack) : Job Unit := fun p w =>
  .done (.ok (), p.move (f p.stack)) w

def addEffect (topic message : String) : Job Unit := fun p w =>
  .done (.ok (), { p with effects := p.effects.push { topic, message } }) w

/-- Writes down what happens. -/
def note (h : Happening) : Job Unit := fun p w =>
  .done (.ok (), { p with journal := p.journal.push h }) w

/-- Hands an error over. -/
def deliver (e : ErrorId) : Job Unit := fun p w => .done (.ok (), p.pass (.delivered e (w.store.error e))) w

/-- Waits for a computation that pauses. -/
def await (x : World → Step (Except Fault α)) : Job α := fun p w =>
  (x w).bind fun r w =>
    match r with
    | .ok a => .done (.ok a, p) w
    | .error e => fail e p w

end Job

end EventScript
