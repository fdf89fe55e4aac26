import EventScript.Value

/-!
# Call stacks

The context of a run: what it is doing, as a stack of descriptions, and how many actions it has run. A frame of
an event handler also names the event and the scope whose handler runs.
-/

namespace EventScript

structure Frame where
  desc : String
  handler : Option String := none
  scope : Option ScopeId := none
  deriving DecidableEq, Inhabited

structure CallStack where
  /-- The frames, outermost first. -/
  frames : List Frame := []
  /-- The number of actions run. -/
  actions : Nat := 0
  deriving DecidableEq, Inhabited

namespace CallStack

def depth (s : CallStack) : Nat := s.frames.length

def push (s : CallStack) (f : Frame) : CallStack := { s with frames := s.frames ++ [f] }

def pushDesc (s : CallStack) (desc : String) : CallStack := s.push { desc }

/-- Takes the innermost frame away, if there is one. -/
def pop (s : CallStack) : CallStack := { s with frames := s.frames.dropLast }

/-- Puts a description in the place of the innermost frame. -/
def replace (s : CallStack) (desc : String) : CallStack := s.pop.pushDesc desc

/-- Keeps the outermost `mark` frames. -/
def revert (s : CallStack) (mark : Nat) : CallStack := { s with frames := s.frames.take mark }

/-- Keeps the frames up to a mark; a negative mark counts from the end. -/
def revertTo (s : CallStack) (mark : Int) : CallStack :=
  s.revert (if mark < 0 then (s.depth + mark).toNat else mark.toNat)

/-- Counts one more action. -/
def countAction (s : CallStack) : CallStack := { s with actions := s.actions + 1 }

/-- The innermost frame of an event handler. -/
def topHandler? (s : CallStack) : Option Frame := s.frames.reverse.find? (·.handler.isSome)

/-- Whether the handler of a scope for an event is running. -/
def isRunning (s : CallStack) (scope : Option ScopeId) (name : String) : Bool :=
  s.frames.any fun f => f.scope == scope && f.handler == some name

/-- The description of an error on its way out, cut to eighty characters. -/
def errorDesc (message : String) : String :=
  let desc := "throw error: <<" ++ message ++ ">>"
  if 80 < desc.length then String.ofList (desc.toList.take 77) ++ "..." else desc

/-- The stack with an error on its way out. -/
def pushError (s : CallStack) (message : String) : CallStack := s.pushDesc (errorDesc message)

/-- The descriptions, innermost first, one a line. -/
def render (s : CallStack) (indent : String) : String :=
  String.intercalate "\n" (s.frames.reverse.map fun f => indent ++ f.desc)

/-- The stack with other frames; the actions stay counted. -/
def onto (s : CallStack) (frames : List Frame) : CallStack := { s with frames }

variable (s : CallStack) (frames : List Frame) (f : Frame) (text : String)

@[simp] theorem frames_onto : (s.onto frames).frames = frames := rfl

@[simp] theorem actions_onto : (s.onto frames).actions = s.actions := rfl

@[simp] theorem frames_push : (s.push f).frames = s.frames ++ [f] := rfl

@[simp] theorem actions_push : (s.push f).actions = s.actions := rfl

@[simp] theorem frames_pushDesc : (s.pushDesc text).frames = s.frames ++ [{ desc := text }] := rfl

@[simp] theorem actions_pushDesc : (s.pushDesc text).actions = s.actions := rfl

@[simp] theorem frames_replace : (s.replace text).frames = s.frames.dropLast ++ [{ desc := text }] := rfl

@[simp] theorem actions_replace : (s.replace text).actions = s.actions := rfl

@[simp] theorem frames_pushError : (s.pushError text).frames = s.frames ++ [{ desc := errorDesc text }] := rfl

@[simp] theorem actions_pushError : (s.pushError text).actions = s.actions := rfl

@[simp] theorem frames_countAction : s.countAction.frames = s.frames := rfl

@[simp] theorem actions_countAction : s.countAction.actions = s.actions + 1 := rfl

@[simp] theorem depth_onto : (s.onto frames).depth = frames.length := rfl

@[simp] theorem depth_push : (s.push f).depth = s.depth + 1 := List.length_append

@[simp] theorem depth_pushDesc : (s.pushDesc text).depth = s.depth + 1 := List.length_append

@[simp] theorem depth_pushError : (s.pushError text).depth = s.depth + 1 := List.length_append

@[simp] theorem depth_replace : (s.replace text).depth = s.depth - 1 + 1 := by
  unfold depth
  rw [frames_replace, List.length_append, List.length_dropLast]
  rfl

@[simp] theorem depth_countAction : s.countAction.depth = s.depth := rfl

variable {s frames}

theorem revert_length (h : frames <+: s.frames) : s.revert frames.length = s.onto frames := by
  unfold revert onto
  rw [← List.prefix_iff_eq_take.mp h]

end CallStack

end EventScript
