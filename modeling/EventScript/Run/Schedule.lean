import EventScript.Run.Outcome

/-!
# Running side by side

Several runs share one world. Each goes on until it pauses; then the next one that is ready has its turn. Runs that
wait for the gate become ready, in the order in which they came to it, once it is open.
-/

namespace EventScript

/-- Runs side by side: those that are ready, those at the gate, and the results of those that are done, each by
its number. -/
structure Schedule (ρ : Type) where
  ready : List (Nat × (World → Step ρ)) := []
  waiting : List (Nat × (World → Step ρ)) := []
  results : List (Nat × ρ) := []

namespace Schedule

variable {ρ : Type}

/-- Lets the runs at the gate through if it is open. -/
def letThrough (s : Schedule ρ) (w : World) : Schedule ρ :=
  if w.gateOpen then { s with ready := s.ready ++ s.waiting, waiting := [] } else s

/-- Puts a run where its pause says, or its result with the others. -/
def place (s : Schedule ρ) (n : Nat) : Step ρ → Schedule ρ × World
  | .done r w => ({ s.letThrough w with results := (n, r) :: s.results }, w)
  | .paused .turn w resume =>
    let s := s.letThrough w
    ({ s with ready := s.ready ++ [(n, resume)] }, w)
  | .paused .gate w resume =>
    let s := s.letThrough w
    ({ s with waiting := s.waiting ++ [(n, resume)] }, w)

/-- Gives turns until all runs are done or wait, at most `turns` of them. -/
def run : (turns : Nat) → Schedule ρ → World → Schedule ρ × World
  | 0, s, w => (s, w)
  | turns + 1, s, w =>
    match s.ready with
    | [] => (s, w)
    | (n, resume) :: rest =>
      let (s, w) := place { s with ready := rest } n (resume w)
      run turns s w

/-- The results in the order of the runs. -/
def inOrder (s : Schedule ρ) : List ρ := (s.results.mergeSort fun a b => a.1 ≤ b.1).map (·.2)

end Schedule

/-- The most turns that runs side by side are given. -/
def turnLimit : Nat := 1000000

/-- Starts runs in their order and lets them take turns. The gate is closed at first. -/
def runTogether {ρ : Type} (runs : List (World → Step ρ)) (w : World) : List ρ × World :=
  let start : Schedule ρ := { ready := runs.zipIdx.map fun r => (r.2, r.1) }
  let (s, w) := start.run turnLimit { w with gateOpen := false }
  (s.inOrder, w)

end EventScript
