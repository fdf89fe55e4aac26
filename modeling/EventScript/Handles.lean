import EventScript.Eval

/-!
# Making handles

Handles over values of their own, handles to the elements and entries of what another handle leads to, and handles
whose writes are dropped.
-/

namespace EventScript

namespace Exec

/-- A handle to a place inside the value of a cell. The path must not compute anything. -/
def newRooted (cell : CellId) (path : Path) : Exec HandleId := do
  if path.isStatic then allocate (·.newHandle (.rooted cell path)) else fail .dynamicHandle

/-- A handle over a value of its own, whose writes are dropped. -/
def newConstant (v : Value) : Exec HandleId := do
  let cell ← allocate (·.newCell { value := v })
  let h ← newRooted cell (.ofRoot .global)
  allocate (·.newHandle (.readOnly h))

/-- A handle to a part of what a handle leads to; the parts of a read-only one are read-only. -/
def partHandle (part : Part) : (fuel : Nat) → HandleId → Exec HandleId
  | 0, h => return h
  | fuel + 1, h => do
    match (← store).handle h with
    | .bound path scope => allocate (·.newHandle (.bound (path.snoc part) scope))
    | .rooted cell path => newRooted cell (path.snoc part)
    | .readOnly inner => do
      let p ← partHandle part fuel inner
      allocate (·.newHandle (.readOnly p))

/-- A handle to the element at an index. -/
def indexHandle (h : HandleId) (i : Int) : Exec HandleId := partHandle (.index i) (h + 1) h

/-- A handle to the entry under a key. -/
def keyHandle (h : HandleId) (k : String) : Exec HandleId := partHandle (.key k) (h + 1) h

/-- The handle itself if it drops what is written to it, else one around it that does. -/
def readOnlyHandle (h : HandleId) : Exec HandleId := do
  if (← store).isReadOnly h then return h else allocate (·.newHandle (.readOnly h))

end Exec

end EventScript
