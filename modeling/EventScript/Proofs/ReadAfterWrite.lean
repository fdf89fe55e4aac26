import EventScript.Proofs.ConcretePaths
import EventScript.Proofs.Contents
import EventScript.Proofs.Rewriting

/-!
# Reading what was written

After a write through a path, the path leads to what the operation makes of the value that it led to before. Nothing
else changes but the containers that the path passes, so what was in that value is still in it.
-/

namespace EventScript

namespace World

/-- The cell of a root that all scopes share. -/
def sharedCell? (w : World) : RootKey → Option CellId
  | .global | .data => some w.globalCell
  | .state => some w.stateCell
  | _ => none

end World

namespace Exec

variable {w : World} {key : RootKey} {c : CellId}

theorem rootValue_shared (h : w.sharedCell? key = some c) (s : ScopeId) (caret : Nat) :
    rootValue s key caret w = .ok (w.store.cell c).value w := by
  cases key with
  | global => cases h; rfl
  | data => cases h; rfl
  | state => cases h; rfl
  | _ => cases h

theorem setRootValue_shared (h : w.sharedCell? key = some c) (s : ScopeId) (v : Value) :
    setRootValue s key v w = setCell c v w := by
  cases key with
  | global => cases h; rfl
  | data => cases h; rfl
  | state => cases h; rfl
  | _ => cases h

end Exec

theorem World.sharedCell?_congr {w w' : World} (hg : w'.globalCell = w.globalCell) (hs : w'.stateCell = w.stateCell)
    (key : RootKey) : w'.sharedCell? key = w.sharedCell? key := by
  unfold World.sharedCell?
  rw [hg, hs]

theorem Exec.setCell_changedAt (w : World) (c : CellId) (v : Value) :
    World.ChangedAt (.cell c) w ((Exec.setCell c v).after w) where
  has y hy := by
    cases y with
    | cell d =>
      change d < (w.store.cells.setIfInBounds c _).size
      rw [Array.size_setIfInBounds]
      exact hy
    | _ => exact hy
  same y hy := by
    cases y with
    | cell d => exact (Store.cell_setCell w.store c d _).trans (if_neg fun h => hy (by rw [h.1]))
    | _ => rfl
  views := rfl
  scopes := rfl
  globalCell := rfl
  stateCell := rfl

theorem Exec.cell_setCell {w : World} {c : CellId} (hc : w.Has (.cell c)) (v : Value) :
    (((Exec.setCell c v).after w).store.cell c).value = v := by
  change ((w.store.setCell c _).cell c).value = v
  rw [Store.cell_setCell, if_pos ⟨rfl, hc⟩]

/-- Writing to a cell what it does not have yet changes the cell alone, which has it then. -/
theorem Exec.setCell_if_new {w w' : World} {c : CellId} {old new : Value} (hc : w.Has (.cell c))
    (hold : (w.store.cell c).value = old) (hw : w' = if new != old then (Exec.setCell c new).after w else w) :
    World.ChangedAt (.cell c) w w' ∧ (w'.store.cell c).value = new := by
  subst hw
  split
  · exact ⟨Exec.setCell_changedAt w c new, Exec.cell_setCell hc new⟩
  · rename_i hne
    simp only [bne_iff_ne, ne_eq, Decidable.not_not] at hne
    exact ⟨.refl _ w, hold.trans hne.symm⟩

namespace World

variable {w w' : World} {c : CellId}

/-- No path looks at a cell on its way. -/
theorem ChangedAt.trail (h : ChangedAt (.cell c) w w') (parts : List Part) (v : Value) :
    w'.passed parts v = w.passed parts v ∧ w'.target parts v = w.target parts v ∧
      ∀ r, w'.Reads parts v r ↔ w.Reads parts v r := by
  refine trail_congr fun y _ part => next_congr (h.sameView y) fun x hx => h.same x ?_
  rintro rfl
  exact w.not_touched_cell y c (w.consulted_subset y part _ hx)

theorem untouched_cell (w : World) (op : WriteOp) (parts : List Part) (v : Value) (c : CellId) :
    w.Untouched op parts v (.cell c) :=
  ⟨fun y _ hx => w.not_touched_cell y c (placeOf_mem_touched hx),
    fun _ hx => w.not_touched_cell _ c (placeOf_mem_touched (placeOf_of_own w hx))⟩

theorem Straight.off_cell {parts : List Part} {v : Value} (hs : w.Straight parts v) (op : WriteOp) (c : CellId) :
    w.Avoids (· = .cell c) op parts v :=
  (hs.avoids op).mono fun _ hx => hx ▸ w.untouched_cell op parts v c

theorem Closed.shared (h : w.Closed) {key : RootKey} (hc : w.sharedCell? key = some c) : w.Has (.cell c) := by
  cases key with
  | global => cases hc; exact h.global
  | data => cases hc; exact h.global
  | state => cases hc; exact h.state
  | _ => cases hc

/-- What the old value at the end has its contents in, or what was made for the new one, is not linked to on the way
back. -/
theorem Rewritten.kept {parts : List Part} {v r new : Value} {m m₁ : World} (h : w.Rewritten parts v m m₁ r new w')
    (hs : w.Straight parts v) {y : Place} (hy : (w.target parts v).own? = some y ∨ ¬m.Has y) (hm : m₁.Has y) :
    m₁.SameAt w' y := by
  refine h.elsewhere y hm fun z hz hzy => ?_
  rcases h.passed z hz with ⟨hold, hv⟩ | ⟨x, hx, hno, hm'⟩
  · rw [hv.placeOf] at hzy
    rcases hy with hy | hy
    · exact hs.target_apart hold hzy (placeOf_mem_touched (placeOf_of_own w hy))
    · exact hy (h.padded.has ((hs.mem (.inl hold)).1.has y (placeOf_mem_touched hzy)))
  · rw [placeOf_of_own w' hx] at hzy
    obtain rfl : x = y := Option.some.inj hzy
    rcases hy with hy | hy
    · exact hno ((hs.mem (.inr rfl)).1.has x (placeOf_mem_touched (placeOf_of_own w hy)))
    · exact hy hm'

end World

namespace Path

variable {read : HandleId → Exec Value} {w : World}

theorem stepIndex_next (limits : Limits) {v : Value} {i : Int} (ho : World.Opens v (.index i))
    (hv : ∀ h, v ≠ .handle h) : stepIndex read limits v i w = .ok (w.next v (.index i)) w := by
  unfold stepIndex
  rw [follow_of_not_handle read _ v hv]
  rcases ho with ho | ⟨⟨a, rfl⟩, hi⟩
  · cases v with
    | null => rfl
    | absent => rfl
    | _ => cases ho
  · change (if i < 0 then _ else _ : Exec Value) w = _
    rw [if_neg (by omega)]
    rfl

/-- A step to a key, once handles have been followed to what can be looked into. -/
theorem stepKey_of_follow {limits : Limits} {v u : Value} {w₁ : World}
    (hf : follow read limits.handleDepth v w = .ok u w₁) (hu : u.isNull = true ∨ u.kind = .object) (k : String)
    (markAbsent : Bool) : stepKey read limits v k markAbsent w =
      .ok ((w₁.valueAt? u (.str k)).getD (if markAbsent then .absent else .null)) w₁ := by
  refine (Exec.bind_ok hf).trans ?_
  cases u with
  | null | absent | object | context => rfl
  | _ => rcases hu with h | h <;> cases h

theorem stepKey_next (limits : Limits) {v : Value} {k : String} (ho : World.Opens v (.key k))
    (hv : ∀ h, v ≠ .handle h) : stepKey read limits v k false w = .ok (w.next v (.key k)) w :=
  stepKey_of_follow (congrFun (follow_of_not_handle read limits.handleDepth v hv) w) ho k false

theorem walk_of_reads (limits : Limits) (text : String) {parts : List Part} {v r : Value} (hr : w.Reads parts v r)
    (hv : ∀ y ∈ w.passed parts v, ∀ h, y ≠ .handle h) : walk read limits text false parts v w = .ok r w := by
  induction parts generalizing v with
  | nil =>
    cases hr
    rfl
  | cons part rest ih =>
    have hrest := ih hr.2 fun y hy => hv y (List.mem_cons_of_mem _ hy)
    have hfirst := hv v List.mem_cons_self
    cases part with
    | index i => exact (Exec.bind_ok (stepIndex_next limits hr.1 hfirst)).trans hrest
    | key k => exact (Exec.bind_ok (stepKey_next limits hr.1 hfirst)).trans hrest
    | _ => exact hr.1.elim

/-! ### What operations make of values -/

section Applying

variable {limits : Limits} {m₁ m₂ w' : World} {old x r : Value}
  (hold : ∀ y, old.own? = some y → m₁.Has y ∧ w.SameAt m₁ y) (hnew : ∀ y, w.Has y → m₁.Has y)
  (hsame : ∀ y, old.own? = some y ∨ ¬m₁.Has y → m₂.Has y → m₂.SameAt w' y)
include hold hsame

omit hold hsame in
theorem guarded_ok {c : Prop} [Decidable c] {e : Unresolved} {f : World → World} {v : Value}
    (h : (do
      if c then Exec.fail e
      modify f
      return v : Exec Value) m₁ = .ok r m₂) : r = v ∧ m₂ = f m₁ := by
  dsimp only at h
  split at h
  · cases h
  · cases h
    exact ⟨rfl, rfl⟩

end Applying

/-- Through a root that all scopes share, a write goes along its path from what is in the cell, and puts what comes of
it into the root. -/
theorem writeStatic_shared_eq (h : HandleAccess) (limits : Limits) {r : Root} {rest : List Part} {c : CellId}
    (hc : w.sharedCell? r.key = some c) (scope : ScopeId) (v : Value) (op : WriteOp) (allow : Bool) :
    writeStatic h limits (.mk (.root r) rest) scope v op allow w =
      (do
        let updated ← writeParts h limits (Path.mk (.root r) rest).text op v rest (w.store.cell c).value
        if updated != (w.store.cell c).value then Exec.setRootValue scope r.key updated : Exec Unit) w := by
  have hk : r.key.isWritable = true ∧ r.key.isReplaceable = true := by
    cases hr : r.key <;> rw [hr] at hc <;> first | exact ⟨rfl, rfl⟩ | cases hc
  unfold writeStatic
  simp only [root?, hk.1, hk.2, Bool.not_true, Bool.false_and, Bool.and_false, Bool.false_eq_true, if_false]
  exact Exec.bind_ok (Exec.rootValue_shared hc scope r.caret)

/-- A write that works has written along its path, and puts what comes of it into the cell of the root. -/
theorem writeStatic_shared {h : HandleAccess} {limits : Limits} {r : Root} {rest : List Part} {c : CellId}
    (hc : w.sharedCell? r.key = some c) {scope : ScopeId} {v : Value} {op : WriteOp} {allow : Bool} {w' : World}
    (hrun : writeStatic h limits (.mk (.root r) rest) scope v op allow w = .ok () w') :
    ∃ text new w₁, writeParts h limits text op v rest (w.store.cell c).value w = .ok new w₁ ∧
      (w₁.sharedCell? r.key = some c →
        w' = if new != (w.store.cell c).value then (Exec.setCell c new).after w₁ else w₁) := by
  rw [writeStatic_shared_eq h limits hc] at hrun
  obtain ⟨new, w₁, hp, hset⟩ := Exec.bind_eq_ok hrun
  refine ⟨_, new, w₁, hp, fun hc₁ => ?_⟩
  split at hset
  · rename_i hne
    rw [if_pos hne]
    rw [Exec.setRootValue_shared hc₁] at hset
    exact (Exec.after_ok hset).symm
  · rename_i hne
    rw [if_neg hne]
    cases hset
    rfl

/-- A write that meets no handle and writes none does not depend on how handles are read and written. -/
theorem writeStatic_access (h h' : HandleAccess) (limits : Limits) {r : Root} {rest : List Part} {c : CellId}
    (hc : w.sharedCell? r.key = some c)
    (hh : ∀ y, y ∈ w.passed rest (w.store.cell c).value ∨ y = w.target rest (w.store.cell c).value →
      ∀ x, y ≠ .handle x)
    (scope : ScopeId) {v : Value} (hv : ∀ x, v ≠ .handle x) (op : WriteOp) (allow : Bool) :
    writeStatic h limits (.mk (.root r) rest) scope v op allow w =
      writeStatic h' limits (.mk (.root r) rest) scope v op allow w := by
  have hparts := writeParts_access h h' limits (Path.mk (.root r) rest).text op hv hh
  rw [writeStatic_shared_eq h limits hc, writeStatic_shared_eq h' limits hc]
  cases hrun : writeParts h' limits (Path.mk (.root r) rest).text op v rest (w.store.cell c).value w with
  | ok new w₁ => rw [Exec.bind_ok (hparts.trans hrun), Exec.bind_ok hrun]
  | error e w₁ => rw [Exec.bind_error (hparts.trans hrun), Exec.bind_error hrun]

end Path

namespace Engine

/-- Through a root that all scopes share, a path is followed from what is in its cell. -/
theorem resolvePath_shared_eq {g : Engine} {w : World} {r : Root} {rest : List Part} {c : CellId}
    (hp : (Path.mk (.root r) rest).isStatic = true) (hc : w.sharedCell? r.key = some c) (scope : ScopeId) :
    g.resolvePath (.mk (.root r) rest) (some scope) w =
      Path.walk g.access.read w.limits (Path.mk (.root r) rest).text false rest (w.store.cell c).value w := by
  have hroot : Path.rootOf r (some scope) w = .ok (w.store.cell c).value w := by
    rw [← Exec.rootValue_shared hc scope r.caret]
    unfold Path.rootOf
    cases hk : r.key <;> rw [hk] at hc <;> first | rfl | cases hc
  have hkey : (r.key == .args) = false := by
    cases hk : r.key <;> rw [hk] at hc <;> first | rfl | cases hc
  rw [resolvePath_static hp]
  refine (Exec.bind_ok hroot).trans ?_
  rw [hkey]
  rfl

theorem resolvePath_shared {g : Engine} {w : World} {r : Root} {rest : List Part} {c : CellId}
    (hp : (Path.mk (.root r) rest).isStatic = true) (hc : w.sharedCell? r.key = some c) {v : Value}
    (hr : w.Reads rest (w.store.cell c).value v)
    (hh : ∀ y ∈ w.passed rest (w.store.cell c).value, ∀ x, y ≠ .handle x) (scope : ScopeId) :
    g.resolvePath (.mk (.root r) rest) (some scope) w = .ok v w := by
  rw [resolvePath_shared_eq hp hc]
  exact Path.walk_of_reads w.limits _ hr hh

end Engine

end EventScript
