import EventScript.Proofs.ConcretePaths
import EventScript.Proofs.Evaluation

/-!
# Writing along a relation

A write changes what places hold and tells subscribers, and leaves alone all else that a relation may look at.
-/

namespace EventScript

/-- A relation between worlds that does not look at what places hold or at what subscribers are told. -/
class World.OverlooksWrites (rel : World → World → Prop) : Prop extends World.Tolerates rel where
  written : ∀ (w : World) (arrays : Array (Array Value)) (objects : Array (Entries Value)) (blobs : Array Blob)
    (cells : Array Cell) (notices : Array Notice),
    rel w { w with store := { w.store with arrays, objects, blobs, cells }, notices }

@[grind ←]
theorem Path.stored_along {rel : World → World → Prop} [World.Tolerates rel] {read : HandleId → Exec Value}
    (hr : ∀ x, (read x).Along rel) (limits : Limits) (op : WriteOp) (v : Value) :
    (stored read limits op v).Along rel := by
  unfold stored
  cases op <;> grind

variable {rel : World → World → Prop} [World.OverlooksWrites rel]

namespace Exec

theorem written_along {f : World → World}
    (h : ∀ w, ∃ arrays objects blobs cells notices,
      f w = { w with store := { w.store with arrays, objects, blobs, cells }, notices }) :
    (modify f : Exec Unit).Along rel := by
  refine .modify fun w => ?_
  obtain ⟨arrays, objects, blobs, cells, notices, hw⟩ := h w
  rw [hw]
  exact World.OverlooksWrites.written w arrays objects blobs cells notices

@[grind ←]
theorem setCell_along (c : CellId) (v : Value) : (setCell c v).Along rel := written_along fun _ => ⟨_, _, _, _, _, rfl⟩

@[grind ←]
theorem setRootValue_along (s : ScopeId) (key : RootKey) (v : Value) : (setRootValue s key v).Along rel := by
  unfold setRootValue
  cases key <;> grind

@[grind ←]
theorem setEntry_along (v : Value) (k : Key) (item : Value) : (setEntry v k item).Along rel := by
  refine written_along fun w => ?_
  cases v <;> exact ⟨_, _, _, _, _, rfl⟩

end Exec

namespace Path

@[grind ←]
theorem appendValue_along (limits : Limits) (cur v : Value) : (appendValue limits cur v).Along rel := by
  unfold appendValue
  split
  · exact .newArray _
  · exact .newArray _
  · refine .bind .store fun s => .guard (.fail _) ?_
    exact .bind (Exec.written_along fun _ => ⟨_, _, _, _, _, rfl⟩) fun _ => .pure _
  · exact .pure _
  · exact .pure _
  · exact .fail _

@[grind ←]
theorem appendElements_along (limits : Limits) (cur v : Value) : (appendElements limits cur v).Along rel := by
  unfold appendElements
  split
  · exact .pure _
  · exact .pure _
  · refine .bind .store fun s => .bind .store fun s => .guard (.fail _) ?_
    exact .bind (Exec.written_along fun _ => ⟨_, _, _, _, _, rfl⟩) fun _ => .pure _
  · exact .fail _
  · exact .pure _

@[grind ←]
theorem extendBlob_along (cur v : Value) : (extendBlob cur v).Along rel := by
  unfold extendBlob
  split
  · exact .bind (Exec.written_along fun _ => ⟨_, _, _, _, _, rfl⟩) fun _ => .pure _
  · exact .fail _
  · exact .fail _

theorem writeIndex_along (limits : Limits) (i : Int) (cur : Value) {inner : Value → Exec Value}
    (hi : ∀ v, (inner v).Along rel) : (writeIndex limits i cur inner).Along rel := by
  unfold writeIndex
  refine .guard (.fail _) (.choose (.newArray _) (.pure cur) fun cur => ?_)
  cases cur with
  | array a =>
    refine .bind (.modify fun w => ?_) fun _ => .bind .store fun s => .bind (hi _) fun new => ?_
    · dsimp only
      split
      · exact World.OverlooksWrites.written w _ _ _ _ w.notices
      · exact World.Tolerates.refl w
    · exact .bind (Exec.written_along fun _ => ⟨_, _, _, _, _, rfl⟩) fun _ => .pure _
  | _ => exact .fail _

theorem writeKey_along (k : String) (cur : Value) {inner : Value → Exec Value} (hi : ∀ v, (inner v).Along rel) :
    (writeKey k cur inner).Along rel := by
  unfold writeKey
  refine .choose (.newObject _) (.pure cur) fun cur => .guard (.fail _) ?_
  grind

theorem writeInto_along (limits : Limits) (text : String) (part : Part) (cur : Value) {inner : Value → Exec Value}
    (hi : ∀ v, (inner v).Along rel) : (writeInto limits text part cur inner).Along rel := by
  cases part with
  | index i => exact writeIndex_along limits i cur hi
  | key k => exact writeKey_along k cur hi
  | _ => exact .reject _

section Access

variable {h : HandleAccess} (hr : ∀ x, (h.read x).Along rel)
include hr

variable (hw : ∀ x v, (h.write x v).Along rel)
include hw

theorem applyOp_along (limits : Limits) (op : WriteOp) (cur v : Value) : (applyOp h limits op cur v).Along rel := by
  have hs := stored_along hr limits
  unfold applyOp
  cases cur with
  | handle x =>
    refine .bind .store fun s => ?_
    split
    · exact .pure _
    · split
      · exact .bind (hs op v) fun v => .bind (hw x v) fun _ => .pure _
      · exact .fail _
  | _ => cases op <;> grind

theorem writeParts_along (limits : Limits) (text : String) (op : WriteOp) (v : Value) (parts : List Part)
    (cur : Value) : (writeParts h limits text op v parts cur).Along rel := by
  induction parts generalizing cur with
  | nil => exact applyOp_along hr hw limits op cur v
  | cons part rest ih =>
    have into (cur : Value) := writeInto_along limits text part cur ih
    unfold writeParts
    cases cur with
    | handle x =>
      refine .bind .store fun s => ?_
      split
      · exact .pure _
      · refine .bind (follow_along hr _ _) fun inner => .bind (into inner) fun updated => ?_
        split
        · exact .bind (hw x updated) fun _ => .pure _
        · exact .pure _
    | _ => exact into _

theorem writeStatic_along (limits : Limits) (p : Path) (scope : ScopeId) (v : Value) (op : WriteOp)
    (allowContext : Bool) : (writeStatic h limits p scope v op allowContext).Along rel := by
  unfold writeStatic
  split
  · exact .reject _
  · refine .guard (failWith_along _ _) (.guard (failWith_along _ _) (.bind (Exec.rootValue_along _ _ _) fun cur => ?_))
    refine .bind (writeParts_along hr hw limits _ op v _ cur) fun updated => ?_
    split
    · exact Exec.setRootValue_along _ _ _
    · exact .pure _

theorem writeIn_along (limits : Limits) (p : Path) (container v : Value) :
    (writeIn h limits p container v).Along rel := by
  unfold writeIn
  split
  · exact writeParts_along hr hw limits _ _ v _ container
  · exact writeParts_along hr hw limits _ _ v _ container
  · exact failWith_along _ _

end Access

end Path

namespace Engine

/-- Writing through handles follows a relation. -/
def WritesAlong (rel : World → World → Prop) (g : Engine) : Prop := ∀ h v, (g.access.write h v).Along rel

variable {g : Engine} (hg : g.Along rel) (hw : g.WritesAlong rel)
include hg hw

theorem writePath_along (p : Path) (scope : ScopeId) (v : Value) (op : WriteOp) (allowContext : Bool) :
    (g.writePath p scope v op allowContext).Along rel := by
  refine .bind .get fun w => .bind (Path.concrete_along (evalResolved_along hg) _ _ _) fun q => ?_
  exact Path.writeStatic_along hg.read hw _ q scope v op allowContext

theorem writeHandle_along (h : HandleId) (v : Value) : (g.writeHandle h v).Along rel := by
  unfold writeHandle
  refine .bind .store fun s => ?_
  split
  · exact writePath_along hg hw _ _ _ _ _
  · exact .throw _
  · refine .bind .store fun s => .bind (Path.writeIn_along hg.read hw _ _ _ v) fun updated => ?_
    split
    · exact Exec.setCell_along _ _
    · exact .pure _
  · exact .pure _

omit hg hw

theorem level_writesAlong {em : Embedding} (hem : em.Along rel) (n : Nat) : (level em n).WritesAlong rel := by
  induction n with
  | zero => exact fun _ _ => .throw _
  | succ n ih => exact writeHandle_along (level_along hem n) ih

/-- Writing through paths follows every relation that overlooks what places hold, if the functions of the host do. -/
theorem full_writePath_along {em : Embedding} (hem : em.Along rel) (p : Path) (scope : ScopeId) (v : Value)
    (op : WriteOp) (allowContext : Bool) : ((full em).writePath p scope v op allowContext).Along rel :=
  writePath_along (full_along hem) (level_writesAlong hem depth) p scope v op allowContext

end Engine

end EventScript
