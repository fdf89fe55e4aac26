import EventScript.Proofs.Contents
import Mathlib.Data.List.Basic

/-!
# Unfolding values

What a value looks like from outside: the shapes of all that ways through slots lead to. Two values that unfold alike
hold the same, wherever their containers are.
-/

namespace EventScript

/-- What a value is apart from what is in its slots. -/
inductive Shape where
  | array (size : Nat)
  | object (count : Nat)
  /-- A context that looks out from a scope. -/
  | view (count : Nat)
  | blob (content : Blob)
  /-- What has no contents. -/
  | atom (v : Value)
  deriving DecidableEq

/-- The shapes at the ends of the ways from a value. -/
@[ext]
structure Unfolding where
  at? : List Slot → Option Shape
  rooted : (at? []).isSome = true

namespace Unfolding

/-- The shape of the value itself. -/
def shape (U : Unfolding) : Shape := (U.at? []).get U.rooted

/-- The unfolding of what is in a slot. -/
def child? (U : Unfolding) (s : Slot) : Option Unfolding :=
  if h : (U.at? [s]).isSome = true then some ⟨fun way => U.at? (s :: way), h⟩ else none

/-- The unfolding of a value with a shape and contents. -/
def node (shape : Shape) (slots : Slot → Option Unfolding) : Unfolding where
  at? way :=
    match way with
    | [] => some shape
    | s :: rest => (slots s).bind (·.at? rest)
  rooted := rfl

/-- The unfolding of a value without contents. -/
def atom (v : Value) : Unfolding := node (.atom v) fun _ => none

@[simp] theorem shape_node (shape : Shape) (slots : Slot → Option Unfolding) : (node shape slots).shape = shape := rfl

@[simp] theorem child?_node (shape : Shape) (slots : Slot → Option Unfolding) (s : Slot) :
    (node shape slots).child? s = slots s := by
  unfold child?
  cases hs : slots s with
  | none =>
    rw [dif_neg]
    simp [node, hs]
  | some C =>
    have hat : (node shape slots).at? [s] = C.at? [] := by simp [node, hs]
    rw [dif_pos (by rw [hat]; exact C.rooted)]
    refine congrArg some (Unfolding.ext (funext fun way => ?_))
    simp [node, hs]

end Unfolding

namespace World

/-- What a value is in a world apart from what is in its slots. -/
def shape (w : World) : Value → Shape
  | .array a => .array (w.store.array a).size
  | .object o => .object (w.store.object o).length
  | .context c => .view (w.visible (w.store.view c)).length
  | .blob b => .blob (w.store.blob b)
  | v => .atom v

/-- The shapes of all that a value contains. -/
def unfold (w : World) (v : Value) : Unfolding where
  at? way := (w.at? way v).map w.shape
  rooted := rfl

variable {w w' : World} {v : Value}

@[simp] theorem shape_unfold (w : World) (v : Value) : (w.unfold v).shape = w.shape v := rfl

/-- A value unfolds to its shape and the unfoldings of what is in its slots. -/
theorem unfold_eq (w : World) (v : Value) : w.unfold v = .node (w.shape v) fun s => (w.slot? v s).map w.unfold := by
  refine Unfolding.ext (funext fun way => ?_)
  cases way with
  | nil => rfl
  | cons s rest =>
    change ((w.slot? v s).bind (w.at? rest)).map w.shape = ((w.slot? v s).map w.unfold).bind (·.at? rest)
    cases w.slot? v s <;> rfl

@[simp] theorem child?_unfold (w : World) (v : Value) (s : Slot) :
    (w.unfold v).child? s = (w.slot? v s).map w.unfold := by
  rw [unfold_eq, Unfolding.child?_node]

theorem unfold_of_no_slot (h : ∀ s, w.slot? v s = none) : w.unfold v = .node (w.shape v) fun _ => none := by
  rw [unfold_eq]
  simp only [h, Option.map_none]

@[simp] theorem unfold_null (w : World) : w.unfold .null = .atom .null := unfold_of_no_slot (w.slot?_of_isNull rfl)

/-- What can be seen from a scope lies in the contexts of the scope and its ancestors. -/
theorem visible_congr {c : ViewId} (hv : w.SameView w' (.context c))
    (h : ∀ x ∈ w.touched (.context c), w.SameAt w' x) :
    w'.visible (w'.store.view c) = w.visible (w.store.view c) := by
  unfold visible
  rw [hv.chain]
  refine List.foldl_ext _ _ _ fun es t ht => ?_
  have ht := List.mem_reverse.mp ht
  have hsame : w'.store.object (w.scope t).context = w.store.object (w.scope t).context :=
    h (.object (w.scope t).context) (List.mem_map.mpr ⟨t, ht, rfl⟩)
  unfold contextOf
  rw [(hv c rfl).2 t ht, hsame]

theorem shape_congr (hv : w.SameView w' v) (h : ∀ x ∈ w.touched v, w.SameAt w' x) : w'.shape v = w.shape v := by
  cases v with
  | context c => exact congrArg (Shape.view ·.length) (visible_congr hv h)
  | array a => exact congrArg (Shape.array ·.size) (h (.array a) (by simp [touched, Value.own?]))
  | object o => exact congrArg (Shape.object ·.length) (h (.object o) (by simp [touched, Value.own?]))
  | blob b => exact congrArg Shape.blob (h (.blob b) (by simp [touched, Value.own?]))
  | _ => rfl

/-- Worlds that agree on all containers in a value unfold it alike. -/
theorem Agrees.unfold (h : w.Agrees w' v) : w'.unfold v = w.unfold v := by
  refine Unfolding.ext (funext fun way => ?_)
  change (w'.at? way v).map w'.shape = (w.at? way v).map w.shape
  rw [h.at?]
  cases hway : w.at? way v with
  | none => rfl
  | some y => exact congrArg some (shape_congr (h y ⟨way, hway⟩).1 (h y ⟨way, hway⟩).2)

end World

end EventScript
