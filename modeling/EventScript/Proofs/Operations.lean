import EventScript.Proofs.Trees
import EventScript.Proofs.Unfolding

/-!
# What operations make of unfoldings

The operation at the end of a write as a function of unfoldings. On a tree, and with a value that shares nothing with
it, an operation comes to what the function foresees, or fails where it gives none.
-/

namespace EventScript

namespace Unfolding

/-- The unfolding of an array with some items. -/
def array (size : Nat) (items : Nat → Option Unfolding) : Unfolding :=
  node (.array size) fun s =>
    match s with
    | .index i => items i
    | .key _ => none

/-- Items after those of an array. -/
def concat (U : Unfolding) (size count : Nat) (items : Nat → Option Unfolding) : Unfolding :=
  array (size + count) fun i => if i < size then U.child? (.index i) else items (i - size)

/-- One item. -/
def single (V : Unfolding) (i : Nat) : Option Unfolding := if i = 0 then some V else none

/-- The unfolding with absence turned into null. -/
def orNull (U : Unfolding) : Unfolding :=
  match U.shape with
  | .atom .absent => atom .null
  | _ => U

/-- The unfolding with one value appended. -/
def appended (limits : Limits) (V U : Unfolding) : Option Unfolding :=
  match U.shape with
  | .atom .null | .atom .absent => some (array 1 (single V))
  | .array n => if limits.arraySize ≤ n then none else some (U.concat n 1 (single V))
  | .atom (.str s) =>
    match V.shape with
    | .atom .null => some U
    | .atom (.str t) => some (atom (.str (s ++ t)))
    | _ => none
  | _ => none

/-- The unfolding with the elements of an array appended. -/
def extended (limits : Limits) (V U : Unfolding) : Option Unfolding :=
  match V.shape with
  | .array m =>
    match U.shape with
    | .atom .null | .atom .absent => some V
    | .array n => if limits.arraySize < n + m then none else some (U.concat n m fun i => V.child? (.index i))
    | _ => none
  | _ => some U

/-- The unfolding of a blob with text added to its data. -/
def filled (V U : Unfolding) : Option Unfolding :=
  match U.shape with
  | .blob b =>
    match V.shape with
    | .atom (.str s) => some (node (.blob { b with data := b.data ++ s }) fun _ => none)
    | _ => none
  | _ => none

/-- What an operation makes of the unfolding at the end of a path, given that of the value that is written. -/
def applied (limits : Limits) (op : WriteOp) (V U : Unfolding) : Option Unfolding :=
  match op with
  | .set => some V.orNull
  | .setRaw => some V
  | .setUnless => some (match U.shape with
    | .atom .null | .atom .absent => V.orNull
    | _ => U)
  | .append => appended limits V.orNull U
  | .appendArray => extended limits V.orNull U
  | .blobExtend => filled V.orNull U

end Unfolding

namespace World

variable {loose : Place → Prop} {w w' : World} {v cur : Value} {x : Place}

/-- A value all of which is there, and all places of which are loose. -/
structure Loose (loose : Place → Prop) (w : World) (v : Value) : Prop where
  whole : w.Whole v
  within : ∀ x, w.Holds v x → loose x

theorem Loose.inside (h : w.Loose loose v) {u : Value} (hu : w.Contains v u) : w.Loose loose u where
  whole := h.whole.inside hu
  within x hx := h.within x (hu.holds hx)

theorem Loose.tree (h : w.Loose loose v) : w.Tree loose v where
  whole := h.whole
  alone hy _ hx hx' _ := hx' (h.within _ ⟨_, hy, hx⟩)
  apart hy hs _ hxa _ hx := absurd (h.within _ (hy.holds (.step hs hxa))) hx

theorem Loose.spared (h : w.Loose loose v) {R : Place → Prop} (hs : w.Spares R w') (hR : ∀ x, loose x → R x) :
    w.Agrees w' v ∧ w'.Loose loose v := by
  have hR : ∀ x, w.Holds v x → R x := fun x hx => hR x (h.within x hx)
  have hagrees := hs.agrees h.whole hR
  exact ⟨hagrees, hs.whole h.whole hR, fun x hx => h.within x (hagrees.holds.mp hx)⟩

theorem Loose.orNull (h : w.Loose loose v) : w.Loose loose v.orNull := by
  cases v with
  | absent => exact ⟨(Tree.null loose w).whole, fun x hx => absurd hx (not_holds_of_isNull rfl)⟩
  | _ => exact h

theorem unfold_orNull (w : World) (v : Value) : w.unfold v.orNull = (w.unfold v).orNull := by
  cases v with
  | absent => exact w.unfold_null
  | _ => rfl

theorem unfold_array (w : World) (a : ArrayId) :
    w.unfold (.array a) = .array (w.store.array a).size fun i => ((w.store.array a)[i]?).map w.unfold := by
  rw [unfold_eq]
  refine congrArg (Unfolding.node _) (funext fun s => ?_)
  cases s <;> rfl

theorem holds_array {a : ArrayId} (h : w.Holds (.array a) x) :
    x = .array a ∨ ∃ u ∈ w.store.array a, w.Holds u x := by
  rcases h.cases with hx | ⟨s, u, hs, hu⟩
  · exact .inl (List.mem_singleton.mp hx)
  · cases s with
    | index i => exact .inr ⟨u, Array.mem_of_getElem? hs, hu⟩
    | key k => cases hs

/-- An array is a tree if its items are, hold no place twice and do not hold the array. -/
theorem Tree.array {a : ArrayId} (ha : w.Has (.array a)) (hin : ∀ u ∈ w.store.array a, w.Tree loose u)
    (halone : ∀ u ∈ w.store.array a, ¬loose (.array a) → ¬w.Holds u (.array a))
    (hapart : ∀ (i j : Nat) b c x, (w.store.array a)[i]? = some b → (w.store.array a)[j]? = some c → w.Holds b x →
      w.Holds c x → ¬loose x → i = j) : w.Tree loose (.array a) := by
  refine .of_slots ⟨fun x hx => ?_, fun c hc => by cases hc⟩ ?_ ?_ ?_
  · rw [List.mem_singleton.mp hx]
    exact ha
  · intro s u hs
    cases s with
    | index i => exact hin u (Array.mem_of_getElem? hs)
    | key k => cases hs
  · intro s u x hs hx hl
    obtain rfl := List.mem_singleton.mp hx
    cases s with
    | index i => exact halone u (Array.mem_of_getElem? hs) hl
    | key k => cases hs
  · intro s t b c x hs ht hb hc hl
    cases s with
    | index i =>
      cases t with
      | index j => exact hapart i j b c x hs ht hb hc hl
      | key k => cases ht
    | key k => cases hs

/-- A run comes to what is foreseen: a tree with the unfolding that is foreseen, which holds no more than the value
before, what is loose and what is new; or a failure where none is foreseen. -/
def Foreseen (loose : Place → Prop) (w : World) (cur : Value) (r : EStateM.Result Fault World Value)
    (U? : Option Unfolding) : Prop :=
  match r with
  | .ok new w' =>
    U? = some (w'.unfold new) ∧ w'.Tree loose new ∧ ∀ x, w'.Holds new x → w.Holds cur x ∨ loose x ∨ ¬w.Has x
  | .error _ _ => U? = none

theorem foreseen_same (ht : w.Tree loose cur) : w.Foreseen loose cur (.ok cur w) (some (w.unfold cur)) :=
  ⟨rfl, ht, fun _ => .inl⟩

theorem foreseen_loose (hv : w.Loose loose v) : w.Foreseen loose cur (.ok v w) (some (w.unfold v)) :=
  ⟨rfl, hv.tree, fun x hx => .inr (.inl (hv.within x hx))⟩

theorem Holds.touched (h : w.Holds v x) (hv : ∀ s, w.slot? v s = none) : x ∈ w.touched v := by
  rcases h.cases with hx | ⟨s, u, hs, -⟩
  · exact hx
  · rw [hv s] at hs
    cases hs

theorem Tree.of_no_slot (hw : w.Knows v) (hv : ∀ s, w.slot? v s = none) : w.Tree loose v :=
  .of_slots hw (fun s u hs => by rw [hv s] at hs; cases hs) (fun s u x hs => by rw [hv s] at hs; cases hs)
    fun s t a b x hs => by rw [hv s] at hs; cases hs

theorem foreseen_str (w : World) (s : String) :
    w.Foreseen loose cur (.ok (.str s) w) (some (.atom (.str s))) := by
  have hslot (t : Slot) : w.slot? (.str s) t = none := by cases t <;> rfl
  refine ⟨?_, .of_no_slot ⟨fun x hx => ?_, fun c hc => ?_⟩ hslot, fun x hx => ?_⟩
  · rw [unfold_of_no_slot hslot]
    rfl
  · cases hx
  · cases hc
  · cases hx.touched hslot

/-- A blob with other contents comes to what is foreseen. -/
theorem foreseen_blob {b : BlobId} (hb : w.Has (.blob b)) (x : Blob) :
    w.Foreseen loose (.blob b) (.ok (.blob b) { w with store := w.store.setBlob b x })
      (some (.node (.blob x) fun _ => none)) := by
  have hchanged := changedAt_setBlob w b x
  have hx : ({ w with store := w.store.setBlob b x } : World).store.blob b = x :=
    (Store.blob_setBlob _ _ _ _).trans (if_pos ⟨rfl, hb⟩)
  generalize ({ w with store := w.store.setBlob b x } : World) = w' at hchanged hx
  have hslot (t : Slot) : w'.slot? (.blob b) t = none := by cases t <;> rfl
  refine ⟨?_, .of_no_slot ⟨fun y hy => ?_, fun c hc => ?_⟩ hslot, fun y hy => ?_⟩
  · rw [unfold_of_no_slot hslot, show w'.shape (.blob b) = .blob x from congrArg Shape.blob hx]
  · rw [List.mem_singleton.mp hy]
    exact hchanged.has _ hb
  · cases hc
  · exact .inl (.self (hy.touched hslot))

/-- An array of its own for loose items comes to what is foreseen. -/
theorem foreseen_newArray {ys : Array Value} (hl : ∀ u ∈ ys, w.Loose loose u) :
    w.Foreseen loose cur (Exec.newArray ys w) (some (.array ys.size fun i => (ys[i]?).map w.unfold)) := by
  have hgrown : w.Grown { w with store := (w.store.newArray ys).2 } := .ofStore (.newArray w.store ys)
  generalize hw' : ({ w with store := (w.store.newArray ys).2 } : World) = w' at hgrown
  have hrun : Exec.newArray ys w = .ok (.array w.store.arrays.size) w' := by
    rw [← hw']
    rfl
  have hys : w'.store.array w.store.arrays.size = ys := by
    rw [← hw']
    exact getD_push_size _ _ _
  have hhas : w'.Has (.array w.store.arrays.size) := by
    rw [← hw']
    simp [Has, Store.newArray]
  have hspares : w.Spares (fun _ => True) w' := Tolerates.grown hgrown
  have hloose : ∀ u ∈ ys, w.Agrees w' u ∧ w'.Loose loose u := fun u hu => (hl u hu).spared hspares fun _ _ => trivial
  rw [hrun]
  refine ⟨?_, .array hhas ?_ ?_ ?_, fun x hx => ?_⟩
  · rw [unfold_array, hys]
    refine congrArg (fun items => some (Unfolding.array ys.size items)) (funext fun i => ?_)
    cases hi : ys[i]? with
    | none => rfl
    | some u => exact congrArg some (hloose u (Array.mem_of_getElem? hi)).1.unfold.symm
  · rw [hys]
    exact fun u hu => (hloose u hu).2.tree
  · rw [hys]
    exact fun u hu hno hx => hno ((hloose u hu).2.within _ hx)
  · rw [hys]
    exact fun i j b c x hb _ hx _ hno => absurd ((hloose b (Array.mem_of_getElem? hb)).2.within x hx) hno
  · rcases holds_array hx with rfl | ⟨u, hu, hx⟩
    · exact .inr (.inr (Nat.lt_irrefl _))
    · rw [hys] at hu
      exact .inr (.inl ((hloose u hu).2.within x hx))

/-- Loose items after those of an array come to what is foreseen. -/
theorem foreseen_extended {a : ArrayId} (ht : w.Tree loose (.array a)) (ha : ¬loose (.array a)) {ys : Array Value}
    (hl : ∀ u ∈ ys, w.Loose loose u) :
    w.Foreseen loose (.array a) (.ok (.array a) { w with store := w.store.setArray a (w.store.array a ++ ys) })
      (some ((w.unfold (.array a)).concat (w.store.array a).size ys.size fun i => (ys[i]?).map w.unfold)) := by
  have hchanged := changedAt_setArray w a (w.store.array a ++ ys)
  have htouched : Place.array a ∈ w.touched (.array a) := by simp [touched, Value.own?]
  have hwa : w.Has (.array a) := (ht.whole _ (.self w _)).has _ htouched
  have hxs : ({ w with store := w.store.setArray a (w.store.array a ++ ys) } : World).store.array a =
      w.store.array a ++ ys := (Store.array_setArray _ _ _ _).trans (if_pos ⟨rfl, hwa⟩)
  generalize ({ w with store := w.store.setArray a (w.store.array a ++ ys) } : World) = w' at hchanged hxs
  have hspares : w.Spares (· ≠ .array a) w' := hchanged.spares fun h => h rfl
  -- Neither what was in the array nor what is added holds the array.
  have hold : ∀ u ∈ w.store.array a, w.Contains (.array a) u ∧ ∀ x, w.Holds u x → x ≠ .array a := by
    intro u hu
    obtain ⟨i, hi⟩ := Array.getElem?_of_mem hu
    have hs : w.slot? (.array a) (.index i) = some u := hi
    refine ⟨.step hs (.self w u), ?_⟩
    rintro x hx rfl
    exact ht.alone (.self w _) hs htouched ha hx
  have hitems : ∀ u, u ∈ w.store.array a ∨ u ∈ ys → w.Agrees w' u ∧ w'.Tree loose u ∧ ¬w'.Holds u (.array a) := by
    intro u hu
    have hu : w.Tree loose u ∧ ∀ x, w.Holds u x → x ≠ .array a := by
      rcases hu with hu | hu
      · exact ⟨ht.inside (hold u hu).1, (hold u hu).2⟩
      · refine ⟨(hl u hu).tree, ?_⟩
        rintro x hx rfl
        exact ha ((hl u hu).within _ hx)
    have hagrees := hspares.agrees hu.1.whole hu.2
    exact ⟨hagrees, hu.1.spared hspares hu.2, fun hx => hu.2 _ (hagrees.holds.mp hx) rfl⟩
  refine ⟨?_, .array (hchanged.has _ hwa) ?_ ?_ ?_, fun x hx => ?_⟩
  · rw [unfold_array w', hxs, Array.size_append]
    refine congrArg (fun items => some (Unfolding.array _ items)) (funext fun i => ?_)
    dsimp only
    rw [Array.getElem?_append]
    split
    · rw [child?_unfold]
      change ((w.store.array a)[i]?).map w.unfold = _
      cases hi : (w.store.array a)[i]? with
      | none => rfl
      | some u => exact congrArg some (hitems u (.inl (Array.mem_of_getElem? hi))).1.unfold.symm
    · cases hi : ys[i - (w.store.array a).size]? with
      | none => rfl
      | some u => exact congrArg some (hitems u (.inr (Array.mem_of_getElem? hi))).1.unfold.symm
  · rw [hxs]
    exact fun u hu => (hitems u (Array.mem_append.mp hu)).2.1
  · rw [hxs]
    exact fun u hu _ => (hitems u (Array.mem_append.mp hu)).2.2
  · rw [hxs]
    intro i j b c x hb hc hxb hxc hno
    rw [(hitems b (Array.mem_append.mp (Array.mem_of_getElem? hb))).1.holds] at hxb
    rw [(hitems c (Array.mem_append.mp (Array.mem_of_getElem? hc))).1.holds] at hxc
    rw [Array.getElem?_append] at hb hc
    split at hb
    · split at hc
      · have hsb : w.slot? (.array a) (.index i) = some b := hb
        have hsc : w.slot? (.array a) (.index j) = some c := hc
        exact ht.apart (.self w _) hsb hsc hxb hxc hno
      · exact absurd ((hl c (Array.mem_of_getElem? hc)).within x hxc) hno
    · exact absurd ((hl b (Array.mem_of_getElem? hb)).within x hxb) hno
  · rcases holds_array hx with rfl | ⟨u, hu, hx⟩
    · exact .inl (.self htouched)
    · rw [hxs] at hu
      have hu := Array.mem_append.mp hu
      rw [(hitems u hu).1.holds] at hx
      rcases hu with hu | hu
      · exact .inl ((hold u hu).1.holds hx)
      · exact .inr (.inl ((hl u hu).within x hx))

end World

namespace Path

open World

variable {loose : Place → Prop} {w : World} {v cur : Value}

section Loose

variable (ht : w.Tree loose cur) (hcur : ∀ x ∈ w.touched cur, ¬loose x) (hl : w.Loose loose v)
include ht hcur hl

theorem appendValue_foreseen (limits : Limits) :
    w.Foreseen loose cur (appendValue limits cur v w) (Unfolding.appended limits (w.unfold v) (w.unfold cur)) := by
  have single : (fun i => (#[v][i]?).map w.unfold) = Unfolding.single (w.unfold v) := by
    funext i
    cases i <;> rfl
  have hls : ∀ u ∈ #[v], w.Loose loose u := by simpa using hl
  have fresh : w.Foreseen loose cur (Exec.newArray #[v] w) (some (.array 1 (Unfolding.single (w.unfold v)))) := by
    rw [← single]
    exact foreseen_newArray hls
  cases cur with
  | null => exact fresh
  | absent => exact fresh
  | array a =>
    have ha : ¬loose (.array a) := hcur _ (by simp [touched, Value.own?])
    change w.Foreseen loose (.array a)
      ((if limits.arraySize ≤ (w.store.array a).size then _ else _ : Exec Value) w)
      (if limits.arraySize ≤ (w.store.array a).size then none else _)
    split
    · rfl
    · rw [← single]
      exact foreseen_extended ht ha hls
  | str s =>
    cases v with
    | null => exact foreseen_same ht
    | str t => exact foreseen_str w (s ++ t)
    | _ => rfl
  | _ => rfl

theorem appendElements_foreseen (limits : Limits) :
    w.Foreseen loose cur (appendElements limits cur v w) (Unfolding.extended limits (w.unfold v) (w.unfold cur)) := by
  cases v with
  | array b =>
    cases cur with
    | null => exact foreseen_loose hl
    | absent => exact foreseen_loose hl
    | array a =>
      have ha : ¬loose (.array a) := hcur _ (by simp [touched, Value.own?])
      have hin : ∀ u ∈ w.store.array b, w.Contains (.array b) u := by
        intro u hu
        obtain ⟨i, hi⟩ := Array.getElem?_of_mem hu
        have hs : w.slot? (.array b) (.index i) = some u := hi
        exact .step hs (.self w u)
      have hitem : (fun i => ((w.store.array b)[i]?).map w.unfold) =
          fun i => (w.unfold (.array b)).child? (.index i) := by
        funext i
        rw [child?_unfold]
        rfl
      change w.Foreseen loose (.array a)
        ((if limits.arraySize < (w.store.array a).size + (w.store.array b).size then _ else _ : Exec Value) w)
        (if limits.arraySize < (w.store.array a).size + (w.store.array b).size then none else _)
      split
      · rfl
      · rw [← hitem]
        exact foreseen_extended ht ha fun u hu => hl.inside (hin u hu)
    | _ => rfl
  | _ => cases cur <;> exact foreseen_same ht

theorem extendBlob_foreseen :
    w.Foreseen loose cur (extendBlob cur v w) (Unfolding.filled (w.unfold v) (w.unfold cur)) := by
  cases cur with
  | blob b =>
    have hb : w.Has (.blob b) := (ht.whole _ (.self w _)).has _ (by simp [touched, Value.own?])
    cases v with
    | str s => exact foreseen_blob hb _
    | _ => rfl
  | _ => cases v <;> rfl

/-- An operation comes to what it makes of unfoldings. -/
theorem applyOp_foreseen (h : HandleAccess) (limits : Limits) (op : WriteOp) (hh : ∀ x, cur ≠ .handle x)
    (hv : ∀ x, v ≠ .handle x) :
    w.Foreseen loose cur (applyOp h limits op cur v w) (Unfolding.applied limits op (w.unfold v) (w.unfold cur)) := by
  have hln := hl.orNull
  rw [applyOp_eq h limits op v hh]
  simp only [stored_of_not_handle h.read limits _ hv, Unfolding.applied, ← unfold_orNull]
  cases op with
  | set => exact foreseen_loose hln
  | setRaw => exact foreseen_loose hl
  | setUnless =>
    cases cur with
    | null => exact foreseen_loose hln
    | absent => exact foreseen_loose hln
    | handle x => exact absurd rfl (hh x)
    | _ => exact foreseen_same ht
  | append => exact appendValue_foreseen ht hcur hln limits
  | appendArray => exact appendElements_foreseen ht hcur hln limits
  | blobExtend => exact extendBlob_foreseen ht hcur hln

end Loose

end Path

end EventScript
