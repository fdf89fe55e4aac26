import EventScript.Proofs.Sparing
import Mathlib.Order.Defs.PartialOrder

/-!
# Stages of a write

A stage is a world that a write has come to from a first one, with the places in use: those of the first world, and the
containers that the write has made. What is in use refers only to what is in use, to scopes and to handles of the first
world, and no array in use has grown past the ceiling. What evaluation makes on the way does not come into use.
-/

namespace EventScript

/-- Whether a handle leads into a cell. -/
def Handle.isRooted : Handle → Bool
  | .rooted .. => true
  | _ => false

/-- All containers that a value refers to are in a set of places; its handles and scopes are those of a world. -/
def Value.Within (first : World) (R : Place → Prop) (views : Array ScopeId) : Value → Prop
  | .array a => R (.array a)
  | .object o => R (.object o)
  | .context c => c < views.size ∧ views.getD c 0 < first.scopes.size
  | .handle h => h < first.store.handles.size
  | _ => True

namespace World

/-- What a value refers to is there. -/
def Refs (w : World) (v : Value) : Prop := v.Within w w.Has w.store.views

/-- All that containers, cells, scopes and handles refer to is there. -/
structure SelfContained (w : World) : Prop where
  array : ∀ a, ∀ v ∈ w.store.array a, w.Refs v
  object : ∀ o, ∀ e ∈ w.store.object o, w.Refs e.2
  cell : ∀ c, w.Refs (w.store.cell c).value
  global : w.Has (.cell w.globalCell)
  state : w.Has (.cell w.stateCell)
  parent : ∀ s < w.scopes.size, ∀ p, (w.scope s).parent = some p → p < w.scopes.size
  context : ∀ s < w.scopes.size, w.Has (.object (w.scope s).context)
  component : ∀ s < w.scopes.size, ∀ c, (w.scope s).component = some c → w.Has (.cell c)
  args : ∀ s < w.scopes.size, ∀ c, (w.scope s).args = some c → w.Has (.cell c)
  localData : ∀ s < w.scopes.size, w.Refs (w.scope s).localData
  bound : ∀ h < w.store.handles.size, ∀ p s, w.store.handle h = .bound p (some s) →
    s < w.scopes.size ∧ ∀ r, p.root? = some r → w.Refs r.value
  rooted : ∀ h < w.store.handles.size, ∀ c p, w.store.handle h = .rooted c p → w.Has (.cell c)
  readOnly : ∀ h < w.store.handles.size, ∀ i, w.store.handle h = .readOnly i → i < w.store.handles.size

/-- The ceiling on the size of arrays: the configured one or, as writes through handles into cells follow the default
limits, the one of these, if there are such handles and it is higher. -/
def arrayCeiling (w : World) : Int :=
  if w.store.handles.toList.any Handle.isRooted then max w.limits.arraySize ({} : Limits).arraySize
  else w.limits.arraySize

theorem arraySize_le_arrayCeiling (w : World) : w.limits.arraySize ≤ w.arrayCeiling := by
  unfold arrayCeiling
  split
  · exact Int.le_max_left _ _
  · exact Int.le_refl _

theorem default_le_arrayCeiling (w : World) {h : HandleId} (hh : h < w.store.handles.size)
    (hr : (w.store.handle h).isRooted = true) : ({} : Limits).arraySize ≤ w.arrayCeiling := by
  have hmem : w.store.handle h ∈ w.store.handles.toList := by
    unfold Store.handle
    rw [Array.getD_eq_getD_getElem?, Array.getElem?_eq_getElem hh]
    exact Array.getElem_mem_toList hh
  have hany : w.store.handles.toList.any Handle.isRooted = true := List.any_eq_true.mpr ⟨_, hmem, hr⟩
  unfold arrayCeiling
  rw [if_pos hany]
  exact Int.le_max_right _ _

/-- What can be reached from the containers and cells of a first world: elements and entries, the objects that contexts
see, and what stands behind handles. -/
inductive Reached (first w : World) : Value → Prop where
  | array {a : ArrayId} : first.Has (.array a) → Reached first w (.array a)
  | object {o : ObjectId} : first.Has (.object o) → Reached first w (.object o)
  | cell {c : CellId} : first.Has (.cell c) → Reached first w (w.store.cell c).value
  | element {a : ArrayId} {v : Value} : Reached first w (.array a) → v ∈ w.store.array a → Reached first w v
  | entry {o : ObjectId} {e : Key × Value} : Reached first w (.object o) → e ∈ w.store.object o → Reached first w e.2
  | context {c : ViewId} {t : ScopeId} : Reached first w (.context c) → t ∈ w.chain (w.store.view c) →
      Reached first w (.object (w.scope t).context)
  | bound {h : HandleId} {p : Path} {s t : ScopeId} : Reached first w (.handle h) →
      w.store.handle h = .bound p (some s) → t ∈ w.chain s → Reached first w (.object (w.scope t).context)
  | root {h : HandleId} {p : Path} {s : ScopeId} {r : Root} : Reached first w (.handle h) →
      w.store.handle h = .bound p (some s) → p.root? = some r → Reached first w r.value
  | rooted {h : HandleId} {c : CellId} {p : Path} : Reached first w (.handle h) →
      w.store.handle h = .rooted c p → Reached first w (w.store.cell c).value
  | readOnly {h i : HandleId} : Reached first w (.handle h) → w.store.handle h = .readOnly i →
      Reached first w (.handle i)

/-- All places stay and hold what they held; so do the scopes, the handles and the limits. -/
structure Preserves (w w' : World) : Prop extends Spares (fun _ => True) w w' where
  handles : w.store.handles.toList <+: w'.store.handles.toList
  limits : w'.limits = w.limits

instance : Tolerates Preserves where
  trans h k := {
    toSpares := Tolerates.trans h.toSpares k.toSpares
    handles := h.handles.trans k.handles
    limits := k.limits.trans h.limits }
  grown h := {
    toSpares := Tolerates.grown h
    handles := h.store.handles
    limits := h.limits }

end World

/-- A world on the way of a write, and the places in use there. -/
structure Stage (first : World) where
  world : World
  inUse : Place → Prop
  contained : first.SelfContained
  has : ∀ x, inUse x → world.Has x
  old : ∀ x, first.Has x → inUse x
  array : ∀ a, inUse (.array a) → ∀ v ∈ world.store.array a, v.Within first inUse world.store.views
  object : ∀ o, inUse (.object o) → ∀ e ∈ world.store.object o, e.2.Within first inUse world.store.views
  cell : ∀ c, inUse (.cell c) → (world.store.cell c).value.Within first inUse world.store.views
  size : ∀ a, inUse (.array a) →
    ((world.store.array a).size : Int) ≤ max ((first.store.array a).size : Int) first.arrayCeiling
  views : first.store.views.toList <+: world.store.views.toList
  scopes : first.scopes.toList <+: world.scopes.toList
  handles : first.store.handles.toList <+: world.store.handles.toList
  globalCell : world.globalCell = first.globalCell
  stateCell : world.stateCell = first.stateCell
  limits : world.limits = first.limits

namespace Stage

variable {first : World}

/-- A later stage uses all that is in use, and more. -/
instance : Preorder (Stage first) where
  le σ τ := (∀ x, σ.inUse x → τ.inUse x) ∧ σ.world.store.views.toList <+: τ.world.store.views.toList
  le_refl σ := ⟨fun _ h => h, List.prefix_refl _⟩
  le_trans _ _ _ h k := ⟨fun x hx => k.1 x (h.1 x hx), h.2.trans k.2⟩

/-- All that a value refers to is in use. -/
def Knows (σ : Stage first) (v : Value) : Prop := v.Within first σ.inUse σ.world.store.views

theorem within_mono {R R' : Place → Prop} {views views' : Array ScopeId} (hR : ∀ x, R x → R' x)
    (hv : views.toList <+: views'.toList) {v : Value} (h : v.Within first R views) : v.Within first R' views' := by
  cases v with
  | array a => exact hR _ h
  | object o => exact hR _ h
  | context c => exact ⟨Nat.lt_of_lt_of_le h.1 (size_le_of_begins hv), by rw [getD_of_begins hv h.1]; exact h.2⟩
  | handle x => exact h
  | _ => trivial

variable {σ τ : Stage first}

theorem Knows.mono {v : Value} (h : σ.Knows v) (hle : σ ≤ τ) : τ.Knows v := within_mono hle.1 hle.2 h

theorem knows_of_refs (σ : Stage first) {v : Value} (h : first.Refs v) : σ.Knows v := within_mono σ.old σ.views h

theorem Knows.orNull {v : Value} (h : σ.Knows v) : σ.Knows v.orNull := by
  cases v with
  | absent => trivial
  | _ => exact h

theorem Knows.getD {v : Option Value} (h : ∀ u ∈ v, σ.Knows u) : σ.Knows (v.getD .null) := by
  cases v with
  | none => trivial
  | some u => exact h u rfl

theorem scope_eq (σ : Stage first) {s : ScopeId} (hs : s < first.scopes.size) : σ.world.scope s = first.scope s :=
  getD_of_begins σ.scopes hs _

theorem handle_eq (σ : Stage first) {h : HandleId} (hh : h < first.store.handles.size) :
    σ.world.store.handle h = first.store.handle h := getD_of_begins σ.handles hh _

/-- The first stage. -/
def start (hw : first.SelfContained) : Stage first where
  world := first
  inUse := first.Has
  contained := hw
  has _ h := h
  old _ h := h
  array a _ := hw.array a
  object o _ := hw.object o
  cell c _ := hw.cell c
  size _ _ := Int.le_max_left _ _
  views := List.prefix_refl _
  scopes := List.prefix_refl _
  handles := List.prefix_refl _
  globalCell := rfl
  stateCell := rfl
  limits := rfl

/-- A stage with another world that preserves all. -/
def preserved (σ : Stage first) {w : World} (h : σ.world.Preserves w) : Stage first where
  world := w
  inUse := σ.inUse
  contained := σ.contained
  has x hx := (h.place x trivial (σ.has x hx)).1
  old := σ.old
  array a ha v hv := by
    have hs : w.store.array a = σ.world.store.array a := (h.place (.array a) trivial (σ.has _ ha)).2
    rw [hs] at hv
    exact within_mono (fun _ => id) h.views (σ.array a ha v hv)
  object o ho e he := by
    have hs : w.store.object o = σ.world.store.object o := (h.place (.object o) trivial (σ.has _ ho)).2
    rw [hs] at he
    exact within_mono (fun _ => id) h.views (σ.object o ho e he)
  cell c hc := by
    have hs : w.store.cell c = σ.world.store.cell c := (h.place (.cell c) trivial (σ.has _ hc)).2
    rw [hs]
    exact within_mono (fun _ => id) h.views (σ.cell c hc)
  size a ha := by
    have hs : w.store.array a = σ.world.store.array a := (h.place (.array a) trivial (σ.has _ ha)).2
    rw [hs]
    exact σ.size a ha
  views := σ.views.trans h.views
  scopes := σ.scopes.trans h.scopes
  handles := σ.handles.trans h.handles
  globalCell := h.globalCell.trans σ.globalCell
  stateCell := h.stateCell.trans σ.stateCell
  limits := h.limits.trans σ.limits

theorem le_preserved (σ : Stage first) {w : World} (h : σ.world.Preserves w) : σ ≤ σ.preserved h :=
  ⟨fun _ => id, h.views⟩

/-! ### Changes -/

/-- An array in use holds other values, as many as the ceiling allows. -/
def withArray (σ : Stage first) (a : ArrayId) (xs : Array Value) (hx : ∀ v ∈ xs, σ.Knows v)
    (hs : (xs.size : Int) ≤ max ((first.store.array a).size : Int) first.arrayCeiling) : Stage first :=
  { σ with
    world := { σ.world with store := σ.world.store.setArray a xs }
    has := fun x hx => by
      have := σ.has x hx
      cases x with
      | array b => simpa [World.Has, Store.setArray] using this
      | _ => exact this
    array := fun b hb v hv => by
      rw [Store.array_setArray] at hv
      split at hv
      · exact hx v hv
      · exact σ.array b hb v hv
    size := fun b hb => by
      rw [Store.array_setArray]
      split
      · rename_i h
        rw [← h.1]
        exact hs
      · exact σ.size b hb }

/-- An object in use holds other entries. -/
def withObject (σ : Stage first) (o : ObjectId) (es : Entries Value) (hx : ∀ e ∈ es, σ.Knows e.2) : Stage first :=
  { σ with
    world := { σ.world with store := σ.world.store.setObject o es }
    has := fun x hx => by
      have := σ.has x hx
      cases x with
      | object p => simpa [World.Has, Store.setObject] using this
      | _ => exact this
    object := fun p hp e he => by
      rw [Store.object_setObject] at he
      split at he
      · exact hx e he
      · exact σ.object p hp e he }

/-- A cell holds another value, and its subscribers have been told. -/
def withCell (σ : Stage first) (c : CellId) (x : Cell) (hx : σ.Knows x.value) (told : Array Notice) : Stage first :=
  { σ with
    world := { σ.world with store := σ.world.store.setCell c x, notices := told }
    has := fun x hx => by
      have := σ.has x hx
      cases x with
      | cell d => simpa [World.Has, Store.setCell] using this
      | _ => exact this
    cell := fun d hd => by
      rw [Store.cell_setCell]
      split
      · exact hx
      · exact σ.cell d hd }

/-- A blob holds other bytes. -/
def withBlob (σ : Stage first) (b : BlobId) (x : Blob) : Stage first :=
  { σ with
    world := { σ.world with store := σ.world.store.setBlob b x }
    has := fun x hx => by
      have := σ.has x hx
      cases x with
      | blob c => simpa [World.Has, Store.setBlob] using this
      | _ => exact this }

/-- A new array comes into use. -/
def withNewArray (σ : Stage first) (xs : Array Value) (hx : ∀ v ∈ xs, σ.Knows v)
    (hs : (xs.size : Int) ≤ first.arrayCeiling) : Stage first :=
  have hmono {v : Value} (h : σ.Knows v) :
      v.Within first (fun x => σ.inUse x ∨ x = .array σ.world.store.arrays.size) σ.world.store.views :=
    within_mono (fun _ => .inl) (List.prefix_refl _) h
  have hnew {a : ArrayId} (ha : σ.inUse (.array a) ∨ Place.array a = .array σ.world.store.arrays.size) :
      (σ.inUse (.array a) ∧ (σ.world.store.newArray xs).2.array a = σ.world.store.array a) ∨
        (σ.world.store.newArray xs).2.array a = xs := by
    rcases ha with ha | ha
    · exact .inl ⟨ha, getD_of_begins (prefix_push _ _) (σ.has _ ha) _⟩
    · cases ha
      exact .inr (getD_push_size _ _ _)
  { σ with
    world := { σ.world with store := (σ.world.store.newArray xs).2 }
    inUse := fun x => σ.inUse x ∨ x = .array σ.world.store.arrays.size
    has := fun x hx => by
      rcases hx with hx | rfl
      · exact (World.Grown.ofStore (.newArray σ.world.store xs)).has (σ.has x hx)
      · simp [World.Has, Store.newArray]
    old := fun x hx => .inl (σ.old x hx)
    array := fun a ha v hv => by
      rcases hnew ha with ⟨ha, he⟩ | he
      · rw [he] at hv
        exact hmono (σ.array a ha v hv)
      · rw [he] at hv
        exact hmono (hx v hv)
    object := fun o ho e he => hmono (σ.object o (ho.resolve_right nofun) e he)
    cell := fun c hc => hmono (σ.cell c (hc.resolve_right nofun))
    size := fun a ha => by
      rcases hnew ha with ⟨ha, he⟩ | he
      · rw [he]
        exact σ.size a ha
      · rw [he]
        exact Int.le_trans hs (Int.le_max_right _ _) }

/-- A new object comes into use. -/
def withNewObject (σ : Stage first) (es : Entries Value) (hx : ∀ e ∈ es, σ.Knows e.2) : Stage first :=
  have hmono {v : Value} (h : σ.Knows v) :
      v.Within first (fun x => σ.inUse x ∨ x = .object σ.world.store.objects.size) σ.world.store.views :=
    within_mono (fun _ => .inl) (List.prefix_refl _) h
  { σ with
    world := { σ.world with store := (σ.world.store.newObject es).2 }
    inUse := fun x => σ.inUse x ∨ x = .object σ.world.store.objects.size
    has := fun x hx => by
      rcases hx with hx | rfl
      · exact (World.Grown.ofStore (.newObject σ.world.store es)).has (σ.has x hx)
      · simp [World.Has, Store.newObject]
    old := fun x hx => .inl (σ.old x hx)
    array := fun a ha v hv => hmono (σ.array a (ha.resolve_right nofun) v hv)
    object := fun o ho e he => by
      rcases ho with ho | ho
      · have hs : (σ.world.store.newObject es).2.object o = σ.world.store.object o :=
          getD_of_begins (prefix_push _ _) (σ.has _ ho) _
        rw [hs] at he
        exact hmono (σ.object o ho e he)
      · cases ho
        have hs : (σ.world.store.newObject es).2.object σ.world.store.objects.size = es := getD_push_size _ _ _
        rw [hs] at he
        exact hmono (hx e he)
    cell := fun c hc => hmono (σ.cell c (hc.resolve_right nofun))
    size := fun a ha => σ.size a (ha.resolve_right nofun) }

end Stage

/-! ### Computations from stage to stage -/

/-- From a stage a computation comes to a later one, and what it gives there, if it does, has a property. -/
def Exec.Arrives {first : World} {α : Type} (σ : Stage first) (x : Exec α) (P : Stage first → α → Prop) : Prop :=
  ∃ τ : Stage first, σ ≤ τ ∧ τ.world = x.after σ.world ∧ ∀ a, x σ.world = .ok a τ.world → P τ a

namespace Exec.Arrives

variable {first : World} {σ : Stage first} {α β : Type} {P : Stage first → α → Prop} {Q : Stage first → β → Prop}

theorem ok {x : Exec α} {τ : Stage first} {a : α} (h : x σ.world = .ok a τ.world) (hle : σ ≤ τ) (hP : P τ a) :
    Arrives σ x P := by
  refine ⟨τ, hle, (after_ok h).symm, fun b hb => ?_⟩
  rw [h] at hb
  cases hb
  exact hP

theorem pure {a : α} (h : P σ a) : Arrives σ (Pure.pure a) P := ok rfl (le_refl σ) h

theorem throw (f : Fault) : Arrives σ (MonadExcept.throw f : Exec α) P := ⟨σ, le_refl σ, rfl, fun a ha => by cases ha⟩

theorem fail (cause : Unresolved) : Arrives σ (Exec.fail cause : Exec α) P := throw _

theorem reject (cause : Malformed) : Arrives σ (Exec.reject cause : Exec α) P := throw _

theorem failWith (p : Path) (cause : String → Unresolved) : Arrives σ (p.failWith cause : Exec α) P := by
  obtain ⟨f, hfail⟩ := p.failWith_eq_throw (α := α) cause
  rw [hfail]
  exact throw f

theorem bind {x : Exec α} {f : α → Exec β} (hx : Arrives σ x P)
    (hf : ∀ τ a, σ ≤ τ → x σ.world = .ok a τ.world → P τ a → Arrives τ (f a) Q) : Arrives σ (x >>= f) Q := by
  obtain ⟨τ, hle, hτ, ha⟩ := hx
  cases h : x σ.world with
  | ok a w =>
    rw [after_ok h] at hτ
    subst hτ
    obtain ⟨υ, hle', hυ, hb⟩ := hf τ a hle h (ha a h)
    refine ⟨υ, le_trans hle hle', ?_, fun b hrun => hb b ((bind_ok h).symm.trans hrun)⟩
    rw [hυ]
    unfold after
    rw [bind_ok h]
  | error f w =>
    rw [after_error h] at hτ
    refine ⟨τ, hle, ?_, fun b hrun => ?_⟩
    · rw [hτ, after_error (bind_error h)]
    · rw [bind_error h] at hrun
      cases hrun

theorem getBind {f : World → Exec β} (h : Arrives σ (f σ.world) Q) : Arrives σ (MonadState.get >>= f) Q := h

theorem storeBind {f : Store → Exec β} (h : Arrives σ (f σ.world.store) Q) : Arrives σ (Exec.store >>= f) Q := h

theorem guard {c : Prop} [Decidable c] {x : Exec β} {y : Exec α} (hx : ∃ f, x = MonadExcept.throw f)
    (hy : ¬c → Arrives σ y P) : Arrives σ (if c then x >>= fun _ => y else y) P := by
  split
  · obtain ⟨f, rfl⟩ := hx
    exact ⟨σ, le_refl σ, rfl, fun a ha => by cases ha⟩
  · exact hy ‹_›

theorem choose {c : Prop} [Decidable c] {x y : Exec α} {f : α → Exec β} (hx : c → Arrives σ x P)
    (hy : ¬c → Arrives σ y P) (hf : ∀ τ a, σ ≤ τ → P τ a → Arrives τ (f a) Q) :
    Arrives σ (if c then x >>= f else y >>= f) Q := by
  split
  · exact bind (hx ‹_›) fun τ a hle _ ha => hf τ a hle ha
  · exact bind (hy ‹_›) fun τ a hle _ ha => hf τ a hle ha

theorem mapM {f : α → Exec β} (hQ : ∀ {σ τ : Stage first} {b : β}, σ ≤ τ → Q σ b → Q τ b)
    (hf : ∀ (σ : Stage first) (a : α), Arrives σ (f a) Q) (xs : List α) :
    Arrives σ (xs.mapM f) fun τ bs => ∀ b ∈ bs, Q τ b := by
  induction xs generalizing σ with
  | nil => exact pure (by simp)
  | cons x rest ih =>
    rw [List.mapM_cons]
    refine bind (hf σ x) fun τ b _ _ hb => bind ih fun υ bs hle _ hbs => pure ?_
    exact List.forall_mem_cons.mpr ⟨hQ hle hb, hbs⟩

theorem preserved {x : Exec α} (h : x.Along World.Preserves) : Arrives σ x fun _ _ => True :=
  ⟨σ.preserved (h σ.world), σ.le_preserved _, rfl, fun _ _ => trivial⟩

theorem modify {f : World → World} {τ : Stage first} (hle : σ ≤ τ) (h : f σ.world = τ.world) :
    Arrives σ (modify f) fun _ _ => True := ok (a := ()) (by rw [← h]; rfl) hle trivial

theorem newArray {xs : Array Value} (hx : ∀ v ∈ xs, σ.Knows v) (hs : (xs.size : Int) ≤ first.arrayCeiling) :
    Arrives σ (Exec.newArray xs) Stage.Knows := by
  refine ok (τ := σ.withNewArray xs hx hs) rfl ⟨fun _ => .inl, List.prefix_refl _⟩ ?_
  exact .inr rfl

theorem newObject {es : Entries Value} (hx : ∀ e ∈ es, σ.Knows e.2) : Arrives σ (Exec.newObject es) Stage.Knows := by
  refine ok (τ := σ.withNewObject es hx) rfl ⟨fun _ => .inl, List.prefix_refl _⟩ ?_
  exact .inr rfl

end Exec.Arrives

end EventScript
