import EventScript.Proofs.Openings
import EventScript.Proofs.Writing

/-!
# What writes spare

A write changes only what its path passes and, if it works in place, what the path leads to. All other places stay as
they are, so a set of places is spared by a write whose path stays apart from it.
-/

namespace EventScript

namespace World

/-- The places of a set stay and hold what they held; contexts look out from where they did. -/
structure Spares (R : Place → Prop) (w w' : World) : Prop where
  place : ∀ x, R x → w.Has x → w'.Has x ∧ w.SameAt w' x
  views : w.store.views.toList <+: w'.store.views.toList
  scopes : w.scopes.toList <+: w'.scopes.toList
  globalCell : w'.globalCell = w.globalCell
  stateCell : w'.stateCell = w.stateCell

variable {R : Place → Prop} {w w' : World}

instance : Tolerates (Spares R) where
  trans h k := {
    place := fun x hx hw =>
      have h₁ := h.place x hx hw
      have h₂ := k.place x hx h₁.1
      ⟨h₂.1, h₁.2.trans h₂.2⟩
    views := h.views.trans k.views
    scopes := h.scopes.trans k.scopes
    globalCell := k.globalCell.trans h.globalCell
    stateCell := k.stateCell.trans h.stateCell }
  grown h := {
    place := fun _ _ hw => ⟨h.has hw, h.sameAt hw⟩
    views := h.store.views
    scopes := h.scopes
    globalCell := h.globalCell
    stateCell := h.stateCell }

theorem Spares.refl (w : World) : w.Spares R w := Tolerates.refl w

theorem Spares.trans {w'' : World} (h : w.Spares R w') (k : w'.Spares R w'') : w.Spares R w'' := Tolerates.trans h k

theorem Spares.mono {S : Place → Prop} (h : w.Spares R w') (hS : ∀ x, S x → R x) : w.Spares S w' :=
  { h with place := fun x hx => h.place x (hS x hx) }

/-- A world in which the contents of one place may be others. -/
structure ChangedAt (x : Place) (w w' : World) : Prop where
  has : ∀ y, w.Has y → w'.Has y
  same : ∀ y, y ≠ x → w.SameAt w' y
  views : w'.store.views = w.store.views
  scopes : w'.scopes = w.scopes
  globalCell : w'.globalCell = w.globalCell
  stateCell : w'.stateCell = w.stateCell

theorem ChangedAt.refl (x : Place) (w : World) : ChangedAt x w w where
  has _ hy := hy
  same y _ := .refl w y
  views := rfl
  scopes := rfl
  globalCell := rfl
  stateCell := rfl

theorem ChangedAt.spares {x : Place} (h : ChangedAt x w w') (hx : ¬R x) : w.Spares R w' where
  place y hy hw := ⟨h.has y hw, h.same y fun hyx => hx (hyx ▸ hy)⟩
  views := by simp only [h.views, List.prefix_rfl]
  scopes := by simp only [h.scopes, List.prefix_rfl]
  globalCell := h.globalCell
  stateCell := h.stateCell

theorem changedAt_setArray (w : World) (a : ArrayId) (xs : Array Value) :
    ChangedAt (.array a) w { w with store := w.store.setArray a xs } where
  has y hy := by
    cases y with
    | array b => simpa [Has, Store.setArray] using hy
    | _ => exact hy
  same y hy := by
    cases y with
    | array b => exact (Store.array_setArray w.store a b xs).trans (if_neg fun h => hy (by rw [h.1]))
    | _ => rfl
  views := rfl
  scopes := rfl
  globalCell := rfl
  stateCell := rfl

theorem changedAt_setObject (w : World) (o : ObjectId) (es : Entries Value) :
    ChangedAt (.object o) w { w with store := w.store.setObject o es } where
  has y hy := by
    cases y with
    | object p => simpa [Has, Store.setObject] using hy
    | _ => exact hy
  same y hy := by
    cases y with
    | object p => exact (Store.object_setObject w.store o p es).trans (if_neg fun h => hy (by rw [h.1]))
    | _ => rfl
  views := rfl
  scopes := rfl
  globalCell := rfl
  stateCell := rfl

theorem changedAt_setBlob (w : World) (b : BlobId) (x : Blob) :
    ChangedAt (.blob b) w { w with store := w.store.setBlob b x } where
  has y hy := by
    cases y with
    | blob c => simpa [Has, Store.setBlob] using hy
    | _ => exact hy
  same y hy := by
    cases y with
    | blob c => exact (Store.blob_setBlob w.store b c x).trans (if_neg fun h => hy (by rw [h.1]))
    | _ => rfl
  views := rfl
  scopes := rfl
  globalCell := rfl
  stateCell := rfl

theorem withEntry_changedAt (w : World) {v : Value} {x : Place} (hx : w.placeOf v = some x) (k : Key) (item : Value) :
    ChangedAt x w (w.withEntry v k item) := by
  cases v with
  | object o =>
    cases hx
    exact changedAt_setObject w o _
  | context c =>
    cases hx
    exact changedAt_setObject w _ _
  | _ => exact .refl x w

/-- What is linked below a container changes the place of the container alone. -/
theorem linked_changedAt (w : World) {v : Value} {x : Place} (hx : w.placeOf v = some x) (part : Part)
    (old new : Value) : ChangedAt x w (w.linked v part old new) := by
  cases part with
  | index i =>
    cases v with
    | array a =>
      cases hx
      exact changedAt_setArray w a _
    | _ => exact .refl x w
  | key k =>
    change ChangedAt x w (if _ then w.withEntry v (.str k) new else w)
    split
    · exact withEntry_changedAt w hx _ new
    · exact .refl x w
  | _ => exact .refl x w

/-! ### Staying apart -/

/-- A context view that looks out from a scope of the world. -/
def Sees (w : World) (c : ViewId) : Prop := c < w.store.views.size ∧ w.store.view c < w.scopes.size

/-- A value below which a write changes nothing in a set of places. What is written to a read-only handle is
dropped. -/
def Apart (R : Place → Prop) (w : World) : Value → Prop
  | .handle h => w.store.isReadOnly h = true
  | .context c => w.Sees c ∧ ¬R (.object (w.scope (w.store.view c)).context)
  | v => ∀ x, v.own? = some x → ¬R x

end World

/-- Whether an operation changes the value at the end of a path itself, rather than putting another in its place. -/
def WriteOp.inPlace : WriteOp → Bool
  | .append | .appendArray | .blobExtend => true
  | _ => false

namespace World

/-- The end of a path can be written to without a change in a set of places. -/
def ApartAtEnd (R : Place → Prop) (w : World) (op : WriteOp) (v : Value) : Prop :=
  (∀ h, v = .handle h → w.store.isReadOnly h = true) ∧ (op.inPlace = true → ∀ x, v.own? = some x → ¬R x)

/-- A path from a value can be written to without a change in a set of places. -/
def Avoids (R : Place → Prop) (w : World) (op : WriteOp) (parts : List Part) (v : Value) : Prop :=
  (∀ y ∈ w.passed parts v, w.Apart R y) ∧ w.ApartAtEnd R op (w.target parts v)

variable {R : Place → Prop} {w m w' : World}

theorem Avoids.mono {S : Place → Prop} {op : WriteOp} {parts : List Part} {v : Value} (h : w.Avoids R op parts v)
    (hS : ∀ x, S x → R x) : w.Avoids S op parts v := by
  refine ⟨fun y hy => ?_, h.2.1, fun hop x hx hx' => h.2.2 hop x hx (hS x hx')⟩
  have ha := h.1 y hy
  cases y with
  | handle x => exact ha
  | context c => exact ⟨ha.1, fun hx => ha.2 (hS _ hx)⟩
  | _ => exact fun x hx hx' => ha x hx (hS x hx')

theorem Padded.isReadOnly (h : w.Padded m) (x : HandleId) : m.store.isReadOnly x = w.store.isReadOnly x := by
  rw [h.rest]
  rfl

theorem Padded.apart (h : w.Padded m) {v : Value} (hv : w.Apart R v) : m.Apart R v := by
  cases v with
  | handle x => exact (h.isReadOnly x).trans hv
  | context c =>
    have hc : m.Sees c ↔ w.Sees c := by
      unfold Sees
      rw [h.view, h.rest]
    change m.Sees c ∧ ¬R (.object (m.scope (m.store.view c)).context)
    rw [hc, h.view, h.scope]
    exact hv
  | _ => exact hv

theorem Padded.avoids (h : w.Padded m) {op : WriteOp} {parts : List Part} {v : Value}
    (hv : w.Avoids R op parts v) : m.Avoids R op parts v := by
  obtain ⟨hp, ht, -⟩ := h.trail parts v
  unfold Avoids ApartAtEnd
  rw [hp, ht]
  exact ⟨fun y hy => h.apart (hv.1 y hy), fun x hx => (h.isReadOnly x).trans (hv.2.1 x hx), hv.2.2⟩

theorem Spares.placeOf (h : w.Spares R w') {v : Value} (hv : ∀ c, v = .context c → w.Sees c) :
    w'.placeOf v = w.placeOf v := by
  cases v with
  | context c =>
    obtain ⟨hc, hs⟩ := hv c rfl
    have hview : w'.store.view c = w.store.view c := getD_of_begins h.views hc _
    have hscope : w'.scope (w.store.view c) = w.scope (w.store.view c) := getD_of_begins h.scopes hs _
    simp only [World.placeOf, hview, hscope]
  | _ => rfl

theorem Apart.not_mem {v : Value} (hv : w.Apart R v) {x : Place} (hx : w.placeOf v = some x) : ¬R x := by
  cases v with
  | handle h => cases hx
  | context c =>
    cases hx
    exact hv.2
  | _ => exact hv x hx

theorem Apart.sees {v : Value} (hv : w.Apart R v) (c : ViewId) (hc : v = .context c) : w.Sees c := by
  subst hc
  exact hv.1

/-- Making room changes nothing in a set of places from which the value is apart. -/
theorem Opened.spares {cur v : Value} {part : Part} (h : w.Opened cur part v m) (hc : w.Apart R cur) :
    w.Spares R m where
  place x hx hw := ⟨h.padded.has hw, h.elsewhere x hw fun hcx => hc.not_mem hcx hx⟩
  views := by
    have hv : m.store.views = w.store.views := by rw [h.padded.rest]
    simp only [hv, List.prefix_rfl]
  scopes := by
    have hs : m.scopes = w.scopes := by rw [h.padded.rest]
    simp only [hs, List.prefix_rfl]
  globalCell := by rw [h.padded.rest]
  stateCell := by rw [h.padded.rest]

/-- What is linked in the end is below the value itself or below a fresh container, which no world before had. -/
theorem Opened.linked_spares {cur v : Value} {part : Part} {w₁ : World} (h : w.Opened cur part v m)
    (hc : w.Apart R cur) (h₁ : w.Spares R w₁) (old new : Value) : w.Spares R (w₁.linked v part old new) := by
  obtain ⟨x, hx, ho⟩ : ∃ x, w₁.placeOf v = some x ∧ (R x → ¬w.Has x) := by
    by_cases hn : cur.isNull = true
    · obtain ⟨x, hx, hw, -⟩ := h.fresh hn
      exact ⟨x, placeOf_of_own w₁ hx, fun _ => hw⟩
    · rw [h.same (by simpa using hn), h₁.placeOf hc.sees]
      obtain ⟨x, hx⟩ := h.opens.placeOf w (by simpa using hn)
      exact ⟨x, hx, fun hR => absurd hR (hc.not_mem hx)⟩
  have hl := linked_changedAt w₁ hx part old new
  exact {
    place := fun y hy hw =>
      have hk := h₁.place y hy hw
      ⟨hl.has y hk.1, hk.2.trans (hl.same y fun hyx => ho (hyx ▸ hy) (hyx ▸ hw))⟩
    views := by
      rw [hl.views]
      exact h₁.views
    scopes := by
      rw [hl.scopes]
      exact h₁.scopes
    globalCell := hl.globalCell.trans h₁.globalCell
    stateCell := hl.stateCell.trans h₁.stateCell }

end World

/-! ### Writes -/

namespace Path

variable {R : Place → Prop}

theorem appendValue_spares (limits : Limits) {cur : Value} (hc : ∀ x, cur.own? = some x → ¬R x) (v : Value) :
    (appendValue limits cur v).Along (World.Spares R) := by
  unfold appendValue
  split
  · exact .newArray _
  · exact .newArray _
  · rename_i a
    refine .bind .store fun s => .guard (.fail _) (.bind (.modify fun w => ?_) fun _ => .pure _)
    exact (World.changedAt_setArray w a _).spares (hc _ rfl)
  · exact .pure _
  · exact .pure _
  · exact .fail _

theorem appendElements_spares (limits : Limits) {cur : Value} (hc : ∀ x, cur.own? = some x → ¬R x) (v : Value) :
    (appendElements limits cur v).Along (World.Spares R) := by
  unfold appendElements
  split
  · exact .pure _
  · exact .pure _
  · rename_i b a
    refine .bind .store fun s => .bind .store fun s => .guard (.fail _) ?_
    refine .bind (.modify fun w => ?_) fun _ => .pure _
    exact (World.changedAt_setArray w a _).spares (hc _ rfl)
  · exact .fail _
  · exact .pure _

theorem extendBlob_spares {cur : Value} (hc : ∀ x, cur.own? = some x → ¬R x) (v : Value) :
    (extendBlob cur v).Along (World.Spares R) := by
  unfold extendBlob
  split
  · rename_i b s
    refine .bind (.modify fun w => ?_) fun _ => .pure _
    exact (World.changedAt_setBlob w b _).spares (hc _ rfl)
  · exact .fail _
  · exact .fail _

section Access

variable {h : HandleAccess} (hr : ∀ x, (h.read x).Along (World.Spares R))
include hr

theorem applyOp_spares (limits : Limits) {op : WriteOp} {cur : Value} (v : Value) {w : World}
    (hc : w.ApartAtEnd R op cur) : w.Spares R ((applyOp h limits op cur v).after w) := by
  have hs := stored_along hr limits
  by_cases hh : ∃ x, cur = .handle x
  · obtain ⟨x, rfl⟩ := hh
    have hrun : applyOp h limits op (.handle x) v w = .ok (.handle x) w :=
      writeParts_readOnly h limits "" op v [] (hc.1 x rfl)
    rw [Exec.after_ok hrun]
    exact .refl w
  · rw [applyOp_eq h limits op v fun x hx => hh ⟨x, hx⟩]
    cases op with
    | set => exact hs _ v w
    | setRaw => exact hs _ v w
    | setUnless =>
      dsimp only
      split
      · exact hs _ v w
      · exact .refl w
    | append => exact Exec.Along.bind (hs _ v) (appendValue_spares limits (hc.2 rfl)) w
    | appendArray => exact Exec.Along.bind (hs _ v) (appendElements_spares limits (hc.2 rfl)) w
    | blobExtend => exact Exec.Along.bind (hs _ v) (extendBlob_spares (hc.2 rfl)) w

/-- A write spares all places that its path avoids. -/
theorem writeParts_spares (limits : Limits) (text : String) {op : WriteOp} (v : Value) {parts : List Part}
    {cur : Value} {w : World} (ha : w.Avoids R op parts cur) :
    w.Spares R ((writeParts h limits text op v parts cur).after w) := by
  induction parts generalizing cur w with
  | nil => exact applyOp_spares hr limits v ha.2
  | cons part rest ih =>
    have hcur : w.Apart R cur := ha.1 cur (by simp [World.passed])
    by_cases hh : ∃ x, cur = .handle x
    · obtain ⟨x, rfl⟩ := hh
      rw [Exec.after_ok (writeParts_readOnly h limits text op v (part :: rest) hcur)]
      exact .refl w
    rw [writeParts_cons h limits text op v part rest fun x hx => hh ⟨x, hx⟩]
    rcases writeInto_run limits text part cur w with ⟨-, e, he⟩ | ⟨-, v₀, m, ho, hrun⟩
    · rw [Exec.after_error (he _)]
      exact .refl w
    have hm : w.Spares R m := ho.spares hcur
    have hw₁ := ih (ho.padded.avoids ⟨fun y hy => ha.1 y (by simp [World.passed, hy]), ha.2⟩)
    unfold Exec.after at hw₁ ⊢
    rw [hrun]
    cases hi : writeParts h limits text op v rest (w.next cur part) m with
    | error e w₁ =>
      rw [hi] at hw₁
      exact hm.trans hw₁
    | ok new w₁ =>
      rw [hi] at hw₁
      exact ho.linked_spares hcur (hm.trans hw₁) _ new

end Access

end Path

end EventScript
