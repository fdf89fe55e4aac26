import EventScript.Proofs.ArrayCeilings
import EventScript.Proofs.DistinctKeys

/-!
# Worlds of data

Where only texts have been read and data have been written, a store holds data alone: no handles, no function values
and no contexts, and no object has a key twice. Scopes are made one beside the other and declare nothing. A computation
works in such worlds if it leaves one behind, with nothing lost, and fails with faults of a kind alone.
-/

namespace EventScript

namespace World

/-- Data are what texts are read into: plain values, host objects, and arrays and objects that are there. -/
def IsData (w : World) : Value → Prop
  | .null | .bool _ | .num _ | .str _ | .foreign _ => True
  | .array a => a < w.store.arrays.size
  | .object o => o < w.store.objects.size
  | _ => False

/-- A scope without ancestors that declares nothing, with a context that is there. -/
structure Solitary (w : World) (s : Scope) : Prop where
  parent : s.parent = none
  component : s.component = none
  args : s.args = none
  localData : s.localData = .absent
  context : s.context < w.store.objects.size

/-- All that is kept is data, in objects without a key twice, and all scopes are solitary. -/
structure OfData (w : World) : Prop where
  array : ∀ a, ∀ v ∈ w.store.array a, w.IsData v
  object : ∀ o, ∀ e ∈ w.store.object o, w.IsData e.2
  cell : ∀ c, w.IsData (w.store.cell c).value
  distinct : ∀ o, (w.store.object o).Distinct
  scope : ∀ s < w.scopes.size, w.Solitary (w.scope s)

/-- The arrays, the objects and the scopes that were there are there still. -/
structure Extends (w w' : World) : Prop where
  arrays : w.store.arrays.size ≤ w'.store.arrays.size
  objects : w.store.objects.size ≤ w'.store.objects.size
  scopes : w.scopes.size ≤ w'.scopes.size

variable {w w' w'' : World} {v : Value}

theorem Extends.refl (w : World) : w.Extends w := ⟨Nat.le_refl _, Nat.le_refl _, Nat.le_refl _⟩

theorem Extends.trans (h : w.Extends w') (k : w'.Extends w'') : w.Extends w'' where
  arrays := Nat.le_trans h.arrays k.arrays
  objects := Nat.le_trans h.objects k.objects
  scopes := Nat.le_trans h.scopes k.scopes

theorem IsData.later (hv : w.IsData v) (h : w.Extends w') : w'.IsData v := by
  cases v with
  | array a => exact Nat.lt_of_lt_of_le hv h.arrays
  | object o => exact Nat.lt_of_lt_of_le hv h.objects
  | _ => exact hv

theorem Solitary.later {s : Scope} (hs : w.Solitary s) (h : w.Extends w') : w'.Solitary s :=
  { hs with context := Nat.lt_of_lt_of_le hs.context h.objects }

theorem IsData.not_handle (hv : w.IsData v) (h : HandleId) : v ≠ .handle h := by
  rintro rfl
  exact hv

theorem IsData.getD {found : Option Value} (h : ∀ v ∈ found, w.IsData v) : w.IsData (found.getD .null) := by
  cases found with
  | none => trivial
  | some v => exact h v rfl

/-- A world with the same scopes whose containers hold what they held, or other data. -/
theorem OfData.changed (hw : w.OfData) (h : w.Extends w') (hs : w'.scopes = w.scopes)
    (array : ∀ a, w'.store.array a = w.store.array a ∨ ∀ v ∈ w'.store.array a, w'.IsData v)
    (object : ∀ o, w'.store.object o = w.store.object o ∨
      (w'.store.object o).Distinct ∧ ∀ e ∈ w'.store.object o, w'.IsData e.2)
    (cell : ∀ c, w'.store.cell c = w.store.cell c ∨ w'.IsData (w'.store.cell c).value) : w'.OfData where
  array a v hv := by
    rcases array a with ha | ha
    · rw [ha] at hv
      exact (hw.array a v hv).later h
    · exact ha v hv
  object o e he := by
    rcases object o with ho | ho
    · rw [ho] at he
      exact (hw.object o e he).later h
    · exact ho.2 e he
  cell c := by
    rcases cell c with hc | hc
    · rw [hc]
      exact (hw.cell c).later h
    · exact hc
  distinct o := by
    rcases object o with ho | ho
    · rw [ho]
      exact hw.distinct o
    · exact ho.1
  scope s hlt := by
    have hscope : w'.scope s = w.scope s := by
      unfold World.scope
      rw [hs]
    rw [hscope]
    rw [hs] at hlt
    exact (hw.scope s hlt).later h

/-! ### Reading a world of data -/

theorem OfData.element (hw : w.OfData) (a : ArrayId) (i : Nat) : w.IsData ((w.store.array a).getD i .null) := by
  rcases mem_or_null (w.store.array a) i with h | h
  · exact hw.array a _ h
  · rw [h]
    trivial

theorem OfData.entry (hw : w.OfData) (o : ObjectId) {k : Key} (h : Entries.get? k (w.store.object o) = some v) :
    w.IsData v := by
  obtain ⟨l, hl⟩ := Entries.mem_of_get? h
  exact hw.object o _ hl

theorem OfData.valueAt (hw : w.OfData) {u : Value} {k : Key} (h : w.valueAt? u k = some v) : w.IsData v := by
  cases u with
  | object o => exact hw.entry o h
  | context c =>
    obtain ⟨t, -, ht⟩ := List.exists_of_findSome?_eq_some h
    exact hw.entry _ ht
  | _ => cases h

theorem OfData.chain (hw : w.OfData) {s : ScopeId} (hs : s < w.scopes.size) : w.chain s = [s] := by
  unfold World.chain chainFrom
  rw [(hw.scope s hs).parent]

theorem OfData.caretScopeFrom (hw : w.OfData) {s : ScopeId} (hs : s < w.scopes.size) (caret : Nat) :
    w.caretScopeFrom caret s = s := by
  cases caret with
  | zero => rfl
  | succ caret =>
    unfold World.caretScopeFrom
    rw [(hw.scope s hs).parent]

end World

open World

/-! ### Computations on data -/

/-- Begun in a world, a computation leaves a world of data behind, in which all that was there is there still. It gives
something with a property, or it fails with a fault of a kind. -/
def Exec.Works {α : Type} (w : World) (E : Fault → Prop) (x : Exec α) (P : World → α → Prop) : Prop :=
  ∃ w', w.Extends w' ∧ w'.OfData ∧ ((∃ a, x w = .ok a w' ∧ P w' a) ∨ ∃ f, x w = .error f w' ∧ E f)

namespace Exec.Works

variable {α β ε : Type} {w w' : World} {E E' : Fault → Prop} {P P' : World → α → Prop} {Q : World → β → Prop}

theorem ok {x : Exec α} {a : α} (hx : x w = .ok a w') (h : w.Extends w') (hw : w'.OfData) (hP : P w' a) :
    Works w E x P := ⟨w', h, hw, .inl ⟨a, hx, hP⟩⟩

theorem pure (hw : w.OfData) {a : α} (h : P w a) : Works w E (Pure.pure a) P := ok rfl (.refl w) hw h

theorem throw (hw : w.OfData) {f : Fault} (h : E f) : Works w E (MonadExcept.throw f : Exec α) P :=
  ⟨w, .refl w, hw, .inr ⟨f, rfl, h⟩⟩

theorem mono {x : Exec α} (h : Works w E x P) (hE : ∀ f, E f → E' f) (hP : ∀ w' a, P w' a → P' w' a) :
    Works w E' x P' := by
  obtain ⟨w', he, hw, ⟨a, ha, hPa⟩ | ⟨f, hf, hEf⟩⟩ := h
  · exact ⟨w', he, hw, .inl ⟨a, ha, hP w' a hPa⟩⟩
  · exact ⟨w', he, hw, .inr ⟨f, hf, hE f hEf⟩⟩

theorem weaken {x : Exec α} (h : Works w E x P) (hE : ∀ f, E f → E' f) : Works w E' x P := h.mono hE fun _ _ => id

theorem bind {x : Exec α} {f : α → Exec β} (hx : Works w E x P)
    (hf : ∀ w' a, w.Extends w' → w'.OfData → P w' a → Works w' E (f a) Q) : Works w E (x >>= f) Q := by
  obtain ⟨w₁, he, hw, ⟨a, ha, hP⟩ | ⟨e, hrun, hE⟩⟩ := hx
  · obtain ⟨w₂, he', hw', hend⟩ := hf w₁ a he hw hP
    refine ⟨w₂, he.trans he', hw', ?_⟩
    rwa [bind_ok ha]
  · exact ⟨w₁, he, hw, .inr ⟨e, bind_error hrun, hE⟩⟩

theorem getBind {f : World → Exec β} (h : Works w E (f w) Q) : Works w E (MonadState.get >>= f) Q := h

theorem storeBind {f : Store → Exec β} (h : Works w E (f w.store) Q) : Works w E (Exec.store >>= f) Q := h

theorem ofExcept (hw : w.OfData) {f : ε → Fault} {x : Except ε α} (ha : ∀ a, x = .ok a → P w a)
    (he : ∀ e, x = .error e → E (f e)) : Works w E (Exec.ofExcept f x) P := by
  cases x with
  | ok a => exact pure hw (ha a rfl)
  | error e => exact throw hw (he e rfl)

theorem exceptBind (hw : w.OfData) {f : ε → Fault} {x : Except ε α} {k : α → Exec β}
    (ha : ∀ a, x = .ok a → Works w E (k a) Q) (he : ∀ e, x = .error e → E (f e)) :
    Works w E (Exec.ofExcept f x >>= k) Q := by
  cases x with
  | ok a => exact ha a rfl
  | error e => exact ⟨w, .refl w, hw, .inr ⟨_, rfl, he e rfl⟩⟩

theorem guard {c : Prop} [Decidable c] {f : Fault} {y : Exec α} (hw : w.OfData) (hf : E f) (hy : ¬c → Works w E y P) :
    Works w E (if c then (MonadExcept.throw f : Exec PUnit) >>= fun _ => y else y) P := by
  split
  · exact throw hw hf
  · exact hy ‹_›

theorem choose {c : Prop} [Decidable c] {x y : Exec α} {f : α → Exec β} (hx : c → Works w E x P)
    (hy : ¬c → Works w E y P) (hf : ∀ w' a, w.Extends w' → w'.OfData → P w' a → Works w' E (f a) Q) :
    Works w E (if c then x >>= f else y >>= f) Q := by
  split
  · exact bind (hx ‹_›) hf
  · exact bind (hy ‹_›) hf

theorem mapM {f : α → Exec β} (hQ : ∀ {w w' : World} {b : β}, w.Extends w' → Q w b → Q w' b) {xs : List α}
    (hf : ∀ a ∈ xs, ∀ w', w.Extends w' → w'.OfData → Works w' E (f a) Q) (hw : w.OfData) :
    Works w E (xs.mapM f) fun w' bs => ∀ b ∈ bs, Q w' b := by
  induction xs generalizing w with
  | nil => exact pure hw (by simp)
  | cons x rest ih =>
    obtain ⟨hx, hrest⟩ := List.forall_mem_cons.mp hf
    rw [List.mapM_cons]
    refine bind (hx w (.refl w) hw) fun w₁ b he hw₁ hb => ?_
    refine bind (ih (fun a ha w' he' => hrest a ha w' (he.trans he')) hw₁) fun w₂ bs he' hw₂ hbs => pure hw₂ ?_
    exact List.forall_mem_cons.mpr ⟨hQ he' hb, hbs⟩

/-- What is done about a fault works in the world that the fault has left behind. -/
theorem tryCatch {x : Exec α} {f : Fault → Exec α} (hx : Works w E x P)
    (hf : ∀ w' e, w.Extends w' → w'.OfData → E e → Works w' E' (f e) P) :
    Works w E' (MonadExcept.tryCatch x f) P := by
  obtain ⟨w₁, he, hw, ⟨a, ha, hP⟩ | ⟨e, hrun, hE⟩⟩ := hx
  · exact ok (tryCatch_ok ha) he hw hP
  · obtain ⟨w₂, he', hw', hend⟩ := hf w₁ e he hw hE
    refine ⟨w₂, he.trans he', hw', ?_⟩
    rwa [tryCatch_error hrun]

theorem withRun {x : Exec α} (h : Works w E x P) : Works w E x fun w' a => P w' a ∧ x w = .ok a w' := by
  obtain ⟨w', he, hw, ⟨a, ha, hP⟩ | hf⟩ := h
  · exact ⟨w', he, hw, .inl ⟨a, ha, hP, ha⟩⟩
  · exact ⟨w', he, hw, .inr hf⟩

theorem withFault {x : Exec α} (h : Works w E x P) : Works w (fun f => E f ∧ ∃ w', x w = .error f w') x P := by
  obtain ⟨w', he, hw, ha | ⟨f, hf, hE⟩⟩ := h
  · exact ⟨w', he, hw, .inl ha⟩
  · exact ⟨w', he, hw, .inr ⟨f, hf, hE, w', hf⟩⟩

/-! ### Changes of the world -/

theorem modified {f : World → World} (h : w.Extends (f w)) (hw : (f w).OfData) :
    Works w E (modify f) fun _ _ => True := ok (a := ()) rfl h hw trivial

/-- Making what is neither an array nor an object nor a cell. -/
theorem allocate {make : Store → α × Store} (hw : w.OfData) (arrays : (make w.store).2.arrays = w.store.arrays)
    (objects : (make w.store).2.objects = w.store.objects) (cells : (make w.store).2.cells = w.store.cells) :
    Works w E (Exec.allocate make) fun _ _ => True := by
  refine ok rfl ⟨?_, ?_, Nat.le_refl _⟩ (hw.changed ⟨?_, ?_, Nat.le_refl _⟩ rfl (fun a => .inl ?_)
    (fun o => .inl ?_) fun c => .inl ?_) trivial
  all_goals simp only [Store.array, Store.object, Store.cell, arrays, objects, cells, Nat.le_refl]

theorem newArray (hw : w.OfData) {xs : Array Value} (hx : ∀ v ∈ xs, w.IsData v) :
    Works w E (Exec.newArray xs) IsData := by
  have he : w.Extends { w with store := (w.store.newArray xs).2 } :=
    ⟨by simp [Store.newArray], Nat.le_refl _, Nat.le_refl _⟩
  refine ok rfl he (hw.changed he rfl (fun a => ?_) (fun _ => .inl rfl) fun _ => .inl rfl) ?_
  · rcases getD_push_cases w.store.arrays xs #[] a with h | h
    · refine .inr fun v hv => (hx v ?_).later he
      rwa [← h]
    · exact .inl h
  · simp [IsData, Store.newArray]

theorem allocateObject (hw : w.OfData) {es : Entries Value} (hd : es.Distinct) (hes : ∀ e ∈ es, w.IsData e.2) :
    Works w E (Exec.allocate (·.newObject es)) fun w' o => o < w'.store.objects.size := by
  have he : w.Extends { w with store := (w.store.newObject es).2 } :=
    ⟨Nat.le_refl _, by simp [Store.newObject], Nat.le_refl _⟩
  refine ok rfl he (hw.changed he rfl (fun _ => .inl rfl) (fun o => ?_) fun _ => .inl rfl) ?_
  · rcases getD_push_cases w.store.objects es [] o with h | h
    · refine .inr ⟨by rwa [← h] at hd, fun e hmem => (hes e ?_).later he⟩
      rwa [← h]
    · exact .inl h
  · simp [Store.newObject]

theorem newObject (hw : w.OfData) {es : Entries Value} (hd : es.Distinct) (hes : ∀ e ∈ es, w.IsData e.2) :
    Works w E (Exec.newObject es) IsData :=
  bind (allocateObject hw hd hes) fun _ _ _ hw' ho => pure hw' ho

theorem newCell (hw : w.OfData) {v : Value} (hv : w.IsData v) :
    Works w E (Exec.allocate (·.newCell { value := v })) fun _ _ => True := by
  have he : w.Extends { w with store := (w.store.newCell { value := v }).2 } :=
    ⟨Nat.le_refl _, Nat.le_refl _, Nat.le_refl _⟩
  refine ok rfl he (hw.changed he rfl (fun _ => .inl rfl) (fun _ => .inl rfl) fun c => ?_) trivial
  rcases getD_push_cases w.store.cells { value := v } default c with h | h
  · refine .inr ?_
    change IsData _ ((w.store.cells.push _).getD c default).value
    rw [h]
    exact hv.later he
  · exact .inl h

/-- An array holds other data. -/
theorem setArray (hw : w.OfData) {f : World → World} {a : ArrayId} (xs : Array Value) (hx : ∀ v ∈ xs, w.IsData v)
    (hf : f w = { w with store := w.store.setArray a xs }) : Works w E (modify f) fun _ _ => True := by
  have he : w.Extends (f w) := by
    rw [hf]
    exact ⟨by simp [Store.setArray], Nat.le_refl _, Nat.le_refl _⟩
  refine modified he (hw.changed he (by rw [hf]) (fun b => ?_) (fun _ => .inl (by rw [hf]; rfl))
    fun _ => .inl (by rw [hf]; rfl))
  have hb : (f w).store.array b = if a = b ∧ a < w.store.arrays.size then xs else w.store.array b := by
    rw [hf]
    exact Store.array_setArray ..
  rw [hb]
  split
  · exact .inr fun v hv => (hx v hv).later he
  · exact .inl rfl

/-- An object holds other data. -/
theorem setObject (hw : w.OfData) {f : World → World} {o : ObjectId} {es : Entries Value} (hd : es.Distinct)
    (hes : ∀ e ∈ es, w.IsData e.2) (hf : f w = { w with store := w.store.setObject o es }) :
    Works w E (modify f) fun _ _ => True := by
  have he : w.Extends (f w) := by
    rw [hf]
    exact ⟨Nat.le_refl _, by simp [Store.setObject], Nat.le_refl _⟩
  refine modified he (hw.changed he (by rw [hf]) (fun _ => .inl (by rw [hf]; rfl)) (fun p => ?_)
    fun _ => .inl (by rw [hf]; rfl))
  have hp : (f w).store.object p = if o = p ∧ o < w.store.objects.size then es else w.store.object p := by
    rw [hf]
    exact Store.object_setObject ..
  rw [hp]
  split
  · exact .inr ⟨hd, fun e hmem => (hes e hmem).later he⟩
  · exact .inl rfl

theorem setCell (hw : w.OfData) (c : CellId) {v : Value} (hv : w.IsData v) :
    Works w E (Exec.setCell c v) fun _ _ => True := by
  refine modified ⟨Nat.le_refl _, Nat.le_refl _, Nat.le_refl _⟩
    (hw.changed ⟨Nat.le_refl _, Nat.le_refl _, Nat.le_refl _⟩ rfl (fun _ => .inl rfl) (fun _ => .inl rfl) fun d => ?_)
  have hd := Store.cell_setCell w.store c d { w.store.cell c with value := v }
  change (w.store.setCell c _).cell d = w.store.cell d ∨ w.IsData ((w.store.setCell c _).cell d).value
  rw [hd]
  split
  · exact .inr hv
  · exact .inl rfl

theorem setEntry (hw : w.OfData) (v : Value) (k : Key) {item : Value} (hi : w.IsData item) :
    Works w E (Exec.setEntry v k item) fun _ _ => True := by
  have hinsert (o : ObjectId) : ∀ e ∈ Entries.insert k item (w.store.object o), w.IsData e.2 := by
    intro e he
    rcases Entries.mem_insert he with h | h
    · rw [h]
      exact hi
    · exact hw.object o e h
  unfold Exec.setEntry
  cases v with
  | object o => exact setObject hw ((hw.distinct o).insert k item) (hinsert o) rfl
  | context c => exact setObject hw ((hw.distinct _).insert k item) (hinsert _) rfl
  | _ => exact modified (.refl w) hw

/-- A new scope without entries. -/
theorem newScope (hw : w.OfData) {s : Scope} (hs : s.parent = none ∧ s.component = none ∧ s.args = none)
    (hl : s.localData = .absent) : Works w E (Exec.newScope s []) fun w' t => t < w'.scopes.size := by
  refine bind (allocateObject hw .nil (by simp)) fun w₁ o _ hw₁ ho => ?_
  have he : w₁.Extends { w₁ with scopes := w₁.scopes.push { s with context := o } } :=
    ⟨Nat.le_refl _, Nat.le_refl _, by simp⟩
  refine ok rfl he { hw₁ with scope := fun t ht => ?_ } (by simp)
  rw [Array.size_push] at ht
  by_cases hlt : t < w₁.scopes.size
  · have hold : (w₁.scopes.push { s with context := o }).getD t default = w₁.scope t :=
      getD_of_begins (prefix_push _ _) hlt _
    change World.Solitary _ ((w₁.scopes.push _).getD t default)
    rw [hold]
    exact (hw₁.scope t hlt).later he
  · obtain rfl : t = w₁.scopes.size := by omega
    change World.Solitary _ ((w₁.scopes.push _).getD w₁.scopes.size default)
    rw [getD_push_size]
    exact ⟨hs.1, hs.2.1, hs.2.2, hl, ho⟩

end Exec.Works

end EventScript
