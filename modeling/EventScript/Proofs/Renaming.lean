import EventScript.Proofs.Openings
import Mathlib.Logic.Equiv.Defs

/-!
# New names for containers

Two worlds that hold the same but for the numbers of arrays and objects: one is the other under new names.
-/

namespace EventScript

/-- New names for arrays and objects. -/
structure Renaming where
  array : Equiv.Perm ArrayId
  object : Equiv.Perm ObjectId

namespace Renaming

variable (ρ : Renaming)

/-- A value under new names. -/
def value : Value → Value
  | .array a => .array (ρ.array a)
  | .object o => .object (ρ.object o)
  | v => v

/-- The entries of an object under new names. -/
def entries (es : Entries Value) : Entries Value := es.map fun e => (e.1, ρ.value e.2)

theorem isNull_value (v : Value) : (ρ.value v).isNull = v.isNull := by
  cases v <;> rfl

theorem insert_entries (k : Key) (v : Value) (es : Entries Value) :
    Entries.insert k (ρ.value v) (ρ.entries es) = ρ.entries (Entries.insert k v es) := by
  induction es with
  | nil => rfl
  | cons e rest ih =>
    obtain ⟨l, u⟩ := e
    change (if k.same l then _ else _ :: Entries.insert k (ρ.value v) (ρ.entries rest)) =
      ρ.entries (if k.same l then _ else _)
    split
    · rfl
    · rw [ih]
      rfl

/-- The containers that a world has keep their names. -/
structure Fixes (w : World) : Prop where
  array : ∀ a, w.Has (.array a) → ρ.array a = a
  object : ∀ o, w.Has (.object o) → ρ.object o = o

variable {ρ}

theorem Fixes.value {w : World} (h : ρ.Fixes w) {v : Value} (hv : ∀ x, v.own? = some x → w.Has x) : ρ.value v = v := by
  cases v with
  | array a => exact congrArg Value.array (h.array a (hv _ rfl))
  | object o => exact congrArg Value.object (h.object o (hv _ rfl))
  | _ => rfl

end Renaming

/-- The permutation that makes `s` numbers from `n + t` on come before the `t` numbers from `n` on. -/
def rotation (n t s : Nat) : Equiv.Perm Nat where
  toFun i := if i < n then i else if i < n + t then i + s else if i < n + t + s then i - t else i
  invFun i := if i < n then i else if i < n + s then i + t else if i < n + s + t then i - s else i
  left_inv i := by
    dsimp only
    split_ifs <;> omega
  right_inv i := by
    dsimp only
    split_ifs <;> omega

theorem rotation_low {n t s i : Nat} (h : i < n) : rotation n t s i = i := if_pos h

theorem rotation_first {n t s i : Nat} (h : i < t) : rotation n t s (n + i) = n + s + i := by
  change (if n + i < n then _ else if n + i < n + t then _ else _) = _
  rw [if_neg (by omega), if_pos (by omega)]
  omega

theorem rotation_second {n t s i : Nat} (h : i < s) : rotation n t s (n + t + i) = n + i := by
  change (if n + t + i < n then _ else if n + t + i < n + t then _ else if n + t + i < n + t + s then _ else _) = _
  rw [if_neg (by omega), if_neg (by omega), if_pos (by omega)]
  omega

theorem rotation_high {n t s i : Nat} (h : n + t + s ≤ i) : rotation n t s i = i := by
  change (if i < n then _ else if i < n + t then _ else if i < n + t + s then _ else _) = _
  rw [if_neg (by omega), if_neg (by omega), if_neg (by omega)]

/-- Two blocks at the end of an array that have changed places are found by the rotation of their numbers. -/
theorem getD_rotation {α : Type} {f : α → α} {d : α} (hd : f d = d) (base front back : Array α)
    (hbase : ∀ i, i < base.size → f (base.getD i d) = base.getD i d) (i : Nat) :
    (base ++ back.map f ++ front.map f).getD (rotation base.size front.size back.size i) d =
      f ((base ++ front ++ back).getD i d) := by
  simp only [Array.getD_eq_getD_getElem?] at hbase ⊢
  by_cases h₁ : i < base.size
  · rw [rotation_low h₁, Array.getElem?_append_left (by simp; omega), Array.getElem?_append_left h₁,
      Array.getElem?_append_left (by simp; omega), Array.getElem?_append_left h₁, hbase i h₁]
  obtain ⟨j, rfl⟩ := Nat.exists_eq_add_of_le (Nat.not_lt.mp h₁)
  by_cases h₂ : j < front.size
  · rw [rotation_first h₂, Array.getElem?_append_right (by simp), Array.getElem?_append_left (by simp; omega),
      Array.getElem?_append_right (by omega)]
    simp only [Array.size_append, Array.size_map, Nat.add_sub_cancel_left, Array.getElem?_map]
    rw [Array.getElem?_eq_getElem h₂]
    rfl
  obtain ⟨k, rfl⟩ := Nat.exists_eq_add_of_le (Nat.not_lt.mp h₂)
  rw [← Nat.add_assoc] at h₁ ⊢
  by_cases h₃ : k < back.size
  · rw [rotation_second h₃, Array.getElem?_append_left (by simp; omega), Array.getElem?_append_right (by omega),
      Array.getElem?_append_right (by simp)]
    simp only [Array.size_append, Nat.add_sub_cancel_left, Array.getElem?_map]
    rw [Array.getElem?_eq_getElem h₃]
    rfl
  · rw [rotation_high (by omega), Array.getElem?_eq_none (by simp; omega), Array.getElem?_eq_none (by simp; omega)]
    exact hd.symm

namespace World

variable {ρ : Renaming} {w w' : World}

/-- One world holds what another holds, under new names for arrays and objects; all else is the same. -/
structure Renamed (ρ : Renaming) (w w' : World) : Prop where
  arrays : w'.store.arrays.size = w.store.arrays.size
  objects : w'.store.objects.size = w.store.objects.size
  array : ∀ a, w'.store.array (ρ.array a) = (w.store.array a).map ρ.value
  object : ∀ o, w'.store.object (ρ.object o) = ρ.entries (w.store.object o)
  rest : w' = { w with store := { w.store with arrays := w'.store.arrays, objects := w'.store.objects } }

/-- Two worlds that come from a third hold the same, but for the identity of arrays and objects that the third does not
have yet. -/
def SameButNew (w₀ w w' : World) : Prop := ∃ ρ : Renaming, ρ.Fixes w₀ ∧ Renamed ρ w w'

theorem sameButNew_refl (w₀ w : World) : SameButNew w₀ w w := by
  have hid (v : Value) : Renaming.value ⟨.refl _, .refl _⟩ v = v := by cases v <;> rfl
  refine ⟨⟨.refl _, .refl _⟩, ⟨fun _ _ => rfl, fun _ _ => rfl⟩, rfl, rfl, fun a => ?_, fun o => ?_, rfl⟩
  · rw [funext hid]
    simp
  · unfold Renaming.entries
    simp [hid]

theorem Renamed.setArray (h : w.Renamed ρ w') {a : ArrayId} (ha : ρ.array a = a) {xs ys : Array Value}
    (hxs : ys = xs.map ρ.value) :
    ({ w with store := w.store.setArray a xs } : World).Renamed ρ { w' with store := w'.store.setArray a ys } where
  arrays := by simpa [Store.setArray] using h.arrays
  objects := h.objects
  array b := by
    change (w'.store.setArray a ys).array (ρ.array b) = ((w.store.setArray a xs).array b).map ρ.value
    rw [Store.array_setArray, Store.array_setArray, h.arrays, h.array, hxs]
    by_cases hb : a = b
    · subst hb
      rw [ha]
      split <;> rfl
    · have hb' : a ≠ ρ.array b := fun hab => hb (ρ.array.injective (ha.trans hab))
      rw [if_neg fun hc => hb' hc.1, if_neg fun hc => hb hc.1]
  object := h.object
  rest := by
    have hr := congrArg (fun u : World => ({ u with store :=
      { u.store with arrays := (w'.store.setArray a ys).arrays, objects := w'.store.objects } } : World)) h.rest
    exact hr

theorem Renamed.setObject (h : w.Renamed ρ w') {o : ObjectId} (ho : ρ.object o = o) {es fs : Entries Value}
    (hes : fs = ρ.entries es) :
    ({ w with store := w.store.setObject o es } : World).Renamed ρ { w' with store := w'.store.setObject o fs } where
  arrays := h.arrays
  objects := by simpa [Store.setObject] using h.objects
  array := h.array
  object p := by
    change (w'.store.setObject o fs).object (ρ.object p) = ρ.entries ((w.store.setObject o es).object p)
    rw [Store.object_setObject, Store.object_setObject, h.objects, h.object]
    by_cases hp : o = p
    · subst hp
      rw [ho]
      split
      · exact hes
      · rfl
    · have hp' : o ≠ ρ.object p := fun hop => hp (ρ.object.injective (ho.trans hop))
      rw [if_neg fun hc => hp' hc.1, if_neg fun hc => hp hc.1]
  rest := by
    have hr := congrArg (fun u : World => ({ u with store :=
      { u.store with arrays := w'.store.arrays, objects := (w'.store.setObject o fs).objects } } : World)) h.rest
    exact hr

theorem Renamed.withEntry (h : w.Renamed ρ w') {w₀ : World} (hρ : ρ.Fixes w₀) {v : Value} {x : Place}
    (hx : w.placeOf v = some x) (h₀ : w₀.Has x) (k : Key) (item : Value) :
    (w.withEntry v k item).Renamed ρ (w'.withEntry v k (ρ.value item)) := by
  have entry {o : ObjectId} (ho : ρ.object o = o) :
      Entries.insert k (ρ.value item) (w'.store.object o) = ρ.entries (Entries.insert k item (w.store.object o)) := by
    have hobject := h.object o
    rw [ho] at hobject
    rw [hobject, ρ.insert_entries]
  cases v with
  | object o =>
    cases hx
    exact h.setObject (hρ.object o h₀) (entry (hρ.object o h₀))
  | context c =>
    cases hx
    have hscope : w'.scope (w'.store.view c) = w.scope (w.store.view c) := by
      rw [h.rest]
      rfl
    have ho := hρ.object _ h₀
    unfold World.withEntry
    dsimp only
    rw [hscope]
    exact h.setObject ho (entry ho)
  | _ => exact h

/-- Linking a new value below a container that has kept its name makes no difference. -/
theorem Renamed.linked (h : w.Renamed ρ w') {w₀ : World} (hρ : ρ.Fixes w₀) {v : Value} {x : Place}
    (hx : w.placeOf v = some x) (h₀ : w₀.Has x) (part : Part) {old new : Value} (hold : old.isNull = true)
    (hnew : new.isNull = false) : (w.linked v part old new).Renamed ρ (w'.linked v part old (ρ.value new)) := by
  have hne : new ≠ old := by
    rintro rfl
    rw [hold] at hnew
    cases hnew
  have hne' : ρ.value new ≠ old := by
    intro hn
    rw [← hn, ρ.isNull_value, hnew] at hold
    cases hold
  cases part with
  | index i =>
    cases v with
    | array a =>
      cases hx
      have ha := hρ.array a h₀
      have harray := h.array a
      rw [ha] at harray
      refine h.setArray ha ?_
      rw [harray, Array.map_setIfInBounds]
    | _ => exact h
  | key k =>
    change (if new != old || (w.valueAt? v (.str k)).isNone then w.withEntry v (.str k) new else w).Renamed ρ
      (if ρ.value new != old || (w'.valueAt? v (.str k)).isNone then w'.withEntry v (.str k) (ρ.value new) else w')
    rw [if_pos (by simp [hne]), if_pos (by simp [hne'])]
    exact h.withEntry hρ hx h₀ (.str k) new
  | _ => exact h

end World

end EventScript
