import EventScript.World

/-!
# Growth

A store grows when its pools become longer and everything that was in them stays as it was. A world grows when its
store does and when scopes are added; what it counts, logs and prints is left open.
-/

namespace EventScript

/-- All pools of `s` are beginnings of those of `t`. -/
structure Store.Grown (s t : Store) : Prop where
  arrays : s.arrays.toList <+: t.arrays.toList
  objects : s.objects.toList <+: t.objects.toList
  blobs : s.blobs.toList <+: t.blobs.toList
  lambdas : s.lambdas.toList <+: t.lambdas.toList
  nodeLists : s.nodeLists.toList <+: t.nodeLists.toList
  errors : s.errors.toList <+: t.errors.toList
  handles : s.handles.toList <+: t.handles.toList
  cells : s.cells.toList <+: t.cells.toList
  views : s.views.toList <+: t.views.toList
  foreigns : s.foreigns.toList <+: t.foreigns.toList

/-- The world has only been added to. -/
structure World.Grown (w w' : World) : Prop where
  store : w.store.Grown w'.store
  scopes : w.scopes.toList <+: w'.scopes.toList
  globalCell : w'.globalCell = w.globalCell
  stateCell : w'.stateCell = w.stateCell
  limits : w'.limits = w.limits
  functions : w'.functions = w.functions
  host : w'.host = w.host
  notices : w'.notices = w.notices

section Pools

variable {α : Type} {xs ys : Array α}

theorem prefix_push (xs : Array α) (x : α) : xs.toList <+: (xs.push x).toList := by
  rw [Array.toList_push]
  exact List.prefix_append _ _

theorem size_le_of_begins (h : xs.toList <+: ys.toList) : xs.size ≤ ys.size := by
  rw [← Array.length_toList, ← Array.length_toList]
  exact h.length_le

theorem getD_of_begins (h : xs.toList <+: ys.toList) {i : Nat} (hi : i < xs.size) (d : α) :
    ys.getD i d = xs.getD i d := by
  obtain ⟨zs, hz⟩ := h
  have hy : ys = xs ++ zs.toArray := by
    apply Array.toList_inj.mp
    simp [← hz]
  rw [hy, Array.getD_eq_getD_getElem?, Array.getD_eq_getD_getElem?, Array.getElem?_append_left hi]

theorem getD_push_cases (xs : Array α) (x d : α) (i : Nat) :
    (xs.push x).getD i d = x ∨ (xs.push x).getD i d = xs.getD i d := by
  simp only [Array.getD_eq_getD_getElem?, Array.getElem?_push]
  split
  · exact .inl rfl
  · exact .inr rfl

end Pools

namespace Store.Grown

variable {s t u : Store}

theorem refl (s : Store) : s.Grown s := by
  constructor <;> exact List.prefix_refl _

theorem trans (h : s.Grown t) (k : t.Grown u) : s.Grown u where
  arrays := h.arrays.trans k.arrays
  objects := h.objects.trans k.objects
  blobs := h.blobs.trans k.blobs
  lambdas := h.lambdas.trans k.lambdas
  nodeLists := h.nodeLists.trans k.nodeLists
  errors := h.errors.trans k.errors
  handles := h.handles.trans k.handles
  cells := h.cells.trans k.cells
  views := h.views.trans k.views
  foreigns := h.foreigns.trans k.foreigns

theorem newArray (s : Store) (xs : Array Value) : s.Grown (s.newArray xs).2 :=
  { refl s with arrays := prefix_push _ _ }

theorem newObject (s : Store) (es : Entries Value) : s.Grown (s.newObject es).2 :=
  { refl s with objects := prefix_push _ _ }

theorem newBlob (s : Store) (b : Blob) : s.Grown (s.newBlob b).2 :=
  { refl s with blobs := prefix_push _ _ }

theorem newLambda (s : Store) (l : Lambda) : s.Grown (s.newLambda l).2 :=
  { refl s with lambdas := prefix_push _ _ }

theorem newNodeList (s : Store) (ns : List Node) : s.Grown (s.newNodeList ns).2 :=
  { refl s with nodeLists := prefix_push _ _ }

theorem newError (s : Store) (e : ErrorRecord) : s.Grown (s.newError e).2 :=
  { refl s with errors := prefix_push _ _ }

theorem newHandle (s : Store) (h : Handle) : s.Grown (s.newHandle h).2 :=
  { refl s with handles := prefix_push _ _ }

theorem newView (s : Store) (scope : ScopeId) : s.Grown (s.newView scope).2 :=
  { refl s with views := prefix_push _ _ }

end Store.Grown

namespace World.Grown

variable {w w' w'' : World}

theorem refl (w : World) : w.Grown w where
  store := .refl _
  scopes := List.prefix_refl _
  globalCell := rfl
  stateCell := rfl
  limits := rfl
  functions := rfl
  host := rfl
  notices := rfl

theorem trans (h : w.Grown w') (k : w'.Grown w'') : w.Grown w'' where
  store := h.store.trans k.store
  scopes := h.scopes.trans k.scopes
  globalCell := k.globalCell.trans h.globalCell
  stateCell := k.stateCell.trans h.stateCell
  limits := k.limits.trans h.limits
  functions := k.functions.trans h.functions
  host := k.host.trans h.host
  notices := k.notices.trans h.notices

theorem ofStore {s : Store} (h : w.store.Grown s) : w.Grown { w with store := s } :=
  { refl w with store := h }

end World.Grown

end EventScript
