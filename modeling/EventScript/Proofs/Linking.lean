import EventScript.Proofs.Commuting
import EventScript.Proofs.Grafting

/-!
# Links and counts

A link below a container changes the shape of the container as it is foreseen: an array grows up to the slot of the
part, and an object has one more entry if the slot was free. A context has what can be seen from its scope, each key
once, so it has one more entry only if the key could not be seen before.
-/

namespace EventScript

namespace Entries

variable {α : Type} {k : String}

theorem get?_cons (l k' : Key) (v : α) (es : Entries α) :
    get? l ((k', v) :: es) = if l.same k' then some v else get? l es := rfl

theorem length_insert (k : Key) (v : α) (es : Entries α) :
    (insert k v es).length = if has k es then es.length else es.length + 1 := by
  by_cases h : has k es = true
  · rw [if_pos h, length_insert_of_has k v es h]
  rw [if_neg h]
  induction es with
  | nil => rfl
  | cons e rest ih =>
    obtain ⟨k', v'⟩ := e
    by_cases hk : k.same k' = true
    · simp [has, get?, hk] at h
    · have hrest : ¬has k rest = true := by simpa [has, get?, hk] using h
      simp [insert, hk, ih hrest]

/-- The entries under other keys than a text. -/
def others (k : String) (es : Entries α) : Entries α := es.filter (·.1 ≠ .str k)

theorem others_cons_self (v : α) (es : Entries α) : others k ((.str k, v) :: es) = others k es := by
  simp [others]

theorem others_cons_other {l : Key} (hl : l ≠ .str k) (v : α) (es : Entries α) :
    others k ((l, v) :: es) = (l, v) :: others k es := by
  simp [others, hl]

theorem others_insert_self (v : α) (es : Entries α) : others k (insert (.str k) v es) = others k es := by
  induction es with
  | nil => exact others_cons_self v []
  | cons e rest ih =>
    obtain ⟨k', v'⟩ := e
    unfold insert
    split
    · rename_i hk
      obtain rfl := (Key.same_str k k').mp hk
      rw [others_cons_self, others_cons_self]
    · rename_i hk
      have hk' : k' ≠ .str k := fun h => hk ((Key.same_str k k').mpr h)
      rw [others_cons_other hk', others_cons_other hk', ih]

theorem others_insert_other {l : Key} (hl : l ≠ .str k) (v : α) (es : Entries α) :
    others k (insert l v es) = insert l v (others k es) := by
  induction es with
  | nil => exact others_cons_other hl v []
  | cons e rest ih =>
    obtain ⟨k', v'⟩ := e
    by_cases hk : k' = .str k
    · subst hk
      have hlk : ¬l.same (.str k) = true := by rwa [Key.same_str_right]
      rw [others_cons_self, insert, if_neg hlk, others_cons_self, ih]
    · rw [others_cons_other hk, insert, insert]
      split
      · rw [others_cons_other hk]
      · rw [others_cons_other hk, ih]

theorem has_others {l : Key} (hl : l ≠ .str k) (es : Entries α) : has l (others k es) = has l es := by
  induction es with
  | nil => rfl
  | cons e rest ih =>
    obtain ⟨k', v'⟩ := e
    unfold has at ih ⊢
    by_cases hk : k' = .str k
    · subst hk
      have hlk : ¬l.same (.str k) = true := by rwa [Key.same_str_right]
      rw [others_cons_self, ih, get?_cons, if_neg hlk]
    · rw [others_cons_other hk, get?_cons, get?_cons]
      split
      · rfl
      · exact ih

theorem has_insert (l : Key) (v : α) (es : Entries α) :
    has (.str k) (insert l v es) = (decide (l = .str k) || has (.str k) es) := by
  unfold has
  by_cases hl : l = .str k
  · subst hl
    rw [get?_insert_self, decide_eq_true rfl]
    rfl
  rw [decide_eq_false hl, Bool.false_or]
  induction es with
  | nil =>
    have hk : ¬(Key.str k).same l = true := by rwa [Key.same_str]
    rw [insert, get?_cons, if_neg hk]
  | cons e rest ih =>
    obtain ⟨k', v'⟩ := e
    unfold insert
    split
    · rename_i hlk
      have hk : ¬(Key.str k).same k' = true := by
        rw [Key.same_str]
        rintro rfl
        exact hl ((Key.same_str_right k l).mp hlk)
      rw [get?_cons, get?_cons, if_neg hk, if_neg hk]
    · rw [get?_cons, get?_cons]
      split
      · rfl
      · exact ih

/-- There is at most one entry under a text. -/
def Once (k : String) (es : Entries α) : Prop :=
  es.length = (others k es).length + if has (.str k) es then 1 else 0

theorem Once.insert {es : Entries α} (h : Once k es) (l : Key) (v : α) : Once k (insert l v es) := by
  unfold Once at h ⊢
  rw [has_insert, length_insert]
  by_cases hl : l = .str k
  · subst hl
    rw [others_insert_self]
    cases hk : has (.str k) es <;> simp [hk] at h ⊢ <;> omega
  · rw [others_insert_other hl, length_insert, has_others hl]
    cases hk : has l es <;> simp [hl] <;> omega

theorem Once.update {es : Entries α} (h : Once k es) (new : Entries α) : Once k (update es new) := by
  unfold Entries.update
  induction new generalizing es with
  | nil => exact h
  | cons e rest ih => exact ih (h.insert e.1 e.2)

/-- Entries under other keys stay the same under an update that differs under one key alone. -/
theorem others_update {es es' new new' : Entries α} (h : others k es = others k es')
    (hn : others k new = others k new') : others k (update es new) = others k (update es' new') := by
  have split (es new : Entries α) : others k (update es new) = update (others k es) (others k new) := by
    unfold update
    induction new generalizing es with
    | nil => rfl
    | cons e rest ih =>
      rw [List.foldl_cons, ih]
      by_cases he : e.1 = .str k
      · rw [he, others_insert_self]
        simp [others, he]
      · rw [others_insert_other he]
        simp [others, he]
  rw [split, split, h, hn]

theorem has_update (es new : Entries α) :
    has (.str k) (update es new) = (has (.str k) new || has (.str k) es) := by
  unfold update
  induction new generalizing es with
  | nil => rfl
  | cons e rest ih =>
    obtain ⟨k', v'⟩ := e
    rw [List.foldl_cons, ih, has_insert]
    by_cases hk : k' = .str k
    · simp [has, get?, hk, Key.same_self]
    · have hs : ¬(Key.str k).same k' = true := by rwa [Key.same_str]
      simp [has, get?, hk, hs]

end Entries

namespace World

variable {w w' : World} {v : Value} {k : String}

/-- What is seen along scopes, the farthest first. -/
def seenAlong (w : World) (ts : List ScopeId) : Entries Value :=
  ts.foldr (fun t es => Entries.update es (w.contextOf t)) []

theorem visible_eq (w : World) (s : ScopeId) : w.visible s = w.seenAlong (w.chain s) := by
  unfold visible seenAlong
  rw [List.foldl_reverse]

theorem has_seenAlong (ts : List ScopeId) :
    Entries.has (.str k) (w.seenAlong ts) =
      (ts.findSome? fun t => Entries.get? (.str k) (w.contextOf t)).isSome := by
  induction ts with
  | nil => rfl
  | cons t rest ih =>
    change Entries.has (.str k) (Entries.update (w.seenAlong rest) (w.contextOf t)) = _
    rw [Entries.has_update, ih, List.findSome?_cons]
    unfold Entries.has
    cases Entries.get? (.str k) (w.contextOf t) <;> rfl

theorem once_seenAlong (ts : List ScopeId) : Entries.Once k (w.seenAlong ts) := by
  induction ts with
  | nil => rfl
  | cons t rest ih => exact ih.update _

/-- An object or a context has one more entry after a link under a key that it did not have. -/
theorem length_withEntry {x : Place} (hk : v.kind = .object) (hx : w.placeOf v = some x) (hw : w.Has x)
    (item : Value) : ((w.withEntry v (.str k) item).entries v).length =
      if (w.valueAt? v (.str k)).isSome then (w.entries v).length else (w.entries v).length + 1 := by
  cases v with
  | object o =>
    cases hx
    change ((w.store.setObject o _).object o).length = _
    rw [Store.object_setObject, if_pos ⟨rfl, hw⟩, Entries.length_insert]
    rfl
  | context c =>
    have hnew := valueAt?_withEntry hk hx hw (.str k) item
    have hchanged := withEntry_changedAt w (v := .context c) rfl (.str k) item
    have hview := hchanged.sameView (.context c)
    generalize hw' : w.withEntry (.context c) (.str k) item = w' at hnew hchanged hview
    have hcontext (t : ScopeId) : Entries.others k (w'.contextOf t) = Entries.others k (w.contextOf t) := by
      rw [← hw']
      change Entries.others k ((w.store.setObject _ _).object (w.scope t).context) = _
      rw [Store.object_setObject]
      split
      · rename_i h
        rw [Entries.others_insert_self, h.1]
        rfl
      · rfl
    have hothers (ts : List ScopeId) :
        Entries.others k (w'.seenAlong ts) = Entries.others k (w.seenAlong ts) := by
      induction ts with
      | nil => rfl
      | cons t rest ih => exact Entries.others_update ih (hcontext t)
    have hbefore : Entries.Once k (w.seenAlong (w.chain (w.store.view c))) := once_seenAlong _
    have hafter : Entries.Once k (w'.seenAlong (w.chain (w.store.view c))) := once_seenAlong _
    change ((w'.chain (w'.store.view c)).findSome? fun t => Entries.get? (.str k) (w'.contextOf t)) = some item at hnew
    rw [hview.chain] at hnew
    unfold Entries.Once at hbefore hafter
    rw [has_seenAlong] at hbefore hafter
    rw [hothers, hnew, Option.isSome_some, if_pos rfl] at hafter
    change (w'.visible (w'.store.view c)).length = if (w.lookup? (w.store.view c) (.str k)).isSome then
      (w.visible (w.store.view c)).length else (w.visible (w.store.view c)).length + 1
    unfold lookup?
    rw [visible_eq, visible_eq, hview.chain, hafter, hbefore]
    generalize (List.findSome? _ _).isSome = had
    cases had <;> rfl
  | _ => cases hk

theorem entries_congr (hv : w.SameView w' v) (h : ∀ x ∈ w.touched v, w.SameAt w' x) : w'.entries v = w.entries v := by
  cases v with
  | object o => exact h (.object o) (by simp [touched, Value.own?])
  | context c => exact visible_congr hv h
  | _ => rfl

theorem Padded.entries {m : World} (h : w.Padded m) (v : Value) : m.entries v = w.entries v := by
  cases v with
  | object o => exact h.object o
  | context c =>
    refine visible_congr (h.sameView _) fun x hx => ?_
    obtain ⟨t, -, rfl⟩ := List.mem_map.mp hx
    exact h.object _
  | _ => rfl

/-- A link below an object or a context gives it one more entry unless it has one for the key. -/
theorem length_linked {x : Place} (hk : v.kind = .object) (hx : w.placeOf v = some x) (hw : w.Has x)
    (old new : Value) : ((w.linked v (.key k) old new).entries v).length =
      if (w.valueAt? v (.str k)).isSome then (w.entries v).length else (w.entries v).length + 1 := by
  change ((if new != old || (w.valueAt? v (.str k)).isNone then w.withEntry v (.str k) new else w).entries v).length = _
  split
  · exact length_withEntry hk hx hw new
  · rename_i hsame
    simp only [Bool.or_eq_true, not_or, Bool.not_eq_true, Option.isNone_eq_false_iff] at hsame
    rw [if_pos hsame.2]

/-- The shape of an array is its size: it has the slots below. -/
theorem size_of_slots {a : ArrayId} {n : Nat} (h : ∀ i, (w.slot? (.array a) (.index i)).isSome = true ↔ i < n) :
    (w.store.array a).size = n := by
  have hslot (i : Nat) : i < (w.store.array a).size ↔ i < n := by
    rw [← h i]
    change _ ↔ ((w.store.array a)[i]?).isSome = true
    simp
  rcases Nat.lt_trichotomy (w.store.array a).size n with hlt | heq | hlt
  · exact absurd ((hslot _).mpr hlt) (Nat.lt_irrefl _)
  · exact heq
  · exact absurd ((hslot _).mp hlt) (Nat.lt_irrefl _)

section Step

variable {cur : Value} {part : Part} {rest : List Part} {m₀ w₁ : World} {x : Place} {s : Slot}
  (ho : w.Opened cur part v m₀) (hd : w.Distinct (part :: rest) cur)
  (ha : Opened.At w rest cur part v m₀ x) (hw : m₀.Spares (m₀.OffTrail rest (w.next cur part)) w₁)
include ho hd ha hw

/-- An array reaches up to the slot of a part after the link. -/
theorem Opened.size_linked {i : Int} {a : ArrayId} (hpart : part = .index i) (hv : v = .array a) {n : Nat}
    (hn : ∀ j, (w.slot? cur (.index j)).isSome = true ↔ j < n) (new : Value) :
    ((w₁.linked v part (w.next cur part) new).store.array a).size = max n (i.toNat + 1) := by
  subst hpart
  refine size_of_slots fun j => ?_
  rw [← hv]
  by_cases hj : j = i.toNat
  · rw [ho.slot?_self ha hw new (s := .index j) (by rw [hj]; rfl)]
    simp
    omega
  · have hslot : (Part.index i).slot? ≠ some (.index j) := by
      intro h
      cases h
      exact hj rfl
    rw [ho.slot?_other hd ha hw new hslot, Option.isSome_or, Bool.or_eq_true, hn]
    change _ ∨ (if j < i.toNat then some Value.null else none).isSome = true ↔ _
    split <;> simp <;> omega

/-- An object or a context has one more entry after the link unless it had one for the key. -/
theorem Opened.length_linked {k : String} (hpart : part = .key k) (new : Value) :
    ((w₁.linked v part (w.next cur part) new).entries v).length =
      if (w.slot? cur (.key (.str k))).isSome then (w.entries cur).length else (w.entries cur).length + 1 := by
  subst hpart
  have hk : v.kind = .object := ho.lands.2.resolve_left (by simp [ho.lands.1])
  obtain ⟨hview, hkept⟩ := ho.kept hd ha hw
  have hx := placeOf_mem_touched ha.place
  -- A fresh object has no entries, and neither has null.
  have hbefore : w.entries v = w.entries cur ∧ w.slot? v (.key (.str k)) = w.slot? cur (.key (.str k)) := by
    by_cases hn : cur.isNull = true
    · obtain ⟨y, hy, hno, -⟩ := ho.fresh hn
      cases v with
      | object o =>
        cases hy
        have hempty : w.store.object o = [] := by
          unfold Store.object
          rw [Array.getD_eq_getD_getElem?, Array.getElem?_eq_none (Nat.not_lt.mp hno)]
          rfl
        rw [w.slot?_of_isNull hn]
        refine ⟨?_, ?_⟩
        · change w.store.object o = _
          rw [hempty]
          cases cur <;> first | rfl | cases hn
        · change Entries.get? (.str k) (w.store.object o) = none
          rw [hempty]
          rfl
      | context c => cases hy
      | _ => cases hk
    · rw [ho.same (by simpa using hn)]
      exact ⟨rfl, rfl⟩
  have hslot : w₁.valueAt? v (.str k) = w.slot? cur (.key (.str k)) := by
    rw [← hbefore.2]
    exact (ho.slot?_kept hd ha hw (.key (.str k))).trans (ho.padded.valueAt? v (.str k))
  have hentries : w₁.entries v = w.entries cur := by
    rw [← hbefore.1, ← ho.padded.entries v]
    exact entries_congr hview fun z hz => (hkept z hz).2
  rw [World.length_linked hk (hview.placeOf.trans ha.place) (hkept x hx).1, hslot, hentries]

/-- After the link the container has the shape of the value, opened for the part. -/
theorem Opened.shape_linked (hs : part.slot? = some s) (new : Value) :
    (w₁.linked v part (w.next cur part) new).shape v = (w.shape cur).opened part (w.slot? cur s).isSome := by
  have hnot : ¬v.isNull = true := by simp [ho.lands.1]
  cases part with
  | index i =>
    cases hs
    obtain ⟨⟨a, ha'⟩, -⟩ := ho.lands.2.resolve_left hnot
    by_cases hn : cur.isNull = true
    · have hsize := ho.size_linked hd ha hw rfl ha' (n := 0) (by simp [w.slot?_of_isNull hn]) new
      rw [ha'] at hsize ⊢
      have hopened : (w.shape cur).opened (.index i) (w.slot? cur (.index i.toNat)).isSome = .array (i.toNat + 1) := by
        cases cur with
        | null => rfl
        | absent => rfl
        | _ => cases hn
      rw [hopened, ← Nat.zero_max (i.toNat + 1), ← hsize]
      rfl
    · obtain rfl := ho.same (by simpa using hn)
      have hsize := ho.size_linked hd ha hw rfl ha' (n := (w.store.array a).size)
        (by rw [ha']; simp [World.slot?]) new
      rw [ha'] at hsize ⊢
      exact congrArg Shape.array hsize
  | key k =>
    cases hs
    have hk : v.kind = .object := ho.lands.2.resolve_left hnot
    have hlength := ho.length_linked hd ha hw rfl new
    by_cases hn : cur.isNull = true
    · obtain ⟨y, hy, -, -⟩ := ho.fresh hn
      cases v with
      | object o =>
        refine (congrArg Shape.object hlength).trans ?_
        cases cur with
        | null => rfl
        | absent => rfl
        | _ => cases hn
      | context c => cases hy
      | _ => cases hk
    · obtain rfl := ho.same (by simpa using hn)
      cases v with
      | object o => exact congrArg Shape.object hlength
      | context c => exact congrArg Shape.view hlength
      | _ => cases hk
  | _ => cases hs

end Step

end World

end EventScript
