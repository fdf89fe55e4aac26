import EventScript.Proofs.JsonRoundTrip
import EventScript.Proofs.Reachable

/-!
# Fresh copies

A copy mirrors a value slot by slot: it has leaves for its leaves, blobs like its blobs, and containers of its own. It
is fresh if all its containers are new and only one way leads to each of them. Copies made one after the other have
nothing in common, so that a new container with fresh copies in its slots is fresh itself.
-/

namespace EventScript

theorem Slot.Same.symm {s t : Slot} (h : s.Same t) : t.Same s := by
  cases s <;> cases t
  · exact Eq.symm h
  · exact h
  · exact h
  · exact Key.same_symm h

theorem Slot.Same.trans {s t r : Slot} (h : s.Same t) (k : t.Same r) : s.Same r := by
  cases s <;> cases t <;> cases r
  all_goals first | exact h.elim | exact k.elim | exact Eq.trans h k | exact Key.same_trans h k

/-- A value that has no contents and is no blob. -/
def Value.Leaf (u : Value) : Prop := u.kind ≠ .array ∧ u.kind ≠ .object ∧ u.own? = none

namespace World

variable {w w' w₁ w₂ w₃ : World} {lead : HandleId → Option Value} {v u c : Value}

theorem slot?_same (w : World) (v : Value) {s t : Slot} (h : s.Same t) : w.slot? v s = w.slot? v t := by
  cases s with
  | index i =>
    cases t with
    | index j => rw [show i = j from h]
    | key l => exact h.elim
  | key k =>
    cases t with
    | index j => exact h.elim
    | key l =>
      have hget (es : Entries Value) : Entries.get? k es = Entries.get? l es := Entries.get?_same h es
      cases v with
      | object o => exact hget _
      | context c => simp only [slot?, valueAt?, lookup?, hget]
      | _ => rfl

theorem slot?_of_leaf (w : World) (ha : u.kind ≠ .array) (ho : u.kind ≠ .object) (s : Slot) : w.slot? u s = none := by
  cases s with
  | index i =>
    cases u with
    | array a => exact absurd rfl ha
    | _ => rfl
  | key k =>
    cases u with
    | object o => exact absurd rfl ho
    | context c => exact absurd rfl ho
    | _ => rfl

/-- In a tree without loose places, ways to a common place are the same. -/
theorem Tree.treeShaped (h : w.Tree (fun _ => False) v) : w.TreeShaped v := by
  intro ways ways' y y' hy hy' hx
  obtain ⟨x, hx, hx'⟩ := hx
  induction ways generalizing v ways' with
  | nil =>
    cases hy
    cases ways' with
    | nil => exact .nil
    | cons s rest =>
      obtain ⟨u, hs, hu⟩ := Option.bind_eq_some_iff.mp hy'
      exact absurd ⟨y', ⟨rest, hu⟩, hx'⟩ (h.alone (.self w _) hs hx id)
  | cons s rest ih =>
    obtain ⟨u, hs, hu⟩ := Option.bind_eq_some_iff.mp hy
    cases ways' with
    | nil =>
      cases hy'
      exact absurd ⟨y, ⟨rest, hu⟩, hx⟩ (h.alone (.self w _) hs hx' id)
    | cons t rest' =>
      obtain ⟨u', ht, hu'⟩ := Option.bind_eq_some_iff.mp hy'
      have hst : s.Same t := h.apart (.self w _) hs ht ⟨y, ⟨rest, hu⟩, hx⟩ ⟨y', ⟨rest', hu'⟩, hx'⟩ id
      rw [← slot?_same w v hst, hs] at ht
      cases ht
      exact .cons hst (ih (h.inside (.step hs (.self w u))) rest' hu hu')

theorem Tree.of_leaf {loose : Place → Prop} (hu : w.Knows u) (ha : u.kind ≠ .array) (ho : u.kind ≠ .object) :
    w.Tree loose u := by
  refine .of_slots hu (fun s x hs => ?_) (fun s x p hs => ?_) fun s t a b x hs => ?_
  all_goals
    rw [w.slot?_of_leaf ha ho] at hs
    cases hs

/-! ### What a copy is -/

/-- A value of a world, handles seen through, and a copy of it in another world: the same leaf, a blob like it, or a
container of its own with mirrored values in the same slots. -/
inductive Mirrors (w : World) (lead : HandleId → Option Value) (w' : World) : Value → Value → Prop where
  | leaf {v u : Value} : v.behind? lead = some u → u.Leaf → Mirrors w lead w' v u
  | blob {v : Value} {b d : BlobId} : v.behind? lead = some (.blob b) → w'.Has (.blob d) →
      w'.store.blob d = w.store.blob b → Mirrors w lead w' v (.blob d)
  | container {v u c : Value} : v.behind? lead = some u → (u.kind = .array ∨ u.kind = .object) → c.kind = u.kind →
      w'.Knows c → w'.Keyed c → (∀ s, (w'.slot? c s).isSome = (w.slot? u s).isSome) →
      (∀ s x y, w.slot? u s = some x → w'.slot? c s = some y → Mirrors w lead w' x y) → Mirrors w lead w' v c

theorem Keyed.grown (hk : w.Keyed u) (hu : w.Knows u) (h : w.Grown w') : w'.Keyed u := by
  intro o ho
  rw [(hu.agrees_grown h).1.touched] at ho
  have hsame : w'.store.object o = w.store.object o := (hu.agrees_grown h).2 _ ho
  rw [hsame]
  exact hk o ho

theorem Knows.grown (hu : w.Knows u) (h : w.Grown w') : w'.Knows u :=
  h.keeps.spares.knows hu fun _ _ => trivial

theorem Mirrors.grown (h : w.Mirrors lead w₁ v c) (hg : w₁.Grown w₂) : w.Mirrors lead w₂ v c := by
  induction h with
  | leaf hu hl => exact .leaf hu hl
  | blob hb hd hsame =>
    have hkept : w₂.store.blob _ = w₁.store.blob _ := hg.sameAt hd
    exact .blob hb (hg.has hd) (hkept.trans hsame)
  | container hu hk hc hknows hkeyed hslots _ ih =>
    refine .container hu hk hc (hknows.grown hg) (hkeyed.grown hknows hg) (fun s => ?_) fun s x y hx hy => ?_
    · rw [slot?_grown hknows hg]
      exact hslots s
    · rw [slot?_grown hknows hg] at hy
      exact ih s x y hx hy

/-- A copy that has been made between two worlds: it mirrors the value, all in it is new, and it is a tree. -/
structure FreshCopy (w : World) (lead : HandleId → Option Value) (w₁ : World) (v c : Value) (w₂ : World) : Prop where
  grown : w₁.Grown w₂
  mirrors : w.Mirrors lead w₂ v c
  allNew : w₁.AllNew w₂ c
  tree : w₂.Tree (fun _ => False) c

namespace FreshCopy

theorem earlier (h : w.FreshCopy lead w₂ v c w₃) (hg : w₁.Grown w₂) : w.FreshCopy lead w₁ v c w₃ where
  grown := hg.trans h.grown
  mirrors := h.mirrors
  allNew := h.allNew.of_later hg.keeps
  tree := h.tree

theorem later (h : w.FreshCopy lead w₁ v c w₂) (hg : w₂.Grown w₃) : w.FreshCopy lead w₁ v c w₃ where
  grown := h.grown.trans hg
  mirrors := h.mirrors.grown hg
  allNew := h.allNew.kept hg.keeps
  tree := h.tree.spared hg.keeps.spares fun _ _ => trivial

variable {x : Place}

theorem has (h : w.FreshCopy lead w₁ v c w₂) (hg : w₂.Grown w₃) (hx : w₃.Holds c x) : w₂.Has x :=
  h.tree.whole.has ((hg.keeps.spares.agrees h.tree.whole fun _ _ => trivial).holds.mp hx)

theorem not_has (h : w.FreshCopy lead w₁ v c w₂) (hx : w₂.Holds c x) : ¬w₁.Has x := by
  obtain ⟨y, hy, hxy⟩ := hx
  obtain ⟨hc, hnew⟩ := h.allNew y hy
  rw [touched_of_not_context w₂ hc] at hxy
  exact (hnew x (Option.mem_toList.mp hxy)).2

end FreshCopy

/-- Two values hold no place in common. -/
def Disjoint (w : World) (v u : Value) : Prop := ∀ x, w.Holds v x → ¬w.Holds u x

/-- Copies of several values, made one after the other, have nothing in common. -/
theorem threaded_copies {xs : List (Slot × Value)} {cs : List Value}
    (h : Threaded (fun w₁ x c w₂ => w.FreshCopy lead w₁ x.2 c w₂) w₁ xs cs w₂) :
    w₁.Grown w₂ ∧ List.Forall₂ (fun x c => w.FreshCopy lead w₁ x.2 c w₂) xs cs ∧ cs.Pairwise w₂.Disjoint := by
  induction h with
  | nil => exact ⟨.refl _, .nil, .nil⟩
  | cons hfirst hrest ih =>
    obtain ⟨hg, hall, hapart⟩ := ih
    refine ⟨hfirst.grown.trans hg, .cons (hfirst.later hg) (hall.imp fun x c h => h.earlier hfirst.grown),
      List.pairwise_cons.mpr ⟨fun c hc x hx hx' => ?_, hapart⟩⟩
    obtain ⟨y, -, hy⟩ := exists_of_forall₂ hall.flip hc
    exact hy.not_has hx' (hfirst.has hg hx)

/-! ### New containers -/

/-- A new container with given values in given slots. -/
structure NewContainer (w₁ : World) (slots : List Slot) (cs : List Value) (c : Value) (w₂ : World) : Prop where
  grown : w₁.Grown w₂
  own : ∃ x, c.own? = some x ∧ w₂.Has x ∧ ¬w₁.Has x
  notContext : ∀ x, c ≠ .context x
  keyed : w₂.Keyed c
  contents : w₂.contents c = slots.zip cs

/-- A new container of the kind of a value, with other values in its slots. -/
def rebuilt (w : World) (u : Value) (cs : List Value) : Exec Value :=
  match u with
  | .array _ => Exec.newArray cs.toArray
  | u => Exec.newObject (((w.entries u).map Prod.fst).zip cs)

theorem newArray_container (w₁ : World) (cs : List Value) :
    ∃ c w₂, Exec.newArray cs.toArray w₁ = .ok c w₂ ∧ c.kind = .array ∧
      w₁.NewContainer ((List.range cs.length).map .index) cs c w₂ := by
  refine ⟨_, _, rfl, rfl, .ofStore (.newArray _ _), ⟨_, rfl, ?_, Nat.lt_irrefl _⟩, by simp, fun o ho => ?_, ?_⟩
  · simp [Has, Store.newArray]
  · cases ho with | tail _ ho => cases ho
  · have hnew : (w₁.store.newArray cs.toArray).2.array w₁.store.arrays.size = cs.toArray := by
      simp [Store.newArray, Store.array]
    change ((w₁.store.newArray cs.toArray).2.array w₁.store.arrays.size).toList.zipIdx.map _ = _
    rw [hnew, List.zipIdx_eq_zip_range']
    refine List.ext_getElem (by simp) fun i hi hi' => ?_
    simp

theorem newObject_container (w₁ : World) {es : Entries Value} (hd : es.Distinct) :
    ∃ c w₂, Exec.newObject es w₁ = .ok c w₂ ∧ c.kind = .object ∧
      w₁.NewContainer (es.map fun e => .key e.1) (es.map Prod.snd) c w₂ := by
  have hnew : (w₁.store.newObject es).2.object w₁.store.objects.size = es := by simp [Store.newObject, Store.object]
  refine ⟨_, _, rfl, rfl, .ofStore (.newObject _ _), ⟨_, rfl, ?_, Nat.lt_irrefl _⟩, by simp, fun o ho => ?_, ?_⟩
  · simp [Has, Store.newObject]
  · have ho : o = w₁.store.objects.size := by simpa [touched, Value.own?, Store.newObject] using ho
    change ((w₁.store.newObject es).2.object o).Distinct
    rwa [ho, hnew]
  · change ((w₁.store.newObject es).2.object w₁.store.objects.size).map _ = _
    rw [hnew]
    refine List.ext_getElem (by simp) fun i hi hi' => ?_
    simp

/-- What is rebuilt has the slots of the value and the kind of it. -/
theorem rebuilt_container (hk : w.Keyed u) (hu : u.kind = .array ∨ u.kind = .object) {cs : List Value}
    (hl : (w.contents u).length = cs.length) (w₁ : World) :
    ∃ c w₂, w.rebuilt u cs w₁ = .ok c w₂ ∧ c.kind = u.kind ∧
      w₁.NewContainer ((w.contents u).map Prod.fst) cs c w₂ := by
  by_cases ha : ∃ a, u = .array a
  · obtain ⟨a, rfl⟩ := ha
    obtain ⟨c, w₂, hrun, hkind, hnew⟩ := newArray_container w₁ cs
    refine ⟨c, w₂, hrun, hkind, ?_⟩
    have hslots : (w.contents (.array a)).map Prod.fst = (List.range cs.length).map .index := by
      refine List.ext_getElem (by simpa using hl) fun i hi hi' => ?_
      simp [contents]
    rw [hslots]
    exact hnew
  · have hu' : ∀ a, u ≠ .array a := fun a h => ha ⟨a, h⟩
    have hkind : u.kind = .object := hu.resolve_left fun h => by
      cases u with
      | array a => exact ha ⟨a, rfl⟩
      | _ => cases h
    rw [w.contents_of_not_array hu'] at hl ⊢
    rw [List.length_map] at hl
    have hkeys : (((w.entries u).map Prod.fst).zip cs).map Prod.fst = (w.entries u).map Prod.fst :=
      List.map_fst_zip (by simp [hl])
    have hvalues : (((w.entries u).map Prod.fst).zip cs).map Prod.snd = cs := List.map_snd_zip (by simp [hl])
    have hd : Entries.Distinct (((w.entries u).map Prod.fst).zip cs) := (hk.entries hkind).of_keys hkeys
    obtain ⟨c, w₂, hrun, hc, hnew⟩ := newObject_container w₁ hd
    refine ⟨c, w₂, ?_, hc.trans hkind.symm, ?_⟩
    · rw [← hrun]
      cases u with
      | array a => exact absurd rfl (hu' a)
      | _ => rfl
    · have hslots : (((w.entries u).map Prod.fst).zip cs).map (fun e => Slot.key e.1) =
          ((w.entries u).map fun e => (Slot.key e.1, e.2)).map Prod.fst := by
        have h := congrArg (List.map Slot.key) hkeys
        rw [List.map_map, List.map_map] at h
        rw [List.map_map]
        exact h
      rwa [hvalues, hslots] at hnew

theorem rebuilt_grown (hu : w.Knows u) (hg : w.Grown w') (cs : List Value) : w'.rebuilt u cs = w.rebuilt u cs := by
  cases u with
  | array a => rfl
  | _ => simp only [rebuilt, entries_grown hu hg]

section Parts

variable {cs : List Value} (hall : List.Forall₂ (fun x c => w.FreshCopy lead w₁ x.2 c w₂) (w.contents u) cs)
  (hnew : w₂.NewContainer ((w.contents u).map Prod.fst) cs c w₃) (hk : w.Keyed u)
include hall hnew hk

/-- What is in a slot of a copy is the copy of what is in the slot of the value. -/
theorem slot_of_copied {s : Slot} {y : Value} (hs : w₃.slot? c s = some y) : ∃ (i : Nat) (t : Slot) (z : Value),
    s.Same t ∧ cs[i]? = some y ∧ (w.contents u)[i]? = some (t, z) ∧ w.slot? u s = some z ∧
      w.FreshCopy lead w₁ z y w₂ := by
  obtain ⟨t, hst, hty⟩ := mem_contents_of_slot? hnew.keyed hs
  rw [hnew.contents] at hty
  obtain ⟨i, hi⟩ := List.mem_iff_getElem?.mp hty
  obtain ⟨ht, hy⟩ := List.getElem?_zip_eq_some.mp hi
  rw [List.getElem?_map] at ht
  obtain ⟨⟨t', z⟩, hz, rfl⟩ := Option.map_eq_some_iff.mp ht
  refine ⟨i, t', z, hst, hy, hz, ?_, ?_⟩
  · rw [w.slot?_same u hst]
    exact slot?_of_mem_contents hk (List.mem_of_getElem? hz)
  · obtain ⟨hi₁, hz⟩ := List.getElem?_eq_some_iff.mp hz
    obtain ⟨hi₂, hy⟩ := List.getElem?_eq_some_iff.mp hy
    have hcopy := hall.get hi₁ hi₂
    rw [List.get_eq_getElem, List.get_eq_getElem, hz, hy] at hcopy
    exact hcopy

theorem copied_of_slot {s : Slot} {z : Value} (hs : w.slot? u s = some z) : (w₃.slot? c s).isSome = true := by
  obtain ⟨t, hst, ht⟩ := mem_contents_of_slot? hk hs
  obtain ⟨i, hi, hti⟩ := List.getElem_of_mem ht
  have hi' : i < cs.length := hall.length_eq ▸ hi
  have hmem : (t, cs[i]) ∈ w₃.contents c := by
    rw [hnew.contents]
    refine List.mem_of_getElem? (i := i) (List.getElem?_zip_eq_some.mpr ⟨?_, List.getElem?_eq_getElem hi'⟩)
    rw [List.getElem?_map, List.getElem?_eq_getElem hi, hti]
    rfl
  rw [w₃.slot?_same c hst, slot?_of_mem_contents hnew.keyed hmem]
  rfl

theorem isSome_slot_copied (s : Slot) : (w₃.slot? c s).isSome = (w.slot? u s).isSome := by
  cases hs : w.slot? u s with
  | some z => exact copied_of_slot hall hnew hk hs
  | none =>
    cases hy : w₃.slot? c s with
    | none => rfl
    | some y =>
      obtain ⟨-, -, z, -, -, -, hz, -⟩ := slot_of_copied hall hnew hk hy
      rw [hs] at hz
      cases hz

end Parts

/-- A new container with copies of all that a value holds, in its slots, is a copy of the value. -/
theorem FreshCopy.of_parts (hv : v.behind? lead = some u) (hu : u.kind = .array ∨ u.kind = .object) (hk : w.Keyed u)
    (hc : c.kind = u.kind) {cs : List Value}
    (hparts : Threaded (fun w₁ x c w₂ => w.FreshCopy lead w₁ x.2 c w₂) w₁ (w.contents u) cs w₂)
    (hnew : w₂.NewContainer ((w.contents u).map Prod.fst) cs c w₃) : w.FreshCopy lead w₁ v c w₃ := by
  obtain ⟨hg, hall, hapart⟩ := threaded_copies hparts
  obtain ⟨x, hown, hx, hnx⟩ := hnew.own
  have hknows : w₃.Knows c := w₃.knows_of_own hown hx
  have htouched : w₃.touched c = [x] := by rw [touched_of_not_context _ hnew.notContext, hown, Option.toList_some]
  have hslot {s : Slot} {y : Value} (hs : w₃.slot? c s = some y) := slot_of_copied hall hnew hk hs
  have hsome := isSome_slot_copied hall hnew hk
  refine ⟨hg.trans hnew.grown, .container hv hu hc hknows hnew.keyed hsome fun s z y hz hy => ?_, ?_, ?_⟩
  · obtain ⟨-, -, z', -, -, -, hz', hcopy⟩ := hslot hy
    rw [hz] at hz'
    cases hz'
    exact hcopy.mirrors.grown hnew.grown
  · refine .container (fun x' hx' => ?_) hnew.notContext fun s y hy => ?_
    · rw [hown] at hx'
      cases hx'
      exact ⟨hx, fun h => hnx (hg.has h)⟩
    · obtain ⟨-, -, z, -, -, -, -, hcopy⟩ := hslot hy
      exact hcopy.allNew.kept hnew.grown.keeps
  · refine .of_slots hknows (fun s y hy => ?_) (fun s y x' hy hx' _ hold => ?_) fun s t a b x' ha hb hxa hxb _ => ?_
    · obtain ⟨-, -, z, -, -, -, -, hcopy⟩ := hslot hy
      exact (hcopy.later hnew.grown).tree
    · obtain ⟨-, -, z, -, -, -, -, hcopy⟩ := hslot hy
      rw [htouched, List.mem_singleton] at hx'
      exact hnx (hx' ▸ hcopy.has hnew.grown hold)
    · obtain ⟨i, r, z, hsr, hai, hri, -, hcopya⟩ := hslot ha
      obtain ⟨j, r', z', htr, hbj, hrj, -, hcopyb⟩ := hslot hb
      have hold {y z : Value} (h : w.FreshCopy lead w₁ z y w₂) (hy : w₃.Holds y x') : w₂.Holds y x' :=
        (hnew.grown.keeps.spares.agrees h.tree.whole fun _ _ => trivial).holds.mp hy
      have hxa := hold hcopya hxa
      have hxb := hold hcopyb hxb
      obtain ⟨hi, rfl⟩ := List.getElem?_eq_some_iff.mp hai
      obtain ⟨hj, rfl⟩ := List.getElem?_eq_some_iff.mp hbj
      rcases Nat.lt_trichotomy i j with hij | rfl | hij
      · exact absurd hxb (List.pairwise_iff_getElem.mp hapart i j hi hj hij x' hxa)
      · rw [hri] at hrj
        cases hrj
        exact hsr.trans htr.symm
      · exact absurd hxa (List.pairwise_iff_getElem.mp hapart j i hj hi hij x' hxb)

end World

end EventScript
