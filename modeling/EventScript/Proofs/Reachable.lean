import EventScript.Proofs.DeepEquality
import EventScript.Proofs.DistinctKeys
import EventScript.Proofs.ReadOnlyEvaluation
import EventScript.Proofs.ReadOnlyHandles
import EventScript.Proofs.Trees

/-!
# What is reached through handles

A handle stands for the value that it leads to. From a value, ways through slots reach what it holds, the handles on
them being seen through; a value that is reached from inside itself loops. What is reached stays as it is while the
world grows, so that a search which reads handles on its way meets what was there when it began.
-/

namespace EventScript

/-- What a value stands for: what a handle leads to, and any other value itself. -/
def Value.behind? (lead : HandleId → Option Value) : Value → Option Value
  | .handle h => lead h
  | v => some v

theorem Value.behind?_of_not_handle (lead : HandleId → Option Value) {v : Value} (h : ∀ x, v ≠ .handle x) :
    v.behind? lead = some v := by
  cases v with
  | handle x => exact absurd rfl (h x)
  | _ => rfl

/-- The label of a slot in the trail of a search. -/
def Slot.trailLabel : Slot → String
  | .index i => indexLabel i
  | .key k => k.trailLabel

namespace World

/-- What is in a slot of a value, a handle being seen through. -/
def inside? (w : World) (lead : HandleId → Option Value) (u : Value) (s : Slot) : Option Value :=
  (w.slot? u s).bind (Value.behind? lead)

/-- What a way through slots leads to from a value that is no handle, handles being seen through. -/
def through? (w : World) (lead : HandleId → Option Value) : List Slot → Value → Option Value
  | [], u => some u
  | s :: rest, u => (w.inside? lead u s).bind (w.through? lead rest)

/-- What a way through slots leads to from a value, handles being seen through. -/
def along? (w : World) (lead : HandleId → Option Value) (way : List Slot) (v : Value) : Option Value :=
  (v.behind? lead).bind (w.through? lead way)

/-- A way through slots leads from one value to another. -/
def Reaches (w : World) (lead : HandleId → Option Value) (v u : Value) : Prop := ∃ way, w.along? lead way v = some u

/-- A value is reached from inside itself. -/
def Loops (w : World) (lead : HandleId → Option Value) (u : Value) : Prop :=
  ∃ s way, w.through? lead (s :: way) u = some u

/-- A value is where a search from another begins, or lies in a slot of what the search reaches. -/
def Meets (w : World) (lead : HandleId → Option Value) (v y : Value) : Prop :=
  y = v ∨ ∃ u s, w.Reaches lead v u ∧ w.slot? u s = some y

/-- All that is reached is there, and no object in it has a key twice. -/
structure Intact (w : World) (lead : HandleId → Option Value) (v : Value) : Prop where
  knows : ∀ u, w.Reaches lead v u → w.Knows u
  keyed : ∀ u, w.Reaches lead v u → w.Keyed u

variable {w w' : World} {lead : HandleId → Option Value} {v u y : Value} {s : Slot}

theorem through?_append (front back : List Slot) (u : Value) :
    w.through? lead (front ++ back) u = (w.through? lead front u).bind (w.through? lead back) := by
  induction front generalizing u with
  | nil => rfl
  | cons s rest ih =>
    simp only [List.cons_append, through?, Option.bind_assoc]
    exact congrArg _ (funext ih)

theorem along?_append (front back : List Slot) (v : Value) :
    w.along? lead (front ++ back) v = (w.along? lead front v).bind (w.through? lead back) := by
  unfold along?
  rw [Option.bind_assoc]
  exact congrArg _ (funext (through?_append front back))

theorem along?_cons (hv : v.behind? lead = some u) (hs : w.slot? u s = some y) (way : List Slot) :
    w.along? lead (s :: way) v = w.along? lead way y := by
  unfold along?
  rw [hv, Option.bind_some]
  simp only [through?, inside?, hs, Option.bind_some]

theorem along?_nil (hv : v.behind? lead = some u) : w.along? lead [] v = some u := by
  unfold along?
  rw [hv]
  rfl

theorem Reaches.self (hv : v.behind? lead = some u) : w.Reaches lead v u := ⟨[], along?_nil hv⟩

theorem Meets.self (w : World) (lead : HandleId → Option Value) (v : Value) : w.Meets lead v v := .inl rfl

theorem Meets.reaches (h : w.Meets lead v y) (hy : y.behind? lead = some u) : w.Reaches lead v u := by
  rcases h with rfl | ⟨z, s, ⟨way, hway⟩, hs⟩
  · exact .self hy
  · refine ⟨way ++ [s], ?_⟩
    rw [along?_append, hway, Option.bind_some]
    simp only [through?, inside?, hs, Option.bind_some, hy]

theorem Meets.slot (h : w.Meets lead v y) (hy : y.behind? lead = some u) {z : Value} (hs : w.slot? u s = some z) :
    w.Meets lead v z := .inr ⟨u, s, h.reaches hy, hs⟩

/-- What holds of a value and is kept by every step inside holds of all that is reached. -/
theorem Reaches.kept {P : Value → Prop} (h : w.Reaches lead v u) (hv : ∀ z, v.behind? lead = some z → P z)
    (hstep : ∀ z s x, P z → w.inside? lead z s = some x → P x) : P u := by
  obtain ⟨way, hway⟩ := h
  obtain ⟨z, hz, hzu⟩ := Option.bind_eq_some_iff.mp hway
  have hpz := hv z hz
  clear hway hz
  induction way generalizing z with
  | nil =>
    cases hzu
    exact hpz
  | cons s rest ih =>
    obtain ⟨x, hx, hxu⟩ := Option.bind_eq_some_iff.mp hzu
    exact ih x hxu (hstep z s x hpz hx)

/-- In a world without missing references, and without objects that have a key twice, all that is reached is intact. -/
theorem Closed.intact (h : w.Closed) (hk : ∀ o, (w.store.object o).Distinct)
    (hl : ∀ x u, lead x = some u → w.Knows u) (hv : w.Knows v) : w.Intact lead v where
  knows u hu := by
    have behind {y z : Value} (hy : w.Knows y) (hz : y.behind? lead = some z) : w.Knows z := by
      cases y with
      | handle x => exact hl x z hz
      | _ => cases hz; exact hy
    refine hu.kept (fun z hz => behind hv hz) fun z s x hz hx => ?_
    obtain ⟨y, hy, hyx⟩ := Option.bind_eq_some_iff.mp hx
    exact behind (h.slot? hy) hyx
  keyed u _ o _ := hk o

/-! ### Contents in order -/

/-- What is in the slots of a value, in their order. -/
def contents (w : World) : Value → List (Slot × Value)
  | .array a => (w.store.array a).toList.zipIdx.map fun x => (.index x.2, x.1)
  | v => (w.entries v).map fun e => (.key e.1, e.2)

theorem contents_of_not_array (w : World) (h : ∀ a, v ≠ .array a) :
    w.contents v = (w.entries v).map fun e => (.key e.1, e.2) := by
  cases v with
  | array a => exact absurd rfl (h a)
  | _ => rfl

theorem contents_of_leaf (w : World) (ha : v.kind ≠ .array) (ho : v.kind ≠ .object) : w.contents v = [] := by
  cases v with
  | array a => exact absurd rfl ha
  | object o => exact absurd rfl ho
  | context c => exact absurd rfl ho
  | _ => rfl

theorem slot?_of_mem_contents (hk : w.Keyed u) (h : (s, y) ∈ w.contents u) : w.slot? u s = some y := by
  by_cases ha : ∃ a, u = .array a
  · obtain ⟨a, rfl⟩ := ha
    obtain ⟨⟨x, i⟩, hx, he⟩ := List.mem_map.mp h
    cases he
    have hi := List.mem_zipIdx_iff_getElem?.mp hx
    rw [Array.getElem?_toList] at hi
    exact hi
  · rw [w.contents_of_not_array fun a hu => ha ⟨a, hu⟩] at h
    obtain ⟨e, he, hse⟩ := List.mem_map.mp h
    cases hse
    have hkind : u.kind = .object := by
      cases u with
      | object o => rfl
      | context c => rfl
      | _ => cases he
    change w.valueAt? u e.1 = some e.2
    rw [hk.valueAt?]
    exact (hk.entries hkind).get?_of_mem he

/-- A slot that something is in has its place among the contents. -/
theorem mem_contents_of_slot? (hk : w.Keyed u) (h : w.slot? u s = some y) :
    ∃ t, s.Same t ∧ (t, y) ∈ w.contents u := by
  cases s with
  | index i =>
    cases u with
    | array a =>
      refine ⟨.index i, rfl, List.mem_map.mpr ⟨(y, i), List.mem_zipIdx_iff_getElem?.mpr ?_, rfl⟩⟩
      rw [Array.getElem?_toList]
      exact h
    | _ => cases h
  | key k =>
    have hget : w.valueAt? u k = some y := h
    rw [hk.valueAt?] at hget
    obtain ⟨l, hl, hmem⟩ := Entries.exists_mem_of_get? hget
    have hu : ∀ a, u ≠ .array a := by
      rintro a rfl
      cases hmem
    refine ⟨.key l, hl, ?_⟩
    rw [w.contents_of_not_array hu]
    exact List.mem_map.mpr ⟨_, hmem, rfl⟩

/-! ### What can hold others -/

/-- The values of a world that can hold others. -/
def holders (w : World) : List Value := w.containers ++ (List.range w.store.views.size).map .context

theorem length_holders (w : World) : w.holders.length = w.holderCount := by
  simp [holders, containers, holderCount, containerCount, Nat.add_assoc]

theorem mem_holders (hu : w.Knows u) (hk : u.kind = .array ∨ u.kind = .object) : u ∈ w.holders := by
  unfold holders containers
  cases u with
  | array a =>
    have ha : a < w.store.arrays.size := hu.has (.array a) (by simp [touched, Value.own?])
    simpa using ha
  | object o =>
    have ho : o < w.store.objects.size := hu.has (.object o) (by simp [touched, Value.own?])
    simpa using ho
  | context c => simpa using (hu.sees c rfl).1
  | _ => simp [Value.kind] at hk

theorem length_le_of_holders {vs : List Value} (hn : vs.Nodup) (h : vs ⊆ w.holders) : vs.length ≤ w.holderCount := by
  rw [← length_holders]
  exact (List.Nodup.subperm hn h).length_le

/-! ### Growth -/

theorem Knows.agrees_grown (hu : w.Knows u) (h : w.Grown w') :
    w.SameView w' u ∧ ∀ x ∈ w.touched u, w.SameAt w' x :=
  ⟨h.keeps.spares.sameView hu, fun x hx => h.sameAt (hu.has x hx)⟩

theorem slot?_grown (hu : w.Knows u) (h : w.Grown w') (s : Slot) : w'.slot? u s = w.slot? u s :=
  slot?_congr (hu.agrees_grown h).1 (hu.agrees_grown h).2 s

theorem entries_grown (hu : w.Knows u) (h : w.Grown w') : w'.entries u = w.entries u :=
  entries_congr (hu.agrees_grown h).1 (hu.agrees_grown h).2

theorem contents_grown (hu : w.Knows u) (h : w.Grown w') : w'.contents u = w.contents u := by
  by_cases ha : ∃ a, u = .array a
  · obtain ⟨a, rfl⟩ := ha
    have hsame : w'.store.array a = w.store.array a := (hu.agrees_grown h).2 (.array a) (by simp [touched, Value.own?])
    simp only [contents, hsame]
  · have hu' : ∀ a, u ≠ .array a := fun a hu => ha ⟨a, hu⟩
    rw [w'.contents_of_not_array hu', w.contents_of_not_array hu', entries_grown hu h]

/-! ### Handles that lead somewhere -/

/-- A handle is seen as what it leads to, in this world and in all that it may grow to. -/
def Shows (w : World) (read : HandleId → Exec Value) (resolve : Bool) (lead : HandleId → Option Value) (h : HandleId) :
    Prop :=
  ∃ u, lead h = some u ∧ ∀ w', w.Grown w' → ∃ w'', seeThrough read resolve (.handle h) w' = .ok u w'' ∧ w'.Grown w''

theorem shows_itself (w : World) (read : HandleId → Exec Value) (h : HandleId) :
    w.Shows read false (some ∘ .handle) h := ⟨.handle h, rfl, fun w' _ => ⟨w', rfl, .refl w'⟩⟩

/-- The end of a chain of handles is seen, if the chain is not too long. -/
theorem Links.shows {g : Engine} {x y : HandleId} {xs : List HandleId} {c : CellId} {parts : List Part}
    (hl : w.Links x xs y) (hy : w.Leads y c parts u) (hu : ∀ z, u ≠ .handle z)
    (hlen : xs.length < defaultHandleDepth.toNat) (hx : lead x = some u) : w.Shows g.readHandle true lead x := by
  refine ⟨u, hx, fun w' hg => ⟨w', ?_, .refl w'⟩⟩
  have hrun := Engine.followFrom_links (g := g) (hl.grown hg) (hy.grown hg) hu defaultHandleDepth
    defaultHandleDepth.toNat
  rw [if_pos hlen] at hrun
  exact hrun

variable {read : HandleId → Exec Value} {resolve : Bool}

/-- Every value is seen as what it stands for if handles are. -/
theorem seeThrough_shows (hv : ∀ h, v = .handle h → w.Shows read resolve lead h) :
    ∃ u, v.behind? lead = some u ∧
      ∀ w', w.Grown w' → ∃ w'', seeThrough read resolve v w' = .ok u w'' ∧ w'.Grown w'' := by
  by_cases hh : ∃ h, v = .handle h
  · obtain ⟨h, rfl⟩ := hh
    exact hv h rfl
  · have hv' : ∀ h, v ≠ .handle h := fun h he => hh ⟨h, he⟩
    refine ⟨v, Value.behind?_of_not_handle lead hv', fun w' _ => ⟨w', ?_, .refl w'⟩⟩
    unfold seeThrough
    rw [follow_of_not_handle read _ v hv']
    cases resolve <;> rfl

end World

/-! ### Two rings -/

/-- A world in which two objects hold themselves, each through an array with a handle back to the object. -/
def ringWorld : World where
  store := {
    arrays := #[#[.handle 0], #[.handle 1]]
    objects := #[[(.str "a", .array 0)], [(.str "a", .array 1)]]
    handles := #[.bound (.mk (.root { key := .global }) []) (some 0),
      .bound (.mk (.root { key := .state }) []) (some 0)]
    cells := #[{ value := .object 0 }, { value := .object 1 }] }
  stateCell := 1

namespace ringWorld

open World

/-- Where the handles of the two rings lead. -/
def lead : HandleId → Option Value
  | 0 => some (.object 0)
  | 1 => some (.object 1)
  | _ => none

theorem knows_array {a : ArrayId} (h : a < 2) : ringWorld.Knows (.array a) := ringWorld.knows_of_own rfl h

theorem knows_object {o : ObjectId} (h : o < 2) : ringWorld.Knows (.object o) := ringWorld.knows_of_own rfl h

theorem array_mem {a : ArrayId} {v : Value} (h : v ∈ ringWorld.store.array a) : v = .handle 0 ∨ v = .handle 1 := by
  match a with
  | 0 => exact .inl (by simpa [ringWorld, Store.array] using h)
  | 1 => exact .inr (by simpa [ringWorld, Store.array] using h)
  | a + 2 => exact absurd h (Array.not_mem_empty _)

theorem object_mem {o : ObjectId} {e : Key × Value} (h : e ∈ ringWorld.store.object o) :
    e.2 = .array 0 ∨ e.2 = .array 1 := by
  match o with
  | 0 =>
    rw [List.mem_singleton.mp h]
    exact .inl rfl
  | 1 =>
    rw [List.mem_singleton.mp h]
    exact .inr rfl
  | o + 2 => cases h

theorem knows_handle (h : HandleId) : ringWorld.Knows (.handle h) :=
  ⟨fun x hx => (by cases hx), fun c hc => by cases hc⟩

theorem closed : ringWorld.Closed where
  global := by decide
  state := by decide
  array a v hv := by rcases array_mem hv with rfl | rfl <;> exact knows_handle _
  object o e he := by rcases object_mem he with he | he <;> rw [he] <;> exact knows_array (by decide)
  cell c := by
    match c with
    | 0 => exact knows_object (by decide)
    | 1 => exact knows_object (by decide)
    | c + 2 => exact knows_null _

theorem distinct (o : ObjectId) : (ringWorld.store.object o).Distinct := by
  match o with
  | 0 => exact List.pairwise_singleton _ _
  | 1 => exact List.pairwise_singleton _ _
  | o + 2 => exact .nil

theorem knows_lead {h : HandleId} {u : Value} (hu : lead h = some u) : ringWorld.Knows u := by
  match h with
  | 0 =>
    cases hu
    exact knows_object (by decide)
  | 1 =>
    cases hu
    exact knows_object (by decide)
  | h + 2 => cases hu

theorem intact {o : ObjectId} (h : o < 2) : ringWorld.Intact lead (.object o) :=
  closed.intact distinct (fun _ _ => knows_lead) (knows_object h)

theorem slot_cases {u y : Value} {s : Slot} (h : ringWorld.slot? u s = some y) :
    y = .array 0 ∨ y = .array 1 ∨ y = .handle 0 ∨ y = .handle 1 := by
  cases s with
  | index i =>
    cases u with
    | array a => exact .inr (.inr (array_mem (Array.mem_of_getElem? h)))
    | _ => cases h
  | key k =>
    have inObject {o : ObjectId} (h : Entries.get? k (ringWorld.store.object o) = some y) :
        y = .array 0 ∨ y = .array 1 := by
      obtain ⟨k', hk⟩ := Entries.mem_of_get? h
      exact object_mem hk
    cases u with
    | object o => exact (inObject h).imp_right .inl
    | context c =>
      obtain ⟨t, -, ht⟩ := List.exists_of_findSome?_eq_some h
      exact (inObject ht).imp_right .inl
    | _ => cases h

theorem met_handle {o : ObjectId} {h : HandleId} (hm : ringWorld.Meets lead (.object o) (.handle h)) :
    h = 0 ∨ h = 1 := by
  rcases hm with hm | ⟨u, s, -, hs⟩
  · cases hm
  · simpa using slot_cases hs

/-- Only arrays and objects are reached. -/
theorem reached_kind {o : ObjectId} {u : Value} (h : ringWorld.Reaches lead (.object o) u) :
    u.kind = .array ∨ u.kind = .object := by
  refine Reaches.kept (P := fun z => z.kind = .array ∨ z.kind = .object) h (fun z hz => ?_) fun z s x _ hx => ?_
  · cases hz
    exact .inr rfl
  · obtain ⟨y, hy, hyx⟩ := Option.bind_eq_some_iff.mp hx
    rcases slot_cases hy with rfl | rfl | rfl | rfl <;> cases hyx
    · exact .inl rfl
    · exact .inl rfl
    · exact .inr rfl
    · exact .inr rfl

theorem shows {h : HandleId} (hh : h = 0 ∨ h = 1) : ringWorld.Shows (Engine.full .plain).readHandle true lead h := by
  rcases hh with rfl | rfl
  · exact (Links.here 0).shows ⟨rfl, by decide, .nil _ _ _, rfl⟩ nofun (by decide) rfl
  · exact (Links.here 1).shows ⟨rfl, by decide, .nil _ _ _, rfl⟩ nofun (by decide) rfl

end ringWorld

end EventScript
