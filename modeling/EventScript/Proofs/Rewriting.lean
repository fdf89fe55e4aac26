import EventScript.Proofs.Trails

/-!
# What a write leaves behind

A write along a straight path applies its operation to the value at the end, and then links the result to the root,
step by step. The path leads to the result then, since no container that is linked to is looked at further on.
-/

namespace EventScript

namespace World

variable {w w' m : World}

theorem Straight.mem {parts : List Part} {v : Value} (hs : w.Straight parts v) {y : Value}
    (hy : y ∈ w.passed parts v ∨ y = w.target parts v) : w.Knows y ∧ ∀ h, y ≠ .handle h := by
  induction parts generalizing v with
  | nil =>
    rcases hy with hy | rfl
    · cases hy
    · exact hs
  | cons part rest ih =>
    rcases hy with hy | hy
    · rcases List.mem_cons.mp hy with rfl | hy
      · exact hs.1
      · exact ih hs.2.2 (.inl hy)
    · exact ih hs.2.2 (.inr hy)

theorem Straight.target_apart {parts : List Part} {v : Value} (hs : w.Straight parts v) {y : Value}
    (hy : y ∈ w.passed parts v) {x : Place} (hx : w.placeOf y = some x) : x ∉ w.touched (w.target parts v) := by
  induction parts generalizing v with
  | nil => cases hy
  | cons part rest ih =>
    rcases List.mem_cons.mp hy with rfl | hy
    · exact (hs.2.1 _ (.inr rfl)).2 x hx
    · exact ih hs.2.2 hy

theorem Knows.sees_own {c : ViewId} (h : w.Knows (.context c)) : w.Sees c := by
  obtain ⟨hc, ht⟩ := h.sees c rfl
  obtain ⟨rest, hrest⟩ := w.chain_eq_cons (w.store.view c)
  exact ⟨hc, ht _ (by rw [hrest]; exact List.mem_cons_self)⟩

/-- A place that is not changed by a write: nothing that the path passes has its contents there, nor has what the path
leads to if the operation changes that itself. -/
def Untouched (w : World) (op : WriteOp) (parts : List Part) (v : Value) (x : Place) : Prop :=
  (∀ y ∈ w.passed parts v, w.placeOf y ≠ some x) ∧ (op.inPlace = true → (w.target parts v).own? ≠ some x)

theorem Straight.avoids {parts : List Part} {v : Value} (hs : w.Straight parts v) (op : WriteOp) :
    w.Avoids (w.Untouched op parts v) op parts v := by
  refine ⟨fun y hy => ?_, fun h ht => absurd ht ((hs.mem (.inr rfl)).2 h), fun hop x hx hR => hR.2 hop hx⟩
  obtain ⟨hk, hh⟩ := hs.mem (.inl hy)
  cases y with
  | handle h => exact absurd rfl (hh h)
  | context c => exact ⟨hk.sees_own, fun hR => hR.1 _ hy rfl⟩
  | _ => exact fun x hx hR => hR.1 _ hy hx

/-- A place where nothing that a path comes by, the end of it included, has its contents. -/
def OffTrail (w : World) (parts : List Part) (v : Value) (x : Place) : Prop :=
  ∀ y, y ∈ w.passed parts v ∨ y = w.target parts v → w.placeOf y ≠ some x

theorem OffTrail.untouched {parts : List Part} {v : Value} {x : Place} (h : w.OffTrail parts v x) (op : WriteOp) :
    w.Untouched op parts v x :=
  ⟨fun y hy => h y (.inl hy), fun _ hx => h _ (.inr rfl) (placeOf_of_own w hx)⟩

theorem Straight.avoids_off {parts : List Part} {v : Value} (hs : w.Straight parts v) (op : WriteOp) :
    w.Avoids (w.OffTrail parts v) op parts v :=
  (hs.avoids op).mono fun _ hx => hx.untouched op

theorem target_isNull {parts : List Part} {v : Value} (h : v.isNull = true) : (w.target parts v).isNull = true := by
  cases parts with
  | nil => exact h
  | cons part rest =>
    unfold target
    rw [next_of_isNull w h, target_null]
    rfl

theorem valueAt?_withEntry {v : Value} {x : Place} (hk : v.kind = .object) (hx : w.placeOf v = some x) (hw : w.Has x)
    (k : Key) (item : Value) : (w.withEntry v k item).valueAt? v k = some item := by
  cases v with
  | object o =>
    cases hx
    change Entries.get? k ((w.store.setObject o _).object o) = some item
    rw [Store.object_setObject, if_pos ⟨rfl, hw⟩, Entries.get?_insert_self]
  | context c =>
    cases hx
    have hs := (withEntry_changedAt w (v := .context c) rfl k item).sameView (.context c)
    obtain ⟨rest, hrest⟩ := w.chain_eq_cons (w.store.view c)
    have hown : Entries.get? k ((w.withEntry (.context c) k item).contextOf (w.store.view c)) = some item := by
      change Entries.get? k ((w.store.setObject _ _).object (w.scope (w.store.view c)).context) = some item
      rw [Store.object_setObject, if_pos ⟨rfl, hw⟩, Entries.get?_insert_self]
    unfold valueAt? lookup?
    dsimp only
    rw [hs.chain, hrest, List.findSome?_cons, hown]
  | _ => cases hk

/-- What has been linked is in the slot of the part. -/
theorem slot?_linked_self {v : Value} {part : Part} {s : Slot} {x : Place} (hs : part.slot? = some s)
    (hv : v.isNull = false) (hp : Opens v part) (hx : w.placeOf v = some x) (hw : w.Has x)
    (hr : ∀ i a, part = .index i → v = .array a → i.toNat < (w.store.array a).size) {old : Value}
    (ho : w.next v part = old) (new : Value) : (w.linked v part old new).slot? v s = some new := by
  cases part with
  | index i =>
    cases hs
    rcases hp with hp | ⟨⟨a, rfl⟩, -⟩
    · rw [hv] at hp
      cases hp
    · cases hx
      change ((w.store.setArray a _).array a)[i.toNat]? = some new
      rw [Store.array_setArray, if_pos ⟨rfl, hw⟩, Array.getElem?_setIfInBounds, if_pos rfl, if_pos (hr i a rfl rfl)]
  | key k =>
    cases hs
    have hk : v.kind = .object := hp.resolve_left (by simp [hv])
    change (if new != old || (w.valueAt? v (.str k)).isNone then w.withEntry v (.str k) new else w).valueAt?
      v (.str k) = some new
    split
    · exact valueAt?_withEntry hk hx hw (.str k) new
    · rename_i hsame
      simp only [Bool.or_eq_true, bne_iff_ne, ne_eq, not_or, Decidable.not_not, Bool.not_eq_true,
        Option.isNone_eq_false_iff] at hsame
      obtain ⟨u, hu⟩ := Option.isSome_iff_exists.mp hsame.2
      change (w.valueAt? v (.str k)).getD .null = old at ho
      rw [hu, Option.getD_some] at ho
      rw [hu, ho, hsame.1]
  | _ => cases hs

/-- What has been linked is what the step leads to. -/
theorem next_linked {v : Value} {part : Part} {x : Place} (hv : v.isNull = false) (hp : Opens v part)
    (hx : w.placeOf v = some x) (hw : w.Has x)
    (hr : ∀ i a, part = .index i → v = .array a → i.toNat < (w.store.array a).size) {old new : Value}
    (ho : w.next v part = old) : (w.linked v part old new).next v part = new := by
  obtain ⟨s, hs⟩ : ∃ s, part.slot? = some s := by cases part <;> first | exact ⟨_, rfl⟩ | exact hp.elim
  rw [next_eq_slot _ v hs, slot?_linked_self hs hv hp hx hw hr ho new, Option.getD_some]

/-- The container that a write goes into, be it a value itself or fresh, with its place. -/
structure Opened.At (w : World) (rest : List Part) (cur : Value) (part : Part) (v : Value) (m : World) (x : Place) :
    Prop where
  place : m.placeOf v = some x
  knows : m.Knows v
  off : ∀ y ∈ m.consulted v part, m.OffTrail rest (w.next cur part) y
  apart : ∀ y, y ∈ m.passed rest (w.next cur part) ∨ y = m.target rest (w.next cur part) → x ∉ m.touched y
  old : v = cur ∧ w.placeOf cur = some x ∨ v.own? = some x ∧ ¬w.Has x

theorem Opened.at {cur v : Value} {part : Part} {rest : List Part} (h : w.Opened cur part v m)
    (hs : w.Straight (part :: rest) cur) : ∃ x, Opened.At w rest cur part v m x := by
  obtain ⟨hp, ht, -⟩ := h.padded.trail rest (w.next cur part)
  by_cases hn : cur.isNull = true
  · obtain ⟨x, hx, ho, hm⟩ := h.fresh hn
    have hown := touched_of_own m hx
    have hnull : ∀ y, y ∈ m.passed rest (w.next cur part) ∨ y = m.target rest (w.next cur part) → y = .null := by
      intro y hy
      rw [next_of_isNull w hn] at hy
      rcases hy with hy | hy
      · exact m.passed_null rest y hy
      · rw [hy, m.target_null]
    refine ⟨x, placeOf_of_own m hx, ⟨?_, ?_⟩, ?_, ?_, .inr ⟨hx, ho⟩⟩
    · intro y hy
      rw [hown] at hy
      rw [List.mem_singleton.mp hy]
      exact hm
    · intro c hc
      rw [hc] at hx
      cases hx
    · intro z _ y hy
      rw [hnull y hy]
      nofun
    · intro y hy
      rw [hnull y hy]
      nofun
  · have hn : cur.isNull = false := by simpa using hn
    obtain rfl := h.same hn
    obtain ⟨x, hx⟩ := h.opens.placeOf w hn
    obtain ⟨⟨hk, -⟩, hl, -⟩ := hs
    refine ⟨x, (h.padded.placeOf v).trans hx, h.padded.knows hk, fun z hz y hy => ?_, fun y hy => ?_, .inl ⟨rfl, hx⟩⟩
    · rw [hp, ht] at hy
      rw [h.padded.consulted] at hz
      rw [h.padded.placeOf]
      exact (hl y hy).1 z hz
    · rw [hp, ht] at hy
      rw [(h.padded.sameView y).touched]
      exact (hl y hy).2 x hx

/-- What a write below a value leaves behind: the operation has worked from `m` to `m₁`, the path now leads to its
result, by values that it passed before and by fresh ones, and nothing else has changed since. -/
structure Rewritten (w : World) (parts : List Part) (cur : Value) (m m₁ : World) (r new : Value) (w' : World) :
    Prop where
  padded : w.Padded m
  still : (w.target parts cur).isNull = false → m = w
  before : w.Reads parts cur (w.target parts cur)
  after : w'.Reads parts new r
  passed : ∀ y ∈ w'.passed parts new,
    y ∈ w.passed parts cur ∧ w.SameView w' y ∨ ∃ x, y.own? = some x ∧ ¬w.Has x ∧ m.Has x
  elsewhere : ∀ x, m₁.Has x → (∀ y ∈ w'.passed parts new, w'.placeOf y ≠ some x) → m₁.SameAt w' x

section Linking

variable {cur v r new : Value} {part : Part} {rest : List Part} {m₀ m₁ w₁ : World} {x : Place}
  (ho : w.Opened cur part v m₀) (ha : Opened.At w rest cur part v m₀ x)
  (hw : m₀.Spares (m₀.OffTrail rest (w.next cur part)) w₁)

include ho ha hw in
theorem Opened.At.next_linked (new : Value) : (w₁.linked v part (w.next cur part) new).next v part = new := by
  have hsv := hw.sameView ha.knows
  have hx : x ∈ m₀.consulted v part := placeOf_mem_consulted ho.lands.2 ha.place
  have hsame : ∀ y ∈ m₀.consulted v part, w₁.Has y ∧ m₀.SameAt w₁ y := fun y hy =>
    hw.place y (ha.off y hy) (ha.knows.has y (consulted_subset m₀ v part y hy))
  refine World.next_linked ho.lands.1 ho.lands.2 (hsv.placeOf.trans ha.place) (hsame x hx).1 ?_ ?_
  · rintro i a rfl rfl
    cases ha.place
    rw [show w₁.store.array a = m₀.store.array a from (hsame _ hx).2]
    exact ho.room i a rfl rfl (ha.knows.has _ (placeOf_mem_touched ha.place))
  · rw [next_congr hsv fun y hy => (hsame y hy).2, ho.next]

variable (h : m₀.Rewritten rest (w.next cur part) m m₁ r new w₁)

include ha h in
theorem Opened.At.far {y : Value} (hy : y ∈ w₁.passed rest new) : x ∉ w₁.touched y := by
  rcases h.passed y hy with ⟨hold, hv⟩ | ⟨x', hx', hno, -⟩
  · rw [hv.touched]
    exact ha.apart y (.inl hold)
  · rw [touched_of_own w₁ hx', List.mem_singleton]
    rintro rfl
    exact hno (ha.knows.has x (placeOf_mem_touched ha.place))

include ho ha hw h in
/-- After the link the path leads through the container to where it led below it. -/
theorem Opened.At.trail_linked :
    (w₁.linked v part (w.next cur part) new).passed (part :: rest) v = v :: w₁.passed rest new ∧
      (w₁.linked v part (w.next cur part) new).Reads (part :: rest) v r := by
  have hch := linked_changedAt w₁ ((hw.sameView ha.knows).placeOf.trans ha.place) part (w.next cur part) new
  have hnext := ha.next_linked ho hw new
  have htrail : ∀ y ∈ w₁.passed rest new, ∀ q,
      (w₁.linked v part (w.next cur part) new).next y q = w₁.next y q := fun y hy q =>
    next_congr (hch.sameView y) fun z hz => hch.same z fun hzx =>
      ha.far h hy (hzx ▸ consulted_subset w₁ y q z hz)
  obtain ⟨hp, -, hr⟩ := trail_congr htrail
  constructor
  · rw [← hp, ← congrArg (World.passed _ rest) hnext]
    rfl
  · refine ⟨ho.lands.2, ?_⟩
    rw [hnext]
    exact (hr r).mpr h.after

include ho ha hw h in
theorem Rewritten.step : w.Rewritten (part :: rest) cur m m₁ r v (w₁.linked v part (w.next cur part) new) := by
  have hsv := hw.sameView ha.knows
  have hplace : w₁.placeOf v = some x := hsv.placeOf.trans ha.place
  have hch := linked_changedAt w₁ hplace part (w.next cur part) new
  obtain ⟨hpassed, hreads⟩ := ha.trail_linked ho hw h
  obtain ⟨hp₀, ht₀, hr₀⟩ := ho.padded.trail rest (w.next cur part)
  exact {
    padded := ho.padded.trans h.padded
    still := by
      intro hn
      change (w.target rest (w.next cur part)).isNull = false at hn
      have hm₀ : m₀ = w := ho.still (Bool.eq_false_iff.mpr fun hc => by
        rw [target_isNull hc] at hn
        cases hn)
      rw [h.still (by rw [ht₀]; exact hn), hm₀]
    before := by
      refine ⟨ho.opens, (hr₀ _).mp ?_⟩
      change m₀.Reads rest (w.next cur part) (w.target rest (w.next cur part))
      rw [← ht₀]
      exact h.before
    after := hreads
    passed := by
      intro y hy
      rw [hpassed] at hy
      rcases List.mem_cons.mp hy with rfl | hy
      · rcases ha.old with ⟨rfl, -⟩ | ⟨hown, hno⟩
        · exact .inl ⟨List.mem_cons_self, ((ho.padded.sameView y).trans hsv).trans (hch.sameView y)⟩
        · exact .inr ⟨x, hown, hno, h.padded.has (ha.knows.has x (placeOf_mem_touched ha.place))⟩
      · rcases h.passed y hy with ⟨hold, hv⟩ | ⟨x', hx', hno, hm⟩
        · rw [hp₀] at hold
          exact .inl ⟨List.mem_cons_of_mem _ hold, ((ho.padded.sameView y).trans hv).trans (hch.sameView y)⟩
        · exact .inr ⟨x', hx', fun hw => hno (ho.padded.has hw), hm⟩
    elsewhere := by
      intro z hz hno
      rw [hpassed] at hno
      have hzx : z ≠ x := by
        rintro rfl
        refine hno v List.mem_cons_self ?_
        rw [(hch.sameView v).placeOf, hplace]
      refine (h.elsewhere z hz fun y hy => ?_).trans (hch.same z hzx)
      rw [← (hch.sameView y).placeOf]
      exact hno y (List.mem_cons_of_mem _ hy) }

end Linking

end World

namespace Path

/-- Along a straight path, what is written further on leaves the container that it goes into alone. -/
theorem writeParts_step {h : HandleAccess} (hr : ∀ x, (h.read x).Along World.Grown) {limits : Limits} {text : String}
    {op : WriteOp} {v : Value} {part : Part} {rest : List Part} {cur new : Value} {w w' : World}
    (hs : w.Straight (part :: rest) cur) (hrun : writeParts h limits text op v (part :: rest) cur w = .ok new w') :
    ∃ m x new₁ w₁, w.Opened cur part new m ∧ World.Opened.At w rest cur part new m x ∧
      m.Straight rest (w.next cur part) ∧ writeParts h limits text op v rest (w.next cur part) m = .ok new₁ w₁ ∧
      m.Spares (m.OffTrail rest (w.next cur part)) w₁ ∧ w' = w₁.linked new part (w.next cur part) new₁ := by
  obtain ⟨-, m, new₁, w₁, ho, hi, hw'⟩ := writeParts_cons_ok hs.1.2 hrun
  obtain ⟨x, ha⟩ := ho.at hs
  have hs₀ := ho.padded.straight hs.2.2
  have hw := writeParts_spares (fun x => .of_grown (hr x)) limits text v (hs₀.avoids_off op)
  rw [Exec.after_ok hi] at hw
  exact ⟨m, x, new₁, w₁, ho, ha, hs₀, hi, hw, hw'⟩

/-- A write along a straight path puts the result of its operation where the path leads to. -/
theorem writeParts_rewritten {h : HandleAccess} (hr : ∀ x, (h.read x).Along World.Grown) (limits : Limits)
    (text : String) (op : WriteOp) (v : Value) {parts : List Part} {cur new : Value} {w w' : World}
    (hs : w.Straight parts cur) (hrun : writeParts h limits text op v parts cur w = .ok new w') :
    ∃ m m₁ r, applyOp h limits op (w.target parts cur) v m = .ok r m₁ ∧ w.Rewritten parts cur m m₁ r new w' := by
  induction parts generalizing cur new w w' with
  | nil =>
    refine ⟨w, w', new, hrun, ⟨.refl w, fun _ => rfl, rfl, rfl, fun y hy => ?_, fun x _ _ => .refl w' x⟩⟩
    cases hy
  | cons part rest ih =>
    obtain ⟨m₀, x, new₁, w₁, ho, ha, hs₀, hi, hw, rfl⟩ := writeParts_step hr hs hrun
    obtain ⟨m, m₁, r, happ, h⟩ := ih hs₀ hi
    rw [(ho.padded.trail rest (w.next cur part)).2.1] at happ
    exact ⟨m, m₁, r, happ, World.Rewritten.step ho ha hw h⟩

end Path

end EventScript
