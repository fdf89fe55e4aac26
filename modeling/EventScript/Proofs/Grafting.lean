import EventScript.Proofs.Contents
import EventScript.Proofs.ReadAfterWrite

/-!
# What a write leaves beside its path

A write puts its result into the slots that its path names. All other slots of the containers on its way keep what
they have, but for the nulls that make room in an array.
-/

namespace EventScript

theorem Key.same_str (k : String) (l : Key) : (Key.str k).same l = true ↔ l = .str k := by
  cases l with
  | str s =>
    simp only [Key.same, beq_iff_eq, Key.str.injEq]
    exact eq_comm
  | _ => simp [Key.same, Key.number?]

theorem Key.same_str_right (k : String) (l : Key) : l.same (.str k) = true ↔ l = .str k := by
  cases l <;> simp [Key.same, Key.number?]

theorem Entries.get?_insert_other {α : Type} {k : String} {l : Key} (h : l ≠ .str k) (v : α) (es : Entries α) :
    get? l (insert (.str k) v es) = get? l es := by
  have hl : l.same (.str k) = false := by
    rw [Bool.eq_false_iff, ne_eq, Key.same_str_right]
    exact h
  induction es with
  | nil =>
    change (if l.same (.str k) then some v else none) = none
    rw [hl]
    rfl
  | cons e rest ih =>
    obtain ⟨k', v'⟩ := e
    unfold insert
    split
    · rename_i hk
      obtain rfl := (Key.same_str k k').mp hk
      change (if l.same (.str k) then some v else get? l rest) = if l.same (.str k) then some v' else get? l rest
      rw [hl]
      rfl
    · change (if l.same k' then some v' else get? l (insert (.str k) v rest)) =
        if l.same k' then some v' else get? l rest
      rw [ih]

namespace World

variable {w w' m : World}

theorem contextOf_setObject {k : String} {l : Key} (hl : l ≠ .str k) (o : ObjectId) (item : Value) (t : ScopeId) :
    Entries.get? l (({ w with store := w.store.setObject o (Entries.insert (.str k) item (w.store.object o)) } :
      World).contextOf t) = Entries.get? l (w.contextOf t) := by
  change Entries.get? l ((w.store.setObject o _).object (w.scope t).context) = Entries.get? l (w.store.object _)
  rw [Store.object_setObject]
  split
  · rename_i h
    rw [Entries.get?_insert_other hl, h.1]
  · rfl

theorem valueAt?_withEntry_other {v : Value} {k : String} {l : Key} (hl : l ≠ .str k) (item : Value) :
    (w.withEntry v (.str k) item).valueAt? v l = w.valueAt? v l := by
  cases v with
  | object o =>
    change Entries.get? l ((w.store.setObject o _).object o) = Entries.get? l (w.store.object o)
    rw [Store.object_setObject]
    split
    · exact Entries.get?_insert_other hl item _
    · rfl
  | context c =>
    have hs := (withEntry_changedAt w (v := .context c) rfl (.str k) item).sameView (.context c)
    change ((w.withEntry (.context c) (.str k) item).lookup? _ l) = w.lookup? _ l
    unfold lookup?
    rw [hs.chain]
    exact congrArg (List.findSome? · _) (funext fun t => contextOf_setObject hl _ item t)
  | _ => rfl

/-- Linking leaves all slots as they are but the one of the part. -/
theorem slot?_linked_other {v : Value} {part : Part} {s : Slot} (hs : part.slot? ≠ some s) (old new : Value) :
    (w.linked v part old new).slot? v s = w.slot? v s := by
  cases part with
  | index i =>
    cases v with
    | array a =>
      cases s with
      | index j =>
        have hj : i.toNat ≠ j := fun h => hs (by rw [← h]; rfl)
        change ((w.store.setArray a _).array a)[j]? = (w.store.array a)[j]?
        rw [Store.array_setArray]
        split
        · rw [Array.getElem?_setIfInBounds, if_neg hj]
        · rfl
      | key l => rfl
    | _ => rfl
  | key k =>
    change (if _ then w.withEntry v (.str k) new else w).slot? v s = w.slot? v s
    split
    · cases s with
      | index j =>
        cases v with
        | array a => rfl
        | _ => rfl
      | key l =>
        refine valueAt?_withEntry_other (fun h => hs ?_) new
        rw [h]
        rfl
    · rfl
  | _ => rfl

/-! ### Paths that come by a place once -/

/-- A path from a value meets no handle and nothing that is missing, and no two values on it share a place. -/
def Distinct (w : World) : List Part → Value → Prop
  | [], v => w.Knows v ∧ ∀ h, v ≠ .handle h
  | part :: rest, v =>
    (w.Knows v ∧ ∀ h, v ≠ .handle h) ∧
    (∀ y, y ∈ w.passed rest (w.next v part) ∨ y = w.target rest (w.next v part) → ∀ x ∈ w.touched v, x ∉ w.touched y) ∧
    w.Distinct rest (w.next v part)

theorem Distinct.straight {parts : List Part} {v : Value} (h : w.Distinct parts v) : w.Straight parts v := by
  induction parts generalizing v with
  | nil => exact h
  | cons part rest ih =>
    obtain ⟨hv, hl, hr⟩ := h
    refine ⟨hv, fun y hy => ⟨fun x hx hyx => ?_, fun x hx => hl y hy x (placeOf_mem_touched hx)⟩, ih hr⟩
    exact hl y hy x (consulted_subset w v part x hx) (placeOf_mem_touched hyx)

theorem Padded.distinct (h : w.Padded m) {parts : List Part} {v : Value} (hd : w.Distinct parts v) :
    m.Distinct parts v := by
  induction parts generalizing v with
  | nil => exact ⟨h.knows hd.1, hd.2⟩
  | cons part rest ih =>
    obtain ⟨⟨hk, hh⟩, hl, hr⟩ := hd
    obtain ⟨hp, ht, -⟩ := h.trail rest (w.next v part)
    unfold Distinct
    rw [h.next, hp, ht, (h.sameView v).touched]
    refine ⟨⟨h.knows hk, hh⟩, fun y hy => ?_, ih hr⟩
    rw [(h.sameView y).touched]
    exact hl y hy

section Step

variable {cur v : Value} {part : Part} {rest : List Part} {m₀ w₁ : World} {x : Place}
  (ho : w.Opened cur part v m₀) (hd : w.Distinct (part :: rest) cur)

include ho hd in
/-- Nothing further on shares a place with the container that a write goes into. -/
theorem Opened.apart {y : Value}
    (hy : y ∈ m₀.passed rest (w.next cur part) ∨ y = m₀.target rest (w.next cur part)) :
    ∀ z ∈ m₀.touched v, z ∉ m₀.touched y := by
  obtain ⟨hp, ht, -⟩ := ho.padded.trail rest (w.next cur part)
  rw [hp, ht] at hy
  by_cases hn : cur.isNull = true
  · have hnull : y = .null := by
      rw [next_of_isNull w hn] at hy
      rcases hy with hy | hy
      · exact w.passed_null rest y hy
      · rw [hy, w.target_null]
    rw [hnull]
    exact fun z _ hz => by cases hz
  · rw [ho.same (by simpa using hn), (ho.padded.sameView cur).touched, (ho.padded.sameView y).touched]
    exact hd.2.1 y hy

variable (ha : Opened.At w rest cur part v m₀ x) (hw : m₀.Spares (m₀.OffTrail rest (w.next cur part)) w₁)

include ho hd ha hw in
theorem Opened.kept : m₀.SameView w₁ v ∧ ∀ z ∈ m₀.touched v, w₁.Has z ∧ m₀.SameAt w₁ z := by
  refine ⟨hw.sameView ha.knows, fun z hz => hw.place z (fun y hy hyz => ?_) (ha.knows.has z hz)⟩
  exact ho.apart hd hy z hz (placeOf_mem_touched hyz)

include ho hd ha hw in
theorem Opened.slot?_kept (s : Slot) : w₁.slot? v s = m₀.slot? v s :=
  have hkept := ho.kept hd ha hw
  slot?_congr hkept.1 (fun z hz => (hkept.2 z hz).2) s

include ho hd ha hw in
theorem Opened.slot?_other (new : Value) {s : Slot} (hs : part.slot? ≠ some s) :
    (w₁.linked v part (w.next cur part) new).slot? v s = (w.slot? cur s).or (part.fill? s) := by
  rw [slot?_linked_other hs, ho.slot?_kept hd ha hw]
  exact ho.slots (fun y hy => ha.knows.has y (placeOf_mem_touched (placeOf_of_own m₀ hy))) s hs

include ho ha hw in
theorem Opened.slot?_self (new : Value) {s : Slot} (hs : part.slot? = some s) :
    (w₁.linked v part (w.next cur part) new).slot? v s = some new := by
  have hsv := hw.sameView ha.knows
  have hsame : ∀ y ∈ m₀.consulted v part, w₁.Has y ∧ m₀.SameAt w₁ y := fun y hy =>
    hw.place y (ha.off y hy) (ha.knows.has y (consulted_subset m₀ v part y hy))
  have hx := hsame x (placeOf_mem_consulted ho.lands.2 ha.place)
  refine slot?_linked_self hs ho.lands.1 ho.lands.2 (hsv.placeOf.trans ha.place) hx.1 ?_ ?_ new
  · rintro i a rfl rfl
    cases ha.place
    rw [show w₁.store.array a = m₀.store.array a from hx.2]
    exact ho.room i a rfl rfl (ha.knows.has _ (placeOf_mem_touched ha.place))
  · rw [next_congr hsv fun y hy => (hsame y hy).2, ho.next]

end Step

/-! ### The containers along a path -/

/-- What a write has made of one container on its way: it is the same, or a fresh one in the place of null, and apart
from the slot of the part it has what it had, and nulls that make room. -/
structure GraftedAt (w w' : World) (part : Part) (cur new : Value) : Prop where
  opens : Opens cur part
  lands : new.isNull = false ∧ Opens new part
  same : cur.isNull = false → new = cur
  fresh : cur.isNull = true → ∃ x, new.own? = some x ∧ ¬w.Has x
  other : ∀ s, part.slot? ≠ some s → w'.slot? new s = (w.slot? cur s).or (part.fill? s)

/-- What a write along a path has made of all containers on its way. -/
def Grafted (w w' : World) : List Part → Value → Value → Prop
  | [], _, _ => True
  | part :: rest, cur, new => GraftedAt w w' part cur new ∧ w.Grafted w' rest (w.next cur part) (w'.next new part)

theorem next_of_slots {v y : Value} {w' : World} (h : ∀ s, w'.slot? y s = w.slot? v s) (part : Part) :
    w'.next y part = w.next v part := by
  cases hp : part.slot? with
  | some s => rw [next_eq_slot _ _ hp, next_eq_slot _ _ hp, h]
  | none => cases part <;> first | rfl | cases hp

/-- Only the slots of the values on the way matter. -/
theorem Grafted.congr {w₁ : World} {parts : List Part} {cur new : Value} (h : m.Grafted w₁ parts cur new)
    (hm : ∀ x, w.Has x → m.Has x) (hold : ∀ y ∈ w.passed parts cur, ∀ s, m.slot? y s = w.slot? y s)
    (hnew : ∀ y ∈ w₁.passed parts new, ∀ s, w'.slot? y s = w₁.slot? y s) : w.Grafted w' parts cur new := by
  induction parts generalizing cur new with
  | nil => trivial
  | cons part rest ih =>
    obtain ⟨hat, hrest⟩ := h
    have hcur := hold cur List.mem_cons_self
    have hnew' := hnew new List.mem_cons_self
    constructor
    · exact {
        opens := hat.opens
        lands := hat.lands
        same := hat.same
        fresh := fun hn => by
          obtain ⟨x, hx, hno⟩ := hat.fresh hn
          exact ⟨x, hx, fun hw => hno (hm x hw)⟩
        other := fun s hs => by rw [hnew', hat.other s hs, hcur] }
    · rw [next_of_slots hcur] at hrest
      rw [next_of_slots hnew']
      exact ih hrest (fun y hy => hold y (List.mem_cons_of_mem _ hy)) fun y hy => hnew y (List.mem_cons_of_mem _ hy)

/-- The container where another path parts from that of a write. -/
theorem Grafted.split {front rest : List Part} {part : Part} {cur new : Value}
    (h : w.Grafted w' (front ++ part :: rest) cur new) :
    GraftedAt w w' part (w.target front cur) (w'.target front new) := by
  induction front generalizing cur new with
  | nil => exact h.1
  | cons first front ih => exact ih h.2

theorem Grafted.passed {parts : List Part} {cur new : Value} (h : w.Grafted w' parts cur new) {y : Value}
    (hy : y ∈ w'.passed parts new) : y ∈ w.passed parts cur ∨ ∃ x, y.own? = some x ∧ ¬w.Has x := by
  induction parts generalizing cur new with
  | nil => cases hy
  | cons part rest ih =>
    rcases List.mem_cons.mp hy with rfl | hy
    · by_cases hn : cur.isNull = true
      · exact .inr (h.1.fresh hn)
      · exact .inl (by rw [h.1.same (by simpa using hn)]; exact List.mem_cons_self)
    · exact (ih h.2 hy).imp_left (List.mem_cons_of_mem _)

theorem GraftedAt.next_other {part other : Part} {cur new : Value} (h : GraftedAt w w' part cur new) {s : Slot}
    (hs : other.slot? = some s) (hne : part.slot? ≠ some s) : w'.next new other = w.next cur other := by
  rw [next_eq_slot _ _ hs, next_eq_slot _ _ hs, h.other s hne]
  cases w.slot? cur s with
  | some u => rfl
  | none =>
    rw [Option.none_or, Option.getD_none]
    unfold Part.fill?
    split
    · split <;> rfl
    · rfl

end World

namespace Path

open World

/-- A write has grafted its result where its path leads. -/
theorem writeParts_grafted {h : HandleAccess} (hr : ∀ x, (h.read x).Along World.Grown) (limits : Limits)
    (text : String) (op : WriteOp) (v : Value) {parts : List Part} {cur new : Value} {w w' : World}
    (hd : w.Distinct parts cur) (hrun : writeParts h limits text op v parts cur w = .ok new w') :
    w.Grafted w' parts cur new := by
  induction parts generalizing cur new w w' with
  | nil => trivial
  | cons part rest ih =>
    obtain ⟨m₀, x, new₁, w₁, ho, ha, -, hi, hw, rfl⟩ := writeParts_step hr hd.straight hrun
    have hd₀ := ho.padded.distinct hd.2.2
    obtain ⟨m, m₁, r, -, hre⟩ := writeParts_rewritten hr limits text op v hd₀.straight hi
    have hch := linked_changedAt w₁ ((hw.sameView ha.knows).placeOf.trans ha.place) part (w.next cur part) new₁
    refine ⟨⟨ho.opens, ho.lands, ho.same, fun hn => ?_, fun s hs => ho.slot?_other hd ha hw new₁ hs⟩, ?_⟩
    · obtain ⟨y, hy, hno, -⟩ := ho.fresh hn
      exact ⟨y, hy, hno⟩
    rw [ha.next_linked ho hw new₁]
    refine (ih hd₀ hi).congr (fun y => ho.padded.has) (fun y hy s => ?_) fun y hy s => ?_
    · -- Room is made in a place that nothing further on shares.
      have hk := (hd.2.2.straight.mem (.inl hy)).1
      refine slot?_congr (ho.padded.sameView y) (fun z hz => ho.elsewhere z (hk.has z hz) fun hcz => ?_) s
      exact hd.2.1 y (.inl hy) z (placeOf_mem_touched hcz) hz
    · refine slot?_congr (hch.sameView y) (fun z hz => hch.same z ?_) s
      rintro rfl
      exact ha.far hre hy hz

/-- A write through a root that all scopes share has grafted its result where its path leads, and spares all that is
off its trail. -/
theorem writeStatic_grafted {h : HandleAccess} (hr : ∀ x, (h.read x).Along World.Grown) {w w' : World} {r : Root}
    {rest : List Part} {c : CellId} (hc : w.sharedCell? r.key = some c) (hcell : w.Has (.cell c))
    (hd : w.Distinct rest (w.store.cell c).value) {limits : Limits} {scope : ScopeId} {v : Value} {op : WriteOp}
    {allow : Bool} (hrun : writeStatic h limits (.mk (.root r) rest) scope v op allow w = .ok () w') :
    w'.sharedCell? r.key = some c ∧ w.Grafted w' rest (w.store.cell c).value (w'.store.cell c).value ∧
      w.Spares (fun x => w.OffTrail rest (w.store.cell c).value x ∧ x ≠ .cell c) w' := by
  obtain ⟨text, new, w₁, hp, hset⟩ := writeStatic_shared hc hrun
  have hs := hd.straight
  have hreads : ∀ (R : Place → Prop) x, (h.read x).Along (World.Spares R) := fun R x => .of_grown (hr x)
  have hcell₁ := writeParts_spares (hreads _) limits text v (hs.off_cell op c)
  have hoff := writeParts_spares (hreads _) limits text v (hs.avoids_off op)
  rw [Exec.after_ok hp] at hcell₁ hoff
  obtain ⟨hhas, hsame⟩ := hcell₁.place (.cell c) rfl hcell
  have hc₁ := (sharedCell?_congr hcell₁.globalCell hcell₁.stateCell r.key).trans hc
  obtain ⟨hch, hval⟩ := Exec.setCell_if_new hhas (congrArg Cell.value hsame) (hset hc₁)
  refine ⟨(sharedCell?_congr hch.globalCell hch.stateCell r.key).trans hc₁, ?_, ?_⟩
  · rw [hval]
    refine (writeParts_grafted hr limits text op v hd hp).congr (fun _ => id) (fun _ _ _ => rfl) fun y _ s => ?_
    refine slot?_congr (hch.sameView y) (fun x hx => hch.same x ?_) s
    rintro rfl
    exact w₁.not_touched_cell y c hx
  · exact (hoff.mono fun _ hx => hx.1).trans (hch.spares fun hx => hx.2 rfl)

end Path

end EventScript
