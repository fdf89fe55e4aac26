import EventScript.Proofs.ReadAfterWrite

/-!
# Descents

The way of a write from a value to one further down, where handles are followed, and the way back: a container to
which nothing new is linked stays as it is.
-/

namespace EventScript

theorem setIfInBounds_getD {α : Type} (xs : Array α) (i : Nat) (d : α) : xs.setIfInBounds i (xs.getD i d) = xs := by
  apply Array.ext_getElem?
  intro j
  rw [Array.getElem?_setIfInBounds, Array.getD_eq_getD_getElem?]
  split
  · rename_i hij
    subst hij
    split
    · rename_i hi
      rw [Array.getElem?_eq_getElem hi]
      rfl
    · rename_i hi
      rw [Array.getElem?_eq_none (Nat.not_lt.mp hi)]
  · rfl

theorem Store.setArray_array (s : Store) (a : ArrayId) : s.setArray a (s.array a) = s := by
  unfold Store.setArray Store.array
  rw [setIfInBounds_getD]

theorem Store.setCell_cell (s : Store) (c : CellId) : s.setCell c (s.cell c) = s := by
  unfold Store.setCell Store.cell
  rw [setIfInBounds_getD]

namespace World

variable {w w' : World}

/-- The steps of a path from a value: the value, the part, and where the part leads. -/
def steps (w : World) : List Part → Value → List (Value × Part × Value)
  | [], _ => []
  | part :: rest, v => (v, part, w.next v part) :: w.steps rest (w.next v part)

/-- Linking what is linked already changes nothing; an entry of an object need only be there. -/
theorem linked_same {v child : Value} {part : Part} (hi : ∀ i, part = .index i → w.next v part = child)
    (hk : ∀ k, part = .key k → (w.valueAt? v (.str k)).isSome = true) : w.linked v part child child = w := by
  cases part with
  | index i =>
    cases v with
    | array a =>
      rw [← hi i rfl]
      change ({ w with store := w.store.setArray a ((w.store.array a).setIfInBounds i.toNat
        ((w.store.array a).getD i.toNat .null)) } : World) = w
      rw [setIfInBounds_getD, Store.setArray_array]
    | _ => rfl
  | key k =>
    change (if child != child || (w.valueAt? v (.str k)).isNone then w.withEntry v (.str k) child else w) = w
    rw [if_neg]
    obtain ⟨u, hu⟩ := Option.isSome_iff_exists.mp (hk k rfl)
    simp [hu]
  | _ => rfl

theorem linked_idle {v child : Value} {part : Part} (h : w.next v part = child) (hc : child.isNull = false) :
    w.linked v part child child = w := by
  refine linked_same (fun _ _ => h) fun k hk => ?_
  subst hk
  cases hv : w.valueAt? v (.str k) with
  | some u => rfl
  | none =>
    simp only [next, hv, Option.getD_none] at h
    subst h
    cases hc

/-- All that there was is still there and holds what it held. -/
abbrev Kept (w w' : World) : Prop := w.Spares (fun _ => True) w'

theorem Grown.kept (h : w.Grown w') : w.Kept w' := Tolerates.grown h

theorem Kept.next (h : w.Kept w') {v : Value} (hv : w.Knows v) (part : Part) : w'.next v part = w.next v part := by
  refine next_congr (h.sameView hv) fun x hx => (h.place x trivial (hv.has x ?_)).2
  exact consulted_subset w v part x hx

theorem Kept.knows (h : w.Kept w') {v : Value} (hv : w.Knows v) : w'.Knows v where
  has x hx := by
    rw [(h.sameView hv).touched] at hx
    exact (h.place x trivial (hv.has x hx)).1
  sees c hc := by
    subst hc
    have hs := h.sameView hv
    obtain ⟨hview, hscopes⟩ := hv.sees c rfl
    rw [hs.chain]
    refine ⟨Nat.lt_of_lt_of_le hview (size_le_of_begins h.views), fun t ht => ?_⟩
    exact Nat.lt_of_lt_of_le (hscopes t ht) (size_le_of_begins h.scopes)

end World

theorem followFrom_ok {read : HandleId → Exec Value} {limit : Int} {n : Nat} {v u : Value} {w w' : World}
    (h : followFrom read limit n v w = .ok u w') : ∀ x, u ≠ .handle x := by
  induction n generalizing v w with
  | zero =>
    cases v with
    | handle x => cases h
    | _ => cases h; nofun
  | succ n ih =>
    cases v with
    | handle x =>
      obtain ⟨v₁, w₁, -, h⟩ := Exec.bind_eq_ok h
      exact ih h
    | _ => cases h; nofun

namespace Path

variable {h : HandleAccess} {limits : Limits}

/-- The way of a write along a path, from a value in one world to a value in another, which may have grown where
handles were followed; with the steps that were made. -/
inductive Comes (h : HandleAccess) (limits : Limits) :
    List Part → Value → World → List (Value × Part × Value) → Value → World → Prop where
  | here (v w) : Comes h limits [] v w [] v w
  | step {v w part rest steps u w'} : (∀ x, v ≠ .handle x) → w.Knows v → Admits limits v part →
      Comes h limits rest (w.next v part) w steps u w' →
      Comes h limits (part :: rest) v w ((v, part, w.next v part) :: steps) u w'
  | through {x w v w₁ part rest steps u w'} : w.store.isReadOnly x = false →
      follow h.read limits.handleDepth (.handle x) w = .ok v w₁ → w₁.Knows v → Admits limits v part →
      Comes h limits rest (w₁.next v part) w₁ steps u w' →
      Comes h limits (part :: rest) (.handle x) w ((v, part, w₁.next v part) :: steps) u w'

section Writing

variable {text : String} {op : WriteOp} {x : Value} {part : Part} {rest : List Part} {v : Value} {w : World}

/-- What can be gone on from is opened in one way, whatever is written below. -/
theorem writeInto_opened (ha : Admits limits v part) (w : World) :
    ∃ v₀ m, w.Opened v part v₀ m ∧ ∀ text inner,
      writeInto limits text part v inner w =
        match inner (w.next v part) m with
        | .ok new w' => .ok v₀ (w'.linked v₀ part (w.next v part) new)
        | .error e w' => .error e w' := by
  cases part with
  | index i =>
    obtain ⟨-, v₀, m, ho, hrun⟩ := (writeIndex_run limits i v w).resolve_left fun h => h.1 ha
    exact ⟨v₀, m, ho, fun _ => hrun⟩
  | key k =>
    obtain ⟨-, v₀, m, ho, hrun⟩ := (writeKey_run limits k v w).resolve_left fun h => h.1 ha
    exact ⟨v₀, m, ho, fun _ => hrun⟩
  | _ => exact ha.1.elim

theorem writeInto_below (text : String) (ha : Admits limits v part) (hn : (w.next v part).isNull = false)
    (inner : Value → Exec Value) :
    writeInto limits text part v inner w =
      match inner (w.next v part) w with
      | .ok new w₁ => .ok v (w₁.linked v part (w.next v part) new)
      | .error e w₁ => .error e w₁ := by
  have hv : v.isNull = false := Bool.eq_false_iff.mpr fun hv => by
    rw [World.next_of_isNull w hv] at hn
    cases hn
  obtain ⟨v₀, m, ho, hrun⟩ := writeInto_opened ha w
  rw [hrun, ho.still hn, ho.same hv]

/-- A write below a value makes no room where there is something already. -/
theorem writeParts_below (hv : ∀ y, v ≠ .handle y) (ha : Admits limits v part) (hn : (w.next v part).isNull = false) :
    writeParts h limits text op x (part :: rest) v w =
      match writeParts h limits text op x rest (w.next v part) w with
      | .ok new w₁ => .ok v (w₁.linked v part (w.next v part) new)
      | .error e w₁ => .error e w₁ := by
  rw [writeParts_cons h limits text op x part rest hv, writeInto_below text ha hn]

theorem writeParts_handle {y : HandleId} (hy : w.store.isReadOnly y = false) {w₁ : World}
    (hf : follow h.read limits.handleDepth (.handle y) w = .ok v w₁) :
    writeParts h limits text op x (part :: rest) (.handle y) w =
      (do
        let updated ← writeInto limits text part v (writeParts h limits text op x rest)
        if updated != v then h.write y updated
        return .handle y : Exec Value) w₁ := by
  change (if w.store.isReadOnly y = true then _ else _ : Exec Value) w = _
  rw [hy, if_neg Bool.false_ne_true]
  exact Exec.bind_ok hf

/-- A write through a handle goes on from what the handle leads to. -/
theorem writeParts_through {y : HandleId} (hy : w.store.isReadOnly y = false) {w₁ : World}
    (hf : follow h.read limits.handleDepth (.handle y) w = .ok v w₁) (ha : Admits limits v part)
    (hn : (w₁.next v part).isNull = false) :
    writeParts h limits text op x (part :: rest) (.handle y) w =
      match writeParts h limits text op x rest (w₁.next v part) w₁ with
      | .ok new w₂ => .ok (.handle y) (w₂.linked v part (w₁.next v part) new)
      | .error e w₂ => .error e w₂ := by
  rw [writeParts_handle hy hf]
  have hrun := writeInto_below text ha hn (writeParts h limits text op x rest)
  cases hi : writeParts h limits text op x rest (w₁.next v part) w₁ with
  | ok new w₂ =>
    rw [hi] at hrun
    rw [Exec.bind_ok hrun]
    simp only [bne_self_eq_false, Bool.false_eq_true, if_false]
    rfl
  | error e w₂ =>
    rw [hi] at hrun
    rw [Exec.bind_error hrun]

end Writing

namespace Comes

variable {front rest : List Part} {v u x : Value} {w w' w₁ : World} {steps : List (Value × Part × Value)}
  {text : String} {op : WriteOp}

theorem not_null (hc : Comes h limits front v w steps u w') (hu : u.isNull = false) : v.isNull = false := by
  induction hc with
  | here => exact hu
  | @step v w part rest steps u w' _ _ _ _ ih =>
    refine Bool.eq_false_iff.mpr fun hv => ?_
    have hn := ih hu
    rw [World.next_of_isNull w hv] at hn
    cases hn
  | through => rfl

/-- A write that leaves the value at the end of the way in its place leaves all on the way in place. -/
theorem writes (hc : Comes h limits front v w steps u w') (hu : u.isNull = false)
    (hrun : writeParts h limits text op x rest u w' = .ok u w₁)
    (hl : ∀ s ∈ steps, w₁.linked s.1 s.2.1 s.2.2 s.2.2 = w₁) :
    writeParts h limits text op x (front ++ rest) v w = .ok v w₁ := by
  induction hc with
  | here => exact hrun
  | step hv _ ha hc ih =>
    rw [List.cons_append, writeParts_below hv ha (hc.not_null hu),
      ih hu hrun fun s hs => hl s (List.mem_cons_of_mem _ hs)]
    dsimp only
    rw [hl _ List.mem_cons_self]
  | through hy hf _ ha hc ih =>
    rw [List.cons_append, writeParts_through hy hf ha (hc.not_null hu),
      ih hu hrun fun s hs => hl s (List.mem_cons_of_mem _ hs)]
    dsimp only
    rw [hl _ List.mem_cons_self]

/-- A write that fails further down fails with the same error. -/
theorem fails (hc : Comes h limits front v w steps u w') (hu : u.isNull = false) {e : Fault}
    (hrun : writeParts h limits text op x rest u w' = .error e w₁) :
    writeParts h limits text op x (front ++ rest) v w = .error e w₁ := by
  induction hc with
  | here => exact hrun
  | step hv _ ha hc ih =>
    rw [List.cons_append, writeParts_below hv ha (hc.not_null hu), ih hu hrun]
  | through hy hf _ ha hc ih =>
    rw [List.cons_append, writeParts_through hy hf ha (hc.not_null hu), ih hu hrun]

theorem grown (hr : ∀ y, (h.read y).Along World.Grown) (hc : Comes h limits front v w steps u w') : w.Grown w' := by
  induction hc with
  | here => exact .refl _
  | step _ _ _ _ ih => exact ih
  | @through y w v w₁ _ _ _ _ _ _ hf _ _ _ ih =>
    have hg := follow_along hr limits.handleDepth (.handle y) w
    rw [Exec.after_ok hf] at hg
    exact hg.trans ih

theorem idle (hr : ∀ y, (h.read y).Along World.Grown) (hc : Comes h limits front v w steps u w')
    (hu : u.isNull = false) (hk : w'.Kept w₁) : ∀ s ∈ steps, w₁.linked s.1 s.2.1 s.2.2 s.2.2 = w₁ := by
  induction hc with
  | here => nofun
  | step _ hv _ hc ih =>
    refine List.forall_mem_cons.mpr ⟨?_, ih hu hk⟩
    exact World.linked_idle (World.Kept.next ((hc.grown hr).kept.trans hk) hv _) (hc.not_null hu)
  | through _ _ hv _ hc ih =>
    refine List.forall_mem_cons.mpr ⟨?_, ih hu hk⟩
    exact World.linked_idle (World.Kept.next ((hc.grown hr).kept.trans hk) hv _) (hc.not_null hu)

end Comes

end Path

namespace World

variable {w w' : World} {limits : Limits} {parts : List Part} {v : Value}

/-- A write can go all along a path from a value and meets no handle before the end. -/
structure Track (w : World) (limits : Limits) (parts : List Part) (v : Value) : Prop where
  plain : ∀ s ∈ w.steps parts v, ∀ x, s.1 ≠ .handle x
  knows : ∀ s ∈ w.steps parts v, w.Knows s.1
  admits : ∀ s ∈ w.steps parts v, Path.Admits limits s.1 s.2.1

theorem Track.nil (w : World) (limits : Limits) (v : Value) : w.Track limits [] v where
  plain := nofun
  knows := nofun
  admits := nofun

theorem track_cons {part : Part} {rest : List Part} :
    w.Track limits (part :: rest) v ↔
      ((∀ x, v ≠ .handle x) ∧ w.Knows v ∧ Path.Admits limits v part) ∧ w.Track limits rest (w.next v part) := by
  constructor
  · rintro ⟨hp, hk, ha⟩
    obtain ⟨hp₀, hp⟩ := List.forall_mem_cons.mp hp
    obtain ⟨hk₀, hk⟩ := List.forall_mem_cons.mp hk
    obtain ⟨ha₀, ha⟩ := List.forall_mem_cons.mp ha
    exact ⟨⟨hp₀, hk₀, ha₀⟩, hp, hk, ha⟩
  · rintro ⟨⟨hp₀, hk₀, ha₀⟩, hp, hk, ha⟩
    exact ⟨List.forall_mem_cons.mpr ⟨hp₀, hp⟩, List.forall_mem_cons.mpr ⟨hk₀, hk⟩, List.forall_mem_cons.mpr ⟨ha₀, ha⟩⟩

theorem Track.comes (h : HandleAccess) (ht : w.Track limits parts v) :
    Path.Comes h limits parts v w (w.steps parts v) (w.target parts v) w := by
  induction parts generalizing v with
  | nil => exact .here v w
  | cons part rest ih =>
    obtain ⟨⟨hv, hk, ha⟩, ht⟩ := track_cons.mp ht
    exact .step hv hk ha (ih ht)

theorem Track.reads (ht : w.Track limits parts v) : w.Reads parts v (w.target parts v) := by
  induction parts generalizing v with
  | nil => rfl
  | cons part rest ih =>
    obtain ⟨⟨-, -, ha⟩, ht⟩ := track_cons.mp ht
    exact ⟨ha.1, ih ht⟩

theorem Track.isStatic (ht : w.Track limits parts v) : parts.all Part.isStatic = true := by
  induction parts generalizing v with
  | nil => rfl
  | cons part rest ih =>
    obtain ⟨⟨-, -, ha⟩, ht⟩ := track_cons.mp ht
    have hp : part.isStatic = true := by
      have ho := ha.1
      cases part <;> first | rfl | exact ho.elim
    rw [List.all_cons, hp, ih ht]
    rfl

theorem mem_passed {y : Value} : y ∈ w.passed parts v ↔ ∃ s ∈ w.steps parts v, s.1 = y := by
  induction parts generalizing v with
  | nil => simp [passed, steps]
  | cons part rest ih => simp [passed, steps, ih, eq_comm]

theorem Track.passed_plain (ht : w.Track limits parts v) : ∀ y ∈ w.passed parts v, ∀ x, y ≠ .handle x := by
  intro y hy
  obtain ⟨s, hs, rfl⟩ := mem_passed.mp hy
  exact ht.plain s hs

theorem steps_append (w : World) (front back : List Part) (v : Value) :
    w.steps (front ++ back) v = w.steps front v ++ w.steps back (w.target front v) := by
  induction front generalizing v with
  | nil => rfl
  | cons part rest ih => exact congrArg (List.cons _) (ih (w.next v part))

theorem track_append {front back : List Part} :
    w.Track limits (front ++ back) v ↔ w.Track limits front v ∧ w.Track limits back (w.target front v) := by
  induction front generalizing v with
  | nil => exact ⟨fun h => ⟨.nil w limits v, h⟩, And.right⟩
  | cons part rest ih =>
    rw [List.cons_append, track_cons, track_cons, ih]
    exact and_assoc.symm

theorem way_congr (h : ∀ s ∈ w.steps parts v, w'.next s.1 s.2.1 = w.next s.1 s.2.1) :
    w'.steps parts v = w.steps parts v ∧ w'.target parts v = w.target parts v := by
  induction parts generalizing v with
  | nil => exact ⟨rfl, rfl⟩
  | cons part rest ih =>
    obtain ⟨h₀, h⟩ := List.forall_mem_cons.mp h
    dsimp only at h₀
    obtain ⟨hs, ht⟩ := ih h
    refine ⟨?_, ?_⟩
    · unfold steps
      rw [h₀, hs]
    · unfold target
      rw [h₀, ht]

theorem Track.congr (ht : w.Track limits parts v) (hk : ∀ {u}, w.Knows u → w'.Knows u)
    (h : w'.steps parts v = w.steps parts v) : w'.Track limits parts v where
  plain s hs := ht.plain s (h ▸ hs)
  knows s hs := hk (ht.knows s (h ▸ hs))
  admits s hs := ht.admits s (h ▸ hs)

theorem target_isNull_of_step {s : Value × Part × Value} (hs : s ∈ w.steps parts v) (hn : s.2.2.isNull = true) :
    (w.target parts v).isNull = true := by
  induction parts generalizing v with
  | nil => cases hs
  | cons part rest ih =>
    rcases List.mem_cons.mp hs with rfl | hs
    · exact (target_isNull hn : (w.target rest (w.next v part)).isNull = true)
    · exact ih hs

theorem steps_next {s : Value × Part × Value} (hs : s ∈ w.steps parts v) : w.next s.1 s.2.1 = s.2.2 := by
  induction parts generalizing v with
  | nil => cases hs
  | cons part rest ih =>
    rcases List.mem_cons.mp hs with rfl | hs
    · rfl
    · exact ih hs

section Writing

variable {h : HandleAccess} {text : String} {op : WriteOp} {x : Value} {rest : List Part}

/-- A write that leaves what a path leads to in its place leaves all on the path in place. -/
theorem Track.writes (ht : w.Track limits parts v) (hn : (w.target parts v).isNull = false)
    (hrun : Path.writeParts h limits text op x rest (w.target parts v) w = .ok (w.target parts v) w')
    (hway : ∀ s ∈ w.steps parts v, w'.next s.1 s.2.1 = w.next s.1 s.2.1) :
    Path.writeParts h limits text op x (parts ++ rest) v w = .ok v w' := by
  refine (ht.comes h).writes hn hrun fun s hs => ?_
  have hnext := steps_next hs
  refine linked_idle ((hway s hs).trans hnext) (Bool.eq_false_iff.mpr fun hs' => ?_)
  rw [target_isNull_of_step hs hs'] at hn
  cases hn

theorem Track.fails (ht : w.Track limits parts v) (hn : (w.target parts v).isNull = false) {e : Fault}
    (hrun : Path.writeParts h limits text op x rest (w.target parts v) w = .error e w') :
    Path.writeParts h limits text op x (parts ++ rest) v w = .error e w' :=
  (ht.comes h).fails hn hrun

end Writing

theorem Kept.way (h : w.Kept w') (ht : w.Track limits parts v) :
    w'.steps parts v = w.steps parts v ∧ w'.target parts v = w.target parts v :=
  way_congr fun s hs => h.next (ht.knows s hs) s.2.1

theorem admits_of_next {part : Part} (hn : (w.next v part).isNull = false)
    (hi : ∀ i, part = .index i → 0 ≤ i ∧ i < limits.arraySize) : Path.Admits limits v part := by
  refine ⟨?_, hi⟩
  cases part with
  | index i =>
    cases v with
    | array a => exact .inr ⟨⟨a, rfl⟩, (hi i rfl).1⟩
    | _ => cases hn
  | key k =>
    cases v with
    | object o => exact .inr rfl
    | context c => exact .inr rfl
    | _ => cases hn
  | _ => cases hn

theorem steps_part {s : Value × Part × Value} (hs : s ∈ w.steps parts v) : s.2.1 ∈ parts := by
  induction parts generalizing v with
  | nil => cases hs
  | cons part rest ih =>
    rcases List.mem_cons.mp hs with rfl | hs
    · exact List.mem_cons_self
    · exact List.mem_cons_of_mem _ (ih hs)

theorem Closed.knows_passed (h : w.Closed) (hv : w.Knows v) : ∀ y ∈ w.passed parts v, w.Knows y := by
  induction parts generalizing v with
  | nil => nofun
  | cons part rest ih => exact List.forall_mem_cons.mpr ⟨hv, ih (h.next v part)⟩

/-- A path that leads to something and meets no handle before can be written along, as long as its indices stay within
the limit. -/
theorem Closed.track (h : w.Closed) (hv : w.Knows v) (hp : ∀ y ∈ w.passed parts v, ∀ x, y ≠ .handle x)
    (hn : (w.target parts v).isNull = false) (hi : ∀ i, .index i ∈ parts → 0 ≤ i ∧ i < limits.arraySize) :
    w.Track limits parts v where
  plain s hs := hp s.1 (mem_passed.mpr ⟨s, hs, rfl⟩)
  knows s hs := h.knows_passed hv s.1 (mem_passed.mpr ⟨s, hs, rfl⟩)
  admits s hs := by
    refine admits_of_next (w := w) (Bool.eq_false_iff.mpr fun hs' => ?_) fun i hpart => hi i (hpart ▸ steps_part hs)
    rw [steps_next hs] at hs'
    rw [target_isNull_of_step hs hs'] at hn
    cases hn

end World

end EventScript
