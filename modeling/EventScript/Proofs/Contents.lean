import EventScript.Proofs.Trails

/-!
# What values contain

The elements of arrays and the entries of objects are the slots of containers. A value contains all that a way
through slots leads to from it. Two worlds that agree on all containers in a value agree on what it contains.
-/

namespace EventScript

namespace World

/-- What a way through slots leads to from a value. -/
def at? (w : World) : List Slot → Value → Option Value
  | [], v => some v
  | s :: rest, v => (w.slot? v s).bind (w.at? rest)

/-- A value contains another, or is it. -/
def Contains (w : World) (v y : Value) : Prop := ∃ way, w.at? way v = some y

variable {w w' : World} {v y : Value}

theorem Contains.self (w : World) (v : Value) : w.Contains v v := ⟨[], rfl⟩

theorem Contains.step {s : Slot} {u : Value} (hs : w.slot? v s = some u) (hy : w.Contains u y) :
    w.Contains v y := by
  obtain ⟨way, hway⟩ := hy
  refine ⟨s :: way, ?_⟩
  simp only [at?, hs, Option.bind_some, hway]

theorem at?_append (front back : List Slot) (v : Value) :
    w.at? (front ++ back) v = (w.at? front v).bind (w.at? back) := by
  induction front generalizing v with
  | nil => rfl
  | cons s rest ih =>
    simp only [List.cons_append, at?, Option.bind_assoc]
    exact congrArg _ (funext ih)

theorem Contains.trans {u : Value} (h : w.Contains v u) (k : w.Contains u y) : w.Contains v y := by
  obtain ⟨front, hf⟩ := h
  obtain ⟨back, hb⟩ := k
  exact ⟨front ++ back, by rw [at?_append, hf, Option.bind_some, hb]⟩

/-- A value that is no container contains nothing but itself. -/
theorem Contains.eq_self (h : w.Contains v y) (hv : ∀ s, w.slot? v s = none) : y = v := by
  obtain ⟨way, hway⟩ := h
  cases way with
  | nil => exact (Option.some.inj hway).symm
  | cons s rest =>
    simp only [at?, hv s] at hway
    cases hway

theorem touched_of_not_context (w : World) {y : Value} (hy : ∀ c, y ≠ .context c) : w.touched y = y.own?.toList := by
  cases y with
  | context c => exact absurd rfl (hy c)
  | _ => rfl

/-- The contents of a value lie in the places that can be looked at in it. -/
theorem slot?_congr (hv : w.SameView w' v) (h : ∀ x ∈ w.touched v, w.SameAt w' x) (s : Slot) :
    w'.slot? v s = w.slot? v s := by
  cases s with
  | index i =>
    cases v with
    | array a =>
      have ha : w'.store.array a = w.store.array a := h (.array a) (by simp [touched, Value.own?])
      simp only [slot?, ha]
    | _ => rfl
  | key k =>
    cases v with
    | object o =>
      have ho : w'.store.object o = w.store.object o := h (.object o) (by simp [touched, Value.own?])
      simp only [slot?, valueAt?, ho]
    | context c =>
      simp only [slot?, valueAt?, lookup?, hv.chain]
      refine lookupIn_congr k _ (hv c rfl).2 fun x hx => h x ?_
      exact w.consultedIn_subset k _ x hx
    | _ => rfl

/-- Two worlds agree on all containers in a value. -/
def Agrees (w w' : World) (v : Value) : Prop :=
  ∀ y, w.Contains v y → w.SameView w' y ∧ ∀ x ∈ w.touched y, w.SameAt w' x

/-- Worlds that agree on all containers in a value agree on what is in it. -/
theorem Agrees.at? (h : w.Agrees w' v) (way : List Slot) : w'.at? way v = w.at? way v := by
  induction way generalizing v with
  | nil => rfl
  | cons s rest ih =>
    have hv := h v (.self w v)
    simp only [World.at?, slot?_congr hv.1 hv.2 s]
    cases hs : w.slot? v s with
    | none => rfl
    | some u => exact ih fun y hy => h y (hy.step hs)

theorem Agrees.slot? (h : w.Agrees w' v) (s : Slot) : w'.slot? v s = w.slot? v s :=
  slot?_congr (h v (.self w v)).1 (h v (.self w v)).2 s

theorem Agrees.contains (h : w.Agrees w' v) : w'.Contains v y ↔ w.Contains v y :=
  exists_congr fun way => by rw [h.at?]

theorem Agrees.inside (h : w.Agrees w' v) {u : Value} (hu : w.Contains v u) : w.Agrees w' u :=
  fun y hy => h y (hu.trans hy)

/-- Worlds agree on a value if they agree on its own containers and on what is in its slots. -/
theorem Agrees.of_slots (hv : w.SameView w' v) (ht : ∀ x ∈ w.touched v, w.SameAt w' x)
    (h : ∀ s u, w.slot? v s = some u → w.Agrees w' u) : w.Agrees w' v := by
  rintro y ⟨way, hway⟩
  cases way with
  | nil =>
    cases hway
    exact ⟨hv, ht⟩
  | cons s rest =>
    obtain ⟨u, hs, hu⟩ := Option.bind_eq_some_iff.mp hway
    exact h s u hs y ⟨rest, hu⟩

theorem Agrees.trans {w'' : World} (h : w.Agrees w' v) (k : w'.Agrees w'' v) : w.Agrees w'' v := by
  intro y hy
  obtain ⟨hv, hs⟩ := h y hy
  obtain ⟨hv', hs'⟩ := k y (h.contains.mpr hy)
  exact ⟨hv.trans hv', fun x hx => (hs x hx).trans (hs' x (by rw [hv.touched]; exact hx))⟩

/-- A value holds a place if the place can be looked at in what it contains. -/
def Holds (w : World) (v : Value) (x : Place) : Prop := ∃ y, w.Contains v y ∧ x ∈ w.touched y

variable {x : Place}

theorem Holds.self (hx : x ∈ w.touched v) : w.Holds v x := ⟨v, .self w v, hx⟩

theorem Holds.step {s : Slot} {u : Value} (hs : w.slot? v s = some u) (h : w.Holds u x) : w.Holds v x := by
  obtain ⟨y, hy, hx⟩ := h
  exact ⟨y, hy.step hs, hx⟩

theorem Contains.holds {y : Value} (h : w.Contains v y) (hx : w.Holds y x) : w.Holds v x := by
  obtain ⟨z, hz, hxz⟩ := hx
  exact ⟨z, h.trans hz, hxz⟩

/-- What a value holds is its own or held in a slot. -/
theorem Holds.cases (h : w.Holds v x) : x ∈ w.touched v ∨ ∃ s u, w.slot? v s = some u ∧ w.Holds u x := by
  obtain ⟨y, ⟨way, hway⟩, hx⟩ := h
  cases way with
  | nil =>
    cases hway
    exact .inl hx
  | cons s rest =>
    obtain ⟨u, hs, hu⟩ := Option.bind_eq_some_iff.mp hway
    exact .inr ⟨s, u, hs, y, ⟨rest, hu⟩, hx⟩

theorem Agrees.holds (h : w.Agrees w' v) : w'.Holds v x ↔ w.Holds v x := by
  constructor
  · rintro ⟨y, hy, hx⟩
    have hy' := h.contains.mp hy
    exact ⟨y, hy', by rwa [(h y hy').1.touched] at hx⟩
  · rintro ⟨y, hy, hx⟩
    exact ⟨y, h.contains.mpr hy, by rwa [(h y hy).1.touched]⟩

theorem not_holds_cell (w : World) (v : Value) (c : CellId) : ¬w.Holds v (.cell c) := by
  rintro ⟨y, -, hy⟩
  exact w.not_touched_cell y c hy

theorem not_holds_of_isNull (hv : v.isNull = true) : ¬w.Holds v x := by
  intro h
  rcases h.cases with hx | ⟨s, u, hs, -⟩
  · cases v with
    | null => cases hx
    | absent => cases hx
    | _ => cases hv
  · rw [w.slot?_of_isNull hv] at hs
    cases hs

/-- All that is contained in a value is there. -/
def Whole (w : World) (v : Value) : Prop := ∀ y, w.Contains v y → w.Knows y

theorem Whole.inside (h : w.Whole v) {u : Value} (hu : w.Contains v u) : w.Whole u := fun y hy => h y (hu.trans hy)

theorem Whole.has (h : w.Whole v) (hx : w.Holds v x) : w.Has x := by
  obtain ⟨y, hy, hx⟩ := hx
  exact (h y hy).has x hx

theorem Spares.agrees {R : Place → Prop} (h : w.Spares R w') (hv : w.Whole v) (hR : ∀ x, w.Holds v x → R x) :
    w.Agrees w' v := fun y hy =>
  ⟨h.sameView (hv y hy), fun x hx => (h.place x (hR x ⟨y, hy, hx⟩) ((hv y hy).has x hx)).2⟩

/-- What is there stays there while it is spared. -/
theorem Spares.knows {R : Place → Prop} (h : w.Spares R w') (hv : w.Knows v) (hR : ∀ x ∈ w.touched v, R x) :
    w'.Knows v := by
  have hsv := h.sameView hv
  constructor
  · intro x hx
    rw [hsv.touched] at hx
    exact (h.place x (hR x hx) (hv.has x hx)).1
  · rintro c rfl
    obtain ⟨hc, hs⟩ := hv.sees c rfl
    rw [hsv.chain]
    exact ⟨Nat.lt_of_lt_of_le hc (size_le_of_begins h.views),
      fun t ht => Nat.lt_of_lt_of_le (hs t ht) (size_le_of_begins h.scopes)⟩

theorem Spares.whole {R : Place → Prop} (h : w.Spares R w') (hv : w.Whole v) (hR : ∀ x, w.Holds v x → R x) :
    w'.Whole v := by
  intro y hy
  have hy' := (h.agrees hv hR).contains.mp hy
  exact h.knows (hv y hy') fun x hx => hR x ⟨y, hy', hx⟩

theorem Closed.whole (h : w.Closed) (hv : w.Knows v) : w.Whole v := by
  rintro y ⟨way, hway⟩
  induction way generalizing v with
  | nil =>
    cases hway
    exact hv
  | cons s rest ih =>
    obtain ⟨u, hs, hu⟩ := Option.bind_eq_some_iff.mp hway
    exact ih (h.slot? hs) hu

end World

end EventScript
