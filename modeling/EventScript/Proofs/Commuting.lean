import EventScript.Proofs.Unfolding

/-!
# Changes of unfoldings

A write as a change of unfoldings: it makes the containers that are missing on the way of its path, and puts what a
function makes of the unfolding at the end there. Changes along paths that part from each other commute.
-/

namespace EventScript

namespace Shape

/-- Null or absent. -/
def isNull : Shape → Bool
  | .atom v => v.isNull
  | _ => false

/-- Whether a write can go on from a value of a shape to a part below it. -/
def admits (limits : Limits) : Shape → Part → Bool
  | .array _, .index i => 0 ≤ i && i < limits.arraySize
  | .object _, .key _ => true
  | .view _, .key _ => true
  | .atom v, .index i => v.isNull && (0 ≤ i && i < limits.arraySize)
  | .atom v, .key _ => v.isNull
  | _, _ => false

/-- The shape of a value when something is in the slot of a part, given whether something was. A container takes the
place of null. -/
def opened (part : Part) (had : Bool) : Shape → Shape
  | .array n => match part with
    | .index i => .array (max n (i.toNat + 1))
    | _ => .array n
  | .object n => .object (if had then n else n + 1)
  | .view n => .view (if had then n else n + 1)
  | .atom _ => match part with
    | .index i => .array (i.toNat + 1)
    | _ => .object (if had then 0 else 1)
  | shape => shape

variable {limits : Limits} {shape : Shape} {part other : Part}

theorem slot?_of_admits (h : shape.admits limits part = true) : ∃ s, part.slot? = some s := by
  cases part with
  | index i => exact ⟨_, rfl⟩
  | key k => exact ⟨_, rfl⟩
  | _ => cases shape <;> cases h

theorem admits_opened (h : shape.admits limits part = true) (had : Bool) :
    (shape.opened part had).admits limits part = true := by
  cases part <;> cases shape <;> cases had <;> simp_all [admits, opened]

theorem admits_of_opened {had : Bool} (h : shape.admits limits part = true)
    (ho : (shape.opened part had).admits limits other = true) : shape.admits limits other = true := by
  cases part <;> cases shape <;> cases had <;> cases other <;> simp_all [admits, opened]

/-- What takes two parts one after the other takes the first after the second. -/
theorem opened_admits {had had' : Bool} (h : shape.admits limits part = true)
    (ho : (shape.opened part had).admits limits other = true) :
    (shape.opened other had').admits limits part = true := by
  cases part <;> cases shape <;> cases had <;> cases had' <;> cases other <;> simp_all [admits, opened]

theorem opened_opened (had : Bool) : (shape.opened part had).opened part true = shape.opened part had := by
  cases part <;> cases shape <;> cases had <;> simp [opened]

/-- It does not matter which of two parts a container is opened for first. -/
theorem opened_comm {b b' c c' : Bool} (h : shape.admits limits part = true)
    (ho : (shape.opened part b).admits limits other = true) (hb : (∀ i, part ≠ .index i) → b' = b ∧ c' = c) :
    (shape.opened part b).opened other c = (shape.opened other c').opened part b' := by
  cases part with
  | index i =>
    cases other with
    | index j =>
      cases shape with
      | array n => exact congrArg array (by omega)
      | atom v => exact congrArg array (Nat.max_comm _ _)
      | _ => cases h
    | _ => cases shape <;> first | cases h | cases ho
  | key k =>
    obtain ⟨rfl, rfl⟩ := hb fun i => by simp
    cases other with
    | key l => cases shape <;> cases b' <;> cases c' <;> rfl
    | _ => cases shape <;> cases b' <;> first | cases ho | cases h
  | _ => cases shape <;> cases h

end Shape

theorem Part.fill?_eq (part : Part) (s : Slot) : part.fill? s = none ∨ part.fill? s = some .null := by
  unfold Part.fill?
  split
  · split
    · exact .inr rfl
    · exact .inl rfl
  · exact .inl rfl

namespace Unfolding

/-- What is in a slot, null where nothing is. -/
def next (U : Unfolding) (s : Slot) : Unfolding := (U.child? s).getD (atom .null)

/-- The unfolding with another in the slot of a part. -/
def link (U : Unfolding) (part : Part) (s : Slot) (C : Unfolding) : Unfolding :=
  node (U.shape.opened part (U.child? s).isSome) fun t =>
    if t = s then some C else (U.child? t).or ((part.fill? t).map atom)

/-- The unfolding with what a function makes of the unfolding at the end of a path; none where the path cannot be
written to or the function gives none. -/
def graft (limits : Limits) (f : Unfolding → Option Unfolding) : List Part → Unfolding → Option Unfolding
  | [], U => f U
  | part :: rest, U =>
    if U.shape.admits limits part then
      part.slot?.bind fun s => (graft limits f rest (U.next s)).map (U.link part s)
    else none

variable {U U' C D : Unfolding} {part other : Part} {s t : Slot}

@[simp] theorem shape_link : (U.link part s C).shape = U.shape.opened part (U.child? s).isSome := rfl

theorem child?_link_self : (U.link part s C).child? s = some C := by
  unfold link
  rw [child?_node, if_pos rfl]

theorem child?_link_other (h : t ≠ s) : (U.link part s C).child? t = (U.child? t).or ((part.fill? t).map atom) := by
  unfold link
  rw [child?_node, if_neg h]

theorem next_link_self : (U.link part s C).next s = C := by
  unfold next
  rw [child?_link_self, Option.getD_some]

theorem next_link_other (h : t ≠ s) : (U.link part s C).next t = U.next t := by
  unfold next
  rw [child?_link_other h]
  rcases part.fill?_eq t with hf | hf <;> cases U.child? t <;> simp [hf]

theorem link_link_self : (U.link part s C).link part s D = U.link part s D := by
  unfold link
  simp only [child?_node, shape_node, if_pos, Option.isSome_some, Shape.opened_opened]
  congr 1
  funext u
  by_cases hu : u = s
  · rw [if_pos hu, if_pos hu]
  · rw [if_neg hu, if_neg hu, if_neg hu, Option.or_assoc, Option.or_self]

/-- Links in two slots commute. -/
theorem link_comm {limits : Limits} (hs : part.slot? = some s) (ht : other.slot? = some t) (hst : s ≠ t)
    (h : U.shape.admits limits part = true) (ho : (U.link part s C).shape.admits limits other = true) :
    (U.link part s C).link other t D = (U.link other t D).link part s C := by
  have hor (u : Slot) : ((U.child? u).or ((part.fill? u).map atom)).or ((other.fill? u).map atom) =
      ((U.child? u).or ((other.fill? u).map atom)).or ((part.fill? u).map atom) := by
    rcases part.fill?_eq u with hp | hp <;> rcases other.fill?_eq u with hq | hq <;> cases U.child? u <;> simp [hp, hq]
  -- Only the parts of arrays fill slots, and no slot of an object.
  have hfill (hkey : ∀ i, part ≠ .index i) : part.fill? t = none ∧ other.fill? s = none := by
    cases part with
    | index i => exact absurd rfl (hkey i)
    | key k =>
      cases hs
      cases other <;> exact ⟨rfl, rfl⟩
    | _ => cases hs
  unfold link
  simp only [child?_node, shape_node]
  congr 1
  · refine Shape.opened_comm h ho fun hkey => ?_
    obtain ⟨hp, hq⟩ := hfill hkey
    rw [if_neg hst, if_neg hst.symm, hp, hq, Option.map_none, Option.or_none, Option.or_none]
    exact ⟨rfl, rfl⟩
  · funext u
    by_cases hus : u = s
    · subst hus
      rw [if_neg hst, if_pos rfl, if_pos rfl, Option.some_or]
    · by_cases hut : u = t
      · subst hut
        rw [if_pos rfl, if_neg hus, if_pos rfl, Option.some_or]
      · rw [if_neg hut, if_neg hus, if_neg hus, if_neg hut, hor]

theorem graft_cons_eq_some {limits : Limits} {f : Unfolding → Option Unfolding} {rest : List Part}
    (h : graft limits f (part :: rest) U = some U') :
    U.shape.admits limits part = true ∧
      ∃ s C, part.slot? = some s ∧ graft limits f rest (U.next s) = some C ∧ U' = U.link part s C := by
  unfold graft at h
  split at h
  · rename_i ha
    obtain ⟨s, hs, h⟩ := Option.bind_eq_some_iff.mp h
    obtain ⟨C, hC, rfl⟩ := Option.map_eq_some_iff.mp h
    exact ⟨ha, s, C, hs, hC, rfl⟩
  · cases h

theorem graft_cons {limits : Limits} {f : Unfolding → Option Unfolding} {rest : List Part}
    (ha : U.shape.admits limits part = true) (hs : part.slot? = some s) (hC : graft limits f rest (U.next s) = some C) :
    graft limits f (part :: rest) U = some (U.link part s C) := by
  unfold graft
  rw [if_pos ha, hs, Option.bind_some, hC, Option.map_some]

/-- Parts that differ and that a container takes name different slots. -/
theorem slot_ne_of_admits {limits : Limits} {shape : Shape} (hs : part.slot? = some s) (ht : other.slot? = some t)
    (h : shape.admits limits part = true) (ho : shape.admits limits other = true) (hne : part ≠ other) : t ≠ s := by
  rintro rfl
  cases part with
  | index i =>
    cases hs
    cases other with
    | index j =>
      have hij : j.toNat = i.toNat := by simpa [Part.slot?] using ht
      have hrange : 0 ≤ i ∧ 0 ≤ j := by cases shape <;> simp_all [Shape.admits]
      exact hne (congrArg Part.index (by omega))
    | _ => cases ht
  | key k =>
    cases hs
    cases other with
    | key l =>
      have hkl : l = k := by simpa [Part.slot?] using ht
      exact hne (by rw [hkl])
    | _ => cases ht
  | _ => cases hs

/-- Changes along paths that part from each other commute: if one can be made after the other, it can be made first,
and the result is the same. -/
theorem graft_comm {limits : Limits} {f g : Unfolding → Option Unfolding} {p q : List Part} (hd : Path.Diverge p q)
    {U U₁ U₂ : Unfolding} (hp : graft limits f p U = some U₁) (hq : graft limits g q U₁ = some U₂) :
    ∃ U₁', graft limits g q U = some U₁' ∧ graft limits f p U₁' = some U₂ := by
  obtain ⟨front, part, rest, other, rest', rfl, rfl, hne⟩ := hd
  induction front generalizing U U₁ U₂ with
  | nil =>
    rw [List.nil_append] at hp hq ⊢
    obtain ⟨ha, s, C, hs, hC, rfl⟩ := graft_cons_eq_some hp
    obtain ⟨ho, t, D, ht, hD, rfl⟩ := graft_cons_eq_some hq
    have ho' : U.shape.admits limits other = true := Shape.admits_of_opened ha ho
    have hts : t ≠ s := slot_ne_of_admits hs ht (Shape.admits_opened ha _) ho hne
    rw [next_link_other hts] at hD
    refine ⟨U.link other t D, graft_cons ho' ht hD, ?_⟩
    rw [link_comm hs ht hts.symm ha ho]
    refine graft_cons (Shape.opened_admits ha ho) hs ?_
    rw [next_link_other hts.symm]
    exact hC
  | cons first front ih =>
    rw [List.cons_append] at hp hq ⊢
    obtain ⟨ha, s, C, hs, hC, rfl⟩ := graft_cons_eq_some hp
    obtain ⟨-, s', D, hs', hD, rfl⟩ := graft_cons_eq_some hq
    obtain rfl : s = s' := Option.some.inj (hs.symm.trans hs')
    rw [next_link_self] at hD
    obtain ⟨C', hC', hD'⟩ := ih hC hD
    refine ⟨U.link first s C', graft_cons ha hs hC', ?_⟩
    have ha' : (U.link first s C').shape.admits limits first = true := Shape.admits_opened ha _
    have hagain := graft_cons ha' hs (by rw [next_link_self]; exact hD')
    rw [link_link_self] at hagain ⊢
    exact hagain

end Unfolding

end EventScript
