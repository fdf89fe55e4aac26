import EventScript.Proofs.Grafting
import Mathlib.Data.List.Forall2

/-!
# Trees

A value is a tree if only one way leads from it to each place that it holds. What lies beside a path through a tree
is apart from all that the path passes, so that a write along the path leaves it as it is.
-/

namespace EventScript

/-- Whether two slots are one: keys are compared as entries are looked up. -/
def Slot.Same : Slot → Slot → Prop
  | .index i, .index j => i = j
  | .key k, .key l => k.same l = true
  | _, _ => False

theorem Slot.Same.refl (s : Slot) : s.Same s := by
  cases s with
  | index i => rfl
  | key k => exact k.same_self

theorem Slot.Same.of_part {part : Part} {s t : Slot} (hs : part.slot? = some s) (h : s.Same t) : t = s := by
  cases part with
  | index i =>
    cases hs
    cases t with
    | index j => exact congrArg Slot.index h.symm
    | key l => exact h.elim
  | key k =>
    cases hs
    cases t with
    | index j => exact h.elim
    | key l => exact congrArg Slot.key ((Key.same_str k l).mp h)
  | _ => cases hs

namespace World

/-- Two ways from a value that lead to a common place are the same. -/
def TreeShaped (w : World) (v : Value) : Prop :=
  ∀ ways ways' y y', w.at? ways v = some y → w.at? ways' v = some y' → (∃ x ∈ w.touched y, x ∈ w.touched y') →
    List.Forall₂ Slot.Same ways ways'

/-- No handle is in a value. -/
def HandleFree (w : World) (v : Value) : Prop := ∀ y, w.Contains v y → ∀ h, y ≠ .handle h

/-- A value all of whose contents are there, and no container of which holds a place that is not loose further inside,
or in two slots. -/
structure Tree (loose : Place → Prop) (w : World) (v : Value) : Prop where
  whole : w.Whole v
  alone : ∀ {y s u x}, w.Contains v y → w.slot? y s = some u → x ∈ w.touched y → ¬loose x → ¬w.Holds u x
  apart : ∀ {y s t a b x}, w.Contains v y → w.slot? y s = some a → w.slot? y t = some b → w.Holds a x → w.Holds b x →
    ¬loose x → s.Same t

variable {loose : Place → Prop} {w w' : World} {v : Value} {x : Place}

theorem at?_of_contains {y : Value} {front way : List Slot} {s : Slot} {u z : Value} (hy : w.at? front v = some y)
    (hs : w.slot? y s = some u) (hz : w.at? way u = some z) : w.at? (front ++ s :: way) v = some z := by
  rw [at?_append, hy, Option.bind_some]
  simp only [at?, hs, Option.bind_some, hz]

theorem Closed.tree (h : w.Closed) (hv : w.Knows v) (ht : w.TreeShaped v) (loose : Place → Prop) :
    w.Tree loose v where
  whole := h.whole hv
  alone := by
    rintro y s u x ⟨front, hy⟩ hs hx - ⟨z, ⟨way, hway⟩, hz⟩
    have hall := (ht _ _ _ _ hy (at?_of_contains hy hs hway) ⟨x, hx, hz⟩).length_eq
    simp at hall
  apart := by
    rintro y s t a b x ⟨front, hy⟩ hs ht' ⟨z, ⟨way, hway⟩, hz⟩ ⟨z', ⟨way', hway'⟩, hz'⟩ -
    have hall := ht _ _ _ _ (at?_of_contains hy hs hway) (at?_of_contains hy ht' hway') ⟨x, hz, hz'⟩
    have hdrop := List.forall₂_drop front.length hall
    rw [List.drop_left, List.drop_left] at hdrop
    exact (List.forall₂_cons.mp hdrop).1

theorem Agrees.handleFree (ha : w.Agrees w' v) (h : w.HandleFree v) : w'.HandleFree v :=
  fun y hy => h y (ha.contains.mp hy)

namespace Tree

theorem agrees (h : w.Tree loose v) (ha : w.Agrees w' v) (hw : w'.Whole v) : w'.Tree loose v where
  whole := hw
  alone {y s u x} hy hs hx hl := by
    have hy' := ha.contains.mp hy
    have hay := ha.inside hy'
    rw [hay.slot?] at hs
    rw [(ha y hy').1.touched] at hx
    rw [(hay.inside (.step hs (.self w u))).holds]
    exact h.alone hy' hs hx hl
  apart {y s t a b x} hy hs ht hxa hxb hl := by
    have hy' := ha.contains.mp hy
    have hay := ha.inside hy'
    rw [hay.slot?] at hs ht
    rw [(hay.inside (.step hs (.self w a))).holds] at hxa
    rw [(hay.inside (.step ht (.self w b))).holds] at hxb
    exact h.apart hy' hs ht hxa hxb hl

theorem spared (h : w.Tree loose v) {R : Place → Prop} (hs : w.Spares R w') (hR : ∀ x, w.Holds v x → R x) :
    w'.Tree loose v := h.agrees (hs.agrees h.whole hR) (hs.whole h.whole hR)

theorem inside (h : w.Tree loose v) {u : Value} (hu : w.Contains v u) : w.Tree loose u where
  whole := h.whole.inside hu
  alone hy := h.alone (hu.trans hy)
  apart hy := h.apart (hu.trans hy)

/-- A value is a tree if what is in its slots is, and holds no place of the value, nor one that another slot holds. -/
theorem of_slots (hv : w.Knows v) (hin : ∀ s u, w.slot? v s = some u → w.Tree loose u)
    (halone : ∀ s u x, w.slot? v s = some u → x ∈ w.touched v → ¬loose x → ¬w.Holds u x)
    (hapart : ∀ s t a b x, w.slot? v s = some a → w.slot? v t = some b → w.Holds a x → w.Holds b x → ¬loose x →
      s.Same t) : w.Tree loose v := by
  have split {y : Value} (hy : w.Contains v y) : y = v ∨ ∃ s u, w.slot? v s = some u ∧ w.Contains u y := by
    obtain ⟨way, hway⟩ := hy
    cases way with
    | nil => exact .inl (Option.some.inj hway).symm
    | cons s rest =>
      obtain ⟨u, hs, hu⟩ := Option.bind_eq_some_iff.mp hway
      exact .inr ⟨s, u, hs, rest, hu⟩
  constructor
  · intro y hy
    rcases split hy with rfl | ⟨s, u, hs, hu⟩
    · exact hv
    · exact (hin s u hs).whole y hu
  · intro y s u x hy hs hx hl
    rcases split hy with rfl | ⟨t, z, ht, hz⟩
    · exact halone s u x hs hx hl
    · exact (hin t z ht).alone hz hs hx hl
  · intro y s t a b x hy hs ht hxa hxb hl
    rcases split hy with rfl | ⟨r, z, hr, hz⟩
    · exact hapart s t a b x hs ht hxa hxb hl
    · exact (hin r z hr).apart hz hs ht hxa hxb hl

end Tree

/-! ### Paths through trees -/

/-- A step leads to what is in a slot, or to null. -/
theorem next_slot (w : World) (v : Value) (part : Part) :
    (∃ s, part.slot? = some s ∧ w.slot? v s = some (w.next v part)) ∨ w.next v part = .null := by
  cases hp : part.slot? with
  | none => exact .inr (by cases part <;> first | rfl | cases hp)
  | some s =>
    rw [w.next_eq_slot v hp]
    cases hs : w.slot? v s with
    | none => exact .inr rfl
    | some u => exact .inl ⟨s, rfl, hs⟩

/-- A path leads from a value to what the value contains, or to null. -/
theorem trail_contains {parts : List Part} {y : Value} (hy : y ∈ w.passed parts v ∨ y = w.target parts v) :
    w.Contains v y ∨ y = .null := by
  induction parts generalizing v with
  | nil =>
    rcases hy with hy | rfl
    · cases hy
    · exact .inl (.self w _)
  | cons part rest ih =>
    unfold passed target at hy
    rw [List.mem_cons, or_assoc] at hy
    rcases hy with rfl | hy
    · exact .inl (.self w _)
    · rcases w.next_slot v part with ⟨s, -, hs⟩ | hnull
      · exact (ih hy).imp (.step hs) id
      · rw [hnull, target_null] at hy
        exact .inr (hy.elim (w.passed_null rest y) id)

theorem target_contains (w : World) (parts : List Part) (v : Value) :
    w.Contains v (w.target parts v) ∨ w.target parts v = .null := trail_contains (.inr rfl)

theorem contains_of_slot? {parts : List Part} {s : Slot} {u : Value} (hu : w.slot? (w.target parts v) s = some u) :
    w.Contains v u := by
  rcases w.target_contains parts v with hin | hnull
  · exact hin.trans (.step hu (.self w u))
  · rw [hnull, w.slot?_of_isNull rfl] at hu
    cases hu

/-- Worlds that agree on a value agree on all that a path from it comes by. -/
theorem Agrees.trail (h : w.Agrees w' v) (parts : List Part) :
    w'.passed parts v = w.passed parts v ∧ w'.target parts v = w.target parts v := by
  have hnext : ∀ y ∈ w.passed parts v, ∀ part, w'.next y part = w.next y part := by
    intro y hy
    rcases trail_contains (.inl hy) with hc | rfl
    · exact next_of_slots (h.inside hc).slot?
    · exact next_of_slots fun s => by rw [w'.slot?_of_isNull rfl, w.slot?_of_isNull rfl]
  exact ⟨(trail_congr hnext).1, (trail_congr hnext).2.1⟩

theorem Agrees.slot?_target (h : w.Agrees w' v) (parts : List Part) (s : Slot) :
    w'.slot? (w'.target parts v) s = w.slot? (w.target parts v) s := by
  rw [(h.trail parts).2]
  rcases w.target_contains parts v with hc | hnull
  · exact (h.inside hc).slot? s
  · rw [hnull, w'.slot?_of_isNull rfl, w.slot?_of_isNull rfl]

theorem Tree.null (loose : Place → Prop) (w : World) : w.Tree loose .null :=
  .of_slots w.knows_null (fun s u hs => by rw [w.slot?_of_isNull rfl] at hs; cases hs)
    (fun s u x hs => by rw [w.slot?_of_isNull rfl] at hs; cases hs)
    fun s t a b x hs => by rw [w.slot?_of_isNull rfl] at hs; cases hs

theorem Tree.next (h : w.Tree loose v) (part : Part) : w.Tree loose (w.next v part) := by
  rcases w.next_slot v part with ⟨s, -, hs⟩ | hnull
  · exact h.inside (.step hs (.self w _))
  · rw [hnull]
    exact .null loose w

/-- Nothing that a path comes by is a handle or loose. -/
def Firm (loose : Place → Prop) (w : World) (parts : List Part) (v : Value) : Prop :=
  ∀ y, y ∈ w.passed parts v ∨ y = w.target parts v → (∀ h, y ≠ .handle h) ∧ ∀ x ∈ w.touched y, ¬loose x

theorem Firm.tail {part : Part} {rest : List Part} (h : w.Firm loose (part :: rest) v) :
    w.Firm loose rest (w.next v part) := fun y hy => h y (hy.imp (List.mem_cons_of_mem _) id)

theorem Firm.head {parts : List Part} (h : w.Firm loose parts v) :
    (∀ x, v ≠ .handle x) ∧ ∀ x ∈ w.touched v, ¬loose x := by
  cases parts with
  | nil => exact h v (.inr rfl)
  | cons part rest => exact h v (.inl List.mem_cons_self)

theorem HandleFree.firm (h : w.HandleFree v) (hl : ∀ x, w.Holds v x → ¬loose x) (parts : List Part) :
    w.Firm loose parts v := by
  intro y hy
  rcases trail_contains hy with hc | rfl
  · exact ⟨h y hc, fun x hx => hl x ⟨y, hc, hx⟩⟩
  · exact ⟨by simp, fun x hx => by cases hx⟩

theorem Tree.not_holds_next (h : w.Tree loose v) (hx : x ∈ w.touched v) (hl : ¬loose x) (part : Part) :
    ¬w.Holds (w.next v part) x := by
  rcases w.next_slot v part with ⟨s, -, hs⟩ | hnull
  · exact h.alone (.self w v) hs hx hl
  · rw [hnull]
    exact not_holds_of_isNull rfl

theorem holds_of_trail {parts : List Part} {y : Value} (hy : y ∈ w.passed parts v ∨ y = w.target parts v)
    (hx : x ∈ w.touched y) : w.Holds v x := by
  rcases trail_contains hy with hc | rfl
  · exact ⟨y, hc, hx⟩
  · cases hx

/-- A firm path through a tree comes by a place once. -/
theorem Tree.distinct (h : w.Tree loose v) {parts : List Part} (hf : w.Firm loose parts v) : w.Distinct parts v := by
  induction parts generalizing v with
  | nil => exact ⟨h.whole v (.self w v), hf.head.1⟩
  | cons part rest ih =>
    obtain ⟨hh, hl⟩ := hf.head
    refine ⟨⟨h.whole v (.self w v), hh⟩, fun y hy x hx hyx => ?_, ih (h.next part) hf.tail⟩
    exact h.not_holds_next hx (hl x hx) part (holds_of_trail hy hyx)

/-- What a slot beside a path holds is off the trail. -/
theorem Tree.off_trail {front : List Part} (h : w.Tree loose v) {part : Part} {rest : List Part}
    (hf : w.Firm loose (front ++ part :: rest) v) {s : Slot} (hs : part.slot? ≠ some s) {u : Value}
    (hu : w.slot? (w.target front v) s = some u) (hx : w.Holds u x) : w.OffTrail (front ++ part :: rest) v x := by
  intro y hy hyx
  have hx' := placeOf_mem_touched hyx
  have hl := (hf y hy).2 x hx'
  induction front generalizing v with
  | nil =>
    rw [List.nil_append] at hy
    unfold passed target at hy
    rw [List.mem_cons, or_assoc] at hy
    rcases hy with rfl | hy
    · exact h.alone (.self w y) hu hx' hl hx
    · have hy' := holds_of_trail hy hx'
      rcases w.next_slot v part with ⟨t, ht, hv⟩ | hnull
      · exact hs (by rw [ht, (h.apart (.self w v) hv hu hy' hx hl).of_part ht])
      · rw [hnull] at hy'
        exact not_holds_of_isNull rfl hy'
  | cons first front ih =>
    rw [List.cons_append] at hf hy
    unfold passed at hy
    rw [List.mem_cons, or_assoc] at hy
    rcases hy with rfl | hy
    · have hu' : w.slot? (w.target front (w.next y first)) s = some u := hu
      exact h.not_holds_next hx' hl first ((contains_of_slot? hu').holds hx)
    · exact ih (h.next first) hf.tail hu hy

end World

end EventScript
