import EventScript.Proofs.Unfolding
import EventScript.Structural.Equal
import Mathlib.Data.List.Perm.Subperm
import Mathlib.Data.List.ProdSigma

/-!
# Deep equality of what unfolds alike

Values that unfold alike are deeply equal. The comparison ends since it never compares two containers twice: all pairs
that it has seen are pairs of containers of the world.
-/

namespace EventScript

theorem Number.sameValue_self {n : Number} (h : n.isNan = true ∨ n.eqv n = true) :
    n.sameValue n = .ok true ∨ ∃ e, n.sameValue n = .error e ∧ n.inRange ≠ .ok () := by
  unfold Number.sameValue
  cases hr : n.inRange with
  | error e => exact .inr ⟨e, rfl, by simp⟩
  | ok u =>
    refine .inl ?_
    cases hn : n.isNan with
    | true => rfl
    | false =>
      rw [hn] at h
      simp only [Bool.false_eq_true, false_or] at h
      change Except.ok (n.eqv n) = .ok true
      rw [h]

namespace World

/-- Entries are found under their keys, and numbers but NaN equal themselves, in all that a value contains. -/
structure Orderly (w : World) (v : Value) : Prop where
  entries : ∀ y, w.Contains v y → ∀ e ∈ w.entries y, w.valueAt? y e.1 = some e.2
  numbers : ∀ n, w.Contains v (.num n) → n.isNan = true ∨ n.eqv n = true

/-- All of a value is there, no number in it is out of range, and no context is in it. -/
structure Comparable (w : World) (v : Value) : Prop where
  whole : w.Whole v
  inRange : ∀ n, w.Contains v (.num n) → n.inRange = .ok ()
  noView : ∀ c, ¬w.Contains v (.context c)

variable {w : World} {v u : Value}

theorem Orderly.inside (h : w.Orderly v) (hu : w.Contains v u) : w.Orderly u where
  entries y hy := h.entries y (hu.trans hy)
  numbers n hn := h.numbers n (hu.trans hn)

theorem Comparable.inside (h : w.Comparable v) (hu : w.Contains v u) : w.Comparable u where
  whole := h.whole.inside hu
  inRange n hn := h.inRange n (hu.trans hn)
  noView c hc := h.noView c (hu.trans hc)

/-- The arrays and objects of a world. -/
def containers (w : World) : List Value :=
  (List.range w.store.arrays.size).map .array ++ (List.range w.store.objects.size).map .object

/-- Pairs of containers of the world, none of them twice. -/
structure Listed (w : World) (seen : Seen) : Prop where
  nodup : seen.Nodup
  subset : seen ⊆ w.containers ×ˢ w.containers

theorem Listed.length_le {seen : Seen} (h : w.Listed seen) : seen.length ≤ w.containerCount * w.containerCount := by
  have hle := (List.Nodup.subperm h.nodup h.subset).length_le
  rw [List.length_product] at hle
  simpa [containers, containerCount] using hle

/-- A comparison answers that two values are equal, if it answers; it does where it is sure. -/
def Answers (w : World) (sure : Prop) (seen : Seen) (r : EStateM.Result Fault World (Bool × Seen)) : Prop :=
  match r with
  | .ok answer w' => answer.1 = true ∧ w' = w ∧ (sure → w.Listed answer.2 ∧ seen.length ≤ answer.2.length)
  | .error _ _ => ¬sure

/-- Two values that unfold alike, and about which a comparison comes to an answer where it is sure. -/
structure Counterpart (w : World) (sure : Prop) (a b : Value) : Prop where
  unfolds : w.unfold a = w.unfold b
  orderly : w.Orderly a
  comparable : sure → w.Comparable a ∧ w.Whole b

variable {sure : Prop} {a b : Value}

theorem Counterpart.shape (h : w.Counterpart sure a b) : w.shape a = w.shape b := by
  rw [← shape_unfold, h.unfolds, shape_unfold]

/-- What is in a slot of one of them has a counterpart in the other. -/
theorem Counterpart.slot (h : w.Counterpart sure a b) {s : Slot} (hs : w.slot? a s = some u) :
    ∃ u', w.slot? b s = some u' ∧ w.Counterpart sure u u' := by
  have hchild : (w.unfold a).child? s = (w.unfold b).child? s := by rw [h.unfolds]
  rw [child?_unfold, child?_unfold, hs, Option.map_some] at hchild
  obtain ⟨u', hu', hunfold⟩ := Option.map_eq_some_iff.mp hchild.symm
  have hin : w.Contains a u := .step hs (.self w u)
  refine ⟨u', hu', hunfold.symm, h.orderly.inside hin, fun hsure => ?_⟩
  obtain ⟨hc, hb⟩ := h.comparable hsure
  exact ⟨hc.inside hin, hb.inside (.step hu' (.self w u'))⟩

end World

open World

variable {w : World} {sure : Prop} {read : HandleId → Exec Value} {bound fuel : Nat} {seen : Seen} {a b : Value}

/-- If the values in each pair are found equal, all pairs are. -/
theorem allPairs_answers {equal : Seen → Value → Value → Exec (Bool × Seen)}
    (hequal : ∀ {seen x y}, w.Counterpart sure x y → (sure → w.Listed seen ∧ bound ≤ fuel + seen.length) →
      w.Answers sure seen (equal seen x y w))
    {pairs : List (Value × Option Value)} (hpairs : ∀ p ∈ pairs, ∃ y, p.2 = some y ∧ w.Counterpart sure p.1 y)
    (hseen : sure → w.Listed seen ∧ bound ≤ fuel + seen.length) :
    w.Answers sure seen (allPairs equal seen pairs w) := by
  induction pairs generalizing seen with
  | nil => exact ⟨rfl, rfl, fun hsure => ⟨(hseen hsure).1, Nat.le_refl _⟩⟩
  | cons p rest ih =>
    obtain ⟨y, hy, hmatch⟩ := hpairs p List.mem_cons_self
    obtain ⟨x, y'⟩ := p
    obtain rfl : y' = some y := hy
    have hfirst := hequal hmatch hseen
    unfold allPairs
    cases hrun : equal seen x y w with
    | error e w' =>
      rw [hrun] at hfirst
      rw [Exec.bind_error hrun]
      exact hfirst
    | ok answer w' =>
      obtain ⟨same, seen'⟩ := answer
      rw [hrun] at hfirst
      obtain ⟨hsame, rfl, hlisted⟩ := hfirst
      obtain rfl : same = true := hsame
      rw [Exec.bind_ok hrun]
      have hrest := ih (fun p hp => hpairs p (List.mem_cons_of_mem _ hp)) fun hsure => ⟨(hlisted hsure).1,
        Nat.le_trans (hseen hsure).2 (Nat.add_le_add_left (hlisted hsure).2 fuel)⟩
      change w'.Answers sure seen (allPairs equal seen' rest w')
      cases hall : allPairs equal seen' rest w' with
      | error e w'' =>
        rw [hall] at hrest
        exact hrest
      | ok answer w'' =>
        rw [hall] at hrest
        obtain ⟨hsame, rfl, hlisted'⟩ := hrest
        exact ⟨hsame, rfl, fun hsure => ⟨(hlisted' hsure).1, Nat.le_trans (hlisted hsure).2 (hlisted' hsure).2⟩⟩

namespace World

theorem answers_seen (hseen : sure → w.Listed seen ∧ bound ≤ fuel + seen.length) :
    w.Answers sure seen (.ok (true, seen) w) := ⟨rfl, rfl, fun hsure => ⟨(hseen hsure).1, Nat.le_refl _⟩⟩

end World

section Looks

variable {shared : Bool}

theorem equalFrom_isOne (h : isOne shared a b = true) :
    equalFrom read shared (fuel + 1) seen a b w = .ok (true, seen) w := by
  unfold equalFrom
  rw [if_pos h]
  rfl

variable (hone : isOne shared a b = false)
include hone

/-- Two arrays that are not one are compared item by item, unless they have been. -/
theorem equalFrom_arrays {x y : ArrayId} (ha : a = .array x) (hb : b = .array y) :
    equalFrom read shared (fuel + 1) seen a b w =
      (if (w.store.array x).size != (w.store.array y).size then pure (false, seen)
      else if seen.contains (a, b) then pure (true, seen)
      else allPairs (equalFrom read shared fuel) ((a, b) :: seen)
        ((w.store.array x).toList.zip ((w.store.array y).toList.map some)) : Exec (Bool × Seen)) w := by
  have hfa : ∀ h, a ≠ .handle h := by simp [ha]
  have hfb : ∀ h, b ≠ .handle h := by simp [hb]
  unfold equalFrom
  simp only [follow_of_not_handle read _ a hfa, follow_of_not_handle read _ b hfb, pure_bind, hone]
  subst ha hb
  rfl

/-- Two objects that are not one are compared entry by entry, unless they have been. -/
theorem equalFrom_objects (ha : a.kind = .object) (hb : b.kind = .object) :
    equalFrom read shared (fuel + 1) seen a b w =
      (if (w.entries a).length != (w.entries b).length then pure (false, seen)
      else if seen.contains (a, b) then pure (true, seen)
      else allPairs (equalFrom read shared fuel) ((a, b) :: seen)
        ((w.entries a).map fun e => (e.2, w.valueAt? b e.1)) : Exec (Bool × Seen)) w := by
  have hfa : ∀ h, a ≠ .handle h := by
    rintro h rfl
    cases ha
  have hfb : ∀ h, b ≠ .handle h := by
    rintro h rfl
    cases hb
  unfold equalFrom
  simp only [follow_of_not_handle read _ a hfa, follow_of_not_handle read _ b hfb, pure_bind, hone]
  cases a <;> cases ha <;> cases b <;> cases hb <;> rfl

theorem equalFrom_blobs {x y : BlobId} (ha : a = .blob x) (hb : b = .blob y) :
    equalFrom read shared (fuel + 1) seen a b w =
      .ok ((w.store.blob x).mime == (w.store.blob y).mime && (w.store.blob x).data == (w.store.blob y).data, seen)
        w := by
  have hfa : ∀ h, a ≠ .handle h := by simp [ha]
  have hfb : ∀ h, b ≠ .handle h := by simp [hb]
  unfold equalFrom
  simp only [follow_of_not_handle read _ a hfa, follow_of_not_handle read _ b hfb, pure_bind, hone]
  subst ha hb
  rfl

theorem equalFrom_nodes {x y : NodeListId} (ha : a = .nodes x) (hb : b = .nodes y) :
    equalFrom read shared (fuel + 1) seen a b w =
      .ok ((w.store.nodeList x).map (·.id) == (w.store.nodeList y).map (·.id), seen) w := by
  have hfa : ∀ h, a ≠ .handle h := by simp [ha]
  have hfb : ∀ h, b ≠ .handle h := by simp [hb]
  unfold equalFrom
  simp only [follow_of_not_handle read _ a hfa, follow_of_not_handle read _ b hfb, pure_bind, hone]
  subst ha hb
  rfl

theorem equalFrom_numbers {m n : Number} (ha : a = .num m) (hb : b = .num n) :
    equalFrom read shared (fuel + 1) seen a b w =
      (do return (← Exec.ofExcept .overflow (m.sameValue n), seen) : Exec (Bool × Seen)) w := by
  have hfa : ∀ h, a ≠ .handle h := by simp [ha]
  have hfb : ∀ h, b ≠ .handle h := by simp [hb]
  unfold equalFrom
  simp only [follow_of_not_handle read _ a hfa, follow_of_not_handle read _ b hfb, pure_bind, hone]
  subst ha hb
  rfl

end Looks

namespace World

theorem mem_containers_array {x : ArrayId} (h : w.Whole (.array x)) : .array x ∈ w.containers := by
  have hx : w.Has (.array x) := (h _ (.self w _)).has _ (by simp [touched, Value.own?])
  exact List.mem_append.mpr (.inl (List.mem_map.mpr ⟨x, List.mem_range.mpr hx, rfl⟩))

theorem mem_containers_object {o : ObjectId} (h : w.Whole (.object o)) : .object o ∈ w.containers := by
  have ho : w.Has (.object o) := (h _ (.self w _)).has _ (by simp [touched, Value.own?])
  exact List.mem_append.mpr (.inr (List.mem_map.mpr ⟨o, List.mem_range.mpr ho, rfl⟩))

/-- Two arrays that unfold alike have as many items, and what is in the same place unfolds alike. -/
theorem Counterpart.items {x y : ArrayId} (h : w.Counterpart sure (.array x) (.array y)) :
    (w.store.array x).size = (w.store.array y).size ∧
      ∀ p ∈ (w.store.array x).toList.zip ((w.store.array y).toList.map some),
        ∃ u, p.2 = some u ∧ w.Counterpart sure p.1 u := by
  refine ⟨by simpa [World.shape] using h.shape, fun p hp => ?_⟩
  obtain ⟨i, hi, rfl⟩ := List.getElem_of_mem hp
  rw [List.length_zip, List.length_map, Nat.lt_min] at hi
  rw [List.getElem_zip, List.getElem_map]
  have hs : w.slot? (.array x) (.index i) = some (w.store.array x).toList[i] := by
    change (w.store.array x)[i]? = _
    rw [← Array.getElem?_toList, List.getElem?_eq_getElem hi.1]
  obtain ⟨u, hu, hmatch⟩ := h.slot hs
  have hu : (w.store.array y).toList[i]? = some u := (Array.getElem?_toList ..).trans hu
  rw [List.getElem?_eq_getElem hi.2] at hu
  exact ⟨u, hu, hmatch⟩

theorem Counterpart.pairs (h : w.Counterpart sure a b) :
    ∀ p ∈ (w.entries a).map fun e => (e.2, w.valueAt? b e.1), ∃ u, p.2 = some u ∧ w.Counterpart sure p.1 u := by
  intro p hp
  obtain ⟨e, he, rfl⟩ := List.mem_map.mp hp
  have hs : w.slot? a (.key e.1) = some e.2 := h.orderly.entries a (.self w a) e he
  exact h.slot hs

end World

variable (hbound : w.containerCount * w.containerCount < bound)

/-- Containers that have been seen, or whose contents are found equal, are equal. -/
theorem containers_answers {pairs : List (Value × Option Value)}
    (hequal : ∀ {seen x y}, w.Counterpart sure x y → (sure → w.Listed seen ∧ bound ≤ fuel + seen.length) →
      w.Answers sure seen (equalFrom read false fuel seen x y w))
    (hpairs : ∀ p ∈ pairs, ∃ y, p.2 = some y ∧ w.Counterpart sure p.1 y)
    (hmem : sure → a ∈ w.containers ∧ b ∈ w.containers)
    (hseen : sure → w.Listed seen ∧ bound ≤ fuel + 1 + seen.length) :
    w.Answers sure seen ((if seen.contains (a, b) then pure (true, seen)
      else allPairs (equalFrom read false fuel) ((a, b) :: seen) pairs : Exec (Bool × Seen)) w) := by
  split
  · exact answers_seen hseen
  · rename_i hnew
    have hseen' : sure → w.Listed ((a, b) :: seen) ∧ bound ≤ fuel + ((a, b) :: seen).length := by
      intro hsure
      obtain ⟨hlisted, hle⟩ := hseen hsure
      refine ⟨⟨List.nodup_cons.mpr ⟨by simpa using hnew, hlisted.nodup⟩, List.cons_subset.mpr ⟨?_, hlisted.subset⟩⟩, ?_⟩
      · exact List.mem_product.mpr (hmem hsure)
      · rw [List.length_cons]
        omega
    have hall := allPairs_answers hequal hpairs hseen'
    cases hrun : allPairs (equalFrom read false fuel) ((a, b) :: seen) pairs w with
    | error e w' =>
      rw [hrun] at hall
      exact hall
    | ok answer w' =>
      rw [hrun] at hall
      obtain ⟨hsame, hw', hlisted⟩ := hall
      exact ⟨hsame, hw', fun hsure => ⟨(hlisted hsure).1, Nat.le_of_succ_le (hlisted hsure).2⟩⟩

include hbound in
/-- A comparison of values that unfold alike answers that they are equal, if it answers. -/
theorem equalFrom_answers (h : w.Counterpart sure a b) (hseen : sure → w.Listed seen ∧ bound ≤ fuel + seen.length) :
    w.Answers sure seen (equalFrom read false fuel seen a b w) := by
  induction fuel generalizing seen a b with
  | zero =>
    intro hsure
    have hle := (hseen hsure).1.length_le
    have hge := (hseen hsure).2
    omega
  | succ fuel ih =>
    by_cases hone : isOne false a b = true
    · rw [equalFrom_isOne hone]
      exact answers_seen hseen
    have hone' : isOne false a b = false := by simpa using hone
    have hshape := h.shape
    cases a with
    | array x =>
      obtain ⟨y, rfl⟩ : ∃ y, b = .array y := by cases b <;> first | exact ⟨_, rfl⟩ | cases hshape
      obtain ⟨hsize, hitems⟩ := h.items
      rw [equalFrom_arrays hone' rfl rfl, if_neg (by simp [hsize])]
      refine containers_answers ih hitems (fun hsure => ?_) hseen
      exact ⟨mem_containers_array (h.comparable hsure).1.whole, mem_containers_array (h.comparable hsure).2⟩
    | object o =>
      obtain ⟨p, rfl⟩ : ∃ p, b = .object p := by cases b <;> first | exact ⟨_, rfl⟩ | cases hshape
      have hlength : (w.entries (.object o)).length = (w.entries (.object p)).length := Shape.object.inj hshape
      rw [equalFrom_objects hone' rfl rfl, if_neg (by simp [hlength])]
      refine containers_answers ih h.pairs (fun hsure => ?_) hseen
      exact ⟨mem_containers_object (h.comparable hsure).1.whole, mem_containers_object (h.comparable hsure).2⟩
    | context c =>
      obtain ⟨d, rfl⟩ : ∃ d, b = .context d := by cases b <;> first | exact ⟨_, rfl⟩ | cases hshape
      have hlength : (w.entries (.context c)).length = (w.entries (.context d)).length := Shape.view.inj hshape
      rw [equalFrom_objects hone' rfl rfl, if_neg (by simp [hlength])]
      exact containers_answers ih h.pairs (fun hsure => absurd (.self w _) ((h.comparable hsure).1.noView c)) hseen
    | blob x =>
      obtain ⟨y, rfl⟩ : ∃ y, b = .blob y := by cases b <;> first | exact ⟨_, rfl⟩ | cases hshape
      have hsame : w.store.blob x = w.store.blob y := by simpa [World.shape] using hshape
      rw [equalFrom_blobs hone' rfl rfl, hsame, beq_self_eq_true, beq_self_eq_true]
      exact answers_seen hseen
    | num n =>
      obtain rfl : b = .num n := by cases b <;> first | cases hshape; rfl | cases hshape
      rw [equalFrom_numbers hone' rfl rfl]
      rcases Number.sameValue_self (h.orderly.numbers n (.self w _)) with hsame | ⟨e, hfail, hrange⟩
      · rw [hsame]
        exact answers_seen hseen
      · rw [hfail]
        exact fun hsure => hrange ((h.comparable hsure).1.inRange n (.self w _))
    | _ =>
      refine absurd ?_ hone
      cases b <;> first | (cases hshape; exact beq_self_eq_true _) | cases hshape

theorem deepEqual_of_unfold_eq (read : HandleId → Exec Value) (h : w.unfold a = w.unfold b) (ho : w.Orderly a) :
    (∀ same w', deepEqual read a b w = .ok same w' → same = true) ∧
      (w.Comparable a → w.Whole b → deepEqual read a b w = .ok true w) := by
  have hlt : w.containerCount * w.containerCount < (w.holderCount + 2) * (w.holderCount + 2) :=
    Nat.mul_self_lt_mul_self (by unfold holderCount; omega)
  have run (sure : Prop) (hsure : sure → w.Comparable a ∧ w.Whole b) : w.Answers sure []
      (equalFrom read false ((w.holderCount + 2) * (w.holderCount + 2)) [] a b w) :=
    equalFrom_answers hlt ⟨h, ho, hsure⟩ fun _ => ⟨⟨List.nodup_nil, List.nil_subset _⟩, Nat.le_refl _⟩
  have hdeep : deepEqual read a b w = (do
      return (← equalFrom read false ((w.holderCount + 2) * (w.holderCount + 2)) [] a b).1 : Exec Bool) w := rfl
  constructor
  · intro same w' hrun
    have hanswer := run False False.elim
    rw [hdeep] at hrun
    obtain ⟨answer, w₁, hfrom, hret⟩ := Exec.bind_eq_ok hrun
    rw [hfrom] at hanswer
    cases hret
    exact hanswer.1
  · intro hc hb
    have hanswer := run True fun _ => ⟨hc, hb⟩
    rw [hdeep]
    cases hfrom : equalFrom read false ((w.holderCount + 2) * (w.holderCount + 2)) [] a b w with
    | error e w' =>
      rw [hfrom] at hanswer
      exact absurd trivial hanswer
    | ok answer w' =>
      rw [hfrom] at hanswer
      obtain ⟨hsame, rfl, -⟩ := hanswer
      rw [Exec.bind_ok hfrom, hsame]
      rfl

/-- Values of two worlds are deeply equal: of two values in one world that unfold like them, deep equality answers that
they are equal, if it answers; it does where nothing is missing or out of range, and no context is met. -/
def DeeplyEqual (w w' : World) (v v' : Value) : Prop :=
  ∀ (m : World) (a b : Value) (read : HandleId → Exec Value), m.unfold a = w.unfold v → m.unfold b = w'.unfold v' →
    m.Orderly a → (∀ same m', deepEqual read a b m = .ok same m' → same = true) ∧
      (m.Comparable a → m.Whole b → deepEqual read a b m = .ok true m)

theorem deeplyEqual_of_unfold_eq {w w' : World} {v v' : Value} (h : w.unfold v = w'.unfold v') :
    DeeplyEqual w w' v v' := fun _ _ _ read ha hb ho =>
  deepEqual_of_unfold_eq read (ha.trans (h.trans hb.symm)) ho

end EventScript
