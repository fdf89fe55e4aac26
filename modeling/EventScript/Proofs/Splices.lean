import EventScript.Start
import EventScript.Proofs.Places

/-!
# Splicing arrays

A splice is a copy of an array in which some elements from a place on have made room for others; a slice is a copy of
the elements between two places. Places and counts may be any whole numbers, and mean what lies between the ends of
the array. What a splice has taken out can be put back by another splice at the same place.
-/

namespace EventScript

/-- The place among `n` elements that a whole number stands for: a negative one counts from the end, and both ends are
the limit. -/
def placeAmong (n : Nat) (i : Int) : Nat := (if i < 0 then max (n + i) 0 else min i n).toNat

/-- How many of the `n` elements there are from a place on, where a whole number of them is asked for. -/
def countAfter (n first : Nat) (c : Int) : Nat := min (max c 0).toNat (n - first)

/-- The list with `count` elements from the place `first` on replaced by others. -/
def spliced {α : Type} (first count : Nat) (items xs : List α) : List α :=
  xs.take first ++ items ++ xs.drop (first + count)

theorem placeAmong_le (n : Nat) (i : Int) : placeAmong n i ≤ n := by
  unfold placeAmong
  split <;> omega

/-- A place is what it stands for itself. -/
theorem placeAmong_of_le {n first : Nat} (h : first ≤ n) : placeAmong n first = first := by
  unfold placeAmong
  split <;> omega

theorem place_add_count_le (n : Nat) (i c : Int) :
    placeAmong n i + countAfter n (placeAmong n i) c ≤ n := by
  have hplace := placeAmong_le n i
  unfold countAfter
  omega

section Lists

variable {α : Type} {first count : Nat} {xs : List α}

theorem length_spliced (h : first + count ≤ xs.length) (items : List α) :
    (spliced first count items xs).length + count = xs.length + items.length := by
  simp only [spliced, List.length_append, List.length_take, List.length_drop]
  omega

theorem spliced_countAfter (c : Int) (items : List α) :
    spliced first (max c 0).toNat items xs = spliced first (countAfter xs.length first c) items xs := by
  have hdrop : xs.drop (first + (max c 0).toNat) = xs.drop (first + countAfter xs.length first c) := by
    unfold countAfter
    by_cases hc : (max c 0).toNat ≤ xs.length - first
    · rw [Nat.min_eq_left hc]
    · rw [Nat.min_eq_right (by omega), List.drop_eq_nil_of_le (by omega), List.drop_eq_nil_of_le (by omega)]
  rw [spliced, spliced, hdrop]

/-- What was taken out is put back. -/
theorem spliced_spliced (h : first + count ≤ xs.length) (items : List α) :
    spliced first items.length (cutList first (first + count) xs) (spliced first count items xs) = xs := by
  have hfront : (xs.take first).length = first := by
    rw [List.length_take]
    omega
  have htake : (spliced first count items xs).take first = xs.take first := by
    rw [spliced, List.append_assoc, List.take_append_of_le_length (by omega), List.take_take, Nat.min_self]
  have hdrop : (spliced first count items xs).drop (first + items.length) = xs.drop (first + count) := by
    have hlength : (xs.take first ++ items).length = first + items.length := by
      rw [List.length_append, hfront]
    rw [spliced, ← hlength, List.drop_left]
  calc spliced first items.length (cutList first (first + count) xs) (spliced first count items xs)
      = xs.take first ++ (xs.take (first + count)).drop first ++ xs.drop (first + count) := by
        rw [spliced, htake, hdrop, cutList]
    _ = (xs.take (first + count)).take first ++ (xs.take (first + count)).drop first ++ xs.drop (first + count) := by
        rw [List.take_take, Nat.min_eq_left (by omega)]
    _ = xs := by rw [List.take_append_drop, List.take_append_drop]

end Lists

/-! ### The built-in functions -/

/-- A value that a built-in function is given as it is: no handle, and not absent. -/
def Value.isSettled : Value → Bool
  | .absent | .handle _ => false
  | _ => true

/-- The world with one more array. -/
def World.withArray (w : World) (xs : List Value) : World :=
  { w with store := (w.store.newArray xs.toArray).2 }

namespace World

variable (w : World) (xs : List Value)

theorem grown_withArray : w.Grown (w.withArray xs) := .ofStore (.newArray w.store xs.toArray)

theorem array_withArray_new : ((w.withArray xs).store.array w.store.arrays.size).toList = xs := by
  have h : (w.withArray xs).store.array w.store.arrays.size = xs.toArray := getD_push_size _ _ _
  rw [h]

theorem has_withArray_new : (w.withArray xs).Has (.array w.store.arrays.size) := by
  change _ < (w.store.arrays.push _).size
  rw [Array.size_push]
  exact Nat.lt_succ_self _

theorem array_withArray {a : ArrayId} (ha : w.Has (.array a)) :
    (w.withArray xs).store.array a = w.store.array a :=
  getD_of_begins (grown_withArray w xs).store.arrays ha _

end World

theorem normIndex_int (i : Int) (n : Nat) (w : World) : normIndex (.int i) n w = .ok (placeAmong n i) w := by
  have hplace : (if i < 0 then (n + i).toNat else min i.toNat n) = placeAmong n i := by
    unfold placeAmong
    split <;> omega
  rw [← hplace]
  rfl

theorem countOf_int (c : Int) (w : World) : countOf (.int c) w = .ok (max c 0).toNat w := by
  have hcount : c.toNat = (max c 0).toNat := by omega
  rw [← hcount]
  rfl

namespace Builtin

variable (read : HandleId → Exec Value) {w : World}

theorem settle_run {v : Value} (h : v.isSettled = true) (w : World) :
    (do return (← follow read defaultHandleDepth v).orNull : Exec Value) w = .ok v w := by
  have hplain : ∀ x, v ≠ .handle x := by
    rintro x rfl
    cases h
  have hfollow := congrFun (follow_of_not_handle read defaultHandleDepth v hplain) w
  rw [Exec.bind_ok hfollow]
  cases v with
  | absent => cases h
  | _ => rfl

theorem apply_settled (b : Builtin) {args : List Value} (h : ∀ v ∈ args, v.isSettled = true) (w : World) :
    b.apply read args w = b.run read args w := by
  suffices hargs : (args.mapM fun v => do return (← follow read defaultHandleDepth v).orNull : Exec (List Value)) w =
      .ok args w from Exec.bind_ok hargs
  induction args with
  | nil => rfl
  | cons v rest ih =>
    obtain ⟨hv, hrest⟩ := List.forall_mem_cons.mp h
    rw [List.mapM_cons, Exec.bind_ok (settle_run read hv w), Exec.bind_ok (ih hrest)]
    rfl

section Arrays

variable {a : ArrayId} {xs : List Value} (hxs : (w.store.array a).toList = xs)
include hxs

theorem spliceOf_run (s c : Int) (items : List Value) :
    spliceOf (.array a) (.int s) (.int c) items w =
      .ok (.array w.store.arrays.size)
        (w.withArray
          (spliced (placeAmong xs.length s) (countAfter xs.length (placeAmong xs.length s) c) items xs)) := by
  have hbounds : spliceOf (.array a) (.int s) (.int c) items w =
      (do
        let first ← normIndex (.int s) xs.length
        let count ← countOf (.int c)
        Exec.newArray (spliced first count items xs).toArray : Exec Value) w := by
    rw [← hxs]
    rfl
  rw [hbounds, Exec.bind_ok (normIndex_int s _ w), Exec.bind_ok (countOf_int c w), spliced_countAfter]
  rfl

theorem sliceOf_run (s e : Int) :
    sliceOf (.array a) (.int s) (.int e) w =
      .ok (.array w.store.arrays.size)
        (w.withArray (cutList (placeAmong xs.length s) (placeAmong xs.length e) xs)) := by
  have hbounds : sliceOf (.array a) (.int s) (.int e) w =
      (do
        let first ← normIndex (.int s) xs.length
        let last ← normIndex (.int e) xs.length
        Exec.newArray (cutList first last xs).toArray : Exec Value) w := by
    rw [← hxs]
    rfl
  rw [hbounds, Exec.bind_ok (normIndex_int s _ w), Exec.bind_ok (normIndex_int e _ w)]
  rfl

/-- A splice makes a new array and leaves all that there is as it is. -/
theorem splice_apply {m : List Value} (hm : ∀ v ∈ m, v.isSettled = true) (s c : Int) :
    splice.apply read (.array a :: .int s :: .int c :: m) w =
      .ok (.array w.store.arrays.size)
        (w.withArray (spliced (placeAmong xs.length s) (countAfter xs.length (placeAmong xs.length s) c) m xs)) := by
  have hargs : ∀ v ∈ Value.array a :: Value.int s :: Value.int c :: m, v.isSettled = true := by
    simp only [List.forall_mem_cons]
    exact ⟨rfl, rfl, rfl, hm⟩
  rw [apply_settled read splice hargs w]
  exact spliceOf_run hxs s c m

theorem slice_apply (s e : Int) :
    slice.apply read [.array a, .int s, .int e] w =
      .ok (.array w.store.arrays.size)
        (w.withArray (cutList (placeAmong xs.length s) (placeAmong xs.length e) xs)) := by
  have hargs : ∀ v ∈ [Value.array a, Value.int s, Value.int e], v.isSettled = true := by
    simp only [List.forall_mem_cons]
    exact ⟨rfl, rfl, rfl, nofun⟩
  rw [apply_settled read slice hargs w]
  exact sliceOf_run hxs s e

end Arrays

/-- A splice is undone at its own place: as many elements as were put in are taken out, and those that were taken out
are put in. -/
theorem splice_back {r : ArrayId} {xs m : List Value} {first count : Nat} (hcount : first + count ≤ xs.length)
    (hx : ∀ v ∈ xs, v.isSettled = true) (hr : (w.store.array r).toList = spliced first count m xs) :
    splice.apply read (.array r :: .int first :: .int m.length :: cutList first (first + count) xs) w =
      .ok (.array w.store.arrays.size) (w.withArray xs) := by
  have hsettled : ∀ v ∈ cutList first (first + count) xs, v.isSettled = true := by
    intro v hv
    exact hx v (List.mem_of_mem_take (List.mem_of_mem_drop hv))
  have hlength := length_spliced hcount m
  have hplace : placeAmong (spliced first count m xs).length first = first := placeAmong_of_le (by omega)
  have hitems : countAfter (spliced first count m xs).length first m.length = m.length := by
    unfold countAfter
    omega
  have hrun := splice_apply read hr hsettled first m.length
  rwa [hplace, hitems, spliced_spliced hcount m] at hrun

/-- Splicing an array gives a new one, in which the elements that were counted off from a place on have made room for
others, and leaves all that there was as it was. Another splice, which takes the new elements out at that place and
puts the slice of what was there before in, gives the elements of the array back. -/
theorem splices_are_undone {a : ArrayId} {xs m : List Value} (ha : w.Has (.array a))
    (hxs : (w.store.array a).toList = xs) (hx : ∀ v ∈ xs, v.isSettled = true) (hm : ∀ v ∈ m, v.isSettled = true)
    (s c : Int) :
    let first := placeAmong xs.length s
    let count := countAfter xs.length first c
    ∃ r w₁, splice.apply read (.array a :: .int s :: .int c :: m) w = .ok (.array r) w₁ ∧
      ¬w.Has (.array r) ∧ w.Grown w₁ ∧ w₁.store.array a = w.store.array a ∧
      (w₁.store.array r).toList = xs.take first ++ m ++ xs.drop (first + count) ∧
      ∃ d w₂ u w₃,
        slice.apply read [.array a, .int first, .int (first + count : Nat)] w₁ = .ok (.array d) w₂ ∧
        splice.apply read (.array r :: .int first :: .int m.length :: (w₂.store.array d).toList) w₂ =
          .ok (.array u) w₃ ∧
        (w₃.store.array u).toList = xs := by
  intro first count
  have hcount : first + count ≤ xs.length := place_add_count_le xs.length s c
  let w₁ := w.withArray (spliced first count m xs)
  have hr : (w₁.store.array w.store.arrays.size).toList = spliced first count m xs := w.array_withArray_new _
  have hkept : w₁.store.array a = w.store.array a := w.array_withArray _ ha
  refine ⟨_, w₁, splice_apply read hxs hm s c, Nat.lt_irrefl _, w.grown_withArray _, hkept, hr, ?_⟩
  -- What is taken out lies between the two places, both of which are there.
  let removed := cutList first (first + count) xs
  let w₂ := w₁.withArray removed
  have hslice : slice.apply read [.array a, .int first, .int (first + count : Nat)] w₁ =
      .ok (.array w₁.store.arrays.size) w₂ := by
    have hrun := slice_apply read (w := w₁) (hkept ▸ hxs) first (first + count : Nat)
    rwa [placeAmong_of_le (by omega), placeAmong_of_le hcount] at hrun
  have hremoved : (w₂.store.array w₁.store.arrays.size).toList = removed := w₁.array_withArray_new _
  -- The other splice finds the array that the first one has made as it was.
  have hr₂ : (w₂.store.array w.store.arrays.size).toList = spliced first count m xs := by
    rw [← hr, w₁.array_withArray _ (w.has_withArray_new _)]
  refine ⟨_, w₂, _, _, hslice, ?_, w₂.array_withArray_new _⟩
  rw [hremoved]
  exact splice_back read hcount hx hr₂

/-- Counted from the end and past it, all elements but the first make room for two others. -/
theorem overshooting_splice_is_undone :
    let w : World := { store := { arrays := #[#[.int 1, .int 2, .int 3]] } }
    let read := (Engine.full .plain).access.read
    w.Has (.array 0) ∧ (∀ v ∈ [Value.int 1, .int 2, .int 3], v.isSettled = true) ∧
      (∀ v ∈ [Value.str "x", .null], v.isSettled = true) ∧
      ∃ r w₁, splice.apply read [.array 0, .int (-2), .int 9, .str "x", .null] w = .ok (.array r) w₁ ∧
        (w₁.store.array r).toList = [.int 1, .str "x", .null] ∧
        ∃ d w₂ u w₃, slice.apply read [.array 0, .int 1, .int 3] w₁ = .ok (.array d) w₂ ∧
          splice.apply read (.array r :: .int 1 :: .int 2 :: (w₂.store.array d).toList) w₂ = .ok (.array u) w₃ ∧
          (w₃.store.array u).toList = [.int 1, .int 2, .int 3] := by
  intro w read
  have ha : w.Has (.array 0) := Nat.one_pos
  have hx : ∀ v ∈ [Value.int 1, .int 2, .int 3], v.isSettled = true := by
    simp only [List.forall_mem_cons]
    exact ⟨rfl, rfl, rfl, nofun⟩
  have hm : ∀ v ∈ [Value.str "x", .null], v.isSettled = true := by
    simp only [List.forall_mem_cons]
    exact ⟨rfl, rfl, nofun⟩
  obtain ⟨r, w₁, hrun, -, -, -, hr, hundone⟩ := splices_are_undone read ha rfl hx hm (-2) 9
  exact ⟨ha, hx, hm, r, w₁, hrun, hr, hundone⟩

end Builtin

end EventScript
