import EventScript.Proofs.Bisimilarity

/-!
# The run of a comparison

A comparison takes two containers as equal once it has begun to compare them, and never takes that back. It ends, since
it begins with no pair of containers twice. If it answers that two values are equal, all that it took as equal is a
bisimulation; if it answers that they are not, no bisimulation relates them. It fails only at a handle that leads
nowhere, or at a number that cannot be asked whether it is one.
-/

namespace EventScript

theorem Number.sameValue_ok {m n : Number} {same : Bool} (h : m.sameValue n = .ok same) :
    same = true ↔ m.isNan = true ∧ n.isNan = true ∨ m.eqv n = true := by
  unfold Number.sameValue at h
  obtain ⟨-, -, h⟩ := except_bind_eq_ok h
  cases hm : m.isNan with
  | false =>
    rw [hm, if_neg Bool.false_ne_true] at h
    cases h
    simp
  | true =>
    rw [hm, if_pos rfl] at h
    obtain ⟨-, -, h⟩ := except_bind_eq_ok h
    cases hn : n.isNan with
    | true =>
      rw [hn, if_pos rfl] at h
      cases h
      simp
    | false =>
      rw [hn, if_neg Bool.false_ne_true] at h
      cases h
      simp

theorem Number.sameValue_error {m n : Number} {e : Number.Overflow} (h : m.sameValue n = .error e) :
    m.inRange = .error e ∨ n.inRange = .error e := by
  unfold Number.sameValue at h
  cases hm : m.inRange with
  | error e' =>
    rw [hm] at h
    cases h
    exact .inl rfl
  | ok _ =>
    rw [hm] at h
    cases hn : n.inRange with
    | error e' =>
      rw [hn] at h
      cases hnan : m.isNan with
      | true =>
        rw [hnan] at h
        cases h
        exact .inr rfl
      | false =>
        rw [hnan] at h
        cases h
    | ok _ =>
      rw [hn] at h
      cases hnan : m.isNan <;> cases hnan' : n.isNan <;> rw [hnan] at h <;> try rw [hnan'] at h
      all_goals cases h

theorem isOne_eq {shared : Bool} {a b : Value} (h : isOne shared a b = true) : a = b := by
  unfold isOne at h
  split at h
  · exact eq_of_beq (Bool.and_eq_true_iff.mp h).2
  · exact eq_of_beq h

theorem isOne_self (a : Value) : isOne true a a = true := by cases a <;> simp [isOne]

theorem ne_of_isOne {shared : Bool} {a b : Value} (h : isOne shared a b = false) (ha : ∀ n, a ≠ .num n) : a ≠ b := by
  unfold isOne at h
  split at h
  · exact absurd rfl (ha _)
  · exact ne_of_beq_false h

namespace Entries

variable {α β : Type} {es : Entries α} {fs : Entries β}

theorem Distinct.length_le (he : Distinct es) (hall : ∀ e ∈ es, has e.1 fs = true) : es.length ≤ fs.length := by
  induction es generalizing fs with
  | nil => exact Nat.zero_le _
  | cons e rest ih =>
    obtain ⟨hf, hrest⟩ := List.pairwise_cons.mp he
    have hfewer : rest.length ≤ (Entries.erase e.1 fs).length := by
      refine ih hrest fun f hfm => ?_
      unfold has
      rw [get?_erase_other fun hs => hf f hfm (Key.same_symm hs)]
      exact hall f (List.mem_cons_of_mem _ hfm)
    rw [← length_erase (hall e List.mem_cons_self), List.length_cons]
    exact Nat.succ_le_succ hfewer

end Entries

/-- What a comparison comes to when it looks at two values once: an answer, a number that cannot be asked, or pairs of
parts that are left to compare. -/
inductive Weighing where
  | answer (same : Bool)
  | overflow (e : Number.Overflow)
  | parts (pairs : List (Value × Option Value))

namespace World

/-- A value that is there, with no key twice, in which a number but NaN equals itself. -/
structure Fit (w : World) (u : Value) : Prop where
  knows : w.Knows u
  keyed : w.Keyed u
  nodes : ∀ x, u = .nodes x → x < w.store.nodeLists.size
  number : ∀ n, u = .num n → n.isNan = true ∨ n.eqv n = true

/-- What one look at two values may come to. -/
inductive Weighs (w : World) (u v : Value) : Weighing → Prop where
  | same : (∀ R, w.Matches R u v) → Weighs w u v (.answer true)
  | differ : u ≠ v → (∀ R, ¬w.Matches R u v) → Weighs w u v (.answer false)
  | overflow {n e} : u = .num n ∨ v = .num n → n.inRange = .error e → Weighs w u v (.overflow e)
  | parts {pairs} : u ≠ v → (u.kind = .array ∨ u.kind = .object) → (v.kind = .array ∨ v.kind = .object) →
      (∀ p ∈ pairs, ∃ s, w.slot? u s = some p.1 ∧ p.2 = w.slot? v s) →
      (∀ R, w.Matches R u v ↔ ∀ p ∈ pairs, ∃ y, p.2 = some y ∧ R p.1 y) → Weighs w u v (.parts pairs)

variable {w w' : World} {shared : Bool} {u v : Value}

theorem matches_numbers {R : Value → Value → Prop} {m n : Number} :
    w.Matches R (.num m) (.num n) ↔ m.isNan = true ∧ n.isNan = true ∨ m.eqv n = true := by
  refine ⟨fun h => ?_, .numbers⟩
  cases h with
  | numbers h => exact h
  | objects hu _ _ => cases hu

theorem matches_arrays {R : Value → Value → Prop} {x y : ArrayId} :
    w.Matches R (.array x) (.array y) ↔ List.Forall₂ R (w.store.array x).toList (w.store.array y).toList := by
  refine ⟨fun h => ?_, .arrays⟩
  cases h with
  | arrays h => exact h
  | objects hu _ _ => cases hu

theorem matches_blobs {R : Value → Value → Prop} {x y : BlobId} :
    w.Matches R (.blob x) (.blob y) ↔
      (w.store.blob x).mime = (w.store.blob y).mime ∧ (w.store.blob x).data = (w.store.blob y).data := by
  refine ⟨fun h => ?_, fun h => .blobs h.1 h.2⟩
  cases h with
  | blobs hm hd => exact ⟨hm, hd⟩
  | objects hu _ _ => cases hu

theorem matches_nodes {R : Value → Value → Prop} {x y : NodeListId} :
    w.Matches R (.nodes x) (.nodes y) ↔ (w.store.nodeList x).map (·.id) = (w.store.nodeList y).map (·.id) := by
  refine ⟨fun h => ?_, .nodes⟩
  cases h with
  | nodes h => exact h
  | objects hu _ _ => cases hu

theorem matches_objects {R : Value → Value → Prop} (hu : u.kind = .object) (hv : v.kind = .object) :
    w.Matches R u v ↔ ∀ k, (w.valueAt? u k).Rel R (w.valueAt? v k) := by
  refine ⟨fun h => ?_, .objects hu hv⟩
  cases h with
  | objects _ _ h => exact h
  | _ => cases hu

/-- Two objects with equally many keys match where all keys of one are keys of the other, with related values. -/
theorem matches_entries {R : Value → Value → Prop} (hu : u.kind = .object) (hv : v.kind = .object) (ku : w.Keyed u)
    (kv : w.Keyed v) (hlength : (w.entries u).length = (w.entries v).length) :
    w.Matches R u v ↔ ∀ e ∈ w.entries u, ∃ y, w.valueAt? v e.1 = some y ∧ R e.2 y := by
  rw [matches_objects hu hv]
  constructor
  · intro h e he
    have hk := h e.1
    rw [ku.valueAt?, (ku.entries hu).get?_of_mem he] at hk
    generalize w.valueAt? v e.1 = o at hk
    cases hk with
    | some hr => exact ⟨_, rfl, hr⟩
  · intro h k
    have hhas : ∀ e ∈ w.entries u, Entries.has e.1 (w.entries v) = true := by
      intro e he
      obtain ⟨y, hy, -⟩ := h e he
      unfold Entries.has
      rw [← kv.valueAt?, hy]
      rfl
    rw [ku.valueAt?, kv.valueAt?]
    cases hk : Entries.get? k (w.entries u) with
    | some x =>
      obtain ⟨l, hl, hmem⟩ := Entries.exists_mem_of_get? hk
      obtain ⟨y, hy, hr⟩ := h _ hmem
      rw [kv.valueAt?, ← Entries.get?_same hl] at hy
      rw [hy]
      exact .some hr
    | none =>
      cases hv : Entries.get? k (w.entries v) with
      | none => exact .none
      | some y =>
        have hkv : Entries.has k (w.entries v) = true := by
          unfold Entries.has
          rw [hv]
          rfl
        have hku := Entries.has_of_length_eq (ku.entries hu) hlength hhas hkv
        unfold Entries.has at hku
        rw [hk] at hku
        cases hku

/-- Objects that match have equally many keys. -/
theorem Matches.length_eq {R : Value → Value → Prop} (h : w.Matches R u v) (hu : u.kind = .object)
    (hv : v.kind = .object) (ku : w.Keyed u) (kv : w.Keyed v) : (w.entries u).length = (w.entries v).length := by
  have hrel := (matches_objects hu hv).mp h
  have hle {a b : Value} (ka : w.Keyed a) (kb : w.Keyed b) (ha : a.kind = .object)
      (hab : ∀ k, (w.valueAt? a k).isSome = true → (w.valueAt? b k).isSome = true) :
      (w.entries a).length ≤ (w.entries b).length := by
    refine (ka.entries ha).length_le fun e he => ?_
    unfold Entries.has
    rw [← kb.valueAt?]
    apply hab
    rw [ka.valueAt?, (ka.entries ha).get?_of_mem he]
    rfl
  refine Nat.le_antisymm (hle ku kv hu fun k hk => ?_) (hle kv ku hv fun k hk => ?_)
  · have hr := hrel k
    revert hr hk
    generalize w.valueAt? u k = a
    generalize w.valueAt? v k = b
    rintro ha (hr | _)
    · rfl
    · exact ha
  · have hr := hrel k
    revert hr hk
    generalize w.valueAt? u k = a
    generalize w.valueAt? v k = b
    rintro hb (hr | _)
    · rfl
    · exact hb

/-! ### One look at each kind of values -/

theorem weighs_of_test {same : Bool} (hne : u ≠ v) (h : ∀ R, w.Matches R u v ↔ same = true) :
    w.Weighs u v (.answer same) := by
  cases same with
  | true => exact .same fun R => (h R).mpr rfl
  | false => exact .differ hne fun R hm => Bool.false_ne_true ((h R).mp hm)

theorem weighs_numbers {m n : Number} (hself : m.isNan = true ∨ m.eqv m = true) :
    w.Weighs (.num m) (.num n) (match m.sameValue n with
      | .ok same => .answer same
      | .error e => .overflow e) := by
  cases h : m.sameValue n with
  | error e =>
    rcases Number.sameValue_error h with hr | hr
    · exact .overflow (.inl rfl) hr
    · exact .overflow (.inr rfl) hr
  | ok same =>
    have hsame := Number.sameValue_ok h
    cases same with
    | true => exact .same fun R => matches_numbers.mpr (hsame.mp rfl)
    | false =>
      refine .differ ?_ fun R hm => Bool.false_ne_true (hsame.mpr (matches_numbers.mp hm))
      intro hmn
      cases hmn
      exact Bool.false_ne_true (hsame.mpr (hself.imp_left fun h => ⟨h, h⟩))

theorem weighs_arrays {x y : ArrayId} (hne : Value.array x ≠ .array y) :
    w.Weighs (.array x) (.array y) (if (w.store.array x).size != (w.store.array y).size then .answer false
      else .parts ((w.store.array x).toList.zip ((w.store.array y).toList.map some))) := by
  split
  · rename_i hsize
    refine .differ hne fun R hm => ?_
    have hlength := (matches_arrays.mp hm).length_eq
    rw [Array.length_toList, Array.length_toList] at hlength
    simp [hlength] at hsize
  · rename_i hsize
    have hsize : (w.store.array x).toList.length = (w.store.array y).toList.length := by simpa using hsize
    refine .parts hne (.inl rfl) (.inl rfl) (fun p hp => ?_) fun R => ?_
    · obtain ⟨i, hi, rfl⟩ := List.getElem_of_mem hp
      rw [List.length_zip, List.length_map, Nat.lt_min] at hi
      rw [List.getElem_zip, List.getElem_map]
      have hslot (a : ArrayId) (hi : i < (w.store.array a).toList.length) :
          w.slot? (.array a) (.index i) = some (w.store.array a).toList[i] := by
        change (w.store.array a)[i]? = _
        rw [← Array.getElem?_toList, List.getElem?_eq_getElem hi]
      exact ⟨.index i, hslot x hi.1, (hslot y hi.2).symm⟩
    · rw [matches_arrays, List.forall₂_iff_zip, List.zip_map_right]
      constructor
      · rintro ⟨-, h⟩ p hp
        obtain ⟨q, hq, rfl⟩ := List.mem_map.mp hp
        exact ⟨q.2, rfl, h hq⟩
      · refine fun h => ⟨hsize, fun {a b} hab => ?_⟩
        obtain ⟨y, hy, hr⟩ := h _ (List.mem_map_of_mem hab)
        cases hy
        exact hr

theorem weighs_objects (hne : u ≠ v) (hu : u.kind = .object) (hv : v.kind = .object) (ku : w.Keyed u)
    (kv : w.Keyed v) : w.Weighs u v (if (w.entries u).length != (w.entries v).length then .answer false
      else .parts ((w.entries u).map fun e => (e.2, w.valueAt? v e.1))) := by
  split
  · rename_i hlength
    refine .differ hne fun R hm => ?_
    simp [hm.length_eq hu hv ku kv] at hlength
  · rename_i hlength
    have hlength : (w.entries u).length = (w.entries v).length := by simpa using hlength
    refine .parts hne (.inr hu) (.inr hv) (fun p hp => ?_) fun R => ?_
    · obtain ⟨e, he, rfl⟩ := List.mem_map.mp hp
      refine ⟨.key e.1, ?_, rfl⟩
      change w.valueAt? u e.1 = _
      rw [ku.valueAt?, (ku.entries hu).get?_of_mem he]
    · rw [matches_entries hu hv ku kv hlength, List.forall_mem_map]

end World

open World

variable {w w₀ w₁ w₂ : World} {read : HandleId → Exec Value} {shared : Bool} {a b u v : Value}
  {fuel : Nat} {seen : Seen}

/-- A comparison goes on from the values that are compared to what they stand for. -/
theorem equalFrom_followed (hone : isOne shared a b = false) (ha : follow read defaultHandleDepth a w₀ = .ok u w₁)
    (hb : follow read defaultHandleDepth b w₁ = .ok v w₂) :
    equalFrom read shared (fuel + 1) seen a b w₀ = equalFrom read shared (fuel + 1) seen u v w₂ := by
  have hu := follow_of_not_handle read defaultHandleDepth u (followFrom_ok ha)
  have hv := follow_of_not_handle read defaultHandleDepth v (followFrom_ok hb)
  unfold equalFrom
  rw [if_neg (by rw [hone]; exact Bool.false_ne_true), Exec.bind_ok ha, Exec.bind_ok hb, hu, hv, pure_bind, pure_bind]
  split <;> rfl

/-- What is done about what a look has come to. -/
def Weighing.goOn (read : HandleId → Exec Value) (shared : Bool) (fuel : Nat) (seen : Seen) (u v : Value) :
    Weighing → Exec (Bool × Seen)
  | .answer same => pure (same, seen)
  | .overflow e => throw (.overflow e)
  | .parts pairs =>
    if seen.contains (u, v) then pure (true, seen) else allPairs (equalFrom read shared fuel) ((u, v) :: seen) pairs

/-- Two values of one kind, the parts of which can be compared. -/
inductive Kindred : Value → Value → Prop where
  | numbers (m n) : Kindred (.num m) (.num n)
  | arrays (x y) : Kindred (.array x) (.array y)
  | blobs (x y) : Kindred (.blob x) (.blob y)
  | nodes (x y) : Kindred (.nodes x) (.nodes y)
  | objects {u v : Value} : u.kind = .object → v.kind = .object → Kindred u v

theorem World.Matches.kindred {R : Value → Value → Prop} (h : w.Matches R u v) : Kindred u v := by
  cases h with
  | numbers _ => exact .numbers _ _
  | arrays _ => exact .arrays _ _
  | blobs _ _ => exact .blobs _ _
  | nodes _ => exact .nodes _ _
  | objects hu hv _ => exact .objects hu hv

theorem ne_of_not_kindred (hone : isOne shared u v = false) (h : ¬Kindred u v) : u ≠ v := by
  rintro rfl
  cases u with
  | num n => exact h (.numbers n n)
  | _ => simp [isOne] at hone

theorem equalFrom_unlike (hone : isOne shared u v = false) (hu : ∀ h, u ≠ .handle h) (hv : ∀ h, v ≠ .handle h)
    (h : ¬Kindred u v) : equalFrom read shared (fuel + 1) seen u v w = .ok (false, seen) w := by
  unfold equalFrom
  simp only [follow_of_not_handle read _ u hu, follow_of_not_handle read _ v hv, pure_bind, hone, Bool.false_eq_true,
    if_false]
  split
  · exact absurd (.numbers _ _) h
  · exact absurd (.arrays _ _) h
  · exact absurd (.blobs _ _) h
  · exact absurd (.nodes _ _) h
  · rw [if_neg fun hk => ?_]
    · rfl
    · rw [Bool.and_eq_true, beq_iff_eq, beq_iff_eq] at hk
      exact h (.objects hk.1 hk.2)

/-- One look at two values that are no handles, in a world and in all that it may grow to. -/
theorem equalFrom_looks (read : HandleId → Exec Value) (hu : w.Fit u) (hv : w.Fit v) (hone : isOne shared u v = false)
    (hhu : ∀ h, u ≠ .handle h) (hhv : ∀ h, v ≠ .handle h) :
    ∃ r, w.Weighs u v r ∧ ∀ fuel seen w', w.Grown w' →
      equalFrom read shared (fuel + 1) seen u v w' = r.goOn read shared fuel seen u v w' := by
  by_cases hkind : Kindred u v
  · cases hkind with
    | numbers m n =>
      refine ⟨_, weighs_numbers (hu.number m rfl), fun fuel seen w' _ => ?_⟩
      rw [equalFrom_numbers hone rfl rfl]
      cases m.sameValue n <;> rfl
    | arrays x y =>
      refine ⟨_, weighs_arrays (ne_of_isOne hone (by simp)), fun fuel seen w' hg => ?_⟩
      have hsame {a : ArrayId} (ha : w.Fit (.array a)) : w'.store.array a = w.store.array a :=
        (ha.knows.agrees_grown hg).2 (.array a) (by simp [touched, Value.own?])
      rw [equalFrom_arrays hone rfl rfl, hsame hu, hsame hv]
      split <;> rfl
    | blobs x y =>
      have hlook : w.Weighs (.blob x) (.blob y) (.answer ((w.store.blob x).mime == (w.store.blob y).mime &&
          (w.store.blob x).data == (w.store.blob y).data)) :=
        weighs_of_test (ne_of_isOne hone (by simp)) fun R => by
          rw [matches_blobs, Bool.and_eq_true, beq_iff_eq, beq_iff_eq]
      refine ⟨_, hlook, fun fuel seen w' hg => ?_⟩
      have hsame {b : BlobId} (hb : w.Fit (.blob b)) : w'.store.blob b = w.store.blob b :=
        (hb.knows.agrees_grown hg).2 (.blob b) (by simp [touched, Value.own?])
      rw [equalFrom_blobs hone rfl rfl, hsame hu, hsame hv]
      rfl
    | nodes x y =>
      have hlook : w.Weighs (.nodes x) (.nodes y)
          (.answer ((w.store.nodeList x).map (·.id) == (w.store.nodeList y).map (·.id))) :=
        weighs_of_test (ne_of_isOne hone (by simp)) fun R => by rw [matches_nodes, beq_iff_eq]
      refine ⟨_, hlook, fun fuel seen w' hg => ?_⟩
      have hsame {n : NodeListId} (hn : w.Fit (.nodes n)) : w'.store.nodeList n = w.store.nodeList n :=
        getD_of_begins hg.store.nodeLists (hn.nodes n rfl) _
      rw [equalFrom_nodes hone rfl rfl, hsame hu, hsame hv]
      rfl
    | objects hku hkv =>
      have hne : u ≠ v := ne_of_isOne hone fun n h => by
        rw [h] at hku
        cases hku
      refine ⟨_, weighs_objects hne hku hkv hu.keyed hv.keyed, fun fuel seen w' hg => ?_⟩
      have hvalue (k : Key) : w'.valueAt? v k = w.valueAt? v k := slot?_grown hv.knows hg (.key k)
      rw [equalFrom_objects hone hku hkv, entries_grown hu.knows hg, entries_grown hv.knows hg]
      simp only [hvalue]
      split <;> rfl
  · refine ⟨.answer false, .differ (ne_of_not_kindred hone hkind) fun R hm => hkind hm.kindred,
      fun fuel seen w' _ => ?_⟩
    rw [equalFrom_unlike hone hhu hhv hkind]
    rfl

/-! ### What a comparison takes as equal -/

namespace World

variable {w w₁ : World} {lead : HandleId → Option Value} {seen seen' seen'' : Seen} {x y : Value}

/-- Two values are taken as equal: they are one, or stand for what is one, what matches as it is, or two containers
that have been begun to be compared. -/
def Taken (w : World) (lead : HandleId → Option Value) (seen : Seen) (x y : Value) : Prop :=
  x = y ∨ ∃ u v, x.behind? lead = some u ∧ y.behind? lead = some v ∧
    (u = v ∨ (∀ R, w.Matches R u v) ∨ (u, v) ∈ seen)

/-- Pairs of containers of the world, none of them twice. -/
structure Paired (w : World) (seen : Seen) : Prop where
  nodup : seen.Nodup
  subset : seen ⊆ w.holders ×ˢ w.holders

/-- The pairs that a comparison has added match under what it has taken as equal. -/
structure Explored (w : World) (lead : HandleId → Option Value) (seen seen' : Seen) : Prop where
  subset : seen ⊆ seen'
  length_le : seen.length ≤ seen'.length
  paired : w.Paired seen'
  explored : ∀ p ∈ seen', p ∈ seen ∨ w.Matches (w.Taken lead seen') p.1 p.2

theorem Taken.mono (h : w.Taken lead seen x y) (hs : seen ⊆ seen') : w.Taken lead seen' x y :=
  h.imp_right fun ⟨u, v, hu, hv, h⟩ => ⟨u, v, hu, hv, h.imp_right (Or.imp_right fun h => hs h)⟩

theorem Paired.length_le (h : w.Paired seen) : seen.length ≤ w.holderCount * w.holderCount := by
  have hle := (List.Nodup.subperm h.nodup h.subset).length_le
  rwa [List.length_product, length_holders] at hle

theorem Explored.refl (h : w.Paired seen) : w.Explored lead seen seen :=
  ⟨List.Subset.refl _, Nat.le_refl _, h, fun _ hp => .inl hp⟩

theorem Explored.trans (h : w.Explored lead seen seen') (k : w.Explored lead seen' seen'') :
    w.Explored lead seen seen'' where
  subset := List.Subset.trans h.subset k.subset
  length_le := Nat.le_trans h.length_le k.length_le
  paired := k.paired
  explored p hp := by
    rcases k.explored p hp with hp | hm
    · exact (h.explored p hp).imp_right fun hm => hm.mono fun _ _ ht => ht.mono k.subset
    · exact .inr hm

/-- A pair is explored once its parts are. -/
theorem Explored.of_cons (h : w.Explored lead ((u, v) :: seen) seen') (hm : w.Matches (w.Taken lead seen') u v) :
    w.Explored lead seen seen' where
  subset := (List.cons_subset.mp h.subset).2
  length_le := Nat.le_of_succ_le h.length_le
  paired := h.paired
  explored p hp := by
    rcases h.explored p hp with hp | hm'
    · rcases List.mem_cons.mp hp with rfl | hp
      · exact .inr hm
      · exact .inl hp
    · exact .inr hm'

theorem Explored.bisimilar (h : w.Explored lead [] seen) (ht : w.Taken lead seen x y) : w.Bisimilar lead x y := by
  refine ⟨w.Taken lead seen, fun a b hab => hab.imp_right fun ⟨u, v, hu, hv, huv⟩ => ⟨u, v, hu, hv, ?_⟩, ht⟩
  rcases huv with hsame | hm | hmem
  · exact .inl hsame
  · exact .inr (hm _)
  · exact .inr ((h.explored _ hmem).resolve_left (by simp))

/-- What a comparison may come to: all is taken as equal, something is found to differ, or there is an excuse. -/
inductive Compares (w : World) (lead : HandleId → Option Value) (excuse : Fault → Prop) (seen : Seen)
    (same : Seen → Prop) (differ : Prop) (w₁ : World) : EStateM.Result Fault World (Bool × Seen) → Prop where
  | same {seen' : Seen} {w₂ : World} : w₁.Grown w₂ → w.Explored lead seen seen' → same seen' →
      Compares w lead excuse seen same differ w₁ (.ok (true, seen') w₂)
  | differ {seen' : Seen} {w₂ : World} : w₁.Grown w₂ → differ →
      Compares w lead excuse seen same differ w₁ (.ok (false, seen') w₂)
  | error {f : Fault} {w₂ : World} : w₁.Grown w₂ → excuse f → Compares w lead excuse seen same differ w₁ (.error f w₂)

/-- What a later comparison comes to counts for one that goes on with it. -/
theorem Compares.later {excuse : Fault → Prop} {same same' : Seen → Prop} {differ differ' : Prop} {w₂ : World}
    {r : EStateM.Result Fault World (Bool × Seen)} (h : w.Compares lead excuse seen' same' differ' w₂ r)
    (hg : w₁.Grown w₂) (hs : ∀ s, w.Explored lead seen' s → same' s → w.Explored lead seen s ∧ same s)
    (hd : differ' → differ) : w.Compares lead excuse seen same differ w₁ r := by
  cases h with
  | same hg' he hsame => exact .same (hg.trans hg') (hs _ he hsame).1 (hs _ he hsame).2
  | differ hg' hdiffer => exact .differ (hg.trans hg') (hd hdiffer)
  | error hg' hf => exact .error (hg.trans hg') hf

/-- A value is followed to what it stands for, in this world and in all that it may grow to; it cannot be followed if
it leads nowhere. -/
def Follows (w : World) (read : HandleId → Exec Value) (lead : HandleId → Option Value) (x : Value) : Prop :=
  ∀ w₁, w.Grown w₁ → match x.behind? lead with
    | some u => ∃ w₂, follow read defaultHandleDepth x w₁ = .ok u w₂ ∧ w₁.Grown w₂
    | none => ∃ f w₂, follow read defaultHandleDepth x w₁ = .error f w₂ ∧ w₁.Grown w₂

/-- A relation between values that a comparison goes down in: what it compares can be followed and looked at, and what
is in the same slots is related again. -/
structure Compared (read : HandleId → Exec Value) (shared : Bool) (lead : HandleId → Option Value) (w : World)
    (R : Value → Value → Prop) : Prop where
  follows {x y : Value} : R x y → isOne shared x y = false → w.Follows read lead x ∧ w.Follows read lead y
  fit {x y u v : Value} : R x y → isOne shared x y = false → x.behind? lead = some u → y.behind? lead = some v →
    isOne shared u v = false → w.Fit u ∧ w.Fit v
  parts {x y u v a b : Value} {s : Slot} : R x y → isOne shared x y = false → x.behind? lead = some u →
    y.behind? lead = some v → w.slot? u s = some a → w.slot? v s = some b → R a b

/-- Why a comparison may fail: a handle leads nowhere, or a number cannot be asked whether it is one. -/
inductive Excuse (read : HandleId → Exec Value) (shared : Bool) (lead : HandleId → Option Value) (w : World)
    (R : Value → Value → Prop) : Fault → Prop where
  | unresolved {x y z : Value} {f : Fault} {w₁ w₂ : World} : R x y → isOne shared x y = false → z = x ∨ z = y →
      z.behind? lead = none → w.Grown w₁ → follow read defaultHandleDepth z w₁ = .error f w₂ →
      Excuse read shared lead w R f
  | overflow {x y u v : Value} {n : Number} {e : Number.Overflow} : R x y → x.behind? lead = some u →
      y.behind? lead = some v → isOne shared u v = false → u = .num n ∨ v = .num n → n.inRange = .error e →
      Excuse read shared lead w R (.overflow e)

end World

section Run

variable {lead : HandleId → Option Value} {R : Value → Value → Prop} {excuse : Fault → Prop} {x y : Value} {bound : Nat}

/-- Pairs are compared one after the other, up to the first that differs. -/
theorem allPairs_compares {equal : Seen → Value → Value → Exec (Bool × Seen)}
    (h : ∀ {seen x y w₁}, R x y → w.Grown w₁ → w.Paired seen → bound < fuel + seen.length →
      w.Compares lead excuse seen (fun s => w.Taken lead s x y) (¬w.Bisimilar lead x y) w₁ (equal seen x y w₁))
    {pairs : List (Value × Option Value)} (hp : ∀ p ∈ pairs, ∀ y, p.2 = some y → R p.1 y) (hg : w.Grown w₁)
    (hs : w.Paired seen) (hb : bound < fuel + seen.length) :
    w.Compares lead excuse seen (fun s => ∀ p ∈ pairs, ∃ y, p.2 = some y ∧ w.Taken lead s p.1 y)
      (¬∀ p ∈ pairs, ∃ y, p.2 = some y ∧ w.Bisimilar lead p.1 y) w₁ (allPairs equal seen pairs w₁) := by
  induction pairs generalizing seen w₁ with
  | nil => exact .same (.refl w₁) (.refl hs) (by simp)
  | cons p rest ih =>
    obtain ⟨hfirst, hrest⟩ := List.forall_mem_cons.mp hp
    obtain ⟨x, y?⟩ := p
    cases y? with
    | none =>
      refine .differ (.refl w₁) fun hall => ?_
      obtain ⟨y, hy, -⟩ := hall _ List.mem_cons_self
      cases hy
    | some y =>
      have hcomp := h (hfirst y rfl) hg hs hb
      unfold allPairs
      cases hrun : equal seen x y w₁ with
      | error f w₂ =>
        rw [hrun] at hcomp
        rw [Exec.bind_error hrun]
        cases hcomp with
        | error hg₂ hf => exact .error hg₂ hf
      | ok answer w₂ =>
        rw [hrun] at hcomp
        rw [Exec.bind_ok hrun]
        cases hcomp with
        | differ hg₂ hd =>
          refine .differ hg₂ fun hall => hd ?_
          obtain ⟨z, hz, hxz⟩ := hall _ List.mem_cons_self
          cases hz
          exact hxz
        | same hg₂ he ht =>
          have hb' := Nat.lt_of_lt_of_le hb (Nat.add_le_add_left he.length_le fuel)
          refine (ih hrest (hg.trans hg₂) he.paired hb').later hg₂ (fun s hs hall => ⟨he.trans hs, ?_⟩)
            fun hd hall => ?_
          · exact List.forall_mem_cons.mpr ⟨⟨y, rfl, ht.mono hs.subset⟩, hall⟩
          · exact hd (List.forall_mem_cons.mp hall).2

theorem equalFrom_first_lost (hone : isOne shared a b = false) {f : Fault}
    (ha : follow read defaultHandleDepth a w₀ = .error f w₁) :
    equalFrom read shared (fuel + 1) seen a b w₀ = .error f w₁ := by
  unfold equalFrom
  rw [if_neg (by rw [hone]; exact Bool.false_ne_true)]
  exact Exec.bind_error ha

theorem equalFrom_second_lost (hone : isOne shared a b = false) {f : Fault}
    (ha : follow read defaultHandleDepth a w₀ = .ok u w₁) (hb : follow read defaultHandleDepth b w₁ = .error f w₂) :
    equalFrom read shared (fuel + 1) seen a b w₀ = .error f w₂ := by
  unfold equalFrom
  rw [if_neg (by rw [hone]; exact Bool.false_ne_true), Exec.bind_ok ha]
  exact Exec.bind_error hb

theorem World.Bisimilar.stands (h : w.Bisimilar lead x y) (hu : x.behind? lead = some u)
    (hv : y.behind? lead = some v) : u = v ∨ w.Matches (w.Bisimilar lead) u v := by
  rcases isBisimulation_bisimilar x y h with rfl | ⟨u', v', hu', hv', huv⟩
  · exact .inl (Option.some.inj (hu.symm.trans hv))
  · cases hu.symm.trans hu'
    cases hv.symm.trans hv'
    exact huv

/-- What is done about a look: containers that have not been begun to be compared are compared part by part. -/
theorem goOn_compares {r : Weighing} (hr : w.Weighs u v r) (hu : x.behind? lead = some u) (hv : y.behind? lead = some v)
    (hku : w.Knows u) (hkv : w.Knows v) (hg : w.Grown w₁) (hs : w.Paired seen)
    (hoverflow : ∀ n e, u = .num n ∨ v = .num n → n.inRange = .error e → excuse (.overflow e))
    (hparts : ∀ p : Value × Option Value, (∃ s, w.slot? u s = some p.1 ∧ p.2 = w.slot? v s) →
      ∀ z, p.2 = some z → R p.1 z)
    (h : ∀ {seen x y w₁}, R x y → w.Grown w₁ → w.Paired seen → bound < fuel + seen.length →
      w.Compares lead excuse seen (fun s => w.Taken lead s x y) (¬w.Bisimilar lead x y) w₁
        (equalFrom read shared fuel seen x y w₁))
    (hb : bound < fuel + 1 + seen.length) :
    w.Compares lead excuse seen (fun s => w.Taken lead s x y) (¬w.Bisimilar lead x y) w₁
      (r.goOn read shared fuel seen u v w₁) := by
  cases hr with
  | same hm => exact .same (.refl w₁) (.refl hs) (.inr ⟨u, v, hu, hv, .inr (.inl hm)⟩)
  | differ hne hno => exact .differ (.refl w₁) fun hb => (hb.stands hu hv).elim hne (hno _)
  | overflow hn he => exact .error (.refl w₁) (hoverflow _ _ hn he)
  | parts hne hu' hv' hslots hmatch =>
    simp only [Weighing.goOn]
    by_cases hmem : (u, v) ∈ seen
    · rw [if_pos (List.contains_iff_mem.mpr hmem)]
      exact .same (.refl w₁) (.refl hs) (.inr ⟨u, v, hu, hv, .inr (.inr hmem)⟩)
    rw [if_neg fun h => hmem (List.contains_iff_mem.mp h)]
    have hpaired : w.Paired ((u, v) :: seen) :=
      ⟨List.nodup_cons.mpr ⟨hmem, hs.nodup⟩, List.cons_subset.mpr
        ⟨List.mem_product.mpr ⟨mem_holders hku hu', mem_holders hkv hv'⟩, hs.subset⟩⟩
    have hb' : bound < fuel + ((u, v) :: seen).length := by
      rw [List.length_cons]
      omega
    refine (allPairs_compares h (fun p hp => hparts p (hslots p hp)) hg hpaired hb').later (.refl w₁)
      (fun s he hall => ?_) fun hd hbis => ?_
    · exact ⟨he.of_cons ((hmatch _).mpr hall), .inr ⟨u, v, hu, hv, .inr (.inr (he.subset List.mem_cons_self))⟩⟩
    · exact hd ((hmatch _).mp ((hbis.stands hu hv).resolve_left hne))

/-- A comparison that has as many steps left as there are pairs of containers that it has not begun to compare. -/
theorem equalFrom_compares (hR : Compared read shared lead w R) (hxy : R x y) (hg : w.Grown w₁) (hs : w.Paired seen)
    (hf : w.holderCount * w.holderCount < fuel + seen.length) :
    w.Compares lead (Excuse read shared lead w R) seen (fun s => w.Taken lead s x y) (¬w.Bisimilar lead x y) w₁
      (equalFrom read shared fuel seen x y w₁) := by
  induction fuel generalizing seen x y w₁ with
  | zero =>
    have hle := hs.length_le
    omega
  | succ fuel ih =>
    cases hone : isOne shared x y with
    | true =>
      rw [equalFrom_isOne hone]
      exact .same (.refl w₁) (.refl hs) (.inl (isOne_eq hone))
    | false =>
      obtain ⟨hfx, hfy⟩ := hR.follows hxy hone
      have hfx := hfx w₁ hg
      cases hu : x.behind? lead with
      | none =>
        rw [hu] at hfx
        obtain ⟨f, w₂, hrun, hg₂⟩ := hfx
        rw [equalFrom_first_lost hone hrun]
        exact .error hg₂ (.unresolved hxy hone (.inl rfl) hu hg hrun)
      | some u =>
        rw [hu] at hfx
        obtain ⟨w₂, hrunx, hg₂⟩ := hfx
        have hfy := hfy w₂ (hg.trans hg₂)
        cases hv : y.behind? lead with
        | none =>
          rw [hv] at hfy
          obtain ⟨f, w₃, hruny, hg₃⟩ := hfy
          rw [equalFrom_second_lost hone hrunx hruny]
          exact .error (hg₂.trans hg₃) (.unresolved hxy hone (.inr rfl) hv (hg.trans hg₂) hruny)
        | some v =>
          rw [hv] at hfy
          obtain ⟨w₃, hruny, hg₃⟩ := hfy
          have hg₁ := hg₂.trans hg₃
          rw [equalFrom_followed hone hrunx hruny]
          cases hone' : isOne shared u v with
          | true =>
            rw [equalFrom_isOne hone']
            exact .same hg₁ (.refl hs) (.inr ⟨u, v, hu, hv, .inl (isOne_eq hone')⟩)
          | false =>
            obtain ⟨hfu, hfv⟩ := hR.fit hxy hone hu hv hone'
            obtain ⟨r, hr, hrun⟩ := equalFrom_looks read hfu hfv hone' (followFrom_ok hrunx) (followFrom_ok hruny)
            rw [hrun fuel seen w₃ (hg.trans hg₁)]
            refine (goOn_compares hr hu hv hfu.knows hfv.knows (hg.trans hg₁) hs (fun n e hn he => ?_)
              (fun p hp z hz => ?_) ih hf).later hg₁ (fun s he ht => ⟨he, ht⟩) id
            · exact .overflow hxy hu hv hone' hn he
            · obtain ⟨s, hsu, hsv⟩ := hp
              exact hR.parts hxy hone hu hv hsu (hsv.symm.trans hz)

/-- A comparison ends: the values are found to be equal if they are bisimilar, and only if; or it has an excuse. -/
theorem equalValues_decides (hR : Compared read shared lead w R) (hxy : R x y) :
    (∃ same w', equalValues read shared x y w = .ok same w' ∧ w.Grown w' ∧
      (same = true ↔ w.Bisimilar lead x y)) ∨
    ∃ f w', equalValues read shared x y w = .error f w' ∧ w.Grown w' ∧ Excuse read shared lead w R f := by
  have hlt : w.holderCount * w.holderCount < (w.holderCount + 2) * (w.holderCount + 2) + ([] : Seen).length :=
    Nat.mul_self_lt_mul_self (by omega)
  have hcomp := equalFrom_compares hR hxy (.refl w) ⟨List.nodup_nil, List.nil_subset _⟩ hlt
  have hequal : equalValues read shared x y w = (do
      return (← equalFrom read shared ((w.holderCount + 2) * (w.holderCount + 2)) [] x y).1 : Exec Bool) w := rfl
  rw [hequal]
  cases hrun : equalFrom read shared ((w.holderCount + 2) * (w.holderCount + 2)) [] x y w with
  | error f w' =>
    rw [hrun] at hcomp
    cases hcomp with
    | error hg hf => exact .inr ⟨f, w', Exec.bind_error hrun, hg, hf⟩
  | ok answer w' =>
    rw [hrun] at hcomp
    refine .inl ⟨answer.1, w', Exec.bind_ok hrun, ?_⟩
    cases hcomp with
    | same hg he ht => exact ⟨hg, fun _ => he.bisimilar ht, fun _ => rfl⟩
    | differ hg hd => exact ⟨hg, fun h => absurd h Bool.false_ne_true, fun h => absurd h hd⟩

end Run

namespace World

/-- All that a comparison meets in a value is there, with no key twice; numbers but NaN equal themselves; and handles
lead to the same in all worlds to come, or nowhere. -/
structure Comparand (read : HandleId → Exec Value) (lead : HandleId → Option Value) (w : World) (a : Value) : Prop where
  intact : w.Intact lead a
  nodes : ∀ x, w.Reaches lead a (.nodes x) → x < w.store.nodeLists.size
  numbers : ∀ n, w.Reaches lead a (.num n) → n.isNan = true ∨ n.eqv n = true
  follows : ∀ h, w.Meets lead a (.handle h) → w.Follows read lead (.handle h)

variable {w : World} {lead : HandleId → Option Value} {read : HandleId → Exec Value} {a b u x : Value}

theorem follows_of_not_handle (h : ∀ z, x ≠ .handle z) : w.Follows read lead x := fun w₁ _ => by
  rw [Value.behind?_of_not_handle lead h, follow_of_not_handle read _ x h]
  exact ⟨w₁, rfl, .refl w₁⟩

theorem Shows.follows {h : HandleId} (hs : w.Shows read true lead h) :
    w.Follows read lead (.handle h) := fun w₁ hg => by
  obtain ⟨u, hu, hsee⟩ := hs
  change match lead h with
    | some u => _
    | none => _
  rw [hu]
  exact hsee w₁ hg

namespace Comparand

theorem fit (h : Comparand read lead w a) (hu : w.Reaches lead a u) : w.Fit u where
  knows := h.intact.knows u hu
  keyed := h.intact.keyed u hu
  nodes := by
    rintro x rfl
    exact h.nodes x hu
  number := by
    rintro n rfl
    exact h.numbers n hu

theorem met_follows (h : Comparand read lead w a) (hx : w.Meets lead a x) : w.Follows read lead x := by
  by_cases hh : ∃ z, x = .handle z
  · obtain ⟨z, rfl⟩ := hh
    exact h.follows z hx
  · exact follows_of_not_handle fun z hz => hh ⟨z, hz⟩

/-- A comparison goes down in what it meets on both sides. -/
theorem compared (ha : Comparand read lead w a) (hb : Comparand read lead w b) (shared : Bool) :
    Compared read shared lead w fun x y => w.Meets lead a x ∧ w.Meets lead b y where
  follows hxy _ := ⟨ha.met_follows hxy.1, hb.met_follows hxy.2⟩
  fit hxy _ hu hv _ := ⟨ha.fit (hxy.1.reaches hu), hb.fit (hxy.2.reaches hv)⟩
  parts hxy _ hu hv hs ht := ⟨hxy.1.slot hu hs, hxy.2.slot hv ht⟩

end Comparand

end World

section Decides

variable {w : World} {lead : HandleId → Option Value} {read : HandleId → Exec Value} {a b : Value}

/-- If a comparison answers, it answers whether the values are bisimilar. -/
theorem equalValues_ok (ha : Comparand read lead w a) (hb : Comparand read lead w b) {shared same : Bool} {w' : World}
    (h : equalValues read shared a b w = .ok same w') : same = true ↔ w.Bisimilar lead a b := by
  rcases equalValues_decides (ha.compared hb shared) ⟨.self w lead a, .self w lead b⟩ with
    ⟨same', w₁, hrun, -, hiff⟩ | ⟨f, w₁, hrun, -, -⟩
  · rw [h] at hrun
    cases hrun
    exact hiff
  · rw [h] at hrun
    cases hrun

/-- Deep equality is bisimilarity. A comparison ends; it fails only at a handle that leads nowhere or at a number out of
range; and if it answers, it answers that the values are equal just where they are bisimilar. Its answers are thus
reflexive, symmetric and transitive. -/
theorem equality_is_bisimilarity (ha : Comparand read lead w a) (hb : Comparand read lead w b) (shared : Bool) :
    ((∃ same w', equalValues read shared a b w = .ok same w' ∧ w.Grown w' ∧
        (same = true ↔ w.Bisimilar lead a b)) ∨
      ∃ f w', equalValues read shared a b w = .error f w' ∧ w.Grown w' ∧
        ((∃ h w₁ w₂, (w.Meets lead a (.handle h) ∨ w.Meets lead b (.handle h)) ∧ lead h = none ∧
            follow read defaultHandleDepth (.handle h) w₁ = .error f w₂) ∨
          ∃ n e, (w.Reaches lead a (.num n) ∨ w.Reaches lead b (.num n)) ∧ n.inRange = .error e ∧ f = .overflow e)) ∧
    (∀ same w', equalValues read shared a a w = .ok same w' → same = true) ∧
    (∀ same same' w₁ w₂, equalValues read shared a b w = .ok same w₁ → equalValues read shared b a w = .ok same' w₂ →
      same = same') ∧
    ∀ c, Comparand read lead w c → ∀ same w₁ w₂ w₃, equalValues read shared a b w = .ok true w₁ →
      equalValues read shared b c w = .ok true w₂ → equalValues read shared a c w = .ok same w₃ → same = true := by
  refine ⟨?_, fun same w' h => ?_, fun same same' w₁ w₂ h h' => ?_, fun c hc same w₁ w₂ w₃ h h' h'' => ?_⟩
  · rcases equalValues_decides (ha.compared hb shared) ⟨.self w lead a, .self w lead b⟩ with
      hanswer | ⟨f, w', hrun, hg, hexcuse⟩
    · exact .inl hanswer
    · refine .inr ⟨f, w', hrun, hg, ?_⟩
      cases hexcuse with
      | @unresolved x y z f w₁ w₂ hxy _ hz hnone _ hfail =>
        have hmet : w.Meets lead a z ∨ w.Meets lead b z := by
          rcases hz with rfl | rfl
          · exact .inl hxy.1
          · exact .inr hxy.2
        cases z with
        | handle h => exact .inl ⟨h, w₁, w₂, hmet, hnone, hfail⟩
        | _ => cases hnone
      | @overflow x y u v n e hxy hu hv _ hn he =>
        refine .inr ⟨n, e, ?_, he, rfl⟩
        rcases hn with rfl | rfl
        · exact .inl (hxy.1.reaches hu)
        · exact .inr (hxy.2.reaches hv)
  · exact (equalValues_ok ha ha h).mpr (.refl a)
  · rw [Bool.eq_iff_iff, equalValues_ok ha hb h, equalValues_ok hb ha h']
    exact ⟨.symm, .symm⟩
  · exact (equalValues_ok ha hc h'').mpr
      (((equalValues_ok ha hb h).mp rfl).trans ((equalValues_ok hb hc h').mp rfl))

end Decides

namespace ringWorld

theorem comparand {o : ObjectId} (h : o < 2) :
    Comparand (Engine.full .plain).readHandle ringWorld.lead ringWorld (.object o) where
  intact := intact h
  nodes x hx := absurd (reached_kind hx) (by simp [Value.kind])
  numbers n hn := absurd (reached_kind hn) (by simp [Value.kind])
  follows z hz := (shows (met_handle hz)).follows

/-- The pairs of the two rings. -/
def Twin (x y : Value) : Prop :=
  x = .object 0 ∧ y = .object 1 ∨ x = .array 0 ∧ y = .array 1 ∨ x = .handle 0 ∧ y = .handle 1

theorem objects_match : ringWorld.Matches Twin (.object 0) (.object 1) := by
  refine .objects rfl rfl fun k => ?_
  change (if k.same (.str "a") then some (Value.array 0) else none).Rel Twin
    (if k.same (.str "a") then some (Value.array 1) else none)
  split
  · exact .some (.inr (.inl ⟨rfl, rfl⟩))
  · exact .none

theorem bisimilar : ringWorld.Bisimilar lead (.object 0) (.object 1) := by
  refine ⟨Twin, ?_, .inl ⟨rfl, rfl⟩⟩
  rintro x y (⟨rfl, rfl⟩ | ⟨rfl, rfl⟩ | ⟨rfl, rfl⟩)
  · exact .inr ⟨_, _, rfl, rfl, .inr objects_match⟩
  · exact .inr ⟨_, _, rfl, rfl, .inr (.arrays (.cons (.inr (.inr ⟨rfl, rfl⟩)) .nil))⟩
  · exact .inr ⟨_, _, rfl, rfl, .inr objects_match⟩

end ringWorld

/-- Two objects that hold themselves, each through a handle, are deeply equal. -/
theorem rings_are_equal : ∃ w', deepEqual (Engine.full .plain).readHandle (.object 0) (.object 1) ringWorld =
    .ok true w' := by
  have ha : Comparand (Engine.full .plain).readHandle ringWorld.lead ringWorld (.object 0) :=
    ringWorld.comparand (by decide)
  have hb : Comparand (Engine.full .plain).readHandle ringWorld.lead ringWorld (.object 1) :=
    ringWorld.comparand (by decide)
  obtain ⟨⟨same, w', hrun, -, hiff⟩ | ⟨f, w', -, -, hexcuse⟩, -⟩ := equality_is_bisimilarity ha hb false
  · rw [hiff.mpr ringWorld.bisimilar] at hrun
    exact ⟨w', hrun⟩
  · rcases hexcuse with ⟨h, -, -, hmet, hnone, -⟩ | ⟨n, -, hn, -⟩
    · have hh : h = 0 ∨ h = 1 := hmet.elim ringWorld.met_handle ringWorld.met_handle
      rcases hh with rfl | rfl <;> cases hnone
    · have hkind : (Value.num n).kind = .array ∨ (Value.num n).kind = .object :=
        hn.elim ringWorld.reached_kind ringWorld.reached_kind
      exact absurd hkind (by simp [Value.kind])

end EventScript
