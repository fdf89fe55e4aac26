import EventScript.Proofs.Comparisons
import EventScript.Proofs.CycleSearch
import EventScript.Proofs.FreshCopies

/-!
# Faithful copies

A deep copy goes the ways that the search for cycles goes: it fails just where the search finds one, with the same
trail. Where there is none, the copy mirrors the value slot by slot. Its containers are all new, and only one way leads
to each of them; what was there before stays as it was. The copy is deeply equal to the value.
-/

namespace EventScript

/-- The label of a slot in the trail of a copy. -/
def Slot.copyLabel : Slot → String
  | .index i => indexLabel i
  | .key k => k.text

/-! ### One list after the other -/

section Lists

variable {α β κ : Type} {f : α → Exec β} {w w₁ w₂ w₃ : World} {R : World → α → β → World → Prop}

theorem mapM_tagged (f : α → Exec β) (k : α → κ) (xs : List α) :
    (xs.mapM fun x => do return (k x, ← f x)) = do return (xs.map k).zip (← xs.mapM f) := by
  induction xs with
  | nil => simp
  | cons x rest ih =>
    simp only [List.mapM_cons, ih, List.map_cons, bind_assoc, pure_bind]
    rfl

/-- What succeeds on every element succeeds on all of them, one after the other. -/
theorem mapM_threaded (hR : ∀ {w₁ x b w₂}, R w₁ x b w₂ → w₁.Grown w₂) {xs : List α}
    (h : ∀ x ∈ xs, ∀ w₁, w.Grown w₁ → ∃ b w₂, f x w₁ = .ok b w₂ ∧ R w₁ x b w₂) (hg : w.Grown w₁) :
    ∃ bs w₂, xs.mapM f w₁ = .ok bs w₂ ∧ Threaded R w₁ xs bs w₂ ∧ w₁.Grown w₂ := by
  induction xs generalizing w₁ with
  | nil => exact ⟨[], w₁, rfl, .nil, .refl w₁⟩
  | cons x rest ih =>
    obtain ⟨hx, hrest⟩ := List.forall_mem_cons.mp h
    obtain ⟨b, w₂, hb, hRb⟩ := hx w₁ hg
    obtain ⟨bs, w₃, hbs, hRbs, hg₃⟩ := ih hrest (hg.trans (hR hRb))
    refine ⟨b :: bs, w₃, ?_, .cons hRb hRbs, (hR hRb).trans hg₃⟩
    rw [List.mapM_cons, Exec.bind_ok hb, Exec.bind_ok hbs]
    rfl

theorem mapM_fails {front back : List α} {x : α} {bs : List β} {e : Fault} (hfront : front.mapM f w₁ = .ok bs w₂)
    (hx : f x w₂ = .error e w₃) : (front ++ x :: back).mapM f w₁ = .error e w₃ := by
  rw [List.mapM_append, Exec.bind_ok hfront, List.mapM_cons]
  exact Exec.bind_error (Exec.bind_error hx)

end Lists

open World

variable {w w₁ w₂ : World} {lead : HandleId → Option Value} {read : HandleId → Exec Value} {resolve : Bool}
  {root v u c : Value} {active : List Value} {trail : List String} {fuel : Nat}

/-! ### The run of the copy -/

theorem copyFrom_again (hsee : seeThrough read resolve v w₁ = .ok u w₂) (hk : u.kind = .array ∨ u.kind = .object)
    (hu : u ∈ active) : copyFrom read resolve (fuel + 1) active trail v w₁ = .error (.cycle trail.reverse) w₂ := by
  refine (Exec.bind_ok hsee).trans ?_
  cases u with
  | array a =>
    simp only [List.contains_iff_mem, if_pos hu]
    rfl
  | object o =>
    simp only [List.contains_iff_mem, if_pos hu]
    rfl
  | context c =>
    simp only [List.contains_iff_mem, if_pos hu]
    rfl
  | _ => simp [Value.kind] at hk

/-- A copy of another container is rebuilt of copies of what it holds. -/
theorem copyFrom_inside (hsee : seeThrough read resolve v w₁ = .ok u w₂) (hk : u.kind = .array ∨ u.kind = .object)
    (hu : u ∉ active) :
    copyFrom read resolve (fuel + 1) active trail v w₁ =
      ((w₂.contents u).mapM (fun e => copyFrom read resolve fuel (u :: active) (e.1.copyLabel :: trail) e.2) >>=
        w₂.rebuilt u) w₂ := by
  refine (Exec.bind_ok hsee).trans ?_
  cases u with
  | array a =>
    simp only [List.contains_iff_mem, if_neg hu, contents, List.mapM_map]
    rfl
  | object o =>
    simp only [List.contains_iff_mem, if_neg hu, contents, List.mapM_map]
    refine (congrArg (fun m => (m >>= Exec.newObject) w₂) (mapM_tagged _ Prod.fst (w₂.entries (.object o)))).trans ?_
    simp only [bind_assoc, pure_bind]
    rfl
  | context o =>
    simp only [List.contains_iff_mem, if_neg hu, contents, List.mapM_map]
    refine (congrArg (fun m => (m >>= Exec.newObject) w₂) (mapM_tagged _ Prod.fst (w₂.entries (.context o)))).trans ?_
    simp only [bind_assoc, pure_bind]
    rfl
  | _ => simp [Value.kind] at hk

/-- A leaf is its own copy. -/
theorem Value.Leaf.freshCopy (h : u.Leaf) (hv : v.behind? lead = some u) (hu : w.Knows u) (hg : w.Grown w₂)
    (hg₂ : w₁.Grown w₂) : w.FreshCopy lead w₁ v u w₂ where
  grown := hg₂
  mirrors := .leaf hv h
  allNew := .of_plain (w₂.slot?_of_leaf h.1 h.2.1) (fun c hc => h.2.1 (by rw [hc]; rfl)) h.2.2
  tree := .of_leaf (hu.grown hg) h.1 h.2.1

/-- The copy of a blob is a new one that is like it. -/
theorem newBlob_freshCopy {b : BlobId} (hv : v.behind? lead = some (.blob b)) (hb : w.Knows (.blob b))
    (hg : w.Grown w₁) : ∃ c w₂, Exec.newBlob (w₁.store.blob b) w₁ = .ok c w₂ ∧ w.FreshCopy lead w₁ v c w₂ := by
  have hg₂ : w₁.Grown { w₁ with store := (w₁.store.newBlob (w₁.store.blob b)).2 } := .ofStore (.newBlob _ _)
  have hhas : (w₁.store.newBlob (w₁.store.blob b)).1 < (w₁.store.newBlob (w₁.store.blob b)).2.blobs.size := by
    simp [Store.newBlob]
  refine ⟨_, _, rfl, hg₂, .blob hv hhas ?_, ?_, ?_⟩
  · have hnew : (w₁.store.newBlob (w₁.store.blob b)).2.blob w₁.store.blobs.size = w₁.store.blob b := by
      simp [Store.newBlob, Store.blob]
    have hold : w₁.store.blob b = w.store.blob b := (hb.agrees_grown hg).2 (.blob b) (by simp [touched, Value.own?])
    exact hnew.trans hold
  · refine .container (fun x hx => ?_) (by simp) fun s y hy => ?_
    · cases hx
      exact ⟨hhas, Nat.lt_irrefl _⟩
    · rw [slot?_of_leaf _ (by simp [Value.kind]) (by simp [Value.kind])] at hy
      cases hy
  · exact .of_leaf (World.knows_of_own _ rfl hhas) (by simp [Value.kind]) (by simp [Value.kind])

/-- A value that holds no others has a copy. -/
theorem copyFrom_outermost (hsee : seeThrough read resolve v w₁ = .ok u w₂) (ha : u.kind ≠ .array)
    (ho : u.kind ≠ .object) (hu : w.Knows u) (hv : v.behind? lead = some u) (hg : w.Grown w₁) (hg₂ : w₁.Grown w₂) :
    ∃ c w₃, copyFrom read resolve (fuel + 1) active trail v w₁ = .ok c w₃ ∧ w.FreshCopy lead w₁ v c w₃ := by
  have leaf (h : u.own? = none) (hrun : copyFrom read resolve (fuel + 1) active trail v w₁ = .ok u w₂) :
      ∃ c w₃, copyFrom read resolve (fuel + 1) active trail v w₁ = .ok c w₃ ∧ w.FreshCopy lead w₁ v c w₃ :=
    ⟨u, w₂, hrun, Value.Leaf.freshCopy ⟨ha, ho, h⟩ hv hu (hg.trans hg₂) hg₂⟩
  cases u with
  | array a => exact absurd rfl ha
  | object o => exact absurd rfl ho
  | context c => exact absurd rfl ho
  | blob b =>
    obtain ⟨c, w₃, hrun, hcopy⟩ := newBlob_freshCopy hv hu (hg.trans hg₂)
    exact ⟨c, w₃, (Exec.bind_ok hsee).trans hrun, hcopy.earlier hg₂⟩
  | _ => exact leaf rfl (Exec.bind_ok hsee)

/-- Where the search for cycles is clear, a copy can be made that has as many steps left as there are containers that
it is not inside of. -/
theorem copyFrom_clear (hr : Searchable read resolve lead w root) (h : w.Clear lead active v) (hm : w.Meets lead root v)
    (trail : List String) (hg : w.Grown w₁) (hn : active.Nodup) (ha : active ⊆ w.holders)
    (hf : w.holderCount < fuel + active.length) :
    ∃ c w₂, copyFrom read resolve fuel active trail v w₁ = .ok c w₂ ∧ w.FreshCopy lead w₁ v c w₂ := by
  induction h generalizing fuel trail w₁ with
  | @mk active v u hu hnew _ ih =>
    have hle := length_le_of_holders hn ha
    obtain ⟨fuel, rfl⟩ : ∃ m, fuel = m + 1 := ⟨fuel - 1, by omega⟩
    obtain ⟨z, w₂, hz, hrun, hg₂⟩ := hr.sees hm hg
    cases hu.symm.trans hz
    have hknows := hr.intact.knows u (hm.reaches hu)
    have hkeyed := hr.intact.keyed u (hm.reaches hu)
    by_cases hk : u.kind = .array ∨ u.kind = .object
    · have hparts : ∀ e ∈ w.contents u, ∀ w₁, w.Grown w₁ → ∃ c w₂,
          copyFrom read resolve fuel (u :: active) (e.1.copyLabel :: trail) e.2 w₁ = .ok c w₂ ∧
            w.FreshCopy lead w₁ e.2 c w₂ := by
        intro e he w₁ hg
        refine ih e he (hm.slot hu (slot?_of_mem_contents hkeyed he)) _ hg (List.nodup_cons.mpr ⟨hnew, hn⟩)
          (List.cons_subset.mpr ⟨mem_holders hknows hk, ha⟩) ?_
        rw [List.length_cons]
        omega
      obtain ⟨cs, w₃, hcs, hthreaded, hg₃⟩ := mapM_threaded FreshCopy.grown hparts (hg.trans hg₂)
      obtain ⟨c, w₄, hc, hkind, hnew'⟩ := rebuilt_container hkeyed hk hthreaded.length_eq w₃
      refine ⟨c, w₄, ?_, (FreshCopy.of_parts hu hk hkeyed hkind hthreaded hnew').earlier hg₂⟩
      rw [copyFrom_inside hrun hk hnew, contents_grown hknows (hg.trans hg₂), Exec.bind_ok hcs,
        rebuilt_grown hknows (hg.trans hg₂)]
      exact hc
    · obtain ⟨hka, hko⟩ := not_or.mp hk
      exact copyFrom_outermost hrun hka hko hknows hu hg hg₂

/-- Where the search for cycles comes back, a copy fails with the labels of the way there. -/
theorem copyFrom_finds (hr : Searchable read resolve lead w root) {way : List Slot} (h : w.Finds lead active v way)
    (hm : w.Meets lead root v) (trail : List String) (hg : w.Grown w₁) (hn : active.Nodup)
    (ha : active ⊆ w.holders ∧ ∀ u ∈ active, u.kind = .array ∨ u.kind = .object)
    (hf : w.holderCount < fuel + active.length) :
    ∃ w₂, copyFrom read resolve fuel active trail v w₁ = .error (.cycle (trail.reverse ++ way.map Slot.copyLabel)) w₂ ∧
      w₁.Grown w₂ := by
  induction h generalizing fuel trail w₁ with
  | @again active v u hu hmem =>
    have hle := length_le_of_holders hn ha.1
    obtain ⟨fuel, rfl⟩ : ∃ m, fuel = m + 1 := ⟨fuel - 1, by omega⟩
    obtain ⟨z, w₂, hz, hrun, hg₂⟩ := hr.sees hm hg
    cases hu.symm.trans hz
    refine ⟨w₂, ?_, hg₂⟩
    rw [copyFrom_again hrun (ha.2 u hmem) hmem, List.map_nil, List.append_nil]
  | @inside active v u front s y back way hu hnew hcontents hfront _ ih =>
    have hle := length_le_of_holders hn ha.1
    obtain ⟨fuel, rfl⟩ : ∃ m, fuel = m + 1 := ⟨fuel - 1, by omega⟩
    obtain ⟨z, w₂, hz, hrun, hg₂⟩ := hr.sees hm hg
    cases hu.symm.trans hz
    have hknows := hr.intact.knows u (hm.reaches hu)
    have hslot : ∀ e ∈ w.contents u, w.slot? u e.1 = some e.2 := fun e he =>
      slot?_of_mem_contents (hr.intact.keyed u (hm.reaches hu)) he
    have hs : w.slot? u s = some y := hslot (s, y) (by rw [hcontents]; simp)
    have hk := kind_of_slot? hs
    have hn' : (u :: active).Nodup := List.nodup_cons.mpr ⟨hnew, hn⟩
    have ha' : u :: active ⊆ w.holders := List.cons_subset.mpr ⟨mem_holders hknows hk, ha.1⟩
    have hf' : w.holderCount < fuel + (u :: active).length := by
      rw [List.length_cons]
      omega
    have hparts : ∀ e ∈ front, ∀ w₁, w.Grown w₁ → ∃ c w₂,
        copyFrom read resolve fuel (u :: active) (e.1.copyLabel :: trail) e.2 w₁ = .ok c w₂ ∧
          w.FreshCopy lead w₁ e.2 c w₂ := fun e he w₁ hg =>
      copyFrom_clear hr (hfront e he) (hm.slot hu (hslot e (by rw [hcontents]; simp [he]))) _ hg hn' ha' hf'
    obtain ⟨cs, w₃, hcs, -, hg₃⟩ := mapM_threaded FreshCopy.grown hparts (hg.trans hg₂)
    obtain ⟨w₄, hfail, hg₄⟩ := ih (hm.slot hu hs) (s.copyLabel :: trail) ((hg.trans hg₂).trans hg₃) hn'
      ⟨ha', List.forall_mem_cons.mpr ⟨hk, ha.2⟩⟩ hf'
    refine ⟨w₄, ?_, (hg₂.trans hg₃).trans hg₄⟩
    rw [copyFrom_inside hrun hk hnew, contents_grown hknows (hg.trans hg₂), hcontents]
    refine (Exec.bind_error (mapM_fails hcs hfail)).trans ?_
    rw [List.reverse_cons, List.append_assoc]
    rfl

/-! ### The copy and the value -/

namespace World

theorem matches_of_slots {R : Value → Value → Prop} (hk : c.kind = u.kind) (hu : u.kind = .array ∨ u.kind = .object)
    (h : ∀ s, (w.slot? c s).Rel R (w.slot? u s)) : w.Matches R c u := by
  rcases hu with hu | hu
  · cases u with
    | array a =>
      cases c with
      | array b =>
        refine .arrays (forall₂_of_getElem? fun i => ?_)
        rw [Array.getElem?_toList, Array.getElem?_toList]
        exact h (.index i)
      | _ => cases hk
    | _ => cases hu
  · exact .objects (hk.trans hu) hu fun k => h (.key k)

/-- A part of a copy beside what it was made of: the same, a blob like it, or a container with parts that are related
slot by slot. -/
inductive Parallel (w : World) (R : Value → Value → Prop) : Value → Value → Prop where
  | same {u : Value} : u.Leaf → Parallel w R u u
  | blobs {d b : BlobId} : w.Fit (.blob d) → w.Fit (.blob b) → w.store.blob d = w.store.blob b →
      Parallel w R (.blob d) (.blob b)
  | containers {c u : Value} : c.kind = u.kind → (u.kind = .array ∨ u.kind = .object) → w.Fit c → w.Fit u →
      (∀ s, (w.slot? c s).Rel R (w.slot? u s)) → Parallel w R c u

theorem Parallel.matches {R : Value → Value → Prop} (h : w.Parallel R c u) : c = u ∨ w.Matches R c u := by
  cases h with
  | same => exact .inl rfl
  | blobs _ _ h => exact .inr (.blobs (congrArg _ h) (congrArg _ h))
  | containers hk hu _ _ h => exact .inr (matches_of_slots hk hu h)

/-- A value and its copy, in the world after the copy. -/
def CopyOf (w w' : World) (lead : HandleId → Option Value) (root x y : Value) : Prop :=
  w.Meets lead root y ∧ w.Mirrors lead w' y x

theorem Fit.of_container (hk : w.Knows u) (hd : w.Keyed u) (hu : u.kind = .array ∨ u.kind = .object) : w.Fit u where
  knows := hk
  keyed := hd
  nodes x hx := by simp [hx, Value.kind] at hu
  number n hn := by simp [hn, Value.kind] at hu

theorem Fit.of_blob {b : BlobId} (hk : w.Knows (.blob b)) : w.Fit (.blob b) where
  knows := hk
  keyed o ho := by simp [touched, Value.own?] at ho
  nodes x hx := by cases hx
  number n hn := by cases hn

theorem Follows.grown {x : Value} (h : w.Follows read lead x) (hg : w.Grown w') : w'.Follows read lead x :=
  fun w₁ hg₁ => h w₁ (hg.trans hg₁)

end World

theorem Searchable.behind_cases (hr : Searchable read resolve lead w root) {y : Value} (hm : w.Meets lead root y)
    (hu : y.behind? lead = some u) : u = y ∨ ((∀ z, u ≠ .handle z) ∧ w.Follows read lead y) := by
  by_cases hh : ∃ h, y = .handle h
  · obtain ⟨h, rfl⟩ := hh
    obtain ⟨u', hu', hsee⟩ := hr.shows h hm
    cases hu.symm.trans hu'
    obtain ⟨w₂, hrun, -⟩ := hsee w (.refl w)
    cases resolve with
    | true => exact .inr ⟨followFrom_ok hrun, (hr.shows h hm).follows⟩
    | false =>
      cases hrun
      exact .inl rfl
  · rw [Value.behind?_of_not_handle lead fun h hy => hh ⟨h, hy⟩] at hu
    exact .inl (Option.some.inj hu).symm

theorem Searchable.follows (hr : Searchable read resolve lead w root) {y : Value} (hm : w.Meets lead root y)
    (hu : y.behind? lead = some u) (hnot : ∀ z, u ≠ .handle z) : w.Follows read lead y := by
  rcases hr.behind_cases hm hu with rfl | ⟨-, h⟩
  · exact follows_of_not_handle hnot
  · exact h

/-- A part of a copy and what it was made of are the same, or both are followed to what can be compared. -/
theorem Searchable.copyOf (hr : Searchable read resolve lead w root) {w' : World} (hg : w.Grown w') {x y : Value}
    (h : w.CopyOf w' lead root x y) : x = y ∨ (∀ z, x ≠ .handle z) ∧ w'.Follows read lead y ∧
      ∃ u, y.behind? lead = some u ∧ w'.Parallel (w.CopyOf w' lead root) x u := by
  obtain ⟨hm, hmir⟩ := h
  have hfit {u : Value} (hu : y.behind? lead = some u) (hk : u.kind = .array ∨ u.kind = .object) : w'.Fit u :=
    .of_container ((hr.intact.knows u (hm.reaches hu)).grown hg)
      ((hr.intact.keyed u (hm.reaches hu)).grown (hr.intact.knows u (hm.reaches hu)) hg) hk
  cases hmir with
  | leaf hu hleaf =>
    rcases hr.behind_cases hm hu with hsame | ⟨hnot, hfollows⟩
    · exact .inl hsame
    · exact .inr ⟨hnot, hfollows.grown hg, x, hu, .same hleaf⟩
  | @blob _ b d hu hd hsame =>
    have hb := hr.intact.knows _ (hm.reaches hu)
    have hold : w'.store.blob b = w.store.blob b := (hb.agrees_grown hg).2 (.blob b) (by simp [touched, Value.own?])
    exact .inr ⟨by simp, (hr.follows hm hu (by simp)).grown hg, _, hu,
      .blobs (.of_blob (w'.knows_of_own rfl hd)) (.of_blob (hb.grown hg)) (hsame.trans hold.symm)⟩
  | @container _ u _ hu hk hc hknows hkeyed hslots hparts =>
    have not_handle {z : Value} (hz : z.kind = .array ∨ z.kind = .object) (h : HandleId) : z ≠ .handle h := by
      rintro rfl
      simp [Value.kind] at hz
    refine .inr ⟨not_handle (hc ▸ hk), (hr.follows hm hu (not_handle hk)).grown hg, u, hu,
      .containers hc hk (.of_container hknows hkeyed (hc ▸ hk)) (hfit hu hk) fun s => ?_⟩
    rw [slot?_grown (hr.intact.knows u (hm.reaches hu)) hg]
    have hsome := hslots s
    cases hs : w.slot? u s with
    | none =>
      rw [hs, Option.isSome_none, Option.isSome_eq_false_iff, Option.isNone_iff_eq_none] at hsome
      rw [hsome]
      exact .none
    | some a =>
      rw [hs, Option.isSome_some] at hsome
      obtain ⟨b, hb⟩ := Option.isSome_iff_exists.mp hsome
      rw [hb]
      exact .some ⟨hm.slot hu hs, hparts s a b hs hb⟩

section Equality

variable {w' : World} (hr : Searchable read resolve lead w root) (hg : w.Grown w')
include hr hg

theorem Searchable.copyOf_isBisimulation : w'.IsBisimulation lead (w.CopyOf w' lead root) := by
  intro x y hxy
  rcases hr.copyOf hg hxy with hsame | ⟨hnot, -, u, hu, htwin⟩
  · exact .inl hsame
  · exact .inr ⟨x, u, Value.behind?_of_not_handle lead hnot, hu, htwin.matches⟩

/-- The parts of a copy that are not what they were made of can be compared with it. -/
theorem Searchable.copyOf_followed {x y : Value} (hxy : w.CopyOf w' lead root x y) (hone : isOne true x y = false) :
    x.behind? lead = some x ∧ w'.Follows read lead x ∧ w'.Follows read lead y ∧
      ∃ u, y.behind? lead = some u ∧ w'.Parallel (w.CopyOf w' lead root) x u := by
  rcases hr.copyOf hg hxy with rfl | ⟨hnot, hfollows, htwin⟩
  · rw [isOne_self] at hone
    cases hone
  · exact ⟨Value.behind?_of_not_handle lead hnot, follows_of_not_handle hnot, hfollows, htwin⟩

theorem Searchable.copyOf_compared : Compared read true lead w' (w.CopyOf w' lead root) where
  follows hxy hone := by
    obtain ⟨-, hx, hy, -⟩ := hr.copyOf_followed hg hxy hone
    exact ⟨hx, hy⟩
  fit hxy hone hu hv hone' := by
    obtain ⟨hx, -, -, u', hu', htwin⟩ := hr.copyOf_followed hg hxy hone
    cases hx.symm.trans hu
    cases hu'.symm.trans hv
    cases htwin with
    | same =>
      rw [isOne_self] at hone'
      cases hone'
    | blobs hd hb => exact ⟨hd, hb⟩
    | containers _ _ hc hu => exact ⟨hc, hu⟩
  parts {x y u v a b s} hxy hone hu hv hs ht := by
    obtain ⟨hx, -, -, u', hu', htwin⟩ := hr.copyOf_followed hg hxy hone
    cases hx.symm.trans hu
    cases hu'.symm.trans hv
    cases htwin with
    | same hleaf =>
      rw [slot?_of_leaf _ hleaf.1 hleaf.2.1] at hs
      cases hs
    | blobs => cases s <;> cases hs
    | containers _ _ _ _ hslots =>
      have hrel := hslots s
      rw [hs, ht] at hrel
      cases hrel with
      | some hab => exact hab

/-- The comparison of a copy with what it was made of does not fail. -/
theorem Searchable.copyOf_no_excuse {f : Fault} : ¬Excuse read true lead w' (w.CopyOf w' lead root) f := by
  intro h
  cases h with
  | unresolved hxy hone hz hnone =>
    obtain ⟨hx, -, -, u, hu, -⟩ := hr.copyOf_followed hg hxy hone
    rcases hz with rfl | rfl
    · cases hx.symm.trans hnone
    · cases hu.symm.trans hnone
  | @overflow x y u v n e hxy hu hv hone hn _ =>
    rcases hr.copyOf hg hxy with rfl | ⟨hnot, -, u', hu', htwin⟩
    · cases hu.symm.trans hv
      rw [isOne_self] at hone
      cases hone
    · cases (Value.behind?_of_not_handle lead hnot).symm.trans hu
      cases hu'.symm.trans hv
      cases htwin with
      | same =>
        rw [isOne_self] at hone
        cases hone
      | blobs => rcases hn with hn | hn <;> cases hn
      | containers hk hu =>
        rw [← hk] at hu
        rcases hn with rfl | rfl
        · simp [Value.kind] at hu
        · rw [hk] at hu
          simp [Value.kind] at hu

theorem Searchable.copy_equals (hcopy : w.Mirrors lead w' root c) :
    ∃ w'', equalsCopied read c root w' = .ok true w'' := by
  have hpair : w.CopyOf w' lead root c root := ⟨.self w lead root, hcopy⟩
  rcases equalValues_decides (hr.copyOf_compared hg) hpair with ⟨same, w'', hrun, -, hiff⟩ | ⟨f, -, -, -, hexcuse⟩
  · rw [hiff.mpr ⟨_, hr.copyOf_isBisimulation hg, hpair⟩] at hrun
    exact ⟨w'', hrun⟩
  · exact absurd hexcuse (hr.copyOf_no_excuse hg)

end Equality

/-! ### The handles of a copy -/

section Handles

variable {w' : World} {y z : Value}

/-- All that a copy contains mirrors something that has been met. -/
theorem World.Mirrors.contained (h : w.Mirrors lead w' y c) (hm : w.Meets lead root y) (hz : w'.Contains c z) :
    ∃ x, w.Meets lead root x ∧ w.Mirrors lead w' x z := by
  obtain ⟨way, hway⟩ := hz
  induction way generalizing y c with
  | nil =>
    cases hway
    exact ⟨y, hm, h⟩
  | cons s rest ih =>
    obtain ⟨b, hb, hrest⟩ := Option.bind_eq_some_iff.mp hway
    cases h with
    | leaf hu hleaf =>
      rw [slot?_of_leaf _ hleaf.1 hleaf.2.1] at hb
      cases hb
    | blob => cases s <;> cases hb
    | container hu _ _ _ _ hslots hparts =>
      have hsome := hslots s
      rw [hb, Option.isSome_some] at hsome
      obtain ⟨a, ha⟩ := Option.isSome_iff_exists.mp hsome.symm
      exact ih (hparts s a b ha hb) (hm.slot hu ha) hrest

theorem Searchable.not_handle (hr : Searchable read true lead w root) (hm : w.Meets lead root y)
    (hu : y.behind? lead = some u) (h : HandleId) : u ≠ .handle h := by
  rcases hr.behind_cases hm hu with rfl | ⟨hnot, -⟩
  · rintro rfl
    obtain ⟨z, hz, hsee⟩ := hr.shows h hm
    cases hu.symm.trans hz
    obtain ⟨w₂, hrun, -⟩ := hsee w (.refl w)
    exact followFrom_ok hrun h rfl
  · exact hnot h

theorem Searchable.copy_handleFree (hr : Searchable read true lead w root) (hcopy : w.Mirrors lead w' root c) :
    w'.HandleFree c := by
  rintro z hz h rfl
  obtain ⟨x, hm, hmir⟩ := hcopy.contained (.self w lead root) hz
  cases hmir with
  | leaf hu _ => exact hr.not_handle hm hu h rfl
  | container _ hk hc => exact absurd (hc ▸ hk) (by simp [Value.kind])

theorem Searchable.behind_self (hr : Searchable read false lead w root) (hm : w.Meets lead root y) :
    y.behind? lead = some y := by
  by_cases hh : ∃ h, y = .handle h
  · obtain ⟨h, rfl⟩ := hh
    obtain ⟨u, hu, hsee⟩ := hr.shows h hm
    obtain ⟨w₂, hrun, -⟩ := hsee w (.refl w)
    cases hrun
    exact hu
  · exact Value.behind?_of_not_handle lead fun h hy => hh ⟨h, hy⟩

/-- Where handles are not followed, a copy has the handles of the value in their places. -/
theorem Searchable.copy_handles (hr : Searchable read false lead w root) (hmir : w.Mirrors lead w' y c)
    (hm : w.Meets lead root y) (way : List Slot) (h : HandleId) :
    w'.at? way c = some (.handle h) ↔ w.at? way y = some (.handle h) := by
  induction way generalizing y c with
  | nil =>
    have hself := hr.behind_self hm
    cases hmir with
    | leaf hu =>
      cases hself.symm.trans hu
      rfl
    | blob hu =>
      cases hself.symm.trans hu
      simp [World.at?]
    | container hu hk hc =>
      cases hself.symm.trans hu
      constructor
      · rintro ⟨⟩
        exact absurd (hc ▸ hk) (by simp [Value.kind])
      · rintro ⟨⟩
        simp [Value.kind] at hk
  | cons s rest ih =>
    have hself := hr.behind_self hm
    cases hmir with
    | leaf hu hleaf =>
      cases hself.symm.trans hu
      simp only [World.at?, slot?_of_leaf _ hleaf.1 hleaf.2.1, Option.bind_none]
    | blob hu =>
      cases hself.symm.trans hu
      cases s <;> rfl
    | container hu _ _ _ _ hslots hparts =>
      cases hself.symm.trans hu
      have hsome := hslots s
      simp only [World.at?]
      cases ha : w.slot? y s with
      | none =>
        rw [ha, Option.isSome_none, Option.isSome_eq_false_iff, Option.isNone_iff_eq_none] at hsome
        rw [hsome]
        exact Iff.rfl
      | some a =>
        rw [ha, Option.isSome_some] at hsome
        obtain ⟨b, hb⟩ := Option.isSome_iff_exists.mp hsome
        rw [hb]
        exact ih (hparts s a b ha hb) (hm.slot hself ha)

end Handles

/-! ### Copies and cycles -/

/-- Under keys that are texts, a copy has the labels of the search. -/
theorem World.Finds.labels {way : List Slot} (h : w.Finds lead active v way) (hm : w.Meets lead root v)
    (hi : w.Intact lead root) (hkeys : ∀ u, w.Reaches lead root u → ∀ e ∈ w.entries u, ∃ s, e.1 = .str s) :
    way.map Slot.copyLabel = way.map Slot.trailLabel := by
  induction h with
  | again => rfl
  | @inside active v u front s y back way hu _ hcontents _ _ ih =>
    have hmem : (s, y) ∈ w.contents u := by
      rw [hcontents]
      simp
    have hlabel : s.copyLabel = s.trailLabel := by
      cases s with
      | index i => rfl
      | key k =>
        have hnot : ∀ a, u ≠ .array a := by
          rintro a rfl
          obtain ⟨x, -, hx⟩ := List.mem_map.mp hmem
          cases hx
        rw [w.contents_of_not_array hnot] at hmem
        obtain ⟨e, he, hse⟩ := List.mem_map.mp hmem
        cases hse
        obtain ⟨t, ht⟩ := hkeys u (hm.reaches hu) e he
        rw [ht]
        rfl
    rw [List.map_cons, List.map_cons, hlabel,
      ih (hm.slot hu (slot?_of_mem_contents (hi.keyed u (hm.reaches hu)) hmem))]

/-- A deep copy is faithful. It fails just where the search for cycles finds one, with the trail of the search.
Otherwise the copy is deeply equal to the value; its containers and blobs are all new, and only one way leads to each of
them. Where handles are followed it has none, and else it has those of the value in their places. Either way, all that
was there before is left as it was. -/
theorem deepCopy_is_faithful (hr : Searchable read resolve lead w v)
    (hkeys : ∀ u, w.Reaches lead v u → ∀ e ∈ w.entries u, ∃ s, e.1 = .str s) :
    (∃ trail w₁ w', findCycle read resolve v w = .ok (some trail) w₁ ∧
        deepCopy read resolve v w = .error (.cycle trail) w' ∧ w.Grown w') ∨
      ∃ w₁ c w', findCycle read resolve v w = .ok none w₁ ∧ deepCopy read resolve v w = .ok c w' ∧ w.Grown w' ∧
        (∃ w'', equalsCopied read c v w' = .ok true w'') ∧ w.AllNew w' c ∧ w'.TreeShaped c ∧
        (resolve = true → w'.HandleFree c) ∧
        (resolve = false → ∀ way h, w'.at? way c = some (.handle h) ↔ w.at? way v = some (.handle h)) := by
  have hm : w.Meets lead v v := .self w lead v
  have hroom : w.holderCount < w.holderCount + 2 + ([] : List Value).length := by simp
  obtain ⟨w₁, -, ⟨hclear, hfound⟩ | ⟨way, hfinds, hfound⟩⟩ := findCycle_ends hr
  · obtain ⟨c, w', hrun, hcopy⟩ :=
      copyFrom_clear hr hclear hm ["root"] (.refl w) List.nodup_nil (List.nil_subset _) hroom
    refine .inr ⟨w₁, c, w', hfound, hrun, hcopy.grown, hr.copy_equals hcopy.grown hcopy.mirrors, hcopy.allNew,
      hcopy.tree.treeShaped, ?_, ?_⟩
    · rintro rfl
      exact hr.copy_handleFree hcopy.mirrors
    · rintro rfl
      exact hr.copy_handles hcopy.mirrors hm
  · obtain ⟨w', hrun, hg⟩ := copyFrom_finds hr hfinds hm ["root"] (.refl w) List.nodup_nil
      ⟨List.nil_subset _, by simp⟩ hroom
    rw [hfinds.labels hm hr.intact hkeys] at hrun
    exact .inl ⟨_, w₁, w', hfound, hrun, hg⟩

namespace ringWorld

theorem copyable : Searchable (Engine.full .plain).readHandle false (some ∘ .handle) ringWorld (.object 0) where
  intact := closed.intact distinct (fun x u hu => Option.some.inj hu ▸ knows_handle x) (knows_object (by decide))
  shows h _ := ringWorld.shows_itself _ h

theorem key_is_text {o : ObjectId} {e : Key × Value} (h : e ∈ ringWorld.store.object o) : ∃ s, e.1 = .str s := by
  match o with
  | 0 => exact ⟨"a", congrArg _ (List.mem_singleton.mp h)⟩
  | 1 => exact ⟨"a", congrArg _ (List.mem_singleton.mp h)⟩
  | o + 2 => cases h

theorem not_context {u : Value} (h : ringWorld.Reaches (some ∘ .handle) (.object 0) u) (c : ViewId) :
    u ≠ .context c := by
  refine h.kept (P := fun u => u ≠ .context c) (fun z hz => ?_) fun z s x _ hx => ?_
  · cases hz
    simp
  · obtain ⟨y, hy, hyx⟩ := Option.bind_eq_some_iff.mp hx
    rcases slot_cases hy with rfl | rfl | rfl | rfl <;> cases hyx <;> simp

end ringWorld

/-- The copy of an object that holds itself through a handle has this handle, if handles are not followed. -/
theorem ring_is_copied : ∃ c w', deepCopy (Engine.full .plain).readHandle false (.object 0) ringWorld = .ok c w' ∧
    w'.at? [.key (.str "a"), .index 0] c = some (.handle 0) := by
  have hfound : findCycle (Engine.full .plain).readHandle false (.object 0) ringWorld = .ok none ringWorld := rfl
  have hkeys : ∀ u, ringWorld.Reaches (some ∘ .handle) (.object 0) u →
      ∀ e ∈ ringWorld.entries u, ∃ s, e.1 = .str s := by
    intro u hu e he
    cases u with
    | object o => exact ringWorld.key_is_text he
    | context c => exact absurd rfl (ringWorld.not_context hu c)
    | _ => cases he
  rcases deepCopy_is_faithful ringWorld.copyable hkeys with
    ⟨trail, w₁, w', hcycle, -⟩ | ⟨w₁, c, w', -, hrun, -, -, -, -, -, hhandles⟩
  · cases hfound.symm.trans hcycle
  · exact ⟨c, w', hrun, (hhandles rfl _ 0).mpr rfl⟩

end EventScript
