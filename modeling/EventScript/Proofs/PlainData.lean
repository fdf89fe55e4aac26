import EventScript.Proofs.DeepEquality
import EventScript.Proofs.JsonTexts
import EventScript.Proofs.ReadOnlyEvaluation

/-!
# Values that hold plain data

When a value holds a datum, with all of it in the store. Making the value of a datum gives such a value, and any two
values that hold one datum are deeply equal, whatever they share.
-/

namespace EventScript

theorem forall₂_of_mem {α β : Type} {R S : α → β → Prop} {xs : List α} {ys : List β} (h : List.Forall₂ R xs ys)
    (hS : ∀ x, ∀ y ∈ ys, R x y → S x y) : List.Forall₂ S xs ys := by
  induction h with
  | nil => exact .nil
  | cons hxy _ ih =>
    exact .cons (hS _ _ List.mem_cons_self hxy) (ih fun x y hy => hS x y (List.mem_cons_of_mem _ hy))

theorem exists_of_forall₂ {α β : Type} {R : α → β → Prop} {xs : List α} {ys : List β} (h : List.Forall₂ R xs ys) {x : α}
    (hx : x ∈ xs) : ∃ y ∈ ys, R x y := by
  induction h with
  | nil => cases hx
  | @cons _ y _ _ hxy _ ih =>
    rcases List.mem_cons.mp hx with rfl | hx
    · exact ⟨y, List.mem_cons_self, hxy⟩
    · obtain ⟨z, hz, hxz⟩ := ih hx
      exact ⟨z, List.mem_cons_of_mem _ hz, hxz⟩

theorem map_eq_of_forall₂ {α β γ : Type} {R : α → β → Prop} {f : α → γ} {xs xs' : List α} {ys : List β}
    (h : List.Forall₂ R xs ys) (h' : List.Forall₂ R xs' ys) (hf : ∀ x x', ∀ y ∈ ys, R x y → R x' y → f x = f x') :
    xs.map f = xs'.map f := by
  induction h generalizing xs' with
  | nil =>
    cases h'
    rfl
  | cons hxy _ ih =>
    cases h' with
    | cons hxy' h' =>
      rw [List.map_cons, List.map_cons, hf _ _ _ List.mem_cons_self hxy hxy',
        ih h' fun x x' y hy => hf x x' y (List.mem_cons_of_mem _ hy)]

theorem Number.eqv_int_self (i : Int) : (Number.int i).eqv (.int i) = true := by
  simp [eqv, order?, exact, Exact.order?]

theorem Entries.get?_congr {α β : Type} {f : α → β} {es fs : Entries α} (hkeys : es.map Prod.fst = fs.map Prod.fst)
    (hvalues : (es.map Prod.snd).map f = (fs.map Prod.snd).map f) (k : Key) :
    (get? k es).map f = (get? k fs).map f := by
  induction es generalizing fs with
  | nil =>
    cases fs with
    | nil => rfl
    | cons => cases hkeys
  | cons e rest ih =>
    cases fs with
    | nil => cases hkeys
    | cons e' rest' =>
      obtain ⟨hkey, hkeys⟩ := List.cons.inj hkeys
      obtain ⟨hvalue, hvalues⟩ := List.cons.inj hvalues
      rw [get?, get?, ← hkey]
      split
      · exact congrArg some hvalue
      · exact ih hkeys hvalues

theorem Entries.get?_of_mem {α : Type} {es : Entries α} (hkeys : ∀ e ∈ es, ∃ s, e.1 = .str s)
    (hnodup : (es.map Prod.fst).Nodup) {e : Key × α} (he : e ∈ es) : get? e.1 es = some e.2 := by
  induction es with
  | nil => cases he
  | cons e' rest ih =>
    obtain ⟨hnew, hnodup⟩ := List.nodup_cons.mp hnodup
    rw [get?]
    rcases List.mem_cons.mp he with rfl | he
    · rw [if_pos (Key.same_self _)]
    · obtain ⟨s, hs⟩ := hkeys e (List.mem_cons_of_mem _ he)
      have hne : ¬e.1.same e'.1 = true := fun h => by
        rw [hs, Key.same_str] at h
        exact hnew (List.mem_map.mpr ⟨e, he, hs.trans h.symm⟩)
      rw [if_neg hne]
      exact ih (fun x hx => hkeys x (List.mem_cons_of_mem _ hx)) hnodup he

/-- The datum that a value is by itself. -/
def Value.plain? : Value → Option Datum
  | .null => some .null
  | .bool b => some (.bool b)
  | .num n => some (.num n)
  | .str s => some (.str s)
  | _ => none

/-- No number is past the range of floating point numbers. -/
inductive Datum.Ranged : Datum → Prop where
  | null : Ranged .null
  | bool (b : Bool) : Ranged (.bool b)
  | num {n : Number} (h : n.inRange = .ok ()) : Ranged (.num n)
  | str (s : String) : Ranged (.str s)
  | array {items : List Datum} (h : ∀ d ∈ items, Ranged d) : Ranged (.array items)
  | object {entries : List (Key × Datum)} (h : ∀ e ∈ entries, Ranged e.2) : Ranged (.object entries)

namespace World

/-- A value holds a datum: its arrays and objects have the items and entries of the datum, in their order. -/
inductive Spells (w : World) : Value → Datum → Prop where
  | plain {v : Value} {d : Datum} (h : v.plain? = some d) : Spells w v d
  | array {a : ArrayId} {items : List Datum} (has : w.Has (.array a))
      (h : List.Forall₂ (Spells w) (w.store.array a).toList items) : Spells w (.array a) (.array items)
  | object {o : ObjectId} {entries : List (Key × Datum)} (has : w.Has (.object o))
      (keys : (w.store.object o).map Prod.fst = entries.map Prod.fst)
      (h : List.Forall₂ (Spells w) ((w.store.object o).map Prod.snd) (entries.map Prod.snd)) :
      Spells w (.object o) (.object entries)

variable {w w' : World} {v a b : Value} {d : Datum}

theorem Spells.eq_of_plain (h : w.Spells v d) (hd : ∀ items, d ≠ .array items) (hd' : ∀ entries, d ≠ .object entries) :
    v.plain? = some d := by
  cases h with
  | plain h => exact h
  | array => exact absurd rfl (hd _)
  | object => exact absurd rfl (hd' _)

theorem plain?_injective (ha : a.plain? = some d) (hb : b.plain? = some d) : a = b := by
  cases a <;> cases ha <;> cases b <;> cases hb <;> rfl

/-- A value holds what it held as long as all places are kept. -/
theorem Spells.kept (h : w.Spells v d) (hd : d.Exact) (hk : w.Keeps w') : w'.Spells v d := by
  induction hd generalizing v with
  | null | bool | int | str => exact .plain (h.eq_of_plain (by simp) (by simp))
  | array _ ih =>
    cases h with
    | plain h => cases v <;> cases h
    | array has h =>
      refine .array (hk.has has) ?_
      rw [show w'.store.array _ = w.store.array _ from hk.sameAt has]
      exact forall₂_of_mem h fun x y hy hxy => ih y hy hxy
  | object _ _ _ ih =>
    cases h with
    | plain h => cases v <;> cases h
    | object has keys h =>
      have hsame : w'.store.object _ = w.store.object _ := hk.sameAt has
      refine .object (hk.has has) (hsame ▸ keys) ?_
      rw [hsame]
      refine forall₂_of_mem h fun x y hy hxy => ?_
      obtain ⟨e, he, rfl⟩ := List.mem_map.mp hy
      exact ih e he hxy

/-- Values that hold one datum unfold alike. -/
theorem Spells.unfold_eq (ha : w.Spells a d) (hb : w.Spells b d) (hd : d.Exact) : w.unfold a = w.unfold b := by
  induction hd generalizing a b with
  | null | bool | int | str =>
    rw [plain?_injective (ha.eq_of_plain (by simp) (by simp)) (hb.eq_of_plain (by simp) (by simp))]
  | array _ ih =>
    cases ha with
    | plain h => cases a <;> cases h
    | array _ ha =>
    cases hb with
    | plain h => cases b <;> cases h
    | array _ hb =>
      have hitems := map_eq_of_forall₂ ha hb fun x x' y hy => ih y hy
      rw [World.unfold_eq, World.unfold_eq]
      congr 1
      · exact congrArg Shape.array (ha.length_eq.trans hb.length_eq.symm)
      · funext s
        cases s with
        | key k => rfl
        | index i =>
          have hi := congrArg (·[i]?) hitems
          simp only [List.getElem?_map, Array.getElem?_toList] at hi
          exact hi
  | object _ _ _ ih =>
    cases ha with
    | plain h => cases a <;> cases h
    | object _ hkeys ha =>
    cases hb with
    | plain h => cases b <;> cases h
    | object _ hkeys' hb =>
      have hvalues := map_eq_of_forall₂ ha hb fun x x' y hy hx hx' => by
        obtain ⟨e, he, rfl⟩ := List.mem_map.mp hy
        exact ih e he hx hx'
      have hkeys := hkeys.trans hkeys'.symm
      rw [World.unfold_eq, World.unfold_eq]
      congr 1
      · have hlength := congrArg List.length hkeys
        rw [List.length_map, List.length_map] at hlength
        exact congrArg Shape.object hlength
      · funext s
        cases s with
        | key k => exact Entries.get?_congr hkeys hvalues k
        | index i => rfl

/-- What is in a slot of a value that holds a datum holds a part of the datum. -/
theorem Spells.slot? (h : w.Spells v d) (hd : d.Exact) (hr : d.Ranged) {s : Slot} {u : Value}
    (hs : w.slot? v s = some u) : ∃ d', w.Spells u d' ∧ d'.Exact ∧ d'.Ranged := by
  cases h with
  | plain h =>
    have hnone : w.slot? v s = none := by
      cases v <;> cases h <;> cases s <;> rfl
    rw [hnone] at hs
    cases hs
  | @array a items _ h =>
    cases hd with
    | array hd =>
    cases hr with
    | array hr =>
    cases s with
    | key k => cases hs
    | index i =>
      have hu : (w.store.array a).toList[i]? = some u := by
        rw [Array.getElem?_toList]
        exact hs
      obtain ⟨d', hmem, hspells⟩ := exists_of_forall₂ h (List.mem_of_getElem? hu)
      exact ⟨d', hspells, hd d' hmem, hr d' hmem⟩
  | object _ _ h =>
    cases hd with
    | object hd =>
    cases hr with
    | object hr =>
    cases s with
    | index i => cases hs
    | key k =>
      obtain ⟨k', hm⟩ := Entries.mem_of_get? hs
      obtain ⟨d', hmem, hspells⟩ := exists_of_forall₂ h (List.mem_map_of_mem hm)
      obtain ⟨e, he, rfl⟩ := List.mem_map.mp hmem
      exact ⟨e.2, hspells, hd e he, hr e he⟩

/-- All that a value contains that holds a datum holds parts of the datum. -/
theorem Spells.inside (h : w.Spells v d) (hd : d.Exact) (hr : d.Ranged) {y : Value} (hy : w.Contains v y) :
    ∃ d', w.Spells y d' ∧ d'.Exact ∧ d'.Ranged := by
  obtain ⟨way, hway⟩ := hy
  induction way generalizing v d with
  | nil =>
    cases hway
    exact ⟨d, h, hd, hr⟩
  | cons s rest ih =>
    obtain ⟨u, hs, hrest⟩ := Option.bind_eq_some_iff.mp hway
    obtain ⟨d', h', hd', hr'⟩ := h.slot? hd hr hs
    exact ih h' hd' hr' hrest

theorem Spells.number {n : Number} (h : w.Spells (.num n) d) : d = .num n := by
  cases h with
  | plain h =>
    cases h
    rfl

/-- A value that holds exact data can be compared, and all of it is there. -/
theorem Spells.comparable (h : w.Spells v d) (hd : d.Exact) (hr : d.Ranged) : w.Comparable v where
  whole y hy := by
    obtain ⟨d', h', -, -⟩ := h.inside hd hr hy
    cases h' with
    | array has => exact w.knows_of_own rfl has
    | object has => exact w.knows_of_own rfl has
    | plain hp =>
      refine ⟨fun x hx => ?_, fun c hc => ?_⟩
      · cases y <;> cases hp <;> cases hx
      · rw [hc] at hp
        cases hp
  inRange n hn := by
    obtain ⟨d', h', -, hr'⟩ := h.inside hd hr hn
    rw [h'.number] at hr'
    cases hr' with
    | num h => exact h
  noView c hc := by
    obtain ⟨d', h', -, -⟩ := h.inside hd hr hc
    cases h' with
    | plain hp => cases hp

theorem Spells.orderly (h : w.Spells v d) (hd : d.Exact) (hr : d.Ranged) : w.Orderly v where
  entries y hy e he := by
    obtain ⟨d', h', hd', -⟩ := h.inside hd hr hy
    cases h' with
    | array => cases he
    | @object o entries _ keys _ =>
      cases hd' with
      | object _ hkeys hnodup =>
        refine Entries.get?_of_mem (fun e he => ?_) (keys ▸ hnodup) he
        obtain ⟨e', he', hkey⟩ := List.mem_map.mp (keys ▸ List.mem_map_of_mem (f := Prod.fst) he)
        exact hkey ▸ hkeys e' he'
    | plain hp => cases y <;> cases hp <;> cases he
  numbers n hn := by
    obtain ⟨d', h', hd', -⟩ := h.inside hd hr hn
    rw [h'.number] at hd'
    cases hd' with
    | int _ => exact .inr (Number.eqv_int_self _)

theorem Spells.deepEqual (ha : w.Spells a d) (hb : w.Spells b d) (hd : d.Exact) (hr : d.Ranged)
    (read : HandleId → Exec Value) : EventScript.deepEqual read a b w = .ok true w :=
  (deepEqual_of_unfold_eq read (ha.unfold_eq hb hd) (ha.orderly hd hr)).2 (ha.comparable hd hr)
    (hb.comparable hd hr).whole

end World

/-! ### Making values of data -/

section Making

variable {w : World}

/-- Making the value of a datum works, adds to the world, and gives a value that holds the datum. -/
def Makes (d : Datum) : Prop := ∀ w, ∃ v w', ofDatum d w = .ok v w' ∧ w.Grown w' ∧ w'.Spells v d

theorem spells_grown {w' : World} {vs : List Value} {ds : List Datum} (h : List.Forall₂ w.Spells vs ds)
    (hd : ∀ d ∈ ds, d.Exact) (hg : w.Grown w') : List.Forall₂ w'.Spells vs ds :=
  forall₂_of_mem h fun _ d hmem hspells => hspells.kept (hd d hmem) hg.keeps

theorem ofData_spells {items : List Datum} (hd : ∀ d ∈ items, d.Exact) (h : ∀ d ∈ items, Makes d) (w : World) :
    ∃ vs w', ofData items w = .ok vs w' ∧ w.Grown w' ∧ List.Forall₂ w'.Spells vs items := by
  induction items generalizing w with
  | nil => exact ⟨[], w, rfl, .refl w, .nil⟩
  | cons d rest ih =>
    obtain ⟨v, w₁, hv, hg₁, hspells⟩ := h d List.mem_cons_self w
    obtain ⟨vs, w₂, hvs, hg₂, hrest⟩ := ih (fun x hx => hd x (List.mem_cons_of_mem _ hx))
      (fun x hx => h x (List.mem_cons_of_mem _ hx)) w₁
    refine ⟨v :: vs, w₂, ?_, hg₁.trans hg₂, .cons (hspells.kept (hd d List.mem_cons_self) hg₂.keeps) hrest⟩
    rw [ofData, Exec.bind_ok hv, Exec.bind_ok hvs]
    rfl

theorem ofDatumEntries_spells {entries : List (Key × Datum)} (hd : ∀ e ∈ entries, e.2.Exact)
    (h : ∀ e ∈ entries, Makes e.2) (w : World) :
    ∃ es w', ofDatumEntries entries w = .ok es w' ∧ w.Grown w' ∧ es.map Prod.fst = entries.map Prod.fst ∧
      List.Forall₂ w'.Spells (es.map Prod.snd) (entries.map Prod.snd) := by
  induction entries generalizing w with
  | nil => exact ⟨[], w, rfl, .refl w, rfl, .nil⟩
  | cons e rest ih =>
    obtain ⟨v, w₁, hv, hg₁, hspells⟩ := h e List.mem_cons_self w
    obtain ⟨es, w₂, hes, hg₂, hkeys, hrest⟩ := ih (fun x hx => hd x (List.mem_cons_of_mem _ hx))
      (fun x hx => h x (List.mem_cons_of_mem _ hx)) w₁
    refine ⟨(e.1, v) :: es, w₂, ?_, hg₁.trans hg₂, congrArg (e.1 :: ·) hkeys,
      .cons (hspells.kept (hd e List.mem_cons_self) hg₂.keeps) hrest⟩
    rw [ofDatumEntries, Exec.bind_ok hv, Exec.bind_ok hes]
    rfl

/-- The value made of exact data holds them. -/
theorem makes_of_exact {d : Datum} (hd : d.Exact) : Makes d := by
  induction hd with
  | null => exact fun w => ⟨.null, w, rfl, .refl w, .plain rfl⟩
  | bool b => exact fun w => ⟨.bool b, w, rfl, .refl w, .plain rfl⟩
  | int _ => exact fun w => ⟨_, w, rfl, .refl w, .plain rfl⟩
  | str s => exact fun w => ⟨.str s, w, rfl, .refl w, .plain rfl⟩
  | @array items h ih =>
    intro w
    obtain ⟨vs, w₁, hvs, hg₁, hspells⟩ := ofData_spells h ih w
    have hg : w₁.Grown { w₁ with store := (w₁.store.newArray vs.toArray).2 } := .ofStore (.newArray _ _)
    refine ⟨.array w₁.store.arrays.size, _, ?_, hg₁.trans hg, .array ?_ ?_⟩
    · rw [ofDatum, Exec.bind_ok hvs]
      rfl
    · simp [World.Has, Store.newArray]
    · have hitems : ((w₁.store.newArray vs.toArray).2.array w₁.store.arrays.size).toList = vs := by
        simp [Store.newArray, Store.array]
      rw [hitems]
      exact spells_grown hspells h hg
  | @object entries h keys nodup ih =>
    intro w
    obtain ⟨es, w₁, hes, hg₁, hkeys, hspells⟩ := ofDatumEntries_spells h ih w
    have hg : w₁.Grown { w₁ with store := (w₁.store.newObject es).2 } := .ofStore (.newObject _ _)
    have hlist : Entries.ofList es = es := by
      refine Entries.ofList_of_nodup (fun e he => ?_) (hkeys ▸ nodup)
      obtain ⟨e', he', hkey⟩ := List.mem_map.mp (hkeys ▸ List.mem_map_of_mem (f := Prod.fst) he)
      exact hkey ▸ keys e' he'
    have hentries : (w₁.store.newObject es).2.object w₁.store.objects.size = es := by
      simp [Store.newObject, Store.object]
    refine ⟨.object w₁.store.objects.size, _, ?_, hg₁.trans hg, .object ?_ ?_ ?_⟩
    · rw [ofDatum, Exec.bind_ok hes, hlist]
      rfl
    · simp [World.Has, Store.newObject]
    · rw [hentries]
      exact hkeys
    · rw [hentries]
      refine spells_grown hspells (fun d hd => ?_) hg
      obtain ⟨e, he, rfl⟩ := List.mem_map.mp hd
      exact h e he

end Making

end EventScript
