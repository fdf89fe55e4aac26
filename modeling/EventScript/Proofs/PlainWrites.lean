import EventScript.Proofs.HandleChains

/-!
# Writes that meet no handle

What a write does that meets no handle and stores its value in one form, whatever room has been made. Such a write
replaces nothing that is there, but for text and nulls, and what was in the slot where its path ends.
-/

namespace EventScript

namespace Path

/-- What an operation makes of the value at the end of a path and a value that is stored as it is. -/
def applyPlain (limits : Limits) (op : WriteOp) (e cur : Value) : Exec Value :=
  match op with
  | .set | .setRaw => pure e
  | .setUnless => if cur.isNull then pure e else pure cur
  | .append => appendValue limits cur e
  | .appendArray => appendElements limits cur e
  | .blobExtend => extendBlob cur e

/-- Writes a value that is stored as it is, along parts where no handle is. -/
def writePlain (limits : Limits) (op : WriteOp) (e : Value) : List Part → Value → Exec Value
  | [], cur => applyPlain limits op e cur
  | part :: rest, cur => writeInto limits "" part cur (writePlain limits op e rest)

variable {h : HandleAccess} {limits : Limits} {text : String} {op : WriteOp} {v e cur new : Value} {w w' : World}

/-- A value is stored in one form whatever room has been made, and nothing else happens. -/
def StoredAs (read : HandleId → Exec Value) (limits : Limits) (op : WriteOp) (w : World) (v e : Value) : Prop :=
  ∀ m, w.Padded m → stored read limits op v m = .ok e m

theorem storedAs_plain (read : HandleId → Exec Value) (limits : Limits) (op : WriteOp) (w : World)
    (hv : ∀ x, v ≠ .handle x) :
    StoredAs read limits op w v (if op = .setRaw then v else v.orNull) :=
  fun m _ => congrFun (stored_of_not_handle read limits op hv) m

theorem applyOp_plain (hv : StoredAs h.read limits op w v e) (hc : ∀ x, cur ≠ .handle x) :
    applyOp h limits op cur v w = applyPlain limits op e cur w := by
  have hrun := hv w (.refl w)
  rw [applyOp_eq h limits op v hc]
  cases op with
  | set => exact hrun
  | setRaw => exact hrun
  | setUnless =>
    unfold applyPlain
    dsimp only
    split
    · exact hrun
    · rfl
  | _ => exact Exec.bind_ok hrun

/-- A write that meets no handle and stores its value in one form comes to what the plain one comes to. -/
theorem writeParts_plain {parts : List Part} (hv : StoredAs h.read limits op w v e)
    (hh : ∀ y, y ∈ w.passed parts cur ∨ y = w.target parts cur → ∀ x, y ≠ .handle x) :
    writeParts h limits text op v parts cur w = .ok new w' ↔ writePlain limits op e parts cur w = .ok new w' := by
  induction parts generalizing cur w new w' with
  | nil =>
    change applyOp h limits op cur v w = _ ↔ applyPlain limits op e cur w = _
    rw [applyOp_plain hv (hh cur (.inr rfl))]
  | cons part rest ih =>
    rw [writeParts_cons h limits text op v part rest (hh cur (.inl List.mem_cons_self)), writePlain]
    by_cases ha : Admits limits cur part
    · obtain ⟨v₀, m, ho, hrun⟩ := writeInto_opened ha w
      obtain ⟨hpassed, htarget, -⟩ := ho.padded.trail rest (w.next cur part)
      have hi (u : Value) (w₁ : World) : writeParts h limits text op v rest (w.next cur part) m = .ok u w₁ ↔
          writePlain limits op e rest (w.next cur part) m = .ok u w₁ := by
        refine ih (fun m' hm => hv m' (ho.padded.trans hm)) fun y hy => hh y ?_
        rw [hpassed, htarget] at hy
        exact hy.imp_left (List.mem_cons_of_mem _)
      rw [hrun, hrun]
      cases hp : writePlain limits op e rest (w.next cur part) m with
      | ok u w₁ => rw [(hi u w₁).mpr hp]
      | error f w₁ =>
        cases hq : writeParts h limits text op v rest (w.next cur part) m with
        | ok u w₂ =>
          rw [(hi u w₂).mp hq] at hp
          cases hp
        | error f' w₂ => exact ⟨nofun, nofun⟩
    · obtain ⟨f, hf⟩ := ((writeInto_run limits text part cur w).resolve_right fun h => ha h.1).2
      obtain ⟨f', hf'⟩ := ((writeInto_run limits "" part cur w).resolve_right fun h => ha h.1).2
      rw [hf, hf']
      exact ⟨nofun, nofun⟩

theorem writePlain_cons_ok {part : Part} {rest : List Part}
    (hrun : writePlain limits op e (part :: rest) cur w = .ok new w') :
    Admits limits cur part ∧ ∃ m new₁ w₁, w.Opened cur part new m ∧
      writePlain limits op e rest (w.next cur part) m = .ok new₁ w₁ ∧
      w' = w₁.linked new part (w.next cur part) new₁ := by
  unfold writePlain at hrun
  rcases writeInto_run limits "" part cur w with ⟨-, f, hf⟩ | ⟨hadmits, v₀, m, ho, hstep⟩
  · rw [hf] at hrun
    cases hrun
  rw [hstep] at hrun
  cases hi : writePlain limits op e rest (w.next cur part) m with
  | error f w₁ =>
    rw [hi] at hrun
    cases hrun
  | ok new₁ w₁ =>
    rw [hi] at hrun
    cases hrun
    exact ⟨hadmits, m, new₁, w₁, ho, hi, rfl⟩

theorem writePlain_same {parts : List Part} (hp : parts ≠ []) (hn : cur.isNull = false)
    (hrun : writePlain limits op e parts cur w = .ok new w') : new = cur := by
  cases parts with
  | nil => exact absurd rfl hp
  | cons part rest =>
    obtain ⟨-, m, new₁, w₁, ho, -, -⟩ := writePlain_cons_ok hrun
    exact ho.same hn

/-- A write that works could go all along its path. -/
theorem writePlain_admits {parts : List Part} (hrun : writePlain limits op e parts cur w = .ok new w') :
    ∀ s ∈ w.steps parts cur, Admits limits s.1 s.2.1 := by
  induction parts generalizing cur new w w' with
  | nil => nofun
  | cons part rest ih =>
    obtain ⟨hadmits, m, new₁, w₁, ho, hi, -⟩ := writePlain_cons_ok hrun
    have hsteps : m.steps rest (w.next cur part) = w.steps rest (w.next cur part) :=
      (World.way_congr fun s _ => ho.padded.next s.1 s.2.1).1
    refine List.forall_mem_cons.mpr ⟨hadmits, ?_⟩
    rw [← hsteps]
    exact ih hi

/-- The operation at the end of the path has worked. -/
theorem writePlain_applies {parts : List Part} (hrun : writePlain limits op e parts cur w = .ok new w') :
    ∃ m new₁ w₁, applyPlain limits op e (w.target parts cur) m = .ok new₁ w₁ := by
  induction parts generalizing cur new w w' with
  | nil => exact ⟨w, new, w', hrun⟩
  | cons part rest ih =>
    obtain ⟨-, m, new₁, w₁, ho, hi, -⟩ := writePlain_cons_ok hrun
    have htarget := (ho.padded.trail rest (w.next cur part)).2.1
    obtain ⟨m', new', w₂, h⟩ := ih hi
    rw [htarget] at h
    exact ⟨m', new', w₂, h⟩

end Path

/-- Whether an operation puts its value in the place of any other. -/
def WriteOp.replaces : WriteOp → Bool
  | .set | .setRaw => true
  | _ => false

/-- What no operation replaces but those that replace anything: all but null and text. -/
def Value.isFirm : Value → Bool
  | .null | .absent | .str _ => false
  | _ => true

theorem Value.isNull_of_firm {v : Value} (h : v.isFirm = true) : v.isNull = false := by
  cases v <;> first | rfl | cases h

namespace World

variable {w w' w'' : World} {S T : Spot → Prop}

/-- The value at a spot; null where there is none. -/
def valueIn (w : World) : Spot → Value
  | .cell c => (w.store.cell c).value
  | .slot (.array a) (.index i) => (w.store.array a).getD i .null
  | .slot (.object o) (.key k) => (Entries.get? k (w.store.object o)).getD .null
  | .slot _ _ => .null

theorem valueIn_congr {x : Place} (h : w.SameAt w' x) (s : Slot) : w'.valueIn (.slot x s) = w.valueIn (.slot x s) := by
  cases x with
  | array a =>
    cases s with
    | index i => exact congrArg (·.getD i .null) h
    | key k => rfl
  | object o =>
    cases s with
    | index i => rfl
    | key k => exact congrArg (fun es => (Entries.get? k es).getD .null) h
  | _ => rfl

theorem has_of_firm {x : Place} {s : Slot} (h : (w.valueIn (.slot x s)).isFirm = true) : w.Has x := by
  refine Decidable.byContradiction fun hx => ?_
  cases x with
  | array a =>
    have hnone : w.store.array a = #[] := by
      unfold Store.array
      rw [Array.getD_eq_getD_getElem?, Array.getElem?_eq_none (Nat.not_lt.mp hx)]
      rfl
    cases s with
    | index i =>
      simp only [valueIn, hnone] at h
      cases h
    | key k => cases h
  | object o =>
    have hnone : w.store.object o = [] := by
      unfold Store.object
      rw [Array.getD_eq_getD_getElem?, Array.getElem?_eq_none (Nat.not_lt.mp hx)]
      rfl
    cases s with
    | index i => cases h
    | key k =>
      simp only [valueIn, hnone] at h
      cases h
  | _ => cases h

/-- Only what is at the spots of a set, null and text may have been replaced, and no entry is gone. -/
structure Retains (S : Spot → Prop) (w w' : World) : Prop where
  value : ∀ σ, ¬S σ → (w.valueIn σ).isFirm = true → w'.valueIn σ = w.valueIn σ
  entry : ∀ o k, (Entries.get? k (w.store.object o)).isSome = true →
    (Entries.get? k (w'.store.object o)).isSome = true
  rest : w' = { w with store := { w.store with
    arrays := w'.store.arrays, objects := w'.store.objects, blobs := w'.store.blobs } }

namespace Retains

theorem refl (S : Spot → Prop) (w : World) : w.Retains S w where
  value _ _ _ := rfl
  entry _ _ := id
  rest := rfl

theorem trans (h : w.Retains S w') (k : w'.Retains S w'') : w.Retains S w'' where
  value σ hσ hf := by
    have h₁ := h.value σ hσ hf
    rw [← h₁] at hf
    rw [k.value σ hσ hf, h₁]
  entry o l hl := k.entry o l (h.entry o l hl)
  rest := by
    have hk := k.rest
    rw [h.rest] at hk
    exact hk

theorem mono (h : w.Retains S w') (hS : ∀ σ, S σ → (w.valueIn σ).isFirm = true → T σ) : w.Retains T w' where
  value σ hσ hf := h.value σ (fun hs => hσ (hS σ hs hf)) hf
  entry := h.entry
  rest := h.rest

theorem of_padded (h : w.Padded w') : w.Retains S w' where
  value σ _ _ := by
    cases σ with
    | cell c => rw [h.rest]; rfl
    | slot x s =>
      cases x with
      | array a =>
        cases s with
        | index i => exact h.next (.array a) (.index i)
        | key k => rfl
      | object o =>
        cases s with
        | index i => rfl
        | key k => simp only [valueIn, h.object]
      | _ => rfl
  entry o k hk := by rwa [h.object]
  rest := by
    have hr := h.rest
    rw [hr]

/-- Elements that are put behind those of an array replace nothing. -/
theorem setArray_append (w : World) (a : ArrayId) (xs : Array Value) :
    w.Retains S { w with store := w.store.setArray a (w.store.array a ++ xs) } where
  value σ _ hf := by
    cases σ with
    | cell c => rfl
    | slot x s =>
      by_cases hx : x = .array a
      · subst hx
        cases s with
        | index i =>
          change ((w.store.array a).getD i .null).isFirm = true at hf
          change ((w.store.setArray a _).array a).getD i .null = (w.store.array a).getD i .null
          rw [Store.array_setArray]
          split
          · rw [Array.getD_eq_getD_getElem?] at hf ⊢
            rw [Array.getD_eq_getD_getElem?]
            by_cases hi : i < (w.store.array a).size
            · rw [Array.getElem?_append_left hi]
            · rw [Array.getElem?_eq_none (Nat.not_lt.mp hi)] at hf
              cases hf
          · rfl
        | key k => rfl
      · exact valueIn_congr ((changedAt_setArray w a _).same x hx) s
  entry _ _ := id
  rest := rfl

theorem newArray (w : World) (xs : Array Value) : w.Retains S { w with store := (w.store.newArray xs).2 } where
  value σ _ hf := by
    cases σ with
    | cell c => rfl
    | slot x s => exact valueIn_congr ((World.Grown.ofStore (.newArray w.store xs)).sameAt (has_of_firm hf)) s
  entry _ _ := id
  rest := rfl

theorem setBlob (w : World) (b : BlobId) (x : Blob) :
    w.Retains S { w with store := w.store.setBlob b x } where
  value σ _ _ := by
    cases σ with
    | cell c => rfl
    | slot x s => cases x <;> rfl
  entry _ _ := id
  rest := rfl

theorem sameView (h : w.Retains S w') (v : Value) : w.SameView w' v := by
  intro c _
  rw [h.rest]
  exact ⟨rfl, fun _ _ => rfl⟩

theorem valueAt? (h : w.Retains S w') {v : Value} {k : Key} (hk : (w.valueAt? v k).isSome = true) :
    (w'.valueAt? v k).isSome = true := by
  cases v with
  | object o => exact h.entry o k hk
  | context c =>
    obtain ⟨t, ht, hsome⟩ := List.findSome?_isSome_iff.mp hk
    refine List.findSome?_isSome_iff.mpr ⟨t, (h.sameView (.context c)).chain ▸ ht, ?_⟩
    have hscope : w'.scope t = w.scope t := by
      rw [h.rest]
      rfl
    unfold contextOf
    rw [hscope]
    exact h.entry _ k hsome
  | _ => cases hk

end Retains

theorem Altered.valueIn (h : w.Altered S w') {σ : Spot} (hσ : ¬S σ) : w'.valueIn σ = w.valueIn σ := by
  cases σ with
  | cell c => exact congrArg Cell.value (h.cell c hσ)
  | slot x s =>
    cases x with
    | array a =>
      cases s with
      | index i => exact h.element a i hσ
      | key k => rfl
    | object o =>
      cases s with
      | index i => rfl
      | key k => exact congrArg (·.getD .null) (h.entry o k hσ)
    | _ => rfl

/-- Where there is more than null and text in the slot of a part, the part leads there. -/
theorem next_of_firm {v : Value} {part : Part} {p : Place} {s : Slot} (ho : Opens v part) (hp : w.placeOf v = some p)
    (hs : part.slot? = some s) (hf : (w.valueIn (.slot p s)).isFirm = true) :
    w.next v part = w.valueIn (.slot p s) := by
  cases part with
  | index i =>
    cases hs
    rcases ho with ho | ⟨⟨a, rfl⟩, -⟩
    · cases v <;> first | (cases ho; done) | cases hp
    · cases hp
      rfl
  | key k =>
    cases hs
    cases v with
    | object o =>
      cases hp
      rfl
    | context c =>
      cases hp
      obtain ⟨rest, hrest⟩ := w.chain_eq_cons (w.store.view c)
      change ((w.lookup? (w.store.view c) (.str k)).getD .null) = _
      change ((Entries.get? (.str k) (w.contextOf (w.store.view c))).getD .null).isFirm = true at hf
      change _ = (Entries.get? (.str k) (w.contextOf (w.store.view c))).getD .null
      unfold lookup?
      rw [hrest, List.findSome?_cons]
      cases hk : Entries.get? (.str k) (w.contextOf (w.store.view c)) with
      | some u => rfl
      | none =>
        rw [hk] at hf
        cases hf
    | _ => rcases ho with ho | ho <;> first | (cases ho; done) | cases hp
  | _ => exact ho.elim

/-- No entry goes away when something is linked. -/
theorem linked_entry {v : Value} {part : Part} {old new : Value} {o : ObjectId} {l : Key}
    (h : (Entries.get? l (w.store.object o)).isSome = true) :
    (Entries.get? l ((w.linked v part old new).store.object o)).isSome = true := by
  have insert (p : ObjectId) (k : String) :
      (Entries.get? l ((w.store.setObject p (Entries.insert (.str k) new (w.store.object p))).object o)).isSome =
        true := by
    rw [Store.object_setObject]
    split
    · rename_i hp
      rw [hp.1]
      by_cases hl : l = .str k
      · rw [hl, Entries.get?_insert_self]
        rfl
      · rwa [Entries.get?_insert_other hl]
    · exact h
  cases part with
  | index i => cases v <;> exact h
  | key k =>
    change (Entries.get? l ((if _ then w.withEntry v (.str k) new else w).store.object o)).isSome = true
    split
    · cases v with
      | object p => exact insert p k
      | context c => exact insert _ k
      | _ => exact h
    · exact h
  | _ => exact h

theorem linked_rest (w : World) (v : Value) (part : Part) (old new : Value) :
    w.linked v part old new = { w with store := { w.store with
      arrays := (w.linked v part old new).store.arrays, objects := (w.linked v part old new).store.objects
      blobs := (w.linked v part old new).store.blobs } } := by
  cases part with
  | index i => cases v <;> rfl
  | key k =>
    change (if _ then w.withEntry v (.str k) new else w) = _
    unfold linked
    dsimp only
    split
    · cases v <;> rfl
    · rfl
  | _ => rfl

theorem target_of_next {part : Part} {v : Value} (rest : List Part) (h : (w.next v part).isNull = true) :
    (w.target (part :: rest) v).isNull = true :=
  (target_isNull h : (w.target rest (w.next v part)).isNull = true)

theorem next_of_target {part : Part} {rest : List Part} {v : Value}
    (h : (w.target (part :: rest) v).isNull = false) : (w.next v part).isNull = false :=
  Bool.eq_false_iff.mpr fun hn => by
    rw [target_of_next rest hn] at h
    cases h

/-- The slot where a path from a value ends. -/
def EndsAt (w : World) (parts : List Part) (v : Value) (σ : Spot) : Prop :=
  ∃ front part p s, parts = front ++ [part] ∧ w.placeOf (w.target front v) = some p ∧ part.slot? = some s ∧
    σ = .slot p s

theorem Opens.slot? {v : Value} {part : Part} (h : Opens v part) : ∃ s, part.slot? = some s := by
  cases part <;> first | exact ⟨_, rfl⟩ | exact h.elim

end World

namespace Path

open World

variable {limits : Limits} {op : WriteOp} {e cur new : Value} {w w' : World}

theorem appendValue_retains (hrun : appendValue limits cur e w = .ok new w') :
    w.Retains (fun _ => False) w' ∧ (cur.isFirm = true → new = cur) := by
  unfold appendValue at hrun
  split at hrun
  · cases hrun
    exact ⟨.newArray w _, nofun⟩
  · cases hrun
    exact ⟨.newArray w _, nofun⟩
  · rename_i a
    obtain ⟨hr, hm⟩ := guarded_ok (c := limits.arraySize ≤ (w.store.array a).size) hrun
    rw [hm, Array.push_eq_append]
    exact ⟨.setArray_append w a _, fun _ => hr⟩
  · cases hrun
    exact ⟨.refl _ w, fun _ => rfl⟩
  · cases hrun
    exact ⟨.refl _ w, nofun⟩
  · cases hrun

theorem appendElements_retains (hrun : appendElements limits cur e w = .ok new w') :
    w.Retains (fun _ => False) w' ∧ (cur.isFirm = true → new = cur) := by
  unfold appendElements at hrun
  split at hrun
  · cases hrun
    exact ⟨.refl _ w, nofun⟩
  · cases hrun
    exact ⟨.refl _ w, nofun⟩
  · rename_i b a
    obtain ⟨hr, hm⟩ := guarded_ok (c := limits.arraySize < (w.store.array a).size + (w.store.array b).size) hrun
    rw [hm]
    exact ⟨.setArray_append w a _, fun _ => hr⟩
  · cases hrun
  · cases hrun
    exact ⟨.refl _ w, fun _ => rfl⟩

theorem extendBlob_retains (hrun : extendBlob cur e w = .ok new w') :
    w.Retains (fun _ => False) w' ∧ (cur.isFirm = true → new = cur) := by
  unfold extendBlob at hrun
  split at hrun
  · cases hrun
    exact ⟨.setBlob w _ _, fun _ => rfl⟩
  · cases hrun
  · cases hrun

theorem applyPlain_retains (hrun : applyPlain limits op e cur w = .ok new w') :
    w.Retains (fun _ => False) w' ∧ (cur.isFirm = true → op.replaces = false → new = cur) := by
  cases op with
  | set =>
    cases hrun
    exact ⟨.refl _ w, nofun⟩
  | setRaw =>
    cases hrun
    exact ⟨.refl _ w, nofun⟩
  | setUnless =>
    unfold applyPlain at hrun
    dsimp only at hrun
    split at hrun
    · rename_i hn
      cases hrun
      refine ⟨.refl _ w, fun hf => ?_⟩
      rw [Value.isNull_of_firm hf] at hn
      cases hn
    · cases hrun
      exact ⟨.refl _ w, fun _ _ => rfl⟩
  | append => exact (appendValue_retains hrun).imp_right fun h hf _ => h hf
  | appendArray => exact (appendElements_retains hrun).imp_right fun h hf _ => h hf
  | blobExtend => exact (extendBlob_retains hrun).imp_right fun h hf _ => h hf

/-- A write leaves all but null and text in place, unless the operation replaces what is in the slot at the end. -/
theorem writePlain_retains {parts : List Part} (hrun : writePlain limits op e parts cur w = .ok new w') :
    w.Retains (fun σ => op.replaces = true ∧ w.EndsAt parts cur σ) w' ∧
      (cur.isFirm = true → (parts = [] → op.replaces = false) → new = cur) := by
  induction parts generalizing cur new w w' with
  | nil =>
    obtain ⟨hw, hnew⟩ := applyPlain_retains hrun
    exact ⟨hw.mono fun _ h => h.elim, fun hf hop => hnew hf (hop rfl)⟩
  | cons part rest ih =>
    refine ⟨?_, fun hf _ => writePlain_same (by simp) (Value.isNull_of_firm hf) hrun⟩
    obtain ⟨hadmits, m, new₁, w₁, ho, hi, rfl⟩ := writePlain_cons_ok hrun
    obtain ⟨hw, hnew⟩ := ih hi
    obtain ⟨p, hp⟩ := ho.lands.2.placeOf m ho.lands.1
    obtain ⟨s, hs⟩ := ho.lands.2.slot?
    have hp₁ : w₁.placeOf new = some p := (hw.sameView new).placeOf.trans hp
    have hpadded : w.Retains (fun σ => op.replaces = true ∧ w.EndsAt (part :: rest) cur σ) m := .of_padded ho.padded
    have hrest : w.Retains (fun σ => op.replaces = true ∧ w.EndsAt (part :: rest) cur σ) w₁ := by
      refine hpadded.trans (hw.mono fun σ hσ _ => ⟨hσ.1, ?_⟩)
      obtain ⟨front, last, q, t, hparts, hq, ht, rfl⟩ := hσ.2
      rw [(ho.padded.trail front _).2.1, ho.padded.placeOf] at hq
      exact ⟨part :: front, last, q, t, congrArg (List.cons part) hparts, hq, ht, rfl⟩
    refine ⟨fun σ hσ hf => ?_, fun o k hk => linked_entry (hrest.entry o k hk), ?_⟩
    case refine_2 =>
      have hlinked := linked_rest w₁ new part (w.next cur part) new₁
      have hr := hrest.rest
      generalize w₁.linked new part (w.next cur part) new₁ = w₂ at hlinked ⊢
      rw [hr] at hlinked
      exact hlinked
    have hvalue := hrest.value σ hσ hf
    by_cases hslot : σ = .slot p s
    · subst hslot
      -- What is in the slot of the part already is linked to it again.
      have hn : cur.isNull = false := Bool.eq_false_iff.mpr fun hn => by
        obtain ⟨x, hx, hno, -⟩ := ho.fresh hn
        rw [placeOf_of_own m hx] at hp
        cases hp
        exact hno (has_of_firm hf)
      obtain rfl := ho.same hn
      rw [ho.padded.placeOf] at hp
      have hold := next_of_firm ho.opens hp hs hf
      have hnew₁ : new₁ = w.valueIn (.slot p s) := by
        rw [hold] at hnew
        refine hnew hf fun hend => Bool.eq_false_iff.mpr fun hop => hσ ⟨hop, ?_⟩
        subst hend
        exact ⟨[], part, p, s, rfl, hp, hs, rfl⟩
      rw [← hvalue] at hf
      have hnext := next_of_firm ho.lands.2 hp₁ hs hf
      rw [hold, hnew₁, linked_idle (hnext.trans hvalue) (Value.isNull_of_firm (hvalue ▸ hf))]
      exact hvalue
    · exact ((altered_linked hp₁ hs _ _).valueIn hslot).trans hvalue

/-- What a path ends at is what it leads to, if it is more than null and text. -/
theorem endsAt_value {parts : List Part} (ha : ∀ s ∈ w.steps parts cur, Admits limits s.1 s.2.1) {σ : Spot}
    (hσ : w.EndsAt parts cur σ) (hf : (w.valueIn σ).isFirm = true) : w.valueIn σ = w.target parts cur := by
  obtain ⟨front, part, p, s, rfl, hp, hs, rfl⟩ := hσ
  have hopens : Opens (w.target front cur) part := by
    refine (ha (w.target front cur, part, w.next (w.target front cur) part) ?_).1
    rw [steps_append]
    exact List.mem_append_right _ List.mem_cons_self
  rw [target_append]
  exact (next_of_firm hopens hp hs hf).symm

theorem writePlain_retains_null {parts : List Part} (hn : (w.target parts cur).isNull = true)
    (hrun : writePlain limits op e parts cur w = .ok new w') : w.Retains (fun _ => False) w' := by
  refine (writePlain_retains hrun).1.mono fun σ hσ hf => ?_
  have hvalue := endsAt_value (writePlain_admits hrun) hσ.2 hf
  rw [← hvalue, Value.isNull_of_firm hf] at hn
  cases hn

section Front

variable {front back : List Part} {v : Value} (ha : ∀ s ∈ w.steps front v, Admits limits s.1 s.2.1)
  (hn : (w.target front v).isNull = false)
include ha hn

/-- A write that leaves what the front of its path leads to in its place leaves all on the way in place. -/
theorem writePlain_front (hrun : writePlain limits op e back (w.target front v) w = .ok (w.target front v) w')
    (hl : ∀ s ∈ w.steps front v, w'.linked s.1 s.2.1 s.2.2 s.2.2 = w') :
    writePlain limits op e (front ++ back) v w = .ok v w' := by
  induction front generalizing v with
  | nil => exact hrun
  | cons part rest ih =>
    obtain ⟨ha₀, ha⟩ := List.forall_mem_cons.mp ha
    obtain ⟨hl₀, hl⟩ := List.forall_mem_cons.mp hl
    rw [List.cons_append, writePlain, writeInto_below "" ha₀ (next_of_target hn), ih ha hn hrun hl]
    dsimp only
    rw [hl₀]

theorem writePlain_front_fails {f : Fault} (hrun : writePlain limits op e back (w.target front v) w = .error f w') :
    writePlain limits op e (front ++ back) v w = .error f w' := by
  induction front generalizing v with
  | nil => exact hrun
  | cons part rest ih =>
    obtain ⟨ha₀, ha⟩ := List.forall_mem_cons.mp ha
    rw [List.cons_append, writePlain, writeInto_below "" ha₀ (next_of_target hn), ih ha hn hrun]

/-- A write that works and finds nothing to link on the front of its path is the write on the rest of it. -/
theorem writePlain_rest (hne : back ≠ []) (hrun : writePlain limits op e (front ++ back) v w = .ok new w')
    (hl : ∀ w₁, writePlain limits op e back (w.target front v) w = .ok (w.target front v) w₁ →
      ∀ s ∈ w.steps front v, w₁.linked s.1 s.2.1 s.2.2 s.2.2 = w₁) :
    writePlain limits op e back (w.target front v) w = .ok (w.target front v) w' := by
  cases hi : writePlain limits op e back (w.target front v) w with
  | error f w₁ =>
    rw [writePlain_front_fails ha hn hi] at hrun
    cases hrun
  | ok u w₁ =>
    obtain rfl := writePlain_same hne hn hi
    rw [writePlain_front ha hn hi (hl w₁ hi)] at hrun
    cases hrun
    rfl

end Front

end Path

namespace World

variable {w w' : World} {S : Spot → Prop} {limits : Limits} {parts : List Part} {v : Value}

theorem firm_of_opens {part : Part} (ho : Opens v part) (hn : v.isNull = false) : v.isFirm = true := by
  cases part with
  | index i =>
    obtain ⟨⟨a, rfl⟩, -⟩ := ho.resolve_left (by simp [hn])
    rfl
  | key k =>
    have hk := ho.resolve_left (by simp [hn])
    cases v <;> first | rfl | cases hk
  | _ => exact ho.elim

/-- What the steps of a path lead to is more than null and text, if the path leads to such a value. -/
theorem steps_firm (ha : ∀ s ∈ w.steps parts v, Path.Admits limits s.1 s.2.1)
    (hf : (w.target parts v).isFirm = true) : ∀ s ∈ w.steps parts v, s.2.2.isFirm = true := by
  induction parts generalizing v with
  | nil => nofun
  | cons part rest ih =>
    obtain ⟨-, ha⟩ := List.forall_mem_cons.mp ha
    refine List.forall_mem_cons.mpr ⟨?_, ih ha hf⟩
    cases rest with
    | nil => exact hf
    | cons second rest =>
      exact firm_of_opens (ha _ List.mem_cons_self).1 (next_of_target (Value.isNull_of_firm hf))

/-- Where a path goes through no slot of an array that may have been replaced, there is nothing to link on it. -/
theorem Retains.idle (h : w.Retains S w') (ha : ∀ s ∈ w.steps parts v, Path.Admits limits s.1 s.2.1)
    (hf : (w.target parts v).isFirm = true)
    (hS : ¬w.Crosses (fun σ => S σ ∧ ∃ a i, σ = .slot (.array a) (.index i)) parts v) :
    ∀ s ∈ w.steps parts v, w'.linked s.1 s.2.1 s.2.2 s.2.2 = w' := by
  intro st hst
  have hfirm := steps_firm ha hf st hst
  have hnext := steps_next hst
  refine linked_same (fun i hi => ?_) fun k hk => ?_
  · obtain ⟨u, part, child⟩ := st
    dsimp only at hi hnext hfirm ⊢
    subst hi
    cases u with
    | array a =>
      have hvalue := h.value (.slot (.array a) (.index i.toNat)) (fun hs => hS
        ⟨_, hst, _, rfl, .array a, List.mem_singleton_self _, hs, a, _, rfl⟩) (by rwa [← hnext] at hfirm)
      exact Eq.trans hvalue hnext
    | _ => exact hnext
  · refine h.valueAt? ?_
    rw [hk] at hnext
    cases hv : w.valueAt? st.1 (.str k) with
    | some u => rfl
    | none =>
      simp only [next, hv, Option.getD_none] at hnext
      rw [← hnext] at hfirm
      cases hfirm

/-- Where only null and text may have been replaced, there is nothing to link on any path to a value that is more. -/
theorem Retains.idle_all (h : w.Retains (fun _ => False) w')
    (ha : ∀ s ∈ w.steps parts v, Path.Admits limits s.1 s.2.1) (hf : (w.target parts v).isFirm = true) :
    ∀ s ∈ w.steps parts v, w'.linked s.1 s.2.1 s.2.2 s.2.2 = w' :=
  h.idle ha hf fun ⟨_, _, _, _, _, _, hS, _⟩ => hS

end World

end EventScript
