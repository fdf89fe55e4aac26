import EventScript.Proofs.ConcretePaths
import EventScript.Proofs.PlainData
import EventScript.Serialize

/-!
# Values told by JSON texts

The text of a value tells the tree of data that the value is once its handles are resolved as they are met, special
values shown as texts and null in place of what is not finite. Read again, the text gives a value that holds this tree,
in the same order, and that is deeply equal to every other value that holds it.
-/

namespace EventScript

namespace Datum

/-- Data whose numbers are whole or not finite, under different texts as keys. -/
inductive Portable : Datum → Prop where
  | null : Portable .null
  | bool (b : Bool) : Portable (.bool b)
  | int (i : Int) : Portable (.num (.int i))
  | unbounded {n : Number} (h : (n.isNan || n.infinite?.isSome) = true) : Portable (.num n)
  | str (s : String) : Portable (.str s)
  | array {items : List Datum} (h : ∀ d ∈ items, Portable d) : Portable (.array items)
  | object {entries : List (Key × Datum)} (h : ∀ e ∈ entries, Portable e.2) (keys : ∀ e ∈ entries, ∃ s, e.1 = .str s)
      (nodup : (entries.map Prod.fst).Nodup) : Portable (.object entries)

mutual

/-- A datum with null in place of every number that is not finite. -/
def settled : Datum → Datum
  | .null => .null
  | .bool b => .bool b
  | .num n => if n.isNan || n.infinite?.isSome then .null else .num n
  | .str s => .str s
  | .array items => .array (settledItems items)
  | .object entries => .object (settledEntries entries)

def settledItems : List Datum → List Datum
  | [] => []
  | d :: rest => d.settled :: settledItems rest

def settledEntries : List (Key × Datum) → List (Key × Datum)
  | [] => []
  | e :: rest => (e.1, e.2.settled) :: settledEntries rest

end

theorem settledItems_eq (ds : List Datum) : settledItems ds = ds.map settled := by
  induction ds with
  | nil => rw [settledItems]; rfl
  | cons d rest ih => rw [settledItems, ih]; rfl

theorem settledEntries_eq (es : List (Key × Datum)) : settledEntries es = es.map fun e => (e.1, e.2.settled) := by
  induction es with
  | nil => rw [settledEntries]; rfl
  | cons e rest ih => rw [settledEntries, ih]; rfl

theorem depthEntries_eq (es : List (Key × Datum)) : depthEntries es = depthItems (es.map Prod.snd) := by
  induction es with
  | nil => rfl
  | cons e rest ih => rw [depthEntries, List.map_cons, depthItems, ih]

theorem keys_settledEntries (es : List (Key × Datum)) : (settledEntries es).map Prod.fst = es.map Prod.fst := by
  rw [settledEntries_eq, List.map_map]
  rfl

/-- Settled data are exact if their numbers are in range. -/
theorem Portable.exact {d : Datum} (h : d.Portable) (hr : d.settled.Ranged) : d.settled.Exact := by
  induction h with
  | null => rw [settled]; exact .null
  | bool b => rw [settled]; exact .bool b
  | int i =>
    rw [settled] at hr ⊢
    cases hr with
    | num hr => exact .int (Number.inRange_short hr)
  | unbounded h => rw [settled, if_pos h]; exact .null
  | str s => rw [settled]; exact .str s
  | array _ ih =>
    rw [settled, settledItems_eq] at hr ⊢
    cases hr with | array hr
    refine .array fun d hd => ?_
    obtain ⟨d', hd', rfl⟩ := List.mem_map.mp hd
    exact ih d' hd' (hr _ hd)
  | object _ keys nodup ih =>
    rw [settled] at hr ⊢
    cases hr with | object hr
    refine .object (fun e he => ?_) (fun e he => ?_) (by rw [keys_settledEntries]; exact nodup)
    all_goals
      have hentry := hr e he
      rw [settledEntries_eq] at he
      obtain ⟨e', he', rfl⟩ := List.mem_map.mp he
    · exact ih e' he' hentry
    · exact keys e' he'

end Datum

/-- Computed one after the other, each in the world that the one before left behind. -/
inductive Threaded {α β : Type} (R : World → α → β → World → Prop) : World → List α → List β → World → Prop where
  | nil {w : World} : Threaded R w [] [] w
  | cons {w w₁ w' : World} {x : α} {y : β} {xs : List α} {ys : List β} (h : R w x y w₁)
      (rest : Threaded R w₁ xs ys w') : Threaded R w (x :: xs) (y :: ys) w'

theorem Threaded.length_eq {α β : Type} {R : World → α → β → World → Prop} {w w' : World} {xs : List α} {ys : List β}
    (h : Threaded R w xs ys w') : xs.length = ys.length := by
  induction h with
  | nil => rfl
  | cons _ _ ih => rw [List.length_cons, List.length_cons, ih]

/-- The text a special value is shown as: that of a blob is fixed where it is met, all others in the end. -/
def World.shown (last w : World) : Value → String
  | .blob b => (w.store.blob b).display
  | v => last.display v

/-- The tree of data that a value is once its handles are resolved, each in the world in which it is met. `w'` is the
world after the last one is; on the way to it containers of a copy have been made. Special values stand as the texts
they are shown as, where `last` is the world at the end of it all. -/
inductive Unrolls (read : HandleId → Exec Value) (last : World) : World → Value → Datum → World → Prop where
  | plain {w w' : World} {v u : Value} {d : Datum} (hu : follow read defaultHandleDepth v w = .ok u w')
      (hd : u.plain? = some d) : Unrolls read last w v d w'
  | special {w w₁ w' : World} {v u : Value} (hu : follow read defaultHandleDepth v w = .ok u w₁)
      (hkind : u.kind = .special) (hg : w₁.Grown w') : Unrolls read last w v (.str (last.shown w₁ u)) w'
  | array {w w₁ w₂ w' : World} {v : Value} {a : ArrayId} {items : List Datum}
      (hu : follow read defaultHandleDepth v w = .ok (.array a) w₁)
      (hitems : Threaded (Unrolls read last) w₁ (w₁.store.array a).toList items w₂) (hg : w₂.Grown w') :
      Unrolls read last w v (.array items) w'
  | object {w w₁ w₂ w' : World} {v u : Value} {entries : List (Key × Datum)}
      (hu : follow read defaultHandleDepth v w = .ok u w₁) (hkind : u.kind = .object)
      (hkeys : (w₁.entries u).map Prod.fst = entries.map Prod.fst)
      (hvalues : Threaded (Unrolls read last) w₁ ((w₁.entries u).map Prod.snd) (entries.map Prod.snd) w₂)
      (hg : w₂.Grown w') : Unrolls read last w v (.object entries) w'

/-- What a value unrolls to is told by the kind of what its handles lead to. -/
theorem Unrolls.cases_of_follow {read : HandleId → Exec Value} {last w w₁ w' : World} {v u : Value} {d : Datum}
    (hf : follow read defaultHandleDepth v w = .ok u w₁) (h : Unrolls read last w v d w') :
    (u.plain? = some d ∧ w' = w₁) ∨
    (u.kind = .special ∧ d = .str (last.shown w₁ u)) ∨
    (u.kind = .array ∧ ∃ items, d = .array items) ∨
    (u.kind = .object ∧ ∃ entries w₂, d = .object entries ∧ (w₁.entries u).map Prod.fst = entries.map Prod.fst ∧
      Threaded (Unrolls read last) w₁ ((w₁.entries u).map Prod.snd) (entries.map Prod.snd) w₂) := by
  cases h with
  | plain hf' hd =>
    rw [hf] at hf'
    cases hf'
    exact .inl ⟨hd, rfl⟩
  | special hf' hk =>
    rw [hf] at hf'
    cases hf'
    exact .inr (.inl ⟨hk, rfl⟩)
  | array hf' =>
    rw [hf] at hf'
    cases hf'
    exact .inr (.inr (.inl ⟨rfl, _, rfl⟩))
  | object hf' hk hkeys hvalues =>
    rw [hf] at hf'
    cases hf'
    exact .inr (.inr (.inr ⟨hk, _, _, rfl, hkeys, hvalues⟩))

section Copies

theorem World.Keeps.containerCount_le {w w' : World} (h : w.Keeps w') : w.containerCount ≤ w'.containerCount := by
  have harrays : w.store.arrays.size ≤ w'.store.arrays.size := by
    by_contra hlt
    exact Nat.lt_irrefl _ (h.has (x := .array w'.store.arrays.size) (Nat.lt_of_not_le hlt))
  have hobjects : w.store.objects.size ≤ w'.store.objects.size := by
    by_contra hlt
    exact Nat.lt_irrefl _ (h.has (x := .object w'.store.objects.size) (Nat.lt_of_not_le hlt))
  exact Nat.add_le_add harrays hobjects

/-- A copy `c` of a value stands for the tree that the value unrolls to: at the end of it all its plain datum is this
tree, settled, and the tree is no deeper than the containers made for the copy. -/
structure Copies (read : HandleId → Exec Value) (last w : World) (v : Value) (d : Datum) (c : Value) (w' : World) :
    Prop where
  unrolls : Unrolls read last w v d w'
  room : d.depth + w.containerCount ≤ w'.containerCount
  datum : ∀ n r, d.depth < n → last.datumFrom n c = .ok r → d.Portable → r = d.settled ∧ r.Ranged

variable {read : HandleId → Exec Value} {w w' last : World}

theorem Exec.mapM_cons_ok {α β : Type} {f : α → Exec β} {x : α} {xs : List α} {bs : List β}
    (h : (x :: xs).mapM f w = .ok bs w') :
    ∃ b w₁ bs', f x w = .ok b w₁ ∧ xs.mapM f w₁ = .ok bs' w' ∧ bs = b :: bs' := by
  rw [List.mapM_cons] at h
  obtain ⟨b, w₁, hb, h⟩ := Exec.bind_eq_ok h
  obtain ⟨bs', w₂, hbs, h⟩ := Exec.bind_eq_ok h
  cases h
  exact ⟨b, w₁, bs', hb, hbs, rfl⟩

theorem entries_ext {α β : Type} {es fs : List (α × β)} (hfst : es.map Prod.fst = fs.map Prod.fst)
    (hsnd : es.map Prod.snd = fs.map Prod.snd) : es = fs := by
  rw [← List.zip_unzip es, ← List.zip_unzip fs, List.unzip_eq_map, List.unzip_eq_map, hfst, hsnd]

theorem mapM_cons_ok {α β ε : Type} {f : α → Except ε β} {x : α} {xs : List α} {bs : List β}
    (h : (x :: xs).mapM f = .ok bs) : ∃ b bs', f x = .ok b ∧ xs.mapM f = .ok bs' ∧ bs = b :: bs' := by
  rw [List.mapM_cons] at h
  obtain ⟨b, hb, h⟩ := except_bind_eq_ok h
  obtain ⟨bs', hbs, h⟩ := except_bind_eq_ok h
  cases h
  exact ⟨b, bs', hb, hbs, rfl⟩

/-- Copies made one after the other stand for the trees that the values unroll to. -/
structure CopiesAll (read : HandleId → Exec Value) (last w : World) (vs : List Value) (ds : List Datum)
    (cs : List Value) (w' : World) : Prop where
  unrolls : Threaded (Unrolls read last) w vs ds w'
  room : Datum.depthItems ds + w.containerCount ≤ w'.containerCount
  datum : ∀ n rs, Datum.depthItems ds < n → cs.mapM (last.datumFrom n) = .ok rs → (∀ d ∈ ds, d.Portable) →
    rs = ds.map Datum.settled ∧ ∀ r ∈ rs, r.Ranged

theorem mapM_copies {α β : Type} {f : α → Exec β} (value : α → Value) (copy : β → Value)
    (hf : ∀ x w b w', w.CopiesForHost → f x w = .ok b w' → w.Keeps w' ∧
      ∀ last, w'.Keeps last → ∃ d, Copies read last w (value x) d (copy b) w')
    {xs : List α} {bs : List β} (hw : w.CopiesForHost) (hrun : xs.mapM f w = .ok bs w') :
    w.Keeps w' ∧ ∀ last, w'.Keeps last → ∃ ds, CopiesAll read last w (xs.map value) ds (bs.map copy) w' := by
  induction xs generalizing w bs with
  | nil =>
    cases hrun
    have hroom (m : World) : Datum.depthItems [] + m.containerCount ≤ m.containerCount :=
      Nat.le_of_eq (by rw [Datum.depthItems, Nat.zero_add])
    refine ⟨World.Tolerates.refl _, fun last _ => ⟨[], .nil, hroom _, fun n rs _ hrs _ => ?_⟩⟩
    cases hrs
    exact ⟨rfl, fun r hr => by cases hr⟩
  | cons x rest ih =>
    obtain ⟨b, w₁, bs', hb, hbs, rfl⟩ := Exec.mapM_cons_ok hrun
    obtain ⟨hk, hcopy⟩ := hf x w b w₁ hw hb
    obtain ⟨hk', hrest⟩ := ih (hk.copiesForHost hw) hbs
    refine ⟨hk.trans hk', fun last hlast => ?_⟩
    obtain ⟨d, hd⟩ := hcopy last (hk'.trans hlast)
    obtain ⟨ds, hds⟩ := hrest last hlast
    have hle := hk.containerCount_le
    have hle' := hk'.containerCount_le
    have hroom := hd.room
    have hroom' := hds.room
    refine ⟨d :: ds, .cons hd.unrolls hds.unrolls, ?_, fun n rs hn hrs hp => ?_⟩
    · rw [Datum.depthItems]
      omega
    · rw [Datum.depthItems] at hn
      obtain ⟨r, rs', hr, hrs', rfl⟩ := mapM_cons_ok hrs
      obtain ⟨rfl, hranged⟩ := hd.datum n r (by omega) hr (hp d List.mem_cons_self)
      obtain ⟨rfl, hall⟩ := hds.datum n rs' (by omega) hrs' fun d hd => hp d (List.mem_cons_of_mem _ hd)
      refine ⟨rfl, fun r hr => ?_⟩
      rcases List.mem_cons.mp hr with rfl | hr
      · exact hranged
      · exact hall r hr

theorem World.datumFrom_array {n : Nat} {a : ArrayId} {r : Datum} (h : last.datumFrom (n + 1) (.array a) = .ok r) :
    ∃ rs, (last.store.array a).toList.mapM (last.datumFrom n) = .ok rs ∧ r = .array rs := by
  obtain ⟨rs, hrs, h⟩ := except_bind_eq_ok h
  cases h
  exact ⟨rs, hrs, rfl⟩

/-- The plain data of entries are those of their values, under the texts of their keys. -/
theorem mapM_entries {f : Value → Except Number.Overflow Datum} {es : Entries Value} {rs : List (Key × Datum)}
    (h : (es.mapM fun e => do return (Key.str e.1.text, ← f e.2)) = .ok rs) :
    rs.map Prod.fst = es.map (fun e => Key.str e.1.text) ∧ (es.map Prod.snd).mapM f = .ok (rs.map Prod.snd) := by
  induction es generalizing rs with
  | nil =>
    cases h
    exact ⟨rfl, rfl⟩
  | cons e rest ih =>
    obtain ⟨r, rs', hr, hrs, rfl⟩ := mapM_cons_ok h
    obtain ⟨hkeys, hvalues⟩ := ih hrs
    obtain ⟨d, hd, hr⟩ := except_bind_eq_ok hr
    cases hr
    refine ⟨congrArg (_ :: ·) hkeys, ?_⟩
    rw [List.map_cons, List.mapM_cons, hd, hvalues]
    rfl

theorem World.datumFrom_object {n : Nat} {o : ObjectId} {r : Datum} (h : last.datumFrom (n + 1) (.object o) = .ok r) :
    ∃ rs, rs.map Prod.fst = (last.store.object o).map (fun e => Key.str e.1.text) ∧
      ((last.store.object o).map Prod.snd).mapM (last.datumFrom n) = .ok (rs.map Prod.snd) ∧
      r = .object (Entries.ofList rs) := by
  obtain ⟨rs, hrs, h⟩ := except_bind_eq_ok h
  cases h
  obtain ⟨hkeys, hvalues⟩ := mapM_entries hrs
  exact ⟨rs, hkeys, hvalues, rfl⟩

/-- A plain value is its own copy. -/
theorem plain_copies {v u : Value} {d : Datum} (hu : follow read defaultHandleDepth v w = .ok u w') (hk : w.Keeps w')
    (hd : u.plain? = some d) : Copies read last w v d u w' := by
  have hdepth : d.depth = 0 := by cases u <;> cases hd <;> rw [Datum.depth] <;> simp
  refine ⟨.plain hu hd, by rw [hdepth, Nat.zero_add]; exact hk.containerCount_le, fun n r hn hfrom _ => ?_⟩
  obtain ⟨n, rfl⟩ : ∃ m, n = m + 1 := ⟨n - 1, by omega⟩
  cases u <;> cases hd
  case null => cases hfrom; rw [Datum.settled]; exact ⟨rfl, .null⟩
  case bool b => cases hfrom; rw [Datum.settled]; exact ⟨rfl, .bool _⟩
  case str s => cases hfrom; rw [Datum.settled]; exact ⟨rfl, .str _⟩
  case num m =>
    obtain ⟨_, hrange, hfrom⟩ := except_bind_eq_ok hfrom
    cases hfrom
    rw [Datum.settled]
    refine ⟨rfl, ?_⟩
    split
    · exact .null
    · exact .num hrange

/-- A special value is shown as a text, and so is its copy. -/
theorem special_copies {w₁ : World} {v u c : Value} (hu : follow read defaultHandleDepth v w = .ok u w₁)
    (hk : w.Keeps w₁) (hkind : u.kind = .special) (hg : w₁.Grown w')
    (hc : ∀ n, last.datumFrom (n + 1) c = .ok (.str (last.shown w₁ u))) :
    Copies read last w v (.str (last.shown w₁ u)) c w' := by
  refine ⟨.special hu hkind hg, ?_, fun n r hn hfrom _ => ?_⟩
  · rw [Datum.depth, Nat.zero_add]
    · exact (hk.trans hg.keeps).containerCount_le
    all_goals simp
  · obtain ⟨n, rfl⟩ : ∃ m, n = m + 1 := ⟨n - 1, by omega⟩
    rw [hc] at hfrom
    cases hfrom
    rw [Datum.settled]
    exact ⟨rfl, .str _⟩

theorem mapM_keys {α β : Type} {f : Key × α → Exec (Key × β)}
    (hf : ∀ x w b w', f x w = .ok b w' → b.1 = x.1) {xs : List (Key × α)} {bs : List (Key × β)}
    (hrun : xs.mapM f w = .ok bs w') : bs.map Prod.fst = xs.map Prod.fst := by
  induction xs generalizing w bs with
  | nil =>
    cases hrun
    rfl
  | cons x rest ih =>
    obtain ⟨b, w₁, bs', hb, hbs, rfl⟩ := Exec.mapM_cons_ok hrun
    rw [List.map_cons, List.map_cons, hf x w b w₁ hb, ih hbs]

section Containers

variable {w₁ w₂ : World} {v c : Value} (hk : w.Keeps w₁)
include hk

/-- The new array of the copies of all items is a copy of the array. -/
theorem newArray_copies {a : ArrayId} {ds : List Datum} {cs : List Value}
    (hu : follow read defaultHandleDepth v w = .ok (.array a) w₁)
    (hds : CopiesAll read last w₁ (w₁.store.array a).toList ds cs w₂) (hnew : Exec.newArray cs.toArray w₂ = .ok c w')
    (hlast : w'.Keeps last) : Copies read last w v (.array ds) c w' := by
  cases hnew
  have hg : w₂.Grown { w₂ with store := (w₂.store.newArray cs.toArray).2 } := .ofStore (.newArray _ _)
  have hcount := hk.containerCount_le
  have hroom := hds.room
  refine ⟨.array hu hds.unrolls hg, ?_, fun n r hn hfrom hp => ?_⟩
  · rw [Datum.depth]
    simp only [World.containerCount, Store.newArray, Array.size_push] at *
    omega
  · rw [Datum.depth] at hn
    obtain ⟨n, rfl⟩ : ∃ m, n = m + 1 := ⟨n - 1, by omega⟩
    obtain ⟨rs, hrs, rfl⟩ := World.datumFrom_array hfrom
    have hnew : (w₂.store.newArray cs.toArray).2.array w₂.store.arrays.size = cs.toArray := by
      simp [Store.newArray, Store.array]
    have hsame : last.store.array w₂.store.arrays.size = _ :=
      hlast.sameAt (x := .array w₂.store.arrays.size) (by simp [World.Has, Store.newArray])
    change (last.store.array w₂.store.arrays.size).toList.mapM _ = _ at hrs
    rw [hsame, hnew] at hrs
    cases hp with
    | array hp =>
      obtain ⟨rfl, hranged⟩ := hds.datum n rs (by omega) hrs hp
      rw [Datum.settled, Datum.settledItems_eq]
      exact ⟨rfl, .array hranged⟩

/-- The new object of the copies of all entries is a copy of the object or context. -/
theorem newObject_copies {u : Value} {ds : List Datum} {es : Entries Value}
    (hu : follow read defaultHandleDepth v w = .ok u w₁) (hkind : u.kind = .object)
    (hkeys : es.map Prod.fst = (w₁.entries u).map Prod.fst)
    (hds : CopiesAll read last w₁ ((w₁.entries u).map Prod.snd) ds (es.map Prod.snd) w₂)
    (hnew : Exec.newObject es w₂ = .ok c w') (hlast : w'.Keeps last) :
    ∃ d, Copies read last w v d c w' := by
  obtain ⟨entries, hfst, rfl⟩ : ∃ entries : List (Key × Datum), entries.map Prod.fst = (w₁.entries u).map Prod.fst ∧
      ds = entries.map Prod.snd := by
    have hlength : ((w₁.entries u).map Prod.fst).length = ds.length := by
      rw [← hds.unrolls.length_eq, List.length_map, List.length_map]
    exact ⟨((w₁.entries u).map Prod.fst).zip ds, List.map_fst_zip (Nat.le_of_eq hlength),
      (List.map_snd_zip (Nat.le_of_eq hlength.symm)).symm⟩
  cases hnew
  have hg : w₂.Grown { w₂ with store := (w₂.store.newObject es).2 } := .ofStore (.newObject _ _)
  have hcount := hk.containerCount_le
  have hroom := hds.room
  have hdepth := Datum.depthEntries_eq entries
  refine ⟨.object entries, .object hu hkind hfst.symm hds.unrolls hg, ?_, fun n r hn hfrom hp => ?_⟩
  · rw [Datum.depth, hdepth]
    simp only [World.containerCount, Store.newObject, Array.size_push] at *
    omega
  · rw [Datum.depth, hdepth] at hn
    obtain ⟨n, rfl⟩ : ∃ m, n = m + 1 := ⟨n - 1, by omega⟩
    obtain ⟨rs, hrskeys, hrs, rfl⟩ := World.datumFrom_object hfrom
    have hnew : (w₂.store.newObject es).2.object w₂.store.objects.size = es := by
      simp [Store.newObject, Store.object]
    have hsame : last.store.object w₂.store.objects.size = _ :=
      hlast.sameAt (x := .object w₂.store.objects.size) (by simp [World.Has, Store.newObject])
    change rs.map Prod.fst = (last.store.object w₂.store.objects.size).map _ at hrskeys
    change ((last.store.object w₂.store.objects.size).map Prod.snd).mapM _ = _ at hrs
    rw [hsame, hnew] at hrs hrskeys
    cases hp with
    | object hp hstr hnodup =>
      obtain ⟨hvalues, hranged⟩ := hds.datum n _ (by omega) hrs fun d hd => by
        obtain ⟨e, he, rfl⟩ := List.mem_map.mp hd
        exact hp e he
      -- keys are texts, so that they stand for themselves
      have hkeys' : rs.map Prod.fst = (Datum.settledEntries entries).map Prod.fst := by
        rw [Datum.keys_settledEntries, hfst, ← hkeys, hrskeys]
        refine List.map_congr_left fun e he => ?_
        have hmem : e.1 ∈ entries.map Prod.fst := by
          rw [hfst, ← hkeys]
          exact List.mem_map_of_mem he
        obtain ⟨e', he', hkey⟩ := List.mem_map.mp hmem
        obtain ⟨s, hs⟩ := hstr e' he'
        rw [← hkey, hs]
        rfl
      have hvalues' : rs.map Prod.snd = (Datum.settledEntries entries).map Prod.snd := by
        rw [hvalues, Datum.settledEntries_eq, List.map_map, List.map_map]
        rfl
      obtain rfl := entries_ext hkeys' hvalues'
      have hall : (Datum.object entries).settled.Ranged := by
        rw [Datum.settled]
        exact .object fun e he => hranged e.2 (List.mem_map_of_mem he)
      have hexact := (Datum.Portable.object hp hstr hnodup).exact hall
      rw [Datum.settled] at hall hexact ⊢
      cases hexact with
      | object _ hstr' hnodup' =>
        rw [Entries.ofList_of_nodup hstr' hnodup']
        exact ⟨rfl, hall⟩

/-- The copies of the entries of an object or context make a copy of it. -/
theorem copyEntries_copies {fuel : Nat} {active : List Value} {trail : List String}
    (ih : ∀ {active : List Value} {trail : List String} {v c : Value} {w w' : World}, w.CopiesForHost →
      copyFrom read true fuel active trail v w = .ok c w' →
        w.Keeps w' ∧ ∀ last, w'.Keeps last → ∃ d, Copies read last w v d c w')
    {u : Value} (hu : follow read defaultHandleDepth v w = .ok u w₁) (hkind : u.kind = .object)
    (hw₁ : w₁.CopiesForHost)
    (hrun : ((w₁.entries u).mapM (fun e => do
      return (e.1, ← copyFrom read true fuel active (e.1.text :: trail) e.2)) >>= Exec.newObject) w₁ = .ok c w') :
    w.Keeps w' ∧ ∀ last, w'.Keeps last → ∃ d, Copies read last w v d c w' := by
  obtain ⟨es, w₂, hes, hnew⟩ := Exec.bind_eq_ok hrun
  obtain ⟨hk₂, hall⟩ := mapM_copies Prod.snd Prod.snd (fun e w b w' hw he => by
    obtain ⟨u, w₂, hu, he⟩ := Exec.bind_eq_ok he
    cases he
    exact ih hw hu) hw₁ hes
  have hkeys := mapM_keys (fun e w b w' he => by
    obtain ⟨u, w₂, hu, he⟩ := Exec.bind_eq_ok he
    cases he
    rfl) hes
  have hk₃ : w₂.Keeps w' := by
    cases hnew
    exact (World.Grown.ofStore (.newObject _ _)).keeps
  refine ⟨(hk.trans hk₂).trans hk₃, fun last hlast => ?_⟩
  obtain ⟨ds, hds⟩ := hall last (hk₃.trans hlast)
  exact newObject_copies hk hu hkind hkeys hds hnew hlast

end Containers

variable (hr : ∀ h, (read h).Along World.ReadsOnly)
include hr

/-- A copy stands for the tree that the value it was made of unrolls to. -/
theorem copyFrom_copies {fuel : Nat} {active : List Value} {trail : List String} {v c : Value}
    (hw : w.CopiesForHost) (hrun : copyFrom read true fuel active trail v w = .ok c w') :
    w.Keeps w' ∧ ∀ last, w'.Keeps last → ∃ d, Copies read last w v d c w' := by
  induction fuel generalizing active trail v c w w' with
  | zero => cases hrun
  | succ fuel ih =>
    unfold copyFrom at hrun
    obtain ⟨u, w₁, hu, hrun⟩ := Exec.bind_eq_ok hrun
    have hk : w.Keeps w₁ := by
      have := seeThrough_along hr true v w hw
      rwa [Exec.after_ok hu] at this
    have hw₁ := hk.copiesForHost hw
    cases u with
    | array a =>
      dsimp only at hrun
      split at hrun
      · cases hrun
      obtain ⟨items, w₂, hitems, hnew⟩ := Exec.bind_eq_ok (x := List.mapM _ _) hrun
      obtain ⟨hk₂, hall⟩ := mapM_copies Prod.fst id (fun x w b w' hw hx => ih hw hx) hw₁ hitems
      have hk₃ : w₂.Keeps w' := by
        cases hnew
        exact (World.Grown.ofStore (.newArray _ _)).keeps
      refine ⟨(hk.trans hk₂).trans hk₃, fun last hlast => ?_⟩
      obtain ⟨ds, hds⟩ := hall last (hk₃.trans hlast)
      rw [List.zipIdx_map_fst, List.map_id] at hds
      exact ⟨.array ds, newArray_copies hk hu hds hnew hlast⟩
    | object o =>
      dsimp only at hrun
      split at hrun
      · cases hrun
      exact copyEntries_copies hk ih hu rfl hw₁ hrun
    | context o =>
      dsimp only at hrun
      split at hrun
      · cases hrun
      exact copyEntries_copies hk ih hu rfl hw₁ hrun
    | blob b =>
      cases hrun
      have hg : w₁.Grown { w₁ with store := (w₁.store.newBlob (w₁.store.blob b)).2 } := .ofStore (.newBlob _ _)
      refine ⟨hk.trans hg.keeps, fun last hlast => ⟨_, special_copies hu hk rfl hg fun n => ?_⟩⟩
      have hnew : (w₁.store.newBlob (w₁.store.blob b)).2.blob w₁.store.blobs.size = w₁.store.blob b := by
        simp [Store.newBlob, Store.blob]
      have hsame : last.store.blob w₁.store.blobs.size = _ :=
        hlast.sameAt (x := .blob w₁.store.blobs.size) (by simp [World.Has, Store.newBlob])
      change Except.ok (Datum.str (last.store.blob w₁.store.blobs.size).display) = _
      rw [hsame, hnew]
      rfl
    | null | bool | num | str =>
      cases hrun
      exact ⟨hk, fun last _ => ⟨_, plain_copies hu hk rfl⟩⟩
    | _ =>
      cases hrun
      exact ⟨hk, fun last _ => ⟨_, special_copies hu hk rfl (.refl _) fun n => rfl⟩⟩

end Copies

namespace Engine

/-- The JSON text of a value, in either layout, reads back. The value unrolls to a tree of data; if its numbers are
whole or not finite and its keys are texts, then the text is read, wherever it is, and gives a value that holds the
settled tree with all entries in their order, and that is deeply equal to every value that holds this tree. -/
theorem json_reads_back {em : Embedding} (hem : em.MindsArguments) {w w' : World} (hw : w.CopiesForHost) {pretty : Bool}
    {v : Value} {text : String} (hrun : toJson (full em).access.read pretty true v w = .ok text w') :
    ∃ d, Unrolls (full em).access.read w' w v d w' ∧
      (d.Portable → ∀ w₁, ∃ r w₂, deserialize .json text w₁ = .ok r w₂ ∧ w₁.Grown w₂ ∧ w₂.Spells r d.settled ∧
        ∀ read u, w₂.Spells u d.settled → deepEqual read r u w₂ = .ok true w₂) := by
  obtain ⟨data, w₁, hdata, hrun⟩ := Exec.bind_eq_ok hrun
  cases hrun
  obtain ⟨c, w₂, hcopy, hdata⟩ := Exec.bind_eq_ok hdata
  obtain ⟨_, w₃, hget, hcopy⟩ := Exec.bind_eq_ok hcopy
  cases hget
  obtain ⟨_, w₃, hget, hdata⟩ := Exec.bind_eq_ok hdata
  cases hget
  obtain ⟨_, hcopies⟩ := copyFrom_copies (full_readsOnly hem).read hw hcopy
  have hsame : w₂ = w' ∧ w₂.datumFrom (w₂.containerCount + 2) c = .ok data := by
    cases hfrom : w₂.datumFrom (w₂.containerCount + 2) c with
    | error e => rw [hfrom] at hdata; cases hdata
    | ok r => rw [hfrom] at hdata; cases hdata; exact ⟨rfl, rfl⟩
  obtain ⟨rfl, hfrom⟩ := hsame
  obtain ⟨d, hd⟩ := hcopies w₂ (World.Tolerates.refl _)
  refine ⟨d, hd.unrolls, fun hp w₁ => ?_⟩
  have hroom := hd.room
  obtain ⟨rfl, hranged⟩ := hd.datum _ data (by omega) hfrom hp
  obtain ⟨r, w₃, hr, hg, hspells⟩ := makes_of_exact (hp.exact hranged) w₁
  refine ⟨r, w₃, ?_, hg, hspells, fun read u hu => hspells.deepEqual hu (hp.exact hranged) hranged read⟩
  unfold deserialize
  dsimp only
  rw [Json.read_write (hp.exact hranged)]
  exact hr

/-- A value with a handle, a number that is not finite and a special value in it is read back from its text. -/
theorem handles_and_specials_are_read_back :
    let w : World := {
      store := {
        objects := #[[(.str "a", .str "x")],
          [(.str "h", .handle 0), (.str "n", .num (.nan 0)), (.str "i", .num (.int (-5))), (.str "s", .absent)]]
        handles := #[.bound (.mk (.root { key := .global }) [.key "a"]) (some 0)]
        cells := #[{ value := .object 0 }, { value := .null }] }
      stateCell := 1 }
    let told : Datum := .object [(.str "h", .str "x"), (.str "n", .null), (.str "i", .num (.int (-5))),
      (.str "s", .str "[noattr]")]
    ∃ text w', toJson (full adding).access.read true true (.object 1) w = .ok text w' ∧
      ∃ r w₂, deserialize .json text w = .ok r w₂ ∧ w₂.Spells r told ∧
        ∀ read u, w₂.Spells u told → deepEqual read r u w₂ = .ok true w₂ := by
  intro w told
  obtain ⟨text, w', hrun⟩ : ∃ text w', toJson (full adding).access.read true true (.object 1) w = .ok text w' :=
    ⟨_, _, rfl⟩
  have hw : w.CopiesForHost := nofun
  obtain ⟨d, hd, hback⟩ := json_reads_back adding_mindsArguments hw hrun
  have hread : follow (full adding).access.read defaultHandleDepth (.handle 0) w = .ok (.str "x") w := rfl
  have hplain {v : Value} (hv : ∀ x, v ≠ .handle x) :
      follow (full adding).access.read defaultHandleDepth v w = .ok v w := by
    rw [follow_of_not_handle _ _ _ hv]
    rfl
  let tree : Datum := .object [(.str "h", .str "x"), (.str "n", .num (.nan 0)), (.str "i", .num (.int (-5))),
    (.str "s", .str "[noattr]")]
  have htree : d = tree := by
    obtain ⟨hp, -⟩ | ⟨hk, -⟩ | ⟨hk, -⟩ | ⟨-, es, w₂, rfl, hkeys, hvalues⟩ :=
      hd.cases_of_follow (hplain (v := .object 1) nofun)
    · cases hp
    · cases hk
    · cases hk
    refine congrArg Datum.object (entries_ext hkeys.symm ?_)
    generalize es.map Prod.snd = ds at hvalues ⊢
    cases hvalues with | cons hh hvalues
    cases hvalues with | cons hn hvalues
    cases hvalues with | cons hi hvalues
    cases hvalues with | cons hs hvalues
    cases hvalues
    obtain ⟨⟨⟩, rfl⟩ | ⟨⟨⟩, -⟩ | ⟨⟨⟩, -⟩ | ⟨⟨⟩, -⟩ := hh.cases_of_follow hread
    obtain ⟨⟨⟩, rfl⟩ | ⟨⟨⟩, -⟩ | ⟨⟨⟩, -⟩ | ⟨⟨⟩, -⟩ := hn.cases_of_follow (hplain (v := .num _) nofun)
    obtain ⟨⟨⟩, rfl⟩ | ⟨⟨⟩, -⟩ | ⟨⟨⟩, -⟩ | ⟨⟨⟩, -⟩ := hi.cases_of_follow (hplain (v := .num _) nofun)
    obtain ⟨⟨⟩, rfl⟩ | ⟨-, rfl⟩ | ⟨⟨⟩, -⟩ | ⟨⟨⟩, -⟩ := hs.cases_of_follow (hplain (v := .absent) nofun)
    rfl
  subst htree
  have hportable : tree.Portable := by
    refine .object ?_ ?_ (by decide)
    · simp only [List.forall_mem_cons]
      exact ⟨.str _, .unbounded rfl, .int _, .str _, nofun⟩
    · simp
  obtain ⟨r, w₂, hr, -, hspells, heq⟩ := hback hportable w
  exact ⟨text, w', hrun, r, w₂, hr, hspells, heq⟩

end Engine

end EventScript
