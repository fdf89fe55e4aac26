import EventScript.Proofs.PlainWrites
import EventScript.Proofs.Renaming

/-!
# Chains of new containers

A write below null makes a chain of new containers, one for each part that is left of its path. Two such chains that
are made one after the other are, but for their names, the chain that is made at once.
-/

namespace EventScript

/-- New containers, the first of them, and what they hold in the order in which they are numbered. -/
structure Chain where
  head : Value
  arrays : Array (Array Value)
  objects : Array (Entries Value)

/-- A chain followed by the chain that it ends in. -/
def Chain.onto (front back : Chain) : Chain :=
  ⟨front.head, front.arrays ++ back.arrays, front.objects ++ back.objects⟩

/-- A chain under new names. -/
def Chain.rename (ρ : Renaming) (c : Chain) : Chain :=
  ⟨ρ.value c.head, c.arrays.map (Array.map ρ.value), c.objects.map ρ.entries⟩

namespace Path

/-- How many arrays the parts of a path go through. -/
def indices : List Part → Nat
  | [] => 0
  | .index _ :: rest => indices rest + 1
  | _ :: rest => indices rest

/-- How many objects the parts of a path go through. -/
def keys : List Part → Nat
  | [] => 0
  | .key _ :: rest => keys rest + 1
  | _ :: rest => keys rest

/-- The new chain for the parts of a path, given the next numbers for arrays and objects and the value at the end. -/
def chain : List Part → Nat → Nat → Value → Chain
  | [], _, _, v => ⟨v, #[], #[]⟩
  | .index i :: rest, a, o, v =>
    let c := chain rest (a + 1) o v
    ⟨.array a, #[(Array.replicate i.toNat .null).push c.head] ++ c.arrays, c.objects⟩
  | .key k :: rest, a, o, v =>
    let c := chain rest a (o + 1) v
    ⟨.object o, c.arrays, #[[(.str k, c.head)]] ++ c.objects⟩
  | _ :: rest, a, o, v => chain rest a o v

variable (a o : Nat) (v : Value)

theorem indices_append (front back : List Part) : indices (front ++ back) = indices front + indices back := by
  induction front with
  | nil => simp [indices]
  | cons part rest ih =>
    cases part with
    | index i => simp [indices, ih, Nat.add_right_comm]
    | _ => exact ih

theorem keys_append (front back : List Part) : keys (front ++ back) = keys front + keys back := by
  induction front with
  | nil => simp [keys]
  | cons part rest ih =>
    cases part with
    | key k => simp [keys, ih, Nat.add_right_comm]
    | _ => exact ih

theorem size_chain (parts : List Part) :
    (chain parts a o v).arrays.size = indices parts ∧ (chain parts a o v).objects.size = keys parts := by
  induction parts generalizing a o with
  | nil => exact ⟨rfl, rfl⟩
  | cons part rest ih =>
    cases part with
    | index i => simp [chain, indices, keys, ih, Nat.add_comm]
    | key k => simp [chain, indices, keys, ih, Nat.add_comm]
    | _ => exact ih a o

/-- The chain for a path is the chain for its front that ends in the chain for the rest. -/
theorem chain_append (front back : List Part) :
    chain (front ++ back) a o v =
      (chain front a o (chain back (a + indices front) (o + keys front) v).head).onto
        (chain back (a + indices front) (o + keys front) v) := by
  induction front generalizing a o with
  | nil => simp [chain, Chain.onto, indices, keys]
  | cons part rest ih =>
    cases part with
    | index i =>
      have ha : a + 1 + indices rest = a + (indices rest + 1) := by omega
      simp only [List.cons_append, chain, indices, keys, ih, ha, Chain.onto, Array.append_assoc]
    | key k =>
      have ho : o + 1 + keys rest = o + (keys rest + 1) := by omega
      simp only [List.cons_append, chain, indices, keys, ih, ho, Chain.onto, Array.append_assoc]
    | _ => exact ih a o

variable {a o v}

/-- A chain under new names is the chain for the new names. -/
theorem rename_chain {ρ : Renaming} {b p : Nat} (parts : List Part)
    (ha : ∀ j, j < indices parts → ρ.array (a + j) = b + j) (ho : ∀ j, j < keys parts → ρ.object (o + j) = p + j) :
    (chain parts a o v).rename ρ = chain parts b p (ρ.value v) := by
  induction parts generalizing a o b p with
  | nil => simp [chain, Chain.rename]
  | cons part rest ih =>
    cases part with
    | index i =>
      have hrest := ih (a := a + 1) (b := b + 1) (fun j hj => by
        have h := ha (1 + j) (by simp only [indices]; omega)
        rwa [← Nat.add_assoc, ← Nat.add_assoc] at h) ho
      have ha₀ : ρ.array a = b := ha 0 (by simp only [indices]; omega)
      unfold chain
      dsimp only
      rw [← hrest]
      simp [Chain.rename, Renaming.value, ha₀]
    | key k =>
      have hrest := ih (o := o + 1) (p := p + 1) ha (fun j hj => by
        have h := ho (1 + j) (by simp only [keys]; omega)
        rwa [← Nat.add_assoc, ← Nat.add_assoc] at h)
      have ho₀ : ρ.object o = p := ho 0 (by simp only [keys]; omega)
      unfold chain
      dsimp only
      rw [← hrest]
      simp [Chain.rename, Renaming.value, Renaming.entries, ho₀]
    | _ => exact ih ha ho

end Path

namespace World

/-- The new chain for the parts of a path that ends in a value. -/
def sprout (w : World) (parts : List Part) (v : Value) : Chain :=
  Path.chain parts w.store.arrays.size w.store.objects.size v

/-- The world with new containers. -/
def withChain (w : World) (c : Chain) : World :=
  { w with store := { w.store with arrays := w.store.arrays ++ c.arrays, objects := w.store.objects ++ c.objects } }

/-- The world with a new chain for the parts of a path that ends in a value. -/
def sprouted (w : World) (parts : List Part) (v : Value) : World := w.withChain (w.sprout parts v)

variable {w : World}

theorem sprouted_sizes (w : World) (parts : List Part) (v : Value) :
    (w.sprouted parts v).store.arrays.size = w.store.arrays.size + Path.indices parts ∧
      (w.sprouted parts v).store.objects.size = w.store.objects.size + Path.keys parts := by
  obtain ⟨ha, ho⟩ := Path.size_chain w.store.arrays.size w.store.objects.size v parts
  constructor
  · change (w.store.arrays ++ (w.sprout parts v).arrays).size = _
    rw [Array.size_append]
    exact congrArg _ ha
  · change (w.store.objects ++ (w.sprout parts v).objects).size = _
    rw [Array.size_append]
    exact congrArg _ ho

/-- The names that a chain gets when the chain that it ends in is made first. -/
def swapped (w : World) (front back : List Part) : Renaming :=
  ⟨rotation w.store.arrays.size (Path.indices front) (Path.indices back),
    rotation w.store.objects.size (Path.keys front) (Path.keys back)⟩

theorem swapped_fixes (w : World) (front back : List Part) : (w.swapped front back).Fixes w :=
  ⟨fun _ h => rotation_low h, fun _ h => rotation_low h⟩

theorem fixed_contents {ρ : Renaming} (hρ : ρ.Fixes w) (hw : w.Closed) :
    (∀ a, (w.store.array a).map ρ.value = w.store.array a) ∧ ∀ o, ρ.entries (w.store.object o) = w.store.object o := by
  have same {v : Value} (hv : w.Knows v) : ρ.value v = v :=
    hρ.value fun x hx => hv.has x (placeOf_mem_touched (placeOf_of_own w hx))
  constructor
  · intro a
    conv => rhs; rw [← Array.map_id (w.store.array a)]
    exact Array.map_congr_left fun v hv => same (hw.array a v hv)
  · intro o
    unfold Renaming.entries
    conv => rhs; rw [← List.map_id (w.store.object o)]
    refine List.map_congr_left fun e he => ?_
    rw [same (hw.object o e he)]
    rfl

/-- A chain that is made at once is, but for the names, made in two parts, the end of it first. -/
theorem sprouted_swapped (hw : w.Closed) (front back : List Part) {v : Value} (hv : ∀ x, v.own? = some x → w.Has x) :
    (w.sprouted (front ++ back) v).Renamed (w.swapped front back)
      ((w.sprouted back v).sprouted front (w.sprout back v).head) ∧
    (w.swapped front back).value (w.sprout (front ++ back) v).head =
      ((w.sprouted back v).sprout front (w.sprout back v).head).head := by
  have hρ := w.swapped_fixes front back
  obtain ⟨hsa, hso⟩ := w.sprouted_sizes back v
  -- The end of the chain that is made at once.
  generalize hc :
    Path.chain back (w.store.arrays.size + Path.indices front) (w.store.objects.size + Path.keys front) v = c
  generalize hd : Path.chain front w.store.arrays.size w.store.objects.size c.head = d
  have hall : w.sprout (front ++ back) v = d.onto c := by
    unfold sprout
    rw [Path.chain_append, hc, hd]
  have hback : w.sprout back v = c.rename (w.swapped front back) := by
    rw [← hc, Path.rename_chain (b := w.store.arrays.size) (p := w.store.objects.size) back
      (fun j hj => rotation_second hj) (fun j hj => rotation_second hj), hρ.value hv]
    rfl
  have hfront : (w.sprouted back v).sprout front (w.sprout back v).head = d.rename (w.swapped front back) := by
    rw [← hd, Path.rename_chain (b := w.store.arrays.size + Path.indices back)
      (p := w.store.objects.size + Path.keys back) front (fun j hj => rotation_first hj)
      (fun j hj => rotation_first hj), hback]
    unfold sprout
    rw [hsa, hso]
    rfl
  obtain ⟨hca, hco⟩ := hc ▸ Path.size_chain _ _ v back
  obtain ⟨hda, hdo⟩ := hd ▸ Path.size_chain w.store.arrays.size w.store.objects.size c.head front
  obtain ⟨hfixa, hfixo⟩ := fixed_contents hρ hw
  refine ⟨⟨?_, ?_, fun a => ?_, fun o => ?_, rfl⟩, ?_⟩
  · rw [(World.sprouted_sizes _ front _).1, hsa, (w.sprouted_sizes _ v).1, Path.indices_append]
    omega
  · rw [(World.sprouted_sizes _ front _).2, hso, (w.sprouted_sizes _ v).2, Path.keys_append]
    omega
  · change ((w.store.arrays ++ (w.sprout back v).arrays ++
      ((w.sprouted back v).sprout front (w.sprout back v).head).arrays).getD _ #[]) =
        ((w.store.arrays ++ (w.sprout (front ++ back) v).arrays).getD a #[]).map _
    rw [hfront, hback, hall]
    have h := getD_rotation (f := Array.map (w.swapped front back).value) (d := #[]) Array.map_empty w.store.arrays
      d.arrays c.arrays (fun i _ => hfixa i) a
    rw [hda, hca, @Array.append_assoc _ w.store.arrays d.arrays] at h
    exact h
  · change ((w.store.objects ++ (w.sprout back v).objects ++
      ((w.sprouted back v).sprout front (w.sprout back v).head).objects).getD _ []) =
        Renaming.entries _ ((w.store.objects ++ (w.sprout (front ++ back) v).objects).getD o [])
    rw [hfront, hback, hall]
    have h := getD_rotation (f := (w.swapped front back).entries) (d := []) rfl w.store.objects d.objects
      c.objects (fun i _ => hfixo i) o
    rw [hdo, hco, @Array.append_assoc _ w.store.objects d.objects] at h
    exact h
  · rw [hfront, hall]
    rfl

end World

namespace Path

open World

theorem setIfInBounds_push {α : Type} (xs : Array α) (x y : α) : (xs.push x).setIfInBounds xs.size y = xs.push y := by
  apply Array.ext_getElem?
  intro i
  rw [Array.getElem?_setIfInBounds, Array.getElem?_push, Array.getElem?_push]
  by_cases hi : i = xs.size
  · rw [if_pos hi.symm, if_pos (by simp), if_pos hi]
  · rw [if_neg fun h => hi h.symm, if_neg hi, if_neg hi]

theorem roomFor_fresh (w : World) (n : Nat) :
    roomFor { w with store := (w.store.newArray #[]).2 } w.store.arrays.size n =
      { w with store := (w.store.newArray (Array.replicate (n + 1) .null)).2 } := by
  have hempty : (w.store.newArray #[]).2.array w.store.arrays.size = #[] := getD_push_size _ _ _
  unfold roomFor
  dsimp only
  rw [hempty, if_pos (by simp)]
  change ({ w with store := { w.store with arrays := (w.store.arrays.push #[]).setIfInBounds w.store.arrays.size _ } } :
    World) = _
  rw [setIfInBounds_push]
  simp [extendTo, Store.newArray]

/-- A chain below a fresh array is linked to it at its end. -/
theorem linked_sprouted_array (w : World) (i : Int) (parts : List Part) (v : Value) {m : World}
    (hm : m = { w with store := (w.store.newArray (Array.replicate (i.toNat + 1) .null)).2 }) :
    (m.sprouted parts v).linked (.array w.store.arrays.size) (.index i) .null (m.sprout parts v).head =
      w.sprouted (.index i :: parts) v := by
  have hchain : m.sprout parts v = chain parts (w.store.arrays.size + 1) w.store.objects.size v := by
    rw [hm]
    exact congrArg (chain parts · w.store.objects.size v) (Array.size_push _)
  generalize hc : chain parts (w.store.arrays.size + 1) w.store.objects.size v = c at hchain
  have hat (xs : Array (Array Value)) : (w.store.arrays.push (Array.replicate (i.toNat + 1) .null) ++ xs).getD
      w.store.arrays.size #[] = Array.replicate (i.toNat + 1) .null := by
    rw [Array.getD_eq_getD_getElem?, Array.getElem?_append_left (by simp), Array.getElem?_push_size]
    rfl
  have hend : (Array.replicate (i.toNat + 1) Value.null).setIfInBounds i.toNat c.head =
      (Array.replicate i.toNat .null).push c.head := by
    have h := setIfInBounds_push (Array.replicate i.toNat Value.null) .null c.head
    rwa [Array.size_replicate, ← Array.replicate_succ] at h
  have hlinked : (w.store.arrays.push (Array.replicate (i.toNat + 1) .null) ++ c.arrays).setIfInBounds
      w.store.arrays.size (((w.store.arrays.push (Array.replicate (i.toNat + 1) .null) ++ c.arrays).getD
        w.store.arrays.size #[]).setIfInBounds i.toNat c.head) =
      w.store.arrays ++ (#[(Array.replicate i.toNat .null).push c.head] ++ c.arrays) := by
    rw [hat, hend, Array.setIfInBounds_append_left (by simp), setIfInBounds_push, ← Array.append_assoc,
      Array.push_eq_append]
  have hall : w.sprout (.index i :: parts) v =
      ⟨.array w.store.arrays.size, #[(Array.replicate i.toNat .null).push c.head] ++ c.arrays, c.objects⟩ := by
    rw [← hc]
    rfl
  unfold sprouted
  rw [hchain, hall, hm]
  exact congrArg (fun xs => ({ w with store :=
    { w.store with arrays := xs, objects := w.store.objects ++ c.objects } } : World)) hlinked

/-- A chain below a fresh object is linked to it at its end. -/
theorem linked_sprouted_object (w : World) (k : String) (parts : List Part) (v : Value) {m : World}
    (hm : m = { w with store := (w.store.newObject []).2 }) :
    (m.sprouted parts v).linked (.object w.store.objects.size) (.key k) .null (m.sprout parts v).head =
      w.sprouted (.key k :: parts) v := by
  have hchain : m.sprout parts v = chain parts w.store.arrays.size (w.store.objects.size + 1) v := by
    rw [hm]
    exact congrArg (chain parts w.store.arrays.size · v) (Array.size_push _)
  generalize hc : chain parts w.store.arrays.size (w.store.objects.size + 1) v = c at hchain
  have hat : (w.store.objects.push [] ++ c.objects).getD w.store.objects.size [] = [] := by
    rw [Array.getD_eq_getD_getElem?, Array.getElem?_append_left (by simp), Array.getElem?_push_size]
    rfl
  have hall : w.sprout (.key k :: parts) v =
      ⟨.object w.store.objects.size, c.arrays, #[[(.str k, c.head)]] ++ c.objects⟩ := by
    rw [← hc]
    rfl
  have hlinked : (w.store.objects.push [] ++ c.objects).setIfInBounds w.store.objects.size
      (Entries.insert (.str k) c.head ((w.store.objects.push [] ++ c.objects).getD w.store.objects.size [])) =
      w.store.objects ++ (#[[(.str k, c.head)]] ++ c.objects) := by
    rw [hat, Array.setIfInBounds_append_left (by simp), setIfInBounds_push, ← Array.append_assoc, Array.push_eq_append]
    rfl
  unfold sprouted
  rw [hchain, hall, hm]
  have hnone : (({ w with store := (w.store.newObject []).2 } : World).withChain c).valueAt?
      (.object w.store.objects.size) (.str k) = none := by
    change Entries.get? (.str k) ((w.store.objects.push [] ++ c.objects).getD w.store.objects.size []) = none
    rw [hat]
    rfl
  unfold linked
  dsimp only
  rw [hnone, Option.isNone_none, Bool.or_true, if_pos rfl]
  exact congrArg (fun xs => ({ w with store :=
    { w.store with arrays := w.store.arrays ++ c.arrays, objects := xs } } : World)) hlinked

variable {limits : Limits} {op : WriteOp} {e leaf : Value} {ext : List Part}

/-- A write below null makes a new chain, if the operation makes the end of one. -/
theorem writePlain_sprouts {parts : List Part} (ht : ∀ part ∈ parts, Admits limits .null part)
    (happ : ∀ w, applyPlain limits op e .null w = .ok (w.sprout ext leaf).head (w.sprouted ext leaf)) (w : World) :
    writePlain limits op e parts .null w =
      .ok (w.sprout (parts ++ ext) leaf).head (w.sprouted (parts ++ ext) leaf) := by
  induction parts generalizing w with
  | nil => exact happ w
  | cons part rest ih =>
    obtain ⟨hadmits, hrest⟩ := List.forall_mem_cons.mp ht
    cases part with
    | index i =>
      obtain ⟨hi₀, hi₁⟩ := hadmits.2 i rfl
      have hi : ¬(i < 0 || limits.arraySize ≤ i) = true := by
        simp only [Bool.or_eq_true, decide_eq_true_eq, not_or]
        omega
      change writeIndex limits i .null (writePlain limits op e rest) w = _
      rw [writeIndex_fresh hi rfl, writeIndex_array hi, roomFor_fresh]
      generalize hm : ({ w with store := (w.store.newArray (Array.replicate (i.toNat + 1) .null)).2 } : World) = m
      have hnext : m.next (.array w.store.arrays.size) (.index i) = .null := by
        rw [← hm]
        change ((w.store.arrays.push _).getD w.store.arrays.size #[]).getD i.toNat .null = .null
        rw [getD_push_size, Array.getD_eq_getD_getElem?, Array.getElem?_replicate]
        split <;> rfl
      rw [hnext, ih hrest m]
      dsimp only
      rw [linked_sprouted_array w i (rest ++ ext) leaf hm.symm]
      rfl
    | key k =>
      change writeKey k .null (writePlain limits op e rest) w = _
      rw [writeKey_fresh k rfl, writeKey_object k rfl]
      generalize hm : ({ w with store := (w.store.newObject []).2 } : World) = m
      have hnext : m.next (.object w.store.objects.size) (.key k) = .null := by
        rw [← hm]
        change (Entries.get? _ ((w.store.objects.push []).getD w.store.objects.size [])).getD .null = .null
        rw [getD_push_size]
        rfl
      rw [hnext, ih hrest m]
      dsimp only
      rw [linked_sprouted_object w k (rest ++ ext) leaf hm.symm]
      rfl
    | _ => exact hadmits.1.elim

theorem writePlain_of_null {parts : List Part} {cur : Value} (hp : parts ≠ []) (hn : cur.isNull = true) :
    writePlain limits op e parts cur = writePlain limits op e parts .null := by
  cases parts with
  | nil => exact absurd rfl hp
  | cons part rest =>
    cases cur with
    | null => rfl
    | absent => cases part <;> rfl
    | _ => cases hn

theorem sprouted_nil (w : World) (v : Value) : w.sprouted [] v = w := by
  simp [sprouted, sprout, withChain, chain]

theorem writePlain_set_sprouts {parts : List Part} (ht : ∀ part ∈ parts, Admits limits .null part) {cur : Value}
    (hn : cur.isNull = true) (w : World) :
    writePlain limits .set e parts cur w = .ok (w.sprout parts e).head (w.sprouted parts e) := by
  cases parts with
  | nil =>
    rw [sprouted_nil]
    rfl
  | cons part rest =>
    rw [writePlain_of_null (List.cons_ne_nil _ _) hn]
    have happ (w : World) : applyPlain limits .set e .null w = .ok (w.sprout [] e).head (w.sprouted [] e) := by
      rw [sprouted_nil]
      rfl
    have h := writePlain_sprouts ht happ w
    rwa [List.append_nil] at h

/-- An operation that works at null puts its value or null there, or makes an array of the value. -/
theorem applyPlain_null {w w' : World} {r : Value} (h : applyPlain limits op e .null w = .ok r w') :
    ∃ ext leaf, (leaf = e ∨ leaf = .null) ∧
      ∀ w, applyPlain limits op e .null w = .ok (w.sprout ext leaf).head (w.sprouted ext leaf) := by
  have here {leaf : Value} (hl : leaf = e ∨ leaf = .null) (hrun : ∀ w, applyPlain limits op e .null w = .ok leaf w) :
      ∃ ext leaf, (leaf = e ∨ leaf = .null) ∧
        ∀ w, applyPlain limits op e .null w = .ok (w.sprout ext leaf).head (w.sprouted ext leaf) :=
    ⟨[], leaf, hl, fun w => by rw [hrun, sprouted_nil]; rfl⟩
  cases op with
  | append =>
    refine ⟨[.index 0], e, .inl rfl, fun w => ?_⟩
    change Exec.newArray #[e] w = .ok (.array w.store.arrays.size) { w with
      store := { w.store with arrays := w.store.arrays ++ #[#[e]], objects := w.store.objects ++ #[] } }
    rw [Array.append_empty, Array.append_singleton]
    rfl
  | appendArray =>
    cases e with
    | array b => exact here (.inl rfl) fun _ => rfl
    | _ => exact here (.inr rfl) fun _ => rfl
  | blobExtend => cases h
  | _ => exact here (.inl rfl) fun _ => rfl

theorem admits_null {v : Value} {part : Part} (h : Admits limits v part) : Admits limits .null part := by
  refine ⟨?_, h.2⟩
  have ho := h.1
  cases part <;> first | exact .inl rfl | exact ho.elim

/-- The world with room in a value for a part below it. -/
def room (w : World) (v : Value) (part : Part) : World :=
  match v, part with
  | .array a, .index i => roomFor w a i.toNat
  | _, _ => w

theorem room_padded (w : World) (v : Value) (part : Part) : w.Padded (room w v part) := by
  unfold room
  split
  · exact roomFor_padded _ _ _
  · exact .refl w

theorem writeInto_room {v : Value} {part : Part} (ha : Admits limits v part) (hn : v.isNull = false) (text : String)
    (inner : Value → Exec Value) (w : World) :
    writeInto limits text part v inner w =
      match inner (w.next v part) (room w v part) with
      | .ok new w' => .ok v (w'.linked v part (w.next v part) new)
      | .error e w' => .error e w' := by
  cases part with
  | index i =>
    obtain ⟨a, rfl⟩ : ∃ a, v = .array a := (ha.1.resolve_left (by simp [hn])).1
    have hi : ¬(i < 0 || limits.arraySize ≤ i) = true := by
      have := ha.2 i rfl
      simp only [Bool.or_eq_true, decide_eq_true_eq, not_or]
      omega
    rw [← (room_padded w (.array a) (.index i)).next]
    exact writeIndex_array hi a inner w
  | key k =>
    have hk : v.kind = .object := ha.1.resolve_left (by simp [hn])
    have hroom : room w v (.key k) = w := by
      cases v <;> rfl
    rw [hroom]
    exact writeKey_object k hk inner w
  | _ => exact ha.1.elim

/-- Making room in what is there and making a chain do not get in each other's way. -/
theorem room_withChain {w : World} {v : Value} (hv : ∀ x, v.own? = some x → w.Has x) (part : Part) (c : Chain) :
    room (w.withChain c) v part = (room w v part).withChain c := by
  unfold room
  split
  · rename_i a i
    have ha : a < w.store.arrays.size := hv _ rfl
    have harray : (w.withChain c).store.array a = w.store.array a := by
      change (w.store.arrays ++ c.arrays).getD a #[] = w.store.arrays.getD a #[]
      rw [Array.getD_eq_getD_getElem?, Array.getD_eq_getD_getElem?, Array.getElem?_append_left ha]
    unfold roomFor
    rw [harray]
    split
    · have hset : (w.store.arrays ++ c.arrays).setIfInBounds a (extendTo (w.store.array a) i.toNat) =
          w.store.arrays.setIfInBounds a (extendTo (w.store.array a) i.toNat) ++ c.arrays :=
        Array.setIfInBounds_append_left ha
      exact congrArg (fun xs => ({ w with store :=
        { w.store with arrays := xs, objects := w.store.objects ++ c.objects } } : World)) hset
    · rfl
  · rfl

theorem room_sizes (w : World) (v : Value) (part : Part) :
    (room w v part).store.arrays.size = w.store.arrays.size ∧
      (room w v part).store.objects.size = w.store.objects.size := by
  unfold room
  split
  · unfold roomFor
    split
    · exact ⟨Array.size_setIfInBounds, rfl⟩
    · exact ⟨rfl, rfl⟩
  · exact ⟨rfl, rfl⟩

theorem withChain_grown (w : World) (c : Chain) : w.Grown (w.withChain c) := by
  refine .ofStore { Store.Grown.refl w.store with arrays := ?_, objects := ?_ }
  · rw [Array.toList_append]
    exact List.prefix_append _ _
  · rw [Array.toList_append]
    exact List.prefix_append _ _

theorem padded_closed {w m : World} (h : w.Padded m) (hw : w.Closed) : m.Closed where
  global := by
    rw [h.rest]
    exact hw.global
  state := by
    rw [h.rest]
    exact hw.state
  array a v hv := by
    obtain ⟨n, hn⟩ := h.array a
    rw [hn, Array.mem_append] at hv
    rcases hv with hv | hv
    · exact h.knows (hw.array a v hv)
    · rw [(Array.mem_replicate.mp hv).2]
      exact knows_null m
  object o e he := by
    rw [h.object] at he
    exact h.knows (hw.object o e he)
  cell c := by
    have hc := h.knows (hw.cell c)
    rw [h.rest] at hc ⊢
    exact hc

/-- A chain for parts that can be written below null begins with a container. -/
theorem head_sprout {parts : List Part} (ht : ∀ p ∈ parts, Admits limits .null p) (hne : parts ≠ []) (w : World)
    (ext : List Part) (v : Value) :
    (w.sprout (parts ++ ext) v).head.isNull = false ∧ ∀ x, (w.sprout (parts ++ ext) v).head ≠ .handle x := by
  cases parts with
  | nil => exact absurd rfl hne
  | cons part rest =>
    have ho := (ht part List.mem_cons_self).1
    cases part with
    | index i => exact ⟨rfl, nofun⟩
    | key k => exact ⟨rfl, nofun⟩
    | _ => exact ho.elim

/-- A write below something where nothing is yet comes to the same, but for new names, if the end of what it makes is
made first and put into the chain for the front of its path then. -/
theorem writePlain_in_two {w : World} (hw : w.Closed) {v : Value} (hv : w.Knows v) (hn : v.isNull = false)
    {part : Part} (ha : Admits limits v part) (hnext : (w.next v part).isNull = true) {front back : List Part}
    (hfront : ∀ p ∈ front, Admits limits .null p) (hback : ∀ p ∈ back, Admits limits .null p) (hne : back ≠ [])
    (happ : ∀ w, applyPlain limits op e .null w = .ok (w.sprout ext leaf).head (w.sprouted ext leaf))
    (hleaf : ∀ x, leaf.own? = some x → w.Has x) :
    ∃ w₁ new w₂ w₃, writePlain limits op e (part :: (front ++ back)) v w = .ok v w₁ ∧
      writePlain limits op e back .null w = .ok new w₂ ∧ new.isNull = false ∧ (∀ x, new ≠ .handle x) ∧
      w.Grown w₂ ∧ writePlain limits .set new (part :: front) v w₂ = .ok v w₃ ∧ w.SameButNew w₁ w₃ := by
  have hm := room_padded w v part
  have hsizes := room_sizes w v part
  have hchain := room_withChain (fun x hx => hv.has x (placeOf_mem_touched (placeOf_of_own w hx))) part
  have hall : ∀ p ∈ front ++ back, Admits limits .null p := List.forall_mem_append.mpr ⟨hfront, hback⟩
  have hne' : front ++ back ≠ [] := fun h => hne (List.append_eq_nil_iff.mp h).2
  have hdirect : writePlain limits op e (part :: (front ++ back)) v w =
      .ok v (((room w v part).sprouted (front ++ back ++ ext) leaf).linked v part (w.next v part)
        ((room w v part).sprout (front ++ back ++ ext) leaf).head) := by
    rw [writePlain, writeInto_room ha hn, writePlain_of_null hne' hnext, writePlain_sprouts hall happ]
  generalize room w v part = m at hm hsizes hchain hdirect
  -- The end of the chain does not depend on the room.
  have hsprout : m.sprout (back ++ ext) leaf = w.sprout (back ++ ext) leaf := by
    unfold sprout
    rw [hsizes.1, hsizes.2]
  have hgrown := withChain_grown w (w.sprout (back ++ ext) leaf)
  obtain ⟨hnew, hplain⟩ := head_sprout hback hne w ext leaf
  have hnested : writePlain limits .set (w.sprout (back ++ ext) leaf).head (part :: front) v
      (w.sprouted (back ++ ext) leaf) =
      .ok v (((m.sprouted (back ++ ext) leaf).sprouted front (m.sprout (back ++ ext) leaf).head).linked v part
        (w.next v part) ((m.sprouted (back ++ ext) leaf).sprout front (m.sprout (back ++ ext) leaf).head).head) := by
    have hroom : room (w.sprouted (back ++ ext) leaf) v part = m.sprouted (back ++ ext) leaf := by
      unfold sprouted
      rw [hchain, hsprout]
    have hsame : (w.sprouted (back ++ ext) leaf).next v part = w.next v part := hgrown.kept.next hv part
    rw [writePlain, writeInto_room ha hn, hroom, hsame, writePlain_set_sprouts hfront hnext, hsprout]
  refine ⟨_, _, _, _, hdirect, writePlain_sprouts hback happ w, hnew, hplain, hgrown, hnested, ?_⟩
  obtain ⟨hrenamed, hhead⟩ := sprouted_swapped (padded_closed hm hw) front (back ++ ext)
    (v := leaf) fun x hx => hm.has (hleaf x hx)
  have hfixes : (m.swapped front (back ++ ext)).Fixes w :=
    ⟨fun a h => (m.swapped_fixes front _).array a (hm.has h), fun o h => (m.swapped_fixes front _).object o (hm.has h)⟩
  obtain ⟨x, hx⟩ := ha.1.placeOf w hn
  rw [List.append_assoc, ← hhead]
  have hx' : (m.sprouted (front ++ (back ++ ext)) leaf).placeOf v = some x := by
    rw [← hx, ← hm.placeOf]
    cases v <;> rfl
  refine ⟨_, hfixes, hrenamed.linked hfixes hx' (hv.has x (placeOf_mem_touched hx)) part hnext ?_⟩
  rw [← List.append_assoc]
  exact (head_sprout hall hne' m ext leaf).1

end Path

end EventScript
