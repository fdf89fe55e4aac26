import EventScript.Proofs.Places

/-!
# One step of a write

A write to a part below a value first makes room, in the value or in a container that takes its place, then writes
what is below, and at last puts the new value into the container.
-/

namespace EventScript

/-! ### Refusals -/

/-- A fault by which a path is refused for one of its parts, or, where an index among them is too long to be written in
the message, for that. -/
inductive Fault.RefusesAt (parts : List Part) : Fault → Prop where
  | unresolved (cause : Unresolved) : RefusesAt parts (.unresolved cause)
  | unwritten {q : Part} (hq : q ∈ parts) (h : q.isLong = true) : RefusesAt parts (.digits .writing)

namespace Fault.RefusesAt

variable {parts parts' : List Part} {f : Fault}

theorem mono (h : f.RefusesAt parts) (hp : ∀ q ∈ parts, q ∈ parts') : f.RefusesAt parts' := by
  cases h with
  | unresolved cause => exact .unresolved cause
  | unwritten hq h => exact .unwritten (hp _ hq) h

theorem of_index {cause : Unresolved} {i : Int} (hi : .index i ∈ parts) (h : cause.isLong = Decimal.isLong i) :
    (Fault.refusal cause).RefusesAt parts := by
  cases hl : cause.isLong with
  | false =>
    rw [Fault.refusal_of_short hl]
    exact .unresolved cause
  | true =>
    rw [Fault.refusal_of_long hl]
    exact .unwritten hi (h.symm.trans hl)

theorem of_short (h : f.RefusesAt parts) (hs : ∀ q ∈ parts, q.isLong = false) : ∃ cause, f = .unresolved cause := by
  cases h with
  | unresolved cause => exact ⟨cause, rfl⟩
  | unwritten hq hl =>
    rw [hs _ hq] at hl
    cases hl

end Fault.RefusesAt

/-! ### Making room -/

namespace World

/-- The world with a value put under a key: in an object itself, in a context where it looks out from. -/
def withEntry (w : World) (v : Value) (k : Key) (item : Value) : World :=
  match v with
  | .object o => { w with store := w.store.setObject o (Entries.insert k item (w.store.object o)) }
  | .context c =>
    let o := (w.scope (w.store.view c)).context
    { w with store := w.store.setObject o (Entries.insert k item (w.store.object o)) }
  | _ => w

/-- The world with a new value in the place of an old one below a container. An entry that is the same stays. -/
def linked (w : World) (v : Value) (part : Part) (old new : Value) : World :=
  match part, v with
  | .index i, .array a => { w with store := w.store.setArray a ((w.store.array a).setIfInBounds i.toNat new) }
  | .key k, v => if new != old || (w.valueAt? v (.str k)).isNone then w.withEntry v (.str k) new else w
  | _, _ => w

/-- Room has been made in a value, or in a fresh container in the place of null, for a write to a part below it. -/
structure Opened (w : World) (cur : Value) (part : Part) (v : Value) (m : World) : Prop where
  padded : w.Padded m
  opens : Opens cur part
  lands : v.isNull = false ∧ Opens v part
  same : cur.isNull = false → v = cur
  fresh : cur.isNull = true → ∃ x, v.own? = some x ∧ ¬w.Has x ∧ m.Has x
  next : m.next v part = w.next cur part
  still : (w.next cur part).isNull = false → m = w
  elsewhere : ∀ x, w.Has x → w.placeOf cur ≠ some x → w.SameAt m x
  room : ∀ i a, part = .index i → v = .array a → m.Has (.array a) → i.toNat < (m.store.array a).size
  slots : (∀ x, v.own? = some x → m.Has x) → ∀ s, part.slot? ≠ some s → m.slot? v s = (w.slot? cur s).or (part.fill? s)

theorem next_of_no_slot {w : World} {v : Value} (h : ∀ s, w.slot? v s = none) (part : Part) :
    w.next v part = .null := by
  cases hp : part.slot? with
  | some s => rw [w.next_eq_slot v hp, h s, Option.getD_none]
  | none => cases part <;> first | rfl | cases hp

/-- A container that has just been made stands for null. -/
theorem Opened.of_fresh {w w₁ m : World} {cur v : Value} {part : Part} (h : w₁.Opened v part v m) (hp : w.Padded w₁)
    (hs : ∀ x, w.Has x → w.SameAt w₁ x) (hc : cur.isNull = true) (hn : ∀ s, w₁.slot? v s = none) {x : Place}
    (hx : v.own? = some x) (ho : ¬w.Has x) (h₁ : w₁.Has x) : w.Opened cur part v m where
  padded := hp.trans h.padded
  opens := by
    have := h.opens
    cases part <;> first | exact .inl hc | exact this.elim
  lands := h.lands
  same hs := by rw [hc] at hs; cases hs
  fresh _ := ⟨x, hx, ho, h.padded.has h₁⟩
  next := by rw [h.next, next_of_no_slot hn, next_of_isNull w hc]
  still hs := by rw [next_of_isNull w hc] at hs; cases hs
  elsewhere y hy _ := by
    refine (hs y hy).trans (h.elsewhere y (hp.has hy) fun hv => ho ?_)
    rw [placeOf_of_own w₁ hx] at hv
    cases hv
    exact hy
  room := h.room
  slots hm s hs := by rw [h.slots hm s hs, hn s, slot?_of_isNull w hc s]

end World

namespace Path

/-- A write can go on from a value to a part below it. -/
def Admits (limits : Limits) (cur : Value) (part : Part) : Prop :=
  World.Opens cur part ∧ ∀ i, part = .index i → 0 ≤ i ∧ i < limits.arraySize

/-- The world with an array long enough for an index. -/
def roomFor (w : World) (a : ArrayId) (n : Nat) : World :=
  if (w.store.array a).size ≤ n then { w with store := w.store.setArray a (extendTo (w.store.array a) n) } else w

theorem roomFor_padded (w : World) (a : ArrayId) (n : Nat) : w.Padded (roomFor w a n) := by
  unfold roomFor
  split
  · exact .pad w a n
  · exact .refl w

theorem lt_size_roomFor {w : World} {a : ArrayId} {n : Nat} (h : (roomFor w a n).Has (.array a)) :
    n < ((roomFor w a n).store.array a).size := by
  unfold roomFor at h ⊢
  split
  · rename_i hn
    rw [if_pos hn] at h
    have ha : a < w.store.arrays.size := by simpa [World.Has, Store.setArray] using h
    rw [Store.array_setArray, if_pos ⟨rfl, ha⟩]
    simp only [extendTo, Array.size_append, Array.size_replicate]
    omega
  · omega

theorem writeIndex_array {limits : Limits} {i : Int} (hi : ¬(i < 0 || limits.arraySize ≤ i) = true) (a : ArrayId)
    (inner : Value → Exec Value) (w : World) :
    writeIndex limits i (.array a) inner w =
      match inner ((roomFor w a i.toNat).next (.array a) (.index i)) (roomFor w a i.toNat) with
      | .ok new w' => .ok (.array a) (w'.linked (.array a) (.index i) .null new)
      | .error e w' => .error e w' := by
  unfold writeIndex
  rw [if_neg hi]
  change (inner ((roomFor w a i.toNat).next (.array a) (.index i)) >>= _) (roomFor w a i.toNat) = _
  cases h : inner ((roomFor w a i.toNat).next (.array a) (.index i)) (roomFor w a i.toNat) with
  | ok new w' =>
    rw [Exec.bind_ok h]
    rfl
  | error e w' => rw [Exec.bind_error h]

theorem writeIndex_fresh {limits : Limits} {i : Int} (hi : ¬(i < 0 || limits.arraySize ≤ i) = true) {cur : Value}
    (hc : cur.isNull = true) (inner : Value → Exec Value) (w : World) :
    writeIndex limits i cur inner w =
      writeIndex limits i (.array w.store.arrays.size) inner { w with store := (w.store.newArray #[]).2 } := by
  unfold writeIndex
  rw [if_neg hi, if_neg hi, hc]
  rfl

theorem roomFor_elsewhere (w : World) {a : ArrayId} (n : Nat) {x : Place} (hx : some (Place.array a) ≠ some x) :
    w.SameAt (roomFor w a n) x := by
  unfold roomFor
  split
  · cases x with
    | array b =>
      change (w.store.setArray a _).array b = _
      rw [Store.array_setArray, if_neg fun h => hx (by rw [h.1])]
    | _ => rfl
  · exact .refl w x

/-- Making room fills the slots that were missing before the index with nulls. -/
theorem slot?_roomFor {w : World} {a : ArrayId} {i : Int} (ha : (roomFor w a i.toNat).Has (.array a)) {s : Slot}
    (hs : (Part.index i).slot? ≠ some s) :
    (roomFor w a i.toNat).slot? (.array a) s = (w.slot? (.array a) s).or ((Part.index i).fill? s) := by
  cases s with
  | key k => rfl
  | index j =>
    have hj : j ≠ i.toNat := fun h => hs (by rw [h]; rfl)
    change ((roomFor w a i.toNat).store.array a)[j]? =
      ((w.store.array a)[j]?).or (if j < i.toNat then some .null else none)
    unfold roomFor at ha ⊢
    split
    · rename_i hn
      rw [if_pos hn] at ha
      have hw : a < w.store.arrays.size := by simpa [World.Has, Store.setArray] using ha
      rw [Store.array_setArray, if_pos ⟨rfl, hw⟩]
      unfold extendTo
      rw [Array.getElem?_append, Array.getElem?_replicate]
      by_cases hlt : j < (w.store.array a).size
      · rw [if_pos hlt, Array.getElem?_eq_getElem hlt]
        rfl
      · rw [if_neg hlt, Array.getElem?_eq_none (Nat.not_lt.mp hlt), Option.none_or]
        congr 1
        simp only [eq_iff_iff]
        omega
    · rename_i hn
      by_cases hlt : j < (w.store.array a).size
      · rw [Array.getElem?_eq_getElem hlt]
        rfl
      · rw [Array.getElem?_eq_none (Nat.not_lt.mp hlt), Option.none_or, if_neg (by omega)]

theorem opened_array {i : Int} (hi : 0 ≤ i) (a : ArrayId) (w : World) :
    w.Opened (.array a) (.index i) (.array a) (roomFor w a i.toNat) where
  padded := roomFor_padded w a i.toNat
  opens := .inr ⟨⟨a, rfl⟩, hi⟩
  lands := ⟨rfl, .inr ⟨⟨a, rfl⟩, hi⟩⟩
  same _ := rfl
  fresh h := by cases h
  next := (roomFor_padded w a i.toNat).next _ _
  still h := by
    unfold roomFor
    rw [if_neg]
    intro hn
    simp only [World.next, Array.getD_eq_getD_getElem?, Array.getElem?_eq_none hn] at h
    cases h
  elsewhere x _ hx := roomFor_elsewhere w i.toNat hx
  room j b hj hb := by
    cases hj
    cases hb
    exact lt_size_roomFor
  slots hm s hs := slot?_roomFor (hm _ rfl) hs

theorem writeIndex_outOfRange {limits : Limits} {i : Int} (hi : (i < 0 || limits.arraySize ≤ i) = true) (cur : Value)
    (inner : Value → Exec Value) (w : World) :
    writeIndex limits i cur inner w = .error (.refusal (.badSetIndex i)) w := by
  unfold writeIndex
  rw [if_pos hi]
  rfl

/-- Where a write cannot go on to an index, it fails at once, whatever is to be written there. -/
theorem writeIndex_refused {limits : Limits} {i : Int} {cur : Value} (h : ¬Admits limits cur (.index i)) (w : World) :
    ∃ f : Fault, f.RefusesAt [.index i] ∧ ∀ inner, writeIndex limits i cur inner w = .error f w := by
  by_cases hi : (i < 0 || limits.arraySize ≤ i) = true
  · exact ⟨.refusal (.badSetIndex i), .of_index List.mem_cons_self rfl,
      fun inner => writeIndex_outOfRange hi cur inner w⟩
  have hopens (ho : World.Opens cur (.index i)) : False := by
    refine h ⟨ho, fun j hj => ?_⟩
    cases hj
    simp only [Bool.or_eq_true, decide_eq_true_eq, not_or] at hi
    omega
  have hnonneg : 0 ≤ i := by
    simp only [Bool.or_eq_true, decide_eq_true_eq, not_or] at hi
    omega
  refine ⟨.refusal (.setIndexOf i cur.kind), .of_index List.mem_cons_self rfl, fun inner => ?_⟩
  unfold writeIndex
  rw [if_neg hi]
  cases cur with
  | array a => exact (hopens (.inr ⟨⟨a, rfl⟩, hnonneg⟩)).elim
  | null => exact (hopens (.inl rfl)).elim
  | absent => exact (hopens (.inl rfl)).elim
  | _ => rfl

theorem writeIndex_run (limits : Limits) (i : Int) (cur : Value) (w : World) :
    (¬Admits limits cur (.index i) ∧ ∃ e, ∀ inner, writeIndex limits i cur inner w = .error e w) ∨
    Admits limits cur (.index i) ∧ ∃ v m, w.Opened cur (.index i) v m ∧ ∀ inner,
      writeIndex limits i cur inner w =
        match inner (w.next cur (.index i)) m with
        | .ok new w' => .ok v (w'.linked v (.index i) (w.next cur (.index i)) new)
        | .error e w' => .error e w' := by
  by_cases hadmits : Admits limits cur (.index i)
  case neg =>
    obtain ⟨f, -, he⟩ := writeIndex_refused hadmits w
    exact .inl ⟨hadmits, f, he⟩
  obtain ⟨hnonneg, hlt⟩ := hadmits.2 i rfl
  have hi : ¬(i < 0 || limits.arraySize ≤ i) = true := by
    simp only [Bool.or_eq_true, decide_eq_true_eq]
    omega
  rcases hadmits.1 with hn | ⟨⟨a, rfl⟩, -⟩
  · have hx (s : Slot) : ({ w with store := (w.store.newArray #[]).2 } : World).slot? (.array w.store.arrays.size) s =
        none := by
      cases s with
      | index j => simp [World.slot?, Store.array, Store.newArray]
      | key k => rfl
    have ho := (opened_array hnonneg w.store.arrays.size { w with store := (w.store.newArray #[]).2 }).of_fresh
      (.newArray w) (fun _ => (World.Grown.ofStore (.newArray w.store #[])).sameAt) hn hx rfl (Nat.lt_irrefl _)
      (by simp [World.Has, Store.newArray])
    refine .inr ⟨hadmits, _, _, ho, fun inner => ?_⟩
    rw [writeIndex_fresh hi hn, writeIndex_array hi, ← ho.next]
    rfl
  · have ho := opened_array hnonneg a w
    refine .inr ⟨hadmits, _, _, ho, fun inner => ?_⟩
    rw [writeIndex_array hi, ho.next]
    rfl

theorem writeKey_object (k : String) {cur : Value} (hc : cur.kind = .object) (inner : Value → Exec Value) (w : World) :
    writeKey k cur inner w =
      match inner (w.next cur (.key k)) w with
      | .ok new w' => .ok cur (w'.linked cur (.key k) (w.next cur (.key k)) new)
      | .error e w' => .error e w' := by
  have hk : writeKey k cur inner w = (do
      let new ← inner (w.next cur (.key k))
      if new != w.next cur (.key k) || ((← get).valueAt? cur (.str k)).isNone then Exec.setEntry cur (.str k) new
      return cur : Exec Value) w := by
    cases cur with
    | object o => rfl
    | context c => rfl
    | _ => cases hc
  rw [hk]
  cases h : inner (w.next cur (.key k)) w with
  | ok new w' =>
    rw [Exec.bind_ok h]
    change (if new != w.next cur (.key k) || (w'.valueAt? cur (.str k)).isNone then _ else _ : Exec Value) w' =
      .ok cur (if new != w.next cur (.key k) || (w'.valueAt? cur (.str k)).isNone then _ else _)
    split <;> rfl
  | error e w' => rw [Exec.bind_error h]

theorem writeKey_fresh (k : String) {cur : Value} (hc : cur.isNull = true) (inner : Value → Exec Value) (w : World) :
    writeKey k cur inner w =
      writeKey k (.object w.store.objects.size) inner { w with store := (w.store.newObject []).2 } := by
  unfold writeKey
  rw [hc]
  rfl

theorem isNull_of_kind {v : Value} (h : v.kind = .object) : v.isNull = false := by
  cases v with
  | null => cases h
  | absent => cases h
  | _ => rfl

theorem opened_object (k : String) {cur : Value} (hc : cur.kind = .object) (w : World) :
    w.Opened cur (.key k) cur w where
  padded := .refl w
  opens := .inr hc
  lands := ⟨isNull_of_kind hc, .inr hc⟩
  same _ := rfl
  fresh h := by
    rw [isNull_of_kind hc] at h
    cases h
  next := rfl
  still _ := rfl
  elsewhere x _ _ := .refl w x
  room i a hi := by cases hi
  slots _ s _ := by rw [show (Part.key k).fill? s = none from rfl, Option.or_none]

theorem writeKey_refused {limits : Limits} {k : String} {cur : Value} (h : ¬Admits limits cur (.key k)) (w : World) :
    ∃ f : Fault, f.RefusesAt [.key k] ∧ ∀ inner, writeKey k cur inner w = .error f w := by
  have hopens (ho : World.Opens cur (.key k)) : False := h ⟨ho, nofun⟩
  refine ⟨_, .unresolved (.setKeyOf k cur.kind), fun inner => ?_⟩
  unfold writeKey
  cases cur with
  | null => exact (hopens (.inl rfl)).elim
  | absent => exact (hopens (.inl rfl)).elim
  | object o => exact (hopens (.inr rfl)).elim
  | context c => exact (hopens (.inr rfl)).elim
  | _ => rfl

theorem writeKey_run (limits : Limits) (k : String) (cur : Value) (w : World) :
    (¬Admits limits cur (.key k) ∧ ∃ e, ∀ inner, writeKey k cur inner w = .error e w) ∨
    Admits limits cur (.key k) ∧ ∃ v m, w.Opened cur (.key k) v m ∧ ∀ inner,
      writeKey k cur inner w =
        match inner (w.next cur (.key k)) m with
        | .ok new w' => .ok v (w'.linked v (.key k) (w.next cur (.key k)) new)
        | .error e w' => .error e w' := by
  by_cases hadmits : Admits limits cur (.key k)
  case neg =>
    obtain ⟨f, -, he⟩ := writeKey_refused hadmits w
    exact .inl ⟨hadmits, f, he⟩
  rcases hadmits.1 with hn | hc
  · have hx (s : Slot) :
        ({ w with store := (w.store.newObject []).2 } : World).slot? (.object w.store.objects.size) s = none := by
      cases s with
      | index j => rfl
      | key l => simp [World.slot?, World.valueAt?, Store.object, Store.newObject]
    have ho := (opened_object k rfl { w with store := (w.store.newObject []).2 }).of_fresh (.newObject w)
      (fun _ => (World.Grown.ofStore (.newObject w.store [])).sameAt) hn hx rfl (Nat.lt_irrefl _)
      (by simp [World.Has, Store.newObject])
    refine .inr ⟨hadmits, _, _, ho, fun inner => ?_⟩
    rw [writeKey_fresh k hn, writeKey_object k rfl, ← ho.next]
  · exact .inr ⟨hadmits, _, _, opened_object k hc w, fun inner => writeKey_object k hc inner w⟩

/-- One step of a write fails at once, or makes room, writes below and links what is new. -/
theorem writeInto_run (limits : Limits) (text : String) (part : Part) (cur : Value) (w : World) :
    (¬Admits limits cur part ∧ ∃ e, ∀ inner, writeInto limits text part cur inner w = .error e w) ∨
    Admits limits cur part ∧ ∃ v m, w.Opened cur part v m ∧ ∀ inner,
      writeInto limits text part cur inner w =
        match inner (w.next cur part) m with
        | .ok new w' => .ok v (w'.linked v part (w.next cur part) new)
        | .error e w' => .error e w' := by
  cases part with
  | index i => exact writeIndex_run limits i cur w
  | key k => exact writeKey_run limits k cur w
  | _ => exact .inl ⟨fun h => h.1, _, fun _ => rfl⟩

/-- Below a value that is no handle, a write goes on step by step. -/
theorem writeParts_cons (h : HandleAccess) (limits : Limits) (text : String) (op : WriteOp) (v : Value) (part : Part)
    (rest : List Part) {cur : Value} (hc : ∀ x, cur ≠ .handle x) :
    writeParts h limits text op v (part :: rest) cur =
      writeInto limits text part cur (writeParts h limits text op v rest) := by
  cases cur with
  | handle x => exact absurd rfl (hc x)
  | _ => rfl

/-- A write that works has made room in the value for what comes after, has written that there, and has linked the
result. -/
theorem writeParts_cons_ok {h : HandleAccess} {limits : Limits} {text : String} {op : WriteOp} {v : Value} {part : Part}
    {rest : List Part} {cur new : Value} {w w' : World} (hc : ∀ x, cur ≠ .handle x)
    (hrun : writeParts h limits text op v (part :: rest) cur w = .ok new w') :
    Admits limits cur part ∧ ∃ m new₁ w₁, w.Opened cur part new m ∧
      writeParts h limits text op v rest (w.next cur part) m = .ok new₁ w₁ ∧
      w' = w₁.linked new part (w.next cur part) new₁ := by
  rw [writeParts_cons h limits text op v part rest hc] at hrun
  rcases writeInto_run limits text part cur w with ⟨-, e, he⟩ | ⟨hadmits, v₀, m, ho, hstep⟩
  · rw [he] at hrun
    cases hrun
  rw [hstep] at hrun
  cases hi : writeParts h limits text op v rest (w.next cur part) m with
  | error e w₁ =>
    rw [hi] at hrun
    cases hrun
  | ok new₁ w₁ =>
    rw [hi] at hrun
    cases hrun
    exact ⟨hadmits, m, new₁, w₁, ho, hi, rfl⟩

/-- At a value that is no handle, an operation does what its name says. -/
theorem applyOp_eq (h : HandleAccess) (limits : Limits) (op : WriteOp) {cur : Value} (v : Value)
    (hc : ∀ x, cur ≠ .handle x) :
    applyOp h limits op cur v =
      match op with
      | .set | .setRaw => stored h.read limits op v
      | .setUnless => if cur.isNull then stored h.read limits .set v else pure cur
      | .append => stored h.read limits .set v >>= appendValue limits cur
      | .appendArray => stored h.read limits .set v >>= appendElements limits cur
      | .blobExtend => stored h.read limits .set v >>= extendBlob cur := by
  cases cur with
  | handle x => exact absurd rfl (hc x)
  | _ => rfl

/-- Access for where no handle is met. -/
def noAccess : HandleAccess where
  read _ := pure .null
  write _ _ := pure ()

theorem stored_of_not_handle (read : HandleId → Exec Value) (limits : Limits) (op : WriteOp) {v : Value}
    (hv : ∀ x, v ≠ .handle x) : stored read limits op v = pure (if op = .setRaw then v else v.orNull) := by
  unfold stored
  rw [follow_of_not_handle read _ v hv]
  cases op <;> rfl

/-- A write that meets no handle and writes none does not depend on how handles are read and written. -/
theorem writeParts_access (h h' : HandleAccess) (limits : Limits) (text : String) (op : WriteOp) {v : Value}
    (hv : ∀ x, v ≠ .handle x) {parts : List Part} {cur : Value} {w : World}
    (hh : ∀ y, y ∈ w.passed parts cur ∨ y = w.target parts cur → ∀ x, y ≠ .handle x) :
    writeParts h limits text op v parts cur w = writeParts h' limits text op v parts cur w := by
  induction parts generalizing cur w with
  | nil =>
    change applyOp h limits op cur v w = applyOp h' limits op cur v w
    have hcur := hh cur (.inr rfl)
    rw [applyOp_eq h limits op v hcur, applyOp_eq h' limits op v hcur]
    simp only [stored_of_not_handle _ _ _ hv]
  | cons part rest ih =>
    have hcur := hh cur (.inl List.mem_cons_self)
    rw [writeParts_cons h limits text op v part rest hcur, writeParts_cons h' limits text op v part rest hcur]
    rcases writeInto_run limits text part cur w with ⟨-, e, he⟩ | ⟨-, v₀, m, ho, hrun⟩
    · rw [he, he]
    · obtain ⟨hpassed, htarget, -⟩ := ho.padded.trail rest (w.next cur part)
      rw [hrun, hrun, ih fun y hy => ?_]
      rw [hpassed, htarget] at hy
      exact hh y (hy.imp_left (List.mem_cons_of_mem _))

/-- What is written to a read-only handle is dropped. -/
theorem writeParts_readOnly (h : HandleAccess) (limits : Limits) (text : String) (op : WriteOp) (v : Value)
    (parts : List Part) {x : HandleId} {w : World} (hx : w.store.isReadOnly x = true) :
    writeParts h limits text op v parts (.handle x) w = .ok (.handle x) w := by
  cases parts with
  | nil =>
    change (if w.store.isReadOnly x = true then _ else _ : Exec Value) w = _
    rw [if_pos hx]
    rfl
  | cons part rest =>
    change (if w.store.isReadOnly x = true then _ else _ : Exec Value) w = _
    rw [if_pos hx]
    rfl

end Path

end EventScript
