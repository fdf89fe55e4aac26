import EventScript.Path.Write
import EventScript.Proofs.Along

/-!
# Places and trails

The places of a world that can change, and the trail of a path: the values that it passes and the one that it leads
to. Making room for a write only adds empty containers and pads arrays with nulls, which no path can tell.
-/

namespace EventScript

/-- What can change in place and can be reached from the roots. -/
inductive Place where
  | array (a : ArrayId)
  | object (o : ObjectId)
  | blob (b : BlobId)
  | cell (c : CellId)
  deriving DecidableEq

/-- The place that a value refers to, if it is a container by itself. -/
def Value.own? : Value → Option Place
  | .array a => some (.array a)
  | .object o => some (.object o)
  | .blob b => some (.blob b)
  | _ => none

section Pools

variable {α : Type}

theorem getD_push_default (xs : Array α) (d : α) (i : Nat) : (xs.push d).getD i d = xs.getD i d := by
  rw [Array.getD_eq_getD_getElem?, Array.getD_eq_getD_getElem?, Array.getElem?_push]
  split
  · rename_i h
    rw [h, Array.getElem?_eq_none (Nat.le_refl _)]
    rfl
  · rfl

theorem getD_push_size (xs : Array α) (x d : α) : (xs.push x).getD xs.size d = x := by
  rw [Array.getD_eq_getD_getElem?, Array.getElem?_push_size]
  rfl

theorem getD_setIfInBounds (xs : Array α) (i j : Nat) (x d : α) :
    (xs.setIfInBounds i x).getD j d = if i = j ∧ i < xs.size then x else xs.getD j d := by
  rw [Array.getD_eq_getD_getElem?, Array.getD_eq_getD_getElem?, Array.getElem?_setIfInBounds]
  split
  · rename_i h
    split
    · simp_all
    · rename_i hi
      rw [if_neg (by omega), Array.getElem?_eq_none (by omega)]
  · rw [if_neg (by simp_all)]

end Pools

namespace Store

theorem array_setArray (s : Store) (a b : ArrayId) (xs : Array Value) :
    (s.setArray a xs).array b = if a = b ∧ a < s.arrays.size then xs else s.array b :=
  getD_setIfInBounds _ _ _ _ _

theorem object_setObject (s : Store) (o p : ObjectId) (es : Entries Value) :
    (s.setObject o es).object p = if o = p ∧ o < s.objects.size then es else s.object p :=
  getD_setIfInBounds _ _ _ _ _

theorem blob_setBlob (s : Store) (b c : BlobId) (x : Blob) :
    (s.setBlob b x).blob c = if b = c ∧ b < s.blobs.size then x else s.blob c :=
  getD_setIfInBounds _ _ _ _ _

theorem cell_setCell (s : Store) (c d : CellId) (x : Cell) :
    (s.setCell c x).cell d = if c = d ∧ c < s.cells.size then x else s.cell d :=
  getD_setIfInBounds _ _ _ _ _

theorem error_setError (s : Store) (e f : ErrorId) (x : ErrorRecord) :
    (s.setError e x).error f = if e = f ∧ e < s.errors.size then x else s.error f :=
  getD_setIfInBounds _ _ _ _ _

end Store

namespace World

/-- Whether a place is in the store. -/
def Has (w : World) : Place → Prop
  | .array a => a < w.store.arrays.size
  | .object o => o < w.store.objects.size
  | .blob b => b < w.store.blobs.size
  | .cell c => c < w.store.cells.size

instance (w : World) (x : Place) : Decidable (w.Has x) :=
  match x with
  | .array a => inferInstanceAs (Decidable (a < w.store.arrays.size))
  | .object o => inferInstanceAs (Decidable (o < w.store.objects.size))
  | .blob b => inferInstanceAs (Decidable (b < w.store.blobs.size))
  | .cell c => inferInstanceAs (Decidable (c < w.store.cells.size))

/-- Whether a place holds in one world what it holds in another. -/
def SameAt (w w' : World) : Place → Prop
  | .array a => w'.store.array a = w.store.array a
  | .object o => w'.store.object o = w.store.object o
  | .blob b => w'.store.blob b = w.store.blob b
  | .cell c => w'.store.cell c = w.store.cell c

/-- The place where the contents of a value are, if it is a container. What is put into a context goes to the scope it
looks out from. -/
def placeOf (w : World) : Value → Option Place
  | .context c => some (.object (w.scope (w.store.view c)).context)
  | v => v.own?

theorem placeOf_of_own (w : World) {v : Value} {x : Place} (h : v.own? = some x) : w.placeOf v = some x := by
  cases v <;> first | exact h | cases h

theorem SameAt.refl (w : World) (x : Place) : w.SameAt w x := by
  cases x <;> rfl

theorem SameAt.trans {w w' w'' : World} {x : Place} (h : w.SameAt w' x) (k : w'.SameAt w'' x) : w.SameAt w'' x := by
  cases x <;> exact Eq.trans k h

theorem Grown.has {w w' : World} (h : w.Grown w') {x : Place} (hx : w.Has x) : w'.Has x := by
  cases x with
  | array a => exact Nat.lt_of_lt_of_le hx (size_le_of_begins h.store.arrays)
  | object o => exact Nat.lt_of_lt_of_le hx (size_le_of_begins h.store.objects)
  | blob b => exact Nat.lt_of_lt_of_le hx (size_le_of_begins h.store.blobs)
  | cell c => exact Nat.lt_of_lt_of_le hx (size_le_of_begins h.store.cells)

theorem Grown.sameAt {w w' : World} (h : w.Grown w') {x : Place} (hx : w.Has x) : w.SameAt w' x := by
  cases x with
  | array a => exact getD_of_begins h.store.arrays hx _
  | object o => exact getD_of_begins h.store.objects hx _
  | blob b => exact getD_of_begins h.store.blobs hx _
  | cell c => exact getD_of_begins h.store.cells hx _

/-! ### Slots -/

end World

/-- A slot of a container: an element of an array, or an entry of an object. -/
inductive Slot where
  | index (i : Nat)
  | key (k : Key)
  deriving DecidableEq

/-- The slot that a part of a path names. -/
def Part.slot? : Part → Option Slot
  | .index i => some (.index i.toNat)
  | .key k => some (.key (.str k))
  | _ => none

/-- What a slot is filled with where nothing is, to make room for a part. -/
def Part.fill? : Part → Slot → Option Value
  | .index i, .index j => if j < i.toNat then some .null else none
  | _, _ => none

/-- Two paths part from each other. -/
def Path.Diverge (p q : List Part) : Prop :=
  ∃ front part rest other rest', p = front ++ part :: rest ∧ q = front ++ other :: rest' ∧ part ≠ other

namespace World

/-- What is in a slot of a value, if anything is. -/
def slot? (w : World) (v : Value) : Slot → Option Value
  | .index i =>
    match v with
    | .array a => (w.store.array a)[i]?
    | _ => none
  | .key k => w.valueAt? v k

theorem slot?_of_isNull (w : World) {v : Value} (h : v.isNull = true) (s : Slot) : w.slot? v s = none := by
  cases v with
  | null => cases s <;> rfl
  | absent => cases s <;> rfl
  | _ => cases h

/-! ### Trails -/

/-- What a part of a path leads to from a value; null where nothing is. -/
def next (w : World) (v : Value) : Part → Value
  | .index i =>
    match v with
    | .array a => (w.store.array a).getD i.toNat .null
    | _ => .null
  | .key k => (w.valueAt? v (.str k)).getD .null
  | _ => .null

/-- A step of a path leads to what is in the slot that it names. -/
theorem next_eq_slot (w : World) (v : Value) {part : Part} {s : Slot} (h : part.slot? = some s) :
    w.next v part = (w.slot? v s).getD .null := by
  cases part with
  | index i =>
    cases h
    cases v <;> first | exact Array.getD_eq_getD_getElem? .. | rfl
  | key k =>
    cases h
    rfl
  | _ => cases h

/-- The values that a path passes from a value on, before the one that it leads to. -/
def passed (w : World) : List Part → Value → List Value
  | [], _ => []
  | part :: rest, v => v :: w.passed rest (w.next v part)

/-- The value that a path leads to. -/
def target (w : World) : List Part → Value → Value
  | [], v => v
  | part :: rest, v => w.target rest (w.next v part)

theorem passed_append (w : World) (front back : List Part) (v : Value) :
    w.passed (front ++ back) v = w.passed front v ++ w.passed back (w.target front v) := by
  induction front generalizing v with
  | nil => rfl
  | cons part rest ih => exact congrArg (List.cons v) (ih (w.next v part))

theorem target_append (w : World) (front back : List Part) (v : Value) :
    w.target (front ++ back) v = w.target back (w.target front v) := by
  induction front generalizing v with
  | nil => rfl
  | cons part rest ih => exact ih (w.next v part)

/-- Whether a part of a path leads on from a value at all, be it to null. -/
def Opens : Value → Part → Prop
  | v, .index i => v.isNull = true ∨ (∃ a, v = .array a) ∧ 0 ≤ i
  | v, .key _ => v.isNull = true ∨ v.kind = .object
  | _, _ => False

/-- A path can be followed from a value, and leads to another. -/
def Reads (w : World) : List Part → Value → Value → Prop
  | [], v, r => v = r
  | part :: rest, v, r => Opens v part ∧ w.Reads rest (w.next v part) r

theorem Opens.placeOf {v : Value} {part : Part} (h : Opens v part) (w : World) (hn : v.isNull = false) :
    ∃ x, w.placeOf v = some x := by
  cases part with
  | index i =>
    rcases h with h | ⟨⟨a, rfl⟩, -⟩
    · rw [hn] at h
      cases h
    · exact ⟨_, rfl⟩
  | key k =>
    rcases h with h | h
    · rw [hn] at h
      cases h
    · cases v with
      | object o => exact ⟨_, rfl⟩
      | context c => exact ⟨_, rfl⟩
      | _ => cases h
  | _ => exact h.elim

theorem next_of_isNull (w : World) {v : Value} (h : v.isNull = true) (part : Part) : w.next v part = .null := by
  cases v with
  | null => cases part <;> rfl
  | absent => cases part <;> rfl
  | _ => cases h

theorem target_null (w : World) (parts : List Part) : w.target parts .null = .null := by
  induction parts with
  | nil => rfl
  | cons part rest ih =>
    unfold target
    rw [next_of_isNull w rfl]
    exact ih

theorem passed_null (w : World) (parts : List Part) : ∀ y ∈ w.passed parts .null, y = .null := by
  induction parts with
  | nil => simp [passed]
  | cons part rest ih =>
    unfold passed
    rw [next_of_isNull w rfl]
    simpa using ih

/-- A trail is the same where all that it passes leads on in the same way. -/
theorem trail_congr {w w' : World} {parts : List Part} {v : Value}
    (h : ∀ y ∈ w.passed parts v, ∀ part, w'.next y part = w.next y part) :
    w'.passed parts v = w.passed parts v ∧ w'.target parts v = w.target parts v ∧
      ∀ r, w'.Reads parts v r ↔ w.Reads parts v r := by
  induction parts generalizing v with
  | nil => exact ⟨rfl, rfl, fun r => Iff.rfl⟩
  | cons part rest ih =>
    unfold passed target Reads
    have hv := h v (by simp [passed]) part
    rw [hv]
    obtain ⟨hp, ht, hr⟩ := ih (v := w.next v part) fun y hy => h y (List.mem_cons_of_mem _ hy)
    exact ⟨by rw [hp], ht, fun r => and_congr_right fun _ => hr r⟩

/-! ### Making room -/

/-- A world in which empty containers have been added and arrays padded with nulls. -/
structure Padded (w m : World) : Prop where
  arrays : w.store.arrays.size ≤ m.store.arrays.size
  objects : w.store.objects.size ≤ m.store.objects.size
  array : ∀ a, ∃ n, m.store.array a = w.store.array a ++ Array.replicate n .null
  object : ∀ o, m.store.object o = w.store.object o
  rest : m = { w with store := { w.store with arrays := m.store.arrays, objects := m.store.objects } }

namespace Padded

variable {w m m' : World}

theorem refl (w : World) : w.Padded w where
  arrays := Nat.le_refl _
  objects := Nat.le_refl _
  array a := ⟨0, by simp⟩
  object _ := rfl
  rest := rfl

theorem trans (h : w.Padded m) (k : m.Padded m') : w.Padded m' where
  arrays := Nat.le_trans h.arrays k.arrays
  objects := Nat.le_trans h.objects k.objects
  array a := by
    obtain ⟨n, hn⟩ := h.array a
    obtain ⟨n', hn'⟩ := k.array a
    exact ⟨n + n', by rw [hn', hn, Array.append_assoc, Array.replicate_append_replicate]⟩
  object o := by rw [k.object, h.object]
  rest := by
    have hk := k.rest
    rw [h.rest] at hk
    exact hk

theorem has (h : w.Padded m) {x : Place} (hx : w.Has x) : m.Has x := by
  cases x with
  | array a => exact Nat.lt_of_lt_of_le hx h.arrays
  | object o => exact Nat.lt_of_lt_of_le hx h.objects
  | blob b => rw [h.rest]; exact hx
  | cell c => rw [h.rest]; exact hx

theorem scope (h : w.Padded m) (s : ScopeId) : m.scope s = w.scope s := by
  rw [h.rest]
  rfl

theorem view (h : w.Padded m) (c : ViewId) : m.store.view c = w.store.view c := by
  rw [h.rest]
  rfl

theorem placeOf (h : w.Padded m) (v : Value) : m.placeOf v = w.placeOf v := by
  cases v with
  | context c => simp only [World.placeOf, h.scope, h.view]
  | _ => rfl

theorem chainFrom (h : w.Padded m) (fuel : Nat) (s : ScopeId) : m.chainFrom fuel s = w.chainFrom fuel s := by
  induction fuel generalizing s with
  | zero => rfl
  | succ fuel ih =>
    unfold World.chainFrom
    rw [h.scope]
    cases (w.scope s).parent with
    | none => rfl
    | some p => simp only [ih p]

theorem lookup? (h : w.Padded m) (s : ScopeId) (k : Key) : m.lookup? s k = w.lookup? s k := by
  unfold World.lookup? World.chain World.contextOf
  rw [h.chainFrom]
  simp only [h.scope, h.object]

theorem valueAt? (h : w.Padded m) (v : Value) (k : Key) : m.valueAt? v k = w.valueAt? v k := by
  cases v with
  | object o => simp only [World.valueAt?, h.object]
  | context c => simp only [World.valueAt?, h.view, h.lookup?]
  | _ => rfl

/-- No step of a path tells a padded world from the one before. -/
theorem next (h : w.Padded m) (v : Value) (part : Part) : m.next v part = w.next v part := by
  cases part with
  | index i =>
    cases v with
    | array a =>
      obtain ⟨n, hn⟩ := h.array a
      simp only [World.next, hn, Array.getD_eq_getD_getElem?, Array.getElem?_append]
      split
      · rfl
      · rename_i hi
        rw [Array.getElem?_eq_none (Nat.not_lt.mp hi), Array.getElem?_replicate]
        split <;> rfl
    | _ => rfl
  | key k => simp only [World.next, h.valueAt?]
  | _ => rfl

theorem trail (h : w.Padded m) (parts : List Part) (v : Value) :
    m.passed parts v = w.passed parts v ∧ m.target parts v = w.target parts v ∧
      ∀ r, m.Reads parts v r ↔ w.Reads parts v r :=
  trail_congr fun y _ part => h.next y part

theorem newArray (w : World) : w.Padded { w with store := (w.store.newArray #[]).2 } where
  arrays := by simp [Store.newArray]
  objects := Nat.le_refl _
  array a := ⟨0, by
    simp only [Array.replicate_zero, Array.append_empty]
    exact getD_push_default w.store.arrays #[] a⟩
  object _ := rfl
  rest := rfl

theorem newObject (w : World) : w.Padded { w with store := (w.store.newObject []).2 } where
  arrays := Nat.le_refl _
  objects := by simp [Store.newObject]
  array a := ⟨0, by simp; rfl⟩
  object o := getD_push_default w.store.objects [] o
  rest := rfl

theorem pad (w : World) (a : ArrayId) (n : Nat) :
    w.Padded { w with store := w.store.setArray a (Path.extendTo (w.store.array a) n) } where
  arrays := by simp [Store.setArray]
  objects := Nat.le_refl _
  array b := by
    dsimp only
    rw [Store.array_setArray]
    split
    · rename_i h
      rw [← h.1]
      exact ⟨_, rfl⟩
    · exact ⟨0, by simp⟩
  object _ := rfl
  rest := rfl

end Padded

end World

end EventScript
