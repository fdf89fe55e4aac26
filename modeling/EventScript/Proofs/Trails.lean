import EventScript.Proofs.Sparing
import Mathlib.Logic.Relation

/-!
# Trails without cycles

The places that a step of a path looks at, and the references between places. Where these make no cycle, a path never
comes back to a place that it has looked at.
-/

namespace EventScript

theorem Key.same_self (k : Key) : k.same k = true := by
  cases k <;> simp [Key.same, Key.number?]

theorem Entries.get?_insert_self {α : Type} (k : Key) (v : α) (es : Entries α) : get? k (insert k v es) = some v := by
  induction es with
  | nil =>
    change (if k.same k then some v else none) = some v
    rw [if_pos k.same_self]
  | cons e rest ih =>
    obtain ⟨k', v'⟩ := e
    unfold insert
    split
    · rename_i h
      change (if k.same k' then some v else get? k rest) = some v
      rw [if_pos h]
    · rename_i h
      change (if k.same k' then some v' else get? k (insert k v rest)) = some v
      rw [if_neg h]
      exact ih

theorem Entries.mem_of_get? {α : Type} {k : Key} {v : α} {es : Entries α} (h : get? k es = some v) :
    ∃ k', (k', v) ∈ es := by
  induction es with
  | nil => cases h
  | cons e rest ih =>
    obtain ⟨k', v'⟩ := e
    unfold get? at h
    split at h
    · cases h
      exact ⟨k', List.mem_cons_self⟩
    · obtain ⟨k'', hm⟩ := ih h
      exact ⟨k'', List.mem_cons_of_mem _ hm⟩

namespace World

/-- The objects that are looked at along a chain of scopes, up to the first with an entry under the key. -/
def consultedIn (w : World) (k : Key) : List ScopeId → List Place
  | [] => []
  | t :: rest =>
    .object (w.scope t).context :: if (Entries.get? k (w.contextOf t)).isSome then [] else w.consultedIn k rest

/-- The places that a step of a path looks at. -/
def consulted (w : World) (v : Value) (part : Part) : List Place :=
  match v, part with
  | .context c, .key k => w.consultedIn (.str k) (w.chain (w.store.view c))
  | .context _, _ => []
  | v, _ => v.own?.toList

/-- All places that can be looked at in a value. -/
def touched (w : World) : Value → List Place
  | .context c => (w.chain (w.store.view c)).map fun t => .object (w.scope t).context
  | v => v.own?.toList

theorem touched_context (w : World) (c : ViewId) :
    w.touched (.context c) = (w.chain (w.store.view c)).map fun t => .object (w.scope t).context := rfl

theorem touched_of_own (w : World) {v : Value} {x : Place} (h : v.own? = some x) : w.touched v = [x] := by
  cases v <;> first | cases h; rfl | cases h

theorem not_touched_cell (w : World) (v : Value) (c : CellId) : Place.cell c ∉ w.touched v := by
  intro h
  cases v with
  | context d =>
    rw [touched_context] at h
    obtain ⟨t, -, ht⟩ := List.mem_map.mp h
    cases ht
  | _ => simp [touched, Value.own?] at h

/-- A value that leads to nothing that is missing. -/
structure Knows (w : World) (v : Value) : Prop where
  has : ∀ x ∈ w.touched v, w.Has x
  sees : ∀ c, v = .context c → c < w.store.views.size ∧ ∀ t ∈ w.chain (w.store.view c), t < w.scopes.size

variable {w w' m : World}

theorem chain_eq_cons (w : World) (s : ScopeId) : ∃ rest, w.chain s = s :: rest := by
  unfold chain chainFrom
  exact ⟨_, rfl⟩

section Ancestors

variable {P : ScopeId → Prop} (hparent : ∀ s, P s → ∀ p, (w.scope s).parent = some p → P p)
include hparent

/-- What passes on from each scope to its parent holds for all ancestors. -/
theorem of_mem_chain {s t : ScopeId} (hs : P s) (ht : t ∈ w.chain s) : P t := by
  suffices h : ∀ fuel s, P s → t ∈ w.chainFrom fuel s → P t from h _ s hs ht
  intro fuel
  induction fuel with
  | zero => exact fun s _ ht => by cases ht
  | succ fuel ih =>
    intro s hs ht
    unfold World.chainFrom at ht
    rcases List.mem_cons.mp ht with rfl | ht
    · exact hs
    · cases hp : (w.scope s).parent with
      | none =>
        simp only [hp] at ht
        cases ht
      | some p =>
        simp only [hp] at ht
        exact ih p (hparent s hs p hp) ht

theorem of_caretScopeFrom {s : ScopeId} (hs : P s) (caret : Nat) : P (w.caretScopeFrom caret s) := by
  induction caret generalizing s with
  | zero => exact hs
  | succ caret ih =>
    unfold World.caretScopeFrom
    cases hp : (w.scope s).parent with
    | none => exact hs
    | some p => exact ih (hparent s hs p hp)

end Ancestors

/-- Local data are null or those of a scope on the chain. A scope whose data are absent is passed over. -/
theorem of_localIn {P : Value → Prop} (hnull : P .null) {ts : List ScopeId}
    (hlocal : ∀ t ∈ ts, (w.scope t).localData ≠ .absent → P (w.scope t).localData) (skip : Nat) :
    P (w.localIn skip ts) := by
  induction ts generalizing skip with
  | nil => exact hnull
  | cons t rest ih =>
    obtain ⟨ht, hrest⟩ := List.forall_mem_cons.mp hlocal
    unfold World.localIn
    dsimp only
    split
    · split
      · exact hnull
      · exact ih hrest skip
    · rename_i hdata
      cases skip with
      | zero => exact ht (by simpa using hdata)
      | succ skip =>
        dsimp only
        split
        · exact hnull
        · exact ih hrest skip

theorem placeOf_mem_touched {v : Value} {x : Place} (h : w.placeOf v = some x) : x ∈ w.touched v := by
  cases v with
  | context c =>
    cases h
    obtain ⟨rest, hrest⟩ := w.chain_eq_cons (w.store.view c)
    rw [touched_context, hrest]
    exact List.mem_cons_self
  | _ => exact Option.mem_toList.mpr h

theorem consultedIn_subset (w : World) (k : Key) (ts : List ScopeId) :
    ∀ x ∈ w.consultedIn k ts, x ∈ ts.map fun t => Place.object (w.scope t).context := by
  induction ts with
  | nil => exact fun x hx => hx
  | cons t rest ih =>
    intro x hx
    unfold consultedIn at hx
    rw [List.map_cons]
    rcases List.mem_cons.mp hx with rfl | hx
    · exact List.mem_cons_self
    · split at hx
      · cases hx
      · exact List.mem_cons_of_mem _ (ih x hx)

theorem consulted_subset (w : World) (v : Value) (part : Part) : ∀ x ∈ w.consulted v part, x ∈ w.touched v := by
  cases v with
  | context c =>
    cases part with
    | key k => exact w.consultedIn_subset _ _
    | _ => exact fun x hx => by cases hx
  | _ => exact fun x hx => hx

theorem placeOf_mem_consulted {v : Value} {part : Part} (ho : Opens v part) {x : Place} (h : w.placeOf v = some x) :
    x ∈ w.consulted v part := by
  cases v with
  | context c =>
    cases h
    cases part with
    | key k =>
      obtain ⟨rest, hrest⟩ := w.chain_eq_cons (w.store.view c)
      change _ ∈ w.consultedIn _ (w.chain (w.store.view c))
      rw [hrest]
      exact List.mem_cons_self
    | index i =>
      rcases ho with ho | ⟨⟨a, ha⟩, -⟩
      · cases ho
      · cases ha
    | _ => exact ho.elim
  | _ => exact Option.mem_toList.mpr h

/-! ### Looking out -/

/-- A value looks out on the same scopes in two worlds. -/
def SameView (w w' : World) (v : Value) : Prop :=
  ∀ c, v = .context c → w'.store.view c = w.store.view c ∧ ∀ t ∈ w.chain (w.store.view c), w'.scope t = w.scope t

theorem chainFrom_congr (fuel : Nat) (s : ScopeId) (h : ∀ t ∈ w.chainFrom fuel s, w'.scope t = w.scope t) :
    w'.chainFrom fuel s = w.chainFrom fuel s := by
  induction fuel generalizing s with
  | zero => rfl
  | succ fuel ih =>
    unfold chainFrom at h ⊢
    rw [h s List.mem_cons_self]
    cases hp : (w.scope s).parent with
    | none => rfl
    | some p =>
      simp only [hp] at h
      dsimp only
      rw [ih p fun t ht => h t (List.mem_cons_of_mem _ ht)]

theorem SameView.chain {c : ViewId} (h : w.SameView w' (.context c)) :
    w'.chain (w'.store.view c) = w.chain (w.store.view c) := by
  rw [(h c rfl).1]
  exact chainFrom_congr _ _ (h c rfl).2

theorem SameView.placeOf {v : Value} (h : w.SameView w' v) : w'.placeOf v = w.placeOf v := by
  cases v with
  | context c =>
    obtain ⟨rest, hrest⟩ := w.chain_eq_cons (w.store.view c)
    have hs := (h c rfl).2 (w.store.view c) (by rw [hrest]; exact List.mem_cons_self)
    simp only [World.placeOf, (h c rfl).1, hs]
  | _ => rfl

theorem SameView.touched {v : Value} (h : w.SameView w' v) : w'.touched v = w.touched v := by
  cases v with
  | context c =>
    rw [touched_context, touched_context, h.chain]
    exact List.map_congr_left fun t ht => by rw [(h c rfl).2 t ht]
  | _ => rfl

theorem SameView.trans {v : Value} {w'' : World} (h : w.SameView w' v) (k : w'.SameView w'' v) : w.SameView w'' v := by
  intro c hc
  subst hc
  refine ⟨(k c rfl).1.trans (h c rfl).1, fun t ht => ?_⟩
  rw [(k c rfl).2 t (by rw [h.chain]; exact ht), (h c rfl).2 t ht]

theorem lookupIn_congr (k : Key) (ts : List ScopeId) (hs : ∀ t ∈ ts, w'.scope t = w.scope t)
    (h : ∀ x ∈ w.consultedIn k ts, w.SameAt w' x) :
    (ts.findSome? fun t => Entries.get? k (w'.contextOf t)) = ts.findSome? fun t => Entries.get? k (w.contextOf t) := by
  induction ts with
  | nil => rfl
  | cons t rest ih =>
    have ht : w'.contextOf t = w.contextOf t := by
      have := h (.object (w.scope t).context) (by unfold consultedIn; exact List.mem_cons_self)
      unfold contextOf
      rw [hs t List.mem_cons_self]
      exact this
    rw [List.findSome?_cons, List.findSome?_cons, ht]
    cases hk : Entries.get? k (w.contextOf t) with
    | some v => rfl
    | none =>
      refine ih (fun u hu => hs u (List.mem_cons_of_mem _ hu)) fun x hx => h x ?_
      unfold consultedIn
      rw [hk]
      exact List.mem_cons_of_mem _ hx

/-- A step of a path leads on in the same way where all that it looks at is the same. -/
theorem next_congr {v : Value} {part : Part} (hv : w.SameView w' v) (h : ∀ x ∈ w.consulted v part, w.SameAt w' x) :
    w'.next v part = w.next v part := by
  cases part with
  | index i =>
    cases v with
    | array a =>
      have ha : w'.store.array a = w.store.array a := h (.array a) (by simp [consulted, Value.own?])
      simp only [next, ha]
    | _ => rfl
  | key k =>
    cases v with
    | object o =>
      have ho : w'.store.object o = w.store.object o := h (.object o) (by simp [consulted, Value.own?])
      simp only [next, valueAt?, ho]
    | context c =>
      simp only [next, valueAt?, lookup?, hv.chain]
      rw [lookupIn_congr _ _ (hv c rfl).2 h]
    | _ => rfl
  | _ => rfl

theorem Spares.sameView {R : Place → Prop} (h : w.Spares R w') {v : Value} (hv : w.Knows v) : w.SameView w' v := by
  intro c hc
  obtain ⟨hview, hscopes⟩ := hv.sees c hc
  exact ⟨getD_of_begins h.views hview _, fun t ht => getD_of_begins h.scopes (hscopes t ht) _⟩

theorem ChangedAt.sameView {x : Place} (h : ChangedAt x w w') (v : Value) : w.SameView w' v := by
  intro c _
  unfold Store.view World.scope
  rw [h.views, h.scopes]
  exact ⟨rfl, fun _ _ => rfl⟩

theorem ChangedAt.knows {x : Place} (h : ChangedAt x w w') {v : Value} (hv : w.Knows v) : w'.Knows v where
  has y hy := by
    rw [(h.sameView v).touched] at hy
    exact h.has y (hv.has y hy)
  sees c hc := by
    subst hc
    rw [(h.sameView (.context c)).chain, h.views, h.scopes]
    exact hv.sees c rfl

theorem Padded.sameView (h : w.Padded m) (v : Value) : w.SameView m v :=
  fun c _ => ⟨h.view c, fun t _ => h.scope t⟩

theorem Padded.consulted (h : w.Padded m) (v : Value) (part : Part) : m.consulted v part = w.consulted v part := by
  have hin (k : Key) (ts : List ScopeId) : m.consultedIn k ts = w.consultedIn k ts := by
    induction ts with
    | nil => rfl
    | cons t rest ih =>
      unfold consultedIn contextOf
      rw [h.scope, h.object, ih]
  cases v with
  | context c =>
    cases part with
    | key k =>
      unfold World.consulted
      dsimp only
      rw [(h.sameView (.context c)).chain, hin]
    | _ => rfl
  | _ => rfl

theorem Padded.knows (h : w.Padded m) {v : Value} (hv : w.Knows v) : m.Knows v where
  has x hx := by
    rw [(h.sameView v).touched] at hx
    exact h.has (hv.has x hx)
  sees c hc := by
    subst hc
    rw [(h.sameView (.context c)).chain, h.rest]
    exact hv.sees c rfl

/-! ### References between places -/

/-- A place refers to another where a value in it has its contents, and the object of a scope to that of the parent. -/
inductive Refers (w : World) : Place → Place → Prop where
  | element {a v x} : v ∈ w.store.array a → w.placeOf v = some x → Refers w (.array a) x
  | entry {o e x} : e ∈ w.store.object o → w.placeOf e.2 = some x → Refers w (.object o) x
  | parent {s p} : (w.scope s).parent = some p → Refers w (.object (w.scope s).context) (.object (w.scope p).context)

/-- No place leads back to itself. -/
def Acyclic (w : World) : Prop := ∀ x, ¬Relation.TransGen w.Refers x x

theorem Acyclic.of_rank (rank : Place → Nat) (h : ∀ {x y}, w.Refers x y → rank y < rank x) : w.Acyclic := by
  intro x hx
  have hlt {y : Place} (hy : Relation.TransGen w.Refers x y) : rank y < rank x := by
    induction hy with
    | single hxy => exact h hxy
    | tail _ hyz ih => exact Nat.lt_trans (h hyz) ih
  exact Nat.lt_irrefl _ (hlt hx)

/-- Nothing that is missing is referred to. -/
structure Closed (w : World) : Prop where
  global : w.Has (.cell w.globalCell)
  state : w.Has (.cell w.stateCell)
  array : ∀ a, ∀ v ∈ w.store.array a, w.Knows v
  object : ∀ o, ∀ e ∈ w.store.object o, w.Knows e.2
  cell : ∀ c, w.Knows (w.store.cell c).value

open Relation

theorem mem_or_null (xs : Array Value) (i : Nat) : xs.getD i .null ∈ xs ∨ xs.getD i .null = .null := by
  rw [Array.getD_eq_getD_getElem?]
  cases h : xs[i]? with
  | none => exact .inr rfl
  | some v => exact .inl (Array.mem_of_getElem? h)

theorem refers_chain (fuel : Nat) (s : ScopeId) :
    ∀ t ∈ w.chainFrom fuel s, ReflTransGen w.Refers (.object (w.scope s).context) (.object (w.scope t).context) := by
  induction fuel generalizing s with
  | zero => exact fun t ht => by cases ht
  | succ fuel ih =>
    intro t ht
    unfold chainFrom at ht
    rcases List.mem_cons.mp ht with rfl | ht
    · exact .refl
    · cases hp : (w.scope s).parent with
      | none =>
        simp only [hp] at ht
        cases ht
      | some p =>
        simp only [hp] at ht
        exact .head (.parent hp) (ih p t ht)

/-- What can be looked at in a value is reached from the place of its contents. -/
theorem reaches_touched {v : Value} {x : Place} (hx : x ∈ w.touched v) :
    ∃ p, w.placeOf v = some p ∧ ReflTransGen w.Refers p x := by
  cases v with
  | context c =>
    rw [touched_context] at hx
    obtain ⟨t, ht, rfl⟩ := List.mem_map.mp hx
    exact ⟨_, rfl, refers_chain _ _ t ht⟩
  | _ => exact ⟨x, Option.mem_toList.mp hx, .refl⟩

theorem refers_lookup (k : Key) {v : Value} {y : Place} (hy : w.placeOf v = some y) (fuel : Nat) (s : ScopeId)
    (h : ((w.chainFrom fuel s).findSome? fun t => Entries.get? k (w.contextOf t)) = some v) :
    ∀ x ∈ w.consultedIn k (w.chainFrom fuel s), TransGen w.Refers x y := by
  induction fuel generalizing s with
  | zero => cases h
  | succ fuel ih =>
    intro x hx
    unfold chainFrom at h hx
    unfold consultedIn at hx
    rw [List.findSome?_cons] at h
    cases hk : Entries.get? k (w.contextOf s) with
    | some u =>
      simp only [hk, Option.isSome_some, if_true, List.mem_singleton] at h hx
      cases h
      obtain ⟨k', hm⟩ := Entries.mem_of_get? hk
      rw [hx]
      exact .single (.entry hm hy)
    | none =>
      simp only [hk] at h hx
      cases hp : (w.scope s).parent with
      | none =>
        simp only [hp] at h
        cases h
      | some p =>
        simp only [hp, Option.isSome_none, Bool.false_eq_true, if_false] at h hx
        rcases List.mem_cons.mp hx with rfl | hx
        · cases fuel with
          | zero => cases h
          | succ fuel =>
            refine .head (.parent hp) (ih p h _ ?_)
            unfold chainFrom consultedIn
            exact List.mem_cons_self
        · exact ih p h x hx

/-- All that a step of a path looks at refers to where it leads. -/
theorem refers_next {v : Value} {part : Part} {y : Place} (hy : w.placeOf (w.next v part) = some y) :
    (∃ p, w.placeOf v = some p ∧ p ∈ w.consulted v part) ∧ ∀ x ∈ w.consulted v part, TransGen w.Refers x y := by
  cases part with
  | index i =>
    cases v with
    | array a =>
      refine ⟨⟨.array a, rfl, List.mem_singleton_self _⟩, fun x hx => ?_⟩
      rw [List.mem_singleton.mp hx]
      rcases mem_or_null (w.store.array a) i.toNat with h | h
      · exact .single (.element h hy)
      · simp only [next, h] at hy
        cases hy
    | _ => cases hy
  | key k =>
    cases v with
    | object o =>
      refine ⟨⟨.object o, rfl, List.mem_singleton_self _⟩, fun x hx => ?_⟩
      rw [List.mem_singleton.mp hx]
      cases hk : Entries.get? (.str k) (w.store.object o) with
      | none =>
        simp only [next, valueAt?, hk] at hy
        cases hy
      | some u =>
        simp only [next, valueAt?, hk, Option.getD_some] at hy
        obtain ⟨k', hm⟩ := Entries.mem_of_get? hk
        exact .single (.entry hm hy)
    | context c =>
      have ho : Opens (.context c) (.key k) := .inr rfl
      refine ⟨⟨_, rfl, placeOf_mem_consulted ho rfl⟩, ?_⟩
      cases hl : w.lookup? (w.store.view c) (.str k) with
      | none =>
        simp only [next, valueAt?, hl] at hy
        cases hy
      | some u =>
        simp only [next, valueAt?, hl, Option.getD_some] at hy
        exact refers_lookup _ hy _ _ hl
    | _ => cases hy
  | _ => cases hy

/-! ### Straight paths -/

/-- A path from a value meets no handle, nothing that is missing, and no place again. -/
def Straight (w : World) : List Part → Value → Prop
  | [], v => w.Knows v ∧ ∀ h, v ≠ .handle h
  | part :: rest, v =>
    (w.Knows v ∧ ∀ h, v ≠ .handle h) ∧
    (∀ y, y ∈ w.passed rest (w.next v part) ∨ y = w.target rest (w.next v part) →
      (∀ x ∈ w.consulted v part, w.placeOf y ≠ some x) ∧ ∀ x, w.placeOf v = some x → x ∉ w.touched y) ∧
    w.Straight rest (w.next v part)

theorem Padded.straight (h : w.Padded m) {parts : List Part} {v : Value} (hs : w.Straight parts v) :
    m.Straight parts v := by
  induction parts generalizing v with
  | nil => exact ⟨h.knows hs.1, hs.2⟩
  | cons part rest ih =>
    obtain ⟨⟨hk, hh⟩, hl, hr⟩ := hs
    obtain ⟨hp, ht, -⟩ := h.trail rest (w.next v part)
    unfold Straight
    rw [h.next, hp, ht, h.consulted, h.placeOf]
    refine ⟨⟨h.knows hk, hh⟩, fun y hy => ?_, ih hr⟩
    rw [h.placeOf, (h.sameView y).touched]
    exact hl y hy

theorem reaches_trail {parts : List Part} {v y : Value} {q : Place}
    (hy : y ∈ w.passed parts v ∨ y = w.target parts v) (hq : w.placeOf y = some q) :
    ∃ p, w.placeOf v = some p ∧ ReflTransGen w.Refers p q := by
  induction parts generalizing v with
  | nil =>
    rcases hy with hy | rfl
    · cases hy
    · exact ⟨q, hq, .refl⟩
  | cons part rest ih =>
    rcases hy with hy | hy
    · rcases List.mem_cons.mp hy with rfl | hy
      · exact ⟨q, hq, .refl⟩
      · obtain ⟨p', hp', hr⟩ := ih (.inl hy)
        obtain ⟨⟨p, hp, hc⟩, hn⟩ := refers_next hp'
        exact ⟨p, hp, (hn p hc).to_reflTransGen.trans hr⟩
    · obtain ⟨p', hp', hr⟩ := ih (.inr hy)
      obtain ⟨⟨p, hp, hc⟩, hn⟩ := refers_next hp'
      exact ⟨p, hp, (hn p hc).to_reflTransGen.trans hr⟩

theorem knows_null (w : World) : w.Knows .null where
  has x hx := by cases hx
  sees c hc := by cases hc

theorem knows_of_own (w : World) {v : Value} {x : Place} (hv : v.own? = some x) (hx : w.Has x) : w.Knows v where
  has y hy := by
    rw [touched_of_own w hv, List.mem_singleton] at hy
    exact hy ▸ hx
  sees c hc := by
    subst hc
    cases hv

theorem Closed.slot? {v : Value} (h : w.Closed) {s : Slot} {u : Value} (hs : w.slot? v s = some u) : w.Knows u := by
  cases s with
  | index i =>
    cases v with
    | array a => exact h.array a u (Array.mem_of_getElem? hs)
    | _ => cases hs
  | key k =>
    have entry {o : ObjectId} (hk : Entries.get? k (w.store.object o) = some u) : w.Knows u := by
      obtain ⟨k', hm⟩ := Entries.mem_of_get? hk
      exact h.object o _ hm
    cases v with
    | object o => exact entry hs
    | context c =>
      obtain ⟨t, -, ht⟩ := List.exists_of_findSome?_eq_some hs
      exact entry ht
    | _ => cases hs

theorem Closed.next (h : w.Closed) (v : Value) (part : Part) : w.Knows (w.next v part) := by
  cases hp : part.slot? with
  | none =>
    have hnull : w.next v part = .null := by cases part <;> first | rfl | cases hp
    rw [hnull]
    exact knows_null w
  | some s =>
    rw [w.next_eq_slot v hp]
    cases hs : w.slot? v s with
    | none => exact knows_null w
    | some u => exact h.slot? hs

/-- Without cycles, every path that meets no handle is straight. -/
theorem Acyclic.straight (ha : w.Acyclic) (hc : w.Closed) {parts : List Part} {v : Value} (hv : w.Knows v)
    (hh : ∀ y, y ∈ w.passed parts v ∨ y = w.target parts v → ∀ x, y ≠ .handle x) : w.Straight parts v := by
  induction parts generalizing v with
  | nil => exact ⟨hv, hh v (.inr rfl)⟩
  | cons part rest ih =>
    refine ⟨⟨hv, hh v (.inl List.mem_cons_self)⟩, fun y hy => ?_, ih (hc.next v part) fun y hy => hh y ?_⟩
    · constructor
      · intro x hx hq
        obtain ⟨p, hp, hr⟩ := reaches_trail hy hq
        exact ha x (((refers_next hp).2 x hx).trans_left hr)
      · intro x hx ht
        obtain ⟨q, hq, hr⟩ := reaches_touched ht
        obtain ⟨p, hp, hr'⟩ := reaches_trail hy hq
        obtain ⟨⟨x', hx', hm⟩, hn⟩ := refers_next hp
        rw [hx] at hx'
        cases hx'
        exact ha x (((hn x hm).trans_left hr').trans_left hr)
    · exact hy.imp (List.mem_cons_of_mem _) id

end World

end EventScript
