import EventScript.Proofs.Descents
import EventScript.Proofs.Grafting

/-!
# Chains of handles

A handle leads along a path to a slot, and in the slot there may be another handle. A chain is read for a limited number
of steps; it is written through to its end as far down as there are levels of evaluation.
-/

namespace EventScript

namespace World

variable {w w' : World}

/-- Where a handle leads: the cell from whose value it goes on, and the parts along which it does. -/
def site? (w : World) (x : HandleId) : Option (CellId × List Part) :=
  match w.store.handle x with
  | .bound (.mk (.root r) rest) (some _) => (w.sharedCell? r.key).map fun c => (c, rest)
  | .rooted c (.mk (.root r) rest) => if r.key = .global ∨ r.key = .data then some (c, rest) else none
  | _ => none

/-- The limits under which a handle is written to: those of the world where it follows a path in a scope. -/
def limitsOf (w : World) (x : HandleId) : Limits :=
  match w.store.handle x with
  | .bound .. => w.limits
  | _ => {}

/-- The path of a handle as errors name it. -/
def textOf (w : World) (x : HandleId) : String :=
  match w.store.handle x with
  | .bound path _ => path.text
  | .rooted _ path => path.text
  | .readOnly _ => ""

/-- A handle leads along parts from the value of a cell to a value, and meets no handle before. -/
structure Leads (w : World) (x : HandleId) (c : CellId) (parts : List Part) (u : Value) : Prop where
  site : w.site? x = some (c, parts)
  has : w.Has (.cell c)
  track : w.Track (w.limitsOf x) parts (w.store.cell c).value
  target : w.target parts (w.store.cell c).value = u

/-- A chain of handles, each of which leads to the next one, from the first to the last. -/
inductive Links (w : World) : HandleId → List HandleId → HandleId → Prop where
  | here (x) : Links w x [] x
  | next {x c parts z xs y} : w.Leads x c parts (.handle z) → Links w z xs y → Links w x (x :: xs) y

theorem site?_cases {x : HandleId} {c : CellId} {parts : List Part} (h : w.site? x = some (c, parts)) :
    (∃ r s, w.store.handle x = .bound (.mk (.root r) parts) (some s) ∧ w.sharedCell? r.key = some c) ∨
    ∃ r, w.store.handle x = .rooted c (.mk (.root r) parts) ∧ (r.key = .global ∨ r.key = .data) := by
  unfold site? at h
  split at h
  · rename_i r rest s hx
    obtain ⟨d, hd, he⟩ := Option.map_eq_some_iff.mp h
    cases he
    exact .inl ⟨r, s, hx, hd⟩
  · rename_i d r rest hx
    split at h
    · cases h
      exact .inr ⟨r, hx, by assumption⟩
    · cases h
  · cases h

theorem isReadOnly_of_site {x : HandleId} {c : CellId} {parts : List Part} (h : w.site? x = some (c, parts)) :
    w.store.isReadOnly x = false := by
  unfold Store.isReadOnly
  rcases site?_cases h with ⟨r, s, hx, -⟩ | ⟨r, hx, -⟩ <;> rw [hx]

end World

/-- A place for a value: a cell, or a slot of an array or object. -/
inductive Spot where
  | cell (c : CellId)
  | slot (x : Place) (s : Slot)
  deriving DecidableEq

namespace World

variable {w w' w'' : World} {S : Spot → Prop}

/-- A path from a value looks at a spot of a set. -/
def Crosses (w : World) (S : Spot → Prop) (parts : List Part) (v : Value) : Prop :=
  ∃ st ∈ w.steps parts v, ∃ s, st.2.1.slot? = some s ∧ ∃ x ∈ w.consulted st.1 st.2.1, S (.slot x s)

/-- A path from the value of a cell looks at a spot of a set. -/
def Looks (w : World) (S : Spot → Prop) (c : CellId) (parts : List Part) : Prop :=
  S (.cell c) ∨ w.Crosses S parts (w.store.cell c).value

/-- The spot where a path from the value of a cell ends, if the container is there. -/
def spot? (w : World) (c : CellId) (parts : List Part) : Option Spot :=
  match parts.getLast? with
  | none => some (.cell c)
  | some part =>
    match w.placeOf (w.target parts.dropLast (w.store.cell c).value), part.slot? with
    | some x, some s => some (.slot x s)
    | _, _ => none

/-- Only what is at the spots of a set may have been replaced. Arrays may have been made longer by nulls, and
subscribers told. -/
structure Altered (S : Spot → Prop) (w w' : World) : Prop where
  has : ∀ x, w.Has x → w'.Has x
  cell : ∀ c, ¬S (.cell c) → w'.store.cell c = w.store.cell c
  element : ∀ a i, ¬S (.slot (.array a) (.index i)) →
    (w'.store.array a).getD i .null = (w.store.array a).getD i .null
  entry : ∀ o k, ¬S (.slot (.object o) (.key k)) →
    Entries.get? k (w'.store.object o) = Entries.get? k (w.store.object o)
  rest : w' = { w with
    store := { w.store with arrays := w'.store.arrays, objects := w'.store.objects, cells := w'.store.cells }
    notices := w'.notices }

namespace Altered

theorem told (S : Spot → Prop) (w : World) (notices : Array Notice) : w.Altered S { w with notices } where
  has x hx := by cases x <;> exact hx
  cell _ _ := rfl
  element _ _ _ := rfl
  entry _ _ _ := rfl
  rest := rfl

theorem refl (S : Spot → Prop) (w : World) : w.Altered S w := told S w w.notices

theorem trans (h : w.Altered S w') (k : w'.Altered S w'') : w.Altered S w'' where
  has x hx := k.has x (h.has x hx)
  cell c hc := (k.cell c hc).trans (h.cell c hc)
  element a i hs := (k.element a i hs).trans (h.element a i hs)
  entry o l hs := (k.entry o l hs).trans (h.entry o l hs)
  rest := by
    have hk := k.rest
    rw [h.rest] at hk
    exact hk

theorem of_padded (h : w.Padded w') : w.Altered S w' where
  has _ hx := h.has hx
  cell c _ := by rw [h.rest]; rfl
  element a i _ := by
    obtain ⟨n, hn⟩ := h.array a
    have hnext := h.next (.array a) (.index i)
    simpa [World.next] using hnext
  entry o _ _ := by rw [h.object]
  rest := by
    have hr := h.rest
    rw [hr]

theorem sameView (h : w.Altered S w') (v : Value) : w.SameView w' v := by
  intro c _
  rw [h.rest]
  exact ⟨rfl, fun _ _ => rfl⟩

theorem knows (h : w.Altered S w') {v : Value} (hv : w.Knows v) : w'.Knows v where
  has y hy := by
    rw [(h.sameView v).touched] at hy
    exact h.has y (hv.has y hy)
  sees c hc := by
    subst hc
    rw [(h.sameView (.context c)).chain, h.rest]
    exact hv.sees c rfl

theorem lookup (h : w.Altered S w') (k : Key) (ts : List ScopeId)
    (hs : ∀ x ∈ w.consultedIn k ts, ¬S (.slot x (.key k))) :
    (ts.findSome? fun t => Entries.get? k (w'.contextOf t)) =
      ts.findSome? fun t => Entries.get? k (w.contextOf t) := by
  induction ts with
  | nil => rfl
  | cons t rest ih =>
    have ht : Entries.get? k (w'.contextOf t) = Entries.get? k (w.contextOf t) := by
      have hscope : w'.scope t = w.scope t := by rw [h.rest]; rfl
      unfold contextOf
      rw [hscope]
      exact h.entry _ k (hs _ (by unfold consultedIn; exact List.mem_cons_self))
    rw [List.findSome?_cons, List.findSome?_cons, ht]
    cases hk : Entries.get? k (w.contextOf t) with
    | some v => rfl
    | none =>
      refine ih fun x hx => hs x ?_
      unfold consultedIn
      rw [hk]
      exact List.mem_cons_of_mem _ hx

/-- A step of a path leads on as before, unless it looks at a spot of the set. -/
theorem next (h : w.Altered S w') {v : Value} {part : Part}
    (hs : ∀ s, part.slot? = some s → ∀ x ∈ w.consulted v part, ¬S (.slot x s)) : w'.next v part = w.next v part := by
  cases part with
  | index i =>
    cases v with
    | array a => exact h.element a i.toNat (hs _ rfl _ (List.mem_singleton_self _))
    | _ => rfl
  | key k =>
    cases v with
    | object o =>
      simp only [World.next, valueAt?]
      rw [h.entry o (.str k) (hs _ rfl _ (List.mem_singleton_self _))]
    | context c =>
      simp only [World.next, valueAt?, lookup?]
      rw [(h.sameView (.context c)).chain, h.lookup (.str k) _ (hs _ rfl)]
    | _ => rfl
  | _ => rfl

theorem way (h : w.Altered S w') {parts : List Part} {v : Value} (hs : ¬w.Crosses S parts v) :
    w'.steps parts v = w.steps parts v ∧ w'.target parts v = w.target parts v :=
  way_congr fun st hst => h.next fun s hslot x hx hS => hs ⟨st, hst, s, hslot, x, hx, hS⟩

theorem site? (h : w.Altered S w') (x : HandleId) : w'.site? x = w.site? x ∧ w'.limitsOf x = w.limitsOf x := by
  unfold World.site? World.limitsOf World.sharedCell?
  rw [h.rest]
  exact ⟨rfl, rfl⟩

theorem leads (h : w.Altered S w') {x : HandleId} {c : CellId} {parts : List Part} {u : Value}
    (hx : w.Leads x c parts u) (hs : ¬w.Looks S c parts) : w'.Leads x c parts u := by
  obtain ⟨hsite, hlimits⟩ := h.site? x
  have hc : w'.store.cell c = w.store.cell c := h.cell c fun hS => hs (.inl hS)
  obtain ⟨hsteps, htarget⟩ := h.way fun hS => hs (.inr hS)
  refine ⟨hsite.trans hx.site, h.has _ hx.has, ?_, ?_⟩
  · rw [hc, hlimits]
    exact hx.track.congr h.knows hsteps
  · rw [hc, htarget]
    exact hx.target

theorem links (h : w.Altered S w') {x y : HandleId} {xs : List HandleId} (hl : w.Links x xs y)
    (hs : ∀ z ∈ xs, ∀ c parts, w.site? z = some (c, parts) → ¬w.Looks S c parts) : w'.Links x xs y := by
  induction hl with
  | here x => exact .here x
  | next hx _ ih =>
    obtain ⟨hs₀, hs⟩ := List.forall_mem_cons.mp hs
    exact .next (h.leads hx (hs₀ _ _ hx.site)) (ih hs)

end Altered

end World

namespace Path

variable {r : Root} (hr : r.key = .global ∨ r.key = .data)
include hr

theorem followIn_rooted (read : HandleId → Exec Value) (limits : Limits) (parts : List Part) (v : Value) :
    followIn read limits (.mk (.root r) parts) v = walk read limits (Path.mk (.root r) parts).text false parts v := by
  obtain ⟨key, caret, value⟩ := r
  rcases hr with h | h <;> cases h <;> rfl

theorem writeIn_rooted (h : HandleAccess) (limits : Limits) (parts : List Part) (v e : Value) :
    writeIn h limits (.mk (.root r) parts) v e =
      writeParts h limits (Path.mk (.root r) parts).text .set e parts v := by
  obtain ⟨key, caret, value⟩ := r
  rcases hr with h | h <;> cases h <;> rfl

end Path

namespace Engine

open World

variable {g : Engine} {w w₁ : World} {x : HandleId} {c : CellId} {parts : List Part} {u e : Value}

/-! ### Reading -/

theorem readHandle_leads (hx : w.Leads x c parts u) : g.readHandle x w = .ok u w := by
  have hreads : w.Reads parts (w.store.cell c).value u := hx.target ▸ hx.track.reads
  rcases site?_cases hx.site with ⟨r, s, hb, hc⟩ | ⟨r, hb, hk⟩
  · unfold readHandle
    rw [Exec.store_bind, hb]
    exact resolvePath_shared ((Path.isStatic_root r parts).trans hx.track.isStatic) hc hreads hx.track.passed_plain s
  · unfold readHandle
    rw [Exec.store_bind, hb]
    change Path.followIn g.access.read {} _ (w.store.cell c).value w = _
    rw [Path.followIn_rooted hk]
    exact Path.walk_of_reads {} _ hreads hx.track.passed_plain

/-- A chain is followed to its end if there are no more handles in it than steps may be made. -/
theorem followFrom_links {y : HandleId} {xs : List HandleId} (hl : w.Links x xs y) (hy : w.Leads y c parts u)
    (hu : ∀ z, u ≠ .handle z) (limit : Int) (n : Nat) :
    followFrom g.readHandle limit n (.handle x) w =
      if xs.length < n then .ok u w else .error (.unresolved (.handleDepth limit)) w := by
  induction hl generalizing n with
  | here y =>
    cases n with
    | zero => rfl
    | succ n =>
      refine (Exec.bind_ok (readHandle_leads hy)).trans ?_
      change _ = if 0 < n + 1 then _ else _
      rw [if_pos (Nat.zero_lt_succ n)]
      cases u with
      | handle z => exact absurd rfl (hu z)
      | _ => cases n <;> rfl
  | next hx _ ih =>
    cases n with
    | zero => rfl
    | succ n =>
      refine (Exec.bind_ok (readHandle_leads hx)).trans ?_
      rw [ih hy n, List.length_cons]
      simp only [Nat.add_lt_add_iff_right]

/-! ### Writing -/

variable {h : HandleAccess} {limits : Limits} {v : Value}

/-- At a handle, a value that is none is written to the handle. -/
theorem writeParts_at_handle (hx : w.store.isReadOnly x = false) (he : ∀ z, e ≠ .handle z) (text : String) :
    Path.writeParts h limits text .set e [] (.handle x) w =
      (do h.write x e.orNull; return .handle x : Exec Value) w := by
  change (if w.store.isReadOnly x = true then _ else _ : Exec Value) w = _
  rw [hx, if_neg Bool.false_ne_true]
  refine Exec.bind_ok (a := e.orNull) ?_
  exact congrFun (Path.stored_of_not_handle h.read limits .set he) w

end Engine

namespace World

variable {w w₁ w' : World} {S : Spot → Prop}

/-- A cell holds what it held, and the steps of a path from its value lead where they led. -/
structure SameWay (w w₁ : World) (c : CellId) (parts : List Part) : Prop where
  cell : w₁.store.cell c = w.store.cell c
  next : ∀ s ∈ w.steps parts (w.store.cell c).value, w₁.next s.1 s.2.1 = w.next s.1 s.2.1
  globalCell : w₁.globalCell = w.globalCell
  stateCell : w₁.stateCell = w.stateCell

theorem Altered.sameWay (h : w.Altered S w₁) {c : CellId} {parts : List Part} (hs : ¬w.Looks S c parts) :
    w.SameWay w₁ c parts where
  cell := h.cell c fun hS => hs (.inl hS)
  next st hst := h.next fun s hslot x hx hS => hs (.inr ⟨st, hst, s, hslot, x, hx, hS⟩)
  globalCell := by rw [h.rest]
  stateCell := by rw [h.rest]

theorem Kept.sameWay (h : w.Kept w₁) {c : CellId} {parts : List Part} {limits : Limits} (hc : w.Has (.cell c))
    (ht : w.Track limits parts (w.store.cell c).value) : w.SameWay w₁ c parts where
  cell := (h.place (.cell c) trivial hc).2
  next s hs := h.next (ht.knows s hs) s.2.1
  globalCell := h.globalCell
  stateCell := h.stateCell

/-- The world with a value in a cell. -/
def withCell (w : World) (c : CellId) (v : Value) : World :=
  { w with store := w.store.setCell c { w.store.cell c with value := v } }

theorem withCell_self {c : CellId} {v : Value} (h : (w.store.cell c).value = v) : w.withCell c v = w := by
  subst h
  unfold withCell
  rw [Store.setCell_cell]

theorem altered_withCell (w : World) (c : CellId) (v : Value) : w.Altered (· = .cell c) (w.withCell c v) where
  has x hx := by
    cases x with
    | cell d =>
      change d < (w.store.cells.setIfInBounds c _).size
      rw [Array.size_setIfInBounds]
      exact hx
    | _ => exact hx
  cell d hd := (Store.cell_setCell w.store c d _).trans (if_neg fun h => hd (by rw [h.1]))
  element _ _ _ := rfl
  entry _ _ _ := rfl
  rest := rfl

theorem altered_setObject (w : World) (o : ObjectId) (k : String) (item : Value) :
    w.Altered (· = .slot (.object o) (.key (.str k)))
      { w with store := w.store.setObject o (Entries.insert (.str k) item (w.store.object o)) } where
  has := (changedAt_setObject w o _).has
  cell _ _ := rfl
  element _ _ _ := rfl
  entry p l hl := by
    change Entries.get? l ((w.store.setObject o _).object p) = _
    rw [Store.object_setObject]
    split
    · rename_i hp
      obtain ⟨rfl, -⟩ := hp
      exact Entries.get?_insert_other (fun h => hl (by rw [h])) item _
    · rfl
  rest := rfl

/-- Linking puts a value into one slot. -/
theorem altered_linked {v : Value} {part : Part} {x : Place} {s : Slot} (hx : w.placeOf v = some x)
    (hs : part.slot? = some s) (old new : Value) : w.Altered (· = .slot x s) (w.linked v part old new) := by
  cases part with
  | index i =>
    cases hs
    cases v with
    | array a =>
      cases hx
      exact {
        has := (changedAt_setArray w a _).has
        cell := fun _ _ => rfl
        element := fun b j hb => by
          change ((w.store.setArray a _).array b).getD j .null = _
          rw [Store.array_setArray]
          split
          · rename_i hab
            obtain ⟨rfl, -⟩ := hab
            rw [getD_setIfInBounds, if_neg]
            rintro ⟨rfl, -⟩
            exact hb rfl
          · rfl
        entry := fun _ _ _ => rfl
        rest := rfl }
    | _ => exact .refl _ w
  | key k =>
    cases hs
    change w.Altered _ (if _ then w.withEntry v (.str k) new else w)
    split
    · cases v with
      | object o =>
        cases hx
        exact altered_setObject w o k new
      | context c =>
        cases hx
        exact altered_setObject w _ k new
      | _ => exact .refl _ w
    · exact .refl _ w
  | _ => cases hs

end World

namespace Engine

open World

variable {g : Engine} {w w₁ : World} {S : Spot → Prop} {x : HandleId} {c : CellId} {parts : List Part} {u e : Value}

theorem writeHandle_bound {r : Root} {s : ScopeId} (hb : w.store.handle x = .bound (.mk (.root r) parts) (some s))
    (hp : parts.all Part.isStatic = true) (hc : w.sharedCell? r.key = some c) :
    g.writeHandle x e w =
      (do
        let updated ← Path.writeParts g.access (w.limitsOf x) (w.textOf x) .set e parts
          (w.store.cell c).value
        if updated != (w.store.cell c).value then Exec.setRootValue s r.key updated : Exec Unit) w := by
  have hlimits : w.limitsOf x = w.limits := by
    unfold limitsOf
    rw [hb]
  have htext : w.textOf x = (Path.mk (.root r) parts).text := by
    unfold textOf
    rw [hb]
  rw [hlimits, htext, ← Path.writeStatic_shared_eq g.access w.limits hc s e .set false]
  unfold writeHandle
  rw [Exec.store_bind, hb]
  exact writePath_static ((Path.isStatic_root r parts).trans hp) s e .set false w

theorem writeHandle_rooted {r : Root} (hb : w.store.handle x = .rooted c (.mk (.root r) parts))
    (hr : r.key = .global ∨ r.key = .data) :
    g.writeHandle x e w =
      (do
        let updated ← Path.writeParts g.access (w.limitsOf x) (w.textOf x) .set e parts
          (w.store.cell c).value
        if updated != (w.store.cell c).value || (Path.mk (.root r) parts).length == 1 then
          Exec.setCell c updated : Exec Unit) w := by
  have hlimits : w.limitsOf x = {} := by
    unfold limitsOf
    rw [hb]
  have htext : w.textOf x = (Path.mk (.root r) parts).text := by
    unfold textOf
    rw [hb]
  rw [hlimits, htext, ← Path.writeIn_rooted hr]
  unfold writeHandle
  rw [Exec.store_bind, hb]
  rfl

theorem writeHandle_error (hx : w.Leads x c parts u) {f : Fault}
    (hrun : Path.writeParts g.access (w.limitsOf x) (w.textOf x) .set e parts (w.store.cell c).value w =
      .error f w₁) : g.writeHandle x e w = .error f w₁ := by
  rcases site?_cases hx.site with ⟨r, s, hb, hc⟩ | ⟨r, hb, hr⟩
  · rw [writeHandle_bound hb hx.track.isStatic hc]
    exact Exec.bind_error hrun
  · rw [writeHandle_rooted hb hr]
    exact Exec.bind_error hrun

/-- Where a path goes on below the value of a cell, the value stays in the cell. -/
theorem writeHandle_below (hx : w.Leads x c parts u) (hp : parts ≠ [])
    (hrun : Path.writeParts g.access (w.limitsOf x) (w.textOf x) .set e parts (w.store.cell c).value w =
      .ok (w.store.cell c).value w₁) : g.writeHandle x e w = .ok () w₁ := by
  rcases site?_cases hx.site with ⟨r, s, hb, hc⟩ | ⟨r, hb, hr⟩
  · rw [writeHandle_bound hb hx.track.isStatic hc]
    refine (Exec.bind_ok hrun).trans ?_
    rw [bne_self_eq_false, if_neg Bool.false_ne_true]
    rfl
  · rw [writeHandle_rooted hb hr]
    refine (Exec.bind_ok hrun).trans ?_
    have hlength : ((Path.mk (.root r) parts).length == 1) = false :=
      beq_false_of_ne fun h => hp (List.eq_nil_of_length_eq_zero (Nat.succ.inj h))
    rw [bne_self_eq_false, hlength, Bool.or_false, if_neg Bool.false_ne_true]
    rfl

/-- A handle to a cell itself puts into the cell what comes of its value. -/
theorem writeHandle_cell (hx : w.Leads x c [] u) {v : Value} (hw : w.SameWay w₁ c [])
    (hrun : Path.writeParts g.access (w.limitsOf x) (w.textOf x) .set e [] (w.store.cell c).value w = .ok v w₁) :
    ∃ notices, g.writeHandle x e w = .ok () { w₁.withCell c v with notices } := by
  rcases site?_cases hx.site with ⟨r, s, hb, hc⟩ | ⟨r, hb, hr⟩
  · rw [writeHandle_bound hb rfl hc, Exec.bind_ok hrun]
    have hc₁ : w₁.sharedCell? r.key = some c := (sharedCell?_congr hw.globalCell hw.stateCell r.key).trans hc
    split
    · rw [Exec.setRootValue_shared hc₁]
      exact ⟨_, rfl⟩
    · rename_i hv
      have hv : v = (w.store.cell c).value := by simpa using hv
      rw [withCell_self (by rw [hw.cell, hv])]
      exact ⟨w₁.notices, rfl⟩
  · rw [writeHandle_rooted hb hr, Exec.bind_ok hrun]
    have hlength : ((Path.mk (.root r) []).length == 1) = true := rfl
    rw [hlength, Bool.or_true, if_pos rfl]
    exact ⟨_, rfl⟩

/-- A write through a handle leaves all on the way in place, if what is done to the value that the handle leads to does
so. -/
theorem writeHandle_through (hx : w.Leads x c parts u) (hu : u.isNull = false)
    (hend : Path.writeParts g.access (w.limitsOf x) (w.textOf x) .set e [] u w = .ok u w₁)
    (hw : w.SameWay w₁ c parts) : ∃ notices, g.writeHandle x e w = .ok () { w₁ with notices } := by
  by_cases hp : parts = []
  · subst hp
    have hcell : (w.store.cell c).value = u := hx.target
    have hrun := writeHandle_cell hx hw (hcell ▸ hend)
    rwa [withCell_self (by rw [hw.cell, hcell])] at hrun
  · refine ⟨w₁.notices, writeHandle_below hx hp ?_⟩
    rw [← hx.target] at hend hu
    have hrun := hx.track.writes hu hend hw.next
    rwa [List.append_nil] at hrun

theorem writeParts_at_end (hu : ∀ z, u ≠ .handle z) (he : ∀ z, e ≠ .handle z) (limits : Limits) (text : String)
    (w : World) : Path.writeParts g.access limits text .set e [] u w = .ok e.orNull w := by
  refine (congrFun (Path.applyOp_eq g.access limits .set e hu) w).trans ?_
  exact congrFun (Path.stored_of_not_handle g.access.read limits .set he) w

theorem writeHandle_last_cell (hx : w.Leads x c [] u) (hu : ∀ z, u ≠ .handle z) (he : ∀ z, e ≠ .handle z) :
    ∃ w', g.writeHandle x e w = .ok () w' ∧ w.Altered (· = .cell c) w' ∧ w'.Leads x c [] e.orNull := by
  have hcell : (w.store.cell c).value = u := hx.target
  obtain ⟨notices, hrun⟩ := writeHandle_cell hx ⟨rfl, nofun, rfl, rfl⟩ (hcell ▸ writeParts_at_end hu he _ _ w)
  have hw := (altered_withCell w c e.orNull).trans (.told _ _ notices)
  have hvalue : ((w.withCell c e.orNull).store.cell c).value = e.orNull := by
    change ((w.store.setCell c _).cell c).value = _
    rw [Store.cell_setCell, if_pos ⟨rfl, hx.has⟩]
  exact ⟨_, hrun, hw, (hw.site? x).1.trans hx.site, hw.has _ hx.has, .nil _ _ _, hvalue⟩

/-- Writing through a handle to a slot puts the value into the slot. -/
theorem writeHandle_last_slot {front : List Part} {part : Part} {p : Place} {s : Slot}
    (hx : w.Leads x c (front ++ [part]) u) (hu : ∀ z, u ≠ .handle z) (he : ∀ z, e ≠ .handle z)
    (hp : w.placeOf (w.target front (w.store.cell c).value) = some p) (hs : part.slot? = some s)
    (hown : ¬w.Crosses (· = .slot p s) front (w.store.cell c).value) :
    ∃ w', g.writeHandle x e w = .ok () w' ∧ w.Altered (· = .slot p s) w' ∧
      w'.Leads x c (front ++ [part]) e.orNull := by
  obtain ⟨hfront, hlast⟩ := track_append.mp hx.track
  obtain ⟨⟨hplain, hknows, hadmits⟩, -⟩ := track_cons.mp hlast
  have htarget := hx.target
  rw [target_append] at htarget
  generalize hC : w.target front (w.store.cell c).value = C at hp hplain hknows hadmits htarget
  -- The container is there, so that it stays in its place.
  have hn : C.isNull = false := by
    cases C <;> first | rfl | cases hp
  obtain ⟨v₀, m, ho, hinto⟩ := Path.writeInto_opened hadmits w
  obtain rfl := ho.same hn
  have hnext : w.next v₀ part = u := htarget
  have hpm : m.placeOf v₀ = some p := (ho.padded.placeOf v₀).trans hp
  have hw : w.Altered (· = .slot p s) (m.linked v₀ part u e.orNull) :=
    (Altered.of_padded ho.padded).trans (altered_linked hpm hs u e.orNull)
  have hstep : Path.writeParts g.access (w.limitsOf x) (w.textOf x) .set e [part] v₀ w =
      .ok v₀ (m.linked v₀ part u e.orNull) := by
    rw [Path.writeParts_cons _ _ _ _ _ _ _ hplain, hinto, hnext, writeParts_at_end hu he]
  have hrun : Path.writeParts g.access (w.limitsOf x) (w.textOf x) .set e (front ++ [part])
      (w.store.cell c).value w = .ok (w.store.cell c).value (m.linked v₀ part u e.orNull) := by
    refine hfront.writes (hC ▸ hn) (hC ▸ hstep) fun st hst => ?_
    exact hw.next fun t ht y hy hS => hown ⟨st, hst, t, ht, y, hy, hS⟩
  obtain ⟨hsteps, hend⟩ := hw.way hown
  obtain ⟨hsite, hlimits⟩ := hw.site? x
  have hcell : (m.linked v₀ part u e.orNull).store.cell c = w.store.cell c := hw.cell c nofun
  refine ⟨_, writeHandle_below hx (by simp) hrun, hw, hsite.trans hx.site, hw.has _ hx.has, ?_, ?_⟩
  · rw [hcell, hlimits, track_append, hend, hC]
    exact ⟨hfront.congr hw.knows hsteps, track_cons.mpr ⟨⟨hplain, hw.knows hknows, hadmits⟩, .nil _ _ _⟩⟩
  · rw [hcell, target_append, hend, hC]
    have hhas : m.Has p := ho.padded.has (hknows.has p (placeOf_mem_touched hp))
    refine next_linked hn ho.lands.2 hpm hhas (fun i a hi ha => ?_) (ho.next.trans hnext)
    subst ha
    cases hpm
    exact ho.room i a hi rfl hhas

/-- Writing through the last handle of a chain puts the value where it leads, and changes nothing else. -/
theorem writeHandle_last (hx : w.Leads x c parts u) (hu : ∀ z, u ≠ .handle z) (he : ∀ z, e ≠ .handle z) {σ : Spot}
    (hσ : w.spot? c parts = some σ) (hown : ¬w.Crosses (· = σ) parts.dropLast (w.store.cell c).value) :
    ∃ w', g.writeHandle x e w = .ok () w' ∧ w.Altered (· = σ) w' ∧ w'.Leads x c parts e.orNull := by
  rcases List.eq_nil_or_concat parts with rfl | ⟨front, part, hparts⟩
  · cases hσ
    exact writeHandle_last_cell hx hu he
  · rw [List.concat_eq_append] at hparts
    subst hparts
    rw [List.dropLast_concat] at hown
    unfold spot? at hσ
    rw [List.getLast?_concat, List.dropLast_concat] at hσ
    dsimp only at hσ
    split at hσ
    · rename_i p s hp hs
      cases hσ
      exact writeHandle_last_slot hx hu he hp hs hown
    · cases hσ

end Engine

end EventScript
