import EventScript.Proofs.Stages

/-!
# Supplied regions

A region of a world is supplied if nothing in it is absent and all that it refers to lies in it again. Evaluation makes
new values outside, and there may be absent ones in them, but it leaves the region supplied. A function of the host may
even write into it, as long as it writes nothing absent.
-/

namespace EventScript

/-- Some of the places, scopes and handles of a world. -/
structure Region where
  place : Place → Prop
  scope : ScopeId → Prop
  handle : HandleId → Prop

instance : Preorder Region where
  le R S := (∀ x, R.place x → S.place x) ∧ (∀ s, R.scope s → S.scope s) ∧ ∀ h, R.handle h → S.handle h
  le_refl _ := ⟨fun _ => id, fun _ => id, fun _ => id⟩
  le_trans _ _ _ h k :=
    ⟨fun x hx => k.1 x (h.1 x hx), fun s hs => k.2.1 s (h.2.1 s hs), fun i hi => k.2.2 i (h.2.2 i hi)⟩

namespace Region

/-- A region with one more place. -/
def add (R : Region) (x : Place) : Region := { R with place := fun y => R.place y ∨ y = x }

theorem le_add (R : Region) (x : Place) : R ≤ R.add x := ⟨fun _ => .inl, fun _ => id, fun _ => id⟩

theorem place_of_add {R : Region} {x y : Place} (h : (R.add x).place y) (hne : y ≠ x) : R.place y := h.resolve_right hne

end Region

/-- All that a value refers to lies in a region. -/
def Value.Inside (R : Region) (views : Array ScopeId) : Value → Prop
  | .array a => R.place (.array a)
  | .object o => R.place (.object o)
  | .context c => c < views.size ∧ R.scope (views.getD c 0)
  | .handle h => R.handle h
  | _ => True

theorem Value.Inside.mono {R S : Region} {views views' : Array ScopeId} {v : Value} (h : v.Inside R views)
    (hR : R ≤ S) (hv : views.toList <+: views'.toList) : v.Inside S views' := by
  cases v with
  | array a => exact hR.1 _ h
  | object o => exact hR.1 _ h
  | context c =>
    refine ⟨Nat.lt_of_lt_of_le h.1 (size_le_of_begins hv), ?_⟩
    rw [getD_of_begins hv h.1]
    exact hR.2.1 _ h.2
  | handle x => exact hR.2.2 _ h
  | _ => trivial

namespace World

/-- What containers and cells of a region hold is not absent and lies in the region, and so does what scopes and handles
of it refer to. Local data that are absent are those that a scope does not have, and the path of a handle may begin at
an absent value. -/
structure Supplied (w : World) (R : Region) : Prop where
  has : ∀ x, R.place x → w.Has x
  array : ∀ a, R.place (.array a) → ∀ v ∈ w.store.array a, v.Inside R w.store.views ∧ v ≠ .absent
  object : ∀ o, R.place (.object o) → ∀ e ∈ w.store.object o, e.2.Inside R w.store.views ∧ e.2 ≠ .absent
  cell : ∀ c, R.place (.cell c) → (w.store.cell c).value.Inside R w.store.views ∧ (w.store.cell c).value ≠ .absent
  global : R.place (.cell w.globalCell)
  state : R.place (.cell w.stateCell)
  lt : ∀ s, R.scope s → s < w.scopes.size
  parent : ∀ s, R.scope s → ∀ p, (w.scope s).parent = some p → R.scope p
  context : ∀ s, R.scope s → R.place (.object (w.scope s).context)
  component : ∀ s, R.scope s → ∀ c, (w.scope s).component = some c → R.place (.cell c)
  args : ∀ s, R.scope s → ∀ c, (w.scope s).args = some c → R.place (.cell c)
  localData : ∀ s, R.scope s → (w.scope s).localData.Inside R w.store.views
  handle : ∀ h, R.handle h → h < w.store.handles.size
  bound : ∀ h, R.handle h → ∀ p s, w.store.handle h = .bound p (some s) →
    R.scope s ∧ ∀ r, p.root? = some r → r.value.Inside R w.store.views
  rooted : ∀ h, R.handle h → ∀ c p, w.store.handle h = .rooted c p → R.place (.cell c)
  readOnly : ∀ h, R.handle h → ∀ i, w.store.handle h = .readOnly i → R.handle i

variable {w w' : World} {R : Region}

/-- What is supplied stays so while the world grows. -/
theorem Supplied.grown (h : w.Supplied R) (hg : w.Grown w') : w'.Supplied R := by
  have hinside {v : Value} (hv : v.Inside R w.store.views) : v.Inside R w'.store.views :=
    hv.mono (le_refl R) hg.store.views
  have hscope {s : ScopeId} (hs : R.scope s) : w'.scope s = w.scope s := getD_of_begins hg.scopes (h.lt s hs) _
  have hhandle {x : HandleId} (hx : R.handle x) : w'.store.handle x = w.store.handle x :=
    getD_of_begins hg.store.handles (h.handle x hx) _
  exact {
    has := fun x hx => hg.has (h.has x hx)
    array := fun a ha v hv => by
      have hs : w'.store.array a = w.store.array a := getD_of_begins hg.store.arrays (h.has _ ha) _
      rw [hs] at hv
      exact (h.array a ha v hv).imp_left hinside
    object := fun o ho e he => by
      have hs : w'.store.object o = w.store.object o := getD_of_begins hg.store.objects (h.has _ ho) _
      rw [hs] at he
      exact (h.object o ho e he).imp_left hinside
    cell := fun c hc => by
      have hs : w'.store.cell c = w.store.cell c := getD_of_begins hg.store.cells (h.has _ hc) _
      rw [hs]
      exact (h.cell c hc).imp_left hinside
    global := by rw [hg.globalCell]; exact h.global
    state := by rw [hg.stateCell]; exact h.state
    lt := fun s hs => Nat.lt_of_lt_of_le (h.lt s hs) (size_le_of_begins hg.scopes)
    parent := fun s hs => by rw [hscope hs]; exact h.parent s hs
    context := fun s hs => by rw [hscope hs]; exact h.context s hs
    component := fun s hs => by rw [hscope hs]; exact h.component s hs
    args := fun s hs => by rw [hscope hs]; exact h.args s hs
    localData := fun s hs => by rw [hscope hs]; exact hinside (h.localData s hs)
    handle := fun x hx => Nat.lt_of_lt_of_le (h.handle x hx) (size_le_of_begins hg.store.handles)
    bound := fun x hx p s hb => by
      rw [hhandle hx] at hb
      exact (h.bound x hx p s hb).imp_right fun hr r hp => hinside (hr r hp)
    rooted := fun x hx => by rw [hhandle hx]; exact h.rooted x hx
    readOnly := fun x hx => by rw [hhandle hx]; exact h.readOnly x hx }

/-- A region with a new object is supplied if its entries are there and lie in the region. -/
theorem Supplied.newObject (h : w.Supplied R) {es : Entries Value}
    (hx : ∀ e ∈ es, e.2.Inside R w.store.views ∧ e.2 ≠ .absent) :
    ({ w with store := (w.store.newObject es).2 } : World).Supplied (R.add (.object w.store.objects.size)) := by
  have hold := h.grown (.ofStore (.newObject w.store es))
  have hle := R.le_add (.object w.store.objects.size)
  have hmono {v : Value} (hv : v.Inside R w.store.views) : v.Inside (R.add _) w.store.views :=
    hv.mono hle (List.prefix_refl _)
  exact {
    has := fun x hx => by
      rcases hx with hx | rfl
      · exact hold.has x hx
      · simp [World.Has, Store.newObject]
    array := fun a ha v hv => (hold.array a (Region.place_of_add ha nofun) v hv).imp_left hmono
    object := fun o ho e he => by
      rcases ho with ho | ho
      · exact (hold.object o ho e he).imp_left hmono
      · cases ho
        have hs : (w.store.newObject es).2.object w.store.objects.size = es := getD_push_size _ _ _
        rw [hs] at he
        exact (hx e he).imp_left hmono
    cell := fun c hc => (hold.cell c (Region.place_of_add hc nofun)).imp_left hmono
    global := hle.1 _ hold.global
    state := hle.1 _ hold.state
    lt := hold.lt
    parent := hold.parent
    context := fun s hs => hle.1 _ (hold.context s hs)
    component := fun s hs c hc => hle.1 _ (hold.component s hs c hc)
    args := fun s hs c hc => hle.1 _ (hold.args s hs c hc)
    localData := fun s hs => hmono (hold.localData s hs)
    handle := hold.handle
    bound := fun x hx p s hb => (hold.bound x hx p s hb).imp_right fun hr r hp => hmono (hr r hp)
    rooted := fun x hx c p hr => hle.1 _ (hold.rooted x hx c p hr)
    readOnly := hold.readOnly }

/-- Contexts stay, and so does every supplied region, to which more may come. -/
def KeepsSupplies (w w' : World) : Prop :=
  w.store.views.toList <+: w'.store.views.toList ∧ ∀ R, w.Supplied R → ∃ S, R ≤ S ∧ w'.Supplied S

instance : Tolerates KeepsSupplies where
  trans h k := by
    refine ⟨h.1.trans k.1, fun R hR => ?_⟩
    obtain ⟨S, hRS, hS⟩ := h.2 R hR
    obtain ⟨T, hST, hT⟩ := k.2 S hS
    exact ⟨T, le_trans hRS hST, hT⟩
  grown h := ⟨h.store.views, fun R hR => ⟨R, le_refl R, hR.grown h⟩⟩

/-- Nothing that containers and cells hold is absent. -/
structure Present (w : World) : Prop where
  array : ∀ a, .absent ∉ w.store.array a
  object : ∀ o, ∀ e ∈ w.store.object o, e.2 ≠ .absent
  cell : ∀ c, (w.store.cell c).value ≠ .absent

/-- All that there is. -/
def everything (w : World) : Region where
  place := w.Has
  scope s := s < w.scopes.size
  handle h := h < w.store.handles.size

theorem inside_everything {v : Value} (h : w.Refs v) : v.Inside w.everything w.store.views := by
  cases v <;> exact h

/-- A world in which nothing is missing and nothing is absent is supplied as a whole. -/
theorem Present.supplied (hp : w.Present) (hw : w.SelfContained) : w.Supplied w.everything where
  has _ h := h
  array a _ v hv := ⟨inside_everything (hw.array a v hv), fun h => hp.array a (h ▸ hv)⟩
  object o _ e he := ⟨inside_everything (hw.object o e he), hp.object o e he⟩
  cell c _ := ⟨inside_everything (hw.cell c), hp.cell c⟩
  global := hw.global
  state := hw.state
  lt _ h := h
  parent := hw.parent
  context := hw.context
  component := hw.component
  args := hw.args
  localData s hs := inside_everything (hw.localData s hs)
  handle _ h := h
  bound h hh p s hb := (hw.bound h hh p s hb).imp_right fun hr r hp => inside_everything (hr r hp)
  rooted := hw.rooted
  readOnly := hw.readOnly

end World

/-- A world and a region of it that is supplied. -/
structure Supply where
  world : World
  region : Region
  supplied : world.Supplied region

namespace Supply

/-- A later supply covers all that an earlier one does. -/
instance : Preorder Supply where
  le σ τ := σ.region ≤ τ.region ∧ σ.world.store.views.toList <+: τ.world.store.views.toList
  le_refl σ := ⟨le_refl σ.region, List.prefix_refl _⟩
  le_trans _ _ _ h k := ⟨le_trans h.1 k.1, h.2.trans k.2⟩

/-- All that a value refers to is supplied. -/
def Covers (σ : Supply) (v : Value) : Prop := v.Inside σ.region σ.world.store.views

variable {σ τ : Supply} {v : Value}

/-- A value that is supplied is not absent itself either. -/
def Offers (σ : Supply) (v : Value) : Prop := σ.Covers v ∧ v ≠ .absent

/-- A value that is supplied is absent only on a condition. -/
def AbsentOnlyIf (C : Prop) (σ : Supply) (v : Value) : Prop := σ.Covers v ∧ (v = .absent → C)

theorem Covers.mono (h : σ.Covers v) (hle : σ ≤ τ) : τ.Covers v := Value.Inside.mono h hle.1 hle.2

theorem scope_mono (hle : σ ≤ τ) {s : ScopeId} (hs : σ.region.scope s) : τ.region.scope s := hle.1.2.1 s hs

theorem Offers.mono (h : σ.Offers v) (hle : σ ≤ τ) : τ.Offers v := h.imp_left (·.mono hle)

theorem Offers.absentOnlyIf {C : Prop} (h : σ.Offers v) : σ.AbsentOnlyIf C v := ⟨h.1, fun hv => absurd hv h.2⟩

theorem AbsentOnlyIf.imp {C D : Prop} (h : σ.AbsentOnlyIf C v) (hC : C → D) : σ.AbsentOnlyIf D v :=
  ⟨h.1, fun hv => hC (h.2 hv)⟩

end Supply

/-! ### Computations from supply to supply -/

/-- What a computation gives, if it gives anything, it gives in a later supply, and it has a property there. -/
def Exec.Yields {α : Type} (σ : Supply) (x : Exec α) (P : Supply → α → Prop) : Prop :=
  ∀ a w, x σ.world = .ok a w → ∃ τ : Supply, σ ≤ τ ∧ τ.world = w ∧ P τ a

namespace Exec.Yields

variable {σ : Supply} {α β : Type} {P : Supply → α → Prop} {Q : Supply → β → Prop}

theorem pure {a : α} (h : P σ a) : Yields σ (Pure.pure a) P := by
  intro b w hrun
  cases hrun
  exact ⟨σ, le_refl σ, rfl, h⟩

theorem throw (f : Fault) : Yields σ (MonadExcept.throw f : Exec α) P := fun _ _ hrun => by cases hrun

theorem fail (cause : Unresolved) : Yields σ (Exec.fail cause : Exec α) P := throw _

theorem reject (cause : Malformed) : Yields σ (Exec.reject cause : Exec α) P := throw _

theorem failWith (p : Path) (cause : String → Unresolved) : Yields σ (p.failWith cause : Exec α) P := by
  obtain ⟨f, hfail⟩ := p.failWith_eq_throw (α := α) cause
  rw [hfail]
  exact throw f

theorem bind {x : Exec α} {f : α → Exec β} (hx : Yields σ x P)
    (hf : ∀ τ a, σ ≤ τ → x σ.world = .ok a τ.world → P τ a → Yields τ (f a) Q) : Yields σ (x >>= f) Q := by
  intro b w hrun
  obtain ⟨a, w₁, ha, hb⟩ := bind_eq_ok hrun
  obtain ⟨τ, hle, rfl, hP⟩ := hx a w₁ ha
  obtain ⟨υ, hle', hυ, hQ⟩ := hf τ a hle ha hP b w hb
  exact ⟨υ, le_trans hle hle', hυ, hQ⟩

theorem imp {x : Exec α} {P' : Supply → α → Prop} (hx : Yields σ x P) (h : ∀ τ a, P τ a → P' τ a) : Yields σ x P' := by
  intro a w hrun
  obtain ⟨τ, hle, hτ, hP⟩ := hx a w hrun
  exact ⟨τ, hle, hτ, h τ a hP⟩

theorem getBind {f : World → Exec β} (h : Yields σ (f σ.world) Q) : Yields σ (MonadState.get >>= f) Q := h

theorem storeBind {f : Store → Exec β} (h : Yields σ (f σ.world.store) Q) : Yields σ (Exec.store >>= f) Q := h

theorem guard {c : Prop} [Decidable c] {cause : Unresolved} {y : Exec α} (hy : Yields σ y P) :
    Yields σ (if c then Exec.fail (α := PUnit) cause >>= fun _ => y else y) P := by
  split
  · exact fun a w hrun => by cases hrun
  · exact hy

theorem mapM {f : α → Exec β} (hQ : ∀ {σ τ : Supply} {b : β}, σ ≤ τ → Q σ b → Q τ b)
    (hf : ∀ (σ : Supply) (a : α), Yields σ (f a) Q) (xs : List α) :
    Yields σ (xs.mapM f) fun τ bs => ∀ b ∈ bs, Q τ b := by
  induction xs generalizing σ with
  | nil => exact pure (by simp)
  | cons x rest ih =>
    rw [List.mapM_cons]
    refine bind (hf σ x) fun τ b _ _ hb => bind ih fun υ bs hle _ hbs => pure ?_
    exact List.forall_mem_cons.mpr ⟨hQ hle hb, hbs⟩

theorem kept {x : Exec α} (h : x.Along World.KeepsSupplies) : Yields σ x fun _ _ => True := by
  intro a w hrun
  have hkeeps := h σ.world
  rw [after_ok hrun] at hkeeps
  obtain ⟨S, hle, hS⟩ := hkeeps.2 σ.region σ.supplied
  exact ⟨⟨w, S, hS⟩, ⟨hle, hkeeps.1⟩, rfl, trivial⟩

theorem newObject {es : Entries Value} (hx : ∀ e ∈ es, σ.Offers e.2) : Yields σ (Exec.newObject es) Supply.Offers := by
  intro v w hrun
  cases hrun
  exact ⟨⟨_, _, σ.supplied.newObject hx⟩, ⟨Region.le_add _ _, List.prefix_refl _⟩, rfl, .inr rfl, nofun⟩

end Exec.Yields

end EventScript
