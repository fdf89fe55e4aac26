import EventScript.Proofs.Runs
import EventScript.Proofs.Trails

/-!
# Containment

A pure run assigns only to paths that begin at the context. What the roots of the data lead to stays as it is, as
long as none of these paths goes on into it by a reference or a handle that a context entry holds, and no error that is
found there is thrown.
-/

namespace EventScript

namespace World

/-- The places that the shared roots, the components and the arguments lead to. Handles lead nowhere. -/
inductive Rooted (w : World) : Place → Prop where
  | global : Rooted w (.cell w.globalCell)
  | state : Rooted w (.cell w.stateCell)
  | component {s c} : s < w.scopes.size → (w.scope s).component = some c → Rooted w (.cell c)
  | args {s c} : s < w.scopes.size → (w.scope s).args = some c → Rooted w (.cell c)
  | value {c x} : Rooted w (.cell c) → x ∈ w.touched (w.store.cell c).value → Rooted w x
  | element {a v x} : Rooted w (.array a) → v ∈ w.store.array a → x ∈ w.touched v → Rooted w x
  | entry {o e x} : Rooted w (.object o) → e ∈ w.store.object o → x ∈ w.touched e.2 → Rooted w x

/-- The errors that these places hold. -/
inductive RootedError (w : World) (e : ErrorId) : Prop where
  | value {c} : w.Rooted (.cell c) → (w.store.cell c).value = .error e → RootedError w e
  | element {a} : w.Rooted (.array a) → .error e ∈ w.store.array a → RootedError w e
  | entry {o k} : w.Rooted (.object o) → (k, .error e) ∈ w.store.object o → RootedError w e

/-- An assignment to a path writes to nothing in a set of places. -/
def AssignsApart (R : Place → Prop) (w : World) (scope : ScopeId) (p : Path) (op : WriteOp) : Prop :=
  ∀ r, p.root? = some r → ∀ cur w₁, Exec.rootValue scope r.key r.caret w = .ok cur w₁ → w₁.Avoids R op p.rest cur

variable {R : Place → Prop}

theorem lookup?_newView (w : World) (scope s : ScopeId) (k : Key) :
    ({ w with store := (w.store.newView scope).2 } : World).lookup? s k = w.lookup? s k := by
  have hc : ({ w with store := (w.store.newView scope).2 } : World).chain s = w.chain s :=
    chainFrom_congr _ _ fun _ _ => rfl
  unfold lookup?
  rw [hc]
  rfl

/-- Replacing an entry of the context, unless it is a handle, writes to the object of the context alone. -/
theorem assignsApart_entry {w : World} {scope : ScopeId} {k : String} {op : WriteOp} (hs : scope < w.scopes.size)
    (hR : ¬R (.object (w.scope scope).context)) (hop : op.inPlace = false)
    (hh : ∀ h, w.lookup? scope (.str k) ≠ some (.handle h)) :
    w.AssignsApart R scope (.mk (.root { key := .context }) [.key k]) op := by
  intro r hr cur w₁ hcur
  cases hr
  cases hcur
  have hview : (w.store.views.push scope).getD w.store.views.size 0 = scope := getD_push_size _ _ _
  refine ⟨fun y hy => ?_, fun h ht => ?_, fun hin => ?_⟩
  · rw [List.mem_singleton.mp hy]
    change (w.store.views.size < (w.store.views.push scope).size ∧
      (w.store.views.push scope).getD w.store.views.size 0 < w.scopes.size) ∧
      ¬R (.object (w.scope ((w.store.views.push scope).getD w.store.views.size 0)).context)
    rw [hview, Array.size_push]
    exact ⟨⟨Nat.lt_succ_self _, hs⟩, hR⟩
  · change (({ w with store := (w.store.newView scope).2 } : World).lookup?
      ((w.store.views.push scope).getD w.store.views.size 0) (.str k)).getD .null = .handle h at ht
    rw [hview, lookup?_newView] at ht
    cases hl : w.lookup? scope (.str k) with
    | none =>
      rw [hl] at ht
      cases ht
    | some u =>
      rw [hl] at ht
      cases ht
      exact absurd hl (hh h)
  · rw [hop] at hin
    cases hin

instance : Overlooks (Spares R) where
  errors w e x := {
    place := fun y _ hw => by cases y <;> exact ⟨hw, rfl⟩
    views := List.prefix_refl _
    scopes := List.prefix_refl _
    globalCell := rfl
    stateCell := rfl }
  host w h := {
    place := fun y _ hw => by cases y <;> exact ⟨hw, rfl⟩
    views := List.prefix_refl _
    scopes := List.prefix_refl _
    globalCell := rfl
    stateCell := rfl }

/-- The errors of a set stay what they were. -/
structure KeepsErrors (E : ErrorId → Prop) (w w' : World) : Prop where
  error : ∀ e, E e → e < w.store.errors.size → e < w'.store.errors.size ∧ w'.store.error e = w.store.error e

variable {E : ErrorId → Prop}

instance : OverlooksHost (KeepsErrors E) where
  trans h k := ⟨fun e he hw =>
    have h₁ := h.error e he hw
    have h₂ := k.error e he h₁.1
    ⟨h₂.1, h₂.2.trans h₁.2⟩⟩
  grown h := ⟨fun _ _ hw =>
    ⟨Nat.lt_of_lt_of_le hw (size_le_of_begins h.store.errors), getD_of_begins h.store.errors hw _⟩⟩
  host _ _ := ⟨fun _ _ hw => ⟨hw, rfl⟩⟩

instance : OverlooksWrites (KeepsErrors E) where
  written _ _ _ _ _ _ := ⟨fun _ _ hw => ⟨hw, rfl⟩⟩

theorem keepsErrors_setError {w : World} {e : ErrorId} {x : ErrorRecord} (h : E e → x = w.store.error e) :
    w.KeepsErrors E { w with store := w.store.setError e x } where
  error f hf hw := by
    refine ⟨by simpa [Store.setError] using hw, (Store.error_setError w.store e f x).trans ?_⟩
    split
    · rename_i hef
      obtain ⟨rfl, -⟩ := hef
      exact h hf
    · rfl

/-- The places of one set are spared, and the errors of another one stay what they were. -/
def LeavesAlone (R : Place → Prop) (E : ErrorId → Prop) (w w' : World) : Prop := w.Spares R w' ∧ w.KeepsErrors E w'

instance : OverlooksHost (LeavesAlone R E) where
  trans h k := ⟨Tolerates.trans h.1 k.1, Tolerates.trans h.2 k.2⟩
  grown h := ⟨Tolerates.grown h, Tolerates.grown h⟩
  host w h := ⟨OverlooksHost.host w h, OverlooksHost.host w h⟩

end World

/-- What happens writes to nothing in a set of places, and is no failure with an error of a set. -/
def Happening.Apart (R : Place → Prop) (E : ErrorId → Prop) : Happening → Prop
  | .assigned before scope target op _ => before.AssignsApart R scope target op
  | .failed _ _ err => ¬E err
  | _ => True

/-- No error of a set is thrown again. -/
def Moment.Apart (E : ErrorId → Prop) : Moment → Prop
  | .threw err _ true _ => ¬E err
  | _ => True

/-- Whether no error is thrown again. -/
def Moment.throwsAnew : Moment → Bool
  | .threw _ _ true _ => false
  | _ => true

variable {R : Place → Prop} {E : ErrorId → Prop}

theorem Moment.apart_of_throwsAnew {m : Moment} (h : m.throwsAnew = true) : m.Apart E := by
  unfold throwsAnew at h
  split at h
  · cases h
  · rename_i hno
    unfold Apart
    split
    · exact absurd rfl (hno _ _ _)
    · trivial

/-- Whether nothing fails, and nothing is assigned but a new entry of a given context. -/
def Happening.makesEntryOf (o : ObjectId) : Happening → Bool
  | .assigned before scope (.mk (.root { key := .context, caret := 0, value := .null }) [.key k]) op _ =>
    decide (scope < before.scopes.size) && (before.scope scope).context == o && !op.inPlace &&
      (before.lookup? scope (.str k)).isNone
  | .assigned .. | .failed .. => false
  | _ => true

theorem Happening.apart_of_makesEntryOf {o : ObjectId} (ho : ¬R (.object o)) {h : Happening}
    (hm : h.makesEntryOf o = true) : h.Apart R E := by
  unfold makesEntryOf at hm
  split at hm
  · simp only [Bool.and_eq_true, beq_iff_eq, decide_eq_true_eq, Bool.not_eq_true', Option.isNone_iff_eq_none] at hm
    obtain ⟨⟨⟨hs, rfl⟩, hop⟩, hn⟩ := hm
    exact World.assignsApart_entry hs ho hop fun h hh => by rw [hn] at hh; cases hh
  · cases hm
  · cases hm
  · rename_i hno hfail
    cases h with
    | assigned before scope target op v => exact absurd rfl (hno _ _ _ _ _)
    | failed event start err => exact absurd rfl (hfail _ _ _)
    | _ => trivial

theorem Exec.setRootValue_context {key : RootKey} (hk : key.isContext = true) (s : ScopeId) (v : Value) (w : World) :
    ∃ e, setRootValue s key v w = .error e w := by
  cases key with
  | context => exact ⟨_, rfl⟩
  | currentContext => exact ⟨_, rfl⟩
  | _ => cases hk

namespace Path

/-- A write spares all places that its path avoids, if putting a value into its root spares them. -/
theorem writeStatic_spares_of {h : HandleAccess} (hr : ∀ x, (h.read x).Along (World.Spares R)) (limits : Limits)
    {p : Path} {scope : ScopeId} (hset : ∀ r, p.root? = some r → ∀ v, (Exec.setRootValue scope r.key v).Along
      (World.Spares R)) (v : Value) {op : WriteOp} {allow : Bool} {w : World} (ha : w.AssignsApart R scope p op) :
    w.Spares R ((writeStatic h limits p scope v op allow).after w) := by
  obtain ⟨head, rest⟩ := p
  cases head with
  | deref e => exact .refl w
  | root r =>
    unfold writeStatic
    dsimp only [root?]
    split
    · obtain ⟨f, hfail⟩ :=
        failWith_eq_throw (α := PUnit) (.mk (.root r) rest) (.notWritable · r.key.name allow)
      rw [hfail]
      exact .refl w
    · split
      · obtain ⟨f, hfail⟩ := failWith_eq_throw (α := PUnit) (.mk (.root r) rest) (.notReplaceable r.key.name)
        rw [hfail]
        exact .refl w
      · refine Exec.after_bind (Exec.rootValue_along _ _ _ w) fun cur w₁ hcur => ?_
        refine Exec.after_bind (writeParts_spares hr limits _ v (ha r rfl cur w₁ hcur)) fun updated w₂ _ => ?_
        split
        · exact hset r rfl updated w₂
        · exact .refl w₂

/-- A write to the context spares all places that its path avoids. -/
theorem writeStatic_spares {h : HandleAccess} (hr : ∀ x, (h.read x).Along (World.Spares R)) (limits : Limits) {p : Path}
    (hp : p.rootKey?.any RootKey.isContext = true) {scope : ScopeId} (v : Value) {op : WriteOp} {w : World}
    (ha : w.AssignsApart R scope p op) : w.Spares R ((writeStatic h limits p scope v op true).after w) := by
  refine writeStatic_spares_of hr limits (fun r hroot u w₁ => ?_) v ha
  have hk : r.key.isContext = true := by
    unfold rootKey? at hp
    rw [hroot] at hp
    exact hp
  obtain ⟨e, he⟩ := Exec.setRootValue_context hk scope u w₁
  rw [Exec.after_error he]
  exact .refl w₁

end Path

namespace Run

/-- A course spares what its assignments spare. -/
theorem course_spares_of {em : Embedding} {isPure : Bool} {P : Happening → Prop}
    (hP : ∀ w scope (p : Path) op v, p.isStatic = true → (isPure = true → p.rootKey?.any RootKey.isContext = true) →
      P (.assigned w scope p op v) → w.Spares R (((Engine.full em).writePath p scope v op true).after w))
    {c : Chapter} {s s' : CallStack} {w w' : World} {t : List Happening} {m : List Moment} {e : Option Fault}
    (h : Course (World.Spares R) (Engine.full em) isPure c s w t m e s' w') (ht : ∀ x ∈ t, P x) : w.Spares R w' :=
  course_leads_of (Q := fun _ => True) id hP (fun _ _ _ _ => World.Overlooks.errors _ _ _)
    (fun _ _ _ _ _ _ _ _ he => errorOf_leads he) h ht fun _ _ => trivial

/-- What an error is made of keeps the errors of a set, unless one of them learns the event. -/
theorem errorOf_leavesAlone {f : Fault} {stack : CallStack} {event : Option String} {err : ErrorId} {w w' : World}
    (h : Exec.errorOf f stack event w = .ok err w') (he : E err → event = none) : w.LeavesAlone R E w' := by
  refine ⟨errorOf_leads h, ?_⟩
  cases f with
  | thrown e message =>
    cases h
    dsimp only
    split
    · exact World.Tolerates.refl w
    · rename_i hnone
      refine World.keepsErrors_setError fun hin => ?_
      have hevent : (w.store.error err).event = none := Option.not_isSome_iff_eq_none.mp hnone
      rw [he hin, ← hevent]
  | _ =>
    rw [← Exec.after_ok h]
    exact Exec.Along.newError _ w

theorem Ends.leavesAlone {e : Option Fault} {s : CallStack} {w w' : World} {m : List Moment} {o : Outcome}
    (h : Ends e s w m o w') : w.LeavesAlone R E w' := by
  cases e with
  | none =>
    obtain ⟨rfl, -⟩ := h
    exact World.Tolerates.refl w'
  | some f =>
    obtain ⟨err, w₁, he, rfl, -⟩ := h
    exact World.Tolerates.trans (errorOf_leavesAlone he fun _ => rfl) (reportError_along err w₁)

/-- A course of pure actions preserves what its assignments are apart from, and errors that are not thrown. -/
theorem course_leavesAlone {em : Embedding} (hem : em.Along (World.LeavesAlone R E)) {c : Chapter} {s s' : CallStack}
    {w w' : World} {t : List Happening} {m : List Moment} {e : Option Fault}
    (h : Course (World.LeavesAlone R E) (Engine.full em) true c s w t m e s' w') (ht : ∀ x ∈ t, x.Apart R E)
    (hm : ∀ x ∈ m, x.Apart E) : w.LeavesAlone R E w' := by
  refine course_leads_of id (fun u scope p op v hs hk ha => ⟨?_, ?_⟩) (fun u err s he => ⟨?_, ?_⟩)
    (fun u u' event start err f stack he heq => ?_) h ht hm
  · unfold Exec.after
    rw [Engine.writePath_static hs]
    exact Path.writeStatic_spares (Engine.full_along (hem.mono fun _ _ h => h.1)).read u.limits (hk rfl) v ha
  · exact Engine.full_writePath_along (hem.mono fun _ _ h => h.2) p scope v op true u
  · exact World.Overlooks.errors _ _ _
  · exact World.keepsErrors_setError fun hin => absurd hin he
  · exact errorOf_leavesAlone heq fun hin => absurd hin he

/-- A pure run, of a block or of an event, leaves all that the roots lead to as it was, as long as none of its
assignments goes into it and no error that is found there is thrown. -/
theorem pure_runs_are_contained (host : Host) (w : World) (hh : host.Along (World.LeavesAlone w.Rooted w.RootedError)) :
    (∀ block scope, (runHandler host block scope true w).Ensures (World.LeavesAlone w.Rooted w.RootedError) fun o w' =>
      (∀ h ∈ o.journal, h.Apart w.Rooted w.RootedError) → (∀ m ∈ o.track, m.Apart w.RootedError) →
        w.LeavesAlone w.Rooted w.RootedError w') ∧
    ∀ event scope, (fire host event scope true w).Ensures (World.LeavesAlone w.Rooted w.RootedError) fun o w' =>
      (∀ h ∈ o.journal, h.Apart w.Rooted w.RootedError) → (∀ m ∈ o.track, m.Apart w.RootedError) →
        w.LeavesAlone w.Rooted w.RootedError w' := by
  have contained {c : Chapter} {o : Outcome} {w' : World}
      (ho : Follows.Outcome (World.LeavesAlone w.Rooted w.RootedError) (Engine.full host.toEmbedding) true c w o w')
      (hj : ∀ h ∈ o.journal, h.Apart w.Rooted w.RootedError) (hm : ∀ m ∈ o.track, m.Apart w.RootedError) :
      w.LeavesAlone w.Rooted w.RootedError w' := by
    obtain ⟨m, e, s, w₁, hc, he⟩ := ho
    have hj (x) (hx : x ∈ o.journal.toList) := hj x (Array.mem_def.mpr hx)
    have hm (x) (hx : x ∈ m) := hm x (Array.mem_def.mpr (he.mem_track hx))
    exact World.Tolerates.trans (course_leavesAlone hh.embedding hc hj hm) he.leavesAlone
  constructor
  · intro block scope
    exact (runHandler_follows hh block scope (fun _ => rfl) w).mono fun _ _ => contained
  · intro event scope
    exact (fire_follows hh event scope (fun _ => rfl) w).mono fun _ _ => contained

/-- A pure run may fill its context, and it may throw an error of its own. -/
theorem context_entry_is_contained :
    let w : World := {
      store := {
        objects := #[[], [(.str "n", .int 1), (.str "err", .error 0)]]
        errors := #[{ message := "old" }]
        cells := #[{ value := .object 1 }, { value := .null }] }
      scopes := #[{ context := 0 }]
      stateCell := 1 }
    let block : Block := .actions
      [.assign (.mk (.root { key := .context }) [.key "x"]) .set (.literal (.int 2)), .throw (.literal (.str "no"))]
    Host.plain.Along (World.LeavesAlone w.Rooted w.RootedError) ∧ w.RootedError 0 ∧
      (∀ h ∈ (runHandler Host.plain (some block) 0 true w).finish.1.journal, h.Apart w.Rooted w.RootedError) ∧
      (∀ m ∈ (runHandler Host.plain (some block) 0 true w).finish.1.track, m.Apart w.RootedError) ∧
      w.LeavesAlone w.Rooted w.RootedError (runHandler Host.plain (some block) 0 true w).finish.2 := by
  have hrun (w : World) (block : Block) := Step.Ensures.finish
    ((pure_runs_are_contained Host.plain w Host.plain_along).1 (some block) 0) World.Tolerates.refl
  intro w block
  have hrooted {x : Place} (h : w.Rooted x) : x = .cell 0 ∨ x = .cell 1 ∨ x = .object 1 := by
    induction h with
    | global => exact .inl rfl
    | state => exact .inr (.inl rfl)
    | @component s c hs hc =>
      obtain rfl : s = 0 := Nat.lt_one_iff.mp hs
      cases hc
    | @args s c hs hc =>
      obtain rfl : s = 0 := Nat.lt_one_iff.mp hs
      cases hc
    | value _ hx ih =>
      rcases ih with ih | ih | ih <;> cases ih
      · exact .inr (.inr (List.mem_singleton.mp hx))
      · cases hx
    | element _ _ _ ih => rcases ih with ih | ih | ih <;> cases ih
    | entry _ he hx ih =>
      rcases ih with ih | ih | ih <;> cases ih
      rcases List.mem_pair.mp he with rfl | rfl <;> cases hx
  have hcontext : ¬w.Rooted (.object 0) := by
    intro h
    rcases hrooted h with h | h | h <;> cases h
  have hjournal : (runHandler Host.plain (some block) 0 true w).finish.1.journal.all (·.makesEntryOf 0) = true := by
    decide +kernel
  have htrack : (runHandler Host.plain (some block) 0 true w).finish.1.track.all Moment.throwsAnew = true := by
    decide +kernel
  have hj (h) (hh : h ∈ (runHandler Host.plain (some block) 0 true w).finish.1.journal) :=
    Happening.apart_of_makesEntryOf (E := w.RootedError) hcontext (Array.all_eq_true_iff_forall_mem.mp hjournal h hh)
  have hm (m) (hh : m ∈ (runHandler Host.plain (some block) 0 true w).finish.1.track) :=
    Moment.apart_of_throwsAnew (E := w.RootedError) (Array.all_eq_true_iff_forall_mem.mp htrack m hh)
  have hglobal : w.Rooted (.object 1) := .value .global List.mem_cons_self
  have herror : w.RootedError 0 := .entry hglobal (List.mem_cons_of_mem _ List.mem_cons_self)
  exact ⟨Host.plain_along, herror, hj, hm, hrun w block hj hm⟩

/-- A reference that the context holds leads a pure run into the data, and an error in the data that a pure run throws
learns the call stack. -/
theorem reference_escapes_containment :
    let w : World := {
      store := {
        objects := #[[], [(.str "obj", .object 2), (.str "err", .error 0)], [(.str "k", .int 1)]]
        errors := #[{ message := "old" }]
        cells := #[{ value := .object 1 }, { value := .null }] }
      scopes := #[{ context := 0 }]
      stateCell := 1 }
    let assigns : Block := .actions [
      .assign (.mk (.root { key := .context }) [.key "x"]) .set (.path (.mk (.root { key := .global }) [.key "obj"])),
      .assign (.mk (.root { key := .context }) [.key "x", .key "k"]) .set (.literal (.int 2))]
    let throws : Block := .actions [.throw (.path (.mk (.root { key := .global }) [.key "err"]))]
    w.Rooted (.object 2) ∧ w.RootedError 0 ∧
      (runHandler Host.plain (some assigns) 0 true w).finish.2.store.object 2 ≠ w.store.object 2 ∧
      (runHandler Host.plain (some throws) 0 true w).finish.2.store.error 0 ≠ w.store.error 0 := by
  intro w assigns throws
  have hglobal : w.Rooted (.object 1) := .value .global List.mem_cons_self
  refine ⟨.entry hglobal List.mem_cons_self List.mem_cons_self, ?_, by decide +kernel, by decide +kernel⟩
  exact .entry hglobal (List.mem_cons_of_mem _ List.mem_cons_self)

end Run

end EventScript
