import EventScript.Proofs.Contents
import EventScript.Proofs.Evaluation

/-!
# Evaluation is read-only

Evaluating an expression leaves all that there is as it is, whether it gives a value or fails. Functions of the host
may change what they are called with; but they are called with copies, and a copy contains no container that was
there before.
-/

namespace EventScript

namespace World

/-- All places stay and hold what they held, and the functions that scripts can call are the same. -/
structure Keeps (w w' : World) : Prop where
  spares : w.Spares (fun _ => True) w'
  functions : w'.functions = w.functions

/-- The functions that are given the values of the caller themselves are all built in. -/
def CopiesForHost (w : World) : Prop :=
  ∀ name f, w.function? name = some f → f.shares = true → ∃ b, f.callee = .builtin b

/-- All containers in a value are there now and were not there before. -/
def AllNew (w₀ w : World) (v : Value) : Prop :=
  ∀ y, w.Contains v y → (∀ c, y ≠ .context c) ∧ ∀ x, y.own? = some x → w.Has x ∧ ¬w₀.Has x

/-- What is there is kept, as long as the functions of the host are given copies. -/
def ReadsOnly (w w' : World) : Prop := w.CopiesForHost → w.Keeps w'

variable {w₀ w w' w'' : World} {v : Value}

theorem Keeps.trans (h : w.Keeps w') (k : w'.Keeps w'') : w.Keeps w'' where
  spares := h.spares.trans k.spares
  functions := k.functions.trans h.functions

theorem Grown.keeps (h : w.Grown w') : w.Keeps w' where
  spares := Tolerates.grown h
  functions := h.functions

instance : Tolerates Keeps where
  trans := Keeps.trans
  grown := Grown.keeps

theorem Keeps.copiesForHost (h : w.Keeps w') (hw : w.CopiesForHost) : w'.CopiesForHost := by
  intro name f hf
  unfold function? at hf
  rw [h.functions] at hf
  exact hw name f hf

instance : Tolerates ReadsOnly where
  trans h k hw := (h hw).trans (k ((h hw).copiesForHost hw))
  grown h _ := h.keeps

theorem Keeps.has (h : w.Keeps w') {x : Place} (hx : w.Has x) : w'.Has x := (h.spares.place x trivial hx).1

theorem Keeps.sameAt (h : w.Keeps w') {x : Place} (hx : w.Has x) : w.SameAt w' x := (h.spares.place x trivial hx).2

theorem AllNew.of_plain (hv : ∀ s, w.slot? v s = none) (hc : ∀ c, v ≠ .context c) (ho : v.own? = none) :
    w₀.AllNew w v := by
  intro y hy
  obtain rfl := hy.eq_self hv
  exact ⟨hc, fun x hx => by rw [ho] at hx; cases hx⟩

theorem AllNew.orNull (h : w₀.AllNew w v) : w₀.AllNew w v.orNull := by
  cases v with
  | absent => exact .of_plain (fun s => by cases s <;> rfl) (fun c hc => by cases hc) rfl
  | _ => exact h

theorem AllNew.of_later (h : w.AllNew w' v) (k : w₀.Keeps w) : w₀.AllNew w' v := fun y hy =>
  ⟨(h y hy).1, fun x hx => ⟨((h y hy).2 x hx).1, fun hw => ((h y hy).2 x hx).2 (k.has hw)⟩⟩

theorem AllNew.kept (h : w₀.AllNew w v) (k : w.Keeps w') : w₀.AllNew w' v := by
  have hagrees : w.Agrees w' v := by
    intro y hy
    obtain ⟨hc, hx⟩ := h y hy
    refine ⟨fun c hyc => absurd hyc (hc c), fun x hxy => ?_⟩
    rw [touched_of_not_context w hc] at hxy
    exact k.sameAt (hx x (Option.mem_toList.mp hxy)).1
  intro y hy
  obtain ⟨hc, hx⟩ := h y (hagrees.contains.mp hy)
  exact ⟨hc, fun x hown => ⟨k.has (hx x hown).1, (hx x hown).2⟩⟩

/-- A new container of values that contain only what is new. -/
theorem AllNew.container (hown : ∀ x, v.own? = some x → w.Has x ∧ ¬w₀.Has x) (hc : ∀ c, v ≠ .context c)
    (hslots : ∀ s u, w.slot? v s = some u → w₀.AllNew w u) : w₀.AllNew w v := by
  rintro y ⟨way, hway⟩
  cases way with
  | nil =>
    cases hway
    exact ⟨hc, hown⟩
  | cons s rest =>
    cases hs : w.slot? v s with
    | none =>
      simp only [at?, hs] at hway
      cases hway
    | some u =>
      simp only [at?, hs, Option.bind_some] at hway
      exact hslots s u hs y ⟨rest, hway⟩

end World

/-! ### Copies are new -/

section Copies

variable {read : HandleId → Exec Value} {w w' : World}

theorem mapM_allNew {α β : Type} {f : α → Exec β} (value : β → Value)
    (hf : ∀ x w b w', w.CopiesForHost → f x w = .ok b w' → w.Keeps w' ∧ w.AllNew w' (value b)) {xs : List α}
    {bs : List β} (hw : w.CopiesForHost) (hrun : xs.mapM f w = .ok bs w') :
    w.Keeps w' ∧ ∀ b ∈ bs, w.AllNew w' (value b) := by
  induction xs generalizing w bs with
  | nil =>
    cases hrun
    exact ⟨World.Tolerates.refl _, by simp⟩
  | cons x rest ih =>
    rw [List.mapM_cons] at hrun
    obtain ⟨b, w₁, hb, hrun⟩ := Exec.bind_eq_ok hrun
    obtain ⟨bs', w₂, hrest, hrun⟩ := Exec.bind_eq_ok hrun
    cases hrun
    obtain ⟨hk, hnew⟩ := hf x w b w₁ hw hb
    obtain ⟨hk', hnew'⟩ := ih (hk.copiesForHost hw) hrest
    refine ⟨hk.trans hk', fun c hc => ?_⟩
    rcases List.mem_cons.mp hc with rfl | hc
    · exact hnew.kept hk'
    · exact (hnew' c hc).of_later hk

theorem newArray_allNew {w₀ : World} {items : List Value} (h₀ : w₀.Keeps w) (h : ∀ u ∈ items, w₀.AllNew w u) {c : Value}
    (hrun : Exec.newArray items.toArray w = .ok c w') : w₀.AllNew w' c := by
  cases hrun
  have hk : w.Keeps { w with store := (w.store.newArray items.toArray).2 } :=
    (World.Grown.ofStore (.newArray w.store items.toArray)).keeps
  refine .container (fun x hx => ?_) (by simp) fun s u hs => ?_
  · cases hx
    exact ⟨by simp [World.Has, Store.newArray], fun hw => absurd (h₀.has hw) (Nat.lt_irrefl _)⟩
  · cases s with
    | index i =>
      have hu : items[i]? = some u := by simpa [World.slot?, Store.array, Store.newArray, getD_push_size] using hs
      exact (h u (List.mem_of_getElem? hu)).kept hk
    | key k => cases hs

theorem newObject_allNew {w₀ : World} {es : Entries Value} (h₀ : w₀.Keeps w) (h : ∀ e ∈ es, w₀.AllNew w e.2) {c : Value}
    (hrun : Exec.newObject es w = .ok c w') : w₀.AllNew w' c := by
  cases hrun
  have hk : w.Keeps { w with store := (w.store.newObject es).2 } :=
    (World.Grown.ofStore (.newObject w.store es)).keeps
  refine .container (fun x hx => ?_) (by simp) fun s u hs => ?_
  · cases hx
    exact ⟨by simp [World.Has, Store.newObject], fun hw => absurd (h₀.has hw) (Nat.lt_irrefl _)⟩
  · cases s with
    | index i => cases hs
    | key k =>
      have hu : Entries.get? k es = some u := by
        simpa [World.slot?, World.valueAt?, Store.object, Store.newObject, getD_push_size] using hs
      obtain ⟨k', hm⟩ := Entries.mem_of_get? hu
      exact (h _ hm).kept hk

/-- The entries of a copy contain no container that was there before. -/
theorem copyEntries_allNew {resolve : Bool} {fuel : Nat} {active : List Value} {trail : List String}
    (ih : ∀ {active : List Value} {trail : List String} {v c : Value} {w w' : World}, w.CopiesForHost →
      copyFrom read resolve fuel active trail v w = .ok c w' → w.Keeps w' ∧ w.AllNew w' c)
    {es : Entries Value} {c : Value} (hw : w.CopiesForHost)
    (hrun : (es.mapM (fun e => do
      return (e.1, ← copyFrom read resolve fuel active (e.1.text :: trail) e.2)) >>= Exec.newObject) w = .ok c w') :
    w.AllNew w' c := by
  obtain ⟨es', w₁, hes, hnew⟩ := Exec.bind_eq_ok hrun
  obtain ⟨hk, hall⟩ := mapM_allNew Prod.snd (fun e w b w' hw he => by
    obtain ⟨u, w₂, hu, he⟩ := Exec.bind_eq_ok he
    cases he
    exact ih hw hu) hw hes
  exact newObject_allNew hk hall hnew

variable (hr : ∀ h, (read h).Along World.ReadsOnly)
include hr

/-- A copy contains no container that was there before. -/
theorem copyFrom_allNew {resolve : Bool} {fuel : Nat} {active : List Value} {trail : List String} {v c : Value}
    (hw : w.CopiesForHost) (hrun : copyFrom read resolve fuel active trail v w = .ok c w') :
    w.Keeps w' ∧ w.AllNew w' c := by
  have hkeeps := copyFrom_along hr resolve fuel active trail v w hw
  rw [Exec.after_ok hrun] at hkeeps
  refine ⟨hkeeps, ?_⟩
  induction fuel generalizing active trail v c w w' with
  | zero => cases hrun
  | succ fuel ih =>
    have copy {active : List Value} {trail : List String} {v c : Value} {w w' : World} (hw : w.CopiesForHost)
        (hrun : copyFrom read resolve fuel active trail v w = .ok c w') : w.Keeps w' ∧ w.AllNew w' c := by
      have hkeeps := copyFrom_along hr resolve fuel active trail v w hw
      rw [Exec.after_ok hrun] at hkeeps
      exact ⟨hkeeps, ih hw hrun hkeeps⟩
    unfold copyFrom at hrun
    obtain ⟨u, w₁, hu, hrun⟩ := Exec.bind_eq_ok hrun
    have hk : w.Keeps w₁ := by
      have := seeThrough_along hr resolve v w hw
      rwa [Exec.after_ok hu] at this
    have hw₁ := hk.copiesForHost hw
    refine World.AllNew.of_later ?_ hk
    cases u with
    | array a =>
      dsimp only at hrun
      split at hrun
      · cases hrun
      · obtain ⟨items, w₂, hitems, hnew⟩ := Exec.bind_eq_ok (x := List.mapM _ _) hrun
        obtain ⟨hk₂, hall⟩ := mapM_allNew id (fun x w b w' hw hx => copy hw hx) hw₁ hitems
        exact newArray_allNew hk₂ hall hnew
    | object o =>
      dsimp only at hrun
      split at hrun
      · cases hrun
      · exact copyEntries_allNew copy hw₁ hrun
    | context o =>
      dsimp only at hrun
      split at hrun
      · cases hrun
      · exact copyEntries_allNew copy hw₁ hrun
    | blob b =>
      cases hrun
      refine .container (fun x hx => ?_) (by simp) fun s u hs => by cases s <;> cases hs
      cases hx
      exact ⟨by simp [World.Has, Store.newBlob], Nat.lt_irrefl _⟩
    | _ =>
      cases hrun
      exact .of_plain (fun s => by cases s <;> rfl) (by simp) rfl

theorem deepCopy_allNew {resolve : Bool} {v c : Value} (hw : w.CopiesForHost)
    (hrun : deepCopy read resolve v w = .ok c w') : w.Keeps w' ∧ w.AllNew w' c := by
  obtain ⟨w₁, w₂, hget, hrun⟩ := Exec.bind_eq_ok hrun
  cases hget
  exact copyFrom_allNew hr hw hrun

end Copies

/-! ### Calls -/

/-- The native function values of the host keep all that there is. Its functions may change what their arguments
contain, and nothing else. -/
structure Embedding.MindsArguments (em : Embedding) : Prop where
  native : ∀ name scope v, (em.native name scope v).Along World.Keeps
  spares : ∀ name args (w : World),
    w.Spares (fun x => ∀ v ∈ args, ∀ y, w.Contains v y → x ∉ w.touched y) ((em.function name args).after w)
  functions : ∀ name args (w : World), ((em.function name args).after w).functions = w.functions

variable {em : Embedding}

/-- A function of the host keeps all that was there before what it is called with. -/
theorem Embedding.MindsArguments.keeps (hem : em.MindsArguments) {w₀ w : World} (h : w₀.Keeps w) {args : List Value}
    (ha : ∀ v ∈ args, w₀.AllNew w v) (name : String) : w₀.Keeps ((em.function name args).after w) where
  functions := (hem.functions name args w).trans h.functions
  spares := by
    have hs := hem.spares name args w
    refine ⟨fun x _ hx => ?_, h.spares.views.trans hs.views, h.spares.scopes.trans hs.scopes,
      hs.globalCell.trans h.spares.globalCell, hs.stateCell.trans h.spares.stateCell⟩
    obtain ⟨hw, hsame⟩ := h.spares.place x trivial hx
    refine And.imp id hsame.trans (hs.place x (fun v hv y hy hxy => ?_) hw)
    obtain ⟨hc, hnew⟩ := ha v hv y hy
    rw [World.touched_of_not_context w hc] at hxy
    exact (hnew x (Option.mem_toList.mp hxy)).2 hx

/-- What is kept from a world on stays kept. -/
def World.StaysKept (w₀ w w' : World) : Prop := w₀.Keeps w → w₀.Keeps w'

instance (w₀ : World) : World.Tolerates w₀.StaysKept where
  trans h k := k ∘ h
  grown h k := k.trans h.keeps

namespace Engine

variable {g : Engine} (hg : g.Along World.ReadsOnly) (hem : em.MindsArguments)
include hg hem

/-- Calling a function with what is new keeps all that was there, and so does calling one that is built in. -/
theorem callee_keeps {w₀ w : World} (h₀ : w₀.CopiesForHost) (hk : w₀.Keeps w) (c : Callee) {args : List Value} :
    ((∃ b, c = .builtin b) ∨ ∀ v ∈ args, w₀.AllNew w v) →
      w₀.Keeps ((match c with
        | .builtin b => b.apply g.access.read args
        | .hosted h => em.function h args : Exec Value).after w) := by
  intro hc
  cases c with
  | builtin b => exact hk.trans (Builtin.apply_along hg.read b args w (hk.copiesForHost h₀))
  | hosted h => exact hem.keeps hk (hc.resolve_left (by simp)) h

/-- Calling a function keeps what there is, if it is built in or is given copies. -/
theorem callFunction_keeps {w : World} (hw : w.CopiesForHost) (name : String) {f : Function}
    (hf : f.shares = true → ∃ b, f.callee = .builtin b) (args : List Value) :
    w.Keeps ((callFunction em g name f args).after w) := by
  have hcall (w₁ : World) (args : List Value) (hk : w.Keeps w₁)
      (hc : (∃ b, f.callee = .builtin b) ∨ ∀ v ∈ args, w.AllNew w₁ v) :
      w.StaysKept w₁ ((do
        Exec.debugLine ["CALL", name, "argc", toString args.length]
        tryCatch (match f.callee with
          | .builtin b => b.apply g.access.read args
          | .hosted h => em.function h args) fun e =>
          if e.isOwn then throw e else Exec.fail (.functionFailed name e.report) : Exec Value).after w₁) := by
    refine Exec.after_bind (Exec.Along.debugLine _ w₁) fun _ w₂ hrun => ?_
    have hk₂ : w₁.Keeps w₂ := by
      have hline : w₁.Keeps (Exec.after _ w₁) := Exec.Along.debugLine ["CALL", name, "argc", toString args.length] w₁
      rwa [Exec.after_ok hrun] at hline
    refine Exec.after_tryCatch (fun hk => ?_) fun e w₃ _ => ?_
    · exact callee_keeps hg hem hw hk f.callee (hc.imp id fun h v hv => (h v hv).kept hk₂)
    · split
      · exact Exec.Along.throw e w₃
      · exact Exec.Along.fail _ w₃
  unfold callFunction
  by_cases hs : f.shares = true
  · simp only [hs, if_true]
    exact hcall w args (World.Tolerates.refl w) (.inl (hf hs)) (World.Tolerates.refl w)
  · simp only [hs]
    have hcopies := Exec.Along.mapM (deepCopy_along hg.read true) args w hw
    suffices h : w.StaysKept w _ from h (World.Tolerates.refl w)
    refine Exec.after_bind (fun _ => hcopies) fun copies w₁ hrun => ?_
    obtain ⟨hk, hnew⟩ := mapM_allNew id (fun v _ _ _ hw hv => deepCopy_allNew hg.read hw hv) hw hrun
    refine hcall w₁ (copies.map Value.orNull) hk (.inr fun v hv => ?_)
    obtain ⟨c, hc, rfl⟩ := List.mem_map.mp hv
    exact (hnew c hc).orNull

theorem evalCall_readsOnly (name : String) (args : List Expr) (scope : Option ScopeId) :
    (evalNode em g (.call name args) scope).Along World.ReadsOnly := by
  intro w hw
  suffices h : w.ReadsOnly _ from h hw
  unfold evalNode
  cases scope with
  | none => exact Exec.Along.throw _ w
  | some s =>
    refine Exec.after_bind (Exec.Along.get w) fun _ _ hget => ?_
    cases hget
    cases hf : w.function? name with
    | none => exact Exec.Along.fail _ w
    | some f =>
      have hargs := Exec.Along.mapM (fun e => hg.eval e (some s)) args w
      refine Exec.after_bind hargs fun vs w₁ _ hw₁ => ?_
      exact callFunction_keeps hg hem hw₁ name (hw name f hf) vs

omit hg hem

theorem full_readsOnly (hem : em.MindsArguments) : (full em).Along World.ReadsOnly := by
  have hn : ∀ name scope v, (em.native name scope v).Along World.ReadsOnly := fun name scope v w _ =>
    hem.native name scope v w
  exact level_along_of_calls hn (fun g hg => evalCall_readsOnly hg hem) depth

/-- Evaluating an expression, in whatever mode and whether it gives a value or fails, only adds to what there is: all
places stay and hold what they held. This is so as long as the functions of the host that are given the values of the
caller themselves are the built-in ones. -/
theorem evaluation_keeps_all (hem : em.MindsArguments) {w : World} (hw : w.CopiesForHost) (mode : String) (e : Expr)
    (scope : Option ScopeId) : w.Keeps (((full em).evalNamed mode e scope).after w) :=
  evalNamed_along (full_readsOnly hem) mode e scope w hw

/-- A host whose only function adds to the array that it is called with. -/
def adding : Embedding where
  native _ _ _ := throw .arity
  function _ vs := do
    match vs with
    | [.array a] => do
      let xs := (← Exec.store).array a
      modify fun w => { w with store := w.store.setArray a (xs.push (.int 99)) }
      return .int (xs.size + 1)
    | _ => throw .arity

theorem adding_mindsArguments : adding.MindsArguments where
  native _ _ _ := .throw _
  spares name vs w := by
    dsimp only [adding]
    split
    · rename_i a
      refine (World.changedAt_setArray w a _).spares fun h => ?_
      exact h (.array a) (by simp) (.array a) (.self w _) (by simp [World.touched, Value.own?])
    · exact .refl w
  functions name vs w := by
    dsimp only [adding]
    split <;> rfl

/-- A function of the host adds to its copy of an array, and the array stays as it was. -/
theorem adding_to_a_copy :
    let w : World := {
      store := {
        arrays := #[#[.int 1]]
        objects := #[[(.str "a", .array 0)]]
        cells := #[{ value := .object 0 }, { value := .null }] }
      stateCell := 1
      functions := [("mutate", { callee := .hosted "mutate", shares := false })] }
    let e : Expr := .call "mutate" [.path (.mk (.root { key := .global }) [.key "a"])]
    ∃ w', (full adding).evalNamed "natural" e (some 0) w = .ok (.int 2) w' ∧ w.Keeps w' := by
  intro w e
  have hw : w.CopiesForHost := by
    intro name f hf hs
    obtain ⟨entry, he, rfl⟩ := Option.map_eq_some_iff.mp hf
    rw [List.mem_singleton.mp (List.mem_of_find?_eq_some he)] at hs
    cases hs
  obtain ⟨w', hrun⟩ : ∃ w', (full adding).evalNamed "natural" e (some 0) w = .ok (.int 2) w' := ⟨_, rfl⟩
  have hk := evaluation_keeps_all adding_mindsArguments hw "natural" e (some 0)
  rw [Exec.after_ok hrun] at hk
  exact ⟨w', hrun, hk⟩

end Engine

end EventScript
