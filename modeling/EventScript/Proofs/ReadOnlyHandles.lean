import EventScript.Proofs.HandleChains

/-!
# Read-only handles

A write that comes to a read-only handle in a slot is dropped there, whatever is left of its path. It is dropped too
where the slot holds a chain that ends in one and nothing is left of the path. What is left of it after such a chain,
however, is written to in what the chain leads to.
-/

namespace EventScript

namespace World

variable {w w' : World}

theorem Grown.handle (h : w.Grown w') {x : HandleId} (hx : x < w.store.handles.size) :
    w'.store.handle x = w.store.handle x :=
  getD_of_begins h.store.handles hx _

theorem lt_of_site {x : HandleId} {c : CellId} {parts : List Part} (h : w.site? x = some (c, parts)) :
    x < w.store.handles.size := by
  refine Nat.lt_of_not_le fun hx => ?_
  have hnone : w.store.handle x = .readOnly 0 := by
    unfold Store.handle
    rw [Array.getD_eq_getD_getElem?, Array.getElem?_eq_none hx]
    rfl
  rcases site?_cases h with ⟨r, s, hb, -⟩ | ⟨r, hb, -⟩ <;> rw [hnone] at hb <;> cases hb

/-- A handle goes on leading where it led when the world grows. -/
theorem Leads.grown (h : w.Grown w') {x : HandleId} {c : CellId} {parts : List Part} {u : Value}
    (hx : w.Leads x c parts u) : w'.Leads x c parts u := by
  have hhandle := h.handle (lt_of_site hx.site)
  have hcell : w'.store.cell c = w.store.cell c := h.sameAt hx.has
  have hlimits : w'.limitsOf x = w.limitsOf x := by
    unfold limitsOf
    rw [hhandle, h.limits]
  have hsite : w'.site? x = w.site? x := by
    unfold site?
    simp only [hhandle, sharedCell?_congr h.globalCell h.stateCell]
  obtain ⟨hsteps, htarget⟩ := h.kept.way hx.track
  refine ⟨hsite.trans hx.site, h.has hx.has, ?_, ?_⟩
  · rw [hcell, hlimits]
    exact hx.track.congr h.kept.knows hsteps
  · rw [hcell, htarget]
    exact hx.target

theorem Links.grown (h : w.Grown w') {x y : HandleId} {xs : List HandleId} (hl : w.Links x xs y) :
    w'.Links x xs y := by
  induction hl with
  | here x => exact .here x
  | next hx _ ih => exact .next (hx.grown h) ih

/-- A handle of the world whose writes are dropped. -/
def Drops (w : World) (x : HandleId) : Prop := x < w.store.handles.size ∧ w.store.isReadOnly x = true

theorem Drops.grown (h : w.Grown w') {x : HandleId} (hx : w.Drops x) : w'.Drops x := by
  refine ⟨Nat.lt_of_lt_of_le hx.1 (size_le_of_begins h.store.handles), ?_⟩
  unfold Store.isReadOnly
  rw [h.handle hx.1]
  exact hx.2

theorem kept_told (w : World) (notices : Array Notice) : w.Kept { w with notices } where
  place x _ hx := by cases x <;> exact ⟨hx, rfl⟩
  views := List.prefix_refl _
  scopes := List.prefix_refl _
  globalCell := rfl
  stateCell := rfl

end World

/-- A computation gives a value or fails, and keeps all that there is either way. -/
def Exec.Settles {α : Type} (x : Exec α) (w : World) (a : α) : Prop :=
  ∃ w', w.Kept w' ∧ (x w = .ok a w' ∨ ∃ f, x w = .error f w')

namespace Engine

open World

section Access

variable {h : HandleAccess} (hr : ∀ z, (h.read z).Along World.Grown) (limits : Limits) {w : World} {x : HandleId}
include hr

/-- At the end of a path, a write to a handle changes what the handle changes when it is written to. -/
theorem writeParts_settles (text : String) (op : WriteOp) (e : Value)
    (hw : ∀ v w₁, w.Grown w₁ → Exec.Settles (h.write x v) w₁ ()) :
    Exec.Settles (Path.writeParts h limits text op e [] (.handle x)) w (.handle x) := by
  by_cases hx : w.store.isReadOnly x = true
  · exact ⟨w, .refl w, .inl (Path.writeParts_readOnly h limits text op e [] hx)⟩
  have hrun : Path.writeParts h limits text op e [] (.handle x) w =
      (if op == .set || op == .setRaw then do
        h.write x (← Path.stored h.read limits op e)
        return .handle x
      else Exec.fail (.opOnHandle op) : Exec Value) w := by
    change (if w.store.isReadOnly x = true then _ else _ : Exec Value) w = _
    rw [if_neg hx]
  unfold Exec.Settles
  rw [hrun]
  split
  · have hs := Path.stored_along hr limits op e w
    cases hv : Path.stored h.read limits op e w with
    | error f w₁ =>
      rw [Exec.after_error hv] at hs
      exact ⟨w₁, hs.kept, .inr ⟨f, Exec.bind_error hv⟩⟩
    | ok v w₁ =>
      rw [Exec.after_ok hv] at hs
      rw [Exec.bind_ok hv]
      obtain ⟨w₂, hk, hrun | ⟨f, hrun⟩⟩ := hw v w₁ hs
      · exact ⟨w₂, hs.kept.trans hk, .inl (Exec.bind_ok hrun)⟩
      · exact ⟨w₂, hs.kept.trans hk, .inr ⟨f, Exec.bind_error hrun⟩⟩
  · exact ⟨w, .refl w, .inr ⟨_, rfl⟩⟩

/-- What settles at the end of a way settles for the value where the way began. -/
theorem comes_settles {text : String} {op : WriteOp} {e v u : Value} {w' : World} {front back : List Part}
    {steps : List (Value × Part × Value)} (hc : Path.Comes h limits front v w steps u w') (hu : u.isNull = false)
    (hend : Exec.Settles (Path.writeParts h limits text op e back u) w' u) :
    Exec.Settles (Path.writeParts h limits text op e (front ++ back) v) w v := by
  obtain ⟨w₁, hk, hrun | ⟨f, hrun⟩⟩ := hend
  · exact ⟨w₁, (hc.grown hr).kept.trans hk, .inl (hc.writes hu hrun (hc.idle hr hu hk))⟩
  · exact ⟨w₁, (hc.grown hr).kept.trans hk, .inr ⟨f, hc.fails hu hrun⟩⟩

end Access

/-- Through a root that may be written to, a write goes along its path from the value of the root. -/
theorem writeStatic_root {h : HandleAccess} {limits : Limits} {r : Root} {rest : List Part} {scope : ScopeId}
    {allow : Bool} {cur : Value} {w w' : World} (hwritable : (r.key.isWritable || allow && r.key.isContext) = true)
    (hreplaceable : rest = [] → r.key.isReplaceable = true)
    (hroot : Exec.rootValue scope r.key r.caret w = .ok cur w') (v : Value) (op : WriteOp) :
    Path.writeStatic h limits (.mk (.root r) rest) scope v op allow w =
      (do
        let updated ← Path.writeParts h limits (Path.mk (.root r) rest).text op v rest cur
        if updated != cur then Exec.setRootValue scope r.key updated : Exec Unit) w' := by
  have hw : (!r.key.isWritable && !(allow && r.key.isContext)) = false := by
    rw [← Bool.not_or, hwritable]
    rfl
  have hl : ((Path.mk (.root r) rest).length == 1 && !r.key.isReplaceable) = false := by
    cases rest with
    | nil =>
      rw [hreplaceable rfl]
      rfl
    | cons part rest => rfl
  unfold Path.writeStatic
  simp only [Path.root?, hw, hl, Bool.false_eq_true, if_false]
  exact Exec.bind_ok hroot

section Embedded

variable {em : Embedding} (hem : em.Along World.Grown) {w : World} {x y : HandleId} {xs : List HandleId}
include hem

/-- Writing to a chain of handles that ends in a read-only one keeps all. -/
theorem links_settle (hl : w.Links x xs y) (hy : w.Drops y) (n : Nat) (e : Value) :
    Exec.Settles ((level em n).access.write x e) w () := by
  induction n generalizing x xs w e with
  | zero => exact ⟨w, .refl w, .inr ⟨_, rfl⟩⟩
  | succ n ih =>
    cases hl with
    | here =>
      refine ⟨w, .refl w, .inl ?_⟩
      change (level em n).writeHandle y e w = .ok () w
      unfold writeHandle
      rw [Exec.store_bind]
      obtain ⟨-, hx⟩ := hy
      unfold Store.isReadOnly at hx
      split at hx
      · rename_i hx'
        rw [hx']
        rfl
      · cases hx
    | @next _ c front z xs _ hx hl =>
      have hr := (level_along hem n).read
      have hend := writeParts_settles hr (w.limitsOf x) (w := w) (w.textOf x) .set e fun v w₁ hg =>
        ih (hl.grown hg) (hy.grown hg) v
      obtain ⟨w₁, hk, hrun | ⟨f, hrun⟩⟩ := hend
      · obtain ⟨notices, hrun⟩ := writeHandle_through hx rfl hrun (hk.sameWay hx.has hx.track)
        exact ⟨_, hk.trans (kept_told w₁ notices), .inl hrun⟩
      · rw [← hx.target] at hrun
        have hfails := hx.track.fails (by rw [hx.target]; rfl) hrun
        rw [List.append_nil] at hfails
        exact ⟨w₁, hk, .inr ⟨f, writeHandle_error hx hfails⟩⟩

/-- A write that comes to a read-only handle in a slot ends well and does no more than what it took to get there. Where
the slot holds a chain that ends in one, and the path ends, the write may fail, but changes nothing either. -/
theorem read_only_handles_drop_writes {p : Path} {r : Root} {front back : List Part} {scope : ScopeId} {cur : Value}
    {w₁ w₂ w₃ : World} {steps : List (Value × Part × Value)} {allow : Bool}
    (hp : (full em).concretePath p (some scope) w = .ok (.mk (.root r) (front ++ back)) w₁)
    (hwritable : (r.key.isWritable || allow && r.key.isContext) = true)
    (hreplaceable : front ++ back = [] → r.key.isReplaceable = true)
    (hroot : Exec.rootValue scope r.key r.caret w₁ = .ok cur w₂)
    (hc : Path.Comes (full em).access w.limits front cur w₂ steps (.handle x) w₃) (op : WriteOp) (v : Value) :
    w.Grown w₃ ∧
    (w₃.store.isReadOnly x = true → (full em).writePath p scope v op allow w = .ok () w₃) ∧
    (∀ xs y, w₃.Links x xs y → w₃.Drops y → back = [] →
      Exec.Settles ((full em).writePath p scope v op allow) w ()) := by
  have hr := (full_along hem).read
  have hg₂ : w.Grown w₂ := by
    have h₁ := concretePath_along (full_along hem) p (some scope) w
    have h₂ : w₁.Grown ((Exec.rootValue scope r.key r.caret).after w₁) := Exec.rootValue_along _ _ _ w₁
    rw [Exec.after_ok hp] at h₁
    rw [Exec.after_ok hroot] at h₂
    exact h₁.trans h₂
  have hrun : (full em).writePath p scope v op allow w =
      (do
        let updated ← Path.writeParts (full em).access w.limits (Path.mk (.root r) (front ++ back)).text op v
          (front ++ back) cur
        if updated != cur then Exec.setRootValue scope r.key updated : Exec Unit) w₂ :=
    (Exec.bind_ok hp).trans (writeStatic_root hwritable hreplaceable hroot v op)
  -- What is given back is the value of the root, which need not be replaced then.
  have put {w' : World} : (do if cur != cur then Exec.setRootValue scope r.key cur : Exec Unit) w' = .ok () w' := by
    rw [bne_self_eq_false, if_neg Bool.false_ne_true]
    rfl
  refine ⟨hg₂.trans (hc.grown hr), fun hx => ?_, fun xs y hl hy hback => ?_⟩
  · have hend := Path.writeParts_readOnly (full em).access w.limits (Path.mk (.root r) (front ++ back)).text op v back
      hx
    rw [hrun, Exec.bind_ok (hc.writes rfl hend (hc.idle hr rfl (.refl w₃)))]
    exact put
  · subst hback
    have hend := writeParts_settles hr w.limits (w := w₃) (Path.mk (.root r) (front ++ [])).text op v
      fun u w' hg => links_settle hem (hl.grown hg) (hy.grown hg) depth u
    obtain ⟨w', hk, hparts | ⟨f, hparts⟩⟩ := comes_settles hr w.limits hc rfl hend
    · exact ⟨w', hg₂.kept.trans hk, .inl (hrun.trans ((Exec.bind_ok hparts).trans put))⟩
    · exact ⟨w', hg₂.kept.trans hk, .inr ⟨f, hrun.trans (Exec.bind_error hparts)⟩⟩

end Embedded

/-- What is written below a read-only handle is dropped. -/
theorem write_below_read_only_is_dropped :
    let w : World := {
      store := {
        objects := #[[(.str "o", .object 1), (.str "ro", .handle 1)], [(.str "x", .int 1)]]
        handles := #[.bound (.mk (.root { key := .global }) [.key "o"]) (some 0), .readOnly 0]
        cells := #[{ value := .object 0 }, { value := .null }] }
      stateCell := 1 }
    let p : Path := .mk (.root { key := .global }) [.key "ro", .key "x"]
    (full .plain).writePath p 0 (.int 2) .set false w = .ok () w := by
  intro w p
  have hknows : w.Knows (.object 0) := w.knows_of_own rfl (by decide)
  have hc : Path.Comes (full .plain).access w.limits [.key "ro"] (.object 0) w [(.object 0, .key "ro", .handle 1)]
      (.handle 1) w := .step nofun hknows ⟨.inr rfl, nofun⟩ (.here _ w)
  have hp : (full .plain).concretePath p (some 0) w =
      .ok (.mk (.root { key := .global }) ([.key "ro"] ++ [.key "x"])) w := rfl
  have hroot : Exec.rootValue 0 .global 0 w = .ok (.object 0) w := rfl
  exact (read_only_handles_drop_writes Embedding.plain_along hp rfl nofun hroot hc .set (.int 2)).2.1 rfl

/-- Below a chain that ends in a read-only handle a write goes on into what the chain leads to. -/
theorem write_below_chain_passes_read_only :
    let w : World := {
      store := {
        objects := #[[(.str "o", .object 1), (.str "ro", .handle 1), (.str "a", .handle 2)], [(.str "x", .int 1)]]
        handles := #[.bound (.mk (.root { key := .global }) [.key "o"]) (some 0), .readOnly 0,
          .bound (.mk (.root { key := .global }) [.key "ro"]) (some 0)]
        cells := #[{ value := .object 0 }, { value := .null }] }
      stateCell := 1 }
    let p : Path := .mk (.root { key := .global }) [.key "a", .key "x"]
    w.store.isReadOnly 1 = true ∧
      ∃ w', (full .plain).writePath p 0 (.int 2) .set false w = .ok () w' ∧
        w'.store.object 1 ≠ w.store.object 1 :=
  ⟨rfl, _, rfl, by decide⟩

end Engine

end EventScript
