import EventScript.Proofs.FailedWrites
import EventScript.Proofs.FramedReads
import EventScript.Proofs.PathTexts
import EventScript.Proofs.PlainWrites

/-!
# Writes that are accepted

Whether a write that sets a value works can be told from the world before it: from the root, from the indices on the
path, from what the path meets up to the first null, and from what the scopes declare. Any other such write is
refused, and nothing but a refusal can come of it, as long as the indices on the path can be written.
-/

namespace EventScript

namespace World

/-- The cell with the value of a root, as a scope sees it. -/
def rootCell? (w : World) (s : ScopeId) : RootKey → Option CellId
  | .global | .data => some w.globalCell
  | .state => some w.stateCell
  | .component | .c => w.componentCell? s
  | .args => w.argsCell? s
  | _ => none

/-- The value of a root that is kept in a cell; null where no scope declares one. -/
def rootContents (w : World) (s : ScopeId) (key : RootKey) : Value := w.cellValue (w.rootCell? s key)

/-- Whether a scope declares a root for itself and the scopes below it. -/
def declares (w : World) (s : ScopeId) : RootKey → Bool
  | .component | .c => (w.scope s).component.isSome
  | .args => (w.scope s).args.isSome
  | _ => false

/-- A part goes into a value: an index into an array, a key into an object. -/
def Fits (v : Value) : Part → Prop
  | .index _ => v.kind = .array
  | .key _ => v.kind = .object
  | _ => False

/-- All that it takes for a value to be set through a path. -/
structure Accepts (w : World) (s : ScopeId) (r : Root) (parts : List Part) : Prop where
  writable : r.key ∈ [RootKey.global, .data, .state, .args, .component, .c]
  replaceable : parts = [] → r.key ∈ [RootKey.global, .data, .state]
  inRange : ∀ i, .index i ∈ parts → 0 ≤ i ∧ i < w.limits.arraySize
  /-- Past a null there are only nulls, into which any part goes. -/
  fits : ∀ st ∈ w.steps parts (w.rootContents s r.key), st.1.isNull = true ∨ Fits st.1 st.2.1
  declared : r.key ∈ [RootKey.component, .c, .args] → (w.rootContents s r.key).isNull = true →
    ∃ t ∈ w.chain s, w.declares t r.key = true

variable {w w' : World} {s : ScopeId} {key : RootKey}

/-! ### Roots in cells -/

theorem rootCell?_isSome_iff (hk : key ∈ [RootKey.component, .c, .args]) :
    (w.rootCell? s key).isSome = true ↔ ∃ t ∈ w.chain s, w.declares t key = true := by
  cases key with
  | component => exact List.findSome?_isSome_iff
  | c => exact List.findSome?_isSome_iff
  | args => exact List.findSome?_isSome_iff
  | _ => simp at hk

theorem rootCell?_of_replaceable (hk : key ∈ [RootKey.global, .data, .state]) :
    (w.rootCell? s key).isSome = true := by
  cases key <;> first | rfl | simp at hk

theorem Accepts.rootCell? {r : Root} {parts : List Part} (h : w.Accepts s r parts)
    (hn : (w.rootContents s r.key).isNull = true) : (w.rootCell? s r.key).isSome = true := by
  by_cases hk : r.key ∈ [RootKey.component, .c, .args]
  · exact (rootCell?_isSome_iff hk).mpr (h.declared hk hn)
  · refine rootCell?_of_replaceable ?_
    have hw := h.writable
    revert hk hw
    cases r.key <;> simp

theorem rootCell?_isSome_congr (h : w'.scopes = w.scopes) (s : ScopeId) (key : RootKey) :
    (w'.rootCell? s key).isSome = (w.rootCell? s key).isSome := by
  have hscope (t : ScopeId) : w'.scope t = w.scope t := by
    unfold scope
    rw [h]
  have hchain : w'.chain s = w.chain s := chainFrom_congr _ _ fun t _ => hscope t
  cases key with
  | component => simp only [rootCell?, componentCell?, hchain, hscope]
  | c => simp only [rootCell?, componentCell?, hchain, hscope]
  | args => simp only [rootCell?, argsCell?, hchain, hscope]
  | _ => rfl

/-! ### Steps that are admitted -/

theorem array_of_kind {v : Value} (h : v.kind = .array) : ∃ a, v = .array a := by
  cases v with
  | array a => exact ⟨a, rfl⟩
  | _ => cases h

theorem admits_iff_fits {limits : Limits} {v : Value} {part : Part} (hq : part.isSpelled = true) :
    Path.Admits limits v part ↔
      (∀ i, part = .index i → 0 ≤ i ∧ i < limits.arraySize) ∧ (v.isNull = true ∨ Fits v part) := by
  rw [and_comm]
  refine and_congr_left fun hi => ?_
  cases part with
  | index i =>
    refine or_congr_right ⟨?_, fun h => ⟨array_of_kind h, (hi i rfl).1⟩⟩
    rintro ⟨⟨a, rfl⟩, -⟩
    rfl
  | key k => exact Iff.rfl
  | _ => cases hq

theorem map_part_steps (w : World) (parts : List Part) (v : Value) : (w.steps parts v).map (·.2.1) = parts := by
  induction parts generalizing v with
  | nil => rfl
  | cons part rest ih => exact congrArg (List.cons part) (ih (w.next v part))

/-- All steps of a path are admitted if its indices are in range and its parts go into what they meet. -/
theorem admits_steps_iff {limits : Limits} {parts : List Part} (hparts : ∀ q ∈ parts, q.isSpelled = true) (v : Value) :
    (∀ st ∈ w.steps parts v, Path.Admits limits st.1 st.2.1) ↔
      (∀ i, .index i ∈ parts → 0 ≤ i ∧ i < limits.arraySize) ∧
        ∀ st ∈ w.steps parts v, st.1.isNull = true ∨ Fits st.1 st.2.1 := by
  have hrange : (∀ i, .index i ∈ parts → 0 ≤ i ∧ i < limits.arraySize) ↔
      ∀ st ∈ w.steps parts v, ∀ i, st.2.1 = .index i → 0 ≤ i ∧ i < limits.arraySize := by
    constructor
    · exact fun h st hst i hi => h i (hi ▸ steps_part hst)
    · intro h i hi
      rw [← w.map_part_steps parts v] at hi
      obtain ⟨st, hst, hpart⟩ := List.mem_map.mp hi
      exact h st hst i hpart
  rw [hrange, ← forall₂_and]
  exact forall₂_congr fun st hst => admits_iff_fits (hparts _ (steps_part hst))

theorem Padded.steps {m : World} (h : w.Padded m) (parts : List Part) (v : Value) : m.steps parts v = w.steps parts v :=
  (way_congr fun st _ => h.next st.1 st.2.1).1

theorem HandleFree.trail {v : Value} (h : w.HandleFree v) {parts : List Part} {y : Value}
    (hy : y ∈ w.passed parts v ∨ y = w.target parts v) : ∀ x, y ≠ .handle x := by
  rcases trail_contains hy with hin | rfl
  · exact h y hin
  · exact nofun

/-- Where room has been made, the rest of a path meets no handle if the path meets none. -/
theorem Opened.trail_plain {cur v : Value} {part : Part} {m : World} (ho : w.Opened cur part v m) {rest : List Part}
    (hh : ∀ y, y ∈ w.passed (part :: rest) cur ∨ y = w.target (part :: rest) cur → ∀ x, y ≠ .handle x) :
    ∀ y, y ∈ m.passed rest (w.next cur part) ∨ y = m.target rest (w.next cur part) → ∀ x, y ≠ .handle x := by
  obtain ⟨hpassed, htarget, -⟩ := ho.padded.trail rest (w.next cur part)
  rw [hpassed, htarget]
  exact fun y hy => hh y (hy.imp_left (List.mem_cons_of_mem _))

theorem linked_scopes (w : World) (v : Value) (part : Part) (old new : Value) :
    (w.linked v part old new).scopes = w.scopes := by
  rw [linked_rest]

end World

/-! ### Along the path -/

namespace Path

variable {h : HandleAccess} {limits : Limits} {text : String} {op : WriteOp} {v : Value}

theorem writeInto_refused {part : Part} {cur : Value} (hq : part.isSpelled = true) (hadmits : ¬Admits limits cur part)
    (w : World) : ∃ f : Fault, f.RefusesAt [part] ∧ ∀ inner, writeInto limits text part cur inner w = .error f w := by
  cases part with
  | index i => exact writeIndex_refused hadmits w
  | key k => exact writeKey_refused hadmits w
  | _ => cases hq

theorem applyOp_sets (hop : op ∈ [WriteOp.set, .setRaw, .setUnless]) (hv : ∀ x, v ≠ .handle x) {cur : Value}
    (hc : ∀ x, cur ≠ .handle x) (w : World) : ∃ new, applyOp h limits op cur v w = .ok new w := by
  rw [applyOp_eq h limits op v hc]
  simp only [stored_of_not_handle _ _ _ hv]
  cases op with
  | set => exact ⟨_, rfl⟩
  | setRaw => exact ⟨_, rfl⟩
  | setUnless =>
    dsimp only
    split <;> exact ⟨_, rfl⟩
  | _ => simp at hop

/-- A write that sets a value and meets no handle works if all its steps are admitted, and then leaves a container in
the place of what was there, the same one if one was there. -/
theorem writeParts_accepted (hop : op ∈ [WriteOp.set, .setRaw, .setUnless]) (hv : ∀ x, v ≠ .handle x)
    {parts : List Part} {cur : Value} {w : World}
    (hh : ∀ y, y ∈ w.passed parts cur ∨ y = w.target parts cur → ∀ x, y ≠ .handle x)
    (ha : ∀ st ∈ w.steps parts cur, Admits limits st.1 st.2.1) :
    ∃ new w', writeParts h limits text op v parts cur w = .ok new w' ∧ w'.scopes = w.scopes ∧
      (parts ≠ [] → new.isNull = false ∧ (cur.isNull = false → new = cur)) := by
  induction parts generalizing cur w with
  | nil =>
    obtain ⟨new, hnew⟩ := applyOp_sets hop hv (hh cur (.inr rfl)) w
    exact ⟨new, w, hnew, rfl, fun hne => absurd rfl hne⟩
  | cons part rest ih =>
    obtain ⟨hadmits, hrest⟩ := List.forall_mem_cons.mp ha
    obtain ⟨v₀, m, ho, hrun⟩ := writeInto_opened hadmits w
    obtain ⟨new, w₁, hnew, hscopes, -⟩ := ih (ho.trail_plain hh) (ho.padded.steps rest _ ▸ hrest)
    rw [writeParts_cons h limits text op v part rest (hh cur (.inl List.mem_cons_self))]
    rw [hrun, hnew]
    refine ⟨v₀, _, rfl, ?_, fun _ => ⟨ho.lands.1, ho.same⟩⟩
    rw [World.linked_scopes, hscopes, ho.padded.rest]

/-- Where a step is not admitted, the write is refused. -/
theorem writeParts_refused {parts : List Part} (hparts : ∀ q ∈ parts, q.isSpelled = true) {cur : Value} {w : World}
    (hh : ∀ y, y ∈ w.passed parts cur ∨ y = w.target parts cur → ∀ x, y ≠ .handle x)
    (ha : ¬∀ st ∈ w.steps parts cur, Admits limits st.1 st.2.1) :
    ∃ (f : Fault) (w' : World), writeParts h limits text op v parts cur w = .error f w' ∧ f.RefusesAt parts := by
  induction parts generalizing cur w with
  | nil => exact absurd nofun ha
  | cons part rest ih =>
    obtain ⟨hq, hspelled⟩ := List.forall_mem_cons.mp hparts
    rw [writeParts_cons h limits text op v part rest (hh cur (.inl List.mem_cons_self))]
    by_cases hadmits : Admits limits cur part
    · obtain ⟨v₀, m, ho, hrun⟩ := writeInto_opened hadmits w
      have hleft : ¬∀ st ∈ m.steps rest (w.next cur part), Admits limits st.1 st.2.1 := fun hrest =>
        ha (List.forall_mem_cons.mpr ⟨hadmits, ho.padded.steps rest _ ▸ hrest⟩)
      obtain ⟨f, w', herr, hf⟩ := ih hspelled (ho.trail_plain hh) hleft
      rw [hrun, herr]
      exact ⟨f, w', rfl, hf.mono fun q hq => List.mem_cons_of_mem _ hq⟩
    · obtain ⟨f, hf, herr⟩ := writeInto_refused hq hadmits w
      exact ⟨f, w, herr _, hf.mono fun q hq => by simp_all⟩

end Path

/-! ### From the root -/

namespace Exec

variable {w : World} {key : RootKey}

theorem rootValue_cell (hk : key ∈ [RootKey.global, .data, .state, .args, .component, .c]) (s : ScopeId) (caret : Nat) :
    rootValue s key caret w = .ok (w.rootContents s key) w := by
  cases key <;> first | rfl | simp at hk

theorem setRootValue_cell (hk : key ∈ [RootKey.global, .data, .state, .args, .component, .c]) (s : ScopeId)
    (v : Value) :
    setRootValue s key v w =
      match w.rootCell? s key with
      | some c => setCell c v w
      | none => .error (.unresolved (.undeclaredRoot key.name)) w := by
  have hroot (cell : Option CellId) :
      (match cell with
        | some c => setCell c v
        | none => fail (.undeclaredRoot key.name) : Exec Unit) w =
      match cell with
      | some c => setCell c v w
      | none => .error (.unresolved (.undeclaredRoot key.name)) w := by
    cases cell <;> rfl
  cases key with
  | component => exact hroot (w.componentCell? s)
  | c => exact hroot (w.componentCell? s)
  | args => exact hroot (w.argsCell? s)
  | _ => first | rfl | simp at hk

end Exec

theorem RootKey.isWritable_iff {key : RootKey} :
    key.isWritable = true ↔ key ∈ [RootKey.global, .data, .state, .args, .component, .c] := by
  cases key <;> simp [isWritable]

theorem RootKey.isReplaceable_iff {key : RootKey} :
    key.isReplaceable = true ↔ key ∈ [RootKey.global, .data, .state] := by
  cases key <;> simp [isReplaceable]

namespace Path

variable {h : HandleAccess} {op : WriteOp} {v : Value} {w : World} {scope : ScopeId} {r : Root} {parts : List Part}

/-- A failure that names a path is a refusal, unless an index on the path is too long to be written. -/
theorem failWith_refuses {α : Type} (r : Root) (parts : List Part) (cause : String → Unresolved)
    (hc : ∀ text, (cause text).isLong = false) (w : World) :
    ∃ f : Fault, ((Path.mk (.root r) parts).failWith cause : Exec α) w = .error f w ∧ f.RefusesAt parts := by
  unfold failWith spell
  cases hlong : (Path.mk (.root r) parts).isLong with
  | false => exact ⟨_, rfl, Fault.refusal_of_short (hc _) ▸ .unresolved _⟩
  | true =>
    obtain ⟨q, hq, hl⟩ := List.any_eq_true.mp hlong
    rcases List.mem_cons.mp hq with rfl | hq
    · cases hl
    · exact ⟨_, rfl, .unwritten hq hl⟩

/-- A write is refused at once at a root that cannot be written to, or not as a whole. -/
theorem writeStatic_fixed (hr : ¬(r.key.isWritable = true ∧ (parts = [] → r.key.isReplaceable = true))) :
    ∃ f : Fault, writeStatic h w.limits (.mk (.root r) parts) scope v op false w = .error f w ∧
      f.RefusesAt parts := by
  unfold writeStatic
  by_cases hw : r.key.isWritable = true
  · obtain ⟨rfl, hk⟩ := Classical.not_imp.mp fun hall => hr ⟨hw, hall⟩
    have hk := Bool.eq_false_iff.mpr hk
    simp only [root?, hw, hk, Path.length, Path.rest, List.length_nil, Bool.not_true, Bool.not_false, Bool.false_and,
      Bool.and_true, Bool.false_eq_true, if_false, beq_self_eq_true, if_true]
    obtain ⟨f, herr, hf⟩ :=
      failWith_refuses (α := PUnit) r [] (.notReplaceable r.key.name) (fun _ => rfl) w
    exact ⟨f, Exec.bind_error herr, hf⟩
  · have hw := Bool.eq_false_iff.mpr hw
    simp only [root?, hw, Bool.not_false, Bool.false_and, Bool.and_true, if_true]
    obtain ⟨f, herr, hf⟩ :=
      failWith_refuses (α := PUnit) r parts (.notWritable · r.key.name false) (fun _ => rfl) w
    exact ⟨f, Exec.bind_error herr, hf⟩

/-- From a root that can be written to, a write goes along its path, and replaces the value of the root if another
takes its place. -/
theorem writeStatic_writable (hw : r.key.isWritable = true) (hk : parts = [] → r.key.isReplaceable = true) :
    writeStatic h w.limits (.mk (.root r) parts) scope v op false w =
      (do
        let updated ← writeParts h w.limits (Path.mk (.root r) parts).text op v parts (w.rootContents scope r.key)
        if updated != w.rootContents scope r.key then Exec.setRootValue scope r.key updated : Exec Unit) w := by
  have hlen : ((Path.mk (.root r) parts).length == 1 && !r.key.isReplaceable) = false := by
    cases parts with
    | nil => simp [hk rfl]
    | cons part rest => simp [Path.length, Path.rest]
  unfold writeStatic
  simp only [root?, hw, hlen, Bool.not_true, Bool.false_and, Bool.false_eq_true, if_false]
  exact Exec.bind_ok (Exec.rootValue_cell (RootKey.isWritable_iff.mp hw) scope r.caret)

section Outcome

variable (hop : op ∈ [WriteOp.set, .setRaw, .setUnless]) (hparts : ∀ q ∈ parts, q.isSpelled = true)
  (hfree : w.HandleFree (w.rootContents scope r.key)) (hv : ∀ x, v ≠ .handle x)
include hop hparts hfree hv

theorem writeStatic_accepted (ha : w.Accepts scope r parts) :
    ∃ w', writeStatic h w.limits (.mk (.root r) parts) scope v op false w = .ok () w' := by
  rw [writeStatic_writable (RootKey.isWritable_iff.mpr ha.writable) fun hp =>
    RootKey.isReplaceable_iff.mpr (ha.replaceable hp)]
  obtain ⟨new, w', hrun, hscopes, hnew⟩ := writeParts_accepted hop hv (fun y hy => hfree.trail hy)
    ((World.admits_steps_iff hparts _).mpr ⟨ha.inRange, ha.fits⟩)
  rw [Exec.bind_ok hrun]
  split
  · rename_i hne
    have hcell : (w'.rootCell? scope r.key).isSome = true := by
      rw [World.rootCell?_isSome_congr hscopes]
      by_cases hp : parts = []
      · exact World.rootCell?_of_replaceable (ha.replaceable hp)
      · refine ha.rootCell? (by_contra fun hn => ?_)
        rw [(hnew hp).2 (by simpa using hn), bne_self_eq_false] at hne
        cases hne
    obtain ⟨c, hc⟩ := Option.isSome_iff_exists.mp hcell
    rw [Exec.setRootValue_cell ha.writable, hc]
    exact ⟨_, rfl⟩
  · exact ⟨w', rfl⟩

theorem writeStatic_refused (ha : ¬w.Accepts scope r parts) :
    ∃ (f : Fault) (w' : World), writeStatic h w.limits (.mk (.root r) parts) scope v op false w = .error f w' ∧
      f.RefusesAt parts := by
  by_cases hr : r.key.isWritable = true ∧ (parts = [] → r.key.isReplaceable = true)
  case neg =>
    obtain ⟨f, herr⟩ := writeStatic_fixed hr
    exact ⟨f, w, herr⟩
  rw [writeStatic_writable hr.1 hr.2]
  by_cases hsteps : ∀ st ∈ w.steps parts (w.rootContents scope r.key), Admits w.limits st.1 st.2.1
  case neg =>
    obtain ⟨f, w', herr, hf⟩ := writeParts_refused hparts (fun y hy => hfree.trail hy) hsteps
    rw [Exec.bind_error herr]
    exact ⟨f, w', rfl, hf⟩
  -- The path can be walked, so no scope declares the root for the container that is made in the place of null.
  have hwritable := RootKey.isWritable_iff.mp hr.1
  obtain ⟨hrange, hfits⟩ := (World.admits_steps_iff hparts _).mp hsteps
  obtain ⟨hk, hdeclared⟩ := Classical.not_imp.mp fun hdeclared =>
    ha ⟨hwritable, fun hp => RootKey.isReplaceable_iff.mp (hr.2 hp), hrange, hfits, hdeclared⟩
  obtain ⟨hnull, hnone⟩ := Classical.not_imp.mp hdeclared
  have hp : parts ≠ [] := fun hp => by
    have hrep := RootKey.isReplaceable_iff.mp (hr.2 hp)
    revert hk hrep
    cases r.key <;> simp
  obtain ⟨new, w', hrun, hscopes, hnew⟩ := writeParts_accepted (h := h) hop hv (fun y hy => hfree.trail hy) hsteps
  have hne : (new != w.rootContents scope r.key) = true := by
    rw [bne_iff_ne]
    rintro rfl
    rw [(hnew hp).1] at hnull
    cases hnull
  have hcell : w'.rootCell? scope r.key = none := by
    rw [← Option.not_isSome_iff_eq_none, World.rootCell?_isSome_congr hscopes, World.rootCell?_isSome_iff hk]
    exact hnone
  rw [Exec.bind_ok hrun, if_pos hne, Exec.setRootValue_cell hwritable, hcell]
  exact ⟨_, _, rfl, .unresolved _⟩

end Outcome

end Path

namespace Engine

/-- A write that sets a value, from a root without handles, works if and only if the path is accepted. If it does not
work, it is refused, be it with a refusal that cannot be told of because an index on the path is too long. -/
theorem writePath_sets_iff (g : Engine) {w : World} {scope : ScopeId} {r : Root} {parts : List Part} {v : Value}
    {op : WriteOp} (hop : op ∈ [WriteOp.set, .setRaw, .setUnless]) (hparts : ∀ q ∈ parts, q.isSpelled = true)
    (hfree : w.HandleFree (w.rootContents scope r.key)) (hv : ∀ x, v ≠ .handle x) :
    ((∃ w', g.writePath (.mk (.root r) parts) scope v op false w = .ok () w') ↔ w.Accepts scope r parts) ∧
      (¬w.Accepts scope r parts →
        ∃ (f : Fault) (w' : World), g.writePath (.mk (.root r) parts) scope v op false w = .error f w' ∧
          f.RefusesAt parts) := by
  have hstatic : (Path.mk (.root r) parts).isStatic = true := by
    rw [Path.isStatic_root, List.all_eq_true]
    intro q hq
    have hq := hparts q hq
    cases q <;> first | rfl | cases hq
  rw [writePath_static hstatic]
  have hrefused (ha : ¬w.Accepts scope r parts) :=
    Path.writeStatic_refused (h := g.access) hop hparts hfree hv ha
  refine ⟨⟨fun ⟨w', hrun⟩ => by_contra fun ha => ?_, Path.writeStatic_accepted hop hparts hfree hv⟩, hrefused⟩
  obtain ⟨f, w₁, herr, -⟩ := hrefused ha
  rw [herr] at hrun
  cases hrun

/-- An array is made where nothing was; a view of nodes takes no index, and no scope declares arguments. -/
theorem sets_in_kidsWorld :
    (∃ w', (full .plain).writePath (.mk (.root { key := .global }) [.key "x", .index 2]) 0 (.int 1) .setUnless false
      kidsWorld = .ok () w') ∧
    (∃ cause w', (full .plain).writePath (.mk (.root { key := .global }) [.key "kids", .index 0]) 0 (.int 1) .set false
      kidsWorld = .error (.unresolved cause) w') ∧
    ∃ cause w', (full .plain).writePath (.mk (.root { key := .args }) [.key "x"]) 0 (.int 1) .setRaw false
      kidsWorld = .error (.unresolved cause) w' := by
  have hset : WriteOp.set ∈ [WriteOp.set, .setRaw, .setUnless] := by simp
  have hraw : WriteOp.setRaw ∈ [WriteOp.set, .setRaw, .setUnless] := by simp
  have hint : ∀ x, Value.int 1 ≠ .handle x := nofun
  have hnull : kidsWorld.HandleFree .null := fun y hy => by
    rw [hy.eq_self fun s => kidsWorld.slot?_of_isNull rfl s]
    nofun
  refine ⟨?_, ?_, ?_⟩
  · refine (writePath_sets_iff _ (by simp) (by simp [Part.isSpelled]) kidsWorld.handleFree hint).1.mpr
      ⟨by simp, nofun, fun i hi => ?_, ?_, by simp⟩
    · obtain rfl : i = 2 := by simpa using hi
      decide
    · change ∀ st ∈ [(Value.object 0, Part.key "x", Value.null), (.null, .index 2, .null)], _
      simp [World.Fits, Value.kind, Value.isNull]
  · have hfits (ha : kidsWorld.Accepts 0 { key := .global } [.key "kids", .index 0]) : False := by
      have hfits := ha.fits (.nodes 0, .index 0, .null) (List.mem_cons_of_mem _ List.mem_cons_self)
      simp [World.Fits, Value.kind, Value.isNull] at hfits
    obtain ⟨f, w', herr, hf⟩ := (writePath_sets_iff (full .plain) hset (by simp [Part.isSpelled])
      kidsWorld.handleFree hint).2 hfits
    obtain ⟨cause, rfl⟩ := hf.of_short (by decide)
    exact ⟨cause, w', herr⟩
  · have hdeclared (ha : kidsWorld.Accepts 0 { key := .args } [.key "x"]) : False := by
      obtain ⟨t, ht, hd⟩ := ha.declared (by simp) rfl
      obtain rfl : t = 0 := List.mem_singleton.mp ht
      cases hd
    obtain ⟨f, w', herr, hf⟩ := (writePath_sets_iff (full .plain) hraw (by simp [Part.isSpelled])
      hnull hint).2 hdeclared
    obtain ⟨cause, rfl⟩ := hf.of_short (by decide)
    exact ⟨cause, w', herr⟩

/-- An index past the ceiling is refused, but if it is too long to be written, the refusal cannot be told of. -/
theorem writePath_long (g : Engine) {w : World} {scope : ScopeId} {i : Int} (hlong : Decimal.isLong i = true)
    (hi : w.limits.arraySize ≤ i) (hroot : ∀ x, w.rootContents scope .global ≠ .handle x) (v : Value) (op : WriteOp) :
    g.writePath (.mk (.root { key := .global }) [.index i]) scope v op false w = .error (.digits .writing) w := by
  have hparts : [Part.index i] = [] → RootKey.global.isReplaceable = true := nofun
  rw [writePath_static rfl, Path.writeStatic_writable (r := { key := .global }) rfl hparts]
  have hrange : (i < 0 || w.limits.arraySize ≤ i) = true := by
    rw [Bool.or_eq_true, decide_eq_true_eq, decide_eq_true_eq]
    exact .inr hi
  refine Exec.bind_error ?_
  rw [Path.writeParts_cons g.access w.limits _ op v (.index i) [] hroot]
  have hrefusal : Fault.refusal (.badSetIndex i) = .digits .writing := Fault.refusal_of_long hlong
  exact hrefusal ▸ Path.writeIndex_outOfRange hrange _ _ w

theorem long_index_is_not_refused :
    let r : Root := { key := .global }
    let i : Int := Nat.pow 10 Decimal.maxDigits
    ¬kidsWorld.Accepts 0 r [.index i] ∧
      (full .plain).writePath (.mk (.root r) [.index i]) 0 (.int 1) .set false kidsWorld =
        .error (.digits .writing) kidsWorld := by
  intro r i
  have hpow (k : Nat) (hk : 4 ≤ k) : (10000 : Int) ≤ Nat.pow 10 k :=
    Int.ofNat_le.mpr (Nat.pow_le_pow_right (n := 10) (by decide) hk)
  have hi : kidsWorld.limits.arraySize ≤ i := hpow Decimal.maxDigits (by decide)
  have hlong : Decimal.isLong i = true := Decimal.isLong_ten_pow (Nat.le_refl Decimal.maxDigits)
  clear_value i
  refine ⟨fun ha => ?_, writePath_long (full .plain) hlong hi nofun (.int 1) .set⟩
  exact absurd (ha.inRange i List.mem_cons_self).2 (Int.not_lt.mpr hi)

end Engine

end EventScript
