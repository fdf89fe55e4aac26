import EventScript.Proofs.StagedReads
import EventScript.Access

/-!
# The ceiling on arrays

Writes make arrays and let them grow: at an index past the end, by appending, and behind the handles that they meet.
From stage to stage of a write all these keep the ceiling, so no array that can be reached has grown past it. Handles
into cells are written to with the default limits, and their writes pass the configured ceiling where that is lower.
-/

namespace EventScript

open Exec (Arrives)

theorem Entries.mem_insert {α : Type} {k : Key} {v : α} {es : Entries α} {e : Key × α} (h : e ∈ insert k v es) :
    e.2 = v ∨ e ∈ es := by
  induction es with
  | nil =>
    rw [List.mem_singleton.mp h]
    exact .inl rfl
  | cons d rest ih =>
    obtain ⟨k', v'⟩ := d
    unfold insert at h
    split at h
    · rcases List.mem_cons.mp h with rfl | h
      · exact .inl rfl
      · exact .inr (List.mem_cons_of_mem _ h)
    · rcases List.mem_cons.mp h with rfl | h
      · exact .inr List.mem_cons_self
      · exact (ih h).imp id (List.mem_cons_of_mem _)

variable {first : World} {σ : Stage first}

/-! ### Changes in place -/

namespace Exec

theorem setArray_arrives {f : World → World} (a : ArrayId) (xs : Array Value) (hx : ∀ v ∈ xs, σ.Knows v)
    (hs : (xs.size : Int) ≤ max ((first.store.array a).size : Int) first.arrayCeiling)
    (hf : f σ.world = { σ.world with store := σ.world.store.setArray a xs }) :
    Arrives σ (modify f) fun _ _ => True :=
  .modify (τ := σ.withArray a xs hx hs) ⟨fun _ => id, List.prefix_refl _⟩ hf

theorem setCell_arrives (c : CellId) {v : Value} (hv : σ.Knows v) : Arrives σ (setCell c v) fun _ _ => True :=
  .modify (τ := σ.withCell c { σ.world.store.cell c with value := v } hv _) ⟨fun _ => id, List.prefix_refl _⟩ rfl

theorem setEntry_arrives {v item : Value} (hv : σ.Knows v) (k : Key) (hi : σ.Knows item) :
    Arrives σ (setEntry v k item) fun _ _ => True := by
  have hobject {o : ObjectId} (ho : σ.inUse (.object o)) :
      ∀ e ∈ Entries.insert k item (σ.world.store.object o), σ.Knows e.2 := by
    intro e he
    rcases Entries.mem_insert he with h | h
    · rw [h]
      exact hi
    · exact σ.object o ho e h
  unfold setEntry
  cases v with
  | object o => exact .modify (τ := σ.withObject o _ (hobject hv)) ⟨fun _ => id, List.prefix_refl _⟩ rfl
  | context c =>
    exact .modify (τ := σ.withObject _ _ (hobject (Stage.context_inUse hv.2))) ⟨fun _ => id, List.prefix_refl _⟩ rfl
  | _ => exact .modify (le_refl σ) rfl

theorem setRootValue_arrives (s : ScopeId) (key : RootKey) {v : Value} (hv : σ.Knows v) :
    Arrives σ (setRootValue s key v) fun _ _ => True := by
  unfold setRootValue
  refine .getBind ?_
  cases key with
  | global | data | state => exact setCell_arrives _ hv
  | component | c =>
    dsimp only
    split
    · exact setCell_arrives _ hv
    · exact .fail _
  | args =>
    dsimp only
    split
    · exact setCell_arrives _ hv
    · exact .fail _
  | _ => exact .fail _

end Exec

namespace Path

section Arrays

variable {limits : Limits} (hl : limits.arraySize ≤ first.arrayCeiling)
include hl

theorem appendValue_arrives (h1 : 1 ≤ first.arrayCeiling) {cur v : Value} (hc : σ.Knows cur) (hv : σ.Knows v) :
    Arrives σ (appendValue limits cur v) Stage.Knows := by
  have hnew : Arrives σ (Exec.newArray #[v]) Stage.Knows := .newArray (by simpa using hv) h1
  unfold appendValue
  cases cur with
  | null | absent => exact hnew
  | array a =>
    refine .storeBind (.guard ⟨_, rfl⟩ fun hs => ?_)
    refine .bind (Exec.setArray_arrives a ((σ.world.store.array a).push v) (fun u hu => ?_) ?_ rfl)
      fun τ _ hle _ _ => .pure (hc.mono hle)
    · rcases Array.mem_push.mp hu with hu | rfl
      · exact σ.array a hc u hu
      · exact hv
    · rw [Array.size_push]
      omega
  | str s => cases v <;> first | exact .pure trivial | exact .fail _
  | _ => exact .fail _

theorem appendElements_arrives {cur v : Value} (hc : σ.Knows cur) (hv : σ.Knows v) :
    Arrives σ (appendElements limits cur v) Stage.Knows := by
  unfold appendElements
  cases v with
  | array b =>
    cases cur with
    | null | absent => exact .pure hv
    | array a =>
      refine .storeBind (.storeBind (.guard ⟨_, rfl⟩ fun hs => ?_))
      refine .bind (Exec.setArray_arrives a (σ.world.store.array a ++ σ.world.store.array b)
        (fun u hu => ?_) ?_ rfl) fun τ _ hle _ _ => .pure (hc.mono hle)
      · rcases Array.mem_append.mp hu with hu | hu
        · exact σ.array a hc u hu
        · exact σ.array b hv u hu
      · rw [Array.size_append]
        omega
    | _ => exact .fail _
  | _ => exact .pure hc

/-- An array is padded up to an index below the ceiling. -/
theorem pad_arrives {a : ArrayId} (ha : σ.inUse (.array a)) {n : Nat} (hn : (n : Int) < limits.arraySize) :
    Arrives σ (modify fun w =>
      let xs := w.store.array a
      if xs.size ≤ n then { w with store := w.store.setArray a (extendTo xs n) } else w) fun _ _ => True := by
  by_cases hsize : (σ.world.store.array a).size ≤ n
  · refine Exec.setArray_arrives a (extendTo (σ.world.store.array a) n) (fun u hu => ?_) ?_ (if_pos hsize)
    · rcases Array.mem_append.mp hu with hu | hu
      · exact σ.array a ha u hu
      · rw [(Array.mem_replicate.mp hu).2]
        trivial
    · simp only [extendTo, Array.size_append, Array.size_replicate]
      omega
  · exact .modify (le_refl σ) (if_neg hsize)

end Arrays

theorem extendBlob_arrives {cur v : Value} (hc : σ.Knows cur) : Arrives σ (extendBlob cur v) Stage.Knows := by
  unfold extendBlob
  cases cur with
  | blob b =>
    cases v with
    | str s =>
      exact .bind (.modify (τ := σ.withBlob b _) ⟨fun _ => id, List.prefix_refl _⟩ rfl) fun τ _ _ _ _ => .pure trivial
    | _ => exact .fail _
  | _ => exact .fail _

section Inner

variable {inner : Value → Exec Value}
  (hi : ∀ (τ : Stage first) (v : Value), σ ≤ τ → τ.Knows v → Arrives τ (inner v) Stage.Knows)
include hi

/-- A write at an index pads its array up to the index, which is below the ceiling. -/
theorem writeIndex_arrives {limits : Limits} (hl : limits.arraySize ≤ first.arrayCeiling) (h1 : 1 ≤ first.arrayCeiling)
    (i : Int) {cur : Value} (hc : σ.Knows cur) : Arrives σ (writeIndex limits i cur inner) Stage.Knows := by
  unfold writeIndex
  refine .guard ⟨_, rfl⟩ fun hrange => ?_
  simp only [Bool.or_eq_true, decide_eq_true_eq, not_or, Int.not_lt, Int.not_le] at hrange
  refine .choose (fun _ => .newArray (by simp) (Int.le_trans (by decide) h1)) (fun _ => .pure hc)
    fun τ cur hle hc => ?_
  cases cur with
  | array a =>
    refine .bind (pad_arrives hl hc (by omega)) fun υ _ hle' _ _ => .storeBind ?_
    have ha : υ.Knows (.array a) := Stage.Knows.mono hc hle'
    refine .bind (hi υ _ (le_trans hle hle') (Stage.knows_element ha _)) fun φ new hle'' _ hnew => ?_
    have ha' : φ.Knows (.array a) := ha.mono hle''
    -- The inner write can come to the same array again, through a handle, so what counts is its size afterwards.
    refine .bind (Exec.setArray_arrives a ((φ.world.store.array a).setIfInBounds i.toNat new)
      (fun u hu => ?_) ?_ rfl) fun ψ _ hlast _ _ => .pure (ha'.mono hlast)
    · rcases Array.mem_or_eq_of_mem_setIfInBounds hu with hu | rfl
      · exact φ.array a ha' u hu
      · exact hnew
    · rw [Array.size_setIfInBounds]
      exact φ.size a ha'
  | _ => exact .fail _

theorem writeKey_arrives (k : String) {cur : Value} (hc : σ.Knows cur) :
    Arrives σ (writeKey k cur inner) Stage.Knows := by
  unfold writeKey
  refine .choose (fun _ => .newObject (by simp)) (fun _ => .pure hc) fun τ cur hle hc =>
    .guard ⟨_, rfl⟩ fun _ => .getBind ?_
  refine .bind (hi τ _ hle (.getD fun u hu => hc.valueAt hu)) fun υ new hle' _ hnew => .getBind ?_
  have hc' : υ.Knows cur := hc.mono hle'
  dsimp only
  split
  · exact .bind (Exec.setEntry_arrives hc' _ hnew) fun φ _ hle'' _ _ => .pure (hc'.mono hle'')
  · exact .pure hc'

theorem writeInto_arrives {limits : Limits} (hl : limits.arraySize ≤ first.arrayCeiling) (h1 : 1 ≤ first.arrayCeiling)
    (text : String) (part : Part) {cur : Value} (hc : σ.Knows cur) :
    Arrives σ (writeInto limits text part cur inner) Stage.Knows := by
  cases part with
  | index i => exact writeIndex_arrives hi hl h1 i hc
  | key k => exact writeKey_arrives hi k hc
  | root | dyn | deref => exact .reject _

end Inner

end Path

/-- What is known can be written through any handle of the first world. -/
def WritesKnown (first : World) (write : HandleId → Value → Exec Unit) : Prop :=
  ∀ (σ : Stage first) (h : HandleId) (v : Value), h < first.store.handles.size → σ.Knows v →
    Arrives σ (write h v) fun _ _ => True

namespace Path

section Access

variable {h : HandleAccess} (hr : ReadsKnown first h.read) (hw : WritesKnown first h.write)
include hr

theorem stored_arrives (limits : Limits) (op : WriteOp) {v : Value} (hv : σ.Knows v) :
    Arrives σ (stored h.read limits op v) Stage.Knows := by
  cases op with
  | setRaw => exact .pure hv
  | _ => exact .bind (follow_arrives hr _ hv) fun τ u _ _ hu => .pure hu.orNull

include hw

theorem applyOp_arrives {limits : Limits} (hl : limits.arraySize ≤ first.arrayCeiling) (h1 : 1 ≤ first.arrayCeiling)
    (op : WriteOp) {cur v : Value} (hc : σ.Knows cur) (hv : σ.Knows v) :
    Arrives σ (applyOp h limits op cur v) Stage.Knows := by
  have hstored (op : WriteOp) := stored_arrives hr limits op hv
  unfold applyOp
  cases cur with
  | handle x =>
    refine .storeBind ?_
    split
    · exact .pure hc
    · split
      · refine .bind (hstored op) fun τ u hle _ hu => .bind (hw τ x u hc hu) fun υ _ hle' _ _ => .pure ?_
        exact (Stage.Knows.mono hc hle).mono hle'
      · exact .fail _
  | _ =>
    cases op with
    | set | setRaw => exact hstored _
    | setUnless =>
      dsimp only
      split
      · exact hstored _
      · exact .pure hc
    | append =>
      exact .bind (hstored _) fun τ u hle _ hu => appendValue_arrives hl h1 (Stage.Knows.mono hc hle) hu
    | appendArray =>
      exact .bind (hstored _) fun τ u hle _ hu => appendElements_arrives hl (Stage.Knows.mono hc hle) hu
    | blobExtend => exact .bind (hstored _) fun τ u hle _ hu => extendBlob_arrives (Stage.Knows.mono hc hle)

/-- A write along parts makes and pads arrays below the ceiling alone, at the end of the path and on its way. -/
theorem writeParts_arrives {limits : Limits} (hl : limits.arraySize ≤ first.arrayCeiling) (h1 : 1 ≤ first.arrayCeiling)
    (text : String) (op : WriteOp) {v : Value} (hv : σ.Knows v) (parts : List Part) {cur : Value} (hc : σ.Knows cur) :
    Arrives σ (writeParts h limits text op v parts cur) Stage.Knows := by
  induction parts generalizing σ cur with
  | nil => exact applyOp_arrives hr hw hl h1 op hc hv
  | cons part rest ih =>
    -- What is written stays known at all later stages, so the rest of the path can be written from any of them.
    have hinto {τ : Stage first} (hle : σ ≤ τ) {u : Value} (hu : τ.Knows u) :=
      writeInto_arrives (fun υ x hle' hx => ih (hv.mono (le_trans hle hle')) hx) hl h1 text part hu
    unfold writeParts
    cases cur with
    | handle x =>
      refine .storeBind ?_
      split
      · exact .pure hc
      · refine .bind (follow_arrives hr _ hc) fun τ u hle _ hu => .bind (hinto hle hu) fun υ updated hle' _ hup => ?_
        have hc' : υ.Knows (.handle x) := (Stage.Knows.mono hc hle).mono hle'
        dsimp only
        split
        · exact .bind (hw υ x updated hc hup) fun φ _ hle'' _ _ => .pure (hc'.mono hle'')
        · exact .pure hc'
    | _ => exact hinto (le_refl σ) hc

theorem writeStatic_arrives {limits : Limits} (hl : limits.arraySize ≤ first.arrayCeiling) (h1 : 1 ≤ first.arrayCeiling)
    (p : Path) {scope : ScopeId} (hs : scope < first.scopes.size) {v : Value} (hv : σ.Knows v) (op : WriteOp)
    (allowContext : Bool) : Arrives σ (writeStatic h limits p scope v op allowContext) fun _ _ => True := by
  unfold writeStatic
  split
  · exact .reject _
  · refine .guard (failWith_eq_throw _ _) fun _ => .guard (failWith_eq_throw _ _) fun _ => ?_
    refine .bind (Exec.rootValue_arrives hs _ _) fun τ cur hle _ hcur => ?_
    refine .bind (writeParts_arrives hr hw hl h1 _ op (hv.mono hle) _ hcur) fun υ updated _ _ hup => ?_
    split
    · exact Exec.setRootValue_arrives _ _ hup
    · exact .pure trivial

theorem writeIn_arrives {limits : Limits} (hl : limits.arraySize ≤ first.arrayCeiling) (h1 : 1 ≤ first.arrayCeiling)
    (p : Path) {container v : Value} (hc : σ.Knows container) (hv : σ.Knows v) :
    Arrives σ (writeIn h limits p container v) Stage.Knows := by
  unfold writeIn
  split
  · exact writeParts_arrives hr hw hl h1 _ _ hv _ hc
  · exact writeParts_arrives hr hw hl h1 _ _ hv _ hc
  · exact .failWith p _

end Access

end Path

theorem PathSource.target_along {rel : World → World → Prop} [World.Tolerates rel] (op : Option String)
    (p : PathSource) : (p.target op).Along rel := by
  unfold PathSource.target
  grind

namespace Engine

/-- From stage to stage an engine evaluates, reads through handles, and writes through them. -/
structure KeepsStages (first : World) (g : Engine) : Prop where
  eval : ∀ e scope, (g.eval e scope).Along World.Preserves
  reads : ∀ h, (g.access.read h).Along World.Preserves
  read : ReadsKnown first g.access.read
  write : WritesKnown first g.access.write

section Handles

variable {g : Engine} (hg : g.KeepsStages first)
include hg

theorem evalResolved_preserves (e : Expr) (scope : Option ScopeId) : (g.evalResolved e scope).Along World.Preserves :=
  evalResolved_along ⟨hg.eval, hg.reads⟩ e scope

theorem readHandle_arrives {h : HandleId} (hh : h < first.store.handles.size) :
    Arrives σ (g.readHandle h) Stage.Knows := by
  unfold readHandle
  refine .storeBind ?_
  rw [σ.handle_eq hh]
  cases hx : first.store.handle h with
  | bound p scope =>
    cases scope with
    | none => exact .throw _
    | some s =>
      obtain ⟨hs, hp⟩ := σ.contained.bound h hh p s hx
      refine .getBind (Path.resolve_arrives hg.read (evalResolved_preserves hg) _ hs fun r hr => ?_)
      exact σ.knows_of_refs (hp r hr)
  | rooted c p =>
    exact .storeBind (Path.followIn_arrives hg.read _ p (σ.cell c (σ.old _ (σ.contained.rooted h hh c p hx))))
  | readOnly i => exact hg.read σ i (σ.contained.readOnly h hh i hx)

variable (h1 : 1 ≤ first.arrayCeiling)
include h1

theorem writePath_arrives (p : Path) {scope : ScopeId} (hs : scope < first.scopes.size) {v : Value} (hv : σ.Knows v)
    (op : WriteOp) (allowContext : Bool) : Arrives σ (g.writePath p scope v op allowContext) fun _ _ => True := by
  refine .getBind (.bind (.preserved (Path.concrete_along (evalResolved_preserves hg) _ _ _)) fun τ q hle _ _ => ?_)
  rw [σ.limits]
  exact Path.writeStatic_arrives hg.read hg.write first.arraySize_le_arrayCeiling h1 q hs (hv.mono hle) op allowContext

/-- A handle into a cell is written to with the default limits, which the ceiling allows for. -/
theorem writeHandle_arrives {h : HandleId} (hh : h < first.store.handles.size) {v : Value} (hv : σ.Knows v) :
    Arrives σ (g.writeHandle h v) fun _ _ => True := by
  unfold writeHandle
  refine .storeBind ?_
  rw [σ.handle_eq hh]
  cases hx : first.store.handle h with
  | bound p scope =>
    cases scope with
    | none => exact .throw _
    | some s => exact writePath_arrives hg h1 p (σ.contained.bound h hh p s hx).1 hv .set false
  | rooted c p =>
    have hl := first.default_le_arrayCeiling hh (by rw [hx]; rfl)
    have hc : σ.inUse (.cell c) := σ.old _ (σ.contained.rooted h hh c p hx)
    have hwrite := Path.writeIn_arrives hg.read hg.write hl h1 p (σ.cell c hc) hv
    refine .storeBind (.bind hwrite fun τ updated _ _ hup => ?_)
    split
    · exact Exec.setCell_arrives c hup
    · exact .pure trivial
  | readOnly i => exact .pure trivial

end Handles

theorem level_keepsStages {em : Embedding} (hem : em.Along World.Preserves) (h1 : 1 ≤ first.arrayCeiling) (n : Nat) :
    (level em n).KeepsStages first := by
  induction n with
  | zero => exact ⟨fun _ _ => .throw _, fun _ => .throw _, fun _ _ _ => .throw _, fun _ _ _ _ _ => .throw _⟩
  | succ n ih =>
    have ha := level_along hem (n + 1)
    exact ⟨ha.eval, ha.read, fun _ _ hh => readHandle_arrives ih hh, fun _ _ _ hh hv => writeHandle_arrives ih h1 hh hv⟩

/-- What a write makes stays below the ceiling, and so do the arrays that were there before, unless they were past it
already. Arrays that only evaluation has made, and nothing refers to, are left open. -/
theorem writes_keep_arrayCeiling {em : Embedding} (hem : em.Along World.Preserves) {w : World} (hw : w.SelfContained)
    (hl : 1 ≤ w.limits.arraySize) (p : PathSource) {scope : ScopeId} (hs : scope < w.scopes.size) {v : Value}
    (hv : w.Refs v) (op : Option String) (allowContext : Bool) :
    let w' := ((full em).put p scope v op allowContext).after w
    (∀ a, w.Has (.array a) → ((w'.store.array a).size : Int) ≤ max ((w.store.array a).size : Int) w.arrayCeiling) ∧
      ∀ a, ¬w.Has (.array a) → w.Reached w' (.array a) → ((w'.store.array a).size : Int) ≤ w.arrayCeiling := by
  have h1 : 1 ≤ w.arrayCeiling := Int.le_trans hl w.arraySize_le_arrayCeiling
  have hput : Arrives (Stage.start hw) ((full em).put p scope v op allowContext) fun _ _ => True := by
    refine .bind (.preserved (PathSource.target_along op p)) fun τ q hle _ _ => ?_
    have hknown : τ.Knows v := ((Stage.start hw).knows_of_refs hv).mono hle
    exact writePath_arrives (level_keepsStages hem h1 depth) h1 q.2 hs hknown q.1 allowContext
  obtain ⟨τ, -, hτ, -⟩ := hput
  intro w'
  have hw' : τ.world = w' := hτ
  rw [← hw']
  refine ⟨fun a ha => τ.size a (τ.old _ ha), fun a hnew ha => ?_⟩
  have hsize := τ.size a (τ.knows_of_reached ha)
  have hempty : w.store.array a = #[] := by
    unfold Store.array
    rw [Array.getD_eq_getD_getElem?, Array.getElem?_eq_none (Nat.not_lt.mp hnew)]
    rfl
  rw [hempty] at hsize
  simp only [Array.size_empty, Int.ofNat_zero] at hsize
  omega

/-- A world with an array, and a handle to it, where arrays hold two elements at most. -/
def pairWorld : World where
  store := {
    arrays := #[#[.null]]
    objects := #[[(.str "xs", .array 0), (.str "h", .handle 0)], []]
    handles := #[.bound (.mk (.root { key := .global }) [.key "xs"]) (some 0)]
    cells := #[{ value := .object 0 }, { value := .null }] }
  scopes := #[{ context := 1 }]
  stateCell := 1
  limits := { arraySize := 2 }

theorem pairWorld_selfContained : pairWorld.SelfContained where
  array := fun a v hv => by
    match a with
    | 0 =>
      rw [Array.mem_singleton.mp hv]
      trivial
    | a + 1 => exact absurd hv (Array.not_mem_empty _)
  object := fun o e he => by
    match o with
    | 0 =>
      have hentries : ∀ e ∈ [(Key.str "xs", Value.array 0), (.str "h", .handle 0)], pairWorld.Refs e.2 :=
        List.forall_mem_cons.mpr ⟨Nat.zero_lt_one, List.forall_mem_singleton.mpr Nat.zero_lt_one⟩
      exact hentries e he
    | 1 => cases he
    | o + 2 => cases he
  cell := fun c => by
    match c with
    | 0 => exact Nat.zero_lt_two
    | 1 => trivial
    | c + 2 => trivial
  global := Nat.zero_lt_two
  state := Nat.one_lt_two
  parent := fun s hs p hp => by
    cases Nat.lt_one_iff.mp hs
    cases hp
  context := fun s hs => by
    cases Nat.lt_one_iff.mp hs
    exact Nat.one_lt_two
  component := fun s hs c hc => by
    cases Nat.lt_one_iff.mp hs
    cases hc
  args := fun s hs c hc => by
    cases Nat.lt_one_iff.mp hs
    cases hc
  localData := fun s hs => by
    cases Nat.lt_one_iff.mp hs
    trivial
  bound := fun h hh p s hp => by
    cases Nat.lt_one_iff.mp hh
    cases hp
    exact ⟨Nat.zero_lt_one, fun r hr => by cases hr; trivial⟩
  rooted := fun h hh c p hp => by
    cases Nat.lt_one_iff.mp hh
    cases hp
  readOnly := fun h hh i hi => by
    cases Nat.lt_one_iff.mp hh
    cases hi

/-- A write behind a handle fills an array up to the ceiling, and another one that it makes. -/
theorem write_behind_handle_fills_arrays :
    let p : Path := .mk (.root { key := .global }) [.key "h", .index 1, .key "ys", .index 1]
    ∃ w', (full .plain).put (.path p) 0 (.int 5) none false pairWorld = .ok () w' ∧
      w'.store.array 1 = #[.null, .int 5] ∧ ((w'.store.array 0).size : Int) ≤ 2 ∧
      ((w'.store.array 1).size : Int) ≤ 2 := by
  intro p
  obtain ⟨w', hrun, h0, h1, h2⟩ : ∃ w', (full .plain).put (.path p) 0 (.int 5) none false pairWorld = .ok () w' ∧
      w'.store.array 0 = #[.null, .object 2] ∧ w'.store.array 1 = #[.null, .int 5] ∧
      w'.store.object 2 = [(.str "ys", .array 1)] := ⟨_, rfl, rfl, rfl, rfl⟩
  have hv : pairWorld.Refs (.int 5) := trivial
  have hl : 1 ≤ pairWorld.limits.arraySize := by decide
  have hs : 0 < pairWorld.scopes.size := Nat.zero_lt_one
  have h := writes_keep_arrayCeiling Embedding.plain_along pairWorld_selfContained hl (.path p) hs hv none false
  rw [Exec.after_ok hrun] at h
  have hobject : pairWorld.Reached w' (.object 2) := .element (.array Nat.zero_lt_one) (by rw [h0]; simp)
  have harray : pairWorld.Reached w' (.array 1) := .entry (e := (.str "ys", .array 1)) hobject (by rw [h2]; simp)
  exact ⟨w', hrun, h1, Int.le_trans (h.1 0 Nat.zero_lt_one) (by decide), h.2 1 (Nat.lt_irrefl 1) harray⟩

/-- A write through a handle into a cell passes the ceiling of the world. -/
theorem rooted_write_passes_limit :
    let w : World := {
      store := {
        arrays := #[#[]]
        objects := #[[(.str "xs", .array 0), (.str "h", .handle 0)]]
        handles := #[.rooted 2 (.mk (.root { key := .global }) [.index 5])]
        cells := #[{ value := .object 0 }, { value := .null }, { value := .array 0 }] }
      stateCell := 1
      limits := { arraySize := 2 } }
    ∃ w', (full .plain).put (.text "$.h") 0 (.int 1) none false w = .ok () w' ∧ w'.limits.arraySize = 2 ∧
      (w.store.array 0).size = 0 ∧ (w'.store.array 0).size = 6 :=
  ⟨_, rfl, rfl, rfl, rfl⟩

end Engine

end EventScript
