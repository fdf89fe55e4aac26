import EventScript.Proofs.ConcretePaths
import EventScript.Proofs.Evaluation
import EventScript.Proofs.Stages
import EventScript.Proofs.Trails

/-!
# Reads between stages

From a stage of a write, reading comes to a stage again, and what is read is known there.
-/

namespace EventScript

open Exec (Arrives)

variable {first : World} {σ : Stage first}

/-! ### Scopes -/

namespace Stage

variable {s t : ScopeId}

theorem lt_of_parent (s : ScopeId) (hs : s < first.scopes.size) (p : ScopeId)
    (hp : (σ.world.scope s).parent = some p) : p < first.scopes.size := by
  rw [σ.scope_eq hs] at hp
  exact σ.contained.parent s hs p hp

theorem lt_of_mem_chain (hs : s < first.scopes.size) (ht : t ∈ σ.world.chain s) : t < first.scopes.size :=
  World.of_mem_chain (P := (· < first.scopes.size)) lt_of_parent hs ht

theorem caretScope_lt (hs : s < first.scopes.size) (caret : Nat) :
    σ.world.caretScopeFrom caret s < first.scopes.size :=
  World.of_caretScopeFrom (P := (· < first.scopes.size)) lt_of_parent hs caret

theorem context_inUse (hs : s < first.scopes.size) : σ.inUse (.object (σ.world.scope s).context) := by
  rw [σ.scope_eq hs]
  exact σ.old _ (σ.contained.context s hs)

/-- A cell that is found along a chain of scopes is in use. -/
theorem found_inUse (hs : s < first.scopes.size) {cell : Scope → Option CellId}
    (hcell : ∀ t < first.scopes.size, ∀ c, cell (first.scope t) = some c → first.Has (.cell c)) {c : CellId}
    (h : ((σ.world.chain s).findSome? fun t => cell (σ.world.scope t)) = some c) : σ.inUse (.cell c) := by
  obtain ⟨t, ht, hc⟩ := List.exists_of_findSome?_eq_some h
  have hlt := lt_of_mem_chain hs ht
  rw [σ.scope_eq hlt] at hc
  exact σ.old _ (hcell t hlt c hc)

theorem componentCell_inUse (hs : s < first.scopes.size) {c : CellId} (h : σ.world.componentCell? s = some c) :
    σ.inUse (.cell c) := found_inUse hs σ.contained.component h

theorem argsCell_inUse (hs : s < first.scopes.size) {c : CellId} (h : σ.world.argsCell? s = some c) :
    σ.inUse (.cell c) := found_inUse hs σ.contained.args h

theorem globalCell_inUse (σ : Stage first) : σ.inUse (.cell σ.world.globalCell) := by
  rw [σ.globalCell]
  exact σ.old _ σ.contained.global

theorem stateCell_inUse (σ : Stage first) : σ.inUse (.cell σ.world.stateCell) := by
  rw [σ.stateCell]
  exact σ.old _ σ.contained.state

theorem knows_cellValue {c : Option CellId} (h : ∀ d, c = some d → σ.inUse (.cell d)) :
    σ.Knows (σ.world.cellValue c) := by
  cases c with
  | none => trivial
  | some c => exact σ.cell c (h c rfl)

theorem knows_localIn {ts : List ScopeId} (hts : ∀ t ∈ ts, t < first.scopes.size) (skip : Nat) :
    σ.Knows (σ.world.localIn skip ts) := by
  refine World.of_localIn (P := σ.Knows) trivial (fun t ht _ => ?_) skip
  rw [σ.scope_eq (hts t ht)]
  exact σ.knows_of_refs (σ.contained.localData t (hts t ht))

theorem knows_entry {o : ObjectId} (ho : σ.inUse (.object o)) {k : Key} {v : Value}
    (h : Entries.get? k (σ.world.store.object o) = some v) : σ.Knows v := by
  obtain ⟨k', hm⟩ := Entries.mem_of_get? h
  exact σ.object o ho _ hm

theorem knows_element {a : ArrayId} (ha : σ.inUse (.array a)) (i : Nat) :
    σ.Knows ((σ.world.store.array a).getD i .null) := by
  rcases World.mem_or_null (σ.world.store.array a) i with h | h
  · exact σ.array a ha _ h
  · rw [h]
    trivial

/-- What stands under a key in what is known is known. -/
theorem Knows.valueAt {v u : Value} (hv : σ.Knows v) {k : Key} (h : σ.world.valueAt? v k = some u) : σ.Knows u := by
  cases v with
  | object o => exact knows_entry hv h
  | context c =>
    obtain ⟨t, ht, hu⟩ := List.exists_of_findSome?_eq_some h
    exact knows_entry (context_inUse (lt_of_mem_chain hv.2 ht)) hu
  | _ => cases h

/-- All that can be reached from the places of the first world is known. -/
theorem knows_of_reached (σ : Stage first) {v : Value} (h : first.Reached σ.world v) : σ.Knows v := by
  induction h with
  | array h | object h => exact σ.old _ h
  | cell h => exact σ.cell _ (σ.old _ h)
  | element _ hv ih => exact σ.array _ ih _ hv
  | entry _ he ih => exact σ.object _ ih _ he
  | context _ ht ih => exact context_inUse (lt_of_mem_chain ih.2 ht)
  | bound _ hh ht ih =>
    rw [σ.handle_eq ih] at hh
    exact context_inUse (lt_of_mem_chain (σ.contained.bound _ ih _ _ hh).1 ht)
  | root _ hh hr ih =>
    rw [σ.handle_eq ih] at hh
    exact σ.knows_of_refs ((σ.contained.bound _ ih _ _ hh).2 _ hr)
  | rooted _ hh ih =>
    rw [σ.handle_eq ih] at hh
    exact σ.cell _ (σ.old _ (σ.contained.rooted _ ih _ _ hh))
  | readOnly _ hh ih =>
    rw [σ.handle_eq ih] at hh
    exact σ.contained.readOnly _ ih _ hh

end Stage

theorem Exec.rootValue_arrives {s : ScopeId} (hs : s < first.scopes.size) (key : RootKey) (caret : Nat) :
    Arrives σ (Exec.rootValue s key caret) Stage.Knows := by
  unfold Exec.rootValue
  refine .getBind ?_
  cases key with
  | global | data => exact .pure (Stage.knows_cellValue fun d hd => by cases hd; exact σ.globalCell_inUse)
  | state => exact .pure (Stage.knows_cellValue fun d hd => by cases hd; exact σ.stateCell_inUse)
  | «local» => exact .pure (Stage.knows_localIn (fun t ht => Stage.lt_of_mem_chain hs ht) caret)
  | null => exact .pure trivial
  | context =>
    refine .bind (.preserved (.allocate (Store.Grown.newView · _))) fun τ c _ hrun _ => .pure ?_
    obtain ⟨rfl, hw⟩ := EStateM.Result.ok.inj hrun
    have hviews : τ.world.store.views = σ.world.store.views.push (σ.world.caretScopeFrom caret s) := by rw [← hw]; rfl
    refine ⟨?_, ?_⟩
    · rw [hviews, Array.size_push]
      exact Nat.lt_succ_self _
    · rw [hviews]
      exact (getD_push_size ..).symm ▸ Stage.caretScope_lt hs caret
  | currentContext => exact .pure (Stage.context_inUse (Stage.caretScope_lt hs caret))
  | component | c => exact .pure (Stage.knows_cellValue fun d hd => Stage.componentCell_inUse hs hd)
  | args => exact .pure (Stage.knows_cellValue fun d hd => Stage.argsCell_inUse hs hd)
  | expr => exact .fail _

/-- Whatever is read through a handle of the first world is known. -/
def ReadsKnown (first : World) (read : HandleId → Exec Value) : Prop :=
  ∀ (σ : Stage first) (h : HandleId), h < first.store.handles.size → Arrives σ (read h) Stage.Knows

section Reads

variable {read : HandleId → Exec Value} (hr : ReadsKnown first read)
include hr

theorem followFrom_arrives (limit : Int) (steps : Nat) {v : Value} (hv : σ.Knows v) :
    Arrives σ (followFrom read limit steps v) Stage.Knows := by
  induction steps generalizing σ v with
  | zero =>
    cases v with
    | handle h => exact .fail _
    | _ => exact .pure hv
  | succ steps ih =>
    cases v with
    | handle h => exact .bind (hr σ h hv) fun τ u _ _ hu => ih hu
    | _ => exact .pure hv

theorem follow_arrives (limit : Int) {v : Value} (hv : σ.Knows v) : Arrives σ (follow read limit v) Stage.Knows :=
  followFrom_arrives hr limit _ hv

namespace Path

omit hr in
theorem newNodes_arrives (ns : List Node) : Arrives σ (Exec.newNodes ns) Stage.Knows :=
  .bind (.preserved (.allocate (Store.Grown.newNodeList · ns))) fun _ _ _ _ _ => .pure trivial

omit hr in
theorem nodeGroups_arrives (groups : List (String × List Node)) : Arrives σ (nodeGroups groups) Stage.Knows := by
  have hmono {σ τ : Stage first} {e : Key × Value} (hle : σ ≤ τ) (h : σ.Knows e.2) : τ.Knows e.2 := h.mono hle
  refine .bind (.mapM (Q := fun τ e => τ.Knows e.2) hmono (fun σ g => ?_) groups) fun τ es _ _ hes => .newObject hes
  exact .bind (newNodes_arrives g.2) fun τ v _ _ hv => .pure hv

omit hr in
theorem fieldOf_arrives {v : Value} (hv : σ.Knows v) (key : String) : Arrives σ (fieldOf v key) Stage.Knows := by
  unfold fieldOf
  cases v with
  | nodes n =>
    refine .storeBind ?_
    dsimp only
    split
    · exact .pure hv
    · exact newNodes_arrives _
    · exact newNodes_arrives _
    · exact .pure trivial
    · exact nodeGroups_arrives _
    · exact nodeGroups_arrives _
    · exact .pure trivial
  | error e =>
    refine .storeBind ?_
    dsimp only
    split
    · exact .pure trivial
    · exact .pure trivial
    · refine .pure (.getD fun u hu => ?_)
      obtain ⟨t, -, rfl⟩ := Option.map_eq_some_iff.mp hu
      trivial
    · refine .pure (.getD fun u hu => ?_)
      obtain ⟨t, -, rfl⟩ := Option.map_eq_some_iff.mp hu
      trivial
    · exact .pure trivial
  | _ => exact .pure trivial

theorem stepIndex_arrives (limits : Limits) {v : Value} (hv : σ.Knows v) (i : Int) :
    Arrives σ (stepIndex read limits v i) Stage.Knows := by
  refine .bind (follow_arrives hr _ hv) fun τ u _ _ hu => ?_
  cases u with
  | null | absent => exact .pure trivial
  | array a =>
    exact .guard ⟨_, rfl⟩ fun _ => .storeBind (.pure (Stage.knows_element hu _))
  | _ =>
    dsimp only
    split
    · exact .pure trivial
    · exact .fail _

theorem stepKey_arrives (limits : Limits) {v : Value} (hv : σ.Knows v) (key : String) (markAbsent : Bool) :
    Arrives σ (stepKey read limits v key markAbsent) Stage.Knows := by
  refine .bind (follow_arrives hr _ hv) fun τ u _ _ hu => ?_
  have hmissing : τ.Knows (if markAbsent then .absent else .null) := by cases markAbsent <;> trivial
  have hentry : τ.Knows ((τ.world.valueAt? u (.str key)).getD (if markAbsent then .absent else .null)) := by
    cases h : τ.world.valueAt? u (.str key) with
    | none => exact hmissing
    | some x => exact hu.valueAt h
  cases u with
  | null | absent => exact .pure hmissing
  | object | context => exact .getBind (.pure hentry)
  | _ =>
    dsimp only
    split
    · exact fieldOf_arrives hu key
    · exact .fail _

theorem walk_arrives (limits : Limits) (text : String) (markAbsent : Bool) (parts : List Part) {v : Value}
    (hv : σ.Knows v) : Arrives σ (walk read limits text markAbsent parts v) Stage.Knows := by
  induction parts generalizing σ markAbsent v with
  | nil => exact .pure hv
  | cons part rest ih =>
    unfold walk
    cases part with
    | key k => exact .bind (stepKey_arrives hr limits hv k markAbsent) fun τ u _ _ hu => ih false hu
    | index i => exact .bind (stepIndex_arrives hr limits hv i) fun τ u _ _ hu => ih false hu
    | root | dyn | deref => exact .bind (P := fun _ _ => True) (.reject _) fun τ u _ hrun _ => by cases hrun

theorem followIn_arrives (limits : Limits) (p : Path) {container : Value} (hv : σ.Knows container) :
    Arrives σ (followIn read limits p container) Stage.Knows := by
  unfold followIn
  split
  · exact walk_arrives hr limits _ _ _ hv
  · exact walk_arrives hr limits _ _ _ hv
  · exact .failWith p _

omit hr in
theorem rootOf_arrives {r : Root} (hr : σ.Knows r.value) {scope : Option ScopeId}
    (hs : ∀ s, scope = some s → s < first.scopes.size) : Arrives σ (rootOf r scope) Stage.Knows := by
  unfold rootOf
  split
  · exact .pure hr
  · exact .pure trivial
  · cases scope with
    | none => exact .fail _
    | some s => exact Exec.rootValue_arrives (hs s rfl) _ _

/-- What a path leads to is known, if what it is rooted in is. -/
theorem resolve_arrives {eval : Evaluate} (he : ∀ e scope, (eval e scope).Along World.Preserves) (limits : Limits)
    {p : Path} {s : ScopeId} (hs : s < first.scopes.size) (hp : ∀ r, p.root? = some r → σ.Knows r.value) :
    Arrives σ (resolve eval read limits p (some s)) Stage.Knows := by
  refine .bind (.preserved (concrete_along he limits (some s) p)) fun τ q hle hq _ => ?_
  obtain ⟨r, parts, rfl, hroot, -⟩ := concrete_forall (P := fun _ => True) (fun _ => trivial) (fun _ => trivial)
    (fun _ _ _ => trivial) hq
  -- The root is that of the path itself, or one that a text has spelled, which holds no value.
  have hvalue : τ.Knows r.value := by
    rcases hroot with h | h
    · exact (hp r h).mono hle
    · rw [h]
      trivial
  refine .bind (rootOf_arrives hvalue fun t ht => ?_) fun υ v _ _ hv => walk_arrives hr limits _ _ _ hv
  cases ht
  exact hs

end Path

end Reads

end EventScript
