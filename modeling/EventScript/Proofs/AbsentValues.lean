import EventScript.Proofs.ConcretePaths
import EventScript.Proofs.Evaluation
import EventScript.Proofs.FramedReads
import EventScript.Proofs.SuppliedRegions
import EventScript.Proofs.Trails

/-!
# Absent values

Where nothing is absent, a path leads to an absent value in one way only: it is the arguments and one key, and there
is nothing under the key. Handles that are met on the way may lead to absent values, as they may be such paths
themselves; but a step from an absent value is one from null.
-/

namespace EventScript

open Exec (Yields)

variable {σ : Supply}

/-! ### Scopes -/

namespace Supply

variable {s t : ScopeId}

theorem scope_of_mem_chain (hs : σ.region.scope s) (ht : t ∈ σ.world.chain s) : σ.region.scope t :=
  World.of_mem_chain σ.supplied.parent hs ht

theorem scope_of_caret (hs : σ.region.scope s) (caret : Nat) : σ.region.scope (σ.world.caretScopeFrom caret s) :=
  World.of_caretScopeFrom σ.supplied.parent hs caret

/-- A cell that is found along a chain of scopes is in the region. -/
theorem cell_of_found (hs : σ.region.scope s) {cell : Scope → Option CellId}
    (hcell : ∀ t, σ.region.scope t → ∀ c, cell (σ.world.scope t) = some c → σ.region.place (.cell c)) {c : CellId}
    (h : ((σ.world.chain s).findSome? fun t => cell (σ.world.scope t)) = some c) : σ.region.place (.cell c) := by
  obtain ⟨t, ht, hc⟩ := List.exists_of_findSome?_eq_some h
  exact hcell t (scope_of_mem_chain hs ht) c hc

theorem offers_cellValue {c : Option CellId} (h : ∀ d, c = some d → σ.region.place (.cell d)) :
    σ.Offers (σ.world.cellValue c) := by
  cases c with
  | none => exact ⟨trivial, nofun⟩
  | some c => exact σ.supplied.cell c (h c rfl)

theorem offers_localIn {ts : List ScopeId} (hts : ∀ t ∈ ts, σ.region.scope t) (skip : Nat) :
    σ.Offers (σ.world.localIn skip ts) :=
  World.of_localIn (P := σ.Offers) ⟨trivial, nofun⟩ (fun t ht hne => ⟨σ.supplied.localData t (hts t ht), hne⟩) skip

theorem offers_entry {o : ObjectId} (ho : σ.region.place (.object o)) {k : Key} {v : Value}
    (h : Entries.get? k (σ.world.store.object o) = some v) : σ.Offers v := by
  obtain ⟨k', hm⟩ := Entries.mem_of_get? h
  exact σ.supplied.object o ho _ hm

theorem offers_element {a : ArrayId} (ha : σ.region.place (.array a)) (i : Nat) :
    σ.Offers ((σ.world.store.array a).getD i .null) := by
  rcases World.mem_or_null (σ.world.store.array a) i with h | h
  · exact σ.supplied.array a ha _ h
  · rw [h]
    exact ⟨trivial, nofun⟩

theorem Covers.valueAt {v u : Value} (hv : σ.Covers v) {k : Key} (h : σ.world.valueAt? v k = some u) : σ.Offers u := by
  cases v with
  | object o => exact offers_entry hv h
  | context c =>
    obtain ⟨t, ht, hu⟩ := List.exists_of_findSome?_eq_some h
    exact offers_entry (σ.supplied.context t (scope_of_mem_chain hv.2 ht)) hu
  | _ => cases h

end Supply

/-- No root that a scope gives access to is absent. -/
theorem Exec.rootValue_yields {s : ScopeId} (hs : σ.region.scope s) (key : RootKey) (caret : Nat) :
    Yields σ (Exec.rootValue s key caret) Supply.Offers := by
  unfold Exec.rootValue
  refine .getBind ?_
  cases key with
  | global | data => exact .pure (Supply.offers_cellValue fun d hd => by cases hd; exact σ.supplied.global)
  | state => exact .pure (Supply.offers_cellValue fun d hd => by cases hd; exact σ.supplied.state)
  | «local» => exact .pure (Supply.offers_localIn (fun t ht => Supply.scope_of_mem_chain hs ht) caret)
  | null => exact .pure ⟨trivial, nofun⟩
  | context =>
    refine .bind (.kept (.allocate (Store.Grown.newView · _))) fun τ c hle hrun _ => .pure ⟨?_, nofun⟩
    obtain ⟨rfl, hw⟩ := EStateM.Result.ok.inj hrun
    have hviews : τ.world.store.views = σ.world.store.views.push (σ.world.caretScopeFrom caret s) := by rw [← hw]; rfl
    refine ⟨?_, ?_⟩
    · rw [hviews, Array.size_push]
      exact Nat.lt_succ_self _
    · rw [hviews]
      exact (getD_push_size ..).symm ▸ Supply.scope_mono hle (Supply.scope_of_caret hs caret)
  | currentContext => exact .pure ⟨σ.supplied.context _ (Supply.scope_of_caret hs caret), nofun⟩
  | component | c =>
    exact .pure (Supply.offers_cellValue fun d hd => Supply.cell_of_found hs σ.supplied.component hd)
  | args => exact .pure (Supply.offers_cellValue fun d hd => Supply.cell_of_found hs σ.supplied.args hd)
  | expr => exact .fail _

/-- Handles followed, a value is null, absent or an object without a key. -/
def Path.Lacks (read : HandleId → Exec Value) (limit : Int) (v : Value) (k : String) (w : World) : Prop :=
  ∃ u w₁, follow read limit v w = .ok u w₁ ∧
    (u = .null ∨ u = .absent ∨ u.kind = .object ∧ w₁.valueAt? u (.str k) = none)

/-- Whatever is read through a handle of a supply is covered. It may be absent. -/
def ReadsCovered (read : HandleId → Exec Value) : Prop :=
  ∀ (σ : Supply) (h : HandleId), σ.region.handle h → Yields σ (read h) Supply.Covers

section Reads

variable {read : HandleId → Exec Value} (hr : ReadsCovered read)
include hr

theorem followFrom_yields (limit : Int) (steps : Nat) {v : Value} (hv : σ.Covers v) :
    Yields σ (followFrom read limit steps v) Supply.Covers := by
  induction steps generalizing σ v with
  | zero =>
    cases v with
    | handle h => exact .fail _
    | _ => exact .pure hv
  | succ steps ih =>
    cases v with
    | handle h => exact .bind (hr σ h hv) fun τ u _ _ hu => ih hu
    | _ => exact .pure hv

theorem follow_yields (limit : Int) {v : Value} (hv : σ.Covers v) : Yields σ (follow read limit v) Supply.Covers :=
  followFrom_yields hr limit _ hv

namespace Path

omit hr in
theorem newNodes_yields (ns : List Node) : Yields σ (Exec.newNodes ns) Supply.Offers :=
  .bind (.kept (.allocate (Store.Grown.newNodeList · ns))) fun _ _ _ _ _ => .pure ⟨trivial, nofun⟩

omit hr in
theorem nodeGroups_yields (groups : List (String × List Node)) : Yields σ (nodeGroups groups) Supply.Offers := by
  have hmono {σ τ : Supply} {e : Key × Value} (hle : σ ≤ τ) (h : σ.Offers e.2) : τ.Offers e.2 := h.mono hle
  refine .bind (.mapM (Q := fun τ e => τ.Offers e.2) hmono (fun σ g => ?_) groups) fun τ es _ _ hes => .newObject hes
  exact .bind (newNodes_yields g.2) fun τ v _ _ hv => .pure hv

omit hr in
/-- No field of a special value is absent. -/
theorem fieldOf_yields {v : Value} (hv : σ.Covers v) (key : String) : Yields σ (fieldOf v key) Supply.Offers := by
  have hplain {t : Option String} : σ.Offers ((t.map Value.str).getD .null) := by
    cases t <;> exact ⟨trivial, nofun⟩
  unfold fieldOf
  cases v with
  | nodes n =>
    refine .storeBind ?_
    dsimp only
    split
    · exact .pure ⟨hv, nofun⟩
    · exact newNodes_yields _
    · exact newNodes_yields _
    · exact .pure ⟨trivial, nofun⟩
    · exact nodeGroups_yields _
    · exact nodeGroups_yields _
    · exact .pure ⟨trivial, nofun⟩
  | error e =>
    refine .storeBind ?_
    dsimp only
    split
    · exact .pure ⟨trivial, nofun⟩
    · exact .pure ⟨trivial, nofun⟩
    · exact .pure hplain
    · exact .pure hplain
    · exact .pure ⟨trivial, nofun⟩
  | _ => exact .pure ⟨trivial, nofun⟩

theorem stepIndex_yields (limits : Limits) {v : Value} (hv : σ.Covers v) (i : Int) :
    Yields σ (stepIndex read limits v i) Supply.Offers := by
  refine .bind (follow_yields hr _ hv) fun τ u _ _ hu => ?_
  cases u with
  | null | absent => exact .pure ⟨trivial, nofun⟩
  | array a => exact .guard (.storeBind (.pure (Supply.offers_element hu _)))
  | _ =>
    dsimp only
    split
    · exact .pure ⟨trivial, nofun⟩
    · exact .fail _

/-- What a step to a key comes to is absent only where absence is marked and nothing is there. -/
theorem stepKey_yields (limits : Limits) {v : Value} (hv : σ.Covers v) (key : String) (markAbsent : Bool) :
    Yields σ (stepKey read limits v key markAbsent)
      (Supply.AbsentOnlyIf (markAbsent = true ∧ Lacks read limits.handleDepth v key σ.world)) := by
  refine .bind (follow_yields hr _ hv) fun τ u _ hrun hu => ?_
  have hmissing (hl : u = .null ∨ u = .absent ∨ u.kind = .object ∧ τ.world.valueAt? u (.str key) = none) :
      τ.AbsentOnlyIf (markAbsent = true ∧ Lacks read limits.handleDepth v key σ.world)
        (if markAbsent then .absent else .null) := by
    cases markAbsent with
    | true => exact ⟨trivial, fun _ => ⟨rfl, u, τ.world, hrun, hl⟩⟩
    | false => exact ⟨trivial, nofun⟩
  have hentry (hk : u.kind = .object) :
      τ.AbsentOnlyIf (markAbsent = true ∧ Lacks read limits.handleDepth v key σ.world)
        ((τ.world.valueAt? u (.str key)).getD (if markAbsent then .absent else .null)) := by
    cases hx : τ.world.valueAt? u (.str key) with
    | none => exact hmissing (.inr (.inr ⟨hk, hx⟩))
    | some x => exact (hu.valueAt hx).absentOnlyIf
  cases u with
  | null => exact .pure (hmissing (.inl rfl))
  | absent => exact .pure (hmissing (.inr (.inl rfl)))
  | object | context => exact .getBind (.pure (hentry rfl))
  | _ =>
    dsimp only
    split
    · exact (fieldOf_yields hu key).imp fun _ _ hx => hx.absentOnlyIf
    · exact .fail _

/-- What a walk comes to is absent only if it is the value that it begins at, or if absence is marked and the key at its
end is missing there. -/
theorem walk_yields (limits : Limits) (text : String) (markAbsent : Bool) (parts : List Part) {v : Value}
    (hv : σ.Covers v) : Yields σ (walk read limits text markAbsent parts v)
      (Supply.AbsentOnlyIf (parts = [] ∧ v = .absent ∨
        markAbsent = true ∧ ∃ k, parts = [.key k] ∧ Lacks read limits.handleDepth v k σ.world)) := by
  induction parts generalizing σ markAbsent v with
  | nil => exact .pure ⟨hv, fun h => .inl ⟨rfl, h⟩⟩
  | cons part rest ih =>
    -- Past the first part absence is not marked, so the end is absent only if there are no parts left.
    have hrest {τ : Supply} {x : Value} {C D : Prop} (hx : τ.AbsentOnlyIf C x) (hD : C → rest = [] → D) :
        Yields τ (walk read limits text false rest x) (Supply.AbsentOnlyIf D) := by
      refine (ih false hx.1).imp fun υ u hu => hu.imp fun hend => ?_
      obtain ⟨hnil, habsent⟩ := hend.resolve_right fun h => Bool.noConfusion h.1
      exact hD (hx.2 habsent) hnil
    unfold walk
    cases part with
    | key k =>
      refine .bind (stepKey_yields hr limits hv k markAbsent) fun τ x _ _ hx => hrest hx ?_
      rintro ⟨hmark, hl⟩ rfl
      exact .inr ⟨hmark, k, rfl, hl⟩
    | index i =>
      refine .bind (stepIndex_yields hr limits hv i) fun τ x _ _ hx => ?_
      exact hrest (C := False) hx.absentOnlyIf fun h _ => h.elim
    | root | dyn | deref => exact .bind (P := fun _ _ => True) (.reject _) fun τ u _ hrun _ => by cases hrun

theorem followIn_yields (limits : Limits) (p : Path) {container : Value} (hv : σ.Covers container) :
    Yields σ (followIn read limits p container) Supply.Covers := by
  have hwalk := (walk_yields hr limits p.text false p.rest hv).imp fun _ _ h => h.1
  unfold followIn
  split
  · exact hwalk
  · exact hwalk
  · exact .failWith p _

omit hr in
/-- A root is absent only if the path brings an absent value along. -/
theorem rootOf_yields {r : Root} {scope : Option ScopeId} (hv : r.key = .expr → σ.Covers r.value)
    (hs : ∀ s, scope = some s → σ.region.scope s) :
    Yields σ (rootOf r scope) (Supply.AbsentOnlyIf (r.key = .expr ∧ r.value = .absent)) := by
  unfold rootOf
  split
  · rename_i hkey
    exact .pure ⟨hv hkey, fun h => ⟨hkey, h⟩⟩
  · exact .pure ⟨trivial, nofun⟩
  · cases scope with
    | none => exact .fail _
    | some s =>
      exact (Exec.rootValue_yields (hs s rfl) _ _).imp fun _ _ hv => hv.absentOnlyIf

/-- What a path leads to is absent only if it brings an absent value along, or if its root is that of the arguments. -/
theorem followStatic_yields (limits : Limits) {r : Root} (parts : List Part) {scope : Option ScopeId}
    (hv : r.key = .expr → σ.Covers r.value) (hs : ∀ s, scope = some s → σ.region.scope s) :
    Yields σ (followStatic read limits (.mk (.root r) parts) scope)
      (Supply.AbsentOnlyIf (r.key = .expr ∧ r.value = .absent ∨ r.key = .args)) := by
  refine .bind (rootOf_yields hv hs) fun τ x _ _ hx => (walk_yields hr limits _ _ _ hx.1).imp fun υ u hu => hu.imp ?_
  exact Or.imp (fun hroot => hx.2 hroot.2) fun hmark => eq_of_beq hmark.1

/-- What a path leads to is covered, if what it is rooted in is. -/
theorem resolve_yields {eval : Evaluate} (he : ∀ e scope, (eval e scope).Along World.KeepsSupplies) (limits : Limits)
    {p : Path} {s : ScopeId} (hs : σ.region.scope s) (hp : ∀ r, p.root? = some r → σ.Covers r.value) :
    Yields σ (resolve eval read limits p (some s)) Supply.Covers := by
  refine .bind (.kept (concrete_along he limits (some s) p)) fun τ q hle hq _ => ?_
  obtain ⟨r, parts, rfl, hroot, -⟩ := concrete_forall (P := fun _ => True) (fun _ => trivial) (fun _ => trivial)
    (fun _ _ _ => trivial) hq
  refine (followStatic_yields hr limits parts (fun _ => ?_) fun t ht => ?_).imp fun _ _ h => h.1
  · rcases hroot with h | h
    · exact (hp r h).mono hle
    · rw [h]
      trivial
  · cases ht
    exact Supply.scope_mono hle hs

end Path

end Reads

namespace Engine

theorem readHandle_yields {g : Engine} (hg : g.Along World.KeepsSupplies) (hr : ReadsCovered g.access.read)
    {h : HandleId} (hh : σ.region.handle h) : Yields σ (g.readHandle h) Supply.Covers := by
  unfold readHandle
  refine .storeBind ?_
  cases hx : σ.world.store.handle h with
  | bound p scope =>
    cases scope with
    | none => exact .throw _
    | some s =>
      obtain ⟨hs, hp⟩ := σ.supplied.bound h hh p s hx
      exact .getBind (Path.resolve_yields hr (evalResolved_along hg) _ hs hp)
  | rooted c p =>
    exact .storeBind (Path.followIn_yields hr _ p (σ.supplied.cell c (σ.supplied.rooted h hh c p hx)).1)
  | readOnly i => exact hr σ i (σ.supplied.readOnly h hh i hx)

theorem level_readsCovered {em : Embedding} (hem : em.Along World.KeepsSupplies) (n : Nat) :
    ReadsCovered (level em n).access.read := by
  induction n with
  | zero => exact fun _ _ _ => .throw _
  | succ n ih => exact fun σ h hh => readHandle_yields (level_along hem n) ih hh

end Engine

/-! ### Missing arguments -/

namespace Path

variable {read : HandleId → Exec Value} {limits : Limits} {w w' : World} {u v : Value} {k : String}

theorem Lacks.stepKey (h : Lacks read limits.handleDepth v k w) (markAbsent : Bool) :
    ∃ w₁, stepKey read limits v k markAbsent w = .ok (if markAbsent then .absent else .null) w₁ := by
  obtain ⟨u, w₁, hf, h⟩ := h
  refine ⟨w₁, ?_⟩
  rcases h with rfl | rfl | ⟨hk, hnone⟩
  · exact stepKey_of_follow hf (.inl rfl) k markAbsent
  · exact stepKey_of_follow hf (.inl rfl) k markAbsent
  · rw [stepKey_of_follow hf (.inr hk), hnone]
    rfl

theorem walk_of_isNull {text : String} {parts : List Part} (hne : parts ≠ []) (hv : v.isNull = true)
    (h : walk read limits text false parts v w = .ok u w') : u = .null := by
  obtain ⟨part, rest, rfl⟩ := List.exists_cons_of_ne_nil hne
  by_cases ho : World.Opens .null part
  · have hopens : World.Opens v part := by cases part <;> first | exact .inl hv | exact ho.elim
    rw [walk_step limits text hopens, World.next_of_isNull w hv] at h
    rcases walk_null limits text rest with hnull | ⟨e, he⟩
    · exact (EStateM.Result.ok.inj (h.symm.trans hnull)).1
    · cases h.symm.trans he
  · obtain ⟨e, he⟩ := walk_unopened limits text ho rest v
    cases h.symm.trans he

/-- Below a missing key there is null. -/
theorem walk_below_missing {text : String} {markAbsent : Bool} {rest : List Part}
    (hl : Lacks read limits.handleDepth v k w) (hne : rest ≠ [])
    (h : walk read limits text markAbsent (.key k :: rest) v w = .ok u w') : u = .null := by
  obtain ⟨w₁, hstep⟩ := hl.stepKey markAbsent
  have hrest : walk read limits text false rest (if markAbsent then .absent else .null) w₁ = .ok u w' :=
    (Exec.bind_ok hstep).symm.trans h
  exact walk_of_isNull hne (by cases markAbsent <;> rfl) hrest

/-- With absence marked, a path from what is not absent comes to an absent value just if it is a key that is missing. -/
theorem walk_absent_iff (hr : ReadsCovered read) {text : String} {parts : List Part} (hv : σ.Offers v)
    (h : walk read limits text true parts v σ.world = .ok u w') :
    u = .absent ↔ ∃ k, parts = [.key k] ∧ Lacks read limits.handleDepth v k σ.world := by
  constructor
  · intro hu
    obtain ⟨τ, -, -, -, hend⟩ := walk_yields hr limits text true parts hv.1 u w' h
    rcases hend hu with ⟨-, habsent⟩ | ⟨-, hmissing⟩
    · exact absurd habsent hv.2
    · exact hmissing
  · rintro ⟨k, rfl, hl⟩
    obtain ⟨w₁, hstep⟩ := hl.stepKey true
    exact (EStateM.Result.ok.inj (h.symm.trans (Exec.bind_ok hstep))).1

end Path

namespace Engine

variable {g : Engine} {w w' : World} {s : ScopeId} {k : String} {p : Path}

/-- The nearest arguments that a scope sees lack a key, handles followed; or there are none. -/
def LacksArgument (g : Engine) (w : World) (s : ScopeId) (k : String) : Prop :=
  w.argsCell? s = none ∨
    ∃ c, w.argsCell? s = some c ∧ Path.Lacks g.access.read w.limits.handleDepth (w.store.cell c).value k w

/-- The nearest arguments that a scope sees hold a value under a key, handles followed. -/
def HoldsArgument (g : Engine) (w : World) (s : ScopeId) (k : String) (x : Value) : Prop :=
  ∃ c u w₁, w.argsCell? s = some c ∧ follow g.access.read w.limits.handleDepth (w.store.cell c).value w = .ok u w₁ ∧
    w₁.valueAt? u (.str k) = some x

theorem lacksArgument_iff : g.LacksArgument w s k ↔
    Path.Lacks g.access.read w.limits.handleDepth (w.cellValue (w.argsCell? s)) k w := by
  unfold LacksArgument
  cases w.argsCell? s with
  | none =>
    have hfollow := congrFun (follow_of_not_handle g.access.read w.limits.handleDepth .null nofun) w
    exact iff_of_true (.inl rfl) ⟨.null, w, hfollow, .inl rfl⟩
  | some c => simp [World.cellValue]

/-- A path from the arguments is followed from the nearest ones that a scope sees. -/
theorem resolvePath_args (hp : p.isStatic = true) (hkey : p.rootKey? = some .args) {scope : Option ScopeId} {v : Value}
    (hrun : g.resolvePath p scope w = .ok v w') : ∃ s, scope = some s ∧
      Path.walk g.access.read w.limits p.text true p.rest (w.cellValue (w.argsCell? s)) w = .ok v w' := by
  rw [resolvePath_static hp] at hrun
  obtain ⟨head, rest⟩ := p
  cases head with
  | root r =>
    obtain ⟨key, caret, value⟩ := r
    cases Option.some.inj hkey
    cases scope with
    | none => cases hrun
    | some s => exact ⟨s, rfl, hrun⟩
  | deref e => cases hkey

/-- A path that does not begin at the arguments never leads to an absent value, unless it brings one along. -/
theorem present_of_other_root (hr : ReadsCovered g.access.read) (hp : p.isStatic = true)
    (hkey : p.rootKey? ≠ some .args) {scope : Option ScopeId} (hs : ∀ s, scope = some s → σ.region.scope s)
    (hroot : ∀ r, p.root? = some r → r.key = .expr → σ.Offers r.value) {v : Value}
    (hrun : g.resolvePath p scope σ.world = .ok v w') : v ≠ .absent := by
  intro hv
  rw [resolvePath_static hp] at hrun
  obtain ⟨head, rest⟩ := p
  cases head with
  | root r =>
    obtain ⟨τ, -, -, -, hend⟩ := Path.followStatic_yields hr _ rest (fun h => (hroot r rfl h).1) hs v w' hrun
    rcases hend hv with ⟨hexpr, habsent⟩ | hargs
    · exact (hroot r rfl hexpr).2 habsent
    · exact hkey (congrArg some hargs)
  | deref e => cases hp

/-- Where nothing is absent, the value at a static path is absent just if the path is the arguments and one key, and the
nearest arguments, handles followed, are undeclared, null, absent or an object without the key. What they hold under a
key is read as it is, null as null; a longer path below a missing key leads to null; and a path from another root never
leads to an absent value, whatever handles it passes through. -/
theorem absent_iff_missing_argument {em : Embedding} (hem : em.Along World.KeepsSupplies) (hw : w.SelfContained)
    (hpresent : w.Present) (hp : p.isStatic = true) {scope : Option ScopeId}
    (hs : ∀ s, scope = some s → s < w.scopes.size)
    (hroot : ∀ r, p.root? = some r → r.key = .expr → w.Refs r.value ∧ r.value ≠ .absent) {v : Value}
    (hrun : (full em).resolvePath p scope w = .ok v w') :
    (v = .absent ↔ p.rootKey? = some .args ∧
      ∃ s k, scope = some s ∧ p.rest = [.key k] ∧ (full em).LacksArgument w s k) ∧
    (p.rootKey? = some .args → ∀ s k x, scope = some s → p.rest = [.key k] → (full em).HoldsArgument w s k x → v = x) ∧
    (p.rootKey? = some .args → ∀ s k rest, scope = some s → p.rest = .key k :: rest → rest ≠ [] →
      (full em).LacksArgument w s k → v = .null) ∧
    (p.rootKey? ≠ some .args → v ≠ .absent) := by
  let σ : Supply := ⟨w, w.everything, hpresent.supplied hw⟩
  have hr : ReadsCovered (full em).access.read := level_readsCovered hem depth
  by_cases hkey : p.rootKey? = some .args
  · obtain ⟨s, rfl, hwalk⟩ := resolvePath_args hp hkey hrun
    have hargs : σ.Offers (w.cellValue (w.argsCell? s)) :=
      Supply.offers_cellValue fun c hc => Supply.cell_of_found (σ := σ) (hs s rfl) σ.supplied.args hc
    refine ⟨?_, fun _ t k x ht hrest hx => ?_, fun _ t k rest ht hrest hne hl => ?_, fun h => absurd hkey h⟩
    · rw [Path.walk_absent_iff (σ := σ) hr hargs hwalk]
      constructor
      · rintro ⟨k, hrest, hl⟩
        exact ⟨hkey, s, k, rfl, hrest, lacksArgument_iff.mpr hl⟩
      · rintro ⟨-, t, k, ht, hrest, hl⟩
        cases ht
        exact ⟨k, hrest, lacksArgument_iff.mp hl⟩
    · cases ht
      obtain ⟨c, u, w₁, hc, hfollow, hu⟩ := hx
      rw [hrest, hc] at hwalk
      have hobject : u.kind = .object := by cases u <;> first | rfl | cases hu
      have hstep := Path.stepKey_of_follow hfollow (.inr hobject) k true
      rw [hu] at hstep
      exact (EStateM.Result.ok.inj (hwalk.symm.trans (Exec.bind_ok hstep))).1
    · cases ht
      rw [hrest] at hwalk
      exact Path.walk_below_missing (lacksArgument_iff.mp hl) hne hwalk
  · have hv : v ≠ .absent := present_of_other_root (σ := σ) hr hp hkey hs
      (fun r h hexpr => (hroot r h hexpr).imp_left World.inside_everything) hrun
    exact ⟨iff_of_false hv fun h => hkey h.1, fun h => absurd h hkey, fun h => absurd h hkey, fun _ => hv⟩

/-- A world whose arguments stand behind a handle, with another handle to an argument that is missing. -/
def handedWorld : World where
  store := {
    objects := #[[(.str "given", .object 1), (.str "copy", .handle 1)], [(.str "text", .null)], []]
    handles := #[.bound (.mk (.root { key := .global }) [.key "given"]) (some 0),
      .bound (.mk (.root { key := .args }) [.key "missing"]) (some 0)]
    cells := #[{ value := .object 0 }, { value := .null }, { value := .handle 0 }] }
  scopes := #[{ context := 2, args := some 2 }]
  stateCell := 1

theorem handedWorld_selfContained : handedWorld.SelfContained where
  array := fun a v hv => absurd hv (Array.not_mem_empty v)
  object := fun o e he => by
    match o with
    | 0 =>
      have hentries : ∀ e ∈ [(Key.str "given", Value.object 1), (.str "copy", .handle 1)], handedWorld.Refs e.2 :=
        List.forall_mem_cons.mpr ⟨show 1 < 3 by decide, List.forall_mem_singleton.mpr Nat.one_lt_two⟩
      exact hentries e he
    | 1 =>
      cases List.mem_singleton.mp he
      trivial
    | 2 => cases he
    | o + 3 => cases he
  cell := fun c => by
    match c with
    | 0 => exact Nat.zero_lt_succ 2
    | 1 => trivial
    | 2 => exact Nat.zero_lt_two
    | c + 3 => trivial
  global := Nat.zero_lt_succ 2
  state := show 1 < 3 by decide
  parent := fun s hs p hp => by
    cases Nat.lt_one_iff.mp hs
    cases hp
  context := fun s hs => by
    cases Nat.lt_one_iff.mp hs
    exact Nat.lt_succ_self 2
  component := fun s hs c hc => by
    cases Nat.lt_one_iff.mp hs
    cases hc
  args := fun s hs c hc => by
    cases Nat.lt_one_iff.mp hs
    cases hc
    exact Nat.lt_succ_self 2
  localData := fun s hs => by
    cases Nat.lt_one_iff.mp hs
    trivial
  bound := fun h hh p s hp => by
    match h with
    | 0 | 1 =>
      cases hp
      exact ⟨Nat.zero_lt_one, fun r hr => by cases hr; trivial⟩
    | h + 2 => exact absurd hh (by simp [handedWorld])
  rooted := fun h hh c p hp => by
    match h with
    | 0 | 1 => cases hp
    | h + 2 => exact absurd hh (by simp [handedWorld])
  readOnly := fun h hh i hi => by
    match h with
    | 0 | 1 => cases hi
    | h + 2 => exact absurd hh (by simp [handedWorld])

theorem handedWorld_present : handedWorld.Present where
  array := fun a => Array.not_mem_empty _
  object := fun o e he => by
    match o with
    | 0 =>
      have hentries : ∀ e ∈ [(Key.str "given", Value.object 1), (.str "copy", .handle 1)], e.2 ≠ .absent := by simp
      exact hentries e he
    | 1 =>
      cases List.mem_singleton.mp he
      exact nofun
    | 2 => cases he
    | o + 3 => cases he
  cell := fun c => by
    match c with
    | 0 | 1 | 2 => exact nofun
    | c + 3 => exact nofun

/-- An argument that is missing behind a handle is absent; below a handle to it there is null. -/
theorem handed_argument_is_missing :
    let missing : Path := .mk (.root { key := .args }) [.key "missing"]
    let below : Path := .mk (.root { key := .global }) [.key "copy", .key "text"]
    (full .plain).resolvePath missing (some 0) handedWorld = .ok .absent handedWorld ∧
      (full .plain).LacksArgument handedWorld 0 "missing" ∧
      (full .plain).resolvePath below (some 0) handedWorld = .ok .null handedWorld := by
  intro missing below
  have hs : ∀ s, some 0 = some s → s < handedWorld.scopes.size := fun s h => by cases h; exact Nat.zero_lt_one
  have hrun : (full .plain).resolvePath missing (some 0) handedWorld = .ok .absent handedWorld := rfl
  obtain ⟨habsent, -⟩ := absent_iff_missing_argument Embedding.plain_along handedWorld_selfContained handedWorld_present
    (p := missing) rfl hs (fun r hr hexpr => by cases hr; cases hexpr) hrun
  obtain ⟨-, s, k, hscope, hrest, hlacks⟩ := habsent.mp rfl
  cases hscope
  cases hrest
  exact ⟨hrun, hlacks, rfl⟩

end Engine

end EventScript
