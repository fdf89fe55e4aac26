import EventScript.Proofs.ConcretePaths
import EventScript.Proofs.DataWorlds

/-!
# Paths in worlds of data

A path that a text spells has keys and indices alone after its root. In a world of data it meets no handle, so that
following it and writing through it are plain walks: they fail with faults of the language alone, or because an index is
too long to be told of, and what is written stays data.
-/

namespace EventScript

open World
open Exec (Works)

/-- A fault that a path leads to: one of the language itself, or a whole number that is too long where the path is read
or told of. -/
def Fault.OfPath (f : Fault) : Prop := f.isOwn = true ∨ ∃ cause, f = .digits cause

theorem Fault.refusal_ofPath (cause : Unresolved) : (refusal cause).OfPath := by
  rcases refusal_cases cause with h | h
  · exact .inl (by rw [h]; rfl)
  · exact .inr ⟨_, h⟩

theorem Path.failWith_ofPath (p : Path) (cause : String → Unresolved) :
    ∃ f : Fault, (p.failWith cause : Exec PUnit) = throw f ∧ f.OfPath := by
  unfold failWith
  cases p.spell with
  | ok text => exact ⟨_, rfl, Fault.refusal_ofPath _⟩
  | error e => exact ⟨_, rfl, .inr ⟨e, rfl⟩⟩

namespace Exec.Works

variable {α : Type} {w : World} {P : World → α → Prop}

theorem fail (hw : w.OfData) (cause : Unresolved) : Works w Fault.OfPath (Exec.fail cause : Exec α) P :=
  throw hw (Fault.refusal_ofPath cause)

end Exec.Works

/-- What a path can lead to in a world of data: data, a missing argument, or the context of a scope. -/
def World.Readable (w : World) (v : Value) : Prop :=
  w.IsData v ∨ v = .absent ∨ ∃ c, v = .context c ∧ c < w.store.views.size ∧ w.store.view c < w.scopes.size

/-- A path as texts spell it: a root with no value beside it, then keys and indices. -/
def Path.Plain (p : Path) : Prop :=
  ∃ r parts, p = .mk (.root r) parts ∧ r.value = .null ∧ ∀ q ∈ parts, (∃ k, q = .key k) ∨ ∃ i, q = .index i

variable {w : World} {v : Value} {s : ScopeId}

theorem World.Readable.not_handle (h : w.Readable v) (x : HandleId) : v ≠ .handle x := by
  rcases h with h | rfl | ⟨c, rfl, -⟩
  · exact h.not_handle x
  · simp
  · simp

/-! ### Roots -/

namespace World.OfData

variable (hw : w.OfData) (hs : s < w.scopes.size)
include hw hs

theorem componentCell? : w.componentCell? s = none := by
  unfold World.componentCell?
  rw [hw.chain hs, List.findSome?_singleton, (hw.scope s hs).component]

theorem argsCell? : w.argsCell? s = none := by
  unfold World.argsCell?
  rw [hw.chain hs, List.findSome?_singleton, (hw.scope s hs).args]

theorem localIn (caret : Nat) : w.localIn caret (w.chain s) = .null := by
  rw [hw.chain hs]
  simp [World.localIn, (hw.scope s hs).localData]

end World.OfData

namespace Exec

/-- A root that can be written to holds data. -/
theorem writableRoot_works (hw : w.OfData) (hs : s < w.scopes.size) {key : RootKey} (hk : key.isWritable = true)
    (caret : Nat) : Works w Fault.OfPath (rootValue s key caret) IsData := by
  unfold rootValue
  refine .getBind ?_
  cases key with
  | global | data | state => exact .pure hw (hw.cell _)
  | component | c =>
    dsimp only
    rw [hw.componentCell? hs]
    exact .pure hw trivial
  | args =>
    dsimp only
    rw [hw.argsCell? hs]
    exact .pure hw trivial
  | _ => cases hk

theorem rootValue_works (hw : w.OfData) (hs : s < w.scopes.size) (key : RootKey) (caret : Nat) :
    Works w Fault.OfPath (rootValue s key caret) Readable := by
  by_cases hk : key.isWritable = true
  · exact (writableRoot_works hw hs hk caret).mono (fun _ => id) fun _ _ => .inl
  · unfold rootValue
    refine .getBind ?_
    cases key with
    | «local» =>
      dsimp only
      rw [hw.localIn hs]
      exact .pure hw (.inl trivial)
    | null => exact .pure hw (.inl trivial)
    | context =>
      dsimp only
      rw [hw.caretScopeFrom hs]
      have he : w.Extends { w with store := (w.store.newView s).2 } :=
        ⟨Nat.le_refl _, Nat.le_refl _, Nat.le_refl _⟩
      refine .ok rfl he (hw.changed he rfl (fun _ => .inl rfl) (fun _ => .inl rfl) fun _ => .inl rfl)
        (.inr (.inr ⟨_, rfl, ?_, ?_⟩))
      · simp [Store.newView]
      · change (w.store.views.push s).getD w.store.views.size 0 < w.scopes.size
        rw [getD_push_size]
        exact hs
    | currentContext =>
      dsimp only
      rw [hw.caretScopeFrom hs]
      exact .pure hw (.inl (hw.scope s hs).context)
    | expr => exact .fail hw _
    | _ => exact absurd rfl hk

/-- Only the roots that all scopes share can be replaced. -/
theorem setRootValue_works (hw : w.OfData) (hs : s < w.scopes.size) (key : RootKey) (hv : w.IsData v) :
    Works w Fault.OfPath (setRootValue s key v) fun _ _ => True := by
  unfold setRootValue
  refine .getBind ?_
  cases key with
  | global | data | state => exact .setCell hw _ hv
  | component | c =>
    dsimp only
    rw [hw.componentCell? hs]
    exact .fail hw _
  | args =>
    dsimp only
    rw [hw.argsCell? hs]
    exact .fail hw _
  | _ => exact .fail hw _

end Exec

namespace Path

/-! ### Following -/

theorem stepIndex_works (hw : w.OfData) (read : HandleId → Exec Value) (limits : Limits) (hv : w.Readable v) (i : Int) :
    Works w Fault.OfPath (stepIndex read limits v i) Readable := by
  unfold stepIndex
  rw [follow_of_not_handle read _ v hv.not_handle]
  cases v with
  | null | absent => exact .pure hw (.inl trivial)
  | array a => exact .guard hw (Fault.refusal_ofPath _) fun _ => .storeBind (.pure hw (.inl (hw.element a _)))
  | _ =>
    simp only [pure_bind]
    split
    · exact .pure hw (.inl trivial)
    · exact .fail hw _

theorem stepKey_works (hw : w.OfData) (read : HandleId → Exec Value) (limits : Limits) (hv : w.Readable v)
    (key : String) (markAbsent : Bool) : Works w Fault.OfPath (stepKey read limits v key markAbsent) Readable := by
  have hmissing : w.Readable (if markAbsent then .absent else .null) := by
    cases markAbsent
    · exact .inl trivial
    · exact .inr (.inl rfl)
  have hentry : w.Readable ((w.valueAt? v (.str key)).getD (if markAbsent then .absent else .null)) := by
    cases h : w.valueAt? v (.str key) with
    | none => exact hmissing
    | some x => exact .inl (hw.valueAt h)
  unfold stepKey
  rw [follow_of_not_handle read _ v hv.not_handle]
  cases v with
  | null | absent => exact .pure hw hmissing
  | object | context => exact .getBind (.pure hw hentry)
  | foreign f => exact .pure hw (.inl trivial)
  | bool | num | str | array => exact .fail hw _
  | _ => rcases hv with hv | hv | ⟨c, hv, -⟩ <;> cases hv

theorem walk_works (read : HandleId → Exec Value) (limits : Limits) (text : String) (hw : w.OfData) (markAbsent : Bool)
    {parts : List Part} (hp : ∀ q ∈ parts, (∃ k, q = .key k) ∨ ∃ i, q = .index i) (hv : w.Readable v) :
    Works w Fault.OfPath (walk read limits text markAbsent parts v) Readable := by
  induction parts generalizing w markAbsent v with
  | nil => exact .pure hw hv
  | cons part rest ih =>
    obtain ⟨hpart, hrest⟩ := List.forall_mem_cons.mp hp
    unfold walk
    rcases hpart with ⟨k, rfl⟩ | ⟨i, rfl⟩
    · exact .bind (stepKey_works hw read limits hv k markAbsent) fun _ _ _ hw' hu => ih hw' false hrest hu
    · exact .bind (stepIndex_works hw read limits hv i) fun _ _ _ hw' hu => ih hw' false hrest hu

/-! ### Writing -/

theorem stored_works (hw : w.OfData) (read : HandleId → Exec Value) (limits : Limits) (op : WriteOp) (hv : w.IsData v) :
    Works w Fault.OfPath (stored read limits op v) IsData := by
  have hnull : v.orNull = v := by
    cases v with
    | absent => exact hv.elim
    | _ => rfl
  unfold stored
  rw [follow_of_not_handle read _ v hv.not_handle]
  cases op with
  | setRaw => exact .pure hw hv
  | _ =>
    refine .pure hw ?_
    rwa [hnull]

variable {limits : Limits} {cur : Value}

theorem appendValue_works (hw : w.OfData) (hc : w.IsData cur) (hv : w.IsData v) :
    Works w Fault.OfPath (appendValue limits cur v) IsData := by
  have hnew : Works w Fault.OfPath (Exec.newArray #[v]) IsData := .newArray hw (by simpa using hv)
  unfold appendValue
  cases cur with
  | null | absent => exact hnew
  | array a =>
    refine .storeBind (.guard hw (Fault.refusal_ofPath _) fun _ => ?_)
    refine .bind (.setArray hw (a := a) ((w.store.array a).push v) (fun u hu => ?_) rfl)
      fun w' _ he hw' _ => .pure hw' (hc.later he)
    rcases Array.mem_push.mp hu with hu | rfl
    · exact hw.array a u hu
    · exact hv
  | str s => cases v <;> first | exact .pure hw trivial | exact .fail hw _
  | _ => exact .fail hw _

theorem appendElements_works (hw : w.OfData) (hc : w.IsData cur) (hv : w.IsData v) :
    Works w Fault.OfPath (appendElements limits cur v) IsData := by
  unfold appendElements
  cases v with
  | array b =>
    cases cur with
    | null | absent => exact .pure hw hv
    | array a =>
      refine .storeBind (.storeBind (.guard hw (Fault.refusal_ofPath _) fun _ => ?_))
      refine .bind (.setArray hw (a := a) (w.store.array a ++ w.store.array b) (fun u hu => ?_) rfl)
        fun w' _ he hw' _ => .pure hw' (hc.later he)
      rcases Array.mem_append.mp hu with hu | hu
      · exact hw.array a u hu
      · exact hw.array b u hu
    | _ => exact .fail hw _
  | _ => exact .pure hw hc

theorem extendBlob_works (hw : w.OfData) (hc : w.IsData cur) : Works w Fault.OfPath (extendBlob cur v) IsData := by
  unfold extendBlob
  cases cur with
  | blob b => exact hc.elim
  | _ => exact .fail hw _

theorem applyOp_works (hw : w.OfData) (h : HandleAccess) (op : WriteOp) (hc : w.IsData cur) (hv : w.IsData v) :
    Works w Fault.OfPath (applyOp h limits op cur v) IsData := by
  have hstored (op : WriteOp) := stored_works hw h.read limits op hv
  unfold applyOp
  cases cur with
  | handle x => exact hc.elim
  | _ =>
    cases op with
    | set | setRaw => exact hstored _
    | setUnless =>
      dsimp only
      split
      · exact hstored _
      · exact .pure hw hc
    | append => exact .bind (hstored _) fun _ _ he hw' hu => appendValue_works hw' (hc.later he) hu
    | appendArray => exact .bind (hstored _) fun _ _ he hw' hu => appendElements_works hw' (hc.later he) hu
    | blobExtend => exact .bind (hstored _) fun _ _ he hw' _ => extendBlob_works hw' (hc.later he)

section Inner

variable {inner : Value → Exec Value}
  (hi : ∀ (w' : World) (u : Value), w.Extends w' → w'.OfData → w'.IsData u → Works w' Fault.OfPath (inner u) IsData)
include hi

theorem writeIndex_works (hw : w.OfData) (i : Int) (hc : w.IsData cur) :
    Works w Fault.OfPath (writeIndex limits i cur inner) IsData := by
  unfold writeIndex
  refine .guard hw (Fault.refusal_ofPath _) fun _ => ?_
  refine .choose (fun _ => .newArray hw (by simp)) (fun _ => .pure hw hc) fun w₁ cur he hw₁ hc => ?_
  cases cur with
  | array a =>
    have hpad : Works w₁ Fault.OfPath (modify fun w =>
        let xs := w.store.array a
        if xs.size ≤ i.toNat then { w with store := w.store.setArray a (extendTo xs i.toNat) } else w)
        fun _ _ => True := by
      by_cases hsize : (w₁.store.array a).size ≤ i.toNat
      · refine .setArray hw₁ _ (fun u hu => ?_) (if_pos hsize)
        rcases Array.mem_append.mp hu with hu | hu
        · exact hw₁.array a u hu
        · rw [(Array.mem_replicate.mp hu).2]
          trivial
      · exact .modified (by dsimp only; rw [if_neg hsize]; exact .refl w₁) (by dsimp only; rwa [if_neg hsize])
    refine .bind hpad fun w₂ _ he₂ hw₂ _ => .storeBind ?_
    refine .bind (hi w₂ _ (he.trans he₂) hw₂ (hw₂.element a _)) fun w₃ new he₃ hw₃ hnew => ?_
    refine .bind (.setArray hw₃ _ (fun u hu => ?_) rfl) fun w₄ _ he₄ hw₄ _ =>
      .pure hw₄ (((hc.later he₂).later he₃).later he₄)
    rcases Array.mem_or_eq_of_mem_setIfInBounds hu with hu | rfl
    · exact hw₃.array a u hu
    · exact hnew
  | _ => exact .fail hw₁ _

theorem writeKey_works (hw : w.OfData) (k : String) (hc : w.IsData cur) :
    Works w Fault.OfPath (writeKey k cur inner) IsData := by
  unfold writeKey
  refine .choose (fun _ => .newObject hw .nil (by simp)) (fun _ => .pure hw hc)
    fun w₁ cur he hw₁ hc => .guard hw₁ (Fault.refusal_ofPath _) fun _ => .getBind ?_
  refine .bind (hi w₁ _ he hw₁ (.getD fun u hu => hw₁.valueAt hu)) fun w₂ new he₂ hw₂ hnew => .getBind ?_
  dsimp only
  split
  · exact .bind (.setEntry hw₂ cur (.str k) hnew) fun w₃ _ he₃ hw₃ _ => .pure hw₃ ((hc.later he₂).later he₃)
  · exact .pure hw₂ (hc.later he₂)

end Inner

/-- What a write along keys and indices puts in the place of data is data. -/
theorem writeParts_works (h : HandleAccess) (text : String) (op : WriteOp) {parts : List Part}
    (hp : ∀ q ∈ parts, (∃ k, q = .key k) ∨ ∃ i, q = .index i) (hw : w.OfData) (hv : w.IsData v) (hc : w.IsData cur) :
    Works w Fault.OfPath (writeParts h limits text op v parts cur) IsData := by
  induction parts generalizing w cur with
  | nil => exact applyOp_works hw h op hc hv
  | cons part rest ih =>
    obtain ⟨hpart, hrest⟩ := List.forall_mem_cons.mp hp
    have hinner (w' : World) (u : Value) (he : w.Extends w') (hw' : w'.OfData) (hu : w'.IsData u) :
        Works w' Fault.OfPath (writeParts h limits text op v rest u) IsData := ih hrest hw' (hv.later he) hu
    have hinto : Works w Fault.OfPath (writeInto limits text part cur (writeParts h limits text op v rest)) IsData := by
      rcases hpart with ⟨k, rfl⟩ | ⟨i, rfl⟩
      · exact writeKey_works hinner hw k hc
      · exact writeIndex_works hinner hw i hc
    unfold writeParts
    cases cur with
    | handle x => exact hc.elim
    | _ => exact hinto

/-! ### Paths that texts spell -/

theorem read_plain {text : String} {p : Path} (h : Path.read text = .ok p) : p.Plain :=
  read_forall (fun k => .inl ⟨k, rfl⟩) (fun i => .inr ⟨i, rfl⟩) h

theorem parse_plain {text : String} {p : Path} (h : Path.parse text = .ok p) : p.Plain := by
  obtain ⟨_, -, h⟩ := except_bind_eq_ok h
  exact read_plain (mapError_eq_ok h)

theorem parse_ofPath {text : String} {f : Fault} (h : Path.parse text = .error f) : f.OfPath := by
  rcases except_bind_eq_error h with h | ⟨_, -, h⟩
  · obtain ⟨e, rfl⟩ := mapError_eq_error h
    exact .inr ⟨e, rfl⟩
  · obtain ⟨e, rfl⟩ := mapError_eq_error h
    exact .inl rfl

theorem parseTarget_plain {text : String} {op : WriteOp} {p : Path} (h : parseTarget text = .ok (op, p)) :
    p.Plain := by
  unfold parseTarget at h
  split at h
  · obtain ⟨op', -, h⟩ := except_bind_eq_ok h
    obtain ⟨q, hq, h⟩ := except_bind_eq_ok h
    cases h
    exact parse_plain hq
  · obtain ⟨q, hq, h⟩ := except_bind_eq_ok h
    cases h
    exact parse_plain hq

theorem parseTarget_ofPath {text : String} {f : Fault} (h : parseTarget text = .error f) : f.OfPath := by
  unfold parseTarget at h
  split at h
  · rcases except_bind_eq_error h with h | ⟨_, -, h⟩
    · obtain ⟨e, rfl⟩ := mapError_eq_error h
      exact .inl rfl
    · rcases except_bind_eq_error h with h | ⟨_, -, h⟩
      · exact parse_ofPath h
      · cases h
  · rcases except_bind_eq_error h with h | ⟨_, -, h⟩
    · exact parse_ofPath h
    · cases h

theorem Plain.isStatic {p : Path} (hp : p.Plain) : p.isStatic = true := by
  obtain ⟨r, parts, rfl, -, hparts⟩ := hp
  rw [isStatic_root, List.all_eq_true]
  intro q hq
  rcases hparts q hq with ⟨k, rfl⟩ | ⟨i, rfl⟩ <;> rfl

end Path

namespace Engine

open EventScript.Path

variable {p : Path} (g : Engine)

theorem resolvePath_works (hw : w.OfData) (hs : s < w.scopes.size) (hp : p.Plain) :
    Works w Fault.OfPath (g.resolvePath p (some s)) Readable := by
  have hrun := resolvePath_static (g := g) hp.isStatic (some s) w
  obtain ⟨r, parts, rfl, hr, hparts⟩ := hp
  have hroot : Works w Fault.OfPath (rootOf r (some s)) Readable := by
    unfold rootOf
    split
    · rw [hr]
      exact .pure hw (.inl trivial)
    · exact .pure hw (.inl trivial)
    · exact Exec.rootValue_works hw hs _ _
  have hfollow : Works w Fault.OfPath (followStatic g.access.read w.limits (.mk (.root r) parts) (some s)) Readable :=
    .bind hroot fun _ _ _ hw' hu => walk_works _ _ _ hw' _ hparts hu
  unfold Works
  rwa [hrun]

theorem writePath_works (hw : w.OfData) (hs : s < w.scopes.size) (hp : p.Plain) (hv : w.IsData v) (op : WriteOp) :
    Works w Fault.OfPath (g.writePath p s v op false) fun _ _ => True := by
  have hrun := writePath_static (g := g) hp.isStatic s v op false w
  obtain ⟨r, parts, rfl, -, hparts⟩ := hp
  have hwrite : Works w Fault.OfPath (writeStatic g.access w.limits (.mk (.root r) parts) s v op false)
      fun _ _ => True := by
    unfold writeStatic
    obtain ⟨f, hfail, hf⟩ := (Path.mk (.root r) parts).failWith_ofPath (.notWritable · r.key.name false)
    obtain ⟨f', hfail', hf'⟩ := (Path.mk (.root r) parts).failWith_ofPath (.notReplaceable r.key.name)
    dsimp only [root?]
    rw [hfail, hfail']
    refine .guard hw hf fun hk => .guard hw hf' fun _ => ?_
    have hk : r.key.isWritable = true := by simpa using hk
    refine .bind (Exec.writableRoot_works hw hs hk _) fun w₁ cur he hw₁ hc => ?_
    refine .bind (writeParts_works g.access _ op hparts hw₁ (hv.later he) hc) fun w₂ updated he₂ hw₂ hu => ?_
    split
    · exact Exec.setRootValue_works hw₂ (Nat.lt_of_lt_of_le hs (he.trans he₂).scopes) _ hu
    · exact .pure hw₂ trivial
  unfold Works
  rwa [hrun]

end Engine

end EventScript
