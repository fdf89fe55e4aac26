import EventScript.Access
import EventScript.Proofs.ReadAfterWrite

/-!
# Writes that fail

A write makes room in the arrays on its way before it knows that it will work, and puts nothing in its place until
then. So all that a write leaves behind that fails is room: arrays that have become longer by nulls.
-/

namespace EventScript

namespace World

/-- All places stay and hold what they held, but for arrays that have become longer by nulls. -/
structure Lengthens (w w' : World) : Prop where
  has : ∀ x, w.Has x → w'.Has x
  array : ∀ a, w.Has (.array a) → ∃ n, w'.store.array a = w.store.array a ++ Array.replicate n .null
  same : ∀ x, w.Has x → (∀ a, x ≠ .array a) → w.SameAt w' x
  views : w.store.views.toList <+: w'.store.views.toList
  scopes : w.scopes.toList <+: w'.scopes.toList
  globalCell : w'.globalCell = w.globalCell
  stateCell : w'.stateCell = w.stateCell

variable {w w' m : World}

theorem Spares.lengthens (h : w.Spares (fun _ => True) w') : w.Lengthens w' where
  has x hx := (h.place x trivial hx).1
  array a ha := ⟨0, by
    rw [Array.replicate_zero, Array.append_empty]
    exact (h.place (.array a) trivial ha).2⟩
  same x hx _ := (h.place x trivial hx).2
  views := h.views
  scopes := h.scopes
  globalCell := h.globalCell
  stateCell := h.stateCell

theorem Padded.lengthens (h : w.Padded m) : w.Lengthens m where
  has _ := h.has
  array a _ := h.array a
  same x hx hn := by
    cases x with
    | array a => exact absurd rfl (hn a)
    | object o => exact h.object o
    | blob b => rw [h.rest]; rfl
    | cell c => rw [h.rest]; rfl
  views := by
    have hv : m.store.views = w.store.views := by rw [h.rest]
    simp only [hv, List.prefix_rfl]
  scopes := by
    have hs : m.scopes = w.scopes := by rw [h.rest]
    simp only [hs, List.prefix_rfl]
  globalCell := by rw [h.rest]
  stateCell := by rw [h.rest]

instance : Tolerates Lengthens where
  trans {a b c} h k := {
    has := fun x hx => k.has x (h.has x hx)
    array := fun i hi => by
      obtain ⟨n, hn⟩ := h.array i hi
      obtain ⟨n', hn'⟩ := k.array i (h.has _ hi)
      exact ⟨n + n', by rw [hn', hn, Array.append_assoc, Array.replicate_append_replicate]⟩
    same := fun x hx hn => (h.same x hx hn).trans (k.same x (h.has x hx) hn)
    views := h.views.trans k.views
    scopes := h.scopes.trans k.scopes
    globalCell := k.globalCell.trans h.globalCell
    stateCell := k.stateCell.trans h.stateCell }
  grown h := (Tolerates.grown h : Spares _ _ _).lengthens

theorem Lengthens.trans {w'' : World} (h : w.Lengthens w') (k : w'.Lengthens w'') : w.Lengthens w'' :=
  Tolerates.trans h k

/-- From null on, there is nothing that a write could change. -/
theorem avoids_of_isNull {v : Value} (h : v.isNull = true) (R : Place → Prop) (op : WriteOp) (parts : List Part) :
    w.Avoids R op parts v := by
  have plain {y : Value} (hy : y.isNull = true) : w.Apart R y ∧ w.ApartAtEnd R op y := by
    cases y with
    | null => exact ⟨nofun, nofun, nofun⟩
    | absent => exact ⟨nofun, nofun, nofun⟩
    | _ => cases hy
  cases parts with
  | nil => exact ⟨nofun, (plain h).2⟩
  | cons part rest =>
    unfold Avoids passed target
    rw [next_of_isNull w h, target_null]
    refine ⟨fun y hy => ?_, (plain rfl).2⟩
    rcases List.mem_cons.mp hy with rfl | hy
    · exact (plain h).1
    · rw [w.passed_null rest y hy]
      exact (plain rfl).1

end World

namespace Exec

variable {α β : Type} {rel : World → World → Prop}

/-- Whatever world a computation fails in, the one it leaves behind is related to it. -/
def FailsAlong (rel : World → World → Prop) (x : Exec α) : Prop := ∀ w e w', x w = .error e w' → rel w w'

theorem Along.failsAlong {x : Exec α} (h : x.Along rel) : x.FailsAlong rel := by
  intro w e w' hrun
  have hw := h w
  rwa [after_error hrun] at hw

namespace FailsAlong

theorem bind [World.Tolerates rel] {x : Exec α} {f : α → Exec β} (hx : x.Along rel) (hf : ∀ a, (f a).FailsAlong rel) :
    (x >>= f).FailsAlong rel := by
  intro w e w' hrun
  have hw := hx w
  cases h : x w with
  | ok a w₁ =>
    rw [after_ok h] at hw
    rw [bind_ok h] at hrun
    exact World.Tolerates.trans hw (hf a w₁ e w' hrun)
  | error e₁ w₁ =>
    rw [after_error h] at hw
    rw [bind_error h] at hrun
    cases hrun
    exact hw

theorem guard [World.Tolerates rel] {c : Prop} [Decidable c] {x : Exec β} {y : Exec α}
    (hx : ∃ f, x = MonadExcept.throw f) (hy : ¬c → y.FailsAlong rel) :
    (if c then x >>= fun _ => y else y).FailsAlong rel := by
  split
  · obtain ⟨f, rfl⟩ := hx
    intro w e w' hrun
    cases hrun
    exact World.Tolerates.refl w
  · rename_i hc
    exact hy hc

theorem never {x : Exec α} (h : ∀ w, ∃ a w', x w = .ok a w') : x.FailsAlong rel := by
  intro w e w' hrun
  obtain ⟨a, w₁, hok⟩ := h w
  rw [hok] at hrun
  cases hrun

theorem followed {x : Exec α} {f : α → Exec β} (hx : x.FailsAlong rel) (hf : ∀ a w, ∃ b w', f a w = .ok b w') :
    (x >>= f).FailsAlong rel := by
  intro w e w' hrun
  cases h : x w with
  | ok a w₁ =>
    obtain ⟨b, w₂, hok⟩ := hf a w₁
    rw [bind_ok h, hok] at hrun
    cases hrun
  | error e₁ w₁ =>
    rw [bind_error h] at hrun
    cases hrun
    exact hx w e w' h

end FailsAlong

end Exec

namespace Path

open World (Lengthens)

open Exec in
theorem appendValue_fails (limits : Limits) (cur v : Value) : (appendValue limits cur v).FailsAlong Lengthens := by
  unfold appendValue
  split
  · exact Along.failsAlong (.newArray _)
  · exact Along.failsAlong (.newArray _)
  · refine .bind .store fun s => .guard ⟨_, rfl⟩ fun _ => .never fun w => ⟨_, _, rfl⟩
  · exact Along.failsAlong (.pure _)
  · exact Along.failsAlong (.pure _)
  · exact Along.failsAlong (.fail _)

open Exec in
theorem appendElements_fails (limits : Limits) (cur v : Value) :
    (appendElements limits cur v).FailsAlong Lengthens := by
  unfold appendElements
  split
  · exact Along.failsAlong (.pure _)
  · exact Along.failsAlong (.pure _)
  · exact .bind .store fun s => .bind .store fun s => .guard ⟨_, rfl⟩ fun _ => .never fun w => ⟨_, _, rfl⟩
  · exact Along.failsAlong (.fail _)
  · exact Along.failsAlong (.pure _)

open Exec in
theorem extendBlob_fails (cur v : Value) : (extendBlob cur v).FailsAlong Lengthens := by
  unfold extendBlob
  split
  · exact .never fun w => ⟨_, _, rfl⟩
  · exact Along.failsAlong (.fail _)
  · exact Along.failsAlong (.fail _)

section Access

variable {h : HandleAccess} (hr : ∀ x, (h.read x).Along World.Grown) (hw : ∀ x v, (h.write x v).FailsAlong Lengthens)
include hr hw

/-- An operation that fails changes nothing, unless a handle at the end of the path led it further. -/
theorem applyOp_fails (limits : Limits) (op : WriteOp) (cur v : Value) :
    (applyOp h limits op cur v).FailsAlong Lengthens := by
  have hs (op : WriteOp) : (stored h.read limits op v).Along Lengthens :=
    stored_along (fun x => .of_grown (hr x)) limits op v
  by_cases hh : ∃ x, cur = .handle x
  · obtain ⟨x, rfl⟩ := hh
    unfold applyOp
    refine .bind .store fun s => ?_
    split
    · exact Exec.Along.failsAlong (.pure _)
    · split
      · exact .bind (hs op) fun v => .followed (hw x v) fun _ w => ⟨_, w, rfl⟩
      · exact Exec.Along.failsAlong (.fail _)
  · rw [applyOp_eq h limits op v fun x hx => hh ⟨x, hx⟩]
    cases op with
    | set => exact (hs _).failsAlong
    | setRaw => exact (hs _).failsAlong
    | setUnless =>
      dsimp only
      split
      · exact (hs _).failsAlong
      · exact Exec.Along.failsAlong (.pure _)
    | append => exact .bind (hs _) (appendValue_fails limits cur)
    | appendArray => exact .bind (hs _) (appendElements_fails limits cur)
    | blobExtend => exact .bind (hs _) (extendBlob_fails cur)

omit hr hw in
theorem writeInto_fails (limits : Limits) (text : String) (part : Part) (cur : Value) {inner : Value → Exec Value}
    (hi : ∀ v, (inner v).FailsAlong Lengthens) : (writeInto limits text part cur inner).FailsAlong Lengthens := by
  intro w e w' hrun
  rcases writeInto_run limits text part cur w with ⟨-, e₀, he⟩ | ⟨-, v, m, ho, hstep⟩
  · rw [he] at hrun
    cases hrun
    exact World.Tolerates.refl w
  · rw [hstep] at hrun
    cases h : inner (w.next cur part) m with
    | ok new w₁ =>
      rw [h] at hrun
      cases hrun
    | error e₁ w₁ =>
      rw [h] at hrun
      cases hrun
      exact ho.padded.lengthens.trans (hi _ m e w' h)

omit hr hw in
/-- Only null is replaced by a write below it. -/
theorem writeInto_eq_or_null {limits : Limits} {text : String} {part : Part} {cur new : Value}
    {inner : Value → Exec Value} {w w' : World} (hrun : writeInto limits text part cur inner w = .ok new w') :
    new = cur ∨ cur.isNull = true := by
  rcases writeInto_run limits text part cur w with ⟨-, e, he⟩ | ⟨-, v, m, ho, hstep⟩
  · rw [he] at hrun
    cases hrun
  · rw [hstep] at hrun
    cases h : inner (w.next cur part) m with
    | ok new₁ w₁ =>
      rw [h] at hrun
      cases hrun
      by_cases hn : cur.isNull = true
      · exact .inr hn
      · exact .inl (ho.same (by simpa using hn))
    | error e w₁ =>
      rw [h] at hrun
      cases hrun

omit hw in
/-- A write below null changes only what it makes. -/
theorem writeInto_null (limits : Limits) (text : String) (op : WriteOp) (v : Value) (part : Part) (rest : List Part)
    {cur : Value} (hn : cur.isNull = true) (w : World) :
    w.Lengthens ((writeInto limits text part cur (writeParts h limits text op v rest)).after w) := by
  have hh : ∀ x, cur ≠ .handle x := by
    rintro x rfl
    cases hn
  rw [← writeParts_cons h limits text op v part rest hh]
  exact (writeParts_spares (fun x => .of_grown (hr x)) limits text v
    (World.avoids_of_isNull hn _ op (part :: rest))).lengthens

/-- A write below a value that fails leaves nothing behind but room. -/
theorem writeParts_fails (limits : Limits) (text : String) (op : WriteOp) (v : Value) (parts : List Part)
    (cur : Value) : (writeParts h limits text op v parts cur).FailsAlong Lengthens := by
  induction parts generalizing cur with
  | nil => exact applyOp_fails hr hw limits op cur v
  | cons part rest ih =>
    by_cases hh : ∃ x, cur = .handle x
    · obtain ⟨x, rfl⟩ := hh
      unfold writeParts
      refine .bind .store fun s => ?_
      dsimp only
      split
      · exact Exec.Along.failsAlong (.pure _)
      refine .bind (follow_along (fun x => .of_grown (hr x)) _ _) fun inner => ?_
      intro w e w' hrun
      cases hi : writeInto limits text part inner (writeParts h limits text op v rest) w with
      | error e₁ w₁ =>
        rw [Exec.bind_error hi] at hrun
        cases hrun
        exact writeInto_fails limits text part inner ih w e w' hi
      | ok updated w₁ =>
        rw [Exec.bind_ok hi] at hrun
        split at hrun
        · -- The handle is written to only if what it led to was null, and then nothing was changed before.
          rename_i hne
          have hnull : inner.isNull = true := (writeInto_eq_or_null hi).resolve_left (by simpa using hne)
          have hw₁ := writeInto_null hr limits text op v part rest hnull w
          rw [Exec.after_ok hi] at hw₁
          have hf : (h.write x updated >>= fun _ => pure (Value.handle x)).FailsAlong Lengthens :=
            .followed (hw x updated) fun _ w => ⟨_, w, rfl⟩
          exact hw₁.trans (hf w₁ e w' hrun)
        · cases hrun
    · rw [writeParts_cons h limits text op v part rest fun x hx => hh ⟨x, hx⟩]
      exact writeInto_fails limits text part cur ih

omit hw in
/-- Only null is replaced by a write below it, and then the write changes only what it makes. -/
theorem writeParts_replaced (limits : Limits) (text : String) (op : WriteOp) (v : Value) (part : Part)
    (rest : List Part) {cur new : Value} {w w' : World}
    (hrun : writeParts h limits text op v (part :: rest) cur w = .ok new w') (hne : new ≠ cur) : w.Lengthens w' := by
  by_cases hh : ∃ x, cur = .handle x
  · obtain ⟨x, rfl⟩ := hh
    refine absurd ?_ hne
    unfold writeParts at hrun
    obtain ⟨s, w₁, hs, hrun⟩ := Exec.bind_eq_ok hrun
    split at hrun
    · cases hrun
      rfl
    · obtain ⟨inner, w₂, -, hrun⟩ := Exec.bind_eq_ok hrun
      obtain ⟨updated, w₃, -, hrun⟩ := Exec.bind_eq_ok hrun
      split at hrun
      · obtain ⟨_, w₄, hx, hrun⟩ := Exec.bind_eq_ok hrun
        cases hrun
        rfl
      · cases hrun
        rfl
  · rw [writeParts_cons h limits text op v part rest fun x hx => hh ⟨x, hx⟩] at hrun
    have hnull : cur.isNull = true := (writeInto_eq_or_null hrun).resolve_left hne
    have hw' := writeInto_null hr limits text op v part rest hnull w
    rwa [Exec.after_ok hrun] at hw'

omit hr hw in
theorem setRootValue_fails (s : ScopeId) (key : RootKey) (v : Value) :
    (Exec.setRootValue s key v).FailsAlong Lengthens := by
  unfold Exec.setRootValue
  refine .bind .get fun w => ?_
  have hcell (c : CellId) : (Exec.setCell c v).FailsAlong Lengthens := .never fun w => ⟨_, _, rfl⟩
  cases key with
  | component | c | args =>
    dsimp only
    split
    · exact hcell _
    · exact Exec.Along.failsAlong (.fail _)
  | global | data | state => exact hcell _
  | _ => exact Exec.Along.failsAlong (.fail _)

omit hr hw in
theorem setRootValue_replaceable {key : RootKey} (hk : key.isReplaceable = true) (s : ScopeId) (v : Value) (w : World) :
    ∃ w', Exec.setRootValue s key v w = .ok () w' := by
  cases key <;> first | exact ⟨_, rfl⟩ | cases hk

theorem writeStatic_fails (limits : Limits) (p : Path) (scope : ScopeId) (v : Value) (op : WriteOp)
    (allowContext : Bool) : (writeStatic h limits p scope v op allowContext).FailsAlong Lengthens := by
  unfold writeStatic
  split
  · exact Exec.Along.failsAlong (.reject _)
  rename_i r hroot
  refine .guard (failWith_eq_throw _ _) fun _ => .guard (failWith_eq_throw _ _) fun hlen =>
    .bind (Exec.rootValue_along _ _ _) fun cur => ?_
  intro w e w' hrun
  cases hp : writeParts h limits p.text op v p.rest cur w with
  | error e₁ w₁ =>
    rw [Exec.bind_error hp] at hrun
    cases hrun
    exact writeParts_fails hr hw limits p.text op v p.rest cur w e w' hp
  | ok updated w₁ =>
    rw [Exec.bind_ok hp] at hrun
    split at hrun
    · rename_i hne
      have hne : updated ≠ cur := by simpa using hne
      cases hrest : p.rest with
      | nil =>
        -- The root itself is replaced, which does not fail where it is allowed.
        have hk : r.key.isReplaceable = true := by simpa [Path.length, hrest] using hlen
        obtain ⟨w₂, hset⟩ := setRootValue_replaceable hk scope updated w₁
        rw [hset] at hrun
        cases hrun
      | cons part rest =>
        rw [hrest] at hp
        have hw₁ := writeParts_replaced hr limits p.text op v part rest hp hne
        exact hw₁.trans (setRootValue_fails scope r.key updated w₁ e w' hrun)
    · cases hrun

theorem writeIn_fails (limits : Limits) (p : Path) (container v : Value) :
    (writeIn h limits p container v).FailsAlong Lengthens := by
  unfold writeIn
  split
  · exact writeParts_fails hr hw limits _ _ v _ container
  · exact writeParts_fails hr hw limits _ _ v _ container
  · exact Exec.Along.failsAlong (failWith_along _ _)

end Access

end Path

namespace Engine

open World (Lengthens)

section Levels

variable {g : Engine} (hg : g.Along World.Grown) (hw : ∀ x v, (g.access.write x v).FailsAlong Lengthens)
include hg hw

theorem writePath_fails (p : Path) (scope : ScopeId) (v : Value) (op : WriteOp) (allowContext : Bool) :
    (g.writePath p scope v op allowContext).FailsAlong Lengthens := by
  refine .bind .get fun w => .bind (.of_grown ?_) fun q => ?_
  · exact Path.concrete_along (evalResolved_along hg) _ _ _
  · exact Path.writeStatic_fails hg.read hw _ q scope v op allowContext

theorem writeHandle_fails (x : HandleId) (v : Value) : (g.writeHandle x v).FailsAlong Lengthens := by
  unfold writeHandle
  refine .bind .store fun s => ?_
  split
  · exact writePath_fails hg hw _ _ _ _ _
  · exact Exec.Along.failsAlong (.throw _)
  · refine .bind .store fun s => .followed (Path.writeIn_fails hg.read hw _ _ _ v) fun updated w => ?_
    split <;> exact ⟨_, _, rfl⟩
  · exact Exec.Along.failsAlong (.pure _)

end Levels

/-- What is given in the place of a failure comes with no more than a line in the log. -/
theorem orElse_ok {α : Type} {what : String} {ctx : Option String} {otherwise a : α} {x : Exec α} {w w' : World}
    (hrun : orElse what ctx otherwise x w = .ok a w') :
    x w = .ok a w' ∨ ∃ e w₁, x w = .error e w₁ ∧ w₁.Grown w' := by
  unfold orElse at hrun
  cases hx : x w with
  | ok b w₁ =>
    rw [Exec.tryCatch_ok hx] at hrun
    exact .inl hrun
  | error e w₁ =>
    rw [Exec.tryCatch_error hx] at hrun
    refine .inr ⟨e, w₁, rfl, ?_⟩
    split at hrun
    · have hlog : w₁.Grown (Exec.after _ w₁) :=
        Exec.Along.log .warning (what ++ " failed" ++ occasion ctx ++ ": " ++ e.message) w₁
      obtain ⟨_, w₂, hrun₁, hrun⟩ := Exec.bind_eq_ok hrun
      rw [Exec.after_ok hrun₁] at hlog
      cases hrun
      exact hlog
    · cases hrun

/-- A computation about a path comes to what it comes to by itself, except that another failure may be told of. -/
theorem logged_run {α : Type} (p : PathSource) (x : Exec α) (w : World) :
    (∀ a w', p.logged x w = .ok a w' → x w = .ok a w') ∧
      ∀ e w', p.logged x w = .error e w' → ∃ e₁, x w = .error e₁ w' := by
  cases p with
  | text | other => exact ⟨fun _ _ h => h, fun e _ h => ⟨e, h⟩⟩
  | path q =>
    cases hx : x w with
    | ok b w₁ =>
      have hrun : (PathSource.path q).logged x w = .ok b w₁ := Exec.tryCatch_ok hx
      rw [hrun]
      exact ⟨fun _ _ h => h, fun e _ h => ⟨e, h⟩⟩
    | error e₁ w₁ =>
      have hrun : ∃ e, (PathSource.path q).logged x w = .error e w₁ := by
        dsimp only [PathSource.logged]
        rw [Exec.tryCatch_error hx]
        unfold Exec.checkWritten
        split <;> exact ⟨_, rfl⟩
      obtain ⟨e, hrun⟩ := hrun
      rw [hrun]
      constructor
      · intro a w' h
        cases h
      · intro e' w' h
        cases h
        exact ⟨e₁, rfl⟩

variable {em : Embedding} (hem : em.Along World.Grown)
include hem

theorem level_writes_fail (n : Nat) (x : HandleId) (v : Value) :
    ((level em n).access.write x v).FailsAlong Lengthens := by
  induction n generalizing x v with
  | zero => exact Exec.Along.failsAlong (.throw _)
  | succ n ih => exact writeHandle_fails (level_along hem n) ih x v

theorem put_fails (p : PathSource) (scope : ScopeId) (v : Value) (op : Option String) (allowContext : Bool) :
    ((full em).put p scope v op allowContext).FailsAlong Lengthens := by
  refine .bind ?_ fun target => ?_
  · unfold PathSource.target
    cases p <;> grind
  · exact writePath_fails (full_along hem) (level_writes_fail hem depth) _ _ _ _ _

/-- A write that fails, be it with a fault or with no more than a line in the log, leaves behind all places with what
they held, except that the arrays on its way may have become longer by nulls. -/
theorem failed_write_leaves_room (p : PathSource) (scope : ScopeId) (v : Value) (op : Option String)
    (allowContext : Bool) (ctx : Option String) (w : World) :
    (∀ e w', (full em).put p scope v op allowContext w = .error e w' → w.Lengthens w') ∧
      ∀ w', (full em).tryPut p scope v op allowContext ctx w = .ok false w' → w.Lengthens w' := by
  refine ⟨put_fails hem p scope v op allowContext w, fun w' hrun => ?_⟩
  rcases orElse_ok hrun with hput | ⟨e, w₁, hput, hgrown⟩
  · obtain ⟨_, w₁, -, htrue⟩ := Exec.bind_eq_ok ((logged_run p _ w).1 _ _ hput)
    cases htrue
  · have hfails : ((full em).put p scope v op allowContext >>= fun _ => pure true).FailsAlong Lengthens :=
      .followed (put_fails hem p scope v op allowContext) fun _ w => ⟨_, w, rfl⟩
    obtain ⟨e₁, hput⟩ := (logged_run p _ w).2 _ _ hput
    exact (hfails w e₁ w₁ hput).trans (World.Tolerates.grown hgrown)

omit hem

/-- Null is no blob, so that this write fails; it has made an array longer before. -/
theorem failed_extension_leaves_room :
    let w : World := {
      store := {
        arrays := #[#[]]
        objects := #[[(.str "a", .array 0)]]
        cells := #[{ value := .object 0 }, { value := .null }] }
      stateCell := 1 }
    let p : PathSource := .path (.mk (.root { key := .global }) [.key "a", .index 3])
    ∃ e w₁ w₂, (full .plain).put p 0 (.str "aGk=") (some "blob-extend") false w = .error e w₁ ∧ w.Lengthens w₁ ∧
      (full .plain).tryPut p 0 (.str "aGk=") (some "blob-extend") false none w = .ok false w₂ ∧ w.Lengthens w₂ := by
  intro w p
  obtain ⟨hput, htry⟩ :=
    failed_write_leaves_room Embedding.plain_along p 0 (.str "aGk=") (some "blob-extend") false none w
  exact ⟨_, _, _, rfl, hput _ _ rfl, rfl, htry _ rfl⟩

/-- Writes that fail do not leave all places as they were. -/
theorem not_failed_write_spares :
    ¬∀ (w w' : World) (p : PathSource) (scope : ScopeId) (v : Value) (op : Option String) (allowContext : Bool)
      (e : Fault), (full .plain).put p scope v op allowContext w = .error e w' → w.Spares (fun _ => True) w' := by
  intro h
  let w : World := {
    store := {
      arrays := #[#[]]
      objects := #[[(.str "a", .array 0)]]
      cells := #[{ value := .object 0 }, { value := .null }] }
    stateCell := 1 }
  have hs := h w _ (.path (.mk (.root { key := .global }) [.key "a", .index 3])) 0 (.str "aGk=") (some "blob-extend")
    false _ rfl
  have hsame : (#[.null, .null, .null, .null] : Array Value) = #[] := (hs.place (.array 0) trivial (by decide)).2
  cases hsame

end Engine

end EventScript
