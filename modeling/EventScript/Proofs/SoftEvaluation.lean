import EventScript.Proofs.SoundWorlds

/-!
# Evaluation fails softly

Evaluation for display has the value of the expression, or null with a warning if this fails softly. Well-formed
expressions in sound worlds fail softly in every case but three. A whole number past the range of floating point
numbers fails the operators, comparisons, ranges and tests that it comes into, and so evaluation for display; a whole
number of too many digits cannot be read or written at all; and an expression can be nested too deep.

The proof goes through the constructs of the language that only a well-formed expression can use safely, from a level of
evaluation to the one above. All others maintain the soundness of the world, as every invariant of this kind.
-/

namespace EventScript

open World (Sound)
open Fault (IsMild IsCalm)

/-! ### Paths -/

theorem Part.WellFormed.of_computes {q : Part} (h : q.WellFormed) {e : Expr} (he : q.Computes e) : e.WellFormed := by
  rcases he with rfl | rfl <;> cases h <;> assumption

namespace Path

/-- After a concrete path has been made from a well-formed one, only keys and indices follow its root. -/
theorem concrete_isSpelled {eval : Evaluate} {limits : Limits} {scope : Option ScopeId} {p q : Path}
    (hp : p.WellFormed) {w w' : World} (h : concrete eval limits scope p w = .ok q w') :
    ∃ r parts, q = .mk (.root r) parts ∧ ∀ x ∈ parts, x.isSpelled = true := by
  have hrest : ∀ x ∈ p.rest, x.WellFormed := by
    cases hp with
    | root r hparts => exact hparts
    | deref _ hparts => exact hparts
  obtain ⟨r, parts, rfl, -, hparts⟩ := concrete_forall (P := fun x => x.isSpelled = true) (fun _ => rfl) (fun _ => rfl)
    (fun x hx hs => by cases hrest x hx <;> first | rfl | cases hs) h
  exact ⟨r, parts, rfl, hparts⟩

theorem WellFormed.of_computes {p : Path} (hp : p.WellFormed) {q : Part} (hq : q ∈ p.parts) {e : Expr}
    (he : q.Computes e) : e.WellFormed := by
  cases hp with
  | root r hparts =>
    rcases List.mem_cons.mp hq with rfl | hq
    · rcases he with he | he <;> cases he
    · exact (hparts q hq).of_computes he
  | deref hhead hparts =>
    rcases List.mem_cons.mp hq with rfl | hq
    · rcases he with he | he <;> cases he
      exact hhead
    · exact (hparts q hq).of_computes he

/-- A well-formed path fails calmly where its expressions do. -/
theorem resolve_calm {eval : Evaluate} {read : HandleId → Exec Value} {scope : Option ScopeId}
    (hr : ∀ h, (read h).Maintains Sound IsCalm) (he : ∀ e, e.WellFormed → (eval e scope).Maintains Sound IsCalm)
    (limits : Limits) {p : Path} (hp : p.WellFormed) : (resolve eval read limits p scope).Maintains Sound IsCalm := by
  have hpath : (concrete eval limits scope p).Maintains Sound IsCalm :=
    concrete_maintains (.inr (.soft rfl)) fun q hq e hc => he e (hp.of_computes hq hc)
  refine .bindOk hpath fun q w w' hq => ?_
  obtain ⟨r, parts, rfl, hparts⟩ := concrete_isSpelled hp hq
  exact .bind (rootOf_maintains r scope) fun v => walk_maintains hr limits _ _ (.inl hparts) v

end Path

/-! ### Engines -/

/-- What the host adds to the language fails with mild faults. -/
structure Embedding.FailsMildly (em : Embedding) : Prop where
  native : ∀ name s v, (em.native name s v).FailsWith IsMild
  function : ∀ name vs, (em.function name vs).FailsWith IsMild

theorem Embedding.plain_failsMildly : Embedding.plain.FailsMildly :=
  ⟨fun _ _ _ => Exec.failsWith_iff.mpr (.foreign rfl), fun _ _ => Exec.failsWith_iff.mpr (.foreign rfl)⟩

/-- In scopes, well-formed expressions and handles fail with faults of evaluation alone. -/
structure Engine.FailsCalmly (g : Engine) : Prop where
  eval : ∀ e, e.WellFormed → ∀ s, (g.eval e (some s)).FailsWith IsCalm
  read : ∀ h, (g.access.read h).FailsWith IsCalm

namespace Engine

section Expressions

variable {g : Engine} (hg : g.FailsCalmly)
include hg

theorem FailsCalmly.handles (h : HandleId) : (g.access.read h).Maintains Sound IsCalm := hg.read h

theorem FailsCalmly.natural {e : Expr} (he : e.WellFormed) (s : ScopeId) : (g.eval e (some s)).Maintains Sound IsCalm :=
  hg.eval e he s

theorem FailsCalmly.resolved {e : Expr} (he : e.WellFormed) (s : ScopeId) :
    (g.evalResolved e (some s)).Maintains Sound IsCalm :=
  evalResolved_maintains hg.handles (hg.natural he s)

theorem FailsCalmly.path {p : Path} (hp : p.WellFormed) (s : ScopeId) :
    (g.resolvePath p (some s)).Maintains Sound IsCalm :=
  .bind .get fun w => Path.resolve_calm hg.handles (fun _ he => hg.resolved he s) w.limits hp

theorem readHandle_calm (h : HandleId) : (g.readHandle h).Maintains Sound IsCalm := by
  unfold readHandle
  refine .bindStore fun w hw => ?_
  cases hh : w.store.handle h with
  | bound p scope =>
    obtain ⟨hp, hscope⟩ := hw.bound h p scope hh
    obtain ⟨s, rfl⟩ := Option.isSome_iff_exists.mp hscope
    exact hg.path hp s
  | rooted cell p =>
    exact .bind .store fun s => Path.followIn_maintains hg.handles _ (.inl (hw.rooted h cell p hh)) _
  | readOnly inner => exact hg.handles inner

variable {em : Embedding} (hem : em.FailsMildly)
include hem

theorem invoke_calm (l : LambdaId) (s : ScopeId) (params : Value) :
    (invoke em g l (some s) params).Maintains Sound IsCalm :=
  invoke_maintains (F := IsMild) hem.native (.inl rfl) l params fun _ hw body own hl child =>
    hg.natural (hw.lambda l body own hl) child

/-- One level of evaluation fails calmly if the level below does. -/
theorem evalNode_calm {e : Expr} (he : e.WellFormed) (s : ScopeId) :
    (evalNode em g e (some s)).Maintains Sound IsCalm := by
  have hr := hg.handles
  cases he with
  | literal v => exact .pure v
  | path h => exact hg.path h s
  | @array items h =>
    have hitems : (items.mapM fun e => g.eval e (some s)).Maintains Sound IsCalm :=
      .mapM fun e he => hg.natural (h e he) s
    unfold evalNode
    grind
  | object keys values =>
    refine .bind ?_ fun es => .newObject es
    exact objectEntries_maintains hr [] (fun e he => hg.natural (keys e he) s) fun e he => hg.natural (values e he) s
  | range h h' =>
    have hfirst := hg.resolved h s
    have hlast := hg.resolved h' s
    unfold evalNode
    grind
  | op takes h => exact applyOperator_maintains hr (.inl takes) fun e he => hg.natural (h e he) s
  | @call name args h =>
    have hargs : (args.mapM fun e => g.eval e (some s)).Maintains Sound IsCalm :=
      .mapM fun e he => hg.natural (h e he) s
    have hcall (f : Function) (vs : List Value) : (callFunction em g name f vs).Maintains Sound IsCalm :=
      callFunction_maintains (F := IsMild) hr hem.function name f vs
    unfold evalNode
    grind
  | @format e args he ha =>
    have hmild : ∀ h, (g.access.read h).Maintains Sound IsMild := fun h => (hr h).mono fun _ => IsCalm.mild
    have htext (v format : Value) : (do return .str (← formatValue g.access.read v format) : Exec Value).Maintains
        Sound IsCalm := .bind (formatValue_maintains hmild v format) fun text => .pure _
    refine .bind (hg.resolved he s) fun v => ?_
    cases args with
    | none => exact .bind (.pure _) fun format => htext v format
    | some a =>
      refine .bind (hg.resolved (ha a rfl) s) fun u => ?_
      exact .bind (formatOf_maintains u) fun format => htext v format
  | @ref p h =>
    have hnew := Exec.Maintains.newBound (E := IsCalm) h s
    have hfail : (p.failWith .refRoot : Exec Value).Maintains Sound IsCalm := Path.failWith_maintains p fun _ => rfl
    unfold evalNode
    grind
  | isRef h | refInfo h =>
    have hv := hg.natural h s
    unfold evalNode
    grind
  | @invoke e params he hp =>
    refine .bind (hg.resolved he s) fun v => ?_
    cases v with
    | lambda l =>
      cases params with
      | none => exact .bind (.pure _) fun v => invoke_calm hg hem l s v
      | some p => exact .bind (hg.natural (hp p rfl) s) fun v => invoke_calm hg hem l s v
    | _ => exact .pure _
  | lambda h => exact .newClosure h (some s)

theorem above_failsCalmly : (above em g).FailsCalmly where
  eval _ he s := evalNode_calm hg hem he s
  read := readHandle_calm hg

end Expressions

section Levels

variable {em : Embedding} (hem : em.FailsMildly)
include hem

theorem full_failsCalmly : (full em).FailsCalmly := by
  suffices h : ∀ n, (level em n).FailsCalmly from h depth
  intro n
  induction n with
  | zero =>
    have hdeep : (throw (.tooDeep .calling) : Exec Value).Maintains Sound IsCalm := .tooDeep _
    exact ⟨fun _ _ _ => hdeep, fun _ => hdeep⟩
  | succ n ih => exact above_failsCalmly ih hem

/-- A well-formed expression in a sound world is evaluated to what it is worth, or to null if this fails softly. The
only other outcomes are a number past the range of floating point numbers, one that is too long to be written or read,
and a nesting too deep. -/
theorem evaluation_fails_softly {w : World} (hw : w.Sound) {e : Expr} (he : e.WellFormed) {mode : String} {m : Mode}
    (hm : Mode.ofName? mode = some m) (s : ScopeId) (ctx : Option String) :
    match (full em).evalNamed mode e (some s) w with
    | .ok v w' => (full em).evaluate mode e (some s) ctx w = .ok v w'
    | .error f w' =>
      (f.isSoft = true ∧ ∃ text, (full em).evaluate mode e (some s) ctx w =
        .ok .null { w' with logs := w'.logs.push (.warning, text) }) ∨
      (((∃ cause, f = .overflow cause) ∨ (∃ cause, f = .digits cause) ∨ ∃ cause, f = .tooDeep cause) ∧
        (full em).evaluate mode e (some s) ctx w = .error f w') := by
  have hg := full_failsCalmly hem
  have hcalm : ((full em).evalNamed mode e (some s)).Maintains Sound IsCalm := by
    unfold evalNamed
    rw [hm]
    cases m with
    | natural => exact hg.natural he s
    | resolve => exact hg.resolved he s
  cases hrun : (full em).evalNamed mode e (some s) w with
  | ok v w' => exact Exec.tryCatch_ok hrun
  | error f w' =>
    have hrest : (full em).evaluate mode e (some s) ctx w =
        (if f.isSoft then do
          Exec.log .warning ("evaluation" ++ " failed" ++ occasion ctx ++ ": " ++ f.message)
          return Value.null
        else throw f : Exec Value) w' := Exec.tryCatch_error hrun
    rw [hrest]
    cases (hcalm w hw).2 f w' hrun with
    | soft h =>
      rw [if_pos h]
      exact .inl ⟨h, _, rfl⟩
    | overflow cause => exact .inr ⟨.inl ⟨cause, rfl⟩, rfl⟩
    | digits cause => exact .inr ⟨.inr (.inl ⟨cause, rfl⟩), rfl⟩
    | tooDeep cause => exact .inr ⟨.inr (.inr ⟨cause, rfl⟩), rfl⟩

end Levels

/-- The negation of what stands behind a handle along an index below zero fails and is null. -/
theorem bad_index_is_null :
    let w : World := {
      store := {
        arrays := #[#[]]
        objects := #[[(.str "xs", .array 0), (.str "h", .handle 0)]]
        handles := #[.bound (.mk (.root { key := .global }) [.key "xs", .index (-1)]) (some 0)]
        cells := #[{ value := .object 0 }, { value := .null }] }
      stateCell := 1 }
    let e : Expr := .op .not [.path (.mk (.root { key := .global }) [.key "h"])]
    ∃ w', (full .plain).evaluate "resolve" e (some 0) none w = .ok .null w' := by
  intro w e
  have hp : Path.WellFormed (.mk (.root { key := .global }) [.key "h"]) :=
    .root _ (List.forall_mem_singleton.mpr (.key _))
  have hq : Path.WellFormed (.mk (.root { key := .global }) [.key "xs", .index (-1)]) :=
    .root _ (List.forall_mem_cons.mpr ⟨.key _, List.forall_mem_singleton.mpr (.index _)⟩)
  have hw : w.Sound := by
    refine ⟨nofun, fun h p scope hh => ?_, fun h cell p hh => ?_⟩
    · cases h <;> cases hh
      exact ⟨hq, rfl⟩
    · cases h <;> cases hh
  have hrun : (full .plain).evalNamed "resolve" e (some 0) w = .error (.unresolved (.badIndex (-1))) w := rfl
  have he : e.WellFormed := .op rfl (List.forall_mem_singleton.mpr (.path hp))
  have hm : Mode.ofName? "resolve" = some .resolve := rfl
  have h := evaluation_fails_softly Embedding.plain_failsMildly hw he hm 0 none
  rw [hrun] at h
  obtain ⟨-, text, h⟩ | ⟨⟨_, h⟩ | ⟨_, h⟩ | ⟨_, h⟩, -⟩ := h
  · exact ⟨_, h⟩
  · cases h
  · cases h
  · cases h

/-- A whole number past the range of floating point numbers. -/
def hugeNumber : Number := .int (Int.ofNat (Nat.pow 10 200 * Nat.pow 10 200))

theorem hugeNumber_toBool : ∃ cause, (Value.num hugeNumber).toBool = .error cause := by
  have h : (Value.num hugeNumber).toBool.isOk = false := by decide +kernel
  generalize (Value.num hugeNumber).toBool = test at h
  cases test with
  | ok => cases h
  | error cause => exact ⟨cause, rfl⟩

/-- Evaluation for display fails with a number that is out of range. -/
theorem evaluation_overflows :
    let e : Expr := .op .not [.literal (.num hugeNumber)]
    let w : World := {}
    w.Sound ∧ e.WellFormed ∧
      ∃ cause, (full .plain).evaluate "resolve" e (some 0) none w = .error (.overflow cause) w := by
  have he : Expr.WellFormed (.op .not [.literal (.num hugeNumber)]) :=
    .op rfl (List.forall_mem_singleton.mpr (.literal _))
  obtain ⟨cause, hu⟩ := hugeNumber_toBool
  generalize hugeNumber = u at hu he
  refine ⟨⟨nofun, nofun, nofun⟩, he, cause, ?_⟩
  have htruth : (level .plain 329).truth (.num u) {} = .error (.overflow cause) {} := by
    have hv : (level .plain 329).through (.num u) {} = .ok (.num u) {} := rfl
    unfold truth
    rw [Exec.bind_ok hv, hu]
    rfl
  have hnot : (full .plain).eval (.op .not [.literal (.num u)]) (some 0) {} = .error (.overflow cause) {} := by
    have ho : operand [.literal (.num u)] 0 {} = .ok (.literal (.num u)) {} := rfl
    have hv : (level .plain 329).eval (.literal (.num u)) (some 0) {} = .ok (.num u) {} := rfl
    refine (Exec.bind_ok ho).trans ?_
    exact (Exec.bind_ok hv).trans (Exec.bind_error htruth)
  exact Exec.tryCatch_error (Exec.bind_error hnot)

end Engine

end EventScript
