import EventScript.Start
import EventScript.Proofs.Functions
import EventScript.Proofs.PathTexts

/-!
# Engines maintain invariants

Evaluation reads and allocates. So it maintains every invariant that allocation leaves intact, and it follows every
relation that tolerates growth, as long as the functions of the host do. One lemma for each function of the language
says what is asked of the expressions that it evaluates, up to the engine of all levels.
-/

namespace EventScript

open World (Lasts Survives)
open Fault (AdmitsCalm AdmitsForeign AdmitsMalformed)

/-- Whether an operator can be applied to a number of operands. -/
def Operator.takes : Operator → Nat → Bool
  | .and, _ | .or, _ | .coalesce, _ | .add, _ => true
  | .sub, n | .not, n => 1 ≤ n
  | .choose, n => n == 3
  | _, n => 2 ≤ n

/-- A part of a path computes an expression. -/
def Part.Computes (q : Part) (e : Expr) : Prop := q = .dyn e ∨ q = .deref e

/-- As long as an invariant holds the limit on dereferences is not negative, or a kind of faults contains that there are
too many. -/
class Fault.AdmitsDepth (I : World → Prop) (E : Fault → Prop) : Prop where
  depth : ∀ w, I w → 0 ≤ w.limits.derefDepth ∨ E (.unresolved (.derefDepth w.limits.derefDepth))

/-- Faults of functions beside those of evaluation: the call of a function passes on those of the language. -/
class Fault.Reports (F E : Fault → Prop) : Prop where
  of_eval : ∀ {f : Fault}, E f → F f
  of_own : ∀ {f : Fault}, F f → f.isOwn = true → E f

instance (I : World → Prop) : Fault.AdmitsDepth I Fault.Any := ⟨fun _ _ => .inr trivial⟩

instance (E : Fault → Prop) : Fault.Reports E E := ⟨id, fun h _ => h⟩

variable {I : World → Prop} {E F : Fault → Prop} {read : HandleId → Exec Value}

/-! ### Paths -/

namespace Path

/-- A cause that names a path is told, if the path can be written. -/
theorem failWith_maintains {α : Type} [AdmitsCalm E] (p : Path) {cause : String → Unresolved}
    (h : ∀ text, (Fault.unresolved (cause text)).isDerefDepth = false) :
    (p.failWith cause : Exec α).Maintains I E := .bind (.digits _) fun text => .fail (h text)

@[grind ←]
theorem readDeref_maintains [AdmitsCalm E] (text : String) : (readDeref text).Maintains I E := by
  unfold readDeref
  grind

@[grind ←]
theorem rootOf_maintains [Lasts I] [AdmitsCalm E] (r : Root) (scope : Option ScopeId) :
    (rootOf r scope).Maintains I E := by
  unfold rootOf
  grind

@[grind ←]
theorem fieldOf_maintains [Lasts I] (v : Value) (key : String) : (fieldOf v key).Maintains I E := by
  unfold fieldOf nodeGroups
  cases v <;> grind

section Concrete

variable [AdmitsCalm E] {eval : Evaluate} {scope : Option ScopeId}

theorem concretePart_maintains {part : Part} (he : ∀ e, part.Computes e → (eval e scope).Maintains I E) :
    (concretePart eval scope part).Maintains I E := by
  unfold concretePart
  cases part with
  | dyn e => exact .bind (he e (.inl rfl)) fun v => .bind .get fun w => .pure _
  | deref e =>
    refine .bind (he e (.inr rfl)) fun v => ?_
    cases v <;> grind
  | _ => exact .pure _

theorem concreteParts_maintains {parts : List Part}
    (he : ∀ q ∈ parts, ∀ e, q.Computes e → (eval e scope).Maintains I E) :
    (concreteParts eval scope parts).Maintains I E := by
  induction parts with
  | nil => exact .pure _
  | cons part rest ih =>
    obtain ⟨hpart, hrest⟩ := List.forall_mem_cons.mp he
    unfold concreteParts
    refine .bind (concretePart_maintains hpart) fun found => ?_
    cases found with
    | none => exact .pure none
    | some part => exact .bind (ih hrest) fun found => by cases found <;> exact .pure _

/-- A limit that is not negative allows the first dereference, and there is no other. -/
theorem concrete_maintains {limits : Limits}
    (hd : 0 ≤ limits.derefDepth ∨ E (.unresolved (.derefDepth limits.derefDepth))) {p : Path}
    (he : ∀ q ∈ p.parts, ∀ e, q.Computes e → (eval e scope).Maintains I E) :
    (concrete eval limits scope p).Maintains I E := by
  have hdepth (hlt : limits.derefDepth < 0) :
      (Exec.fail (.derefDepth limits.derefDepth) : Exec PUnit).Maintains I E :=
    .throw (hd.resolve_left (Int.not_le.mpr hlt))
  unfold concrete
  obtain ⟨head, rest⟩ := p
  cases head with
  | root r =>
    have hparts := concreteParts_maintains (List.forall_mem_cons.mp he).2
    dsimp only
    split
    · exact .pure _
    · refine .guard hdepth (.bind hparts fun found => ?_)
      cases found <;> exact .pure _
  | deref e =>
    obtain ⟨hhead, hrest⟩ := List.forall_mem_cons.mp he
    have hparts := concreteParts_maintains hrest
    dsimp only
    split
    · exact .pure _
    · refine .guard hdepth (.bind (hhead e (.inr rfl)) fun v => ?_)
      cases v <;> grind

end Concrete

section Walk

variable [Lasts I] [AdmitsCalm E] (hr : ∀ h, (read h).Maintains I E)
include hr

omit [Lasts I] in
@[grind ←]
theorem stepIndex_maintains (limits : Limits) (v : Value) (i : Int) : (stepIndex read limits v i).Maintains I E := by
  unfold stepIndex
  grind

@[grind ←]
theorem stepKey_maintains (limits : Limits) (v : Value) (key : String) (markAbsent : Bool) :
    (stepKey read limits v key markAbsent).Maintains I E := by
  unfold stepKey
  grind

/-- Only a part that is neither a key nor an index makes following a path fail with a fault of construction. -/
theorem walk_maintains (limits : Limits) (text : String) (markAbsent : Bool) {parts : List Part}
    (hp : (∀ q ∈ parts, q.isSpelled = true) ∨ ∀ cause, E (.malformed cause)) (v : Value) :
    (walk read limits text markAbsent parts v).Maintains I E := by
  induction parts generalizing markAbsent v with
  | nil => exact .pure _
  | cons part rest ih =>
    have hrest (next : Value) := ih false (hp.imp_left fun h => (List.forall_mem_cons.mp h).2) next
    have hfail (hpart : part.isSpelled = false) (cause : Malformed) : (Exec.reject cause : Exec Value).Maintains I E :=
      .throw (hp.resolve_left (fun h => by rw [h part List.mem_cons_self] at hpart; cases hpart) cause)
    unfold walk
    cases part with
    | key k => exact .bind (stepKey_maintains hr limits v k markAbsent) hrest
    | index i => exact .bind (stepIndex_maintains hr limits v i) hrest
    | root | dyn | deref => exact .bind (hfail rfl _) hrest

@[grind ←]
theorem followStatic_maintains [AdmitsMalformed E] (limits : Limits) (p : Path) (scope : Option ScopeId) :
    (followStatic read limits p scope).Maintains I E := by
  unfold followStatic
  cases p.root? with
  | none => exact .reject _
  | some r =>
    refine .bind (rootOf_maintains r scope) fun v => ?_
    exact walk_maintains hr limits _ _ (.inr AdmitsMalformed.malformed) v

theorem followIn_maintains (limits : Limits) {p : Path}
    (hp : (∀ q ∈ p.rest, q.isSpelled = true) ∨ ∀ cause, E (.malformed cause)) (container : Value) :
    (followIn read limits p container).Maintains I E := by
  have hwalk := walk_maintains hr limits p.text false hp container
  have hfail : (p.failWith .containerRoot : Exec Value).Maintains I E := failWith_maintains p fun _ => rfl
  unfold followIn
  grind

end Walk

end Path

/-! ### Operators -/

/-- What the host adds to the language maintains an invariant. -/
structure Embedding.Maintains (I : World → Prop) (E : Fault → Prop) (em : Embedding) : Prop where
  native : ∀ name scope v, (em.native name scope v).Maintains I E
  function : ∀ name vs, (em.function name vs).Maintains I E

/-- Evaluating and reading through handles maintain an invariant. -/
structure Engine.Maintains (I : World → Prop) (E : Fault → Prop) (g : Engine) : Prop where
  eval : ∀ e scope, (g.eval e scope).Maintains I E
  read : ∀ h, (g.access.read h).Maintains I E

namespace Engine

/-- The operands that are there are evaluated, and a missing one is a fault. -/
theorem bindOperand_maintains {β : Type} {operands : List Expr} {i : Nat}
    (hi : i < operands.length ∨ E .missingOperand) {f : Expr → Exec β} (hf : ∀ e ∈ operands, (f e).Maintains I E) :
    (operand operands i >>= f).Maintains I E := by
  unfold operand
  cases h : operands[i]? with
  | some e => exact hf e (List.mem_of_getElem? h)
  | none =>
    have hE := hi.resolve_left (Nat.not_lt.mpr (List.getElem?_eq_none_iff.mp h))
    exact .bindOk (.throw hE) fun e w w' h => by cases h

variable {scope : Option ScopeId}

@[grind ←]
theorem arithmetic_maintains [Lasts I] [AdmitsCalm E] (f : Nat → Number → Number → Except Number.Overflow Number)
    (a b : Number) : (arithmetic f a b).Maintains I E := by
  unfold arithmetic
  grind

@[grind ←]
theorem plus_maintains [Lasts I] [AdmitsCalm E] (a b : Value) : (plus a b).Maintains I E := by
  unfold plus
  grind

@[grind ←]
theorem comparison_maintains [AdmitsCalm E] (o : Operator) (a b : Value) : (comparison o a b).Maintains I E := by
  unfold comparison
  grind

@[grind ←]
theorem range_maintains [Lasts I] [AdmitsCalm E] (limits : Limits) (first last : Number) :
    (range limits first last).Maintains I E := by
  unfold range
  grind

@[grind ←]
theorem paramEntries_maintains (params : Value) : (paramEntries params).Maintains I E := by
  unfold paramEntries
  grind

@[grind ←]
theorem formatOf_maintains (argument : Value) : (formatOf argument).Maintains I E := by
  unfold formatOf
  grind

section Operands

variable [AdmitsCalm E] {g : Engine} (hr : ∀ h, (g.access.read h).Maintains I E)
include hr

@[grind ←]
theorem through_maintains (v : Value) : (g.through v).Maintains I E :=
  .bind .get fun _ => follow_maintains hr _ v

theorem evalResolved_maintains {e : Expr} (he : (g.eval e scope).Maintains I E) :
    (g.evalResolved e scope).Maintains I E :=
  .bind he fun v => .bind (through_maintains hr v) fun v => .pure v.orNull

@[grind ←]
theorem truth_maintains (v : Value) : (g.truth v).Maintains I E :=
  .bind (through_maintains hr v) fun v => .overflow v.toBool

omit [AdmitsCalm E] hr in
theorem firstWhere_maintains {stop : Value → Exec Bool} (hs : ∀ v, (stop v).Maintains I E) (last : Value)
    {operands : List Expr} (he : ∀ e ∈ operands, (g.eval e scope).Maintains I E) :
    (g.firstWhere scope stop last operands).Maintains I E := by
  induction operands generalizing last with
  | nil => exact .pure last
  | cons e rest ih =>
    obtain ⟨hfirst, hrest⟩ := List.forall_mem_cons.mp he
    refine .bind hfirst fun v => .bind (hs v) fun found => ?_
    cases found with
    | true => exact .pure v
    | false => exact ih v hrest

theorem sum_maintains [Lasts I] (acc : Value) {operands : List Expr}
    (he : ∀ e ∈ operands, (g.eval e scope).Maintains I E) : (g.sum scope acc operands).Maintains I E := by
  induction operands generalizing acc with
  | nil => exact .pure acc
  | cons e rest ih =>
    obtain ⟨hfirst, hrest⟩ := List.forall_mem_cons.mp he
    exact .bind (evalResolved_maintains hr hfirst) fun v => .bind (plus_maintains acc v) fun acc => ih acc hrest

theorem equality_maintains {operands : List Expr} (he : ∀ e ∈ operands, (g.eval e scope).Maintains I E)
    (h : 2 ≤ operands.length ∨ E .missingOperand) : (g.equality scope operands).Maintains I E := by
  unfold equality
  refine bindOperand_maintains (h.imp_left Nat.lt_of_succ_lt) fun a ha => .bind (he a ha) fun a => ?_
  refine bindOperand_maintains (h.imp_left Nat.lt_of_succ_le) fun b hb => .bind (he b hb) fun b => ?_
  grind

/-- An operator fails as its operands do, by a number out of range, or because it lacks an operand. -/
theorem applyOperator_maintains [Lasts I] {o : Operator} {operands : List Expr}
    (takes : o.takes operands.length = true ∨ E .missingOperand)
    (he : ∀ e ∈ operands, (g.eval e scope).Maintains I E) : (g.applyOperator scope o operands).Maintains I E := by
  have value {i : Nat} (hi : i < operands.length ∨ E .missingOperand) :
      (g.operandValue scope operands i).Maintains I E :=
    bindOperand_maintains hi fun e hmem => evalResolved_maintains hr (he e hmem)
  have first {stop : Value → Exec Bool} (hs : ∀ v, (stop v).Maintains I E) :
      (g.firstWhere scope stop .null operands).Maintains I E := firstWhere_maintains hs .null he
  unfold applyOperator
  cases o with
  | and => exact first fun v => .bind (truth_maintains hr v) fun _ => .pure _
  | or => exact first (truth_maintains hr)
  | coalesce => exact first fun v => .bind (through_maintains hr v) fun _ => .pure _
  | not =>
    have hlen : 0 < operands.length ∨ E .missingOperand := takes.imp_left of_decide_eq_true
    refine bindOperand_maintains hlen fun e hmem => .bind (he e hmem) fun v => ?_
    exact .bind (truth_maintains hr v) fun _ => .pure _
  | choose =>
    have hlen : 2 < operands.length ∨ E .missingOperand := takes.imp_left fun h => by
      have hthree : operands.length = 3 := eq_of_beq h
      omega
    refine .bind (value (hlen.imp_left Nat.zero_lt_of_lt)) fun v => .bind (.overflow _) fun test => ?_
    refine bindOperand_maintains (hlen.imp_left fun h => ?_) he
    split <;> omega
  | equal | notEqual =>
    exact .bind (equality_maintains hr he (takes.imp_left of_decide_eq_true)) fun _ => .pure _
  | add =>
    dsimp only
    split
    · exact .bind (evalResolved_maintains hr (he _ List.mem_cons_self)) fun v => .bind (.numberOf v) fun _ => .pure _
    · exact sum_maintains hr .null he
  | sub =>
    dsimp only
    split
    · refine .bind (evalResolved_maintains hr (he _ List.mem_cons_self)) fun v => .bind (.numberOf v) fun n => ?_
      exact .bind .freshNan fun _ => .pure _
    · rename_i hone
      have hlen : 2 ≤ operands.length ∨ E .missingOperand := takes.imp_left fun h => by
        match operands, h, hone with
        | [], h, _ => cases h
        | [e], _, hone => exact absurd rfl (hone e)
        | _ :: _ :: rest, _, _ => exact Nat.le_add_left _ _
      have h0 := value (hlen.imp_left Nat.lt_of_succ_lt)
      have h1 := value (hlen.imp_left Nat.lt_of_succ_le)
      grind
  | mul | div | mod | less | lessEq | greater | greaterEq =>
    have hlen : 2 ≤ operands.length ∨ E .missingOperand := takes.imp_left of_decide_eq_true
    have h0 := value (hlen.imp_left Nat.lt_of_succ_lt)
    have h1 := value (hlen.imp_left Nat.lt_of_succ_le)
    dsimp only
    grind

theorem objectEntries_maintains (done : Entries Value) {entries : List (Expr × Expr)}
    (hk : ∀ e ∈ entries, (g.eval e.1 scope).Maintains I E) (hv : ∀ e ∈ entries, (g.eval e.2 scope).Maintains I E) :
    (g.objectEntries scope done entries).Maintains I E := by
  induction entries generalizing done with
  | nil => exact .pure done
  | cons entry rest ih =>
    obtain ⟨hkey, hkeys⟩ := List.forall_mem_cons.mp hk
    obtain ⟨hvalue, hvalues⟩ := List.forall_mem_cons.mp hv
    refine .bind (evalResolved_maintains hr hkey) fun v => .bind (displayOf_maintains v) fun key => ?_
    exact .bind hvalue fun v => ih _ hkeys hvalues

end Operands

/-! ### Calls -/

section Calls

variable [AdmitsCalm E] [Fault.Reports F E]

/-- What a call runs fails as the call does, or with a fault that the call reports as a soft one. -/
theorem reported_maintains {x : Exec Value} (hx : x.Maintains I F) (cause : Fault → Unresolved)
    (hcause : ∀ e, (Fault.unresolved (cause e)).isDerefDepth = false) :
    (tryCatch x fun e => if e.isOwn then throw e else Exec.fail (cause e)).Maintains I E := by
  refine .tryCatch hx fun e he => ?_
  split
  · exact .throw (Fault.Reports.of_own he ‹_›)
  · exact .fail (hcause e)

variable [Lasts I] {em : Embedding} {g : Engine}

theorem callFunction_maintains [AdmitsCalm F] [AdmitsForeign F] (hr : ∀ h, (g.access.read h).Maintains I E)
    (hf : ∀ name vs, (em.function name vs).Maintains I F) (name : String) (f : Function) (args : List Value) :
    (callFunction em g name f args).Maintains I E := by
  have hread : ∀ h, (g.access.read h).Maintains I F := fun h => (hr h).mono fun _ => Fault.Reports.of_eval
  have hrun {x : List Value → Exec Value} (hx : ∀ args, (x args).Maintains I F) (args : List Value) :=
    Exec.Maintains.bind (.debugLine ["CALL", name, "argc", toString args.length]) fun _ =>
      reported_maintains (E := E) (hx args) (fun e => .functionFailed name e.report) fun _ => rfl
  have hargs {k : List Value → Exec Value} (hk : ∀ args, (k args).Maintains I E) :
      (if f.shares then pure args >>= k
        else args.mapM (deepCopy g.access.read true) >>= fun copies =>
          pure (copies.map Value.orNull) >>= k).Maintains I E := by
    split
    · exact .bind (.pure _) hk
    · exact .bind (.mapM fun v _ => deepCopy_maintains hr true v) fun _ => .bind (.pure _) hk
  unfold callFunction
  cases f.callee with
  | builtin b => exact hargs (hrun fun args => Builtin.apply_maintains hread b args)
  | hosted h => exact hargs (hrun fun args => hf h args)

/-- A function value is called in a scope, or its call fails for the lack of one. -/
theorem invoke_maintains (hn : ∀ name scope v, (em.native name scope v).Maintains I F)
    (hs : scope.isSome = true ∨ ∀ typeName name, E (.attribute typeName name)) (l : LambdaId) (params : Value)
    (hbody : ∀ w : World, I w → ∀ body own, w.store.lambda l = .closure body own → ∀ s,
      (g.eval body (some s)).Maintains I E) : (invoke em g l scope params).Maintains I E := by
  unfold invoke
  refine .bindStore fun w hw => ?_
  cases hl : w.store.lambda l with
  | native name => exact reported_maintains (hn name scope params) _ fun _ => rfl
  | closure body own =>
    dsimp only
    cases hscope : own.or scope with
    | none =>
      rw [Option.or_eq_none_iff] at hscope
      exact .throw (hs.resolve_left (by rw [hscope.2]; exact Bool.false_ne_true) _ _)
    | some base =>
      refine .bind (paramEntries_maintains params) fun entries => ?_
      exact .bind (Exec.childScope_maintains _ _ _ _) fun child => hbody w hw body own hl child

end Calls

/-- A call maintains an invariant if the functions of the host do. -/
theorem evalCall_maintains [Lasts I] [AdmitsCalm E] [AdmitsForeign E] {em : Embedding} {g : Engine}
    (hg : g.Maintains I E) (hf : ∀ name vs, (em.function name vs).Maintains I E) (name : String) (args : List Expr)
    (scope : Option ScopeId) : (evalNode em g (.call name args) scope).Maintains I E := by
  have ha : (args.mapM fun e => g.eval e scope).Maintains I E := .mapM fun e _ => hg.eval e scope
  have hcall := callFunction_maintains hg.read hf
  unfold evalNode
  grind

/-! ### Engines -/

section Levels

variable [AdmitsCalm E] [Fault.AdmitsDepth I E]

section Expressions

variable {g : Engine} (hg : g.Maintains I E)
include hg

theorem concretePath_maintains (p : Path) (scope : Option ScopeId) : (g.concretePath p scope).Maintains I E :=
  .bindGet fun w hw => Path.concrete_maintains (Fault.AdmitsDepth.depth w hw) fun _ _ e _ =>
    evalResolved_maintains hg.read (hg.eval e scope)

variable [Survives I] [AdmitsMalformed E]

@[grind ←]
theorem resolvePath_maintains (p : Path) (scope : Option ScopeId) : (g.resolvePath p scope).Maintains I E := by
  refine .bindGet fun w hw => .bind ?_ fun q => Path.followStatic_maintains hg.read w.limits q scope
  exact Path.concrete_maintains (Fault.AdmitsDepth.depth w hw) fun _ _ e _ =>
    evalResolved_maintains hg.read (hg.eval e scope)

variable [AdmitsForeign E]

theorem readHandle_maintains (h : HandleId) : (g.readHandle h).Maintains I E := by
  have hr := hg.read
  have hin (limits : Limits) (p : Path) := Path.followIn_maintains hr limits (p := p) (.inr AdmitsMalformed.malformed)
  unfold readHandle
  grind

variable {em : Embedding}

/-- One level of evaluation maintains an invariant if the level below does, and so do calls of functions. -/
theorem evalNode_maintains (hn : ∀ name scope v, (em.native name scope v).Maintains I E)
    (hc : ∀ name args scope, (evalNode em g (.call name args) scope).Maintains I E) (e : Expr)
    (scope : Option ScopeId) : (evalNode em g e scope).Maintains I E := by
  have hr := hg.read
  have he (e : Expr) := hg.eval e scope
  have hresolved (e : Expr) := evalResolved_maintains hr (he e)
  have hinvoke (l : LambdaId) (v : Value) : (invoke em g l scope v).Maintains I E :=
    invoke_maintains hn (.inr fun _ _ => AdmitsForeign.foreign rfl) l v fun _ _ body _ _ s => hg.eval body (some s)
  cases e with
  | literal v => exact .pure v
  | path p => exact resolvePath_maintains hg p scope
  | array items =>
    have hitems : (items.mapM fun e => g.eval e scope).Maintains I E := .mapM fun e _ => he e
    unfold evalNode
    grind
  | object entries =>
    exact .bind (objectEntries_maintains hr [] (fun e _ => he e.1) fun e _ => he e.2) fun es => .newObject es
  | range first last =>
    unfold evalNode
    grind
  | op o operands =>
    exact applyOperator_maintains hr (.inr (AdmitsForeign.foreign rfl)) fun e _ => he e
  | call name args => exact hc name args scope
  | format e args =>
    have hf (v format : Value) : (formatValue g.access.read v format).Maintains I E := formatValue_maintains hr v format
    unfold evalNode
    refine .bind (hresolved e) fun v => ?_
    cases args <;> grind
  | ref p =>
    have hfail : (p.failWith .refRoot : Exec Value).Maintains I E := Path.failWith_maintains p fun _ => rfl
    unfold evalNode
    grind
  | isRef | refInfo =>
    unfold evalNode
    grind
  | invoke e params =>
    unfold evalNode
    refine .bind (hresolved e) fun v => ?_
    cases v with
    | lambda l => cases params <;> grind
    | _ => exact .pure _
  | lambda body => exact .newLambda _
  | foreign => exact .reject _

theorem above_maintains (hn : ∀ name scope v, (em.native name scope v).Maintains I E)
    (hc : ∀ name args scope, (evalNode em g (.call name args) scope).Maintains I E) : (above em g).Maintains I E where
  eval := evalNode_maintains hg hn hc
  read := readHandle_maintains hg

end Expressions

variable [Survives I] [AdmitsForeign E] [AdmitsMalformed E]

theorem level_maintains {em : Embedding} (hem : em.Maintains I E) (n : Nat) : (level em n).Maintains I E := by
  induction n with
  | zero => exact ⟨fun _ _ => .tooDeep _, fun _ => .tooDeep _⟩
  | succ n ih => exact above_maintains ih hem.native (evalCall_maintains ih hem.function)

end Levels

end Engine

end EventScript
