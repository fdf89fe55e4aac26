import EventScript.Checked
import EventScript.Proofs.Course
import EventScript.Proofs.DerefDepth
import EventScript.Proofs.SoftEvaluation

/-!
# Concrete in one pass

To make a path concrete, its computed parts are replaced from the first to the last, and a text that spells a path is
itself made concrete in its place, one deeper. As no text spells a computed part, the pass below ends at once, so that
one pass is all there is: what comes out has a root and then only keys and indices, it keeps the parts that needed no
evaluation, and it is not changed by another pass. So an assignment writes to the root that has been checked.
-/

namespace EventScript

namespace Path

variable {eval : Evaluate} {limits : Limits} {scope : Option ScopeId}

/-! ### The passes below -/

/-- What a part at a place is replaced by, if there is anything. At the first place, `again` is made of the path that
a text spells. -/
def expandPart (eval : Evaluate) (scope : Option ScopeId) (again : Path → Exec Path) (place : Nat) :
    Part → Exec (Option (List Part))
  | .dyn e => do
    let v ← eval e scope
    return some [partOfValue (← get) v]
  | .deref e => do
    match ← eval e scope with
    | .str text => do
      let q ← readDeref text
      if place ≠ 0 then Exec.fail (.derefPlace text)
      return some (← again q).parts
    | _ => return none
  | part => return some [part]

/-- What the parts from a place on are replaced by, up to the first that there is nothing for. -/
def expandParts (eval : Evaluate) (scope : Option ScopeId) (again : Path → Exec Path) :
    (place : Nat) → List Part → Exec (Option (List Part))
  | _, [] => return some []
  | place, part :: rest => do
    match ← expandPart eval scope again place part with
    | none => return none
    | some front =>
      match ← expandParts eval scope again (place + 1) rest with
      | some back => return some (front ++ back)
      | none => return none

/-- The path with all computed parts evaluated, at a depth of dereferences: the path that a text spells is expanded in
its turn, one deeper. -/
def expand (eval : Evaluate) (limits : Limits) (scope : Option ScopeId) (depth : Nat) (p : Path) : Exec Path :=
  if p.isStatic then pure p
  else if _h : limits.derefDepth < depth then Exec.fail (.derefDepth limits.derefDepth)
  else do
    match ← expandParts eval scope (fun q => expand eval limits scope (depth + 1) q) 0 p.parts with
    | some parts => Exec.ofExcept .malformed (ofParts parts)
    | none => return nowhere
termination_by (limits.derefDepth + 1 - depth).toNat

theorem expand_static (depth : Nat) {p : Path} (hp : p.isStatic = true) :
    expand eval limits scope depth p = pure p := by
  rw [expand, if_pos hp]

/-- After the first place no path is expanded in its turn. -/
theorem expandPart_after {again : Path → Exec Path} {place : Nat} (hplace : place ≠ 0) (part : Part) :
    expandPart eval scope again place part = (Option.map fun q => [q]) <$> concretePart eval scope part := by
  cases part with
  | root | key | index => rfl
  | dyn e =>
    simp only [expandPart, concretePart, map_bind, map_pure]
    rfl
  | deref e =>
    simp only [expandPart, concretePart, map_bind]
    congr 1
    funext v
    cases v with
    | str text =>
      simp only [if_pos hplace, map_bind]
      rfl
    | _ => rfl

theorem expandParts_after {again : Path → Exec Path} {place : Nat} (hplace : place ≠ 0) (parts : List Part) :
    expandParts eval scope again place parts = concreteParts eval scope parts := by
  induction parts generalizing place with
  | nil => rfl
  | cons part rest ih =>
    unfold expandParts concreteParts
    rw [ih (Nat.succ_ne_zero place), expandPart_after hplace, bind_map_left]
    congr 1
    funext found
    cases found <;> rfl

theorem read_isStatic {text : String} {q : Path} (h : Path.read text = .ok q) : q.isStatic = true := by
  obtain ⟨r, parts, rfl, -, hparts⟩ := read_forall (P := fun x => x.isStatic = true) (fun _ => rfl) (fun _ => rfl) h
  rw [isStatic_root, List.all_eq_true]
  exact hparts

/-- The pass below ends at once, as the path that a text spells has nothing to evaluate: one pass is all there is. -/
theorem expand_eq_concrete (p : Path) : expand eval limits scope 0 p = concrete eval limits scope p := by
  rw [expand]
  unfold concrete
  split
  · rfl
  · by_cases hlimit : limits.derefDepth < 0
    · rw [dif_pos (by simpa using hlimit), if_pos hlimit]
      rfl
    · rw [dif_neg (by simpa using hlimit), if_neg hlimit]
      obtain ⟨head, rest⟩ := p
      have hrest (again : Path → Exec Path) :
          expandParts eval scope again (0 + 1) rest = concreteParts eval scope rest :=
        expandParts_after (Nat.succ_ne_zero 0) rest
      cases head with
      | root r =>
        simp only [parts, expandParts, expandPart, hrest, pure_bind, bind_assoc]
        congr 1
        funext found
        cases found <;> rfl
      | deref e =>
        simp only [parts, expandParts, expandPart, hrest, bind_assoc]
        congr 1
        funext v
        cases v with
        | str text =>
          simp only [readDeref, bind_assoc]
          congr 1
          funext _
          cases hread : Path.read text with
          | error cause => rfl
          | ok q =>
            obtain ⟨r, front, rfl, -⟩ := read_forall (P := fun _ => True) (fun _ => trivial) (fun _ => trivial) hread
            simp only [pure_bind, expand_static _ (read_isStatic hread)]
            rw [if_neg (by simp), pure_bind]
            dsimp only
            rw [bind_assoc]
            congr 1
            funext found
            cases found <;> rfl
        | _ => rfl

/-! ### What comes out -/

/-- A path that has no root after its beginning. -/
def RootFirst (p : Path) : Prop := ∀ q ∈ p.rest, ∀ r, q ≠ .root r

/-- A run over the parts of a path comes to one that asks for a text and gets another value, and ends there. -/
def AsksInVain (eval : Evaluate) (scope : Option ScopeId) (again : Path → Exec Path) (place : Nat) (parts : List Part)
    (w w' : World) : Prop :=
  ∃ before e after front w₁ v, parts = before ++ .deref e :: after ∧
    expandParts eval scope again place before w = .ok (some front) w₁ ∧ eval e scope w₁ = .ok v w' ∧
    ∀ text, v ≠ .str text

section Static

variable {again : Path → Exec Path} {place : Nat}

/-- A part is replaced by itself if it needs no evaluation, and by nothing only if it asks for a text in vain. -/
theorem expandPart_static {part : Part} {found : Option (List Part)} {w w' : World}
    (h : expandPart eval scope again place part w = .ok found w') :
    match found with
    | some parts => part.isStatic = true → parts = [part]
    | none => ∃ e v, part = .deref e ∧ eval e scope w = .ok v w' ∧ ∀ text, v ≠ .str text := by
  unfold expandPart at h
  cases part with
  | root | key | index =>
    cases h
    exact fun _ => rfl
  | dyn e =>
    obtain ⟨v, w₁, -, h⟩ := Exec.bind_eq_ok h
    obtain ⟨w₂, w₃, -, h⟩ := Exec.bind_eq_ok h
    cases h
    exact nofun
  | deref e =>
    obtain ⟨v, w₁, hv, h⟩ := Exec.bind_eq_ok h
    cases found with
    | some parts => exact nofun
    | none =>
      refine ⟨e, v, rfl, ?_⟩
      cases v with
      | str text =>
        obtain ⟨q, w₂, -, h⟩ := Exec.bind_eq_ok h
        dsimp only at h
        split at h
        · obtain ⟨_, _, hfail, -⟩ := Exec.bind_eq_ok h
          cases hfail
        · obtain ⟨_, _, -, h⟩ := Exec.bind_eq_ok h
          cases h
      | _ =>
        cases h
        exact ⟨hv, fun _ h => by cases h⟩

/-- The parts that need no evaluation stay in their order, or a part asks for a text in vain. -/
theorem expandParts_static {parts : List Part} {found : Option (List Part)} {w w' : World}
    (h : expandParts eval scope again place parts w = .ok found w') :
    match found with
    | some parts' => (parts.filter Part.isStatic).Sublist parts'
    | none => AsksInVain eval scope again place parts w w' := by
  induction parts generalizing place found w with
  | nil =>
    cases h
    exact .slnil
  | cons part rest ih =>
    unfold expandParts at h
    obtain ⟨first, w₁, hpart, h⟩ := Exec.bind_eq_ok h
    have hstatic := expandPart_static hpart
    cases first with
    | none =>
      cases h
      obtain ⟨e, v, rfl, hv, htext⟩ := hstatic
      exact ⟨[], e, rest, [], w, v, rfl, rfl, hv, htext⟩
    | some front =>
      obtain ⟨more, w₂, hmore, h⟩ := Exec.bind_eq_ok h
      cases more with
      | none =>
        cases h
        obtain ⟨before, e, after, back, w₃, v, rfl, hbefore, hv, htext⟩ := ih hmore
        refine ⟨part :: before, e, after, front ++ back, w₃, v, rfl, ?_, hv, htext⟩
        unfold expandParts
        rw [Exec.bind_ok hpart]
        dsimp only
        rw [Exec.bind_ok hbefore]
        rfl
      | some back =>
        cases h
        have hrest : (rest.filter Part.isStatic).Sublist back := ih hmore
        cases hs : part.isStatic with
        | false =>
          rw [List.filter_cons_of_neg (by rw [hs]; exact Bool.false_ne_true)]
          exact hrest.trans (List.sublist_append_right front back)
        | true =>
          rw [List.filter_cons_of_pos hs]
          obtain rfl := hstatic hs
          exact hrest.cons_cons part

end Static

theorem parts_of_ofParts {parts : List Part} {q : Path} (h : ofParts parts = .ok q) : q.parts = parts := by
  unfold ofParts at h
  split at h <;> cases h <;> rfl

/-- A path that has been made concrete keeps the parts that needed no evaluation in their order, or leads nowhere where
a part has asked for a text in vain. -/
theorem concrete_keeps {p q : Path} {w w' : World} (h : concrete eval limits scope p w = .ok q w') :
    (p.parts.filter Part.isStatic).Sublist q.parts ∨
      (q = nowhere ∧ AsksInVain eval scope (expand eval limits scope 1) 0 p.parts w w') := by
  rw [← expand_eq_concrete, expand] at h
  split at h
  · cases h
    exact .inl List.filter_sublist
  · split at h
    · cases h
    · obtain ⟨found, w₁, hfound, h⟩ := Exec.bind_eq_ok h
      have hparts := expandParts_static hfound
      cases found with
      | none =>
        cases h
        exact .inr ⟨rfl, hparts⟩
      | some parts =>
        left
        cases hq : ofParts parts with
        | error cause =>
          dsimp only at h
          rw [hq] at h
          cases h
        | ok q' =>
          dsimp only at h
          rw [hq] at h
          cases h
          rw [parts_of_ofParts hq]
          exact hparts

end Path

/-! ### Assignments -/

namespace Run

/-- An assignment that writes at the very path whose root has been checked, with nothing more evaluated. -/
def assignAtOnce (g : Engine) (target : Path) (op : WriteOp) (v : Value) (scope : ScopeId) (pure : Bool) :
    Job Unit := do
  let p ← Job.exec (g.concretePath target (some scope))
  if pure && !(p.rootKey?.any RootKey.isContext) then Job.exec (Path.failWith p .pureTarget)
  Job.note (.assigned (← Job.world) scope p op v)
  Job.exec do
    Path.writeStatic g.access (← get).limits p scope v op true

theorem assign_eq_assignAtOnce (g : Engine) (target : Path) (op : WriteOp) (v : Value) (scope : ScopeId)
    (pure : Bool) : assign g target op v scope pure = assignAtOnce g target op v scope pure := by
  funext progress w
  unfold assign assignAtOnce
  cases h : g.concretePath target (some scope) w with
  | error f w' => rw [Job.exec_bind_error h, Job.exec_bind_error h]
  | ok p w' =>
    have hwrite : g.writePath p scope v op true =
        (do Path.writeStatic g.access (← get).limits p scope v op true : Exec Unit) := by
      funext w
      exact Engine.writePath_static (Path.concrete_isStatic h) scope v op true w
    rw [Job.exec_bind h, Job.exec_bind h, hwrite]

end Run

namespace Engine

theorem concretePath_concrete {g g' : Engine} {p q : Path} {scope scope' : Option ScopeId} {w w' : World}
    (h : g.concretePath p scope w = .ok q w') (w'' : World) : g'.concretePath q scope' w'' = .ok q w'' :=
  Path.concrete_static (Path.concrete_isStatic h) w''

/-- A path that has been made concrete begins at a root, and only keys and indices follow it. -/
theorem concretePath_isSpelled {g : Engine} {p q : Path} (hp : p.RootFirst) {scope : Option ScopeId} {w w' : World}
    (h : g.concretePath p scope w = .ok q w') :
    ∃ r parts, q = .mk (.root r) parts ∧ ∀ x ∈ parts, x.isSpelled = true := by
  have hstays : ∀ x ∈ p.rest, x.isStatic = true → x.isSpelled = true := by
    intro x hx hstatic
    cases x with
    | root r => exact absurd rfl (hp _ hx r)
    | key | index => rfl
    | dyn | deref => cases hstatic
  obtain ⟨r, parts, hq, -, hparts⟩ := Path.concrete_forall (fun _ => rfl) (fun _ => rfl) hstays h
  exact ⟨r, parts, hq, hparts⟩

/-- All computed parts of a path are evaluated in one pass, whatever the passes below may do. What comes out is a root
with keys and indices after it; it keeps the parts that needed no evaluation, or leads nowhere where a part has asked
for a text in vain; and it is not changed by another pass, so that an assignment writes where it has checked. As long
as the limit on dereferences is not negative, no path fails because of it, unless a function of the host fails so. -/
theorem paths_are_concrete_in_one_pass {em : Embedding} (hem : em.KeepsDepth) {p : Path} (hp : p.RootFirst)
    (scope : Option ScopeId) {w : World} (hw : 0 ≤ w.limits.derefDepth) :
    Path.expand (full em).evalResolved w.limits scope 0 p w = (full em).concretePath p scope w ∧
    (∀ q w', (full em).concretePath p scope w = .ok q w' →
      (∃ r parts, q = .mk (.root r) parts ∧ ∀ x ∈ parts, x.isSpelled = true) ∧
      ((p.parts.filter Part.isStatic).Sublist q.parts ∨ (q = Path.nowhere ∧
        Path.AsksInVain (full em).evalResolved scope (Path.expand (full em).evalResolved w.limits scope 1) 0 p.parts
          w w')) ∧
      ∀ scope' w'', (full em).concretePath q scope' w'' = .ok q w'') ∧
    (∀ f w', (full em).concretePath p scope w = .error f w' → f.isDerefDepth = true → em.Raises f) ∧
    ∀ op v s pure, Run.assign (full em) p op v s pure = Run.assignAtOnce (full em) p op v s pure := by
  refine ⟨?_, fun q w' hq => ⟨?_, ?_, ?_⟩, fun f w' hf => ?_, fun op v s pure => ?_⟩
  · exact congrFun (Path.expand_eq_concrete p) w
  · exact concretePath_isSpelled hp hq
  · exact Path.concrete_keeps hq
  · exact fun scope' w'' => concretePath_concrete hq w''
  · exact raises_of_concretePath hem hw hf
  · exact Run.assign_eq_assignAtOnce (full em) p op v s pure

/-- A text and a number become the beginning of a path and an index in it, and the key after them stays. -/
theorem text_becomes_path :
    let p : Path := .mk (.deref (.literal (.str "$.a"))) [.dyn (.literal (.num (.int 1))), .key "b"]
    let q : Path := .mk (.root { key := .global }) [.key "a", .index 1, .key "b"]
    p.RootFirst ∧ 0 ≤ ({} : World).limits.derefDepth ∧ (full .plain).concretePath p none {} = .ok q {} ∧
      (p.parts.filter Part.isStatic).Sublist q.parts ∧ ∀ scope w, (full .plain).concretePath q scope w = .ok q w := by
  intro p q
  have hp : p.RootFirst := by
    intro x hx r
    obtain rfl | rfl := List.mem_pair.mp hx <;> nofun
  have hw : 0 ≤ ({} : World).limits.derefDepth := by decide
  have hrun : (full .plain).concretePath p none {} = .ok q {} := rfl
  obtain ⟨-, hok, -⟩ := paths_are_concrete_in_one_pass Embedding.plain_keepsDepth hp none hw
  obtain ⟨-, hkept, hsame⟩ := hok q {} hrun
  refine ⟨hp, hw, hrun, ?_, hsame⟩
  obtain hkept | ⟨hnowhere, -⟩ := hkept
  · exact hkept
  · exact absurd (congrArg Path.length hnowhere) (by decide)

end Engine

end EventScript
