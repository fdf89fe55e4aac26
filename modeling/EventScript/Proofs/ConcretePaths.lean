import EventScript.Eval
import EventScript.Proofs.Along

/-!
# Concrete paths

A path that has been made concrete needs no further evaluation, whether its parts were computed or a text spelled
them.
-/

namespace EventScript

theorem except_bind_eq_ok {ε α β : Type} {x : Except ε α} {f : α → Except ε β} {b : β} (h : x >>= f = .ok b) :
    ∃ a, x = .ok a ∧ f a = .ok b := by
  cases x with
  | ok a => exact ⟨a, rfl, h⟩
  | error e => cases h

theorem except_bind_eq_error {ε α β : Type} {x : Except ε α} {f : α → Except ε β} {e : ε} (h : x >>= f = .error e) :
    x = .error e ∨ ∃ a, x = .ok a ∧ f a = .error e := by
  cases x with
  | ok a => exact .inr ⟨a, rfl, h⟩
  | error e' =>
    cases h
    exact .inl rfl

theorem mapError_eq_ok {ε ε' α : Type} {x : Except ε α} {f : ε → ε'} {a : α} (h : x.mapError f = .ok a) :
    x = .ok a := by
  cases x with
  | ok a' =>
    cases h
    rfl
  | error e => cases h

theorem mapError_eq_error {ε ε' α : Type} {x : Except ε α} {f : ε → ε'} {e' : ε'} (h : x.mapError f = .error e') :
    ∃ e, f e = e' := by
  cases x with
  | ok a => cases h
  | error e => exact ⟨e, Except.error.inj h⟩

namespace Path

@[simp] theorem isStatic_root (r : Root) (parts : List Part) :
    (Path.mk (.root r) parts).isStatic = parts.all Part.isStatic := by
  simp [isStatic, Path.parts, Part.isStatic]

/-- What fails with a cause that names a path gives nothing, whether or not the path can be written. -/
theorem failWith_eq_throw {α : Type} (p : Path) (cause : String → Unresolved) :
    ∃ f, (p.failWith cause : Exec α) = throw f := by
  unfold failWith
  cases p.spell with
  | ok text => exact ⟨.refusal (cause text), rfl⟩
  | error e => exact ⟨.digits e, rfl⟩

@[grind ←]
theorem failWith_along {α : Type} {rel : World → World → Prop} [World.Tolerates rel] (p : Path)
    (cause : String → Unresolved) : (p.failWith cause : Exec α).Along rel :=
  .bind (.ofExcept _ _) fun _ => .fail _

/-! ### Keys and indices

What is read or computed is a key or an index, so that what holds of these holds of all parts of a concrete path, if
it holds of those that need no evaluation. -/

section Parts

variable {P : Part → Prop} (hkey : ∀ k, P (.key k)) (hindex : ∀ i, P (.index i))
include hkey hindex

theorem readBracketed_forall {text : String} {place : List Char → Nat} {cs rest : List Char} {part : Part}
    (h : readBracketed text place cs = .ok (part, rest)) : P part := by
  unfold readBracketed at h
  split at h <;> split at h <;> cases h
  · exact hkey _
  · exact hkey _
  · exact hindex _

theorem readPart_forall {text : String} {place : List Char → Nat} {c : Char} {cs rest : List Char} {part : Part}
    (h : readPart text place c cs = .ok (part, rest)) : P part := by
  unfold readPart at h
  split at h
  · split at h <;> cases h
    exact hkey _
  · split at h
    · obtain ⟨⟨part', more⟩, hb, h⟩ := except_bind_eq_ok h
      dsimp only at h
      split at h <;> cases h
      exact readBracketed_forall hkey hindex hb
    · cases h

theorem readParts_forall {text : String} {place : List Char → Nat} {fuel : Nat} {cs : List Char}
    {parts : List Part} (h : readParts text place fuel cs = .ok parts) : ∀ q ∈ parts, P q := by
  induction fuel generalizing cs parts with
  | zero => cases h; exact nofun
  | succ fuel ih =>
    cases cs with
    | nil => cases h; exact nofun
    | cons c rest =>
      obtain ⟨⟨part, more⟩, hp, h⟩ := except_bind_eq_ok h
      obtain ⟨parts, hr, h⟩ := except_bind_eq_ok h
      cases h
      exact List.forall_mem_cons.mpr ⟨readPart_forall hkey hindex hp, ih hr⟩

/-- A path that a text spells is a root with no value beside it, and parts. -/
theorem read_forall {text : String} {p : Path} (h : Path.read text = .ok p) :
    ∃ r parts, p = .mk (.root r) parts ∧ r.value = .null ∧ ∀ q ∈ parts, P q := by
  unfold Path.read at h
  dsimp only at h
  split at h
  · cases h
  · obtain ⟨⟨key, rest⟩, -, h⟩ := except_bind_eq_ok h
    dsimp only at h
    split at h
    all_goals
      obtain ⟨parts, hr, h⟩ := except_bind_eq_ok h
      cases h
      have hparts := readParts_forall hkey hindex hr
      refine ⟨_, _, rfl, rfl, ?_⟩
    · exact List.forall_mem_cons.mpr ⟨hkey _, hparts⟩
    · exact hparts

theorem readDeref_forall {text : String} {p : Path} {w w' : World} (h : readDeref text w = .ok p w') :
    ∃ r parts, p = .mk (.root r) parts ∧ r.value = .null ∧ ∀ q ∈ parts, P q := by
  obtain ⟨-, w₁, -, h⟩ := Exec.bind_eq_ok h
  cases hr : Path.read text with
  | ok q =>
    simp only [hr] at h
    cases h
    exact read_forall hkey hindex hr
  | error e =>
    simp only [hr] at h
    cases h

theorem partOfValue_forall (w : World) (v : Value) : P (partOfValue w v) := by
  unfold partOfValue
  split
  · split
    · split
      · exact hindex _
      · exact hkey _
    · exact hkey _
  · exact hkey _

theorem concretePart_forall {eval : Evaluate} {scope : Option ScopeId} {part q : Part}
    (hp : part.isStatic = true → P part) {w w' : World}
    (h : concretePart eval scope part w = .ok (some q) w') : P q := by
  unfold concretePart at h
  cases part with
  | dyn e =>
    obtain ⟨v, w₁, -, h⟩ := Exec.bind_eq_ok h
    obtain ⟨w₂, w₃, -, h⟩ := Exec.bind_eq_ok h
    cases h
    exact partOfValue_forall hkey hindex w₂ v
  | deref e =>
    obtain ⟨v, w₁, -, h⟩ := Exec.bind_eq_ok h
    cases v with
    | str text =>
      obtain ⟨p, w₂, -, h⟩ := Exec.bind_eq_ok h
      cases h
    | _ => cases h
  | _ =>
    cases h
    exact hp rfl

theorem concreteParts_forall {eval : Evaluate} {scope : Option ScopeId} {parts parts' : List Part}
    (hp : ∀ q ∈ parts, q.isStatic = true → P q) {w w' : World}
    (h : concreteParts eval scope parts w = .ok (some parts') w') : ∀ q ∈ parts', P q := by
  induction parts generalizing parts' w with
  | nil => cases h; exact nofun
  | cons part rest ih =>
    obtain ⟨hpart, hrest⟩ := List.forall_mem_cons.mp hp
    unfold concreteParts at h
    obtain ⟨found, w₁, hq, h⟩ := Exec.bind_eq_ok h
    cases found with
    | none => cases h
    | some q =>
      obtain ⟨found, w₂, hf, h⟩ := Exec.bind_eq_ok h
      cases found with
      | none => cases h
      | some parts =>
        cases h
        exact List.forall_mem_cons.mpr ⟨concretePart_forall hkey hindex hpart hq, ih hrest hf⟩

/-- A path that has been made concrete begins at the root that it began at, or at one with no value beside it. -/
theorem concrete_forall {eval : Evaluate} {limits : Limits} {scope : Option ScopeId} {p q : Path}
    (hp : ∀ x ∈ p.rest, x.isStatic = true → P x) {w w' : World} (h : concrete eval limits scope p w = .ok q w') :
    ∃ r parts, q = .mk (.root r) parts ∧ (p.root? = some r ∨ r.value = .null) ∧ ∀ x ∈ parts, P x := by
  have hnowhere : ∃ r parts, nowhere = .mk (.root r) parts ∧ (p.root? = some r ∨ r.value = .null) ∧ ∀ x ∈ parts, P x :=
    ⟨_, _, rfl, .inr rfl, nofun⟩
  obtain ⟨head, rest⟩ := p
  unfold concrete at h
  dsimp only at h
  split at h
  · rename_i hs
    cases h
    cases head with
    | root r =>
      rw [isStatic_root, List.all_eq_true] at hs
      exact ⟨r, rest, rfl, .inl rfl, fun x hx => hp x hx (hs x hx)⟩
    | deref e => cases hs
  · split at h
    · obtain ⟨r, w₁, hr, -⟩ := Exec.bind_eq_ok h
      cases hr
    · cases head with
      | root r =>
        obtain ⟨found, w₁, hf, h⟩ := Exec.bind_eq_ok h
        cases found with
        | none =>
          cases h
          exact hnowhere
        | some parts =>
          cases h
          exact ⟨r, parts, rfl, .inl rfl, concreteParts_forall hkey hindex hp hf⟩
      | deref e =>
        obtain ⟨v, w₁, -, h⟩ := Exec.bind_eq_ok h
        cases v with
        | str text =>
          obtain ⟨q', w₂, hq, h⟩ := Exec.bind_eq_ok h
          obtain ⟨r, front, rfl, hr, hfront⟩ := readDeref_forall hkey hindex hq
          obtain ⟨found, w₃, hf, h⟩ := Exec.bind_eq_ok h
          cases found with
          | none =>
            cases h
            exact hnowhere
          | some parts =>
            cases h
            have hparts := concreteParts_forall hkey hindex hp hf
            exact ⟨r, front ++ parts, rfl, .inr hr, List.forall_mem_append.mpr ⟨hfront, hparts⟩⟩
        | _ =>
          cases h
          exact hnowhere

end Parts

theorem concrete_isStatic {eval : Evaluate} {limits : Limits} {scope : Option ScopeId} {p q : Path} {w w' : World}
    (h : concrete eval limits scope p w = .ok q w') : q.isStatic = true := by
  obtain ⟨r, parts, rfl, -, hparts⟩ := concrete_forall (fun _ => rfl) (fun _ => rfl) (fun _ _ hx => hx) h
  rw [isStatic_root, List.all_eq_true]
  exact hparts

theorem concrete_static {eval : Evaluate} {limits : Limits} {scope : Option ScopeId} {p : Path}
    (hp : p.isStatic = true) (w : World) : concrete eval limits scope p w = .ok p w := by
  unfold concrete
  rw [if_pos hp]
  rfl

end Path

theorem Engine.writePath_static {g : Engine} {p : Path} (hp : p.isStatic = true) (scope : ScopeId) (v : Value)
    (op : WriteOp) (allowContext : Bool) (w : World) :
    g.writePath p scope v op allowContext w =
      Path.writeStatic g.access w.limits p scope v op allowContext w :=
  Exec.bind_ok (Path.concrete_static hp w)

theorem Engine.resolvePath_static {g : Engine} {p : Path} (hp : p.isStatic = true) (scope : Option ScopeId)
    (w : World) : g.resolvePath p scope w = Path.followStatic g.access.read w.limits p scope w :=
  Exec.bind_ok (Path.concrete_static hp w)

end EventScript
