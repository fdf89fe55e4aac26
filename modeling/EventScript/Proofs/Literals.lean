import EventScript.Proofs.Containment
import EventScript.Proofs.ReadAfterWrite
import EventScript.Proofs.Unfolding

/-!
# Literals

An expression hands out the value of a literal itself, so that what a run assigns can be what the script holds. Nothing
in a run changes such a value but an assignment whose path goes into it.
-/

namespace EventScript

/-! ### The literals of a block -/

mutual

/-- The values of the literals in an expression. -/
def Expr.literals : Expr → List Value
  | .literal v => [v]
  | .path p => p.literals
  | .array items => literalsOfExprs items
  | .object entries => literalsOfEntries entries
  | .range first last => first.literals ++ last.literals
  | .op _ operands => literalsOfExprs operands
  | .call _ args => literalsOfExprs args
  | .format e args => e.literals ++ literalsOfOption args
  | .ref p => p.literals
  | .isRef e => e.literals
  | .refInfo e => e.literals
  | .invoke e params => e.literals ++ literalsOfOption params
  | .lambda body => body.literals
  | .foreign .. => []

def Path.literals : Path → List Value
  | .mk head rest => head.literals ++ literalsOfParts rest

def Head.literals : Head → List Value
  | .root _ => []
  | .deref e => e.literals

def Part.literals : Part → List Value
  | .dyn e => e.literals
  | .deref e => e.literals
  | _ => []

def literalsOfOption : Option Expr → List Value
  | none => []
  | some e => e.literals

def literalsOfExprs : List Expr → List Value
  | [] => []
  | e :: rest => e.literals ++ literalsOfExprs rest

def literalsOfParts : List Part → List Value
  | [] => []
  | part :: rest => part.literals ++ literalsOfParts rest

def literalsOfEntries : List (Expr × Expr) → List Value
  | [] => []
  | (k, e) :: rest => k.literals ++ e.literals ++ literalsOfEntries rest

end

mutual

/-- The values of the literals in an action. -/
def Action.literals : Action → List Value
  | .assign target _ data => target.literals ++ data.literals
  | .cond test thenBlock elseBlock => test.literals ++ literalsOfActions thenBlock ++
      match elseBlock with
      | none => []
      | some as => literalsOfActions as
  | .setReturn data => data.literals
  | .call callee data target _ url method module _ =>
    literalsOfOption callee ++ literalsOfOption data ++ (target.elim [] Path.literals) ++ literalsOfOption url ++
      literalsOfOption method ++ literalsOfOption module
  | .invalidate data => literalsOfOption data
  | .fire event data _ target => event.literals ++ literalsOfOption data ++ literalsOfOption target
  | .log exprs _ => literalsOfExprs exprs
  | .throw data => data.literals
  | .nop => []
  | .markup data => data.literals
  | .foreign .. => []

def literalsOfActions : List Action → List Value
  | [] => []
  | a :: rest => a.literals ++ literalsOfActions rest

end

/-- The values of the literals in a block. -/
def Block.literals : Block → List Value
  | .actions as | .list as | .actionsOf as => literalsOfActions as
  | .handlerOf (some b) => b.literals
  | .handlerOf none => []
  | .value _ => []

/-- The places in the values of the literals of a block. -/
def World.InLiterals (w : World) (block : Block) (x : Place) : Prop := ∃ v ∈ block.literals, w.Holds v x

/-! ### Assignments -/

section Assignments

variable {R : Place → Prop}

/-- An assignment through a concrete path changes something in a set of places. -/
def Happening.Reaches (R : Place → Prop) (g : Engine) : Happening → Prop
  | .assigned before scope target op v =>
    target.isStatic = true ∧ ¬before.Spares R ((g.writePath target scope v op true).after before)
  | _ => False

theorem Exec.setRootValue_spares (hR : ∀ c, ¬R (.cell c)) (s : ScopeId) (key : RootKey) (v : Value) :
    (Exec.setRootValue s key v).Along (World.Spares R) := by
  unfold Exec.setRootValue
  refine .bind .get fun w => ?_
  have hcell (c : CellId) : (Exec.setCell c v).Along (World.Spares R) := fun w =>
    (Exec.setCell_changedAt w c v).spares (hR c)
  cases key with
  | component | c | args =>
    dsimp only
    split
    · exact hcell _
    · exact .fail _
  | global | data | state => exact hcell _
  | _ => exact .fail _

/-- What an assignment changes in a set of places without cells, its path goes into. -/
theorem Happening.Reaches.not_apart {em : Embedding} (hem : em.Along (World.Spares R)) (hR : ∀ c, ¬R (.cell c))
    {before : World} {scope : ScopeId} {target : Path} {op : WriteOp} {v : Value}
    (h : (Happening.assigned before scope target op v).Reaches R (Engine.full em)) :
    ¬before.AssignsApart R scope target op := by
  intro ha
  refine h.2 ?_
  unfold Exec.after
  rw [Engine.writePath_static h.1]
  exact Path.writeStatic_spares_of (Engine.full_along hem).read before.limits
    (fun r _ => Exec.setRootValue_spares hR scope r.key) v ha

end Assignments

namespace Run

variable {host : Host} {block : Block} {R : Place → Prop}

/-- A block is run several times, one run after the other, each in a scope and with or without effects on the data. All
that the journals tell, and the world in the end. -/
def rerun (host : Host) (block : Block) : List (ScopeId × Bool) → World → List Happening × World
  | [], w => ([], w)
  | (scope, pure) :: rest, w =>
    let first := (runHandler host (some block) scope pure w).finish
    let others := rerun host block rest first.2
    (first.1.journal.toList ++ others.1, others.2)

/-- A run spares all places that none of its assignments changes. -/
theorem runHandler_spares (hh : host.Along (World.Spares R)) (scope : ScopeId) (pure : Bool) (w : World)
    (h : ∀ x ∈ (runHandler host (some block) scope pure w).finish.1.journal,
      ¬x.Reaches R (Engine.full host.toEmbedding)) :
    w.Spares R (runHandler host (some block) scope pure w).finish.2 := by
  have hpure : false = true → pure = true := nofun
  obtain ⟨m, e, s, w₁, hc, he⟩ := (runHandler_follows hh (some block) scope hpure w).finish World.Spares.refl
  have hspares := course_spares_of (fun w scope p op v hs _ hno => ?_) hc fun x hx => h x (Array.mem_def.mpr hx)
  · exact hspares.trans (he.leavesAlone (E := fun _ => False)).1
  · exact Classical.byContradiction fun hchanged => hno ⟨hs, hchanged⟩

theorem rerun_spares (hh : host.Along (World.Spares R)) (turns : List (ScopeId × Bool)) (w : World)
    (h : ∀ x ∈ (rerun host block turns w).1, ¬x.Reaches R (Engine.full host.toEmbedding)) :
    w.Spares R (rerun host block turns w).2 := by
  induction turns generalizing w with
  | nil => exact .refl w
  | cons turn rest ih =>
    obtain ⟨scope, pure⟩ := turn
    obtain ⟨h, hrest⟩ := List.forall_mem_append.mp h
    exact (runHandler_spares hh scope pure w fun x hx => h x (Array.mem_def.mp hx)).trans (ih _ hrest)

/-- However often a block is run, the values of its literals hold what they held, unless there was an assignment whose
path went into one of them and which changed it. -/
theorem literals_change_by_assignments (host : Host) (block : Block) (turns : List (ScopeId × Bool)) (w : World)
    (hh : host.Along (World.Spares (w.InLiterals block))) (hw : ∀ v ∈ block.literals, w.Whole v) :
    (∀ v ∈ block.literals, (rerun host block turns w).2.unfold v = w.unfold v) ∨
    ∃ before scope target op v, .assigned before scope target op v ∈ (rerun host block turns w).1 ∧
      ¬before.AssignsApart (w.InLiterals block) scope target op ∧
      ¬before.Spares (w.InLiterals block)
        (((Engine.full host.toEmbedding).writePath target scope v op true).after before) := by
  by_cases h : ∃ x ∈ (rerun host block turns w).1, x.Reaches (w.InLiterals block) (Engine.full host.toEmbedding)
  · obtain ⟨x, hx, hreaches⟩ := h
    refine .inr ?_
    cases x with
    | assigned before scope target op v =>
      have hcell (c : CellId) : ¬w.InLiterals block (.cell c) := fun ⟨u, _, hu⟩ => w.not_holds_cell u c hu
      exact ⟨before, scope, target, op, v, hx, hreaches.not_apart hh.embedding hcell, hreaches.2⟩
    | _ => exact hreaches.elim
  · refine .inl fun v hv => ?_
    have hspares := rerun_spares hh turns w fun x hx hreaches => h ⟨x, hx, hreaches⟩
    exact (hspares.agrees (hw v hv) fun x hx => ⟨v, hv, hx⟩).unfold

/-- A literal that two scopes get as an entry of their contexts stays what it was. -/
theorem literal_in_contexts_is_kept :
    let w : World := {
      store := {
        arrays := #[#[.int 1]]
        objects := #[[], [], []]
        cells := #[{ value := .object 2 }, { value := .null }] }
      scopes := #[{ context := 0 }, { context := 1 }]
      stateCell := 1 }
    let block : Block := .actions [.assign (.mk (.root { key := .context }) [.key "x"]) .set (.literal (.array 0))]
    (rerun Host.plain block [(0, false), (1, false)] w).2.unfold (.array 0) = w.unfold (.array 0) := by
  intro w block
  have hinside {y : Value} (h : w.Contains (.array 0) y) : y = .array 0 ∨ y = .int 1 := by
    obtain ⟨way, hway⟩ := h
    match way, hway with
    | [], hway => exact .inl (Option.some.inj hway).symm
    | .index 0 :: rest, hway => exact .inr (World.Contains.eq_self ⟨rest, hway⟩ fun s => by cases s <;> rfl)
  have hknows : ∀ y, w.Contains (.array 0) y → w.Knows y := by
    intro y hy
    rcases hinside hy with rfl | rfl
    · exact w.knows_of_own rfl Nat.zero_lt_one
    · exact ⟨nofun, nofun⟩
  have hliterals {o : ObjectId} : ¬w.InLiterals block (.object o) := by
    rintro ⟨v, hv, y, hy, hx⟩
    rw [List.mem_singleton.mp hv] at hy
    rcases hinside hy with rfl | rfl
    · cases List.mem_singleton.mp hx
    · cases hx
  have htest : (rerun Host.plain block [(0, false), (1, false)] w).1.all
      (fun x => x.makesEntryOf 0 || x.makesEntryOf 1) = true := by
    decide +kernel
  rcases literals_change_by_assignments Host.plain block [(0, false), (1, false)] w Host.plain_along
    fun v hv y hy => hknows y (List.mem_singleton.mp hv ▸ hy) with h | ⟨before, scope, target, op, v, hx, hapart, -⟩
  · exact h _ (List.mem_singleton.mpr rfl)
  · rcases Bool.or_eq_true_iff.mp (List.all_eq_true.mp htest _ hx) with hmakes | hmakes
    · exact absurd (Happening.apart_of_makesEntryOf (E := fun _ => False) hliterals hmakes) hapart
    · exact absurd (Happening.apart_of_makesEntryOf (E := fun _ => False) hliterals hmakes) hapart

/-- Data that began with a literal shares it: appending to the data appends to the literal, so that a second run of the
block, on data of its own which hold what the first ones held, ends with other data. -/
theorem appending_changes_literal :
    let w : World := {
      store := {
        arrays := #[#[.int 1]]
        objects := #[[], [], []]
        cells := #[{ value := .object 1 }, { value := .null }, { value := .object 2 }] }
      scopes := #[{ context := 0 }]
      stateCell := 1 }
    let x : Path := .mk (.root { key := .global }) [.key "x"]
    let block : Block := .actions [.assign x .set (.literal (.array 0)), .assign x .append (.literal (.int 2))]
    let first := (rerun Host.plain block [(0, false)] w).2
    let again : World := { first with globalCell := 2 }
    let second := (rerun Host.plain block [(0, false)] again).2
    .array 0 ∈ block.literals ∧ first.unfold (.array 0) ≠ w.unfold (.array 0) ∧
      again.unfold (.object 2) = w.unfold (.object 1) ∧ second.unfold (.object 2) ≠ first.unfold (.object 1) := by
  intro w x block first again second
  refine ⟨List.mem_cons_self, fun h => ?_, ?_, fun h => ?_⟩
  · exact absurd (congrArg (·.at? []) h) (by decide +kernel)
  · have hnone (m : World) (o : ObjectId) (ho : m.store.object o = []) :
        m.unfold (.object o) = .node (.object 0) fun _ => none := by
      have hslot (s : Slot) : m.slot? (.object o) s = none := by
        cases s with
        | index i => rfl
        | key k => simp [World.slot?, World.valueAt?, ho]
      rw [World.unfold_of_no_slot hslot]
      simp [World.shape, ho]
    rw [hnone again 2 (by decide +kernel), hnone w 1 rfl]
  · exact absurd (congrArg (·.at? [.key (.str "x")]) h) (by decide +kernel)

end Run

end EventScript
