import EventScript.Proofs.Runs

/-!
# Tracks of whole runs

The outcome of a whole run, of a block or of an event, tells of the moves of what the run is about, whatever the host
answers and however runs take turns.
-/

namespace EventScript

namespace Run

/-- What a run leaves behind after its moves: a value, or the error of its failure, delivered on the stack where it
came out, unless the failure brought one along. -/
def Concludes : Option Failure → CallStack → List Moment → Outcome → World → Prop
  | none, _, t, o, _ => o.track.toList = t ∧ ∃ v, o.result = .success v
  | some (_, own), s, t, o, w => ∃ message err, o.result = .failure message (some err) ∧
      o.track.toList = t ++ [.delivered err (w.store.error err)] ∧ (w.store.error err).stack = own.getD s

/-- The outcome of a run tells of the moves of an activity. -/
def Leaves.Outcome (rel : World → World → Prop) (act : Activity) (w : World) (o : Outcome) (w' : World) : Prop :=
  ∃ t e s, Moves (Between rel w w') act {} t e s ∧ Concludes e s t o w'

/-- Whether a whole run can be about it: nothing, a block or an event. -/
def Activity.isWhole : Activity → Bool
  | .calm | .block | .event _ => true
  | _ => false

/-- What the run of a block does, if there is one. -/
def activityOf : Option Block → Activity
  | none => .calm
  | some _ => .block

/-- Whatever is run in a world, a block or an event, the outcome is as it should be for what it is about. -/
def EveryRun (host : Host) (rel : World → World → Prop) (w : World) (goal : Activity → Outcome → World → Prop) : Prop :=
  (∀ block scope pure, (runHandler host block scope pure w).Ensures rel (goal (activityOf block))) ∧
    ∀ event scope pure, (fire host event scope pure w).Ensures rel (goal (.event event.name))

theorem base_of_isWhole {act : Activity} (h : act.isWhole = true) : act.base {} = [] := by
  cases act with
  | calm | block | event => rfl
  | _ => cases h

/-- What holds of all call stacks that the moves of an activity pass holds of all that its outcome tells of. -/
theorem outcome_passes {rel : World → World → Prop} {act : Activity} {w w' : World} {o : Outcome}
    {I : CallStack → Prop} (ho : Leaves.Outcome rel act w o w')
    (h : ∀ {t e s}, Moves (Between rel w w') act {} t e s → Passes I t) : Passes I o.track.toList := by
  obtain ⟨t, e, s, hm, hc⟩ := ho
  cases e with
  | none =>
    rw [hc.1]
    exact h hm
  | some failure =>
    obtain ⟨message, err, -, hj, -⟩ := hc
    rw [hj]
    simpa using h hm

section Outcomes

variable {rel : World → World → Prop} [World.Overlooks rel]

open World (Tolerates)

/-- How a run ends after its course is how it concludes after its moves. -/
theorem Ends.concludes {e : Option Fault} {s : CallStack} {w w' : World} {m : List Moment} {o : Outcome}
    (h : Ends e s w m o w') : rel w w' ∧ Concludes (failureIn w e) s m o w' := by
  cases e with
  | none =>
    obtain ⟨rfl, ht, hv⟩ := h
    exact ⟨Tolerates.refl w', ht, hv⟩
  | some f =>
    obtain ⟨err, w₁, he, rfl, ht, hr⟩ := h
    obtain ⟨w₂, h₂⟩ := reportError_total err w₁
    have hs : ((Exec.reportError err).after w₁).store = w₁.store := by
      rw [Exec.after_ok h₂]
      exact reportError_store h₂
    refine ⟨Tolerates.trans (errorOf_leads he) (reportError_along err w₁), _, err, hr, ?_, ?_⟩
    · rw [hs]
      exact ht
    · rw [hs]
      exact errorOf_stack he

variable [World.OverlooksWrites rel]

/-- The outcome of a course tells of the moves of what the course is about. -/
theorem outcome_leaves {rel₀ : World → World → Prop} (hrel : ∀ {u u'}, rel₀ u u' → rel u u') {em : Embedding}
    (hem : em.Along rel) {isPure : Bool} {c : Chapter} {w w' : World} {o : Outcome} (hc : c.Founded {} w)
    (ho : Follows.Outcome rel₀ (Engine.full em) isPure c w o w') : Leaves.Outcome rel (c.activity w) w o w' := by
  obtain ⟨m, e, s, w₁, h, he⟩ := ho
  obtain ⟨hw, hd⟩ : rel w₁ w' ∧ _ := he.concludes
  have hwrite := Engine.full_writePath_along hem
  exact ⟨m, _, s, (course_moves hrel (fun p scope v op => hwrite p scope v op true) h hc).upTo hw, hd⟩

/-- The outcome of every run is as it should be if it is so wherever it tells of the moves of what the run is about. -/
theorem everyRun_of_leaves {host : Host} (hh : host.Along rel) {w : World} {goal : Activity → Outcome → World → Prop}
    (h : ∀ {act o w'}, act.isWhole = true → Leaves.Outcome rel act w o w' → goal act o w') :
    EveryRun host rel w goal := by
  have hp (pure : Bool) : false = true → pure = true := fun h => by cases h
  constructor
  · intro block scope pure
    refine (runHandler_follows hh block scope (hp pure) w).mono fun o w' ho => ?_
    cases block <;> exact h rfl (outcome_leaves id hh.embedding (by exact trivial) ho)
  · intro event scope pure
    refine (fire_follows hh event scope (hp pure) w).mono fun o w' ho => ?_
    exact h rfl (outcome_leaves id hh.embedding (by exact trivial) ho)

end Outcomes

end Run

end EventScript
