import EventScript.Proofs.Course
import EventScript.Proofs.StackMoves

/-!
# Moves of courses

What a course does to the call stack are the moves of an activity, in worlds along every relation that overlooks errors
and the host as well. So what holds of the moves of activities holds of courses.
-/

namespace EventScript

namespace Run

/-- The worlds that a relation leads through on its way from one world to another. -/
def Between (rel : World → World → Prop) (w w' u : World) : Prop := rel w u ∧ rel u w'

/-- A failure as it is in a world. -/
def failureIn (w : World) (e : Option Fault) : Option Failure := e.map fun f => (f, f.ownStack w)

namespace Chapter

/-- The activity that a chapter is about which begins in a world. -/
def activity (w : World) : Chapter → Activity
  | .calm _ => .calm
  | .script .. | .block .. => .block
  | .items outer _ _ => .items outer
  | .item _ => .item
  | .body _ => .body
  | .answer _ => .answer
  | .event fired _ => .event fired.name
  | .handler fired .. => .handler fired.name
  | .delivery failed _ err => .delivery failed.name err (w.store.error err).stack

/-- The handler of an event is one that is found for it. -/
def Founded (s : CallStack) (w : World) : Chapter → Prop
  | .handler fired b start owner => w.findHandler start fired.name s fired.bubble = some (b, owner)
  | _ => True

theorem activity_of_place? {c : Chapter} {scope : ScopeId} (h : c.place? = some scope) (w w' : World) :
    c.activity w = c.activity w' := by
  cases c <;> first | rfl | cases h

theorem founded_of_place? {c : Chapter} {scope : ScopeId} (h : c.place? = some scope) (s : CallStack) (w : World) :
    c.Founded s w := by
  cases c <;> first | exact True.intro | cases h

end Chapter

section Moves

variable {rel rel' : World → World → Prop} {act : Activity} {w w₁ w₂ : World} {s s' : CallStack} {t : List Moment}
  {e : Option Failure}

open World (Tolerates)

variable [World.Tolerates rel]

theorem Moves.since (h : Moves (Between rel w₁ w₂) act s t e s') (hw : rel w w₁) :
    Moves (Between rel w w₂) act s t e s' :=
  h.mono fun _ hu => ⟨Tolerates.trans hw hu.1, hu.2⟩

theorem Moves.upTo (h : Moves (Between rel w w₁) act s t e s') (hw : rel w₁ w₂) :
    Moves (Between rel w w₂) act s t e s' :=
  h.mono fun _ hu => ⟨hu.1, Tolerates.trans hu.2 hw⟩

end Moves

theorem exceeds {ok : World → Prop} (cause : Ceiling) (s : CallStack) :
    Moves ok .calm s [.raised (.ceiling cause none) s none] (some (.ceiling cause none, none)) s :=
  .raised s _ none fun _ h => by cases h

theorem fails {ok : World → Prop} (f : Fault) (s : CallStack) (w : World) :
    Moves ok .calm s [.raised f s (f.ownStack w)] (some (f, f.ownStack w)) s :=
  .raised s f _ fun _ => brings_ownStack

theorem Moves.gaveUp {ok : World → Prop} {c : Chapter} {scope : ScopeId} {s s' : CallStack} {t : List Moment}
    {f : Failure} (hp : c.place? = some scope) (w : World) (h : Moves ok .calm s t (some f) s') :
    Moves ok (c.activity w) s t (some f) s' := by
  cases c with
  | calm => exact h
  | item => exact .undescribed h
  | body => exact .plain h
  | answer => exact .answered h
  | _ => cases hp

/-- The handler that is found for an event has a frame. -/
theorem Chapter.Founded.found {rel : World → World → Prop} [World.Tolerates rel] {event : Event} {block : Block}
    {start owner : ScopeId} {s : CallStack} {w w' : World} {desc : String}
    (h : (Chapter.handler event block start owner).Founded s w) (hw : rel w w') :
    Found (Between rel w w') s event.name (handlerFrame event owner desc) :=
  ⟨w, start, event.bubble, block, owner, ⟨World.Tolerates.refl w, hw⟩, h, rfl, rfl⟩

section Courses

variable {rel rel' : World → World → Prop} {g : Engine} {isPure : Bool} {c : Chapter} {s s' : CallStack} {w w' : World}
  {t : List Happening} {m : List Moment} {e : Option Fault}

open World (Tolerates)

/-- A course leads along every relation that overlooks what the host keeps, if the assignments of which it tells do, and
what it does to errors that are thrown again or that handlers fail with. -/
theorem course_leads_of [World.OverlooksHost rel'] {P : Happening → Prop} {Q : Moment → Prop}
    (hrel : ∀ {u u'}, rel u u' → rel' u u')
    (hwrite : ∀ u scope (p : Path) op v, p.isStatic = true → (isPure = true → p.rootKey?.any RootKey.isContext = true) →
      P (.assigned u scope p op v) → rel' u ((g.writePath p scope v op true).after u))
    (hthrow : ∀ u err s, Q (.threw err (u.store.error err).message true s) → rel' u (u.rethrow err s))
    (herror : ∀ u u' (event : Event) start err f stack, P (.failed event start err) →
      Exec.errorOf f stack (some event.name) u = .ok err u' → rel' u u')
    (h : Course rel g isPure c s w t m e s' w') (ht : ∀ x ∈ t, P x) (hm : ∀ x ∈ m, Q x) : rel' w w' := by
  induction h with
  | computed hw => exact hrel hw
  | raised | tooDeep | finished | tooMany | spent => exact Tolerates.refl _
  | @threw s w err message w' scope h =>
    rw [← Exec.after_ok h]
    exact Exec.Along.newError _ w
  | rethrew => exact hthrow _ _ _ (hm _ List.mem_cons_self)
  | @assigned p s w scope op v w' hs hk h =>
    rw [← Exec.after_ok h]
    exact hwrite w scope p op v hs hk (ht _ List.mem_cons_self)
  | @refused p s w scope op v f w' hs hk h =>
    rw [← Exec.after_error h]
    exact hwrite w scope p op v hs hk (ht _ List.mem_cons_self)
  | seq _ _ _ ih ih' =>
    obtain ⟨ht, ht'⟩ := List.forall_mem_append.mp ht
    exact Tolerates.trans (ih ht nofun) (ih' ht' hm)
  | performed _ _ _ ih ih' =>
    obtain ⟨ht, ht'⟩ := List.forall_mem_append.mp (List.forall_mem_cons.mp ht).2
    obtain ⟨hm, hm'⟩ := List.forall_mem_append.mp (List.forall_mem_cons.mp (List.forall_mem_cons.mp hm).2).2
    exact Tolerates.trans (ih ht hm) (ih' ht' hm')
  | ran _ _ ih ih' =>
    obtain ⟨ht, ht'⟩ := List.forall_mem_append.mp ht
    obtain ⟨hm, hm'⟩ := List.forall_mem_append.mp hm
    exact Tolerates.trans (ih ht hm) (ih' ht' hm')
  | @malformed block s w f w' scope h =>
    rw [← Exec.after_error h]
    exact ofBlock_along block w
  | wellFormed h _ ih => exact Tolerates.trans (ofBlock_leads h) (ih ht hm)
  | left lines _ _ ih =>
    obtain ⟨ht, -⟩ := List.forall_mem_append.mp (List.forall_mem_cons.mp ht).2
    exact Tolerates.trans (ih ht (List.forall_mem_append.mp hm).1) (debugLines_along _ lines)
  | @unheard event scope s w _ =>
    split
    · exact unhandledEvent_along event w
    · exact Tolerates.refl w
  | handled hs _ ih | fatal hs _ _ ih =>
    obtain ⟨hm, -⟩ := List.forall_mem_append.mp (List.forall_mem_cons.mp hm).2
    exact Tolerates.trans (childScope_leads hs) (ih (List.forall_mem_cons.mp ht).2 hm)
  | failed lines hs _ _ he _ ih ih' =>
    obtain ⟨ht, ht'⟩ := List.forall_mem_append.mp (List.forall_mem_cons.mp ht).2
    obtain ⟨hm, hm'⟩ := List.forall_mem_append.mp (List.forall_mem_cons.mp hm).2
    obtain ⟨hf, ht'⟩ := List.forall_mem_cons.mp ht'
    obtain ⟨hm', -⟩ := List.forall_mem_append.mp (List.forall_mem_cons.mp hm').2
    have hw : rel' _ _ := Tolerates.trans (herror _ _ _ _ _ _ _ hf he) (debugLines_along _ lines)
    exact Tolerates.trans (Tolerates.trans (childScope_leads hs) (ih ht hm)) (Tolerates.trans hw (ih' ht' hm'))
  | escalated => exact unhandledError_along _ _
  | gaveUp _ _ ih | plain _ ih | fired _ ih | answered _ ih | unanswered _ _ ih | heard _ _ _ ih => exact ih ht hm
  | stopped _ _ ih => exact ih (List.forall_mem_cons.mp ht).2 hm
  | broken _ _ ih =>
    exact ih (List.forall_mem_cons.mp ht).2 (List.forall_mem_cons.mp (List.forall_mem_cons.mp hm).2).2
  | described _ _ ih | clause _ _ _ ih => exact ih ht (List.forall_mem_cons.mp hm).2
  | called _ _ _ ih | refired _ _ _ _ ih => exact ih ht (List.forall_mem_cons.mp (List.forall_mem_cons.mp hm).2).2

variable [World.Overlooks rel']

theorem errorOf_leads {f : Fault} {stack : CallStack} {event : Option String} {err : ErrorId}
    (h : Exec.errorOf f stack event w = .ok err w') : rel' w w' := by
  rw [← Exec.after_ok h]
  exact errorOf_along f stack event w

/-- A course leads along every relation that overlooks all that its rules spell out. -/
theorem course_leads (hrel : ∀ {u u'}, rel u u' → rel' u u')
    (hwrite : ∀ p scope v op, (g.writePath p scope v op true).Along rel')
    (h : Course rel g isPure c s w t m e s' w') : rel' w w' :=
  course_leads_of (P := fun _ => True) (Q := fun _ => True) hrel (fun u scope p op v _ _ _ => hwrite p scope v op u)
    (fun _ _ _ _ => World.Overlooks.errors _ _ _) (fun _ _ _ _ _ _ _ _ he => errorOf_leads he) h
    (fun _ _ => trivial) fun _ _ => trivial

/-- A course makes the moves of the activity that it is about. -/
theorem course_moves (hrel : ∀ {u u'}, rel u u' → rel' u u')
    (hwrite : ∀ p scope v op, (g.writePath p scope v op true).Along rel')
    (h : Course rel g isPure c s w t m e s' w') (hc : c.Founded s w) :
    Moves (Between rel' w w') (c.activity w) s m (failureIn w' e) s' := by
  have leads {c s w t m e s' w'} : Course rel g isPure c s w t m e s' w' → rel' w w' := course_leads hrel hwrite
  induction h with
  | computed => exact .calm _
  | raised scope s w f => exact fails f s w
  | @threw s w err message w' scope h =>
    have hs : (w'.store.error err).stack = s := congrArg ErrorRecord.stack (error_of_newError h)
    change Moves _ _ _ _ (some (_, some (w'.store.error err).stack)) _
    rw [hs]
    exact .threw s err message false
  | @rethrew w err scope s h =>
    have hs : ((w.rethrow err s).store.error err).stack = s.pushError (w.store.error err).message :=
      congrArg ErrorRecord.stack (World.error_rethrow h s)
    change Moves _ _ _ _ (some (_, some ((w.rethrow err s).store.error err).stack)) _
    rw [hs]
    exact .threw s err (w.store.error err).message true
  | assigned => exact .calm _
  | refused => exact fails _ _ _
  | seq hp h h' _ ih =>
    have hm := (ih (Chapter.founded_of_place? hp _ _)).since (leads h)
    rwa [Chapter.activity_of_place? hp] at hm
  | gaveUp hp h ih => exact (ih trivial).gaveUp hp _
  | malformed scope h => exact .refused (fails _ _ _)
  | wellFormed h _ ih => exact (ih trivial).since (ofBlock_leads h)
  | tooDeep items scope h => exact .refused (exceeds _ _)
  | left lines hd h ih =>
    exact .left ⟨Tolerates.refl _, leads (.left lines hd h)⟩ hd ((ih trivial).upTo (debugLines_along _ lines))
  | stopped hd h ih => exact .stopped ⟨Tolerates.refl _, leads h⟩ hd (ih trivial)
  | finished => exact .finished _ _
  | tooMany => exact .tooMany rfl (exceeds _ _)
  | performed hn h h' ih ih' =>
    exact .performed ⟨Tolerates.refl _, Tolerates.trans (leads h) (leads h')⟩ hn ((ih trivial).upTo (leads h'))
      ((ih' trivial).since (leads h))
  | broken hn h ih => exact .broken ⟨Tolerates.refl _, leads h⟩ hn (ih trivial)
  | spent => exact .undescribed (exceeds _ _)
  | described desc _ ih => exact .described desc (ih trivial)
  | plain _ ih => exact .plain (ih trivial)
  | clause desc items _ ih => exact .clause desc (ih trivial)
  | fired _ ih => exact .fired (ih trivial)
  | called desc path _ ih => exact .called desc path (ih trivial)
  | answered _ ih => exact .answered (ih trivial)
  | ran h h' ih ih' => exact .ran ((ih trivial).upTo (leads h')) ((ih' trivial).since (leads h))
  | unanswered scope _ ih => exact .unanswered (ih trivial)
  | unheard => exact .unheard _ _
  | heard _ hf _ ih => exact .heard (ih hf)
  | handled hs h ih =>
    have hw : rel' _ _ := Tolerates.trans (childScope_leads hs) (leads h)
    exact .handled (hc.found hw) ((ih trivial).since (childScope_leads hs))
  | @fatal _ _ _ _ _ _ _ _ _ _ _ _ f s' w' hs h hf ih =>
    have hw : rel' _ _ := Tolerates.trans (childScope_leads hs) (leads h)
    have hm := Moves.fatal (hc.found hw) ((ih trivial).since (childScope_leads hs)) hf
    rw [← ownStack_noteStack hf s' w' w'] at hm
    exact hm
  | @failed _ _ _ _ s _ _ _ _ _ _ _ f s₁ w₂ err w₃ _ _ _ _ _ lines hs h hf he h' ih ih' =>
    have hw₁ : rel' _ _ := Tolerates.trans (childScope_leads hs) (leads h)
    have hw₃ : rel' w₂ { w₃ with debugLines := lines } := Tolerates.trans (errorOf_leads he) (debugLines_along _ lines)
    have hd := (ih' trivial).since (Tolerates.trans hw₁ hw₃)
    rw [← stackOf_of_not_ceiling hf s₁] at he
    change Moves _ (.delivery _ err (w₃.store.error err).stack) _ _ _ _ at hd
    rw [errorOf_stack he] at hd
    exact .failed (hc.found (Tolerates.trans hw₁ (Tolerates.trans hw₃ (leads h'))))
      (((ih trivial).since (childScope_leads hs)).upTo (Tolerates.trans hw₃ (leads h'))) hf hd
  | escalated => exact .escalated
  | refired hn _ hf h ih =>
    refine .refired _ hn (ih ?_)
    exact (findHandler_pushError _ _ _ _ _ _).trans hf

end Courses

/-- The frames of what a chapter runs inside are there at its end, whether it fails or not. -/
theorem course_keep {rel : World → World → Prop} {g : Engine} {isPure : Bool} {c : Chapter} {s s' : CallStack}
    {w w' : World} {t : List Happening} {m : List Moment} {e : Option Fault}
    (h : Course rel g isPure c s w t m e s' w') (hc : c.Founded s w) (hk : (c.activity w).kept s <+: s.frames) :
    (c.activity w).kept s <+: s'.frames := by
  have hall {u u' : World} (_ : rel u u') : Always u u' := trivial
  exact moves_keep (course_moves hall (fun _ _ _ _ _ => trivial) h hc) hk

end Run

end EventScript
