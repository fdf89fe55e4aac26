import EventScript.Proofs.Runs

/-!
# Delivery of failures

A failure inside the handler of an event ends neither the event nor the run, unless a ceiling is exceeded: it is told
once, to a handler for errors or to the host. A failure inside a handler for errors is always told to the host. Both
are read off the courses of events, and what the host keeps is what the journal says it was told.
-/

namespace EventScript

namespace Happening

/-- Whether it is about the failure of a handler. -/
def isTrouble : Happening → Bool
  | .failed .. | .escalated _ => true
  | _ => false

/-- The error that goes to the host. -/
def escalated? : Happening → Option ErrorId
  | .escalated err => some err
  | _ => none

end Happening

/-- The errors that go to the host, as a journal tells. -/
def escalatedIn (t : List Happening) : List ErrorId := t.filterMap Happening.escalated?

theorem escalatedIn_append (t t' : List Happening) : escalatedIn (t ++ t') = escalatedIn t ++ escalatedIn t' :=
  List.filterMap_append

theorem escalatedIn_cons {h : Happening} (hh : h.escalated? = none) (t : List Happening) :
    escalatedIn (h :: t) = escalatedIn t :=
  List.filterMap_cons_none hh

/-- What the host keeps of errors that nobody handled, and whether it keeps them, stays as it is. -/
structure World.SameReports (w w' : World) : Prop where
  errors : w'.host.unhandledErrors = w.host.unhandledErrors
  kind : w'.host.kind = w.host.kind

instance : World.OverlooksNews World.SameReports where
  trans h k := ⟨k.errors.trans h.errors, k.kind.trans h.kind⟩
  grown h := ⟨by rw [h.host], by rw [h.host]⟩
  news _ _ _ := ⟨rfl, rfl⟩

instance : World.OverlooksWrites World.SameReports where
  written _ _ _ _ _ _ := ⟨rfl, rfl⟩

/-- A recording host keeps some more errors that nobody handled. -/
structure World.Told (w : World) (errs : List ErrorId) (w' : World) : Prop where
  kind : w'.host.kind = w.host.kind
  errors : w.host.kind = .recording → w'.host.unhandledErrors.toList = w.host.unhandledErrors.toList ++ errs

namespace World

variable {w w' w'' : World} {errs errs' : List ErrorId}

theorem SameReports.told (h : w.SameReports w') : w.Told [] w' := ⟨h.kind, fun _ => by rw [h.errors, List.append_nil]⟩

theorem Told.refl (w : World) : w.Told [] w := SameReports.told ⟨rfl, rfl⟩

theorem Told.trans (h : w.Told errs w') (k : w'.Told errs' w'') : w.Told (errs ++ errs') w'' where
  kind := k.kind.trans h.kind
  errors hw := by rw [k.errors (h.kind.trans hw), h.errors hw, List.append_assoc]

end World

namespace Run

theorem unhandledEvent_sameReports (event : Event) : (Exec.unhandledEvent event).Along World.SameReports := by
  refine .bind (.modify fun w => ?_) fun _ => .log _ _
  split <;> exact ⟨rfl, rfl⟩

theorem reportError_sameReports (err : ErrorId) : (Exec.reportError err).Along World.SameReports := by
  refine .bind (.modify fun w => ?_) fun _ => .bind .store fun s => .log _ _
  split <;> exact ⟨rfl, rfl⟩

/-- The world in which a host that records keeps an error that nobody handled. -/
def keepUnhandled (err : ErrorId) (w : World) : World :=
  match w.host.kind with
  | .recording => { w with host := { w.host with unhandledErrors := w.host.unhandledErrors.push err } }
  | .silent => w

theorem keepUnhandled_told (err : ErrorId) (w : World) : w.Told [err] (keepUnhandled err w) := by
  unfold keepUnhandled
  split
  · exact ⟨rfl, fun _ => Array.toList_push⟩
  · rename_i hk
    exact ⟨rfl, fun hr => by simp [hk] at hr⟩

theorem unhandledError_eq (err : ErrorId) (w : World) :
    Exec.unhandledError err w = Exec.reportError err (keepUnhandled err w) := rfl

/-- An error that nobody handled is kept by a host that records. -/
theorem unhandledError_told (err : ErrorId) (w : World) : w.Told [err] ((Exec.unhandledError err).after w) := by
  have h : (Exec.unhandledError err).after w = (Exec.reportError err).after (keepUnhandled err w) := by
    unfold Exec.after
    rw [unhandledError_eq]
  have hreport : (keepUnhandled err w).Told [] ((Exec.reportError err).after (keepUnhandled err w)) :=
    (reportError_sameReports err _).told
  rw [h]
  exact (keepUnhandled_told err w).trans hreport

theorem errorOf_sameReports {f : Fault} {stack : CallStack} {event : Option String} {err : ErrorId} {w w' : World}
    (h : Exec.errorOf f stack event w = .ok err w') : w.SameReports w' := by
  cases f with
  | thrown e message =>
    cases h
    dsimp only
    split <;> exact ⟨rfl, rfl⟩
  | _ =>
    cases h
    exact ⟨rfl, rfl⟩

/-- A journal in which every failure of a handler is followed at once by its one delivery: to the host, or, unless the
handler was one for errors, as an event with the error that starts in the same scope. Nothing else is told to the
host. -/
inductive Settled : List Happening → Prop where
  | nil : Settled []
  | other {h t} : h.isTrouble = false → Settled t → Settled (h :: t)
  | escalated {t} (event start err) : Settled t → Settled (.failed event start err :: .escalated err :: t)
  | refired {event : Event} {t} (start owner err) : event.name ≠ "error" → Settled t →
      Settled (.failed event start err ::
        .handled { name := "error", bubble := true
                   data := [(.str "error", .error err), (.str "event", .str event.name)] } start owner :: t)

theorem Settled.append {t t' : List Happening} (h : Settled t) (h' : Settled t') : Settled (t ++ t') := by
  induction h with
  | nil => exact h'
  | other hh _ ih => exact .other hh ih
  | escalated event start err _ ih => exact .escalated event start err ih
  | refired start owner err hn _ ih => exact .refired start owner err hn ih

/-- What stands before a chapter in the journal: a delivery comes right after the failure. -/
def Chapter.opening : Chapter → List Happening
  | .delivery failed start err => [.failed failed start err]
  | _ => []

section Courses

variable {rel : World → World → Prop} {g : Engine} {isPure : Bool} {c : Chapter} {s s' : CallStack} {w w' : World}
  {t : List Happening} {m : List Moment} {e : Option Fault}

theorem Chapter.opening_of_place? {scope : ScopeId} (h : c.place? = some scope) : c.opening = [] := by
  cases c <;> first | rfl | cases h

/-- The course of a handler tells first that the event is handled. -/
theorem course_handled {event : Event} {block : Block} {start owner : ScopeId}
    (h : Course rel g isPure (.handler event block start owner) s w t m e s' w') :
    ∃ t', t = .handled event start owner :: t' := by
  cases h with
  | handled | fatal | failed => exact ⟨_, rfl⟩
  | seq hp | gaveUp hp => cases hp

/-- Every course settles its failures. -/
theorem course_settled (h : Course rel g isPure c s w t m e s' w') : Settled (c.opening ++ t) := by
  induction h with
  | computed | raised | threw | rethrew | malformed | finished | unheard => exact .nil
  | assigned | refused | tooDeep | tooMany | spent => exact .other rfl .nil
  | seq hp _ _ ih ih' =>
    rw [Chapter.opening_of_place? hp] at ih' ⊢
    exact ih.append ih'
  | gaveUp hp _ ih =>
    rw [Chapter.opening_of_place? hp]
    exact ih
  | left _ _ _ ih => exact .other rfl (ih.append (.other rfl .nil))
  | performed _ _ _ ih ih' => exact .other rfl (ih.append ih')
  | ran _ _ ih ih' => exact ih.append ih'
  | stopped _ _ ih | broken _ _ ih | handled _ _ ih | fatal _ _ _ ih => exact .other rfl ih
  | failed _ _ _ _ _ _ ih ih' => exact .other rfl (ih.append ih')
  | @escalated event start err => exact .escalated event start err .nil
  | @refired event start err _ _ owner _ _ _ _ _ _ hn _ _ h ih =>
    obtain ⟨t', rfl⟩ := course_handled h
    cases ih with
    | other _ ht => exact .refired start owner err hn ht
  | wellFormed _ _ ih | described _ _ ih | plain _ ih | clause _ _ _ ih | fired _ ih | called _ _ _ ih => exact ih
  | answered _ ih | unanswered _ _ ih | heard _ _ _ ih => exact ih

/-- Whether failures stay inside a chapter, unless a ceiling is exceeded. -/
def Chapter.Contains : Chapter → Prop
  | .event .. | .handler .. | .delivery .. => True
  | _ => False

/-- Nothing but a ceiling that is exceeded escapes an event. -/
theorem course_contains (h : Course rel g isPure c s w t m e s' w') (hc : c.Contains) :
    ∀ f, e = some f → isCeiling f = true := by
  induction h with
  | heard _ _ _ ih => exact ih trivial
  | fatal _ _ hf =>
    intro f' h
    cases h
    exact noteStack_isCeiling hf
  | failed _ _ _ _ _ _ _ ih => exact ih trivial
  | refired _ _ _ _ ih => exact ih trivial
  | unheard | handled | escalated =>
    intro f h
    cases h
  | @seq c _ _ _ _ _ _ _ _ _ _ hp | @gaveUp c _ _ _ _ _ _ _ _ hp => cases c <;> first | exact hc.elim | cases hp
  | _ => exact hc.elim

/-- What a recording host keeps of errors that nobody handled grows by those that a course hands to it, unless what is
computed on the way or others tell it of errors. -/
theorem course_told (hrel : ∀ u u', rel u u' → u.SameReports u')
    (hwrite : ∀ p scope v op, (g.writePath p scope v op true).Along World.SameReports)
    (h : Course rel g isPure c s w t m e s' w') : w.Told (escalatedIn t) w' := by
  induction h with
  | computed hw => exact (hrel _ _ hw).told
  | raised | tooDeep | finished | tooMany | spent => exact .refl _
  | threw _ h =>
    cases h
    exact World.SameReports.told ⟨rfl, rfl⟩
  | rethrew => exact World.SameReports.told ⟨rfl, rfl⟩
  | @assigned p s w scope op v w' _ _ h =>
    have hw := hwrite p scope v op w
    rw [Exec.after_ok h] at hw
    exact hw.told
  | @refused p s w scope op v f w' _ _ h =>
    have hw := hwrite p scope v op w
    rw [Exec.after_error h] at hw
    exact hw.told
  | seq _ _ _ ih ih' | ran _ _ ih ih' =>
    rw [escalatedIn_append]
    exact ih.trans ih'
  | @malformed block s w f w' scope h =>
    have hw : w.SameReports ((BlockItem.ofBlock block).after w) := ofBlock_along block w
    rw [Exec.after_error h] at hw
    exact hw.told
  | wellFormed h _ ih => exact (ofBlock_leads h : World.SameReports _ _).told.trans ih
  | left lines _ _ ih =>
    rw [escalatedIn_cons rfl, escalatedIn_append]
    exact ih.trans (debugLines_along _ lines : World.SameReports _ _).told
  | performed _ _ _ ih ih' =>
    rw [escalatedIn_cons rfl, escalatedIn_append]
    exact ih.trans ih'
  | stopped _ _ ih | broken _ _ ih =>
    rw [escalatedIn_cons rfl]
    exact ih
  | @unheard event scope s w _ =>
    split
    · exact (unhandledEvent_sameReports event w).told
    · exact .refl w
  | handled hs _ ih | fatal hs _ _ ih =>
    rw [escalatedIn_cons rfl]
    exact (childScope_leads hs : World.SameReports _ _).told.trans ih
  | failed lines hs _ _ he _ ih ih' =>
    rw [escalatedIn_cons rfl, escalatedIn_append, escalatedIn_cons rfl]
    have hw : World.SameReports _ _ := World.Tolerates.trans (errorOf_sameReports he) (debugLines_along _ lines)
    exact ((childScope_leads hs : World.SameReports _ _).told.trans ih).trans (hw.told.trans ih')
  | @escalated event start err w s _ => exact unhandledError_told err w
  | gaveUp _ _ ih | described _ _ ih | plain _ ih | clause _ _ _ ih | fired _ ih | called _ _ _ ih => exact ih
  | answered _ ih | unanswered _ _ ih | heard _ _ _ ih | refired _ _ _ _ ih => exact ih

theorem Ends.told {w w' : World} {errs : List ErrorId} {o : Outcome} {w₀ : World} (h : Ends e s w m o w')
    (hw : w₀.Told errs w) : w₀.Told errs w' := by
  cases e with
  | none =>
    obtain ⟨rfl, -, -⟩ := h
    exact hw
  | some f =>
    obtain ⟨err, w₁, he, rfl, -⟩ := h
    have hr : World.SameReports _ _ := World.Tolerates.trans (errorOf_sameReports he) (reportError_sameReports err w₁)
    have ht := hw.trans hr.told
    rwa [List.append_nil] at ht

end Courses

/-! ### Whole events -/

theorem tells_ceiling {e : Option Fault} {r : Result} (he : ∀ f, e = some f → isCeiling f = true) (h : Tells e r)
    {message : String} {error : Option ErrorId} (hr : r = .failure message error) :
    ∃ text, message = "RuntimeLimitError: " ++ text := by
  subst hr
  cases e with
  | none => cases h
  | some f =>
    obtain ⟨text, hm, -⟩ := h
    have hf := he f rfl
    cases f with
    | ceiling cause stack => exact ⟨text, hm⟩
    | _ => cases hf

/-- What becomes of the failures that a journal tells of: each is delivered once, and the host keeps just those errors
that are handed to it, unless what is computed on the way or others tell it of errors. -/
structure Delivers (rel : World → World → Prop) (w : World) (t : List Happening) (w' : World) : Prop where
  settled : Settled t
  told : (∀ u u', rel u u' → u.SameReports u') → w.Told (escalatedIn t) w'

/-- The outcome of a course tells of failures that are all delivered. -/
theorem outcome_delivers {rel : World → World → Prop} {em : Embedding} (hem : em.Along rel) {isPure : Bool}
    {c : Chapter} (hc : c.opening = []) {w w' : World} {o : Outcome}
    (ho : Follows.Outcome rel (Engine.full em) isPure c w o w') : Delivers rel w o.journal.toList w' := by
  obtain ⟨m, e, s, w₁, h, he⟩ := ho
  have hs := course_settled h
  rw [hc] at hs
  refine ⟨hs, fun hrel => he.told ?_⟩
  exact course_told hrel (fun p scope v op => Engine.full_writePath_along (hem.mono hrel) p scope v op true) h

/-- An event follows a course wherever in a run it is fired, and when it is fired from outside. Nothing but a ceiling
escapes it, and every failure of a handler is delivered once. -/
theorem fireEvent_delivers {rel : World → World → Prop} [World.OverlooksNews rel] (host : Host) (hh : host.Along rel)
    (event : Event) (scope : ScopeId) (pure : Bool) :
    (∀ budget p w, (fireEvent (runItems host (Engine.full host.toEmbedding) budget) event scope pure p w).Ensures rel
      fun r w' => (∀ f, r.1 = .error f → isCeiling f = true) ∧
        ∃ t m, r.2.journal.toList = p.journal.toList ++ t ∧ r.2.track.toList = p.track.toList ++ m ∧
          Delivers rel w t w' ∧
          Course rel (Engine.full host.toEmbedding) false (.event event scope) p.stack w t m (failureOf r.1)
            r.2.stack w') ∧
    ∀ w, (fire host event scope pure w).Ensures rel fun o w' =>
      (∀ message error, o.result = .failure message error → ∃ text, message = "RuntimeLimitError: " ++ text) ∧
        Delivers rel w o.journal.toList w' ∧
        Follows.Outcome rel (Engine.full host.toEmbedding) false (.event event scope) w o w' := by
  have hp : false = true → pure = true := fun h => by cases h
  refine ⟨fun budget p w => ?_, fun w => ?_⟩
  · have hrun : Runs rel _ false _ := runItems_follows hh (Engine.full_along hh.embedding) budget
    refine Step.Ensures.mono (fireEvent_follows hrun hp event scope p w) fun r w' hr => ?_
    obtain ⟨t, m, ht, hm, hc⟩ := hr
    refine ⟨fun f hf => course_contains hc trivial f ?_, t, m, ht, hm, ⟨course_settled hc, fun hrel => ?_⟩, hc⟩
    · rw [hf]
      rfl
    · have hwrite := Engine.full_writePath_along (hh.embedding.mono hrel)
      exact course_told hrel (fun p scope v op => hwrite p scope v op true) hc
  · refine (fire_follows hh event scope hp w).mono fun o w' ho => ⟨?_, outcome_delivers hh.embedding rfl ho, ho⟩
    obtain ⟨m, e, s, w₁, hc, he⟩ := ho
    exact fun message error => tells_ceiling (course_contains hc trivial) he.tells

/-- Without a handler for errors, what fails in the handler of an event goes to the host. -/
theorem failed_event_reaches_host :
    let throws : Block := .actions [.throw (.literal (.str "no"))]
    let w : World := { scopes := #[{ context := 0, handlers := [("go", some throws)] }] }
    let go : Event := { name := "go" }
    Host.plain.Along World.SameReports ∧
      Delivers World.SameReports w (fire Host.plain go 0 false w).finish.1.journal.toList
        (fire Host.plain go 0 false w).finish.2 ∧
      escalatedIn (fire Host.plain go 0 false w).finish.1.journal.toList = [0] ∧
      (fire Host.plain go 0 false w).finish.2.host.unhandledErrors = #[0] := by
  have hh : Host.plain.Along World.SameReports := Host.plain_along
  have hfire (event : Event) (w : World) :=
    Step.Ensures.finish ((fireEvent_delivers Host.plain hh event 0 false).2 w) World.Tolerates.refl
  intro throws w go
  exact ⟨hh, (hfire go w).2.1, by decide +kernel, by decide +kernel⟩

end Run

end EventScript
