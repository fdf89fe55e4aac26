import EventScript.Proofs.Delivery
import EventScript.Proofs.TrackedRuns

/-!
# Contexts of errors

The call stack in an error is the one on which something failed. Between the failure and the moment at which an error
is made of it the call stack is not cut back, unless the failure brings its stack along; so an error that is delivered,
to a handler, to the host or as the outcome of a run, shows what was running when it came about. The errors that are
delivered are those of which handlers and the host are told, one for one.
-/

namespace EventScript

/-- The error that a result comes with. -/
def Result.error? : Result → Option ErrorId
  | .success _ => none
  | .failure _ error => error

namespace Run

/-- A moment of failure, the call stack on which it is, and the one that an error made of it shows. An error that is
thrown again has itself on top, and a failure may bring a stack along. -/
inductive Shows : Moment → CallStack → CallStack → Prop where
  | raised (f s) : Shows (.raised f s none) s s
  | brought {f own} (s) : Brings f own → Shows (.raised f s (some own)) s own
  | threw (err message s) : Shows (.threw err message false s) s s
  | again (err message s) : Shows (.threw err message true s) s (s.pushError message)

/-- A track ends with a failure on a stack that holds some frames, and what an error made of it shows; all that comes
after it is that the stack is cut back. -/
def Fails (base : List Frame) (t : List Moment) (shown : CallStack) : Prop :=
  ∃ before m stack, ∃ cuts : List CallStack, t = before ++ m :: cuts.map .moved ∧ Shows m stack shown ∧
    base <+: stack.frames ∧ ∀ u ∈ cuts, u.frames <+: stack.frames

/-- Every error that is delivered in a track after another one shows the stack of the failure right before it. -/
def Explained (before t : List Moment) : Prop :=
  ∀ front err record rest, t = front ++ .delivered err record :: rest → Fails [] (before ++ front) record.stack

section Tracks

variable {base base' : List Frame} {t t' : List Moment} {shown : CallStack}

theorem fails_single {m : Moment} {s : CallStack} (hm : Shows m s shown) (hb : base <+: s.frames) :
    Fails base [m] shown :=
  ⟨[], m, s, [], rfl, hm, hb, fun _ h => by cases h⟩

theorem Fails.mono (h : Fails base t shown) (hb : base' <+: base) : Fails base' t shown := by
  obtain ⟨before, m, s, cuts, ht, hm, hs, hc⟩ := h
  exact ⟨before, m, s, cuts, ht, hm, hb.trans hs, hc⟩

theorem Fails.after (h : Fails base t' shown) (t : List Moment) : Fails base (t ++ t') shown := by
  obtain ⟨before, m, s, cuts, rfl, hm, hs, hc⟩ := h
  exact ⟨t ++ before, m, s, cuts, (List.append_assoc _ _ _).symm, hm, hs, hc⟩

theorem Fails.cons (m : Moment) (h : Fails base t shown) : Fails base (m :: t) shown := h.after [m]

/-- The stack may be cut back to the frames that it is known to hold. -/
theorem Fails.cut (h : Fails base t shown) {u : CallStack} (hu : u.frames <+: base) :
    Fails base (t ++ [.moved u]) shown := by
  obtain ⟨before, m, s, cuts, rfl, hm, hs, hc⟩ := h
  refine ⟨before, m, s, cuts ++ [u], by simp, hm, hs, fun v hv => ?_⟩
  rcases List.mem_append.mp hv with hv | hv
  · exact hc v hv
  · rw [List.mem_singleton.mp hv]
    exact hu.trans hs

variable {before : List Moment}

theorem explained_nil : Explained before [] := fun front err record rest h => by
  have hl := congrArg List.length h
  simp at hl

/-- What is delivered is explained by what comes before, and the rest by that and what is delivered. -/
theorem explained_cons {m : Moment} (hm : ∀ err record, m = .delivered err record → Fails [] before record.stack)
    (ht : Explained (before ++ [m]) t) : Explained before (m :: t) := by
  intro front err record rest h
  cases front with
  | nil =>
    obtain ⟨hd, -⟩ := List.cons.inj h
    simpa using hm err record hd
  | cons x front =>
    obtain ⟨rfl, hrest⟩ := List.cons.inj h
    simpa using ht front err record rest hrest

theorem explained_moved {s : CallStack} (ht : Explained (before ++ [.moved s]) t) : Explained before (.moved s :: t) :=
  explained_cons (fun _ _ h => by cases h) ht

theorem explained_append (ht : Explained before t) (ht' : Explained (before ++ t) t') : Explained before (t ++ t') := by
  induction t generalizing before with
  | nil => simpa using ht'
  | cons m t ih =>
    refine explained_cons (fun err record hm => ?_) (ih (fun front err record rest h => ?_) ?_)
    · simpa using ht [] err record t (by rw [hm]; rfl)
    · simpa using ht (m :: front) err record rest (by rw [h]; rfl)
    · simpa using ht'

end Tracks

section Moves

variable {ok : World → Prop} {act : Activity} {s s' : CallStack} {t : List Moment} {e : Option Failure}

/-- Whether what fails in an activity brings a stack along: an event and all that comes of it. -/
def Activity.isEvent : Activity → Bool
  | .event _ | .handler _ | .delivery .. => true
  | _ => false

theorem event_failure_brings (h : Moves ok act s t e s') (ha : act.isEvent = true) :
    ∀ f own, e = some (f, own) → ∃ k, own = some k := by
  induction h with
  | heard _ ih => exact ih rfl
  | fatal =>
    intro f own h
    cases h
    exact ⟨_, rfl⟩
  | failed _ _ _ _ _ ih => exact ih rfl
  | refired _ _ _ ih => exact ih rfl
  | unheard | handled | escalated =>
    intro f own h
    cases h
  | _ => cases ha

/-- An activity that fails ends with the failure, on a stack that holds what it runs inside. Where it ends, the stack is
still the one that the error has to show, unless the failure brings one along. -/
theorem moves_fail (h : Moves ok act s t e s') {f : Fault} {own : Option CallStack} (hk : act.kept s <+: s.frames)
    (he : e = some (f, own)) : Fails (act.kept s) t (own.getD s') := by
  induction h generalizing f own with
  | calm | left | finished | unheard | handled | escalated => cases he
  | raised s f own hb =>
    cases he
    refine fails_single ?_ hk
    cases own with
    | none => exact .raised f s
    | some k => exact .brought s (hb k rfl)
  | threw s err message again =>
    cases he
    refine fails_single ?_ hk
    cases again with
    | false => exact .threw err message s
    | true => exact .again err message s
  | refused _ ih | undescribed _ ih | heard _ ih => exact ih hk he
  | stopped _ _ _ ih => exact ih (List.prefix_refl _) he
  | tooMany _ _ ih | broken _ _ _ ih => exact ((ih (List.prefix_refl _) he).cons _).cons _
  | @performed _ outer _ _ s₁ _ _ _ _ _ h _ _ ih' =>
    have ho : outer <+: s₁.frames := moves_keep h (List.prefix_refl _)
    exact (((ih' ho he).after _).cons _).cons _
  | described desc _ ih =>
    have hi := ih (by simp [Activity.kept]) he
    simp only [Activity.kept, CallStack.frames_pushDesc, List.dropLast_concat] at hi
    exact hi.cons _
  | plain _ ih | fired _ ih | answered _ ih | unanswered _ ih =>
    exact (ih (List.prefix_refl _) he).mono (List.dropLast_prefix _)
  | clause desc _ ih =>
    refine ((ih (List.prefix_refl _) he).mono ?_).cons _
    exact (List.dropLast_prefix _).trans (List.prefix_append _ _)
  | called desc path _ ih =>
    have hi := ih (by simp [Activity.kept]) he
    simp only [Activity.kept, CallStack.frames_replace, List.dropLast_concat] at hi
    exact (hi.cons _).cons _
  | @ran s _ s₁ _ _ _ h _ _ ih' =>
    refine ((ih' (List.prefix_refl _) he).mono ?_).after _
    change s.frames.dropLast <+: s₁.frames
    rw [block_restores h]
    exact List.dropLast_prefix _
  | @fatal _ frame s _ _ own' s' _ _ _ ih =>
    cases he
    have hi := (ih (List.prefix_refl _) rfl).mono (List.prefix_append s.frames [frame])
    have hu : (s'.onto s.frames).frames <+: s.frames := List.prefix_refl _
    exact (hi.cut hu).cons _
  | @failed _ _ s _ _ _ _ _ _ _ s₂ _ _ _ hd _ ih' =>
    obtain ⟨k, rfl⟩ := event_failure_brings hd rfl f own he
    have hu : (s₂.onto s.frames).frames <+: s.frames := List.prefix_refl _
    exact ((((ih' (List.prefix_refl _) he).cut hu).cons _).after _).cons _
  | @refired _ _ _ s _ _ _ message _ _ ih =>
    have hi := (ih (List.prefix_refl _) he).mono (List.prefix_append s.frames _)
    exact (hi.cons _).cons _

/-- What an error has to show that is delivered in an activity at once: the stack of the failure before it. -/
def Activity.Owes : Activity → List Moment → Prop
  | .delivery _ _ stack, before => Fails [] before stack
  | _, _ => True

/-- Every error that is delivered in an activity is explained. -/
theorem moves_explained (h : Moves ok act s t e s') {before : List Moment} (hb : act.Owes before) :
    Explained before t := by
  induction h generalizing before with
  | calm | finished | unheard => exact explained_nil
  | raised | threw => exact explained_cons (fun _ _ h => by cases h) explained_nil
  | refused _ ih | stopped _ _ _ ih | undescribed _ ih | plain _ ih | fired _ ih => exact ih trivial
  | answered _ ih | unanswered _ ih | heard _ ih => exact ih trivial
  | left _ _ _ ih => exact explained_append (ih trivial) (explained_moved explained_nil)
  | tooMany _ _ ih | broken _ _ _ ih => exact explained_moved (explained_moved (ih trivial))
  | performed _ _ _ _ ih ih' => exact explained_moved (explained_moved (explained_append (ih trivial) (ih' trivial)))
  | described _ _ ih | clause _ _ ih => exact explained_moved (ih trivial)
  | called _ _ _ ih => exact explained_moved (explained_cons (fun _ _ h => by cases h) (ih trivial))
  | ran _ _ ih ih' => exact explained_append (ih trivial) (ih' trivial)
  | handled _ _ ih | fatal _ _ _ ih =>
    exact explained_moved (explained_append (ih trivial) (explained_moved explained_nil))
  | @failed _ frame s t _ _ s₁ _ _ _ _ _ hm _ _ ih ih' =>
    have hf := (moves_fail hm (List.prefix_refl _) rfl).mono (List.prefix_append s.frames [frame])
    have hu : (s₁.onto s.frames).frames <+: s.frames := List.prefix_refl _
    have ho := ((hf.cut hu).mono List.nil_prefix).after (before ++ [.moved (s.push frame)])
    refine explained_moved (explained_append (ih trivial) (explained_moved (explained_append (ih' ?_) ?_)))
    · change Fails [] _ _
      simpa using ho
    · exact explained_moved explained_nil
  | escalated => exact explained_cons (fun _ _ h => by cases h; exact hb) explained_nil
  | refired message _ _ ih =>
    exact explained_cons (fun _ _ h => by cases h; exact hb) (explained_moved (ih trivial))

end Moves

/-- What the track of an outcome tells of errors: each that is delivered is explained, and the error of a failure is the
last of them, as it was then. -/
def TellsErrors (o : Outcome) (w : World) : Prop :=
  Explained [] o.track.toList ∧ ∀ message error, o.result = .failure message error →
    ∃ err front, error = some err ∧ o.track.toList = front ++ [.delivered err (w.store.error err)]

theorem outcome_tellsErrors {rel : World → World → Prop} {act : Activity} {w w' : World} {o : Outcome}
    (hact : act.isWhole = true) (ho : Leaves.Outcome rel act w o w') : TellsErrors o w' := by
  obtain ⟨t, e, s, hm, hc⟩ := ho
  have hk : act.kept {} <+: ({} : CallStack).frames ∧ act.Owes [] := by
    cases act with
    | calm | block | event => exact ⟨List.nil_prefix, trivial⟩
    | _ => cases hact
  have ht : Explained [] t := moves_explained hm hk.2
  cases e with
  | none =>
    obtain ⟨hj, v, hv⟩ := hc
    refine ⟨by rw [hj]; exact ht, fun message error hr => ?_⟩
    rw [hv] at hr
    cases hr
  | some failure =>
    obtain ⟨f, own⟩ := failure
    obtain ⟨message, err, hr, hj, hs⟩ := hc
    refine ⟨?_, fun message' error hr' => ?_⟩
    · rw [hj]
      refine explained_append ht (explained_cons (fun err' record h => ?_) explained_nil)
      cases h
      rw [hs]
      exact (moves_fail hm hk.1 rfl).mono List.nil_prefix
    · rw [hr] at hr'
      cases hr'
      exact ⟨err, t, rfl, hj⟩

/-! ### Which errors are delivered -/

/-- The errors that are delivered, as a track tells. -/
def deliveredIn (m : List Moment) : List ErrorId :=
  m.filterMap fun
    | .delivered err _ => some err
    | _ => none

/-- The errors that handlers fail with, as a journal tells. -/
def failedIn (t : List Happening) : List ErrorId :=
  t.filterMap fun
    | .failed _ _ err => some err
    | _ => none

section Courses

variable {rel : World → World → Prop} {g : Engine} {isPure : Bool} {c : Chapter} {s s' : CallStack} {w w' : World}
  {t t' : List Happening} {m m' : List Moment} {e : Option Fault}

theorem deliveredIn_append (m m' : List Moment) : deliveredIn (m ++ m') = deliveredIn m ++ deliveredIn m' :=
  List.filterMap_append

theorem failedIn_append (t t' : List Happening) : failedIn (t ++ t') = failedIn t ++ failedIn t' :=
  List.filterMap_append

theorem deliveredIn_moved (u : CallStack) (m : List Moment) : deliveredIn (.moved u :: m) = deliveredIn m := rfl

theorem failedIn_failed (event : Event) (start : ScopeId) (err : ErrorId) (t : List Happening) :
    failedIn (.failed event start err :: t) = err :: failedIn t := rfl

/-- The errors that a course delivers are those that handlers fail with, one for one. -/
theorem course_deliveredIn (h : Course rel g isPure c s w t m e s' w') :
    deliveredIn m = failedIn c.opening ++ failedIn t := by
  induction h with
  | computed | raised | threw | rethrew | assigned | refused | malformed | tooDeep | finished | tooMany | spent => rfl
  | unheard | escalated => rfl
  | seq hp _ _ ih ih' =>
    rw [Chapter.opening_of_place? hp] at ih' ⊢
    rw [ih', failedIn_append]
    exact congrArg (· ++ _) ih
  | gaveUp hp _ ih =>
    rw [Chapter.opening_of_place? hp]
    exact ih
  | left _ _ _ ih =>
    change _ = failedIn (_ ++ _)
    rw [deliveredIn_append, failedIn_append, ih]
    rfl
  | performed _ _ _ ih ih' | ran _ _ ih ih' =>
    change deliveredIn (_ ++ _) = failedIn (_ ++ _)
    rw [deliveredIn_append, failedIn_append, ih, ih']
    rfl
  | handled _ _ ih | fatal _ _ _ ih =>
    change deliveredIn (_ ++ _) = failedIn _
    rw [deliveredIn_append, ih]
    exact List.append_nil _
  | failed _ _ _ _ _ _ ih ih' =>
    change deliveredIn (_ ++ _) = failedIn (_ ++ _)
    rw [deliveredIn_append, failedIn_append, deliveredIn_moved, deliveredIn_append, failedIn_failed, ih, ih']
    exact congrArg (_ ++ ·) (List.append_nil _)
  | refired _ _ _ _ ih => exact congrArg (_ :: ·) ih
  | stopped _ _ ih | broken _ _ ih | described _ _ ih | clause _ _ _ ih | called _ _ _ ih => exact ih
  | wellFormed _ _ ih | plain _ ih | fired _ ih | answered _ ih | unanswered _ _ ih | heard _ _ _ ih => exact ih

end Courses

/-- The errors that are delivered in a run are those that its handlers fail with, each of which goes at once to a
handler for errors or to the host, and then that of its own failure. -/
def DeliversFailures (rel : World → World → Prop) (w : World) (o : Outcome) (w' : World) : Prop :=
  Delivers rel w o.journal.toList w' ∧
    deliveredIn o.track.toList = failedIn o.journal.toList ++ o.result.error?.toList

theorem Ends.deliveredIn {e : Option Fault} {s : CallStack} {w w' : World} {m : List Moment} {o : Outcome}
    (h : Ends e s w m o w') : deliveredIn o.track.toList = deliveredIn m ++ o.result.error?.toList := by
  cases e with
  | none =>
    obtain ⟨-, ht, v, hv⟩ := h
    rw [ht, hv]
    exact (List.append_nil _).symm
  | some f =>
    obtain ⟨err, w₁, -, -, ht, hr⟩ := h
    rw [ht, hr, deliveredIn_append]
    rfl

theorem outcome_deliversFailures {rel : World → World → Prop} {em : Embedding} (hem : em.Along rel) {isPure : Bool}
    {c : Chapter} (hc : c.opening = []) {w w' : World} {o : Outcome}
    (ho : Follows.Outcome rel (Engine.full em) isPure c w o w') : DeliversFailures rel w o w' := by
  refine ⟨outcome_delivers hem hc ho, ?_⟩
  obtain ⟨m, e, s, w₁, h, he⟩ := ho
  rw [he.deliveredIn, course_deliveredIn h, hc]
  rfl

/-- Every error that is delivered in a run shows the call stack of the failure right before it: the frames of all that
was running, as its course tells, and of nothing else. Only a failure that brings a stack along shows that one. The
errors that are delivered are those that handlers for errors and the host are handed, and that of the outcome. -/
theorem error_contexts_exact {rel : World → World → Prop} [World.OverlooksNews rel] (host : Host) (hh : host.Along rel)
    (w : World) :
    let g := Engine.full host.toEmbedding
    (∀ block scope pure, (runHandler host block scope pure w).Ensures rel fun o w' =>
      TellsErrors o w' ∧ DeliversFailures rel w o w' ∧ Follows.Outcome rel g false (chapterOf block scope) w o w') ∧
    ∀ event scope pure, (fire host event scope pure w).Ensures rel fun o w' =>
      TellsErrors o w' ∧ DeliversFailures rel w o w' ∧ Follows.Outcome rel g false (.event event scope) w o w' := by
  have hp (pure : Bool) : false = true → pure = true := fun h => by cases h
  have tells {c : Chapter} {o : Outcome} {w' : World} (hf : c.Founded {} w) (hc : c.opening = [])
      (hw : (c.activity w).isWhole = true)
      (ho : Follows.Outcome rel (Engine.full host.toEmbedding) false c w o w') :
      TellsErrors o w' ∧ DeliversFailures rel w o w' ∧
        Follows.Outcome rel (Engine.full host.toEmbedding) false c w o w' := by
    have hany (u u' : World) (_ : rel u u') : Always u u' := trivial
    have hleaves : Leaves.Outcome Always (c.activity w) w o w' :=
      outcome_leaves (hany _ _) (always_along host).embedding hf ho
    exact ⟨outcome_tellsErrors hw hleaves, outcome_deliversFailures hh.embedding hc ho, ho⟩
  constructor
  · intro block scope pure
    refine (runHandler_follows hh block scope (hp pure) w).mono fun o w' => ?_
    cases block <;> exact tells (by exact trivial) rfl rfl
  · intro event scope pure
    exact (fire_follows hh event scope (hp pure) w).mono fun o w' => tells (by exact trivial) rfl rfl

/-- What fails in the handler of an event goes to the host with the frames of the action that threw it and of the
handler. -/
theorem thrown_error_shows_frames :
    let throws : Block := .actions [.throw (.literal (.str "no"))]
    let w : World := { scopes := #[{ context := 0, handlers := [("go", some throws)] }] }
    let o := (fire Host.plain { name := "go" } 0 false w).finish.1
    let w' := (fire Host.plain { name := "go" } 0 false w).finish.2
    Host.plain.Along World.SameReports ∧ TellsErrors o w' ∧ DeliversFailures World.SameReports w o w' ∧
      deliveredIn o.track.toList = [0] ∧ w'.host.unhandledErrors = #[0] ∧
      (w'.store.error 0).stack.frames.map (·.desc) =
        ["Running go handler (in [[]])", "throw action [throw(\"no\")]"] := by
  have hh : Host.plain.Along World.SameReports := Host.plain_along
  have hfire (event : Event) (w : World) :=
    Step.Ensures.finish ((error_contexts_exact Host.plain hh w).2 event 0 false) World.Tolerates.refl
  intro throws w o w'
  obtain ⟨htells, hdelivers, -⟩ := hfire { name := "go" } w
  exact ⟨hh, htells, hdelivers, by decide +kernel, by decide +kernel, by decide +kernel⟩

/-- A host whose functions throw errors of their own. -/
def throwingHost : Host := { Host.plain with
  function := fun _ _ => do
    let e ← Exec.newError { message := "lib threw" }
    throw (.thrown e "lib threw") }

/-- The call stack on which something fails at a moment. -/
def failedOn? : Moment → Option CallStack
  | .raised _ s _ | .threw _ _ _ s => some s
  | _ => none

/-- The error that is delivered at a moment. -/
def delivered? : Moment → Option ErrorRecord
  | .delivered _ record => some record
  | _ => none

/-- The error that a function throws does not show the stack of any failure, with or without itself on top: an action is
running that calls the function, and the error shows nothing. -/
theorem thrown_by_function_shows_nothing :
    let w : World := { scopes := #[{ context := 0 }], functions := [("t", { callee := .hosted "t" })] }
    let block : Block := .actions [.setReturn (.call "t" [])]
    ¬∀ front err record rest,
      (runHandler throwingHost (some block) 0 false w).finish.1.track.toList =
        front ++ .delivered err record :: rest →
      ∃ m ∈ front, ∃ s, failedOn? m = some s ∧
        (record.stack.frames = s.frames ∨ ∃ message, record.stack.frames = (s.pushError message).frames) := by
  intro w block
  have hs : ((runHandler throwingHost (some block) 0 false w).finish.1.track.toList.filterMap failedOn?).map
      CallStack.depth = [1] := by decide +kernel
  have hd : ((runHandler throwingHost (some block) 0 false w).finish.1.track.toList.filterMap delivered?).map
      (·.stack.frames) = [[]] := by decide +kernel
  generalize (runHandler throwingHost (some block) 0 false w).finish.1.track.toList = t at hs hd
  intro h
  obtain ⟨record, hr, hn⟩ := List.mem_map.mp (hd ▸ List.mem_singleton_self _)
  obtain ⟨m, hm, hr⟩ := List.mem_filterMap.mp hr
  cases m with
  | delivered err x =>
    cases hr
    obtain ⟨front, rest, ht⟩ := List.append_of_mem hm
    obtain ⟨m, hm, s, hf, hx⟩ := h front err record rest ht
    have hmem : s.depth ∈ (t.filterMap failedOn?).map CallStack.depth := by
      refine List.mem_map_of_mem (List.mem_filterMap.mpr ⟨m, ?_, hf⟩)
      rw [ht]
      exact List.mem_append_left _ hm
    rw [hs, List.mem_singleton] at hmem
    have hlen : s.frames.length = 1 := hmem
    rw [hn] at hx
    rcases hx with hx | ⟨message, hx⟩
    · rw [← hx] at hlen
      cases hlen
    · simp at hx
  | _ => cases hr

end Run

end EventScript
