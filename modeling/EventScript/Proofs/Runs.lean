import EventScript.Proofs.ConcretePaths
import EventScript.Proofs.CourseMoves

/-!
# Runs follow courses

Every list of actions, every event and every whole run follows a course, along every relation that its host follows and
that overlooks what the host is told to compute anew or to show.
-/

namespace EventScript

namespace Run

/-! ### Events -/

/-- An event goes to the handler that is found from where it starts; without one it goes to the host if it bubbles. -/
theorem dispatch_eq (run : RunItems) (recover : ScopeId → ErrorId → Job Unit) (event : Event) (scope : ScopeId)
    (pure : Bool) (p : Progress) (w : World) :
    dispatch run recover event scope pure p w =
      match (startOf w event scope).bind fun s => (w.findHandler s event.name p.stack event.bubble).map (s, ·) with
      | none => .done (.ok .null, p) (if event.bubble then (Exec.unhandledEvent event).after w else w)
      | some (s, b, owner) => runHandlerOf run event b s owner pure (recover s) p w := by
  unfold dispatch
  rw [Job.exec_bind (startScope_eq event scope w)]
  simp only [Job.world_bind, Job.callStack_bind]
  generalize ((startOf w event scope).bind fun s =>
    (w.findHandler s event.name p.stack event.bubble).map (s, ·)) = found
  cases found with
  | none => cases event.bubble <;> rfl
  | some _ => cases event.bubble <;> rfl

section Events

variable {rel : World → World → Prop} {g : Engine} {isPure : Bool}

/-- A way to run lists of actions follows courses. -/
def Runs (rel : World → World → Prop) (g : Engine) (isPure : Bool) (run : RunItems) : Prop :=
  ∀ items scope pure kind p w, (isPure = true → pure = true) →
    Follows rel g isPure (.block items scope) (run items scope pure kind) p w

/-- An error that goes to the host is delivered. -/
theorem escalate_follows {event : Event} {start : ScopeId} {err : ErrorId} {p : Progress} {w : World} (scope : ScopeId)
    (h : event.name = "error" ∨ w.limits.errorStack < (p.stack.depth : Int) ∨
      w.findHandler start "error" p.stack true = none) :
    Follows rel g isPure (.delivery event start err) (escalate scope err) p w :=
  ⟨[.escalated err], [.delivered err (w.store.error err)], by simp, by simp, .escalated h⟩

variable {run : RunItems} (hrun : Runs rel g isPure run) {pure : Bool} (hp : isPure = true → pure = true)
include hrun hp

theorem runBlock_follows (block : Block) (scope : ScopeId) (kind : String) (p : Progress) (w : World) :
    Follows rel g isPure (.script block scope) (runBlock run block scope pure kind) p w := by
  unfold runBlock Follows
  cases h : BlockItem.ofBlock block w with
  | ok items w₁ =>
    rw [Job.exec_bind h]
    refine Step.Ensures.mono (hrun items scope pure kind p w₁ hp) fun r w' hr => ?_
    obtain ⟨t, m, ht, hm, hc⟩ := hr
    exact ⟨t, m, ht, hm, .wellFormed h hc⟩
  | error f w' =>
    rw [Job.exec_bind_error h]
    exact ⟨[], _, by simp, by simp, .malformed scope h⟩

/-- The handler of an event follows a course, if what recovers from its failure delivers it. -/
theorem runHandlerOf_follows {event : Event} {block : Block} {start owner : ScopeId} {recover : ErrorId → Job Unit}
    (hr : ∀ err p w, Follows rel g isPure (.delivery event start err) (recover err) p w) (p : Progress) (w : World) :
    Follows rel g isPure (.handler event block start owner) (runHandlerOf run event block start owner pure recover)
      p w := by
  unfold runHandlerOf Follows
  rw [Job.note_bind]
  let html := "event" ++ (if event.bubble then "-bubble" else "") ++ "(" ++ event.name ++ ")"
  obtain ⟨scope, w₁, hs⟩ := childScope_total owner event.data html false w
  rw [Job.exec_bind hs]
  simp only [Job.callStack_bind, Job.world_bind, Job.changeStack_bind]
  let desc := "Running " ++ event.name ++ " handler (in [[" ++ w₁.fullHtml owner ++ "]])"
  refine Job.attempt_ensures (runBlock_follows hrun hp block scope "handler" _ w₁) fun a q w₂ hb => ?_
  obtain ⟨t, m, ht, hm, hb⟩ := hb
  replace ht : q.journal.toList = p.journal.toList ++ .handled event start owner :: t := toList_of_push ht
  replace hm : q.track.toList = p.track.toList ++ .moved (p.stack.push (handlerFrame event owner desc)) :: m :=
    toList_of_push hm
  -- what the handler leaves on the stack is above what was there before
  have hk : p.stack.frames <+: q.stack.frames :=
    (List.prefix_append _ _).trans (course_keep hb trivial (List.prefix_refl _))
  have hq : q.stack.revert p.stack.depth = q.stack.onto p.stack.frames := CallStack.revert_length hk
  cases a with
  | ok v =>
    have hc : Course rel g isPure (.handler event block start owner) p.stack w _ _ _ _ _ := .handled hs hb
    rw [← hq] at hc
    exact ⟨_, _, ht, by simp [hm, desc], hc⟩
  | error f =>
    cases hf : isCeiling f with
    | true =>
      simp only [Job.callStack_bind, hf, if_true]
      have hc : Course rel g isPure (.handler event block start owner) p.stack w _ _ _ _ _ := .fatal hs hb hf
      rw [← hq] at hc
      exact ⟨_, _, ht, by simp [hm, desc], hc⟩
    | false =>
      obtain ⟨err, w₃, he⟩ := errorOf_total f q.stack (some event.name) w₂
      obtain ⟨lines, hl⟩ := debugLine_ok ["EVENT error", event.name, (w₃.store.error err).message] w₃
      simp only [Job.callStack_bind, hf, Bool.false_eq_true, if_false]
      rw [Job.exec_bind he, Job.world_bind, Job.exec_bind hl]
      simp only [Job.changeStack_bind, Job.note_bind]
      refine Job.attempt_ensures (hr err _ _) fun a q' w₅ hd => ?_
      obtain ⟨t', m', ht', hm', hd⟩ := hd
      replace ht' : q'.journal.toList = q.journal.toList ++ .failed event start err :: t' := toList_of_push ht'
      replace hm' : q'.track.toList = q.track.toList ++ .moved (q.stack.onto p.stack.frames) :: m' := by
        rw [← hq]
        exact toList_of_push hm'
      change Course _ _ _ _ (q.stack.revert p.stack.depth) _ _ _ _ q'.stack _ at hd
      rw [hq] at hd
      have hq' : q'.stack.revert p.stack.depth = q'.stack.onto p.stack.frames :=
        CallStack.revert_length (course_keep hd trivial (List.prefix_refl _))
      have hc := Course.failed lines hs hb hf he hd
      rw [← hq'] at hc
      cases a with
      | ok _ => exact ⟨_, _, by simp [ht', ht], by simp [hm', hm, desc], hc⟩
      | error e => exact ⟨_, _, by simp [ht', ht], by simp [hm', hm, desc], hc⟩

/-- An event follows a course, if what recovers from the failure of its handler delivers it. -/
theorem dispatch_follows {recover : ScopeId → ErrorId → Job Unit} {event : Event}
    (hr : ∀ start err p w, Follows rel g isPure (.delivery event start err) (recover start err) p w) (scope : ScopeId)
    (p : Progress) (w : World) :
    Follows rel g isPure (.event event scope) (dispatch run recover event scope pure) p w := by
  unfold Follows
  rw [dispatch_eq]
  cases hstart : startOf w event scope with
  | none => exact ⟨[], [], by simp, by simp, .unheard (by rw [hstart]; rfl)⟩
  | some start =>
    rw [Option.bind_some]
    cases hfound : w.findHandler start event.name p.stack event.bubble with
    | none => exact ⟨[], [], by simp, by simp, .unheard (by rw [hstart]; exact hfound)⟩
    | some found =>
      obtain ⟨block, owner⟩ := found
      exact (runHandlerOf_follows hrun hp (hr start) p w).mono (.heard hstart hfound)

/-- A failure is told to scripts by an error event or, in the end, to the host. -/
theorem fireError_follows (event : Event) (start : ScopeId) (err : ErrorId) (p : Progress) (w : World) :
    Follows rel g isPure (.delivery event start err) (fireError run event pure start err) p w := by
  unfold fireError Follows
  simp only [Job.callStack_bind, Job.world_bind]
  split
  · rename_i hc
    simp only [Bool.or_eq_true, beq_iff_eq, decide_eq_true_eq, Option.isNone_iff_eq_none, or_assoc] at hc
    exact escalate_follows start hc
  · rename_i hc
    simp only [Bool.or_eq_true, not_or, beq_iff_eq, decide_eq_true_eq, Option.isNone_iff_eq_none, Int.not_lt] at hc
    obtain ⟨⟨hn, hd⟩, hf⟩ := hc
    obtain ⟨⟨block, owner⟩, hf⟩ := Option.ne_none_iff_exists'.mp hf
    let message := (w.store.error err).message
    let q : Progress := (p.pass (.delivered err (w.store.error err))).move (p.stack.pushError message)
    have hq : w.findHandler start (errorEvent event err).name q.stack true = some (block, owner) :=
      (findHandler_pushError _ _ _ _ message _).trans hf
    have hd : Follows rel g isPure (.handler (errorEvent event err) block start owner)
        (dispatch run escalate (errorEvent event err) start pure) q w := by
      unfold Follows
      rw [dispatch_eq, show startOf w (errorEvent event err) start = some start from rfl, Option.bind_some]
      rw [show w.findHandler start (errorEvent event err).name q.stack (errorEvent event err).bubble = _ from hq]
      exact runHandlerOf_follows hrun hp (fun e p w => escalate_follows start (.inl rfl)) q w
    refine Step.Ensures.mono (hd.drop ()) fun r w' hh => ?_
    obtain ⟨t, m, ht, hm, h⟩ := hh
    exact ⟨t, _, ht, toList_of_push (toList_of_push hm), .refired hn ‹_› hf h⟩

theorem fireEvent_follows (event : Event) (scope : ScopeId) (p : Progress) (w : World) :
    Follows rel g isPure (.event event scope) (fireEvent run event scope pure) p w :=
  dispatch_follows hrun hp (fireError_follows hrun hp event) scope p w

end Events

/-! ### Actions -/

section Actions

variable {rel : World → World → Prop} [World.OverlooksNews rel] {host : Host} (hh : host.Along rel) {g : Engine}
  (hg : g.Along rel) {isPure : Bool}

include hg

/-- A value is written to a place that needs no evaluation and, under `pure`, in the context. -/
theorem assign_follows {pure : Bool} (hp : isPure = true → pure = true) (target : Path) (op : WriteOp) (v : Value)
    (scope : ScopeId) (p : Progress) (w : World) :
    Follows rel g isPure (.calm scope) (assign g target op v scope pure) p w := by
  unfold assign Follows
  have hw : rel w _ := Engine.concretePath_along hg target (some scope) w
  cases hq : g.concretePath target (some scope) w with
  | error f w' =>
    rw [Exec.after_error hq] at hw
    rw [Job.exec_bind_error hq]
    exact ⟨[], _, by simp, by simp, .seq rfl (.computed hw) (.raised _ _ _ f)⟩
  | ok q w₁ =>
    rw [Exec.after_ok hq] at hw
    rw [Job.exec_bind hq]
    have hs : q.isStatic = true := by
      obtain ⟨w₂, w₃, -, hq⟩ := Exec.bind_eq_ok hq
      exact Path.concrete_isStatic hq
    split
    · obtain ⟨f, hfail⟩ := Path.failWith_eq_throw (α := PUnit) q .pureTarget
      rw [hfail]
      exact ⟨[], _, by simp, by simp, .seq rfl (.computed hw) (.raised _ _ _ f)⟩
    · rename_i hc
      have hk : isPure = true → q.rootKey?.any RootKey.isContext = true := by
        intro h
        simpa [hp h] using hc
      simp only [Job.world_bind, Job.note_bind]
      unfold Job.exec
      cases hx : g.writePath q scope v op true w₁ with
      | ok _ w' =>
        exact ⟨[.assigned w₁ scope q op v], [], by simp, by simp, .seq rfl (.computed hw) (.assigned hs hk hx)⟩
      | error f w' =>
        exact ⟨[.assigned w₁ scope q op v], _, by simp, by simp, .seq rfl (.computed hw) (.refused hs hk hx)⟩

theorem storeResult_follows {pure : Bool} (hp : isPure = true → pure = true) (target : Option (Path × WriteOp))
    (v : Value) (scope : ScopeId) (p : Progress) (w : World) :
    Follows rel g isPure (.calm scope) (storeResult g target v scope pure) p w := by
  cases target with
  | none => exact .pure ()
  | some t => exact assign_follows hg hp t.1 t.2 v scope p w

theorem logValues_follows (exprs : List Expr) (debug : Bool) (scope : ScopeId) (p : Progress) (w : World) :
    Follows rel g isPure (.calm scope) (logValues g exprs debug scope) p w := by
  have hv := Exec.Along.mapM (fun e => Engine.evalResolved_along hg e (some scope)) exprs
  refine .bindCalm (.exec (.bind hv fun vs => .bind .get fun w => .bind (.ofExcept _ _) fun ts => .pure _)) ?_
  intro message _ _
  refine .bindCalm (.exec (.log _ _)) fun _ _ _ => .bindCalm (.addEffect _ _) fun _ _ _ => ?_
  split
  · refine .bindCalm .callStack fun stack _ _ => ?_
    refine .bindCalm (.exec (.bind .get fun w => .ofExcept _ _)) fun lines _ _ => ?_
    exact .bindCalm (.exec (.log _ _)) fun _ _ _ => .addEffect _ _
  · exact .pure _

/-- A throw action fails with an error that has the call stack of the action. -/
theorem throwValue_follows (data : Expr) (scope : ScopeId) (p : Progress) (w : World) :
    Follows rel g isPure (.calm scope) (throwValue g data scope) p w := by
  have hv := Exec.Along.bind (hg.eval data (some scope)) fun v => Engine.through_along hg v
  refine .bindCalm (.exec hv) fun v p w => ?_
  unfold Follows
  rw [Job.callStack_bind]
  cases hk : knownError? w.store v with
  | some known =>
    obtain ⟨err, x⟩ := known
    obtain ⟨hsize, rfl⟩ := knownError?_eq_some hk
    have he : errorToThrow v p.stack w = .ok (err, (w.store.error err).message, true) (w.rethrow err p.stack) := by
      unfold errorToThrow
      rw [Exec.store_bind, hk]
      rfl
    rw [Job.exec_bind he]
    exact ⟨[], _, by simp, by simp, .rethrew scope p.stack hsize⟩
  | none =>
    have he : errorToThrow v p.stack w = (displayOf v >>= fun message =>
        Exec.newError { message, stack := p.stack } >>= fun e => Pure.pure (e, message, false)) w := by
      unfold errorToThrow
      rw [Exec.store_bind, hk]
    have hd : rel w ((displayOf v).after w) := displayOf_along v w
    cases hm : displayOf v w with
    | error f w₁ =>
      rw [Exec.after_error hm] at hd
      rw [Job.exec_bind_error (he.trans (Exec.bind_error hm))]
      exact ⟨[], _, by simp, by simp, .seq rfl (.computed hd) (.raised _ _ _ f)⟩
    | ok message w₁ =>
      rw [Exec.after_ok hm] at hd
      obtain ⟨err, w₂, hnew⟩ : ∃ err w₂, Exec.newError { message, stack := p.stack } w₁ = .ok err w₂ := ⟨_, _, rfl⟩
      rw [Job.exec_bind (he.trans ((Exec.bind_ok hm).trans (Exec.bind_ok hnew)))]
      exact ⟨[], _, by simp, by simp, .seq rfl (.computed hd) (.threw scope hnew)⟩

include hh

variable {run : RunItems} (hrun : Runs rel g isPure run) {pure : Bool} (hp : isPure = true → pure = true)
include hrun hp

theorem callHandler_follows {address : Exec HandlerPath} (ha : address.Along rel) (data : Option Expr)
    (target : Option (Path × WriteOp)) (scope : ScopeId) (p : Progress) (w : World) :
    Follows rel g isPure (.body scope) (callHandler host g run address data target scope pure) p w := by
  have hd := evalOption_along (fun e => hg.eval e (some scope)) data
  have ht (v : Value) (p : Progress) (w : World) :
      Follows rel g isPure (.calm scope) (storeResult g target v scope pure) p w :=
    storeResult_follows hg hp target v scope p w
  refine .bind rfl (.exec ha) fun path p w => ?_
  refine .bind rfl (.exec (.bind hd fun v => .bind (deepCopy_along hg.read false v) fun v => .bind .get fun w =>
    .allocateObject _)) fun object p w => ?_
  refine .called (.bind rfl .world fun w₀ p w => .bind rfl .callStack fun stack p w => ?_)
  refine .bind rfl (.await (hh.reply _)) fun reply p w => ?_
  refine .bind rfl (.exec (ofReply_along reply)) fun reply p w => ?_
  cases reply with
  | error v => exact (Follows.bindCalm (.pure v) ht).mono .inAnswer
  | ok items =>
    refine .bind rfl .world fun w₀ p w => .bind rfl (.exec (Exec.childScope_along _ _ _ _)) ?_
    exact fun inner p w => .ran (hrun items inner pure "handler" p w hp) ht

/-- One action follows a course, if the lists of actions in it do. -/
theorem perform_follows (scope : ScopeId) (a : Action) (p : Progress) (w : World) :
    Follows rel g isPure (.body scope) (perform host g run scope pure a) p w := by
  cases a with
  | assign target op data =>
    exact (Follows.bindCalm (.exec (hg.eval data _)) fun v p w =>
      .drop none (assign_follows hg hp target op v scope p w)).mono .inBody
  | cond test thenBlock elseBlock =>
    have block (desc : String) (as : List Action) (p w) :
        Follows rel g isPure (.body scope) (Job.changeStack (·.pushDesc desc) >>= fun _ =>
          run (as.map .action) scope pure "block" >>= fun _ => (Pure.pure none : Job (Option Value))) p w :=
      .changeStack (.drop none (hrun _ scope pure "block" _ w hp)) (.clause desc _)
    refine .bind rfl (.exec (.bind (Engine.evalResolved_along hg test _) fun v => .ofExcept _ v.toBool))
      fun holds p w => ?_
    split
    · exact block "then clause" thenBlock p w
    · cases elseBlock with
      | none => exact (Follows.pure none).mono .inBody
      | some as => exact block "else clause" as p w
  | setReturn data => exact (Follows.bindCalm (.exec (hg.eval data _)) fun v _ _ => .pure (some v)).mono .inBody
  | call callee data target op url method module pureCall =>
    have hq : isPure = true → (pure || pureCall) = true := fun h => by simp [hp h]
    exact .drop none (callHandler_follows hh hg hrun hq (callAddress_along hg callee url method module scope)
      data _ scope p w)
  | invalidate data =>
    dsimp only [perform]
    split
    · exact (Follows.drop none (.exec (invalidate_along hg data scope))).mono .inBody
    · exact (Follows.pure none).mono .inBody
  | fire name data bubble target =>
    refine .bind rfl (.exec (eventOf_along hg name data bubble target scope)) fun event p w => ?_
    cases event with
    | none => exact (Follows.drop none (.pure ())).mono .inBody
    | some event => exact (Follows.drop none (fireEvent_follows hrun hp event scope p w)).mono .fired
  | log exprs debug => exact (Follows.drop none (logValues_follows hg exprs debug scope p w)).mono .inBody
  | throw data => exact (Follows.drop none (throwValue_follows hg data scope p w)).mono .inBody
  | nop => exact (Follows.pure none).mono .inBody
  | markup data =>
    exact (Follows.drop none (.exec (.bind (Engine.evalResolved_along hg data _) fun v =>
      installMarkup_along v))).mono .inBody
  | foreign typeName kind text => exact (Follows.fail _).mono .inBody

theorem performItem_follows (scope : ScopeId) (item : BlockItem) (p : Progress) (w : World) :
    Follows rel g isPure (.item scope) (performItem host g run scope pure item) p w := by
  cases item with
  | stray v => exact .bind rfl .world fun w q w' => ⟨[], _, by simp, by simp, .gaveUp rfl (.raised _ _ _ _)⟩
  | action a =>
    refine .bind rfl (.exec (.bind .get fun w => .ofExcept _ _)) fun desc p w => ?_
    exact .changeStack (perform_follows hh hg hrun hp scope a _ w) (.described desc)

end Actions

/-! ### Lists of actions -/

section Lists

variable {rel : World → World → Prop} {g : Engine} {isPure : Bool}

/-- An action is counted, and then others go on unless it is one too many. -/
theorem countAction_bind {α : Type} (x : Unit → Job α) (p : Progress) (w : World) :
    (countAction >>= x) p w =
      if w.limits.actions < (p.stack.actions + 1 : Nat) then
        (exceed (.actions w.limits.actions) : Job α) (p.move p.stack.countAction) w
      else x () (p.move p.stack.countAction) w := by
  change ((if w.limits.actions < (p.stack.actions + 1 : Nat) then exceed (.actions w.limits.actions)
    else Pure.pure () : Job Unit) (p.move p.stack.countAction) w).bind _ = _
  split <;> rfl

/-- The items that are left of a block follow a course, one after the other, whatever the last one has left on the
stack. -/
theorem sequence_follows {scope : ScopeId} {one : BlockItem → Job (Option Value)}
    (ho : ∀ item p w, Follows rel g isPure (.item scope) (one item) p w) {outer : List Frame} (last : Value)
    (items : List BlockItem) (p : Progress) (w : World) (hs : outer <+: p.stack.frames) :
    Follows rel g isPure (.items outer items scope) (sequence one outer.length last items) p w := by
  induction items generalizing last p w with
  | nil => exact ⟨[], [], by simp, by simp, .finished _ _ _ _⟩
  | cons item rest ih =>
    unfold sequence Follows
    rw [Job.changeStack_bind, countAction_bind, CallStack.revert_length hs]
    split
    · rename_i hn
      exact ⟨[.exceeded _], _, by simp [Progress.move, Progress.pass],
        by simp [Progress.move, Progress.pass, Fault.ownStack], .tooMany outer item rest scope hn⟩
    · rename_i hn
      rw [Job.note_bind]
      refine Step.Ensures.bind (ho item _ w) fun r w₁ hr => ?_
      obtain ⟨t, m, ht, hm, hc⟩ := hr
      replace hm := toList_of_push (toList_of_push hm)
      obtain ⟨f | v, q⟩ := r
      · exact ⟨_, _, toList_of_push ht, hm, .broken (Int.not_lt.mp hn) hc⟩
      · have hq : outer <+: q.stack.frames := course_keep hc trivial (List.prefix_refl _)
        refine Step.Ensures.mono (ih (v.getD last) q w₁ hq) fun r w₂ hr => ?_
        obtain ⟨t', m', ht', hm', hc'⟩ := hr
        refine ⟨.performed item :: (t ++ t'), .moved _ :: .moved _ :: (m ++ m'), ?_, ?_,
          .performed (Int.not_lt.mp hn) hc hc'⟩
        · rw [ht', toList_of_push ht, List.append_assoc]
          rfl
        · rw [hm', hm, List.append_assoc]
          rfl

theorem runList_follows {one : ScopeId → Bool → BlockItem → Job (Option Value)}
    (ho : ∀ scope pure item p w, (isPure = true → pure = true) →
      Follows rel g isPure (.item scope) (one scope pure item) p w) :
    Runs rel g isPure (runList one) := by
  intro items scope pure kind p w hp
  unfold runList Follows
  simp only [Job.world_bind, Job.callStack_bind]
  split
  · rename_i hd
    exact ⟨[.exceeded _], _, by simp [Progress.pass], by simp [Progress.pass, Fault.ownStack], .tooDeep items scope hd⟩
  · rename_i hd
    have hd := Int.not_lt.mp hd
    rw [Job.note_bind]
    refine Step.Ensures.bind (sequence_follows (fun item p w => ho scope pure item p w hp) .null items _ w
      (List.prefix_refl _)) fun r w₁ hr => ?_
    obtain ⟨t, m, ht, hm, hc⟩ := hr
    obtain ⟨f | v, q⟩ := r
    · exact ⟨_, m, toList_of_push ht, hm, .stopped hd hc⟩
    · have hk : p.stack.frames <+: q.stack.frames := course_keep hc trivial (List.prefix_refl _)
      obtain ⟨lines, hl⟩ := debugLine_ok ["BLOCK done", kind, "actions", toString items.length] w₁
      have hc' := Course.left lines hd hc
      rw [← CallStack.revert_length hk] at hc'
      dsimp only
      rw [Job.note_bind, Job.changeStack_bind, Job.exec_bind hl]
      refine ⟨.entered p.stack.depth items :: (t ++ [.left]), m ++ [.moved (q.stack.revert p.stack.depth)], ?_, ?_, hc'⟩
      · change (q.journal.push .left).toList = _
        rw [Array.toList_push, toList_of_push ht, List.append_assoc]
        rfl
      · change (q.track.push (.moved (q.stack.revert p.stack.depth))).toList = _
        rw [Array.toList_push, hm, List.append_assoc]

end Lists

variable {rel : World → World → Prop} [World.OverlooksNews rel] {host : Host} (hh : host.Along rel) {g : Engine}
  (hg : g.Along rel) {isPure : Bool}

include hh hg in
theorem runItems_follows (budget : Nat) : Runs rel g isPure (runItems host g budget) := by
  induction budget with
  | zero =>
    refine runList_follows fun scope pure item p w _ => .bind rfl .world fun w q w' => ?_
    exact ⟨[.exceeded _], _, by simp [Progress.pass], by simp [Progress.pass, Fault.ownStack], .spent _ _ _ _⟩
  | succ budget ih => exact runList_follows fun scope pure item p w hp => performItem_follows hh hg ih hp scope item p w

/-! ### Whole runs -/

/-- How a run ends after its course: with a value, or with the error of its failure, which is reported to the host and
handed over. -/
def Ends : Option Fault → CallStack → World → List Moment → Outcome → World → Prop
  | none, _, w, m, o, w' => w' = w ∧ o.track.toList = m ∧ ∃ v, o.result = .success v
  | some f, s, w, m, o, w' => ∃ err w₁, Exec.errorOf f (stackOf f s) none w = .ok err w₁ ∧
      w' = (Exec.reportError err).after w₁ ∧ o.track.toList = m ++ [.delivered err (w₁.store.error err)] ∧
      o.result = .failure (failureMessage w₁ f) (some err)

/-- The outcome of a run tells of the course of a chapter and of how it ended. -/
def Follows.Outcome (rel : World → World → Prop) (g : Engine) (isPure : Bool) (c : Chapter) (w : World) (o : Outcome)
    (w' : World) : Prop :=
  ∃ m e s w₁, Course rel g isPure c {} w o.journal.toList m e s w₁ ∧ Ends e s w₁ m o w'

/-- What the result of a run tells about how it ended. -/
def Tells : Option Fault → Result → Prop
  | none, .success _ => True
  | some f, .failure message _ =>
    ∃ text, message = f.heading ++ ": " ++ text ∧ ∀ cause stack, f = .ceiling cause stack → text = cause.message
  | _, _ => False

theorem Ends.tells {e : Option Fault} {s : CallStack} {w w' : World} {m : List Moment} {o : Outcome}
    (h : Ends e s w m o w') : Tells e o.result := by
  cases e with
  | none =>
    obtain ⟨-, -, v, hv⟩ := h
    rw [hv]
    trivial
  | some f =>
    obtain ⟨err, w₁, -, -, -, hr⟩ := h
    rw [hr]
    refine ⟨_, rfl, fun cause stack hf => ?_⟩
    rw [hf]
    rfl

theorem Ends.mem_track {e : Option Fault} {s : CallStack} {w w' : World} {m : List Moment} {o : Outcome} {x : Moment}
    (h : Ends e s w m o w') (hx : x ∈ m) : x ∈ o.track.toList := by
  cases e with
  | none =>
    obtain ⟨-, ht, -⟩ := h
    exact ht ▸ hx
  | some f =>
    obtain ⟨err, w₁, -, -, ht, -⟩ := h
    exact ht ▸ List.mem_append_left _ hx

omit [World.OverlooksNews rel] in
theorem outcomeOf_follows {c : Chapter} {x : Job Value} {w : World} (hx : Follows rel g isPure c x {} w) :
    (outcomeOf x w).Ensures rel (Follows.Outcome rel g isPure c w) := by
  let told (r : Except Fault Outcome × Progress) (w' : World) : Prop :=
    ∃ o, r.1 = .ok o ∧ Follows.Outcome rel g isPure c w
      { o with effects := r.2.effects, journal := r.2.journal, track := r.2.track } w'
  refine Step.Ensures.bind (P := told) ?_ fun r w' hr => ?_
  · refine Job.attempt_ensures hx fun a p w₁ hc => ?_
    obtain ⟨t, m, ht, hm, hc⟩ := hc
    obtain rfl : p.journal.toList = t := ht
    obtain rfl : p.track.toList = m := hm
    cases a with
    | ok v => exact ⟨_, rfl, _, none, _, w₁, hc, rfl, rfl, v, rfl⟩
    | error f =>
      obtain ⟨err, w₂, h₂⟩ := errorOf_total f (stackOf f p.stack) none w₁
      obtain ⟨w₃, h₃⟩ := reportError_total err w₂
      dsimp only
      unfold failureOutcome
      rw [Job.callStack_bind, Job.exec_bind h₂, Job.world_bind, Job.exec_bind h₃]
      refine ⟨_, rfl, _, some f, _, w₁, hc, err, w₂, h₂, (Exec.after_ok h₃).symm, ?_, rfl⟩
      change (p.track.push (.delivered err (w₃.store.error err))).toList = _
      rw [Array.toList_push, reportError_store h₃]
  · obtain ⟨a, p⟩ := r
    obtain ⟨o, rfl, ho⟩ := hr
    exact ho

/-- What the run of a block is about, if there is one. -/
def chapterOf (block : Option Block) (scope : ScopeId) : Chapter :=
  match block with
  | none => .calm scope
  | some b => .script b scope

include hh

/-- A handler block follows a course. -/
theorem runHandler_follows (block : Option Block) (scope : ScopeId) {pure : Bool} (hp : isPure = true → pure = true)
    (w : World) :
    (runHandler host block scope pure w).Ensures rel
      (Follows.Outcome rel (Engine.full host.toEmbedding) isPure (chapterOf block scope) w) := by
  refine outcomeOf_follows ?_
  cases block with
  | none => exact .pure _
  | some b =>
    have hrun : Runs rel _ isPure _ := runItems_follows hh (Engine.full_along hh.embedding) (budget w)
    exact runBlock_follows hrun hp b scope "handler" {} w

/-- An event that is fired from outside follows a course. -/
theorem fire_follows (event : Event) (scope : ScopeId) {pure : Bool} (hp : isPure = true → pure = true) (w : World) :
    (fire host event scope pure w).Ensures rel
      (Follows.Outcome rel (Engine.full host.toEmbedding) isPure (.event event scope) w) := by
  have hrun : Runs rel _ isPure _ := runItems_follows hh (Engine.full_along hh.embedding) (budget w)
  refine outcomeOf_follows ?_
  unfold Follows
  rw [Job.world_bind]
  exact fireEvent_follows hrun hp event scope {} w

end Run

end EventScript
