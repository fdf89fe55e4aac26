import EventScript.Proofs.Ceilings
import Mathlib.Logic.Function.Iterate

/-!
# Unrolling runs

Lists of actions are run by a way to run the lists of actions inside them. Every round of that uses up an action, so it
makes no difference what stands at the end of more rounds than actions are left: the run never gets there.
-/

namespace EventScript

namespace Step

variable {ρ τ : Type} {rely : World → World → Prop}

/-- Two computations do the same for as long as the world changes along a relation while they pause. -/
inductive Agree (rely : World → World → Prop) : Step ρ → Step ρ → Prop where
  | done (r : ρ) (w : World) : Agree rely (.done r w) (.done r w)
  | paused (why : Pause) (w : World) {resume resume' : World → Step ρ} :
      (∀ w', rely w w' → Agree rely (resume w') (resume' w')) →
      Agree rely (.paused why w resume) (.paused why w resume')

theorem Agree.refl (s : Step ρ) : Agree rely s s := by
  induction s with
  | done r w => exact .done r w
  | paused why w resume ih => exact .paused why w fun w' _ => ih w'

/-- What goes on from the same outcomes does the same if it does so from all that can come about. -/
theorem Agree.bind {P : ρ → World → Prop} {s s' : Step ρ} {f f' : ρ → World → Step τ} (h : Agree rely s s')
    (hs : s.Ensures rely P) (hf : ∀ r w, P r w → Agree rely (f r w) (f' r w)) :
    Agree rely (s.bind f) (s'.bind f') := by
  induction h with
  | done r w => exact hf r w hs
  | paused why w _ ih => exact .paused why w fun w' hw => ih w' hw (hs w' hw)

theorem Agree.bindSame {s s' : Step ρ} (f : ρ → World → Step τ) (h : Agree rely s s') :
    Agree rely (s.bind f) (s'.bind f) := by
  induction h with
  | done r w => exact .refl _
  | paused why w _ ih => exact .paused why w ih

theorem Agree.finish {s s' : Step ρ} (h : Agree rely s s') (hr : ∀ w, rely w w) : s.finish = s'.finish := by
  induction h with
  | done r w => rfl
  | paused why w _ ih => exact ih w (hr w)

end Step

namespace Run

open World (SameLimits)

/-- At most so many actions are left. -/
def Left (n : Nat) (p : Progress) (w : World) : Prop := w.limits.actions ≤ (p.stack.actions + n : Nat)

/-- A job that leaves the limits as they are and takes no action back. -/
def Spends {α : Type} (x : Job α) : Prop :=
  ∀ p w, (x p w).Ensures SameLimits fun r w' => SameLimits w w' ∧ p.stack.actions ≤ r.2.stack.actions

/-- Two jobs that do the same where at most so many actions are left. -/
def Alike (n : Nat) {α : Type} (x y : Job α) : Prop :=
  ∀ p w, Left n p w → Step.Agree SameLimits (x p w) (y p w)

section Jobs

variable {α β : Type} {n : Nat} {x y : Job α}

theorem Left.spent {p q : Progress} {w w' : World} (h : Left n p w) (hw : SameLimits w w')
    (hq : p.stack.actions ≤ q.stack.actions) : Left n q w' := by
  unfold Left SameLimits at *
  rw [hw]
  omega

theorem Follows.spends {g : Engine} (hwrite : ∀ p scope v op, (g.writePath p scope v op true).Along SameLimits)
    {c : Chapter} (hc : ∀ s w, c.Founded s w) (hx : ∀ p w, Follows SameLimits g false c x p w) : Spends x := fun p w =>
  Step.Ensures.mono (hx p w) fun _ _ ⟨_, _, _, _, h⟩ =>
    ⟨course_leads id hwrite h, moves_actions (course_moves id hwrite h (hc _ _))⟩

theorem Spends.world : Spends Job.world := fun _ _ => ⟨rfl, Nat.le_refl _⟩

theorem Spends.callStack : Spends Job.callStack := fun _ _ => ⟨rfl, Nat.le_refl _⟩

theorem Spends.note (h : Happening) : Spends (Job.note h) := fun _ _ => ⟨rfl, Nat.le_refl _⟩

theorem Spends.pass (m : Moment) : Spends (Job.pass m) := fun _ _ => ⟨rfl, Nat.le_refl _⟩

theorem Spends.deliver (err : ErrorId) : Spends (Job.deliver err) := fun _ _ => ⟨rfl, Nat.le_refl _⟩

theorem Spends.exec {x : Exec α} (hx : x.Along SameLimits) : Spends (Job.exec x) := fun p w => by
  have hw := hx w
  unfold Exec.after at hw
  unfold Job.exec
  cases h : x w with
  | ok a w' =>
    rw [h] at hw
    exact ⟨hw, Nat.le_refl _⟩
  | error f w' =>
    rw [h] at hw
    exact ⟨hw, Nat.le_refl _⟩

theorem Spends.await {x : World → Step (Except Fault α)} (hx : ∀ w, (x w).Along SameLimits w) : Spends (Job.await x) :=
  fun p w => Step.Ensures.bind (hx w).ensures fun r w' hw => by
    cases r <;> exact ⟨hw, Nat.le_refl _⟩

theorem Spends.changeStack {f : CallStack → CallStack} (hf : ∀ s, (f s).actions = s.actions) :
    Spends (Job.changeStack f) := fun p _ => ⟨rfl, Nat.le_of_eq (hf p.stack).symm⟩

theorem Spends.bind {f : α → Job β} (hx : Spends x) (hf : ∀ a, Spends (f a)) : Spends (x >>= f) := fun p w => by
  refine Step.Ensures.bind (hx p w) fun r w₁ hr => ?_
  obtain ⟨e | a, q⟩ := r
  · exact hr
  · exact (hf a q w₁).mono fun r w₂ hr' =>
      ⟨World.Tolerates.trans hr.1 hr'.1, Nat.le_trans hr.2 hr'.2⟩

theorem Spends.attempt (hx : Spends x) : Spends x.attempt := fun p w =>
  Step.Ensures.bind (hx p w) fun _ _ hr => hr

theorem Alike.refl (x : Job α) : Alike n x x := fun _ _ _ => .refl _

theorem Alike.bind {f f' : α → Job β} (h : Alike n x y) (hx : Spends x) (hf : ∀ a, Alike n (f a) (f' a)) :
    Alike n (x >>= f) (y >>= f') := fun p w hl => by
  refine Step.Agree.bind (h p w hl) (hx p w) fun r w' hr => ?_
  obtain ⟨e | a, q⟩ := r
  · exact .done _ _
  · exact hf a q w' (hl.spent hr.1 hr.2)

theorem Alike.after {f f' : α → Job β} (hx : Spends x) (hf : ∀ a, Alike n (f a) (f' a)) :
    Alike n (x >>= f) (x >>= f') :=
  .bind (.refl x) hx hf

theorem Alike.before (h : Alike n x y) (f : α → Job β) : Alike n (x >>= f) (y >>= f) := fun p w hl =>
  Step.Agree.bindSame _ (h p w hl)

theorem Alike.attempt (h : Alike n x y) : Alike n x.attempt y.attempt := fun p w hl =>
  Step.Agree.bindSame _ (h p w hl)

end Jobs

/-- A way to run lists of actions that leaves the limits as they are and takes no action back. -/
def SpendsRuns (run : RunItems) : Prop := ∀ items scope pure kind, Spends (run items scope pure kind)

/-- Two ways to run lists of actions do the same where at most so many actions are left. -/
def AlikeRuns (n : Nat) (run run' : RunItems) : Prop :=
  ∀ items scope pure kind, Alike n (run items scope pure kind) (run' items scope pure kind)

section Events

variable {n : Nat} {run run' : RunItems} (hrun : AlikeRuns n run run')
include hrun

theorem runBlock_alike (block : Block) (scope : ScopeId) (pure : Bool) (kind : String) :
    Alike n (runBlock run block scope pure kind) (runBlock run' block scope pure kind) :=
  .after (.exec (ofBlock_along block)) fun items => hrun items scope pure kind

variable (ht : SpendsRuns run)
include ht

theorem runHandlerOf_alike {recover recover' : ErrorId → Job Unit} (hr : ∀ err, Alike n (recover err) (recover' err))
    (event : Event) (block : Block) (start owner : ScopeId) (pure : Bool) :
    Alike n (runHandlerOf run event block start owner pure recover)
      (runHandlerOf run' event block start owner pure recover') := by
  refine .after (.note _) fun _ => .after (.exec (Exec.childScope_along _ _ _ _)) fun scope => ?_
  refine .after .callStack fun s => .after .world fun w => .after (.changeStack fun _ => rfl) fun _ => ?_
  have hb := runBlock_alike hrun block scope pure "handler"
  have hs := Spends.bind (.exec (ofBlock_along block)) fun items => ht items scope pure "handler"
  refine .bind hb.attempt (.attempt hs) fun a => ?_
  cases a with
  | ok v => exact .refl _
  | error f =>
    refine .after .callStack fun stack => ?_
    split
    · exact .refl _
    · refine .after (.exec (errorOf_along _ _ _)) fun err => .after .world fun w => ?_
      refine .after (.exec (.debugLine _)) fun _ => .after (.changeStack fun _ => rfl) fun _ => ?_
      exact .after (.note _) fun _ => .before (hr err).attempt _

theorem dispatch_alike {recover recover' : ScopeId → ErrorId → Job Unit}
    (hr : ∀ start err, Alike n (recover start err) (recover' start err)) (event : Event) (scope : ScopeId)
    (pure : Bool) : Alike n (dispatch run recover event scope pure) (dispatch run' recover' event scope pure) := by
  have hs : (startScope event scope).Along SameLimits := fun w => by
    rw [Exec.after_ok (startScope_eq event scope w)]
    exact rfl
  refine .after (.exec hs) fun start => ?_
  refine .after .world fun w => .after .callStack fun stack => ?_
  split
  · exact .refl _
  · exact runHandlerOf_alike hrun ht (hr _) event _ _ _ pure

theorem fireError_alike (event : Event) (pure : Bool) (start : ScopeId) (err : ErrorId) :
    Alike n (fireError run event pure start err) (fireError run' event pure start err) := by
  refine .after .callStack fun stack => .after .world fun w => ?_
  split
  · exact .refl _
  · refine .after (.deliver err) fun _ => ?_
    refine .after (.changeStack fun _ => rfl) fun _ => .before ?_ _
    exact dispatch_alike hrun ht (fun _ _ => .refl _) _ start pure

theorem fireEvent_alike (event : Event) (scope : ScopeId) (pure : Bool) :
    Alike n (fireEvent run event scope pure) (fireEvent run' event scope pure) :=
  dispatch_alike hrun ht (fireError_alike hrun ht event pure) event scope pure

end Events

section Actions

variable {n : Nat} {host : Host} (hh : host.Along SameLimits) {g : Engine} (hg : g.Along SameLimits)
  {run run' : RunItems} (hrun : AlikeRuns n run run')
include hh hg hrun

theorem callHandler_alike {address : Exec HandlerPath} (ha : address.Along SameLimits) (data : Option Expr)
    (target : Option (Path × WriteOp)) (scope : ScopeId) (pure : Bool) :
    Alike n (callHandler host g run address data target scope pure)
      (callHandler host g run' address data target scope pure) := by
  have hd := evalOption_along (fun e => hg.eval e (some scope)) data
  refine .after (.exec ha) fun path => ?_
  refine .after (.exec (.bind hd fun v => .bind (deepCopy_along hg.read false v) fun v => .bind .get fun w =>
    .allocateObject _)) fun object => ?_
  refine .after (.changeStack fun _ => rfl) fun _ => .after (.pass _) fun _ => ?_
  refine .after .world fun w => .after .callStack fun stack => ?_
  refine .after (.await (hh.reply _)) fun reply => .after (.exec (ofReply_along reply)) fun reply => ?_
  cases reply with
  | error v => exact .refl _
  | ok items =>
    refine .after .world fun w => .after (.exec (Exec.childScope_along _ _ _ _)) fun inner => ?_
    exact .before (hrun items inner pure "handler") _

variable (ht : SpendsRuns run)
include ht

theorem perform_alike (scope : ScopeId) (pure : Bool) (a : Action) :
    Alike n (perform host g run scope pure a) (perform host g run' scope pure a) := by
  have block (desc : String) (as : List Action) :
      Alike n (Job.changeStack (·.pushDesc desc) >>= fun _ =>
          run (as.map .action) scope pure "block" >>= fun _ => (Pure.pure none : Job (Option Value)))
        (Job.changeStack (·.pushDesc desc) >>= fun _ =>
          run' (as.map .action) scope pure "block" >>= fun _ => (Pure.pure none : Job (Option Value))) :=
    .after (.changeStack fun _ => rfl) fun _ => .before (hrun _ scope pure "block") _
  cases a with
  | cond test thenBlock elseBlock =>
    refine .after (.exec (.bind (Engine.evalResolved_along hg test _) fun v => .ofExcept _ v.toBool)) fun holds => ?_
    split
    · exact block "then clause" thenBlock
    · cases elseBlock with
      | none => exact .refl _
      | some as => exact block "else clause" as
  | call callee data target op url method module pureCall =>
    exact .before (callHandler_alike hh hg hrun (callAddress_along hg callee url method module scope) data _ scope _) _
  | fire name data bubble target =>
    refine .after (.exec (eventOf_along hg name data bubble target scope)) fun event => ?_
    cases event with
    | none => exact .refl _
    | some event => exact .before (fireEvent_alike hrun ht event scope pure) _
  | _ => exact .refl _

theorem performItem_alike (scope : ScopeId) (pure : Bool) (item : BlockItem) :
    Alike n (performItem host g run scope pure item) (performItem host g run' scope pure item) := by
  cases item with
  | stray v => exact .refl _
  | action a =>
    refine .after (.exec (.bind .get fun w => .ofExcept _ _)) fun desc => ?_
    exact .after (.changeStack fun _ => rfl) fun _ => perform_alike hh hg hrun ht scope pure a

end Actions

/-! ### Rounds -/

section Rounds

variable {n : Nat}

/-- Items do the same one after the other if each does once it is counted. -/
theorem sequence_alike {one one' : BlockItem → Job (Option Value)} (hx : ∀ item, Spends (one item))
    (ho : ∀ item (p : Progress) (w : World), (p.stack.actions : Int) ≤ w.limits.actions →
      w.limits.actions < (p.stack.actions + n : Nat) → Step.Agree SameLimits (one item p w) (one' item p w))
    (mark : Nat) (last : Value) (items : List BlockItem) :
    Alike n (sequence one mark last items) (sequence one' mark last items) := by
  induction items generalizing last with
  | nil => exact .refl _
  | cons item rest ih =>
    intro p w hl
    unfold sequence
    rw [Job.changeStack_bind, Job.changeStack_bind, countAction_bind, countAction_bind]
    split
    · exact .refl _
    · rename_i hn
      rw [Job.note_bind, Job.note_bind]
      have hl' : w.limits.actions < (p.stack.actions + 1 + n : Nat) := by
        unfold Left at hl
        omega
      refine Step.Agree.bind (ho item _ w (Int.not_lt.mp hn) hl') (hx item _ w) fun r w' hr => ?_
      obtain ⟨e | v, q⟩ := r
      · exact .done _ _
      · exact ih (v.getD last) q w' (hl.spent hr.1 (Nat.le_trans (Nat.le_succ _) hr.2))

theorem runList_alike {one one' : ScopeId → Bool → BlockItem → Job (Option Value)}
    (hx : ∀ scope pure item, Spends (one scope pure item))
    (ho : ∀ scope pure item (p : Progress) (w : World), (p.stack.actions : Int) ≤ w.limits.actions →
      w.limits.actions < (p.stack.actions + n : Nat) →
      Step.Agree SameLimits (one scope pure item p w) (one' scope pure item p w)) :
    AlikeRuns n (runList one) (runList one') := by
  intro items scope pure kind
  refine .after .world fun w => .after .callStack fun s => ?_
  dsimp only
  split
  · exact fun p w _ => .done _ _
  · refine .after (.note _) fun _ => ?_
    exact .before (sequence_alike (hx scope pure) (ho scope pure) _ .null items) _

/-- One round: how lists of actions are run, given how those inside them are. -/
def round (host : Host) (g : Engine) (run : RunItems) : RunItems := runList (performItem host g run)

variable {host : Host} (hh : host.Along SameLimits) {g : Engine} (hg : g.Along SameLimits)
  (hwrite : ∀ p scope v op allow, (g.writePath p scope v op allow).Along SameLimits)
include hh hg hwrite

theorem runItems_spends (k : Nat) : SpendsRuns (runItems host g k) := fun items scope pure kind =>
  Follows.spends (fun p scope v op => hwrite p scope v op true) (fun _ _ => by exact trivial) fun p w =>
    runItems_follows hh hg k items scope pure kind p w fun h : false = true => nomatch h

theorem performItem_spends (k : Nat) (scope : ScopeId) (pure : Bool) (item : BlockItem) :
    Spends (performItem host g (runItems host g k) scope pure item) :=
  Follows.spends (fun p scope v op => hwrite p scope v op true) (fun _ _ => by exact trivial) fun p w =>
    performItem_follows hh hg (runItems_follows hh hg k) (fun h : false = true => nomatch h) scope item p w

theorem runItems_alike_zero (one : ScopeId → Bool → BlockItem → Job (Option Value)) (k : Nat) :
    AlikeRuns 0 (runItems host g k) (runList one) := by
  cases k with
  | zero =>
    exact runList_alike (fun _ _ _ _ _ => ⟨rfl, Nat.le_refl _⟩) fun _ _ _ _ _ ha hl => absurd ha (Int.not_le.mpr hl)
  | succ k =>
    exact runList_alike (performItem_spends hh hg hwrite k) fun _ _ _ _ _ ha hl => absurd ha (Int.not_le.mpr hl)

/-- It makes no difference what stands at the end of more rounds than actions are left. -/
theorem runItems_alike (last : RunItems) {k m : Nat} (hk : n ≤ k) (hm : n ≤ m) :
    AlikeRuns n (runItems host g k) ((round host g)^[m + 1] last) := by
  induction n generalizing k m with
  | zero =>
    rw [Function.iterate_succ_apply']
    exact runItems_alike_zero hh hg hwrite _ k
  | succ n ih =>
    obtain ⟨k, rfl⟩ := Nat.exists_eq_succ_of_ne_zero (Nat.ne_of_gt (Nat.lt_of_lt_of_le n.succ_pos hk))
    obtain ⟨m, rfl⟩ := Nat.exists_eq_succ_of_ne_zero (Nat.ne_of_gt (Nat.lt_of_lt_of_le n.succ_pos hm))
    rw [Function.iterate_succ_apply']
    refine runList_alike (performItem_spends hh hg hwrite k) fun scope pure item p w _ hl => ?_
    have hi := ih (Nat.le_of_succ_le_succ hk) (Nat.le_of_succ_le_succ hm)
    refine performItem_alike hh hg hi (runItems_spends hh hg hwrite k) scope pure item p w ?_
    unfold Left
    omega

end Rounds

end Run

end EventScript
