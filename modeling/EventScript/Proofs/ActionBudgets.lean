import EventScript.Proofs.TrackedRuns
import EventScript.Proofs.Unrolling

/-!
# Action budgets

Every run ends, even if the host answers each call with a block that calls it again: the budget of actions pays for
everything. No more rounds of lists inside lists are entered than it allows, so nothing hangs on what would come after
them, and the host is called at most once for each action.
-/

namespace EventScript

def Moment.isCall : Moment → Bool
  | .called _ => true
  | _ => false

/-- How often a track tells that the host is called. -/
def callsIn (t : List Moment) : Nat := t.countP Moment.isCall

section Calls

variable {t t' : List Moment}

@[simp] theorem callsIn_nil : callsIn [] = 0 := rfl

@[simp] theorem callsIn_append : callsIn (t ++ t') = callsIn t + callsIn t' := List.countP_append

@[simp] theorem callsIn_called {path : HandlerPath} : callsIn (.called path :: t) = callsIn t + 1 :=
  List.countP_cons_of_pos rfl

theorem callsIn_cons {m : Moment} (hm : m.isCall = false) : callsIn (m :: t) = callsIn t :=
  List.countP_cons_of_neg (by simp [hm])

@[simp] theorem callsIn_moved {s : CallStack} : callsIn (.moved s :: t) = callsIn t := callsIn_cons rfl

@[simp] theorem callsIn_delivered {err : ErrorId} {record : ErrorRecord} :
    callsIn (.delivered err record :: t) = callsIn t := callsIn_cons rfl

end Calls

/-- A host that answers every call with the same block. -/
def Host.answering (b : Block) : Host := { Embedding.plain with handler := fun _ => some fun _ w => .done (.ok b) w }

theorem Host.answering_along {rel : World → World → Prop} [World.Tolerates rel] (b : Block) :
    (Host.answering b).Along rel where
  embedding := Embedding.plain_along
  reply r w := by
    change (localReply (fun _ => some fun _ w => .done (.ok b) w) r w).Along rel w
    refine localReply_along (fun name f h r w => ?_) r w
    cases h
    exact World.Tolerates.refl w

namespace Run

open World (SameLimits)

/-- The calls that an activity may make beyond the actions that it counts: an item is counted before it begins. -/
def Activity.credit : Activity → Nat
  | .item | .body => 1
  | _ => 0

section Moves

variable {ok : World → Prop} {limit : Nat} {act : Activity} {s s' : CallStack} {t : List Moment} {e : Option Failure}

theorem calm_calls (h : Moves ok .calm s t e s') : callsIn t = 0 := by
  cases h <;> rfl

/-- Every call is paid for by an action, and as long as no ceiling is exceeded, actions stay within the limit. -/
theorem moves_calls (h : Moves ok act s t e s') (hok : ∀ w, ok w → w.limits.actions.toNat = limit)
    (hs : s.actions ≤ limit) :
    s.actions + callsIn t ≤ limit + act.credit ∧ s.actions + callsIn t ≤ s'.actions + act.credit ∧
      ((∀ f, e = some f → isCeiling f.1 = false) → s'.actions ≤ limit) := by
  induction h with
  | calm | raised | threw | finished | unheard | escalated => exact ⟨hs, Nat.le_refl _, fun _ => hs⟩
  | refused _ ih | stopped _ _ _ ih | answered _ ih | unanswered _ ih | heard _ ih => exact ih hs
  | undescribed _ ih | plain _ ih | fired _ ih =>
    obtain ⟨h₁, h₂, h₃⟩ := ih hs
    exact ⟨Nat.le_succ_of_le h₁, Nat.le_succ_of_le h₂, h₃⟩
  | left _ _ _ ih => simpa [Activity.credit] using ih hs
  | @tooMany outer s _ f _ hc h _ =>
    have ha := moves_actions h
    simp only [CallStack.actions_countAction, CallStack.actions_onto] at ha
    simp only [callsIn_moved, calm_calls h, Activity.credit]
    refine ⟨hs, by omega, fun hf => ?_⟩
    rw [hf f rfl] at hc
    cases hc
  | @performed w outer s t s₁ t' e s₂ hw hn _ _ ih ih' =>
    have hn : s.actions + 1 ≤ limit := by
      rw [← hok w hw]
      omega
    obtain ⟨h₁, h₂, h₃⟩ := ih hn
    obtain ⟨k₁, k₂, k₃⟩ := ih' (h₃ fun _ hf => by cases hf)
    simp only [CallStack.actions_countAction, CallStack.actions_onto, Activity.credit] at h₁ h₂ k₁ k₂
    simp only [callsIn_moved, callsIn_append, Activity.credit]
    exact ⟨by omega, by omega, k₃⟩
  | @broken w outer s t f s' hw hn _ ih =>
    have hn : s.actions + 1 ≤ limit := by
      rw [← hok w hw]
      omega
    obtain ⟨h₁, h₂, h₃⟩ := ih hn
    simp only [CallStack.actions_countAction, CallStack.actions_onto, Activity.credit] at h₁ h₂
    simp only [callsIn_moved, Activity.credit]
    exact ⟨by omega, by omega, h₃⟩
  | described desc _ ih => simpa [Activity.credit] using ih hs
  | clause desc _ ih =>
    obtain ⟨h₁, h₂, h₃⟩ := ih hs
    simp only [callsIn_moved]
    exact ⟨Nat.le_succ_of_le h₁, Nat.le_succ_of_le h₂, h₃⟩
  | called desc path _ ih =>
    obtain ⟨h₁, h₂, h₃⟩ := ih hs
    simp only [callsIn_moved, callsIn_called]
    exact ⟨Nat.succ_le_succ h₁, Nat.succ_le_succ h₂, h₃⟩
  | ran _ h ih _ =>
    obtain ⟨h₁, h₂, h₃⟩ := ih hs
    rw [callsIn_append, calm_calls h, calm_stack h]
    exact ⟨h₁, h₂, fun _ => h₃ fun _ hf => by cases hf⟩
  | handled _ _ ih => simpa [Activity.credit] using ih hs
  | @fatal _ _ s t f own s' _ _ hc ih =>
    obtain ⟨h₁, h₂, -⟩ := ih hs
    simp only [callsIn_moved, callsIn_append]
    refine ⟨h₁, h₂, fun hf => ?_⟩
    have hn := hf _ rfl
    rw [noteStack_isCeiling hc] at hn
    cases hn
  | @failed _ _ s t f own s₁ err t' e s₂ _ _ hc _ ih ih' =>
    obtain ⟨h₁, h₂, h₃⟩ := ih hs
    obtain ⟨k₁, k₂, k₃⟩ := ih' (h₃ fun _ hf => by cases hf; exact hc)
    simp only [CallStack.actions_push, CallStack.actions_onto, Activity.credit] at h₁ h₂ k₁ k₂ k₃
    simp only [callsIn_moved, callsIn_append, callsIn_nil, CallStack.actions_onto, Activity.credit]
    exact ⟨by omega, by omega, k₃⟩
  | refired message _ _ ih => simpa [Activity.credit] using ih hs

end Moves

/-! ### Whole runs -/

theorem outcomeOf_agree {rely : World → World → Prop} {x y : Job Value} {w : World}
    (h : Step.Agree rely (x {} w) (y {} w)) : Step.Agree rely (outcomeOf x w) (outcomeOf y w) :=
  .bindSame _ (.bindSame _ (.bindSame _ h))

theorem runItems_eq_rounds (host : Host) (g : Engine) (k : Nat) :
    runItems host g k = (round host g)^[k] (runItems host g 0) := by
  induction k with
  | zero => rfl
  | succ k ih =>
    rw [Function.iterate_succ_apply', ← ih]
    rfl

theorem left_budget (w : World) : Left (budget w) {} w := by
  unfold Left budget
  change w.limits.actions ≤ ((0 + w.limits.actions.toNat : Nat) : Int)
  omega

/-- The way in which lists of actions are run nests them as deep as the budget goes. Any number of rounds from there on
does the same, whatever stands at the end of them: in a block, in an event, and in whole runs. In particular one more
round does the same, so runs solve the equation by which lists of actions are run in terms of those inside them. A
whole run calls the host at most once for each action that its limits allow. -/
theorem runs_end (host : Host) (hh : host.Along SameLimits) :
    let g := Engine.full host.toEmbedding
    (∀ n k m last, n ≤ k → n ≤ m →
      (∀ block scope pure kind, Alike n (runBlock (runItems host g k) block scope pure kind)
        (runBlock ((round host g)^[m + 1] last) block scope pure kind)) ∧
      ∀ event scope pure, Alike n (fireEvent (runItems host g k) event scope pure)
        (fireEvent ((round host g)^[m + 1] last) event scope pure)) ∧
    (∀ k, AlikeRuns k (runItems host g k) (round host g (runItems host g k))) ∧
    ∀ w,
      (∀ m last, budget w ≤ m →
        (∀ block scope pure, Step.Agree SameLimits (runHandler host (some block) scope pure w)
          (outcomeOf (runBlock ((round host g)^[m + 1] last) block scope pure "handler") w)) ∧
        ∀ event scope pure, Step.Agree SameLimits (fire host event scope pure w)
          (outcomeOf (fireEvent ((round host g)^[m + 1] last) event scope pure) w)) ∧
      EveryRun host SameLimits w fun act o w' =>
        callsIn o.track.toList ≤ w.limits.actions.toNat ∧ Leaves.Outcome SameLimits act w o w' := by
  intro g
  have hg := Engine.full_along hh.embedding
  have hwrite := Engine.full_writePath_along hh.embedding
  have alike {n k m : Nat} (last : RunItems) (hk : n ≤ k) (hm : n ≤ m) :
      AlikeRuns n (runItems host g k) ((round host g)^[m + 1] last) := runItems_alike hh hg hwrite last hk hm
  refine ⟨fun n k m last hk hm => ⟨?_, ?_⟩, fun k => ?_, fun w => ⟨fun m last hm => ⟨?_, ?_⟩, ?_⟩⟩
  · exact runBlock_alike (alike last hk hm)
  · exact fireEvent_alike (alike last hk hm) (runItems_spends hh hg hwrite k)
  · have h := alike (runItems host g 0) (Nat.le_refl k) (Nat.le_refl k)
    rw [← runItems_eq_rounds] at h
    exact h
  · intro block scope pure
    exact outcomeOf_agree
      (runBlock_alike (alike last (Nat.le_refl _) hm) block scope pure "handler" {} w (left_budget w))
  · intro event scope pure
    exact outcomeOf_agree
      (fireEvent_alike (alike last (Nat.le_refl _) hm) (runItems_spends hh hg hwrite _) event scope pure {} w
        (left_budget w))
  · refine everyRun_of_leaves hh fun {act o w'} hact ho => ⟨?_, ho⟩
    obtain ⟨t, e, s, hm, hc⟩ := ho
    have hb := (moves_calls hm (fun u hu => by rw [show u.limits = w.limits from hu.1]) (Nat.zero_le _)).1
    have ht : callsIn o.track.toList = callsIn t := by
      cases e with
      | none => rw [hc.1]
      | some failure =>
        obtain ⟨message, err, -, hj, -⟩ := hc
        rw [hj]
        simp
    have ha : act.credit = 0 := by
      cases act with
      | item | body => cases hact
      | _ => rfl
    rw [ht]
    rw [ha] at hb
    exact Nat.le_trans (Nat.le_add_left _ _) hb

/-- A host that answers a call with a block that calls it again is called as often as actions are allowed. Three rounds
inside the first one are enough for that, whatever would run the lists of actions inside those. -/
theorem calls_spend_the_budget :
    let again : Block := .actions
      [.call none none none .set (some (.literal (.str "again"))) none (some (.literal (.str "local"))) false]
    let host := Host.answering again
    let w : World := { limits := { actions := 3 }, scopes := #[{ context := 0 }] }
    host.Along SameLimits ∧
      callsIn (runHandler host (some again) 0 false w).finish.1.track.toList ≤ w.limits.actions.toNat ∧
      callsIn (runHandler host (some again) 0 false w).finish.1.track.toList = 3 ∧
      ∀ last, (runHandler host (some again) 0 false w).finish =
        (outcomeOf
          (runBlock ((round host (Engine.full host.toEmbedding))^[4] last) again 0 false "handler") w).finish := by
  have hrun (host : Host) (hh : host.Along SameLimits) (w : World) (b : Block) := Step.Ensures.finish
    (((runs_end host hh).2.2 w).2.1 (some b) 0 false) World.Tolerates.refl
  have hend (host : Host) (hh : host.Along SameLimits) (w : World) (m : Nat) (hm : budget w ≤ m) (last : RunItems)
      (b : Block) := ((((runs_end host hh).2.2 w).1 m last hm).1 b 0 false).finish World.Tolerates.refl
  intro again host w
  have hh : host.Along SameLimits := Host.answering_along again
  exact ⟨hh, (hrun host hh w again).1, by decide +kernel, fun last => hend host hh w 3 (Nat.le_refl 3) last again⟩

end Run

end EventScript
