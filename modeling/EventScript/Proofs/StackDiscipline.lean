import EventScript.Proofs.Ceilings
import EventScript.Proofs.TrackedRuns

/-!
# Stack discipline

What runs inside something leaves its frames alone. A block that is done has put the call stack back, and so has an
event in any case. As blocks only begin on stacks within the limit, no stack is more than three frames above it: the
frame of an action, that of an error on its way out, and that of a handler.
-/

namespace EventScript

namespace Run

/-- The room that an activity begins in, where blocks begin on at most `limit` frames. -/
def Activity.Fits (limit : Int) : Activity → CallStack → Prop
  | .calm, _ | .block, _ => True
  | .items outer, _ => (outer.length : Int) ≤ limit
  | .item, s => (s.depth : Int) ≤ limit
  | .body, s | .answer, s | .event _, s => (s.depth : Int) ≤ limit + 1
  | .handler name, s | .delivery name _ _, s => (s.depth : Int) ≤ limit + if name = "error" then 2 else 1

theorem fits_of_isWhole {limit : Int} {act : Activity} (h : act.isWhole = true) (hl : 0 ≤ limit) :
    act.Fits limit {} := by
  cases act with
  | calm | block => trivial
  | event =>
    change (0 : Int) ≤ limit + 1
    omega
  | _ => cases h

section Depth

variable {ok : World → Prop} {limit : Int} {act : Activity} {s s' : CallStack} {t : List Moment} {e : Option Failure}

theorem handler_depth {name : String} (hs : (Activity.handler name).Fits limit s) :
    (s.depth : Int) ≤ limit + 3 ∧ (s.depth : Int) + 1 ≤ limit + 3 := by
  have hs : (s.depth : Int) ≤ limit + if name = "error" then 2 else 1 := hs
  split at hs <;> omega

/-- An activity that begins with enough room stays below three frames over the limit. -/
theorem moves_depth (h : Moves ok act s t e s') (hok : ∀ w, ok w → w.limits.stack = limit) (hl : 0 ≤ limit)
    (hs : act.Fits limit s) : Passes (fun u => (u.depth : Int) ≤ limit + 3) t := by
  induction h with
  | calm | raised | threw | finished | unheard | escalated => simp
  | refused _ ih | unanswered _ ih => exact ih trivial
  | undescribed _ ih | plain _ ih | answered _ ih => exact ih trivial
  | @left w s _ _ hw hd _ ih =>
    have hd : (s.depth : Int) ≤ limit := hok w hw ▸ hd
    have hr : (s.frames.length : Int) ≤ limit + 3 := Int.le_trans hd (by omega)
    simpa using ⟨ih hd, hr⟩
  | stopped hw hd _ ih => exact ih (hok _ hw ▸ hd)
  | @tooMany outer _ _ _ _ _ _ ih =>
    have ho : (outer.length : Int) ≤ limit := hs
    have hr : (outer.length : Int) ≤ limit + 3 := by omega
    simpa using ⟨hr, ih trivial⟩
  | @performed _ outer _ _ _ _ _ _ _ _ _ _ ih ih' =>
    have ho : (outer.length : Int) ≤ limit := hs
    have hr : (outer.length : Int) ≤ limit + 3 := by omega
    simpa using ⟨hr, ih ho, ih' ho⟩
  | @broken _ outer _ _ _ _ _ _ _ ih =>
    have ho : (outer.length : Int) ≤ limit := hs
    have hr : (outer.length : Int) ≤ limit + 3 := by omega
    simpa using ⟨hr, ih ho⟩
  | @described s _ _ _ desc _ ih =>
    have hs : (s.depth : Int) ≤ limit := hs
    have hd : ((s.pushDesc desc).depth : Int) ≤ limit + 1 := by simpa using hs
    have hr : ((s.pushDesc desc).depth : Int) ≤ limit + 3 := by omega
    exact passes_moved.mpr ⟨hr, ih hd⟩
  | @clause s _ _ _ desc _ ih =>
    have hs : (s.depth : Int) ≤ limit + 1 := hs
    have hr : ((s.pushDesc desc).depth : Int) ≤ limit + 3 := by
      rw [CallStack.depth_pushDesc]
      omega
    exact passes_moved.mpr ⟨hr, ih trivial⟩
  | fired _ ih => exact ih hs
  | @called s _ _ _ desc path _ ih =>
    have hs : (s.depth : Int) ≤ limit + 1 := hs
    have hd : ((s.replace desc).depth : Int) ≤ limit + 1 := by
      rw [CallStack.depth_replace]
      omega
    have hr : ((s.replace desc).depth : Int) ≤ limit + 3 := by omega
    simpa only [passes_moved, passes_called] using ⟨hr, ih hd⟩
  | ran _ _ ih ih' => exact passes_append.mpr ⟨ih trivial, ih' trivial⟩
  | @heard name s _ _ _ _ ih =>
    have hs : (s.depth : Int) ≤ limit + 1 := hs
    refine ih (Int.le_trans hs ?_)
    split <;> omega
  | handled _ _ ih | fatal _ _ _ ih =>
    obtain ⟨hr, hp⟩ := handler_depth hs
    simpa using ⟨hp, ih trivial, hr⟩
  | failed _ _ _ _ ih ih' =>
    obtain ⟨hr, hp⟩ := handler_depth hs
    simpa using ⟨hp, ih trivial, hr, ih' hs, hr⟩
  | @refired name _ _ s _ _ _ message hn _ ih =>
    have hs : (s.depth : Int) ≤ limit + if name = "error" then 2 else 1 := hs
    rw [if_neg hn] at hs
    have hd : ((s.pushError message).depth : Int) ≤ limit + 2 := by
      rw [CallStack.depth_pushError]
      omega
    have hr : ((s.pushError message).depth : Int) ≤ limit + 3 := by omega
    simpa only [passes_delivered, passes_moved] using ⟨hr, ih hd⟩

end Depth

/-- The call stack at the end of a part of a run is the one that its track tells of last. -/
def TellsStack {α : Type} (p : Progress) (r : Except Fault α × Progress) : Prop :=
  ∃ t, r.2.track.toList = p.track.toList ++ t ∧ r.2.stack = stackAfter p.stack t

/-- A block that is done has put the call stack back, and one that has failed has left the frames there that it began
on. An event puts the call stack back in any case. No call stack of a whole run is more than three frames above the
limit for blocks. -/
theorem stack_discipline (host : Host) :
    let run := runItems host (Engine.full host.toEmbedding)
    (∀ budget block scope pure kind p w,
      (runBlock (run budget) block scope pure kind p w).Ensures Always fun r _ => TellsStack p r ∧
        (∀ v, r.1 = .ok v → r.2.stack.frames = p.stack.frames) ∧ p.stack.frames <+: r.2.stack.frames) ∧
    (∀ budget event scope pure p w,
      (fireEvent (run budget) event scope pure p w).Ensures Always fun r _ => TellsStack p r ∧
        r.2.stack.frames = p.stack.frames) ∧
    (host.Along World.SameLimits → ∀ w, 0 ≤ w.limits.stack → EveryRun host World.SameLimits w fun act o w' =>
      Passes (fun s => (s.depth : Int) ≤ w.limits.stack + 3) o.track.toList ∧
        Leaves.Outcome World.SameLimits act w o w') := by
  intro run
  have hp (pure : Bool) : false = true → pure = true := fun h => by cases h
  have hrun (budget : Nat) : Runs Always (Engine.full host.toEmbedding) false (run budget) :=
    runItems_follows (always_along host) (Engine.full_along (always_along host).embedding) budget
  have moves {c s w t m e s' w'} (h : Course Always (Engine.full host.toEmbedding) false c s w t m e s' w') :=
    course_moves (fun {u u'} (hr : Always u u') => hr) (fun _ _ _ _ _ => trivial) h
  refine ⟨fun budget block scope pure kind p w => ?_, fun budget event scope pure p w => ?_, fun hh w hl => ?_⟩
  · refine Step.Ensures.mono (runBlock_follows (hrun budget) (hp pure) block scope kind p w) fun r w' hr => ?_
    obtain ⟨t, m, -, ht, hc⟩ := hr
    have hm := moves hc trivial
    refine ⟨⟨m, ht, (moves_stackAfter hm).symm⟩, fun v hv => ?_, moves_keep hm (List.prefix_refl _)⟩
    rw [hv] at hm
    exact block_restores hm
  · refine Step.Ensures.mono (fireEvent_follows (hrun budget) (hp pure) event scope p w) fun r w' hr => ?_
    obtain ⟨t, m, -, ht, hc⟩ := hr
    have hm := moves hc trivial
    exact ⟨⟨m, ht, (moves_stackAfter hm).symm⟩, event_restores hm⟩
  · refine everyRun_of_leaves hh fun hact ho => ⟨outcome_passes ho fun hm => ?_, ho⟩
    exact moves_depth hm (fun u hu => congrArg Limits.stack hu.1) hl (fits_of_isWhole hact hl)

/-- Where no block may begin inside another, an action fires an event, the handler fails for want of a block, and the
handler for errors begins three frames above the limit. -/
theorem error_handler_three_above_limit :
    let w : World := {
      limits := { stack := 0 }
      scopes := #[{ context := 0, handlers := [("click", some (.value (.int 1))), ("error", some (.actions []))] }] }
    let block : Block := .actions [.fire (.literal (.str "click")) none false none]
    Host.plain.Along World.SameLimits ∧ 0 ≤ w.limits.stack ∧
      Passes (fun s => (s.depth : Int) ≤ w.limits.stack + 3)
        (runHandler Host.plain (some block) 0 false w).finish.1.track.toList ∧
      3 ∈ (stacksIn (runHandler Host.plain (some block) 0 false w).finish.1.track.toList).map CallStack.depth := by
  have hrun (w : World) (hw : 0 ≤ w.limits.stack) (block : Block) := Step.Ensures.finish
    (((stack_discipline Host.plain).2.2 Host.plain_along w hw).1 (some block) 0 false) World.Tolerates.refl
  intro w block
  exact ⟨Host.plain_along, by decide, (hrun w (by decide) block).1, by decide +kernel⟩

end Run

end EventScript
