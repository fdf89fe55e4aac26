import EventScript.Proofs.Dispatch
import EventScript.Proofs.TrackedRuns
import Mathlib.Data.Finset.Card

/-!
# Reentry

No handler of an event runs inside itself, whatever the host answers: an event passes over the handlers that are
running, and every handler that runs has a frame. So handlers are never nested deeper than there are handlers.
-/

namespace EventScript

/-- The handler that a frame belongs to, if it is one of a handler: the scope that has it, and the event. -/
def Frame.handlerPair? (f : Frame) : Option (ScopeId × String) :=
  f.scope.bind fun scope => f.handler.map (scope, ·)

namespace CallStack

/-- The handlers that are running, outermost first. -/
def handlers (s : CallStack) : List (ScopeId × String) := s.frames.filterMap Frame.handlerPair?

theorem isRunning_of_mem_handlers {s : CallStack} {scope : ScopeId} {event : String} (h : (scope, event) ∈ s.handlers) :
    s.isRunning (some scope) event = true := by
  obtain ⟨f, hf, hp⟩ := List.mem_filterMap.mp h
  obtain ⟨owner, ho, hp⟩ := Option.bind_eq_some_iff.mp hp
  obtain ⟨name, hn, hp⟩ := Option.map_eq_some_iff.mp hp
  cases hp
  exact List.any_eq_true.mpr ⟨f, hf, by simp [ho, hn]⟩

end CallStack

namespace World

/-- The handlers that there are: the scopes that have them, and their events. -/
def handlerPairs (w : World) : Finset (ScopeId × String) :=
  ((List.range w.scopes.size).flatMap fun s => (w.scope s).handlers.map fun h => (s, h.1)).toFinset.filter
    fun x => (w.handler? x.1 x.2).isSome

variable {w w' : World} {s owner : ScopeId} {event : String} {block : Block}

theorem lt_size_of_handler? (h : w.handler? s event = some block) : s < w.scopes.size := by
  by_contra hs
  unfold handler? scope at h
  rw [Array.getD_eq_getD_getElem?, Array.getElem?_eq_none (Nat.le_of_not_lt hs)] at h
  cases h

theorem mem_handlerPairs : (s, event) ∈ w.handlerPairs ↔ ∃ block, w.handler? s event = some block := by
  rw [← Option.isSome_iff_exists]
  refine ⟨fun h => (Finset.mem_filter.mp h).2, fun h => Finset.mem_filter.mpr ⟨?_, h⟩⟩
  obtain ⟨block, h⟩ := Option.isSome_iff_exists.mp h
  obtain ⟨entry, hf, -⟩ := Option.bind_eq_some_iff.mp h
  simp only [List.mem_toFinset, List.mem_flatMap, List.mem_range, List.mem_map]
  refine ⟨s, lt_size_of_handler? h, entry, List.mem_of_find?_eq_some hf, ?_⟩
  simpa using List.find?_some hf

/-- Scopes keep their handlers; there may be more. -/
def KeepsHandlers (w w' : World) : Prop := w.handlerPairs ⊆ w'.handlerPairs

instance : Overlooks KeepsHandlers where
  trans h k := Finset.Subset.trans h k
  grown {a b} h := by
    rintro ⟨s, event⟩ hx
    obtain ⟨block, hb⟩ := mem_handlerPairs.mp hx
    have hs : b.scope s = a.scope s := getD_of_begins h.scopes (lt_size_of_handler? hb) default
    refine mem_handlerPairs.mpr ⟨block, ?_⟩
    unfold handler? at hb ⊢
    rw [hs]
    exact hb
  errors _ _ _ := Finset.Subset.refl _
  host _ _ := Finset.Subset.refl _

instance : OverlooksWrites KeepsHandlers where
  written _ _ _ _ _ _ := Finset.Subset.refl _

end World

namespace Run

variable {ok : World → Prop}

theorem Found.handlerPair {s : CallStack} {name : String} {frame : Frame} (h : Found ok s name frame) :
    ∃ x, frame.handlerPair? = some x ∧ x ∉ s.handlers ∧ ∃ w, ok w ∧ x ∈ w.handlerPairs := by
  obtain ⟨w, start, bubble, block, owner, hw, hf, hn, ho⟩ := h
  obtain ⟨-, -, -, ⟨hb, hr⟩, -⟩ := World.findHandler_eq_some_iff.mp hf
  refine ⟨(owner, name), by simp [Frame.handlerPair?, hn, ho], fun hm => ?_, w, hw,
    World.mem_handlerPairs.mpr ⟨block, hb⟩⟩
  exact Bool.eq_false_iff.mp hr (CallStack.isRunning_of_mem_handlers hm)

/-- Frames that belong to handlers all different, each of which is there in some world. -/
def Distinct (ok : World → Prop) (frames : List Frame) : Prop :=
  (frames.filterMap Frame.handlerPair?).Nodup ∧
    ∀ x ∈ frames.filterMap Frame.handlerPair?, ∃ w, ok w ∧ x ∈ w.handlerPairs

/-- On no call stack is there a handler twice, and every one there is found. -/
theorem moves_distinct {act : Activity} {s s' : CallStack} {t : List Moment} {e : Option Failure}
    (h : Moves ok act s t e s') (hs : Distinct ok (act.base s)) : Passes (fun u => Distinct ok u.frames) t := by
  refine moves_invariant (fun frames hd => ?_) (fun frames desc hd => ?_) (fun {s name frame} hf hd => ?_) h hs
  · have hc := (List.dropLast_sublist frames).filterMap Frame.handlerPair?
    exact ⟨hd.1.sublist hc, fun x hx => hd.2 x (hc.subset hx)⟩
  · have hp : (frames ++ [({ desc := desc } : Frame)]).filterMap Frame.handlerPair? =
        frames.filterMap Frame.handlerPair? := by
      simp [Frame.handlerPair?]
    unfold Distinct
    rw [hp]
    exact hd
  · obtain ⟨x, hx, hn, hw⟩ := hf.handlerPair
    have hp : (s.frames ++ [frame]).filterMap Frame.handlerPair? = s.handlers ++ [x] := by
      simp [CallStack.handlers, hx]
    unfold Distinct
    rw [hp]
    refine ⟨hd.1.append (List.nodup_singleton x) ?_, fun y hy => ?_⟩
    · exact List.disjoint_singleton.mpr hn
    · rcases List.mem_append.mp hy with hy | hy
      · exact hd.2 y hy
      · rw [List.mem_singleton.mp hy]
        exact hw

theorem distinct_nil : Distinct ok [] := ⟨List.nodup_nil, fun _ h => by cases h⟩

theorem outcome_distinct {rel : World → World → Prop} {act : Activity} {w w' : World} {o : Outcome}
    (hact : act.isWhole = true) (ho : Leaves.Outcome rel act w o w') :
    Passes (fun s => Distinct (Between rel w w') s.frames) o.track.toList := by
  refine outcome_passes ho fun hm => moves_distinct hm ?_
  rw [base_of_isWhole hact]
  exact distinct_nil

/-- On no call stack of a run is the handler of a scope for an event there twice, whatever is run and whatever the host
does to the world. If the host leaves handlers where they are, no more handlers are running than there are. -/
theorem no_handler_reenters (host : Host) (w : World) :
    EveryRun host Always w (fun act o w' =>
      Passes (fun s => s.handlers.Nodup) o.track.toList ∧ Leaves.Outcome Always act w o w') ∧
    (host.Along World.KeepsHandlers → EveryRun host World.KeepsHandlers w fun _ o w' =>
      Passes (fun s => s.handlers.length ≤ w'.handlerPairs.card) o.track.toList) := by
  refine ⟨everyRun_of_leaves (always_along host) fun hact ho => ⟨fun s hs => ?_, ho⟩, fun hh => ?_⟩
  · exact (outcome_distinct hact ho s hs).1
  · refine everyRun_of_leaves hh fun hact ho s hs => ?_
    obtain ⟨hn, hw⟩ := outcome_distinct hact ho s hs
    have hsub : s.handlers.toFinset ⊆ _ := fun x hx => by
      obtain ⟨u, ⟨-, hu⟩, hx⟩ := hw x (List.mem_toFinset.mp hx)
      exact hu hx
    calc s.handlers.length = s.handlers.toFinset.card := (List.toFinset_card_of_nodup hn).symm
      _ ≤ _ := Finset.card_le_card hsub

/-- Two handlers that fire each other's event run inside each other, each of them once. -/
theorem handlers_nest_once_each :
    let fires (event : String) : Option Block := some (.actions [.fire (.literal (.str event)) none false none])
    let w : World := { scopes := #[{ context := 0, handlers := [("ping", fires "pong"), ("pong", fires "ping")] }] }
    let ping : Event := { name := "ping" }
    Host.plain.Along World.KeepsHandlers ∧
      Passes (fun s => s.handlers.length ≤ (fire Host.plain ping 0 false w).finish.2.handlerPairs.card)
        (fire Host.plain ping 0 false w).finish.1.track.toList ∧
      (fire Host.plain ping 0 false w).finish.2.handlerPairs.card = 2 ∧
      [(0, "ping"), (0, "pong")] ∈
        (stacksIn (fire Host.plain ping 0 false w).finish.1.track.toList).map CallStack.handlers := by
  have hrun (w : World) (event : Event) := Step.Ensures.finish
    (((no_handler_reenters Host.plain w).2 Host.plain_along).2 event 0 false) World.Tolerates.refl
  intro fires w ping
  exact ⟨Host.plain_along, hrun w ping, by decide +kernel, by decide +kernel⟩

end Run

end EventScript
