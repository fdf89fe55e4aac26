import EventScript.Proofs.Places
import EventScript.Proofs.Writing
import EventScript.Run.Outcome

/-!
# What runs compute

What actions, handlers of events and the host compute follows every relation that overlooks what the host is told. What
becomes of errors is spelled out: an error has the call stack that the failure brings along, or the one on which it is
made.
-/

namespace EventScript

namespace Step

variable {ρ τ : Type} {rely : World → World → Prop}

/-- The computation ends as wanted, as long as it always goes on from a world that `rely` relates to the one in
which it paused. -/
def Ensures (rely : World → World → Prop) (goal : ρ → World → Prop) : Step ρ → Prop
  | .done r w => goal r w
  | .paused _ w resume => ∀ w', rely w w' → Ensures rely goal (resume w')

/-- The computation follows a relation from world to world, as long as others do while it pauses. -/
def Along (rel : World → World → Prop) : World → Step ρ → Prop
  | w, .done _ w' => rel w w'
  | w, .paused _ w' resume => rel w w' ∧ ∀ w'', rel w' w'' → Along rel w'' (resume w'')

theorem Ensures.bind {P : ρ → World → Prop} {Q : τ → World → Prop} {s : Step ρ} {f : ρ → World → Step τ}
    (hs : s.Ensures rely P) (hf : ∀ r w, P r w → (f r w).Ensures rely Q) : (s.bind f).Ensures rely Q := by
  induction s with
  | done r w => exact hf r w hs
  | paused why w resume ih => exact fun w' hw => ih w' (hs w' hw)

theorem Ensures.mono {P Q : ρ → World → Prop} {s : Step ρ} (hs : s.Ensures rely P) (h : ∀ r w, P r w → Q r w) :
    s.Ensures rely Q := by
  induction s with
  | done r w => exact h r w hs
  | paused why w resume ih => exact fun w' hw => ih w' (hs w' hw)

theorem Ensures.finish {P : ρ → World → Prop} {s : Step ρ} (hs : s.Ensures rely P) (hr : ∀ w, rely w w) :
    P s.finish.1 s.finish.2 := by
  induction s with
  | done r w => exact hs
  | paused why w resume ih => exact ih w (hs w (hr w))

theorem Along.ensures [World.Tolerates rely] {w : World} {s : Step ρ} (hs : s.Along rely w) :
    s.Ensures rely fun _ w' => rely w w' := by
  induction s generalizing w with
  | done r w' => exact hs
  | paused why w' resume ih =>
    intro w'' hw
    refine (ih w'' (hs.2 w'' hw)).mono fun _ w₃ h => ?_
    exact World.Tolerates.trans (World.Tolerates.trans hs.1 hw) h

end Step

/-- A relation between worlds that does not look at what the host is told to compute anew or to show. -/
class World.OverlooksNews (rel : World → World → Prop) : Prop extends World.Tolerates rel where
  news : ∀ (w : World) (invalidations : Array (Option String)) (markup : Array Value),
    rel w { w with host := { w.host with invalidations, markup } }

/-- A relation between worlds that does not look at what the host keeps. -/
class World.OverlooksHost (rel : World → World → Prop) : Prop extends World.OverlooksNews rel where
  host : ∀ (w : World) (h : HostRecord), rel w { w with host := h }
  news := fun w _ _ => host w _

/-- A relation between worlds that does not look at the records of errors either. -/
class World.Overlooks (rel : World → World → Prop) : Prop extends World.OverlooksHost rel where
  errors : ∀ (w : World) (e : ErrorId) (x : ErrorRecord), rel w { w with store := w.store.setError e x }

namespace Run

/-- A world may change in any way. -/
def Always (_ _ : World) : Prop := True

instance : World.Overlooks Always where
  trans _ _ := trivial
  grown _ := trivial
  errors _ _ _ := trivial
  host _ _ := trivial

instance : World.OverlooksWrites Always where
  written _ _ _ _ _ _ := trivial

end Run

/-! ### Hosts -/

/-- What the host adds to the language and its replies follow a relation. -/
structure Host.Along (rel : World → World → Prop) (host : Host) : Prop where
  embedding : host.toEmbedding.Along rel
  reply : ∀ r w, (host.reply r w).Along rel w

/-- A host replies along a relation if its handlers by name do. -/
theorem localReply_along {rel : World → World → Prop} [World.Tolerates rel]
    {handler : String → Option (Request → World → Step (Except Fault Block))}
    (h : ∀ name f, handler name = some f → ∀ r w, (f r w).Along rel w) (r : Request) (w : World) :
    (localReply handler r w).Along rel w := by
  have stays (x : Except Fault Block) : (Step.done x w).Along rel w := World.Tolerates.refl w
  unfold localReply
  split
  · exact stays _
  · split
    · exact stays _
    · split
      · exact stays _
      · rename_i f hf
        exact h _ f hf r w

theorem always_along (host : Host) : host.Along Run.Always := by
  have steps {ρ : Type} (s : Step ρ) (w : World) : s.Along Run.Always w := by
    induction s generalizing w with
    | done => trivial
    | paused why w' resume ih => exact ⟨trivial, fun w'' _ => ih w'' w''⟩
  exact ⟨⟨fun _ _ _ _ => trivial, fun _ _ _ => trivial⟩, fun _ _ => steps _ _⟩

/-- A host that adds nothing to the language and has no handlers. -/
def Host.plain : Host := { Embedding.plain with }

theorem Host.plain_along {rel : World → World → Prop} [World.Tolerates rel] : Host.plain.Along rel where
  embedding := Embedding.plain_along
  reply r w := by
    change (localReply (fun _ => none) r w).Along rel w
    exact localReply_along (fun _ _ h => by cases h) r w

namespace Run

/-! ### Blocks and actions -/

section News

variable {rel : World → World → Prop} [World.OverlooksNews rel]

theorem invalidatePattern_along (pattern : Option String) : (Exec.invalidate pattern).Along rel := by
  refine .modify fun w => ?_
  split
  · exact World.OverlooksNews.news w _ w.host.markup
  · exact World.Tolerates.refl w

theorem installMarkup_along (v : Value) : (Exec.installMarkup v).Along rel := by
  refine .modify fun w => ?_
  split
  · exact World.OverlooksNews.news w w.host.invalidations _
  · exact World.Tolerates.refl w

theorem ofValue_along (fuel : Nat) (v : Value) : (BlockItem.ofValue fuel v).Along rel := by
  induction fuel generalizing v with
  | zero => exact .throw _
  | succ fuel ih =>
    unfold BlockItem.ofValue
    cases v <;> grind

@[grind ←]
theorem ofBlock_along (b : Block) : (BlockItem.ofBlock b).Along rel := by
  fun_induction BlockItem.ofBlock b with
  | case4 b ih => exact ih
  | case6 v => exact .bind .get fun w => ofValue_along _ v
  | _ => grind

theorem ofReply_along (b : Block) : (BlockItem.ofReply b).Along rel := by
  unfold BlockItem.ofReply
  grind

theorem ofBlock_leads {block : Block} {items : List BlockItem} {w w' : World}
    (h : BlockItem.ofBlock block w = .ok items w') : rel w w' := by
  rw [← Exec.after_ok h]
  exact ofBlock_along block w

theorem evalOption_along {eval : Expr → Exec Value} (he : ∀ e, (eval e).Along rel) (e : Option Expr) :
    (evalOption eval e).Along rel := by
  cases e with
  | none => exact .pure _
  | some e => exact he e

section Engine

variable {g : Engine} (hg : g.Along rel)
include hg

theorem callAddress_along (callee url method module : Option Expr) (scope : ScopeId) :
    (callAddress g callee url method module scope).Along rel := by
  have ho := evalOption_along fun e => Engine.evalResolved_along hg e (some scope)
  cases callee with
  | some c =>
    have hparse (v : Value) :
        (displayOf v >>= fun text => Exec.ofExcept .unresolved (HandlerPath.read text)).Along rel :=
      .bind (displayOf_along v) fun _ => .ofExcept _ _
    refine .bind (Engine.evalResolved_along hg c _) fun v => ?_
    split
    · refine .bind .store fun s => ?_
      split
      · exact .pure _
      · exact hparse _
    · exact hparse _
  | none =>
    refine .bind (ho url) fun v => .bind (displayOf_along v) fun url => .bind (ho method) fun method => ?_
    refine .bind (ho module) fun module => .bind .get fun w => .choose (displayOf_along _) (.pure _) fun module => ?_
    split
    · exact .bind (displayOf_along _) fun _ => .pure _
    · exact .pure _

theorem invalidate_along (data : Option Expr) (scope : ScopeId) : (Run.invalidate g data scope).Along rel := by
  refine .bind (evalOption_along (fun e => Engine.evalResolved_along hg e (some scope)) data) fun v => ?_
  split
  · exact invalidatePattern_along _
  · refine .bind .store fun s => .bind (.forIn (fun item _ => ?_) _ _) fun _ => .pure _
    split
    · exact .bind (displayOf_along item) fun t => .bind (invalidatePattern_along _) fun _ => .pure _
    · exact .pure _
  · exact .bind (displayOf_along _) fun t => invalidatePattern_along _

theorem eventOf_along (name : Expr) (data : Option Expr) (bubble : Bool) (target : Option Expr) (scope : ScopeId) :
    (eventOf g name data bubble target scope).Along rel := by
  have hd := evalOption_along (fun e => hg.eval e (some scope)) data
  have ht := evalOption_along (fun e => Engine.evalResolved_along hg e (some scope)) target
  refine .bind (Engine.evalResolved_along hg name _) fun name => ?_
  split
  · exact .pure _
  · refine .bind hd fun _ => .bind .get fun _ => .bind ht fun _ => .bind (displayOf_along _) fun _ => ?_
    split
    · exact .pure _
    · exact .bind (displayOf_along _) fun _ => .pure _

end Engine

end News

theorem childScope_leads {rel : World → World → Prop} [World.Tolerates rel] {owner : ScopeId} {data : Entries Value}
    {html : String} {blocksLocal : Bool} {inner : ScopeId} {w w' : World}
    (h : Exec.childScope owner data html blocksLocal w = .ok inner w') : rel w w' := by
  rw [← Exec.after_ok h]
  exact Exec.childScope_along owner data html blocksLocal w

theorem debugLines_along {rel : World → World → Prop} [World.Tolerates rel] (w : World) (lines : Array String) :
    rel w { w with debugLines := lines } :=
  World.Tolerates.grown { World.Grown.refl w with }

theorem childScope_total (owner : ScopeId) (data : Entries Value) (html : String) (blocksLocal : Bool) (w : World) :
    ∃ scope w', Exec.childScope owner data html blocksLocal w = .ok scope w' := ⟨_, _, rfl⟩

/-- A debug line changes nothing but the debug lines. -/
theorem debugLine_ok (parts : List String) (w : World) :
    ∃ lines, Exec.debugLine parts w = .ok () { w with debugLines := lines } := by
  have h : Exec.debugLine parts w = .ok () (if w.debug then
      { w with debugLines := w.debugLines.push (String.intercalate " " ("[DBG]" :: parts)) } else w) := rfl
  rw [h]
  split
  · exact ⟨_, rfl⟩
  · exact ⟨w.debugLines, rfl⟩

/-! ### Where events start and where they go -/

/-- The scope where an event starts that is fired in a scope; none if it has a target that the host does not know. -/
def startOf (w : World) (event : Event) (scope : ScopeId) : Option ScopeId :=
  match event.target, w.host.kind with
  | none, _ => some scope
  | some id, .recording => (w.host.nodeScopes.find? (·.1 == id)).map (·.2)
  | some _, .silent => none

theorem startScope_eq (event : Event) (scope : ScopeId) (w : World) :
    startScope event scope w = .ok (startOf w event scope) w := by
  unfold startScope startOf
  cases event.target with
  | none => rfl
  | some id =>
    dsimp only
    rw [Exec.nodeScope, Exec.bind_ok (rfl : (get : Exec World) w = .ok w w)]
    cases w.host.kind <;> rfl

/-- An error on its way out is no handler that is running. -/
theorem findHandler_pushError (w : World) (s : ScopeId) (event : String) (stack : CallStack) (message : String)
    (bubble : Bool) :
    w.findHandler s event (stack.pushError message) bubble = w.findHandler s event stack bubble := by
  have h (t : ScopeId) : (stack.pushError message).isRunning (some t) event = stack.isRunning (some t) event := by
    simp [CallStack.pushError, CallStack.pushDesc, CallStack.push, CallStack.isRunning]
  unfold World.findHandler
  simp only [h]

/-! ### Errors -/

section Errors

variable {rel : World → World → Prop} [World.OverlooksHost rel]

theorem reportError_along (e : ErrorId) : (Exec.reportError e).Along rel := by
  refine .bind (.modify fun w => ?_) fun _ => .bind .store fun s => .log _ _
  split
  · exact World.OverlooksHost.host w _
  · exact World.Tolerates.refl w

theorem unhandledError_along (e : ErrorId) : (Exec.unhandledError e).Along rel := by
  refine .bind (.modify fun w => ?_) fun _ => reportError_along e
  split
  · exact World.OverlooksHost.host w _
  · exact World.Tolerates.refl w

theorem unhandledEvent_along (event : Event) : (Exec.unhandledEvent event).Along rel := by
  refine .bind (.modify fun w => ?_) fun _ => .log _ _
  split
  · exact World.OverlooksHost.host w _
  · exact World.Tolerates.refl w

theorem errorOf_along {rel : World → World → Prop} [World.Overlooks rel] (f : Fault) (stack : CallStack)
    (event : Option String) : (Exec.errorOf f stack event).Along rel := by
  cases f with
  | thrown e message =>
    refine .bind (.modify fun w => ?_) fun _ => .pure e
    dsimp only
    split
    · exact World.Tolerates.refl w
    · exact World.Overlooks.errors w e _
  | _ => exact .newError _

end Errors

theorem errorOf_total (f : Fault) (stack : CallStack) (event : Option String) (w : World) :
    ∃ err w', Exec.errorOf f stack event w = .ok err w' := by
  cases f <;> exact ⟨_, _, rfl⟩

theorem reportError_total (e : ErrorId) (w : World) : ∃ w', Exec.reportError e w = .ok () w' := ⟨_, rfl⟩

theorem reportError_store {e : ErrorId} {w w' : World} (h : Exec.reportError e w = .ok () w') : w'.store = w.store := by
  cases h
  dsimp only
  split <;> rfl

theorem error_newError (s : Store) (x : ErrorRecord) : (s.newError x).2.error (s.newError x).1 = x :=
  getD_push_size _ _ _

theorem error_of_newError {x : ErrorRecord} {err : ErrorId} {w w' : World} (h : Exec.newError x w = .ok err w') :
    w'.store.error err = x := by
  cases h
  exact error_newError _ _

/-- The error of a failure has the call stack that the failure brings along, or else the one it is made on. -/
theorem errorOf_stack {f : Fault} {stack : CallStack} {event : Option String} {w w' : World} {err : ErrorId}
    (h : Exec.errorOf f (stackOf f stack) event w = .ok err w') :
    (w'.store.error err).stack = (f.ownStack w).getD stack := by
  have made (x : ErrorRecord) (hx : Exec.newError x w = .ok err w') : (w'.store.error err).stack = x.stack := by
    cases hx
    rw [error_newError]
  cases f with
  | thrown e message =>
    cases h
    dsimp only [Fault.ownStack, Option.getD_some]
    split
    · rfl
    · rw [Store.error_setError]
      split <;> rfl
  | ceiling cause noted =>
    rw [made _ h]
    cases noted <;> rfl
  | _ => exact made _ h

theorem stackOf_of_not_ceiling {f : Fault} (h : isCeiling f = false) (stack : CallStack) : stackOf f stack = stack := by
  cases f with
  | ceiling => cases h
  | _ => rfl

theorem ownStack_noteStack {f : Fault} (h : isCeiling f = true) (stack : CallStack) (w w' : World) :
    (noteStack stack f).ownStack w' = some ((f.ownStack w).getD stack) := by
  cases f with
  | ceiling cause noted => cases noted <;> rfl
  | _ => cases h

theorem knownError?_eq_some {s : Store} {v : Value} {e : ErrorId} {err : ErrorRecord}
    (h : knownError? s v = some (e, err)) : e < s.errors.size ∧ err = s.error e := by
  unfold knownError? at h
  split at h
  · obtain ⟨x, hx, h⟩ := Option.map_eq_some_iff.mp h
    cases h
    exact ⟨(Array.getElem?_eq_some_iff.mp hx).1, by simp [Store.error, Array.getD_eq_getD_getElem?, hx]⟩
  · cases h

theorem noteStack_isCeiling {f : Fault} {stack : CallStack} (h : isCeiling f = true) :
    isCeiling (noteStack stack f) = true := by
  cases f with
  | ceiling cause s => cases s <;> rfl
  | _ => cases h

end Run

end EventScript
