import EventScript.Run.Outcome

/-!
# Moves of the call stack

The track of a run tells what becomes of its call stack. The rules here say what the activities of a run do with it,
along the tree of what runs inside what: each starts on a stack that holds the frames of all that it runs inside, and
of nothing else, and if it fails by itself, it fails on that stack. What holds of call stacks is read off by induction
on the rules.
-/

namespace EventScript

/-- The call stack that a run goes on with, if a moment is about that. -/
def Moment.next? : Moment → Option CallStack
  | .moved s => some s
  | _ => none

/-- The call stacks that a track tells of, one after the other. -/
def stacksIn (t : List Moment) : List CallStack := t.filterMap Moment.next?

/-- The call stack at the end of a track that begins on one. -/
def stackAfter (s : CallStack) (t : List Moment) : CallStack := t.foldl (fun s m => m.next?.getD s) s

/-- Something holds of every call stack that a track tells of. -/
def Passes (I : CallStack → Prop) (t : List Moment) : Prop := ∀ s ∈ stacksIn t, I s

section Tracks

variable {I : CallStack → Prop} {s : CallStack} {m : Moment} {t t' : List Moment}

@[simp] theorem passes_nil : Passes I [] := fun _ h => by cases h

@[simp] theorem passes_moved : Passes I (.moved s :: t) ↔ I s ∧ Passes I t := by
  simp [Passes, stacksIn, Moment.next?]

theorem passes_cons (hm : m.next? = none) : Passes I (m :: t) ↔ Passes I t := by
  simp [Passes, stacksIn, hm]

@[simp] theorem passes_called {path : HandlerPath} : Passes I (.called path :: t) ↔ Passes I t := passes_cons rfl

@[simp] theorem passes_raised {f : Fault} {own : Option CallStack} : Passes I (.raised f s own :: t) ↔ Passes I t :=
  passes_cons rfl

@[simp] theorem passes_threw {err : ErrorId} {message : String} {again : Bool} :
    Passes I (.threw err message again s :: t) ↔ Passes I t := passes_cons rfl

@[simp] theorem passes_delivered {err : ErrorId} {record : ErrorRecord} :
    Passes I (.delivered err record :: t) ↔ Passes I t := passes_cons rfl

@[simp] theorem passes_append : Passes I (t ++ t') ↔ Passes I t ∧ Passes I t' := by
  simp [Passes, stacksIn, or_imp, forall_and]

@[simp] theorem stackAfter_nil : stackAfter s [] = s := rfl

@[simp] theorem stackAfter_moved {u : CallStack} : stackAfter s (.moved u :: t) = stackAfter u t := rfl

@[simp] theorem stackAfter_append : stackAfter s (t ++ t') = stackAfter (stackAfter s t) t' := List.foldl_append

end Tracks

namespace Run

/-- A failure: the fault, and the call stack that it brings along. -/
abbrev Failure := Fault × Option CallStack

/-- A failure brings a call stack along if it was thrown, or if it is a ceiling on which one is noted. -/
def Brings (f : Fault) (own : CallStack) : Prop :=
  (∃ err message, f = .thrown err message) ∨ ∃ cause, f = .ceiling cause (some own)

theorem brings_ownStack {f : Fault} {w : World} {own : CallStack} (h : f.ownStack w = some own) : Brings f own := by
  cases f with
  | thrown err message => exact .inl ⟨err, message, rfl⟩
  | ceiling cause stack =>
    cases h
    exact .inr ⟨cause, rfl⟩
  | _ => cases h

/-- The activities of a run. -/
inductive Activity where
  /-- What leaves the call stack alone. -/
  | calm
  | block
  /-- What is left of the items of a block that runs inside what has these frames. -/
  | items (outer : List Frame)
  | item
  /-- What an item does under the frame of its own, the last one. -/
  | body
  /-- What a call does once it has called the host. -/
  | answer
  /-- An event of a name that is fired. -/
  | event (name : String)
  /-- An event in the hands of a handler. -/
  | handler (name : String)
  /-- What becomes of the error of a handler that failed on a call stack. -/
  | delivery (name : String) (err : ErrorId) (stack : CallStack)

/-- A frame for the handler that an event finds, in a world as it can be. -/
def Found (ok : World → Prop) (s : CallStack) (name : String) (frame : Frame) : Prop :=
  ∃ w start bubble block owner, ok w ∧ w.findHandler start name s bubble = some (block, owner) ∧
    frame.handler = some name ∧ frame.scope = some owner

/-- The moves of an activity: from a call stack, what they add to the track, the failure at the end if there is one,
and the call stack then. The worlds in which limits and handlers are found are `ok`. -/
inductive Moves (ok : World → Prop) : Activity → CallStack → List Moment → Option Failure → CallStack → Prop where
  | calm (s) : Moves ok .calm s [] none s
  | raised (s f own) : (∀ k, own = some k → Brings f k) → Moves ok .calm s [.raised f s own] (some (f, own)) s
  /-- A thrown error has the stack on which it is thrown; one that was an error before, with itself on top. -/
  | threw (s err message again) : Moves ok .calm s [.threw err message again s]
      (some (.thrown err message, some (if again then s.pushError message else s))) s
  /-- What should be a block is none, or the stack is too deep for one. -/
  | refused {s t f s'} : Moves ok .calm s t (some f) s' → Moves ok .block s t (some f) s'
  | left {w s t s'} : ok w → (s.depth : Int) ≤ w.limits.stack → Moves ok (.items s.frames) s t none s' →
      Moves ok .block s (t ++ [.moved (s'.onto s.frames)]) none (s'.onto s.frames)
  | stopped {w s t f s'} : ok w → (s.depth : Int) ≤ w.limits.stack → Moves ok (.items s.frames) s t (some f) s' →
      Moves ok .block s t (some f) s'
  | finished (outer s) : Moves ok (.items outer) s [] none s
  | tooMany {outer s t f s'} : isCeiling f.1 = true → Moves ok .calm (s.onto outer).countAction t (some f) s' →
      Moves ok (.items outer) s (.moved (s.onto outer) :: .moved (s.onto outer).countAction :: t) (some f) s'
  /-- Every item is run on the frames of what the block runs inside, whatever the one before has left. -/
  | performed {w outer s t s₁ t' e s₂} : ok w → ((s.actions + 1 : Nat) : Int) ≤ w.limits.actions →
      Moves ok .item (s.onto outer).countAction t none s₁ → Moves ok (.items outer) s₁ t' e s₂ →
      Moves ok (.items outer) s (.moved (s.onto outer) :: .moved (s.onto outer).countAction :: (t ++ t')) e s₂
  | broken {w outer s t f s'} : ok w → ((s.actions + 1 : Nat) : Int) ≤ w.limits.actions →
      Moves ok .item (s.onto outer).countAction t (some f) s' →
      Moves ok (.items outer) s (.moved (s.onto outer) :: .moved (s.onto outer).countAction :: t) (some f) s'
  | undescribed {s t f s'} : Moves ok .calm s t (some f) s' → Moves ok .item s t (some f) s'
  | described {s t e s'} (desc) : Moves ok .body (s.pushDesc desc) t e s' →
      Moves ok .item s (.moved (s.pushDesc desc) :: t) e s'
  | plain {s t e s'} : Moves ok .calm s t e s' → Moves ok .body s t e s'
  | clause {s t e s'} (desc) : Moves ok .block (s.pushDesc desc) t e s' →
      Moves ok .body s (.moved (s.pushDesc desc) :: t) e s'
  | fired {name s t e s'} : Moves ok (.event name) s t e s' → Moves ok .body s t e s'
  /-- A call has a frame of its own in the place of that of the item. -/
  | called {s t e s'} (desc path) : Moves ok .answer (s.replace desc) t e s' →
      Moves ok .body s (.moved (s.replace desc) :: .called path :: t) e s'
  | answered {s t e s'} : Moves ok .calm s t e s' → Moves ok .answer s t e s'
  | ran {s t s₁ t' e s₂} : Moves ok .block s t none s₁ → Moves ok .calm s₁ t' e s₂ →
      Moves ok .answer s (t ++ t') e s₂
  | unanswered {s t f s'} : Moves ok .block s t (some f) s' → Moves ok .answer s t (some f) s'
  | unheard (name s) : Moves ok (.event name) s [] none s
  | heard {name s t e s'} : Moves ok (.handler name) s t e s' → Moves ok (.event name) s t e s'
  | handled {name frame s t s'} : Found ok s name frame → Moves ok .block (s.push frame) t none s' →
      Moves ok (.handler name) s (.moved (s.push frame) :: (t ++ [.moved (s'.onto s.frames)])) none (s'.onto s.frames)
  /-- A ceiling that is exceeded notes the stack before the handler is left. -/
  | fatal {name frame s t f own s'} : Found ok s name frame → Moves ok .block (s.push frame) t (some (f, own)) s' →
      isCeiling f = true →
      Moves ok (.handler name) s (.moved (s.push frame) :: (t ++ [.moved (s'.onto s.frames)]))
        (some (noteStack s' f, some (own.getD s'))) (s'.onto s.frames)
  /-- An error is made of any other failure before the handler is left, and delivered afterwards. -/
  | failed {name frame s t f own s₁ err t' e s₂} : Found ok s name frame →
      Moves ok .block (s.push frame) t (some (f, own)) s₁ → isCeiling f = false →
      Moves ok (.delivery name err (own.getD s₁)) (s₁.onto s.frames) t' e s₂ →
      Moves ok (.handler name) s
        (.moved (s.push frame) :: (t ++ .moved (s₁.onto s.frames) :: (t' ++ [.moved (s₂.onto s.frames)]))) e
        (s₂.onto s.frames)
  | escalated {name err record s} : Moves ok (.delivery name err record.stack) s [.delivered err record] none s
  | refired {name err record s t e s'} (message) : name ≠ "error" →
      Moves ok (.handler "error") (s.pushError message) t e s' →
      Moves ok (.delivery name err record.stack) s (.delivered err record :: .moved (s.pushError message) :: t) e s'

/-- The frames that an activity leaves where they are. -/
def Activity.kept : Activity → CallStack → List Frame
  | .items outer, _ => outer
  | .body, s | .answer, s => s.frames.dropLast
  | _, s => s.frames

theorem Found.mono {ok ok' : World → Prop} {s : CallStack} {name : String} {frame : Frame} (h : Found ok s name frame)
    (hok : ∀ w, ok w → ok' w) : Found ok' s name frame := by
  obtain ⟨w, start, bubble, block, owner, hw, hf⟩ := h
  exact ⟨w, start, bubble, block, owner, hok w hw, hf⟩

theorem Moves.mono {ok ok' : World → Prop} {act : Activity} {s s' : CallStack} {t : List Moment} {e : Option Failure}
    (h : Moves ok act s t e s') (hok : ∀ w, ok w → ok' w) : Moves ok' act s t e s' := by
  induction h with
  | calm => exact .calm _
  | raised _ _ _ h => exact .raised _ _ _ h
  | threw => exact .threw _ _ _ _
  | refused _ ih => exact .refused ih
  | left hw hd _ ih => exact .left (hok _ hw) hd ih
  | stopped hw hd _ ih => exact .stopped (hok _ hw) hd ih
  | finished => exact .finished _ _
  | tooMany hc _ ih => exact .tooMany hc ih
  | performed hw hn _ _ ih ih' => exact .performed (hok _ hw) hn ih ih'
  | broken hw hn _ ih => exact .broken (hok _ hw) hn ih
  | undescribed _ ih => exact .undescribed ih
  | described desc _ ih => exact .described desc ih
  | plain _ ih => exact .plain ih
  | clause desc _ ih => exact .clause desc ih
  | fired _ ih => exact .fired ih
  | called desc path _ ih => exact .called desc path ih
  | answered _ ih => exact .answered ih
  | ran _ _ ih ih' => exact .ran ih ih'
  | unanswered _ ih => exact .unanswered ih
  | unheard => exact .unheard _ _
  | heard _ ih => exact .heard ih
  | handled hf _ ih => exact .handled (hf.mono hok) ih
  | fatal hf _ hc ih => exact .fatal (hf.mono hok) ih hc
  | failed hf _ hc _ ih ih' => exact .failed (hf.mono hok) ih hc ih'
  | escalated => exact .escalated
  | refired message hn _ ih => exact .refired message hn ih

/-- The frames on which an activity begins. -/
def Activity.base : Activity → CallStack → List Frame
  | .items outer, _ => outer
  | _, s => s.frames

section Frames

variable {ok : World → Prop} {act : Activity} {s s' : CallStack} {t : List Moment} {e : Option Failure}

theorem calm_stack (h : Moves ok .calm s t e s') : s' = s := by
  cases h <;> rfl

/-- The frames of what an activity runs inside are there at its end, whether it fails or not. -/
theorem moves_keep (h : Moves ok act s t e s') (hk : act.kept s <+: s.frames) : act.kept s <+: s'.frames := by
  induction h with
  | calm | raised | threw | finished => exact hk
  | refused h ih => exact ih hk
  | left | handled | fatal | failed => exact List.prefix_refl _
  | stopped _ _ _ ih => exact ih (List.prefix_refl _)
  | tooMany _ h => rw [calm_stack h]; exact List.prefix_refl _
  | performed _ _ _ _ ih ih' => exact ih' (ih (List.prefix_refl _))
  | broken _ _ _ ih => exact ih (List.prefix_refl _)
  | undescribed _ ih => exact ih hk
  | described desc _ ih => simpa [Activity.kept] using ih (by simp [Activity.kept])
  | plain _ ih => exact hk.trans (ih (List.prefix_refl _))
  | clause desc _ ih =>
    refine hk.trans ((List.prefix_append _ _).trans (ih (List.prefix_refl _)))
  | fired _ ih => exact hk.trans (ih (List.prefix_refl _))
  | called desc path _ ih => simpa [Activity.kept] using ih (by simp [Activity.kept])
  | answered _ ih => exact hk.trans (ih (List.prefix_refl _))
  | ran _ h' ih =>
    rw [calm_stack h']
    exact hk.trans (ih (List.prefix_refl _))
  | unanswered _ ih => exact hk.trans (ih (List.prefix_refl _))
  | unheard => exact List.prefix_refl _
  | heard _ ih => exact ih hk
  | escalated => exact List.prefix_refl _
  | refired message _ _ ih => exact (List.prefix_append _ _).trans (ih (List.prefix_refl _))

/-- No activity takes an action back. -/
theorem moves_actions (h : Moves ok act s t e s') : s.actions ≤ s'.actions := by
  induction h with
  | calm | raised | threw | finished | unheard | escalated => exact Nat.le_refl _
  | refused _ ih | undescribed _ ih | plain _ ih | fired _ ih | answered _ ih | unanswered _ ih | heard _ ih => exact ih
  | stopped _ _ _ ih | described _ _ ih | clause _ _ ih | called _ _ _ ih | refired _ _ _ ih => exact ih
  | left _ _ _ ih | handled _ _ ih | fatal _ _ _ ih => exact ih
  | tooMany _ _ ih | broken _ _ _ ih => exact Nat.le_trans (Nat.le_succ _) ih
  | performed _ _ _ _ ih ih' => exact Nat.le_trans (Nat.le_trans (Nat.le_succ _) ih) ih'
  | ran _ _ ih ih' => exact Nat.le_trans ih ih'
  | failed _ _ _ _ ih ih' => exact Nat.le_trans ih ih'

/-- An activity ends on the last call stack that its track tells of. -/
theorem moves_stackAfter (h : Moves ok act s t e s') : stackAfter s t = s' := by
  induction h with
  | calm | raised | threw | finished | unheard | escalated => rfl
  | refused _ ih | undescribed _ ih | plain _ ih | fired _ ih | answered _ ih | unanswered _ ih | heard _ ih => exact ih
  | stopped _ _ _ ih | tooMany _ _ ih | broken _ _ _ ih | described _ _ ih | clause _ _ ih | called _ _ _ ih => exact ih
  | refired _ _ _ ih => exact ih
  | left | handled | fatal | failed => simp
  | performed _ _ _ _ ih ih' => simp [ih, ih']
  | ran _ _ ih ih' => simp [ih, ih']

theorem block_restores (h : Moves ok .block s t none s') : s'.frames = s.frames := by
  cases h
  rfl

theorem handler_restores {name : String} (h : Moves ok (.handler name) s t e s') : s'.frames = s.frames := by
  cases h <;> rfl

theorem event_restores {name : String} (h : Moves ok (.event name) s t e s') : s'.frames = s.frames := by
  cases h with
  | unheard => rfl
  | heard h => exact handler_restores h

/-- What holds of the frames at the start holds of those of every call stack that follows, if it is kept by cutting
frames off, by frames that only describe something and by frames of handlers that are found. -/
theorem moves_invariant {I : List Frame → Prop} (cut : ∀ frames, I frames → I frames.dropLast)
    (describe : ∀ frames desc, I frames → I (frames ++ [{ desc := desc }]))
    (handle : ∀ {s name frame}, Found ok s name frame → I s.frames → I (s.frames ++ [frame]))
    (h : Moves ok act s t e s') (hs : I (act.base s)) : Passes (fun u => I u.frames) t := by
  induction h with
  | calm | finished | unheard | raised | threw | escalated => simp
  | refused _ ih | undescribed _ ih | plain _ ih | fired _ ih | answered _ ih | unanswered _ ih | heard _ ih =>
    exact ih hs
  | left _ _ _ ih => simpa using ⟨ih hs, hs⟩
  | stopped _ _ _ ih => exact ih hs
  | tooMany _ _ ih => simpa using ⟨hs, ih hs⟩
  | performed _ _ _ _ ih ih' => simpa using ⟨hs, ih hs, ih' hs⟩
  | broken _ _ _ ih => simpa using ⟨hs, ih hs⟩
  | described desc _ ih | clause desc _ ih =>
    have hd := describe _ desc hs
    simpa using ⟨hd, ih hd⟩
  | called desc path _ ih =>
    have hd := describe _ desc (cut _ hs)
    simpa using ⟨hd, ih hd⟩
  | @ran _ _ s₁ _ _ _ h _ ih ih' =>
    have hs' : I s₁.frames := by
      rw [block_restores h]
      exact hs
    simpa using ⟨ih hs, ih' hs'⟩
  | handled hf _ ih | fatal hf _ _ ih =>
    have hh := handle hf hs
    simpa using ⟨hh, ih hh, hs⟩
  | failed hf _ _ _ ih ih' =>
    have hh := handle hf hs
    simpa using ⟨hh, ih hh, hs, ih' hs, hs⟩
  | refired message _ _ ih =>
    have hd := describe _ (CallStack.errorDesc message) hs
    simpa using ⟨hd, ih hd⟩

end Frames

end Run

end EventScript
