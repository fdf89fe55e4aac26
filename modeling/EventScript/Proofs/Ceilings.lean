import EventScript.Proofs.Delivery

/-!
# Ceilings

The ceilings of the world hold for a whole run, however its blocks, handlers and events are nested: no more actions
are performed than the budget allows, no block begins on too deep a stack, and a run that exceeds a ceiling does
nothing more.
-/

namespace EventScript

/-- The limits stay as they are. -/
def World.SameLimits (w w' : World) : Prop := w'.limits = w.limits

instance : World.Overlooks World.SameLimits where
  trans h k := Eq.trans k h
  grown h := h.limits
  errors _ _ _ := rfl
  host _ _ := rfl

instance : World.OverlooksWrites World.SameLimits where
  written _ _ _ _ _ _ := rfl

namespace Happening

def isPerformed : Happening → Bool
  | .performed _ => true
  | _ => false

/-- What may happen within limits. -/
def Fits (limits : Limits) : Happening → Prop
  | .entered depth _ => (depth : Int) ≤ limits.stack
  | .exceeded _ => False
  | _ => True

end Happening

/-- The number of actions that a journal tells of. -/
def performedIn (t : List Happening) : Nat := t.countP Happening.isPerformed

/-- A journal that tells of no ceiling being exceeded, and of no block on too deep a stack. -/
def Calm (limits : Limits) (t : List Happening) : Prop := ∀ h ∈ t, h.Fits limits

theorem performedIn_append (t t' : List Happening) : performedIn (t ++ t') = performedIn t + performedIn t' :=
  List.countP_append

theorem Calm.append {limits : Limits} {t t' : List Happening} (h : Calm limits t) (h' : Calm limits t') :
    Calm limits (t ++ t') := by
  intro x hx
  rcases List.mem_append.mp hx with hx | hx
  · exact h x hx
  · exact h' x hx

theorem calm_single {limits : Limits} {h : Happening} (hh : h.Fits limits) : Calm limits [h] := by
  intro x hx
  rw [List.mem_singleton.mp hx]
  exact hh

namespace Run

/-- What a part of a run may do within limits: from a number of counted actions, what it adds to the journal, the
failure at the end, and the number then. -/
inductive Within (limits : Limits) : Nat → List Happening → Option Fault → Nat → Prop where
  /-- No ceiling is exceeded: every action performed is counted. -/
  | calm {n n' : Nat} {t e} : Calm limits t → n' = n + performedIn t →
      ((n : Int) ≤ limits.actions → (n' : Int) ≤ limits.actions) → Within limits n t e n'
  /-- A ceiling is exceeded: nothing comes after it, and it is the failure at the end. -/
  | exceeded {n : Nat} {n' t} (cause stack) : Calm limits t →
      ((n : Int) ≤ limits.actions → ((n + performedIn t : Nat) : Int) ≤ limits.actions) →
      Within limits n (t ++ [.exceeded cause]) (some (.ceiling cause stack)) n'

namespace Within

variable {limits : Limits} {n n' : Nat} {t : List Happening} {e : Option Fault}

theorem nothing : Within limits n [] e n :=
  .calm (fun _ hx => by cases hx) rfl id

theorem limit (cause : Ceiling) : Within limits n [.exceeded cause] (some (.ceiling cause none)) n' :=
  .exceeded (t := []) cause none (fun _ hx => by cases hx) id

theorem append {n₁ : Nat} {t' : List Happening} {e' : Option Fault} (h : Within limits n t e n₁)
    (he : ∀ f, e = some f → isCeiling f = false) (h' : Within limits n₁ t' e' n') :
    Within limits n (t ++ t') e' n' := by
  cases h with
  | exceeded cause stack => cases he _ rfl
  | calm ht hn hl =>
    cases h' with
    | calm ht' hn' hl' =>
      refine .calm (ht.append ht') ?_ fun h => hl' (hl h)
      rw [performedIn_append]
      omega
    | @exceeded _ _ cause stack ht' hl' =>
      rw [← List.append_assoc]
      refine .exceeded cause stack (ht.append ht') fun h => ?_
      rw [performedIn_append, ← Nat.add_assoc, ← hn]
      exact hl' (hl h)

theorem cons {h : Happening} (hh : h.Fits limits) (hp : h.isPerformed = false) (ht : Within limits n t e n') :
    Within limits n (h :: t) e n' := by
  have hone : Within limits n [h] none n := .calm (calm_single hh) (by simp [performedIn, hp]) id
  exact hone.append (fun f hf => by cases hf) ht

theorem performed {item : BlockItem} (hn : ((n + 1 : Nat) : Int) ≤ limits.actions)
    (ht : Within limits (n + 1) t e n') : Within limits n (.performed item :: t) e n' := by
  have hone : Within limits n [.performed item] none (n + 1) := .calm (calm_single trivial) rfl fun _ => hn
  exact hone.append (fun f hf => by cases hf) ht

theorem noted {f : Fault} (stack : CallStack) (h : Within limits n t (some f) n') :
    Within limits n t (some (noteStack stack f)) n' := by
  cases h with
  | calm ht hn hl => exact .calm ht hn hl
  | exceeded cause s ht hl => cases s <;> exact .exceeded cause _ ht hl

end Within

/-- A course stays within the limits, which stay as they are. -/
theorem course_within {rel : World → World → Prop} {g : Engine} {isPure : Bool}
    (hrel : ∀ u u', rel u u' → u.SameLimits u')
    (hwrite : ∀ p scope v op, (g.writePath p scope v op true).Along World.SameLimits) {c : Chapter} {s s' : CallStack}
    {w w' : World} {t : List Happening} {m : List Moment} {e : Option Fault}
    (h : Course rel g isPure c s w t m e s' w') : Within w.limits s.actions t e s'.actions := by
  have stays {c s w t m e s' w'} (h : Course rel g isPure c s w t m e s' w') : w'.limits = w.limits :=
    course_leads (fun {u u'} hr => hrel u u' hr) hwrite h
  induction h with
  | computed | raised | threw | rethrew | malformed | finished | unheard => exact .nothing
  | spent | tooDeep | tooMany => exact .limit _
  | assigned | refused | escalated => exact .cons trivial rfl .nothing
  | seq hp h _ ih ih' =>
    rw [stays h] at ih'
    exact ih.append (fun f hf => by cases hf) ih'
  | wellFormed h _ ih =>
    rw [show _ = _ from (ofBlock_leads h : World.SameLimits _ _)] at ih
    exact ih
  | left _ hd _ ih => exact .cons hd rfl (ih.append (fun f hf => by cases hf) (.cons trivial rfl .nothing))
  | stopped hd _ ih => exact .cons hd rfl ih
  | performed hn h _ ih ih' =>
    rw [stays h] at ih'
    exact .performed hn (ih.append (fun f hf => by cases hf) ih')
  | broken hn _ ih => exact .performed hn ih
  | ran h _ ih ih' =>
    rw [stays h] at ih'
    exact ih.append (fun f hf => by cases hf) ih'
  | handled hs _ ih =>
    rw [show _ = _ from (childScope_leads hs : World.SameLimits _ _)] at ih
    exact .cons trivial rfl ih
  | fatal hs _ _ ih =>
    rw [show _ = _ from (childScope_leads hs : World.SameLimits _ _)] at ih
    exact .cons trivial rfl (ih.noted _)
  | failed lines hs h hf he _ ih ih' =>
    have hs : _ = _ := (childScope_leads hs : World.SameLimits _ _)
    have he : _ = _ := (errorOf_leads he : World.SameLimits _ _)
    rw [show World.limits _ = _ from he, stays h, hs] at ih'
    rw [hs] at ih
    refine .cons trivial rfl (ih.append (fun f h => ?_) (.cons trivial rfl ih'))
    cases h
    exact hf
  | gaveUp _ _ ih | described _ _ ih | plain _ ih | clause _ _ _ ih | fired _ ih | called _ _ _ ih => exact ih
  | answered _ ih | unanswered _ _ ih | heard _ _ _ ih | refired _ _ _ _ ih => exact ih

/-- What an outcome tells of a run within limits: how many actions were performed, on how deep a stack blocks began,
and that a ceiling that was exceeded is the end of the journal and the failure of the run. -/
def KeepsCeilings (limits : Limits) (o : Outcome) : Prop :=
  (performedIn o.journal.toList : Int) ≤ limits.actions ∧
    (∀ (depth : Nat) items, .entered depth items ∈ o.journal.toList → (depth : Int) ≤ limits.stack) ∧
    ∀ before cause after, o.journal.toList = before ++ .exceeded cause :: after →
      after = [] ∧ ∃ error, o.result = .failure ("RuntimeLimitError: " ++ cause.message) error

theorem ends_with_ceiling {cause : Ceiling} {stack : Option CallStack} {r : Result}
    (h : Tells (some (.ceiling cause stack)) r) :
    ∃ error, r = .failure ("RuntimeLimitError: " ++ cause.message) error := by
  cases r with
  | success v => cases h
  | failure message error =>
    obtain ⟨text, hm, ht⟩ := h
    rw [hm, ht cause stack rfl]
    exact ⟨error, rfl⟩

theorem within_keepsCeilings {limits : Limits} (hl : 0 ≤ limits.actions) {o : Outcome} {e : Option Fault} {n : Nat}
    (hw : Within limits 0 o.journal.toList e n) (ht : Tells e o.result) : KeepsCeilings limits o := by
  unfold KeepsCeilings
  generalize o.journal.toList = t at hw
  cases hw with
  | calm hc hn hp =>
    refine ⟨by have := hp hl; omega, fun depth items h => hc _ h, fun before cause after h => ?_⟩
    exact (hc (.exceeded cause) (by simp [h])).elim
  | exceeded cause stack hc hp =>
    refine ⟨?_, fun depth items h => ?_, fun before cause' after h => ?_⟩
    · have := hp hl
      rw [performedIn_append]
      simpa [performedIn, Happening.isPerformed] using this
    · rcases List.mem_append.mp h with h | h
      · exact hc _ h
      · cases List.mem_singleton.mp h
    · rcases List.eq_nil_or_concat after with rfl | ⟨after', x, rfl⟩
      · obtain ⟨-, hx⟩ := List.append_inj' h rfl
        cases hx
        exact ⟨rfl, ends_with_ceiling ht⟩
      · rw [List.concat_eq_append, ← List.cons_append, ← List.append_assoc] at h
        obtain ⟨ht, -⟩ := List.append_inj' h rfl
        exact (hc (.exceeded cause') (by simp [ht])).elim

/-- Over one whole run, of a block or of an event, the ceilings of its world hold. Its journal is that of a course, in
which every block performs all its items unless it fails, and the host keeps no error of a ceiling. -/
theorem runs_keep_ceilings {rel : World → World → Prop} [World.OverlooksNews rel] (host : Host) (hh : host.Along rel)
    (hrel : ∀ u u', rel u u' → u.SameLimits u') (w : World) (hw : 0 ≤ w.limits.actions) :
    (∀ block scope pure, (runHandler host block scope pure w).Ensures rel fun o w' =>
      KeepsCeilings w.limits o ∧ Delivers rel w o.journal.toList w' ∧
        Follows.Outcome rel (Engine.full host.toEmbedding) false (chapterOf block scope) w o w') ∧
    ∀ event scope pure, (fire host event scope pure w).Ensures rel fun o w' =>
      KeepsCeilings w.limits o ∧ Delivers rel w o.journal.toList w' ∧
        Follows.Outcome rel (Engine.full host.toEmbedding) false (.event event scope) w o w' := by
  have keeps {c : Chapter} {o : Outcome} {w' : World} (hc : c.opening = [])
      (ho : Follows.Outcome rel (Engine.full host.toEmbedding) false c w o w') :
      KeepsCeilings w.limits o ∧ Delivers rel w o.journal.toList w' ∧
        Follows.Outcome rel (Engine.full host.toEmbedding) false c w o w' := by
    refine ⟨?_, outcome_delivers hh.embedding hc ho, ho⟩
    obtain ⟨m, e, s, w₁, hc, he⟩ := ho
    have hwrite := Engine.full_writePath_along (hh.embedding.mono hrel)
    exact within_keepsCeilings hw (course_within hrel (fun p scope v op => hwrite p scope v op true) hc) he.tells
  constructor
  · intro block scope pure
    refine (runHandler_follows hh block scope (fun h => by cases h) w).mono fun _ _ => keeps ?_
    cases block <;> rfl
  · intro event scope pure
    exact (fire_follows hh event scope (fun h => by cases h) w).mono fun _ _ => keeps rfl

/-- Where one action is allowed, two are one too many. -/
theorem second_action_exceeds :
    let w : World := { limits := { actions := 1 } }
    0 ≤ w.limits.actions ∧
      ∃ o w', runHandler Host.plain (some (.actions [.nop, .nop])) 0 false w = .done o w' ∧
        KeepsCeilings w.limits o ∧ o.journal.back? = some (.exceeded (.actions 1)) :=
  ⟨by decide, _, _, rfl,
    ((runs_keep_ceilings Host.plain Host.plain_along (fun _ _ h => h) { limits := { actions := 1 } } (by decide)).1
      (some (.actions [.nop, .nop])) 0 false).1, rfl⟩

end Run

end EventScript
