import EventScript.Proofs.Containment
import EventScript.Proofs.ReadAfterWrite

/-!
# Assignments to the context

What an assignment to an entry of the context does to the entries of the scopes. The entry goes to the scope that the
carets lead to, unless an ancestor has the very value there already: then nothing is stored, and what the ancestor
has there later is what is seen.
-/

namespace EventScript

namespace World

variable {w w' : World} {s : ScopeId} {k : Key} {v : Value}

theorem lookup?_own (h : Entries.get? k (w.contextOf s) = some v) : w.lookup? s k = some v := by
  obtain ⟨rest, hrest⟩ := w.chain_eq_cons s
  unfold lookup?
  rw [hrest, List.findSome?_cons, h]

/-- The world in which a value has been put under a key of the context of a scope. -/
def assigned (w : World) (s : ScopeId) (k : Key) (v : Value) : World :=
  { w with store := w.store.setObject (w.scope s).context (Entries.insert k v (w.contextOf s)) }

theorem contextOf_assigned_self (hs : w.Has (.object (w.scope s).context)) (k : Key) (v : Value) :
    (w.assigned s k v).contextOf s = Entries.insert k v (w.contextOf s) := by
  change (w.store.setObject _ _).object (w.scope s).context = _
  rw [Store.object_setObject, if_pos ⟨rfl, hs⟩]

theorem contextOf_assigned_other {t : ScopeId} (ht : (w.scope t).context ≠ (w.scope s).context) (k : Key) (v : Value) :
    (w.assigned s k v).contextOf t = w.contextOf t := by
  change (w.store.setObject _ _).object (w.scope t).context = _
  rw [Store.object_setObject, if_neg fun h => ht h.1.symm]
  rfl

/-- Linking a value in a context assigns it in the scope that the context looks out from, unless it is what is seen
from there already. -/
theorem linked_context (w : World) (c : ViewId) (k : String) (new : Value) :
    w.linked (.context c) (.key k) (w.next (.context c) (.key k)) new = w.assigned (w.store.view c) (.str k) new ∨
      w.lookup? (w.store.view c) (.str k) = some new ∧
        w.linked (.context c) (.key k) (w.next (.context c) (.key k)) new = w := by
  unfold linked
  dsimp only
  split
  · exact .inl rfl
  · rename_i hsame
    simp only [Bool.or_eq_true, bne_iff_ne, ne_eq, not_or, Decidable.not_not, Option.isNone_iff_eq_none] at hsame
    obtain ⟨hnew, hsome⟩ := hsame
    refine .inr ⟨?_, rfl⟩
    obtain ⟨u, hu⟩ := Option.ne_none_iff_exists'.mp hsome
    change w.valueAt? (.context c) (.str k) = some new
    rw [hnew, hu]
    change some u = some ((w.valueAt? (.context c) (.str k)).getD .null)
    rw [hu, Option.getD_some]

end World

namespace Path

/-- An assignment to an entry of the context makes a view of the scope that the carets lead to, and stores the value
there, or else the value is seen from there already. -/
theorem writeStatic_entry (h : HandleAccess) (limits : Limits) {w m : World} {scope : ScopeId} {caret : Nat}
    {k : String} {v : Value} (hv : ∀ x, v ≠ .handle x)
    (hk : ∀ x, w.lookup? (w.caretScopeFrom caret scope) (.str k) ≠ some (.handle x))
    (hm : m = { w with store := (w.store.newView (w.caretScopeFrom caret scope)).2 }) :
    ∃ w', writeStatic h limits (.mk (.root { key := .context, caret }) [.key k]) scope v .set true w = .ok () w' ∧
      (w' = m.assigned (w.caretScopeFrom caret scope) (.str k) v.orNull ∨
        w.lookup? (w.caretScopeFrom caret scope) (.str k) = some v.orNull ∧ w' = m) := by
  have hroot : Exec.rootValue scope .context caret w = .ok (.context w.store.views.size) m := by
    rw [hm]
    rfl
  generalize w.caretScopeFrom caret scope = e at hk hm ⊢
  generalize hc : w.store.views.size = c at hroot
  have hview : m.store.view c = e := by
    rw [hm, ← hc]
    exact getD_push_size _ _ _
  have hseen : m.lookup? e (.str k) = w.lookup? e (.str k) := by
    rw [hm]
    exact w.lookup?_newView e e (.str k)
  -- What is seen is no handle, so the value takes its place.
  have hold : ∀ x, m.next (.context c) (.key k) ≠ .handle x := by
    intro x hx
    change (m.lookup? (m.store.view c) (.str k)).getD .null = _ at hx
    rw [hview, hseen] at hx
    cases hl : w.lookup? e (.str k) with
    | none =>
      rw [hl] at hx
      cases hx
    | some u =>
      rw [hl] at hx
      exact hk x (hl.trans (congrArg some hx))
  have hend : applyOp h limits .set (m.next (.context c) (.key k)) v m = .ok v.orNull m :=
    (congrFun (applyOp_eq h limits .set v hold) m).trans (congrFun (stored_of_not_handle h.read limits .set hv) m)
  have hcontext : (∀ x, Value.context c ≠ .handle x) ∧ (Value.context c).kind = .object := ⟨nofun, rfl⟩
  have hwrite (text : String) : writeParts h limits text .set v [.key k] (.context c) m =
      .ok (.context c) (m.linked (.context c) (.key k) (m.next (.context c) (.key k)) v.orNull) := by
    rw [writeParts_cons h limits text .set v _ _ hcontext.1]
    change writeKey k (.context c) (applyOp h limits .set · v) m = _
    rw [writeKey_object k hcontext.2, hend]
  have hlinked := m.linked_context c k v.orNull
  rw [hview, hseen] at hlinked
  refine ⟨_, ?_, hlinked⟩
  refine (Exec.bind_ok hroot).trans ((Exec.bind_ok (hwrite _)).trans ?_)
  rw [bne_self_eq_false, if_neg Bool.false_ne_true]
  rfl

end Path

namespace Engine

/-- An assignment to an entry of the context, where no handle is seen, works, and the value is seen from the scope that
the carets lead to. No other scope has other entries. The scope itself has the value as its own entry, whatever its
ancestors will have there; only if the value was seen from it before, its entries may be those that it had. -/
theorem writePath_entry (g : Engine) {w : World} {scope e : ScopeId} {caret : Nat} {k : String} {v : Value}
    (he : w.caretScopeFrom caret scope = e) (hhas : w.Has (.object (w.scope e).context))
    (hk : ∀ x, w.lookup? e (.str k) ≠ some (.handle x)) (hv : ∀ x, v ≠ .handle x) :
    ∃ w', g.writePath (.mk (.root { key := .context, caret }) [.key k]) scope v .set true w = .ok () w' ∧
      w'.lookup? e (.str k) = some v.orNull ∧
      (∀ t, (w.scope t).context ≠ (w.scope e).context → w'.contextOf t = w.contextOf t) ∧
      (w'.contextOf e = Entries.insert (.str k) v.orNull (w.contextOf e) ∧
          (∀ later : World, later.contextOf e = w'.contextOf e → later.lookup? e (.str k) = some v.orNull) ∨
        w.lookup? e (.str k) = some v.orNull ∧ w'.contextOf e = w.contextOf e) := by
  subst he
  generalize hm : ({ w with store := (w.store.newView (w.caretScopeFrom caret scope)).2 } : World) = m
  obtain ⟨w', hrun, hw'⟩ := Path.writeStatic_entry g.access w.limits hv hk hm.symm
  refine ⟨w', (writePath_static rfl ..).trans hrun, ?_⟩
  have hcontext (t : ScopeId) : m.contextOf t = w.contextOf t := hm ▸ rfl
  have hscope (t : ScopeId) : m.scope t = w.scope t := hm ▸ rfl
  have hlookup (t : ScopeId) (l : Key) : m.lookup? t l = w.lookup? t l := hm ▸ w.lookup?_newView _ t l
  generalize w.caretScopeFrom caret scope = e at *
  rcases hw' with rfl | ⟨hseen, rfl⟩
  · have hhas : m.Has (.object (m.scope e).context) := by
      rw [hscope]
      exact hm ▸ hhas
    have hown := World.contextOf_assigned_self hhas (.str k) v.orNull
    have hentry : Entries.get? (.str k) ((m.assigned e (.str k) v.orNull).contextOf e) = some v.orNull := by
      rw [hown, Entries.get?_insert_self]
    refine ⟨World.lookup?_own hentry, fun t ht => ?_, .inl ⟨hcontext e ▸ hown, fun later hl => ?_⟩⟩
    · rw [World.contextOf_assigned_other (by rwa [hscope, hscope]), hcontext]
    · exact World.lookup?_own (hl ▸ hentry)
  · exact ⟨(hlookup e _).trans hseen, fun t _ => hcontext t, .inr ⟨hseen, hcontext e⟩⟩

/-- A scope with 1 under `x`, and an empty one below it. -/
def nestedWorld : World where
  store := { objects := #[[(.str "x", .int 1)], []], cells := #[{ value := .null }, { value := .null }] }
  scopes := #[{ context := 0 }, { parent := some 0, context := 1 }]
  stateCell := 1

/-- Another value than the one that is seen goes into the scope below. -/
theorem entry_lands_below :
    ∃ w', (full .plain).writePath (.mk (.root { key := .context }) [.key "x"]) 1 (.int 5) .set true nestedWorld =
        .ok () w' ∧ w'.contextOf 0 = [(.str "x", .int 1)] ∧ w'.contextOf 1 = [(.str "x", .int 5)] := by
  have he : nestedWorld.caretScopeFrom 0 1 = 1 := rfl
  have hseen : nestedWorld.lookup? 1 (.str "x") = some (.int 1) := rfl
  have hplain : (∀ x, some (Value.int 1) ≠ some (.handle x)) ∧ ∀ x, Value.int 5 ≠ .handle x := ⟨nofun, nofun⟩
  obtain ⟨w', hrun, -, hothers, hown⟩ :=
    (full .plain).writePath_entry he (by decide) (by rw [hseen]; exact hplain.1) hplain.2
  refine ⟨w', hrun, hothers 0 (by decide), ?_⟩
  rcases hown with ⟨hown, -⟩ | ⟨hsame, -⟩
  · exact hown
  · rw [hseen] at hsame
    cases hsame

/-- The value that is inherited is not stored below, where what the outer scope gets later is seen. -/
theorem inherited_entry_is_not_stored :
    ∃ w₁ w₂, (full .plain).writePath (.mk (.root { key := .context }) [.key "x"]) 1 (.int 1) .set true nestedWorld =
        .ok () w₁ ∧ w₁.contextOf 1 = [] ∧
      (full .plain).writePath (.mk (.root { key := .context }) [.key "x"]) 0 (.int 2) .set true w₁ = .ok () w₂ ∧
      w₂.lookup? 1 (.str "x") = some (.int 2) :=
  ⟨_, _, rfl, rfl, rfl, rfl⟩

end Engine

end EventScript
