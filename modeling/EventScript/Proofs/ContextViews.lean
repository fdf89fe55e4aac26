import EventScript.Proofs.ContextWrites
import EventScript.Proofs.DistinctKeys

/-!
# Contexts as mappings

A context shows what its scope and the ancestors of it have, the nearest value of each key. Looking up a key walks
outwards and stops at the first scope that has it; listing the entries puts those of the scopes together from the
outermost inwards. The two agree, and they still do after any assignments and deletions through any contexts.
-/

namespace EventScript

namespace Entries

variable {α : Type} {k l : Key} {es : Entries α}

theorem erase_sublist (k : Key) (es : Entries α) : (erase k es).Sublist es := by
  induction es with
  | nil => exact .slnil
  | cons e rest ih =>
    obtain ⟨k', x⟩ := e
    unfold erase
    split
    · exact List.sublist_cons_self _ _
    · exact ih.cons_cons _

theorem Distinct.erase (h : Distinct es) (k : Key) : Distinct (erase k es) :=
  List.Pairwise.sublist (erase_sublist k es) h

/-- Only the entry under the key goes. -/
theorem Distinct.get?_erase (h : Distinct es) (k l : Key) :
    get? l (Entries.erase k es) = if l.same k = true then none else get? l es := by
  by_cases hl : l.same k = true
  · rw [if_pos hl]
    induction es with
    | nil => rfl
    | cons e rest ih =>
      obtain ⟨k', x⟩ := e
      obtain ⟨he, hrest⟩ := List.pairwise_cons.mp h
      unfold Entries.erase
      split
      · rename_i hk
        refine Option.eq_none_iff_forall_not_mem.mpr fun v hv => ?_
        obtain ⟨m, hm, hmem⟩ := exists_mem_of_get? hv
        exact he _ hmem (Key.same_trans (Key.same_symm (Key.same_trans hl hk)) hm)
      · rename_i hk
        rw [get?_cons, if_neg fun hlk => hk (Key.same_trans (Key.same_symm hl) hlk)]
        exact ih hrest
  · rw [if_neg hl]
    exact get?_erase_other hl es

/-- A key is listed if there is a value under it. -/
theorem exists_key_iff (k : Key) (es : Entries α) :
    (∃ l ∈ keys es, k.same l = true) ↔ (get? k es).isSome = true := by
  induction es with
  | nil => simp [keys]
  | cons e rest ih =>
    obtain ⟨k', x⟩ := e
    rw [get?_cons]
    by_cases hk : k.same k' = true
    · rw [if_pos hk]
      exact iff_of_true ⟨k', List.mem_cons_self, hk⟩ rfl
    · rw [if_neg hk, ← ih]
      simp [keys, hk]

end Entries

/-! ### The first that has something -/

section Search

variable {α β : Type} {f g : α → Option β} {e : α} {xs : List α}

/-- A search of a list comes to an item, as there is nothing at those before it. -/
def ComesTo (f : α → Option β) (xs : List α) (e : α) : Prop :=
  ∃ front back, xs = front ++ e :: back ∧ ∀ x ∈ front, f x = none

theorem comesTo_cons {x : α} : ComesTo f (x :: xs) e ↔ x = e ∨ f x = none ∧ ComesTo f xs e := by
  constructor
  · rintro ⟨front, back, hxs, hfront⟩
    cases front with
    | nil =>
      cases hxs
      exact .inl rfl
    | cons y front =>
      cases hxs
      obtain ⟨hx, hfront⟩ := List.forall_mem_cons.mp hfront
      exact .inr ⟨hx, front, back, rfl, hfront⟩
  · rintro (rfl | ⟨hx, front, back, rfl, hfront⟩)
    · exact ⟨[], xs, rfl, nofun⟩
    · exact ⟨x :: front, back, rfl, List.forall_mem_cons.mpr ⟨hx, hfront⟩⟩

theorem findSome?_iff_comesTo {v : β} : xs.findSome? f = some v ↔ ∃ e, ComesTo f xs e ∧ f e = some v := by
  rw [List.findSome?_eq_some_iff]
  constructor
  · rintro ⟨front, e, back, hxs, he, hfront⟩
    exact ⟨e, ⟨front, back, hxs, hfront⟩, he⟩
  · rintro ⟨e, ⟨front, back, hxs, hfront⟩, he⟩
    exact ⟨front, e, back, hxs, he, hfront⟩

variable (hother : ∀ x ∈ xs, x ≠ e → g x = f x)
include hother

/-- Where a search comes to an item, it finds what is put there. -/
theorem findSome?_of_comesTo (h : ComesTo f xs e) {v : β} (he : g e = some v) : xs.findSome? g = some v := by
  induction xs with
  | nil =>
    obtain ⟨front, back, hxs, -⟩ := h
    cases front <;> cases hxs
  | cons x rest ih =>
    obtain ⟨hx, hrest⟩ := List.forall_mem_cons.mp hother
    rw [List.findSome?_cons]
    by_cases hxe : x = e
    · rw [hxe, he]
    · obtain ⟨hnone, h⟩ := (comesTo_cons.mp h).resolve_left hxe
      rw [hx hxe, hnone]
      exact ih hrest h

/-- Where a search does not come to an item, it makes no difference what is put there; nor does it if it is the same. -/
theorem findSome?_unchanged (h : g e = f e ∨ ¬ComesTo f xs e) : xs.findSome? g = xs.findSome? f := by
  induction xs with
  | nil => rfl
  | cons x rest ih =>
    obtain ⟨hx, hrest⟩ := List.forall_mem_cons.mp hother
    have hsame : g x = f x := by
      by_cases hxe : x = e
      · subst hxe
        exact h.resolve_right fun h => h (comesTo_cons.mpr (.inl rfl))
      · exact hx hxe
    rw [List.findSome?_cons, List.findSome?_cons, hsame]
    cases hf : f x with
    | some v => rfl
    | none => exact ih hrest (h.imp_right fun h hc => h (comesTo_cons.mpr (.inr ⟨hf, hc⟩)))

end Search

/-! ### Scopes that form a tree -/

namespace World

variable {w : World} {s t e : ScopeId} {k l : Key} {v : Value}

/-- Ancestors are older, each scope has an object of its own for its context and no key twice in it, and every context
looks out from a scope. -/
structure Nested (w : World) : Prop where
  older : ∀ s < w.scopes.size, ∀ p, (w.scope s).parent = some p → p < s
  has : ∀ s < w.scopes.size, w.Has (.object (w.scope s).context)
  apart : ∀ s < w.scopes.size, ∀ t < w.scopes.size, (w.scope s).context = (w.scope t).context → s = t
  distinct : ∀ s < w.scopes.size, (w.contextOf s).Distinct
  views : ∀ c < w.store.views.size, w.store.view c < w.scopes.size

theorem Nested.chain (h : w.Nested) (hs : s < w.scopes.size) : ∀ t ∈ w.chain s, t < w.scopes.size := fun _ ht =>
  of_mem_chain (P := (· < w.scopes.size)) (fun s hs p hp => Nat.lt_trans (h.older s hs p hp) hs) hs ht

/-- A world with one more scope, the entries of which are in a new object. -/
structure OneMore (w w' : World) (scope : Scope) (es : Entries Value) : Prop where
  grown : w.Grown w'
  size : w'.scopes.size = w.scopes.size + 1
  views : w'.store.views = w.store.views
  last : w'.scope w.scopes.size = { scope with context := w.store.objects.size }
  has : w'.Has (.object w.store.objects.size)
  entries : w'.store.object w.store.objects.size = es

theorem newScope_oneMore (w : World) (scope : Scope) (es : Entries Value) :
    ∃ w', Exec.newScope scope es w = .ok w.scopes.size w' ∧ w.OneMore w' scope es := by
  refine ⟨_, rfl, ?_, Array.size_push _, rfl, getD_push_size .., ?_, getD_push_size ..⟩
  · have hgrows : (Exec.newScope scope es).Along World.Grown := Exec.Along.newScope scope es
    exact hgrows w
  · simp [World.Has, Store.newObject]

/-- A scope below one of a tree, or beside all of them, belongs to the tree. -/
theorem Nested.oneMore (h : w.Nested) {w' : World} {scope : Scope} {es : Entries Value} (hw : w.OneMore w' scope es)
    (hp : ∀ p, scope.parent = some p → p < w.scopes.size) (hes : es.Distinct) : w'.Nested := by
  have hold (s) (hs : s < w.scopes.size) : w'.scope s = w.scope s := getD_of_begins hw.grown.scopes hs _
  have hcases (s) (hs : s < w'.scopes.size) : s < w.scopes.size ∨ s = w.scopes.size := by
    rw [hw.size] at hs
    omega
  have hfresh (s) (hs : s < w.scopes.size) : (w.scope s).context ≠ w.store.objects.size := Nat.ne_of_lt (h.has s hs)
  refine ⟨fun s hs p hparent => ?_, fun s hs => ?_, fun s hs t ht heq => ?_, fun s hs => ?_, fun c hc => ?_⟩
  · rcases hcases s hs with hs | rfl
    · exact h.older s hs p (hold s hs ▸ hparent)
    · rw [hw.last] at hparent
      exact hp p hparent
  · rcases hcases s hs with hs | rfl
    · exact hold s hs ▸ hw.grown.has (h.has s hs)
    · exact hw.last ▸ hw.has
  · rcases hcases s hs with hs | rfl <;> rcases hcases t ht with ht | rfl
    · rw [hold s hs, hold t ht] at heq
      exact h.apart s hs t ht heq
    · rw [hold s hs, hw.last] at heq
      exact absurd heq (hfresh s hs)
    · rw [hold t ht, hw.last] at heq
      exact absurd heq.symm (hfresh t ht)
    · rfl
  · unfold contextOf
    rcases hcases s hs with hs | rfl
    · rw [hold s hs, show w'.store.object (w.scope s).context = w.contextOf s from hw.grown.sameAt (h.has s hs)]
      exact h.distinct s hs
    · rw [hw.last, hw.entries]
      exact hes
  · unfold Store.view
    rw [hw.views] at hc ⊢
    rw [hw.size]
    exact Nat.lt_succ_of_lt (h.views c hc)

/-- A new context may look out from any scope. -/
theorem Nested.newView (h : w.Nested) (hs : s < w.scopes.size) :
    ({ w with store := (w.store.newView s).2 } : World).Nested where
  older := h.older
  has := h.has
  apart := h.apart
  distinct := h.distinct
  views c hc := by
    change c < (w.store.views.push s).size at hc
    change (w.store.views.push s).getD c 0 < w.scopes.size
    rw [Array.size_push] at hc
    rcases Nat.lt_succ_iff_lt_or_eq.mp hc with hc | rfl
    · rw [getD_of_begins (prefix_push _ _) hc]
      exact h.views c hc
    · rw [getD_push_size]
      exact hs

/-- Looking out from a scope for a key comes to a scope: none that is nearer has the key. -/
def LooksInto (w : World) (s : ScopeId) (k : Key) (e : ScopeId) : Prop :=
  ComesTo (fun t => Entries.get? k (w.contextOf t)) (w.chain s) e

theorem looksInto_congr (hl : l.same k = true) : w.LooksInto s l e ↔ w.LooksInto s k e := by
  unfold LooksInto
  simp only [Entries.get?_same hl]

theorem lookup?_eq_some_iff :
    w.lookup? s k = some v ↔ ∃ e, w.LooksInto s k e ∧ Entries.get? k (w.contextOf e) = some v :=
  findSome?_iff_comesTo

/-- What a context lists is a mapping, and the one that lookups give: that of the nearest scope that has the key. -/
structure ShowsMapping (w : World) (c : ViewId) : Prop where
  yielded : ∀ k, (∃ l ∈ Entries.keys (w.entries (.context c)), k.same l = true) ↔
    (w.valueAt? (.context c) k).isSome = true
  once : (Entries.keys (w.entries (.context c))).Pairwise fun k l => ¬k.same l = true
  count : (w.entries (.context c)).length = (Entries.keys (w.entries (.context c))).length
  value : ∀ k, Entries.get? k (w.entries (.context c)) = w.valueAt? (.context c) k
  nearest : ∀ k v, w.valueAt? (.context c) k = some v ↔
    ∃ e, w.LooksInto (w.store.view c) k e ∧ Entries.get? k (w.contextOf e) = some v

theorem Nested.keyed (h : w.Nested) {c : ViewId} (hc : c < w.store.views.size) : w.Keyed (.context c) := by
  intro o ho
  rw [touched_context] at ho
  obtain ⟨t, ht, rfl⟩ : ∃ t ∈ w.chain (w.store.view c), (w.scope t).context = o := by simpa using ho
  exact h.distinct t (h.chain (h.views c hc) t ht)

theorem Nested.showsMapping (h : w.Nested) {c : ViewId} (hc : c < w.store.views.size) : w.ShowsMapping c where
  yielded k := by
    rw [Entries.exists_key_iff, (h.keyed hc).valueAt?]
  once := List.pairwise_map.mpr ((h.keyed hc).entries rfl)
  count := (List.length_map _).symm
  value k := ((h.keyed hc).valueAt? k).symm
  nearest _ _ := lookup?_eq_some_iff

/-! ### Other entries for one scope -/

/-- The world in which a scope has other entries in its context. -/
def withContext (w : World) (e : ScopeId) (es : Entries Value) : World :=
  { w with store := w.store.setObject (w.scope e).context es }

theorem Nested.contextOf_withContext (h : w.Nested) (he : e < w.scopes.size) (es : Entries Value)
    (ht : t < w.scopes.size) : (w.withContext e es).contextOf t = if t = e then es else w.contextOf t := by
  change (w.store.setObject (w.scope e).context es).object (w.scope t).context = _
  rw [Store.object_setObject]
  by_cases hte : t = e
  · rw [if_pos hte, if_pos ⟨by rw [hte], h.has e he⟩]
  · rw [if_neg hte, if_neg fun hc => hte (h.apart t ht e he hc.1.symm)]
    rfl

theorem chain_withContext (w : World) (e : ScopeId) (es : Entries Value) (s : ScopeId) :
    (w.withContext e es).chain s = w.chain s :=
  chainFrom_congr _ _ fun _ _ => rfl

theorem Nested.withContext (h : w.Nested) (he : e < w.scopes.size) {es : Entries Value} (hes : es.Distinct) :
    (w.withContext e es).Nested where
  older := h.older
  has s hs := (changedAt_setObject w _ es).has _ (h.has s hs)
  apart := h.apart
  distinct s hs := by
    rw [h.contextOf_withContext he es hs]
    split
    · exact hes
    · exact h.distinct s hs
  views := h.views

section Lookup

variable (h : w.Nested) (he : e < w.scopes.size) {es : Entries Value} (hs : s < w.scopes.size)
include h he hs

theorem Nested.get?_other : ∀ t ∈ w.chain s, t ≠ e →
    Entries.get? l ((w.withContext e es).contextOf t) = Entries.get? l (w.contextOf t) := by
  intro t ht hte
  rw [h.contextOf_withContext he es (h.chain hs t ht), if_neg hte]

theorem Nested.lookup?_seen (hv : Entries.get? l es = some v) (hl : w.LooksInto s l e) :
    (w.withContext e es).lookup? s l = some v := by
  unfold lookup?
  rw [w.chain_withContext]
  refine findSome?_of_comesTo (h.get?_other he hs) hl ?_
  rw [h.contextOf_withContext he es he, if_pos rfl, hv]

theorem Nested.lookup?_unseen (hl : Entries.get? l es = Entries.get? l (w.contextOf e) ∨ ¬w.LooksInto s l e) :
    (w.withContext e es).lookup? s l = w.lookup? s l := by
  unfold lookup?
  rw [w.chain_withContext]
  refine findSome?_unchanged (h.get?_other he hs) (hl.imp_left fun hl => ?_)
  rw [h.contextOf_withContext he es he, if_pos rfl, hl]

end Lookup

end World

/-! ### Changes through contexts -/

/-- A change through a context: an assignment to a key, or the deletion of one. -/
inductive ContextChange where
  | assign (c : ViewId) (k : Key) (v : Value)
  | delete (c : ViewId) (k : Key)

namespace ContextChange

open World

/-- The context that a change is made through. -/
def view : ContextChange → ViewId
  | assign c _ _ | delete c _ => c

def run : ContextChange → Exec Unit
  | assign c k v => Exec.setEntry (.context c) k v
  | delete c k => do Exec.eraseEntry ((← Exec.store).view c) k k.label

/-- The world after some changes, one after the other; a deletion that fails does not keep those after it from being
made. -/
def runAll : List ContextChange → World → World
  | [], w => w
  | change :: rest, w => runAll rest (change.run.after w)

variable {w : World} {c : ViewId} {k : Key}

theorem run_assign (c : ViewId) (k : Key) (v : Value) (w : World) :
    (assign c k v).run w =
      .ok () (w.withContext (w.store.view c) (Entries.insert k v (w.contextOf (w.store.view c)))) := rfl

theorem run_delete (c : ViewId) (k : Key) (w : World) :
    (delete c k).run w =
      if Entries.has k (w.contextOf (w.store.view c)) then
        .ok () (w.withContext (w.store.view c) (Entries.erase k (w.contextOf (w.store.view c))))
      else .error (.missingKey k.label) w := by
  change (if Entries.has k (w.contextOf (w.store.view c)) = true then _ else _ : Exec Unit) w = _
  split <;> rfl

/-- A change leaves the scopes and the contexts as they are, and no key twice anywhere. -/
theorem run_keeps (h : w.Nested) {change : ContextChange} (hc : change.view < w.store.views.size) :
    (change.run.after w).Nested ∧ (change.run.after w).store.views = w.store.views ∧
      (change.run.after w).scopes = w.scopes := by
  have he := h.views _ hc
  cases change with
  | assign c k v =>
    rw [Exec.after_ok (run_assign c k v w)]
    exact ⟨h.withContext he ((h.distinct _ he).insert k v), rfl, rfl⟩
  | delete c k =>
    have hrun := run_delete c k w
    split at hrun
    · rw [Exec.after_ok hrun]
      exact ⟨h.withContext he ((h.distinct _ he).erase k), rfl, rfl⟩
    · rw [Exec.after_error hrun]
      exact ⟨h, rfl, rfl⟩

theorem runAll_keeps (h : w.Nested) {changes : List ContextChange}
    (hc : ∀ change ∈ changes, change.view < w.store.views.size) :
    (runAll changes w).Nested ∧ (runAll changes w).store.views = w.store.views ∧
      (runAll changes w).scopes = w.scopes := by
  induction changes generalizing w with
  | nil => exact ⟨h, rfl, rfl⟩
  | cons change rest ih =>
    obtain ⟨hfirst, hrest⟩ := List.forall_mem_cons.mp hc
    obtain ⟨hnested, hviews, hscopes⟩ := run_keeps h hfirst
    obtain ⟨hnested', hviews', hscopes'⟩ := ih hnested fun other ho => by
      rw [hviews]
      exact hrest other ho
    exact ⟨hnested', hviews'.trans hviews, hscopes'.trans hscopes⟩

/-- What an assignment in a scope does to what is seen: the value is seen from where looking out for the key comes to
the scope, and nothing else is seen differently from anywhere. -/
structure Assigned (w w' : World) (e : ScopeId) (k : Key) (v : Value) : Prop where
  seen : ∀ s < w.scopes.size, ∀ l, l.same k = true → w.LooksInto s k e → w'.lookup? s l = some v
  unseen : ∀ s < w.scopes.size, ∀ l, ¬(l.same k = true ∧ w.LooksInto s k e) → w'.lookup? s l = w.lookup? s l

/-- What a deletion in a scope does: the key is gone there, and no other entry of any scope. -/
structure Deleted (w w' : World) (e : ScopeId) (k : Key) : Prop where
  gone : Entries.get? k (w'.contextOf e) = none
  kept : ∀ l, ¬l.same k = true → Entries.get? l (w'.contextOf e) = Entries.get? l (w.contextOf e)
  others : ∀ s < w.scopes.size, s ≠ e → w'.contextOf s = w.contextOf s

theorem assign_assigned (h : w.Nested) (hc : c < w.store.views.size) (k : Key) (v : Value) :
    ∃ w', (assign c k v).run w = .ok () w' ∧ Assigned w w' (w.store.view c) k v := by
  have he := h.views c hc
  refine ⟨_, run_assign c k v w, ⟨fun s hs l hl hlook => ?_, fun s hs l hl => ?_⟩⟩
  · refine h.lookup?_seen he hs ?_ ((looksInto_congr hl).mpr hlook)
    rw [Entries.get?_insert, if_pos hl]
  · refine h.lookup?_unseen he hs ?_
    by_cases hlk : l.same k = true
    · exact .inr fun hlook => hl ⟨hlk, (looksInto_congr hlk).mp hlook⟩
    · refine .inl ?_
      rw [Entries.get?_insert, if_neg hlk]

theorem delete_deleted (h : w.Nested) (hc : c < w.store.views.size)
    (hk : Entries.has k (w.contextOf (w.store.view c)) = true) :
    ∃ w', (delete c k).run w = .ok () w' ∧ Deleted w w' (w.store.view c) k := by
  have he := h.views c hc
  have hrun := run_delete c k w
  rw [if_pos hk] at hrun
  have hget := (h.distinct _ he).get?_erase k
  refine ⟨_, hrun, ⟨?_, fun l hl => ?_, fun s hs hse => ?_⟩⟩
  · rw [h.contextOf_withContext he _ he, if_pos rfl, hget, if_pos k.same_self]
  · rw [h.contextOf_withContext he _ he, if_pos rfl, hget, if_neg hl]
  · rw [h.contextOf_withContext he _ hs, if_neg hse]

/-- After any changes, every context shows a mapping; an assignment through it is seen at and below its scope up to
where another value is nearer, and a deletion fails just if the scope itself does not have the key. -/
theorem contexts_are_mappings (h : w.Nested) {changes : List ContextChange}
    (hc : ∀ change ∈ changes, change.view < w.store.views.size) (hview : c < w.store.views.size) :
    (runAll changes w).ShowsMapping c ∧
      (∀ k v, ∃ w', (assign c k v).run (runAll changes w) = .ok () w' ∧
        Assigned (runAll changes w) w' (w.store.view c) k v) ∧
      ∀ k, (Entries.has k ((runAll changes w).contextOf (w.store.view c)) = false ↔
          ∃ w', (delete c k).run (runAll changes w) = .error (.missingKey k.label) w') ∧
        (Entries.has k ((runAll changes w).contextOf (w.store.view c)) = true →
          ∃ w', (delete c k).run (runAll changes w) = .ok () w' ∧
            Deleted (runAll changes w) w' (w.store.view c) k) := by
  obtain ⟨hnested, hviews, -⟩ := runAll_keeps h hc
  generalize runAll changes w = m at hnested hviews ⊢
  have hsame : w.store.view c = m.store.view c := by
    unfold Store.view
    rw [hviews]
  rw [← hviews] at hview
  rw [hsame]
  refine ⟨hnested.showsMapping hview, fun k v => assign_assigned hnested hview k v, fun k => ⟨?_, ?_⟩⟩
  · rw [run_delete]
    cases Entries.has k (m.contextOf (m.store.view c)) <;> simp
  · exact delete_deleted hnested hview

/-- Two scopes, one below the other, each with a context that looks out from it. -/
def twoContexts : World where
  store := {
    objects := #[[(.str "x", .int 1)], [(.str "y", .int 2)]]
    cells := #[{ value := .null }, { value := .null }]
    views := #[0, 1] }
  scopes := #[{ context := 0 }, { parent := some 0, context := 1 }]
  stateCell := 1

theorem twoContexts_nested : twoContexts.Nested where
  older s hs p hp := by
    match s, hs with
    | 0, _ => cases hp
    | 1, _ =>
      cases hp
      exact Nat.one_pos
  has s hs := by
    match s, hs with
    | 0, _ => exact Nat.two_pos
    | 1, _ => exact Nat.one_lt_two
  apart s hs t ht h := by
    match s, hs, t, ht with
    | 0, _, 0, _ => rfl
    | 1, _, 1, _ => rfl
    | 0, _, 1, _ => cases h
    | 1, _, 0, _ => cases h
  distinct s hs := by
    match s, hs with
    | 0, _ => exact List.pairwise_singleton _ _
    | 1, _ => exact List.pairwise_singleton _ _
  views c hc := by
    match c, hc with
    | 0, _ => exact Nat.two_pos
    | 1, _ => exact Nat.one_lt_two

/-- A value put below hides that of the scope above, which is seen again once it is deleted; a key of the scope above
cannot be deleted below. -/
theorem contexts_hide_and_show :
    let below := [assign 1 (.str "x") (.int 5), delete 0 (.str "y"), delete 1 (.str "x")]
    (runAll below twoContexts).ShowsMapping 1 ∧
      (runAll below twoContexts).valueAt? (.context 1) (.str "x") = some (.int 1) ∧
      ∃ w', (delete 1 (.str "x")).run (runAll below twoContexts) = .error (.missingKey (Key.label (.str "x"))) w' := by
  intro below
  have hc : ∀ change ∈ below, change.view < twoContexts.store.views.size := by decide
  obtain ⟨hmapping, -, hdelete⟩ := contexts_are_mappings twoContexts_nested hc Nat.one_lt_two
  exact ⟨hmapping, rfl, (hdelete (.str "x")).1.mp rfl⟩

end ContextChange

end EventScript
