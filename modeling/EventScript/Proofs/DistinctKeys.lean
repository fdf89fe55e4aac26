import Mathlib.Tactic.Ring
import EventScript.Proofs.Linking

/-!
# Objects under different keys

Being the same is an equivalence of keys, numbers of either representation included. An object has no key twice, so
what is looked up under a key is the value of the one entry whose key is the same. A context inherits this from the
scopes that it looks out on.
-/

namespace EventScript

/-- The denominator of an exact value is positive. -/
def Number.Exact.Proper : Number.Exact → Prop
  | .ratio _ den => 0 < den
  | _ => True

theorem Number.exact_proper (n : Number) : n.exact.Proper := by
  unfold Number.exact
  cases n with
  | int n => exact Nat.one_pos
  | nan origin => trivial
  | float x =>
    dsimp only
    split
    · trivial
    · trivial
    · rename_i negative m e _
      change 0 < (Decimal.scaleTwo m e).2
      unfold Decimal.scaleTwo
      split
      · exact Nat.one_pos
      · exact Nat.pow_pos (by decide)

theorem Number.Exact.order?_eq_iff {a b : Number.Exact} :
    a.order? b = some .eq ↔ (∃ s, a = .infinite s ∧ b = .infinite s) ∨
      ∃ p q r s, a = .ratio p q ∧ b = .ratio r s ∧ p * s = r * q := by
  cases a with
  | nan => cases b <;> simp [order?]
  | infinite x => cases b <;> cases x <;> simp [order?]
  | ratio p q =>
    cases b with
    | nan => simp [order?]
    | infinite y => cases y <;> simp [order?]
    | ratio r s => simp [order?]

namespace Number

variable {a b c : Number}

theorem eqv_iff : a.eqv b = true ↔ a.exact.order? b.exact = some .eq := by
  unfold eqv order?
  exact beq_iff_eq

theorem eqv_symm (h : a.eqv b = true) : b.eqv a = true := by
  rw [eqv_iff, Exact.order?_eq_iff] at h ⊢
  rcases h with ⟨s, ha, hb⟩ | ⟨p, q, r, s, ha, hb, h⟩
  · exact .inl ⟨s, hb, ha⟩
  · exact .inr ⟨r, s, p, q, hb, ha, h.symm⟩

theorem eqv_trans (h : a.eqv b = true) (k : b.eqv c = true) : a.eqv c = true := by
  rw [eqv_iff, Exact.order?_eq_iff] at h k ⊢
  rcases h with ⟨s, ha, hb⟩ | ⟨p, q, r, s, ha, hb, h⟩
  · rcases k with ⟨t, hb', hc⟩ | ⟨_, _, _, _, hb', -⟩
    · rw [hb] at hb'
      cases hb'
      exact .inl ⟨s, ha, hc⟩
    · rw [hb] at hb'
      cases hb'
  · rcases k with ⟨_, hb', -⟩ | ⟨r', s', t, u, hb', hc, k⟩
    · rw [hb] at hb'
      cases hb'
    · rw [hb] at hb'
      cases hb'
      have hs : (s : Int) ≠ 0 := by
        have hproper := b.exact_proper
        rw [hb] at hproper
        exact Int.natCast_ne_zero.mpr (Nat.pos_iff_ne_zero.mp hproper)
      refine .inr ⟨p, q, t, u, ha, hc, Int.eq_of_mul_eq_mul_right hs ?_⟩
      calc p * u * s = p * s * u := by ring
        _ = r * u * q := by rw [h]; ring
        _ = t * q * s := by rw [k]; ring

theorem not_eqv_nan {origin : Nat} : ¬(Number.nan origin).eqv b = true := by
  rw [eqv_iff, Exact.order?_eq_iff]
  rintro (⟨s, ha, -⟩ | ⟨p, q, r, s, ha, -⟩) <;> cases ha

end Number

namespace Key

variable {k l m : Key}

theorem same_number (hk : k.number? = some a) :
    k.same l = true ↔ ∃ b, l.number? = some b ∧ (a.eqv b = true ∨ a = b) := by
  cases k <;> cases hk <;> cases l <;> simp [same, number?]

theorem same_symm (h : k.same l = true) : l.same k = true := by
  cases hk : k.number? with
  | some a =>
    obtain ⟨b, hl, hab⟩ := (same_number hk).mp h
    exact (same_number hl).mpr ⟨a, hk, hab.imp Number.eqv_symm Eq.symm⟩
  | none => cases k <;> cases hk <;> cases l <;> simp_all [same, number?]

theorem same_trans (h : k.same l = true) (hl : l.same m = true) : k.same m = true := by
  cases hk : k.number? with
  | some a =>
    obtain ⟨b, hb, hab⟩ := (same_number hk).mp h
    obtain ⟨c, hc, hbc⟩ := (same_number hb).mp hl
    refine (same_number hk).mpr ⟨c, hc, ?_⟩
    rcases hab with hab | rfl
    · rcases hbc with hbc | rfl
      · exact .inl (Number.eqv_trans hab hbc)
      · exact .inl hab
    · exact hbc
  | none => cases k <;> cases hk <;> cases l <;> cases m <;> simp_all [same, number?]

theorem same_congr (h : k.same l = true) (m : Key) : k.same m = l.same m := by
  rw [Bool.eq_iff_iff]
  exact ⟨same_trans (same_symm h), same_trans h⟩

end Key

namespace Entries

variable {α : Type} {k l : Key} {es fs : Entries α}

/-- No key twice. -/
def Distinct (es : Entries α) : Prop := es.Pairwise fun e f => ¬e.1.same f.1 = true

theorem Distinct.of_keys {β : Type} {fs : Entries β} (h : Distinct fs) (hk : es.map Prod.fst = fs.map Prod.fst) :
    Distinct es := by
  have hkeys : List.Pairwise (fun k l => ¬Key.same k l = true) (fs.map Prod.fst) := List.pairwise_map.mpr h
  rw [← hk] at hkeys
  exact List.pairwise_map.mp hkeys

theorem get?_same (h : k.same l = true) (es : Entries α) : get? k es = get? l es := by
  induction es with
  | nil => rfl
  | cons e rest ih => rw [get?_cons, get?_cons, Key.same_congr h, ih]

theorem exists_mem_of_get? {v : α} (h : get? k es = some v) : ∃ l, k.same l = true ∧ (l, v) ∈ es := by
  induction es with
  | nil => cases h
  | cons e rest ih =>
    obtain ⟨l, x⟩ := e
    rw [get?_cons] at h
    split at h
    · rename_i hk
      cases h
      exact ⟨l, hk, List.mem_cons_self⟩
    · obtain ⟨l', hk, hmem⟩ := ih h
      exact ⟨l', hk, List.mem_cons_of_mem _ hmem⟩

theorem Distinct.get?_of_mem (h : Distinct es) {e : Key × α} (he : e ∈ es) : get? e.1 es = some e.2 := by
  induction es with
  | nil => cases he
  | cons f rest ih =>
    obtain ⟨hf, hrest⟩ := List.pairwise_cons.mp h
    rw [get?_cons]
    rcases List.mem_cons.mp he with rfl | he
    · rw [if_pos e.1.same_self]
    · rw [if_neg fun hs => hf e he (Key.same_symm hs)]
      exact ih hrest he

theorem get?_insert (k l : Key) (v : α) (es : Entries α) :
    get? l (insert k v es) = if l.same k = true then some v else get? l es := by
  induction es with
  | nil => rfl
  | cons e rest ih =>
    obtain ⟨k', x⟩ := e
    unfold insert
    split
    · rename_i hk
      rw [get?_cons, get?_cons]
      by_cases hl : l.same k = true
      · rw [if_pos hl, if_pos (Key.same_trans hl hk)]
      · have hl' : ¬l.same k' = true := fun h => hl (Key.same_trans h (Key.same_symm hk))
        rw [if_neg hl, if_neg hl', if_neg hl']
    · rename_i hk
      rw [get?_cons, get?_cons, ih]
      by_cases hl : l.same k = true
      · rw [if_neg fun h => hk (Key.same_trans (Key.same_symm hl) h), if_pos hl, if_pos hl]
      · rw [if_neg hl, if_neg hl]

theorem mem_insert_key {e : Key × α} {v : α} (h : e ∈ insert k v es) : e.1 = k ∨ ∃ f ∈ es, f.1 = e.1 := by
  induction es with
  | nil =>
    obtain rfl := List.mem_singleton.mp h
    exact .inl rfl
  | cons f rest ih =>
    obtain ⟨k', x⟩ := f
    unfold insert at h
    split at h
    · rcases List.mem_cons.mp h with rfl | h
      · exact .inr ⟨_, List.mem_cons_self, rfl⟩
      · exact .inr ⟨e, List.mem_cons_of_mem _ h, rfl⟩
    · rcases List.mem_cons.mp h with rfl | h
      · exact .inr ⟨_, List.mem_cons_self, rfl⟩
      · refine (ih h).imp_right fun hex => ?_
        obtain ⟨f, hf, he⟩ := hex
        exact ⟨f, List.mem_cons_of_mem _ hf, he⟩

theorem Distinct.insert (h : Distinct es) (k : Key) (v : α) : Distinct (insert k v es) := by
  induction es with
  | nil => exact List.pairwise_singleton _ _
  | cons f rest ih =>
    obtain ⟨k', x⟩ := f
    obtain ⟨hf, hrest⟩ := List.pairwise_cons.mp h
    unfold Entries.insert
    split
    · exact List.pairwise_cons.mpr ⟨hf, hrest⟩
    · rename_i hk
      refine List.pairwise_cons.mpr ⟨fun e he => ?_, ih hrest⟩
      rcases mem_insert_key he with rfl | ⟨f, hfm, hfe⟩
      · exact fun hs => hk (Key.same_symm hs)
      · rw [← hfe]
        exact hf f hfm

theorem Distinct.update (h : Distinct es) (new : Entries α) : Distinct (update es new) := by
  unfold Entries.update
  induction new generalizing es with
  | nil => exact h
  | cons e rest ih => exact ih (h.insert e.1 e.2)

/-- What an update brings counts before what was there. -/
theorem get?_update {new : Entries α} (hn : Distinct new) (es : Entries α) :
    get? k (update es new) = (get? k new).or (get? k es) := by
  unfold update
  induction new generalizing es with
  | nil => rfl
  | cons e rest ih =>
    obtain ⟨hf, hrest⟩ := List.pairwise_cons.mp hn
    rw [List.foldl_cons, ih hrest, get?_insert, get?_cons]
    by_cases hk : k.same e.1 = true
    · have hnone : get? k rest = none := by
        rw [get?_same hk]
        refine Option.eq_none_iff_forall_not_mem.mpr fun v hv => ?_
        obtain ⟨l, hl, hmem⟩ := exists_mem_of_get? hv
        exact hf _ hmem hl
      rw [if_pos hk, if_pos hk, hnone]
      rfl
    · rw [if_neg hk, if_neg hk]

theorem get?_erase_other (h : ¬l.same k = true) (es : Entries α) : get? l (erase k es) = get? l es := by
  induction es with
  | nil => rfl
  | cons f rest ih =>
    obtain ⟨k', x⟩ := f
    unfold erase
    rw [get?_cons]
    split
    · rename_i hk
      rw [if_neg fun hl => h (Key.same_trans hl (Key.same_symm hk))]
    · rw [get?_cons, ih]

theorem length_erase (h : has k es = true) : (erase k es).length + 1 = es.length := by
  induction es with
  | nil => cases h
  | cons f rest ih =>
    obtain ⟨k', x⟩ := f
    unfold erase
    unfold has at h
    rw [get?_cons] at h
    split
    · rfl
    · rename_i hk
      rw [if_neg hk] at h
      rw [List.length_cons, ih h, List.length_cons]

/-- Where all keys of one object are keys of another that is not larger, the other has no further ones. -/
theorem has_of_length_eq (he : Distinct es) (hlength : es.length = fs.length) (hall : ∀ e ∈ es, has e.1 fs = true)
    (hk : has k fs = true) : has k es = true := by
  induction es generalizing fs with
  | nil =>
    rw [List.eq_nil_of_length_eq_zero hlength.symm] at hk
    exact hk
  | cons e rest ih =>
    obtain ⟨hf, hrest⟩ := List.pairwise_cons.mp he
    unfold has
    rw [get?_cons]
    by_cases hke : k.same e.1 = true
    · rw [if_pos hke]
      rfl
    · rw [if_neg hke]
      have hfewer : rest.length = (erase e.1 fs).length := by
        have herase := length_erase (hall e List.mem_cons_self)
        rw [List.length_cons] at hlength
        omega
      refine ih hrest hfewer (fun f hfm => ?_) ?_
      · unfold has
        rw [get?_erase_other fun hs => hf f hfm (Key.same_symm hs)]
        exact hall f (List.mem_cons_of_mem _ hfm)
      · unfold has
        rw [get?_erase_other hke]
        exact hk

end Entries

namespace World

variable {w : World} {v : Value}

/-- No object that a value looks at has a key twice. -/
def Keyed (w : World) (v : Value) : Prop := ∀ o, .object o ∈ w.touched v → (w.store.object o).Distinct

theorem distinct_seenAlong (ts : List ScopeId) : (w.seenAlong ts).Distinct := by
  induction ts with
  | nil => exact .nil
  | cons t rest ih => exact ih.update _

theorem get?_seenAlong {ts : List ScopeId} (h : ∀ t ∈ ts, (w.contextOf t).Distinct) (k : Key) :
    Entries.get? k (w.seenAlong ts) = ts.findSome? fun t => Entries.get? k (w.contextOf t) := by
  induction ts with
  | nil => rfl
  | cons t rest ih =>
    obtain ⟨ht, hrest⟩ := List.forall_mem_cons.mp h
    change Entries.get? k (Entries.update (w.seenAlong rest) (w.contextOf t)) = _
    rw [Entries.get?_update ht, ih hrest, List.findSome?_cons]
    cases Entries.get? k (w.contextOf t) <;> rfl

theorem Keyed.entries (h : w.Keyed v) (hv : v.kind = .object) : (w.entries v).Distinct := by
  cases v with
  | object o => exact h o (by simp [touched, Value.own?])
  | context c =>
    change (w.visible (w.store.view c)).Distinct
    rw [visible_eq]
    exact distinct_seenAlong _
  | _ => cases hv

/-- What is looked up in an object or a context is among its entries. -/
theorem Keyed.valueAt? (h : w.Keyed v) (k : Key) : w.valueAt? v k = Entries.get? k (w.entries v) := by
  cases v with
  | context c =>
    change w.lookup? (w.store.view c) k = Entries.get? k (w.visible (w.store.view c))
    rw [visible_eq, get?_seenAlong fun t ht => h _ (List.mem_map.mpr ⟨t, ht, rfl⟩)]
    rfl
  | _ => rfl

end World

end EventScript
