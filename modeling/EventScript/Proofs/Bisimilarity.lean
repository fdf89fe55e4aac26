import EventScript.Proofs.Reachable

/-!
# Bisimilar values

Values are bisimilar if some relation between them can be kept up all the way down: what they stand for is the same, or
holds the same number, text or bytes, or has parts that are related again. Containers that hold themselves are compared
in this way too. Bisimilarity is itself such a relation, and an equivalence.
-/

namespace EventScript

section Rel

variable {α : Type} {R S T : α → α → Prop} {a b c : Option α}

theorem rel_imp (hR : ∀ x y, R x y → S x y) (h : a.Rel R b) : a.Rel S b := by
  cases h with
  | some hxy => exact .some (hR _ _ hxy)
  | none => exact .none

theorem rel_flip (hR : ∀ x y, R x y → S y x) (h : a.Rel R b) : b.Rel S a := by
  cases h with
  | some hxy => exact .some (hR _ _ hxy)
  | none => exact .none

theorem rel_comp (hT : ∀ x y z, R x y → S y z → T x z) (h : a.Rel R b) (k : b.Rel S c) : a.Rel T c := by
  cases h with
  | some hxy =>
    cases k with
    | some hyz => exact .some (hT _ _ _ hxy hyz)
  | none =>
    cases k with
    | none => exact .none

theorem forall₂_comp (hT : ∀ x y z, R x y → S y z → T x z) {xs ys zs : List α} (h : List.Forall₂ R xs ys)
    (k : List.Forall₂ S ys zs) : List.Forall₂ T xs zs := by
  induction h generalizing zs with
  | nil =>
    cases k
    exact .nil
  | cons hxy _ ih =>
    cases k with
    | cons hyz hrest => exact .cons (hT _ _ _ hxy hyz) (ih hrest)

/-- Lists are related if what is at each place is. -/
theorem forall₂_of_getElem? {xs ys : List α} (h : ∀ i : Nat, (xs[i]?).Rel R (ys[i]?)) : List.Forall₂ R xs ys := by
  induction xs generalizing ys with
  | nil =>
    cases ys with
    | nil => exact .nil
    | cons y ys => nomatch h 0
  | cons x xs ih =>
    cases ys with
    | nil => nomatch h 0
    | cons y ys =>
      have hfirst : R x y := by
        cases h 0 with
        | some hxy => exact hxy
      exact .cons hfirst (ih fun i => h (i + 1))

end Rel

theorem Number.not_eqv_of_isNan {m n : Number} (hm : m.isNan = true) : ¬m.eqv n = true := by
  cases m with
  | nan origin => exact Number.not_eqv_nan
  | _ => cases hm

namespace World

/-- What two values have in common whose parts are related. -/
inductive Matches (w : World) (R : Value → Value → Prop) : Value → Value → Prop where
  | numbers {m n} : m.isNan = true ∧ n.isNan = true ∨ m.eqv n = true → Matches w R (.num m) (.num n)
  | arrays {x y} : List.Forall₂ R (w.store.array x).toList (w.store.array y).toList → Matches w R (.array x) (.array y)
  | blobs {x y} : (w.store.blob x).mime = (w.store.blob y).mime → (w.store.blob x).data = (w.store.blob y).data →
      Matches w R (.blob x) (.blob y)
  | nodes {x y} : (w.store.nodeList x).map (·.id) = (w.store.nodeList y).map (·.id) → Matches w R (.nodes x) (.nodes y)
  | objects {u v} : u.kind = .object → v.kind = .object → (∀ k, (w.valueAt? u k).Rel R (w.valueAt? v k)) →
      Matches w R u v

/-- A relation that holds only between values that are one, or that stand for what is one or matches under it. -/
def IsBisimulation (w : World) (lead : HandleId → Option Value) (R : Value → Value → Prop) : Prop :=
  ∀ x y, R x y → x = y ∨ ∃ u v, x.behind? lead = some u ∧ y.behind? lead = some v ∧ (u = v ∨ w.Matches R u v)

/-- Some bisimulation relates two values. -/
def Bisimilar (w : World) (lead : HandleId → Option Value) (x y : Value) : Prop :=
  ∃ R, w.IsBisimulation lead R ∧ R x y

variable {w : World} {lead : HandleId → Option Value} {R S : Value → Value → Prop} {u v x y z : Value}

theorem Matches.mono (h : w.Matches R u v) (hR : ∀ x y, R x y → S x y) : w.Matches S u v := by
  cases h with
  | numbers h => exact .numbers h
  | arrays h => exact .arrays (h.imp hR)
  | blobs hm hd => exact .blobs hm hd
  | nodes h => exact .nodes h
  | objects hu hv h => exact .objects hu hv fun k => rel_imp hR (h k)

theorem Matches.symm (h : w.Matches R u v) (hR : ∀ x y, R x y → S y x) : w.Matches S v u := by
  cases h with
  | numbers h => exact .numbers (h.imp And.symm Number.eqv_symm)
  | arrays h => exact .arrays ((h.imp hR).flip)
  | blobs hm hd => exact .blobs hm.symm hd.symm
  | nodes h => exact .nodes h.symm
  | objects hu hv h => exact .objects hv hu fun k => rel_flip hR (h k)

theorem Matches.trans {T : Value → Value → Prop} (h : w.Matches R x y) (k : w.Matches S y z)
    (hT : ∀ a b c, R a b → S b c → T a c) : w.Matches T x z := by
  cases h with
  | numbers h =>
    cases k with
    | numbers k =>
      refine .numbers ?_
      rcases h with ⟨hm, hn⟩ | h
      · exact .inl ⟨hm, (k.resolve_right (Number.not_eqv_of_isNan hn)).2⟩
      · rcases k with ⟨hn, -⟩ | k
        · exact absurd (Number.eqv_symm h) (Number.not_eqv_of_isNan hn)
        · exact .inr (Number.eqv_trans h k)
    | objects hu _ _ => cases hu
  | arrays h =>
    cases k with
    | arrays k => exact .arrays (forall₂_comp hT h k)
    | objects hu _ _ => cases hu
  | blobs hm hd =>
    cases k with
    | blobs hm' hd' => exact .blobs (hm.trans hm') (hd.trans hd')
    | objects hu _ _ => cases hu
  | nodes h =>
    cases k with
    | nodes k => exact .nodes (h.trans k)
    | objects hu _ _ => cases hu
  | objects hu hv h =>
    cases k with
    | objects _ hz k => exact .objects hu hz fun l => rel_comp hT (h l) (k l)
    | _ => cases hv

theorem Bisimilar.refl (x : Value) : w.Bisimilar lead x x := ⟨Eq, fun _ _ h => .inl h, rfl⟩

theorem isBisimulation_bisimilar : w.IsBisimulation lead (w.Bisimilar lead) := by
  rintro x y ⟨R, hR, hxy⟩
  rcases hR x y hxy with rfl | ⟨u, v, hu, hv, hsame | hm⟩
  · exact .inl rfl
  · exact .inr ⟨u, v, hu, hv, .inl hsame⟩
  · exact .inr ⟨u, v, hu, hv, .inr (hm.mono fun a b hab => ⟨R, hR, hab⟩)⟩

theorem Bisimilar.symm (h : w.Bisimilar lead x y) : w.Bisimilar lead y x := by
  refine ⟨fun a b => w.Bisimilar lead b a, fun a b hab => ?_, h⟩
  rcases isBisimulation_bisimilar b a hab with rfl | ⟨u, v, hu, hv, rfl | hm⟩
  · exact .inl rfl
  · exact .inr ⟨u, u, hv, hu, .inl rfl⟩
  · exact .inr ⟨v, u, hv, hu, .inr (hm.symm fun _ _ h => h)⟩

theorem Bisimilar.trans (h : w.Bisimilar lead x y) (k : w.Bisimilar lead y z) : w.Bisimilar lead x z := by
  refine ⟨fun a c => ∃ b, w.Bisimilar lead a b ∧ w.Bisimilar lead b c, ?_, y, h, k⟩
  rintro a c ⟨b, hab, hbc⟩
  have left {u v : Value} (h : w.Matches (w.Bisimilar lead) u v) :
      w.Matches (fun a c => ∃ b, w.Bisimilar lead a b ∧ w.Bisimilar lead b c) u v :=
    h.mono fun a b h => ⟨b, h, .refl b⟩
  rcases isBisimulation_bisimilar a b hab with rfl | ⟨u, v, hu, hv, huv⟩
  · rcases isBisimulation_bisimilar a c hbc with rfl | ⟨u, v, hu, hv, huv⟩
    · exact .inl rfl
    · exact .inr ⟨u, v, hu, hv, huv.imp_right left⟩
  · rcases isBisimulation_bisimilar b c hbc with rfl | ⟨v', z', hv', hz', hvz⟩
    · exact .inr ⟨u, v, hu, hv, huv.imp_right left⟩
    · cases hv.symm.trans hv'
      refine .inr ⟨u, z', hu, hz', ?_⟩
      rcases huv with rfl | huv
      · exact hvz.imp_right left
      · rcases hvz with rfl | hvz
        · exact .inr (left huv)
        · exact .inr (huv.trans hvz fun a b c hab hbc => ⟨b, hab, hbc⟩)

end World

end EventScript
