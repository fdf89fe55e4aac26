import EventScript.Proofs.Linking
import EventScript.Proofs.Operations

/-!
# Writes as changes of unfoldings

A write along a path through a tree comes to the change of the unfolding that is foreseen, or fails where none is. What
is written may be no tree itself, as long as it shares nothing with the path.
-/

namespace EventScript

namespace World

variable {loose : Place → Prop} {w w' m₀ w₁ : World} {cur v new u : Value} {part : Part} {rest : List Part}
  {x y : Place} {s t : Slot}

theorem admits_iff (w : World) (limits : Limits) (cur : Value) (part : Part) :
    (w.shape cur).admits limits part = true ↔ Path.Admits limits cur part := by
  unfold Path.Admits Opens
  cases part with
  | index i =>
    cases cur <;> simp [shape, Shape.admits, Value.isNull]
  | key k => cases cur <;> simp [shape, Shape.admits, Value.isNull, Value.kind]
  | _ => cases cur <;> simp [shape, Shape.admits]

theorem next_unfold (w : World) (cur : Value) (hs : part.slot? = some s) :
    (w.unfold cur).next s = w.unfold (w.next cur part) := by
  unfold Unfolding.next
  rw [child?_unfold, w.next_eq_slot cur hs]
  cases w.slot? cur s with
  | none => exact w.unfold_null.symm
  | some u => rfl

theorem Opened.spares_beside (ho : w.Opened cur part v m₀) (hk : w.Knows cur) (hh : ∀ x, cur ≠ .handle x) :
    w.Spares (fun y => w.placeOf cur ≠ some y) m₀ := by
  refine ho.spares ?_
  cases cur with
  | handle x => exact absurd rfl (hh x)
  | context c => exact ⟨hk.sees_own, fun h => h rfl⟩
  | _ => exact fun y hy h => h hy

section Step

variable (ho : w.Opened cur part v m₀) (ht : w.Tree loose cur) (hf : w.Firm loose (part :: rest) cur)

include ho ht hf in
theorem Opened.spares_next : w.Agrees m₀ (w.next cur part) ∧ m₀.Tree loose (w.next cur part) := by
  have hspares := ho.spares_beside (ht.whole cur (.self w cur)) hf.head.1
  have hapart : ∀ y, w.Holds (w.next cur part) y → w.placeOf cur ≠ some y := by
    intro y hy hcy
    have hy' := placeOf_mem_touched hcy
    exact ht.not_holds_next hy' (hf.head.2 y hy') part hy
  exact ⟨hspares.agrees (ht.next part).whole hapart, (ht.next part).spared hspares hapart⟩

include ho ht hf in
theorem Opened.spares_loose (hu : w.Loose loose u) : w.Agrees m₀ u ∧ m₀.Loose loose u :=
  hu.spared (ho.spares_beside (ht.whole cur (.self w cur)) hf.head.1) fun y hy hcy =>
    hf.head.2 y (placeOf_mem_touched hcy) hy

end Step

/-- A write through a tree that has come back to a container: `w` is the world that it came with, `m₀` the one with room
made for what comes after, and `w₁` the one where that has been written. -/
structure Ascent (loose : Place → Prop) (w : World) (part : Part) (rest : List Part) (cur v new : Value) (m₀ w₁ : World)
    (x : Place) : Prop where
  opened : w.Opened cur part v m₀
  container : Opened.At w rest cur part v m₀ x
  tree : w.Tree loose cur
  firm : w.Firm loose (part :: rest) cur
  there : ∀ y, loose y → w.Has y
  below : w₁.Tree loose new
  within : ∀ y, w₁.Holds new y → m₀.Holds (w.next cur part) y ∨ loose y ∨ ¬m₀.Has y
  inner : m₀.Spares (m₀.OffTrail rest (w.next cur part)) w₁
  outer : w.Spares (w.OffTrail (part :: rest) cur) (w₁.linked v part (w.next cur part) new)

namespace Ascent

variable (h : w.Ascent loose part rest cur v new m₀ w₁ x)
include h

theorem distinct : w.Distinct (part :: rest) cur := h.tree.distinct h.firm

theorem changedAt : ChangedAt x w₁ (w₁.linked v part (w.next cur part) new) :=
  linked_changedAt w₁ ((h.inner.sameView h.container.knows).placeOf.trans h.container.place) part (w.next cur part) new

theorem place_firm : ¬loose x := by
  rcases h.container.old with ⟨-, hx⟩ | ⟨-, hfresh⟩
  · exact h.firm.head.2 x (placeOf_mem_touched hx)
  · exact fun hx => hfresh (h.there x hx)

theorem holds_new (hy : w₁.Holds new y) : w.Holds (w.next cur part) y ∨ loose y ∨ ¬m₀.Has y := by
  rw [← (h.opened.spares_next h.tree h.firm).1.holds]
  exact h.within y hy

theorem apart_slots (hy : y ∈ m₀.touched v) (hno : ¬loose y) (hs : w.slot? cur s = some u) : ¬w.Holds u y := by
  intro hu
  rcases h.container.old with ⟨rfl, -⟩ | ⟨hown, hfresh⟩
  · rw [(h.opened.padded.sameView v).touched] at hy
    exact h.tree.alone (.self w v) hs hy hno hu
  · rw [touched_of_own m₀ hown, List.mem_singleton] at hy
    rw [hy] at hu
    exact hfresh ((h.tree.inside (.step hs (.self w u))).whole.has hu)

theorem apart_new (hy : y ∈ m₀.touched v) (hno : ¬loose y) : ¬w₁.Holds new y := by
  intro hy'
  rcases h.holds_new hy' with hnext | hly | hlost
  · rcases w.next_slot cur part with ⟨s, -, hs⟩ | hnull
    · exact h.apart_slots hy hno hs hnext
    · rw [hnull] at hnext
      exact not_holds_of_isNull rfl hnext
  · exact hno hly
  · exact hlost (h.container.knows.has y hy)

theorem loose_of_holds (hp : part.slot? ≠ some t) (hu : w.slot? cur t = some u) (hy : w₁.Holds new y)
    (hy' : w.Holds u y) : loose y := by
  by_contra hno
  have hhas := (h.tree.inside (.step hu (.self w u))).whole.has hy'
  rcases h.holds_new hy with hnext | hly | hlost
  · rcases w.next_slot cur part with ⟨s, hs, hnext'⟩ | hnull
    · have hsame := h.tree.apart (.self w cur) hnext' hu hnext hy' hno
      exact hp (by rw [hs, hsame.of_part hs])
    · rw [hnull] at hnext
      exact not_holds_of_isNull rfl hnext
  · exact hno hly
  · exact hlost (h.opened.padded.has hhas)

/-- The link leaves what has been written below the container as it is. -/
theorem spares_new :
    w₁.Agrees (w₁.linked v part (w.next cur part) new) new ∧
      (w₁.linked v part (w.next cur part) new).Tree loose new := by
  have hspares : w₁.Spares (· ≠ x) (w₁.linked v part (w.next cur part) new) := h.changedAt.spares fun h => h rfl
  have hapart : ∀ y, w₁.Holds new y → y ≠ x := by
    rintro y hy rfl
    exact h.apart_new (placeOf_mem_touched h.container.place) h.place_firm hy
  exact ⟨hspares.agrees h.below.whole hapart, h.below.spared hspares hapart⟩

/-- The write leaves what is in the other slots as it is. -/
theorem spares_siblings (hs : part.slot? ≠ some s) (hu : w.slot? cur s = some u) :
    w.Agrees (w₁.linked v part (w.next cur part) new) u ∧
      (w₁.linked v part (w.next cur part) new).Tree loose u := by
  have htu := h.tree.inside (.step hu (.self w u))
  have hf : w.Firm loose ([] ++ part :: rest) cur := h.firm
  have hoff : ∀ y, w.Holds u y → w.OffTrail (part :: rest) cur y := fun y hy => h.tree.off_trail hf hs hu hy
  exact ⟨h.outer.agrees htu.whole hoff, htu.spared h.outer hoff⟩

/-- After the link there is the result in the slot of the part; other slots have what they had, or null. -/
theorem slot?_linked (hs : (w₁.linked v part (w.next cur part) new).slot? v s = some u) :
    part.slot? = some s ∧ u = new ∨ part.slot? ≠ some s ∧ (w.slot? cur s = some u ∨ u = .null) := by
  by_cases hp : part.slot? = some s
  · rw [h.opened.slot?_self h.container h.inner new hp] at hs
    exact .inl ⟨hp, (Option.some.inj hs).symm⟩
  · rw [h.opened.slot?_other h.distinct h.container h.inner new hp] at hs
    refine .inr ⟨hp, ?_⟩
    cases hc : w.slot? cur s with
    | some u' =>
      rw [hc, Option.some_or] at hs
      exact .inl hs
    | none =>
      rw [hc, Option.none_or] at hs
      rcases part.fill?_eq s with hfill | hfill
      · rw [hfill] at hs
        cases hs
      · rw [hfill] at hs
        exact .inr (Option.some.inj hs).symm

/-- The link comes to the link of the unfoldings. -/
theorem unfold_linked (hs : part.slot? = some s) :
    (w₁.linked v part (w.next cur part) new).unfold v = (w.unfold cur).link part s (w₁.unfold new) := by
  have hshape := h.opened.shape_linked h.distinct h.container h.inner hs new
  rw [unfold_eq]
  unfold Unfolding.link
  rw [shape_unfold, hshape, child?_unfold, Option.isSome_map]
  congr 1
  funext t
  by_cases hts : t = s
  · subst hts
    rw [if_pos rfl, h.opened.slot?_self h.container h.inner new hs, Option.map_some, h.spares_new.1.unfold]
  · have hp : part.slot? ≠ some t := fun h => hts (Option.some.inj (h.symm.trans hs))
    rw [if_neg hts, h.opened.slot?_other h.distinct h.container h.inner new hp, child?_unfold]
    cases hu : w.slot? cur t with
    | some u =>
      rw [Option.some_or, Option.map_some, Option.map_some, Option.some_or]
      exact congrArg some (h.spares_siblings hp hu).1.unfold
    | none =>
      rw [Option.none_or, Option.map_none, Option.none_or]
      rcases part.fill?_eq t with hfill | hfill
      · rw [hfill]
        rfl
      · rw [hfill, Option.map_some, Option.map_some, unfold_null]

/-- What the container holds after the link is not shared by its slots, nor by the container itself. -/
theorem tree_linked : (w₁.linked v part (w.next cur part) new).Tree loose v := by
  obtain ⟨hview, -⟩ := h.opened.kept h.distinct h.container h.inner
  have hknows : w₁.Knows v := h.inner.knows h.container.knows fun z hz y hy hyz =>
    h.opened.apart h.distinct hy z hz (placeOf_mem_touched hyz)
  have htouched : (w₁.linked v part (w.next cur part) new).touched v = m₀.touched v :=
    (h.changedAt.sameView v).touched.trans hview.touched
  obtain ⟨hnew, htree⟩ := h.spares_new
  refine .of_slots (h.changedAt.knows hknows) ?_ ?_ ?_
  · intro s u hs
    rcases h.slot?_linked hs with ⟨-, rfl⟩ | ⟨hp, hu | rfl⟩
    · exact htree
    · exact (h.spares_siblings hp hu).2
    · exact .null loose _
  · intro s u y hs hy hno
    rw [htouched] at hy
    rcases h.slot?_linked hs with ⟨-, rfl⟩ | ⟨hp, hu | rfl⟩
    · rw [hnew.holds]
      exact h.apart_new hy hno
    · rw [(h.spares_siblings hp hu).1.holds]
      exact h.apart_slots hy hno hu
    · exact not_holds_of_isNull rfl
  · intro s t a b y hs ht hya hyb hno
    rcases h.slot?_linked hs with ⟨hp, rfl⟩ | ⟨hp, hu | rfl⟩
    · rw [hnew.holds] at hya
      rcases h.slot?_linked ht with ⟨hp', rfl⟩ | ⟨hp', hu' | rfl⟩
      · obtain rfl : s = t := Option.some.inj (hp.symm.trans hp')
        exact .refl s
      · rw [(h.spares_siblings hp' hu').1.holds] at hyb
        exact absurd (h.loose_of_holds hp' hu' hya hyb) hno
      · exact absurd hyb (not_holds_of_isNull rfl)
    · rw [(h.spares_siblings hp hu).1.holds] at hya
      rcases h.slot?_linked ht with ⟨hp', rfl⟩ | ⟨hp', hu' | rfl⟩
      · rw [hnew.holds] at hyb
        exact absurd (h.loose_of_holds hp hu hyb hya) hno
      · rw [(h.spares_siblings hp' hu').1.holds] at hyb
        exact h.tree.apart (.self w cur) hu hu' hya hyb hno
      · exact absurd hyb (not_holds_of_isNull rfl)
    · exact absurd hya (not_holds_of_isNull rfl)

/-- After the link the container holds what the value held, what is loose and what is new. -/
theorem holds_linked {z : Place} (hz : (w₁.linked v part (w.next cur part) new).Holds v z) :
    w.Holds cur z ∨ loose z ∨ ¬w.Has z := by
  rcases hz.cases with hzv | ⟨s, u, hs, hu⟩
  · rw [(h.changedAt.sameView v).touched, (h.opened.kept h.distinct h.container h.inner).1.touched] at hzv
    rcases h.container.old with ⟨rfl, -⟩ | ⟨hown, hfresh⟩
    · rw [(h.opened.padded.sameView v).touched] at hzv
      exact .inl (.self hzv)
    · rw [touched_of_own m₀ hown, List.mem_singleton] at hzv
      exact .inr (.inr (by rw [hzv]; exact hfresh))
  · rcases h.slot?_linked hs with ⟨-, rfl⟩ | ⟨hp, hu' | rfl⟩
    · rw [h.spares_new.1.holds] at hu
      rcases h.holds_new hu with hnext | hly | hlost
      · rcases w.next_slot cur part with ⟨s', -, hs'⟩ | hnull
        · exact .inl (.step hs' hnext)
        · rw [hnull] at hnext
          exact absurd hnext (not_holds_of_isNull rfl)
      · exact .inr (.inl hly)
      · exact .inr (.inr fun h' => hlost (h.opened.padded.has h'))
    · rw [(h.spares_siblings hp hu').1.holds] at hu
      exact .inl (.step hu' hu)
    · exact absurd hu (not_holds_of_isNull rfl)

end Ascent

/-- A cell with a tree, in a world that has all loose places, which the cell is not. -/
structure Prepared (loose : Place → Prop) (w : World) (c : CellId) : Prop where
  has : w.Has (.cell c)
  tree : w.Tree loose (w.store.cell c).value
  there : ∀ x, loose x → w.Has x
  apart : ¬loose (.cell c)

theorem Prepared.loose_off {c : CellId} (h : w.Prepared loose c) {parts : List Part} (hf : w.Firm loose parts v)
    (hx : loose x) : w.OffTrail parts v x ∧ x ≠ .cell c := by
  refine ⟨fun y hy hyx => (hf y hy).2 x (placeOf_mem_touched hyx) hx, ?_⟩
  rintro rfl
  exact h.apart hx

theorem Padded.firm (h : w.Padded m₀) {parts : List Part} (hf : w.Firm loose parts v) : m₀.Firm loose parts v := by
  intro y hy
  rw [(h.trail parts v).1, (h.trail parts v).2.1] at hy
  rw [(h.sameView y).touched]
  exact hf y hy

end World

namespace Path

open World

/-- A write through a tree, of a value that is loose, comes to the change of the unfolding that is foreseen. -/
theorem writeParts_foreseen (limits : Limits) (text : String) (op : WriteOp) {loose : Place → Prop} {v : Value}
    (hv : ∀ x, v ≠ .handle x) {parts : List Part} {cur : Value} {w : World} (ht : w.Tree loose cur)
    (hf : w.Firm loose parts cur) (hloose : w.Loose loose v) (hl : ∀ x, loose x → w.Has x) :
    w.Foreseen loose cur (writeParts noAccess limits text op v parts cur w)
      (Unfolding.graft limits (Unfolding.applied limits op (w.unfold v)) parts (w.unfold cur)) := by
  induction parts generalizing cur w with
  | nil => exact applyOp_foreseen ht hf.head.2 hloose noAccess limits op hf.head.1 hv
  | cons part rest ih =>
    have hd := ht.distinct hf
    have hall := writeParts_spares (h := noAccess) (fun _ => .pure _) limits text v (hd.straight.avoids_off op)
    rw [writeParts_cons noAccess limits text op v part rest hf.head.1] at hall ⊢
    unfold Unfolding.graft
    rw [shape_unfold]
    rcases writeInto_run limits text part cur w with ⟨hno, e, he⟩ | ⟨hadmits, v₀, m₀, ho, hstep⟩
    · rw [he, if_neg fun h => hno ((w.admits_iff limits cur part).mp h)]
      rfl
    have hadmits' := (w.admits_iff limits cur part).mpr hadmits
    obtain ⟨s, hs⟩ := Shape.slot?_of_admits hadmits'
    rw [hstep, if_pos hadmits', hs, Option.bind_some, w.next_unfold cur hs]
    -- With room made for it, the rest of the write finds what was there before.
    obtain ⟨hnext, htree⟩ := ho.spares_next ht hf
    obtain ⟨hvalue, hloose'⟩ := ho.spares_loose ht hf hloose
    have hinner := ih htree (ho.padded.firm hf.tail) hloose' fun x hx => ho.padded.has (hl x hx)
    rw [hvalue.unfold, hnext.unfold] at hinner
    cases hi : writeParts noAccess limits text op v rest (w.next cur part) m₀ with
    | error e w₁ =>
      rw [hi] at hinner
      rw [show Unfolding.graft limits _ rest (w.unfold (w.next cur part)) = none from hinner]
      rfl
    | ok new w₁ =>
      rw [hi] at hinner
      obtain ⟨hgraft, hnew, hin⟩ := hinner
      obtain ⟨x, ha⟩ := ho.at hd.straight
      have hw := writeParts_spares (h := noAccess) (fun _ => .pure _) limits text v
        ((ho.padded.distinct hd.2.2).straight.avoids_off op)
      rw [Exec.after_ok hi] at hw
      rw [Exec.after_ok ((hstep _).trans (by rw [hi]))] at hall
      have hback : w.Ascent loose part rest cur v₀ new m₀ w₁ x := ⟨ho, ha, ht, hf, hl, hnew, hin, hw, hall⟩
      rw [hgraft, Option.map_some, ← hback.unfold_linked hs]
      exact ⟨rfl, hback.tree_linked, fun y hy => hback.holds_linked hy⟩

section Static

variable {loose : Place → Prop} {w : World} {r : Root} {rest : List Part} {c : CellId} {v : Value}
  (hc : w.sharedCell? r.key = some c) (hp : w.Prepared loose c) (hf : w.Firm loose rest (w.store.cell c).value)
  (hv : ∀ x, v ≠ .handle x) (hloose : w.Loose loose v)

include hc hp hf in
/-- On its way, a write does not come by the cell of the root. -/
theorem writeParts_keeps_cell (limits : Limits) (text : String) (op : WriteOp) {new : Value} {w₁ : World}
    (hrun : writeParts noAccess limits text op v rest (w.store.cell c).value w = .ok new w₁) :
    w₁.sharedCell? r.key = some c ∧ w₁.Has (.cell c) ∧ w.SameAt w₁ (.cell c) := by
  have hsp := writeParts_spares (h := noAccess) (fun _ => .pure _) limits text v
    ((hp.tree.distinct hf).straight.off_cell op c)
  rw [Exec.after_ok hrun] at hsp
  exact ⟨(sharedCell?_congr hsp.globalCell hsp.stateCell r.key).trans hc, hsp.place (.cell c) rfl hp.has⟩

include hc hp hf hv hloose

/-- A write that works leaves a tree at the root with the unfolding that is foreseen. -/
theorem writeStatic_foreseen (h : HandleAccess) (limits : Limits) {scope : ScopeId} {op : WriteOp} {allow : Bool}
    {w' : World} (hrun : writeStatic h limits (.mk (.root r) rest) scope v op allow w = .ok () w') :
    Unfolding.graft limits (Unfolding.applied limits op (w.unfold v)) rest (w.unfold (w.store.cell c).value) =
        some (w'.unfold (w'.store.cell c).value) ∧
      w'.Has (.cell c) ∧ w'.Tree loose (w'.store.cell c).value := by
  rw [writeStatic_access h noAccess limits hc (fun y hy => (hf y hy).1) scope hv] at hrun
  obtain ⟨text, new, w₁, hparts, hset⟩ := writeStatic_shared hc hrun
  have hforeseen := writeParts_foreseen limits text op hv hp.tree hf hloose hp.there
  rw [hparts] at hforeseen
  obtain ⟨hgraft, htree, -⟩ := hforeseen
  obtain ⟨hc₁, hhas, hsame⟩ := writeParts_keeps_cell hc hp hf limits text op hparts
  obtain ⟨hch, hval⟩ := Exec.setCell_if_new hhas (congrArg Cell.value hsame) (hset hc₁)
  have hspares : w₁.Spares (· ≠ .cell c) w' := hch.spares fun h => h rfl
  have hoff : ∀ x, w₁.Holds new x → x ≠ .cell c := by
    rintro x hx rfl
    exact w₁.not_holds_cell new c hx
  rw [hval, (hspares.agrees htree.whole hoff).unfold]
  exact ⟨hgraft, hch.has _ hhas, htree.spared hspares hoff⟩

/-- A write works where a change of the unfolding is foreseen. -/
theorem writeStatic_works (h : HandleAccess) (limits : Limits) (scope : ScopeId) (op : WriteOp) (allow : Bool)
    {U : Unfolding} (hU : Unfolding.graft limits (Unfolding.applied limits op (w.unfold v)) rest
      (w.unfold (w.store.cell c).value) = some U) :
    ∃ w', writeStatic h limits (.mk (.root r) rest) scope v op allow w = .ok () w' := by
  rw [writeStatic_access h noAccess limits hc (fun y hy => (hf y hy).1) scope hv, writeStatic_shared_eq _ _ hc]
  have hforeseen := writeParts_foreseen limits (Path.mk (.root r) rest).text op hv hp.tree hf hloose hp.there
  rw [hU] at hforeseen
  cases hparts : writeParts noAccess limits (Path.mk (.root r) rest).text op v rest (w.store.cell c).value w with
  | error e w₁ =>
    rw [hparts] at hforeseen
    cases hforeseen
  | ok new w₁ =>
    rw [Exec.bind_ok hparts]
    split
    · rw [Exec.setRootValue_shared (writeParts_keeps_cell hc hp hf limits _ op hparts).1]
      exact ⟨_, rfl⟩
    · exact ⟨_, rfl⟩

end Static

end Path

end EventScript
