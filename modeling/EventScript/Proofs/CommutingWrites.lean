import EventScript.Proofs.Ceilings
import EventScript.Proofs.DeepEquality
import EventScript.Proofs.ForeseenWrites
import EventScript.Proofs.FramedReads

/-!
# Writes that commute

Writes along paths that part from each other can be made in either order, as long as the values at the root are a tree
and share nothing with what is written. Each write comes to a change of the unfolding of the root, and these changes
commute.
-/

namespace EventScript

namespace World

/-- A value from outside: it is no handle, leads to nothing that is missing, and shares no place with another value. -/
structure Separate (w : World) (root v : Value) : Prop where
  plain : ∀ x, v ≠ .handle x
  knows : w.Knows v
  apart : ∀ x, w.Holds v x → ¬w.Holds root x

variable {loose : Place → Prop} {w w' : World} {cur new v : Value} {c : CellId}

/-- Nothing that a value without handles holds is loose. -/
structure Bare (loose : Place → Prop) (w : World) (v : Value) : Prop where
  plain : w.HandleFree v
  without : ∀ x, w.Holds v x → ¬loose x

theorem Bare.firm (h : w.Bare loose v) (parts : List Part) : w.Firm loose parts v := h.plain.firm h.without parts

theorem Bare.inside (h : w.Bare loose v) {u : Value} (hu : w.Contains v u) : w.Bare loose u where
  plain y hy := h.plain y (hu.trans hy)
  without x hx := h.without x (hu.holds hx)

theorem Agrees.bare (ha : w.Agrees w' v) (h : w.Bare loose v) : w'.Bare loose v where
  plain := ha.handleFree h.plain
  without x hx := h.without x (ha.holds.mp hx)

section Beside

variable {front rest rest' : List Part} {part other : Part} (hb : w.Bare loose cur) (ht : w.Tree loose cur)
  (hl : ∀ x, loose x → w.Has x) (hg : w.Grafted w' (front ++ part :: rest) cur new)
  (hw : w.Spares (fun x => w.OffTrail (front ++ part :: rest) cur x ∧ x ≠ .cell c) w')
include hb ht hl hg hw

theorem Grafted.firm_passed {y : Value} (hy : y ∈ w'.passed (front ++ part :: rest) new) :
    (∀ h, y ≠ .handle h) ∧ ∀ x ∈ w'.touched y, ¬loose x := by
  rcases hg.passed hy with hold | ⟨x, hx, hfresh⟩
  · rcases trail_contains (.inl hold) with hin | rfl
    · rw [(hw.sameView (ht.whole y hin)).touched]
      exact ⟨hb.plain y hin, fun x hx => hb.without x ⟨y, hin, hx⟩⟩
    · exact ⟨by simp, fun x hx => by cases hx⟩
  · rw [touched_of_own w' hx]
    refine ⟨?_, fun z hz hlz => ?_⟩
    · rintro h rfl
      cases hx
    · rw [List.mem_singleton.mp hz] at hlz
      exact hfresh (hl x hlz)

theorem Grafted.firm_front {y : Value} (hy : y ∈ w'.passed front new ∨ y = w'.target front new) :
    (∀ h, y ≠ .handle h) ∧ ∀ x ∈ w'.touched y, ¬loose x := by
  refine hg.firm_passed hb ht hl hw ?_
  rw [passed_append, List.mem_append]
  exact hy.imp_right fun h => by rw [h]; exact List.mem_cons_self

omit hl in
/-- Where another path parts from that of a write, it leads to what it led to before. -/
theorem Grafted.bare_next (hne : part ≠ other) (ho : Opens (w'.target front new) other) :
    w'.Bare loose (w'.next (w'.target front new) other) := by
  have hat := hg.split
  obtain ⟨s, hs, hps⟩ := hat.lands.2.slot?_ne ho hat.lands.1 hne
  rw [hat.next_other hs hps, w.next_eq_slot _ hs]
  cases hu : w.slot? (w.target front cur) s with
  | none =>
    refine ⟨fun y hy h => ?_, fun x hx => absurd hx (not_holds_of_isNull rfl)⟩
    rw [hy.eq_self (w'.slot?_of_isNull rfl)]
    simp
  | some u =>
    have hin := contains_of_slot? hu
    refine (hw.agrees (ht.whole.inside hin) fun x hx => ⟨ht.off_trail (hb.firm _) hps hu hx, ?_⟩).bare (hb.inside hin)
    rintro rfl
    exact w.not_holds_cell u c hx

theorem Grafted.firm_beside (hne : part ≠ other) (ho : Opens (w'.target front new) other) :
    w'.Firm loose (front ++ other :: rest') new := by
  intro y hy
  rw [passed_append, target_append, List.mem_append, or_assoc] at hy
  rcases hy with hy | hy
  · exact hg.firm_front hb ht hl hw (.inl hy)
  · rw [World.passed, World.target, List.mem_cons, or_assoc] at hy
    rcases hy with hy | hy
    · exact hg.firm_front hb ht hl hw (.inr hy)
    · exact (hg.bare_next hb ht hw hne ho).firm rest' y hy

end Beside

end World

namespace Path

open World

variable {loose : Place → Prop} {w w' : World} {v : Value}

/-- A write that works could go on from the value that a beginning of its path leads to. -/
theorem writeParts_admits {h : HandleAccess} {limits : Limits} {text : String} {op : WriteOp} {front rest : List Part}
    {part : Part} {cur new : Value}
    (hh : ∀ y, y ∈ w.passed front cur ∨ y = w.target front cur → ∀ x, y ≠ .handle x)
    (hrun : writeParts h limits text op v (front ++ part :: rest) cur w = .ok new w') :
    Admits limits (w.target front cur) part := by
  induction front generalizing cur new w w' with
  | nil => exact (writeParts_cons_ok (hh cur (.inr rfl)) hrun).1
  | cons first front ih =>
    obtain ⟨-, m, new₁, w₁, ho, hi, -⟩ := writeParts_cons_ok (hh cur (.inl List.mem_cons_self)) hrun
    obtain ⟨hpassed, htarget, -⟩ := ho.padded.trail front (w.next cur first)
    refine htarget ▸ ih (fun y hy => ?_) hi
    rw [hpassed, htarget] at hy
    exact hh y (hy.imp_left (List.mem_cons_of_mem _))

/-- So it is with the change of an unfolding that is foreseen. -/
theorem graft_admits {limits : Limits} {f : Unfolding → Option Unfolding} {front rest : List Part} {part : Part}
    {cur : Value} {U : Unfolding} (h : Unfolding.graft limits f (front ++ part :: rest) (w.unfold cur) = some U) :
    Admits limits (w.target front cur) part := by
  induction front generalizing cur U with
  | nil => exact (w.admits_iff limits cur part).mp (Unfolding.graft_cons_eq_some h).1
  | cons first front ih =>
    obtain ⟨-, s, C, hs, hC, -⟩ := Unfolding.graft_cons_eq_some h
    rw [w.next_unfold cur hs] at hC
    exact ih hC

section Static

variable {r : Root} {c : CellId} {rest : List Part} {h : HandleAccess} {limits : Limits} {scope : ScopeId}
  {op : WriteOp} {allow : Bool} (hc : w.sharedCell? r.key = some c) (hp : w.Prepared loose c)
  (hf : w.Firm loose rest (w.store.cell c).value) (hv : ∀ x, v ≠ .handle x)

/-- What a write through a prepared cell leaves behind. -/
structure After (loose : Place → Prop) (w w' : World) (c : CellId) (rest : List Part) : Prop where
  shared : ∀ key, w'.sharedCell? key = w.sharedCell? key
  prepared : w'.Prepared loose c
  grafted : w.Grafted w' rest (w.store.cell c).value (w'.store.cell c).value
  spares : w.Spares (fun x => w.OffTrail rest (w.store.cell c).value x ∧ x ≠ .cell c) w'

include hc hp hf hv in
theorem writeStatic_after (hloose : w.Loose loose v)
    (hrun : writeStatic h limits (.mk (.root r) rest) scope v op allow w = .ok () w') :
    After loose w w' c rest ∧
      Unfolding.graft limits (Unfolding.applied limits op (w.unfold v)) rest (w.unfold (w.store.cell c).value) =
        some (w'.unfold (w'.store.cell c).value) := by
  obtain ⟨hgraft, hhas, htree⟩ := writeStatic_foreseen hc hp hf hv hloose h limits hrun
  rw [writeStatic_access h noAccess limits hc (fun y hy => (hf y hy).1) scope hv] at hrun
  have hreads : ∀ x, (noAccess.read x).Along World.Grown := fun _ => .pure _
  obtain ⟨-, hgrafted, hsp⟩ := writeStatic_grafted hreads hc hp.has (hp.tree.distinct hf) hrun
  have hprepared : w'.Prepared loose c :=
    ⟨hhas, htree, fun x hx => (hsp.place x (hp.loose_off hf hx) (hp.there x hx)).1, hp.apart⟩
  exact ⟨⟨sharedCell?_congr hsp.globalCell hsp.stateCell, hprepared, hgrafted, hsp⟩, hgraft⟩

include hc hf hv in
theorem writeStatic_limits
    (hrun : writeStatic h limits (.mk (.root r) rest) scope v op allow w = .ok () w') : w'.limits = w.limits := by
  rw [writeStatic_access h noAccess limits hc (fun y hy => (hf y hy).1) scope hv] at hrun
  have halong : (writeStatic noAccess limits (.mk (.root r) rest) scope v op allow).Along World.SameLimits :=
    writeStatic_along (fun _ => .pure _) (fun _ _ => .pure _) limits _ scope v op allow
  have hsame := halong w
  rwa [Exec.after_ok hrun] at hsame

end Static

section Pair

variable {h : HandleAccess} {limits : Limits} {r r' : Root} {c : CellId} {front rest rest' : List Part}
  {part other : Part} {u : Value} {scope scope' : ScopeId} {op op' : WriteOp} {allow allow' : Bool}
  (hp : w.Prepared loose c) (hb : w.Bare loose (w.store.cell c).value) (hne : part ≠ other)
  (ha : After loose w w' c (front ++ part :: rest))
include hp hb hne ha

theorem After.firm_of_admits (hadmits : Admits limits (w'.target front (w'.store.cell c).value) other) :
    w'.Firm loose (front ++ other :: rest') (w'.store.cell c).value :=
  ha.grafted.firm_beside hb hp.tree hp.there ha.spares hne hadmits.1

theorem After.firm_of_write {w₂ : World} (hc' : w.sharedCell? r'.key = some c)
    (hrun : writeStatic h limits (.mk (.root r') (front ++ other :: rest')) scope' u op' allow' w' = .ok () w₂) :
    w'.Firm loose (front ++ other :: rest') (w'.store.cell c).value := by
  obtain ⟨text, new, m, hparts, -⟩ := writeStatic_shared ((ha.shared r'.key).trans hc') hrun
  refine ha.firm_of_admits hp hb hne (writeParts_admits (fun y hy => ?_) hparts)
  exact (ha.grafted.firm_front hb hp.tree hp.there ha.spares hy).1

end Pair

/-- Two writes along paths that part from each other can be made in either order. -/
theorem writeStatic_comm {h : HandleAccess} {limits : Limits} {r r' : Root} {c : CellId} {p q : List Part}
    {u : Value} {scope scope' : ScopeId} {op op' : WriteOp} {allow allow' : Bool} {w₁ w₂ : World}
    (hc : w.sharedCell? r.key = some c) (hc' : w.sharedCell? r'.key = some c) (hp : w.Prepared loose c)
    (hb : w.Bare loose (w.store.cell c).value) (hd : Diverge p q) (hv : ∀ x, v ≠ .handle x)
    (hu : ∀ x, u ≠ .handle x) (hlv : w.Loose loose v) (hlu : w.Loose loose u)
    (hrun₁ : writeStatic h limits (.mk (.root r) p) scope v op allow w = .ok () w₁)
    (hrun₂ : writeStatic h limits (.mk (.root r') q) scope' u op' allow' w₁ = .ok () w₂) :
    ∃ w₁' w₂', writeStatic h limits (.mk (.root r') q) scope' u op' allow' w = .ok () w₁' ∧
      writeStatic h limits (.mk (.root r) p) scope v op allow w₁' = .ok () w₂' ∧
      w₂'.unfold (w₂'.store.cell c).value = w₂.unfold (w₂.store.cell c).value := by
  have hdiverge := hd
  obtain ⟨front, part, rest, other, rest', rfl, rfl, hne⟩ := hd
  have hfp : w.Firm loose (front ++ part :: rest) (w.store.cell c).value := hb.firm _
  have hfq : w.Firm loose (front ++ other :: rest') (w.store.cell c).value := hb.firm _
  -- The first order, as changes of unfoldings.
  obtain ⟨ha₁, hU₁⟩ := writeStatic_after hc hp hfp hv hlv hrun₁
  obtain ⟨hagrees_u, hlu₁⟩ := hlu.spared ha₁.spares fun x hx => hp.loose_off hfp hx
  have hfq₁ := ha₁.firm_of_write hp hb hne hc' hrun₂
  obtain ⟨-, hU₂⟩ := writeStatic_after ((ha₁.shared r'.key).trans hc') ha₁.prepared hfq₁ hu hlu₁ hrun₂
  rw [hagrees_u.unfold] at hU₂
  obtain ⟨U₁', hU₁', hU₂'⟩ := Unfolding.graft_comm hdiverge hU₁ hU₂
  -- The other order works because its changes are foreseen.
  obtain ⟨w₁', hrun₁'⟩ := writeStatic_works hc' hp hfq hu hlu h limits scope' op' allow' hU₁'
  obtain ⟨ha₁', hV₁⟩ := writeStatic_after hc' hp hfq hu hlu hrun₁'
  obtain ⟨hagrees_v, hlv₁⟩ := hlv.spared ha₁'.spares fun x hx => hp.loose_off hfq hx
  obtain rfl : U₁' = w₁'.unfold (w₁'.store.cell c).value := Option.some.inj (hU₁'.symm.trans hV₁)
  have hfp₁ : w₁'.Firm loose (front ++ part :: rest) (w₁'.store.cell c).value :=
    ha₁'.firm_of_admits hp hb hne.symm (graft_admits hU₂')
  rw [← hagrees_v.unfold] at hU₂'
  have hc₁ := (ha₁'.shared r.key).trans hc
  obtain ⟨w₂', hrun₂'⟩ := writeStatic_works hc₁ ha₁'.prepared hfp₁ hv hlv₁ h limits scope op allow hU₂'
  obtain ⟨-, hV₂⟩ := writeStatic_after hc₁ ha₁'.prepared hfp₁ hv hlv₁ hrun₂'
  exact ⟨w₁', w₂', hrun₁', hrun₂', Option.some.inj (hV₂.symm.trans hU₂')⟩

end Path

namespace Engine

open World

/-- Writes along paths that part from each other commute: as long as the values at the root are a tree without handles
and share nothing with what is written, two writes that work one after the other work in the other order as well, and
leave values at the root that are deeply equal. -/
theorem diverging_writes_commute {em : Embedding} {w w₁ w₂ : World} (hclosed : w.Closed) {p q : Path}
    (hp : p.isStatic = true) (hq : q.isStatic = true) {c : CellId} (hpc : p.rootKey?.bind w.sharedCell? = some c)
    (hqc : q.rootKey?.bind w.sharedCell? = some c) (hd : Path.Diverge p.rest q.rest)
    (ht : w.TreeShaped (w.store.cell c).value) (hf : w.HandleFree (w.store.cell c).value) {v u : Value}
    (hv : w.Separate (w.store.cell c).value v) (hu : w.Separate (w.store.cell c).value u) {scope scope' : ScopeId}
    {op op' : WriteOp} {allow allow' : Bool} (hrun₁ : (full em).writePath p scope v op allow w = .ok () w₁)
    (hrun₂ : (full em).writePath q scope' u op' allow' w₁ = .ok () w₂) :
    ∃ w₁' w₂', (full em).writePath q scope' u op' allow' w = .ok () w₁' ∧
      (full em).writePath p scope v op allow w₁' = .ok () w₂' ∧
      w₂'.unfold (w₂'.store.cell c).value = w₂.unfold (w₂.store.cell c).value ∧
      DeeplyEqual w₂ w₂' (w₂.store.cell c).value (w₂'.store.cell c).value := by
  obtain ⟨rp, restp, rfl, hpc⟩ := Path.root_of_shared hpc
  obtain ⟨rq, restq, rfl, hqc⟩ := Path.root_of_shared hqc
  have hwhole_v := hclosed.whole hv.knows
  have hwhole_u := hclosed.whole hu.knows
  have hprepared : w.Prepared (fun x => w.Holds v x ∨ w.Holds u x) c := {
    has := hclosed.shared hpc
    tree := hclosed.tree (hclosed.cell c) ht _
    there := fun x hx => hx.elim hwhole_v.has hwhole_u.has
    apart := fun hx => hx.elim (w.not_holds_cell v c) (w.not_holds_cell u c) }
  have hbare : w.Bare (fun x => w.Holds v x ∨ w.Holds u x) (w.store.cell c).value := {
    plain := hf
    without := fun x hx hx' => hx'.elim (hv.apart x · hx) (hu.apart x · hx) }
  rw [writePath_static hp] at hrun₁
  rw [writePath_static hq, Path.writeStatic_limits hpc (hbare.firm _) hv.plain hrun₁] at hrun₂
  obtain ⟨w₁', w₂', hrun₁', hrun₂', hunfold⟩ :=
    Path.writeStatic_comm hpc hqc hprepared hbare hd hv.plain hu.plain ⟨hwhole_v, fun _ => .inl⟩
      ⟨hwhole_u, fun _ => .inr⟩ hrun₁ hrun₂
  refine ⟨w₁', w₂', ?_, ?_, hunfold, deeplyEqual_of_unfold_eq hunfold.symm⟩
  · rw [writePath_static hq]
    exact hrun₁'
  · rw [writePath_static hp, Path.writeStatic_limits hqc (hbare.firm _) hu.plain hrun₁']
    exact hrun₂'

/-- Two writes make the same array in the place of null, whichever comes first. -/
theorem items_of_one_array_commute :
    let p : Path := .mk (.root { key := .global }) [.key "a", .index 1]
    let q : Path := .mk (.root { key := .global }) [.key "a", .index 3]
    ∃ w₁ w₂ w₁' w₂', (full .plain).writePath p 0 (.int 5) .set false kidsWorld = .ok () w₁ ∧
      (full .plain).writePath q 0 (.int 7) .append false w₁ = .ok () w₂ ∧
      (full .plain).writePath q 0 (.int 7) .append false kidsWorld = .ok () w₁' ∧
      (full .plain).writePath p 0 (.int 5) .set false w₁' = .ok () w₂' ∧
      DeeplyEqual w₂ w₂' (w₂.store.cell 0).value (w₂'.store.cell 0).value := by
  intro p q
  obtain ⟨w₁, w₂, hrun₁, hrun₂⟩ : ∃ w₁ w₂, (full .plain).writePath p 0 (.int 5) .set false kidsWorld = .ok () w₁ ∧
      (full .plain).writePath q 0 (.int 7) .append false w₁ = .ok () w₂ := ⟨_, _, rfl, rfl⟩
  have hd : Path.Diverge p.rest q.rest := ⟨[.key "a"], .index 1, [], .index 3, [], rfl, rfl, by simp⟩
  have hpc : p.rootKey?.bind kidsWorld.sharedCell? = some 0 := rfl
  have hqc : q.rootKey?.bind kidsWorld.sharedCell? = some 0 := rfl
  have hint (n : Int) : kidsWorld.Separate (.object 0) (.int n) := {
    plain := fun x hx => by cases hx
    knows := ⟨fun x hx => (by cases hx), fun c hc => by cases hc⟩
    apart := fun x hx => by cases hx.touched fun s => by cases s <;> rfl }
  obtain ⟨w₁', w₂', hrun₁', hrun₂', -, hequal⟩ :=
    diverging_writes_commute kidsWorld.closed rfl rfl hpc hqc hd kidsWorld.treeShaped kidsWorld.handleFree (hint 5)
      (hint 7) hrun₁ hrun₂
  exact ⟨w₁, w₂, w₁', w₂', hrun₁, hrun₂, hrun₁', hrun₂', hequal⟩

end Engine

end EventScript
