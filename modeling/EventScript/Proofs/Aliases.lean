import EventScript.Proofs.ChainDepth
import EventScript.Proofs.FreshChains

/-!
# Writing through an alias

A write through a slot with a handle comes to what a write to where the handle leads comes to. Where nothing is there
yet, the write through the alias makes the end of the chain of new containers first and has the handle written to with
it, so that the containers are the same but for their names.
-/

namespace EventScript

theorem Value.orNull_of_some {v : Value} (h : v.isNull = false) : v.orNull = v := by
  cases v <;> first | rfl | cases h

namespace Path

theorem stored_set {read : HandleId → Exec Value} {limits : Limits} {v e : Value} {w w' : World}
    (h : stored read limits .set v w = .ok e w') : (∀ x, e ≠ .handle x) ∧ e.orNull = e := by
  obtain ⟨u, w₁, hu, h⟩ := Exec.bind_eq_ok h
  cases h
  exact ⟨Value.orNull_not_handle (followFrom_ok hu), Value.orNull_orNull u⟩

end Path

namespace World

variable {w : World}

/-- Where a path goes from something to null there is a first step to null on it. -/
theorem first_null {parts : List Part} {v : Value} (hv : v.isNull = false) (hn : (w.target parts v).isNull = true) :
    ∃ front part back, parts = front ++ part :: back ∧ (w.target front v).isNull = false ∧
      (w.next (w.target front v) part).isNull = true := by
  induction parts generalizing v with
  | nil =>
    rw [show w.target [] v = v from rfl, hv] at hn
    cases hn
  | cons part rest ih =>
    by_cases hnext : (w.next v part).isNull = true
    · exact ⟨[], part, rest, rfl, hv, hnext⟩
    · obtain ⟨front, second, back, rfl, hfront, hback⟩ := ih (Bool.eq_false_iff.mpr hnext) hn
      exact ⟨part :: front, second, back, rfl, hfront, hback⟩

theorem target_of_null {parts : List Part} {v : Value} (hp : parts ≠ []) (hv : v.isNull = true) :
    w.target parts v = .null := by
  cases parts with
  | nil => exact absurd rfl hp
  | cons part rest =>
    change w.target rest (w.next v part) = .null
    rw [next_of_isNull w hv, w.target_null]

theorem exists_step {parts : List Part} {part : Part} (h : part ∈ parts) (v : Value) :
    ∃ s ∈ w.steps parts v, s.2.1 = part := by
  induction parts generalizing v with
  | nil => cases h
  | cons first rest ih =>
    rcases List.mem_cons.mp h with rfl | h
    · exact ⟨_, List.mem_cons_self, rfl⟩
    · obtain ⟨s, hs, hpart⟩ := ih h (w.next v first)
      exact ⟨s, List.mem_cons_of_mem _ hs, hpart⟩

theorem Track.admits_null {limits : Limits} {parts : List Part} {v : Value} (ht : w.Track limits parts v) {part : Part}
    (hp : part ∈ parts) : Path.Admits limits .null part := by
  obtain ⟨s, hs, rfl⟩ := exists_step (w := w) hp v
  exact Path.admits_null (ht.admits s hs)

/-- A step of a straight path looks at no place that comes later on it. -/
theorem Straight.step_apart {front back : List Part} {v y : Value} (hs : w.Straight (front ++ back) v)
    {s : Value × Part × Value} (hmem : s ∈ w.steps front v) (hy : y ∈ w.passed back (w.target front v)) :
    ∀ x ∈ w.consulted s.1 s.2.1, w.placeOf y ≠ some x := by
  induction front generalizing v with
  | nil => cases hmem
  | cons part rest ih =>
    rcases List.mem_cons.mp hmem with rfl | hmem
    · refine (hs.2.1 y (.inl ?_)).1
      change y ∈ w.passed (rest ++ back) _
      rw [passed_append]
      exact List.mem_append_right _ hy
    · exact ih hs.2.2 hmem hy

theorem Straight.not_crosses_end {front back : List Part} {v : Value} (hs : w.Straight (front ++ back) v)
    {S : Spot → Prop} (hS : ∀ σ, S σ → w.EndsAt back (w.target front v) σ) : ¬w.Crosses S front v := by
  rintro ⟨st, hst, s, -, x, hx, hσ⟩
  obtain ⟨init, part, p, t, rfl, hp, -, he⟩ := hS _ hσ
  cases he
  refine hs.step_apart hst ?_ x hx hp
  rw [passed_append]
  exact List.mem_append_right _ List.mem_cons_self

end World

namespace Engine

open World

variable (em : Embedding) {w w₁ w' : World} {c : CellId} {e v : Value} {op : WriteOp} {scope : ScopeId}
  {allow : Bool}

/-- A write below a root that all scopes share comes to the plain one on the value of its cell. -/
theorem writePath_plain {r : Root} (hc : w.sharedCell? r.key = some c) {parts : List Part}
    (hp : parts.all Part.isStatic = true) (hne : parts ≠ []) (hroot : (w.store.cell c).value.isNull = false)
    (hh : ∀ y, y ∈ w.passed parts (w.store.cell c).value ∨ y = w.target parts (w.store.cell c).value →
      ∀ x, y ≠ .handle x)
    (hv : Path.StoredAs (full em).access.read w.limits op w v e)
    (hrun : (full em).writePath (.mk (.root r) parts) scope v op allow w = .ok () w') :
    Path.writePlain w.limits op e parts (w.store.cell c).value w = .ok (w.store.cell c).value w' := by
  rw [writePath_static ((Path.isStatic_root r parts).trans hp), Path.writeStatic_shared_eq _ _ hc] at hrun
  obtain ⟨new, w₁, hparts, hrun⟩ := Exec.bind_eq_ok hrun
  have hplain := (Path.writeParts_plain hv hh).mp hparts
  obtain rfl := Path.writePlain_same hne hroot hplain
  rw [bne_self_eq_false, if_neg Bool.false_ne_true] at hrun
  cases hrun
  exact hplain

section Alias

variable {x : HandleId} {r : Root} {s : ScopeId} {target : List Part} {u : Value}

/-- A handle to a path is written to as the path is. -/
theorem writeHandle_plain (hx : w₁.store.handle x = .bound (.mk (.root r) target) (some s))
    (hc : w₁.sharedCell? r.key = some c) {n : Nat} (hp : target.all Part.isStatic = true) (hu : ∀ y, u ≠ .handle y)
    (hn : u.orNull = u)
    (hh : ∀ y, y ∈ w₁.passed target (w₁.store.cell c).value ∨ y = w₁.target target (w₁.store.cell c).value →
      ∀ z, y ≠ .handle z)
    (hrun : Path.writePlain w₁.limits .set u target (w₁.store.cell c).value w₁ = .ok (w₁.store.cell c).value w') :
    (level em (n + 1)).access.write x u w₁ = .ok () w' := by
  have hlimits : w₁.limitsOf x = w₁.limits := by
    unfold limitsOf
    rw [hx]
  have hv : Path.StoredAs (level em n).access.read w₁.limits .set w₁ u u := by
    have h := Path.storedAs_plain (level em n).access.read w₁.limits .set w₁ hu
    rwa [if_neg nofun, hn] at h
  change (level em n).writeHandle x u w₁ = _
  rw [writeHandle_bound hx hp hc, hlimits]
  refine (Exec.bind_ok ((Path.writeParts_plain hv hh).mpr hrun)).trans ?_
  rw [bne_self_eq_false, if_neg Bool.false_ne_true]
  rfl

/-- After the world has grown, a handle to a path is still written to as the path is. -/
theorem writeHandle_grown (hx : w.store.handle x = .bound (.mk (.root r) target) (some s))
    (hc : w.sharedCell? r.key = some c) (ht : w.Track w.limits target (w.store.cell c).value)
    (hend : ∀ z, w.target target (w.store.cell c).value ≠ .handle z) (hgrown : w.Grown w₁) {S : Spot → Prop}
    (hw : w.Retains S w₁) {n : Nat} (hu : ∀ y, u ≠ .handle y) (hn : u.orNull = u)
    (hrun : Path.writePlain w.limits .set u target (w.store.cell c).value w₁ = .ok (w.store.cell c).value w') :
    (level em (n + 1)).access.write x u w₁ = .ok () w' := by
  obtain ⟨hsteps, htarget⟩ := hgrown.kept.way ht
  have hcell : w₁.store.cell c = w.store.cell c := by rw [hw.rest]; rfl
  have hlimits : w₁.limits = w.limits := by rw [hw.rest]
  have hx₁ : w₁.store.handle x = .bound (.mk (.root r) target) (some s) := by
    rw [hw.rest]
    exact hx
  rw [← hcell, ← hlimits] at hrun
  rw [← hcell] at hsteps htarget
  have hc₁ : w₁.sharedCell? r.key = some c :=
    (sharedCell?_congr hgrown.globalCell hgrown.stateCell r.key).trans hc
  refine writeHandle_plain em hx₁ hc₁ ht.isStatic hu hn ?_ hrun
  rintro y (hy | rfl)
  · obtain ⟨st, hst, rfl⟩ := mem_passed.mp hy
    rw [hsteps, hcell] at hst
    exact ht.plain st hst
  · rw [htarget, hcell]
    exact hend

end Alias

section Slot

variable {x : HandleId} {r : Root} {front back : List Part} (hc : w.sharedCell? r.key = some c)
  (hfront : w.Track w.limits front (w.store.cell c).value)
  (hx : w.target front (w.store.cell c).value = .handle x)
include hc hfront hx

/-- A write that leaves a handle in its slot leaves all on the way to it. -/
theorem writePath_slot (hback : back.all Part.isStatic = true)
    (hrun : ∀ text, Path.writeParts (full em).access w.limits text op v back (.handle x) w = .ok (.handle x) w')
    (hl : ∀ st ∈ w.steps front (w.store.cell c).value, w'.linked st.1 st.2.1 st.2.2 st.2.2 = w') :
    (full em).writePath (.mk (.root r) (front ++ back)) scope v op allow w = .ok () w' := by
  have hp : (front ++ back).all Part.isStatic = true := by rw [List.all_append, hfront.isStatic, hback]; rfl
  have hn : (w.target front (w.store.cell c).value).isNull = false := by rw [hx]; rfl
  rw [writePath_static ((Path.isStatic_root r _).trans hp), Path.writeStatic_shared_eq _ _ hc]
  refine (Exec.bind_ok ((hfront.comes (full em).access).writes hn (by rw [hx]; exact hrun _) hl)).trans ?_
  rw [bne_self_eq_false, if_neg Bool.false_ne_true]
  rfl

end Slot

/-- A write below a handle writes to what the handle leads to, and to the handle if that was replaced. -/
theorem writeParts_below_handle {h : HandleAccess} {limits : Limits} {text : String} {x : HandleId} {u new : Value}
    {parts : List Part} (hne : parts ≠ []) (hw : w.store.isReadOnly x = false)
    (hf : follow h.read limits.handleDepth (.handle x) w = .ok u w) (hu : ∀ y, u ≠ .handle y)
    (hrun : Path.writeParts h limits text op v parts u w = .ok new w₁)
    (hset : if new = u then w' = w₁ else h.write x new w₁ = .ok () w') :
    Path.writeParts h limits text op v parts (.handle x) w = .ok (.handle x) w' := by
  cases parts with
  | nil => exact absurd rfl hne
  | cons part rest =>
    rw [Path.writeParts_cons _ _ _ _ _ _ _ hu] at hrun
    rw [Path.writeParts_handle hw hf, Exec.bind_ok hrun]
    split at hset
    · rename_i heq
      rw [heq, bne_self_eq_false, if_neg Bool.false_ne_true, hset]
      rfl
    · rename_i hne
      rw [if_pos (by simpa using hne)]
      exact Exec.bind_ok hset

end Engine

namespace World

/-- The slot at the end of a path from a cell holds a handle that leads along a path from the same cell. There is no
other handle on the way to the slot, nor on the path of the handle and what goes on below. -/
structure Alias (w : World) (c : CellId) (front : List Part) (x : HandleId) (target back : List Part) (op : WriteOp) :
    Prop where
  handle : ∃ r s, w.store.handle x = .bound (.mk (.root r) target) (some s) ∧ w.sharedCell? r.key = some c
  slot : w.target front (w.store.cell c).value = .handle x
  way : ∀ y ∈ w.passed front (w.store.cell c).value, ∀ z, y ≠ .handle z
  plain : ∀ y, y ∈ w.passed (target ++ back) (w.store.cell c).value ∨
    y = w.target (target ++ back) (w.store.cell c).value → ∀ z, y ≠ .handle z
  static : (target ++ back).all Part.isStatic = true
  /-- Indices on the way to the slot are within the limit on arrays, which a write checks and a read does not. -/
  indices : ∀ i, .index i ∈ front → 0 ≤ i ∧ i < w.limits.arraySize
  /-- A write below a handle follows it. -/
  depth : back ≠ [] → 1 ≤ w.limits.handleDepth
  whole : back = [] → op = .set ∧ target ≠ []
  /-- What is put into the slot of an array is not put back on the way to the handle. -/
  off : op.replaces = true → ¬w.Crosses (fun σ => w.EndsAt (target ++ back) (w.store.cell c).value σ ∧
    ∃ a i, σ = .slot (.array a) (.index i)) front (w.store.cell c).value

namespace Alias

variable {w wT : World} {c : CellId} {front target back : List Part} {x : HandleId} {op : WriteOp}
  (h : w.Alias c front x target back op)
include h

theorem root_ne_null : (w.store.cell c).value.isNull = false :=
  Bool.eq_false_iff.mpr fun hn => by
    have htarget : (w.target front (w.store.cell c).value).isNull = true := target_isNull hn
    rw [h.slot] at htarget
    cases htarget

theorem ne_nil : target ++ back ≠ [] := by
  intro hnil
  obtain ⟨htarget, hback⟩ := List.append_eq_nil_iff.mp hnil
  exact (h.whole hback).2 htarget

theorem isReadOnly : w.store.isReadOnly x = false := by
  obtain ⟨r, s, hx, -⟩ := h.handle
  unfold Store.isReadOnly
  rw [hx]

/-- The slot of the handle is come to, and there is nothing to link on the way back. -/
theorem idle (hclosed : w.Closed) {w' : World}
    (hw : w.Retains (fun σ => op.replaces = true ∧ w.EndsAt (target ++ back) (w.store.cell c).value σ) w') :
    w.Track w.limits front (w.store.cell c).value ∧
      ∀ st ∈ w.steps front (w.store.cell c).value, w'.linked st.1 st.2.1 st.2.2 st.2.2 = w' := by
  have ht := hclosed.track (hclosed.cell c) h.way (by rw [h.slot]; rfl) h.indices
  refine ⟨ht, hw.idle ht.admits (by rw [h.slot]; rfl) ?_⟩
  rintro ⟨st, hst, s, hs, y, hy, ⟨hop, hend⟩, harray⟩
  exact h.off hop ⟨st, hst, s, hs, y, hy, hend, harray⟩

theorem track (hclosed : w.Closed) {e : Value}
    (hrun : Path.writePlain w.limits op e (target ++ back) (w.store.cell c).value w =
      .ok (w.store.cell c).value wT) : w.Track w.limits (target ++ back) (w.store.cell c).value where
  plain st hst := h.plain st.1 (.inl (mem_passed.mpr ⟨st, hst, rfl⟩))
  knows st hst := hclosed.knows_passed (hclosed.cell c) st.1 (mem_passed.mpr ⟨st, hst, rfl⟩)
  admits := Path.writePlain_admits hrun

end Alias

end World

namespace Engine

open World

variable (em : Embedding) {w wT : World} {c : CellId} {front target back : List Part} {x : HandleId} {op : WriteOp}
  {e v : Value}

section Cases

variable (h : w.Alias c front x target back op) (hv : Path.StoredAs (full em).access.read w.limits op w v e)
  (hrun : Path.writePlain w.limits op e (target ++ back) (w.store.cell c).value w = .ok (w.store.cell c).value wT)
include h hv hrun

/-- A write to the slot itself is a write to where the handle leads. -/
theorem alias_at_end (hback : back = []) (text : String) :
    Path.writeParts (full em).access w.limits text op v back (.handle x) w = .ok (.handle x) wT := by
  obtain ⟨r, s, hx, hc⟩ := h.handle
  obtain ⟨rfl, -⟩ := h.whole hback
  subst hback
  have hstatic := h.static
  have hplain := h.plain
  rw [List.append_nil] at hrun hstatic hplain
  have hstored := hv w (.refl w)
  obtain ⟨he, hn⟩ := Path.stored_set hstored
  have hwrite : (full em).access.write x e w = .ok () wT :=
    writeHandle_plain em (n := 329) hx hc hstatic he hn hplain hrun
  change (if w.store.isReadOnly x = true then _ else _ : Exec Value) w = _
  rw [h.isReadOnly, if_neg Bool.false_ne_true]
  exact (Exec.bind_ok hstored).trans (Exec.bind_ok hwrite)

variable (hclosed : w.Closed) (hback : back ≠ [])
include hclosed hback

omit hv in
/-- A write below the slot goes on from where the handle leads. -/
theorem follow_alias : follow (full em).access.read w.limits.handleDepth (.handle x) w =
      .ok (w.target target (w.store.cell c).value) w ∧
    ∀ z, w.target target (w.store.cell c).value ≠ .handle z := by
  obtain ⟨r, s, hx, hc⟩ := h.handle
  have hleads : w.Leads x c target (w.target target (w.store.cell c).value) := by
    have hlimits : w.limitsOf x = w.limits := by
      unfold limitsOf
      rw [hx]
    refine ⟨?_, hclosed.shared hc, ?_, rfl⟩
    · unfold site?
      simp only [hx, hc, Option.map_some]
    · rw [hlimits]
      exact (track_append.mp (h.track hclosed hrun)).1
  have hu : ∀ z, w.target target (w.store.cell c).value ≠ .handle z := by
    cases back with
    | nil => exact absurd rfl hback
    | cons part rest =>
      refine h.plain _ (.inl ?_)
      rw [passed_append]
      exact List.mem_append_right _ List.mem_cons_self
  have hdepth := h.depth hback
  refine ⟨(followFrom_links (g := level em 329) (.here x) hleads hu w.limits.handleDepth _).trans ?_, hu⟩
  rw [if_pos (by simp; omega)]

/-- Where the handle leads to something, the write goes on below it, and nothing is linked on either path. -/
theorem alias_below_value (hacyclic : w.Acyclic) (hn : (w.target target (w.store.cell c).value).isNull = false)
    (text : String) :
    Path.writeParts (full em).access w.limits text op v back (.handle x) w = .ok (.handle x) wT := by
  obtain ⟨hfollow, hu⟩ := follow_alias em h hrun hclosed hback
  obtain ⟨httarget, htback⟩ := track_append.mp (h.track hclosed hrun)
  have hstraight : w.Straight (target ++ back) (w.store.cell c).value :=
    hacyclic.straight hclosed (hclosed.cell c) h.plain
  have hplain := h.plain
  rw [passed_append, target_append] at hplain
  have hfirm : (w.target target (w.store.cell c).value).isFirm = true := by
    cases back with
    | nil => exact absurd rfl hback
    | cons part rest => exact firm_of_opens (track_cons.mp htback).1.2.2.1 hn
  have hinner := Path.writePlain_rest httarget.admits hn hback hrun fun w₁ hrun₁ =>
    (Path.writePlain_retains hrun₁).1.idle httarget.admits hfirm
      (hstraight.not_crosses_end fun σ hσ => hσ.1.2)
  have hparts : Path.writeParts (full em).access w.limits text op v back (w.target target (w.store.cell c).value) w =
      .ok (w.target target (w.store.cell c).value) wT :=
    (Path.writeParts_plain hv fun y hy => hplain y (hy.imp_left (List.mem_append_right _))).mpr hinner
  exact writeParts_below_handle hback h.isReadOnly hfollow hu hparts (by rw [if_pos rfl])

/-- Where the handle leads to null, the write makes a chain of containers and has the handle written to with it. -/
theorem alias_below_null (he : ∀ y, e.own? = some y → w.Has y)
    (hn : (w.target target (w.store.cell c).value).isNull = true) :
    ∃ w', (∀ text, Path.writeParts (full em).access w.limits text op v back (.handle x) w = .ok (.handle x) w') ∧
      w.SameButNew wT w' ∧ w.Retains (fun _ => False) w' := by
  obtain ⟨hfollow, hu⟩ := follow_alias em h hrun hclosed hback
  have hall := h.track hclosed hrun
  obtain ⟨httarget, htback⟩ := track_append.mp hall
  have hend := target_of_null (w := w) hback hn
  have hplain := h.plain
  rw [passed_append, target_append, hend] at hplain
  obtain ⟨r, s, hx, hc⟩ := h.handle
  have hstatic := h.static
  rw [List.all_append, Bool.and_eq_true] at hstatic
  -- The first step of the path of the handle that leads to null.
  obtain ⟨first, part, second, rfl, hcn, hnext⟩ := first_null h.root_ne_null hn
  obtain ⟨htfirst, htsecond⟩ := track_append.mp httarget
  obtain ⟨⟨-, hcknows, hcadmits⟩, htsecond⟩ := track_cons.mp htsecond
  rw [List.append_assoc, List.cons_append] at hrun
  -- The operation works at null, and so does a write along what is left of either path.
  obtain ⟨m, r₀, m', happ⟩ := Path.writePlain_applies hrun
  rw [← List.cons_append, ← List.append_assoc, target_append, hend] at happ
  obtain ⟨ext, leaf, hleaf, happ⟩ := Path.applyPlain_null happ
  have hknown : ∀ y, leaf.own? = some y → w.Has y := by
    rcases hleaf with rfl | rfl
    · exact he
    · nofun
  obtain ⟨w₁, new, w₂, w₃, hdirect, hmade, hnew, hnewplain, hgrown, hnested, hsame⟩ :=
    Path.writePlain_in_two hclosed hcknows hcn hcadmits hnext (fun _ => htsecond.admits_null)
      (fun _ => htback.admits_null) hback happ hknown
  have hcfirm := firm_of_opens hcadmits.1 hcn
  have hadmits := htfirst.admits
  -- The direct write.
  have hw₁ : w.Retains (fun _ => False) w₁ := Path.writePlain_retains_null (target_of_next _ hnext) hdirect
  rw [Path.writePlain_front hadmits hcn hdirect (hw₁.idle_all hadmits hcfirm)] at hrun
  cases hrun
  -- The write through the alias, which writes to the handle where the new values are there already.
  have hw₂ : w.Retains (fun _ => False) w₂ :=
    Path.writePlain_retains_null (by rw [target_of_null hback rfl]; rfl) hmade
  obtain ⟨hsteps, htarget⟩ := hgrown.kept.way htfirst
  have hw₃ : w₂.Retains (fun _ => False) w₃ := by
    refine Path.writePlain_retains_null (target_of_next _ ?_) hnested
    rw [hgrown.kept.next hcknows]
    exact hnext
  have hthrough : Path.writePlain w.limits .set new (first ++ part :: second) (w.store.cell c).value w₂ =
      .ok (w.store.cell c).value w₃ := by
    refine Path.writePlain_front (hsteps ▸ hadmits) (htarget ▸ hcn) (htarget ▸ hnested) ?_
    rw [hsteps]
    exact (hw₂.trans hw₃).idle_all hadmits hcfirm
  have hwrite : (full em).access.write x new w₂ = .ok () w₃ :=
    writeHandle_grown em (n := 329) hx hc httarget hu hgrown hw₂ hnewplain (Value.orNull_of_some hnew) hthrough
  have hparts (text : String) : Path.writeParts (full em).access w.limits text op v back
      (w.target (first ++ part :: second) (w.store.cell c).value) w = .ok new w₂ := by
    refine (Path.writeParts_plain hv fun y hy => ?_).mpr (by rwa [Path.writePlain_of_null hback hn])
    rw [hend] at hy
    exact hplain y (hy.imp_left (List.mem_append_right _))
  refine ⟨w₃, fun text => ?_, hsame, hw₂.trans hw₃⟩
  refine writeParts_below_handle hback h.isReadOnly hfollow hu (hparts text) ?_
  rw [if_neg fun heq => by rw [heq, hn] at hnew; cases hnew]
  exact hwrite

end Cases

/-- Writing through an alias: where a write along the path of a handle and on works, the same write through the slot
that holds the handle works, and leaves the same world but for the names of new containers. The handle stays in all its
slots and leads where it led. -/
theorem alias_writes_target (hclosed : w.Closed) (hacyclic : w.Acyclic) (h : w.Alias c front x target back op)
    {r q : Root} (hr : w.sharedCell? r.key = some c) (hq : w.sharedCell? q.key = some c)
    (hv : Path.StoredAs (full em).access.read w.limits op w v e) (he : ∀ y, e.own? = some y → w.Has y)
    {scope : ScopeId} {allow : Bool}
    (hrun : (full em).writePath (.mk (.root r) (target ++ back)) scope v op allow w = .ok () wT) :
    ∃ w', (full em).writePath (.mk (.root q) (front ++ back)) scope v op allow w = .ok () w' ∧
      w.SameButNew wT w' ∧ (∀ σ, w.valueIn σ = .handle x → w'.valueIn σ = .handle x) ∧
      w'.store.handle x = w.store.handle x := by
  have hplain := writePath_plain em hr h.static h.ne_nil h.root_ne_null h.plain hv hrun
  have hdirect := (Path.writePlain_retains hplain).1
  obtain ⟨w', hparts, hsame, hw⟩ :
      ∃ w', (∀ text, Path.writeParts (full em).access w.limits text op v back (.handle x) w = .ok (.handle x) w') ∧
        w.SameButNew wT w' ∧
        w.Retains (fun σ => op.replaces = true ∧ w.EndsAt (target ++ back) (w.store.cell c).value σ) w' := by
    by_cases hback : back = []
    · exact ⟨wT, alias_at_end em h hv hplain hback, sameButNew_refl w wT, hdirect⟩
    by_cases hn : (w.target target (w.store.cell c).value).isNull = true
    · obtain ⟨w', hparts, hsame, hw⟩ := alias_below_null em h hv hplain hclosed hback he hn
      exact ⟨w', hparts, hsame, hw.mono fun _ hσ => hσ.elim⟩
    · exact ⟨wT, alias_below_value em h hv hplain hclosed hback hacyclic (Bool.eq_false_iff.mpr hn),
        sameButNew_refl w wT, hdirect⟩
  have hstatic := h.static
  rw [List.all_append, Bool.and_eq_true] at hstatic
  obtain ⟨ht, hl⟩ := h.idle hclosed hw
  refine ⟨w', writePath_slot em hq ht h.slot hstatic.2 hparts hl, hsame, fun σ hσ => ?_, by rw [hw.rest]; rfl⟩
  -- The path of the write ends at no handle.
  rw [← hσ]
  refine hw.value σ (fun hend => ?_) (by rw [hσ]; rfl)
  have hvalue := Path.endsAt_value (h.track hclosed hplain).admits hend.2 (by rw [hσ]; rfl)
  exact h.plain _ (.inr rfl) x (hvalue.symm.trans hσ)

/-- Through an alias of a path to nothing, the new containers are made in another order. -/
theorem alias_of_nothing_is_written :
    let w : World := {
      store := {
        objects := #[[(.str "a", .handle 0)]]
        handles := #[.bound (.mk (.root { key := .global }) [.key "b", .key "c"]) (some 0)]
        cells := #[{ value := .object 0 }, { value := .null }] }
      stateCell := 1 }
    let path (parts : List Part) : Path := .mk (.root { key := .global }) parts
    ∃ wT w', (full .plain).writePath (path [.key "b", .key "c", .key "k"]) 0 (.int 7) .set false w = .ok () wT ∧
      (full .plain).writePath (path [.key "a", .key "k"]) 0 (.int 7) .set false w = .ok () w' ∧
      w.SameButNew wT w' := by
  intro w path
  have hobject (o : ObjectId) : ∀ e ∈ w.store.object o, e.2 = .handle 0 := by
    intro e he
    cases o with
    | zero => rw [List.mem_singleton.mp he]
    | succ o => cases he
  have hroot : w.Knows (.object 0) := w.knows_of_own rfl (by decide)
  have hclosed : w.Closed := {
    global := by decide
    state := by decide
    array := fun _ v hv => absurd hv (Array.not_mem_empty v)
    object := fun o e he => by
      rw [hobject o e he]
      exact ⟨nofun, nofun⟩
    cell := fun c => by
      match c with
      | 0 => exact hroot
      | 1 => exact knows_null w
      | c + 2 => exact knows_null w }
  have hacyclic : w.Acyclic := by
    refine .of_rank (fun _ => 0) fun {x y} h => ?_
    cases h with
    | element hv => exact absurd hv (Array.not_mem_empty _)
    | entry he hy =>
      rw [hobject _ _ he] at hy
      cases hy
    | parent hp => cases hp
  have halias : w.Alias 0 [.key "a"] 0 [.key "b", .key "c"] [.key "k"] .set := {
    handle := ⟨{ key := .global }, 0, rfl, rfl⟩
    slot := rfl
    way := fun y hy => by
      rw [List.mem_singleton.mp hy]
      nofun
    plain := by
      have hpassed : w.passed ([.key "b", .key "c"] ++ [.key "k"]) (w.store.cell 0).value =
          [.object 0, .null, .null] := rfl
      have htarget : w.target ([.key "b", .key "c"] ++ [.key "k"]) (w.store.cell 0).value = .null := rfl
      rw [hpassed, htarget]
      rintro y hy x rfl
      simp at hy
    static := rfl
    indices := nofun
    depth := fun _ => by decide
    whole := nofun
    off := by
      rintro - ⟨st, hst, s, -, y, hy, -, a, i, hσ⟩
      rw [List.mem_singleton.mp hst] at hy
      rw [List.mem_singleton.mp hy] at hσ
      cases hσ }
  obtain ⟨wT, hrun⟩ : ∃ wT, (full .plain).writePath (path ([.key "b", .key "c"] ++ [.key "k"])) 0 (.int 7) .set false
      w = .ok () wT := ⟨_, rfl⟩
  have hstored := Path.storedAs_plain (full .plain).access.read w.limits .set w (v := .int 7) nofun
  obtain ⟨w', hrun', hsame, -⟩ := alias_writes_target .plain hclosed hacyclic halias rfl
    (q := { key := .global }) rfl hstored nofun hrun
  exact ⟨wT, w', hrun, hrun', hsame⟩

/-- Where a write to the target works, the write through the alias may fail or come to something else: where a limit
stops it, where a slot that was written to is put back, where the path ends at the alias, or where the value is a handle
that leads elsewhere once room has been made. -/
theorem not_alias_writes_target :
    let path (parts : List Part) : Path := .mk (.root { key := .global }) parts
    let ref (parts : List Part) : Handle := .bound (path parts) (some 0)
    let world (limits : Limits) (arrays : Array (Array Value)) (objects : Array (Entries Value))
        (handles : Array Handle) : World := {
      store := { arrays, objects, handles, cells := #[{ value := .object 0 }, { value := .null }] }
      stateCell := 1
      limits
      functions := [("len", { callee := .builtin .len })] }
    let write (parts : List Part) (v : Value) (w : World) := (full .plain).writePath (path parts) 0 v .set false w;
    -- An index that a read allows and a write does not.
    (let w := world { arraySize := 1 } #[#[.int 0, .handle 0]] #[[(.str "o", .object 1), (.str "arr", .array 0)], []]
        #[ref [.key "o"]];
      (∃ w', write [.key "o", .key "k"] (.int 7) w = .ok () w') ∧
      write [.key "arr", .index 1, .key "k"] (.int 7) w = .error (.unresolved (.badSetIndex 1)) w) ∧
    -- No handle may be followed.
    (let w := world { handleDepth := 0 } #[] #[[(.str "o", .object 1), (.str "a", .handle 0)], []] #[ref [.key "o"]];
      (∃ w', write [.key "o", .key "k"] (.int 7) w = .ok () w') ∧
      write [.key "a", .key "k"] (.int 7) w = .error (.unresolved (.handleDepth 0)) w) ∧
    -- The slot of an array on the way to the handle is put back.
    (let w := world {} #[#[.object 2]] #[[(.str "x", .object 1)], [(.str "arr", .array 0)], [(.str "alias", .handle 0)]]
        #[ref [.key "x"]];
      (∃ w', write [.key "x", .key "arr", .index 0] (.int 7) w = .ok () w' ∧ w'.store.array 0 = #[.int 7]) ∧
      ∃ w', write [.key "x", .key "arr", .index 0, .key "alias", .key "arr", .index 0] (.int 7) w = .ok () w' ∧
        w'.store.array 0 = #[.object 2]) ∧
    -- The path goes on to the slot of the handle.
    (let w := world {} #[#[.object 1]] #[[(.str "arr", .array 0), (.str "p", .object 1)], [(.str "a", .handle 0)]]
        #[ref [.key "arr", .index 0]];
      (∃ w', write [.key "arr", .index 0, .key "a"] (.int 7) w = .ok () w' ∧ w'.store.array 0 = #[.object 1]) ∧
      ∃ w', write [.key "p", .key "a", .key "a"] (.int 7) w = .ok () w' ∧ w'.store.array 0 = #[.int 7]) ∧
    -- The value is a handle, and what is read through it depends on the room that has been made.
    (let w := world {} #[#[], #[.int 10, .int 20, .int 30]]
        #[[(.str "arr", .array 0), (.str "m", .array 1), (.str "a", .handle 0)]]
        #[ref [.key "arr", .index 1], ref [.key "m", .dyn (.call "len" [.path (path [.key "arr"])])]];
      (∃ w', write [.key "arr", .index 1, .key "k"] (.handle 1) w = .ok () w' ∧
        w'.store.object 1 = [(.str "k", .int 30)]) ∧
      ∃ w', write [.key "a", .key "k"] (.handle 1) w = .ok () w' ∧ w'.store.object 1 = [(.str "k", .int 10)]) :=
  ⟨⟨⟨_, rfl⟩, rfl⟩, ⟨⟨_, rfl⟩, rfl⟩, ⟨⟨_, rfl, rfl⟩, _, rfl, rfl⟩, ⟨⟨_, rfl, rfl⟩, _, rfl, rfl⟩,
    ⟨_, rfl, rfl⟩, _, rfl, rfl⟩

end Engine

end EventScript
