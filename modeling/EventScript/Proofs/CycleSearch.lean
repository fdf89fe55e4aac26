import EventScript.Proofs.Reachable

/-!
# The search for cycles

The depth-first search goes into all that a value holds, keeps only the containers that it is inside of, and comes to
what is shared as often as ways lead to it. It ends, since it is never inside more containers than there are. It finds
nothing if and only if nothing that is reached loops, and what it finds is a way that comes back to a container on
itself.
-/

namespace EventScript

namespace World

/-- A search inside the containers `active` comes back to none that it is inside of. -/
inductive Clear (w : World) (lead : HandleId → Option Value) : List Value → Value → Prop where
  | mk {active v u} : v.behind? lead = some u → u ∉ active → (∀ e ∈ w.contents u, Clear w lead (u :: active) e.2) →
      Clear w lead active v

/-- The way on which a search inside the containers `active` first comes back to one that it is inside of. -/
inductive Finds (w : World) (lead : HandleId → Option Value) : List Value → Value → List Slot → Prop where
  | again {active v u} : v.behind? lead = some u → u ∈ active → Finds w lead active v []
  | inside {active v u front s y back way} : v.behind? lead = some u → u ∉ active →
      w.contents u = front ++ (s, y) :: back → (∀ e ∈ front, w.Clear lead (u :: active) e.2) →
      Finds w lead (u :: active) y way → Finds w lead active v (s :: way)

variable {w : World} {lead : HandleId → Option Value} {root v u : Value} {active : List Value}

theorem kind_of_slot? {s : Slot} {y : Value} (h : w.slot? u s = some y) : u.kind = .array ∨ u.kind = .object := by
  cases s with
  | index i =>
    cases u with
    | array a => exact .inl rfl
    | _ => cases h
  | key k =>
    cases u with
    | object o => exact .inr rfl
    | context c => exact .inr rfl
    | _ => cases h

theorem through?_cons {s : Slot} {way : List Slot} (h : w.through? lead (s :: way) u = some v) :
    ∃ y, w.slot? u s = some y ∧ w.along? lead way y = some v := by
  obtain ⟨z, hz, hv⟩ := Option.bind_eq_some_iff.mp h
  obtain ⟨y, hy, hyz⟩ := Option.bind_eq_some_iff.mp hz
  refine ⟨y, hy, ?_⟩
  unfold along?
  rw [hyz]
  exact hv

/-- A search that comes back to nothing has been inside of nothing that it reaches when it reaches it. -/
theorem Clear.reached (hi : w.Intact lead root) {way : List Slot} (h : w.Clear lead active v)
    (hm : w.Meets lead root v) (hu : w.along? lead way v = some u) :
    ∃ outer, active ⊆ outer ∧ u ∉ outer ∧ ∀ e ∈ w.contents u, w.Clear lead (u :: outer) e.2 := by
  induction way generalizing active v with
  | nil =>
    obtain ⟨hz, hnew, hin⟩ := h
    rw [along?_nil hz] at hu
    cases hu
    exact ⟨active, List.Subset.refl _, hnew, hin⟩
  | cons s rest ih =>
    obtain ⟨hz, hnew, hin⟩ := h
    rename_i z
    have hthrough : w.through? lead (s :: rest) z = some u := by
      unfold along? at hu
      rwa [hz] at hu
    obtain ⟨y, hs, hy⟩ := through?_cons hthrough
    obtain ⟨t, -, ht⟩ := mem_contents_of_slot? (hi.keyed z (hm.reaches hz)) hs
    obtain ⟨outer, hsub, hout⟩ := ih (hin _ ht) (hm.slot hz hs) hy
    exact ⟨outer, List.Subset.trans (List.subset_cons_self z active) hsub, hout⟩

theorem Clear.not_loops (hi : w.Intact lead v) (h : w.Clear lead active v) (hu : w.Reaches lead v u) :
    ¬w.Loops lead u := by
  rintro ⟨s, way, hloop⟩
  obtain ⟨front, hfront⟩ := hu
  obtain ⟨outer, -, -, hin⟩ := h.reached hi (.self w lead v) hfront
  obtain ⟨y, hs, hy⟩ := through?_cons hloop
  obtain ⟨t, -, ht⟩ := mem_contents_of_slot? (hi.keyed u ⟨front, hfront⟩) hs
  obtain ⟨outer', hsub, hnot, -⟩ := (hin _ ht).reached hi (.inr ⟨u, s, ⟨front, hfront⟩, hs⟩) hy
  exact hnot (hsub List.mem_cons_self)

/-- What a search finds is a way to a container that it is inside of, or that the way has come by before. -/
theorem Finds.comes_back (hi : w.Intact lead root) {way : List Slot} (h : w.Finds lead active v way)
    (hm : w.Meets lead root v) : ∃ u, w.along? lead way v = some u ∧
      (u ∈ active ∨ ∃ front s back, way = front ++ s :: back ∧ w.along? lead front v = some u) := by
  induction h with
  | again hz hmem => exact ⟨_, along?_nil hz, .inl hmem⟩
  | @inside active v z front s y back way hz hnew hcontents _ _ ih =>
    have hs : w.slot? z s = some y :=
      slot?_of_mem_contents (hi.keyed z (hm.reaches hz)) (by rw [hcontents]; simp)
    obtain ⟨u, hu, hback⟩ := ih (hm.slot hz hs)
    refine ⟨u, by rw [along?_cons hz hs, hu], ?_⟩
    rcases hback with hmem | ⟨front', s', back', rfl, hfront⟩
    · rcases List.mem_cons.mp hmem with rfl | hmem
      · exact .inr ⟨[], s, way, rfl, along?_nil hz⟩
      · exact .inl hmem
    · exact .inr ⟨s :: front', s', back', rfl, by rw [along?_cons hz hs, hfront]⟩

/-! ### The run of the search -/

/-- A search ends: it is clear and finds nothing, or it gives the labels of the way that it finds. -/
def SearchEnds (w : World) (lead : HandleId → Option Value) (active : List Value) (trail : List String) (v : Value)
    (w₁ : World) (r : EStateM.Result Fault World (Option (List String))) : Prop :=
  ∃ w₂, w₁.Grown w₂ ∧ (w.Clear lead active v ∧ r = .ok none w₂ ∨
    ∃ way, w.Finds lead active v way ∧ r = .ok (some (trail.reverse ++ way.map Slot.trailLabel)) w₂)

end World

open World

variable {w w₁ : World} {lead : HandleId → Option Value} {read : HandleId → Exec Value} {resolve : Bool}
  {root v u : Value} {active : List Value} {trail : List String} {fuel : Nat}

theorem firstFound_map {α β γ : Type} (f : β → Exec (Option γ)) (g : α → β) (xs : List α) :
    firstFound f (xs.map g) = firstFound (fun x => f (g x)) xs := by
  induction xs with
  | nil => rfl
  | cons x rest ih =>
    simp only [List.map_cons, firstFound, ih]

/-- Searches one after the other, up to the first that finds something. -/
theorem firstFound_ends {f : Slot × Value → Exec (Option (List String))} {es : List (Slot × Value)}
    (h : ∀ e ∈ es, ∀ w₁, w.Grown w₁ → w.SearchEnds lead active (e.1.trailLabel :: trail) e.2 w₁ (f e w₁))
    (hg : w.Grown w₁) : ∃ w₂, w₁.Grown w₂ ∧
      ((∀ e ∈ es, w.Clear lead active e.2) ∧ firstFound f es w₁ = .ok none w₂ ∨
        ∃ front s y back way, es = front ++ (s, y) :: back ∧ (∀ e ∈ front, w.Clear lead active e.2) ∧
          w.Finds lead active y way ∧
          firstFound f es w₁ = .ok (some (trail.reverse ++ (s :: way).map Slot.trailLabel)) w₂) := by
  induction es generalizing w₁ with
  | nil => exact ⟨w₁, .refl w₁, .inl ⟨by simp, rfl⟩⟩
  | cons e rest ih =>
    obtain ⟨he, hrest⟩ := List.forall_mem_cons.mp h
    obtain ⟨w₂, hg₂, ⟨hclear, hrun⟩ | ⟨way, hfinds, hrun⟩⟩ := he w₁ hg
    · have hfirst : firstFound f (e :: rest) w₁ = firstFound f rest w₂ := Exec.bind_ok hrun
      obtain ⟨w₃, hg₃, hend⟩ := ih hrest (hg.trans hg₂)
      refine ⟨w₃, hg₂.trans hg₃, ?_⟩
      rw [hfirst]
      rcases hend with ⟨hall, hnone⟩ | ⟨front, s, y, back, way, rfl, hfront, hfinds, hsome⟩
      · exact .inl ⟨List.forall_mem_cons.mpr ⟨hclear, hall⟩, hnone⟩
      · exact .inr ⟨e :: front, s, y, back, way, rfl, List.forall_mem_cons.mpr ⟨hclear, hfront⟩, hfinds, hsome⟩
    · refine ⟨w₂, hg₂, .inr ⟨[], e.1, e.2, rest, way, rfl, by simp, hfinds, ?_⟩⟩
      refine (Exec.bind_ok hrun).trans ?_
      simp
      rfl

/-- A search sees a value through, and goes into what it holds unless it is inside of it already. -/
theorem cycleFrom_seen {w₂ : World} (hsee : seeThrough read resolve v w₁ = .ok u w₂)
    (hactive : u ∈ active → u.kind = .array ∨ u.kind = .object) :
    cycleFrom read resolve (fuel + 1) active trail v w₁ =
      if u ∈ active then .ok (some trail.reverse) w₂
      else firstFound (fun e => cycleFrom read resolve fuel (u :: active) (e.1.trailLabel :: trail) e.2)
        (w₂.contents u) w₂ := by
  refine (Exec.bind_ok hsee).trans ?_
  by_cases hk : u.kind = .array ∨ u.kind = .object
  · by_cases ha : ∃ a, u = .array a
    · obtain ⟨a, rfl⟩ := ha
      simp only [List.contains_iff_mem, contents, firstFound_map]
      split <;> rfl
    · rw [contents_of_not_array _ fun a hu => ha ⟨a, hu⟩, firstFound_map]
      cases u with
      | array a => exact absurd ⟨a, rfl⟩ ha
      | object o =>
        simp only [List.contains_iff_mem]
        split <;> rfl
      | context c =>
        simp only [List.contains_iff_mem]
        split <;> rfl
      | _ => simp [Value.kind] at hk
  · rw [if_neg fun hu => hk (hactive hu)]
    obtain ⟨hk₁, hk₂⟩ := not_or.mp hk
    rw [contents_of_leaf _ hk₁ hk₂]
    cases u <;> first | rfl | simp [Value.kind] at hk

/-- All that a search from a value meets is there, and the handles among it are seen as what they lead to. -/
structure Searchable (read : HandleId → Exec Value) (resolve : Bool) (lead : HandleId → Option Value) (w : World)
    (root : Value) : Prop where
  intact : w.Intact lead root
  shows : ∀ h, w.Meets lead root (.handle h) → w.Shows read resolve lead h

theorem Searchable.sees (hr : Searchable read resolve lead w root) (hm : w.Meets lead root v) (hg : w.Grown w₁) :
    ∃ u w₂, v.behind? lead = some u ∧ seeThrough read resolve v w₁ = .ok u w₂ ∧ w₁.Grown w₂ := by
  obtain ⟨u, hu, hsee⟩ := seeThrough_shows fun h hv => hr.shows h (hv ▸ hm)
  obtain ⟨w₂, hrun, hg₂⟩ := hsee w₁ hg
  exact ⟨u, w₂, hu, hrun, hg₂⟩

theorem cycleFrom_ends (hr : Searchable read resolve lead w root) (hm : w.Meets lead root v) (hg : w.Grown w₁)
    (hn : active.Nodup) (ha : active ⊆ w.holders ∧ ∀ u ∈ active, u.kind = .array ∨ u.kind = .object)
    (hf : w.holderCount < fuel + active.length) :
    w.SearchEnds lead active trail v w₁ (cycleFrom read resolve fuel active trail v w₁) := by
  induction fuel generalizing active trail v w₁ with
  | zero =>
    have hle := length_le_of_holders hn ha.1
    omega
  | succ fuel ih =>
    obtain ⟨u, w₂, hu, hrun, hg₂⟩ := hr.sees hm hg
    have hknows := hr.intact.knows u (hm.reaches hu)
    rw [cycleFrom_seen hrun (ha.2 u), contents_grown hknows (hg.trans hg₂)]
    split
    · rename_i hmem
      exact ⟨w₂, hg₂, .inr ⟨[], .again hu hmem, by simp⟩⟩
    · rename_i hnew
      have hall : ∀ e ∈ w.contents u, ∀ w₁, w.Grown w₁ →
          w.SearchEnds lead (u :: active) (e.1.trailLabel :: trail) e.2 w₁
            (cycleFrom read resolve fuel (u :: active) (e.1.trailLabel :: trail) e.2 w₁) := by
        intro e he w₁ hg
        have hs : w.slot? u e.1 = some e.2 := slot?_of_mem_contents (hr.intact.keyed u (hm.reaches hu)) he
        have hk := kind_of_slot? hs
        refine ih (hm.slot hu hs) hg (List.nodup_cons.mpr ⟨hnew, hn⟩) ⟨?_, ?_⟩ ?_
        · exact List.cons_subset.mpr ⟨mem_holders hknows hk, ha.1⟩
        · exact List.forall_mem_cons.mpr ⟨hk, ha.2⟩
        · rw [List.length_cons]
          omega
      obtain ⟨w₃, hg₃, ⟨hclear, hnone⟩ | ⟨front, s, y, back, way, hes, hfront, hfinds, hsome⟩⟩ :=
        firstFound_ends hall (hg.trans hg₂)
      · exact ⟨w₃, hg₂.trans hg₃, .inl ⟨.mk hu hnew hclear, hnone⟩⟩
      · exact ⟨w₃, hg₂.trans hg₃, .inr ⟨s :: way, .inside hu hnew hes hfront hfinds, hsome⟩⟩

/-- The search for a cycle comes to an end: it finds nothing, or a way that comes back. -/
theorem findCycle_ends (hr : Searchable read resolve lead w v) :
    w.SearchEnds lead [] ["root"] v w (findCycle read resolve v w) :=
  cycleFrom_ends hr (.self w lead v) (.refl w) List.nodup_nil ⟨List.nil_subset _, by simp⟩ (by simp)

/-- The search for a cycle ends. It finds nothing if and only if nothing that is reached from the value loops, and the
trail that it finds, followed slot by slot, leads to a container that it has come by before. -/
theorem findCycle_finds_loops (hr : Searchable read resolve lead w v) :
    ∃ found w', findCycle read resolve v w = .ok found w' ∧ w.Grown w' ∧
      (found = none ↔ ∀ u, w.Reaches lead v u → ¬w.Loops lead u) ∧
      ∀ trail, found = some trail → ∃ front s back u,
        trail = "root" :: (front ++ s :: back).map Slot.trailLabel ∧ (u.kind = .array ∨ u.kind = .object) ∧
        w.along? lead front v = some u ∧ w.along? lead (front ++ s :: back) v = some u := by
  obtain ⟨w', hg, ⟨hclear, hrun⟩ | ⟨way, hfinds, hrun⟩⟩ := findCycle_ends hr
  · exact ⟨none, w', hrun, hg, ⟨fun _ u hu => hclear.not_loops hr.intact hu, fun _ => rfl⟩, by simp⟩
  · obtain ⟨u, hu, hback⟩ := hfinds.comes_back hr.intact (.self w lead v)
    obtain ⟨front, s, back, rfl, hfront⟩ := hback.resolve_left (by simp)
    have hloop : w.through? lead (s :: back) u = some u := by
      rw [along?_append, hfront, Option.bind_some] at hu
      exact hu
    obtain ⟨y, hs, -⟩ := through?_cons hloop
    refine ⟨_, w', hrun, hg, ⟨by simp, fun hnone => ?_⟩, fun trail htrail => ?_⟩
    · exact absurd ⟨s, back, hloop⟩ (hnone u ⟨front, hfront⟩)
    · cases htrail
      exact ⟨front, s, back, u, rfl, kind_of_slot? hs, hfront, hu⟩

theorem ringWorld.searchable {o : ObjectId} (h : o < 2) :
    Searchable (Engine.full .plain).readHandle true ringWorld.lead ringWorld (.object o) where
  intact := intact h
  shows _ hm := shows (met_handle hm)

/-- The search finds that an object holds itself through a handle. -/
theorem ring_is_found : ∃ trail w',
    findCycle (Engine.full .plain).readHandle true (.object 0) ringWorld = .ok (some trail) w' := by
  have hr : Searchable (Engine.full .plain).readHandle true ringWorld.lead ringWorld (.object 0) :=
    ringWorld.searchable (by decide)
  obtain ⟨found, w', hrun, -, hnone, -⟩ := findCycle_finds_loops hr
  cases found with
  | some trail => exact ⟨trail, w', hrun⟩
  | none =>
    have hloop : ringWorld.Loops ringWorld.lead (.object 0) := ⟨.key (.str "a"), [.index 0], rfl⟩
    exact absurd hloop (hnone.mp rfl _ (.self rfl))

end EventScript
