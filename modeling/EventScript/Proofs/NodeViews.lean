import EventScript.Proofs.DistinctKeys
import EventScript.Proofs.NodeGroups
import EventScript.Proofs.PlainData
import EventScript.Proofs.TwinReads

/-!
# Views of nodes

A list of nodes is read through views: its groups by tag, its groups by slot, and the nodes that have no slot. The
groups by tag hold each node once, and so do the groups by slot together with the nodes without one. Views are lists
of nodes in their turn, so this holds of the views of views too, along every path: nothing is lost and nothing is there
twice, however deep the views are nested.
-/

namespace EventScript

namespace Path

/-- A way of taking a list of nodes apart. -/
inductive Split where
  | byTag
  | bySlot
  deriving DecidableEq, Repr

namespace Split

/-- What tells nodes apart. -/
def key : Split → Node → Option String
  | .byTag, n => some n.tag
  | .bySlot, n => n.slot

/-- The field in which the groups are. -/
def field : Split → String
  | .byTag => "bytag"
  | .bySlot => "byslot"

end Split

variable {w w' w₁ : World} {n : NodeListId} {ns : List Node} {v u : Value}

/-! ### Lists in a world -/

/-- A value that shows just these nodes. -/
def ShowsNodes (w : World) (ns : List Node) (v : Value) : Prop :=
  ∃ m, v = .nodes m ∧ m < w.store.nodeLists.size ∧ w.store.nodeList m = ns

theorem ShowsNodes.grown (h : ShowsNodes w ns v) (hg : w.Grown w') : ShowsNodes w' ns v := by
  obtain ⟨m, rfl, hlt, rfl⟩ := h
  refine ⟨m, rfl, ?_, getD_of_begins hg.store.nodeLists hlt []⟩
  exact Nat.lt_of_lt_of_le hlt (size_le_of_begins hg.store.nodeLists)

/-- A world with one list of nodes more. -/
def withNodes (w : World) (ns : List Node) : World := { w with store := (w.store.newNodeList ns).2 }

theorem newNodes_run (ns : List Node) (w : World) :
    Exec.newNodes ns w = .ok (.nodes w.store.nodeLists.size) (withNodes w ns) := rfl

theorem grown_withNodes (w : World) (ns : List Node) : w.Grown (withNodes w ns) := .ofStore (.newNodeList w.store ns)

theorem withNodes_shows (w : World) (ns : List Node) :
    ShowsNodes (withNodes w ns) ns (.nodes w.store.nodeLists.size) := by
  refine ⟨_, rfl, ?_, getD_push_size _ _ _⟩
  simp [withNodes, Store.newNodeList]

theorem nodeList_withNodes {ms : List Node} (h : ms.Sublist (w.store.nodeList n)) :
    (withNodes w ms).store.nodeList n = w.store.nodeList n := by
  change (w.store.nodeLists.push ms).getD n [] = w.store.nodeLists.getD n []
  -- A list that is not there counts as empty, and what comes into its place has none but its nodes.
  rcases Nat.lt_trichotomy n w.store.nodeLists.size with hn | rfl | hn
  · exact getD_of_begins (prefix_push _ _) hn []
  · have hnone : w.store.nodeLists.getD w.store.nodeLists.size [] = [] := by simp
    rw [getD_push_size, hnone]
    exact List.sublist_nil.1 (hnone ▸ h)
  · have hn' : (w.store.nodeLists.push ms).size ≤ n := by
      rw [Array.size_push]
      exact hn
    simp [Array.getD_eq_getD_getElem?, Array.getElem?_eq_none hn', Array.getElem?_eq_none hn.le]

theorem distinct_of_groups {groups : List (String × List Node)} {es : Entries Value}
    (h : List.Forall₂ (ShowsGroup w) groups es) (hkeys : (groups.map (·.1)).Nodup) : Entries.Distinct es := by
  induction h with
  | nil => exact .nil
  | @cons g e groups es he hes ih =>
    rw [List.map_cons, List.nodup_cons] at hkeys
    refine .cons ?_ (ih hkeys.2)
    intro f hf hsame
    obtain ⟨g', hg', hkey, -⟩ := exists_of_forall₂ hes.flip hf
    rw [he.1, hkey] at hsame
    have hg : g.1 = g'.1 := eq_of_beq hsame
    exact hkeys.1 (hg ▸ List.mem_map_of_mem hg')

section Reading

variable (read : HandleId → Exec Value) (limits : Limits)

/-! ### The views of one list -/

theorem stepKey_groups (s : Split) (n : NodeListId) (w : World) :
    ∃ o w₁, stepKey read limits (.nodes n) s.field false w = .ok (.object o) w₁ ∧ w.Grown w₁ ∧
      List.Forall₂ (ShowsGroup w₁) (groupNodes s.key (w.store.nodeList n)) (w₁.store.object o) := by
  rw [stepKey_nodes]
  cases s with
  | byTag => exact nodeGroups_run _ w
  | bySlot => exact nodeGroups_run _ w

theorem stepKey_noslot (n : NodeListId) (w : World) :
    stepKey read limits (.nodes n) "noslot" false w =
      .ok (.nodes w.store.nodeLists.size) (withNodes w ((w.store.nodeList n).filter (·.slot.isNone))) := by
  rw [stepKey_nodes]
  rfl

/-- The views by slot, read one after the other. -/
theorem slotViews_run (n : NodeListId) (w : World) :
    ∃ m w₁ o w₂, stepKey read limits (.nodes n) "noslot" false w = .ok (.nodes m) w₁ ∧ w.Grown w₁ ∧
      stepKey read limits (.nodes n) "byslot" false w₁ = .ok (.object o) w₂ ∧ w₁.Grown w₂ ∧
      ShowsNodes w₂ ((w.store.nodeList n).filter (·.slot.isNone)) (.nodes m) ∧
      List.Forall₂ (ShowsGroup w₂) (groupNodes (·.slot) (w.store.nodeList n)) (w₂.store.object o) := by
  let rest := (w.store.nodeList n).filter (·.slot.isNone)
  have hkept : (withNodes w rest).store.nodeList n = w.store.nodeList n := nodeList_withNodes List.filter_sublist
  obtain ⟨o, w₂, hrun, hgrown, hall⟩ := stepKey_groups read limits .bySlot n (withNodes w rest)
  rw [hkept] at hall
  have hshown := (withNodes_shows w rest).grown hgrown
  exact ⟨_, _, o, w₂, stepKey_noslot read limits n w, grown_withNodes w rest, hrun, hgrown, hshown, hall⟩

/-- An object shows groups: its entries are the groups in their order, and each is read under its key. -/
structure ShowsGroups (w : World) (groups : List (String × List Node)) (o : ObjectId) : Prop where
  entries : List.Forall₂ (ShowsGroup w) groups (w.store.object o)
  reads : ∀ g ∈ groups, ∃ m, stepKey read limits (.object o) g.1 false w = .ok (.nodes m) w ∧ w.store.nodeList m = g.2

theorem showsGroups {key : Node → Option String} {groups : List (String × List Node)} {o : ObjectId}
    (hgroups : GroupedBy key ns groups) (hall : List.Forall₂ (ShowsGroup w) groups (w.store.object o)) :
    ShowsGroups read limits w groups o where
  entries := hall
  reads g hg := by
    obtain ⟨e, he, hkey, m, hm, -, hnodes⟩ := exists_of_forall₂ hall hg
    have hget := (distinct_of_groups hall hgroups.nodup).get?_of_mem he
    rw [hkey, hm] at hget
    refine ⟨m, ?_, hnodes⟩
    unfold stepKey
    rw [follow_of_not_handle read _ (.object o) nofun]
    change EStateM.Result.ok ((Entries.get? (.str g.1) (w.store.object o)).getD .null) w = _
    rw [hget]
    rfl

/-- The views of a list of nodes take it apart. -/
structure TakenApart (w : World) (n : NodeListId) : Prop where
  /-- The groups by tag hold each node of the list once. -/
  byTag : ∃ o w₁ groups,
    stepKey read limits (.nodes n) "bytag" false w = .ok (.object o) w₁ ∧ w.Grown w₁ ∧
      ShowsGroups read limits w₁ groups o ∧ GroupedBy (some ·.tag) (w.store.nodeList n) groups ∧
      (groups.flatMap (·.2)).Perm (w.store.nodeList n)
  /-- The nodes without a slot, in their order, and the groups by slot hold each node of the list once. -/
  bySlot : ∃ m w₁ o w₂ groups,
    stepKey read limits (.nodes n) "noslot" false w = .ok (.nodes m) w₁ ∧ w.Grown w₁ ∧
      stepKey read limits (.nodes n) "byslot" false w₁ = .ok (.object o) w₂ ∧ w₁.Grown w₂ ∧
      w₂.store.nodeList m = (w.store.nodeList n).filter (·.slot.isNone) ∧
      ShowsGroups read limits w₂ groups o ∧ GroupedBy (·.slot) (w.store.nodeList n) groups ∧
      (w₂.store.nodeList m ++ groups.flatMap (·.2)).Perm (w.store.nodeList n)

theorem takenApart (w : World) (n : NodeListId) : TakenApart read limits w n where
  byTag := by
    have hgroups := groupNodes_groupedBy (some ·.tag) (w.store.nodeList n)
    obtain ⟨o, w₁, hrun, hgrown, hall⟩ := stepKey_groups read limits .byTag n w
    have hshown := showsGroups read limits hgroups hall
    exact ⟨o, w₁, _, hrun, hgrown, hshown, hgroups, hgroups.perm_of_total fun _ => rfl⟩
  bySlot := by
    have hgroups := groupNodes_groupedBy (·.slot) (w.store.nodeList n)
    obtain ⟨m, w₁, o, w₂, hrest, hgrown₁, hrun, hgrown₂, ⟨m', hm, -, hnodes⟩, hall⟩ := slotViews_run read limits n w
    obtain rfl := Value.nodes.inj hm
    have hshown := showsGroups read limits hgroups hall
    refine ⟨m, w₁, o, w₂, _, hrest, hgrown₁, hrun, hgrown₂, hnodes, hshown, hgroups, ?_⟩
    rw [hnodes]
    exact hgroups.perm_append

/-! ### Reading views of views -/

/-- Reads the views that hold the nodes of a value. -/
def Split.views : Split → Value → Exec (List Value)
  | .byTag, v => do
    let groups ← stepKey read limits v "bytag" false
    return Entries.values ((← get).entries groups)
  | .bySlot, v => do
    let rest ← stepKey read limits v "noslot" false
    let groups ← stepKey read limits v "byslot" false
    return rest :: Entries.values ((← get).entries groups)

/-- Reads the views of a value by the first way, the views of these by the second, and so on. -/
def nestedViews : List Split → Value → Exec (List Value)
  | [], v => return [v]
  | s :: rest, v => do
    let vs ← s.views read limits v
    return (← vs.mapM (nestedViews rest)).flatten

/-- What the views of a list show. -/
def Split.parts : Split → List Node → List (List Node)
  | .byTag, ns => (groupNodes (some ·.tag) ns).map (·.2)
  | .bySlot, ns => ns.filter (·.slot.isNone) :: (groupNodes (·.slot) ns).map (·.2)

/-- What the nested views of a list show. -/
def nestedParts : List Split → List Node → List (List Node)
  | [], ns => [ns]
  | s :: rest, ns => (s.parts ns).flatMap (nestedParts rest)

theorem showsNodes_of_groups {groups : List (String × List Node)} {es : Entries Value}
    (h : List.Forall₂ (ShowsGroup w) groups es) :
    List.Forall₂ (ShowsNodes w) (groups.map (·.2)) (Entries.values es) := by
  unfold Entries.values
  rw [List.forall₂_map_left_iff, List.forall₂_map_right_iff]
  exact h.imp fun g e he => he.2

theorem Split.views_run (s : Split) (n : NodeListId) (w : World) :
    ∃ vs w₁, s.views read limits (.nodes n) w = .ok vs w₁ ∧ w.Grown w₁ ∧
      List.Forall₂ (ShowsNodes w₁) (s.parts (w.store.nodeList n)) vs := by
  cases s with
  | byTag =>
    obtain ⟨o, w₁, hrun, hgrown, hall⟩ := stepKey_groups read limits .byTag n w
    exact ⟨_, w₁, Exec.bind_ok hrun, hgrown, showsNodes_of_groups hall⟩
  | bySlot =>
    obtain ⟨m, w₁, o, w₂, hrest, hgrown₁, hrun, hgrown₂, hnodes, hall⟩ := slotViews_run read limits n w
    exact ⟨_, w₂, (Exec.bind_ok hrest).trans (Exec.bind_ok hrun), hgrown₁.trans hgrown₂,
      .cons hnodes (showsNodes_of_groups hall)⟩

/-- What is read of values one after the other is shown when all have been read. -/
theorem mapM_shows {f : Value → Exec (List Value)} {g : List Node → List (List Node)}
    (hf : ∀ {w ns v}, ShowsNodes w ns v →
      ∃ vs w₁, f v w = .ok vs w₁ ∧ w.Grown w₁ ∧ List.Forall₂ (ShowsNodes w₁) (g ns) vs)
    {parts : List (List Node)} {vs : List Value} (h : List.Forall₂ (ShowsNodes w) parts vs) :
    ∃ vss w₁, vs.mapM f w = .ok vss w₁ ∧ w.Grown w₁ ∧
      List.Forall₂ (ShowsNodes w₁) (parts.flatMap g) vss.flatten := by
  induction parts generalizing w vs with
  | nil =>
    cases h
    exact ⟨[], w, rfl, .refl w, .nil⟩
  | cons p parts ih =>
    cases h with
    | @cons _ v _ vs hv hvs =>
      obtain ⟨us, w₁, hus, hgrown₁, hshown⟩ := hf hv
      obtain ⟨uss, w₂, huss, hgrown₂, hrest⟩ := ih (hvs.imp fun _ _ h => h.grown hgrown₁)
      refine ⟨us :: uss, w₂, ?_, hgrown₁.trans hgrown₂, ?_⟩
      · rw [List.mapM_cons]
        exact (Exec.bind_ok hus).trans (Exec.bind_ok huss)
      · exact List.rel_append (hshown.imp fun _ _ h => h.grown hgrown₂) hrest

theorem nestedViews_shows (splits : List Split) {w : World} {ns : List Node} {v : Value} (h : ShowsNodes w ns v) :
    ∃ vs w₁, nestedViews read limits splits v w = .ok vs w₁ ∧ w.Grown w₁ ∧
      List.Forall₂ (ShowsNodes w₁) (nestedParts splits ns) vs := by
  induction splits generalizing w ns v with
  | nil => exact ⟨[v], w, rfl, .refl w, .cons h .nil⟩
  | cons s rest ih =>
    obtain ⟨n, rfl, -, rfl⟩ := h
    obtain ⟨vs, w₁, hvs, hgrown₁, hshown⟩ := s.views_run read limits n w
    obtain ⟨uss, w₂, huss, hgrown₂, hrest⟩ := mapM_shows ih hshown
    exact ⟨uss.flatten, w₂, (Exec.bind_ok hvs).trans (Exec.bind_ok huss), hgrown₁.trans hgrown₂, hrest⟩

theorem exists_lists {parts : List (List Node)} {vs : List Value} (h : List.Forall₂ (ShowsNodes w) parts vs) :
    ∃ ms : List NodeListId, vs = ms.map .nodes ∧ ms.map w.store.nodeList = parts := by
  induction h with
  | nil => exact ⟨[], rfl, rfl⟩
  | cons hv _ ih =>
    obtain ⟨m, rfl, -, rfl⟩ := hv
    obtain ⟨ms, rfl, rfl⟩ := ih
    exact ⟨m :: ms, rfl, rfl⟩

theorem nestedViews_run (splits : List Split) (n : NodeListId) (w : World) :
    ∃ (ms : List NodeListId) (w₁ : World), nestedViews read limits splits (.nodes n) w = .ok (ms.map .nodes) w₁ ∧
      w.Grown w₁ ∧ ms.map w₁.store.nodeList = nestedParts splits (w.store.nodeList n) := by
  -- The views of a list are there, though the list itself may not be.
  cases splits with
  | nil => exact ⟨[n], w, rfl, .refl w, rfl⟩
  | cons s rest =>
    obtain ⟨vs, w₁, hvs, hgrown₁, hshown⟩ := s.views_run read limits n w
    obtain ⟨uss, w₂, huss, hgrown₂, hrest⟩ := mapM_shows (nestedViews_shows read limits rest) hshown
    obtain ⟨ms, hms, hparts⟩ := exists_lists hrest
    refine ⟨ms, w₂, ?_, hgrown₁.trans hgrown₂, hparts⟩
    rw [← hms]
    exact (Exec.bind_ok hvs).trans (Exec.bind_ok huss)

end Reading

/-! ### What nested views hold -/

/-- Nodes taken apart in several ways one after the other. -/
structure Parted (splits : List Split) (ns : List Node) (parts : List (List Node)) : Prop where
  /-- Together the parts hold each node once. -/
  all : parts.flatten.Perm ns
  /-- A part keeps the order of the nodes. -/
  inOrder : ∀ p ∈ parts, p.Sublist ns
  /-- The nodes of a part are alike in each way. -/
  alike : ∀ p ∈ parts, ∀ s ∈ splits, ∀ a ∈ p, ∀ b ∈ p, s.key a = s.key b

theorem group_alike {key : Node → Option String} {p : List Node} (hp : p ∈ (groupNodes key ns).map (·.2)) :
    p.Sublist ns ∧ ∀ a ∈ p, ∀ b ∈ p, key a = key b := by
  obtain ⟨g, hg, rfl⟩ := List.mem_map.1 hp
  have hgroups := groupNodes_groupedBy key ns
  have hkey : ∀ a ∈ g.2, key a = some g.1 := by
    intro a ha
    rw [hgroups.own g hg] at ha
    exact eq_of_beq (List.mem_filter.1 ha).2
  refine ⟨hgroups.sublist hg, ?_⟩
  intro a ha b hb
  rw [hkey a ha, hkey b hb]

theorem Split.parts_parted (s : Split) (ns : List Node) : Parted [s] ns (s.parts ns) := by
  have hgroups := groupNodes_groupedBy s.key ns
  cases s with
  | byTag =>
    constructor
    · change ((groupNodes (some ·.tag) ns).map (·.2)).flatten.Perm ns
      rw [← List.flatMap_def]
      exact hgroups.perm_of_total fun _ => rfl
    · intro p hp
      exact (group_alike hp).1
    · simp only [List.forall_mem_singleton]
      intro p hp
      exact (group_alike hp).2
  | bySlot =>
    constructor
    · change (ns.filter (·.slot.isNone) ++ ((groupNodes (·.slot) ns).map (·.2)).flatten).Perm ns
      rw [← List.flatMap_def]
      exact hgroups.perm_append
    · intro p hp
      rcases List.mem_cons.1 hp with rfl | hp
      · exact List.filter_sublist
      · exact (group_alike hp).1
    · simp only [List.forall_mem_singleton]
      intro p hp
      rcases List.mem_cons.1 hp with rfl | hp
      · intro a ha b hb
        have ha := Option.isNone_iff_eq_none.1 (List.mem_filter.1 ha).2
        have hb := Option.isNone_iff_eq_none.1 (List.mem_filter.1 hb).2
        exact ha.trans hb.symm
      · exact (group_alike hp).2

theorem flatten_flatMap_perm {parts : List (List Node)} {f : List Node → List (List Node)}
    (h : ∀ p ∈ parts, (f p).flatten.Perm p) : (parts.flatMap f).flatten.Perm parts.flatten := by
  rw [← List.flatMap_id, ← List.flatMap_id, List.flatMap_assoc]
  apply List.Perm.flatMap_left
  intro p hp
  rw [List.flatMap_id]
  exact h p hp

/-- Parts that are taken apart in their turn. -/
theorem Parted.refine {s : Split} {splits : List Split} {parts : List (List Node)} {f : List Node → List (List Node)}
    (h : Parted [s] ns parts) (hf : ∀ p ∈ parts, Parted splits p (f p)) :
    Parted (s :: splits) ns (parts.flatMap f) where
  all := (flatten_flatMap_perm fun p hp => (hf p hp).all).trans h.all
  inOrder q hq := by
    obtain ⟨p, hp, hqp⟩ := List.mem_flatMap.1 hq
    exact ((hf p hp).inOrder q hqp).trans (h.inOrder p hp)
  alike q hq t ht a ha b hb := by
    obtain ⟨p, hp, hqp⟩ := List.mem_flatMap.1 hq
    rcases List.mem_cons.1 ht with rfl | ht
    · have hsub := ((hf p hp).inOrder q hqp).subset
      exact h.alike p hp t List.mem_cons_self a (hsub ha) b (hsub hb)
    · exact (hf p hp).alike q hqp t ht a ha b hb

theorem nestedParts_parted (splits : List Split) (ns : List Node) : Parted splits ns (nestedParts splits ns) := by
  induction splits generalizing ns with
  | nil =>
    constructor
    · simp [nestedParts]
    · simp [nestedParts]
    · intro p hp s hs
      cases hs
  | cons s rest ih => exact (s.parts_parted ns).refine fun p _ => ih p

/-! ### Views along paths -/

/-- What a path leads to from a list of nodes: some of the nodes in their order, groups of such, a number of nodes, or
nothing. -/
inductive Within (w : World) (ns : List Node) : Value → Prop
  | nodes {m : NodeListId} : (w.store.nodeList m).Sublist ns → Within w ns (.nodes m)
  | groups {o : ObjectId} : (∀ e ∈ w.store.object o, ∃ m, e.2 = .nodes m ∧ (w.store.nodeList m).Sublist ns) →
      Within w ns (.object o)
  | size (k : Int) : Within w ns (.int k)
  | nothing {v : Value} : v.isNull = true → Within w ns v

theorem ShowsNodes.within {ms : List Node} (h : ShowsNodes w ms v) (hsub : ms.Sublist ns) : Within w ns v := by
  obtain ⟨m, rfl, -, rfl⟩ := h
  exact .nodes hsub

theorem within_of_groups {key : Node → Option String} {groups : List (String × List Node)} {ms : List Node}
    {o : ObjectId} (hall : List.Forall₂ (ShowsGroup w) groups (w.store.object o)) (hgroups : GroupedBy key ms groups)
    (hsub : ms.Sublist ns) : Within w ns (.object o) := by
  apply Within.groups
  intro e he
  obtain ⟨g, hg, -, m, hm, -, hnodes⟩ := exists_of_forall₂ hall.flip he
  exact ⟨m, hm, hnodes ▸ (hgroups.sublist hg).trans hsub⟩

theorem Within.not_handle (h : Within w ns v) (x : HandleId) : v ≠ .handle x := by
  rintro rfl
  cases h with
  | nothing hv => cases hv

theorem fieldOf_within {m : NodeListId} (h : (w.store.nodeList m).Sublist ns) (key : String) :
    ∃ u w₁, fieldOf (.nodes m) key w = .ok u w₁ ∧ w.Grown w₁ ∧ Within w₁ ns u := by
  have fresh {ms : List Node} (hms : ms.Sublist (w.store.nodeList m)) :
      ∃ u w₁, Exec.newNodes ms w = .ok u w₁ ∧ w.Grown w₁ ∧ Within w₁ ns u :=
    ⟨_, _, newNodes_run ms w, grown_withNodes w ms, (withNodes_shows w ms).within (hms.trans h)⟩
  have grouped (group : Node → Option String) :
      ∃ u w₁, nodeGroups (groupNodes group (w.store.nodeList m)) w = .ok u w₁ ∧ w.Grown w₁ ∧ Within w₁ ns u := by
    obtain ⟨o, w₁, hrun, hgrown, hall⟩ := nodeGroups_run (groupNodes group (w.store.nodeList m)) w
    exact ⟨_, w₁, hrun, hgrown, within_of_groups hall (groupNodes_groupedBy group _) h⟩
  unfold fieldOf
  dsimp only
  rw [Exec.store_bind]
  split
  · exact ⟨_, w, rfl, .refl w, .nodes h⟩
  · exact fresh (List.take_sublist 1 _)
  · exact fresh List.filter_sublist
  · exact ⟨_, w, rfl, .refl w, .size _⟩
  · exact grouped _
  · exact grouped _
  · exact ⟨_, w, rfl, .refl w, .nothing rfl⟩

/-- The entry of an object of groups under a key, or what stands for one that is missing. -/
theorem within_entry {o : ObjectId} {missing : Value}
    (hall : ∀ e ∈ w.store.object o, ∃ m, e.2 = .nodes m ∧ (w.store.nodeList m).Sublist ns)
    (hmissing : missing.isNull = true) (k : Key) :
    Within w ns ((Entries.get? k (w.store.object o)).getD missing) := by
  cases hu : Entries.get? k (w.store.object o) with
  | none => exact .nothing hmissing
  | some u =>
    obtain ⟨l, -, hmem⟩ := Entries.exists_mem_of_get? hu
    obtain ⟨m, rfl, hsub⟩ := hall _ hmem
    exact .nodes hsub

variable {read : HandleId → Exec Value} {limits : Limits}

/-- A key keeps to the nodes of the list. -/
theorem stepKey_within (h : Within w ns v) {key : String} {markAbsent : Bool}
    (hrun : stepKey read limits v key markAbsent w = .ok u w₁) : w.Grown w₁ ∧ Within w₁ ns u := by
  have hmissing : (if markAbsent then Value.absent else .null).isNull = true := by cases markAbsent <;> rfl
  unfold stepKey at hrun
  rw [follow_of_not_handle read _ v h.not_handle] at hrun
  cases h with
  | nodes hsub =>
    obtain ⟨u', w', hread, hgrown, hwithin⟩ := fieldOf_within hsub key
    cases hread.symm.trans hrun
    exact ⟨hgrown, hwithin⟩
  | groups hall =>
    cases hrun
    exact ⟨.refl _, within_entry hall hmissing _⟩
  | size k => cases hrun
  | nothing hv =>
    cases v <;> cases hv
    · cases hrun
      exact ⟨.refl _, .nothing hmissing⟩
    · cases hrun
      exact ⟨.refl _, .nothing hmissing⟩

/-- An index leads to nothing. -/
theorem stepIndex_within (h : Within w ns v) {i : Int} (hrun : stepIndex read limits v i w = .ok u w₁) :
    w.Grown w₁ ∧ Within w₁ ns u := by
  unfold stepIndex at hrun
  rw [follow_of_not_handle read _ v h.not_handle] at hrun
  cases h with
  | nodes hsub =>
    cases hrun
    exact ⟨.refl w, .nothing rfl⟩
  | groups hall => cases hrun
  | size k => cases hrun
  | nothing hv =>
    cases v <;> cases hv
    · cases hrun
      exact ⟨.refl w, .nothing rfl⟩
    · cases hrun
      exact ⟨.refl w, .nothing rfl⟩

/-- A path keeps to the nodes of the list. -/
theorem walk_within {text : String} {markAbsent : Bool} {parts : List Part} (h : Within w ns v)
    (hrun : walk read limits text markAbsent parts v w = .ok u w₁) : w.Grown w₁ ∧ Within w₁ ns u := by
  induction parts generalizing w v markAbsent with
  | nil =>
    cases hrun
    exact ⟨.refl _, h⟩
  | cons part rest ih =>
    have onward {x : Exec Value} (hx : ∀ {next w'}, x w = .ok next w' → w.Grown w' ∧ Within w' ns next)
        (hrun : (x >>= walk read limits text false rest) w = .ok u w₁) : w.Grown w₁ ∧ Within w₁ ns u := by
      obtain ⟨next, w', hstep, hrest⟩ := Exec.bind_eq_ok hrun
      obtain ⟨hgrown, hnext⟩ := hx hstep
      obtain ⟨hgrown', hwithin⟩ := ih hnext hrest
      exact ⟨hgrown.trans hgrown', hwithin⟩
    unfold walk at hrun
    cases part with
    | index i => exact onward (stepIndex_within h) hrun
    | key k => exact onward (stepKey_within h) hrun
    | _ => cases hrun

/-- The views of a list of nodes take it apart: its groups by tag hold each of its nodes once, and so do the nodes
without a slot together with its groups by slot. Each list that a path leads to from it has some of its nodes, in
their order, and is taken apart by its own views. However deep views are nested, together they hold each node once,
and a view has nodes that are alike in all by which they have been taken apart. -/
theorem every_node_is_in_one_view (read : HandleId → Exec Value) (limits : Limits) (w : World) (n : NodeListId) :
    TakenApart read limits w n ∧
      (∀ text markAbsent parts m w₁, walk read limits text markAbsent parts (.nodes n) w = .ok (.nodes m) w₁ →
        w.Grown w₁ ∧ (w₁.store.nodeList m).Sublist (w.store.nodeList n) ∧ TakenApart read limits w₁ m) ∧
      ∀ splits, ∃ (ms : List NodeListId) (w₁ : World),
        nestedViews read limits splits (.nodes n) w = .ok (ms.map .nodes) w₁ ∧ w.Grown w₁ ∧
          Parted splits (w.store.nodeList n) (ms.map w₁.store.nodeList) := by
  refine ⟨takenApart read limits w n, ?_, ?_⟩
  · intro text markAbsent parts m w₁ hrun
    obtain ⟨hgrown, hwithin⟩ := walk_within (.nodes (List.Sublist.refl _)) hrun
    refine ⟨hgrown, ?_, takenApart read limits w₁ m⟩
    cases hwithin with
    | nodes hsub => exact hsub
    | nothing hv => cases hv
  · intro splits
    obtain ⟨ms, w₁, hrun, hgrown, hparts⟩ := nestedViews_run read limits splits n w
    refine ⟨ms, w₁, hrun, hgrown, ?_⟩
    rw [hparts]
    exact nestedParts_parted splits _

/-- Of three nodes two are called `div`, and one of these has no slot: their group is taken apart in its turn. -/
theorem group_of_tag_is_taken_apart :
    let header : Node := { tag := "div", slot := some "header", id := "n1" }
    let plain : Node := { tag := "div", slot := none, id := "n3" }
    let w : World := { store := { nodeLists := #[[header, { tag := "span", slot := none, id := "n2" }, plain]] } }
    let read := (Engine.full .plain).access.read
    ∃ m w₁, walk read {} "" false [.key "bytag", .key "div"] (.nodes 0) w = .ok (.nodes m) w₁ ∧
      w₁.store.nodeList m = [header, plain] ∧ TakenApart read {} w₁ m := by
  intro header plain w read
  have hrun : walk read {} "" false [.key "bytag", .key "div"] (.nodes 0) w = .ok (.nodes 1) _ := rfl
  exact ⟨1, _, hrun, rfl, ((every_node_is_in_one_view read {} w 0).2.1 _ _ _ _ _ hrun).2.2⟩

end Path

end EventScript
