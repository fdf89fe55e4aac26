import EventScript.Store
import Mathlib.Data.List.Induction
import Mathlib.Data.List.Perm.Basic

/-!
# Groups of nodes

Nodes are grouped one after the other. A node joins the group of its key, begins a new one if there is none, or is
left out if it has no key. What holds of the groups after each node is `GroupedBy`: a group has just the nodes with
its key, in their order, the groups follow one another as their keys come up, and together they hold each node that
has a key once.
-/

namespace EventScript

/-- The place of the first node with a key. -/
def firstPlace (key : Node → Option String) (ns : List Node) (k : String) : Nat := ns.findIdx (key · == some k)

/-- The groups of a list of nodes by a key. -/
structure GroupedBy (key : Node → Option String) (ns : List Node) (groups : List (String × List Node)) : Prop where
  /-- There is a group for each key that a node has, and for no other. -/
  keys : ∀ k, k ∈ groups.map (·.1) ↔ ∃ n ∈ ns, key n = some k
  /-- A group has the nodes with its key, in the order of the list. -/
  own : ∀ g ∈ groups, g.2 = ns.filter (key · == some g.1)
  /-- Of two groups, that comes first whose key occurs first. -/
  order : (groups.map (·.1)).Pairwise fun k l => firstPlace key ns k < firstPlace key ns l
  /-- Together the groups hold each node that has a key once. -/
  all : (groups.flatMap (·.2)).Perm (ns.filter fun n => (key n).isSome)

/-! ### One node more -/

/-- A group with a node at its end if it is that of a key. -/
def joinGroup (k : String) (n : Node) (g : String × List Node) : String × List Node :=
  if g.1 == k then (g.1, g.2 ++ [n]) else g

/-- Groups with one node more. -/
def withNode (key : Node → Option String) (groups : List (String × List Node)) (n : Node) :
    List (String × List Node) :=
  match key n with
  | none => groups
  | some k => if groups.any (·.1 == k) then groups.map (joinGroup k n) else groups ++ [(k, [n])]

theorem groupNodes_concat (key : Node → Option String) (ns : List Node) (n : Node) :
    groupNodes key (ns ++ [n]) = withNode key (groupNodes key ns) n :=
  List.foldl_append

variable {key : Node → Option String} {ns : List Node} {groups : List (String × List Node)} {n : Node} {k : String}

@[simp] theorem joinGroup_fst (k : String) (n : Node) (g : String × List Node) : (joinGroup k n g).1 = g.1 := by
  unfold joinGroup
  split <;> rfl

theorem joinGroup_same (n : Node) (ms : List Node) : joinGroup k n (k, ms) = (k, ms ++ [n]) :=
  if_pos (beq_self_eq_true k)

theorem joinGroup_other (n : Node) {g : String × List Node} (h : g.1 ≠ k) : joinGroup k n g = g :=
  if_neg (by simpa using h)

theorem map_fst_joinGroup (k : String) (n : Node) (groups : List (String × List Node)) :
    (groups.map (joinGroup k n)).map (·.1) = groups.map (·.1) := by
  rw [List.map_map]
  apply List.map_congr_left
  intro g _
  exact joinGroup_fst k n g

/-- Where keys have one group each, a node joins just one. -/
theorem flatMap_joinGroup (n : Node) (hkeys : (groups.map (·.1)).Nodup) (hk : k ∈ groups.map (·.1)) :
    ((groups.map (joinGroup k n)).flatMap (·.2)).Perm (groups.flatMap (·.2) ++ [n]) := by
  induction groups with
  | nil => cases hk
  | cons g rest ih =>
    rw [List.map_cons, List.nodup_cons] at hkeys
    simp only [List.map_cons, List.flatMap_cons]
    by_cases hg : g.1 = k
    · -- No other group has this key, so the node is added here alone.
      have hrest : rest.map (joinGroup k n) = rest := by
        refine (List.map_congr_left ?_).trans (List.map_id rest)
        intro g' hg'
        apply joinGroup_other
        intro hg''
        exact hkeys.1 (List.mem_map.2 ⟨g', hg', hg''.trans hg.symm⟩)
      obtain ⟨l, ms⟩ := g
      subst hg
      rw [hrest, joinGroup_same, List.append_assoc, List.append_assoc]
      exact List.perm_append_comm.append_left ms
    · have hk' : k ∈ rest.map (·.1) := (List.mem_cons.1 hk).resolve_left (Ne.symm hg)
      rw [joinGroup_other n hg, List.append_assoc]
      exact (ih hkeys.2 hk').append_left g.2

/-! ### The place of a key -/

theorem firstPlace_lt (h : ∃ n ∈ ns, key n = some k) : firstPlace key ns k < ns.length := by
  apply List.findIdx_lt_length_of_exists
  simpa using h

theorem firstPlace_append (h : ∃ n ∈ ns, key n = some k) (more : List Node) :
    firstPlace key (ns ++ more) k = firstPlace key ns k :=
  (List.findIdx_append).trans (if_pos (firstPlace_lt h))

theorem firstPlace_concat (hn : key n = some k) (h : ¬∃ m ∈ ns, key m = some k) :
    firstPlace key (ns ++ [n]) k = ns.length := by
  have hnone : ¬ns.findIdx (key · == some k) < ns.length := by
    rw [List.findIdx_lt_length]
    simpa using h
  unfold firstPlace
  rw [List.findIdx_append, if_neg hnone, List.findIdx_singleton]
  simp [hn]

namespace GroupedBy

theorem nodup (h : GroupedBy key ns groups) : (groups.map (·.1)).Nodup := by
  apply h.order.imp
  rintro k l hlt rfl
  exact Nat.lt_irrefl _ hlt

theorem sublist (h : GroupedBy key ns groups) {g : String × List Node} (hg : g ∈ groups) : g.2.Sublist ns := by
  rw [h.own g hg]
  exact List.filter_sublist

theorem order_append (h : GroupedBy key ns groups) (more : List Node) :
    (groups.map (·.1)).Pairwise fun k l => firstPlace key (ns ++ more) k < firstPlace key (ns ++ more) l := by
  refine h.order.imp_of_mem fun {k l} hk hl hlt => ?_
  rwa [firstPlace_append ((h.keys k).1 hk), firstPlace_append ((h.keys l).1 hl)]

/-- A node without a key is left out. -/
theorem leaveOut (h : GroupedBy key ns groups) (hn : key n = none) : GroupedBy key (ns ++ [n]) groups where
  keys k := by
    rw [h.keys k]
    simp [or_and_right, exists_or, hn]
  own g hg := by
    rw [h.own g hg]
    simp [hn]
  order := h.order_append [n]
  all := by simpa [hn] using h.all

/-- A node joins the group of its key. -/
theorem join (h : GroupedBy key ns groups) (hn : key n = some k) (hk : k ∈ groups.map (·.1)) :
    GroupedBy key (ns ++ [n]) (groups.map (joinGroup k n)) where
  keys l := by
    rw [map_fst_joinGroup, h.keys l]
    constructor
    · rintro ⟨m, hm, hl⟩
      exact ⟨m, List.mem_append_left _ hm, hl⟩
    · rintro ⟨m, hm, hl⟩
      rcases List.mem_append.1 hm with hm | hm
      · exact ⟨m, hm, hl⟩
      · obtain rfl := List.mem_singleton.1 hm
        obtain rfl := Option.some.inj (hn.symm.trans hl)
        exact (h.keys k).1 hk
  own g' hg' := by
    obtain ⟨g, hg, rfl⟩ := List.mem_map.1 hg'
    have hown := h.own g hg
    rw [joinGroup_fst, List.filter_append, ← hown]
    by_cases hgk : g.1 = k
    · obtain ⟨l, ms⟩ := g
      subst hgk
      rw [joinGroup_same]
      simp [hn]
    · rw [joinGroup_other n hgk]
      simp [hn, Ne.symm hgk]
  order := by
    rw [map_fst_joinGroup]
    exact h.order_append [n]
  all := by
    refine (flatMap_joinGroup n h.nodup hk).trans ?_
    simpa [hn] using h.all.append_right [n]

/-- A node whose key is new begins a group. -/
theorem begins (h : GroupedBy key ns groups) (hn : key n = some k) (hk : k ∉ groups.map (·.1)) :
    GroupedBy key (ns ++ [n]) (groups ++ [(k, [n])]) where
  keys l := by
    simp only [List.map_append, List.mem_append, h.keys l]
    simp [or_and_right, exists_or, hn, eq_comm]
  own g hg := by
    rcases List.mem_append.1 hg with hg | hg
    · have hgk : g.1 ≠ k := fun hgk => hk (List.mem_map.2 ⟨g, hg, hgk⟩)
      rw [h.own g hg]
      simp [hn, Ne.symm hgk]
    · obtain rfl := List.mem_singleton.1 hg
      have hnone : ns.filter (key · == some k) = [] := by
        simpa [h.keys k] using hk
      rw [List.filter_append, hnone]
      simp [hn]
  order := by
    rw [List.map_append, List.pairwise_append]
    refine ⟨h.order_append [n], List.pairwise_singleton _ _, ?_⟩
    intro l hl k' hk'
    obtain rfl := List.mem_singleton.1 hk'
    have hl := (h.keys l).1 hl
    rw [firstPlace_append hl, firstPlace_concat hn (mt (h.keys _).2 hk)]
    exact firstPlace_lt hl
  all := by
    simpa [hn] using h.all.append_right [n]

theorem withNode (h : GroupedBy key ns groups) (n : Node) :
    GroupedBy key (ns ++ [n]) (withNode key groups n) := by
  unfold EventScript.withNode
  split
  next hn => exact h.leaveOut hn
  next k hn =>
    have hany : groups.any (·.1 == k) = true ↔ k ∈ groups.map (·.1) := by simp
    split
    next hk => exact h.join hn (hany.1 hk)
    next hk => exact h.begins hn (mt hany.2 hk)

end GroupedBy

/-! ### All nodes -/

theorem groupNodes_groupedBy (key : Node → Option String) (ns : List Node) :
    GroupedBy key ns (groupNodes key ns) := by
  induction ns using List.reverseRecOn with
  | nil => exact ⟨by simp [groupNodes], nofun, .nil, .nil⟩
  | append_singleton ns n ih =>
    rw [groupNodes_concat]
    exact ih.withNode n

theorem GroupedBy.perm_of_total (h : GroupedBy key ns groups) (htotal : ∀ n, (key n).isSome = true) :
    (groups.flatMap (·.2)).Perm ns := by
  have hall := h.all
  rwa [List.filter_eq_self.2 fun n _ => htotal n] at hall

theorem GroupedBy.perm_append (h : GroupedBy key ns groups) :
    (ns.filter (fun n => (key n).isNone) ++ groups.flatMap (·.2)).Perm ns := by
  refine (h.all.append_left _).trans ?_
  have hperm := List.filter_append_perm (fun n => (key n).isNone) ns
  simpa only [Option.not_isNone] using hperm

end EventScript
