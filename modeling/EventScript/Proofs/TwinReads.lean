import EventScript.Proofs.Trees

/-!
# Reading the same in two worlds

Following a path from a value gives the same in two worlds that agree on what the value contains. Only views of node
lists are made anew each time; they show the same nodes then.
-/

namespace EventScript

/-- Neither a container nor a handle. -/
def Value.isAtom : Value → Bool
  | .array _ | .object _ | .context _ | .blob _ | .handle _ => false
  | _ => true

namespace World

/-- Whether a node list or an error is the same in two worlds. -/
def SameRecord (w w' : World) : Value → Prop
  | .nodes n => w'.store.nodeList n = w.store.nodeList n
  | .error e => w'.store.error e = w.store.error e
  | _ => True

/-- A value without handles that contains the same in two worlds. -/
structure Stays (w w' : World) (v : Value) : Prop where
  plain : w.HandleFree v
  agrees : w.Agrees w' v
  records : ∀ y, w.Contains v y → w.SameRecord w' y

/-- A view of the nodes of a list in one world, and one in another that shows the same. -/
inductive SameNodes (w w' : World) : Value → Value → Prop
  | mk {n n' : NodeListId} : w'.store.nodeList n' = w.store.nodeList n → SameNodes w w' (.nodes n) (.nodes n')

/-- The same value in two worlds, or views of the same nodes, singly or in groups. -/
inductive Twin (w w' : World) : Value → Value → Prop
  | same {v} : w.Stays w' v → Twin w w' v v
  | nodes {v v'} : SameNodes w w' v v' → Twin w w' v v'
  | groups {o o'} :
    List.Forall₂ (fun e e' => e.1 = e'.1 ∧ SameNodes w w' e.2 e'.2) (w.store.object o) (w'.store.object o') →
      Twin w w' (.object o) (.object o')

variable {w w' : World} {v : Value}

theorem Stays.inside (h : w.Stays w' v) {u : Value} (hu : w.Contains v u) : w.Stays w' u where
  plain y hy := h.plain y (hu.trans hy)
  agrees := h.agrees.inside hu
  records y hy := h.records y (hu.trans hy)

theorem Stays.refl (h : w.HandleFree v) : w.Stays w v where
  plain := h
  agrees y _ := ⟨fun _ _ => ⟨rfl, fun _ _ => rfl⟩, fun x _ => .refl w x⟩
  records y _ := by cases y <;> first | rfl | trivial

/-- What is neither a container nor a handle stays, as a record if it is one. -/
theorem Stays.of_atom (hv : v.isAtom = true) (hr : w.SameRecord w' v) : w.Stays w' v := by
  have hc : ∀ c, v ≠ .context c := by
    rintro c rfl
    cases hv
  have hown : v.own? = none := by cases v <;> first | rfl | cases hv
  have hself : ∀ y, w.Contains v y → y = v := fun y hy => hy.eq_self fun s => by
    cases v <;> first | (cases s <;> rfl) | cases hv
  constructor
  · rintro y hy x rfl
    cases hself _ hy
    cases hv
  · intro y hy
    rw [hself y hy]
    refine ⟨fun c hvc => absurd hvc (hc c), fun x hx => ?_⟩
    rw [touched_of_not_context w hc, hown] at hx
    cases hx
  · intro y hy
    rw [hself y hy]
    exact hr

theorem Stays.null (w w' : World) : w.Stays w' .null := .of_atom rfl trivial

theorem Stays.next (h : w.Stays w' v) (part : Part) : w'.next v part = w.next v part ∧ w.Stays w' (w.next v part) := by
  constructor
  · exact next_of_slots h.agrees.slot? part
  · rcases w.next_slot v part with ⟨s, -, hs⟩ | hnull
    · exact h.inside (.step hs (.self w _))
    · rw [hnull]
      exact .null w w'

end World

namespace Path

open World

/-- Two outcomes of reading: twin values, or two failures. -/
def Alike (x y : EStateM.Result Fault World Value) : Prop :=
  match x, y with
  | .ok a w, .ok b w' => Twin w w' a b
  | .error _ _, .error _ _ => True
  | _, _ => False

variable {read read' : HandleId → Exec Value} {w w' : World}

theorem alike_bind {x y : Exec Value} {f g : Value → Exec Value} (h : Alike (x w) (y w'))
    (hf : ∀ {a b w₁ w₁'}, Twin w₁ w₁' a b → Alike (f a w₁) (g b w₁')) : Alike ((x >>= f) w) ((y >>= g) w') := by
  cases hx : x w with
  | ok a w₁ =>
    cases hy : y w' with
    | ok b w₁' =>
      rw [hx, hy] at h
      rw [Exec.bind_ok hx, Exec.bind_ok hy]
      exact hf h
    | error e w₁' =>
      rw [hx, hy] at h
      exact h.elim
  | error e w₁ =>
    cases hy : y w' with
    | ok b w₁' =>
      rw [hx, hy] at h
      exact h.elim
    | error e' w₁' =>
      rw [Exec.bind_error hx, Exec.bind_error hy]
      trivial

/-! ### Views of nodes -/

/-- An entry that shows a group of nodes. -/
def ShowsGroup (w : World) (g : String × List Node) (e : Key × Value) : Prop :=
  e.1 = .str g.1 ∧ ∃ n, e.2 = .nodes n ∧ n < w.store.nodeLists.size ∧ w.store.nodeList n = g.2

/-- A view has been made for each group of nodes. -/
theorem groups_run (groups : List (String × List Node)) (w : World) :
    ∃ es w₁, (groups.mapM fun g : String × List Node => do return (Key.str g.1, ← Exec.newNodes g.2)) w = .ok es w₁ ∧
      w.Grown w₁ ∧ List.Forall₂ (ShowsGroup w₁) groups es := by
  induction groups generalizing w with
  | nil => exact ⟨[], w, rfl, .refl w, .nil⟩
  | cons g rest ih =>
    obtain ⟨es, w₂, hrun, hgrown, hall⟩ := ih { w with store := (w.store.newNodeList g.2).2 }
    have hlt : w.store.nodeLists.size < (w.store.newNodeList g.2).2.nodeLists.size := by simp [Store.newNodeList]
    refine ⟨(.str g.1, .nodes w.store.nodeLists.size) :: es, w₂, ?_, ?_, .cons ⟨rfl, _, rfl, ?_, ?_⟩ hall⟩
    · rw [List.mapM_cons]
      exact Exec.bind_ok hrun
    · exact (World.Grown.ofStore (.newNodeList w.store g.2)).trans hgrown
    · exact Nat.lt_of_lt_of_le hlt (size_le_of_begins hgrown.store.nodeLists)
    · exact (getD_of_begins hgrown.store.nodeLists hlt []).trans (getD_push_size _ _ _)

theorem sameNodes_of_groups {groups : List (String × List Node)} {es es' : Entries Value}
    (h : List.Forall₂ (ShowsGroup w) groups es) (h' : List.Forall₂ (ShowsGroup w') groups es') :
    List.Forall₂ (fun e e' => e.1 = e'.1 ∧ SameNodes w w' e.2 e'.2) es es' := by
  induction h generalizing es' with
  | nil =>
    cases h'
    exact .nil
  | cons hg _ ih =>
    cases h' with
    | cons hg' hrest =>
      obtain ⟨hk, n, hn, -, hns⟩ := hg
      obtain ⟨hk', n', hn', -, hns'⟩ := hg'
      refine .cons ⟨hk.trans hk'.symm, ?_⟩ (ih hrest)
      rw [hn, hn']
      exact .mk (hns'.trans hns.symm)

/-- Groups are shown in a new object. -/
theorem nodeGroups_run (groups : List (String × List Node)) (w : World) :
    ∃ o w₁, nodeGroups groups w = .ok (.object o) w₁ ∧ w.Grown w₁ ∧
      List.Forall₂ (ShowsGroup w₁) groups (w₁.store.object o) := by
  obtain ⟨es, w₁, hrun, hgrown, hall⟩ := groups_run groups w
  have hes : (w₁.store.newObject es).2.object w₁.store.objects.size = es := getD_push_size _ _ _
  refine ⟨w₁.store.objects.size, { w₁ with store := (w₁.store.newObject es).2 }, Exec.bind_ok hrun,
    hgrown.trans (.ofStore (.newObject w₁.store es)), ?_⟩
  change List.Forall₂ _ groups ((w₁.store.newObject es).2.object w₁.store.objects.size)
  rw [hes]
  exact hall

theorem nodeGroups_alike (groups : List (String × List Node)) (w w' : World) :
    Alike (nodeGroups groups w) (nodeGroups groups w') := by
  obtain ⟨o, w₁, hrun, -, hall⟩ := nodeGroups_run groups w
  obtain ⟨o', w₁', hrun', -, hall'⟩ := nodeGroups_run groups w'
  rw [hrun, hrun']
  exact Twin.groups (sameNodes_of_groups hall hall')

/-- The fields of lists of the same nodes are twins. -/
theorem fieldOf_nodes_alike {n n' : NodeListId} (h : w'.store.nodeList n' = w.store.nodeList n) (key : String) :
    Alike (fieldOf (.nodes n) key w) (fieldOf (.nodes n') key w') := by
  have fresh (ns : List Node) : Alike (Exec.newNodes ns w) (Exec.newNodes ns w') := by
    have hns : (w.store.newNodeList ns).2.nodeList w.store.nodeLists.size = ns := getD_push_size _ _ _
    have hns' : (w'.store.newNodeList ns).2.nodeList w'.store.nodeLists.size = ns := getD_push_size _ _ _
    exact Twin.nodes (.mk (hns'.trans hns.symm))
  unfold fieldOf
  dsimp only
  rw [Exec.store_bind, Exec.store_bind, h]
  split
  · exact Twin.nodes (.mk h)
  · exact fresh _
  · exact fresh _
  · exact Twin.same (.of_atom rfl trivial)
  · exact nodeGroups_alike _ w w'
  · exact nodeGroups_alike _ w w'
  · exact Twin.same (.null w w')

theorem fieldOf_alike {v : Value} (h : w.SameRecord w' v) (key : String) :
    Alike (fieldOf v key w) (fieldOf v key w') := by
  have atom {v : Value} (hv : v.isAtom = true) (hr : w.SameRecord w' v) : Alike (.ok v w) (.ok v w') :=
    Twin.same (.of_atom hv hr)
  cases v with
  | nodes n => exact fieldOf_nodes_alike h key
  | error e =>
    unfold fieldOf
    dsimp only
    rw [Exec.store_bind, Exec.store_bind, show w'.store.error e = w.store.error e from h]
    split
    · exact atom rfl trivial
    · exact atom rfl trivial
    · cases (w.store.error e).event <;> exact atom rfl trivial
    · cases (w.store.error e).cause <;> exact atom rfl trivial
    · exact atom rfl trivial
  | _ => exact atom rfl trivial

/-! ### Steps -/

theorem stepIndex_alike {a b : Value} (h : Twin w w' a b) (limits limits' : Limits) (i : Int) :
    Alike (stepIndex read limits a i w) (stepIndex read' limits' b i w') := by
  have null : Alike (.ok .null w) (.ok .null w') := Twin.same (.null w w')
  cases h with
  | same hs =>
    unfold stepIndex
    have hh := hs.plain a (.self w a)
    rw [follow_of_not_handle read _ a hh, follow_of_not_handle read' _ a hh]
    cases a with
    | array x =>
      change Alike ((if i < 0 then _ else _ : Exec Value) w) ((if i < 0 then _ else _ : Exec Value) w')
      split
      · trivial
      · have hn := hs.next (.index i)
        change Alike (.ok (w.next (.array x) (.index i)) w) (.ok (w'.next (.array x) (.index i)) w')
        rw [hn.1]
        exact Twin.same hn.2
    | handle x => exact absurd rfl (hh x)
    | object o => trivial
    | context c => trivial
    | bool b => trivial
    | num n => trivial
    | str s => trivial
    | _ => exact null
  | nodes hn =>
    cases hn
    unfold stepIndex
    rw [follow_of_not_handle read _ (.nodes _) (by simp), follow_of_not_handle read' _ (.nodes _) (by simp)]
    exact null
  | groups hg =>
    unfold stepIndex
    rw [follow_of_not_handle read _ (.object _) (by simp), follow_of_not_handle read' _ (.object _) (by simp)]
    trivial

/-- The entries of groups of the same nodes are twins. -/
theorem groups_get_alike {es es' : Entries Value}
    (h : List.Forall₂ (fun e e' => e.1 = e'.1 ∧ SameNodes w w' e.2 e'.2) es es') (k : Key) :
    Twin w w' ((Entries.get? k es).getD .null) ((Entries.get? k es').getD .null) := by
  induction h with
  | nil => exact .same (.null w w')
  | @cons e e' es es' he _ ih =>
    obtain ⟨l, u⟩ := e
    obtain ⟨l', u'⟩ := e'
    obtain ⟨hk, hn⟩ := he
    obtain rfl : l = l' := hk
    unfold Entries.get?
    split
    · exact .nodes hn
    · exact ih

theorem stepKey_nodes (n : NodeListId) (limits : Limits) (key : String) (markAbsent : Bool) :
    stepKey read limits (.nodes n) key markAbsent = fieldOf (.nodes n) key := by
  unfold stepKey
  rw [follow_of_not_handle read _ (.nodes n) nofun]
  rfl

theorem stepKey_alike {a b : Value} (h : Twin w w' a b) (limits limits' : Limits) (k : String) :
    Alike (stepKey read limits a k false w) (stepKey read' limits' b k false w') := by
  cases h with
  | same hs =>
    have hh := hs.plain a (.self w a)
    have hn := hs.next (.key k)
    have hentry : Alike (.ok (w.next a (.key k)) w) (.ok (w'.next a (.key k)) w') := by
      rw [hn.1]
      exact Twin.same hn.2
    have hr := hs.records a (.self w a)
    unfold stepKey
    rw [follow_of_not_handle read _ a hh, follow_of_not_handle read' _ a hh]
    cases a with
    | null => exact hentry
    | absent => exact hentry
    | object o => exact hentry
    | context c => exact hentry
    | handle x => exact absurd rfl (hh x)
    | array x => trivial
    | bool b => trivial
    | num n => trivial
    | str s => trivial
    | _ => exact fieldOf_alike hr k
  | nodes hn =>
    obtain ⟨hn⟩ := hn
    rw [stepKey_nodes, stepKey_nodes]
    exact fieldOf_nodes_alike hn k
  | groups hg =>
    unfold stepKey
    rw [follow_of_not_handle read _ (.object _) (by simp), follow_of_not_handle read' _ (.object _) (by simp)]
    exact groups_get_alike hg (.str k)

theorem not_handle_of_twin {a b : Value} (h : Twin w w' a b) (x : HandleId) : a ≠ .handle x := by
  cases h with
  | same hs => exact hs.plain a (.self w a) x
  | nodes hn =>
    cases hn
    simp
  | groups hg => simp

theorem walk_alike {a b : Value} (h : Twin w w' a b) (limits limits' : Limits) (text : String) (parts : List Part) :
    Alike (walk read limits text false parts a w) (walk read' limits' text false parts b w') := by
  induction parts generalizing a b w w' with
  | nil => exact h
  | cons part rest ih =>
    unfold walk
    cases part with
    | index i => exact alike_bind (stepIndex_alike h limits limits' i) ih
    | key k => exact alike_bind (stepKey_alike h limits limits' k) ih
    | _ => trivial

/-- Where no handle is met, it does not matter how handles are read. -/
theorem walk_access {a : Value} (h : Twin w w a a) (limits : Limits) (text : String) (parts : List Part) :
    walk read limits text false parts a w = walk read' limits text false parts a w := by
  induction parts generalizing a w with
  | nil => rfl
  | cons part rest ih =>
    have onward {x x' : Exec Value} (hx : x w = x' w) (halike : Alike (x w) (x w)) :
        (x >>= walk read limits text false rest) w = (x' >>= walk read' limits text false rest) w := by
      cases hrun : x w with
      | ok u w₁ =>
        rw [hrun] at halike
        rw [Exec.bind_ok hrun, Exec.bind_ok (hx.symm.trans hrun)]
        exact ih halike
      | error e w₁ => rw [Exec.bind_error hrun, Exec.bind_error (hx.symm.trans hrun)]
    have hfollow : follow read limits.handleDepth a = follow read' limits.handleDepth a := by
      rw [follow_of_not_handle read _ a (not_handle_of_twin h), follow_of_not_handle read' _ a (not_handle_of_twin h)]
    unfold walk
    cases part with
    | index i => exact onward (by simp only [stepIndex, hfollow]) (stepIndex_alike h limits limits i)
    | key k => exact onward (by simp only [stepKey, hfollow]) (stepKey_alike h limits limits k)
    | _ => rfl

end Path

end EventScript
