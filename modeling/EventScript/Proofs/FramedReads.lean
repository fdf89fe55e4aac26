import EventScript.Proofs.TwinReads

/-!
# Reading beside a write

A write along one path is not seen through another that parts from it, as long as the values at the root are a tree.
The exception is null on the way of both: the write puts a container there, which may be of the wrong kind for the
other path.
-/

namespace EventScript

/-- One part is an index and the other a key. -/
def Part.Unlike : Part → Part → Prop
  | .index _, .key _ | .key _, .index _ => True
  | _, _ => False

namespace World

variable {w w' : World} {v cur new : Value}

/-- Parts that differ and that both open a container name different slots of it. -/
theorem Opens.slot?_ne {part other : Part} (hp : Opens v part) (ho : Opens v other) (hv : v.isNull = false)
    (hne : part ≠ other) : ∃ s, other.slot? = some s ∧ part.slot? ≠ some s := by
  have hnot : ¬v.isNull = true := by simp [hv]
  cases part with
  | index i =>
    obtain ⟨⟨a, rfl⟩, hi⟩ := hp.resolve_left hnot
    cases other with
    | index j =>
      have hj := (ho.resolve_left hnot).2
      refine ⟨_, rfl, fun h => hne ?_⟩
      have hij : i.toNat = j.toNat := by simpa [Part.slot?] using h
      exact congrArg Part.index (by omega)
    | key l => cases ho.resolve_left hnot
    | _ => exact ho.elim
  | key k =>
    have hk := hp.resolve_left hnot
    cases other with
    | index j =>
      obtain ⟨⟨a, rfl⟩, -⟩ := ho.resolve_left hnot
      cases hk
    | key l => exact ⟨_, rfl, fun h => hne (by simpa [Part.slot?] using h)⟩
    | _ => exact ho.elim
  | _ => exact hp.elim

end World

namespace Path

open World

variable {read : HandleId → Exec Value} {w w' : World}

theorem not_handle_of_opens {v : Value} {part : Part} (hp : Opens v part) (h : HandleId) : v ≠ .handle h := by
  rintro rfl
  cases part with
  | index i =>
    rcases hp with hp | ⟨⟨a, ha⟩, -⟩
    · cases hp
    · cases ha
  | key k => rcases hp with hp | hp <;> cases hp
  | _ => exact hp.elim

theorem walk_step (limits : Limits) (text : String) {part : Part} {v : Value} (ho : Opens v part) (rest : List Part) :
    walk read limits text false (part :: rest) v w = walk read limits text false rest (w.next v part) w := by
  have hv := not_handle_of_opens ho
  cases part with
  | index i => exact Exec.bind_ok (stepIndex_next limits ho hv)
  | key k => exact Exec.bind_ok (stepKey_next limits ho hv)
  | _ => exact ho.elim

theorem walk_unopened (limits : Limits) (text : String) {part : Part} (hp : ¬Opens .null part) (rest : List Part)
    (v : Value) : ∃ e, walk read limits text false (part :: rest) v w = .error e w := by
  cases part with
  | index i => exact absurd (.inl rfl) hp
  | key k => exact absurd (.inl rfl) hp
  | _ => exact ⟨_, rfl⟩

/-- A path from null leads to null, unless a part of it is none that a path may have. -/
theorem walk_null (limits : Limits) (text : String) (parts : List Part) :
    walk read limits text false parts .null w = .ok .null w ∨
      ∃ e, walk read limits text false parts .null w = .error e w := by
  induction parts with
  | nil => exact .inl rfl
  | cons part rest ih =>
    by_cases ho : Opens .null part
    · rw [walk_step limits text ho, next_of_isNull w rfl]
      exact ih
    · exact .inr (walk_unopened limits text ho rest .null)

/-- A container that opens for one part and not for another cannot be followed along the other. -/
theorem walk_shut (limits : Limits) (text : String) {v : Value} {part other : Part} (hv : v.isNull = false)
    (hp : Opens v part) (hother : Opens .null other) (ho : ¬Opens v other) (rest : List Part) :
    ∃ f : Fault, f.RefusesAt [other] ∧ walk read limits text false (other :: rest) v w = .error f w := by
  have hnot : ¬v.isNull = true := by simp [hv]
  have hh := not_handle_of_opens hp
  cases other with
  | index j =>
    have hstep : ∃ f : Fault, f.RefusesAt [.index j] ∧ stepIndex read limits v j w = .error f w := by
      unfold stepIndex
      rw [follow_of_not_handle read _ v hh]
      cases part with
      | index i =>
        obtain ⟨⟨a, rfl⟩, -⟩ := hp.resolve_left hnot
        have hj : j < 0 := by
          by_contra hj
          exact ho (.inr ⟨⟨a, rfl⟩, by omega⟩)
        refine ⟨.refusal (.badIndex j), .of_index List.mem_cons_self rfl, ?_⟩
        change (if j < 0 then _ else _ : Exec Value) w = _
        rw [if_pos hj]
        rfl
      | key k =>
        have hk := hp.resolve_left hnot
        refine ⟨.refusal (.indexOf j v.kind), .of_index List.mem_cons_self rfl, ?_⟩
        cases v with
        | object o => rfl
        | context c => rfl
        | _ => cases hk
      | _ => exact hp.elim
    obtain ⟨f, hf, hfail⟩ := hstep
    exact ⟨f, hf, Exec.bind_error hfail⟩
  | key l =>
    have hstep : ∃ f : Fault, f.RefusesAt [.key l] ∧ stepKey read limits v l false w = .error f w := by
      unfold stepKey
      rw [follow_of_not_handle read _ v hh]
      cases part with
      | index i =>
        obtain ⟨⟨a, rfl⟩, -⟩ := hp.resolve_left hnot
        exact ⟨_, .unresolved _, rfl⟩
      | key k => exact absurd (.inr (hp.resolve_left hnot)) ho
      | _ => exact hp.elim
    obtain ⟨f, hf, hfail⟩ := hstep
    exact ⟨f, hf, Exec.bind_error hfail⟩
  | _ => exact hother.elim

/-- Parts that are read and of which one opens a container and the other does not are unlike. -/
theorem unlike_of_opens {v : Value} {part other : Part} (hp : Opens v part) (ho : ¬Opens v other)
    (hv : v.isNull = false) (hi : ∀ i, other = .index i → 0 ≤ i) (hother : Opens .null other) : part.Unlike other := by
  have hnot : ¬v.isNull = true := by simp [hv]
  cases other with
  | index j =>
    cases part with
    | index i => exact absurd (.inr ⟨(hp.resolve_left hnot).1, hi j rfl⟩) ho
    | key k => trivial
    | _ => exact hp.elim
  | key l =>
    cases part with
    | index i => trivial
    | key k => exact absurd (.inr (hp.resolve_left hnot)) ho
    | _ => exact hp.elim
  | _ => exact hother.elim

/-- Reading beside a write comes to the same, unless the write has put a container of the wrong kind in the place of
null. -/
theorem walk_beside {limits limits' : Limits} {text : String} {front rest : List Part} {part other : Part}
    (rest' : List Part) {cur new : Value} (hg : w.Grafted w' (front ++ part :: rest) cur new)
    (hstay : ∀ s u, part.slot? ≠ some s → w.slot? (w.target front cur) s = some u → w.Stays w' u)
    (hne : part ≠ other) (hi : ∀ i, other = .index i → 0 ≤ i) :
    Alike (walk read limits text false (front ++ other :: rest') cur w)
        (walk read limits' text false (front ++ other :: rest') new w') ∨
      (w.target front cur).isNull = true ∧ part.Unlike other ∧
        walk read limits text false (front ++ other :: rest') cur w = .ok .null w ∧
        ∃ f : Fault, f.RefusesAt [other] ∧
          walk read limits' text false (front ++ other :: rest') new w' = .error f w' := by
  induction front generalizing cur new with
  | nil =>
    obtain ⟨hat, -⟩ := hg
    rw [List.nil_append]
    by_cases hother : Opens .null other
    · by_cases ho : Opens new other
      · -- Both lead on to the same.
        obtain ⟨s, hs, hps⟩ := hat.lands.2.slot?_ne ho hat.lands.1 hne
        have ho' : Opens cur other := by
          by_cases hn : cur.isNull = true
          · cases other <;> first | exact .inl hn | exact ho.elim
          · rwa [← hat.same (by simpa using hn)]
        refine .inl ?_
        rw [walk_step limits text ho', walk_step limits' text ho, hat.next_other hs hps]
        refine walk_alike (.same ?_) limits limits' text rest'
        rw [w.next_eq_slot cur hs]
        cases hu : w.slot? cur s with
        | none => exact .null w w'
        | some u => exact hstay s u hps hu
      · obtain ⟨f, hf, hafter⟩ : ∃ f : Fault, f.RefusesAt [other] ∧
            walk read limits' text false (other :: rest') new w' = .error f w' :=
          walk_shut limits' text hat.lands.1 hat.lands.2 hother ho rest'
        rw [hafter]
        by_cases hn : cur.isNull = true
        · have ho' : Opens cur other := by cases other <;> first | exact .inl hn | exact hother
          rw [walk_step limits text ho', next_of_isNull w hn]
          rcases walk_null limits text rest' with hbefore | ⟨e, hbefore⟩
          · rw [hbefore]
            exact .inr ⟨hn, unlike_of_opens hat.lands.2 ho hat.lands.1 hi hother, rfl, f, hf, rfl⟩
          · rw [hbefore]
            exact .inl trivial
        · have hn : cur.isNull = false := by simpa using hn
          rw [hat.same hn] at ho
          obtain ⟨f', -, hbefore⟩ : ∃ f : Fault, f.RefusesAt [other] ∧
              walk read limits text false (other :: rest') cur w = .error f w :=
            walk_shut limits text hn hat.opens hother ho rest'
          rw [hbefore]
          exact .inl trivial
    · obtain ⟨e, hbefore⟩ : ∃ e, walk read limits text false (other :: rest') cur w = .error e w :=
        walk_unopened limits text hother rest' cur
      obtain ⟨e', hafter⟩ : ∃ e', walk read limits' text false (other :: rest') new w' = .error e' w' :=
        walk_unopened limits' text hother rest' new
      rw [hbefore, hafter]
      exact .inl trivial
  | cons first front ih =>
    obtain ⟨hat, hrest⟩ := hg
    rw [List.cons_append, walk_step limits text hat.opens, walk_step limits' text hat.lands.2]
    exact ih hrest hstay

end Path

namespace World

/-- All node lists and errors are kept. -/
structure KeepsRecords (w w' : World) : Prop where
  nodeLists : w.store.nodeLists.toList <+: w'.store.nodeLists.toList
  errors : w.store.errors.toList <+: w'.store.errors.toList

instance : OverlooksWrites KeepsRecords where
  trans h k := ⟨h.nodeLists.trans k.nodeLists, h.errors.trans k.errors⟩
  grown h := ⟨h.store.nodeLists, h.store.errors⟩
  written _ _ _ _ _ _ := ⟨List.prefix_refl _, List.prefix_refl _⟩

/-- The node lists and errors in a value are there. -/
structure Recorded (w : World) (v : Value) : Prop where
  nodes : ∀ n, w.Contains v (.nodes n) → n < w.store.nodeLists.size
  errors : ∀ e, w.Contains v (.error e) → e < w.store.errors.size

variable {w w₁ w₂ : World} {v cur : Value}

theorem Recorded.same (h : w.Recorded v) (hk : w.KeepsRecords w₁) {y : Value} (hy : w.Contains v y) :
    w.SameRecord w₁ y := by
  cases y with
  | nodes n => exact getD_of_begins hk.nodeLists (h.nodes n hy) _
  | error e => exact getD_of_begins hk.errors (h.errors e hy) _
  | _ => trivial

/-- What lies beside the path of a write through a tree stays. -/
theorem stays_beside {R : Place → Prop} {front rest : List Part} {part : Part} (hgrown : w.Grown w₁)
    (ht : w.Tree (fun _ => False) cur) (hf : w.HandleFree cur) (hr : w.Recorded cur) (hw : w₁.Spares R w₂)
    (hR : ∀ x, w₁.OffTrail (front ++ part :: rest) cur x → (∀ c, x ≠ .cell c) → R x) (hk : w₁.KeepsRecords w₂)
    {s : Slot} {u : Value} (hs : part.slot? ≠ some s) (hu : w.slot? (w.target front cur) s = some u) :
    w.Stays w₂ u := by
  have hspares : w.Spares (fun _ => True) w₁ := Tolerates.grown hgrown
  have hagrees := hspares.agrees ht.whole fun _ _ => trivial
  have ht₁ := ht.spared hspares fun _ _ => trivial
  have hin := contains_of_slot? hu
  have hau := hagrees.inside hin
  have hu₁ : w₁.slot? (w₁.target front cur) s = some u := (hagrees.slot?_target front s).trans hu
  constructor
  · exact fun y hy => hf y (hin.trans hy)
  · refine hau.trans (hw.agrees (ht₁.whole.inside (hagrees.contains.mpr hin)) fun x hx => hR x ?_ ?_)
    · exact ht₁.off_trail ((hagrees.handleFree hf).firm (fun _ _ => id) _) hs hu₁ hx
    · rintro c rfl
      exact w₁.not_holds_cell u c hx
  · exact fun y hy => hr.same (Tolerates.trans (Tolerates.grown hgrown) hk) (hin.trans hy)

end World

/-- The first of two paths has put a container for itself in the place of null where they part, and the other path needs
one of the other kind. -/
def Path.Blocks (w w' : World) (p q : List Part) (cur new : Value) : Prop :=
  ∃ front part rest other rest', p = front ++ part :: rest ∧ q = front ++ other :: rest' ∧ part.Unlike other ∧
    (w.target front cur).isNull = true ∧ (w'.target front new).isNull = false ∧ World.Opens (w'.target front new) part

/-- A path from a shared cell starts at a root. -/
theorem Path.root_of_shared {w : World} {p : Path} {c : CellId} (h : p.rootKey?.bind w.sharedCell? = some c) :
    ∃ r rest, p = .mk (.root r) rest ∧ w.sharedCell? r.key = some c := by
  obtain ⟨head, rest⟩ := p
  cases head with
  | root r => exact ⟨r, rest, rfl, h⟩
  | deref e => cases h

theorem Embedding.Along.of_grown {rel : World → World → Prop} [World.Tolerates rel] {em : Embedding}
    (hem : em.Along World.Grown) : em.Along rel where
  native name scope v := .of_grown (hem.native name scope v)
  function name vs := .of_grown (hem.function name vs)

namespace Engine

open World

/-- A write that meets no handle only reads through handles if it writes one itself. -/
theorem writeStatic_with {em : Embedding} {v : Value}
    (hem : (∃ x, v = .handle x) → em.Along World.Grown) {w : World} {r : Root} {rest : List Part} {c : CellId}
    (hc : w.sharedCell? r.key = some c)
    (hh : ∀ y, y ∈ w.passed rest (w.store.cell c).value ∨ y = w.target rest (w.store.cell c).value →
      ∀ x, y ≠ .handle x) :
    ∃ h : HandleAccess, (∀ x, (h.read x).Along World.Grown) ∧ (∀ x u, (h.write x u).Along KeepsRecords) ∧
      ∀ limits scope op allow, Path.writeStatic (full em).access limits (.mk (.root r) rest) scope v op allow w =
        Path.writeStatic h limits (.mk (.root r) rest) scope v op allow w := by
  by_cases hv : ∃ x, v = .handle x
  · have hgrown := hem hv
    exact ⟨(full em).access, (full_along hgrown).read, level_writesAlong hgrown.of_grown depth, fun _ _ _ _ => rfl⟩
  · refine ⟨Path.noAccess, fun _ => .pure _, fun _ _ => .pure _, fun limits scope op allow => ?_⟩
    exact Path.writeStatic_access _ _ limits hc hh scope (fun x hx => hv ⟨x, hx⟩) op allow

/-- From a root without handles, following a path only allocates. -/
theorem resolvePath_grown {g : Engine} {w : World} {r : Root} {rest : List Part} {c : CellId}
    (hp : (Path.mk (.root r) rest).isStatic = true) (hc : w.sharedCell? r.key = some c)
    (hf : w.HandleFree (w.store.cell c).value) (scope : ScopeId) :
    w.Grown ((g.resolvePath (.mk (.root r) rest) (some scope)).after w) := by
  have halong : (Path.walk Path.noAccess.read w.limits (Path.mk (.root r) rest).text false rest
      (w.store.cell c).value).Along World.Grown := Path.walk_along (fun _ => .pure _) _ _ _ _ _
  have hw := halong w
  unfold Exec.after at hw ⊢
  rw [resolvePath_shared_eq hp hc, Path.walk_access (.same (.refl hf))]
  exact hw

/-- A write through a tree without handles, in a world that may have grown since, grafts its result where its path
leads. It spares what is off its trail, and all node lists and errors. -/
theorem writePath_grafted {em : Embedding} {v : Value} (hem : (∃ x, v = .handle x) → em.Along World.Grown)
    {w w₁ w' : World} (hgrown : w.Grown w₁) {r : Root} {rest : List Part} {c : CellId}
    (hp : (Path.mk (.root r) rest).isStatic = true) (hc : w.sharedCell? r.key = some c) (hcell : w.Has (.cell c))
    (ht : w.Tree (fun _ => False) (w.store.cell c).value) (hf : w.HandleFree (w.store.cell c).value)
    {scope : ScopeId} {op : WriteOp} {allowContext : Bool}
    (hrun : (full em).writePath (.mk (.root r) rest) scope v op allowContext w₁ = .ok () w') :
    w.Grafted w' rest (w.store.cell c).value (w'.store.cell c).value ∧
      w₁.Spares (fun x => w₁.OffTrail rest (w.store.cell c).value x ∧ x ≠ .cell c) w' ∧ w₁.KeepsRecords w' := by
  have hcur : w₁.store.cell c = w.store.cell c := hgrown.sameAt hcell
  have hc₁ := (sharedCell?_congr hgrown.globalCell hgrown.stateCell r.key).trans hc
  have hspares : w.Spares (fun _ => True) w₁ := Tolerates.grown hgrown
  have hagrees := hspares.agrees ht.whole fun _ _ => trivial
  have hfirm : w₁.Firm (fun _ => False) rest (w.store.cell c).value :=
    (hagrees.handleFree hf).firm (fun _ _ => id) rest
  have hdistinct := (ht.spared hspares fun _ _ => trivial).distinct hfirm
  rw [← hcur] at hfirm hdistinct
  rw [writePath_static hp] at hrun
  obtain ⟨h, hreads, hwrites, heq⟩ := writeStatic_with hem hc₁ fun y hy => (hfirm y hy).1
  rw [heq] at hrun
  obtain ⟨-, hgraft, hsp⟩ := Path.writeStatic_grafted hreads hc₁ (hgrown.has hcell) hdistinct hrun
  rw [hcur] at hgraft hsp
  refine ⟨hgraft.congr (fun x => hgrown.has) (fun y hy s => ?_) fun _ _ _ => rfl, hsp, ?_⟩
  · rcases trail_contains (.inl hy) with hin | rfl
    · exact (hagrees.inside hin).slot? s
    · rw [w₁.slot?_of_isNull rfl, w.slot?_of_isNull rfl]
  · have halong : (Path.writeStatic h w₁.limits (.mk (.root r) rest) scope v op allowContext).Along KeepsRecords :=
      Path.writeStatic_along (fun x => .of_grown (hreads x)) hwrites _ _ _ _ _ _
    have hw := halong w₁
    rwa [Exec.after_ok hrun] at hw

/-- Reading a path, writing to another that parts from it, and reading again: as long as the values at the root are a
tree without handles, what is read is the same, up to views of nodes, which are made anew and show the same. Only
null becomes a failure where the write blocks the path. -/
theorem read_beside_write {em : Embedding} {v : Value} (hem : (∃ x, v = .handle x) → em.Along World.Grown)
    {w w' : World} (hclosed : w.Closed) {p q : Path} (hp : p.isStatic = true) (hq : q.isStatic = true) {c : CellId}
    (hpc : p.rootKey?.bind w.sharedCell? = some c) (hqc : q.rootKey?.bind w.sharedCell? = some c)
    (hd : Path.Diverge p.rest q.rest) (hi : ∀ i, .index i ∈ q.rest → 0 ≤ i)
    (ht : w.TreeShaped (w.store.cell c).value) (hf : w.HandleFree (w.store.cell c).value)
    (hr : w.Recorded (w.store.cell c).value) {scope scope' : ScopeId} {op : WriteOp} {allowContext : Bool}
    (hrun : (full em).writePath p scope v op allowContext (((full em).resolvePath q (some scope')).after w) =
      .ok () w') :
    Path.Alike ((full em).resolvePath q (some scope') w) ((full em).resolvePath q (some scope') w') ∨
      Path.Blocks w w' p.rest q.rest (w.store.cell c).value (w'.store.cell c).value ∧
        (full em).resolvePath q (some scope') w = .ok .null w ∧
        ∃ f : Fault, f.RefusesAt q.rest ∧ (full em).resolvePath q (some scope') w' = .error f w' := by
  obtain ⟨rp, restp, rfl, hpc⟩ := Path.root_of_shared hpc
  obtain ⟨rq, restq, rfl, hqc⟩ := Path.root_of_shared hqc
  obtain ⟨front, part, rest, other, rest', rfl, rfl, hne⟩ : Path.Diverge restp restq := hd
  change ∀ i, .index i ∈ front ++ other :: rest' → 0 ≤ i at hi
  have htree := hclosed.tree (hclosed.cell c) ht fun _ => False
  have hgrown := resolvePath_grown (g := full em) hq hqc hf scope'
  obtain ⟨hgraft, hsp, hk⟩ := writePath_grafted hem hgrown hp hpc (hclosed.shared hpc) htree hf hrun
  have hqc' := (sharedCell?_congr (hsp.globalCell.trans hgrown.globalCell) (hsp.stateCell.trans hgrown.stateCell)
    rq.key).trans hqc
  rw [resolvePath_shared_eq hq hqc scope', resolvePath_shared_eq hq hqc' scope']
  rcases Path.walk_beside rest' hgraft (fun s u hs hu => stays_beside hgrown htree hf hr hsp
      (fun x hx hcell => ⟨hx, hcell c⟩) hk hs hu) hne fun i hother => hi i (by simp [hother]) with
    halike | ⟨hnull, hunlike, hbefore, f, hf, hafter⟩
  · exact .inl halike
  · have hlands := hgraft.split.lands
    exact .inr ⟨⟨front, part, rest, other, rest', rfl, rfl, hunlike, hnull, hlands.1, hlands.2⟩, hbefore,
      f, hf.mono (by simp [Path.rest]), hafter⟩

end Engine

/-- A world whose global root has a view of one node under `kids`. -/
def kidsWorld : World where
  store := {
    objects := #[[(.str "kids", .nodes 0)]]
    nodeLists := #[[{ tag := "li", slot := none, id := "n1" }]]
    cells := #[{ value := .object 0 }, { value := .null }] }
  stateCell := 1

namespace kidsWorld

theorem object_mem {o : ObjectId} {e : Key × Value} (he : e ∈ kidsWorld.store.object o) : e.2 = .nodes 0 := by
  cases o with
  | zero => rw [List.mem_singleton.mp he]
  | succ o => cases he

theorem closed : kidsWorld.Closed where
  global := by decide
  state := by decide
  array a v hv := by
    cases a <;> exact absurd hv (Array.not_mem_empty _)
  object o e he := by
    rw [object_mem he]
    exact ⟨fun x hx => (by cases hx), fun c hc => by cases hc⟩
  cell c := by
    match c with
    | 0 => exact ⟨fun x hx => by rw [List.mem_singleton.mp hx]; decide, fun c hc => by cases hc⟩
    | 1 => exact World.knows_null _
    | c + 2 => exact World.knows_null _

theorem at_root {way : List Slot} {y : Value} (h : kidsWorld.at? way (.object 0) = some y) :
    way = [] ∧ y = .object 0 ∨ y = .nodes 0 := by
  cases way with
  | nil => exact .inl ⟨rfl, (Option.some.inj h).symm⟩
  | cons s rest =>
    obtain ⟨u, hs, hu⟩ := Option.bind_eq_some_iff.mp h
    cases s with
    | index i => cases hs
    | key k =>
      have hs : Entries.get? k (kidsWorld.store.object 0) = some u := hs
      obtain ⟨k', hm⟩ := Entries.mem_of_get? hs
      have hy : kidsWorld.Contains u y := ⟨rest, hu⟩
      rw [show u = .nodes 0 from object_mem hm] at hy
      exact .inr (hy.eq_self fun s => by cases s <;> rfl)

theorem treeShaped : kidsWorld.TreeShaped (.object 0) := by
  rintro ways ways' y y' hy hy' ⟨x, hx, hx'⟩
  rcases at_root hy with ⟨rfl, -⟩ | rfl
  · rcases at_root hy' with ⟨rfl, -⟩ | rfl
    · exact .nil
    · cases hx'
  · cases hx

theorem handleFree : kidsWorld.HandleFree (.object 0) := by
  rintro y ⟨way, hway⟩ x rfl
  rcases at_root hway with ⟨-, h⟩ | h <;> cases h

theorem recorded : kidsWorld.Recorded (.object 0) where
  nodes n h := by
    obtain ⟨way, hway⟩ := h
    rcases at_root hway with ⟨-, h⟩ | h
    · cases h
    · cases h
      decide
  errors e h := by
    obtain ⟨way, hway⟩ := h
    rcases at_root hway with ⟨-, h⟩ | h <;> cases h

end kidsWorld

namespace Engine

/-- A view of the first node is made anew for each reading, and shows the same node after a write beside it. -/
theorem read_nodes_beside_write :
    let p : Path := .mk (.root { key := .global }) [.key "x"]
    let q : Path := .mk (.root { key := .global }) [.key "kids", .key "first"]
    ∃ w', (full .plain).writePath p 0 (.int 1) .set false (((full .plain).resolvePath q (some 0)).after kidsWorld) =
        .ok () w' ∧
      Path.Alike ((full .plain).resolvePath q (some 0) kidsWorld) ((full .plain).resolvePath q (some 0) w') := by
  intro p q
  obtain ⟨w', hrun⟩ : ∃ w', (full .plain).writePath p 0 (.int 1) .set false
      (((full .plain).resolvePath q (some 0)).after kidsWorld) = .ok () w' := ⟨_, rfl⟩
  have hd : Path.Diverge p.rest q.rest := ⟨[], .key "x", [], .key "kids", [.key "first"], rfl, rfl, by simp⟩
  have hpc : p.rootKey?.bind kidsWorld.sharedCell? = some 0 := rfl
  have hqc : q.rootKey?.bind kidsWorld.sharedCell? = some 0 := rfl
  refine ⟨w', hrun, ?_⟩
  rcases read_beside_write (fun _ => Embedding.plain_along) kidsWorld.closed rfl rfl hpc hqc hd (by simp [q, Path.rest])
    kidsWorld.treeShaped kidsWorld.handleFree kidsWorld.recorded hrun with halike | ⟨-, hnull, -⟩
  · exact halike
  · cases hnull

/-- What is read is not always the very same value after a write beside it. -/
theorem not_read_beside_write_same :
    ¬∀ (w w₁ w' w₂ : World) (p q : Path) (c : CellId) (v old new : Value) (op : WriteOp), w.Closed →
      p.isStatic = true → q.isStatic = true → p.rootKey?.bind w.sharedCell? = some c →
      q.rootKey?.bind w.sharedCell? = some c → Path.Diverge p.rest q.rest → (∀ i, .index i ∈ q.rest → 0 ≤ i) →
      w.TreeShaped (w.store.cell c).value → w.HandleFree (w.store.cell c).value →
      (full .plain).resolvePath q (some 0) w = .ok old w₁ → old ≠ .null →
      (full .plain).writePath p 0 v op false w₁ = .ok () w' →
      (full .plain).resolvePath q (some 0) w' = .ok new w₂ → new = old := by
  intro h
  have hsame := h kidsWorld _ _ _ (.mk (.root { key := .global }) [.key "x"])
    (.mk (.root { key := .global }) [.key "kids", .key "first"]) 0 (.int 1) _ _ .set kidsWorld.closed rfl rfl rfl rfl
    ⟨[], .key "x", [], .key "kids", [.key "first"], rfl, rfl, by simp⟩ (by simp [Path.rest]) kidsWorld.treeShaped
    kidsWorld.handleFree rfl (by decide) rfl rfl
  cases hsame

end Engine

end EventScript
