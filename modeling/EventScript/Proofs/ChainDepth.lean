import EventScript.Proofs.HandleChains

/-!
# How far chains are followed

Reading and writing agree on where a chain of handles ends, but not on how long it may be. Reading counts the handles
and stops at the limit. Writing goes from handle to handle, one level of evaluation each, whatever the limit.
-/

namespace EventScript

namespace World

variable {w : World} {x y : HandleId} {xs : List HandleId}

theorem Links.writable (hl : w.Links x xs y) (hy : w.store.isReadOnly y = false) : w.store.isReadOnly x = false := by
  cases hl with
  | here => exact hy
  | next hx _ => exact isReadOnly_of_site hx.site

theorem not_looks_empty (w : World) (c : CellId) (parts : List Part) : ¬w.Looks (fun _ => False) c parts := by
  rintro (h | ⟨_, _, _, _, _, _, h⟩) <;> exact h

theorem links_self {c : CellId} {parts : List Part} (hx : w.Leads x c parts (.handle x)) (n : Nat) :
    w.Links x (List.replicate n x) x := by
  induction n with
  | zero => exact .here x
  | succ n ih => exact .next hx ih

end World

theorem Value.orNull_not_handle {e : Value} (he : ∀ z, e ≠ .handle z) : ∀ z, e.orNull ≠ .handle z := by
  cases e with
  | handle z => exact absurd rfl (he z)
  | _ => nofun

theorem Value.orNull_orNull (e : Value) : e.orNull.orNull = e.orNull := by
  cases e <;> rfl

namespace Engine

open World

variable (em : Embedding) {w : World} {x y : HandleId} {xs : List HandleId} {d : CellId} {parts : List Part}
  {u e : Value}

/-- A write to the first handle of a chain arrives where the last one leads. -/
theorem links_written (hl : w.Links x xs y) (hy : w.Leads y d parts u) (hu : ∀ z, u ≠ .handle z)
    (he : ∀ z, e ≠ .handle z) {σ : Spot} (hσ : w.spot? d parts = some σ)
    (hown : ¬w.Crosses (· = σ) parts.dropLast (w.store.cell d).value)
    (hoff : ∀ z ∈ xs, ∀ c front, w.site? z = some (c, front) → ¬w.Looks (· = σ) c front) {n : Nat}
    (hn : xs.length ≤ n) :
    ∃ w', (level em (n + 1)).access.write x e w = .ok () w' ∧ w.Altered (· = σ) w' ∧
      w'.Leads y d parts e.orNull := by
  induction hl generalizing n e with
  | here y => exact writeHandle_last hy hu he hσ hown
  | next hx hl ih =>
    obtain ⟨hoff₀, hoff⟩ := List.forall_mem_cons.mp hoff
    cases n with
    | zero => exact absurd hn (Nat.not_succ_le_zero _)
    | succ n =>
      obtain ⟨w₁, hrun, hw, hy₁⟩ := ih hy (Value.orNull_not_handle he) hoff (Nat.le_of_succ_le_succ hn)
      have hz := hl.writable (isReadOnly_of_site hy.site)
      obtain ⟨notices, hrun⟩ := writeHandle_through hx rfl
        ((writeParts_at_handle hz he _).trans (Exec.bind_ok hrun)) (hw.sameWay (hoff₀ _ _ hx.site))
      have htold := Altered.told (fun _ => False) w₁ notices
      rw [Value.orNull_orNull] at hy₁
      exact ⟨_, hrun, hw.trans (.told _ w₁ notices), htold.leads hy₁ (not_looks_empty w₁ d parts)⟩

/-- A write to a chain that is longer than there are levels changes nothing. -/
theorem links_too_deep (hl : w.Links x xs y) (hy : w.store.isReadOnly y = false) (he : ∀ z, e ≠ .handle z) {n : Nat}
    (hn : n ≤ xs.length) : (level em n).access.write x e w = .error (.tooDeep .calling) w := by
  induction n generalizing x xs e with
  | zero => rfl
  | succ n ih =>
    cases hl with
    | here => exact absurd hn (Nat.not_succ_le_zero _)
    | @next _ c front z xs _ hx hl =>
      have hz := hl.writable hy
      have hrun := ih hl (Value.orNull_not_handle he) (Nat.le_of_succ_le_succ hn)
      refine writeHandle_error hx ?_
      have hend : Path.writeParts (level em n).access (w.limitsOf x) (w.textOf x) .set e []
          (w.target front (w.store.cell c).value) w = .error (.tooDeep .calling) w := by
        rw [hx.target, writeParts_at_handle hz he]
        exact Exec.bind_error hrun
      have hfails := hx.track.fails (by rw [hx.target]; rfl) hend
      rwa [List.append_nil] at hfails

/-! ### Paths to chains -/

section Paths

variable {r : Root} {rest : List Part} {c : CellId} (hc : w.sharedCell? r.key = some c)
  (ht : w.Track w.limits rest (w.store.cell c).value) (hx : w.target rest (w.store.cell c).value = .handle x)
include hc ht hx

/-- What is read through a path to a chain is what the last handle leads to, unless the chain is too long. -/
theorem evalIn_chain (hl : w.Links x xs y) (hy : w.Leads y d parts u) (hu : ∀ z, u ≠ .handle z) (scope : ScopeId) :
    (full em).evalIn .resolve (.path (.mk (.root r) rest)) (some scope) w =
      if (xs.length + 1 : Int) ≤ w.limits.handleDepth then .ok u.orNull w
      else .error (.unresolved (.handleDepth w.limits.handleDepth)) w := by
  have hpath : (full em).eval (.path (.mk (.root r) rest)) (some scope) w = .ok (.handle x) w := by
    have hreads := ht.reads
    rw [hx] at hreads
    exact resolvePath_shared ((Path.isStatic_root r rest).trans ht.isStatic) hc hreads ht.passed_plain scope
  have hread : (full em).through (.handle x) w = if xs.length < w.limits.handleDepth.toNat then .ok u w
      else .error (.unresolved (.handleDepth w.limits.handleDepth)) w :=
    followFrom_links (g := level em 329) hl hy hu w.limits.handleDepth _
  change ((full em).eval _ (some scope) >>= fun v => (full em).through v >>= fun v => pure v.orNull : Exec Value) w = _
  rw [Exec.bind_ok hpath]
  by_cases hlen : (xs.length + 1 : Int) ≤ w.limits.handleDepth
  · rw [if_pos (by omega)] at hread
    rw [if_pos hlen]
    exact Exec.bind_ok hread
  · rw [if_neg (by omega)] at hread
    rw [if_neg hlen]
    exact Exec.bind_error hread

theorem writePath_to_handle (hw : w.store.isReadOnly x = false) {v : Value} (hv : ∀ z, v ≠ .handle z) {w' : World}
    (hrun : (full em).access.write x v.orNull w = .ok () w')
    (hway : ∀ s ∈ w.steps rest (w.store.cell c).value, w'.next s.1 s.2.1 = w.next s.1 s.2.1) (scope : ScopeId)
    (allow : Bool) : (full em).writePath (.mk (.root r) rest) scope v .set allow w = .ok () w' := by
  rw [writePath_static ((Path.isStatic_root r rest).trans ht.isStatic), Path.writeStatic_shared_eq _ _ hc]
  have hend : Path.writeParts (full em).access w.limits (Path.mk (.root r) rest).text .set v []
      (w.target rest (w.store.cell c).value) w = .ok (w.target rest (w.store.cell c).value) w' := by
    rw [hx, writeParts_at_handle hw hv]
    exact Exec.bind_ok hrun
  have hparts := ht.writes (by rw [hx]; rfl) hend hway
  rw [List.append_nil] at hparts
  refine (Exec.bind_ok hparts).trans ?_
  rw [bne_self_eq_false, if_neg Bool.false_ne_true]
  rfl

theorem writePath_to_handle_fails (hw : w.store.isReadOnly x = false) {v : Value} (hv : ∀ z, v ≠ .handle z) {f : Fault}
    {w' : World} (hrun : (full em).access.write x v.orNull w = .error f w') (scope : ScopeId) (allow : Bool) :
    (full em).writePath (.mk (.root r) rest) scope v .set allow w = .error f w' := by
  rw [writePath_static ((Path.isStatic_root r rest).trans ht.isStatic), Path.writeStatic_shared_eq _ _ hc]
  have hend : Path.writeParts (full em).access w.limits (Path.mk (.root r) rest).text .set v []
      (w.target rest (w.store.cell c).value) w = .error f w' := by
    rw [hx, writeParts_at_handle hw hv]
    exact Exec.bind_error hrun
  have hparts := ht.fails (by rw [hx]; rfl) hend
  rw [List.append_nil] at hparts
  exact Exec.bind_error hparts

/-- A path to a handle that leads to itself cannot be written to. -/
theorem write_to_itself (hself : w.Leads x d parts (.handle x)) {v : Value} (hv : ∀ z, v ≠ .handle z) (scope : ScopeId)
    (allow : Bool) :
    (full em).writePath (.mk (.root r) rest) scope v .set allow w = .error (.tooDeep .calling) w := by
  have hw := isReadOnly_of_site hself.site
  refine writePath_to_handle_fails em hc ht hx hw hv ?_ scope allow
  exact links_too_deep em (links_self hself depth) hw (Value.orNull_not_handle hv) (by simp)

/-- A value written through a chain of handles arrives at its end as long as there are levels of evaluation for the
chain, also if the chain is too long to be read. If it is not, the value is read back; nothing else changes. -/
theorem chain_is_written_past_the_limit (hl : w.Links x xs y) (hy : w.Leads y d parts u) (hu : ∀ z, u ≠ .handle z)
    {σ : Spot} (hσ : w.spot? d parts = some σ)
    (hown : ¬w.Crosses (· = σ) parts.dropLast (w.store.cell d).value) (hoff : ¬w.Looks (· = σ) c rest)
    (hoffs : ∀ z ∈ xs, ∀ c front, w.site? z = some (c, front) → ¬w.Looks (· = σ) c front) {v : Value}
    (hv : ∀ z, v ≠ .handle z) (scope : ScopeId) (allow : Bool) :
    (xs.length < depth → ∃ w', (full em).writePath (.mk (.root r) rest) scope v .set allow w = .ok () w' ∧
      w.Altered (· = σ) w' ∧ w'.Leads y d parts v.orNull ∧
      (full em).evalIn .resolve (.path (.mk (.root r) rest)) (some scope) w' =
        if (xs.length + 1 : Int) ≤ w.limits.handleDepth then .ok v.orNull w'
        else .error (.unresolved (.handleDepth w.limits.handleDepth)) w') ∧
    (depth ≤ xs.length →
      (full em).writePath (.mk (.root r) rest) scope v .set allow w = .error (.tooDeep .calling) w) ∧
    (full em).evalIn .resolve (.path (.mk (.root r) rest)) (some scope) w =
      if (xs.length + 1 : Int) ≤ w.limits.handleDepth then .ok u.orNull w
      else .error (.unresolved (.handleDepth w.limits.handleDepth)) w := by
  have hw := hl.writable (isReadOnly_of_site hy.site)
  refine ⟨fun hlen => ?_, fun hlen => ?_, evalIn_chain em hc ht hx hl hy hu scope⟩
  · obtain ⟨w', hrun, halt, hy'⟩ := links_written em (n := 329) hl hy hu (Value.orNull_not_handle hv) hσ hown
      hoffs (Nat.le_of_lt_succ hlen)
    rw [Value.orNull_orNull] at hy'
    have hcross : ¬w.Crosses (· = σ) rest (w.store.cell c).value := fun h => hoff (.inr h)
    have hcell : w'.store.cell c = w.store.cell c := halt.cell c fun h => hoff (.inl h)
    obtain ⟨hsteps, htarget⟩ := halt.way hcross
    have hc' : w'.sharedCell? r.key = some c := by
      rw [← hc, halt.rest]
      exact sharedCell?_congr rfl rfl r.key
    have hlimits : w'.limits = w.limits := by rw [halt.rest]
    have ht' : w'.Track w'.limits rest (w'.store.cell c).value := by
      rw [hcell, hlimits]
      exact ht.congr halt.knows hsteps
    have hx' : w'.target rest (w'.store.cell c).value = .handle x := by rw [hcell, htarget, hx]
    have hread := evalIn_chain em hc' ht' hx' (halt.links hl hoffs) hy' (Value.orNull_not_handle hv) scope
    rw [hlimits, Value.orNull_orNull] at hread
    exact ⟨w', writePath_to_handle em hc ht hx hw hv hrun (fun s hs => halt.next fun t hslot p hp hS =>
      hcross ⟨s, hs, t, hslot, p, hp, hS⟩) scope allow, halt, hy', hread⟩
  · exact writePath_to_handle_fails em hc ht hx hw hv
      (links_too_deep em hl (isReadOnly_of_site hy.site) (Value.orNull_not_handle hv) hlen) scope allow

end Paths

/-- A chain of a reference and a handle to a part of the data is written and read back. -/
theorem mixed_chain_is_read_back :
    let w : World := {
      store := {
        objects := #[[(.str "a", .handle 0), (.str "b", .handle 1), (.str "n", .int 1)]]
        handles := #[.bound (.mk (.root { key := .global }) [.key "b"]) (some 0),
          .rooted 0 (.mk (.root { key := .global }) [.key "n"])]
        cells := #[{ value := .object 0 }, { value := .null }] }
      stateCell := 1 }
    let p : Path := .mk (.root { key := .global }) [.key "a"]
    ∃ w', (full .plain).writePath p 0 (.int 7) .set false w = .ok () w' ∧
      (full .plain).evalIn .resolve (.path p) (some 0) w' = .ok (.int 7) w' := by
  intro w p
  have hknows : w.Knows (.object 0) := w.knows_of_own rfl (by decide)
  have track (limits : Limits) (k : String) : w.Track limits [.key k] (w.store.cell 0).value :=
    track_cons.mpr ⟨⟨nofun, hknows, .inr rfl, nofun⟩, .nil _ _ _⟩
  have ha : w.Leads 0 0 [.key "b"] (.handle 1) := ⟨rfl, by decide, track _ "b", rfl⟩
  have hb : w.Leads 1 0 [.key "n"] (.int 1) := ⟨rfl, by decide, track _ "n", rfl⟩
  have off {k : String} (hk : k ≠ "n") : ¬w.Looks (· = .slot (.object 0) (.key (.str "n"))) 0 [.key k] := by
    rintro (h | ⟨st, hst, s, hs, x, hx, h⟩)
    · cases h
    · rw [List.mem_singleton.mp hst] at hs
      cases hs
      cases h
      exact hk rfl
  obtain ⟨w', hrun, -, -, hread⟩ := (chain_is_written_past_the_limit .plain (r := { key := .global })
    rfl (track _ "a") rfl (.next ha (.here 1)) hb nofun rfl (by rintro ⟨_, h, -⟩; cases h)
    (off (by decide)) (List.forall_mem_singleton.mpr fun c front h => by cases h; exact off (by decide))
    (v := .int 7) nofun 0 false).1 (by decide)
  exact ⟨w', hrun, hread⟩

/-- Six handles in a chain are more than can be read, but a write goes through them. -/
theorem long_chain_is_written :
    let ref (k : String) : Handle := .bound (.mk (.root { key := .global }) [.key k]) (some 0)
    let w : World := {
      store := {
        objects := #[[(.str "a", .handle 0), (.str "b", .handle 1), (.str "c", .handle 2), (.str "d", .handle 3),
          (.str "e", .handle 4), (.str "f", .handle 5), (.str "g", .int 1)]]
        handles := #[ref "b", ref "c", ref "d", ref "e", ref "f", ref "g"]
        cells := #[{ value := .object 0 }, { value := .null }] }
      stateCell := 1 }
    let p : Path := .mk (.root { key := .global }) [.key "a"]
    w.limits.handleDepth < 6 ∧
    (full .plain).evalIn .resolve (.path p) (some 0) w = .error (.unresolved (.handleDepth 5)) w ∧
    ∃ w', (full .plain).writePath p 0 (.int 7) .set false w = .ok () w' ∧
      w'.store.object 0 ≠ w.store.object 0 :=
  ⟨by decide, rfl, _, rfl, by decide⟩

end Engine

end EventScript
