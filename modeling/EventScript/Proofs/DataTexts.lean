import EventScript.Proofs.DataPaths
import EventScript.Proofs.FaithfulCopies
import EventScript.Printer
import EventScript.Serialize

/-!
# Texts of data

What can be read in a world of data is printed, unless it is nested as deep as printing goes. It is written as JSON or
YAML, unless it holds itself, which is told as a cycle, or a whole number past the range of floating point numbers.
-/

namespace EventScript

open World
open Exec (Works)

theorem mapM_eq_error {ε α β : Type} {f : α → Except ε β} {xs : List α} {e : ε} (h : xs.mapM f = .error e) :
    ∃ x ∈ xs, f x = .error e := by
  induction xs with
  | nil => cases h
  | cons x rest ih =>
    rw [List.mapM_cons] at h
    rcases except_bind_eq_error h with hx | ⟨b, -, h⟩
    · exact ⟨x, List.mem_cons_self, hx⟩
    · rcases except_bind_eq_error h with hrest | ⟨bs, -, h⟩
      · obtain ⟨y, hy, hfy⟩ := ih hrest
        exact ⟨y, List.mem_cons_of_mem _ hy, hfy⟩
      · cases h

theorem forM_eq_error {ε α : Type} {f : α → Except ε Unit} {xs : List α} {e : ε} (h : xs.forM f = .error e) :
    ∃ x ∈ xs, f x = .error e := by
  induction xs with
  | nil => cases h
  | cons x rest ih =>
    rcases except_bind_eq_error h with hx | ⟨_, -, hrest⟩
    · exact ⟨x, List.mem_cons_self, hx⟩
    · obtain ⟨y, hy, hfy⟩ := ih hrest
      exact ⟨y, List.mem_cons_of_mem _ hy, hfy⟩

variable {w w' : World} {v : Value} {ε α β : Type}

namespace World

theorem OfData.keyed (hw : w.OfData) (v : Value) : w.Keyed v := fun o _ => hw.distinct o

theorem OfData.slot? (hw : w.OfData) {u : Value} {s : Slot} (h : w.slot? u s = some v) : w.IsData v := by
  cases s with
  | index i =>
    cases u with
    | array a => exact hw.array a v (Array.mem_of_getElem? h)
    | _ => cases h
  | key k => exact hw.valueAt h

theorem OfData.entries (hw : w.OfData) {e : Key × Value} (he : e ∈ w.entries v) : w.IsData e.2 := by
  have hv : ∀ a, v ≠ .array a := by
    rintro a rfl
    cases he
  refine hw.slot? (slot?_of_mem_contents (s := .key e.1) (hw.keyed v) ?_)
  rw [w.contents_of_not_array hv]
  exact List.mem_map.mpr ⟨e, he, rfl⟩

/-- What is inside a value can be nested as deep as the levels of printing allow for. -/
def NestsDeep (w : World) (fuel : Nat) (v : Value) : Prop := ∃ way, way.length = fuel ∧ (w.at? way v).isSome = true

theorem NestsDeep.inside {fuel : Nat} {s : Slot} {y : Value} (hs : w.slot? v s = some y) (h : w.NestsDeep fuel y) :
    w.NestsDeep (fuel + 1) v := by
  obtain ⟨way, hlength, hway⟩ := h
  refine ⟨s :: way, by rw [List.length_cons, hlength], ?_⟩
  simp only [at?, hs, Option.bind_some, hway]

theorem slot?_of_mem_entries (hk : w.Keyed v) (hv : ∀ a, v ≠ .array a) {x : Key × Value} (hx : x ∈ w.entries v) :
    w.slot? v (.key x.1) = some x.2 := by
  refine slot?_of_mem_contents hk ?_
  rw [w.contents_of_not_array hv]
  exact List.mem_map.mpr ⟨x, hx, rfl⟩

theorem slot?_of_mem_array {a : ArrayId} {x : Value} (hx : x ∈ (w.store.array a).toList) :
    ∃ s, w.slot? (.array a) s = some x := by
  obtain ⟨i, hi⟩ := List.mem_iff_getElem?.mp hx
  rw [Array.getElem?_toList] at hi
  exact ⟨.index i, hi⟩

/-- What goes wrong with one of the entries goes wrong inside. -/
theorem entries_eq_error (hk : w.Keyed v) {f : Value → Except ε α} {g : Key × Value → α → β}
    {e : ε} (hv : ∀ a, v ≠ .array a)
    (h : (w.entries v).mapM (fun x => do return g x (← f x.2)) = .error e) :
    ∃ s y, w.slot? v s = some y ∧ f y = .error e := by
  obtain ⟨x, hx, hfx⟩ := mapM_eq_error h
  rcases except_bind_eq_error hfx with hfx | ⟨a, -, hpure⟩
  · exact ⟨.key x.1, x.2, slot?_of_mem_entries hk hv hx, hfx⟩
  · cases hpure

theorem elements_eq_error {f : Value → Except ε α} {e : ε} {a : ArrayId}
    (h : (w.store.array a).toList.mapM f = .error e) : ∃ s y, w.slot? (.array a) s = some y ∧ f y = .error e := by
  obtain ⟨x, hx, hfx⟩ := mapM_eq_error h
  obtain ⟨s, hs⟩ := slot?_of_mem_array hx
  exact ⟨s, x, hs, hfx⟩

/-- Printing gives up on what is nested too deep alone. -/
theorem printValueFrom_error (hk : ∀ u, w.Keyed u) {fuel : Nat} {e : TooDeep}
    (h : w.printValueFrom fuel v = .error e) : e = .comparing ∧ w.NestsDeep fuel v := by
  induction fuel generalizing v with
  | zero =>
    cases h
    exact ⟨rfl, [], rfl, rfl⟩
  | succ fuel ih =>
    -- whatever fails, fails on something in a slot
    have hinside (h : ∃ s y, w.slot? v s = some y ∧ w.printValueFrom fuel y = .error e) :
        e = .comparing ∧ w.NestsDeep (fuel + 1) v := by
      obtain ⟨s, y, hs, hy⟩ := h
      obtain ⟨he, hdeep⟩ := ih hy
      exact ⟨he, hdeep.inside hs⟩
    unfold printValueFrom at h
    cases v with
    | array a =>
      rcases except_bind_eq_error h with h | ⟨items, -, h⟩
      · exact hinside (elements_eq_error h)
      · cases h
    | object o =>
      rcases except_bind_eq_error h with h | ⟨items, -, h⟩
      · exact hinside (entries_eq_error (hk _) (by simp) h)
      · cases h
    | context c =>
      rcases except_bind_eq_error h with h | ⟨items, -, h⟩
      · exact hinside (entries_eq_error (hk _) (by simp) h)
      · cases h
    | _ => cases h

/-- A number that is too long is noticed before anything is printed, or else what is nested too deep. -/
theorem checkPrintedFrom_error (hk : ∀ u, w.Keyed u) {fuel : Nat} {f : Fault}
    (h : w.checkPrintedFrom fuel v = .error f) :
    f = .digits .writing ∨ f = .tooDeep .comparing ∧ w.NestsDeep fuel v := by
  induction fuel generalizing v with
  | zero =>
    cases h
    exact .inr ⟨rfl, [], rfl, rfl⟩
  | succ fuel ih =>
    have hinside {s : Slot} {y : Value} (hs : w.slot? v s = some y) (hy : w.checkPrintedFrom fuel y = .error f) :
        f = .digits .writing ∨ f = .tooDeep .comparing ∧ w.NestsDeep (fuel + 1) v :=
      (ih hy).imp_right fun hdeep => ⟨hdeep.1, hdeep.2.inside hs⟩
    have hentries (hv : ∀ a, v ≠ .array a)
        (h : (w.entries v).forM (fun e => w.checkPrintedFrom fuel e.2) = .error f) :
        f = .digits .writing ∨ f = .tooDeep .comparing ∧ w.NestsDeep (fuel + 1) v := by
      obtain ⟨e, he, hy⟩ := forM_eq_error h
      exact hinside (slot?_of_mem_entries (hk v) hv he) hy
    unfold checkPrintedFrom at h
    cases v with
    | array a =>
      obtain ⟨y, hy, hfy⟩ := forM_eq_error h
      obtain ⟨s, hs⟩ := slot?_of_mem_array hy
      exact hinside hs hfy
    | object o => exact hentries nofun h
    | context c => exact hentries nofun h
    | _ =>
      dsimp only at h
      split at h <;> cases h
      exact .inl rfl

theorem printShort_error (hk : ∀ u, w.Keyed u) {f : Fault} (h : w.printShort v = .error f) :
    f = .digits .writing ∨ f = .tooDeep .comparing ∧ w.NestsDeep printDepth v := by
  rcases except_bind_eq_error h with h | ⟨_, -, h⟩
  · exact checkPrintedFrom_error hk h
  · cases hp : w.printValue v with
    | ok text =>
      rw [hp] at h
      cases h
    | error e =>
      rw [hp] at h
      cases h
      obtain ⟨rfl, hdeep⟩ := printValueFrom_error hk hp
      exact .inr ⟨rfl, hdeep⟩

/-! ### What is reached in a world of data -/

theorem knows_of_atom (w : World) (ho : v.own? = none) (hc : ∀ c, v ≠ .context c) : w.Knows v where
  has x hx := by
    rw [touched_of_not_context w hc, ho] at hx
    cases hx
  sees c hv := absurd hv (hc c)

theorem OfData.knows (hw : w.OfData) (hv : w.Readable v) : w.Knows v := by
  rcases hv with hv | rfl | ⟨c, rfl, hc, hs⟩
  · cases v with
    | array a => exact w.knows_of_own rfl hv
    | object o => exact w.knows_of_own rfl hv
    | null | bool | num | str | foreign => exact w.knows_of_atom rfl (by simp)
    | _ => exact hv.elim
  · exact w.knows_of_atom rfl (by simp)
  · have hchain := hw.chain hs
    refine ⟨fun x hx => ?_, fun d hd => ?_⟩
    · rw [touched_context, hchain] at hx
      rw [List.mem_singleton.mp hx]
      exact (hw.scope _ hs).context
    · cases hd
      rw [hchain]
      exact ⟨hc, by simpa using hs⟩

variable {lead : HandleId → Option Value} {u : Value}

theorem OfData.reached (hw : w.OfData) (hv : w.Readable v) (h : w.Reaches lead v u) : w.Readable u := by
  refine h.kept (P := w.Readable) (fun z hz => ?_) fun z s x _ hx => ?_
  · rw [Value.behind?_of_not_handle lead hv.not_handle] at hz
    cases hz
    exact hv
  · obtain ⟨y, hy, hyx⟩ := Option.bind_eq_some_iff.mp hx
    have hdata := hw.slot? hy
    rw [Value.behind?_of_not_handle lead hdata.not_handle] at hyx
    cases hyx
    exact .inl hdata

theorem OfData.met (hw : w.OfData) (hv : w.Readable v) (h : w.Meets lead v u) : w.Readable u := by
  rcases h with rfl | ⟨z, s, -, hs⟩
  · exact hv
  · exact .inl (hw.slot? hs)

theorem OfData.searchable (hw : w.OfData) (hv : w.Readable v) (read : HandleId → Exec Value) (resolve : Bool) :
    Searchable read resolve lead w v where
  intact := ⟨fun _ hu => hw.knows (hw.reached hv hu), fun u _ => hw.keyed u⟩
  shows h hm := absurd rfl ((hw.met hv hm).not_handle h)

/-- Without handles, what is reached is contained. -/
theorem OfData.contains (hw : w.OfData) (hv : w.Readable v) (h : w.Reaches lead v u) : w.Contains v u := by
  obtain ⟨way, hway⟩ := h
  refine ⟨way, ?_⟩
  unfold along? at hway
  rw [Value.behind?_of_not_handle lead hv.not_handle, Option.bind_some] at hway
  clear hv
  induction way generalizing v with
  | nil => exact hway
  | cons s rest ih =>
    obtain ⟨x, hx, hrest⟩ := Option.bind_eq_some_iff.mp hway
    obtain ⟨y, hy, hyx⟩ := Option.bind_eq_some_iff.mp hx
    rw [Value.behind?_of_not_handle lead (hw.slot? hy).not_handle] at hyx
    cases hyx
    simp only [at?, hy, Option.bind_some]
    exact ih hrest

/-! ### The plain datum of a copy -/

/-- A number that has been met is past the range of floating point numbers where a copy has no plain datum. -/
theorem Mirrors.datumFrom_error {root y c : Value} {fuel : Nat} {e : Number.Overflow} (h : w.Mirrors lead w' y c)
    (hm : w.Meets lead root y) (he : w'.datumFrom fuel c = .error e) :
    ∃ n, w.Reaches lead root (.num n) ∧ n.inRange = .error e := by
  induction fuel generalizing y c with
  | zero => cases he
  | succ fuel ih =>
    -- what fails, fails on something in a slot of the copy, which mirrors what is in the slot of the value
    have hinside (hc : c.kind = .array ∨ c.kind = .object)
        (he : w'.Keyed c → ∃ s x, w'.slot? c s = some x ∧ w'.datumFrom fuel x = .error e) :
        ∃ n, w.Reaches lead root (.num n) ∧ n.inRange = .error e := by
      cases h with
      | leaf _ hleaf => exact absurd hc (by simp [hleaf.1, hleaf.2.1])
      | blob => simp [Value.kind] at hc
      | container hu _ _ _ hkeyed hslots hparts =>
        obtain ⟨s, x, hs, hx⟩ := he hkeyed
        have hsome := hslots s
        rw [hs, Option.isSome_some] at hsome
        obtain ⟨z, hz⟩ := Option.isSome_iff_exists.mp hsome.symm
        exact ih (hparts s z x hz hs) (hm.slot hu hz) hx
    unfold datumFrom at he
    cases c with
    | array a =>
      rcases except_bind_eq_error he with he | ⟨items, -, he⟩
      · exact hinside (.inl rfl) fun _ => elements_eq_error he
      · cases he
    | object o =>
      rcases except_bind_eq_error he with he | ⟨items, -, he⟩
      · exact hinside (.inr rfl) fun hk => entries_eq_error hk (by simp) he
      · cases he
    | context x =>
      rcases except_bind_eq_error he with he | ⟨items, -, he⟩
      · exact hinside (.inr rfl) fun hk => entries_eq_error hk (by simp) he
      · cases he
    | num n =>
      rcases except_bind_eq_error he with he | ⟨u, -, he⟩
      · cases h with
        | leaf hu _ => exact ⟨n, hm.reaches hu, he⟩
        | container _ hk hc => exact absurd (hc ▸ hk) (by simp [Value.kind])
      · cases he
    | _ => cases he

end World

/-! ### Copying -/

/-- An object with the keys of another, and other data under them. -/
theorem Exec.Works.newObjectLike {E : Fault → Prop} {es : Entries Value} {f : Key × Value → Exec Value} (hw : w.OfData)
    (hd : es.Distinct) (hf : ∀ e ∈ es, ∀ w', w.Extends w' → w'.OfData → Works w' E (f e) IsData) :
    Works w E (do Exec.newObject (← es.mapM fun e => do return (e.1, ← f e))) IsData := by
  have hall : Works w E (es.mapM fun e => do return (e.1, ← f e)) fun w' fs => ∀ e ∈ fs, w'.IsData e.2 := by
    refine .mapM (fun he h => h.later he) (fun e he w' hext hw' => ?_) hw
    exact .bind (hf e he w' hext hw') fun _ _ _ hw'' hc => .pure hw'' hc
  refine .bind hall.withRun fun w₁ fs _ hw₁ hfs => .newObject hw₁ (hd.of_keys (mapM_keys ?_ hfs.2)) hfs.1
  intro e w₂ b w₃ h
  obtain ⟨c, w₄, -, h⟩ := Exec.bind_eq_ok h
  cases h
  rfl

/-- A copy of data is data; only a missing argument is left as it is. -/
theorem copyFrom_works (read : HandleId → Exec Value) (fuel : Nat) (active : List Value) (trail : List String)
    (hw : w.OfData) (hv : w.Readable v) :
    Works w (fun _ => True) (copyFrom read true fuel active trail v)
      fun w' c => w'.IsData c ∨ c = .absent ∧ v = .absent := by
  induction fuel generalizing w v active trail with
  | zero => exact .throw hw trivial
  | succ fuel ih =>
    -- what is inside is data, and so is a copy of it
    have hpart {w' : World} {y : Value} (hw' : w'.OfData) (hy : w'.IsData y) (active : List Value)
        (trail : List String) : Works w' (fun _ => True) (copyFrom read true fuel active trail y) IsData := by
      refine (ih active trail hw' (.inl hy)).mono (fun _ => id) fun w'' c hc => hc.resolve_right ?_
      rintro ⟨-, rfl⟩
      exact hy
    unfold copyFrom seeThrough
    rw [if_pos rfl, follow_of_not_handle read _ v hv.not_handle, pure_bind]
    cases v with
    | array a =>
      refine .guard hw trivial fun _ => .storeBind ?_
      refine .bind (.mapM (fun he h => h.later he) (fun x hx w' he hw' => hpart hw' ?_ _ _) hw)
        fun w₁ items _ hw₁ hitems => (Works.newArray hw₁ (by simpa using hitems)).mono (fun _ => id) fun _ _ => .inl
      exact (hw.array a x.1 (Array.mem_toList_iff.mp (List.fst_mem_of_mem_zipIdx hx))).later he
    | object | context =>
      refine .guard hw trivial fun _ => .getBind ?_
      refine Works.mono ?_ (fun _ => id) fun _ _ => .inl
      refine .newObjectLike hw ((hw.keyed _).entries rfl) fun e he w' hext hw' => ?_
      exact hpart hw' ((hw.entries he).later hext) _ _
    | absent => exact .pure hw (.inr ⟨rfl, rfl⟩)
    | null | bool | num | str | foreign => exact .pure hw (.inl trivial)
    | _ => rcases hv with hv | hv | ⟨c, hv, -⟩ <;> cases hv

/-! ### Writing -/

/-- A value holds a whole number that is past the range of floating point numbers. -/
def World.PastRange (w : World) (v : Value) (cause : Number.Overflow) : Prop :=
  ∃ n, w.Contains v (.num n) ∧ n.inRange = .error cause

/-- What can go wrong where a value is written: it holds itself, or a whole number past the range. -/
inductive Unwritable (w : World) (v : Value) : Fault → Prop where
  | cycle (trail : List String) : Unwritable w v (.cycle trail)
  | overflow {cause : Number.Overflow} (h : w.PastRange v cause) : Unwritable w v (.overflow cause)

/-- A deep copy in a world of data mirrors the value, or the value holds itself. -/
theorem deepCopy_works (read : HandleId → Exec Value) (hw : w.OfData) (hv : w.Readable v) :
    Works w (Unwritable w v) (deepCopy read true v) fun w' c => w.Mirrors (fun _ => none) w' v c := by
  have hr : Searchable read true (fun _ => none) w v := hw.searchable hv read true
  have hm : w.Meets (fun _ => none) v v := .self w _ v
  have hroom : w.holderCount < w.holderCount + 2 + ([] : List Value).length := by simp
  obtain ⟨w₁, he, hw₁, hend⟩ := copyFrom_works read (w.holderCount + 2) [] ["root"] hw hv
  refine .getBind ⟨w₁, he, hw₁, ?_⟩
  -- the search for cycles tells which of the two it is
  obtain ⟨-, -, ⟨hclear, -⟩ | ⟨way, hfinds, -⟩⟩ := findCycle_ends hr
  · obtain ⟨c, w₂, hrun, hcopy⟩ :=
      copyFrom_clear hr hclear hm ["root"] (.refl w) List.nodup_nil (List.nil_subset _) hroom
    rw [hrun] at hend ⊢
    obtain ⟨a, ha, -⟩ | ⟨f, hf, -⟩ := hend
    · cases ha
      exact .inl ⟨c, rfl, hcopy.mirrors⟩
    · cases hf
  · obtain ⟨w₂, hrun, -⟩ := copyFrom_finds hr hfinds hm ["root"] (.refl w) List.nodup_nil
      ⟨List.nil_subset _, by simp⟩ hroom
    rw [hrun] at hend ⊢
    obtain ⟨a, ha, -⟩ | ⟨f, hf, -⟩ := hend
    · cases ha
    · cases hf
      exact .inr ⟨_, rfl, .cycle _⟩

theorem toDatum_works (read : HandleId → Exec Value) (hw : w.OfData) (hv : w.Readable v) :
    Works w (Unwritable w v) (toDatum read true v) fun _ _ => True := by
  refine .bind (deepCopy_works read hw hv) fun w₁ c _ hw₁ hcopy => .getBind (.ofExcept hw₁ (fun _ _ => trivial) ?_)
  intro cause he
  obtain ⟨n, hn, hrange⟩ := hcopy.datumFrom_error (.self w _ v) he
  exact .overflow ⟨n, hw.contains hv hn, hrange⟩

theorem serialize_works (read : HandleId → Exec Value) (format : DataFormat) (pretty : Bool) (hw : w.OfData)
    (hv : w.Readable v) : Works w (Unwritable w v) (serialize read format pretty v) fun _ _ => True := by
  cases format with
  | json => exact .bind (toDatum_works read hw hv) fun _ _ _ hw' _ => .pure hw' trivial
  | yaml => exact .bind (toDatum_works read hw hv) fun _ _ _ hw' _ => .pure hw' trivial

end EventScript
