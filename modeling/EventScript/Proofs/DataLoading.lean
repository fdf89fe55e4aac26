import EventScript.Proofs.DataPaths
import EventScript.Serialize

/-!
# Reading data from texts

What is read from a text is data, and a world of data stays one. A JSON text that cannot be read is refused as such. A
YAML text is refused by a reason of its own, or is found to be nested without end where a mapping stands for a scalar.
-/

namespace EventScript

open World
open Exec (Works)

variable {α β : Type}

theorem Entries.distinct_ofList {γ : Type} (es : List (Key × γ)) : (ofList es).Distinct := by
  have hnil : Distinct ([] : Entries γ) := .nil
  exact hnil.update es

theorem Entries.mem_update {γ : Type} {es new : Entries γ} {e : Key × γ} (h : e ∈ update es new) :
    (∃ f ∈ new, e.2 = f.2) ∨ e ∈ es := by
  unfold update at h
  induction new generalizing es with
  | nil => exact .inr h
  | cons f rest ih =>
    rcases ih h with ⟨g, hg, he⟩ | hmem
    · exact .inl ⟨g, List.mem_cons_of_mem _ hg, he⟩
    · rcases mem_insert hmem with he | hmem
      · exact .inl ⟨f, List.mem_cons_self, he⟩
      · exact .inr hmem

theorem Entries.mem_ofList {γ : Type} {es : List (Key × γ)} {e : Key × γ} (h : e ∈ ofList es) :
    ∃ f ∈ es, e.2 = f.2 := (mem_update h).resolve_right List.not_mem_nil

theorem World.IsData.ofList {w : World} {es : List (Key × Value)} (h : ∀ e ∈ es, w.IsData e.2) :
    ∀ e ∈ Entries.ofList es, w.IsData e.2 := by
  intro e he
  obtain ⟨f, hf, hef⟩ := Entries.mem_ofList he
  rw [hef]
  exact h f hf

/-! ### Plain data -/

mutual

/-- A datum is made into data, and nothing goes wrong. -/
theorem ofDatum_works {w : World} (hw : w.OfData) (d : Datum) : Works w (fun _ => False) (ofDatum d) IsData := by
  cases d with
  | array items =>
    unfold ofDatum
    exact .bind (ofData_works hw items) fun w' vs _ hw' hvs => .newArray hw' (by simpa using hvs)
  | object entries =>
    unfold ofDatum
    exact .bind (ofDatumEntries_works hw entries) fun w' es _ hw' hes =>
      .newObject hw' (Entries.distinct_ofList es) (.ofList hes)
  | _ =>
    unfold ofDatum
    exact .pure hw trivial

theorem ofData_works {w : World} (hw : w.OfData) (items : List Datum) :
    Works w (fun _ => False) (ofData items) fun w' vs => ∀ v ∈ vs, w'.IsData v := by
  cases items with
  | nil =>
    unfold ofData
    exact .pure hw (by simp)
  | cons d rest =>
    unfold ofData
    refine .bind (ofDatum_works hw d) fun w₁ v _ hw₁ hv => .bind (ofData_works hw₁ rest) fun w₂ vs he hw₂ hvs => ?_
    exact .pure hw₂ (List.forall_mem_cons.mpr ⟨hv.later he, hvs⟩)

theorem ofDatumEntries_works {w : World} (hw : w.OfData) (entries : List (Key × Datum)) :
    Works w (fun _ => False) (ofDatumEntries entries) fun w' es => ∀ e ∈ es, w'.IsData e.2 := by
  match entries with
  | [] =>
    unfold ofDatumEntries
    exact .pure hw (by simp)
  | (k, d) :: rest =>
    unfold ofDatumEntries
    refine .bind (ofDatum_works hw d) fun w₁ v _ hw₁ hv =>
      .bind (ofDatumEntries_works hw₁ rest) fun w₂ es he hw₂ hes => ?_
    exact .pure hw₂ (List.forall_mem_cons.mpr ⟨hv.later he, hes⟩)

end

namespace Yaml

/-- Why a text has no value: it is refused, or a mapping that stands for a scalar has no end. -/
inductive Unloadable : Fault → Prop where
  | refused (r : Refusal) : Unloadable (.yaml r)
  | endless : Unloadable (.tooDeep .calling)

/-- All that has been made, and all that waits to be filled, is data. -/
structure Building.OfData (b : Building) (w : World) : Prop where
  made : ∀ (n : NodeId) v, b.made[n]? = some (some v) → w.IsData v
  waiting : ∀ x ∈ b.waiting, w.IsData x.2

theorem Building.OfData.later {b : Building} {w' : World} (h : b.OfData w) (he : w.Extends w') : b.OfData w' where
  made n v hv := (h.made n v hv).later he
  waiting x hx := (h.waiting x hx).later he

namespace Build

/-- Begun with data, a step from nodes to values leaves data behind, or finds that the text has no value. -/
def Works (b : Building) (w : World) (x : Build α) (P : World → α → Prop) : Prop :=
  Exec.Works w Unloadable (x.run b) fun w' r => r.2.OfData w' ∧ P w' r.1

namespace Works

variable {b : Building} {w : World} {P : World → α → Prop} {Q : World → β → Prop}

theorem pure (hb : b.OfData w) (hw : w.OfData) {a : α} (h : P w a) : Works b w (Pure.pure a) P :=
  Exec.Works.pure hw ⟨hb, h⟩

theorem refuse (hw : w.OfData) (r : Refusal) : Works b w (Build.refuse r : Build α) P :=
  ⟨w, .refl w, hw, .inr ⟨_, rfl, .refused r⟩⟩

theorem bind {x : Build α} {f : α → Build β} (hx : Works b w x P)
    (hf : ∀ b' w' a, w.Extends w' → b'.OfData w' → w'.OfData → P w' a → Works b' w' (f a) Q) :
    Works b w (x >>= f) Q :=
  Exec.Works.bind hx fun w' r he hw' h => hf r.2 w' r.1 he h.1 hw' h.2

theorem lift (hb : b.OfData w) {x : Exec α} (hx : Exec.Works w Unloadable x P) : Works b w (liftM x) P :=
  Exec.Works.bind hx fun _ _ he hw' h => .pure hw' ⟨hb.later he, h⟩

theorem world (hb : b.OfData w) (hw : w.OfData) : Works b w (getThe World) fun _ _ => True :=
  .lift hb (Exec.Works.ok rfl (.refl w) hw trivial)

theorem store (hb : b.OfData w) (hw : w.OfData) : Works b w (liftM Exec.store) fun _ _ => True :=
  .lift hb (Exec.Works.ok rfl (.refl w) hw trivial)

theorem getBind {f : Building → Build β} (h : Works b w (f b) Q) : Works b w (get >>= f) Q := h

theorem modify (hw : w.OfData) {f : Building → Building} (h : (f b).OfData w) :
    Works b w (modify f) fun _ _ => True := Exec.Works.pure hw ⟨h, trivial⟩

theorem mapM {f : α → Build β} (hQ : ∀ {w w' : World} {y : β}, w.Extends w' → Q w y → Q w' y)
    (hf : ∀ b' w' a, w.Extends w' → b'.OfData w' → w'.OfData → Works b' w' (f a) Q) (hb : b.OfData w) (hw : w.OfData)
    (xs : List α) : Works b w (xs.mapM f) fun w' ys => ∀ y ∈ ys, Q w' y := by
  induction xs generalizing b w with
  | nil => exact pure hb hw (by simp)
  | cons x rest ih =>
    rw [List.mapM_cons]
    refine bind (hf b w x (.refl w) hb hw) fun b₁ w₁ y he hb₁ hw₁ hy => ?_
    refine bind (ih (fun b' w' a he' => hf b' w' a (he.trans he')) hb₁ hw₁) fun b₂ w₂ ys he' hb₂ hw₂ hys =>
      pure hb₂ hw₂ ?_
    exact List.forall_mem_cons.mpr ⟨hQ he' hy, hys⟩

theorem ofExcept (hb : b.OfData w) (hw : w.OfData) (x : Except Refusal α) :
    Works b w (Build.ofExcept x) fun _ _ => True := by
  cases x with
  | ok a => exact pure hb hw trivial
  | error r => exact refuse hw r

theorem filterM {f : α → Build Bool}
    (hf : ∀ b' w' a, b'.OfData w' → w'.OfData → Works b' w' (f a) fun _ _ => True) (hb : b.OfData w) (hw : w.OfData)
    (xs : List α) : Works b w (xs.filterM f) fun _ _ => True := by
  have hfrom (kept : List α) : Works b w (xs.filterAuxM f kept) fun _ _ => True := by
    induction xs generalizing b w kept with
    | nil => exact pure hb hw trivial
    | cons x rest ih => exact bind (hf b w x hb hw) fun _ _ _ _ hb' hw' _ => ih hb' hw' _
  exact bind (hfrom []) fun _ _ _ _ hb' hw' _ => pure hb' hw' trivial

end Works

variable {b : Building} {w : World}

theorem node_works (hb : b.OfData w) (hw : w.OfData) (n : NodeId) : Works b w (node n) fun _ _ => True :=
  .getBind (.pure hb hw trivial)

theorem nodes_works (hb : b.OfData w) (hw : w.OfData) (f : Building → Graph) :
    Works b w (modify fun b => { b with nodes := f b }) fun _ _ => True :=
  .modify hw ⟨hb.made, hb.waiting⟩

/-! ### Merged mappings -/

mutual

theorem flatten_works {b : Building} {w : World} (fuel : Nat) (hb : b.OfData w) (hw : w.OfData) (n : NodeId) :
    Works b w (flatten fuel n) fun _ _ => True := by
  match fuel with
  | 0 =>
    unfold flatten
    exact .refuse hw _
  | fuel + 1 =>
    unfold flatten
    refine .bind (node_works hb hw n) fun b₁ w₁ m _ hb₁ hw₁ _ => ?_
    split
    · refine .bind (mergeMarks_works fuel hb₁ hw₁ n _) fun b₂ w₂ merged _ hb₂ hw₂ _ => ?_
      refine .bind (nodes_works hb₂ hw₂ _) fun b₃ w₃ _ _ hb₃ hw₃ _ => ?_
      refine .bind (node_works hb₃ hw₃ n) fun b₄ w₄ m _ hb₄ hw₄ _ => ?_
      split <;> exact .pure hb₄ hw₄ trivial
    · exact .refuse hw₁ _

theorem mergeMarks_works {b : Building} {w : World} (fuel : Nat) (hb : b.OfData w) (hw : w.OfData) (n : NodeId)
    (entries : List (NodeId × NodeId)) : Works b w (mergeMarks fuel n entries) fun _ _ => True := by
  match fuel, entries with
  | 0, _ =>
    unfold mergeMarks
    exact .refuse hw _
  | fuel + 1, [] =>
    unfold mergeMarks
    exact .pure hb hw trivial
  | fuel + 1, (k, v) :: rest =>
    unfold mergeMarks
    refine .bind (node_works hb hw k) fun b₁ w₁ m _ hb₁ hw₁ _ => ?_
    split
    · refine .bind (nodes_works hb₁ hw₁ _) fun b₂ w₂ _ _ hb₂ hw₂ _ => ?_
      refine .bind (node_works hb₂ hw₂ v) fun b₃ w₃ m _ hb₃ hw₃ _ => ?_
      have hrest {b' : Building} {w' : World} (hb' : b'.OfData w') (hw' : w'.OfData) (merged : List (NodeId × NodeId)) :
          Works b' w' (do return merged ++ (← mergeMarks fuel n rest)) fun _ _ => True :=
        .bind (mergeMarks_works fuel hb' hw' n rest) fun _ _ _ _ hb'' hw'' _ => .pure hb'' hw'' trivial
      dsimp only
      split
      · exact .bind (flatten_works fuel hb₃ hw₃ v) fun _ _ _ _ hb₄ hw₄ _ => hrest hb₄ hw₄ _
      · exact .bind (mergeItems_works fuel hb₃ hw₃ _) fun _ _ _ _ hb₄ hw₄ _ => hrest hb₄ hw₄ _
      · exact .bind (P := fun _ _ => True) (.refuse hw₃ _) fun _ _ _ _ hb₄ hw₄ _ => hrest hb₄ hw₄ _
    · refine .bind (nodes_works hb₁ hw₁ _) fun b₂ w₂ _ _ hb₂ hw₂ _ => ?_
      exact mergeMarks_works fuel hb₂ hw₂ n rest
    · exact mergeMarks_works fuel hb₁ hw₁ n rest

theorem mergeItems_works {b : Building} {w : World} (fuel : Nat) (hb : b.OfData w) (hw : w.OfData)
    (items : List NodeId) : Works b w (mergeItems fuel items) fun _ _ => True := by
  match fuel, items with
  | 0, _ =>
    unfold mergeItems
    exact .refuse hw _
  | fuel + 1, [] =>
    unfold mergeItems
    exact .pure hb hw trivial
  | fuel + 1, m :: rest =>
    unfold mergeItems
    refine .bind (flatten_works fuel hb hw m) fun b₁ w₁ first _ hb₁ hw₁ _ => ?_
    refine .bind (mergeItems_works fuel hb₁ hw₁ rest) fun b₂ w₂ others _ hb₂ hw₂ _ => ?_
    exact .pure hb₂ hw₂ trivial

end

/-! ### Values -/

theorem scalarText_works (fuel : Nat) (hb : b.OfData w) (hw : w.OfData) (n : NodeId) :
    Works b w (scalarText fuel n) fun _ _ => True := by
  induction fuel generalizing b w n with
  | zero => exact ⟨w, .refl w, hw, .inr ⟨_, rfl, .endless⟩⟩
  | succ fuel ih =>
    unfold scalarText
    refine .bind (node_works hb hw n) fun b₁ w₁ m _ hb₁ hw₁ _ => ?_
    split
    · exact .pure hb₁ hw₁ trivial
    · exact .refuse hw₁ _
    · refine .bind (.filterM (fun b' w' e hb' hw' => ?_) hb₁ hw₁ _) fun b₂ w₂ marked _ hb₂ hw₂ _ => ?_
      · exact .bind (node_works hb' hw' e.1) fun _ _ _ _ hb'' hw'' _ => .pure hb'' hw'' trivial
      · split
        · exact ih hb₂ hw₂ _
        · exact .refuse hw₂ _

theorem newForeign_works (hb : b.OfData w) (hw : w.OfData) (f : Foreign) : Works b w (newForeign f) IsData := by
  have hnew : Exec.Works w Unloadable (Exec.allocate (·.newForeign f)) fun _ _ => True := .allocate hw rfl rfl rfl
  exact .lift hb (.bind hnew fun _ _ _ hw' _ => .pure hw' trivial)

theorem ofScalar_works (hb : b.OfData w) (hw : w.OfData) (x : Scalar) : Works b w (ofScalar x) IsData := by
  cases x with
  | timestamp t => exact newForeign_works hb hw _
  | bytes bs => exact newForeign_works hb hw _
  | _ => exact .pure hb hw trivial

/-- What has been made of a node is noted; it may have to be filled. -/
theorem noted_works (hb : b.OfData w) (hw : w.OfData) (n : NodeId) {v : Value} (hv : w.IsData v)
    (waits : List (NodeId × Value)) (hwaits : ∀ x ∈ waits, x.2 = v) :
    Works b w (do
      modify fun b => { b with made := b.made.setIfInBounds n (some v), waiting := b.waiting ++ waits }
      return v) IsData := by
  refine .bind (P := fun w' _ => w'.IsData v) (Exec.Works.pure hw ⟨⟨fun m u hu => ?_, fun x hx => ?_⟩, hv⟩)
    fun b₁ w₁ _ _ hb₁ hw₁ hv => .pure hb₁ hw₁ hv
  · change (b.made.setIfInBounds n (some v))[m]? = some (some u) at hu
    rw [Array.getElem?_setIfInBounds] at hu
    split at hu
    · split at hu
      · cases hu
        exact hv
      · cases hu
    · exact hb.made m u hu
  · rcases List.mem_append.mp hx with hx | hx
    · exact hb.waiting x hx
    · rw [hwaits x hx]
      exact hv

theorem value_works (hb : b.OfData w) (hw : w.OfData) (n : NodeId) : Works b w (value n) IsData := by
  unfold value
  refine .getBind ?_
  split
  · rename_i v hv
    exact .pure hb hw (hb.made n v hv)
  · refine .bind (node_works hb hw n) fun b₁ w₁ m _ hb₁ hw₁ _ => ?_
    have hnoted {b' : Building} {w' : World} {v : Value} (hb' : b'.OfData w') (hw' : w'.OfData) (hv : w'.IsData v) :=
      noted_works hb' hw' n hv [(n, v)] (by simp)
    have hdone {b' : Building} {w' : World} {v : Value} (hb' : b'.OfData w') (hw' : w'.OfData) (hv : w'.IsData v) :=
      noted_works hb' hw' n hv [] (by simp)
    cases m.tag with
    | sequence | ordered | pairs =>
      exact .bind (.lift hb₁ (.newArray hw₁ (by simp))) fun _ _ _ _ hb₂ hw₂ hv => hnoted hb₂ hw₂ hv
    | mapping => exact .bind (.lift hb₁ (.newObject hw₁ .nil (by simp))) fun _ _ _ _ hb₂ hw₂ hv => hnoted hb₂ hw₂ hv
    | set => exact .bind (newForeign_works hb₁ hw₁ _) fun _ _ _ _ hb₂ hw₂ hv => hnoted hb₂ hw₂ hv
    | merge | default | other => exact .bind (.refuse hw₁ _) fun _ _ _ _ hb₂ hw₂ hv => hdone hb₂ hw₂ hv
    | _ =>
      refine .getBind (.bind (scalarText_works _ hb₁ hw₁ n) fun b₂ w₂ text _ hb₂ hw₂ _ => ?_)
      refine .bind (.ofExcept hb₂ hw₂ _) fun b₃ w₃ x _ hb₃ hw₃ _ => ?_
      exact .bind (ofScalar_works hb₃ hw₃ x) fun _ _ _ _ hb₄ hw₄ hv => hdone hb₄ hw₄ hv

/-- Collections make no key. -/
theorem key_works (hb : b.OfData w) (hw : w.OfData) (v : Value) : Works b w (key v) fun _ _ => True := by
  unfold key
  cases v with
  | null | bool | num | str => exact .pure hb hw trivial
  | foreign f =>
    refine .bind (.store hb hw) fun b₁ w₁ store _ hb₁ hw₁ _ => ?_
    dsimp only
    split
    · exact .bind (P := fun _ _ => True) (.refuse hw₁ _) fun _ _ _ _ hb₂ hw₂ _ => .pure hb₂ hw₂ trivial
    · exact .pure hb₁ hw₁ trivial
  | _ => exact .refuse hw _

theorem entries_works (hb : b.OfData w) (hw : w.OfData) (n : NodeId) :
    Works b w (entries n) fun w' es => ∀ e ∈ es, w'.IsData e.2 := by
  unfold entries
  refine .getBind (.bind (flatten_works _ hb hw n) fun b₁ w₁ pairs _ hb₁ hw₁ _ => ?_)
  refine .mapM (Q := fun w (e : Key × Value) => w.IsData e.2) (fun he h => h.later he)
    (fun b' w' e _ hb' hw' => ?_) hb₁ hw₁ pairs
  refine .bind (value_works hb' hw' e.1) fun b₂ w₂ left _ hb₂ hw₂ _ => ?_
  refine .bind (key_works hb₂ hw₂ left) fun b₃ w₃ k _ hb₃ hw₃ _ => ?_
  exact .bind (value_works hb₃ hw₃ e.2) fun _ _ _ _ hb₄ hw₄ hv => .pure hb₄ hw₄ hv

theorem pair_works (hb : b.OfData w) (hw : w.OfData) (n : NodeId) : Works b w (pair n) IsData := by
  unfold pair
  refine .bind (node_works hb hw n) fun b₁ w₁ m _ hb₁ hw₁ _ => ?_
  split
  · refine .bind (value_works hb₁ hw₁ _) fun b₂ w₂ left _ hb₂ hw₂ _ => ?_
    refine .bind (value_works hb₂ hw₂ _) fun b₃ w₃ right _ hb₃ hw₃ _ => ?_
    exact .bind (.world hb₃ hw₃) fun _ _ _ _ hb₄ hw₄ _ => newForeign_works hb₄ hw₄ _
  · exact .refuse hw₁ _

/-- A collection is filled with data. -/
theorem fill_works (hb : b.OfData w) (hw : w.OfData) (n : NodeId) (v : Value) :
    Works b w (fill n v) fun _ _ => True := by
  unfold fill
  refine .bind (node_works hb hw n) fun b₁ w₁ m _ hb₁ hw₁ _ => ?_
  split
  · refine .bind (.mapM (fun he h => h.later he) (fun b' w' k _ hb' hw' => value_works hb' hw' k) hb₁ hw₁ _)
      fun b₂ w₂ values _ hb₂ hw₂ hvalues => ?_
    exact .lift hb₂ (.setArray hw₂ _ (by simpa using hvalues) rfl)
  · refine .bind (.mapM (fun he h => h.later he) (fun b' w' k _ hb' hw' => pair_works hb' hw' k) hb₁ hw₁ _)
      fun b₂ w₂ values _ hb₂ hw₂ hvalues => ?_
    exact .lift hb₂ (.setArray hw₂ _ (by simpa using hvalues) rfl)
  · refine .bind (.mapM (fun he h => h.later he) (fun b' w' k _ hb' hw' => pair_works hb' hw' k) hb₁ hw₁ _)
      fun b₂ w₂ values _ hb₂ hw₂ hvalues => ?_
    exact .lift hb₂ (.setArray hw₂ _ (by simpa using hvalues) rfl)
  · refine .bind (entries_works hb₁ hw₁ n) fun b₂ w₂ es _ hb₂ hw₂ hes => ?_
    exact .lift hb₂ (.setObject hw₂ (Entries.distinct_ofList es) (.ofList hes) rfl)
  · exact .bind (entries_works hb₁ hw₁ n) fun _ _ _ _ hb₂ hw₂ _ => .pure hb₂ hw₂ trivial
  · exact .refuse hw₁ _

theorem fillAll_works (fuel : Nat) (hb : b.OfData w) (hw : w.OfData) : Works b w (fillAll fuel) fun _ _ => True := by
  induction fuel generalizing b w with
  | zero => exact .pure hb hw trivial
  | succ fuel ih =>
    unfold fillAll
    refine .getBind ?_
    split
    · exact .pure hb hw trivial
    · rename_i n v rest hwaiting
      have hrest : ({ b with waiting := rest } : Building).OfData w :=
        ⟨hb.made, fun x hx => hb.waiting x (by rw [hwaiting]; exact List.mem_cons_of_mem _ hx)⟩
      refine .bind (.modify hw hrest) fun b₁ w₁ _ _ hb₁ hw₁ _ => ?_
      exact .bind (fill_works hb₁ hw₁ n v) fun _ _ _ _ hb₂ hw₂ _ => ih hb₂ hw₂

end Build

theorem load_works {w : World} (hw : w.OfData) (text : String) : Exec.Works w Unloadable (load text) IsData := by
  unfold load
  split
  · exact .throw hw (.refused _)
  · exact .pure hw trivial
  · rename_i nodes root _
    have hb : ({ nodes, made := Array.replicate nodes.size none } : Building).OfData w := by
      refine ⟨fun n v hv => ?_, by simp⟩
      rw [Array.getElem?_replicate] at hv
      split at hv <;> cases hv
    have hbuild := Build.Works.bind (Build.value_works hb hw root) fun b₁ w₁ v _ hb₁ hw₁ hv =>
      .bind (Build.fillAll_works (nodes.size + 1) hb₁ hw₁) fun b₂ w₂ _ he hb₂ hw₂ _ =>
        Build.Works.pure hb₂ hw₂ (P := IsData) (hv.later he)
    exact .bind hbuild fun _ _ _ hw' h => .pure hw' h.2

end Yaml

end EventScript
