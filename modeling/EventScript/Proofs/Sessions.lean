import EventScript.Console
import EventScript.Proofs.DataLoading
import EventScript.Proofs.DataTexts
import EventScript.Proofs.JsonTexts
import EventScript.Proofs.SoftEvaluation

/-!
# Sessions of the console

A session begins with data and holds nothing but data from then on. Its lines are handled one by one, up to the first
that says `exit` or the end of the input: a command that fails is told as an error, and the next line is handled. What
the console does not tell ends the session. There is a value that is nested too deep to be printed, a whole number past
the range of floating point numbers that is to be written, and a YAML text with a scalar that does not spell a value of
the type it is marked with.
-/

namespace EventScript

open World
open Exec (Works)

/-- The reasons against a YAML text that are not told: a scalar is no truth value, number or time though it is marked
as one, an escape is past all comparison, or a mapping that stands for a scalar has no end. -/
inductive Yaml.Untold : Fault → Prop where
  | notTruth (text : String) : Untold (.yaml (.notTruth text))
  | emptyNumber : Untold (.yaml .emptyNumber)
  | notTimestamp : Untold (.yaml .notTimestamp)
  | codePoint {n : Nat} (h : largestEscape < n) : Untold (.yaml (.codePoint n))
  | endless : Untold (.tooDeep .calling)

namespace Console

/-- A path leads to a value from a scope of its own, and leaves a world behind. -/
def Reads (g : Engine) (w : World) (place : String) (v : Value) (w' : World) : Prop :=
  ∃ s w₁, Exec.rootScope w = .ok s w₁ ∧ readPlace g s place w₁ = .ok v w'

/-- The commands that end a session, each with the fault that does. -/
inductive Breaks (g : Engine) (w : World) (line : String) : Fault → Prop where
  /-- A value is printed that is nested too deep. -/
  | get {rest : String} {v : Value} {w' : World} : splitWord line = ("get", rest) →
      Reads g w (Text.strip rest) v w' → w'.NestsDeep printDepth v → Breaks g w line (.tooDeep .comparing)
  /-- A value is written that holds a whole number past the range. -/
  | write {name rest place : String} {v : Value} {w' : World} {cause : Number.Overflow} :
      splitWord line = (name, rest) → name = "json" ∨ name = "yaml" →
      place = (if (Text.strip rest).isEmpty then "$" else Text.strip rest) → Reads g w place v w' →
      w'.PastRange v cause → Breaks g w line (.overflow cause)
  /-- A text is read that is not told to be wrong. -/
  | set {rest target raw : String} {s : ScopeId} {w₁ w' : World} {f : Fault} :
      splitWord line = ("set", rest) → splitWord (Text.strip rest) = (target, raw) → Exec.rootScope w = .ok s w₁ →
      Yaml.load raw w₁ = .error f w' → Yaml.Untold f → Breaks g w line f

end Console

theorem Yaml.Unloadable.told_or_untold {f : Fault} (h : Yaml.Unloadable f) :
    Console.isTold f = true ∨ Yaml.Untold f := by
  cases h with
  | endless => exact .inr .endless
  | refused r =>
    cases r with
    | codePoint n =>
      by_cases hn : n ≤ Yaml.largestEscape
      · refine .inl ?_
        simp [Console.isTold, Fault.typeName, Yaml.Refusal.typeName, hn]
      · exact .inr (.codePoint (Nat.lt_of_not_le hn))
    | notTruth text => exact .inr (.notTruth text)
    | emptyNumber => exact .inr .emptyNumber
    | notTimestamp => exact .inr .notTimestamp
    | _ => exact .inl rfl

theorem Fault.OfPath.told {f : Fault} (h : f.OfPath) : Console.isTold f = true := by
  rcases h with h | ⟨cause, rfl⟩
  · unfold Console.isTold
    rw [h]
    rfl
  · rfl

namespace Console

variable (g : Engine) {w : World}

theorem rootScope_works {E : Fault → Prop} (hw : w.OfData) :
    Works w E Exec.rootScope fun w' s => s < w'.scopes.size := .newScope hw ⟨rfl, rfl, rfl⟩ rfl

theorem readPlace_works (hw : w.OfData) {s : ScopeId} (hs : s < w.scopes.size) (text : String) :
    Works w Fault.OfPath (readPlace g s text) Readable :=
  .exceptBind hw (fun _ hp => g.resolvePath_works hw hs (Path.parse_plain hp)) fun _ hf => Path.parse_ofPath hf

theorem deserialize_works (hw : w.OfData) (format : DataFormat) (text : String) :
    Works w (fun f => (∃ e, f = .json e) ∨ Yaml.Unloadable f) (deserialize format text) IsData := by
  cases format with
  | yaml => exact (Yaml.load_works hw text).weaken fun _ => .inr
  | json =>
    exact .exceptBind hw (fun d _ => (ofDatum_works hw d).weaken fun _ => False.elim) fun e _ => .inl ⟨e, rfl⟩

theorem told_or_pastRange {v : Value} {f : Fault} (h : Unwritable w v f) :
    isTold f = true ∨ ∃ cause, f = .overflow cause ∧ w.PastRange v cause := by
  cases h with
  | cycle trail => exact .inl rfl
  | overflow h => exact .inr ⟨_, rfl, h⟩

/-- A command fails with what is told, or it ends the session. -/
theorem runCommand_works (hw : w.OfData) (line : String) :
    Works w (fun f => isTold f = true ∨ Breaks g w line f) (runCommand g line) fun _ _ => True := by
  unfold runCommand
  rcases hsplit : splitWord line with ⟨command, rest⟩
  refine .bind (rootScope_works hw).withRun fun w₁ s _ hw₁ hs => ?_
  have hread (place : String) : Works w₁ (fun f => isTold f = true ∨ Breaks g w line f) (readPlace g s place)
      fun w₂ v => w₂.Readable v ∧ Reads g w place v w₂ :=
    (readPlace_works g hw₁ hs.1 place).withRun.mono (fun _ hf => .inl hf.told)
      fun _ _ hv => ⟨hv.1, s, w₁, hs.2, hv.2⟩
  have hwrite (format : DataFormat) (hname : command = "json" ∨ command = "yaml") :
      Works w₁ (fun f => isTold f = true ∨ Breaks g w line f) (do
        let v ← readPlace g s (if (Text.strip rest).isEmpty then "$" else Text.strip rest)
        return some (Text.dropTrailingNewlines (← serialize g.access.read format true v))) fun _ _ => True := by
    refine .bind (hread _) fun w₂ v _ hw₂ hv => ?_
    refine .bind ((serialize_works g.access.read format true hw₂ hv.1).weaken fun f hf => ?_)
      fun _ _ _ hw₃ _ => .pure hw₃ trivial
    refine (told_or_pastRange hf).imp_right ?_
    rintro ⟨cause, rfl, hpast⟩
    exact .write hsplit hname rfl hv.2 hpast
  dsimp only
  split
  · refine .guard hw₁ (.inl rfl) fun _ => .bind (hread _) fun w₂ v _ hw₂ hv => .getBind ?_
    refine .bind (P := fun _ _ => True) (.ofExcept hw₂ (fun _ _ => trivial) fun f hf => ?_)
      fun _ _ _ hw₃ _ => .pure hw₃ trivial
    rcases printShort_error hw₂.keyed hf with rfl | ⟨rfl, hdeep⟩
    · exact .inl rfl
    · exact .inr (.get hsplit hv.2 hdeep)
  · rcases hset : splitWord (Text.strip rest) with ⟨target, raw⟩
    refine .guard hw₁ (.inl rfl) fun _ =>
      .exceptBind hw₁ (fun p hp => ?_) fun _ hf => .inl (Path.parseTarget_ofPath hf).told
    obtain ⟨op, path⟩ := p
    have hload : Works w₁ (fun f => isTold f = true ∨ Breaks g w line f) (deserialize .yaml raw) IsData := by
      refine (Yaml.load_works hw₁ raw).withFault.weaken fun f hf => ?_
      obtain ⟨hf, w₂, hrun⟩ := hf
      exact hf.told_or_untold.imp_right fun huntold => .set hsplit hset hs.2 hrun huntold
    refine .choose (fun _ => .pure hw₁ trivial) (fun _ => hload) fun w₂ v he hw₂ hv => ?_
    have hput := g.writePath_works hw₂ (Nat.lt_of_lt_of_le hs.1 he.scopes) (Path.parseTarget_plain hp) hv op
    exact .bind (hput.weaken fun _ hf => .inl hf.told) fun _ _ _ hw₃ _ => .pure hw₃ trivial
  · exact hwrite _ (.inl rfl)
  · exact hwrite _ (.inr rfl)
  · exact .throw hw₁ (.inl rfl)

/-! ### The start -/

theorem beside_works {E : Fault → Prop} (hw : w.OfData) {f : World → World} (hstore : (f w).store = w.store)
    (hscopes : (f w).scopes = w.scopes) : Works w E (modify f) fun _ _ => True := by
  have he : w.Extends (f w) := ⟨by rw [hstore], by rw [hstore], by rw [hscopes]⟩
  exact .modified he (hw.changed he hscopes (fun _ => .inl (by rw [hstore])) (fun _ => .inl (by rw [hstore]))
    fun _ => .inl (by rw [hstore]))

theorem newRootCell_works {E : Fault → Prop} (hw : w.OfData) {v : Value} (hv : w.IsData v) :
    Works w E (Exec.newRootCell v) fun _ _ => True := by
  unfold Exec.newRootCell
  exact .choose (fun _ => .newObject hw .nil (by simp)) (fun _ => .pure hw hv) fun _ _ _ hw' hv' => .newCell hw' hv'

theorem loadData_works (hw : w.OfData) (path : String) (text : Option String) :
    Works w (fun _ => True) (loadData path text) fun w' r => ∀ v, r = .ok v → w'.IsData v := by
  unfold loadData
  cases text with
  | none => exact .pure hw (by simp)
  | some text =>
    have hread (format : DataFormat) : Works w (fun _ => True) (do return .ok (← deserialize format text))
        fun w' (r : Except Written Value) => ∀ v, r = .ok v → w'.IsData v := by
      refine .bind ((deserialize_works hw format text).weaken fun _ _ => trivial) fun w' v _ hw' hv => .pure hw' ?_
      rintro u ⟨⟩
      exact hv
    refine .tryCatch (hread _) fun w' f _ hw' _ => ?_
    split
    · exact .pure hw' (by simp)
    · exact .throw hw' trivial

theorem start_works {E : Fault → Prop} (hw : w.OfData) {v : Value} (hv : w.IsData v) :
    Works w E (Exec.start v .null true) fun _ _ => True := by
  refine .bind (newRootCell_works hw hv) fun w₁ _ _ hw₁ _ => ?_
  exact .bind (newRootCell_works hw₁ trivial) fun w₂ _ _ hw₂ _ => beside_works hw₂ rfl rfl

/-- A session starts in a world of data. -/
theorem startSession_works (hw : w.OfData) (args : List String) (file : String → Option String)
    (limits : Except Fault Limits) : Works w (fun _ => True) (startSession args file limits) fun _ _ => True := by
  have hnull : Works w (fun _ => True) (pure (.ok .null)) fun w' (r : Except Written Value) =>
      ∀ v, r = .ok v → w'.IsData v := by
    refine .pure hw ?_
    rintro v ⟨⟩
    trivial
  unfold startSession
  split
  on_goal 1 => split
  on_goal 1 => refine hnull.bind ?_
  on_goal 2 => refine (loadData_works hw _ _).bind ?_
  on_goal 3 => refine hnull.bind ?_
  -- wherever the data are from, the session begins with them
  all_goals
    rintro w₁ (told | v) - hw₁ hv
    · exact .pure hw₁ trivial
    · refine .exceptBind hw₁ (fun limits _ => ?_) fun _ _ => trivial
      refine .bind (beside_works hw₁ rfl rfl) fun w₂ _ he hw₂ _ => ?_
      exact .bind (start_works hw₂ ((hv v rfl).later he)) fun _ _ _ hw₃ _ => .pure hw₃ trivial

theorem startSession_ofData {args : List String} {file : String → Option String} {limits : Except Fault Limits}
    {debug : Bool} (h : startSession args file limits { debug } = .ok (.ok ()) w) : w.OfData := by
  have hempty : ({ debug } : World).OfData := by
    refine ⟨fun a v hv => absurd hv (Array.not_mem_empty v), fun o e he => absurd he List.not_mem_nil,
      fun c => trivial, fun o => .nil, fun s hs => absurd hs (Nat.not_lt_zero s)⟩
  obtain ⟨w', -, hw', ⟨a, ha, -⟩ | ⟨f, hf, -⟩⟩ := startSession_works hempty args file limits
  · rw [h] at ha
    cases ha
    exact hw'
  · rw [h] at hf
    cases hf

/-! ### Lines -/

/-- A line that is carried out as a command. -/
def IsCommand (line : String) : Prop := Text.strip line ≠ "" ∧ Text.strip line ≠ "exit"

theorem handleLine_blank {line : String} (hline : line ≠ "") (h : Text.strip line = "") (w : World) :
    handleLine g line w = .ok ({}, true) w := by
  unfold handleLine
  rw [if_neg (by simpa using hline)]
  simp [h]
  rfl

theorem handleLine_exit {line : String} (h : Text.strip line = "exit") (w : World) :
    handleLine g line w = .ok ({}, false) w := by
  have hline : ¬line.isEmpty = true := by
    intro hempty
    rw [String.isEmpty_iff.mp hempty] at h
    exact absurd h (by decide)
  unfold handleLine
  rw [if_neg hline, h]
  rfl

theorem handleLine_command {line : String} (h : IsCommand line) (w : World) :
    handleLine g line w =
      match runCommand g (Text.strip line) w with
      | .ok (some text) w' => .ok ({ out := text ++ "\n" }, true) w'
      | .ok none w' => .ok ({}, true) w'
      | .error f w' =>
        if isTold f then .ok ({ err := "Error: " ++ f.message ++ "\n" }, true) w' else .error f w' := by
  have hline : ¬line.isEmpty = true := by
    intro hempty
    refine h.1 ?_
    rw [String.isEmpty_iff.mp hempty]
    decide
  have hblank : ¬(Text.strip line).isEmpty = true := fun hempty => h.1 (String.isEmpty_iff.mp hempty)
  have hexit : ¬(Text.strip line == "exit") = true := by simpa using h.2
  unfold handleLine
  rw [if_neg hline, if_neg hblank, if_neg hexit]
  cases hrun : runCommand g (Text.strip line) w with
  | ok a w' =>
    cases a with
    | some text => exact Exec.tryCatch_ok (Exec.bind_ok hrun)
    | none => exact Exec.tryCatch_ok (Exec.bind_ok hrun)
  | error f w' =>
    rw [Exec.tryCatch_error (Exec.bind_error hrun)]
    dsimp only
    split <;> rfl

/-! ### Sessions -/

/-- How a session goes on from a world: the lines of the input, what is written to each, and the fault that ends the
session, if one does. -/
inductive Session (g : Engine) : World → List String → List Written → Option Fault → Prop where
  | over (w : World) : Session g w [] [{ out := "\nExiting.\n" }] none
  | closed (w : World) (rest : List String) : Session g w ("" :: rest) [{ out := "\nExiting.\n" }] none
  | exit {w line} (rest : List String) : Text.strip line = "exit" → Session g w (line :: rest) [{}] none
  | blank {w line rest parts e} : line ≠ "" → Text.strip line = "" → Session g w rest parts e →
      Session g w (line :: rest) ({} :: parts) e
  | shown {w w' line rest text parts e} : IsCommand line → runCommand g (Text.strip line) w = .ok (some text) w' →
      Session g w' rest parts e → Session g w (line :: rest) ({ out := text ++ "\n" } :: parts) e
  | done {w w' line rest parts e} : IsCommand line → runCommand g (Text.strip line) w = .ok none w' →
      Session g w' rest parts e → Session g w (line :: rest) ({} :: parts) e
  /-- A command fails, is told, and the next line is handled. -/
  | failed {w w' line rest f parts e} : IsCommand line → runCommand g (Text.strip line) w = .error f w' →
      isTold f = true → Session g w' rest parts e →
      Session g w (line :: rest) ({ err := "Error: " ++ f.message ++ "\n" } :: parts) e
  | broken {w w' line f} (rest : List String) : IsCommand line → runCommand g (Text.strip line) w = .error f w' →
      isTold f = false → Breaks g w (Text.strip line) f → Session g w (line :: rest) [] (some f)

/-- From a world of data, every line is handled, up to the first that says `exit`, the end of the input or a command
that ends the session. -/
theorem converse_session (hw : w.OfData) (lines : List String) :
    Session g w lines (converse g lines w).1 (converse g lines w).2 := by
  induction lines generalizing w with
  | nil => exact .over w
  | cons line rest ih =>
    unfold converse
    by_cases hline : line = ""
    · subst hline
      exact .closed w rest
    · by_cases hblank : Text.strip line = ""
      · rw [handleLine_blank g hline hblank]
        exact .blank hline hblank (ih hw)
      · by_cases hexit : Text.strip line = "exit"
        · rw [handleLine_exit g hexit]
          exact .exit rest hexit
        · have hc : IsCommand line := ⟨hblank, hexit⟩
          rw [handleLine_command g hc]
          obtain ⟨w', -, hw', ⟨a, hrun, -⟩ | ⟨f, hrun, hf⟩⟩ := runCommand_works g hw (Text.strip line)
          · rw [hrun]
            cases a with
            | some text => exact .shown hc hrun (ih hw')
            | none => exact .done hc hrun (ih hw')
          · rw [hrun]
            by_cases htold : isTold f = true
            · simp only [htold, if_true]
              exact .failed hc hrun htold (ih hw')
            · simp only [htold]
              exact .broken rest hc hrun (Bool.eq_false_iff.mpr htold) (hf.resolve_left htold)

/-! ### A session over a number -/

/-- The world of a session whose data are a number. -/
def numberWorld (n : Number) : World where
  store := { objects := #[[]], cells := #[{ value := .num n }, { value := .object 0 }] }
  stateCell := 1
  functions := builtinFunctions

/-- A world with the scope of a command. -/
def atCommand (w : World) : World where
  __ := w
  store := { w.store with objects := w.store.objects.push [] }
  scopes := w.scopes.push { context := w.store.objects.size, html := some "<root>", library := some "main" }

theorem numberWorld_reads (n : Number) :
    Reads (Engine.full .plain) (numberWorld n) "$" (.num n) (atCommand (numberWorld n)) :=
  ⟨0, atCommand (numberWorld n), rfl, rfl⟩

theorem startSession_number {i : Int} (hi : Decimal.isLong i = false) :
    startSession ["seed.json"] (fun _ => some (Json.write false (.num (.int i)))) (.ok {}) {} =
      .ok (.ok ()) (numberWorld (.int i)) := by
  have hload : loadData "seed.json" (some (Json.write false (.num (.int i)))) {} = .ok (.ok (.num (.int i))) {} := by
    have hread : deserialize .json (Json.write false (.num (.int i))) = ofDatum (.num (.int i)) := by
      unfold deserialize
      rw [Json.read_write (.int hi)]
      rfl
    refine Exec.tryCatch_ok ?_
    change (do return .ok (← deserialize .json _) : Exec (Except Written Value)) {} = _
    rw [hread]
    rfl
  have hname : ¬"seed.json".startsWith "-" = true := by decide +kernel
  unfold startSession
  dsimp only
  rw [if_neg hname]
  exact (Exec.bind_ok hload).trans rfl

theorem hugeNumber_inRange : ∃ cause, Engine.hugeNumber.inRange = .error cause := by
  have h : Engine.hugeNumber.inRange.isOk = false := by decide +kernel
  generalize Engine.hugeNumber.inRange = test at h
  cases test with
  | ok => cases h
  | error cause => exact ⟨cause, rfl⟩

theorem hugeNumber_short {i : Int} (h : Engine.hugeNumber = .int i) : Decimal.isLong i = false := by
  rw [Bool.eq_false_iff, ne_eq, Decimal.isLong_iff, Nat.not_le]
  obtain rfl := Number.int.inj h
  have hlt (m n k : Nat) (hk : m + n < k) : Nat.pow 10 m * Nat.pow 10 n < Nat.pow 10 k :=
    (Nat.pow_add 10 m n).symm.trans_lt (Nat.pow_lt_pow_right (by decide) hk)
  exact hlt 200 200 _ (by decide)

theorem toDatum_pastRange {n : Number} {cause : Number.Overflow} (h : n.inRange = .error cause)
    (read : HandleId → Exec Value) (w : World) : toDatum read true (.num n) w = .error (.overflow cause) w := by
  have hcopy : deepCopy read true (.num n) w = .ok (.num n) w := rfl
  have hdatum : w.datumFrom (w.containerCount + 2) (.num n) = .error cause := by
    unfold World.datumFrom
    dsimp only
    rw [h]
    rfl
  refine (Exec.bind_ok hcopy).trans ?_
  change Exec.ofExcept .overflow (w.datumFrom (w.containerCount + 2) (.num n)) w = _
  rw [hdatum]
  rfl

/-- A command that is to write a whole number past the range breaks off. -/
theorem runCommand_pastRange {n : Number} {cause : Number.Overflow} (h : n.inRange = .error cause) {w' : World}
    (hread : Reads g w "$" (.num n) w') : runCommand g "json" w = .error (.overflow cause) w' := by
  obtain ⟨s, w₁, hscope, hplace⟩ := hread
  exact (Exec.bind_ok hscope).trans
    ((Exec.bind_ok hplace).trans (Exec.bind_error (Exec.bind_error (toDatum_pastRange h _ _))))

/-! ### Every session -/

/-- A session starts with data, and each of its lines is handled in its turn, up to the first that says `exit` or the
end of the input: what a command shows or what is told of its failure is written, and the next line follows. Only a
command that prints what is nested too deep, writes a number past the range or reads a text with an untold error ends
the session with a fault. -/
theorem session_handles_lines {args : List String} {file : String → Option String} {limits : Except Fault Limits}
    {debug : Bool} (hstart : startSession args file limits { debug } = .ok (.ok ()) w) (lines : List String) :
    Session g w lines (converse g lines w).1 (converse g lines w).2 :=
  converse_session g (startSession_ofData hstart) lines

/-- The line after an unknown command is handled, and nothing after an exit is. -/
theorem unknown_command_is_told :
    startSession ["seed.json"] (fun _ => some (Json.write false (.num (.int 1)))) (.ok {}) {} =
        .ok (.ok ()) (numberWorld (.int 1)) ∧
      Session (Engine.full .plain) (numberWorld (.int 1)) ["show $\n", "\n", "exit\n", "json\n"]
        [{ err := "Error: unknown command 'show' (get, set, json, yaml, exit)\n" }, {}, {}] none :=
  ⟨startSession_number rfl, session_handles_lines (Engine.full .plain) (startSession_number rfl)
    ["show $\n", "\n", "exit\n", "json\n"]⟩

/-- A whole number past the range is a seed, but no JSON text is written of it: the fault is not told and ends the
session, and the next line is not handled. -/
theorem huge_number_ends_session :
    ∃ w cause, startSession ["seed.json"] (fun _ => some (Json.write false (.num Engine.hugeNumber))) (.ok {}) {} =
        .ok (.ok ()) w ∧
      converse (Engine.full .plain) ["json\n", "get $\n"] w = ([], some (.overflow cause)) := by
  obtain ⟨cause, hcause⟩ := hugeNumber_inRange
  obtain ⟨i, hi⟩ : ∃ i : Int, Engine.hugeNumber = .int i := ⟨_, rfl⟩
  rw [hi] at hcause ⊢
  have hrun := runCommand_pastRange (Engine.full .plain) hcause (numberWorld_reads (.int i))
  have hc : IsCommand "json\n" := ⟨by decide, by decide⟩
  have hstrip : Text.strip "json\n" = "json" := by decide
  refine ⟨_, cause, startSession_number (hugeNumber_short hi), ?_⟩
  unfold converse
  rw [handleLine_command (Engine.full .plain) hc, hstrip, hrun]
  rfl

end Console

end EventScript
