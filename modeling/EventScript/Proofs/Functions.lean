import EventScript.Builtins
import EventScript.Proofs.Invariants

/-!
# What the functions of the language maintain

Following handles, copying, comparing, displaying and the built-in functions read and allocate, and so they maintain
every invariant that allocation leaves intact, if reading through handles does. They fail softly, or because something
is nested too deep; the built-in functions and the formats also refuse texts, patterns and counts of arguments with
faults that are not of the language.
-/

namespace EventScript

open World (Lasts)
open Fault (AdmitsCalm AdmitsForeign AdmitsDigits)

variable {I : World → Prop} {E : Fault → Prop} {read : HandleId → Exec Value}

@[grind ←]
theorem Exec.rootValue_maintains [Lasts I] [AdmitsCalm E] (s : ScopeId) (key : RootKey) (caret : Nat) :
    (Exec.rootValue s key caret).Maintains I E := by
  unfold Exec.rootValue
  refine .bind .get fun w => ?_
  cases key with
  | context => exact .map _ (.newView _)
  | expr => exact .fail rfl
  | _ => exact .pure _

@[grind ←]
theorem Exec.childScope_maintains [Lasts I] (parent : ScopeId) (context : Entries Value) (html : String)
    (blocksLocal : Bool) : (Exec.childScope parent context html blocksLocal).Maintains I E :=
  .newScope _ _

/-! ### Following, copying and comparing -/

@[grind ←]
theorem displayOf_maintains [AdmitsDigits E] (v : Value) : (displayOf v).Maintains I E := by
  unfold displayOf
  grind

theorem allPairs_maintains {equal : Seen → Value → Value → Exec (Bool × Seen)}
    (he : ∀ seen a b, (equal seen a b).Maintains I E) (seen : Seen) (pairs : List (Value × Option Value)) :
    (allPairs equal seen pairs).Maintains I E := by
  fun_induction allPairs equal seen pairs with
  | case1 => exact .pure _
  | case2 => exact .pure _
  | case3 seen x y rest ih => grind

section Structural

variable [AdmitsCalm E] (hr : ∀ h, (read h).Maintains I E)
include hr

theorem followFrom_maintains (limit : Int) (steps : Nat) (v : Value) :
    (followFrom read limit steps v).Maintains I E := by
  fun_induction followFrom read limit steps v with
  | case1 => exact .fail rfl
  | case2 steps h ih => exact .bind (hr h) ih
  | case3 => exact .pure _

@[grind ←]
theorem follow_maintains (limit : Int) (v : Value) : (follow read limit v).Maintains I E :=
  followFrom_maintains hr limit _ v

@[grind ←]
theorem seeThrough_maintains (resolve : Bool) (v : Value) : (seeThrough read resolve v).Maintains I E := by
  unfold seeThrough
  grind

@[grind ←]
theorem equalFrom_maintains (shared : Bool) (fuel : Nat) (seen : Seen) (a b : Value) :
    (equalFrom read shared fuel seen a b).Maintains I E := by
  induction fuel generalizing seen a b with
  | zero => exact .tooDeep _
  | succ fuel ih =>
    have hp := allPairs_maintains ih
    unfold equalFrom
    grind

@[grind ←]
theorem deepEqual_maintains (a b : Value) : (deepEqual read a b).Maintains I E := by
  unfold deepEqual equalValues
  grind

variable [Lasts I]

@[grind ←]
theorem copyFrom_maintains (resolve : Bool) (fuel : Nat) (active : List Value) (trail : List String) (v : Value) :
    (copyFrom read resolve fuel active trail v).Maintains I E := by
  induction fuel generalizing active trail v with
  | zero => exact .tooDeep _
  | succ fuel ih =>
    unfold copyFrom
    refine .bind (seeThrough_maintains hr resolve v) fun v => ?_
    cases v <;> grind

@[grind ←]
theorem deepCopy_maintains (resolve : Bool) (v : Value) : (deepCopy read resolve v).Maintains I E := by
  unfold deepCopy
  grind

@[grind ←]
theorem toDatum_maintains (resolve : Bool) (v : Value) : (toDatum read resolve v).Maintains I E := by
  unfold toDatum
  grind

@[grind ←]
theorem toJson_maintains (pretty resolve : Bool) (v : Value) : (toJson read pretty resolve v).Maintains I E :=
  .map _ (toDatum_maintains hr resolve v)

end Structural

/-! ### Text formats -/

section Formats

variable [Lasts I]

theorem ofData_maintains :
    (∀ d, (ofDatum d).Maintains I E) ∧ (∀ es, (ofDatumEntries es).Maintains I E) ∧
      ∀ ds, (ofData ds).Maintains I E := by
  refine ofDatum.mutual_induct (fun d => (ofDatum d).Maintains I E)
    (fun es => (ofDatumEntries es).Maintains I E) (fun ds => (ofData ds).Maintains I E) ?_ ?_ ?_ ?_ ?_ ?_ ?_ ?_ ?_ ?_
  all_goals
    intros
    first | unfold ofDatum | unfold ofData | unfold ofDatumEntries
    grind

@[grind ←]
theorem ofDatum_maintains (d : Datum) : (ofDatum d).Maintains I E := ofData_maintains.1 d

theorem formatValue_maintains {E' : Fault → Prop} [AdmitsCalm E'] [AdmitsForeign E']
    (hr : ∀ h, (read h).Maintains I E') (v format : Value) : (formatValue read v format).Maintains I E := by
  unfold formatValue
  have h : (formatOrFail read v format).Maintains I E' := by
    unfold formatOrFail
    cases format <;> grind
  exact .tryCatch h fun _ _ => .pure _

end Formats

/-! ### Built-in functions -/

@[grind ←]
theorem normIndex_maintains [AdmitsForeign E] (v : Value) (n : Nat) : (normIndex v n).Maintains I E := by
  unfold normIndex
  grind

@[grind ←]
theorem countOf_maintains [AdmitsForeign E] (v : Value) : (countOf v).Maintains I E := by
  unfold countOf
  grind

@[grind ←]
theorem blobArg_maintains [AdmitsCalm E] (function : String) (v : Value) : (blobArg function v).Maintains I E := by
  unfold blobArg
  grind

@[grind ←]
theorem elementsOf_maintains [AdmitsForeign E] (v : Value) : (elementsOf v).Maintains I E := by
  unfold elementsOf
  grind

namespace Builtin

@[grind ←]
theorem lenOf_maintains (v : Value) : (lenOf v).Maintains I E := by
  unfold lenOf
  grind

@[grind ←]
theorem endTest_maintains [AdmitsDigits E] (test : List Char → List Char → Bool) (v piece : Value) :
    (endTest test v piece).Maintains I E := by
  unfold endTest
  grind

@[grind ←]
theorem mergeOf_maintains [Lasts I] (vs : List Value) : (mergeOf vs).Maintains I E := by
  unfold mergeOf
  grind

@[grind ←]
theorem freshId_maintains [Lasts I] : freshId.Maintains I E := by
  refine .bind ?_ fun n => .pure _
  exact .of_enlarged fun w => ⟨_, _, rfl, { World.Grown.refl w with lambdas := rfl, handles := rfl }⟩

@[grind ←]
theorem intOf_maintains [AdmitsCalm E] (v : Value) : (intOf v).Maintains I E := by
  unfold intOf
  grind

@[grind ←]
theorem floatOf_maintains [AdmitsCalm E] (v : Value) : (floatOf v).Maintains I E := by
  unfold floatOf
  grind

@[grind ←]
theorem withFlag_maintains [AdmitsCalm E] (o : Pattern.Options) (flag : Value) : (withFlag o flag).Maintains I E := by
  unfold withFlag
  grind

@[grind ←]
theorem splitOf_maintains [Lasts I] [AdmitsForeign E] (v sep limit : Value) : (splitOf v sep limit).Maintains I E := by
  unfold splitOf
  grind

@[grind ←]
theorem substrOf_maintains [AdmitsCalm E] [AdmitsForeign E] (v start length : Value) :
    (substrOf v start length).Maintains I E := by
  unfold substrOf
  grind

@[grind ←]
theorem indexIn_maintains [AdmitsCalm E] (hr : ∀ h, (read h).Maintains I E) (needle : Value) (place : Nat)
    (vs : List Value) : (indexIn read needle place vs).Maintains I E := by
  induction vs generalizing place with
  | nil => exact .pure _
  | cons v rest ih =>
    unfold indexIn
    grind

@[grind ←]
theorem indexOfIn_maintains [AdmitsCalm E] [AdmitsForeign E] (hr : ∀ h, (read h).Maintains I E)
    (haystack needle start : Value) : (indexOfIn read haystack needle start).Maintains I E := by
  unfold indexOfIn
  grind

section Calls

variable [Lasts I] [AdmitsCalm E] [AdmitsForeign E]

@[grind ←]
theorem spliceOf_maintains (v start count : Value) (items : List Value) :
    (spliceOf v start count items).Maintains I E := by
  unfold spliceOf
  grind

@[grind ←]
theorem sliceOf_maintains (v start stop : Value) : (sliceOf v start stop).Maintains I E := by
  unfold sliceOf
  cases v with
  | str s => cases stop <;> grind
  | array a =>
    refine .bind .store fun s => ?_
    cases stop <;> grind
  | _ => grind

@[grind ←]
theorem matchOf_maintains (v pattern flags : Value) : (matchOf v pattern flags).Maintains I E := by
  unfold matchOf flagsOf
  grind

variable (hr : ∀ h, (read h).Maintains I E)
include hr

@[grind ←]
theorem run_maintains (b : Builtin) (args : List Value) : (b.run read args).Maintains I E := by
  fun_cases Builtin.run read b args <;> grind

@[grind ←]
theorem apply_maintains (b : Builtin) (args : List Value) : (b.apply read args).Maintains I E := by
  unfold apply
  grind

end Calls

end Builtin

end EventScript
