import EventScript.Start
import EventScript.Proofs.DistinctKeys

/-!
# Loose equality

Loose equality compares two texts as they are, and otherwise truth values, numbers and texts by the numbers that they
count as; null and an absent value are one to it. So it does not matter which of two values stands first, and values
that are strictly equal are loosely equal. It is no equivalence, as two texts may count as one number.
-/

namespace EventScript

/-- The number that a value counts as where it is compared. Truth values, numbers and texts count as one. -/
def Value.measure? : Value → Option Number
  | .bool b => some (.int (if b then 1 else 0))
  | .num n => some n
  | .str s => some (looseNumber s)
  | _ => none

def Value.isText : Value → Bool
  | .str _ => true
  | _ => false

/-- When two values are loosely equal: they are one, neither is there, or they count as the same number and are not
both texts. -/
inductive Value.Matches : Value → Value → Prop where
  | one (v : Value) : Matches v v
  | nulls {a b : Value} (ha : a.isNull = true) (hb : b.isNull = true) : Matches a b
  | numbers {a b : Value} {m n : Number} (ha : a.measure? = some m) (hb : b.measure? = some n)
      (texts : (a.isText && b.isText) = false) (h : m.eqv n = true) : Matches a b

namespace Value

variable {a b : Value}

theorem measure?_of_isNull (h : a.isNull = true) : a.measure? = none := by
  cases a with
  | null | absent => rfl
  | _ => cases h

theorem Matches.symm (h : a.Matches b) : b.Matches a := by
  cases h with
  | one => exact .one _
  | nulls ha hb => exact .nulls hb ha
  | numbers ha hb texts h => exact .numbers hb ha ((Bool.and_comm _ _).trans texts) (Number.eqv_symm h)

theorem matches_null_iff (ha : a.isNull = true) : a.Matches b ↔ b.isNull = true := by
  constructor
  · intro h
    cases h with
    | one => exact ha
    | nulls _ hb => exact hb
    | numbers hm =>
      rw [measure?_of_isNull ha] at hm
      cases hm
  · exact .nulls ha

/-- Two values that are there and are not one match by the numbers that they count as. -/
theorem matches_iff_of_ne (hne : a ≠ b) (ha : a.isNull = false) :
    a.Matches b ↔ ∃ m n, a.measure? = some m ∧ b.measure? = some n ∧ (a.isText && b.isText) = false ∧
      m.eqv n = true := by
  constructor
  · intro h
    cases h with
    | one => exact absurd rfl hne
    | nulls hnull =>
      rw [ha] at hnull
      cases hnull
    | numbers hm hn texts h => exact ⟨_, _, hm, hn, texts, h⟩
  · rintro ⟨m, n, hm, hn, texts, h⟩
    exact .numbers hm hn texts h

end Value

open Value (Matches)

/-- Of two values that are there and are not one, at most their numbers are compared. -/
theorem looseEqual_of_ne {a b : Value} (hne : a ≠ b) (ha : a.isNull = false) (hb : b.isNull = false) :
    looseEqual a b = match a.measure?, b.measure? with
      | some m, some n => !(a.isText && b.isText) && m.eqv n
      | _, _ => false := by
  unfold looseEqual
  rw [if_neg (fun h => hne (beq_iff_eq.mp h)), if_neg (by simp [ha, hb])]
  cases a with
  | null | absent => cases ha
  | bool x =>
    cases b with
    | bool y => cases x <;> cases y <;> rfl
    | _ => rfl
  | str s =>
    cases b with
    | str t => exact beq_eq_false_iff_ne.mpr fun h => hne (congrArg _ h)
    | _ => rfl
  | _ => cases b <;> rfl

theorem looseEqual_iff (a b : Value) : looseEqual a b = true ↔ a.Matches b := by
  by_cases hne : a = b
  · subst hne
    have hself : looseEqual a a = true := if_pos (beq_self_eq_true a)
    exact ⟨fun _ => .one a, fun _ => hself⟩
  · have hbeq : ¬(a == b) = true := fun h => hne (beq_iff_eq.mp h)
    cases ha : a.isNull with
    | true =>
      have hnull : looseEqual a b = b.isNull := by
        simp [looseEqual, hbeq, ha]
      rw [hnull, Value.matches_null_iff ha]
    | false =>
      cases hb : b.isNull with
      | true =>
        have hnull : looseEqual a b = false := by
          simp [looseEqual, hbeq, ha, hb]
        rw [hnull]
        refine ⟨nofun, fun h => ?_⟩
        rw [← ha]
        exact (Value.matches_null_iff hb).mp h.symm
      | false =>
        rw [looseEqual_of_ne hne ha hb, Value.matches_iff_of_ne hne ha]
        constructor
        · intro h
          split at h
          · rename_i m n hm hn
            obtain ⟨ht, hv⟩ := (Bool.and_eq_true _ _).mp h
            exact ⟨m, n, hm, hn, (Bool.not_eq_true' _).mp ht, hv⟩
          · cases h
        · rintro ⟨m, n, hm, hn, texts, h⟩
          simp only [hm, hn, texts, h]
          rfl

theorem looseEqual_comm (a b : Value) : looseEqual a b = looseEqual b a := by
  rw [Bool.eq_iff_iff, looseEqual_iff, looseEqual_iff]
  exact ⟨Matches.symm, Matches.symm⟩

theorem looseEqual_of_strictEqual {a b : Value} (h : strictEqual a b = true) : looseEqual a b = true := by
  rw [looseEqual_iff]
  unfold strictEqual at h
  split at h
  · rw [beq_iff_eq.mp h]
    exact .one _
  · exact .numbers rfl rfl rfl h
  · rw [beq_iff_eq.mp h]
    exact .one _
  · cases h

/-- Values that are strictly equal are of one kind, so that no text among them is read. -/
theorem checkLoose_of_strictEqual {a b : Value} (h : strictEqual a b = true) : checkLoose a b = .ok () := by
  unfold strictEqual at h
  split at h <;> first | rfl | cases h

/-- A truth value is loosely equal to what one or zero in its place is. -/
theorem looseEqual_bool (x : Bool) (b : Value) :
    looseEqual (.bool x) b = looseEqual (.num (.int (if x then 1 else 0))) b := by
  have hself : (Number.int (if x then 1 else 0)).eqv (.int (if x then 1 else 0)) = true := by cases x <;> rfl
  rw [Bool.eq_iff_iff, looseEqual_iff, looseEqual_iff]
  constructor
  · intro h
    cases h with
    | one => exact .numbers rfl rfl rfl hself
    | nulls ha => cases ha
    | numbers ha hb texts h => exact .numbers ha hb rfl h
  · intro h
    cases h with
    | one => exact .numbers rfl rfl rfl hself
    | nulls ha => cases ha
    | numbers ha hb texts h => exact .numbers ha hb rfl h

namespace Engine

theorem through_of_not_handle (g : Engine) {v : Value} (h : ∀ x, v ≠ .handle x) (w : World) :
    g.through v w = .ok v w :=
  congrFun (follow_of_not_handle g.access.read w.limits.handleDepth v h) w

/-- Whether two values are loosely equal at the end of their handles. -/
def equalThrough (g : Engine) (a b : Value) : Exec Bool := do
  let a ← g.through a
  let b ← g.through b
  Exec.ofExcept .digits (checkLoose a b)
  return looseEqual a b

/-- Equality of the first two operands without a short way for those that are strictly equal. -/
def plainEquality (g : Engine) (scope : Option ScopeId) (operands : List Expr) : Exec Bool := do
  let a ← g.eval (← operand operands 0) scope
  let b ← g.eval (← operand operands 1) scope
  if a == b then return true else g.equalThrough a b

theorem equalThrough_of_strictEqual (g : Engine) {a b : Value} (h : strictEqual a b = true) (w : World) :
    g.equalThrough a b w = .ok true w := by
  have ha : ∀ x, a ≠ .handle x := by
    rintro x rfl
    cases h
  have hb : ∀ x, b ≠ .handle x := by
    rintro x rfl
    cases a <;> cases h
  unfold equalThrough
  rw [Exec.bind_ok (g.through_of_not_handle ha w), Exec.bind_ok (g.through_of_not_handle hb w),
    looseEqual_of_strictEqual h, checkLoose_of_strictEqual h]
  rfl

theorem equality_eq_plainEquality (g : Engine) (scope : Option ScopeId) (operands : List Expr) :
    g.equality scope operands = g.plainEquality scope operands := by
  have hshort (a b : Value) :
      (if (a == b || strictEqual a b) = true then return true else g.equalThrough a b : Exec Bool) =
        if (a == b) = true then return true else g.equalThrough a b := by
    cases hab : a == b with
    | true => rfl
    | false =>
      cases hs : strictEqual a b with
      | false => rfl
      | true =>
        funext w
        exact (g.equalThrough_of_strictEqual hs w).symm
  unfold equality plainEquality
  refine bind_congr fun e => bind_congr fun a => bind_congr fun e' => bind_congr fun b => ?_
  exact hshort a b

end Engine

/-- Loose equality is symmetric and holds of all values that are strictly equal, so that the operator may pass over it
for these. What is not there is loosely equal to what is not there, and to nothing else, and a truth value to all that
one or zero in its place is. -/
theorem looseEqual_extends_strictEqual :
    (∀ a b, looseEqual a b = looseEqual b a) ∧
    (∀ a b, strictEqual a b = true → looseEqual a b = true) ∧
    (∀ (g : Engine) scope operands, g.equality scope operands = g.plainEquality scope operands) ∧
    (∀ a b : Value, a.isNull = true → (looseEqual a b = true ↔ b.isNull = true)) ∧
    ∀ (x : Bool) b, looseEqual (.bool x) b = looseEqual (.num (.int (if x then 1 else 0))) b := by
  refine ⟨looseEqual_comm, fun a b => looseEqual_of_strictEqual, Engine.equality_eq_plainEquality, ?_, looseEqual_bool⟩
  intro a b ha
  rw [looseEqual_iff]
  exact Value.matches_null_iff ha

/-- A whole number is strictly equal to a floating point number, null loosely to what is absent, and a truth value to
a text. -/
theorem one_in_every_form :
    strictEqual (.num (.int 1)) (.num (.float 1.0)) = true ∧ looseEqual (.num (.int 1)) (.num (.float 1.0)) = true ∧
      Value.null.isNull = true ∧ looseEqual .null .absent = true ∧
      looseEqual (.str " +1.0 ") (.bool true) = true := by
  obtain ⟨hcomm, hstrict, -, hnull, hbool⟩ := looseEqual_extends_strictEqual
  have hone : strictEqual (.num (.int 1)) (.num (.float 1.0)) = true := by decide +kernel
  have htext : looseEqual (.num (.int 1)) (.str " +1.0 ") = true := by decide +kernel
  refine ⟨hone, hstrict _ _ hone, rfl, (hnull _ _ rfl).mpr rfl, ?_⟩
  rw [hcomm, hbool]
  exact htext

/-- Two texts that are loosely equal to one number need not be equal. -/
example : looseEqual (.str "1") (.num (.int 1)) = true ∧ looseEqual (.num (.int 1)) (.str "1.0") = true ∧
    looseEqual (.str "1") (.str "1.0") = false := by decide +kernel

end EventScript
