import EventScript.Path.Reader
import EventScript.Proofs.Quoting

/-!
# Quoted keys

How a key can be written between quotes, character by character: between double quotes as a text of JSON, between
single quotes with a backslash before whatever is taken as it is. A quoted key is read exactly if it is written in one
of these ways, and there is one way only to take its text apart.
-/

namespace EventScript

/-- Texts of items one after the other can be taken apart in one way if each can be told from what comes after it, and
from what comes after them all. -/
theorem flatMap_append_inj {α : Type} {text : α → List Char} {Valid : α → Prop} {after after' : List Char}
    (hinj : ∀ p q (ps qs : List α), Valid p → Valid q →
      text p ++ (ps.flatMap text ++ after) = text q ++ (qs.flatMap text ++ after') →
        p = q ∧ ps.flatMap text ++ after = qs.flatMap text ++ after')
    (hafter : ∀ p, Valid p → ∀ cs, text p ++ cs ≠ after) (hafter' : ∀ p, Valid p → ∀ cs, text p ++ cs ≠ after')
    {ps qs : List α} (hps : ∀ p ∈ ps, Valid p) (hqs : ∀ q ∈ qs, Valid q)
    (h : ps.flatMap text ++ after = qs.flatMap text ++ after') : ps = qs ∧ after = after' := by
  induction ps generalizing qs with
  | nil =>
    cases qs with
    | nil => exact ⟨rfl, h⟩
    | cons q qs =>
      rw [List.flatMap_cons, List.append_assoc] at h
      exact absurd h.symm (hafter q (hqs q List.mem_cons_self) _)
  | cons p ps ih =>
    rw [List.flatMap_cons, List.append_assoc] at h
    cases qs with
    | nil => exact absurd h (hafter' p (hps p List.mem_cons_self) _)
    | cons q qs =>
      rw [List.forall_mem_cons] at hps hqs
      rw [List.flatMap_cons, List.append_assoc] at h
      obtain ⟨rfl, hrest⟩ := hinj p q ps qs hps.1 hqs.1 h
      obtain ⟨rfl, hcs⟩ := ih hps.2 hqs.2 hrest
      exact ⟨rfl, hcs⟩

theorem except_map_eq_ok {ε α β : Type} {x : Except ε α} {f : α → β} {b : β} (h : x.map f = .ok b) :
    ∃ a, x = .ok a ∧ f a = b := by
  cases x with
  | ok a => exact ⟨a, rfl, Except.ok.inj h⟩
  | error e => cases h

namespace Json

/-! ### Between double quotes -/

/-- What stands for a character in a text of JSON: the character itself, a simple escape, or the escape of a code unit
by its hexadecimal digits. -/
inductive Piece where
  | plain (c : Char)
  | escaped (e : Char)
  | unit (digits : List Char)
  deriving DecidableEq

namespace Piece

def text : Piece → List Char
  | .plain c => [c]
  | .escaped e => ['\\', e]
  | .unit digits => '\\' :: 'u' :: digits

def Valid : Piece → Prop
  | .plain c => c ≠ '"' ∧ c ≠ '\\' ∧ ¬c.toNat ≤ 0x1f
  | .escaped e => (simpleEscape? e).isSome = true
  | .unit digits => (hexFour? digits).isSome = true

instance : DecidablePred Valid
  | .plain _ => inferInstanceAs (Decidable (_ ∧ _ ∧ _))
  | .escaped _ | .unit _ => inferInstanceAs (Decidable (_ = _))

/-- The number of the code unit or the character. -/
def code : Piece → Nat
  | .plain c => c.toNat
  | .escaped e => ((simpleEscape? e).getD e).toNat
  | .unit digits => (hexFour? digits).getD 0

/-- The first half of a pair of code units. -/
def isHigh (p : Piece) : Bool := 0xd800 ≤ p.code && p.code < 0xdc00

/-- The second half of a pair of code units. -/
def isLow (p : Piece) : Bool := 0xdc00 ≤ p.code && p.code < 0xe000

/-- The character of a piece by itself. Half of a pair has none, and a stand-in takes its place. -/
def char (p : Piece) : Char := if p.isHigh then Char.ofNat 0xfffd else Char.ofNat p.code

/-- The texts of pieces one after the other. -/
def textOf (ps : List Piece) : List Char := ps.flatMap text

/-- The characters of pieces. Two halves of a pair have one together. -/
def charsOf : List Piece → List Char
  | [] => []
  | [p] => [p.char]
  | p :: q :: rest =>
    if p.isHigh && q.isLow then Char.ofNat (0x10000 + (p.code - 0xd800) * 1024 + (q.code - 0xdc00)) :: charsOf rest
    else p.char :: charsOf (q :: rest)

variable {opened : Nat} {p q : Piece} {ps : List Piece} {rest : List Char}

@[simp] theorem textOf_nil : textOf [] = [] := rfl

@[simp] theorem textOf_cons (p : Piece) (ps : List Piece) : textOf (p :: ps) = p.text ++ textOf ps := rfl

/-- Only the escape of a code unit is half of a pair. -/
theorem unit_of_half (hp : p.Valid) (h : p.isHigh = true ∨ p.isLow = true) :
    ∃ digits n, p = .unit digits ∧ hexFour? digits = some n ∧ p.code = n := by
  have hhalf : 0xd800 ≤ p.code ∧ p.code < 0xe000 := by
    simp only [isHigh, isLow, Bool.and_eq_true, decide_eq_true_eq] at h
    omega
  cases p with
  | plain c =>
    have hc : c.toNat = (Piece.plain c).code := rfl
    have := c.valid
    rcases this with hv | hv
    · have : c.toNat < 0xd800 := hv
      omega
    · have : 0xdfff < c.toNat := hv.1
      omega
  | escaped e =>
    obtain ⟨d, hd⟩ := Option.isSome_iff_exists.mp hp
    have hcode : (Piece.escaped e).code = d.toNat := by rw [code, hd, Option.getD_some]
    have hlt : d.toNat < 0xd800 := by
      unfold simpleEscape? at hd
      split at hd <;> cases hd <;> decide
    omega
  | unit digits =>
    obtain ⟨n, hn⟩ := Option.isSome_iff_exists.mp hp
    exact ⟨digits, n, rfl, hn, by rw [code, hn, Option.getD_some]⟩

/-- No half follows where the next piece is none. -/
theorem lowHalf?_textOf (hps : ∀ p ∈ ps, p.Valid) (h : ∀ q ∈ ps.head?, q.isLow = false) :
    lowHalf? (textOf ps ++ '"' :: rest) = .ok none := by
  have other (c e : Char) (more : List Char) (hc : c ≠ '\\' ∨ e ≠ 'u') : lowHalf? (c :: e :: more) = .ok none := by
    unfold lowHalf?
    split
    · rename_i heq
      cases heq
      simp at hc
    · rfl
  cases ps with
  | nil => cases rest <;> rfl
  | cons q ps =>
    have hq := hps q List.mem_cons_self
    cases q with
    | plain c =>
      obtain ⟨d, more, hd⟩ : ∃ d more, textOf ps ++ '"' :: rest = d :: more :=
        List.exists_cons_of_ne_nil (List.append_ne_nil_of_right_ne_nil _ (List.cons_ne_nil _ _))
      rw [textOf_cons, List.append_assoc, hd]
      exact other c d more (.inl hq.2.1)
    | escaped e =>
      rw [textOf_cons, List.append_assoc]
      refine other '\\' e _ (.inr ?_)
      rintro rfl
      cases hq
    | unit digits =>
      obtain ⟨n, hn⟩ := Option.isSome_iff_exists.mp hq
      have hlow : (decide (0xdc00 ≤ n) && decide (n < 0xe000)) = false := by
        have hlow := h _ rfl
        rwa [isLow, code, hn] at hlow
      rw [textOf_cons, List.append_assoc]
      refine (lowHalf?_unit hn (List.append_ne_nil_of_right_ne_nil _ (List.cons_ne_nil _ _))).trans ?_
      rw [hlow]
      rfl

/-- A piece is read as its character, unless it is half of a pair with the next one. -/
theorem textFrom_piece (hp : p.Valid) (hps : ∀ q ∈ ps, q.Valid)
    (h : p.isHigh = true → ∀ q ∈ ps.head?, q.isLow = false) :
    textFrom opened 0 (p.text ++ (textOf ps ++ '"' :: rest)) =
      (textFrom opened 0 (textOf ps ++ '"' :: rest)).map fun r => (p.char :: r.1, r.2) := by
  by_cases hhigh : p.isHigh = true
  · obtain ⟨digits, n, rfl, hn, hcode⟩ := unit_of_half hp (.inl hhigh)
    have hrange := hhigh
    rw [isHigh, hcode] at hrange
    refine (textFrom_unit hn (List.append_ne_nil_of_right_ne_nil _ (List.cons_ne_nil _ _))).trans ?_
    rw [if_pos hrange, lowHalf?_textOf hps (h hhigh), char, if_pos hhigh]
  · rw [char, if_neg hhigh]
    cases p with
    | plain c =>
      rw [code, Char.ofNat_toNat]
      exact textFrom_plain hp.1 hp.2.1 hp.2.2
    | escaped e =>
      obtain ⟨d, hd⟩ := Option.isSome_iff_exists.mp hp
      rw [code, hd, Option.getD_some, Char.ofNat_toNat]
      refine textFrom_simple hd ?_
      rintro rfl
      cases hd
    | unit digits =>
      obtain ⟨n, hn⟩ := Option.isSome_iff_exists.mp hp
      rw [isHigh, code, hn, Option.getD_some] at hhigh
      rw [code, hn, Option.getD_some]
      refine (textFrom_unit hn (List.append_ne_nil_of_right_ne_nil _ (List.cons_ne_nil _ _))).trans ?_
      rw [if_neg hhigh]

/-- Two halves of a pair are read as their character. -/
theorem textFrom_halves (hp : p.Valid) (hq : q.Valid) (hhigh : p.isHigh = true) (hlow : q.isLow = true)
    (hr : rest ≠ []) :
    textFrom opened 0 (p.text ++ (q.text ++ rest)) =
      (textFrom opened 0 rest).map fun r =>
        (Char.ofNat (0x10000 + (p.code - 0xd800) * 1024 + (q.code - 0xdc00)) :: r.1, r.2) := by
  obtain ⟨digits, n, rfl, hn, hcode⟩ := unit_of_half hp (.inl hhigh)
  obtain ⟨digits', m, rfl, hm, hcode'⟩ := unit_of_half hq (.inr hlow)
  have hskip : textFrom opened 6 ((Piece.unit digits').text ++ rest) = textFrom opened 0 rest := textFrom_skip_unit hm
  rw [isHigh, hcode] at hhigh
  rw [isLow, hcode'] at hlow
  refine (textFrom_unit hn (List.append_ne_nil_of_right_ne_nil _ hr)).trans ?_
  rw [if_pos hhigh, show lowHalf? ((Piece.unit digits').text ++ rest) = .ok (some m) from
    (lowHalf?_unit hm hr).trans (by rw [if_pos hlow])]
  dsimp only
  rw [hskip, hcode, hcode']

/-- Pieces up to a closing quote are read as their characters. -/
theorem textFrom_textOf (hps : ∀ p ∈ ps, p.Valid) :
    textFrom opened 0 (textOf ps ++ '"' :: rest) = .ok (charsOf ps, rest) := by
  have hclosed : textFrom opened 0 ('"' :: rest) = .ok ([], rest) := by
    rw [textFrom.eq_def]
    rfl
  fun_induction charsOf ps with
  | case1 => exact hclosed
  | case2 p =>
    obtain ⟨hp, hnil⟩ := List.forall_mem_cons.mp hps
    rw [textOf_cons, List.append_assoc, textFrom_piece hp hnil (by simp), textOf_nil, List.nil_append, hclosed]
    rfl
  | case3 p q ps h ih =>
    obtain ⟨hhigh, hlow⟩ := (Bool.and_eq_true _ _).mp h
    obtain ⟨hp, hq, hps⟩ : p.Valid ∧ q.Valid ∧ ∀ p ∈ ps, p.Valid := by simpa using hps
    rw [textOf_cons, textOf_cons, List.append_assoc, List.append_assoc,
      textFrom_halves hp hq hhigh hlow (List.append_ne_nil_of_right_ne_nil _ (List.cons_ne_nil _ _)), ih hps]
    rfl
  | case4 p q ps h ih =>
    obtain ⟨hp, hps⟩ := List.forall_mem_cons.mp hps
    have hnext : p.isHigh = true → ∀ r ∈ (q :: ps).head?, r.isLow = false := by
      rintro hhigh r hr
      obtain rfl : q = r := by simpa using hr
      simpa [hhigh] using h
    rw [textOf_cons, List.append_assoc, textFrom_piece hp hps hnext, ih hps]
    rfl

/-- A text begins with pieces and a closing quote. -/
def Closes (cs : List Char) : Prop := ∃ ps rest, (∀ p ∈ ps, p.Valid) ∧ cs = textOf ps ++ '"' :: rest

theorem Closes.cons {cs : List Char} (h : Closes cs) (hp : p.Valid) : Closes (p.text ++ cs) := by
  obtain ⟨ps, rest, hps, rfl⟩ := h
  exact ⟨p :: ps, rest, List.forall_mem_cons.mpr ⟨hp, hps⟩, by rw [textOf_cons, List.append_assoc]⟩

/-- What is read after a backslash and a `u` begins with four hexadecimal digits, and does not end with them. -/
theorem digits_of_textFrom {more : List Char} {r : List Char × List Char}
    (h : textFrom opened 0 ('\\' :: 'u' :: more) = .ok r) :
    ∃ digits n after, more = digits ++ after ∧ hexFour? digits = some n ∧ after ≠ [] := by
  rw [textFrom, if_neg (by decide), if_pos (by decide)] at h
  dsimp only at h
  split at h
  · cases h
  rename_i hlong
  cases hn : hexFour? (more.take 4) with
  | none =>
    rw [hn] at h
    cases h
  | some n =>
    refine ⟨more.take 4, n, more.drop 4, (List.take_append_drop 4 more).symm, hn, fun hnil => hlong ?_⟩
    exact List.drop_eq_nil_iff.mp hnil

theorem digits_of_lowHalf? {cs : List Char} {low : Nat} (h : lowHalf? cs = .ok (some low)) :
    ∃ digits after, cs = '\\' :: 'u' :: (digits ++ after) ∧ hexFour? digits = some low ∧ after ≠ [] := by
  unfold lowHalf? at h
  split at h
  · rename_i more
    split at h
    · cases h
    rename_i hlong
    cases hn : hexFour? (more.take 4) with
    | none =>
      rw [hn] at h
      cases h
    | some n =>
      rw [hn] at h
      dsimp only at h
      split at h
      · cases h
        refine ⟨more.take 4, more.drop 4, by rw [List.take_append_drop], hn, fun hnil => hlong ?_⟩
        exact List.drop_eq_nil_iff.mp hnil
      · cases h
  · cases h

/-- The escape of a code unit is read with what is written after it. -/
theorem closes_of_unit {more : List Char} {r : List Char × List Char}
    (h : textFrom opened 0 ('\\' :: 'u' :: more) = .ok r)
    (ih : ∀ cs a, cs.length < more.length → textFrom opened 0 cs = .ok a → Closes cs) :
    Closes ('\\' :: 'u' :: more) := by
  obtain ⟨digits, n, after, rfl, hn, hafter⟩ := digits_of_textFrom h
  have hfour := length_of_hexFour? hn
  have hp : (Piece.unit digits).Valid := by rw [Valid, hn]; rfl
  refine Closes.cons ?_ hp
  rw [textFrom_unit hn hafter] at h
  split at h
  · split at h
    · cases h
    · obtain ⟨a, ha, -⟩ := except_map_eq_ok h
      exact ih after a (by rw [List.length_append]; omega) ha
    · rename_i low hlow
      obtain ⟨digits', after', rfl, hm, -⟩ := digits_of_lowHalf? hlow
      obtain ⟨a, ha, -⟩ := except_map_eq_ok h
      have hq : (Piece.unit digits').Valid := by rw [Valid, hm]; rfl
      rw [textFrom_skip_unit hm] at ha
      refine (ih after' a ?_ ha).cons hq
      simp only [List.length_append, List.length_cons]
      omega
  · obtain ⟨a, ha, -⟩ := except_map_eq_ok h
    exact ih after a (by rw [List.length_append]; omega) ha

/-- Whatever is read up to a closing quote is written in pieces. -/
theorem closes_of_textFrom {cs : List Char} {r : List Char × List Char} (h : textFrom opened 0 cs = .ok r) :
    Closes cs := by
  induction hn : cs.length using Nat.strongRecOn generalizing cs r with
  | ind n ih =>
    subst hn
    cases cs with
    | nil => cases h
    | cons c cs =>
      by_cases hquote : c = '"'
      · exact ⟨[], cs, nofun, by rw [hquote, textOf_nil, List.nil_append]⟩
      by_cases hback : c = '\\'
      · subst hback
        cases cs with
        | nil => cases h
        | cons e cs =>
          by_cases hunit : e = 'u'
          · subst hunit
            exact closes_of_unit h fun cs' a hlt ha => ih cs'.length (by simp only [List.length_cons]; omega) ha rfl
          · cases hd : simpleEscape? e with
            | none =>
              rw [textFrom, if_neg (by decide), if_pos (by decide), hd] at h
              · cases h
              · exact hunit
            | some d =>
              rw [textFrom_simple hd hunit] at h
              obtain ⟨a, ha, -⟩ := except_map_eq_ok h
              have hp : (Piece.escaped e).Valid := by rw [Valid, hd]; rfl
              exact (ih cs.length (by simp only [List.length_cons]; omega) ha rfl).cons hp
      · rw [textFrom.eq_def] at h
        dsimp only at h
        rw [if_neg (by simpa using hquote), if_neg (by simpa using hback)] at h
        split at h
        · cases h
        rename_i hcontrol
        obtain ⟨a, ha, -⟩ := except_map_eq_ok h
        have hp : (Piece.plain c).Valid := ⟨hquote, hback, hcontrol⟩
        exact (ih cs.length (Nat.lt_succ_self _) ha rfl).cons hp

theorem readText_textOf (hps : ∀ p ∈ ps, p.Valid) :
    readText (textOf ps ++ '"' :: rest) = .ok (String.ofList (charsOf ps), rest) := by
  rw [readText, textFrom_textOf hps]
  rfl

/-- A text between double quotes is read exactly if it is written in pieces, as the characters of these. -/
theorem readText_eq_ok_iff {cs : List Char} {key : String} :
    readText cs = .ok (key, rest) ↔
      ∃ ps, (∀ p ∈ ps, p.Valid) ∧ cs = textOf ps ++ '"' :: rest ∧ key = String.ofList (charsOf ps) := by
  constructor
  · intro h
    obtain ⟨r, hr, -⟩ := except_map_eq_ok h
    obtain ⟨ps, after, hps, rfl⟩ := closes_of_textFrom hr
    rw [readText_textOf hps] at h
    cases h
    exact ⟨ps, hps, rfl, rfl⟩
  · rintro ⟨ps, hps, rfl, rfl⟩
    exact readText_textOf hps

/-- A piece can be told from what comes after it. -/
theorem text_append_inj (hp : p.Valid) (hq : q.Valid) {cs cs' : List Char} (h : p.text ++ cs = q.text ++ cs') :
    p = q ∧ cs = cs' := by
  cases p <;> cases q <;>
    simp only [text, List.cons_append, List.nil_append, List.cons.injEq, true_and] at h
  case plain.plain => exact ⟨congrArg _ h.1, h.2⟩
  case plain.escaped | plain.unit => exact absurd h.1 hp.2.1
  case escaped.plain | unit.plain => exact absurd h.1.symm hq.2.1
  case escaped.escaped => exact ⟨congrArg _ h.1, h.2⟩
  case escaped.unit =>
    rw [Valid, h.1] at hp
    cases hp
  case unit.escaped =>
    rw [Valid, ← h.1] at hq
    cases hq
  case unit.unit =>
    obtain ⟨n, hn⟩ := Option.isSome_iff_exists.mp hp
    obtain ⟨m, hm⟩ := Option.isSome_iff_exists.mp hq
    have hlength := (length_of_hexFour? hn).trans (length_of_hexFour? hm).symm
    obtain ⟨hdigits, hrest⟩ := List.append_inj h hlength
    exact ⟨congrArg _ hdigits, hrest⟩

theorem text_ne_quote (hp : p.Valid) {cs cs' : List Char} : p.text ++ cs ≠ '"' :: cs' := by
  intro h
  cases p <;> simp only [text, List.cons_append, List.nil_append, List.cons.injEq] at h
  case plain => exact hp.1 h.1
  case escaped | unit => exact absurd h.1 (by decide)

theorem textOf_append_inj {qs : List Piece} {cs cs' : List Char} (hps : ∀ p ∈ ps, p.Valid) (hqs : ∀ q ∈ qs, q.Valid)
    (h : textOf ps ++ '"' :: cs = textOf qs ++ '"' :: cs') : ps = qs ∧ cs = cs' := by
  obtain ⟨rfl, hcs⟩ := flatMap_append_inj (fun _ _ _ _ hp hq => text_append_inj hp hq)
    (fun _ hp _ => text_ne_quote hp) (fun _ hp _ => text_ne_quote hp) hps hqs h
  exact ⟨rfl, (List.cons.inj hcs).2⟩

end Piece

end Json

/-! ### Between single quotes -/

/-- What stands for a character between single quotes: the character itself, or any character after a backslash. -/
inductive QuotedPiece where
  | plain (c : Char)
  | escaped (c : Char)
  deriving DecidableEq

namespace QuotedPiece

def text : QuotedPiece → List Char
  | .plain c => [c]
  | .escaped c => ['\\', c]

def Valid : QuotedPiece → Prop
  | .plain c => c ≠ '\x27' ∧ c ≠ '\\'
  | .escaped _ => True

instance : DecidablePred Valid
  | .plain _ => inferInstanceAs (Decidable (_ ∧ _))
  | .escaped _ => .isTrue trivial

def char : QuotedPiece → Char
  | .plain c | .escaped c => c

/-- The texts of pieces one after the other. -/
def textOf (ps : List QuotedPiece) : List Char := ps.flatMap text

variable {p q : QuotedPiece} {ps : List QuotedPiece} {rest : List Char}

@[simp] theorem textOf_nil : textOf [] = [] := rfl

@[simp] theorem textOf_cons (p : QuotedPiece) (ps : List QuotedPiece) : textOf (p :: ps) = p.text ++ textOf ps := rfl

theorem takeSingleQuoted?_text (hp : p.Valid) :
    takeSingleQuoted? (p.text ++ rest) = (takeSingleQuoted? rest).map fun r => (p.char :: r.1, r.2) := by
  cases p with
  | plain c =>
    change takeSingleQuoted? (c :: rest) = _
    rw [takeSingleQuoted?.eq_3 _ _ fun _ _ h => absurd h hp.2, if_neg (by simpa using hp.1)]
    rfl
  | escaped c => rfl

theorem takeSingleQuoted?_textOf (hps : ∀ p ∈ ps, p.Valid) :
    takeSingleQuoted? (textOf ps ++ '\x27' :: rest) = some (ps.map char, rest) := by
  induction ps with
  | nil => rfl
  | cons p ps ih =>
    rw [List.forall_mem_cons] at hps
    rw [textOf_cons, List.append_assoc, takeSingleQuoted?_text hps.1, ih hps.2]
    rfl

/-- A text between single quotes is read exactly if it is written in pieces, as the characters of these. -/
theorem takeSingleQuoted?_eq_some_iff {cs key : List Char} :
    takeSingleQuoted? cs = some (key, rest) ↔
      ∃ ps, (∀ p ∈ ps, p.Valid) ∧ cs = textOf ps ++ '\x27' :: rest ∧ key = ps.map char := by
  constructor
  · intro h
    fun_induction takeSingleQuoted? cs generalizing key with
    | case1 => cases h
    | case2 c cs ih =>
      obtain ⟨r, hr, heq⟩ := Option.map_eq_some_iff.mp h
      cases heq
      obtain ⟨ps, hps, rfl, hkey⟩ := ih hr
      exact ⟨.escaped c :: ps, List.forall_mem_cons.mpr ⟨trivial, hps⟩, rfl, congrArg (c :: ·) hkey⟩
    | case3 c cs hescape hquote =>
      cases h
      exact ⟨[], nofun, by rw [eq_of_beq hquote]; rfl, rfl⟩
    | case4 c cs hescape hquote ih =>
      obtain ⟨r, hr, heq⟩ := Option.map_eq_some_iff.mp h
      cases heq
      obtain ⟨ps, hps, rfl, hkey⟩ := ih hr
      have hback : c ≠ '\\' := by
        rintro rfl
        cases ps with
        | nil => exact hescape _ _ rfl rfl
        | cons p ps => cases p <;> exact hescape _ _ rfl rfl
      exact ⟨.plain c :: ps, List.forall_mem_cons.mpr ⟨⟨by simpa using hquote, hback⟩, hps⟩, rfl,
        congrArg (c :: ·) hkey⟩
  · rintro ⟨ps, hps, rfl, rfl⟩
    exact takeSingleQuoted?_textOf hps

theorem text_append_inj (hp : p.Valid) (hq : q.Valid) {cs cs' : List Char} (h : p.text ++ cs = q.text ++ cs') :
    p = q ∧ cs = cs' := by
  cases p <;> cases q <;>
    simp only [text, List.cons_append, List.nil_append, List.cons.injEq, true_and] at h
  case plain.plain | escaped.escaped => exact ⟨congrArg _ h.1, h.2⟩
  case plain.escaped => exact absurd h.1 hp.2
  case escaped.plain => exact absurd h.1.symm hq.2

theorem text_ne_quote (hp : p.Valid) {cs cs' : List Char} : p.text ++ cs ≠ '\x27' :: cs' := by
  intro h
  cases p <;> simp only [text, List.cons_append, List.nil_append, List.cons.injEq] at h
  case plain => exact hp.1 h.1
  case escaped => exact absurd h.1 (by decide)

theorem textOf_append_inj {qs : List QuotedPiece} {cs cs' : List Char} (hps : ∀ p ∈ ps, p.Valid)
    (hqs : ∀ q ∈ qs, q.Valid) (h : textOf ps ++ '\x27' :: cs = textOf qs ++ '\x27' :: cs') : ps = qs ∧ cs = cs' := by
  obtain ⟨rfl, hcs⟩ := flatMap_append_inj (fun _ _ _ _ hp hq => text_append_inj hp hq)
    (fun _ hp _ => text_ne_quote hp) (fun _ hp _ => text_ne_quote hp) hps hqs h
  exact ⟨rfl, (List.cons.inj hcs).2⟩

end QuotedPiece

end EventScript
