import EventScript.Json.Reader
import EventScript.Json.Writer
import Mathlib.Data.List.Basic

/-!
# Numerals and quoted texts read back

The digits of a whole number spell it, and a text between quotes, whatever is escaped in it, is read as it was. Both
hold whatever follows, as long as it does not go on with the same word.
-/

namespace EventScript

namespace Text

theorem toNat_lt_of_isDigit {c : Char} (h : c.isDigit = true) : c.toNat < 128 := by
  have hle : c.toNat ≤ 57 := by
    have := (Bool.and_eq_true _ _).mp h
    simpa [Char.le_def, UInt32.le_iff_toNat_le] using this.2
  omega

theorem digitValue?_of_isDigit {c : Char} (h : c.isDigit = true) : digitValue? c = some (c.toNat - 48) := by
  unfold digitValue?
  rw [if_pos (toNat_lt_of_isDigit h), if_pos h]

theorem isDecimal_of_isDigit {c : Char} (h : c.isDigit = true) : isDecimal c = true := by
  unfold isDecimal
  rw [digitValue?_of_isDigit h]
  rfl

theorem digitsValue_eq_ofDigitChars {cs : List Char} (h : ∀ c ∈ cs, c.isDigit = true) :
    digitsValue cs = Nat.ofDigitChars 10 cs 0 := by
  rw [Nat.ofDigitChars_eq_foldl]
  unfold digitsValue
  refine List.foldl_ext _ _ _ fun n c hc => ?_
  rw [digitValue?_of_isDigit (h c hc)]
  rfl

theorem isDigit_toDigits {n : Nat} : ∀ c ∈ Nat.toDigits 10 n, c.isDigit = true := fun _ hc =>
  Nat.isDigit_of_mem_toDigits (by decide) (by decide) hc

theorem digitsValue_toDigits (n : Nat) : digitsValue (Nat.toDigits 10 n) = n := by
  rw [digitsValue_eq_ofDigitChars isDigit_toDigits, Nat.ofDigitChars_ten_toDigits]

theorem head?_toDigits {n : Nat} (h : 0 < n) : (Nat.toDigits 10 n).head? ≠ some '0' := by
  induction n using Nat.strongRecOn with
  | ind n ih =>
    rw [Nat.toDigits_eq_if (by decide)]
    split
    · rename_i hn
      intro hd
      have := Nat.digitChar_eq_zero.mp (Option.some.inj hd)
      omega
    · have hpos : 0 < n / 10 := by omega
      rw [List.head?_append_of_ne_nil _ Nat.toDigits_ne_nil]
      exact ih (n / 10) (by omega) hpos

/-- What is true of all characters of `front` and not of the next one ends there. -/
theorem takeWhile_stop {p : Char → Bool} {front rest : List Char} (hall : ∀ c ∈ front, p c = true)
    (hstop : ∀ c ∈ rest.head?, p c = false) :
    (front ++ rest).takeWhile p = front ∧ (front ++ rest).dropWhile p = rest := by
  rw [List.takeWhile_append_of_pos hall, List.dropWhile_append_of_pos hall]
  cases rest with
  | nil => exact ⟨List.append_nil _, rfl⟩
  | cons c more =>
    have hc : ¬p c = true := by rw [hstop c rfl]; exact Bool.false_ne_true
    rw [List.takeWhile_cons_of_neg hc, List.dropWhile_cons_of_neg hc]
    exact ⟨List.append_nil _, rfl⟩

/-- The four hexadecimal digits of a code unit. -/
theorem hexWidth_four {n : Nat} (h : n < 65536) :
    hexWidth 4 n = [(n / 4096).digitChar, (n / 256 % 16).digitChar, (n / 16 % 16).digitChar, (n % 16).digitChar] := by
  have digits (m : Nat) : Nat.toDigits 16 m =
      if m < 16 then [m.digitChar] else Nat.toDigits 16 (m / 16) ++ [(m % 16).digitChar] :=
    Nat.toDigits_eq_if (by decide)
  unfold hexWidth padLeft baseDigits
  rcases Nat.lt_or_ge n 16 with h₁ | h₁
  · have hd : Nat.toDigits 16 n = [n.digitChar] := by rw [digits, if_pos h₁]
    rw [hd, Nat.div_eq_of_lt (by omega : n < 4096), Nat.div_eq_of_lt (by omega : n < 256), Nat.div_eq_of_lt h₁,
      Nat.mod_eq_of_lt h₁]
    rfl
  rcases Nat.lt_or_ge n 256 with h₂ | h₂
  · have hd : Nat.toDigits 16 n = [(n / 16).digitChar, (n % 16).digitChar] := by
      rw [digits, if_neg (by omega), digits (n / 16), if_pos (by omega)]
      rfl
    rw [hd, Nat.div_eq_of_lt (by omega : n < 4096), Nat.div_eq_of_lt h₂, Nat.mod_eq_of_lt (by omega : n / 16 < 16)]
    rfl
  rcases Nat.lt_or_ge n 4096 with h₃ | h₃
  · have hd : Nat.toDigits 16 n = [(n / 256).digitChar, (n / 16 % 16).digitChar, (n % 16).digitChar] := by
      rw [digits, if_neg (by omega), digits (n / 16), if_neg (by omega), digits (n / 16 / 16), if_pos (by omega),
        Nat.div_div_eq_div_mul]
      rfl
    rw [hd, Nat.div_eq_of_lt h₃, Nat.mod_eq_of_lt (by omega : n / 256 < 16)]
    rfl
  · rw [digits, if_neg (by omega), digits (n / 16), if_neg (by omega), digits (n / 16 / 16), if_neg (by omega),
      digits (n / 16 / 16 / 16), if_pos (by omega)]
    simp only [Nat.div_div_eq_div_mul]
    rfl

end Text

namespace Json

theorem hexValue?_digitChar {d : Nat} (h : d < 16) : hexValue? d.digitChar = some d := by
  have all : ∀ d < 16, hexValue? (Nat.digitChar d) = some d := by decide
  exact all d h

theorem hexFour?_hexWidth {n : Nat} (h : n < 65536) : hexFour? (Text.hexWidth 4 n) = some n := by
  rw [Text.hexWidth_four h]
  simp only [hexFour?, hexValue?_digitChar (by omega : n / 4096 < 16),
    hexValue?_digitChar (by omega : n / 256 % 16 < 16), hexValue?_digitChar (by omega : n / 16 % 16 < 16),
    hexValue?_digitChar (by omega : n % 16 < 16)]
  exact congrArg some (by omega)

variable {opened : Nat} {rest : List Char}

theorem textFrom_skip (cs : List Char) (n : Nat) :
    textFrom opened (cs.length + n) (cs ++ rest) = textFrom opened n rest := by
  induction cs with
  | nil => rw [List.length_nil, Nat.zero_add, List.nil_append]
  | cons c more ih =>
    rw [List.length_cons, Nat.succ_add, List.cons_append, textFrom]
    exact ih

theorem length_of_hexFour? {digits : List Char} {n : Nat} (h : hexFour? digits = some n) : digits.length = 4 := by
  unfold hexFour? at h
  split at h
  · rfl
  · cases h

/-- An escape of a code unit stands for its character, or with the escape of another half after it for that of the
pair. -/
theorem textFrom_unit {digits : List Char} {n : Nat} (h : hexFour? digits = some n) (hr : rest ≠ []) :
    textFrom opened 0 ('\\' :: 'u' :: (digits ++ rest)) =
      if 0xd800 ≤ n && n < 0xdc00 then
        match lowHalf? rest with
        | .error _ => fail .codeEscape rest.tail
        | .ok none => (textFrom opened 0 rest).map fun r => (Char.ofNat 0xfffd :: r.1, r.2)
        | .ok (some low) =>
          (textFrom opened 6 rest).map fun r =>
            (Char.ofNat (0x10000 + (n - 0xd800) * 1024 + (low - 0xdc00)) :: r.1, r.2)
      else (textFrom opened 0 rest).map fun r => (Char.ofNat n :: r.1, r.2) := by
  have hfour := length_of_hexFour? h
  have hlong : ¬(digits ++ rest).length ≤ 4 := by
    have := List.length_pos_iff.mpr hr
    rw [List.length_append]
    omega
  have hskip (m : Nat) : textFrom opened (5 + m) ('u' :: (digits ++ rest)) = textFrom opened m rest := by
    rw [show 5 = ('u' :: digits).length by rw [List.length_cons, hfour]]
    exact textFrom_skip ('u' :: digits) m
  rw [textFrom, if_neg (by decide), if_pos (by decide)]
  dsimp only
  rw [if_neg hlong, List.take_left' hfour, List.drop_left' hfour, h]
  dsimp only
  have hnone : textFrom opened 5 ('u' :: (digits ++ rest)) = textFrom opened 0 rest := hskip 0
  have hpair : textFrom opened 11 ('u' :: (digits ++ rest)) = textFrom opened 6 rest := hskip 6
  rewrite [← hnone, ← hpair]
  rfl

theorem textFrom_skip_unit {digits : List Char} {n : Nat} (h : hexFour? digits = some n) :
    textFrom opened 6 ('\\' :: 'u' :: (digits ++ rest)) = textFrom opened 0 rest := by
  rw [show 6 = ('\\' :: 'u' :: digits).length by rw [List.length_cons, List.length_cons, length_of_hexFour? h]]
  exact textFrom_skip ('\\' :: 'u' :: digits) 0

theorem lowHalf?_unit {digits : List Char} {n : Nat} (h : hexFour? digits = some n) (hr : rest ≠ []) :
    lowHalf? ('\\' :: 'u' :: (digits ++ rest)) = .ok (if 0xdc00 ≤ n && n < 0xe000 then some n else none) := by
  have hfour := length_of_hexFour? h
  have hlong : ¬(digits ++ rest).length ≤ 4 := by
    have := List.length_pos_iff.mpr hr
    rw [List.length_append]
    omega
  rw [lowHalf?, if_neg hlong, List.take_left' hfour, h]

/-- The escape of a code unit that is no half of a pair stands for its character. -/
theorem textFrom_unitEscape {n : Nat} (h : n < 65536) (hn : ¬(0xd800 ≤ n ∧ n < 0xdc00)) (hr : rest ≠ []) :
    textFrom opened 0 (unitEscape n ++ rest) =
      (textFrom opened 0 rest).map fun r => (Char.ofNat n :: r.1, r.2) := by
  change textFrom opened 0 ('\\' :: 'u' :: (Text.hexWidth 4 n ++ rest)) = _
  rw [textFrom_unit (hexFour?_hexWidth h) hr, if_neg (by simpa using hn)]

/-- The escapes of two halves of a pair stand for one character. -/
theorem textFrom_pair {high low : Nat} (hh : 0xd800 ≤ high ∧ high < 0xdc00) (hl : 0xdc00 ≤ low ∧ low < 0xe000)
    (hr : rest ≠ []) :
    textFrom opened 0 (unitEscape high ++ unitEscape low ++ rest) =
      (textFrom opened 0 rest).map fun r =>
        (Char.ofNat (0x10000 + (high - 0xd800) * 1024 + (low - 0xdc00)) :: r.1, r.2) := by
  have hlow := hexFour?_hexWidth (n := low) (by omega)
  rw [List.append_assoc]
  change textFrom opened 0 ('\\' :: 'u' :: (Text.hexWidth 4 high ++ (unitEscape low ++ rest))) = _
  rw [textFrom_unit (hexFour?_hexWidth (by omega)) (List.append_ne_nil_of_right_ne_nil _ hr),
    if_pos (by simpa using hh)]
  change (match lowHalf? ('\\' :: 'u' :: (Text.hexWidth 4 low ++ rest)) with
    | .error _ => _
    | .ok none => _
    | .ok (some low) => _) = _
  rw [lowHalf?_unit hlow hr, if_pos (by simpa using hl)]
  exact congrArg (Except.map _) (textFrom_skip_unit hlow)

theorem textFrom_simple {e d : Char} (he : simpleEscape? e = some d) (hu : e ≠ 'u') :
    textFrom opened 0 ('\\' :: e :: rest) = (textFrom opened 0 rest).map fun r => (d :: r.1, r.2) := by
  rw [textFrom, if_neg (by decide), if_pos (by decide)]
  · rw [he]
    rfl
  · exact hu

theorem textFrom_plain {c : Char} (hq : c ≠ '"') (hb : c ≠ '\\') (hc : ¬c.toNat ≤ 0x1f) :
    textFrom opened 0 (c :: rest) = (textFrom opened 0 rest).map fun r => (c :: r.1, r.2) := by
  rw [textFrom.eq_def]
  dsimp only
  rw [if_neg (by simpa using hq), if_neg (by simpa using hb), if_neg hc]

/-- No character is half of a pair of code units. -/
theorem not_half (c : Char) : ¬(0xd800 ≤ c.toNat ∧ c.toNat < 0xdc00) := by
  have := c.valid
  rintro ⟨h, h'⟩
  rcases this with hv | hv
  · have : c.toNat < 0xd800 := hv
    omega
  · have : 0xdfff < c.toNat := hv.1
    omega

/-- A character reads back from the form in which it stands between quotes. -/
theorem textFrom_escapeChar (ascii : Bool) (c : Char) (hr : rest ≠ []) :
    textFrom opened 0 (escapeChar ascii c ++ rest) = (textFrom opened 0 rest).map fun r => (c :: r.1, r.2) := by
  have hunit (h : c.toNat < 65536) : textFrom opened 0 (unitEscape c.toNat ++ rest) =
      (textFrom opened 0 rest).map fun r => (c :: r.1, r.2) := by
    rw [textFrom_unitEscape h (not_half c) hr, Char.ofNat_toNat]
  unfold escapeChar
  split
  · exact textFrom_simple rfl (by decide)
  · exact textFrom_simple rfl (by decide)
  · exact textFrom_simple rfl (by decide)
  · exact textFrom_simple rfl (by decide)
  · exact textFrom_simple rfl (by decide)
  · exact textFrom_simple rfl (by decide)
  · exact textFrom_simple rfl (by decide)
  rename_i hquote hback _ _ _ _ _
  dsimp only
  split
  · exact hunit (by omega)
  split
  · exact textFrom_plain hquote hback (by omega)
  split
  · exact hunit ‹_›
  -- a pair of halves stands for a character past the first 65536
  have hbound : c.toNat < 0x110000 := by
    rcases c.valid with hv | hv
    · have : c.toNat < 0xd800 := hv
      omega
    · exact hv.2
  rw [textFrom_pair (by omega) (by omega) hr]
  have hvalue : 0x10000 + (0xd800 + (c.toNat - 0x10000) / 1024 - 0xd800) * 1024 +
      (0xdc00 + (c.toNat - 0x10000) % 1024 - 0xdc00) = c.toNat := by omega
  rw [hvalue, Char.ofNat_toNat]

theorem textFrom_escaped (ascii : Bool) (cs : List Char) (hr : rest ≠ []) :
    textFrom opened 0 (cs.flatMap (escapeChar ascii) ++ rest) =
      (textFrom opened 0 rest).map fun r => (cs ++ r.1, r.2) := by
  induction cs with
  | nil =>
    rw [List.flatMap_nil, List.nil_append]
    cases textFrom opened 0 rest <;> rfl
  | cons c more ih =>
    rw [List.flatMap_cons, List.append_assoc, textFrom_escapeChar ascii c fun h => hr (List.append_eq_nil_iff.mp h).2,
      ih]
    cases textFrom opened 0 rest <;> rfl

theorem readText_escaped (ascii : Bool) (s : String) (rest : List Char) :
    readText (s.toList.flatMap (escapeChar ascii) ++ '"' :: rest) = .ok (s, rest) := by
  have hclosed (opened : Nat) : textFrom opened 0 ('"' :: rest) = .ok ([], rest) := by
    rw [textFrom.eq_def]
    rfl
  unfold readText
  rw [textFrom_escaped ascii s.toList (List.cons_ne_nil _ _), hclosed]
  change Except.ok (String.ofList (s.toList ++ []), rest) = _
  rw [List.append_nil, String.ofList_toList]

end Json

end EventScript
