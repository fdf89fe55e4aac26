import EventScript.Path.Reader
import EventScript.Printer
import EventScript.Proofs.Quoting

/-!
# Path texts read back

The text of a path of keys and indices reads back as the path, however its keys have to be written: bare, after a
dot or between quotes. The one exception is a key that is printed bare though a line feed follows its identifier:
the line feed stands there unquoted, and no path goes on with one. A path with an index of too many digits has no
text.
-/

namespace EventScript

/-- A key or an index: a part with a text of its own. -/
def Part.isSpelled : Part → Bool
  | .key _ | .index _ => true
  | _ => false

/-- A root with a text of its own and no value beside it. -/
def Root.isSpelled (r : Root) : Bool := r.value == .null && r.key != .expr && r.key != .null

theorem Root.isSpelled_iff {r : Root} : r.isSpelled = true ↔ r.value = .null ∧ r.key ≠ .expr ∧ r.key ≠ .null := by
  simp only [Root.isSpelled, Bool.and_eq_true, beq_iff_eq, bne_iff_ne, and_assoc]

/-- A root followed by keys and indices. -/
def Path.isSpelled : Path → Bool
  | .mk (.root r) parts => r.isSpelled && parts.all Part.isSpelled
  | .mk (.deref _) _ => false

/-- The root under the name that a text gives it back with. -/
def RootKey.readBack : RootKey → RootKey
  | .data => .global
  | k => k

/-- The path with the name of its root as a text gives it back. -/
def Path.readBack : Path → Path
  | .mk (.root r) parts => .mk (.root { r with key := r.key.readBack }) parts
  | p => p

/-- A key that is an identifier followed by one line feed. -/
def Part.EndsLine : Part → Prop
  | .key k => ∃ name, isIdentifier name = true ∧ k.toList = name ++ ['\n']
  | _ => False

theorem Part.endsLine_key {k : String} :
    (Part.key k).EndsLine ↔ k.toList.getLast? = some '\n' ∧ isIdentifier k.toList.dropLast = true := by
  constructor
  · rintro ⟨name, hname, hk⟩
    rw [hk, List.getLast?_concat, List.dropLast_concat]
    exact ⟨rfl, hname⟩
  · rintro ⟨hlast, hname⟩
    exact ⟨_, hname, (List.dropLast_append_getLast? _ hlast).symm⟩

instance : DecidablePred Part.EndsLine
  | .key _ => decidable_of_iff _ Part.endsLine_key.symm
  | .root _ | .index _ | .dyn _ | .deref _ => .isFalse id

section Identifiers

variable {name rest : List Char}

/-- What follows an identifier does not go on with it. -/
def Apart (rest : List Char) : Prop := ∀ c ∈ rest.head?, isIdentChar c = false

instance : DecidablePred Apart := fun rest => Option.decidableForallMem rest.head?

theorem apart_nil : Apart [] := fun _ h => by cases h

theorem apart_cons {c : Char} (h : isIdentChar c = false) : Apart (c :: rest) := by
  intro d hd
  cases hd
  exact h

theorem isIdentChar_of_isIdentStart {c : Char} (h : isIdentStart c = true) : isIdentChar c = true := by
  simp only [isIdentStart, isIdentChar, Char.isAlphanum, Bool.or_eq_true] at h ⊢
  rcases h with h | h
  · exact .inl (.inl h)
  · exact .inr h

theorem takeIdentifier?_append (h : isIdentifier name = true) (hrest : Apart rest) :
    takeIdentifier? (name ++ rest) = some (name, rest) := by
  cases name with
  | nil => cases h
  | cons c cs =>
    obtain ⟨hc, hcs⟩ := (Bool.and_eq_true _ _).mp h
    obtain ⟨htake, hdrop⟩ := Text.takeWhile_stop (List.all_eq_true.mp hcs) hrest
    rw [List.cons_append, takeIdentifier?, if_pos hc, htake, hdrop]

theorem takeIdentifier?_apart (hrest : Apart rest) : takeIdentifier? rest = none := by
  cases rest with
  | nil => rfl
  | cons c more =>
    have hc : ¬isIdentStart c = true := fun h => by
      have := isIdentChar_of_isIdentStart h
      rw [hrest c rfl] at this
      cases this
    rw [takeIdentifier?, if_neg hc]

/-- A key is printed as it is when it is an identifier, or one with a line feed after it. -/
theorem isBareKey_cases {k : String} (h : isBareKey k = true) :
    isIdentifier k.toList = true ∨ (Part.key k).EndsLine := by
  rcases (Bool.or_eq_true _ _).mp h with h | h
  · exact .inl h
  · obtain ⟨hlast, hname⟩ := (Bool.and_eq_true _ _).mp h
    exact .inr (Part.endsLine_key.mpr ⟨by simpa using hlast, hname⟩)

theorem isBareKey_of_endsLine {k : String} (h : (Part.key k).EndsLine) : isBareKey k = true := by
  obtain ⟨hlast, hname⟩ := Part.endsLine_key.mp h
  unfold isBareKey
  simp only [hlast, hname, BEq.rfl, Bool.true_and, Bool.or_true]

theorem exists_start_of_isIdentifier (h : isIdentifier name = true) :
    ∃ c cs, name = c :: cs ∧ isIdentStart c = true := by
  cases name with
  | nil => cases h
  | cons c cs => exact ⟨c, cs, rfl, ((Bool.and_eq_true _ _).mp h).1⟩

theorem exists_start_of_isBareKey {k : String} (h : isBareKey k = true) :
    ∃ c cs, k.toList = c :: cs ∧ isIdentStart c = true := by
  rcases isBareKey_cases h with h | ⟨name, hname, hk⟩
  · exact exists_start_of_isIdentifier h
  · obtain ⟨c, cs, rfl, hc⟩ := exists_start_of_isIdentifier hname
    exact ⟨c, cs ++ ['\n'], hk, hc⟩

end Identifiers

section Indices

theorem not_isDecimal_bracket : Text.isDecimal ']' = false := by decide

/-- The text of an index: decimal digits, with a minus before them if it is negative. -/
def indexText (negative : Bool) (digits : List Char) : List Char := if negative then '-' :: digits else digits

def indexValue (negative : Bool) (digits : List Char) : Int :=
  if negative then -(Text.digitsValue digits : Int) else Text.digitsValue digits

/-- The digits of an index are those up to the first other character. -/
theorem takeIndex?_indexText {negative : Bool} {body : List Char} (h : negative = false → body.head? ≠ some '-') :
    takeIndex? (indexText negative body) =
      if (body.takeWhile Text.isDecimal).isEmpty then none
      else some (indexValue negative (body.takeWhile Text.isDecimal), body.dropWhile Text.isDecimal) := by
  cases negative with
  | true => rfl
  | false =>
    refine takeIndex?.eq_2 body fun more hmore => h rfl ?_
    rw [hmore, List.head?_cons]

/-- An index is read up to the end of its digits. -/
theorem takeIndex?_digits (negative : Bool) {digits rest : List Char} (hne : digits ≠ [])
    (hdigits : ∀ c ∈ digits, Text.isDecimal c = true) (hrest : ∀ c ∈ rest.head?, Text.isDecimal c = false) :
    takeIndex? (indexText negative digits ++ rest) = some (indexValue negative digits, rest) := by
  obtain ⟨htake, hdrop⟩ := Text.takeWhile_stop hdigits hrest
  have hempty : ¬digits.isEmpty = true := by rwa [List.isEmpty_iff]
  have hminus : (digits ++ rest).head? ≠ some '-' := by
    obtain ⟨d, ds, rfl⟩ := List.exists_cons_of_ne_nil hne
    rintro ⟨⟩
    exact absurd (hdigits '-' List.mem_cons_self) (by decide)
  have htext : indexText negative digits ++ rest = indexText negative (digits ++ rest) := by cases negative <;> rfl
  rw [htext, takeIndex?_indexText fun _ => hminus, htake, hdrop, if_neg hempty]

theorem toList_toString (i : Int) :
    (toString i).toList = indexText (i < 0) (Nat.toDigits 10 i.natAbs) := by
  cases i with
  | ofNat n => exact String.toList_ofList
  | negSucc n =>
    rw [decide_eq_true (Int.negSucc_lt_zero n)]
    change ("-" ++ (n + 1).repr).toList = '-' :: Nat.toDigits 10 (n + 1)
    rw [String.toList_append]
    exact congrArg ('-' :: ·) String.toList_ofList

theorem bracket_not_isDecimal (rest : List Char) : ∀ c ∈ (']' :: rest).head?, Text.isDecimal c = false := by
  intro c hc
  cases hc
  exact not_isDecimal_bracket

theorem isDecimal_toDigits {n : Nat} : ∀ c ∈ Nat.toDigits 10 n, Text.isDecimal c = true :=
  fun c hc => Text.isDecimal_of_isDigit (Text.isDigit_toDigits c hc)

theorem takeIndex?_toString (i : Int) (rest : List Char) :
    takeIndex? ((toString i).toList ++ ']' :: rest) = some (i, ']' :: rest) := by
  rw [toList_toString, takeIndex?_digits _ Nat.toDigits_ne_nil isDecimal_toDigits (bracket_not_isDecimal rest),
    indexValue, Text.digitsValue_toDigits]
  by_cases hi : i < 0
  · rw [if_pos (decide_eq_true hi)]
    exact congrArg (fun j => some (j, _)) (by omega)
  · rw [if_neg (by simpa using hi)]
    exact congrArg (fun j => some (j, _)) (by omega)

/-- The digits that are counted before an index is read are those it is written with. -/
theorem indexDigits_toString (i : Int) (rest : List Char) :
    indexDigits ((toString i).toList ++ ']' :: rest) = Decimal.natText i.natAbs := by
  obtain ⟨htake, -⟩ := Text.takeWhile_stop (isDecimal_toDigits (n := i.natAbs)) (bracket_not_isDecimal rest)
  rw [toList_toString]
  by_cases hi : i < 0
  · rw [decide_eq_true hi]
    exact htake
  · rw [decide_eq_false hi]
    obtain ⟨d, ds, hds⟩ := List.exists_cons_of_ne_nil (Nat.toDigits_ne_nil (b := 10) (n := i.natAbs))
    have hd : d ≠ '-' := by
      rintro rfl
      exact absurd (Text.isDigit_toDigits '-' (hds ▸ List.mem_cons_self)) (by decide)
    unfold indexDigits indexText
    rw [if_neg Bool.false_ne_true]
    split
    · rename_i heq
      rw [hds] at heq
      exact absurd (List.cons.inj heq).1 hd
    · exact htake

end Indices

section Parts

variable {text : String} {place : List Char → Nat}

theorem readPart_dot {name rest : List Char} (h : isIdentifier name = true) (hrest : Apart rest) :
    readPart text place '.' (name ++ rest) = .ok (.key (String.ofList name), rest) := by
  rw [readPart, if_pos (by decide), takeIdentifier?_append h hrest]

theorem readPart_bracket {part : Part} {cs rest : List Char}
    (h : readBracketed text place cs = .ok (part, ']' :: rest)) :
    readPart text place '[' cs = .ok (part, rest) := by
  rw [readPart, if_neg (by decide), if_pos (by decide), h]
  rfl

theorem readBracketed_quoted (k : String) (rest : List Char) :
    readBracketed text place ((Json.quoteAscii k).toList ++ rest) = .ok (.key k, rest) := by
  have hquoted : (Json.quoteAscii k).toList ++ rest =
      '"' :: (k.toList.flatMap (Json.escapeChar true) ++ '"' :: rest) := by
    unfold Json.quoteAscii Json.quoteWith
    rw [String.toList_ofList, List.append_assoc]
    rfl
  rw [hquoted, readBracketed, Json.readText_escaped]

theorem readBracketed_index {i : Int} {cs rest : List Char} (h : takeIndex? cs = some (i, rest)) :
    readBracketed text place cs = .ok (.index i, rest) := by
  have hquote (q : Char) (hq : q = '"' ∨ q = '\x27') (more : List Char) : takeIndex? (q :: more) = none := by
    rcases hq with rfl | rfl <;> rfl
  unfold readBracketed
  split
  · rw [hquote _ (.inl rfl)] at h
    cases h
  · rw [hquote _ (.inr rfl)] at h
    cases h
  · rw [h]

/-- The text of a key or an index: a key that is printed as it is, with or without a dot before it, or brackets that
read back whatever follows. -/
theorem Part.text_cases (text : String) (place : List Char → Nat) {q : Part} (hq : q.isSpelled = true) :
    (∃ k, q = .key k ∧ isBareKey k = true ∧ (q.text true).toList = k.toList ∧ (q.text false).toList = '.' :: k.toList) ∨
      ∃ cs, (∀ bare, (q.text bare).toList = '[' :: cs) ∧ ¬q.EndsLine ∧
        (∀ rest, readPart text place '[' (cs ++ rest) = .ok (q, rest)) ∧
        (q.isLong = false → ∀ rest, Number.TooLong.check (indexDigits (cs ++ rest)) = .ok ()) := by
  cases q with
  | root | dyn | deref => cases hq
  | key k =>
    by_cases hk : isBareKey k = true
    · refine .inl ⟨k, rfl, hk, ?_, ?_⟩
      · rw [Part.text, if_pos hk, if_pos rfl]
      · rw [Part.text, if_pos hk, if_neg Bool.false_ne_true, String.toList_append]
        rfl
    · refine .inr ⟨(Json.quoteAscii k).toList ++ [']'], fun bare => ?_, fun h => hk (isBareKey_of_endsLine h),
        fun rest => ?_, fun _ rest => ?_⟩
      · rw [Part.text, if_neg hk, String.toList_append, String.toList_append]
        rfl
      · rw [List.append_assoc]
        exact readPart_bracket (readBracketed_quoted k _)
      · unfold Json.quoteAscii Json.quoteWith
        rw [String.toList_ofList]
        rfl
  | index i =>
    refine .inr ⟨(toString i).toList ++ [']'], fun bare => ?_, id, fun rest => ?_, fun hshort rest => ?_⟩
    · rw [Part.text, String.toList_append, String.toList_append]
      rfl
    · rw [List.append_assoc]
      exact readPart_bracket (readBracketed_index (takeIndex?_toString i rest))
    · rw [List.append_assoc]
      change Number.TooLong.check (indexDigits (_ ++ ']' :: rest)) = _
      rw [indexDigits_toString, Number.TooLong.check, if_neg (of_decide_eq_false hshort)]

theorem partsText_cons (bare : Bool) (q : Part) (rest : List Part) :
    (partsText bare (q :: rest)).toList = (q.text bare).toList ++ (partsText q.bareNext rest).toList := by
  rw [partsText, String.toList_append]

theorem Part.bareNext_of_isSpelled {q : Part} (hq : q.isSpelled = true) : q.bareNext = false := by
  cases q with
  | root => cases hq
  | _ => rfl

theorem apart_partsText {parts : List Part} (h : ∀ q ∈ parts, q.isSpelled = true) :
    Apart (partsText false parts).toList := by
  cases parts with
  | nil => exact apart_nil
  | cons q rest =>
    rw [partsText_cons]
    rcases Part.text_cases "" List.length (h q List.mem_cons_self) with
      ⟨k, _, _, _, htext⟩ | ⟨cs, htext, _, _⟩
    · rw [htext]
      exact apart_cons (by decide)
    · rw [htext]
      exact apart_cons (by decide)

theorem readParts_cons {q : Part} {c : Char} {cs more : List Char} (fuel : Nat)
    (h : readPart text place c cs = .ok (q, more)) :
    readParts text place (fuel + 1) (c :: cs) = (readParts text place fuel more).map (q :: ·) := by
  rw [readParts, h]
  change (readParts text place fuel more >>= fun ps => pure (q :: ps)) = _
  cases readParts text place fuel more <;> rfl

theorem readParts_lineFeed (fuel : Nat) (rest : List Char) :
    readParts text place (fuel + 1) ('\n' :: rest) = .error (.character '\n' (place ('\n' :: rest)) text) := by
  rw [readParts, readPart, if_neg (by decide), if_neg (by decide)]
  rfl

/-- A part reads back, unless a line feed follows its identifier. -/
theorem readParts_part (text : String) (place : List Char → Nat) {q : Part} {rest : List Char}
    (hq : q.isSpelled = true) (hl : ¬q.EndsLine) (hrest : Apart rest) {fuel : Nat}
    (hfuel : ((q.text false).toList ++ rest).length ≤ fuel) :
    ∃ left, rest.length ≤ left ∧
      readParts text place fuel ((q.text false).toList ++ rest) = (readParts text place left rest).map (q :: ·) := by
  rcases Part.text_cases text place hq with ⟨k, rfl, hk, _, htext⟩ | ⟨cs, htext, _, hread, _⟩
  · have hname := (isBareKey_cases hk).resolve_right hl
    rw [htext, List.cons_append, List.length_cons, List.length_append] at hfuel
    obtain ⟨left, rfl⟩ : ∃ left, fuel = left + 1 := ⟨fuel - 1, by omega⟩
    have hread : readPart text place '.' (k.toList ++ rest) = .ok (.key k, rest) := by
      rw [readPart_dot hname hrest, String.ofList_toList]
    rw [htext]
    exact ⟨left, by omega, readParts_cons left hread⟩
  · rw [htext, List.cons_append, List.length_cons, List.length_append] at hfuel
    obtain ⟨left, rfl⟩ : ∃ left, fuel = left + 1 := ⟨fuel - 1, by omega⟩
    rw [htext]
    exact ⟨left, by omega, readParts_cons left (hread rest)⟩

/-- A line feed after an identifier is no part of a path. -/
theorem readParts_endsLine {q : Part} {rest : List Char} (hl : q.EndsLine) {fuel : Nat}
    (hfuel : ((q.text false).toList ++ rest).length ≤ fuel) :
    ∃ n, readParts text place fuel ((q.text false).toList ++ rest) = .error (.character '\n' n text) := by
  cases q with
  | key k =>
    have htext : ((Part.key k).text false).toList = '.' :: k.toList := by
      rw [Part.text, if_pos (isBareKey_of_endsLine hl), if_neg Bool.false_ne_true, String.toList_append]
      rfl
    obtain ⟨name, hname, hk⟩ := hl
    rw [htext, hk, List.cons_append, List.append_assoc] at hfuel ⊢
    simp only [List.length_cons, List.length_append] at hfuel
    obtain ⟨left, rfl⟩ : ∃ left, fuel = left + 1 + 1 := ⟨fuel - 2, by simp at hfuel; omega⟩
    have hfeed : Apart (['\n'] ++ rest) := apart_cons (by decide)
    rw [readParts_cons (left + 1) (readPart_dot hname hfeed)]
    exact ⟨_, congrArg (Except.map _) (readParts_lineFeed left rest)⟩
  | root | index | dyn | deref => exact hl.elim

variable {parts : List Part}

/-- The parts of a path read back one after the other. -/
theorem readParts_text (h : ∀ q ∈ parts, q.isSpelled = true) (hl : ∀ q ∈ parts, ¬q.EndsLine) {fuel : Nat}
    (hfuel : (partsText false parts).toList.length ≤ fuel) :
    readParts text place fuel (partsText false parts).toList = .ok parts := by
  induction parts generalizing fuel with
  | nil => cases fuel <;> rfl
  | cons q rest ih =>
    have hrest : ∀ q ∈ rest, q.isSpelled = true := fun q hq => h q (List.mem_cons_of_mem _ hq)
    rw [partsText_cons, Part.bareNext_of_isSpelled (h q List.mem_cons_self)] at hfuel ⊢
    obtain ⟨left, hleft, hread⟩ := readParts_part text place (h q List.mem_cons_self)
      (hl q List.mem_cons_self) (apart_partsText hrest) hfuel
    rw [hread, ih hrest (fun q hq => hl q (List.mem_cons_of_mem _ hq)) hleft]
    rfl

/-- The first key whose identifier a line feed follows ends the reading. -/
theorem readParts_text_endsLine (text : String) (place : List Char → Nat) (h : ∀ q ∈ parts, q.isSpelled = true)
    (hl : ∃ q ∈ parts, q.EndsLine) {fuel : Nat}
    (hfuel : (partsText false parts).toList.length ≤ fuel) :
    ∃ n, readParts text place fuel (partsText false parts).toList = .error (.character '\n' n text) := by
  induction parts generalizing fuel with
  | nil =>
    obtain ⟨q, hq, _⟩ := hl
    cases hq
  | cons q rest ih =>
    have hrest : ∀ q ∈ rest, q.isSpelled = true := fun q hq => h q (List.mem_cons_of_mem _ hq)
    rw [partsText_cons, Part.bareNext_of_isSpelled (h q List.mem_cons_self)] at hfuel ⊢
    by_cases hline : q.EndsLine
    · exact readParts_endsLine hline hfuel
    obtain ⟨q', hq', hline'⟩ := hl
    have hmem : q' ∈ rest := (List.mem_cons.mp hq').resolve_left fun e => hline (e ▸ hline')
    obtain ⟨left, hleft, hread⟩ := readParts_part text place (h q List.mem_cons_self) hline
      (apart_partsText hrest) hfuel
    obtain ⟨n, hn⟩ := ih hrest ⟨q', hmem, hline'⟩ hleft
    rw [hread, hn]
    exact ⟨n, rfl⟩

theorem checkParts_cons {q : Part} {c : Char} {cs more : List Char} (fuel : Nat)
    (h : readPart "" List.length c cs = .ok (q, more))
    (hc : c = '[' → Number.TooLong.check (indexDigits cs) = .ok ()) :
    checkParts (fuel + 1) (c :: cs) = checkParts fuel more := by
  rw [checkParts, h]
  by_cases hb : c = '['
  · rw [if_pos (beq_iff_eq.mpr hb), hc hb]
    rfl
  · rw [if_neg (by simpa using hb)]

theorem checkParts_lineFeed (fuel : Nat) (rest : List Char) : checkParts fuel ('\n' :: rest) = .ok () := by
  cases fuel <;> rfl

/-- No index in the text of parts is refused if they are all short enough, whether or not the text reads back. -/
theorem checkParts_text (h : ∀ q ∈ parts, q.isSpelled = true) (hs : ∀ q ∈ parts, q.isLong = false) (fuel : Nat) :
    checkParts fuel (partsText false parts).toList = .ok () := by
  induction parts generalizing fuel with
  | nil => cases fuel <;> rfl
  | cons q rest ih =>
    have hq := h q List.mem_cons_self
    have hrest : ∀ q ∈ rest, q.isSpelled = true := fun q hq => h q (List.mem_cons_of_mem _ hq)
    have hnext := ih hrest fun q hq => hs q (List.mem_cons_of_mem _ hq)
    rw [partsText_cons, Part.bareNext_of_isSpelled hq]
    cases fuel with
    | zero => rfl
    | succ fuel =>
      rcases Part.text_cases "" List.length hq with ⟨k, rfl, hk, _, htext⟩ | ⟨cs, htext, _, hread, hcheck⟩
      · rw [htext, List.cons_append]
        rcases isBareKey_cases hk with hname | ⟨name, hname, hline⟩
        · rw [checkParts_cons fuel (readPart_dot hname (apart_partsText hrest)) nofun]
          exact hnext fuel
        · have hfeed : Apart ('\n' :: (partsText false rest).toList) := apart_cons (by decide)
          rw [hline, List.append_assoc, List.singleton_append, checkParts_cons fuel (readPart_dot hname hfeed) nofun]
          exact checkParts_lineFeed fuel _
      · rw [htext, List.cons_append, checkParts_cons fuel (hread _) fun _ => hcheck (hs q List.mem_cons_self) _]
        exact hnext fuel

end Parts

section Roots

variable {text : String} {key : RootKey} {n : Nat} {chars : List Char}

theorem takeWhile_carets (hc : ∀ c ∈ chars.head?, (c == '^') = false) :
    (List.replicate n '^' ++ chars).takeWhile (· == '^') = List.replicate n '^' ∧
      (List.replicate n '^' ++ chars).dropWhile (· == '^') = chars :=
  Text.takeWhile_stop (fun c h => by rw [(List.mem_replicate.mp h).2]; rfl) hc

/-- The parts after a root; `bare` says that an identifier may follow it at once. -/
def readAfterRoot (text : String) (place : List Char → Nat) (bare : Bool) (chars : List Char) :
    Except Malformed (List Part) :=
  match if bare then takeIdentifier? chars else none with
  | some (name, more) => (readParts text place more.length more).map (.key (String.ofList name) :: ·)
  | none => readParts text place chars.length chars

/-- The check of the indices after a root; `bare` says that an identifier may follow it at once. -/
def checkAfterRoot (bare : Bool) (chars : List Char) : Except Number.TooLong Unit :=
  let parts := ((if bare then takeIdentifier? chars else none).map (·.2)).getD chars
  checkParts parts.length parts

/-- The indices of a path are checked from its root on. -/
theorem Path.checkText_root {c : Char} {cs : List Char} (htext : text.toList = c :: cs)
    (hsign : c = '$' ∨ c = '@' ∨ c = '.') (hkey : readRootKey text (c :: cs) = .ok (key, List.replicate n '^' ++ chars))
    (hc : ∀ c ∈ chars.head?, (c == '^') = false) : Path.checkText text = checkAfterRoot (c != '$') chars := by
  unfold Path.checkText
  dsimp only
  rw [htext, hkey]
  dsimp only
  rw [(takeWhile_carets (n := n) hc).2]
  rcases hsign with rfl | rfl | rfl <;> rfl

/-- A path is read from its root on. -/
theorem Path.read_root {c : Char} {cs : List Char} (htext : text.toList = c :: cs) (hsign : c = '$' ∨ c = '@' ∨ c = '.')
    (hkey : readRootKey text (c :: cs) = .ok (key, List.replicate n '^' ++ chars))
    (hc : ∀ c ∈ chars.head?, (c == '^') = false) :
    ∃ place, Path.read text =
      (readAfterRoot text place (c != '$') chars).map (.mk (.root { key, caret := n })) := by
  have hdrop : (List.replicate n '^' ++ chars).drop n = chars := List.drop_left' List.length_replicate
  have hcaret := congrArg List.length (takeWhile_carets (n := n) hc).1
  rw [List.length_replicate] at hcaret
  refine ⟨fun rest => (c :: cs).length - rest.length, ?_⟩
  unfold Path.read readAfterRoot
  dsimp only
  rw [htext, hkey, List.isEmpty_cons, if_neg Bool.false_ne_true]
  change (pure (key, List.replicate n '^' ++ chars) >>= _ : Except Malformed Path) = _
  rw [pure_bind]
  dsimp only
  rw [hcaret, hdrop]
  have hmap (x : Except Malformed (List Part)) (name : List Char) :
      (x >>= fun parts => pure (Path.mk (.root { key, caret := n }) (.key (String.ofList name) :: parts))) =
        (x.map (.key (String.ofList name) :: ·)).map (Path.mk (.root { key, caret := n })) := by
    cases x <;> rfl
  rcases hsign with rfl | rfl | rfl
  · exact bind_pure_comp _ _
  · cases h : takeIdentifier? chars with
    | none => exact bind_pure_comp _ _
    | some r => exact hmap _ _
  · cases h : takeIdentifier? chars with
    | none => exact bind_pure_comp _ _
    | some r => exact hmap _ _

/-- The sign of a root reads back, unless what follows would go on with its name. -/
theorem readRootKey_sign (text : String) {k : RootKey} (hexpr : k ≠ .expr) (hnull : k ≠ .null)
    (h : k.bareNext = false → Apart chars) :
    readRootKey text (k.sign.toList ++ chars) = .ok (k.readBack, chars) := by
  have hname (k : RootKey) (hk : isIdentifier k.name.toList = true) (hof : RootKey.ofDollarName? k.name = some k)
      (h : Apart chars) : readRootKey text ('$' :: (k.name.toList ++ chars)) = .ok (k, chars) := by
    rw [readRootKey, takeIdentifier?_append hk h]
    dsimp only
    rw [String.ofList_toList, hof]
  have hdollar (h : Apart chars) : readRootKey text ('$' :: chars) = .ok (.global, chars) := by
    rw [readRootKey, takeIdentifier?_apart h]
  cases k with
  | global => exact hdollar (h rfl)
  | data => exact hdollar (h rfl)
  | state => exact hname .state (by decide) (by decide) (h rfl)
  | «local» => rfl
  | context => rfl
  | currentContext => exact hname .currentContext (by decide) (by decide) (h rfl)
  | component => exact hname .component (by decide) (by decide) (h rfl)
  | c => exact hname .c (by decide) (by decide) (h rfl)
  | args => exact hname .args (by decide) (by decide) (h rfl)
  | expr => exact absurd rfl hexpr
  | null => exact absurd rfl hnull

theorem sign_cases (k : RootKey) :
    ∃ c cs, k.sign.toList = c :: cs ∧ (k ≠ .expr → c = '$' ∨ c = '@' ∨ c = '.') ∧
      (k ≠ .expr → (c != '$') = k.bareNext) := by
  cases k <;> exact ⟨_, _, rfl, by decide, by decide⟩

variable {parts : List Part} {place : List Char → Nat}

/-- The parts after a root, the first of them bare after some, begin with no caret. -/
theorem caretless_partsText (h : ∀ q ∈ parts, q.isSpelled = true) (bare : Bool) :
    ∀ c ∈ (partsText bare parts).toList.head?, (c == '^') = false := by
  cases parts with
  | nil => intro c hc; cases hc
  | cons q rest =>
    rw [partsText_cons]
    rcases Part.text_cases "" List.length (h q List.mem_cons_self) with
      ⟨k, rfl, hk, hbare, hdot⟩ | ⟨cs, htext, _, _⟩
    · cases bare with
      | false =>
        rw [hdot]
        intro c hc
        cases hc
        rfl
      | true =>
        obtain ⟨d, ds, hds, hd⟩ := exists_start_of_isBareKey hk
        rw [hbare, hds]
        intro c hc
        cases hc
        rw [beq_eq_false_iff_ne]
        rintro rfl
        cases hd
    · rw [htext]
      intro c hc
      cases hc
      rfl

theorem readAfterRoot_apart {bare : Bool} (h : Apart chars) :
    readAfterRoot text place bare chars = readParts text place chars.length chars := by
  unfold readAfterRoot
  cases bare with
  | false => rfl
  | true => rw [if_pos rfl, takeIdentifier?_apart h]

theorem readAfterRoot_identifier {name more : List Char} (h : isIdentifier name = true) (hmore : Apart more) :
    readAfterRoot text place true (name ++ more) =
      (readParts text place more.length more).map (.key (String.ofList name) :: ·) := by
  unfold readAfterRoot
  rw [if_pos rfl, takeIdentifier?_append h hmore]

/-- The text of the parts after a root either begins with a bare key, or reads as the parts of any other place. -/
theorem readAfterRoot_cases (text : String) (place : List Char → Nat) (h : ∀ q ∈ parts, q.isSpelled = true)
    (bare : Bool) :
    (∃ k rest, parts = .key k :: rest ∧ bare = true ∧ isBareKey k = true ∧
        (partsText bare parts).toList = k.toList ++ (partsText false rest).toList) ∨
      readAfterRoot text place bare (partsText bare parts).toList =
        readParts text place (partsText false parts).toList.length (partsText false parts).toList := by
  cases bare with
  | false => exact .inr (readAfterRoot_apart (apart_partsText h))
  | true =>
    cases parts with
    | nil => exact .inr rfl
    | cons q rest =>
      have hq := h q List.mem_cons_self
      rcases Part.text_cases text place hq with ⟨k, rfl, hk, hbare, _⟩ | ⟨cs, htext, _, _⟩
      · exact .inl ⟨k, rest, rfl, rfl, hk, by rw [partsText_cons, hbare]; rfl⟩
      · have hsame : (partsText true (q :: rest)).toList = (partsText false (q :: rest)).toList := by
          rw [partsText_cons, partsText_cons, htext, htext]
        rw [hsame]
        exact .inr (readAfterRoot_apart (apart_partsText h))

theorem readAfterRoot_text (h : ∀ q ∈ parts, q.isSpelled = true) (hl : ∀ q ∈ parts, ¬q.EndsLine) (bare : Bool) :
    readAfterRoot text place bare (partsText bare parts).toList = .ok parts := by
  rcases readAfterRoot_cases text place h bare with ⟨k, rest, rfl, rfl, hk, htext⟩ | hsame
  · have hname := (isBareKey_cases hk).resolve_right (hl _ List.mem_cons_self)
    have hrest : ∀ q ∈ rest, q.isSpelled = true := fun q hq => h q (List.mem_cons_of_mem _ hq)
    rw [htext, readAfterRoot_identifier hname (apart_partsText hrest),
      readParts_text hrest (fun q hq => hl q (List.mem_cons_of_mem _ hq)) (Nat.le_refl _), String.ofList_toList]
    rfl
  · rw [hsame, readParts_text h hl (Nat.le_refl _)]

/-- The text of the parts after a root passes the check if their indices are short enough. -/
theorem checkAfterRoot_text (h : ∀ q ∈ parts, q.isSpelled = true) (hs : ∀ q ∈ parts, q.isLong = false) (bare : Bool) :
    checkAfterRoot bare (partsText bare parts).toList = .ok () := by
  have hall := checkParts_text h hs
  have hapart := apart_partsText h
  unfold checkAfterRoot
  cases bare with
  | false => exact hall _
  | true =>
    rw [if_pos rfl]
    cases parts with
    | nil => rfl
    | cons q rest =>
      have hrest : ∀ q ∈ rest, q.isSpelled = true := fun q hq => h q (List.mem_cons_of_mem _ hq)
      rcases Part.text_cases "" List.length (h q List.mem_cons_self) with
        ⟨k, rfl, hk, htext, _⟩ | ⟨cs, htext, _, _⟩
      · rw [partsText_cons, Part.bareNext_of_isSpelled rfl, htext]
        rcases isBareKey_cases hk with hname | ⟨name, hname, hline⟩
        · rw [takeIdentifier?_append hname (apart_partsText hrest)]
          exact checkParts_text hrest (fun q hq => hs q (List.mem_cons_of_mem _ hq)) _
        · have hfeed : Apart ('\n' :: (partsText false rest).toList) := apart_cons (by decide)
          rw [hline, List.append_assoc, List.singleton_append, takeIdentifier?_append hname hfeed]
          exact checkParts_lineFeed _ _
      · have hsame : (partsText true (q :: rest)).toList = (partsText false (q :: rest)).toList := by
          rw [partsText_cons, partsText_cons, htext, htext]
        rw [hsame, takeIdentifier?_apart hapart]
        exact hall _

theorem readAfterRoot_endsLine (text : String) (place : List Char → Nat) (h : ∀ q ∈ parts, q.isSpelled = true)
    (hl : ∃ q ∈ parts, q.EndsLine) (bare : Bool) :
    ∃ n, readAfterRoot text place bare (partsText bare parts).toList = .error (.character '\n' n text) := by
  rcases readAfterRoot_cases text place h bare with ⟨k, rest, rfl, rfl, hk, htext⟩ | hsame
  · have hrest : ∀ q ∈ rest, q.isSpelled = true := fun q hq => h q (List.mem_cons_of_mem _ hq)
    rw [htext]
    by_cases hline : (Part.key k).EndsLine
    · obtain ⟨name, hname, hk⟩ := hline
      have hfeed : Apart ('\n' :: (partsText false rest).toList) := apart_cons (by decide)
      rw [hk, List.append_assoc, List.singleton_append, readAfterRoot_identifier hname hfeed, List.length_cons,
        readParts_lineFeed]
      exact ⟨_, rfl⟩
    · obtain ⟨q, hq, hq'⟩ := hl
      have hmem : q ∈ rest := (List.mem_cons.mp hq).resolve_left fun e => hline (e ▸ hq')
      obtain ⟨n, hn⟩ := readParts_text_endsLine text place hrest ⟨q, hmem, hq'⟩ (Nat.le_refl _)
      rw [readAfterRoot_identifier ((isBareKey_cases hk).resolve_right hline) (apart_partsText hrest), hn]
      exact ⟨n, rfl⟩
  · rw [hsame]
    exact readParts_text_endsLine text place h hl (Nat.le_refl _)

end Roots

namespace Path

theorem toList_text (r : Root) (parts : List Part) : (Path.mk (.root r) parts).text.toList =
    r.key.sign.toList ++ (List.replicate r.caret '^' ++ (partsText r.key.bareNext parts).toList) := by
  change (r.text ++ partsText r.key.bareNext parts).toList = _
  rw [String.toList_append, Root.text, String.toList_append, String.toList_ofList, List.append_assoc]

/-- The text of a spelled path begins with the sign of its root, which reads back, and the carets after it. -/
theorem root_of_text {r : Root} {parts : List Part} (hr : r.isSpelled = true) (h : ∀ q ∈ parts, q.isSpelled = true) :
    ∃ c cs, (Path.mk (.root r) parts).text.toList = c :: cs ∧ (c = '$' ∨ c = '@' ∨ c = '.') ∧
      (c != '$') = r.key.bareNext ∧ readRootKey (Path.mk (.root r) parts).text (c :: cs) =
        .ok (r.key.readBack, List.replicate r.caret '^' ++ (partsText r.key.bareNext parts).toList) := by
  obtain ⟨_, hexpr, hnull⟩ := Root.isSpelled_iff.mp hr
  have htext := toList_text r parts
  have hapart (hb : r.key.bareNext = false) :
      Apart (List.replicate r.caret '^' ++ (partsText r.key.bareNext parts).toList) := by
    rw [hb]
    cases r.caret with
    | zero => exact apart_partsText h
    | succ n => exact apart_cons (by decide)
  have hkey := readRootKey_sign (Path.mk (.root r) parts).text hexpr hnull hapart
  obtain ⟨c, cs, hsign, hc, hbare⟩ := sign_cases r.key
  rw [hsign, List.cons_append] at htext hkey
  exact ⟨c, _, htext, hc hexpr, hbare hexpr, hkey⟩

/-- A spelled path is read from its root on, the parts after it as they follow the sign of the root. -/
theorem read_text_root {r : Root} {parts : List Part} (hr : r.isSpelled = true) (h : ∀ q ∈ parts, q.isSpelled = true) :
    ∃ place, Path.read (Path.mk (.root r) parts).text =
      (readAfterRoot (Path.mk (.root r) parts).text place r.key.bareNext (partsText r.key.bareNext parts).toList).map
        (Path.mk (.root { key := r.key.readBack, caret := r.caret })) := by
  obtain ⟨c, cs, htext, hc, hbare, hkey⟩ := root_of_text hr h
  obtain ⟨place, hread⟩ := Path.read_root htext hc hkey (caretless_partsText h _)
  rw [hbare] at hread
  exact ⟨place, hread⟩

variable {p : Path}

/-- A spelled path reads back, its root by the name that reading gives it. -/
theorem read_text (h : p.isSpelled = true) (hl : ∀ q ∈ p.rest, ¬q.EndsLine) : Path.read p.text = .ok p.readBack := by
  cases p with
  | mk head parts =>
    cases head with
    | deref => cases h
    | root r =>
      obtain ⟨hr, hparts⟩ := (Bool.and_eq_true _ _).mp h
      have hparts := List.all_eq_true.mp hparts
      obtain ⟨place, hread⟩ := read_text_root hr hparts
      have hroot : { key := r.key.readBack, caret := r.caret } = { r with key := r.key.readBack } := by
        rw [(Root.isSpelled_iff.mp hr).1]
      rw [hread, readAfterRoot_text hparts hl, hroot]
      rfl

/-- A key that ends in a line feed after an identifier does not read back. -/
theorem read_text_endsLine (h : p.isSpelled = true) (hl : ∃ q ∈ p.rest, q.EndsLine) :
    ∃ n, Path.read p.text = .error (.character '\n' n p.text) := by
  cases p with
  | mk head parts =>
    cases head with
    | deref => cases h
    | root r =>
      obtain ⟨hr, hparts⟩ := (Bool.and_eq_true _ _).mp h
      have hparts := List.all_eq_true.mp hparts
      obtain ⟨place, hread⟩ := read_text_root hr hparts
      obtain ⟨n, hn⟩ := readAfterRoot_endsLine (Path.mk (.root r) parts).text place hparts hl
        r.key.bareNext
      rw [hread, hn]
      exact ⟨n, rfl⟩

theorem splitWriteOp?_name (op : WriteOp) {text : List Char} (htext : text ≠ []) :
    splitWriteOp? (op.name.toList ++ ':' :: text) = some (op.name.toList, text) := by
  obtain ⟨c, cs, rfl⟩ := List.exists_cons_of_ne_nil htext
  cases op <;> rfl

theorem parseTarget_name (op : WriteOp) {text : String} (htext : text.toList ≠ []) :
    parseTarget (op.name ++ ":" ++ text) = (Path.parse text).map fun p => (op, p) := by
  have hchars : (op.name ++ ":" ++ text).toList = op.name.toList ++ ':' :: text.toList := by
    rw [String.toList_append, String.toList_append, List.append_assoc]
    rfl
  have hop : (WriteOp.read (String.ofList op.name.toList)).mapError Fault.malformed = .ok op := by
    rw [String.ofList_toList]
    cases op <;> decide
  unfold parseTarget
  rw [hchars, splitWriteOp?_name op htext]
  dsimp only
  rw [hop, String.ofList_toList]
  exact bind_pure_comp (fun p => (op, p)) (Path.parse text)

theorem text_begins (h : p.isSpelled = true) : ∃ c cs, p.text.toList = c :: cs ∧ (c = '$' ∨ c = '@' ∨ c = '.') := by
  cases p with
  | mk head parts =>
    cases head with
    | deref => cases h
    | root r =>
      obtain ⟨hr, hparts⟩ := (Bool.and_eq_true _ _).mp h
      obtain ⟨c, cs, htext, hc, -⟩ := root_of_text hr (List.all_eq_true.mp hparts)
      exact ⟨c, cs, htext, hc⟩

/-- The target of a write reads back with its operation: it fails only as the path itself does. -/
theorem parseTarget_text (h : p.isSpelled = true) (op : WriteOp) :
    parseTarget (World.targetText p op) = (Path.parse p.text).map fun q => (op, q) := by
  obtain ⟨c, cs, htext, hc⟩ := text_begins h
  have hne : p.text.toList ≠ [] := by
    rw [htext]
    exact List.cons_ne_nil _ _
  unfold World.targetText
  by_cases hop : op = .set
  · have hsplit : splitWriteOp? p.text.toList = none := by
      rw [htext]
      rcases hc with rfl | rfl | rfl <;> rfl
    subst hop
    rw [if_pos (by decide), parseTarget, hsplit]
    exact bind_pure_comp (fun q => (WriteOp.set, q)) (Path.parse p.text)
  · rw [if_neg (by simpa using hop)]
    exact parseTarget_name op hne

/-- Where no index is too long, a text is read with no other outcome than that of its parts. -/
theorem parse_text (h : p.isSpelled = true) (hs : p.isLong = false) :
    Path.parse p.text = (Path.read p.text).mapError .malformed := by
  cases p with
  | mk head parts =>
    cases head with
    | deref => cases h
    | root r =>
      obtain ⟨hr, hparts⟩ := (Bool.and_eq_true _ _).mp h
      have hparts := List.all_eq_true.mp hparts
      have hshort : ∀ q ∈ parts, q.isLong = false := fun q hq =>
        Bool.eq_false_iff.mpr (List.any_eq_false.mp hs q (List.mem_cons_of_mem _ hq))
      obtain ⟨c, cs, htext, hc, hbare, hkey⟩ := root_of_text hr hparts
      unfold Path.parse
      rw [Path.checkText_root htext hc hkey (caretless_partsText hparts _), hbare,
        checkAfterRoot_text hparts hshort]
      rfl

/-- Paths whose indices are short enough are written, and what is written reads back, as it does where it is the target
of a write, whatever the keys; unless a line feed follows the identifier that a key is, which no reading accepts. -/
theorem texts_read_back (p : Path) (h : p.isSpelled = true) (hs : p.isLong = false) :
    p.spell = .ok p.text ∧
    ((∀ q ∈ p.rest, ¬q.EndsLine) →
      Path.parse p.text = .ok p.readBack ∧
        ∀ op, parseTarget (World.targetText p op) = .ok (op, p.readBack)) ∧
    ((∃ q ∈ p.rest, q.EndsLine) →
      ∃ n, Path.parse p.text = .error (.malformed (.character '\n' n p.text)) ∧
        ∀ op, parseTarget (World.targetText p op) = .error (.malformed (.character '\n' n p.text))) := by
  have hspell : p.spell = .ok p.text := if_neg (by rw [hs]; exact Bool.false_ne_true)
  refine ⟨hspell, fun hl => ?_, fun hl => ?_⟩
  · have hread : Path.parse p.text = .ok p.readBack := by
      rw [parse_text h hs, read_text h hl]
      rfl
    refine ⟨hread, fun op => ?_⟩
    rw [parseTarget_text h, hread]
    rfl
  · obtain ⟨n, hread⟩ := read_text_endsLine h hl
    have hread : Path.parse p.text = .error (.malformed (.character '\n' n p.text)) := by
      rw [parse_text h hs, hread]
      rfl
    refine ⟨n, hread, fun op => ?_⟩
    rw [parseTarget_text h, hread]
    rfl

/-- The path `$^["a b"].c[""][-3]["é\"\n"]`, and the path `.` whose key is `x` and a line feed. -/
theorem quoted_keys_read_back :
    (let p : Path := .mk (.root { key := .data, caret := 1 }) [.key "a b", .key "c", .key "", .index (-3), .key "é\"\n"]
     p.isSpelled = true ∧ p.isLong = false ∧ (∀ q ∈ p.rest, ¬q.EndsLine) ∧
      Path.parse p.text = .ok (.mk (.root { key := .global, caret := 1 }) p.rest) ∧
      parseTarget (World.targetText p .blobExtend) =
        .ok (.blobExtend, .mk (.root { key := .global, caret := 1 }) p.rest)) ∧
    (let p : Path := .mk (.root { key := .local }) [.key "x\n"]
     p.isSpelled = true ∧ p.isLong = false ∧ (∃ q ∈ p.rest, q.EndsLine) ∧
      ∃ n, Path.parse p.text = .error (.malformed (.character '\n' n p.text))) := by
  refine ⟨⟨rfl, rfl, by decide, ?_⟩, rfl, rfl, by decide, ?_⟩
  · have h := (texts_read_back (.mk (.root { key := .data, caret := 1 })
      [.key "a b", .key "c", .key "", .index (-3), .key "é\"\n"]) rfl rfl).2.1 (by decide)
    exact ⟨h.1, h.2 .blobExtend⟩
  · obtain ⟨n, h, _⟩ := (texts_read_back (.mk (.root { key := .local }) [.key "x\n"]) rfl rfl).2.2 (by decide)
    exact ⟨n, h⟩

theorem spell_long {q : Part} (hq : q ∈ p.parts) (hl : q.isLong = true) : p.spell = .error .writing := by
  have h : p.isLong = true := List.any_eq_true.mpr ⟨q, hq, hl⟩
  rw [spell, if_pos h]

/-- An index with one digit too many is not written, and so the path has no text. -/
theorem long_index_has_no_text :
    let p : Path := .mk (.root { key := .global }) [.index (Nat.pow 10 Decimal.maxDigits)]
    p.isSpelled = true ∧ (∀ q ∈ p.rest, ¬q.EndsLine) ∧ p.spell = .error .writing := by
  intro p
  have hlong := Decimal.isLong_ten_pow (Nat.le_refl Decimal.maxDigits)
  refine ⟨rfl, fun q hq => ?_, spell_long (List.mem_cons_of_mem _ List.mem_cons_self) hlong⟩
  rw [List.mem_singleton.mp hq]
  exact id

end Path

end EventScript
