import EventScript.Proofs.Grafting
import EventScript.Proofs.Quoting

/-!
# JSON texts read back

Plain data whose numbers are whole and not too long and whose keys are texts, no key twice, are read from the text they
are written as, in both layouts. What is read of a text does not depend on what follows it, as long as a number does not
go on.
-/

namespace EventScript

/-- Data that texts give back as they were: whole numbers only, none of them too long, and different texts as keys. -/
inductive Datum.Exact : Datum → Prop where
  | null : Exact .null
  | bool (b : Bool) : Exact (.bool b)
  | int {i : Int} (h : Decimal.isLong i = false) : Exact (.num (.int i))
  | str (s : String) : Exact (.str s)
  | array {items : List Datum} (h : ∀ d ∈ items, Exact d) : Exact (.array items)
  | object {entries : List (Key × Datum)} (h : ∀ e ∈ entries, Exact e.2) (keys : ∀ e ∈ entries, ∃ s, e.1 = .str s)
      (nodup : (entries.map Prod.fst).Nodup) : Exact (.object entries)

theorem Entries.insert_absent {α : Type} {k : String} {es : Entries α} (h : ∀ e ∈ es, e.1 ≠ .str k) (v : α) :
    insert (.str k) v es = es ++ [(.str k, v)] := by
  induction es with
  | nil => rfl
  | cons e rest ih =>
    have he : ¬(Key.str k).same e.1 = true := fun hs => h e List.mem_cons_self ((Key.same_str k e.1).mp hs)
    rw [insert, if_neg he, ih fun x hx => h x (List.mem_cons_of_mem _ hx)]
    rfl

/-- Entries under different texts stay as they are. -/
theorem Entries.ofList_of_nodup {α : Type} {es : List (Key × α)} (hkeys : ∀ e ∈ es, ∃ s, e.1 = .str s)
    (hnodup : (es.map Prod.fst).Nodup) : ofList es = es := by
  have update (front back : Entries α) (hkeys : ∀ e ∈ back, ∃ s, e.1 = .str s)
      (hnodup : ((front ++ back).map Prod.fst).Nodup) : Entries.update front back = front ++ back := by
    induction back generalizing front with
    | nil => exact (List.append_nil _).symm
    | cons e rest ih =>
      obtain ⟨k, v⟩ := e
      obtain ⟨s, rfl⟩ := hkeys _ List.mem_cons_self
      have habsent : ∀ e ∈ front, e.1 ≠ .str s := fun e he heq => by
        rw [List.map_append, List.nodup_append] at hnodup
        exact hnodup.2.2 _ (List.mem_map_of_mem he) _ (List.mem_map_of_mem List.mem_cons_self) heq
      rw [List.append_cons] at hnodup ⊢
      change Entries.update (Entries.insert (.str s) v front) rest = _
      rw [Entries.insert_absent habsent]
      exact ih _ (fun e he => hkeys e (List.mem_cons_of_mem _ he)) hnodup
  exact update [] es hkeys hnodup

namespace Json

/-- What follows a number does not go on with it. -/
def Ends (rest : List Char) : Prop := ∀ c ∈ rest.head?, c.isDigit = false ∧ c ≠ '.' ∧ c ≠ 'e' ∧ c ≠ 'E'

section Numerals

variable {rest : List Char}

/-- The sign at the begin of a number, and what follows it. -/
def signPart (cs : List Char) : Bool × List Char :=
  match cs with
  | '-' :: rest => (true, rest)
  | _ => (false, cs)

/-- The digits before the point: a zero stands alone. -/
def wholePart (cs : List Char) : List Char :=
  match cs with
  | '0' :: _ => ['0']
  | _ => cs.takeWhile Char.isDigit

/-- The digits after the point, what follows them, and whether there is a point with digits. -/
def placesPart (cs : List Char) : List Char × List Char × Bool :=
  match cs with
  | '.' :: more =>
    let ds := more.takeWhile Char.isDigit
    if ds.isEmpty then ([], cs, false) else (ds, more.drop ds.length, true)
  | _ => ([], cs, false)

/-- The exponent, what follows it, and whether there is a point or an exponent. -/
def exponentPart (cs : List Char) (isFloat : Bool) : Int × List Char × Bool :=
  match cs with
  | c :: more =>
    if c == 'e' || c == 'E' then
      let (down, ds) := Number.splitSign more
      let digits := ds.takeWhile Char.isDigit
      if digits.isEmpty then ((0 : Int), cs, isFloat)
      else
        let n : Int := Text.digitsValue digits
        (if down then -n else n, ds.drop digits.length, true)
    else (0, cs, isFloat)
  | [] => (0, cs, isFloat)

theorem readNumber?_eq (cs : List Char) : readNumber? cs =
    let (negative, body) := signPart cs
    let whole := wholePart body
    if whole.isEmpty then none
    else
      let (places, rest, isFloat) := placesPart (body.drop whole.length)
      let (exponent, rest, isFloat) := exponentPart rest isFloat
      let n := Text.digitsValue (whole ++ places)
      if isFloat then some (.float (Decimal.ofDecimal negative n (exponent - places.length)), rest)
      else some (.int (if negative then -(n : Int) else n), rest) := rfl

theorem signPart_of_ne {c : Char} {cs : List Char} (h : c ≠ '-') : signPart (c :: cs) = (false, c :: cs) := by
  unfold signPart
  split
  · exact absurd (List.cons.inj ‹_›).1 h
  · rfl

theorem wholePart_digits (n : Nat) (hrest : Ends rest) : wholePart (Nat.toDigits 10 n ++ rest) = Nat.toDigits 10 n := by
  have htake := (Text.takeWhile_stop (Text.isDigit_toDigits (n := n)) fun c hc => (hrest c hc).1).1
  unfold wholePart
  split
  · rename_i more hcons
    -- only the number zero begins with a zero
    cases n with
    | zero => rfl
    | succ n =>
      have hhead : (Nat.toDigits 10 (n + 1) ++ rest).head? = some '0' := by rw [hcons]; rfl
      rw [List.head?_append_of_ne_nil _ Nat.toDigits_ne_nil] at hhead
      exact absurd hhead (Text.head?_toDigits (Nat.succ_pos n))
  · exact htake

theorem placesPart_of_ends (hrest : Ends rest) : placesPart rest = ([], rest, false) := by
  unfold placesPart
  split
  · exact absurd rfl (hrest '.' rfl).2.1
  · rfl

theorem exponentPart_of_ends (hrest : Ends rest) : exponentPart rest false = (0, rest, false) := by
  unfold exponentPart
  split
  · rename_i c more
    obtain ⟨_, _, hlower, hupper⟩ := hrest c rfl
    rw [if_neg (by simp only [Bool.or_eq_true, beq_iff_eq, hlower, hupper, or_self, not_false_eq_true])]
  · rfl

/-- The digits of a whole number read back, as far as no other part of a number follows. -/
theorem readNumber?_digits {cs : List Char} {negative : Bool} {n : Nat} (hrest : Ends rest)
    (hsign : signPart cs = (negative, Nat.toDigits 10 n ++ rest)) :
    readNumber? cs = some (.int (if negative then -(n : Int) else n), rest) := by
  have hne : ¬(Nat.toDigits 10 n).isEmpty = true := by
    rw [List.isEmpty_iff]
    exact Nat.toDigits_ne_nil
  rw [readNumber?_eq, hsign]
  dsimp only
  rw [wholePart_digits n hrest, if_neg hne, List.drop_left, placesPart_of_ends hrest]
  dsimp only
  rw [exponentPart_of_ends hrest]
  dsimp only
  rw [if_neg Bool.false_ne_true, List.append_nil, Text.digitsValue_toDigits]

/-- A whole number reads back. -/
theorem readNumber?_intText (i : Int) (hrest : Ends rest) :
    readNumber? ((Decimal.intText i).toList ++ rest) = some (.int i, rest) := by
  unfold Decimal.intText Decimal.natText
  rw [String.toList_ofList]
  split
  · rename_i hneg
    rw [readNumber?_digits (n := i.natAbs) hrest rfl, if_pos rfl]
    exact congrArg (fun j => some (Number.int j, rest)) (by omega)
  · rename_i hpos
    obtain ⟨d, ds, hds⟩ := List.exists_cons_of_ne_nil (Nat.toDigits_ne_nil (b := 10) (n := i.natAbs))
    have hd : d ≠ '-' := by
      rintro rfl
      exact absurd (Text.isDigit_toDigits '-' (hds ▸ List.mem_cons_self)) (by decide)
    have hsign : signPart (Nat.toDigits 10 i.natAbs ++ rest) = (false, Nat.toDigits 10 i.natAbs ++ rest) := by
      rw [hds]
      exact signPart_of_ne hd
    rw [readNumber?_digits hrest hsign, if_neg Bool.false_ne_true]
    exact congrArg (fun j => some (Number.int j, rest)) (by omega)

end Numerals

section Layout

variable {rest : List Char}

theorem ends_cons {c : Char} (h : c = ',' ∨ c = ']' ∨ c = '\x7d' ∨ c = '\n') : Ends (c :: rest) := by
  intro d hd
  cases hd
  rcases h with rfl | rfl | rfl | rfl <;> decide

theorem skipSpace_of_head {c : Char} (h : isSpace c = false) : skipSpace (c :: rest) = c :: rest := by
  unfold skipSpace
  rw [List.dropWhile_cons_of_neg (by rw [h]; exact Bool.false_ne_true)]

theorem toList_break (level : Nat) : (breakText true level).toList = '\n' :: List.replicate (2 * level) ' ' := by
  rw [breakText, if_pos rfl, String.toList_append]
  exact congrArg ('\n' :: ·) String.toList_ofList

theorem skipSpace_break (pretty : Bool) (level : Nat) :
    skipSpace ((breakText pretty level).toList ++ rest) = skipSpace rest := by
  refine List.dropWhile_append_of_pos fun c hc => ?_
  cases pretty with
  | false => cases hc
  | true =>
    rw [toList_break] at hc
    rcases List.mem_cons.mp hc with rfl | hc
    · rfl
    · rw [(List.mem_replicate.mp hc).2]
      rfl

theorem ends_break (pretty : Bool) (level : Nat) (rest : List Char) {c : Char} (h : c = ']' ∨ c = '\x7d') :
    Ends ((breakText pretty level).toList ++ c :: rest) := by
  cases pretty with
  | false => exact ends_cons (by tauto)
  | true =>
    rw [toList_break]
    exact ends_cons (.inr (.inr (.inr rfl)))

theorem colon_cases (pretty : Bool) (rest : List Char) {c : Char} (hc : isSpace c = false) :
    ∃ more, (if pretty then ": " else ":" : String).toList ++ c :: rest = ':' :: more ∧ skipSpace more = c :: rest := by
  cases pretty with
  | false => exact ⟨c :: rest, rfl, skipSpace_of_head hc⟩
  | true =>
    refine ⟨' ' :: c :: rest, rfl, ?_⟩
    unfold skipSpace
    rw [List.dropWhile_cons_of_pos rfl]
    exact skipSpace_of_head hc

theorem toList_quote (s : String) :
    (quote s).toList = '"' :: (s.toList.flatMap (escapeChar false) ++ ['"']) := by
  unfold quote quoteWith
  rw [String.toList_ofList]
  rfl

theorem intText_begins (i : Int) : ∃ d ds, d.isDigit = true ∧
    ((Decimal.intText i).toList = d :: ds ∨ (Decimal.intText i).toList = '-' :: d :: ds) := by
  obtain ⟨d, ds, hds⟩ := List.exists_cons_of_ne_nil (Nat.toDigits_ne_nil (b := 10) (n := i.natAbs))
  refine ⟨d, ds, Text.isDigit_toDigits d (hds ▸ List.mem_cons_self), ?_⟩
  unfold Decimal.intText Decimal.natText
  rw [String.toList_ofList, hds]
  split
  · exact .inr rfl
  · exact .inl rfl

theorem ne_of_isDigit {c d : Char} (hc : c.isDigit = true) (hd : d.isDigit = false) : c ≠ d := by
  rintro rfl
  rw [hd] at hc
  cases hc

theorem isSpace_of_isDigit {c : Char} (hc : c.isDigit = true) : isSpace c = false := by
  simp only [isSpace, Bool.or_eq_false_iff, beq_eq_false_iff_ne]
  exact ⟨⟨⟨ne_of_isDigit hc (by decide), ne_of_isDigit hc (by decide)⟩, ne_of_isDigit hc (by decide)⟩,
    ne_of_isDigit hc (by decide)⟩

variable {pretty : Bool} {level : Nat}

theorem toList_writeAt_array {x : Datum} {items : List Datum} :
    (writeAt pretty level (.array (x :: items))).toList =
      '[' :: ((breakText pretty (level + 1)).toList ++ ((writeItems pretty (level + 1) (x :: items)).toList ++
        ((breakText pretty level).toList ++ [']']))) := by
  rw [writeAt]
  · simp only [String.toList_append, List.append_assoc]
    rfl
  · exact List.cons_ne_nil _ _

theorem toList_writeAt_object {e : Key × Datum} {entries : List (Key × Datum)} :
    (writeAt pretty level (.object (e :: entries))).toList =
      '\x7b' :: ((breakText pretty (level + 1)).toList ++ ((writeEntries pretty (level + 1) (e :: entries)).toList ++
        ((breakText pretty level).toList ++ ['\x7d']))) := by
  rw [writeAt]
  · simp only [String.toList_append, List.append_assoc]
    rfl
  · exact List.cons_ne_nil _ _

/-- A value begins with a character of ASCII, but with no blank and no bracket that closes a list. -/
theorem writeAt_begins {d : Datum} (h : d.Exact) (pretty : Bool) (level : Nat) :
    ∃ c cs, (writeAt pretty level d).toList = c :: cs ∧ isSpace c = false ∧ c ≠ ']' ∧ c.toNat < 128 := by
  cases h with
  | null => exact ⟨'n', "ull".toList, by rw [writeAt]; rfl, by decide, by decide, by decide⟩
  | bool b =>
    rw [writeAt]
    cases b with
    | false => exact ⟨'f', "alse".toList, rfl, by decide, by decide, by decide⟩
    | true => exact ⟨'t', "rue".toList, rfl, by decide, by decide, by decide⟩
  | @int i =>
    have htext : writeAt pretty level (.num (.int i)) = Decimal.intText i := by rw [writeAt]; rfl
    obtain ⟨d, ds, hd, hi | hi⟩ := intText_begins i
    · exact ⟨d, ds, htext ▸ hi, isSpace_of_isDigit hd, ne_of_isDigit hd (by decide), Text.toNat_lt_of_isDigit hd⟩
    · exact ⟨'-', d :: ds, htext ▸ hi, by decide, by decide, by decide⟩
  | str s => exact ⟨'"', _, by rw [writeAt]; exact toList_quote s, by decide, by decide, by decide⟩
  | @array items h =>
    cases items with
    | nil => exact ⟨'[', [']'], by rw [writeAt]; rfl, by decide, by decide, by decide⟩
    | cons x rest => exact ⟨'[', _, toList_writeAt_array, by decide, by decide, by decide⟩
  | @object entries h =>
    cases entries with
    | nil => exact ⟨'\x7b', ['\x7d'], by rw [writeAt]; rfl, by decide, by decide, by decide⟩
    | cons e rest => exact ⟨'\x7b', _, toList_writeAt_object, by decide, by decide, by decide⟩

end Layout

section Reading

variable {pretty : Bool} {level depth outer : Nat} {rest : List Char}

/-- A datum is read from its text at every level, with depth for twice its length. -/
def ReadsBack (pretty : Bool) (d : Datum) : Prop :=
  ∀ level depth rest, Ends rest → 2 * (writeAt pretty level d).toList.length ≤ depth →
    readValue depth ((writeAt pretty level d).toList ++ rest) = .ok (d, rest)

theorem toList_writeItems_cons (x y : Datum) (more : List Datum) :
    (writeItems pretty level (x :: y :: more)).toList = (writeAt pretty level x).toList ++
      ',' :: ((breakText pretty level).toList ++ (writeItems pretty level (y :: more)).toList) := by
  rw [writeItems]
  · simp only [String.toList_append, List.append_assoc]
    rfl
  · exact List.cons_ne_nil _ _

theorem writeItems_begins (pretty : Bool) (level : Nat) {x : Datum} (h : x.Exact) (more : List Datum) :
    ∃ c cs, (writeItems pretty level (x :: more)).toList = c :: cs ∧ isSpace c = false ∧ c ≠ ']' := by
  obtain ⟨c, cs, htext, hc, hclose, _⟩ := writeAt_begins h pretty level
  cases more with
  | nil => exact ⟨c, cs, by rw [writeItems]; exact htext, hc, hclose⟩
  | cons y more => exact ⟨c, _, by rw [toList_writeItems_cons, htext, List.cons_append], hc, hclose⟩

/-- The items of an array are read one after the other. -/
theorem readItems_writeItems (outer : Nat) (rest : List Char) {x : Datum} {more : List Datum}
    (hexact : ∀ d ∈ x :: more, d.Exact) (hread : ∀ d ∈ x :: more, ReadsBack pretty d)
    (hdepth : 2 * (writeItems pretty level (x :: more)).toList.length < depth) :
    readItems depth ((writeItems pretty level (x :: more)).toList ++ ((breakText pretty outer).toList ++ ']' :: rest)) =
      .ok (x :: more, rest) := by
  obtain ⟨depth, rfl⟩ : ∃ n, depth = n + 1 := ⟨depth - 1, by omega⟩
  induction more generalizing x depth with
  | nil =>
    have htext : writeItems pretty level [x] = writeAt pretty level x := by rw [writeItems]
    rw [htext] at hdepth ⊢
    have hx := hread x List.mem_cons_self level depth _ (ends_break pretty outer rest (.inl rfl)) (by omega)
    rw [readItems, hx]
    dsimp only [bind, Except.bind]
    rw [skipSpace_break, skipSpace_of_head (by decide)]
    rfl
  | cons y more ih =>
    rw [toList_writeItems_cons] at hdepth ⊢
    simp only [List.length_append, List.length_cons] at hdepth
    obtain ⟨left, rfl⟩ : ∃ n, depth = n + 1 := ⟨depth - 1, by omega⟩
    have hx := hread x List.mem_cons_self level (left + 1) (',' :: ((breakText pretty level).toList ++
      ((writeItems pretty level (y :: more)).toList ++ ((breakText pretty outer).toList ++ ']' :: rest))))
      (ends_cons (.inl rfl)) (by omega)
    have hrest := ih (x := y) (fun d hd => hexact d (List.mem_cons_of_mem _ hd))
      (fun d hd => hread d (List.mem_cons_of_mem _ hd)) left (by omega)
    obtain ⟨c, cs, hitems, hc, _⟩ := writeItems_begins pretty level
      (hexact y (List.mem_cons_of_mem _ List.mem_cons_self)) more
    rw [List.append_assoc, List.cons_append, List.append_assoc, readItems, hx]
    dsimp only [bind, Except.bind]
    rw [skipSpace_of_head (by decide)]
    change (readItems (left + 1) (skipSpace _) >>= fun r => pure (x :: r.1, r.2)) = _
    rw [skipSpace_break]
    rw [hitems, List.cons_append] at hrest ⊢
    rw [skipSpace_of_head hc, hrest]
    rfl

/-- The text of one entry. -/
def entryText (pretty : Bool) (level : Nat) (e : Key × Datum) : List Char :=
  (quote e.1.text).toList ++ ((if pretty then ": " else ":" : String).toList ++ (writeAt pretty level e.2).toList)

theorem toList_writeEntries_one (e : Key × Datum) :
    (writeEntries pretty level [e]).toList = entryText pretty level e := by
  rw [writeEntries]
  simp only [String.toList_append, List.append_assoc]
  rfl

theorem toList_writeEntries_cons (e f : Key × Datum) (more : List (Key × Datum)) :
    (writeEntries pretty level (e :: f :: more)).toList = entryText pretty level e ++
      ',' :: ((breakText pretty level).toList ++ (writeEntries pretty level (f :: more)).toList) := by
  rw [writeEntries]
  · simp only [String.toList_append, List.append_assoc, entryText]
    rfl
  · exact List.cons_ne_nil _ _

theorem writeEntries_begins (pretty : Bool) (level : Nat) (e : Key × Datum) (more : List (Key × Datum)) :
    ∃ cs, (writeEntries pretty level (e :: more)).toList = '"' :: cs := by
  cases more with
  | nil => exact ⟨_, by rw [toList_writeEntries_one, entryText, toList_quote, List.cons_append]⟩
  | cons f more =>
    exact ⟨_, by rw [toList_writeEntries_cons, entryText, toList_quote, List.cons_append, List.cons_append]⟩

theorem length_writeAt_le (pretty : Bool) (level : Nat) (e : Key × Datum) :
    (writeAt pretty level e.2).toList.length ≤ (entryText pretty level e).length := by
  simp only [entryText, List.length_append]
  omega

/-- What is read after an entry and the blanks behind it: more entries after a comma, none after a brace. -/
def readAfterEntry (depth : Nat) (e : Key × Datum) (cs : List Char) : Except Failure (List (Key × Datum) × List Char) :=
  match cs with
  | '\x7d' :: more => pure ([e], more)
  | ',' :: more => do
    let (entries, after) ← readEntries depth (skipSpace more)
    return (e :: entries, after)
  | more => fail .comma more

/-- An entry is read up to what follows its value. -/
theorem readEntries_entry (k : String) {d : Datum} (hexact : d.Exact) (hread : ReadsBack pretty d) (hrest : Ends rest)
    (hdepth : 2 * (writeAt pretty level d).toList.length ≤ depth) :
    readEntries (depth + 1) (entryText pretty level (.str k, d) ++ rest) =
      readAfterEntry depth (.str k, d) (skipSpace rest) := by
  obtain ⟨c, cs, htext, hc, _⟩ := writeAt_begins hexact pretty level
  obtain ⟨after, hcolon, hafter⟩ := colon_cases pretty (cs ++ rest) hc
  have hd := hread level depth rest hrest hdepth
  have hentry : entryText pretty level (.str k, d) ++ rest =
      '"' :: (k.toList.flatMap (escapeChar false) ++ '"' :: ':' :: after) := by
    rw [← hcolon, entryText, toList_quote, htext]
    simp only [List.append_assoc, List.cons_append, List.nil_append, Key.text]
  rw [htext, List.cons_append] at hd
  have hname : readText (k.toList.flatMap (escapeChar false) ++ '"' :: ':' :: after) = .ok (k, ':' :: after) :=
    readText_escaped ..
  have hmark : skipSpace (':' :: after) = ':' :: after := skipSpace_of_head (by decide)
  rw [hentry, readEntries, hname]
  simp only [bind, Except.bind, hmark, hafter, hd]
  rfl

/-- The entries of an object are read one after the other. -/
theorem readEntries_writeEntries (outer : Nat) (rest : List Char) {e : Key × Datum} {more : List (Key × Datum)}
    (hkeys : ∀ x ∈ e :: more, ∃ s, x.1 = .str s) (hexact : ∀ x ∈ e :: more, x.2.Exact)
    (hread : ∀ x ∈ e :: more, ReadsBack pretty x.2)
    (hdepth : 2 * (writeEntries pretty level (e :: more)).toList.length < depth) :
    readEntries depth ((writeEntries pretty level (e :: more)).toList ++
        ((breakText pretty outer).toList ++ '\x7d' :: rest)) = .ok (e :: more, rest) := by
  obtain ⟨depth, rfl⟩ : ∃ n, depth = n + 1 := ⟨depth - 1, by omega⟩
  induction more generalizing e depth with
  | nil =>
    obtain ⟨k, hk⟩ := hkeys e List.mem_cons_self
    obtain ⟨key, d⟩ := e
    subst hk
    rw [toList_writeEntries_one] at hdepth ⊢
    have hlength : (writeAt pretty level d).toList.length ≤ _ := length_writeAt_le pretty level (.str k, d)
    have hsmall : 2 * (writeAt pretty level d).toList.length ≤ depth := by omega
    have hd := readEntries_entry k (hexact (.str k, d) List.mem_cons_self) (hread (.str k, d) List.mem_cons_self)
      (ends_break pretty outer rest (.inr rfl)) hsmall
    rw [hd, skipSpace_break, skipSpace_of_head (by decide)]
    rfl
  | cons f more ih =>
    obtain ⟨k, hk⟩ := hkeys e List.mem_cons_self
    obtain ⟨key, d⟩ := e
    subst hk
    rw [toList_writeEntries_cons] at hdepth ⊢
    simp only [List.length_append, List.length_cons] at hdepth
    have hlength : (writeAt pretty level d).toList.length ≤ _ := length_writeAt_le pretty level (.str k, d)
    obtain ⟨left, rfl⟩ : ∃ n, depth = n + 1 := ⟨depth - 1, by omega⟩
    have hrest : readEntries (left + 1) ((writeEntries pretty level (f :: more)).toList ++
        ((breakText pretty outer).toList ++ '\x7d' :: rest)) = .ok (f :: more, rest) :=
      ih (fun x hx => hkeys x (List.mem_cons_of_mem _ hx)) (fun x hx => hexact x (List.mem_cons_of_mem _ hx))
        (fun x hx => hread x (List.mem_cons_of_mem _ hx)) left (by omega)
    obtain ⟨cs, hentries⟩ := writeEntries_begins pretty level f more
    have hsmall : 2 * (writeAt pretty level d).toList.length ≤ left + 1 := by omega
    rw [List.append_assoc, List.cons_append, List.append_assoc,
      readEntries_entry k (hexact (.str k, d) List.mem_cons_self) (hread (.str k, d) List.mem_cons_self)
        (ends_cons (.inl rfl)) hsmall, skipSpace_of_head (by decide)]
    change (readEntries (left + 1) (skipSpace _) >>= fun r => pure ((.str k, d) :: r.1, r.2)) = _
    rw [skipSpace_break]
    rw [hentries, List.cons_append] at hrest ⊢
    rw [skipSpace_of_head (by decide), hrest]
    rfl

theorem checkNumber_short {i : Int} (h : Decimal.isLong i = false) (cs : List Char) :
    checkNumber (.int i) cs = .ok () := by
  unfold checkNumber Number.TooLong.check
  dsimp only
  rw [if_neg (of_decide_eq_false h)]

/-- What begins with no quote and no opening bracket is a word or a number. -/
theorem readValue_scalar {c : Char} {cs : List Char} (h : c ≠ '"' ∧ c ≠ '[' ∧ c ≠ '\x7b') :
    readValue (depth + 1) (c :: cs) =
      match readWord? (c :: cs) with
      | some r => .ok r
      | none =>
        match readNumber? (c :: cs) with
        | some r => (checkNumber r.1 (c :: cs)).map fun _ => (.num r.1, r.2)
        | none => fail .value (c :: cs) := by
  unfold readValue
  split
  · rename_i heq
    exact absurd (List.cons.inj heq).1 h.1
  · rename_i heq
    exact absurd (List.cons.inj heq).1 h.2.1
  · rename_i heq
    exact absurd (List.cons.inj heq).1 h.2.2
  · rfl

theorem readValue_items {c : Char} {cs : List Char} (hskip : skipSpace rest = c :: cs) (hc : c ≠ ']') :
    readValue (depth + 1) ('[' :: rest) = (readItems depth (c :: cs)).map fun r => (.array r.1, r.2) := by
  rw [readValue, hskip]
  split
  · exact absurd (List.cons.inj ‹_›).1 hc
  · rfl

theorem readValue_entries {cs : List Char} (hskip : skipSpace rest = '"' :: cs) :
    readValue (depth + 1) ('\x7b' :: rest) =
      (readEntries depth ('"' :: cs)).map fun r => (.object (Entries.ofList r.1), r.2) := by
  rw [readValue, hskip]
  rfl

theorem words_begin : ∀ w ∈ words, ∃ c e es, w.1.toList = c :: e :: es ∧ c.isDigit = false ∧ e.isDigit = false := by
  intro w hw
  simp only [words, List.mem_cons, List.not_mem_nil, or_false] at hw
  rcases hw with rfl | rfl | rfl | rfl | rfl | rfl <;> exact ⟨_, _, _, rfl, by decide, by decide⟩

/-- No word begins as a numeral does. -/
theorem readWord?_intText (i : Int) (rest : List Char) : readWord? ((Decimal.intText i).toList ++ rest) = none := by
  refine List.findSome?_eq_none_iff.mpr fun w hw => ?_
  obtain ⟨c, e, es, hword, hc, he⟩ := words_begin w hw
  obtain ⟨d, ds, hd, hi⟩ := intText_begins i
  have hne {b : Char} (hb : b.isDigit = false) : (b == d) = false := by
    rw [beq_eq_false_iff_ne]
    exact (ne_of_isDigit hd hb).symm
  rw [if_neg]
  rcases hi with hi | hi
  · rw [hword, hi, List.cons_append, List.isPrefixOf, hne hc]
    exact Bool.false_ne_true
  · rw [hword, hi, List.cons_append, List.cons_append, List.isPrefixOf, List.isPrefixOf, hne he, Bool.false_and,
      Bool.and_false]
    exact Bool.false_ne_true

/-- All exact data are read from their texts, whatever follows. -/
theorem readsBack_int {i : Int} (hshort : Decimal.isLong i = false) : ReadsBack pretty (.num (.int i)) := by
  intro level depth rest hrest hdepth
  have htext : writeAt pretty level (.num (.int i)) = Decimal.intText i := by rw [writeAt]; rfl
  have hword := readWord?_intText i rest
  have hnumber := readNumber?_intText i hrest
  obtain ⟨c, cs, hi, hc⟩ : ∃ c cs, (Decimal.intText i).toList = c :: cs ∧ c ≠ '"' ∧ c ≠ '[' ∧ c ≠ '\x7b' := by
    obtain ⟨d, ds, hd, hi | hi⟩ := intText_begins i
    · exact ⟨d, ds, hi, ne_of_isDigit hd (by decide), ne_of_isDigit hd (by decide), ne_of_isDigit hd (by decide)⟩
    · exact ⟨'-', d :: ds, hi, by decide⟩
  rw [htext, hi] at hdepth ⊢
  rw [hi, List.cons_append] at hword hnumber
  obtain ⟨left, rfl⟩ : ∃ n, depth = n + 1 := ⟨depth - 1, by simp at hdepth; omega⟩
  rw [List.cons_append, readValue_scalar hc, hword, hnumber]
  dsimp only
  rw [checkNumber_short hshort]
  rfl

theorem readsBack_array {items : List Datum} (h : ∀ d ∈ items, d.Exact) (ih : ∀ d ∈ items, ReadsBack pretty d) :
    ReadsBack pretty (.array items) := by
  intro level depth rest _ hdepth
  cases items with
  | nil =>
    rw [writeAt] at hdepth ⊢
    obtain ⟨left, rfl⟩ : ∃ n, depth = n + 1 := ⟨depth - 1, by change 4 ≤ depth at hdepth; omega⟩
    have hread : readValue (left + 1) ('[' :: ']' :: rest) = .ok (.array [], rest) := by
      rw [readValue]
      rfl
    exact hread
  | cons x more =>
    rw [toList_writeAt_array] at hdepth ⊢
    simp only [List.length_cons, List.length_append] at hdepth
    obtain ⟨left, rfl⟩ : ∃ n, depth = n + 1 := ⟨depth - 1, by omega⟩
    obtain ⟨c, cs, htext, hc, hclose⟩ := writeItems_begins pretty (level + 1) (h x List.mem_cons_self) more
    have hsmall : 2 * (writeItems pretty (level + 1) (x :: more)).toList.length < left := by omega
    have hread := readItems_writeItems level rest h ih hsmall
    rw [htext, List.cons_append] at hread
    rw [htext]
    simp only [List.cons_append, List.append_assoc, List.nil_append]
    rw [readValue_items ((skipSpace_break pretty (level + 1)).trans (skipSpace_of_head hc)) hclose, hread]
    rfl

theorem readsBack_object {entries : List (Key × Datum)} (h : ∀ e ∈ entries, e.2.Exact)
    (keys : ∀ e ∈ entries, ∃ s, e.1 = .str s) (nodup : (entries.map Prod.fst).Nodup)
    (ih : ∀ e ∈ entries, ReadsBack pretty e.2) : ReadsBack pretty (.object entries) := by
  intro level depth rest _ hdepth
  cases entries with
  | nil =>
    rw [writeAt] at hdepth ⊢
    obtain ⟨left, rfl⟩ : ∃ n, depth = n + 1 := ⟨depth - 1, by change 4 ≤ depth at hdepth; omega⟩
    have hread : readValue (left + 1) ('\x7b' :: '\x7d' :: rest) = .ok (.object [], rest) := by
      rw [readValue]
      rfl
    exact hread
  | cons e more =>
    rw [toList_writeAt_object] at hdepth ⊢
    simp only [List.length_cons, List.length_append] at hdepth
    obtain ⟨left, rfl⟩ : ∃ n, depth = n + 1 := ⟨depth - 1, by omega⟩
    obtain ⟨cs, htext⟩ := writeEntries_begins pretty (level + 1) e more
    have hsmall : 2 * (writeEntries pretty (level + 1) (e :: more)).toList.length < left := by omega
    have hread := readEntries_writeEntries level rest keys h ih hsmall
    rw [htext, List.cons_append] at hread
    rw [htext]
    simp only [List.cons_append, List.append_assoc, List.nil_append]
    rw [readValue_entries ((skipSpace_break pretty (level + 1)).trans (skipSpace_of_head (by decide))), hread]
    change Except.ok (Datum.object (Entries.ofList (e :: more)), rest) = _
    rw [Entries.ofList_of_nodup keys nodup]

theorem readsBack_of_exact {d : Datum} (h : d.Exact) : ReadsBack pretty d := by
  induction h with
  | null =>
    intro level depth rest _ hdepth
    rw [writeAt] at hdepth ⊢
    obtain ⟨left, rfl⟩ : ∃ n, depth = n + 1 := ⟨depth - 1, by change 8 ≤ depth at hdepth; omega⟩
    exact readValue_scalar (by decide)
  | bool b =>
    intro level depth rest _ hdepth
    rw [writeAt] at hdepth ⊢
    obtain ⟨left, rfl⟩ : ∃ n, depth = n + 1 := ⟨depth - 1, by cases b <;> simp at hdepth <;> omega⟩
    cases b with
    | false => exact readValue_scalar (by decide)
    | true => exact readValue_scalar (by decide)
  | int hshort => exact readsBack_int hshort
  | str s =>
    intro level depth rest _ hdepth
    have htext : writeAt pretty level (.str s) = quote s := by rw [writeAt]
    rw [htext, toList_quote] at hdepth ⊢
    obtain ⟨left, rfl⟩ : ∃ n, depth = n + 1 := ⟨depth - 1, by simp at hdepth; omega⟩
    rw [List.cons_append, List.append_assoc, readValue, List.singleton_append, readText_escaped]
    rfl
  | array h ih => exact readsBack_array h ih
  | object h keys nodup ih => exact readsBack_object h keys nodup ih

end Reading

/-- Exact data are read from the text they are written as, in both layouts. -/
theorem read_write {d : Datum} (h : d.Exact) (pretty : Bool) : read (write pretty d) = .ok d := by
  obtain ⟨c, cs, htext, hc, _, hascii⟩ := writeAt_begins h pretty 0
  have hends : Ends [] := fun c hc => by cases hc
  have hread := readsBack_of_exact h 0 (2 * (c :: cs).length + 2) [] hends (by rw [htext]; omega)
  rw [htext, List.append_nil] at hread
  have hmark : ((c :: cs).head? == some (Char.ofNat 0xfeff)) = false := by
    rw [beq_eq_false_iff_ne]
    intro hc
    rw [Option.some.inj hc] at hascii
    exact absurd hascii (by decide)
  have hall : readAll (c :: cs) = .ok d := by
    unfold readAll
    rw [hmark, skipSpace_of_head hc, hread]
    rfl
  unfold read
  rw [write, htext, hall]

end Json

end EventScript
