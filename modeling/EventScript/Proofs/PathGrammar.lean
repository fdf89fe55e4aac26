import EventScript.Proofs.ConcretePaths
import EventScript.Proofs.PathTexts
import EventScript.Proofs.QuotedKeys

/-!
# The grammar of path texts

A path is spelled by the sign of its root, carets, after some signs a bare identifier, and then segments: a dot and an
identifier, or an index or a quoted key in brackets. A text is read exactly if it has a spelling, as the path that is
spelled, and no text has two of them.

In a key between double quotes the escape of half a surrogate pair without the other half is allowed. It spells U+FFFD,
because a text has no character for the half itself; whether a text is read and how it is divided do not depend on that.
-/

namespace EventScript

section Scanners

variable {name digits rest cs : List Char}

theorem head?_dropWhile (p : Char → Bool) (cs : List Char) : ∀ c ∈ (cs.dropWhile p).head?, p c = false := by
  intro c hc
  have h := List.head?_dropWhile_not p cs
  rw [Option.mem_def.mp hc] at h
  exact h

/-- Where a scan stops can be told from the text. -/
theorem scan_append_inj {p : Char → Bool} {front front' rest rest' : List Char} (hall : ∀ c ∈ front, p c = true)
    (hall' : ∀ c ∈ front', p c = true) (hstop : ∀ c ∈ rest.head?, p c = false)
    (hstop' : ∀ c ∈ rest'.head?, p c = false) (h : front ++ rest = front' ++ rest') :
    front = front' ∧ rest = rest' := by
  obtain ⟨htake, hdrop⟩ := Text.takeWhile_stop hall hstop
  obtain ⟨htake', hdrop'⟩ := Text.takeWhile_stop hall' hstop'
  rw [h] at htake hdrop
  exact ⟨htake.symm.trans htake', hdrop.symm.trans hdrop'⟩

theorem isIdentChar_of_isIdentifier (h : isIdentifier name = true) : ∀ c ∈ name, isIdentChar c = true := by
  cases name with
  | nil => cases h
  | cons c cs =>
    obtain ⟨hc, hcs⟩ := (Bool.and_eq_true _ _).mp h
    exact List.forall_mem_cons.mpr ⟨isIdentChar_of_isIdentStart hc, List.all_eq_true.mp hcs⟩

theorem identifier_append_inj {name' : List Char} (h : isIdentifier name = true) (h' : isIdentifier name' = true)
    (hcs : Apart cs) (hrest : Apart rest) (heq : name ++ cs = name' ++ rest) : name = name' ∧ cs = rest :=
  scan_append_inj (isIdentChar_of_isIdentifier h) (isIdentChar_of_isIdentifier h') hcs hrest heq

theorem takeIdentifier?_eq_some_iff :
    takeIdentifier? cs = some (name, rest) ↔ cs = name ++ rest ∧ isIdentifier name = true ∧ Apart rest := by
  constructor
  · intro h
    cases cs with
    | nil => cases h
    | cons c cs =>
      rw [takeIdentifier?] at h
      split at h
      · rename_i hc
        cases h
        exact ⟨by rw [List.cons_append, List.takeWhile_append_dropWhile],
          (Bool.and_eq_true _ _).mpr ⟨hc, List.all_takeWhile⟩, head?_dropWhile isIdentChar cs⟩
      · cases h
  · rintro ⟨rfl, hname, hrest⟩
    exact takeIdentifier?_append hname hrest

theorem takeIdentifier?_eq_none_iff : takeIdentifier? cs = none ↔ ∀ c ∈ cs.head?, isIdentStart c = false := by
  cases cs with
  | nil => exact ⟨fun _ _ h => (by cases h), fun _ => rfl⟩
  | cons c cs => simp [takeIdentifier?]

theorem takeIndex?_eq_some_iff {i : Int} :
    takeIndex? cs = some (i, rest) ↔ ∃ negative digits, cs = indexText negative digits ++ rest ∧
      (digits ≠ [] ∧ ∀ c ∈ digits, Text.isDecimal c = true) ∧ (∀ c ∈ rest.head?, Text.isDecimal c = false) ∧
      indexValue negative digits = i := by
  constructor
  · intro h
    obtain ⟨negative, body, rfl, hbody⟩ : ∃ negative body, cs = indexText negative body ∧
        (negative = false → body.head? ≠ some '-') := by
      by_cases hminus : cs.head? = some '-'
      · obtain ⟨more, rfl⟩ := List.head?_eq_some_iff.mp hminus
        exact ⟨true, more, rfl, nofun⟩
      · exact ⟨false, cs, rfl, fun _ => hminus⟩
    rw [takeIndex?_indexText hbody] at h
    split at h
    · cases h
    rename_i hempty
    cases h
    refine ⟨negative, body.takeWhile Text.isDecimal, ?_, ⟨by rwa [List.isEmpty_iff] at hempty,
      List.all_eq_true.mp List.all_takeWhile⟩, head?_dropWhile Text.isDecimal body, rfl⟩
    cases negative <;> simp [indexText, List.takeWhile_append_dropWhile]
  · rintro ⟨negative, digits, rfl, ⟨hne, hdigits⟩, hrest, rfl⟩
    exact takeIndex?_digits negative hne hdigits hrest

end Scanners

/-- What can stand between the brackets of a part. -/
inductive Bracketed where
  | index (negative : Bool) (digits : List Char)
  | double (ps : List Json.Piece)
  | single (ps : List QuotedPiece)
  deriving DecidableEq

namespace Bracketed

def text : Bracketed → List Char
  | .index negative digits => indexText negative digits
  | .double ps => '"' :: (Json.Piece.textOf ps ++ ['"'])
  | .single ps => '\x27' :: (QuotedPiece.textOf ps ++ ['\x27'])

def Valid : Bracketed → Prop
  | .index _ digits => digits ≠ [] ∧ ∀ c ∈ digits, Text.isDecimal c = true
  | .double ps => ∀ p ∈ ps, p.Valid
  | .single ps => ∀ p ∈ ps, p.Valid

instance : DecidablePred Valid
  | .index _ digits => @instDecidableAnd _ _ inferInstance (List.decidableBAll _ digits)
  | .double _ | .single _ => inferInstanceAs (Decidable (∀ p ∈ _, _))

def part : Bracketed → Part
  | .index negative digits => .index (indexValue negative digits)
  | .double ps => .key (String.ofList (Json.Piece.charsOf ps))
  | .single ps => .key (String.ofList (ps.map QuotedPiece.char))

variable {text : String} {place : List Char → Nat} {b b' : Bracketed} {part : Part} {cs rest : List Char}

theorem notDecimal_bracket (rest : List Char) : ∀ c ∈ (']' :: rest).head?, Text.isDecimal c = false := by
  intro c hc
  cases hc
  exact not_isDecimal_bracket

/-- What is read up to a closing bracket is an index or a quoted key. -/
theorem readBracketed_eq_ok_iff :
    readBracketed text place cs = .ok (part, ']' :: rest) ↔
      ∃ b : Bracketed, b.Valid ∧ cs = b.text ++ ']' :: rest ∧ b.part = part := by
  constructor
  · intro h
    unfold readBracketed at h
    split at h
    · split at h
      · rename_i key after hread
        cases h
        obtain ⟨ps, hps, rfl, rfl⟩ := Json.Piece.readText_eq_ok_iff.mp hread
        exact ⟨.double ps, hps, by simp [Bracketed.text], rfl⟩
      · cases h
    · split at h
      · rename_i key after hread
        cases h
        obtain ⟨ps, hps, rfl, rfl⟩ := QuotedPiece.takeSingleQuoted?_eq_some_iff.mp hread
        exact ⟨.single ps, hps, by simp [Bracketed.text], rfl⟩
      · cases h
    · split at h
      · rename_i i after hread
        cases h
        obtain ⟨negative, digits, rfl, hdigits, -, rfl⟩ := takeIndex?_eq_some_iff.mp hread
        exact ⟨.index negative digits, hdigits, rfl, rfl⟩
      · cases h
  · rintro ⟨b, hb, rfl, rfl⟩
    cases b with
    | index negative digits =>
      exact readBracketed_index (takeIndex?_digits negative hb.1 hb.2 (notDecimal_bracket rest))
    | double ps =>
      rw [Bracketed.text, List.cons_append, List.append_assoc, List.singleton_append, readBracketed,
        Json.Piece.readText_textOf hb]
      rfl
    | single ps =>
      rw [Bracketed.text, List.cons_append, List.append_assoc, List.singleton_append, readBracketed,
        QuotedPiece.takeSingleQuoted?_textOf hb]
      rfl

theorem indexText_append_inj {negative negative' : Bool} {digits digits' : List Char}
    (h : (index negative digits).Valid) (h' : (index negative' digits').Valid)
    (heq : indexText negative digits ++ ']' :: cs = indexText negative' digits' ++ ']' :: rest) :
    negative = negative' ∧ digits = digits' ∧ cs = rest := by
  have hscan (heq : digits ++ ']' :: cs = digits' ++ ']' :: rest) : digits = digits' ∧ cs = rest := by
    obtain ⟨hdigits, hrest⟩ := scan_append_inj h.2 h'.2 (notDecimal_bracket cs) (notDecimal_bracket rest) heq
    exact ⟨hdigits, (List.cons.inj hrest).2⟩
  have hminus {ds more more' : List Char} (hds : ds ≠ [] ∧ ∀ c ∈ ds, Text.isDecimal c = true) :
      '-' :: more ≠ ds ++ more' := by
    obtain ⟨d, ds, rfl⟩ := List.exists_cons_of_ne_nil hds.1
    intro heq
    exact absurd ((List.cons.inj heq).1 ▸ hds.2 d List.mem_cons_self) (by decide)
  cases negative <;> cases negative'
  · exact ⟨rfl, hscan heq⟩
  · exact absurd heq.symm (hminus h)
  · exact absurd heq (hminus h')
  · exact ⟨rfl, hscan (List.cons.inj heq).2⟩

theorem indexText_ne {negative : Bool} {digits : List Char} (h : (index negative digits).Valid) {q : Char}
    (hq : q = '"' ∨ q = '\x27') : indexText negative digits ++ ']' :: cs ≠ q :: rest := by
  intro heq
  have hread := takeIndex?_digits negative h.1 h.2 (notDecimal_bracket cs)
  rw [heq] at hread
  rcases hq with rfl | rfl <;> cases hread

/-- What stands between brackets can be told from what comes after it. -/
theorem text_append_inj (hb : b.Valid) (hb' : b'.Valid) (h : b.text ++ ']' :: cs = b'.text ++ ']' :: rest) :
    b = b' ∧ cs = rest := by
  cases b <;> cases b' <;> simp only [Bracketed.text, List.cons_append, List.append_assoc] at h
  case index.index =>
    obtain ⟨rfl, rfl, hcs⟩ := indexText_append_inj hb hb' h
    exact ⟨rfl, hcs⟩
  case index.double => exact absurd h (indexText_ne hb (.inl rfl))
  case index.single => exact absurd h (indexText_ne hb (.inr rfl))
  case double.index => exact absurd h.symm (indexText_ne hb' (.inl rfl))
  case single.index => exact absurd h.symm (indexText_ne hb' (.inr rfl))
  case double.double =>
    obtain ⟨rfl, hcs⟩ := Json.Piece.textOf_append_inj hb hb' (List.cons.inj h).2
    exact ⟨rfl, (List.cons.inj hcs).2⟩
  case single.single =>
    obtain ⟨rfl, hcs⟩ := QuotedPiece.textOf_append_inj hb hb' (List.cons.inj h).2
    exact ⟨rfl, (List.cons.inj hcs).2⟩
  case double.single | single.double => exact absurd (List.cons.inj h).1 (by decide)

end Bracketed

/-- A part of a path as it is written. -/
inductive Segment where
  | name (cs : List Char)
  | bracketed (b : Bracketed)
  deriving DecidableEq

namespace Segment

def text : Segment → List Char
  | .name cs => '.' :: cs
  | .bracketed b => '[' :: (b.text ++ [']'])

def Valid : Segment → Prop
  | .name cs => isIdentifier cs = true
  | .bracketed b => b.Valid

instance : DecidablePred Valid
  | .name _ => inferInstanceAs (Decidable (_ = _))
  | .bracketed b => inferInstanceAs (Decidable b.Valid)

def part : Segment → Part
  | .name cs => .key (String.ofList cs)
  | .bracketed b => b.part

theorem isSpelled_part (s : Segment) : s.part.isSpelled = true := by
  cases s with
  | name cs => rfl
  | bracketed b => cases b <;> rfl

/-- The texts of segments one after the other. -/
def textOf (ss : List Segment) : List Char := ss.flatMap text

variable {text : String} {place : List Char → Nat} {s s' : Segment} {ss : List Segment} {cs rest : List Char}

@[simp] theorem textOf_nil : textOf [] = [] := rfl

@[simp] theorem textOf_cons (s : Segment) (ss : List Segment) : textOf (s :: ss) = s.text ++ textOf ss := rfl

theorem text_begins (s : Segment) : ∃ c cs, s.text = c :: cs ∧ (c = '.' ∨ c = '[') := by
  cases s with
  | name cs => exact ⟨_, _, rfl, .inl rfl⟩
  | bracketed b => exact ⟨_, _, rfl, .inr rfl⟩

theorem length_lt (s : Segment) (cs : List Char) : cs.length < (s.text ++ cs).length := by
  obtain ⟨c, more, htext, -⟩ := s.text_begins
  rw [htext, List.length_append, List.length_cons]
  omega

theorem apart_text (s : Segment) (cs : List Char) : Apart (s.text ++ cs) := by
  obtain ⟨c, more, htext, hc⟩ := s.text_begins
  rw [htext]
  refine apart_cons ?_
  rcases hc with rfl | rfl <;> decide

theorem apart_textOf (ss : List Segment) : Apart (textOf ss) := by
  cases ss with
  | nil => exact apart_nil
  | cons s ss => exact s.apart_text (textOf ss)

theorem readPart_text (text : String) (place : List Char → Nat) (hs : s.Valid) (hrest : Apart rest) :
    ∃ c cs, s.text ++ rest = c :: cs ∧ readPart text place c cs = .ok (s.part, rest) := by
  cases s with
  | name cs => exact ⟨_, _, rfl, readPart_dot hs hrest⟩
  | bracketed b =>
    refine ⟨'[', b.text ++ ']' :: rest, by simp [Segment.text], readPart_bracket ?_⟩
    exact Bracketed.readBracketed_eq_ok_iff.mpr ⟨b, hs, rfl, rfl⟩

theorem of_readPart {c : Char} {part : Part} (h : readPart text place c cs = .ok (part, rest)) :
    ∃ s : Segment, s.Valid ∧ c :: cs = s.text ++ rest ∧ s.part = part := by
  unfold readPart at h
  split at h
  · rename_i hdot
    obtain rfl := eq_of_beq hdot
    split at h
    · rename_i name more hname
      cases h
      obtain ⟨rfl, hvalid, -⟩ := takeIdentifier?_eq_some_iff.mp hname
      exact ⟨.name name, hvalid, rfl, rfl⟩
    · cases h
  split at h
  · rename_i hopen
    obtain rfl := eq_of_beq hopen
    obtain ⟨⟨q, after⟩, hread, h⟩ := except_bind_eq_ok h
    dsimp only at h
    split at h
    · cases h
      obtain ⟨b, hb, rfl, hpart⟩ := Bracketed.readBracketed_eq_ok_iff.mp hread
      exact ⟨.bracketed b, hb, by simp [Segment.text], hpart⟩
    · cases h
  · cases h

/-- Parts are read exactly if they are written in segments. -/
theorem readParts_eq_ok_iff {fuel : Nat} {parts : List Part} (hfuel : cs.length ≤ fuel) :
    readParts text place fuel cs = .ok parts ↔
      ∃ ss : List Segment, (∀ s ∈ ss, s.Valid) ∧ cs = textOf ss ∧ ss.map part = parts := by
  constructor
  · intro h
    induction fuel generalizing cs parts with
    | zero =>
      obtain rfl := List.length_eq_zero_iff.mp (Nat.le_zero.mp hfuel)
      cases h
      exact ⟨[], nofun, rfl, rfl⟩
    | succ fuel ih =>
      cases cs with
      | nil =>
        cases h
        exact ⟨[], nofun, rfl, rfl⟩
      | cons c cs =>
        obtain ⟨⟨q, more⟩, hread, h⟩ := except_bind_eq_ok h
        obtain ⟨qs, hrest, h⟩ := except_bind_eq_ok h
        cases h
        obtain ⟨s, hs, hcs, rfl⟩ := of_readPart hread
        -- A segment takes one character at least, so the fuel lasts for what is left.
        have hmore : more.length < (c :: cs).length := by
          rw [hcs]
          exact s.length_lt more
        obtain ⟨ss, hss, rfl, rfl⟩ := ih (Nat.le_of_lt_succ (Nat.lt_of_lt_of_le hmore hfuel)) hrest
        exact ⟨s :: ss, List.forall_mem_cons.mpr ⟨hs, hss⟩, hcs, rfl⟩
  · rintro ⟨ss, hss, rfl, rfl⟩
    induction ss generalizing fuel with
    | nil => cases fuel <;> rfl
    | cons s ss ih =>
      rw [List.forall_mem_cons] at hss
      obtain ⟨c, cs, htext, hread⟩ := readPart_text text place hss.1 (apart_textOf ss)
      have hshort : (textOf ss).length < fuel := Nat.lt_of_lt_of_le (s.length_lt (textOf ss)) hfuel
      obtain ⟨left, rfl⟩ : ∃ left, fuel = left + 1 := Nat.exists_eq_add_one.mpr (Nat.zero_lt_of_lt hshort)
      rw [textOf_cons, htext, readParts_cons left hread, ih hss.2 (Nat.le_of_lt_succ hshort)]
      rfl

/-- A segment can be told from what comes after it, unless that goes on with an identifier. -/
theorem text_append_inj (hs : s.Valid) (hs' : s'.Valid) (hcs : Apart cs) (hrest : Apart rest)
    (h : s.text ++ cs = s'.text ++ rest) : s = s' ∧ cs = rest := by
  cases s <;> cases s' <;> simp only [Segment.text, List.cons_append, List.append_assoc] at h
  case name.name =>
    obtain ⟨rfl, hcs⟩ := identifier_append_inj hs hs' hcs hrest (List.cons.inj h).2
    exact ⟨rfl, hcs⟩
  case bracketed.bracketed =>
    obtain ⟨rfl, hcs⟩ := Bracketed.text_append_inj hs hs' (List.cons.inj h).2
    exact ⟨rfl, hcs⟩
  case name.bracketed | bracketed.name => exact absurd (List.cons.inj h).1 (by decide)

/-- A text is written in segments in one way. -/
theorem textOf_inj {ss' : List Segment} (hss : ∀ s ∈ ss, s.Valid) (hss' : ∀ s ∈ ss', s.Valid)
    (h : textOf ss = textOf ss') : ss = ss' := by
  have hne (s : Segment) (_ : s.Valid) (cs : List Char) : s.text ++ cs ≠ [] := by
    have hpos := s.length_lt cs
    exact List.ne_nil_of_length_pos (Nat.zero_lt_of_lt hpos)
  have happart (ss : List Segment) : Apart (ss.flatMap Segment.text ++ []) := by
    rw [List.append_nil]
    exact apart_textOf ss
  have heq : ss.flatMap Segment.text ++ [] = ss'.flatMap Segment.text ++ [] := congrArg (· ++ []) h
  exact (flatMap_append_inj (fun _ _ ss ss' hs hs' => text_append_inj hs hs' (happart ss) (happart ss')) hne hne hss
    hss' heq).1

end Segment

/-- The sign of a root. -/
inductive Sign where
  | dollar
  | named (name : List Char)
  | atSign
  | dot
  deriving DecidableEq

namespace Sign

def text : Sign → List Char
  | .dollar => ['$']
  | .named name => '$' :: name
  | .atSign => ['@']
  | .dot => ['.']

/-- What a sign needs to stand before `rest`: no identifier begins after a dollar sign, and the identifier after it
that names a root does not go on. -/
def Valid (rest : List Char) : Sign → Prop
  | .dollar => ∀ c ∈ rest.head?, isIdentStart c = false
  | .named name =>
    isIdentifier name = true ∧ Apart rest ∧ (RootKey.ofDollarName? (String.ofList name)).isSome = true
  | .atSign | .dot => True

instance (rest : List Char) : DecidablePred (Valid rest)
  | .dollar => Option.decidableForallMem rest.head?
  | .named _ => inferInstanceAs (Decidable (_ ∧ Apart rest ∧ _))
  | .atSign | .dot => .isTrue trivial

def key : Sign → RootKey
  | .dollar => .global
  | .named name => (RootKey.ofDollarName? (String.ofList name)).getD .global
  | .atSign => .context
  | .dot => .local

/-- Whether an identifier may follow without a dot. -/
def bareNext : Sign → Bool
  | .atSign | .dot => true
  | .dollar | .named _ => false

variable {text : String} {key : RootKey} {sign sign' : Sign} {cs rest : List Char}

theorem text_begins (sign : Sign) : ∃ c cs, sign.text = c :: cs ∧ (c = '$' ∨ c = '@' ∨ c = '.') ∧
    (c != '$') = sign.bareNext := by
  cases sign <;> exact ⟨_, _, rfl, by decide, rfl⟩

/-- Every root in the table of names has a text of its own. -/
theorem key_ne (sign : Sign) : sign.key ≠ .expr ∧ sign.key ≠ .null := by
  cases sign with
  | named name =>
    cases h : RootKey.ofDollarName? (String.ofList name) with
    | none =>
      rw [Sign.key, h]
      decide
    | some key =>
      have htable : ∀ k ∈ [RootKey.data, .global, .state, .local, .c, .component, .args, .context, .currentContext],
          k ≠ .expr ∧ k ≠ .null := by decide
      rw [Sign.key, h]
      exact htable key (List.mem_of_find?_eq_some h)
  | _ => exact ⟨nofun, nofun⟩

theorem readRootKey_eq_ok_iff :
    readRootKey text cs = .ok (key, rest) ↔
      ∃ sign : Sign, sign.Valid rest ∧ cs = sign.text ++ rest ∧ sign.key = key := by
  constructor
  · intro h
    unfold readRootKey at h
    split at h
    · split at h
      · rename_i name more hname
        obtain ⟨rfl, hvalid, hmore⟩ := takeIdentifier?_eq_some_iff.mp hname
        split at h
        · rename_i k hk
          cases h
          exact ⟨.named name, ⟨hvalid, hmore, by rw [hk]; rfl⟩, rfl, by rw [Sign.key, hk]; rfl⟩
        · cases h
      · rename_i hname
        cases h
        exact ⟨.dollar, takeIdentifier?_eq_none_iff.mp hname, rfl, rfl⟩
    · cases h
      exact ⟨.atSign, trivial, rfl, rfl⟩
    · cases h
      exact ⟨.dot, trivial, rfl, rfl⟩
    · cases h
  · rintro ⟨sign, hsign, rfl, rfl⟩
    cases sign with
    | dollar =>
      change readRootKey text ('$' :: rest) = _
      rw [readRootKey, takeIdentifier?_eq_none_iff.mpr hsign]
      rfl
    | named name =>
      obtain ⟨hname, hrest, hroot⟩ := hsign
      obtain ⟨k, hk⟩ := Option.isSome_iff_exists.mp hroot
      change readRootKey text ('$' :: (name ++ rest)) = _
      rw [readRootKey, takeIdentifier?_append hname hrest, Sign.key, hk]
      dsimp only
      rw [hk]
      rfl
    | atSign | dot => rfl

theorem dollar_ne_named {name : List Char} (hs : dollar.Valid cs) (hs' : (named name).Valid rest) :
    '$' :: cs ≠ '$' :: (name ++ rest) := by
  obtain ⟨c, more, rfl, hc⟩ := exists_start_of_isIdentifier hs'.1
  rintro ⟨⟩
  exact Bool.false_ne_true ((hs c rfl).symm.trans hc)

/-- The sign of a root can be told from what comes after it. -/
theorem text_append_inj (hs : sign.Valid cs) (hs' : sign'.Valid rest) (h : sign.text ++ cs = sign'.text ++ rest) :
    sign = sign' ∧ cs = rest := by
  cases sign <;> cases sign' <;> simp only [Sign.text, List.cons_append, List.nil_append] at h
  case dollar.dollar | atSign.atSign | dot.dot => exact ⟨rfl, (List.cons.inj h).2⟩
  case named.named =>
    obtain ⟨rfl, hcs⟩ := identifier_append_inj hs.1 hs'.1 hs.2.1 hs'.2.1 (List.cons.inj h).2
    exact ⟨rfl, hcs⟩
  case dollar.named => exact absurd h (dollar_ne_named hs hs')
  case named.dollar => exact absurd h.symm (dollar_ne_named hs' hs)
  all_goals exact absurd (List.cons.inj h).1 (by decide)

end Sign

/-- A path as it is written. -/
structure Spelling where
  sign : Sign
  caret : Nat
  bare : Option (List Char)
  segments : List Segment
  deriving DecidableEq

/-- What is written after the carets: an identifier that needs no dot, and segments. -/
def tailText (bare : Option (List Char)) (ss : List Segment) : List Char := bare.getD [] ++ Segment.textOf ss

def tailParts (bare : Option (List Char)) (ss : List Segment) : List Part :=
  bare.toList.map (fun name => .key (String.ofList name)) ++ ss.map Segment.part

namespace Spelling

def rest (d : Spelling) : List Char := List.replicate d.caret '^' ++ tailText d.bare d.segments

def text (d : Spelling) : List Char := d.sign.text ++ d.rest

def path (d : Spelling) : Path := .mk (.root { key := d.sign.key, caret := d.caret }) (tailParts d.bare d.segments)

structure Valid (d : Spelling) : Prop where
  sign : d.sign.Valid d.rest
  bare : ∀ name ∈ d.bare, d.sign.bareNext = true ∧ isIdentifier name = true
  segments : ∀ s ∈ d.segments, s.Valid

instance : DecidablePred Valid := fun d =>
  decidable_of_iff
    (d.sign.Valid d.rest ∧ (∀ name ∈ d.bare, d.sign.bareNext = true ∧ isIdentifier name = true) ∧
      ∀ s ∈ d.segments, s.Valid)
    ⟨fun ⟨hsign, hbare, hsegments⟩ => ⟨hsign, hbare, hsegments⟩, fun h => ⟨h.sign, h.bare, h.segments⟩⟩

end Spelling

section Tails

variable {bare bare' : Option (List Char)} {ss ss' : List Segment} {text : String} {place : List Char → Nat}

theorem caretless_tailText (h : ∀ name ∈ bare, isIdentifier name = true) (ss : List Segment) :
    ∀ c ∈ (tailText bare ss).head?, (c == '^') = false := by
  have hcaret {c : Char} {cs : List Char} (hc : c ≠ '^') : ∀ d ∈ (c :: cs).head?, (d == '^') = false := by
    rintro d ⟨⟩
    simpa using hc
  cases bare with
  | some name =>
    obtain ⟨c, cs, rfl, hc⟩ := exists_start_of_isIdentifier (h name rfl)
    refine hcaret ?_
    rintro rfl
    exact absurd hc (by decide)
  | none =>
    cases ss with
    | nil => exact nofun
    | cons s ss =>
      obtain ⟨c, cs, htext, hc⟩ := s.text_begins
      change ∀ d ∈ (s.text ++ Segment.textOf ss).head?, (d == '^') = false
      rw [htext]
      refine hcaret ?_
      rcases hc with rfl | rfl <;> decide

theorem readAfterRoot_eq_ok_iff {follows : Bool} {chars : List Char} {parts : List Part} :
    readAfterRoot text place follows chars = .ok parts ↔
      ∃ bare ss, (∀ name ∈ bare, follows = true ∧ isIdentifier name = true) ∧ (∀ s ∈ ss, Segment.Valid s) ∧
        chars = tailText bare ss ∧ tailParts bare ss = parts := by
  constructor
  · intro h
    unfold readAfterRoot at h
    split at h
    · rename_i name more hname
      cases follows with
      | false => cases hname
      | true =>
        obtain ⟨rfl, hvalid, -⟩ := takeIdentifier?_eq_some_iff.mp hname
        obtain ⟨qs, hread, rfl⟩ := except_map_eq_ok h
        obtain ⟨ss, hss, rfl, rfl⟩ := (Segment.readParts_eq_ok_iff (Nat.le_refl _)).mp hread
        refine ⟨some name, ss, ?_, hss, rfl, rfl⟩
        rintro _ ⟨⟩
        exact ⟨rfl, hvalid⟩
    · obtain ⟨ss, hss, rfl, rfl⟩ := (Segment.readParts_eq_ok_iff (Nat.le_refl _)).mp h
      exact ⟨none, ss, nofun, hss, rfl, rfl⟩
  · rintro ⟨bare, ss, hbare, hss, rfl, rfl⟩
    have hread : readParts text place (Segment.textOf ss).length (Segment.textOf ss) = .ok (ss.map Segment.part) :=
      (Segment.readParts_eq_ok_iff (Nat.le_refl _)).mpr ⟨ss, hss, rfl, rfl⟩
    cases bare with
    | none => exact (readAfterRoot_apart (Segment.apart_textOf ss)).trans hread
    | some name =>
      obtain ⟨rfl, hname⟩ := hbare name rfl
      refine (readAfterRoot_identifier hname (Segment.apart_textOf ss)).trans ?_
      rw [hread]
      rfl

theorem tailText_inj (hbare : ∀ name ∈ bare, isIdentifier name = true)
    (hbare' : ∀ name ∈ bare', isIdentifier name = true) (hss : ∀ s ∈ ss, s.Valid) (hss' : ∀ s ∈ ss', s.Valid)
    (h : tailText bare ss = tailText bare' ss') : bare = bare' ∧ ss = ss' := by
  have hall {bare : Option (List Char)} (hbare : ∀ name ∈ bare, isIdentifier name = true) :
      ∀ c ∈ bare.getD [], isIdentChar c = true := by
    cases bare with
    | none => exact nofun
    | some name => exact isIdentChar_of_isIdentifier (hbare name rfl)
  obtain ⟨hname, htext⟩ :=
    scan_append_inj (hall hbare) (hall hbare') (Segment.apart_textOf ss) (Segment.apart_textOf ss') h
  refine ⟨?_, Segment.textOf_inj hss hss' htext⟩
  -- No identifier is empty, so the one that is left out differs from all that are written.
  cases bare <;> cases bare'
  case none.none => rfl
  case some.some => exact congrArg some hname
  case none.some name =>
    obtain rfl : [] = name := hname
    cases hbare' [] rfl
  case some.none name =>
    obtain rfl : name = [] := hname
    cases hbare [] rfl

end Tails

namespace Spelling

variable {d d' : Spelling} {t : String}

theorem Valid.identifiers (hd : d.Valid) : ∀ name ∈ d.bare, isIdentifier name = true := fun name h =>
  (hd.bare name h).2

theorem Valid.caretless (hd : d.Valid) : ∀ c ∈ (tailText d.bare d.segments).head?, (c == '^') = false :=
  caretless_tailText hd.identifiers d.segments

/-- A spelled path is read. -/
theorem read_text (hd : d.Valid) (ht : d.text = t.toList) : Path.read t = .ok d.path := by
  obtain ⟨c, cs, hsign, hc, hbare⟩ := d.sign.text_begins
  have htext : t.toList = c :: (cs ++ d.rest) := by rw [← ht, Spelling.text, hsign, List.cons_append]
  have hkey : readRootKey t (c :: (cs ++ d.rest)) = .ok (d.sign.key, d.rest) :=
    Sign.readRootKey_eq_ok_iff.mpr ⟨d.sign, hd.sign, by rw [hsign, List.cons_append], rfl⟩
  obtain ⟨place, hread⟩ := Path.read_root htext hc hkey hd.caretless
  rw [hread, hbare, readAfterRoot_eq_ok_iff.mpr ⟨d.bare, d.segments, hd.bare, hd.segments, rfl, rfl⟩]
  rfl

/-- Whatever is read has a spelling. -/
theorem of_read {p : Path} (h : Path.read t = .ok p) : ∃ d : Spelling, d.Valid ∧ d.text = t.toList ∧ d.path = p := by
  obtain ⟨key, rest, hkey⟩ : ∃ key rest, readRootKey t t.toList = .ok (key, rest) := by
    unfold Path.read at h
    dsimp only at h
    split at h
    · cases h
    · obtain ⟨⟨key, rest⟩, hkey, -⟩ := except_bind_eq_ok h
      exact ⟨key, rest, hkey⟩
  obtain ⟨sign, hsign, htext, rfl⟩ := Sign.readRootKey_eq_ok_iff.mp hkey
  obtain ⟨n, chars, rfl, hchars⟩ : ∃ n chars, rest = List.replicate n '^' ++ chars ∧
      ∀ c ∈ chars.head?, (c == '^') = false := by
    refine ⟨(rest.takeWhile (· == '^')).length, rest.dropWhile (· == '^'), ?_, head?_dropWhile _ rest⟩
    have hcarets : rest.takeWhile (· == '^') = List.replicate (rest.takeWhile (· == '^')).length '^' :=
      List.eq_replicate_of_mem fun c hc => eq_of_beq (List.all_eq_true.mp List.all_takeWhile c hc)
    rw [← hcarets, List.takeWhile_append_dropWhile]
  obtain ⟨c, cs, hbegins, hc, hbare⟩ := sign.text_begins
  rw [hbegins, List.cons_append] at htext
  rw [htext] at hkey
  obtain ⟨place, hread⟩ := Path.read_root htext hc hkey hchars
  rw [hread] at h
  obtain ⟨parts, hparts, rfl⟩ := except_map_eq_ok h
  obtain ⟨bare, ss, hnames, hss, rfl, rfl⟩ := readAfterRoot_eq_ok_iff.mp hparts
  rw [hbare] at hnames
  exact ⟨⟨sign, n, bare, ss⟩, ⟨hsign, hnames, hss⟩, by rw [htext, ← List.cons_append, ← hbegins]; rfl, rfl⟩

/-- A text has one spelling at most. -/
theorem text_inj (hd : d.Valid) (hd' : d'.Valid) (h : d.text = d'.text) : d = d' := by
  obtain ⟨hsign, hrest⟩ := Sign.text_append_inj hd.sign hd'.sign h
  have hcarets (n : Nat) : ∀ c ∈ List.replicate n '^', (c == '^') = true := by
    intro c hc
    rw [(List.mem_replicate.mp hc).2]
    rfl
  obtain ⟨hcaret, htail⟩ :=
    scan_append_inj (hcarets d.caret) (hcarets d'.caret) hd.caretless hd'.caretless hrest
  have hn : d.caret = d'.caret := by
    have hlength := congrArg List.length hcaret
    rwa [List.length_replicate, List.length_replicate] at hlength
  obtain ⟨hbare, hss⟩ := tailText_inj hd.identifiers hd'.identifiers hd.segments hd'.segments htail
  cases d
  cases d'
  cases hsign
  cases hn
  cases hbare
  cases hss
  rfl

theorem isSpelled_path (d : Spelling) : d.path.isSpelled = true := by
  have hroot : (Root.mk d.sign.key d.caret .null).isSpelled = true :=
    Root.isSpelled_iff.mpr ⟨rfl, d.sign.key_ne⟩
  have hparts : ∀ q ∈ tailParts d.bare d.segments, q.isSpelled = true := by
    intro q hq
    rcases List.mem_append.mp hq with hq | hq
    · obtain ⟨name, -, rfl⟩ := List.mem_map.mp hq
      rfl
    · obtain ⟨s, -, rfl⟩ := List.mem_map.mp hq
      exact s.isSpelled_part
  exact (Bool.and_eq_true _ _).mpr ⟨hroot, List.all_eq_true.mpr hparts⟩

end Spelling

/-- Reading a path accepts exactly the texts that have a spelling and gives what is spelled, a root with keys and
indices after it. No text has two spellings, and one that has none is malformed. -/
theorem Path.read_grammar (t : String) :
    (∀ p, Path.read t = .ok p ↔ ∃ d : Spelling, d.Valid ∧ d.text = t.toList ∧ d.path = p) ∧
      (∀ d d' : Spelling, d.Valid → d'.Valid → d.text = t.toList → d'.text = t.toList → d = d') ∧
      (∀ p, Path.read t = .ok p → p.isSpelled = true) ∧
      ((¬∃ d : Spelling, d.Valid ∧ d.text = t.toList) →
        ∃ e, Path.read t = .error e ∧ (Fault.malformed e).typeName = "ConstructionError") := by
  refine ⟨fun p => ⟨Spelling.of_read, ?_⟩, fun d d' hd hd' h h' => Spelling.text_inj hd hd' (h.trans h'.symm), ?_, ?_⟩
  · rintro ⟨d, hd, ht, rfl⟩
    exact Spelling.read_text hd ht
  · intro p h
    obtain ⟨d, -, -, rfl⟩ := Spelling.of_read h
    exact d.isSpelled_path
  · intro hnone
    cases h : Path.read t with
    | error e => exact ⟨e, rfl, rfl⟩
    | ok p =>
      obtain ⟨d, hd, ht, -⟩ := Spelling.of_read h
      exact absurd ⟨d, hd, ht⟩ hnone

/-- The text `@^item["a\u0041"]['it\'s'][-٣]` has one spelling and is read; `$item` has none and is refused. -/
theorem Path.item_is_read :
    (let t := "@^item[\"a\\u0041\"]['it\\'s'][-٣]"
     let d : Spelling :=
      { sign := .atSign, caret := 1, bare := some "item".toList,
        segments := [.bracketed (.double [.plain 'a', .unit "0041".toList]),
          .bracketed (.single [.plain 'i', .plain 't', .escaped '\x27', .plain 's']), .bracketed (.index true ['٣'])] }
     d.Valid ∧ d.text = t.toList ∧ (∀ d' : Spelling, d'.Valid → d'.text = t.toList → d' = d) ∧
      Path.read t =
        .ok (.mk (.root { key := .context, caret := 1 }) [.key "item", .key "aA", .key "it's", .index (-3)])) ∧
    (¬∃ d : Spelling, d.Valid ∧ d.text = "$item".toList) ∧
      ∃ e, Path.read "$item" = .error e ∧ (Fault.malformed e).typeName = "ConstructionError" := by
  have hnone : ¬∃ d : Spelling, d.Valid ∧ d.text = "$item".toList := by
    rintro ⟨d, hd, ht⟩
    have hread := ((read_grammar "$item").1 d.path).mpr ⟨d, hd, ht, rfl⟩
    cases hread
  refine ⟨?_, hnone, (read_grammar "$item").2.2.2 hnone⟩
  intro t d
  have hd : d.Valid := by decide
  have ht : d.text = t.toList := by decide
  exact ⟨hd, ht, fun d' hd' ht' => (read_grammar t).2.1 d' d hd' hd ht' ht,
    ((read_grammar t).1 _).mpr ⟨d, hd, ht, rfl⟩⟩

end EventScript
