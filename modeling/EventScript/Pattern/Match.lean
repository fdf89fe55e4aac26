import EventScript.Pattern.Syntax

/-!
# Searching for a pattern

A matcher that tries the alternatives in order and goes back when what follows does not fit. A repetition does
not begin another round where the round before began.
-/

namespace EventScript.Pattern

/-- The parts of the text that groups have taken, latest first. -/
abbrev Captures := List (Nat × (Nat × Nat))

def Category.holds (k : Category) (c : Char) : Bool :=
  match k with
  | .digit => Text.isDecimal c
  | .space => Text.isBlank c
  | .word => Text.isWordChar c

/-- Letters that count as one when case is ignored though no case map joins them. -/
def alike : List (List Nat) :=
  [[0x69, 0x131], [0x73, 0x17f], [0xb5, 0x3bc], [0x345, 0x3b9, 0x1fbe], [0x390, 0x1fd3],
    [0x3b0, 0x1fe3], [0x3b2, 0x3d0], [0x3b5, 0x3f5], [0x3b8, 0x3d1], [0x3ba, 0x3f0],
    [0x3c0, 0x3d6], [0x3c1, 0x3f1], [0x3c2, 0x3c3], [0x3c6, 0x3d5], [0x1e61, 0x1e9b],
    [0xfb05, 0xfb06]]

/-- The lower case forms that count as the same letter as `c`. -/
def forms (c : Char) : List Nat :=
  let l := (Text.lowerChar c).toNat
  match alike.find? (·.contains l) with
  | some ls => ls
  | none => [l]

/-- Equality of characters under the options. -/
def sameChar (o : Options) (a b : Char) : Bool :=
  if o.ignoreCase then (forms a).contains (Text.lowerChar b).toNat else a == b

/-- A member of a set holds a character, case regarded. -/
def Item.holds (c : Char) : Item → Bool
  | .char d => c == d
  | .range low high => low ≤ c.toNat && c.toNat ≤ high
  | .category negated k => negated != k.holds c

/-- The characters to look for in a set in the place of `c`. -/
def variants (o : Options) (c : Char) : List Char :=
  if o.ignoreCase then
    let lows := (forms c).map Char.ofNat
    c :: lows ++ lows.flatMap fun l =>
      match Text.upperForm l with
      | [u] => [u]
      | _ => []
  else [c]

def setHolds (o : Options) (negated : Bool) (items : List Item) (c : Char) : Bool :=
  negated != items.any fun i =>
    match i with
    | .category .. => i.holds c
    | _ => (variants o c).any i.holds

/-- Whether there is a word character at a place. -/
def wordAt (text : Array Char) (i : Nat) : Bool := (text[i]?).any Text.isWordChar

def Anchor.holds (text : Array Char) (o : Options) (i : Nat) : Anchor → Bool
  | .textStart => i == 0
  | .textEnd => i == text.size
  | .lineStart => i == 0 || (o.multiline && text[i - 1]? == some '\n')
  | .lineEnd =>
    i == text.size || (o.multiline && text[i]? == some '\n')
      || (i + 1 == text.size && text[i]? == some '\n')
  | .boundary => (0 < i && wordAt text (i - 1)) != wordAt text i
  | .notBoundary => text.size != 0 && (0 < i && wordAt text (i - 1)) == wordAt text i

/-- What is to be matched after a pattern. -/
abbrev Rest := Nat → Captures → Option (Nat × Captures)

mutual

/-- Matches a pattern at a place and then the rest. -/
def Pat.run (text : Array Char) : (fuel : Nat) → Pat → Nat → Captures → Rest → Option (Nat × Captures)
  | 0, _, _, _, _ => none
  | fuel + 1, p, i, caps, k =>
    match p with
    | .char o c => if (text[i]?).any (sameChar o c) then k (i + 1) caps else none
    | .any o => if (text[i]?).any (fun c => o.dotAll || c != '\n') then k (i + 1) caps else none
    | .set o negated items =>
      if (text[i]?).any (setHolds o negated items) then k (i + 1) caps else none
    | .anchor o a => if a.holds text o i then k i caps else none
    | .seq ps => runAll text fuel ps i caps k
    | .alt ps => ps.findSome? fun q => Pat.run text fuel q i caps k
    | .group none q => Pat.run text fuel q i caps k
    | .group (some n) q => Pat.run text fuel q i caps fun j caps => k j ((n, (i, j)) :: caps)
    | .atomic q =>
      match Pat.run text fuel q i caps fun j caps => some (j, caps) with
      | some (j, caps) => k j caps
      | none => none
    | .repeat_ low high .possessive q =>
      match runRepeat text fuel low high true q 0 none i caps fun j caps => some (j, caps) with
      | some (j, caps) => k j caps
      | none => none
    | .repeat_ low high greed q => runRepeat text fuel low high (greed == .greedy) q 0 none i caps k
    | .backref o n =>
      match caps.lookup n with
      | none => none
      | some (a, b) =>
        let piece := text.extract a b
        let there := text.extract i (i + piece.size)
        if piece.size == there.size && (piece.zip there).all (fun ab => sameChar o ab.1 ab.2) then
          k (i + piece.size) caps
        else none
    | .look ahead negated width q =>
      let found :=
        if ahead then Pat.run text fuel q i caps fun j caps => some (j, caps)
        else if i < width then none
        else Pat.run text fuel q (i - width) caps fun j caps => if j == i then some (j, caps) else none
      match found, negated with
      | some (_, caps), false => k i caps
      | none, true => k i caps
      | _, _ => none

/-- Matches patterns one after the other. -/
def runAll (text : Array Char) :
    (fuel : Nat) → List Pat → Nat → Captures → Rest → Option (Nat × Captures)
  | 0, _, _, _, _ => none
  | _ + 1, [], i, caps, k => k i caps
  | fuel + 1, p :: ps, i, caps, k =>
    Pat.run text fuel p i caps fun j caps => runAll text fuel ps j caps k

/-- Goes on with a repetition after `count` rounds, the last optional one of which began at `last`. -/
def runRepeat (text : Array Char) : (fuel : Nat) → (low : Nat) → (high : Option Nat) → (greedy : Bool) →
    Pat → (count : Nat) → (last : Option Nat) → Nat → Captures → Rest → Option (Nat × Captures)
  | 0, _, _, _, _, _, _, _, _, _ => none
  | fuel + 1, low, high, greedy, p, count, last, i, caps, k =>
    if count < low then
      Pat.run text fuel p i caps fun j caps =>
        runRepeat text fuel low high greedy p (count + 1) last j caps k
    else
      let mayGoOn := high.all (count < ·) && last != some i
      let another (_ : Unit) : Option (Nat × Captures) :=
        if mayGoOn then
          Pat.run text fuel p i caps fun j caps =>
            runRepeat text fuel low high greedy p (count + 1) (some i) j caps k
        else none
      if greedy then
        match another () with
        | some r => some r
        | none => k i caps
      else
        match k i caps with
        | some r => some r
        | none => another ()

end

mutual

/-- A bound on how deep one round through a pattern goes. -/
def Pat.size : Pat → Nat
  | .seq ps | .alt ps => sizeAll ps + 2
  | .group _ p | .atomic p | .look _ _ _ p => p.size + 2
  | .repeat_ low _ _ p => (p.size + 2) * (low + 2)
  | _ => 2

def sizeAll : List Pat → Nat
  | [] => 1
  | p :: ps => p.size + sizeAll ps + 1

end

/-- The first match at or after a place, in at most `fuel` places. -/
def searchFrom (text : Array Char) (p : Pat) : (fuel : Nat) → Nat → Option (Nat × Nat × Captures)
  | 0, _ => none
  | fuel + 1, i =>
    match p.run text ((text.size + 2) * (p.size + 2)) i [] fun j caps => some (j, caps) with
    | some (j, caps) => some (i, j, caps)
    | none => searchFrom text p fuel (i + 1)

/-- The first match of a pattern: the whole of it, then what each group took. -/
def search (p : Pat) (groups : Nat) (s : String) : Option (List (Option String)) :=
  let text := s.toList.toArray
  let piece (a b : Nat) : String := String.ofList (text.extract a b).toList
  (searchFrom text p (text.size + 1) 0).map fun (a, b, caps) =>
    some (piece a b) :: (List.range groups).map fun n =>
      (caps.lookup (n + 1)).map fun ab => piece ab.1 ab.2

end EventScript.Pattern
