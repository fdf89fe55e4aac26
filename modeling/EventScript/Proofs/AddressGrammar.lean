import EventScript.Address
import EventScript.Proofs.PathGrammar
import Mathlib.Data.List.Forall2

/-!
# The grammar of handler addresses

An address may begin with a method, spelled in letters of either case and with blanks after it, and go on with a module
that has a slash, a colon or nothing after its name. Both are found exactly if the text begins with them, and they are
found in one way.
-/

namespace EventScript

namespace Text

variable {cs front rest : List Char}

/-- A text that is blank at neither end. -/
structure IsTrimmed (cs : List Char) : Prop where
  first : ∀ c ∈ cs.head?, isBlank c = false
  last : ∀ c ∈ cs.getLast?, isBlank c = false

theorem dropEndWhile_of_getLast? {p : Char → Bool} (h : ∀ c ∈ cs.getLast?, p c = false) :
    dropEndWhile p cs = cs := by
  rw [← List.head?_reverse] at h
  have hstop := (takeWhile_stop (List.forall_mem_nil _) h).2
  rw [List.nil_append] at hstop
  unfold dropEndWhile
  rw [hstop, List.reverse_reverse]

theorem IsTrimmed.trim_eq (h : IsTrimmed cs) : trimChars isBlank cs = cs := by
  have hstop := (takeWhile_stop (List.forall_mem_nil _) h.first).2
  rw [List.nil_append] at hstop
  unfold trimChars
  rw [hstop, dropEndWhile_of_getLast? h.last]

theorem isTrimmed_trimChars (cs : List Char) : IsTrimmed (trimChars isBlank cs) := by
  constructor
  · intro c hc
    obtain ⟨tail, heq, -⟩ := dropEndWhile_append_eq isBlank (cs.dropWhile isBlank)
    apply head?_dropWhile isBlank cs c
    rw [heq]
    exact List.mem_head?_append_of_mem_head? hc
  · intro c hc
    unfold trimChars dropEndWhile at hc
    rw [List.getLast?_reverse] at hc
    exact head?_dropWhile isBlank _ c hc

theorem IsTrimmed.of_append (h : IsTrimmed (front ++ cs)) (hfirst : ∀ c ∈ cs.head?, isBlank c = false) :
    IsTrimmed cs := by
  refine ⟨hfirst, fun c hc => ?_⟩
  apply h.last c
  exact List.mem_getLast?_append_of_mem_getLast? hc

theorem IsTrimmed.append (hfirst : ∀ c ∈ front.head?, isBlank c = false) (hfront : front ≠ []) (h : IsTrimmed cs)
    (hcs : cs ≠ []) : IsTrimmed (front ++ cs) := by
  constructor
  · rwa [List.head?_append_of_ne_nil _ hfront]
  · rw [List.getLast?_append_of_ne_nil _ hcs]
    exact h.last

/-- A cut and what follows it. -/
def afterCut (c : Char) : Option (List Char) → List Char
  | some rest => c :: rest
  | none => []

theorem cutAt_append {c : Char} (h : c ∉ front) (cs : List Char) :
    cutAt c (front ++ cs) = (front ++ (cutAt c cs).1, (cutAt c cs).2) := by
  induction front with
  | nil => rfl
  | cons d front ih =>
    obtain ⟨hd, hfront⟩ := not_or.mp (List.mem_cons.not.mp h)
    rw [List.cons_append, cutAt, if_neg (Ne.symm hd), ih hfront]
    rfl

theorem cutAt_afterCut {c : Char} (h : c ∉ front) (after : Option (List Char)) :
    cutAt c (front ++ afterCut c after) = (front, after) := by
  rw [cutAt_append h]
  cases after with
  | none => exact congrArg (·, none) (List.append_nil front)
  | some rest => simp [afterCut, cutAt]

/-- A text is what stands before its first cut, and the cut with what follows it. -/
theorem exists_cut (c : Char) (cs : List Char) : ∃ front after, c ∉ front ∧ cs = front ++ afterCut c after := by
  induction cs with
  | nil => exact ⟨[], none, List.not_mem_nil, rfl⟩
  | cons d cs ih =>
    by_cases hd : d = c
    · exact ⟨[], some cs, List.not_mem_nil, congrArg (· :: cs) hd⟩
    · obtain ⟨front, after, hfront, heq⟩ := ih
      refine ⟨d :: front, after, ?_, congrArg (d :: ·) heq⟩
      exact List.mem_cons.not.mpr (not_or.mpr ⟨Ne.symm hd, hfront⟩)

end Text

/-! ### The method -/

/-- The letters that methods are spelled with. -/
def methodLetters : List Char := "ACDEGHILNOPSTU".toList

theorem subset_methodLetters : ∀ name ∈ requestMethods, name.toList ⊆ methodLetters := by
  decide

/-- A character for every letter of a method. -/
def Spells (method m : List Char) : Prop := List.Forall₂ (fun l c => spellsLetter l c = true) method m

/-- What holds of a character that spells a letter of a method: it spells no other one, and its upper case form is
one character that spells the letter too. -/
def SpellsFully (l c : Char) : Prop :=
  (Text.isBlank c = false ∧ c ≠ '#') ∧ (∀ l' ∈ methodLetters, spellsLetter l' c = true → l' = l) ∧
    ∃ d ∈ Text.upperForm c, Text.upperForm c = [d] ∧ Text.upperForm d = [d] ∧ spellsLetter l d = true

instance (l c : Char) : Decidable (SpellsFully l c) :=
  @instDecidableAnd _ _ inferInstance (@instDecidableAnd _ _ (List.decidableBAll _ _) (List.decidableBEx _ _))

/-- The characters that can spell a letter: the plain ones, and three that fold into one. -/
def spellingCodes : List Nat := List.range 128 ++ [0x130, 0x131, 0x17f]

theorem spellsFully_of_code {n : Nat} (hn : n ∈ spellingCodes) {l : Char} (hl : l ∈ methodLetters)
    (h : spellsLetter l (Char.ofNat n) = true) : SpellsFully l (Char.ofNat n) := by
  have hall : (spellingCodes.all fun n => methodLetters.all fun l =>
      !spellsLetter l (Char.ofNat n) || decide (SpellsFully l (Char.ofNat n))) = true := by decide +kernel
  have hone := List.all_eq_true.mp (List.all_eq_true.mp hall n hn) l hl
  rw [h] at hone
  exact of_decide_eq_true hone

theorem code_of_spellsLetter {l c : Char} (hl : l ∈ methodLetters) (h : spellsLetter l c = true) :
    c.toNat ∈ spellingCodes := by
  by_cases hlt : c.toNat < 128
  · exact List.mem_append_left _ (List.mem_range.mpr hlt)
  · have hupper : c.toUpper = c := by
      unfold Char.toUpper
      rw [dif_neg]
      rintro ⟨-, hle⟩
      have hz : c.toNat ≤ 122 := hle
      omega
    have hplain : (methodLetters.all fun l => decide (l.toNat < 128)) = true := by decide
    simp only [spellsLetter, hupper, Bool.or_eq_true, Bool.and_eq_true, beq_iff_eq] at h
    obtain (rfl | ⟨-, hc | hc⟩) | ⟨-, hc⟩ := h
    · exact absurd (of_decide_eq_true (List.all_eq_true.mp hplain c hl)) hlt
    all_goals simp [spellingCodes, hc]

theorem spellsFully {l c : Char} (hl : l ∈ methodLetters) (h : spellsLetter l c = true) : SpellsFully l c := by
  have hc := spellsFully_of_code (code_of_spellsLetter hl h) hl
  rw [Char.ofNat_toNat] at hc
  exact hc h

section Methods

variable {method method' m m' rest rest' cs a : List Char}

theorem afterMethod?_eq_some_iff :
    afterMethod? method cs = some rest ↔ ∃ m, cs = m ++ rest ∧ Spells method m := by
  induction method generalizing cs with
  | nil =>
    constructor
    · intro h
      cases h
      exact ⟨[], rfl, .nil⟩
    · rintro ⟨m, rfl, h⟩
      cases h
      rfl
  | cons l method ih =>
    constructor
    · intro h
      cases cs with
      | nil => cases h
      | cons c cs =>
        rw [afterMethod?] at h
        split at h
        · rename_i hc
          obtain ⟨m, rfl, hm⟩ := ih.mp h
          exact ⟨c :: m, rfl, .cons hc hm⟩
        · cases h
    · rintro ⟨m, rfl, h⟩
      cases h with
      | cons hc hm =>
        rw [List.cons_append, afterMethod?, if_pos hc]
        exact ih.mpr ⟨_, rfl, hm⟩

theorem Spells.fully (h : Spells method m) (hmethod : method ⊆ methodLetters) :
    List.Forall₂ SpellsFully method m :=
  ((List.forall₂_and_left _ _).mpr ⟨hmethod, h⟩).imp fun _ _ ⟨hl, hspell⟩ => spellsFully hl hspell

theorem plain_of_spells (h : List.Forall₂ SpellsFully method m) : ∀ c ∈ m, Text.isBlank c = false ∧ c ≠ '#' := by
  induction h with
  | nil => exact List.forall_mem_nil _
  | cons hc _ ih => exact List.forall_mem_cons.mpr ⟨hc.1, ih⟩

/-- A method in upper case is spelled as it was, and stays what it is. -/
theorem upper_of_spells (h : List.Forall₂ SpellsFully method m) :
    Spells method (m.flatMap Text.upperForm) ∧
      (m.flatMap Text.upperForm).flatMap Text.upperForm = m.flatMap Text.upperForm := by
  induction h with
  | nil => exact ⟨.nil, rfl⟩
  | cons hc _ ih =>
    obtain ⟨-, -, d, -, hform, hagain, hspell⟩ := hc
    rw [List.flatMap_cons, hform]
    refine ⟨.cons hspell ih.1, ?_⟩
    rw [List.flatMap_append, ih.2, List.flatMap_singleton, hagain]

/-- A character spells at most one letter, so of two methods that a text begins with one begins the other. -/
theorem begins_of_spells {s : List Char} (h : List.Forall₂ SpellsFully method m) (h' : Spells method' (m ++ s))
    (hmethod' : method' ⊆ methodLetters) : method <+: method' := by
  induction h generalizing method' with
  | nil => exact List.nil_prefix
  | cons hc _ ih =>
    cases h' with
    | cons hc' h' =>
      obtain ⟨hl', hmore⟩ := List.cons_subset.mp hmethod'
      have hsame := hc.2.1 _ hl' hc'
      exact List.cons_prefix_cons.mpr ⟨hsame.symm, ih h' hmore⟩

theorem method_eq_of_begins : ∀ name ∈ requestMethods, ∀ name' ∈ requestMethods,
    name.toList <+: name'.toList → name = name' := by
  decide

/-- A text begins with one method at most, spelled in one way. -/
theorem Spells.unique {name name' : String} (hname : name ∈ requestMethods) (hname' : name' ∈ requestMethods)
    (h : Spells name.toList m) (h' : Spells name'.toList m') (heq : m ++ rest = m' ++ rest') :
    m = m' ∧ rest = rest' := by
  have hletters := subset_methodLetters name hname
  have hletters' := subset_methodLetters name' hname'
  have hsame : name = name' := by
    obtain ⟨s, rfl, -⟩ | ⟨s, rfl, -⟩ := List.append_eq_append_iff.mp heq
    · exact method_eq_of_begins _ hname _ hname' (begins_of_spells (h.fully hletters) h' hletters')
    · exact (method_eq_of_begins _ hname' _ hname (begins_of_spells (h'.fully hletters') h hletters)).symm
  subst hsame
  exact List.append_inj heq (h.length_eq.symm.trans h'.length_eq)

/-- A text that begins with a method, blanks after it, and an address. -/
structure StartsMethod (cs m a : List Char) : Prop where
  spelled : ∃ name ∈ requestMethods, Spells name.toList m
  blanks : ∃ blanks, cs = m ++ (blanks ++ a) ∧ blanks ≠ [] ∧ ∀ c ∈ blanks, Text.isBlank c = true
  address : a ≠ []
  first : ∀ c ∈ a.head?, Text.isBlank c = false
  oneLine : isOneLine a = true

theorem splitMethod?_eq_some_iff : splitMethod? cs = some (m, a) ↔ StartsMethod cs m a := by
  have sound {m a : List Char} (h : splitMethod? cs = some (m, a)) : StartsMethod cs m a := by
    obtain ⟨name, hname, h⟩ := List.exists_of_findSome?_eq_some h
    split at h
    · cases h
    rename_i rest hrest
    obtain ⟨m', rfl, hm⟩ := afterMethod?_eq_some_iff.mp hrest
    simp only at h
    split at h
    · cases h
    rename_i hcond
    simp only [Bool.or_eq_true, not_or, Bool.not_eq_true, List.isEmpty_eq_false_iff, Bool.not_eq_false'] at hcond
    have hlen : m'.length = name.length := by
      rw [← hm.length_eq, String.length_toList]
    rw [← hlen, List.take_left] at h
    cases h
    exact {
      spelled := ⟨name, hname, hm⟩
      blanks := ⟨_, congrArg (_ ++ ·) (List.takeWhile_append_dropWhile).symm, hcond.1.1,
        List.all_eq_true.mp List.all_takeWhile⟩
      address := hcond.1.2
      first := head?_dropWhile _ rest
      oneLine := hcond.2 }
  refine ⟨sound, fun h => ?_⟩
  obtain ⟨name, hname, hm⟩ := h.spelled
  obtain ⟨blanks, heq, hne, hblanks⟩ := h.blanks
  obtain ⟨htake, hdrop⟩ := Text.takeWhile_stop hblanks h.first
  have hrest : afterMethod? name.toList cs = some (blanks ++ a) := afterMethod?_eq_some_iff.mpr ⟨m, heq, hm⟩
  have hsome : (splitMethod? cs).isSome = true := by
    unfold splitMethod?
    rw [List.findSome?_isSome_iff]
    refine ⟨name, hname, ?_⟩
    simp [hrest, htake, hdrop, hne, h.address, h.oneLine]
  obtain ⟨⟨m', a'⟩, hsplit⟩ := Option.isSome_iff_exists.mp hsome
  have h' := sound hsplit
  obtain ⟨name', hname', hm'⟩ := h'.spelled
  obtain ⟨blanks', heq', -, hblanks'⟩ := h'.blanks
  obtain ⟨rfl, hafter⟩ := Spells.unique hname hname' hm hm' (heq.symm.trans heq')
  obtain ⟨-, rfl⟩ := scan_append_inj hblanks hblanks' h.first h'.first hafter
  exact hsplit

theorem splitMethod?_slash (cs : List Char) : splitMethod? ('/' :: cs) = none := rfl

end Methods

/-! ### The module and the path -/

def isModuleStart (c : Char) : Bool := c.isAlpha || c == '_'

def isModuleChar (c : Char) : Bool := c.isAlphanum || c == '_' || c == '-'

/-- The name of a module. -/
def IsModuleName : List Char → Prop
  | [] => False
  | c :: cs => isModuleStart c = true ∧ ∀ c ∈ cs, isModuleChar c = true

/-- What can follow a module: nothing, or a slash or a colon and the rest of a line. -/
def FollowsModule : List Char → Prop
  | [] => True
  | d :: more => (d = '/' ∨ d = ':') ∧ '\n' ∉ more

section Modules

variable {name rest cs : List Char}

/-- A module, what follows it, and at most a line feed at the end. -/
def StartsModule (cs name rest : List Char) : Prop :=
  ∃ tail, (tail = [] ∨ tail = ['\n']) ∧ cs = ['/', '/', '@'] ++ (name ++ (rest ++ tail)) ∧
    IsModuleName name ∧ FollowsModule rest

theorem afterStart?_eq_some_iff {p : List Char} : Text.afterStart? p cs = some rest ↔ cs = p ++ rest := by
  induction p generalizing cs with
  | nil => exact ⟨fun h => Option.some.inj h, congrArg some⟩
  | cons a p ih =>
    cases cs with
    | nil => exact ⟨nofun, nofun⟩
    | cons b cs =>
      rw [Text.afterStart?]
      split
      · rename_i hab
        rw [ih, hab, List.cons_append, List.cons_inj_right]
      · rename_i hab
        exact ⟨nofun, fun h => absurd (List.cons.inj h).1.symm hab⟩

/-- One line is a text without line feeds, or one with a line feed after it. -/
theorem isOneLine_iff : isOneLine cs = true ↔ ∃ line, '\n' ∉ line ∧ (cs = line ∨ cs = line ++ ['\n']) := by
  have hall (cs : List Char) : cs.all (· != '\n') = true ↔ '\n' ∉ cs := by
    rw [List.all_eq_true]
    exact ⟨fun h hmem => absurd (h _ hmem) (by decide), fun h c hc => bne_iff_ne.mpr (ne_of_mem_of_not_mem hc h)⟩
  unfold isOneLine
  rw [Bool.or_eq_true, hall, hall]
  constructor
  · rintro (h | h)
    · exact ⟨cs, h, .inl rfl⟩
    · by_cases hmem : '\n' ∈ cs
      · refine ⟨cs.dropLast, h, .inr ?_⟩
        have hne : cs ≠ [] := List.ne_nil_of_mem hmem
        have hsplit := List.dropLast_append_getLast hne
        rw [← hsplit] at hmem
        obtain hmem | hmem := List.mem_append.mp hmem
        · exact absurd hmem h
        · rw [List.mem_singleton.mp hmem]
          exact hsplit.symm
      · exact ⟨cs, hmem, .inl rfl⟩
  · rintro ⟨line, h, rfl | rfl⟩
    · exact .inl h
    · right
      rwa [List.dropLast_concat]

/-- What is left of a module after its name, if it can follow one. -/
def afterModule? : List Char → Option (List Char)
  | [] => some []
  | ['\n'] => some []
  | d :: more =>
    if (d == '/' || d == ':') && isOneLine more then
      some (if more.getLast? == some '\n' then d :: more.dropLast else d :: more)
    else none

theorem afterModule?_eq_some_iff :
    afterModule? cs = some rest ↔ FollowsModule rest ∧ (cs = rest ∨ cs = rest ++ ['\n']) := by
  constructor
  · intro h
    unfold afterModule? at h
    split at h
    · cases h
      exact ⟨trivial, .inl rfl⟩
    · cases h
      exact ⟨trivial, .inr rfl⟩
    · rename_i d more _
      split at h
      · rename_i hcond
        obtain ⟨hd, hline⟩ := (Bool.and_eq_true _ _).mp hcond
        rw [Bool.or_eq_true, beq_iff_eq, beq_iff_eq] at hd
        obtain ⟨line, hmem, rfl | rfl⟩ := isOneLine_iff.mp hline
        · rw [if_neg fun hlast => hmem (List.mem_of_getLast? (beq_iff_eq.mp hlast))] at h
          cases h
          exact ⟨⟨hd, hmem⟩, .inl rfl⟩
        · rw [List.getLast?_concat, if_pos (beq_self_eq_true _), List.dropLast_concat] at h
          cases h
          exact ⟨⟨hd, hmem⟩, .inr rfl⟩
      · cases h
  · rintro ⟨hrest, heq⟩
    cases rest with
    | nil => obtain rfl | rfl := heq <;> rfl
    | cons d line =>
      obtain ⟨hd, hmem⟩ := hrest
      have hnewline : d ≠ '\n' := by
        rintro rfl
        exact absurd hd (by decide)
      have hsep : (d == '/' || d == ':') = true := by
        rwa [Bool.or_eq_true, beq_iff_eq, beq_iff_eq]
      obtain rfl | rfl := heq
      · have hline : isOneLine line = true := isOneLine_iff.mpr ⟨line, hmem, .inl rfl⟩
        rw [afterModule?, if_pos (by rw [hsep, hline]; rfl),
          if_neg fun hlast => hmem (List.mem_of_getLast? (beq_iff_eq.mp hlast))]
        simp [hnewline]
      · have hline : isOneLine (line ++ ['\n']) = true := isOneLine_iff.mpr ⟨line, hmem, .inr rfl⟩
        rw [List.cons_append, afterModule?, if_pos (by rw [hsep, hline]; rfl), List.getLast?_concat,
          if_pos (beq_self_eq_true _), List.dropLast_concat]
        simp [hnewline]

/-- A module is a name between its first characters and what can follow it. -/
theorem splitModule?_cons (c : Char) (cs : List Char) : splitModule? ('/' :: '/' :: '@' :: c :: cs) =
    if isModuleStart c then (afterModule? (cs.dropWhile isModuleChar)).map (c :: cs.takeWhile isModuleChar, ·)
    else none := by
  change (if isModuleStart c = true then (match cs.dropWhile isModuleChar with
    | [] => some (c :: cs.takeWhile isModuleChar, [])
    | ['\n'] => some (c :: cs.takeWhile isModuleChar, [])
    | d :: more =>
      if (d == '/' || d == ':') && isOneLine more then
        some (c :: cs.takeWhile isModuleChar, if more.getLast? == some '\n' then d :: more.dropLast else d :: more)
      else none) else none) = _
  congr 1
  unfold afterModule?
  split
  · rfl
  · rfl
  · split <;> rfl

theorem splitModule?_eq_some_iff : splitModule? cs = some (name, rest) ↔ StartsModule cs name rest := by
  constructor
  · intro h
    obtain ⟨c, more, rfl⟩ : ∃ c more, cs = '/' :: '/' :: '@' :: c :: more := by
      unfold splitModule? at h
      split at h
      · rename_i c more hstart
        exact ⟨c, more, afterStart?_eq_some_iff.mp hstart⟩
      · cases h
    rw [splitModule?_cons] at h
    split at h
    · rename_i hc
      obtain ⟨rest, hafter, heq⟩ := Option.map_eq_some_iff.mp h
      cases heq
      obtain ⟨hrest, htail⟩ := afterModule?_eq_some_iff.mp hafter
      have hword := List.takeWhile_append_dropWhile (p := isModuleChar) (l := more)
      have hname : IsModuleName (c :: more.takeWhile isModuleChar) :=
        ⟨hc, List.all_eq_true.mp List.all_takeWhile⟩
      obtain htail | htail := htail
      · refine ⟨[], .inl rfl, ?_, hname, hrest⟩
        rw [List.append_nil, ← htail]
        exact congrArg (['/', '/', '@', c] ++ ·) hword.symm
      · refine ⟨['\n'], .inr rfl, ?_, hname, hrest⟩
        rw [← htail]
        exact congrArg (['/', '/', '@', c] ++ ·) hword.symm
    · cases h
  · rintro ⟨tail, htail, rfl, hname, hrest⟩
    cases name with
    | nil => cases hname
    | cons c word =>
      obtain ⟨hc, hword⟩ := hname
      have hstop : ∀ d ∈ (rest ++ tail).head?, isModuleChar d = false := by
        cases rest with
        | nil =>
          obtain rfl | rfl := htail
          · nofun
          · rintro _ ⟨⟩
            rfl
        | cons d more =>
          rintro _ ⟨⟩
          obtain rfl | rfl := hrest.1 <;> rfl
      obtain ⟨htake, hdrop⟩ := Text.takeWhile_stop hword hstop
      have hafter : afterModule? (rest ++ tail) = some rest := by
        apply afterModule?_eq_some_iff.mpr
        obtain rfl | rfl := htail
        · exact ⟨hrest, .inl (List.append_nil rest)⟩
        · exact ⟨hrest, .inr rfl⟩
      change splitModule? ('/' :: '/' :: '@' :: c :: (word ++ (rest ++ tail))) = _
      rw [splitModule?_cons, if_pos hc, htake, hdrop, hafter]
      rfl

end Modules

end EventScript
