import EventScript.Proofs.AddressGrammar

/-!
# Handler addresses read back

An address in one text is a method, a module, a path and a fragment. Reading it again gives the same parts, unless it
names the web as its module and its path spells another one: the text leaves the web out, and then the path is read as
the module.
-/

namespace EventScript

/-! ### The module and the path -/

section Places

variable {name rest cs : List Char}

/-- The path that is read after the name of a module. -/
def pathAfter (rest : List Char) : List Char :=
  match rest with
  | [] => ['/']
  | ':' :: more => '/' :: more
  | _ => rest

theorem pathAfter_eq (h : FollowsModule rest) : pathAfter rest = '/' :: rest.tail := by
  cases rest with
  | nil => rfl
  | cons d more => obtain rfl | rfl := h.1 <;> rfl

theorem followsModule_pathAfter (h : FollowsModule rest) : FollowsModule (pathAfter rest) := by
  rw [pathAfter_eq h]
  refine ⟨.inl rfl, ?_⟩
  cases rest with
  | nil => exact List.not_mem_nil
  | cons d more => exact h.2

theorem pathAfter_pathAfter (h : FollowsModule rest) : pathAfter (pathAfter rest) = pathAfter rest := by
  rw [pathAfter_eq h]
  rfl

/-- The module of an address without a fragment, and the path in it. An address without a module is one of the web. -/
def placeOf (cs : List Char) : List Char × List Char :=
  match splitModule? cs with
  | some (name, rest) => (name, pathAfter rest)
  | none => ("http".toList, cs)

/-- The text of a module and a path; the web is left out. -/
def placeText (place : List Char × List Char) : List Char :=
  if place.1 = "http".toList then place.2 else ['/', '/', '@'] ++ (place.1 ++ place.2)

theorem placeOf_of_none (h : splitModule? cs = none) : placeOf cs = ("http".toList, cs) := by
  rw [placeOf, h]

theorem placeOf_of_some (h : splitModule? cs = some (name, rest)) : placeOf cs = (name, pathAfter rest) := by
  rw [placeOf, h]

/-- Without a module the text of an address is the address; with one it starts with a slash and ends with the path. -/
theorem placeText_placeOf (cs : List Char) :
    (splitModule? cs = none ∧ placeText (placeOf cs) = cs) ∨
      ∃ name rest front, splitModule? cs = some (name, rest) ∧ placeText (placeOf cs) = front ++ pathAfter rest ∧
        (front = [] ∨ front = ['/', '/', '@'] ++ name) := by
  cases hcs : splitModule? cs with
  | none =>
    left
    rw [placeOf_of_none hcs]
    exact ⟨rfl, rfl⟩
  | some split =>
    right
    obtain ⟨name, rest⟩ := split
    rw [placeOf_of_some hcs]
    by_cases hweb : name = "http".toList
    · exact ⟨name, rest, [], rfl, if_pos hweb, .inl rfl⟩
    · exact ⟨name, rest, _, rfl, (if_neg hweb).trans (List.append_assoc _ _ _).symm, .inr rfl⟩

theorem placeText_slash {split : List Char × List Char} (h : splitModule? cs = some split) :
    ∃ more, placeText (placeOf cs) = '/' :: more := by
  obtain ⟨hnone, -⟩ | ⟨name, rest, front, hsplit, htext, hfront⟩ := placeText_placeOf cs
  · rw [h] at hnone
    cases hnone
  · obtain ⟨-, -, -, -, hrest⟩ := splitModule?_eq_some_iff.mp hsplit
    rw [htext, pathAfter_eq hrest]
    obtain rfl | rfl := hfront
    · exact ⟨_, rfl⟩
    · exact ⟨_, rfl⟩

/-- A path after a module ends as the address does, or is a slash. -/
theorem getLast?_pathAfter (h : splitModule? cs = some (name, rest)) (hcs : Text.IsTrimmed cs) :
    ∀ c ∈ (pathAfter rest).getLast?, Text.isBlank c = false := by
  obtain ⟨tail, htail, rfl, -, hrest⟩ := splitModule?_eq_some_iff.mp h
  rw [pathAfter_eq hrest]
  intro c hc
  cases hmore : rest.tail with
  | nil =>
    rw [hmore] at hc
    cases hc
    rfl
  | cons d more =>
    rw [hmore, List.getLast?_cons_cons, ← hmore] at hc
    apply hcs.last c
    obtain rfl | rfl := htail
    · rw [List.append_nil]
      apply List.mem_getLast?_append_of_mem_getLast?
      apply List.mem_getLast?_append_of_mem_getLast?
      cases rest with
      | nil => cases hc
      | cons d' rest =>
        change c ∈ ([d'] ++ rest).getLast?
        exact List.mem_getLast?_append_of_mem_getLast? hc
    · have hblank := hcs.last '\n' (by rw [← List.append_assoc, ← List.append_assoc]; exact List.getLast?_concat)
      exact absurd hblank (by decide)

/-- The text of an address has no characters but a slash and its own. -/
theorem placeText_subset (cs : List Char) : placeText (placeOf cs) ⊆ '/' :: cs := by
  obtain ⟨-, htext⟩ | ⟨name, rest, front, hsplit, htext, hfront⟩ := placeText_placeOf cs
  · rw [htext]
    exact List.subset_cons_self _ _
  · obtain ⟨tail, -, rfl, -, hrest⟩ := splitModule?_eq_some_iff.mp hsplit
    rw [htext, pathAfter_eq hrest]
    have hmore : rest.tail ⊆ ['/', '/', '@'] ++ (name ++ (rest ++ tail)) := by
      intro c hc
      have hmem := List.mem_of_mem_tail hc
      exact List.mem_append_right _ (List.mem_append_right _ (List.mem_append_left _ hmem))
    have hbefore : front ⊆ '/' :: (['/', '/', '@'] ++ (name ++ (rest ++ tail))) := by
      obtain rfl | rfl := hfront
      · exact List.nil_subset _
      · apply List.subset_cons_of_subset
        rw [← List.append_assoc]
        exact List.subset_append_left _ _
    exact List.append_subset.mpr ⟨hbefore, List.cons_subset_cons _ hmore⟩

/-- What is read of the text of an address is the address, unless the text leaves the web out and the path spells a
module: then another module or a shorter path is read. -/
theorem placeOf_placeText (cs : List Char) : placeOf (placeText (placeOf cs)) = placeOf cs ↔
    ¬((placeOf cs).1 = "http".toList ∧ (splitModule? (placeOf cs).2).isSome = true) := by
  cases hcs : splitModule? cs with
  | none =>
    rw [placeOf_of_none hcs]
    refine ⟨fun _ h => ?_, fun _ => placeOf_of_none hcs⟩
    rw [hcs] at h
    cases h.2
  | some split =>
    obtain ⟨name, rest⟩ := split
    obtain ⟨-, -, -, hname, hrest⟩ := splitModule?_eq_some_iff.mp hcs
    rw [placeOf_of_some hcs]
    by_cases hweb : name = "http".toList
    · subst hweb
      rw [placeText, if_pos rfl]
      cases hpath : splitModule? (pathAfter rest) with
      | none =>
        refine ⟨fun _ h => ?_, fun _ => placeOf_of_none hpath⟩
        cases h.2
      | some split =>
        obtain ⟨name', rest'⟩ := split
        refine ⟨fun heq => ?_, fun h => absurd ⟨rfl, rfl⟩ h⟩
        rw [placeOf_of_some hpath] at heq
        obtain ⟨tail, -, htext, -, hrest'⟩ := splitModule?_eq_some_iff.mp hpath
        have hlen := congrArg List.length (Prod.mk.inj heq).2
        rw [htext, pathAfter_eq hrest'] at hlen
        simp only [List.length_cons, List.length_append, List.length_tail, List.length_nil] at hlen
        omega
    · rw [placeText, if_neg hweb]
      have hagain : splitModule? (['/', '/', '@'] ++ (name ++ pathAfter rest)) = some (name, pathAfter rest) :=
        splitModule?_eq_some_iff.mpr ⟨[], .inl rfl, by rw [List.append_nil], hname, followsModule_pathAfter hrest⟩
      refine ⟨fun _ h => hweb h.1, fun _ => ?_⟩
      rw [placeOf_of_some hagain, pathAfter_pathAfter hrest]

end Places

/-! ### The whole address -/

namespace HandlerPath

section Addresses

variable {cs front : List Char} {fragment : Option (List Char)}

/-- The fragment after a cut; an empty one is none. -/
def fragmentOf (after : Option (List Char)) : Option String :=
  match after with
  | some (c :: more) => some (String.ofList (c :: more))
  | _ => none

/-- The address in a text without a method. -/
def ofAddress (method : Option String) (cs : List Char) : HandlerPath where
  module := String.ofList (placeOf (Text.cutAt '#' cs).1).1
  path := String.ofList (placeOf (Text.cutAt '#' cs).1).2
  method := method
  fragment := fragmentOf (Text.cutAt '#' cs).2

/-- The text of an address without its method. -/
def address (h : HandlerPath) : List Char :=
  placeText (h.module.toList, h.path.toList) ++ match h.fragment with
    | some f => if f.isEmpty then [] else '#' :: f.toList
    | none => []

theorem ofAddress_eq (method : Option String) (cs : List Char) : ofAddress method cs =
    let fragment := fragmentOf (Text.cutAt '#' cs).2
    match splitModule? (Text.cutAt '#' cs).1 with
    | some (name, rest) =>
      { module := String.ofList name, path := String.ofList (pathAfter rest), method, fragment }
    | none => { module := "http", path := String.ofList (Text.cutAt '#' cs).1, method, fragment } := by
  unfold ofAddress placeOf
  cases splitModule? (Text.cutAt '#' cs).1 <;> rfl

theorem read_eq (text : String) : read text =
    let cs := Text.trimChars Text.isBlank text.toList
    if cs.isEmpty then .error (.handlerPath (Text.quoted text))
    else match splitMethod? cs with
      | some (m, a) => .ok (ofAddress (some (Text.upper (String.ofList m))) (Text.trimChars Text.isBlank a))
      | none => .ok (ofAddress none cs) := by
  unfold read
  simp only [ofAddress_eq]
  split
  · rfl
  · cases splitMethod? (Text.trimChars Text.isBlank text.toList) with
    | none =>
      dsimp only
      cases splitModule? (Text.cutAt '#' (Text.trimChars Text.isBlank text.toList)).1 <;> rfl
    | some split =>
      dsimp only
      cases splitModule? (Text.cutAt '#' (Text.trimChars Text.isBlank split.2)).1 <;> rfl

theorem full_toList (h : HandlerPath) : h.full.toList =
    (match h.method with
      | some m => if m.isEmpty then [] else m.toList ++ [' ']
      | none => []) ++ h.address := by
  have hweb : (h.module == "http") = true ↔ h.module.toList = "http".toList := by
    rw [beq_iff_eq, String.toList_inj]
  unfold full address placeText
  simp only [hweb]
  cases h.method <;> cases h.fragment <;> split <;> simp [apply_ite String.toList]

theorem ofAddress_append (method : Option String) (hfront : '#' ∉ front) :
    ofAddress method (front ++ Text.afterCut '#' fragment) = {
      module := String.ofList (placeOf front).1
      path := String.ofList (placeOf front).2
      method := method
      fragment := fragmentOf fragment } := by
  unfold ofAddress
  rw [Text.cutAt_afterCut hfront]

/-- The text of an address is the text of its module and path, and its fragment as it was. -/
theorem exists_address (method : Option String) (hfragment : (Text.cutAt '#' cs).2 ≠ some []) :
    ∃ front fragment, '#' ∉ front ∧ cs = front ++ Text.afterCut '#' fragment ∧
      (ofAddress method cs).address = placeText (placeOf front) ++ Text.afterCut '#' fragment := by
  obtain ⟨front, fragment, hfront, rfl⟩ := Text.exists_cut '#' cs
  rw [Text.cutAt_afterCut hfront] at hfragment
  refine ⟨front, fragment, hfront, rfl, ?_⟩
  rw [ofAddress_append method hfront]
  unfold address
  simp only [String.toList_ofList]
  congr 1
  cases fragment with
  | none => rfl
  | some rest =>
    cases rest with
    | nil => exact absurd rfl hfragment
    | cons c rest => simp [Text.afterCut, fragmentOf]

/-- An address without a method is read back from its text, unless it leaves the web out before another module. -/
theorem ofAddress_address (method : Option String) (hfragment : (Text.cutAt '#' cs).2 ≠ some []) :
    ofAddress method (ofAddress method cs).address = ofAddress method cs ↔
      ¬((ofAddress method cs).module = "http" ∧ (splitModule? (ofAddress method cs).path.toList).isSome = true) := by
  obtain ⟨front, fragment, hfront, rfl, haddress⟩ := exists_address method hfragment
  have hcut : '#' ∉ placeText (placeOf front) := by
    intro hmem
    obtain hslash | hmem := List.mem_cons.mp (placeText_subset front hmem)
    · cases hslash
    · exact hfront hmem
  rw [haddress, ofAddress_append method hcut, ofAddress_append method hfront]
  rw [HandlerPath.mk.injEq, String.ofList_inj, String.ofList_inj]
  rw [String.toList_ofList, ← String.toList_inj, String.toList_ofList, ← placeOf_placeText front, Prod.ext_iff]
  simp

/-- The text of a trimmed address is trimmed: it starts as the address or with a slash, and ends as it or with one. -/
theorem isTrimmed_address (method : Option String) (hfragment : (Text.cutAt '#' cs).2 ≠ some [])
    (h : Text.IsTrimmed cs) : Text.IsTrimmed (ofAddress method cs).address := by
  obtain ⟨front, fragment, -, rfl, haddress⟩ := exists_address method hfragment
  rw [haddress]
  obtain ⟨-, htext⟩ | ⟨name, rest, before, hsplit, htext, -⟩ := placeText_placeOf front
  · rwa [htext]
  · obtain ⟨more, hslash⟩ := placeText_slash hsplit
    have hfirst : ∀ c ∈ (placeText (placeOf front)).head?, Text.isBlank c = false := by
      rw [hslash]
      rintro _ ⟨⟩
      rfl
    cases fragment with
    | none =>
      rw [Text.afterCut, List.append_nil] at h ⊢
      refine ⟨hfirst, ?_⟩
      have hne : pathAfter rest ≠ [] := by
        obtain ⟨-, -, -, -, hrest⟩ := splitModule?_eq_some_iff.mp hsplit
        rw [pathAfter_eq hrest]
        exact List.cons_ne_nil _ _
      rw [htext, List.getLast?_append_of_ne_nil _ hne]
      exact getLast?_pathAfter hsplit h
    | some f =>
      have hmark : Text.IsTrimmed ('#' :: f) := h.of_append (by rintro _ ⟨⟩; rfl)
      apply hmark.append hfirst _ (List.cons_ne_nil _ _)
      rw [hslash]
      exact List.cons_ne_nil _ _

theorem address_eq_or (method : Option String) (hfragment : (Text.cutAt '#' cs).2 ≠ some []) :
    (ofAddress method cs).address = cs ∨ ∃ more, (ofAddress method cs).address = '/' :: more := by
  obtain ⟨front, fragment, -, rfl, haddress⟩ := exists_address method hfragment
  rw [haddress]
  cases hsplit : splitModule? front with
  | none =>
    left
    rw [placeOf_of_none hsplit]
    rfl
  | some split =>
    right
    obtain ⟨more, hslash⟩ := placeText_slash hsplit
    rw [hslash]
    exact ⟨_, rfl⟩

theorem address_ne_nil (method : Option String) (hfragment : (Text.cutAt '#' cs).2 ≠ some []) (hne : cs ≠ []) :
    (ofAddress method cs).address ≠ [] := by
  obtain heq | ⟨more, heq⟩ := address_eq_or method hfragment
  · rwa [heq]
  · rw [heq]
    exact List.cons_ne_nil _ _

theorem newline_not_mem_address (method : Option String) (hfragment : (Text.cutAt '#' cs).2 ≠ some [])
    (h : '\n' ∉ cs) : '\n' ∉ (ofAddress method cs).address := by
  obtain ⟨front, fragment, -, rfl, haddress⟩ := exists_address method hfragment
  rw [haddress]
  intro hmem
  apply h
  obtain hmem | hmem := List.mem_append.mp hmem
  · obtain hslash | hmem := List.mem_cons.mp (placeText_subset front hmem)
    · cases hslash
    · exact List.mem_append_left _ hmem
  · exact List.mem_append_right _ hmem

theorem read_of_isTrimmed {text : String} (h : Text.IsTrimmed text.toList) (hne : text.toList ≠ []) :
    read text = match splitMethod? text.toList with
      | some (m, a) => .ok (ofAddress (some (Text.upper (String.ofList m))) (Text.trimChars Text.isBlank a))
      | none => .ok (ofAddress none text.toList) := by
  rw [read_eq]
  dsimp only
  rw [h.trim_eq, if_neg (by rwa [List.isEmpty_iff])]

/-- An address without a method is read from its text as one without a method. -/
theorem read_full_ofAddress (hfragment : (Text.cutAt '#' cs).2 ≠ some []) (h : Text.IsTrimmed cs) (hne : cs ≠ [])
    (hmethod : splitMethod? cs = none) :
    read (ofAddress none cs).full = .ok (ofAddress none (ofAddress none cs).address) := by
  have hfull : (ofAddress none cs).full.toList = (ofAddress none cs).address := full_toList _
  have hnone : splitMethod? (ofAddress none cs).address = none := by
    obtain heq | ⟨more, heq⟩ := address_eq_or none hfragment
    · rwa [heq]
    · rw [heq]
      exact splitMethod?_slash more
  have htrimmed := isTrimmed_address none hfragment h
  have haddress := address_ne_nil none hfragment hne
  rw [← hfull] at htrimmed haddress
  rw [read_of_isTrimmed htrimmed haddress, hfull, hnone]

/-- What follows a method in a trimmed text is trimmed and in one line, and has the same fragment. -/
theorem after_method {m a : List Char} (hstart : StartsMethod cs m a) (h : Text.IsTrimmed cs) :
    Text.IsTrimmed a ∧ '\n' ∉ a ∧ (Text.cutAt '#' a).2 = (Text.cutAt '#' cs).2 := by
  obtain ⟨name, hname, hm⟩ := hstart.spelled
  obtain ⟨blanks, rfl, -, hblanks⟩ := hstart.blanks
  have hplain := plain_of_spells (hm.fully (subset_methodLetters name hname))
  have htrimmed : Text.IsTrimmed a := by
    rw [← List.append_assoc] at h
    exact h.of_append hstart.first
  refine ⟨htrimmed, ?_, ?_⟩
  · obtain ⟨line, hline, rfl | rfl⟩ := isOneLine_iff.mp hstart.oneLine
    · exact hline
    · have hblank := htrimmed.last '\n' List.getLast?_concat
      exact absurd hblank (by decide)
  · have hmark : '#' ∉ m := fun hmem => (hplain _ hmem).2 rfl
    have hmark' : '#' ∉ blanks := fun hmem => absurd (hblanks _ hmem) (by decide)
    rw [Text.cutAt_append hmark, Text.cutAt_append hmark']

/-- An address with a method is read from its text as one with that method. -/
theorem read_full_ofMethod {m a : List Char} (hstart : StartsMethod cs m a) (h : Text.IsTrimmed cs)
    (hfragment : (Text.cutAt '#' a).2 ≠ some []) :
    let method := some (Text.upper (String.ofList m))
    read (ofAddress method a).full = .ok (ofAddress method (ofAddress method a).address) := by
  intro method
  obtain ⟨htrimmed, hline, -⟩ := after_method hstart h
  obtain ⟨name, hname, hm⟩ := hstart.spelled
  have hletters := subset_methodLetters name hname
  obtain ⟨hupper, hagain⟩ := upper_of_spells (hm.fully hletters)
  have hne : m.flatMap Text.upperForm ≠ [] := by
    intro hnil
    rw [hnil] at hupper
    have hempty : ∀ name ∈ requestMethods, name.toList ≠ [] := by decide
    exact hempty name hname (List.forall₂_nil_right_iff.mp hupper)
  have hmethod : method = some (String.ofList (m.flatMap Text.upperForm)) := by
    change some (Text.upper (String.ofList m)) = _
    rw [Text.upper, String.toList_ofList]
  have hsame : Text.upper (String.ofList (m.flatMap Text.upperForm)) = String.ofList (m.flatMap Text.upperForm) := by
    rw [Text.upper, String.toList_ofList, hagain]
  have haddress := isTrimmed_address method hfragment htrimmed
  have hsome := address_ne_nil method hfragment hstart.address
  have hfull : (ofAddress method a).full.toList =
      m.flatMap Text.upperForm ++ ([' '] ++ (ofAddress method a).address) := by
    rw [full_toList]
    have hspelled : (ofAddress method a).method = some (String.ofList (m.flatMap Text.upperForm)) := hmethod
    rw [hspelled]
    simp [hne]
  have honeLine : isOneLine (ofAddress method a).address = true :=
    isOneLine_iff.mpr ⟨_, newline_not_mem_address method hfragment hline, .inl rfl⟩
  have hsplit : splitMethod? (ofAddress method a).full.toList =
      some (m.flatMap Text.upperForm, (ofAddress method a).address) := by
    apply splitMethod?_eq_some_iff.mpr
    exact {
      spelled := ⟨name, hname, hupper⟩
      blanks := ⟨[' '], hfull, List.cons_ne_nil _ _, List.forall_mem_singleton.mpr rfl⟩
      address := hsome
      first := haddress.first
      oneLine := honeLine }
  have htext : Text.IsTrimmed (ofAddress method a).full.toList := by
    rw [hfull, ← List.append_assoc]
    apply haddress.append _ _ hsome
    · intro c hc
      rw [List.head?_append_of_ne_nil _ hne] at hc
      exact (plain_of_spells (hupper.fully hletters) c (List.mem_of_head? hc)).1
    · simp
  have hfullne : (ofAddress method a).full.toList ≠ [] := by
    rw [hfull]
    simp
  rw [read_of_isTrimmed htext hfullne, hsplit]
  dsimp only
  rw [haddress.trim_eq, hsame, ← hmethod]

/-- An address that is not blank and has no empty fragment is read, and reading its text gives it back, unless it
leaves the web out before a path that spells a module. -/
theorem addresses_are_read_back (text : String) (hne : Text.trimChars Text.isBlank text.toList ≠ [])
    (hfragment : (Text.cutAt '#' (Text.trimChars Text.isBlank text.toList)).2 ≠ some []) :
    ∃ h, read text = .ok h ∧
      (read h.full = .ok h ↔ ¬(h.module = "http" ∧ (splitModule? h.path.toList).isSome = true)) := by
  have htrimmed := Text.isTrimmed_trimChars text.toList
  rw [read_eq]
  generalize Text.trimChars Text.isBlank text.toList = cs at hne hfragment htrimmed
  dsimp only
  rw [if_neg (by rwa [List.isEmpty_iff])]
  cases hmethod : splitMethod? cs with
  | none =>
    refine ⟨_, rfl, ?_⟩
    rw [read_full_ofAddress hfragment htrimmed hne hmethod, Except.ok.injEq]
    exact ofAddress_address none hfragment
  | some split =>
    have hstart := splitMethod?_eq_some_iff.mp hmethod
    obtain ⟨hafter, -, hsame⟩ := after_method hstart htrimmed
    rw [← hsame] at hfragment
    refine ⟨_, rfl, ?_⟩
    rw [hafter.trim_eq, read_full_ofMethod hstart htrimmed hfragment, Except.ok.injEq]
    exact ofAddress_address _ hfragment

/-- A method, a module with its path and a fragment, with blanks around them, are read back from their text. -/
theorem address_of_module_is_read_back :
    Text.trimChars Text.isBlank " get  //@lib:fn#top\n".toList ≠ [] ∧
      (Text.cutAt '#' (Text.trimChars Text.isBlank " get  //@lib:fn#top\n".toList)).2 ≠ some [] ∧
      ∃ h, read " get  //@lib:fn#top\n" = .ok h ∧ h.full = "GET //@lib/fn#top" ∧ read h.full = .ok h := by
  obtain ⟨h, hread, hiff⟩ := addresses_are_read_back " get  //@lib:fn#top\n" (by decide +kernel) (by decide +kernel)
  have hparts : read " get  //@lib:fn#top\n" = .ok ⟨"lib", "/fn", some "GET", some "top"⟩ := rfl
  obtain rfl := Except.ok.inj (hread.symm.trans hparts)
  refine ⟨by decide +kernel, by decide +kernel, _, hparts, rfl, hiff.mpr ?_⟩
  decide

/-- An address of the web whose path spells a module has the text of an address of that module. -/
theorem web_address_is_read_as_local :
    ¬∀ text : String, Text.trimChars Text.isBlank text.toList ≠ [] →
      (Text.cutAt '#' (Text.trimChars Text.isBlank text.toList)).2 ≠ some [] →
      ∃ h, read text = .ok h ∧ read h.full = .ok h := by
  intro hall
  obtain ⟨h, hread, hback⟩ := hall "//@http//@local/x" (by decide +kernel) (by decide +kernel)
  have hparts : read "//@http//@local/x" = .ok ⟨"http", "//@local/x", none, none⟩ := rfl
  obtain rfl := Except.ok.inj (hread.symm.trans hparts)
  have hother : read "//@local/x" = .ok ⟨"local", "/x", none, none⟩ := rfl
  exact absurd (Except.ok.inj (hback.symm.trans hother)) (by decide)

end Addresses

end HandlerPath

end EventScript
