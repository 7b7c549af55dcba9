import Deadwood.Proofs.Depths

/-!
# What a variable statement declares

A variable statement is cut at the commas that stand outside of round, square and curly brackets,
and each part is read by itself. The commas between the arguments of a generic type are such commas
too, so a type may leave parts behind that belong to no declarator (`straysFrom`). A statement
declares its names and nothing else if none of these parts can be read as a declarator or as a
pattern, and something else if one can be read as a declarator (`variable_statement_names`). The
last argument of a type cannot, since a closing angle bracket follows it, but one in the middle can.
-/

set_option autoImplicit false

namespace Deadwood.Module

open Text Reference
open List hiding Cursor

/-! ## Statements -/

/-- A declarator: a name, and what follows it, which is a type after a colon, an initial value after
an equals sign, or both. -/
structure Declarator where
  lead : List Char
  name : List Char
  gap : List Char
  tail : List Char
  lead_blank : ∀ c ∈ lead, isBlank c = true
  isName_name : isName name = true
  gap_blank : ∀ c ∈ gap, isBlank c = true
  tail_head : ∀ c ∈ tail.head?, c = ':' ∨ c = '='
  nested : WellNested tail

/-- The blanks and the name of a declarator. -/
def Declarator.front (d : Declarator) : List Char := d.lead ++ (d.name ++ d.gap)

def Declarator.chars (d : Declarator) : List Char := d.front ++ d.tail

/-- An exported variable statement. -/
structure Variables where
  blanks : List Char
  kind : DeclarationKind
  first : Declarator
  others : List Declarator
  blanks_ne : blanks ≠ []
  blanks_blank : ∀ c ∈ blanks, isBlank c = true
  isVariable : kind.isVariable = true
  lead_ne : first.lead ≠ []
  /-- The words `const enum` begin another kind of declaration. -/
  not_enum : first.name ≠ "enum".toList

namespace Variables

variable (v : Variables)

/-- The words before the declarators. -/
def head : List Char := "export".toList ++ v.blanks ++ v.kind.word.toList

def declarators : List Declarator := v.first :: v.others

/-- The declarators with commas between them. -/
def body : List Char := [','].intercalate (v.declarators.map Declarator.chars)

def chars : List Char := v.head ++ (v.body ++ [';'])

/-- Nothing ends the statement before its semicolon: no semicolon stands outside of brackets, and no
line break at which the text before and after it, with `after` at its end, reads as complete. -/
def RunsOn (after : List Char) : Prop :=
  ∀ front c back, v.body = front ++ c :: back → WellNested front → c ≠ ';' ∧
    (c = '\n' → mayEndBetween ((v.head ++ front).reverse) (c :: (back ++ ';' :: after)) = false)

end Variables

/-! ## Parts between commas -/

/-- Put a text in front of the first part. -/
def attach (offset : Nat) (front : List Char) : List (Nat × List Char) → List (Nat × List Char)
  | [] => [(offset, front)]
  | (_, part) :: parts => (offset, front ++ part) :: parts

variable {cs more : List Char} {offset : Nat}

theorem declarators_comma (offset : Nat) (cs : List Char) :
    declarators 0 offset (',' :: cs) = (offset, []) :: declarators 0 (offset + 1) cs := by
  rw [declarators, if_pos (by simp)]

variable {depth : Int} {c : Char} {rest part : List Char}

theorem declarators_cons (h : ¬ (c = ',' ∧ depth = 0)) (offset : Nat) (cs : List Char) :
    declarators depth offset (c :: cs) = attach offset [c] (declarators
      (if isOpening c then depth + 1 else if isClosing c then depth - 1 else depth)
      (offset + 1) cs) := by
  rw [declarators, if_neg (by simpa using h)]
  rfl

theorem attach_attach (offset n : Nat) (front back : List Char) (parts : List (Nat × List Char)) :
    attach offset front (attach n back parts) = attach offset (front ++ back) parts := by
  cases parts <;> simp [attach]

theorem attach_append {parts : List (Nat × List Char)} (hne : parts ≠ []) (offset : Nat)
    (front : List Char) (more : List (Nat × List Char)) :
    attach offset front (parts ++ more) = attach offset front parts ++ more := by
  obtain ⟨part, parts, rfl⟩ := exists_cons_of_ne_nil hne
  rfl

theorem declarators_ne_nil (depth : Int) (offset : Nat) (cs : List Char) :
    declarators depth offset cs ≠ [] := by
  obtain ⟨part, parts, heq, -⟩ := declarators_spec depth offset cs
  simp [heq]

theorem attach_nil (depth : Int) (offset : Nat) (cs : List Char) :
    attach offset [] (declarators depth offset cs) = declarators depth offset cs := by
  obtain ⟨part, parts, heq, -⟩ := declarators_spec depth offset cs
  rw [heq]
  rfl

/-- A pair of brackets belongs to one part, if no comma cuts what stands between them. -/
theorem declarators_bracket {o : Char} {inside : List Char} (hdepth : 0 ≤ depth)
    (hpair : closes o c) (hinside : ∀ offset more, declarators (depth + 1) offset (inside ++ more) =
      attach offset inside (declarators (depth + 1) (offset + inside.length) more)) (offset : Nat)
    (cs : List Char) :
    declarators depth offset (o :: (inside ++ c :: cs)) = attach offset (o :: (inside ++ [c]))
      (declarators depth (offset + (o :: (inside ++ [c])).length) cs) := by
  have hopen := isOpening_of_closes hpair
  have hclose := isClosing_of_closes hpair
  have hclose' : isOpening c = false := Bool.eq_false_iff.2 fun h => by
    simp [isClosing_of_isOpening h] at hclose
  have ho : o ≠ ',' := by
    rintro rfl
    exact absurd hopen (by decide)
  rw [declarators_cons (fun h => ho h.1), if_pos hopen, hinside, declarators_cons (by omega),
    if_neg (by simp [hclose']), if_pos hclose, attach_attach, attach_attach, Int.add_sub_cancel]
  simp [Nat.add_assoc, Nat.add_comm 1]

/-- Inside of a bracket, no comma cuts a well-nested text. -/
theorem declarators_inside (h : WellNested cs) (hdepth : 0 < depth) (offset : Nat)
    (more : List Char) : declarators depth offset (cs ++ more) =
      attach offset cs (declarators depth (offset + cs.length) more) := by
  induction h generalizing depth offset more with
  | nil => exact (attach_nil depth offset more).symm
  | plain hopen hclose _ ih =>
    rw [cons_append, declarators_cons (by omega), if_neg (by simp [hopen]),
      if_neg (by simp [hclose]), ih hdepth, attach_attach]
    simp [Nat.add_assoc, Nat.add_comm 1]
  | bracket hpair _ _ ihinside ihcs =>
    rw [cons_append, append_assoc, cons_append,
      declarators_bracket (Int.le_of_lt hdepth) hpair (ihinside (by omega)), ihcs hdepth,
      attach_attach]
    simp [Nat.add_assoc, Nat.add_comm 2]

/-- A comma outside of brackets cuts a text after a well-nested part of it. -/
theorem declarators_append (h : WellNested cs) (offset : Nat) (more : List Char) :
    declarators 0 offset (cs ++ ',' :: more) =
      declarators 0 offset cs ++ declarators 0 (offset + cs.length + 1) more := by
  induction h generalizing offset with
  | nil => exact declarators_comma offset more
  | @plain c cs hopen hclose _ ih =>
    by_cases hc : c = ','
    · subst hc
      rw [cons_append, declarators_comma, declarators_comma, ih, cons_append]
      simp [Nat.add_assoc, Nat.add_comm 1]
    · rw [cons_append, declarators_cons (fun h => hc h.1), declarators_cons (fun h => hc h.1),
        if_neg (by simp [hopen]), if_neg (by simp [hclose]), ih,
        attach_append (declarators_ne_nil _ _ _)]
      simp [Nat.add_assoc, Nat.add_comm 1]
  | bracket hpair hinside _ _ ihcs =>
    have hpass := declarators_bracket (Int.le_refl 0) hpair
      (declarators_inside hinside (by decide))
    rw [cons_append, append_assoc, cons_append, hpass, hpass, ihcs,
      attach_append (declarators_ne_nil _ _ _)]
    simp [Nat.add_assoc, Nat.add_left_comm]

/-- A text without brackets and commas belongs to one part. -/
theorem declarators_plain {front : List Char} (h : ∀ c ∈ front, Cursor.isWordText c)
    (offset : Nat) (more : List Char) : declarators 0 offset (front ++ more) =
      attach offset front (declarators 0 (offset + front.length) more) := by
  induction front generalizing offset with
  | nil => exact (attach_nil 0 offset more).symm
  | cons c front ih =>
    have hc := h c mem_cons_self
    obtain ⟨hopen, hclose⟩ := not_bracket_of_isWordText hc
    have hcomma : c ≠ ',' := by
      rintro rfl
      exact absurd hc (by decide)
    rw [cons_append, declarators_cons (fun h => hcomma h.1), if_neg (by simp [hopen]),
      if_neg (by simp [hclose]), ih fun d hd => h d (mem_cons_of_mem _ hd), attach_attach]
    simp [Nat.add_assoc, Nat.add_comm 1]

/-! ## Names -/

/-- The part can be read as a declarator: it begins with a name that a mark or the end follows. -/
def ReadsAsName (part : List Char) : Prop :=
  ∃ lead name gap rest, part = lead ++ (name ++ gap) ++ rest ∧ (∀ c ∈ lead, isBlank c = true) ∧
    isName name = true ∧ (∀ c ∈ gap, isBlank c = true) ∧
    ∀ c ∈ rest.head?, c ∈ ['!', ':', '=', ';']

/-- The part can be read neither as a declarator nor as a pattern. -/
def Silent (part : List Char) : Prop :=
  ¬ ReadsAsName part ∧ (trimStart part).head? ≠ some '{' ∧ (trimStart part).head? ≠ some '['

variable {source masked : List Char}

theorem dropWhile_run {p : Char → Bool} {piece : List Char} (h : ∀ c ∈ piece, p c)
    (hrest : rest.head?.any p = false) : (piece ++ rest).dropWhile p = rest := by
  rw [dropWhile_append_of_pos h]
  cases rest with
  | nil => rfl
  | cons c rest => exact dropWhile_cons_of_neg (by simpa using hrest)

theorem any_append_of_blank {gap : List Char} (hgap : ∀ c ∈ gap, isBlank c)
    (hrest : rest.head?.any isIdent = false) : (gap ++ rest).head?.any isIdent = false := by
  cases gap with
  | nil => exact hrest
  | cons c gap => simp [isIdent_of_isBlank (hgap c mem_cons_self)]

theorem any_append_of_isName {name : List Char} (hname : isName name) (rest : List Char) :
    (name ++ rest).head?.any isBlank = false := by
  obtain ⟨c, cs, rfl⟩ := exists_cons_of_ne_nil (isName_iff.1 hname).1
  simpa using isBlank_of_isIdent ((isName_iff.1 hname).2 c mem_cons_self)

theorem declaratorName?_eq {name gap : List Char} (hname : isName name)
    (hgap : ∀ c ∈ gap, isBlank c) (hrest : ∀ c ∈ rest.head?, c ∈ ['!', ':', '=', ';']) :
    declaratorName? (name ++ (gap ++ rest)) = some name := by
  have hmark : ∀ c ∈ ['!', ':', '=', ';'], isIdent c = false ∧ isBlank c = false := by
    simp only [mem_cons, not_mem_nil, or_false, forall_eq_or_imp, forall_eq]
    decide
  have hstop := any_append_of_blank hgap
    ((Option.any_eq_false _ _).2 fun c hc => (hmark c (hrest c hc)).1)
  have hnext := dropWhile_run hgap
    ((Option.any_eq_false _ _).2 fun c hc => (hmark c (hrest c hc)).2)
  have hall : rest.head?.all ['!', ':', '=', ';'].contains = true := by
    simpa [Option.all_eq_true] using hrest
  simp only [declaratorName?, takeWhile_isIdent_of_isName hname hstop,
    dropWhile_run (isName_iff.1 hname).2 hstop, hnext, hall]
  simpa using (isName_iff.1 hname).1

theorem trimStart_name {lead name gap : List Char} (hlead : ∀ c ∈ lead, isBlank c)
    (hname : isName name) : trimStart (lead ++ (name ++ gap) ++ rest) = name ++ (gap ++ rest) := by
  rw [append_assoc, append_assoc]
  exact dropWhile_run hlead (any_append_of_isName hname _)

theorem readsAsName_iff : ReadsAsName part ↔ (declaratorName? (trimStart part)).isSome := by
  constructor
  · rintro ⟨lead, name, gap, rest, rfl, hlead, hname, hgap, hrest⟩
    rw [trimStart_name hlead hname, declaratorName?_eq hname hgap hrest]
    rfl
  · intro h
    simp only [declaratorName?] at h
    split at h
    · rename_i hread
      simp only [Bool.and_eq_true, Bool.not_eq_true', isEmpty_eq_false_iff] at hread
      refine ⟨part.takeWhile isBlank, (trimStart part).takeWhile isIdent,
        ((trimStart part).dropWhile isIdent).takeWhile isBlank,
        ((trimStart part).dropWhile isIdent).dropWhile isBlank, ?_,
        fun c => mem_takeWhile_imp, isName_iff.2 ⟨hread.1, fun c => mem_takeWhile_imp⟩,
        fun c => mem_takeWhile_imp, fun c hc => ?_⟩
      · simp only [append_assoc, takeWhile_append_dropWhile, trimStart]
      · have hall := hread.2
        rw [hc] at hall
        simpa using hall
    · cases h

/-- A part that begins with a name declares it. -/
theorem declaratorNames_name {lead name gap : List Char} (hlead : ∀ c ∈ lead, isBlank c)
    (hname : isName name) (hgap : ∀ c ∈ gap, isBlank c)
    (hrest : ∀ c ∈ rest.head?, c ∈ ['!', ':', '=', ';']) (offset : Nat) :
    declaratorNames source masked offset (lead ++ (name ++ gap) ++ rest) = [name] := by
  have hread := declaratorName?_eq hname hgap hrest
  rw [declaratorNames_eq, trimStart_name hlead hname]
  obtain ⟨c, cs, rfl⟩ := exists_cons_of_ne_nil (isName_iff.1 hname).1
  have hc : isIdent c := (isName_iff.1 hname).2 c mem_cons_self
  split
  · rename_i heq
    exact absurd ((cons.inj heq).1 ▸ hc) (by decide)
  · rename_i heq
    exact absurd ((cons.inj heq).1 ▸ hc) (by decide)
  · rw [hread]
    rfl

theorem declaratorNames_of_silent (h : Silent part) (offset : Nat) :
    declaratorNames source masked offset part = [] := by
  obtain ⟨hname, hbrace, hbracket⟩ := h
  rw [declaratorNames_eq]
  split
  · rename_i heq
    simp [heq] at hbrace
  · rename_i heq
    simp [heq] at hbracket
  · rw [readsAsName_iff, Option.not_isSome_iff_eq_none] at hname
    rw [hname]
    rfl

/-! ## Declarators and parts -/

namespace Declarator

variable (d : Declarator)

variable {c : Char} {rest : List Char}

theorem isWordText_of_mem_front (h : c ∈ d.front) : Cursor.isWordText c := by
  simp only [front, mem_append] at h
  rcases h with h | h | h
  · simp [Cursor.isWordText, d.lead_blank c h]
  · simp [Cursor.isWordText, (isName_iff.1 d.isName_name).2 c h]
  · simp [Cursor.isWordText, d.gap_blank c h]

theorem wellNested_chars : WellNested d.chars :=
  (WellNested.of_plain fun _ hc =>
    not_bracket_of_isWordText (d.isWordText_of_mem_front hc)).append d.nested

theorem mem_head (h : c ∈ (d.tail ++ rest).head?) : c = ':' ∨ c = '=' ∨ c ∈ rest.head? := by
  rw [head?_append] at h
  cases htail : d.tail.head? with
  | none =>
    rw [htail, Option.none_or] at h
    exact .inr (.inr h)
  | some e =>
    obtain rfl : e = c := by simpa [htail] using h
    exact (d.tail_head e htail).imp id .inl

/-- The first part of a declarator declares its name. -/
theorem names_eq (offset : Nat) (hrest : rest = [] ∨ rest = [';']) :
    ∃ first parts, declarators 0 offset (d.chars ++ rest) = first :: parts ∧
      declaratorNames source masked first.1 first.2 = [d.name] := by
  obtain ⟨part, parts, heq, ⟨post, hpost⟩, -⟩ :=
    declarators_spec 0 (offset + d.front.length) (d.tail ++ rest)
  refine ⟨(offset, d.front ++ part), parts, ?_, declaratorNames_name d.lead_blank d.isName_name
    d.gap_blank (fun c hc => ?_) offset⟩
  · rw [chars, append_assoc, declarators_plain fun c => d.isWordText_of_mem_front, heq]
    rfl
  · have hhead : c ∈ (d.tail ++ rest).head? := by
      rw [← hpost, head?_append, hc]
      rfl
    rcases d.mem_head hhead with rfl | rfl | hc
    · simp
    · simp
    · rcases hrest with rfl | rfl
      · cases hc
      · obtain rfl : ';' = c := by simpa using hc
        simp

end Declarator

/-- The parts of a statement that belong to no declarator, where its declarators begin at
`offset`. -/
def straysFrom (offset : Nat) : List Declarator → List (Nat × List Char)
  | [] => []
  | [d] => (declarators 0 offset (d.chars ++ [';'])).tail
  | d :: next :: ds => (declarators 0 offset d.chars).tail ++
    straysFrom (offset + d.chars.length + 1) (next :: ds)

/-- The names that parts declare are those of the declarators exactly if the other parts declare
none. -/
theorem flatMap_names_iff (names : Nat × List Char → List (List Char))
    (hnames : ∀ (d : Declarator) (offset : Nat) (rest : List Char), rest = [] ∨ rest = [';'] →
      ∃ first parts, declarators 0 offset (d.chars ++ rest) = first :: parts ∧
        names first = [d.name]) (offset : Nat) (ds : List Declarator) (hne : ds ≠ []) :
    ds.length ≤ ((declarators 0 offset
      ([','].intercalate (ds.map Declarator.chars) ++ [';'])).flatMap names).length ∧
    ((declarators 0 offset ([','].intercalate (ds.map Declarator.chars) ++ [';'])).flatMap names =
      ds.map Declarator.name ↔ ∀ stray ∈ straysFrom offset ds, names stray = []) := by
  fun_induction straysFrom offset ds with
  | case1 => exact absurd rfl hne
  | case2 offset d =>
    obtain ⟨first, parts, heq, hfirst⟩ := hnames d offset [';'] (.inr rfl)
    simp [heq, hfirst]
  | case3 offset d next ds ih =>
    obtain ⟨first, parts, heq, hfirst⟩ := hnames d offset [] (.inl rfl)
    obtain ⟨hlength, hiff⟩ := ih (by simp)
    rw [append_nil] at heq
    rw [map_cons, map_cons, intercalate_cons_cons, append_assoc,
      append_assoc, singleton_append, declarators_append d.wellNested_chars, heq,
      ← map_cons]
    simp only [cons_append, flatMap_cons, flatMap_append, hfirst, map_cons,
      tail_cons, cons.injEq, true_and, length_cons, length_append,
      mem_append, or_imp, forall_and] at hlength hiff ⊢
    refine ⟨by omega, ?_⟩
    rw [← hiff, ← flatMap_eq_nil_iff]
    constructor
    · intro h
      -- the later declarators have at least their own names, so none is left for the strays
      have hcount := congrArg length h
      simp only [length_append, length_cons, length_nil, length_map] at hcount
      have hnil : parts.flatMap names = [] := eq_nil_of_length_eq_zero (by omega)
      rw [hnil] at h
      exact ⟨hnil, h⟩
    · rintro ⟨hnil, h⟩
      rw [hnil, h]
      rfl

/-! ## The extent -/

/-- An extent passes over a well-nested text in which nothing ends it. -/
theorem extentFrom_pass {kind : DeclarationKind} {before : List Char} (h : WellNested cs)
    (hkind : kind.hasBlock = false)
    (hruns : ∀ front c back, cs = front ++ c :: back → WellNested front → c ≠ ';' ∧
      (c = '\n' → mayEndBetween (front.reverse ++ before) (c :: (back ++ rest)) = false)) :
    extentFrom kind before 0 offset (cs ++ rest) =
      extentFrom kind (cs.reverse ++ before) 0 (offset + cs.length) rest := by
  induction h generalizing before offset with
  | nil => rfl
  | @plain c cs hopen hclose _ ih =>
    obtain ⟨hsemicolon, hline⟩ := hruns [] c cs rfl .nil
    have hgoes : ¬ (c = '\n' ∧ 0 = 0 ∧ kind.hasBlock = false ∧
        mayEndBetween before (c :: (cs ++ rest))) := fun ⟨hc, _, _, hends⟩ => by
      simp [show mayEndBetween before _ = false from hline hc] at hends
    rw [cons_append, extentFrom_plain hopen hclose, if_neg (fun h => hsemicolon h.1),
      if_neg hgoes, ih]
    · simp [Nat.add_assoc, Nat.add_comm 1]
    · intro front d back hsplit hfront
      have hlater := hruns (c :: front) d back (by rw [hsplit]; rfl) (.plain hopen hclose hfront)
      simpa using hlater
  | @bracket o c inside cs hpair hinside _ _ ih =>
    have hsplit : o :: (inside ++ c :: cs) = o :: (inside ++ [c]) ++ cs := by simp
    rw [hsplit, append_assoc, extentFrom_bracket hpair hinside (by simp [hkind]), ih]
    · simp [Nat.add_assoc, Nat.add_comm 2]
    · intro front d back hcs hfront
      have hlater := hruns (o :: (inside ++ [c]) ++ front) d back (by rw [hsplit, hcs]; simp)
        ((WellNested.bracket hpair hinside .nil).append hfront)
      simpa using hlater

/-- A kind is read off its word if none of those before it in the list is there. -/
theorem kind?_of_wholeWord? {front back : List (String × DeclarationKind)} {word : String}
    {kind : DeclarationKind} {here next : Cursor}
    (hsplit : kindWords = front ++ (word, kind) :: back)
    (henum : (spacedWord? "const" here).bind (wholeWord? "enum") = none)
    (hfunction : functionWord? here = none) (hfront : ∀ pair ∈ front, wholeWord? pair.1 here = none)
    (hword : wholeWord? word here = some next) : kind? here = some (kind, next) := by
  have hnone : front.findSome? (fun pair => (wholeWord? pair.1 here).map (pair.2, ·)) = none :=
    findSome?_eq_none_iff.2 fun pair hpair => by rw [hfront pair hpair, Option.map_none]
  simp only [kind?, bind, henum, hfunction, hsplit, findSome?_append, hnone,
    findSome?_cons, hword, Option.map_none, Option.map_some]
  rfl

namespace Variables

variable (v : Variables) {after : List Char}

theorem wellNested_body : WellNested v.body := by
  suffices h : ∀ ds : List Declarator,
      WellNested ([','].intercalate (ds.map Declarator.chars)) from h _
  intro ds
  induction ds with
  | nil => exact .nil
  | cons d ds ih =>
    cases ds with
    | nil => simpa using d.wellNested_chars
    | cons next ds =>
      exact d.wellNested_chars.append (.plain (by decide) (by decide) ih)

-- By `rfl`: the equation that is made for a definition with a text in it takes long.
theorem head_eq : v.head = "export".toList ++ v.blanks ++ v.kind.word.toList := rfl

theorem length_head : v.head.length = 6 + v.blanks.length + v.kind.word.toList.length := by
  rw [head_eq, length_append, length_append]
  rfl

theorem kind_cases : v.kind = .constant ∨ v.kind = .blockVariable ∨ v.kind = .functionVariable := by
  have h := v.isVariable
  revert h
  cases v.kind <;> simp [DeclarationKind.isVariable]

theorem hasBlock_eq : v.kind.hasBlock = false := by
  rcases v.kind_cases with h | h | h <;> rw [h] <;> rfl

/-- A statement ends with its semicolon. -/
theorem declarationEnd_eq (h : v.RunsOn after) :
    declarationEnd (v.chars ++ after) v.head.length v.kind = v.chars.length := by
  have hsplit : v.chars ++ after = v.head ++ (v.body ++ ';' :: after) := by simp [chars]
  have hpass := @extentFrom_pass v.body v.head.length (';' :: after) v.kind v.head.reverse
    v.wellNested_body v.hasBlock_eq fun front c back hbody hfront => by
      simpa using h front c back hbody hfront
  rw [declarationEnd, hsplit, take_left, drop_left,
    Nat.min_eq_left (by simp), hpass, extentFrom_plain (by decide) (by decide), if_pos ⟨rfl, rfl⟩]
  simp [chars, Nat.add_assoc]

/-- No statement ends before a semicolon that is its only one, if it stands on one line. -/
theorem runsOn_of_notMem (hsemicolon : ';' ∉ v.body) (hline : '\n' ∉ v.body) (after : List Char) :
    v.RunsOn after := by
  intro front c back hbody _
  have hmem : c ∈ v.body := by simp [hbody]
  exact ⟨fun hc => hsemicolon (hc ▸ hmem), fun hc => absurd (hc ▸ hmem) hline⟩

/-- What follows the first name. -/
theorem exists_body : ∃ c rest, v.body ++ [';'] = v.first.front ++ c :: rest ∧
    isIdent c = false := by
  obtain ⟨c, rest, hrest, hc⟩ : ∃ c rest, v.body ++ [';'] = v.first.chars ++ c :: rest ∧
      isIdent c = false := by
    unfold body declarators
    cases v.others with
    | nil => exact ⟨';', [], by simp, by decide⟩
    | cons next ds =>
      exact ⟨',', [','].intercalate ((next :: ds).map Declarator.chars) ++ [';'],
        by simp [intercalate_cons_cons], by decide⟩
  -- the tail of a declarator begins with a mark; without a tail a comma or the semicolon follows
  cases htail : v.first.tail with
  | nil => exact ⟨c, rest, by simpa [Declarator.chars, htail] using hrest, hc⟩
  | cons d tail =>
    refine ⟨d, tail ++ c :: rest, by simpa [Declarator.chars, htail] using hrest, ?_⟩
    rcases v.first.tail_head d (by simp [htail]) with rfl | rfl <;> decide

/-! ## The head -/

theorem front_append (rest : List Char) : v.first.front ++ rest =
    v.first.lead ++ (v.first.name ++ (v.first.gap ++ rest)) := by
  simp [Declarator.front]

variable {n : Nat} {rest : List Char}

/-- The word `enum` does not follow. -/
theorem constantEnum_eq_none (hrest : rest.head?.any isIdent = false) :
    (spacedWord? "const" ⟨n, "const".toList ++ (v.first.front ++ rest)⟩).bind
      (wholeWord? "enum") = none := by
  rw [front_append, ← append_assoc,
    spacedWord?_append v.lead_ne v.first.lead_blank (any_append_of_isName v.first.isName_name _) n,
    Option.bind_some, Option.eq_none_iff_forall_ne_some]
  intro next hnext
  -- the word that stands there is the name as a whole
  obtain ⟨hexpect, hends⟩ := Option.filter_eq_some_iff.1 hnext
  have hsame := congrArg (takeWhile isIdent) (Cursor.expect?_iff.1 hexpect).rest_eq
  rw [takeWhile_isIdent_of_isName v.first.isName_name (any_append_of_blank v.first.gap_blank hrest),
    takeWhile_isIdent_of_isName (by decide)
      (by simpa [wordEnds, Cursor.nextIs] using hends)] at hsame
  exact v.not_enum hsame

/-- The kind is read off its word. -/
theorem kind?_eq (hrest : rest.head?.any isIdent = false) :
    kind? ⟨n, v.kind.word.toList ++ (v.first.front ++ rest)⟩ =
      some (v.kind, ⟨n + v.kind.word.toList.length, v.first.front ++ rest⟩) := by
  have hends : wordEnds ⟨n + v.kind.word.toList.length, v.first.front ++ rest⟩ := by
    obtain ⟨c, lead, hlead⟩ := exists_cons_of_ne_nil v.lead_ne
    simp [wordEnds, Cursor.nextIs, front_append, hlead,
      isIdent_of_isBlank (v.first.lead_blank c (by simp [hlead]))]
  have hexpect : Cursor.expect? v.kind.word ⟨n, v.kind.word.toList ++ (v.first.front ++ rest)⟩ =
      some ⟨n + v.kind.word.toList.length, v.first.front ++ rest⟩ :=
    Cursor.expect?_iff.2 ⟨rfl, rfl⟩
  have hwhole : wholeWord? v.kind.word ⟨n, v.kind.word.toList ++ (v.first.front ++ rest)⟩ =
      some ⟨n + v.kind.word.toList.length, v.first.front ++ rest⟩ := by
    rw [wholeWord?, hexpect, Option.filter_some, if_pos hends]
  have henum := @constantEnum_eq_none v n rest hrest
  have hcases := v.kind_cases
  generalize v.kind = kind at hwhole hcases
  obtain rfl | rfl | rfl := hcases
  · exact @kind?_of_wholeWord? [] _ _ _ _ _ rfl henum rfl (by simp) hwhole
  · exact @kind?_of_wholeWord? [_] _ _ _ _ _ rfl rfl rfl (forall_mem_singleton.2 rfl) hwhole
  · exact @kind?_of_wholeWord? [_, _] _ _ _ _ _ rfl rfl rfl
      (forall_mem_cons.2 ⟨rfl, forall_mem_singleton.2 rfl⟩) hwhole

theorem any_word_append (tail : List Char) :
    (v.kind.word.toList ++ tail).head?.any isBlank = false := by
  rcases v.kind_cases with h | h | h <;> rw [h] <;> rfl

theorem not_modifier (tail : List Char) : ∀ word ∈ ["default", "declare", "abstract", "async"],
    ¬ word.toList <+: v.kind.word.toList ++ tail := by
  have hfirst : ∀ word ∈ ["default", "declare", "abstract", "async"],
      word.toList.head? = some 'd' ∨ word.toList.head? = some 'a' := by decide
  rintro word hword ⟨rest, hrest⟩
  have hhead := congrArg List.head? hrest
  rw [head?_append] at hhead
  rcases v.kind_cases with h | h | h <;> rw [h] at hhead <;>
    rcases hfirst word hword with hd | hd <;> rw [hd] at hhead <;> cases hhead

/-- The kind and the name after the word `export`. -/
theorem kindAndName_eq {c : Char} (hc : isIdent c = false) (n : Nat) (rest : List Char) :
    kindAndName ⟨n, v.kind.word.toList ++ (v.first.front ++ c :: rest)⟩ =
      (some (v.kind, n + v.kind.word.toList.length), v.first.name,
        ⟨n + v.kind.word.toList.length + v.first.lead.length + v.first.name.length,
          v.first.gap ++ c :: rest⟩) := by
  have hstop : (c :: rest).head?.any isIdent = false := by simpa using hc
  have hlead : Cursor.Runs isBlank
      ⟨n + v.kind.word.toList.length, v.first.front ++ c :: rest⟩ v.first.lead
      ⟨n + v.kind.word.toList.length + v.first.lead.length,
        v.first.name ++ (v.first.gap ++ c :: rest)⟩ :=
    ⟨⟨v.front_append _, rfl⟩, v.first.lead_blank, any_append_of_isName v.first.isName_name _⟩
  have hname : Cursor.Runs isIdent ⟨n + v.kind.word.toList.length + v.first.lead.length,
        v.first.name ++ (v.first.gap ++ c :: rest)⟩ v.first.name
      ⟨n + v.kind.word.toList.length + v.first.lead.length + v.first.name.length,
        v.first.gap ++ c :: rest⟩ :=
    ⟨⟨rfl, rfl⟩, (isName_iff.1 v.first.isName_name).2, any_append_of_blank v.first.gap_blank hstop⟩
  rw [kindAndName, v.kind?_eq hstop]
  simp only [hlead.eq.2, hname.eq.1, hname.eq.2]

/-- What is read at the beginning of a statement, and what is left of it. -/
theorem exists_head (after : List Char) : ∃ piece rest, v.chars ++ after = piece ++ rest ∧
    piece ≠ [] ∧ head? ⟨0, piece ++ rest⟩ =
      some (⟨0, 6 + v.blanks.length, false, some (v.kind, v.head.length), v.first.name,
        piece.length⟩, ⟨0 + piece.length, rest⟩) := by
  obtain ⟨c, rest, hbody, hc⟩ := v.exists_body
  have hsplit : v.head ++ v.first.lead ++ v.first.name ++ (v.first.gap ++ c :: (rest ++ after)) =
      "export".toList ++ v.blanks ++
        (v.kind.word.toList ++ (v.first.front ++ c :: (rest ++ after))) := by
    simp only [head_eq, Declarator.front, append_assoc]
  refine ⟨v.head ++ v.first.lead ++ v.first.name, v.first.gap ++ c :: (rest ++ after), ?_, ?_, ?_⟩
  · rw [hsplit, chars, hbody, head_eq]
    simp only [append_assoc, cons_append]
  · simp [head_eq]
  · obtain ⟨hdefault, hmodifiers⟩ := @afterModifiers_eq_self
      ⟨0 + ("export".toList ++ v.blanks).length,
        v.kind.word.toList ++ (v.first.front ++ c :: (rest ++ after))⟩ (v.not_modifier _)
    rw [hsplit, head?_eq, spacedWord?_append v.blanks_ne v.blanks_blank (v.any_word_append _) 0,
      Option.map_some]
    simp only [hmodifiers, hdefault, v.kindAndName_eq hc]
    simp only [length_append, length_head, show "export".toList.length = 6 from rfl,
      Nat.zero_add]
    rfl

/-- The statement is the first declaration, and all others begin after it. -/
theorem exists_scan (after : List Char) : ∃ stop others, scan standsFree head? (v.chars ++ after) =
      ⟨0, 6 + v.blanks.length, false, some (v.kind, v.head.length), v.first.name, stop⟩ :: others ∧
      ∀ head ∈ others, 0 < head.start := by
  obtain ⟨piece, rest, hsplit, hne, hhead⟩ := v.exists_head after
  refine ⟨piece.length, _, by rw [hsplit, scan, scanFrom_found hne rfl hhead], fun head hmem => ?_⟩
  obtain ⟨front, back, next, -, -, -, hread⟩ := mem_scanFrom hmem
  have hstart : head.start = 0 + piece.length + front.length := (head?_spec hread).1
  have hpos := length_pos_iff.2 hne
  omega

/-- The names of the statement are read from its declarators. -/
theorem variableNames_eq : variableNames source (v.chars ++ after) v.head.length v.chars.length =
    (Module.declarators 0 v.head.length (v.body ++ [';'])).flatMap fun part =>
      declaratorNames source (v.chars ++ after) part.1 part.2 := by
  rw [variableNames, take_left, chars, drop_left]

/-- The names are those of the declarators exactly if the parts that belong to none declare none. -/
theorem variableNames_eq_iff :
    variableNames source (v.chars ++ after) v.head.length v.chars.length =
      v.declarators.map Declarator.name ↔ ∀ stray ∈ straysFrom v.head.length v.declarators,
      declaratorNames source (v.chars ++ after) stray.1 stray.2 = [] := by
  rw [variableNames_eq]
  exact (flatMap_names_iff (fun part => declaratorNames source (v.chars ++ after) part.1 part.2)
    (fun d offset _ => d.names_eq offset) v.head.length v.declarators (by simp [declarators])).2

/-- What the head of the statement declares. -/
theorem declarations_eq (h : v.RunsOn after) (stop : Nat) :
    Head.declarations source (v.chars ++ after)
      ⟨0, 6 + v.blanks.length, false, some (v.kind, v.head.length), v.first.name, stop⟩ =
    (variableNames source (v.chars ++ after) v.head.length v.chars.length).map fun name =>
      ⟨String.ofList name, v.kind, 0, v.chars.length, 6 + v.blanks.length⟩ := by
  simp only [Head.declarations, v.isVariable, v.declarationEnd_eq h]
  rfl

end Variables

/-- A variable statement at the beginning of a module declares its names in their order, all with
one span, if the parts of its types that the commas between generic arguments leave behind cannot be
read as declarators or patterns. If one of them can be read as a declarator, then the statement
declares something else. What follows the statement does not matter. -/
theorem variable_statement_names (v : Variables) {after : List Char}
    (hshape : shape source = .ok (v.chars ++ after)) (hruns : v.RunsOn after) :
    ∃ m own others, parse source = .ok m ∧ m.declarations = own ++ others ∧
      (∀ declaration ∈ others, 0 < declaration.start ∧
        ExportAt (v.chars ++ after) declaration.start) ∧
      (∀ declaration ∈ own, declaration.kind = v.kind ∧ declaration.start = 0 ∧
        declaration.stop = v.chars.length ∧ declaration.qualifierStop = 6 + v.blanks.length) ∧
      ((∀ stray ∈ straysFrom v.head.length v.declarators, Silent stray.2) →
        own.map Declaration.name = v.declarators.map fun d => String.ofList d.name) ∧
      (own.map Declaration.name = (v.declarators.map fun d => String.ofList d.name) →
        ∀ stray ∈ straysFrom v.head.length v.declarators, ¬ ReadsAsName stray.2) := by
  obtain ⟨stop, others, hscan, hothers⟩ := v.exists_scan after
  have hsame : v.declarators.map (fun d => String.ofList d.name) =
      (v.declarators.map Declarator.name).map String.ofList := by
    rw [map_map]
    rfl
  refine ⟨_, _, _, parse_eq_ok_iff.2 ⟨_, hshape, rfl⟩,
    by rw [declarationsOf, hscan, flatMap_cons, v.declarations_eq hruns], ?_, ?_, ?_, ?_⟩
  · -- what else is declared has a head that begins later
    intro declaration hmem
    obtain ⟨head, hhead, hdeclares⟩ := mem_flatMap.1 hmem
    refine ⟨(Head.mem_declarations hdeclares).1 ▸ hothers head hhead,
      exportAt_of_mem_declarationsOf (mem_flatMap.2 ⟨head, ?_, hdeclares⟩)⟩
    rw [hscan]
    exact mem_cons_of_mem _ hhead
  · intro declaration hmem
    obtain ⟨name, -, rfl⟩ := mem_map.1 hmem
    exact ⟨rfl, rfl, rfl, rfl⟩
  · intro hsilent
    rw [map_map, v.variableNames_eq_iff.2 fun stray hstray =>
      declaratorNames_of_silent (hsilent stray hstray) stray.1, hsame]
    rfl
  · -- a part that can be read as a declarator declares one name too many
    rintro hown stray hstray ⟨lead, name, gap, rest, hpart, hlead, hname, hgap, hrest⟩
    have hnames : variableNames source (v.chars ++ after) v.head.length v.chars.length =
        v.declarators.map Declarator.name := by
      rw [map_map, hsame] at hown
      exact map_injective_iff.2 (fun _ _ => String.ofList_injective) hown
    have hnone := v.variableNames_eq_iff.1 hnames stray hstray
    rw [hpart, declaratorNames_name hlead hname hgap hrest] at hnone
    cases hnone

/-- The statement `export const m: type = 1, n = 2;`. -/
def typedPair (type : List Char) (h : WellNested (": ".toList ++ type ++ " = 1".toList)) :
    Variables where
  blanks := [' ']
  kind := .constant
  first := {
    lead := [' ']
    name := ['m']
    gap := "".toList
    tail := ": ".toList ++ type ++ " = 1".toList
    lead_blank := all_eq_true.1 rfl
    isName_name := by decide
    gap_blank := all_eq_true.1 rfl
    tail_head := by simp
    nested := h }
  others := [{
    lead := [' ']
    name := ['n']
    gap := [' ']
    tail := "= 2".toList
    lead_blank := all_eq_true.1 rfl
    isName_name := by decide
    gap_blank := all_eq_true.1 rfl
    tail_head := by simp
    nested := by decide }]
  blanks_ne := by decide
  blanks_blank := all_eq_true.1 rfl
  isVariable := rfl
  lead_ne := by simp
  not_enum := by simp

/-- The second of two arguments is not read as a name. -/
theorem variable_statement_names_two : ∃ m own others,
    parse "export const m: T<a, b> = 1, n = 2;".toList = .ok m ∧ m.declarations = own ++ others ∧
      own.map Declaration.name = ["m", "n"] ∧ ∀ declaration ∈ own, declaration.start = 0 := by
  let v := typedPair "T<a, b>".toList (by decide)
  have hsilent : ∀ stray ∈ straysFrom v.head.length v.declarators, Silent stray.2 := by
    unfold Silent
    simp only [readsAsName_iff]
    decide +kernel
  obtain ⟨m, own, others, hparse, hdeclares, -, hspan, hnames, -⟩ :=
    @variable_statement_names "export const m: T<a, b> = 1, n = 2;".toList v []
      (by decide +kernel) (v.runsOn_of_notMem (by decide) (by decide) [])
  exact ⟨m, own, others, hparse, hdeclares, hnames hsilent, fun d hd => (hspan d hd).2.1⟩

/-- The second of three arguments is read as a name. -/
theorem middle_argument_declared : ∃ v : Variables,
    v.chars = "export const m: T<a, b, c> = 1, n = 2;".toList ∧ v.RunsOn [] ∧
      v.declarators.map Declarator.name = [['m'], ['n']] ∧ parse v.chars = .ok { declarations :=
        [⟨"m", .constant, 0, 38, 7⟩, ⟨"b", .constant, 0, 38, 7⟩, ⟨"n", .constant, 0, 38, 7⟩] } := by
  let v := typedPair "T<a, b, c>".toList (by decide)
  exact ⟨v, by decide, v.runsOn_of_notMem (by decide) (by decide) [], rfl, by decide +kernel⟩

end Deadwood.Module
