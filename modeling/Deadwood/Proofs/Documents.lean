import Deadwood.Json.Reader
import Deadwood.Json.Writer
import Deadwood.Proofs.Stamps
import Deadwood.Proofs.Tables
import Mathlib.Data.List.TakeWhile

/-!
# Documents read back

A document that was written for a value is read as that value. Each part of the way has its own
lemma: the code units of a text come back from its escapes (`readUnits_flatMap`) and are joined to
its characters again (`joinUnits_flatMap`), a number is the word that its digits make
(`wordToken_signedDigits`), and the machine that reads the tokens comes from the beginning of a
written value to its end with the value finished (`Reads`, kept by items and members in turn). A
value must be one that can be read at all: its numbers are whole and not too long, its tables have
one member for each key, and its nesting is within the bounds (`Storable`).
-/

set_option autoImplicit false

namespace Deadwood.Json

open Text List

/-! ## Texts in quotes -/

theorem toNat_valid (c : Char) : c.toNat < 0xd800 ∨ (0xdfff < c.toNat ∧ c.toNat < 0x110000) :=
  c.valid

/-- The code units of a character are joined to it again, whatever follows them. -/
theorem joinUnits_unitsOf (c : Char) (units : List Nat) :
    joinUnits (unitsOf c ++ units) = c :: joinUnits units := by
  have hvalid := toNat_valid c
  simp only [unitsOf]
  split
  · have hhalf : ¬ (0xd800 ≤ c.toNat ∧ c.toNat < 0xe000) := by omega
    cases units with
    | nil => simp only [append_nil, joinUnits, if_neg hhalf, Char.ofNat_toNat]
    | cons low units =>
      have hpair : ¬ (0xd800 ≤ c.toNat ∧ c.toNat < 0xdc00 ∧ 0xdc00 ≤ low ∧ low < 0xe000) := by
        omega
      rw [cons_append, nil_append, joinUnits, if_neg hpair, if_neg hhalf,
        Char.ofNat_toNat]
  · have hjoined : 0x10000 + (0xd800 + (c.toNat - 0x10000) / 0x400 - 0xd800) * 0x400 +
        (0xdc00 + (c.toNat - 0x10000) % 0x400 - 0xdc00) = c.toNat := by omega
    rw [cons_append, cons_append, nil_append, joinUnits, if_pos (by omega), hjoined,
      Char.ofNat_toNat]

theorem joinUnits_flatMap (cs : List Char) : joinUnits (cs.flatMap unitsOf) = cs := by
  induction cs with
  | nil => rfl
  | cons c cs ih => rw [flatMap_cons, joinUnits_unitsOf, ih]

theorem hexValue?_hexDigit : ∀ d < 16, hexValue? (hexDigit d) = some d := by decide

theorem hexDigits_four (n : Nat) : hexDigits 4 n =
    [hexDigit (n / 4096 % 16), hexDigit (n / 256 % 16), hexDigit (n / 16 % 16),
      hexDigit (n / 1 % 16)] := rfl

theorem hexNumber?_hexDigits {n : Nat} (h : n < 0x10000) : hexNumber? (hexDigits 4 n) = some n := by
  simp only [hexDigits_four, hexNumber?, foldlM_cons, foldlM_nil,
    hexValue?_hexDigit _ (Nat.mod_lt _ (by decide : 0 < 16)), Option.map_some,
    Option.bind_eq_bind, Option.bind_some, Option.pure_def, Option.some.injEq]
  omega

theorem readUnits_hexDigits {n : Nat} (h : n < 0x10000) (cs : List Char) :
    readUnits ('\\' :: 'u' :: hexDigits 4 n ++ cs) =
      (readUnits cs).map fun read => (n :: read.1, read.2 + 6) := by
  have hnumber := hexNumber?_hexDigits h
  simp only [hexDigits_four] at hnumber
  simp only [hexDigits_four, cons_append, nil_append, readUnits, hnumber,
    Option.bind_eq_bind, Option.bind_some]
  cases readUnits cs <;> rfl

variable {c : Char} {word cs : List Char} {n : Int} {stack later : List Frame} {mode next : Mode}
  {token : Token} {rest : List Token} {depth : Nat} {v : Value} {vs : List Value}
  {members : List (String × Value)}

theorem readUnits_escape {letter : Char} (h : escapes.lookup letter = some c)
    (hletter : letter ≠ 'u') (cs : List Char) : readUnits ('\\' :: letter :: cs) =
      (readUnits cs).map fun read => (c.toNat :: read.1, read.2 + 2) := by
  rw [readUnits]
  · rw [h]
    cases readUnits cs <;> rfl
  · exact fun _ _ _ _ _ hu _ => hletter hu

theorem readUnits_cons (hquote : c ≠ '"') (hslash : c ≠ '\\')
    (h : 0x20 ≤ c.toNat) (cs : List Char) :
    readUnits (c :: cs) = (readUnits cs).map fun read => (c.toNat :: read.1, read.2 + 1) := by
  rw [readUnits]
  · exact if_neg fun hc => hc.elim (Nat.not_lt.2 h) hslash
  · exact hquote
  · exact fun _ _ _ _ _ hc _ => hslash hc
  · exact fun _ _ hc _ => hslash hc

/-- The letters of escapes are read as what they are written for. -/
theorem shortEscapes_spec : ∀ pair ∈ shortEscapes,
    escapes.lookup pair.2 = some pair.1 ∧ pair.2 ≠ 'u' ∧ unitsOf pair.1 = [pair.1.toNat] := by
  decide

/-- A written character is read as its code units. -/
theorem readUnits_writeChar (c : Char) (cs : List Char) : readUnits (writeChar c ++ cs) =
      (readUnits cs).map fun read => (unitsOf c ++ read.1, read.2 + (writeChar c).length) := by
  have hvalid := toNat_valid c
  rw [writeChar]
  split
  · rename_i letter hletter
    have hmem := (Keyed.lookup_eq_some_iff_mem (by decide)).1 hletter
    obtain ⟨hescape, hu, hunits⟩ := shortEscapes_spec _ hmem
    rw [hunits]
    exact readUnits_escape hescape hu cs
  · rename_i hnone
    have hquote : c ≠ '"' := by rintro rfl; exact absurd hnone (by decide)
    have hslash : c ≠ '\\' := by rintro rfl; exact absurd hnone (by decide)
    split
    · rename_i hprintable
      have hunits : unitsOf c = [c.toNat] := if_pos (by omega)
      rw [hunits]
      exact readUnits_cons hquote hslash hprintable.1 cs
    · simp only [unitsOf]
      split
      · rename_i hplane
        exact readUnits_hexDigits hplane cs
      · simp only [flatMap_cons, flatMap_nil, append_nil, append_assoc]
        rw [readUnits_hexDigits (by omega), readUnits_hexDigits (by omega), Option.map_map]
        rfl

/-- A written text is read as its code units, up to its closing quote. -/
theorem readUnits_flatMap (cs rest : List Char) : readUnits (cs.flatMap writeChar ++ '"' :: rest) =
      some (cs.flatMap unitsOf, (cs.flatMap writeChar).length + 1) := by
  induction cs with
  | nil => rfl
  | cons c cs ih =>
    rw [flatMap_cons, append_assoc, readUnits_writeChar, ih, flatMap_cons,
      length_append, Option.map_some]
    congr 2
    omega

/-! ## Tokens -/

theorem tokens_gap (h : isGap c) (cs : List Char) : tokens (c :: cs) = tokens cs := by
  rw [tokens, if_pos h]

theorem tokens_mark {mark : Token} (hgap : isGap c = false) (h : mark? c = some mark)
    (cs : List Char) : tokens (c :: cs) = mark :: tokens cs := by
  rw [tokens, hgap, if_neg Bool.false_ne_true]
  simp only [h]

@[simp]
theorem tokens_newLine (level : Nat) (cs : List Char) :
    tokens (newLine level ++ cs) = tokens cs := by
  rw [newLine, cons_append, tokens_gap rfl]
  induction 2 * level with
  | zero => rfl
  | succ n ih => rw [replicate_succ, cons_append, tokens_gap rfl, ih]

@[simp]
theorem tokens_writeText (s : String) (cs : List Char) :
    tokens (writeText s ++ cs) = .text s :: tokens cs := by
  have hread := readUnits_flatMap s.toList cs
  have hdrop : (s.toList.flatMap writeChar ++ '"' :: cs).drop
      ((s.toList.flatMap writeChar).length + 1) = cs := by
    rw [← drop_drop, drop_left]
    rfl
  rw [writeText, cons_append, cons_append, append_assoc, singleton_append,
    tokens, if_neg (by decide)]
  have hmark : mark? '"' = none := rfl
  simp only [hmark, if_true, hread, joinUnits_flatMap, String.ofList_toList, hdrop]

/-- What comes next is no part of a word. -/
def EndsWord (cs : List Char) : Prop := ∀ c ∈ cs.head?, isWordPart c = false

theorem endsWord_cons (h : isWordPart c = false) (cs : List Char) : EndsWord (c :: cs) := by
  intro d hd
  obtain rfl : c = d := Option.some.inj hd
  exact h

theorem tokens_word (hne : word ≠ []) (h : word.all isWordPart) (hend : EndsWord cs) :
    tokens (word ++ cs) = wordToken word :: tokens cs := by
  obtain ⟨c, rest, rfl⟩ := exists_cons_of_ne_nil hne
  rw [all_cons, Bool.and_eq_true, all_eq_true] at h
  obtain ⟨hc, hrest⟩ := h
  have htake : cs.takeWhile isWordPart = [] := by
    cases cs with
    | nil => rfl
    | cons d cs => rw [takeWhile_cons, hend d rfl]; rfl
  have hdrop : cs.dropWhile isWordPart = cs := by
    cases cs with
    | nil => rfl
    | cons d cs => rw [dropWhile_cons, hend d rfl]; rfl
  simp only [isWordPart, Bool.and_eq_true, Bool.not_eq_true', Option.isNone_iff_eq_none,
    bne_iff_ne] at hc
  rw [cons_append, tokens, hc.1.1, if_neg Bool.false_ne_true]
  simp only [hc.1.2, if_neg hc.2, takeWhile_append_of_pos hrest,
    dropWhile_append_of_pos hrest, htake, hdrop, append_nil]

/-! ## Numbers -/

theorem isWordPart_of_isDigit (h : c.isDigit) : isWordPart c := by
  have hall : ∀ n < 58, 48 ≤ n → isWordPart (Char.ofNat n) := by decide
  have hbounds := toNat_lt_of_isDigit h
  rw [← Char.ofNat_toNat c]
  exact hall c.toNat hbounds.2 hbounds.1

theorem takeWhile_digits (n : Nat) : (Number.digits n).takeWhile Char.isDigit = Number.digits n :=
  takeWhile_eq_self_iff.2 fun _ => Number.isDigit_of_mem_digits

theorem unsigned?_digits (negative : Bool) (n : Nat) :
    unsigned? negative (Number.digits n) = some (.int (if negative then -(n : Int) else n)) := by
  have hdrop : (Number.digits n).dropWhile Char.isDigit = [] :=
    dropWhile_eq_nil_iff.2 fun _ => Number.isDigit_of_mem_digits
  rw [unsigned?, takeWhile_digits, hdrop]
  split
  · rename_i hnil
    exact absurd hnil (Number.digits_ne_nil n)
  · rename_i hzero
    exact absurd (Number.eq_nil_of_digits_eq_zero_cons n hzero) (cons_ne_nil _ _)
  · simp only [numberTail?, Number.ofDigits_digits]

theorem of_mem_signedDigits (h : c ∈ Number.signedDigits n) : c.isDigit ∨ c = '-' := by
  cases n with
  | ofNat n => exact .inl (Number.isDigit_of_mem_digits h)
  | negSucc n =>
    rcases mem_cons.1 h with h | h
    · exact .inr h
    · exact .inl (Number.isDigit_of_mem_digits h)

theorem head?_digits_ne (n : Nat) : (Number.digits n).head? ≠ some '-' := by
  intro h
  exact absurd (Number.isDigit_of_mem_digits (mem_of_mem_head? h)) (by decide)

/-- No known word is made of digits and signs alone. -/
theorem lookup_signedDigits (n : Int) :
    knownWords.lookup (String.ofList (Number.signedDigits n)) = none := by
  have hwords : ∀ pair ∈ knownWords,
      pair.1.toList.any (fun c => !c.isDigit && c != '-') = true := by decide
  rw [lookup_eq_none_iff]
  intro pair hpair
  obtain ⟨c, hc, hletter⟩ := any_eq_true.1 (hwords pair hpair)
  rw [bne_iff_ne]
  intro heq
  rw [← heq, String.toList_ofList] at hc
  rcases of_mem_signedDigits hc with hdigit | rfl
  · simp [hdigit] at hletter
  · exact absurd hletter (by decide)

theorem number?_signedDigits (n : Int) : number? (Number.signedDigits n) = some (.int n) := by
  cases n with
  | ofNat n =>
    have hsign := head?_digits_ne n
    rw [Number.signedDigits, number?]
    · rw [unsigned?_digits]
      rfl
    · intro cs hcs
      rw [hcs] at hsign
      exact hsign rfl
  | negSucc n =>
    rw [Number.signedDigits, number?, unsigned?_digits]
    rfl

theorem excess?_signedDigits (h : Number.IsShort n.natAbs) :
    excess? (Number.signedDigits n) = none := by
  have hwhole : (if (Number.signedDigits n).head? = some '-' then (Number.signedDigits n).drop 1
      else Number.signedDigits n) = Number.digits n.natAbs := by
    cases n with
    | ofNat n => exact if_neg (head?_digits_ne n)
    | negSucc n => rfl
  rw [excess?, hwhole, takeWhile_digits, Excess.ofDigits?, if_neg (Nat.not_lt.2 h), ite_self]

theorem wordToken_signedDigits (h : Number.IsShort n.natAbs) :
    wordToken (Number.signedDigits n) = .atom (.int n) := by
  rw [wordToken, excess?_signedDigits h, atom?, lookup_signedDigits]
  simp only [number?_signedDigits]

theorem tokens_signedDigits (h : Number.IsShort n.natAbs) (hend : EndsWord cs) :
    tokens (Number.signedDigits n ++ cs) = .atom (.int n) :: tokens cs := by
  rw [← wordToken_signedDigits h]
  refine tokens_word ?_ (all_eq_true.2 fun c hc => ?_) hend
  · cases n with
    | ofNat n => exact Number.digits_ne_nil n
    | negSucc n => exact cons_ne_nil _ _
  · rcases of_mem_signedDigits hc with hc | rfl
    · exact isWordPart_of_isDigit hc
    · rfl

/-! ## Values -/

/-- A value that can be read from a document: numbers are whole and not too long, tables have one
member for each key, and lists and tables are nested at most as deep as given. -/
inductive Storable : (depth : Nat) → Value → Prop where
  | null {depth : Nat} : Storable depth .null
  | bool {depth : Nat} (b : Bool) : Storable depth (.bool b)
  | int {depth : Nat} {n : Int} (h : Number.IsShort n.natAbs) : Storable depth (.int n)
  | text {depth : Nat} (s : String) : Storable depth (.text s)
  | list {depth : Nat} {items : List Value} (h : ∀ v ∈ items, Storable depth v) :
    Storable (depth + 1) (.list items)
  | table {depth : Nat} {members : List (String × Value)}
    (hkeys : (members.map Prod.fst).Nodup) (h : ∀ m ∈ members, Storable depth m.2) :
    Storable (depth + 1) (.table members)

/-- Where a value may begin, the machine reads the value from its text and finishes it. -/
def Reads (depth : Nat) (v : Value) : Prop :=
  ∀ (level : Nat) (stack : List Frame) (mode : Mode) (rest : List Char),
    mode = .value ∨ mode = .firstItem → stack.length + depth ≤ maxNesting → EndsWord rest →
    run stack mode (tokens (writeAt level v ++ rest)) = run stack (.done v) (tokens rest)

theorem run_cons (h : step stack mode token = .ok (later, next)) :
    run stack mode (token :: rest) = run later next rest := by
  rw [run, h]
  rfl

theorem run_begins (hmode : mode = .value ∨ mode = .firstItem) (htoken : token ≠ .closeList)
    (h : beginValue stack token = .ok (later, next)) :
    run stack mode (token :: rest) = run later next rest := by
  refine run_cons ?_
  rcases hmode with rfl | rfl
  · exact h
  · cases token <;> first | exact h | exact absurd rfl htoken

theorem reads_word (hwrite : ∀ level, writeAt level v = word)
    (hword : ∀ rest, EndsWord rest → tokens (word ++ rest) = .atom v :: tokens rest) :
    Reads depth v := by
  intro level stack mode rest hmode _ hend
  rw [hwrite, hword rest hend, run_begins hmode (by simp) rfl]

theorem reads_text (depth : Nat) (s : String) : Reads depth (.text s) := by
  intro level stack mode rest hmode _ _
  rw [writeAt, tokens_writeText, run_begins hmode (by simp) rfl]

theorem endsWord_writeItems (level : Nat) (vs : List Value) (rest : List Char) :
    EndsWord (writeItems (level + 1) vs ++ (newLine level ++ rest)) := by
  cases vs with
  | nil => exact endsWord_cons rfl _
  | cons v vs => exact endsWord_cons rfl _

theorem endsWord_writeMembers (level : Nat) (members : List (String × Value)) (rest : List Char) :
    EndsWord (writeMembers (level + 1) members ++ (newLine level ++ rest)) := by
  cases members with
  | nil => exact endsWord_cons rfl _
  | cons m members => exact endsWord_cons rfl _

/-- After an item of a list, the machine reads the further items and closes the list. -/
theorem run_writeItems (hvs : ∀ v ∈ vs, Reads depth v)
    (hdepth : stack.length + (depth + 1) ≤ maxNesting) (level : Nat) (rest : List Char)
    (reversed : List Value) (v : Value) : run (.items reversed :: stack) (.done v)
        (tokens (writeItems (level + 1) vs ++ (newLine level ++ ']' :: rest))) =
      run stack (.done (.list (reversed.reverse ++ v :: vs))) (tokens rest) := by
  induction vs generalizing reversed v with
  | nil =>
    rw [writeItems, nil_append, tokens_newLine, tokens_mark rfl rfl, run_cons rfl,
      reverse_cons]
  | cons w vs ih =>
    have hw := hvs w mem_cons_self
    simp only [writeItems, cons_append, append_assoc]
    rw [tokens_mark rfl rfl, run_cons rfl, tokens_newLine,
      hw (level + 1) (.items (v :: reversed) :: stack) .value _ (.inl rfl)
        (by rw [length_cons]; omega) (endsWord_writeItems level vs _),
      ih (fun u hu => hvs u (mem_cons_of_mem w hu)), reverse_cons, append_assoc]
    rfl

/-- After a member of a table, the machine reads the further members and closes the table. -/
theorem run_writeMembers (hmembers : ∀ m ∈ members, Reads depth m.2)
    (hdepth : stack.length + (depth + 1) ≤ maxNesting) (level : Nat) (rest : List Char)
    (done : List (String × Value)) (key : String) (v : Value)
    (hkeys : ((done ++ (key, v) :: members).map Prod.fst).Nodup) :
    run (.members done key :: stack) (.done v)
        (tokens (writeMembers (level + 1) members ++ (newLine level ++ '\x7d' :: rest))) =
      run stack (.done (.table (done ++ (key, v) :: members))) (tokens rest) := by
  induction members generalizing done key v with
  | nil =>
    have hput : Keyed.put key v done = done ++ [(key, v)] := Keyed.put_of_not_mem (by grind)
    rw [writeMembers, nil_append, tokens_newLine, tokens_mark rfl rfl, run_cons rfl, hput]
  | cons m members ih =>
    have hput : Keyed.put key v done = done ++ [(key, v)] := Keyed.put_of_not_mem (by grind)
    have hm := hmembers m mem_cons_self
    simp only [writeMembers, cons_append, append_assoc]
    rw [tokens_mark rfl rfl, run_cons rfl, tokens_newLine, tokens_writeText, hput, run_cons rfl,
      nil_append, tokens_mark rfl rfl, run_cons rfl, tokens_gap rfl,
      hm (level + 1) (.members (done ++ [(key, v)]) m.1 :: stack) .value _ (.inl rfl)
        (by rw [length_cons]; omega) (endsWord_writeMembers level members _),
      ih (fun n hn => hmembers n (mem_cons_of_mem m hn)), append_assoc]
    · rfl
    · rwa [append_assoc]

theorem reads_list {items : List Value} (h : ∀ v ∈ items, Reads depth v) :
    Reads (depth + 1) (.list items) := by
  intro level stack mode rest hmode hdepth hend
  have hopen : beginValue stack .openList = .ok (.items [] :: stack, .firstItem) :=
    if_pos (by omega)
  cases items with
  | nil =>
    rw [writeAt, cons_append, tokens_mark rfl rfl, run_begins hmode (by simp) hopen,
      cons_append, tokens_mark rfl rfl, run_cons rfl]
    rfl
  | cons v vs =>
    have hv := h v mem_cons_self
    simp only [writeAt, cons_append, append_assoc, nil_append]
    rw [tokens_mark rfl rfl, run_begins hmode (by simp) hopen, tokens_newLine,
      hv (level + 1) (.items [] :: stack) .firstItem _ (.inr rfl)
        (by rw [length_cons]; omega) (endsWord_writeItems level vs _),
      run_writeItems (fun u hu => h u (mem_cons_of_mem v hu)) hdepth]
    rfl

theorem reads_table (hkeys : (members.map Prod.fst).Nodup) (h : ∀ m ∈ members, Reads depth m.2) :
    Reads (depth + 1) (.table members) := by
  intro level stack mode rest hmode hdepth hend
  have hopen : beginValue stack .openTable = .ok (stack, .firstKey) := if_pos (by omega)
  cases members with
  | nil =>
    rw [writeAt, cons_append, tokens_mark rfl rfl, run_begins hmode (by simp) hopen,
      cons_append, tokens_mark rfl rfl, run_cons rfl]
    rfl
  | cons m members =>
    have hm := h m mem_cons_self
    simp only [writeAt, cons_append, append_assoc, nil_append]
    rw [tokens_mark rfl rfl, run_begins hmode (by simp) hopen, tokens_newLine, tokens_writeText,
      run_cons rfl, tokens_mark rfl rfl, run_cons rfl, tokens_gap rfl,
      hm (level + 1) (.members [] m.1 :: stack) .value _ (.inl rfl)
        (by rw [length_cons]; omega) (endsWord_writeMembers level members _),
      run_writeMembers (fun n hn => h n (mem_cons_of_mem m hn)) hdepth _ _ _ _ _ hkeys]
    rfl

theorem Storable.reads (h : Storable depth v) : Reads depth v := by
  induction h with
  | null => exact reads_word (fun _ => rfl) fun rest => tokens_word (by decide) rfl
  | bool b =>
    cases b with
    | false => exact reads_word (fun _ => rfl) fun rest => tokens_word (by decide) rfl
    | true => exact reads_word (fun _ => rfl) fun rest => tokens_word (by decide) rfl
  | int h => exact reads_word (fun _ => rfl) fun rest => tokens_signedDigits h
  | text s => exact reads_text _ s
  | list _ ih => exact reads_list ih
  | table hkeys _ ih => exact reads_table hkeys ih

/-- A document is read as the value that it was written for, with or without blanks after it. -/
theorem read_write (h : Storable depth v) (hdepth : depth ≤ maxNesting) {rest : List Char}
    (hrest : rest.all isGap) : read (write v ++ rest) = .ok v := by
  have htokens : tokens rest = [] := by
    induction rest with
    | nil => rw [tokens]
    | cons c rest ih =>
      rw [all_cons, Bool.and_eq_true] at hrest
      rw [tokens_gap hrest.1, ih hrest.2]
  have hend : EndsWord rest := by
    intro c hc
    rw [isWordPart, all_eq_true.1 hrest c (mem_of_mem_head? hc)]
    rfl
  rw [read, write, h.reads 0 [] .value rest (.inl rfl) (by simpa using hdepth) hend, htokens]
  rfl

theorem Storable.mono {deeper : Nat} (h : Storable depth v) (hle : depth ≤ deeper) :
    Storable deeper v := by
  induction h generalizing deeper with
  | null => exact .null
  | bool b => exact .bool b
  | int h => exact .int h
  | text s => exact .text s
  | list h ih =>
    obtain ⟨deeper, rfl⟩ : ∃ n, deeper = n + 1 := ⟨deeper - 1, by omega⟩
    exact .list fun v hv => ih v hv (by omega)
  | table hkeys h ih =>
    obtain ⟨deeper, rfl⟩ : ∃ n, deeper = n + 1 := ⟨deeper - 1, by omega⟩
    exact .table hkeys fun m hm => ih m hm (by omega)

/-! ## The characters of a document -/

/-- The characters that documents are written in: the line feed and what ASCII can show. -/
def IsPlain (cs : List Char) : Prop := ∀ c ∈ cs, c = '\n' ∨ (0x20 ≤ c.toNat ∧ c.toNat < 0x7f)

instance (cs : List Char) : Decidable (IsPlain cs) := decidableBAll _ cs

@[simp]
theorem isPlain_append {ds : List Char} : IsPlain (cs ++ ds) ↔ IsPlain cs ∧ IsPlain ds :=
  forall_mem_append

@[simp]
theorem isPlain_cons :
    IsPlain (c :: cs) ↔ (c = '\n' ∨ (0x20 ≤ c.toNat ∧ c.toNat < 0x7f)) ∧ IsPlain cs :=
  forall_mem_cons

@[simp]
theorem isPlain_nil : IsPlain [] := forall_mem_nil _

theorem IsPlain.isAscii (h : IsPlain cs) : IsAscii cs := by
  intro c hc
  rcases h c hc with rfl | hprintable
  · decide
  · omega

theorem isPlain_hexDigits (width n : Nat) : IsPlain (hexDigits width n) := by
  have hdigit : ∀ d < 16, 0x20 ≤ (hexDigit d).toNat ∧ (hexDigit d).toNat < 0x7f := by decide
  induction width with
  | zero => exact isPlain_nil
  | succ width ih => exact isPlain_cons.2 ⟨.inr (hdigit _ (Nat.mod_lt _ (by decide))), ih⟩

theorem isPlain_writeChar (c : Char) : IsPlain (writeChar c) := by
  have hletters : ∀ pair ∈ shortEscapes, 0x20 ≤ pair.2.toNat ∧ pair.2.toNat < 0x7f := by decide
  rw [writeChar]
  split
  · rename_i letter hletter
    have hmem := (Keyed.lookup_eq_some_iff_mem (by decide)).1 hletter
    exact isPlain_cons.2 ⟨.inr (by decide), isPlain_cons.2 ⟨.inr (hletters _ hmem), isPlain_nil⟩⟩
  · split
    · rename_i hprintable
      exact isPlain_cons.2 ⟨.inr hprintable, isPlain_nil⟩
    · intro d hd
      obtain ⟨unit, -, hunit⟩ := mem_flatMap.1 hd
      have hescape : IsPlain ('\\' :: 'u' :: hexDigits 4 unit) :=
        isPlain_cons.2 ⟨.inr (by decide),
          isPlain_cons.2 ⟨.inr (by decide), isPlain_hexDigits 4 unit⟩⟩
      exact hescape d hunit

@[simp]
theorem isPlain_writeText (s : String) : IsPlain (writeText s) := by
  refine isPlain_append.2 ⟨isPlain_cons.2 ⟨.inr (by decide), ?_⟩,
    isPlain_cons.2 ⟨.inr (by decide), isPlain_nil⟩⟩
  intro c hc
  obtain ⟨d, -, hd⟩ := mem_flatMap.1 hc
  exact isPlain_writeChar d c hd

@[simp]
theorem isPlain_newLine (level : Nat) : IsPlain (newLine level) := by
  refine isPlain_cons.2 ⟨.inl rfl, fun c hc => ?_⟩
  rw [eq_of_mem_replicate hc]
  exact .inr (by decide)

theorem isPlain_signedDigits (n : Int) : IsPlain (Number.signedDigits n) := by
  intro c hc
  rcases of_mem_signedDigits hc with h | rfl
  · have hbounds := toNat_lt_of_isDigit h
    exact .inr (by omega)
  · exact .inr (by decide)

theorem isPlain_writeItems (h : ∀ v ∈ vs, ∀ level, IsPlain (writeAt level v)) (level : Nat) :
    IsPlain (writeItems level vs) := by
  induction vs with
  | nil => exact isPlain_nil
  | cons v vs ih =>
    have hv := h v mem_cons_self level
    have hvs := ih fun w hw => h w (mem_cons_of_mem v hw)
    simp [writeItems, hv, hvs]

theorem isPlain_writeMembers
    (h : ∀ m ∈ members, ∀ level, IsPlain (writeAt level m.2)) (level : Nat) :
    IsPlain (writeMembers level members) := by
  induction members with
  | nil => exact isPlain_nil
  | cons m members ih =>
    have hm := h m mem_cons_self level
    have hmembers := ih fun n hn => h n (mem_cons_of_mem m hn)
    simp [writeMembers, hm, hmembers]

theorem Storable.isPlain_writeAt (h : Storable depth v) (level : Nat) :
    IsPlain (writeAt level v) := by
  induction h generalizing level with
  | null => rw [writeAt]; decide
  | bool b => cases b <;> rw [writeAt] <;> decide
  | int _ => exact isPlain_signedDigits _
  | text s => exact isPlain_writeText s
  | @list _ items _ ih =>
    cases items with
    | nil => rw [writeAt]; decide
    | cons v vs =>
      have hv := ih v mem_cons_self (level + 1)
      have hvs := isPlain_writeItems (fun w hw => ih w (mem_cons_of_mem v hw)) (level + 1)
      simp [writeAt, hv, hvs]
  | @table _ members _ _ ih =>
    cases members with
    | nil => rw [writeAt]; decide
    | cons m members =>
      have hm := ih m mem_cons_self (level + 1)
      have hmembers :=
        isPlain_writeMembers (fun n hn => ih n (mem_cons_of_mem m hn)) (level + 1)
      simp [writeAt, hm, hmembers]

end Deadwood.Json
