import Mathlib.Data.List.Basic
import Deadwood.Stamp

/-!
# Numerals and points in time

Numbers are read back from the digits that were written for them, with or without zeros in front
(`ofDigits_digits`, `ofDigits_padded`), and a text in ASCII is one byte for each character
(`encode_of_isAscii`, `decode_encode_of_isAscii`). Put together they give the round trip of a point
in time: a stamp that a calendar and a clock have is what its own text stands for
(`Stamp.read_write`). The one exception is an offset of less than a second that is not zero, which
is written in full and read as no offset at all.
-/

set_option autoImplicit false

namespace Deadwood

open List

theorem mapM_map_eq_ok {α β ε : Type} {f : α → Except ε β} {g : β → α} {bs : List β}
    (h : ∀ b ∈ bs, f (g b) = .ok b) : (bs.map g).mapM f = .ok bs := by
  induction bs with
  | nil => rfl
  | cons b bs ih =>
    rw [map_cons, mapM_cons, h b mem_cons_self,
      ih fun c hc => h c (mem_cons_of_mem b hc)]
    rfl

/-! ## Digits -/

namespace Number

variable {n : Nat} {c : Char}

theorem ofDigits_eq (cs : List Char) : ofDigits cs = Nat.ofDigitChars 10 cs 0 := by
  rw [Nat.ofDigitChars_eq_foldl, ofDigits]
  congr
  funext n c
  rw [Nat.mul_comm]
  rfl

@[simp]
theorem ofDigits_digits (n : Nat) : ofDigits (digits n) = n := by
  rw [ofDigits_eq, digits, Nat.ofDigitChars_ten_toDigits]

theorem isDigit_of_mem_digits (h : c ∈ digits n) : c.isDigit :=
  Nat.isDigit_of_mem_toDigits (by decide) (by decide) h

theorem digits_ne_nil (n : Nat) : digits n ≠ [] := Nat.toDigits_ne_nil

theorem length_digits_le_iff {k : Nat} (h : 0 < k) : (digits n).length ≤ k ↔ n < Nat.pow 10 k :=
  Nat.length_toDigits_le_iff (by decide) h

/-- The number has no more digits than a number may be read from. -/
def IsShort (n : Nat) : Prop := (digits n).length ≤ maxDigits

theorem IsShort.of_le {m : Nat} (h : IsShort n) (hle : m ≤ n) : IsShort m := by
  have hmax : 0 < maxDigits := by decide
  rw [IsShort, length_digits_le_iff hmax] at h ⊢
  exact Nat.lt_of_le_of_lt hle h

/-- Only the number zero is written with a zero in front. -/
theorem eq_nil_of_digits_eq_zero_cons (n : Nat) {cs : List Char} (h : digits n = '0' :: cs) :
    cs = [] := by
  induction n using Nat.strongRecOn generalizing cs with
  | ind n ih =>
    rw [digits, Nat.toDigits_eq_if (by decide)] at h
    split at h
    · exact (cons.inj h).2.symm
    · rename_i hn
      -- the digits before the last one are those of a number above zero
      obtain ⟨first, rest, hfirst⟩ := exists_cons_of_ne_nil (digits_ne_nil (n / 10))
      rw [← digits, hfirst, cons_append] at h
      obtain ⟨rfl, -⟩ := cons.inj h
      obtain rfl := ih (n / 10) (by omega) hfirst
      have hzero : n / 10 = 0 := by rw [← ofDigits_digits (n / 10), hfirst]; rfl
      omega

end Number

/-! ## ASCII as bytes -/

namespace Text

/-- All characters are in ASCII. -/
def IsAscii (cs : List Char) : Prop := ∀ c ∈ cs, c.toNat < 0x80

variable {cs : List Char} {c : Char}

theorem isAscii_append {ds : List Char} : IsAscii (cs ++ ds) ↔ IsAscii cs ∧ IsAscii ds :=
  forall_mem_append

theorem isAscii_cons : IsAscii (c :: cs) ↔ c.toNat < 0x80 ∧ IsAscii cs :=
  forall_mem_cons

theorem isAscii_nil : IsAscii [] := forall_mem_nil _

theorem toNat_lt_of_isDigit (h : c.isDigit) : 48 ≤ c.toNat ∧ c.toNat < 58 := by
  rw [Char.isDigit, Bool.and_eq_true, decide_eq_true_eq, decide_eq_true_eq] at h
  have hlow : (48 : Nat) ≤ c.val.toNat := h.1
  have hhigh : c.val.toNat ≤ 57 := h.2
  exact ⟨hlow, Nat.lt_succ_of_le hhigh⟩

theorem isAscii_of_isDigit (h : ∀ c ∈ cs, c.isDigit) : IsAscii cs :=
  fun c hc => Nat.lt_of_lt_of_le (toNat_lt_of_isDigit (h c hc)).2 (by decide)

namespace Utf8

variable {cs : List Char}

theorem encode_of_isAscii (h : IsAscii cs) : encode cs = cs.map fun c => UInt8.ofNat c.toNat := by
  induction cs with
  | nil => rfl
  | cons c cs ih =>
    rw [isAscii_cons] at h
    have hc : String.utf8EncodeChar c = [UInt8.ofNat c.toNat] :=
      if_pos (Nat.le_of_lt_succ h.1)
    rw [encode, flatMap_cons, hc, ← encode, ih h.2]
    rfl

variable {c : Char}

theorem toNat_byte (h : c.toNat < 0x80) : (UInt8.ofNat c.toNat).toNat = c.toNat :=
  UInt8.toNat_ofNat_of_lt' (Nat.lt_trans h (by decide))

theorem readChar_ascii (h : c.toNat < 0x80) (bytes : List UInt8) :
    readChar (UInt8.ofNat c.toNat) bytes = .ok (c, 0) := by
  have hbyte := toNat_byte h
  have hlead : lead? (UInt8.ofNat c.toNat) = some (0, 0x80, 0xbf) := by
    rw [lead?, if_pos]
    rw [UInt8.lt_iff_toNat_lt, hbyte]
    exact h
  rw [readChar, hlead]
  simp only [readTail, leadBits, hbyte, Except.map, if_true, Char.ofNat_toNat]

/-- A text in ASCII is read back from its bytes. -/
theorem decode_encode_of_isAscii (h : IsAscii cs) : decode (encode cs) = .ok cs := by
  have hpieces : ∀ position, pieces position (encode cs) = cs.map .ok := by
    rw [encode_of_isAscii h]
    induction cs with
    | nil => intro position; rw [map_nil, pieces, map_nil]
    | cons c cs ih =>
      intro position
      rw [isAscii_cons] at h
      rw [map_cons, pieces, readChar_ascii h.1]
      simp only [drop_zero, ih h.2, map_cons]
  rw [decode, hpieces]
  exact mapM_map_eq_ok fun c _ => rfl

end Utf8

end Text

/-! ## Stamps -/

namespace Stamp

open Text

variable {n : Nat}

variable {c : Char} {cs : List Char} {s : Stamp}

theorem isDigit_of_mem_padded {width : Nat} (h : c ∈ padded width n) : c.isDigit := by
  rw [padded, mem_append] at h
  rcases h with h | h
  · rw [eq_of_mem_replicate h]
    rfl
  · exact Number.isDigit_of_mem_digits h

theorem ofDigits_padded (width n : Nat) : Number.ofDigits (padded width n) = n := by
  rw [Number.ofDigits_eq, padded, Nat.ofDigitChars_append, Nat.ofDigitChars_replicate_zero,
    Nat.mul_zero, ← Number.ofDigits_eq, Number.ofDigits_digits]

section

variable (width : Nat) (hwidth : 0 < width) (h : n < Nat.pow 10 width)
include width hwidth h

theorem length_padded : (padded width n).length = width := by
  have hlength := (Number.length_digits_le_iff hwidth).2 h
  rw [padded, length_append, length_replicate]
  omega

theorem digits?_padded (cs : List Char) : digits? width (padded width n ++ cs) = some (n, cs) := by
  have hlength := length_padded width hwidth h
  have htake : (padded width n ++ cs).take width = padded width n := take_left' hlength
  have hdrop : (padded width n ++ cs).drop width = cs := drop_left' hlength
  have hall : (padded width n).all Char.isDigit :=
    all_eq_true.2 fun c hc => isDigit_of_mem_padded hc
  simp only [digits?, htake, hdrop, hlength, hall, ofDigits_padded, and_self, if_true]

theorem digits?_padded_nil : digits? width (padded width n) = some (n, []) := by
  rw [← digits?_padded width hwidth h [], append_nil]

theorem padded_eq_cons : ∃ c cs, padded width n = c :: cs ∧ c.isDigit := by
  have hlength := length_padded width hwidth h
  cases hpadded : padded width n with
  | nil =>
    rw [hpadded] at hlength
    exact absurd hlength (Nat.ne_of_lt hwidth)
  | cons c cs => exact ⟨c, cs, rfl, isDigit_of_mem_padded (hpadded ▸ mem_cons_self)⟩

end

/-! ### The time of day -/

theorem next?_colon (more : Bool) (h : cs ≠ []) :
    next? more true (':' :: cs) = some (.part cs) := by
  cases cs with
  | nil => exact absurd rfl h
  | cons c cs => rfl

theorem next?_point (more : Bool) (h : cs ≠ []) :
    next? more true ('.' :: cs) = some (.fraction cs) := by
  cases cs with
  | nil => exact absurd rfl h
  | cons c cs => rfl

theorem fraction?_padded (more : Bool) (clock : Clock) (h : n < 1000000) :
    fraction? more clock (padded 6 n) = some { clock with fraction := n, unread := more } := by
  have hlength := length_padded 6 (by decide) h
  simp only [fraction?, hlength, Nat.min_self, digits?_padded_nil 6 (by decide) h]
  simp

theorem clock?_minute (more : Bool) {hour minute : Nat} (hhour : hour < 100)
    (hminute : minute < 100) :
    clock? more (padded 2 hour ++ ':' :: padded 2 minute) =
      some { hour := hour, minute := minute, unread := more } := by
  obtain ⟨c, cs, hcons, -⟩ := padded_eq_cons 2 (by decide) hminute
  have hne : padded 2 minute ≠ [] := by rw [hcons]; exact cons_ne_nil c cs
  simp only [clock?, digits?_padded 2 (by decide) hhour, Option.bind_eq_bind,
    Option.bind_some, head?_cons, beq_self_eq_true, next?_colon more hne,
    digits?_padded_nil 2 (by decide) hminute]
  rfl

/-- A time of day as it is written. -/
def writeClock (hour minute second fraction : Nat) : List Char :=
  padded 2 hour ++ ':' :: (padded 2 minute ++ ':' :: (padded 2 second ++ writeFraction fraction))

theorem clock?_writeClock (more : Bool) {hour minute second fraction : Nat} (hhour : hour < 100)
    (hminute : minute < 100) (hsecond : second < 100) (hfraction : fraction < 1000000) :
    clock? more (writeClock hour minute second fraction) =
      some ⟨hour, minute, second, fraction, more⟩ := by
  have hne : ∀ {n : Nat} (cs : List Char), n < 100 → padded 2 n ++ cs ≠ [] := by
    intro n cs hn
    obtain ⟨c, rest, hcons, -⟩ := padded_eq_cons 2 (by decide) hn
    rw [hcons]
    exact cons_ne_nil _ _
  simp only [clock?, writeClock, digits?_padded 2 (by decide) hhour,
    digits?_padded 2 (by decide) hminute,
    digits?_padded 2 (by decide) hsecond, Option.bind_eq_bind, Option.bind_some,
    head?_cons, beq_self_eq_true, next?_colon more (hne _ hminute),
    next?_colon more (hne _ hsecond)]
  rw [writeFraction]
  split
  · rename_i hzero
    rw [hzero]
    rfl
  · obtain ⟨c, rest, hcons, -⟩ := padded_eq_cons 6 (by decide) hfraction
    have hpadded : padded 6 fraction ≠ [] := by rw [hcons]; exact cons_ne_nil _ _
    simp only [next?_point more hpadded, Option.bind_some, fraction?_padded more _ hfraction]

theorem of_mem_writeClock {hour minute second fraction : Nat}
    (h : c ∈ writeClock hour minute second fraction) : c.isDigit ∨ c = ':' ∨ c = '.' := by
  have hfraction : c ∈ writeFraction fraction → c.isDigit ∨ c = ':' ∨ c = '.' := by
    rw [writeFraction]
    split
    · intro h
      cases h
    · intro h
      rcases mem_cons.1 h with h | h
      · exact .inr (.inr h)
      · exact .inl (isDigit_of_mem_padded h)
  simp only [writeClock, mem_append, mem_cons] at h
  rcases h with h | h | h | h | h | h
  · exact .inl (isDigit_of_mem_padded h)
  · exact .inr (.inl h)
  · exact .inl (isDigit_of_mem_padded h)
  · exact .inr (.inl h)
  · exact .inl (isDigit_of_mem_padded h)
  · exact hfraction h

/-- An offset without its sign as it is written, with seconds and a fraction only where it has
them. -/
def writeSpan (size : Nat) : List Char :=
  padded 2 (size / 1000000 / 3600) ++ ':' :: padded 2 (size / 1000000 / 60 % 60) ++
    (if size / 1000000 % 60 = 0 ∧ size % 1000000 = 0 then []
      else ':' :: padded 2 (size / 1000000 % 60) ++ writeFraction (size % 1000000))

theorem writeOffset_eq (n : Int) :
    writeOffset n = (if n < 0 then '-' else '+') :: writeSpan n.natAbs := rfl

theorem clock?_writeSpan {size : Nat} (h : size < 86400000000) : clock? false (writeSpan size) =
      some ⟨size / 1000000 / 3600, size / 1000000 / 60 % 60, size / 1000000 % 60,
        size % 1000000, false⟩ := by
  have hhour : size / 1000000 / 3600 < 100 := by omega
  have hminute : size / 1000000 / 60 % 60 < 100 := by omega
  have hsecond : size / 1000000 % 60 < 100 := by omega
  rw [writeSpan]
  split
  · rename_i hwhole
    rw [append_nil, clock?_minute false hhour hminute, hwhole.1, hwhole.2]
  · have hclock := clock?_writeClock false hhour hminute hsecond (Nat.mod_lt size (by decide))
    rw [writeClock] at hclock
    rw [append_assoc, cons_append, cons_append, hclock]

/-- An offset has whole seconds, or is zero. -/
def IsWholeOffset (n : Int) : Prop := n = 0 ∨ 1000000 ≤ n.natAbs

/-- The zone of a stamp as it is written. -/
def writeZone : Option Int → List Char
  | none => []
  | some n => writeOffset n

theorem time?_written {hour minute second fraction : Nat} (hhour : hour < 100)
    (hminute : minute < 100) (hsecond : second < 100) (hfraction : fraction < 1000000)
    {offset : Option Int} (hday : ∀ n ∈ offset, n.natAbs < 86400000000)
    (hwhole : ∀ n ∈ offset, IsWholeOffset n) :
    ∃ unread, time? (writeClock hour minute second fraction ++ writeZone offset) =
      some (⟨hour, minute, second, fraction, unread⟩, offset) := by
  have hmark : ∀ c ∈ writeClock hour minute second fraction,
      (!(c == '+' || c == '-' || c == 'Z')) = true := by
    intro c hc
    rcases of_mem_writeClock hc with h | rfl | rfl
    · have hbounds := toNat_lt_of_isDigit h
      have hne : ∀ d : Char, d.toNat < 48 ∨ 58 ≤ d.toNat → (c == d) = false := by
        intro d hd
        rw [beq_eq_false_iff_ne]
        rintro rfl
        omega
      rw [hne '+' (by decide), hne '-' (by decide), hne 'Z' (by decide)]
      rfl
    · rfl
    · rfl
  simp only [time?, takeWhile_append_of_pos hmark, dropWhile_append_of_pos hmark]
  cases offset with
  | none =>
    refine ⟨false, ?_⟩
    have hclock := clock?_writeClock false hhour hminute hsecond hfraction
    simp only [writeZone, takeWhile_nil, dropWhile_nil, append_nil,
      isEmpty_nil, Bool.not_true, hclock]
    rfl
  | some n =>
    refine ⟨true, ?_⟩
    have hclock := clock?_writeClock true hhour hminute hsecond hfraction
    have hzone := clock?_writeSpan (hday n rfl)
    have hseconds := hwhole n rfl
    rw [IsWholeOffset] at hseconds
    simp only [writeZone, writeOffset_eq]
    generalize hsize : n.natAbs = size at hzone hseconds ⊢
    by_cases hn : n < 0
    · rw [if_pos hn]
      simp [hclock, hzone]
      split <;> omega
    · rw [if_neg hn]
      simp [hclock, hzone]
      split <;> omega

/-! ### The date -/

/-- A date as it is written. -/
def writeDate (year month day : Nat) : List Char :=
  padded 4 year ++ '-' :: (padded 2 month ++ '-' :: padded 2 day)

section Date

variable {year month day : Nat} (hyear : year < 10000) (hmonth : month < 100) (hday : day < 100)

include hyear hmonth hday

theorem length_writeDate : (writeDate year month day).length = 10 := by
  simp only [writeDate, length_append, length_cons, length_padded 4 (by decide) hyear,
    length_padded 2 (by decide) hmonth, length_padded 2 (by decide) hday]

theorem date?_writeDate : date? (writeDate year month day) = some (year, month, day) := by
  have hrest := digits?_padded 2 (by decide) hmonth ('-' :: padded 2 day)
  obtain ⟨c, cs, hcons, hdigit⟩ := padded_eq_cons 2 (by decide) hmonth
  have hweek : c ≠ 'W' := by rintro rfl; exact absurd hdigit (by decide)
  rw [hcons, cons_append] at hrest
  simp only [date?, writeDate, digits?_padded 4 (by decide) hyear, Option.bind_eq_bind,
    Option.bind_some, head?_cons, beq_self_eq_true, if_true, drop_succ_cons,
    drop_zero, hcons, cons_append]
  split
  · rename_i heq
    exact absurd (cons.inj heq).1 hweek
  · simp only [hrest, Option.bind_some, dash?, if_true,
      digits?_padded_nil 2 (by decide) hday, isEmpty_nil]

theorem dateLength_writeDate (cs : List Char) :
    dateLength (writeDate year month day ++ cs) = 10 := by
  have hlong : (writeDate year month day ++ cs).length ≠ 7 := by
    rw [length_append, length_writeDate hyear hmonth hday]
    omega
  obtain ⟨c, rest, hcons, hdigit⟩ := padded_eq_cons 2 (by decide) hmonth
  have hweek : (c == 'W') = false := by
    rw [beq_eq_false_iff_ne]
    rintro rfl
    exact absurd hdigit (by decide)
  have hdash : (writeDate year month day ++ cs).drop 4 =
      '-' :: c :: (rest ++ '-' :: padded 2 day ++ cs) := by
    rw [writeDate, append_assoc, hcons]
    exact drop_left' (length_padded 4 (by decide) hyear)
  have hnext : (writeDate year month day ++ cs).drop 5 =
      c :: (rest ++ '-' :: padded 2 day ++ cs) := by
    rw [show 5 = 4 + 1 from rfl, ← drop_drop, hdash]
    rfl
  rw [dateLength, if_neg hlong]
  simp [hdash, hnext, hweek]

end Date

/-! ### The whole stamp -/

/-- The stamp is one that a calendar and a clock have. Its offset has whole seconds, or is zero. -/
structure IsProper (s : Stamp) : Prop where
  fault : s.fault? = none
  fraction : s.fraction < 1000000
  offset : ∀ n ∈ s.offset, IsWholeOffset n

theorem monthLength_le (year month : Nat) : ((monthLengths year).drop month).headD 0 ≤ 31 := by
  have hall : ∀ n ∈ monthLengths year, n ≤ 31 := by
    intro n hn
    simp only [monthLengths, mem_cons, not_mem_nil, or_false] at hn
    split at hn <;> omega
  cases hdrop : (monthLengths year).drop month with
  | nil => decide
  | cons n rest => exact hall n (mem_of_mem_drop (hdrop ▸ mem_cons_self))

/-- The parts of a stamp without a fault have as many digits as they are written with. -/
theorem bounds_of_fault?_eq_none (h : s.fault? = none) :
    s.year < 10000 ∧ s.month < 100 ∧ s.day < 100 ∧ s.hour < 100 ∧ s.minute < 100 ∧
      s.second < 100 ∧ ∀ n ∈ s.offset, n.natAbs < 86400000000 := by
  have hday := monthLength_le s.year (s.month - 1)
  simp only [fault?] at h
  split at h
  · rename_i hany
    cases hoffset : s.offset with
    | none =>
      rw [hoffset] at hany
      exact absurd hany (by decide)
    | some n =>
      rw [hoffset] at h
      exact absurd h (by simp)
  rename_i hany
  have hoffset : ∀ n ∈ s.offset, n.natAbs < 86400000000 := by
    intro n hn
    rw [Option.mem_def] at hn
    simpa [hn] using hany
  repeat' split at h
  all_goals cases h
  refine ⟨?_, ?_, ?_, ?_, ?_, ?_, hoffset⟩ <;> omega

theorem write_eq (s : Stamp) : s.write = String.ofList (writeDate s.year s.month s.day ++
      'T' :: (writeClock s.hour s.minute s.second s.fraction ++ writeZone s.offset)) := by
  cases hoffset : s.offset <;> simp [write, writeDate, writeClock, writeZone, hoffset]

theorem isAscii_padded (width n : Nat) : IsAscii (padded width n) :=
  isAscii_of_isDigit fun _ => isDigit_of_mem_padded

theorem isAscii_writeFraction (n : Nat) : IsAscii (writeFraction n) := by
  rw [writeFraction]
  split
  · exact isAscii_nil
  · exact isAscii_cons.2 ⟨by decide, isAscii_padded 6 n⟩

theorem isAscii_writeZone (offset : Option Int) : IsAscii (writeZone offset) := by
  cases offset with
  | none => exact isAscii_nil
  | some n =>
    rw [writeZone, writeOffset_eq, writeSpan, isAscii_cons, isAscii_append, isAscii_append,
      isAscii_cons]
    refine ⟨by split <;> decide, ⟨isAscii_padded _ _, by decide, isAscii_padded _ _⟩, ?_⟩
    split
    · exact isAscii_nil
    · rw [isAscii_append, isAscii_cons]
      exact ⟨⟨by decide, isAscii_padded _ _⟩, isAscii_writeFraction _⟩

theorem unitsOf_ofList (h : IsAscii cs) : unitsOf (String.ofList cs) = cs := by
  rw [unitsOf, String.toList_ofList, Utf8.encode_of_isAscii h, map_map]
  conv_rhs => rw [← map_id cs]
  refine map_congr_left fun c hc => ?_
  rw [Function.comp_apply, Utf8.toNat_byte (h c hc), Char.ofNat_toNat, id]

/-- A proper stamp is what its own text stands for. -/
theorem read_write (h : s.IsProper) : read s.write = .ok s := by
  obtain ⟨hyear, hmonth, hday, hhour, hminute, hsecond, hoffset⟩ :=
    bounds_of_fault?_eq_none h.fault
  obtain ⟨unread, htime⟩ := time?_written hhour hminute hsecond h.fraction hoffset h.offset
  have hascii : IsAscii (writeDate s.year s.month s.day ++
      'T' :: (writeClock s.hour s.minute s.second s.fraction ++ writeZone s.offset)) := by
    simp only [isAscii_append, isAscii_cons, writeDate, writeClock]
    simp [isAscii_padded, isAscii_writeFraction, isAscii_writeZone]
  have hlength := length_writeDate hyear hmonth hday
  have hparts : parts? (unitsOf s.write) = some s := by
    rw [write_eq, unitsOf_ofList hascii, parts?, if_neg]
    · simp only [dateLength_writeDate hyear hmonth hday, take_left' hlength,
        drop_left' hlength, date?_writeDate hyear hmonth hday]
      simp [unitCount, htime]
    · rw [length_append, hlength]
      omega
  rw [read, hparts]
  simp only [h.fault]

end Stamp

end Deadwood
