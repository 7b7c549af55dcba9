import Deadwood.Proofs.Indexing
import Deadwood.Proofs.Stamps

/-!
# Texts and their bytes

Bytes can be read as a text exactly if they are the bytes of that text (`decode_eq_ok_iff`): every
character is read back from its bytes, and only from them. The bounds that the first byte of a
character sets to the second keep out the bytes that no character has.
-/

set_option autoImplicit false

namespace Deadwood.Text.Utf8

open List

/-! ## The bytes of one character -/

variable {n value taken owed : Nat} {bytes : List UInt8} {low high byte : UInt8}
  {result : Nat × Nat} {c : Char} {text : List Char}

theorem toNat_ofNat_of_isValid (h : n < 0xd800 ∨ 0xdfff < n ∧ n < 0x110000) :
    (Char.ofNat n).toNat = n := by
  rw [Char.ofNat, dif_pos h]
  rfl

/-- The byte is within the bounds. -/
def InRange (low high : Nat) (byte : UInt8) : Prop := low ≤ byte.toNat ∧ byte.toNat ≤ high

/-- The bytes that are the bytes of a character, with the number of the character. The second byte
has closer bounds after four of the first bytes, so that every number has one form and surrogates
have none. -/
inductive Encodes : List UInt8 → Nat → Prop
  | one {a : UInt8} (first : a.toNat < 0x80) : Encodes [a] a.toNat
  | two {a b : UInt8} (first : InRange 0xc2 0xdf a) (second : InRange 0x80 0xbf b) :
      Encodes [a, b] (a.toNat % 32 * 64 + b.toNat % 64)
  | three {a b c : UInt8} (first : InRange 0xe0 0xef a) (second : InRange 0x80 0xbf b)
      (long : a.toNat = 0xe0 → 0xa0 ≤ b.toNat) (whole : a.toNat = 0xed → b.toNat ≤ 0x9f)
      (third : InRange 0x80 0xbf c) :
      Encodes [a, b, c] ((a.toNat % 16 * 64 + b.toNat % 64) * 64 + c.toNat % 64)
  | four {a b c d : UInt8} (first : InRange 0xf0 0xf4 a) (second : InRange 0x80 0xbf b)
      (long : a.toNat = 0xf0 → 0x90 ≤ b.toNat) (last : a.toNat = 0xf4 → b.toNat ≤ 0x8f)
      (third : InRange 0x80 0xbf c) (fourth : InRange 0x80 0xbf d) :
      Encodes [a, b, c, d]
        (((a.toNat % 8 * 64 + b.toNat % 64) * 64 + c.toNat % 64) * 64 + d.toNat % 64)

/-- The bytes of a character encode its number. -/
theorem encodes_utf8EncodeChar (c : Char) : Encodes (String.utf8EncodeChar c) c.toNat := by
  have hvalid : c.toNat < 0xd800 ∨ (0xdfff < c.toNat ∧ c.toNat < 0x110000) := c.valid
  have hbyte : ∀ n < 256, (UInt8.ofNat n).toNat = n := fun n hn => UInt8.toNat_ofNat_of_lt' hn
  have hsame : c.val.toNat = c.toNat := rfl
  simp only [String.utf8EncodeChar, hsame]
  generalize c.toNat = v at hvalid ⊢
  split
  · have ha := hbyte v (by omega)
    have h := Encodes.one (a := UInt8.ofNat v) (by omega)
    rwa [ha] at h
  split
  · have ha := hbyte (v / 64 % 32 + 192) (by omega)
    have hb := hbyte (v % 64 + 128) (by omega)
    have h := Encodes.two (a := UInt8.ofNat (v / 64 % 32 + 192)) (b := UInt8.ofNat (v % 64 + 128))
      ⟨by omega, by omega⟩ ⟨by omega, by omega⟩
    convert h using 1
    omega
  split
  · have ha := hbyte (v / 4096 % 16 + 224) (by omega)
    have hb := hbyte (v / 64 % 64 + 128) (by omega)
    have hc := hbyte (v % 64 + 128) (by omega)
    have h := Encodes.three (a := UInt8.ofNat (v / 4096 % 16 + 224))
      (b := UInt8.ofNat (v / 64 % 64 + 128)) (c := UInt8.ofNat (v % 64 + 128))
      ⟨by omega, by omega⟩ ⟨by omega, by omega⟩ (by omega) (by omega) ⟨by omega, by omega⟩
    convert h using 1
    omega
  · have ha := hbyte (v / 262144 % 8 + 240) (by omega)
    have hb := hbyte (v / 4096 % 64 + 128) (by omega)
    have hc := hbyte (v / 64 % 64 + 128) (by omega)
    have hd := hbyte (v % 64 + 128) (by omega)
    have h := Encodes.four (a := UInt8.ofNat (v / 262144 % 8 + 240))
      (b := UInt8.ofNat (v / 4096 % 64 + 128)) (c := UInt8.ofNat (v / 64 % 64 + 128))
      (d := UInt8.ofNat (v % 64 + 128)) ⟨by omega, by omega⟩ ⟨by omega, by omega⟩ (by omega)
      (by omega) ⟨by omega, by omega⟩ ⟨by omega, by omega⟩
    convert h using 1
    omega

/-- Bytes that encode a number are the bytes of the character with that number. -/
theorem Encodes.utf8EncodeChar_eq (h : Encodes bytes n) :
    String.utf8EncodeChar (Char.ofNat n) = bytes := by
  have hsame : ∀ c : Char, c.val.toNat = c.toNat := fun _ => rfl
  have hbyte : ∀ {n : Nat} (byte : UInt8), n = byte.toNat → UInt8.ofNat n = byte := by
    rintro _ byte rfl
    exact UInt8.ofNat_toNat
  cases h with
  | one hfirst =>
    have hn := toNat_ofNat_of_isValid (.inl (Nat.lt_trans hfirst (by decide)))
    simp only [String.utf8EncodeChar, hsame, hn]
    rw [if_pos (by omega), UInt8.ofNat_toNat]
  | @two a b hfirst hsecond =>
    obtain ⟨⟨ha, ha'⟩, hb, hb'⟩ := And.intro hfirst hsecond
    generalize hv : a.toNat % 32 * 64 + b.toNat % 64 = v
    have hn : (Char.ofNat v).toNat = v := toNat_ofNat_of_isValid (by omega)
    simp only [String.utf8EncodeChar, hsame, hn]
    rw [if_neg (by omega), if_pos (by omega), hbyte a (by omega), hbyte b (by omega)]
  | @three a b c hfirst hsecond hlong hwhole hthird =>
    obtain ⟨⟨ha, ha'⟩, ⟨hb, hb'⟩, hc, hc'⟩ := And.intro hfirst (And.intro hsecond hthird)
    generalize hv : (a.toNat % 16 * 64 + b.toNat % 64) * 64 + c.toNat % 64 = v
    have hn : (Char.ofNat v).toNat = v := toNat_ofNat_of_isValid (by omega)
    simp only [String.utf8EncodeChar, hsame, hn]
    rw [if_neg (by omega), if_neg (by omega), if_pos (by omega), hbyte a (by omega),
      hbyte b (by omega), hbyte c (by omega)]
  | @four a b c d hfirst hsecond hlong hlast hthird hfourth =>
    obtain ⟨⟨ha, ha'⟩, ⟨hb, hb'⟩, ⟨hc, hc'⟩, hd, hd'⟩ :=
      And.intro hfirst (And.intro hsecond (And.intro hthird hfourth))
    generalize hv :
      ((a.toNat % 8 * 64 + b.toNat % 64) * 64 + c.toNat % 64) * 64 + d.toNat % 64 = v
    have hn : (Char.ofNat v).toNat = v := toNat_ofNat_of_isValid (by omega)
    simp only [String.utf8EncodeChar, hsame, hn]
    rw [if_neg (by omega), if_neg (by omega), if_neg (by omega), hbyte a (by omega),
      hbyte b (by omega), hbyte c (by omega), hbyte d (by omega)]

/-! ## Reading one character -/

/-- The first byte of a character, with its number in place of the byte. -/
theorem lead?_eq (byte : UInt8) : lead? byte =
    if byte.toNat < 0x80 then some (0, 0x80, 0xbf)
    else if byte.toNat < 0xc2 then none
    else if byte.toNat < 0xe0 then some (1, 0x80, 0xbf)
    else if byte.toNat = 0xe0 then some (2, 0xa0, 0xbf)
    else if byte.toNat = 0xed then some (2, 0x80, 0x9f)
    else if byte.toNat < 0xf0 then some (2, 0x80, 0xbf)
    else if byte.toNat = 0xf0 then some (3, 0x90, 0xbf)
    else if byte.toNat < 0xf4 then some (3, 0x80, 0xbf)
    else if byte.toNat = 0xf4 then some (3, 0x80, 0x8f)
    else none := by
  simp only [lead?, UInt8.lt_iff_toNat_lt, ← UInt8.toNat_inj, UInt8.reduceToNat]

/-- One more continuation byte is read, if it is within the bounds. -/
theorem readTail_succ_eq_ok_iff : readTail value taken (owed + 1) low high bytes = .ok result ↔
      ∃ byte rest, bytes = byte :: rest ∧ InRange low.toNat high.toNat byte ∧
        readTail (value * 64 + byte.toNat % 64) (taken + 1) owed 0x80 0xbf rest = .ok result := by
  cases bytes with
  | nil => simp [readTail]
  | cons byte bytes =>
    have hrange : (low ≤ byte ∧ byte ≤ high) ↔ InRange low.toNat high.toNat byte := by
      rw [InRange, UInt8.le_iff_toNat_le, UInt8.le_iff_toNat_le]
    rw [readTail]
    split
    · rename_i h
      simp [hrange.1 h]
    · rename_i h
      simp only [reduceCtorEq, cons.injEq, false_iff]
      rintro ⟨_, _, ⟨rfl, rfl⟩, h', -⟩
      exact h (hrange.2 h')

theorem readTail_zero_eq_ok_iff :
    readTail value taken 0 low high bytes = .ok result ↔ (value, taken) = result := by
  rw [readTail, Except.ok.injEq]

theorem readChar_eq_ok_iff_of_lead (h : lead? byte = some (owed, low, high)) :
    readChar byte bytes = .ok (c, taken) ↔
      ∃ n, readTail (leadBits owed byte) 0 owed low high bytes = .ok (n, taken) ∧
        Char.ofNat n = c := by
  simp only [readChar, h]
  cases readTail (leadBits owed byte) 0 owed low high bytes with
  | error e => simp [Except.map]
  | ok result =>
    obtain ⟨value, read⟩ := result
    simp only [Except.map, Except.ok.injEq, Prod.mk.injEq]
    constructor
    · intro h
      exact ⟨value, ⟨rfl, h.2⟩, h.1⟩
    · rintro ⟨n, ⟨rfl, rfl⟩, rfl⟩
      exact ⟨rfl, rfl⟩

/-- After some first bytes the bounds of the second byte are closer. -/
theorem inRange_ite_iff {p q : Nat} {b : UInt8} (hlow : 0x80 ≤ low.toNat)
    (hhigh : high.toNat ≤ 0xbf) :
    InRange (if n = p then low else 0x80).toNat (if n = q then high else 0xbf).toNat b ↔
      InRange 0x80 0xbf b ∧ (n = p → low.toNat ≤ b.toNat) ∧ (n = q → b.toNat ≤ high.toNat) := by
  have hleast : (0x80 : UInt8).toNat = 0x80 := rfl
  have hmost : (0xbf : UInt8).toNat = 0xbf := rfl
  unfold InRange
  split <;> split <;> omega

theorem lead?_one (h : byte.toNat < 0x80) : lead? byte = some (0, 0x80, 0xbf) := by
  rw [lead?_eq, if_pos h]

theorem lead?_two (h : InRange 0xc2 0xdf byte) : lead? byte = some (1, 0x80, 0xbf) := by
  obtain ⟨hlow, hhigh⟩ := h
  rw [lead?_eq, if_neg (by omega), if_neg (by omega), if_pos (by omega)]

theorem lead?_three (h : InRange 0xe0 0xef byte) : lead? byte = some
    (2, if byte.toNat = 0xe0 then 0xa0 else 0x80, if byte.toNat = 0xed then 0x9f else 0xbf) := by
  obtain ⟨hlow, hhigh⟩ := h
  rw [lead?_eq, if_neg (by omega), if_neg (by omega), if_neg (by omega)]
  split
  · rw [if_neg (by omega)]
  split
  · rfl
  · rw [if_pos (by omega)]

theorem lead?_four (h : InRange 0xf0 0xf4 byte) : lead? byte = some
    (3, if byte.toNat = 0xf0 then 0x90 else 0x80, if byte.toNat = 0xf4 then 0x8f else 0xbf) := by
  obtain ⟨hlow, hhigh⟩ := h
  rw [lead?_eq, if_neg (by omega), if_neg (by omega), if_neg (by omega), if_neg (by omega),
    if_neg (by omega), if_neg (by omega)]
  split
  · rw [if_neg (by omega)]
  split
  · rw [if_neg (by omega)]
  · rw [if_pos (by omega), if_pos (by omega)]

/-- A character is read from the bytes that encode it. -/
theorem Encodes.readChar_eq {tail : List UInt8} (h : Encodes (byte :: tail) n) (rest : List UInt8) :
    readChar byte (tail ++ rest) = .ok (Char.ofNat n, tail.length) := by
  cases h with
  | one hfirst =>
    exact (readChar_eq_ok_iff_of_lead (lead?_one hfirst)).2 ⟨_, readTail_zero_eq_ok_iff.2 rfl, rfl⟩
  | two hfirst hsecond =>
    refine (readChar_eq_ok_iff_of_lead (lead?_two hfirst)).2 ⟨_, ?_, rfl⟩
    exact readTail_succ_eq_ok_iff.2 ⟨_, _, rfl, hsecond, readTail_zero_eq_ok_iff.2 rfl⟩
  | three hfirst hsecond hlong hwhole hthird =>
    refine (readChar_eq_ok_iff_of_lead (lead?_three hfirst)).2 ⟨_, ?_, rfl⟩
    refine readTail_succ_eq_ok_iff.2 ⟨_, _, rfl,
      (inRange_ite_iff (by decide) (by decide)).2 ⟨hsecond, hlong, hwhole⟩, ?_⟩
    exact readTail_succ_eq_ok_iff.2 ⟨_, _, rfl, hthird, readTail_zero_eq_ok_iff.2 rfl⟩
  | four hfirst hsecond hlong hlast hthird hfourth =>
    refine (readChar_eq_ok_iff_of_lead (lead?_four hfirst)).2 ⟨_, ?_, rfl⟩
    refine readTail_succ_eq_ok_iff.2 ⟨_, _, rfl,
      (inRange_ite_iff (by decide) (by decide)).2 ⟨hsecond, hlong, hlast⟩, ?_⟩
    refine readTail_succ_eq_ok_iff.2 ⟨_, _, rfl, hthird, ?_⟩
    exact readTail_succ_eq_ok_iff.2 ⟨_, _, rfl, hfourth, readTail_zero_eq_ok_iff.2 rfl⟩

/-- A character is read from no other bytes. -/
theorem encodes_of_readChar (h : readChar byte bytes = .ok (c, taken)) :
    ∃ tail rest n, bytes = tail ++ rest ∧ taken = tail.length ∧ c = Char.ofNat n ∧
      Encodes (byte :: tail) n := by
  by_cases hone : byte.toNat < 0x80
  · obtain ⟨n, htail, rfl⟩ := (readChar_eq_ok_iff_of_lead (lead?_one hone)).1 h
    obtain ⟨rfl, rfl⟩ := Prod.mk.inj (readTail_zero_eq_ok_iff.1 htail)
    exact ⟨[], bytes, _, rfl, rfl, rfl, .one hone⟩
  by_cases htwo : InRange 0xc2 0xdf byte
  · obtain ⟨n, htail, rfl⟩ := (readChar_eq_ok_iff_of_lead (lead?_two htwo)).1 h
    obtain ⟨b, rest, rfl, hb, htail⟩ := readTail_succ_eq_ok_iff.1 htail
    obtain ⟨rfl, rfl⟩ := Prod.mk.inj (readTail_zero_eq_ok_iff.1 htail)
    exact ⟨[b], rest, _, rfl, rfl, rfl, .two htwo hb⟩
  by_cases hthree : InRange 0xe0 0xef byte
  · obtain ⟨n, htail, rfl⟩ := (readChar_eq_ok_iff_of_lead (lead?_three hthree)).1 h
    obtain ⟨b, rest, rfl, hb, htail⟩ := readTail_succ_eq_ok_iff.1 htail
    obtain ⟨d, rest, rfl, hd, htail⟩ := readTail_succ_eq_ok_iff.1 htail
    obtain ⟨rfl, rfl⟩ := Prod.mk.inj (readTail_zero_eq_ok_iff.1 htail)
    obtain ⟨hsecond, hlong, hwhole⟩ := (inRange_ite_iff (by decide) (by decide)).1 hb
    exact ⟨[b, d], rest, _, rfl, rfl, rfl, .three hthree hsecond hlong hwhole hd⟩
  by_cases hfour : InRange 0xf0 0xf4 byte
  · obtain ⟨n, htail, rfl⟩ := (readChar_eq_ok_iff_of_lead (lead?_four hfour)).1 h
    obtain ⟨b, rest, rfl, hb, htail⟩ := readTail_succ_eq_ok_iff.1 htail
    obtain ⟨d, rest, rfl, hd, htail⟩ := readTail_succ_eq_ok_iff.1 htail
    obtain ⟨e, rest, rfl, he, htail⟩ := readTail_succ_eq_ok_iff.1 htail
    obtain ⟨rfl, rfl⟩ := Prod.mk.inj (readTail_zero_eq_ok_iff.1 htail)
    obtain ⟨hsecond, hlong, hlast⟩ := (inRange_ite_iff (by decide) (by decide)).1 hb
    exact ⟨[b, d, e], rest, _, rfl, rfl, rfl, .four hfour hsecond hlong hlast hd he⟩
  · have hnone : lead? byte = none := by
      simp only [InRange] at htwo hthree hfour
      rw [lead?_eq, if_neg hone]
      by_cases hlow : byte.toNat < 0xc2
      · rw [if_pos hlow]
      · iterate 8 rw [if_neg (by omega)]
    rw [readChar, hnone] at h
    cases h

/-! ## Whole texts -/

theorem pieces_encode (text : List Char) (position : Nat) :
    pieces position (encode text) = text.map .ok := by
  induction text generalizing position with
  | nil => rw [encode, flatMap_nil, pieces, map_nil]
  | cons c text ih =>
    have hencodes := encodes_utf8EncodeChar c
    rw [encode, flatMap_cons, ← encode]
    cases hbytes : String.utf8EncodeChar c with
    | nil =>
      rw [hbytes] at hencodes
      cases hencodes
    | cons byte tail =>
      rw [hbytes] at hencodes
      rw [cons_append, pieces, hencodes.readChar_eq]
      simp only [drop_left, ih, Char.ofNat_toNat, map_cons]

theorem encode_of_pieces {position : Nat} (h : pieces position bytes = text.map .ok) :
    bytes = encode text := by
  induction text generalizing bytes position with
  | nil =>
    cases bytes with
    | nil => rfl
    | cons byte bytes =>
      rw [pieces] at h
      split at h <;> cases h
  | cons c text ih =>
    cases bytes with
    | nil => simp [pieces] at h
    | cons byte bytes =>
      rw [pieces, map_cons] at h
      split at h
      · rename_i d taken hchar
        obtain ⟨hc, hrest⟩ := cons.inj h
        cases hc
        obtain ⟨tail, rest, n, rfl, rfl, rfl, hencodes⟩ := encodes_of_readChar hchar
        rw [drop_left] at hrest
        rw [encode, flatMap_cons, hencodes.utf8EncodeChar_eq, ← encode, ← ih hrest,
          cons_append]
      · cases (cons.inj h).1

/-- Bytes can be read as a text exactly if they are the bytes of the text. -/
theorem decode_eq_ok_iff : decode bytes = .ok text ↔ bytes = encode text := by
  constructor
  · intro h
    have hpieces : List.Forall₂ (· = ·) (pieces 0 bytes) (text.map .ok) :=
      forall₂_map_right_iff.2 (mapM_eq_ok_iff.1 h)
    rw [forall₂_eq_eq_eq] at hpieces
    exact encode_of_pieces hpieces
  · rintro rfl
    rw [decode, pieces_encode]
    exact mapM_map_eq_ok fun c _ => rfl

/-- Bytes are a text in one way, or in none. -/
theorem decode_cases (bytes : List UInt8) :
    (∃ text, bytes = encode text ∧ decode bytes = .ok text) ∨
    (∀ text, bytes ≠ encode text) ∧ ∃ e, decode bytes = .error e := by
  cases hdecode : decode bytes with
  | error e =>
    refine .inr ⟨fun text htext => ?_, e, rfl⟩
    rw [decode_eq_ok_iff.2 htext] at hdecode
    cases hdecode
  | ok text => exact .inl ⟨text, decode_eq_ok_iff.1 hdecode, rfl⟩

theorem encode_inj {other : List Char} : encode text = encode other ↔ text = other := by
  refine ⟨fun h => ?_, fun h => h ▸ rfl⟩
  have hother := decode_eq_ok_iff.2 h
  rw [decode_eq_ok_iff.2 rfl] at hother
  exact Except.ok.inj hother

end Deadwood.Text.Utf8
