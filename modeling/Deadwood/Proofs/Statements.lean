import Deadwood.Module.Parse
import Deadwood.Proofs.Entries
import Deadwood.Proofs.Masking
import Deadwood.Proofs.Scanning
import Mathlib.Data.Option.Basic

/-!
# Where statements stand

What a recogniser reads is a sequence of pieces of the text, one after the other. So a statement
that can be edited begins with the word `export` and ends behind it, in the shape and inside the
text (`Placed`), and each name in the list of an import, of a re-export or of local exports stands
between the braces of that list, as a token of the shape (`name_stands_of_mem_importsOf`).
-/

set_option autoImplicit false

namespace Deadwood.Module

open Text Reference
open List hiding Cursor

variable {here start next : Cursor}

/-! ## What the recognisers read -/

theorem spacedWord?_iff {word : String} : spacedWord? word here = some next ↔
    ∃ mid blanks, here.Spans word.toList mid ∧ blanks ≠ [] ∧ mid.Runs isBlank blanks next := by
  simp only [spacedWord?, bind, Option.bind_eq_some_iff, Cursor.expect?_iff, Cursor.skipSome?_iff]
  constructor
  · rintro ⟨mid, hword, blanks, hne, hruns⟩
    exact ⟨mid, blanks, hword, hne, hruns⟩
  · rintro ⟨mid, blanks, hword, hne, hruns⟩
    exact ⟨mid, hword, blanks, hne, hruns⟩

theorem overWords_of_spacedWord? {word : String} (h : spacedWord? word here = some next)
    (hword : word.toList.all Cursor.isWordText) : here.OverWords next := by
  obtain ⟨mid, blanks, hspans, -, hruns⟩ := spacedWord?_iff.1 h
  obtain ⟨-, rfl⟩ := hruns.eq
  exact (Cursor.overWords_of_expect? (Cursor.expect?_iff.2 hspans) hword).trans
    Cursor.overWords_skipBlanks

theorem typeWord_spans (here : Cursor) : ∃ piece, here.Spans piece (typeWord here).2 := by
  unfold typeWord
  split
  · rename_i next hnext
    obtain ⟨mid, blanks, hword, -, hruns⟩ := spacedWord?_iff.1 hnext
    exact ⟨_, hword.trans hruns.toSpans⟩
  · exact ⟨[], .refl here⟩

variable {literal : Literal} {inside front rest text clause : List Char} {head : Head}
  {statement : Reexport} {declaration : Declaration}

/-- What a literal is: two equal quotes around a body without any. -/
theorem literalOf?_spec {quotes barred : List Char}
    (h : literalOf? quotes barred here = some (literal, next)) :
    ∃ body, here.Spans (literal.quote :: body ++ [literal.quote]) next ∧
      literal.quote ∈ quotes ∧ literal.start = here.offset + 1 ∧
      literal.stop = here.offset + 1 + body.length ∧ ∀ c ∈ body, c ∉ quotes ∧ c ∉ barred := by
  simp only [literalOf?, bind, Option.bind_eq_some_iff, Option.guard_eq_some', exists_const,
    pure, Option.some.injEq, Prod.mk.injEq] at h
  obtain ⟨quote, hquote, hmem, hclose, rfl, rfl⟩ := h
  obtain ⟨rest, hrest⟩ := head?_eq_some_iff.1 hquote
  generalize hbody : (here.advance 1).skip (fun c => !quotes.contains c && !barred.contains c) =
    close at *
  have hruns := Cursor.skip_runs (fun c => !quotes.contains c && !barred.contains c)
    (here.advance 1)
  rw [hbody] at hruns
  generalize (here.advance 1).run (fun c => !quotes.contains c && !barred.contains c) =
    body at hruns
  have hopen : here.Spans [quote] (here.advance 1) := ⟨by simp [Cursor.advance, hrest], rfl⟩
  obtain ⟨tail, htail⟩ : ∃ tail, close.rest = quote :: tail := by
    cases hcs : close.rest with
    | nil => simp [Cursor.nextIs, hcs] at hclose
    | cons c tail =>
      obtain rfl : c = quote := by simpa [Cursor.nextIs, hcs] using hclose
      exact ⟨tail, rfl⟩
  have hend : close.Spans [quote] (close.advance 1) := ⟨by simp [Cursor.advance, htail], rfl⟩
  refine ⟨body, (hopen.trans hruns.toSpans).trans hend, by simpa using hmem, rfl, ?_, ?_⟩
  · rw [hruns.offset_eq]
    rfl
  · intro c hc
    simpa using hruns.all c hc

/-- What is read from `here` to `next` ends with the quote of a literal. -/
def EndsWith (literal : Literal) (here next : Cursor) : Prop :=
  ∃ piece, here.Spans (piece ++ [literal.quote]) next ∧
    (literal.quote = '\'' ∨ literal.quote = '"') ∧ next.offset = literal.stop + 1

theorem EndsWith.after {mid : Cursor} (h : EndsWith literal mid next)
    (hfront : here.Spans front mid) :
    EndsWith literal here next := by
  obtain ⟨piece, hpiece, hliteral⟩ := h
  exact ⟨front ++ piece, by simpa only [append_assoc] using hfront.trans hpiece, hliteral⟩

theorem literal?_spec (h : literal? here = some (literal, next)) : EndsWith literal here next := by
  obtain ⟨body, hspans, hquote, -, hstop, -⟩ := literalOf?_spec h
  refine ⟨_, hspans, by simpa using hquote, ?_⟩
  rw [hspans.offset_eq, hstop]
  simp only [length_append, length_cons, length_nil]
  omega

/-- Words are read, then blanks and a literal. The last word runs up to the blanks. -/
def DrawsFrom (literal : Literal) (here next : Cursor) : Prop :=
  ∃ words mid, here.Spans words mid ∧ (∀ c ∈ words, Cursor.isWordText c = true) ∧
    (∃ c, words.getLast? = some c ∧ isIdent c = true) ∧
    literal? (mid.skip isBlank) = some (literal, next)

theorem DrawsFrom.after {mid : Cursor} (h : DrawsFrom literal mid next)
    (hover : here.OverWords mid) :
    DrawsFrom literal here next := by
  obtain ⟨words, last, hspans, hwords, ⟨c, hc, hident⟩, hliteral⟩ := h
  obtain ⟨piece, hpiece, hall⟩ := hover
  refine ⟨piece ++ words, last, hpiece.trans hspans, fun d hd => ?_, ⟨c, ?_, hident⟩, hliteral⟩
  · exact (mem_append.1 hd).elim (hall d) (hwords d)
  · simp [getLast?_append, hc]

theorem DrawsFrom.endsWith (h : DrawsFrom literal here next) : EndsWith literal here next := by
  obtain ⟨words, mid, hspans, -, -, hliteral⟩ := h
  exact (literal?_spec hliteral).after (hspans.trans (Cursor.skip_runs isBlank mid).toSpans)

theorem drawsFrom_of_fromLiteral? (h : fromLiteral? here = some (literal, next)) :
    DrawsFrom literal here next := by
  simp only [fromLiteral?, bind, Option.bind_eq_some_iff, Cursor.expect?_iff] at h
  obtain ⟨mid, hword, hliteral⟩ := h
  have hdraws : DrawsFrom literal _ next :=
    ⟨_, mid, hword, all_eq_true.1 rfl, ⟨'m', rfl, by decide⟩, hliteral⟩
  exact hdraws.after Cursor.overWords_skipBlanks

/-- A list in braces holds no braces. -/
theorem braceList?_iff : braceList? here = some (inside, next) ↔
    here.Spans ('{' :: inside ++ ['}']) next ∧ '{' ∉ inside ∧ '}' ∉ inside := by
  simp only [braceList?, bind, Option.bind_eq_some_iff, Cursor.expect?_iff, pure,
    Option.some.injEq, Prod.mk.injEq]
  constructor
  · rintro ⟨opened, hopen, closed, hclose, rfl, rfl⟩
    have hruns := Cursor.skip_runs (fun c => c != '{' && c != '}') opened
    refine ⟨(hopen.trans hruns.toSpans).trans hclose, ?_, ?_⟩
    · intro hmem
      simpa using hruns.all _ hmem
    · intro hmem
      simpa using hruns.all _ hmem
  · rintro ⟨hspans, hopen, hclose⟩
    have hrest := hspans.rest_eq
    refine ⟨here.advance 1, ⟨by simp [Cursor.advance, hrest], rfl⟩, next, ?_⟩
    have hruns : (here.advance 1).Runs (fun c => c != '{' && c != '}') inside
        ((here.advance 1).advance inside.length) := by
      refine ⟨⟨?_, rfl⟩, ?_, ?_⟩
      · simp [Cursor.advance, hrest]
      · intro c hc
        have h1 : c ≠ '{' := fun h => hopen (h ▸ hc)
        have h2 : c ≠ '}' := fun h => hclose (h ▸ hc)
        simp [h1, h2]
      · simp [Cursor.advance, hrest]
    rw [hruns.eq.1, hruns.eq.2]
    refine ⟨⟨?_, ?_⟩, rfl, rfl⟩
    · simp [Cursor.advance, hrest]
    · simp [Cursor.advance, hspans.offset_eq]
      omega

/-- A passage with a name of its own: the literal follows the name, or the word `from` at its end.
-/
theorem drawsFrom_of_namedStar? {passage : PassageForm}
    (h : namedStar? here = some (passage, literal, next)) :
    (∀ inside, passage ≠ .listed inside) ∧ DrawsFrom literal here next := by
  simp only [namedStar?, bind, Option.bind_eq_some_iff, Option.guard_eq_some', exists_const] at h
  obtain ⟨mid, hword, hne, h⟩ := h
  have hover := overWords_of_spacedWord? hword (by decide)
  have hname := Cursor.skip_runs isIdent mid
  have hwords : ∀ c, isIdent c → Cursor.isWordText c := fun c hc => by simp [Cursor.isWordText, hc]
  split at h
  · rename_i literal' next' hfrom
    cases h
    exact ⟨by simp,
      (drawsFrom_of_fromLiteral? hfrom).after (hover.trans (Cursor.overWords_skip hwords))⟩
  · simp only [Option.bind_eq_some_iff, pure, Option.some.injEq, Prod.mk.injEq] at h
    obtain ⟨-, -, ⟨literal', next'⟩, hliteral, rfl, rfl, rfl⟩ := h
    have hne' : mid.run isIdent ≠ [] := by simpa using hne
    have hdraws : DrawsFrom literal' mid next' := ⟨_, _, hname.toSpans, fun c hc =>
      hwords c (hname.all c hc), ⟨_, getLast?_eq_some_getLast hne', hname.all _ (getLast_mem hne')⟩,
      hliteral⟩
    exact ⟨by simp, hdraws.after hover⟩

/-- How the passage of a re-export is read: a star or a list, and then the literal. -/
theorem passage?_cases {passage : PassageForm} (h : passage? here = some (passage, literal, next)) :
    (∃ star, here.expect? "*" = some star ∧ (∀ inside, passage ≠ .listed inside) ∧
      DrawsFrom literal star next) ∨
    ∃ inside mid, passage = .listed inside ∧ braceList? here = some (inside, mid) ∧
      fromLiteral? mid = some (literal, next) := by
  unfold passage? at h
  split at h
  · rename_i star hstar
    simp only [Option.orElse_eq_orElse, Option.orElse_eq_or, Option.or_eq_some_iff,
      Option.map_eq_some_iff, Prod.exists, Prod.mk.injEq] at h
    rcases h with h | ⟨-, literal', next', hfrom, rfl, rfl, rfl⟩
    · obtain ⟨hne, hdraws⟩ := drawsFrom_of_namedStar? h
      exact .inl ⟨star, hstar, hne, hdraws.after Cursor.overWords_skipBlanks⟩
    · exact .inl ⟨star, hstar, nofun,
        (drawsFrom_of_fromLiteral? hfrom).after Cursor.overWords_skipBlanks⟩
  · simp only [bind, Option.bind_eq_some_iff, pure, Option.some.injEq, Prod.mk.injEq] at h
    obtain ⟨⟨inside, mid⟩, hlist, ⟨literal', next'⟩, hfrom, rfl, rfl, rfl⟩ := h
    exact .inr ⟨inside, mid, rfl, hlist, hfrom⟩

/-- A re-export with a list: the list in braces, then the literal. -/
theorem passage?_listed (h : passage? here = some (.listed inside, literal, next)) :
    ∃ mid, braceList? here = some (inside, mid) ∧ fromLiteral? mid = some (literal, next) := by
  rcases passage?_cases h with ⟨star, -, hne, -⟩ | ⟨inside', mid, heq, hread⟩
  · exact absurd rfl (hne inside)
  · cases heq
    exact ⟨mid, hread⟩

/-- The part of a re-export after its first blanks ends with the quote of the literal. -/
theorem passage?_spans {passage : PassageForm} (h : passage? here = some (passage, literal, next)) :
    EndsWith literal here next := by
  rcases passage?_cases h with ⟨star, hstar, -, hdraws⟩ | ⟨inside, mid, -, hlist, hfrom⟩
  · exact hdraws.endsWith.after (Cursor.expect?_iff.1 hstar)
  · exact (drawsFrom_of_fromLiteral? hfrom).endsWith.after (braceList?_iff.1 hlist).1

/-- How a re-export is read. -/
theorem reexportForm?_cases {form : ReexportForm} (h : reexportForm? start = some (form, next)) :
    ∃ qualifier last, spacedWord? "export" start = some qualifier ∧
      passage? (typeWord qualifier).2 = some (form.passage, form.literal, last) ∧
      form.start = start.offset ∧ form.stop = next.offset ∧
      ((last.skip isLineBlank).expect? ";").getD (last.skip isLineBlank) = next := by
  simp only [reexportForm?, bind, Option.bind_eq_some_iff, pure, Option.some.injEq,
    Prod.mk.injEq] at h
  obtain ⟨qualifier, hword, ⟨passage, literal, last⟩, hpassage, rfl, hnext⟩ := h
  exact ⟨qualifier, last, hword, hpassage, rfl, congrArg Cursor.offset hnext, hnext⟩

/-- How a list of exports is read. -/
theorem localList?_cases {form? : Option ListForm} (h : localList? start = some (form?, next)) :
    ∃ qualifier inside, spacedWord? "export" start = some qualifier ∧
      braceList? (typeWord qualifier).2 = some (inside, next) ∧ ∀ form ∈ form?,
        form = ⟨start.offset, afterSemicolon next, (typeWord qualifier).1, inside⟩ := by
  simp only [localList?, bind, Option.bind_eq_some_iff] at h
  obtain ⟨qualifier, hword, ⟨inside, last⟩, hlist, h⟩ := h
  split at h
  · cases h
    exact ⟨qualifier, inside, hword, hlist, nofun⟩
  · cases h
    exact ⟨qualifier, inside, hword, hlist, fun form hform => (Option.some.inj hform).symm⟩

/-! ## Places

A statement is found where no longer name and no dot precedes it, and begins with the word `export`.
Where it ends, or where its first word ends, no name goes on. -/

/-- The span from `start` to `stop` of a shape holds the beginning of an export statement, up to a
place at which no name can go on. -/
structure Placed (masked : List Char) (start stop : Nat) : Prop where
  exists_split : ∃ front piece rest, masked = front ++ "export".toList ++ piece ++ rest ∧
    start = front.length ∧ stop = (front ++ "export".toList ++ piece).length ∧
    standsFree front.getLast? = true ∧ piece.getLast?.any isIdent = false ∧ piece ≠ [] ∧
    (piece.getLast? ≠ some ' ' ∨ rest.head? ≠ some ' ')

/-- The word `export` is read, and then a piece that ends where no name can go on. -/
structure ReadsUpTo (start stop : Cursor) : Prop where
  exists_piece : ∃ mid piece, start.Spans "export".toList mid ∧ mid.Spans piece stop ∧ piece ≠ [] ∧
    piece.getLast?.any isIdent = false ∧
    (piece.getLast? ≠ some ' ' ∨ stop.rest.head? ≠ some ' ')

/-- A piece may end with a character that is neither a space nor a part of a name. -/
theorem ReadsUpTo.of_concat {mid stop : Cursor} {piece : List Char} {c : Char}
    (hexport : start.Spans "export".toList mid) (hpiece : mid.Spans (piece ++ [c]) stop)
    (hc : isIdent c = false) (hspace : c ≠ ' ') : ReadsUpTo start stop :=
  ⟨mid, _, hexport, hpiece, by simp, by simpa using hc, .inl (by simpa using hspace)⟩

/-- A statement is placed if it is read at a free place. -/
theorem ReadsUpTo.placed {masked : List Char} {stop : Cursor}
    (h : ReadsUpTo ⟨front.length, rest⟩ stop) (hmasked : masked = front ++ rest)
    (hfree : standsFree front.getLast?) : Placed masked front.length stop.offset := by
  obtain ⟨mid, piece, hexport, hpiece, hne, hlast, hend⟩ := h.exists_piece
  have hall := hexport.trans hpiece
  have hrest : rest = "export".toList ++ piece ++ stop.rest := hall.rest_eq
  have hstop : stop.offset = front.length + ("export".toList ++ piece).length := hall.offset_eq
  refine ⟨front, piece, stop.rest, ?_, rfl, ?_, hfree, hlast, hne, hend⟩
  · rw [hmasked, hrest]
    simp only [append_assoc]
  · rw [hstop, append_assoc]
    exact length_append.symm

/-- What is read of a re-export. -/
theorem reexportForm?_spec {form : ReexportForm} (h : reexportForm? start = some (form, next)) :
    form.start = start.offset ∧ form.stop = next.offset ∧ form.literal.stop ≤ next.offset ∧
      ReadsUpTo start next := by
  obtain ⟨qualifier, last, hword, hpassage, hstart, hform, hnext⟩ := reexportForm?_cases h
  obtain ⟨mid, blanks, hexport, -, hruns⟩ := spacedWord?_iff.1 hword
  obtain ⟨typed, htyped⟩ := typeWord_spans qualifier
  obtain ⟨body, hbody, hquote, hstop⟩ := passage?_spans hpassage
  have hread := (hruns.toSpans.trans htyped).trans hbody
  have hidle := Cursor.skip_runs isLineBlank last
  have hskip := hidle.offset_eq
  -- the semicolon, or else the blanks before what follows on the line
  cases hsemi : (last.skip isLineBlank).expect? ";" with
  | some stop =>
    obtain rfl : stop = next := by simpa [hsemi] using hnext
    have hplace := (Cursor.expect?_iff.1 hsemi).offset_eq
    exact ⟨hstart, hform, by omega, .of_concat hexport
      ((hread.trans hidle.toSpans).trans (Cursor.expect?_iff.1 hsemi)) (by decide) (by decide)⟩
  | none =>
    obtain rfl : last.skip isLineBlank = next := by simpa [hsemi] using hnext
    refine ⟨hstart, hform, by omega, mid, _, hexport, hread.trans hidle.toSpans, by simp, ?_,
      .inr ?_⟩
    · cases hrun : last.run isLineBlank using reverseRecOn with
      | nil =>
        rcases hquote with hquote | hquote <;> simp [hquote] <;> decide
      | append_singleton front c =>
        have hc := hidle.all c (by simp [hrun])
        rw [← append_assoc, getLast?_append_cons]
        simpa using isIdent_of_isBlank (isBlank_of_isLineBlank hc)
    · intro hspace
      have hstops := hidle.stops
      rw [hspace] at hstops
      exact absurd hstops (by decide)

/-- What is read of a list of local exports. -/
theorem localList?_spec {form : ListForm} (h : localList? start = some (some form, next)) :
    form.start = start.offset ∧ ∃ stop, form.stop = stop.offset ∧ ReadsUpTo start stop := by
  obtain ⟨qualifier, inside, hword, hlist, hform⟩ := localList?_cases h
  obtain rfl := hform form rfl
  obtain ⟨mid, blanks, hexport, -, hruns⟩ := spacedWord?_iff.1 hword
  obtain ⟨typed, htyped⟩ := typeWord_spans qualifier
  have hread := (hruns.toSpans.trans htyped).trans (braceList?_iff.1 hlist).1
  refine ⟨rfl, _, rfl, ?_⟩
  cases hsemi : (next.skip isLineBlank).expect? ";" with
  | some stop =>
    have hall := (hread.trans (Cursor.skip_runs isLineBlank next).toSpans).trans
      (Cursor.expect?_iff.1 hsemi)
    exact .of_concat hexport hall (by decide) (by decide)
  | none =>
    rw [← append_assoc] at hread
    exact .of_concat hexport hread (by decide) (by decide)

/-- What is read of the head of a declaration: its first word and the blanks after it. -/
theorem head?_spec (h : head? start = some (head, next)) : head.start = start.offset ∧
      ∃ mid qualifier blanks, start.Spans "export".toList mid ∧
        mid.Runs isBlank blanks qualifier ∧ blanks ≠ [] ∧
        head.qualifierStop = qualifier.offset := by
  simp only [head?, bind, Option.bind_eq_some_iff, pure, Option.some.injEq, Prod.mk.injEq] at h
  obtain ⟨qualifier, hword, rfl, -⟩ := h
  obtain ⟨mid, blanks, hexport, hne, hruns⟩ := spacedWord?_iff.1 hword
  exact ⟨rfl, mid, qualifier, blanks, hexport, hruns, hne, rfl⟩

/-! ## Statements of a module -/

variable {source masked : List Char}

/-- A module is read off a text that has a shape. -/
theorem parse_eq_ok_iff {m : Module} : parse source = .ok m ↔ ∃ masked, shape source = .ok masked ∧
      m = ⟨importsOf source masked, reexportsOf source masked, localExportsOf masked,
        declarationsOf source masked, dynamicImportsOf source⟩ := by
  unfold parse
  cases shape source with
  | error e => simp [Except.map]
  | ok masked => simp [Except.map, eq_comm]

/-- A re-export is placed in the shape. -/
theorem placed_of_mem_reexportsOf (h : statement ∈ reexportsOf source masked) :
    Placed masked statement.start statement.stop := by
  obtain ⟨form, hform, rfl⟩ := mem_map.1 h
  obtain ⟨front, rest, next, hmasked, hfree, hread⟩ := mem_scan hform
  obtain ⟨hstart, hstop, -, hupTo⟩ := reexportForm?_spec hread
  have := hupTo.placed hmasked hfree
  rwa [← hstop, ← show form.start = front.length from hstart] at this

theorem placed_of_mem_localExportsOf {statement : LocalExports}
    (h : statement ∈ localExportsOf masked) : Placed masked statement.start statement.stop := by
  obtain ⟨form?, hform, hstatement⟩ := mem_filterMap.1 h
  obtain ⟨form, rfl, rfl⟩ := Option.map_eq_some_iff.1 hstatement
  obtain ⟨front, rest, next, hmasked, hfree, hread⟩ := mem_scan hform
  obtain ⟨hstart, stop, hstop, hupTo⟩ := localList?_spec hread
  have := hupTo.placed hmasked hfree
  rwa [← hstop, ← show form.start = front.length from hstart] at this

/-- The declarations of a head begin and are qualified as the head is. -/
theorem Head.mem_declarations (h : declaration ∈ head.declarations source masked) :
    declaration.start = head.start ∧ declaration.qualifierStop = head.qualifierStop := by
  unfold Head.declarations at h
  split at h
  · obtain rfl := mem_singleton.1 h
    exact ⟨rfl, rfl⟩
  · split at h
    · cases h
    · split at h
      · obtain ⟨name, -, rfl⟩ := mem_map.1 h
        exact ⟨rfl, rfl⟩
      · split at h
        · cases h
        · obtain rfl := mem_singleton.1 h
          exact ⟨rfl, rfl⟩

/-- The word `export` of a declaration, with the blanks after it, is placed in the shape. -/
theorem placed_of_mem_declarationsOf (h : declaration ∈ declarationsOf source masked) :
    Placed masked declaration.start declaration.qualifierStop := by
  obtain ⟨head, hhead, hmem⟩ := mem_flatMap.1 h
  obtain ⟨front, rest, next, hmasked, hfree, hread⟩ := mem_scan hhead
  obtain ⟨hstart, mid, qualifier, blanks, hexport, hruns, hne, hstop⟩ := head?_spec hread
  obtain ⟨hstart', hstop'⟩ := Head.mem_declarations hmem
  have hblank : ∀ c ∈ blanks.getLast?, isBlank c :=
    fun c hc => hruns.all c (mem_of_getLast? hc)
  have := ReadsUpTo.placed ⟨mid, blanks, hexport, hruns.toSpans, hne, ?_, .inr ?_⟩ hmasked hfree
  · rwa [← hstop, ← show head.start = front.length from hstart, ← hstart', ← hstop'] at this
  · rw [Option.any_eq_false]
    exact fun c hc => isIdent_of_isBlank (hblank c hc)
  · intro hspace
    have hstops := hruns.stops
    rw [hspace] at hstops
    exact absurd hstops (by decide)

/-! ## Names in statements -/

/-- What stands in a list in braces stands in every text around it. -/
theorem stands_of_braces {name : List Char} (h : Stands name inside)
    (hmasked : masked = front ++ '{' :: inside ++ '}' :: rest) : Stands name masked := by
  have hwide : Stands name (front ++ ['{'] ++ inside ++ '}' :: rest) :=
    h.widen (by rw [getLast?_concat]; rfl) rfl
  rw [hmasked]
  simpa using hwide

theorem stands_of_braceList? {name : List Char} (hlist : braceList? here = some (inside, next))
    (hmasked : masked = front ++ here.rest) (h : Stands name inside) : Stands name masked := by
  have hplace : masked = front ++ '{' :: inside ++ '}' :: next.rest := by
    rw [hmasked, (braceList?_iff.1 hlist).1.rest_eq]
    simp
  exact stands_of_braces h hplace

/-- The names of a list after the word `export` stand in the shape. -/
theorem stands_of_list {qualifier last : Cursor} (hmasked : masked = front ++ rest)
    (hword : spacedWord? "export" ⟨front.length, rest⟩ = some qualifier)
    (hlist : braceList? (typeWord qualifier).2 = some (inside, last)) {name : List Char}
    (hname : Stands name inside) : Stands name masked := by
  obtain ⟨mid, blanks, hexport, -, hruns⟩ := spacedWord?_iff.1 hword
  obtain ⟨typed, htyped⟩ := typeWord_spans qualifier
  have hrest : rest = _ := ((hexport.trans hruns.toSpans).trans htyped).rest_eq
  rw [hrest, ← append_assoc] at hmasked
  exact stands_of_braceList? hlist hmasked hname

/-- The list of a re-export stands in the shape. -/
theorem exists_inside_of_reexport (h : statement ∈ reexportsOf source masked) {list : List Entry}
    (hlist : statement.passage = .listed list) :
    ∃ inside, list = entries inside ∧ ∀ name, Stands name inside → Stands name masked := by
  obtain ⟨form, hform, rfl⟩ := mem_map.1 h
  obtain ⟨front, rest, next, hmasked, -, hread⟩ := mem_scan hform
  obtain ⟨qualifier, last, hword, hpassage, -⟩ := reexportForm?_cases hread
  cases hform' : form.passage with
  | everything | whole => simp [PassageForm.passage, hform'] at hlist
  | listed inside =>
    obtain ⟨mid, hbraces, -⟩ := passage?_listed (hform' ▸ hpassage)
    exact ⟨inside, by simpa [PassageForm.passage, hform'] using hlist.symm,
      fun name => stands_of_list hmasked hword hbraces⟩

theorem prefix_of_shortestClause? {offset : Nat}
    (h : shortestClause? offset text = some (clause, literal, next)) : clause <+: text := by
  induction text generalizing offset clause with
  | nil => simp [shortestClause?] at h
  | cons c cs ih =>
    rw [shortestClause?] at h
    split at h
    · split at h
      · cases h
        exact ⟨cs, rfl⟩
      · simp only [Option.map_eq_some_iff, Prod.exists, Prod.mk.injEq] at h
        obtain ⟨inner, literal', next', hinner, rfl, rfl, rfl⟩ := h
        exact cons_prefix_cons.2 ⟨rfl, ih hinner⟩
    · cases h

theorem infix_of_clauseAfterBlanks? (h : clauseAfterBlanks? here = some (clause, literal, next)) :
    clause <:+: here.rest := by
  have hdrop : ∀ n, shortestClause? (here.advance n).offset (here.advance n).rest =
      some (clause, literal, next) → clause <:+: here.rest := fun n hn =>
    (prefix_of_shortestClause? hn).isInfix.trans (drop_suffix n here.rest).isInfix
  simp only [clauseAfterBlanks?] at h
  split at h
  · cases h
  · simp only [Option.orElse_eq_orElse, Option.orElse_eq_or, Option.or_eq_some_iff] at h
    rcases h with h | ⟨-, h⟩
    · exact hdrop _ h
    · split at h
      · cases h
      · exact hdrop _ h

/-- The clause of an import stands in the shape. -/
theorem infix_of_importForm? {form : ImportForm} (h : importForm? start = some (form, next)) :
    form.clause <:+: start.rest := by
  have after : ∀ {piece clause : List Char} {mid : Cursor}, start.Spans piece mid →
      clause <:+: mid.rest → clause <:+: start.rest := by
    intro piece clause mid hspans hclause
    rw [hspans.rest_eq]
    exact hclause.trans (suffix_append _ _).isInfix
  simp only [importForm?, bind, Option.bind_eq_some_iff] at h
  obtain ⟨mid, hword, h⟩ := h
  rw [Cursor.expect?_iff] at hword
  split at h
  · rename_i clause literal next' htyped
    cases h
    simp only [Option.bind_eq_some_iff, Cursor.skipSome?_iff, Cursor.expect?_iff] at htyped
    obtain ⟨mid', ⟨blanks, -, hruns⟩, mid'', htype, hclause⟩ := htyped
    exact after ((hword.trans hruns.toSpans).trans htype) (infix_of_clauseAfterBlanks? hclause)
  · simp only [Option.bind_eq_some_iff, Prod.exists, pure, Option.some.injEq, Prod.mk.injEq] at h
    obtain ⟨clause, literal, next', hclause, rfl, -⟩ := h
    exact after hword (infix_of_clauseAfterBlanks? hclause)

theorem Clause.add_names (clause : Clause) (part : List Char) :
    (clause.add part).names = clause.names := by
  unfold Clause.add
  simp only
  split
  · rfl
  · split <;> rfl

/-- A text is cut at the first occurrence of a character. -/
theorem cutAt_char_iff {c : Char} {back : List Char} :
    cutAt [c] text = some (front, back) ↔ text = front ++ c :: back ∧ c ∉ front := by
  induction text generalizing front with
  | nil => simp [cutAt]
  | cons d text ih =>
    rw [cutAt]
    by_cases hd : d = c
    · subst hd
      cases front with
      | nil => simp [eq_comm]
      | cons e front =>
        simp only [isPrefixOf_cons_cons, beq_self_eq_true, isPrefixOf_nil_left, Bool.and_true,
          if_true, Option.some.injEq, Prod.mk.injEq, cons_append, cons.injEq, mem_cons,
          not_or, reduceCtorEq, false_and, false_iff, not_and, not_not]
        rintro ⟨rfl, -⟩ hne
        exact absurd rfl hne
    · have hbegin : [c].isPrefixOf (d :: text) = false := by
        simp [isPrefixOf_cons_cons, Ne.symm hd]
      rw [hbegin, if_neg Bool.false_ne_true, Option.map_eq_some_iff]
      constructor
      · rintro ⟨⟨head, tail⟩, hcut, heq⟩
        cases heq
        obtain ⟨rfl, hmem⟩ := ih.1 hcut
        exact ⟨rfl, by simp [hmem, Ne.symm hd]⟩
      · rintro ⟨htext, hmem⟩
        cases front with
        | nil => exact absurd (cons.inj htext).1 hd
        | cons e front =>
          obtain ⟨rfl, rfl⟩ := cons.inj htext
          exact ⟨(front, back), ih.2 ⟨rfl, fun h => hmem (mem_cons_of_mem _ h)⟩, rfl⟩

/-- A list is cut out at the first opening brace and the closing brace after it. -/
theorem cutBraces_iff {head : List Char} : cutBraces text = some (head, inside, rest) ↔
      text = head ++ '{' :: (inside ++ '}' :: rest) ∧ '{' ∉ head ∧ '}' ∉ inside := by
  simp only [cutBraces, bind, Option.bind_eq_some_iff, pure, Option.some.injEq, Prod.mk.injEq,
    Prod.exists, cutAt_char_iff]
  constructor
  · rintro ⟨_, _, ⟨rfl, hopen⟩, _, _, ⟨rfl, hclose⟩, rfl, rfl, rfl⟩
    exact ⟨rfl, hopen, hclose⟩
  · rintro ⟨rfl, hopen, hclose⟩
    exact ⟨_, _, ⟨rfl, hopen⟩, _, _, ⟨rfl, hclose⟩, rfl, rfl, rfl⟩

/-- The names that a clause binds by a list are those of the list between its first braces. -/
theorem exists_inside_of_clause {names : String × String} (h : names ∈ (clauseOf text).names) :
    ∃ front inside rest, text = front ++ '{' :: inside ++ '}' :: rest ∧
      ∃ entry ∈ entries inside, names = (entry.name, entry.exportedAs) := by
  have hfold : ∀ (parts : List (List Char)) (clause : Clause),
      (parts.foldl Clause.add clause).names = clause.names := by
    intro parts
    induction parts with
    | nil => exact fun clause => rfl
    | cons part parts ih =>
      intro clause
      rw [foldl_cons, ih, Clause.add_names]
  simp only [clauseOf, hfold] at h
  obtain ⟨entry, hentry, rfl⟩ := mem_map.1 h
  cases hcut : cutBraces text with
  | none =>
    have hnone : entries [] = [] := by decide +kernel
    simp [hcut, hnone] at hentry
  | some parts =>
    obtain ⟨front, inside, rest⟩ := parts
    rw [hcut] at hentry
    exact ⟨front, inside, rest, by simp [(cutBraces_iff.1 hcut).1], entry, hentry, rfl⟩

/-- A name that an import takes from a list stands in the shape. -/
theorem name_stands_of_mem_importsOf {statement : Import}
    (h : statement ∈ importsOf source masked) {clause : Clause}
    (hclause : statement.clause = some clause) {name : String × String} (hmem : name ∈ clause.names)
    (hname : isName name.1.toList) : Stands name.1.toList masked := by
  simp only [importsOf, mem_map, mem_mergeSort, mem_append] at h
  obtain ⟨placed, hform | hform, rfl⟩ := h
  · obtain ⟨form, hform, rfl⟩ := hform
    cases hclause
    obtain ⟨front, rest, next, hmasked, -, hread⟩ := mem_scan hform
    obtain ⟨before, after, hinfix⟩ := infix_of_importForm? hread
    obtain ⟨left, inside, right, htext, entry, hentry, rfl⟩ := exists_inside_of_clause hmem
    have hplace : masked = front ++ before ++ left ++ '{' :: inside ++ '}' :: (right ++ after) := by
      rw [hmasked, ← show before ++ form.clause ++ after = rest from hinfix, htext]
      simp
    exact stands_of_braces (name_stands_of_mem_entries hentry hname) hplace
  · obtain ⟨form, -, rfl⟩ := hform
    cases hclause

end Deadwood.Module
