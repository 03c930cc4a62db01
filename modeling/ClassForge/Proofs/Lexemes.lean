import Mathlib
import ClassForge.Sequencing
import ClassForge.Source.Lexer

/-! How lexemes are spelled. The scanner finds a lexeme that stands where it looks, as long as what
follows does not make it longer, and all that it finds are lexemes. -/

namespace ClassForge

section Runs

variable {α : Type} {p : α → Bool} {xs ys : List α}

theorem takeWhile_append (hxs : xs.all p = true) (hys : ∀ y ∈ ys.head?, p y = false) :
    (xs ++ ys).takeWhile p = xs := by
  have hstop : ys.takeWhile p = [] := by
    cases ys with
    | nil => rfl
    | cons y ys => simp [hys y rfl]
  rw [List.takeWhile_append_of_pos (by simpa using hxs), hstop, List.append_nil]

theorem dropWhile_append (hxs : xs.all p = true) (hys : ∀ y ∈ ys.head?, p y = false) :
    (xs ++ ys).dropWhile p = ys := by
  have hsplit := List.takeWhile_append_dropWhile (p := p) (l := xs ++ ys)
  rw [takeWhile_append hxs hys] at hsplit
  exact List.append_cancel_left hsplit

theorem head?_dropWhile (p : α → Bool) (xs : List α) :
    ∀ x ∈ (xs.dropWhile p).head?, p x = false := by
  intro x hx
  have hstop := List.head?_dropWhile_not p xs
  rw [hx] at hstop
  simpa using hstop

end Runs

namespace Bytes

variable {b : UInt8} {word rest : Bytes}

theorem toNat_of_isDigit (h : isDigit b = true) : 48 ≤ b.toNat ∧ b.toNat ≤ 57 := by
  simpa [isDigit, UInt8.le_iff_toNat_le] using h

theorem toNat_of_isWordStart (h : isWordStart b = true) :
    65 ≤ b.toNat ∧ b.toNat ≤ 90 ∨ b.toNat = 95 ∨ 97 ≤ b.toNat ∧ b.toNat ≤ 122 := by
  simp only [isWordStart, isLetter, isUnderscore, Bool.or_eq_true, Bool.and_eq_true,
    decide_eq_true_eq, beq_iff_eq, UInt8.le_iff_toNat_le, ← UInt8.toNat_inj, UInt8.reduceToNat] at h
  omega

theorem isWord_of_isDigit (h : isDigit b = true) : isWord b = true := by
  simp [isWord, h]

theorem isWord_of_isWordStart (h : isWordStart b = true) : isWord b = true := by
  simp only [isWord, Bool.or_eq_true]
  exact .inl (by simpa [isWordStart] using h)

theorem not_isDigit_of_isWordStart (h : isWordStart b = true) : isDigit b = false := by
  have hstart := toNat_of_isWordStart h
  by_contra hdigit
  have hdigit := toNat_of_isDigit (Bool.eq_true_of_not_eq_false hdigit)
  omega

/-- A byte of a word is neither white space nor the start of a comment, a symbol or a text. -/
theorem plain_of_isWord (h : isWord b = true) : Space.isSpaceByte b = false ∧
    Symbol.ofByte? b = none ∧ b ≠ 0x22 ∧ b ≠ 0x23 ∧ b ≠ 0x3a ∧ b ≠ 0x3c := by
  have hrange : 48 ≤ b.toNat ∧ b.toNat ≤ 57 ∨ 65 ≤ b.toNat ∧ b.toNat ≤ 122 := by
    rcases Bool.or_eq_true_iff.mp h with hstart | hdigit
    · have hstart := toNat_of_isWordStart hstart
      omega
    · exact .inl (toNat_of_isDigit hdigit)
  refine ⟨?_, ?_, ?_, ?_, ?_, ?_⟩
  · simp only [Space.isSpaceByte, Bool.or_eq_false_iff, Bool.and_eq_false_iff,
      decide_eq_false_iff_not, beq_eq_false_iff_ne, UInt8.le_iff_toNat_le, ne_eq, ← UInt8.toNat_inj,
      UInt8.reduceToNat]
    omega
  · unfold Symbol.ofByte?
    split <;> first | omega | rfl
  all_goals
    rintro rfl
    simp at hrange

theorem idxOf?_eq_some_iff {text : Bytes} {i : Nat} : text.idxOf? b = some i ↔
    ∃ inner rest, text = inner ++ b :: rest ∧ b ∉ inner ∧ inner.length = i := by
  induction text generalizing i with
  | nil => simp
  | cons c text ih =>
    rw [List.idxOf?_cons]
    by_cases hc : c = b
    · subst hc
      simp only [beq_self_eq_true, if_true, Option.some.injEq]
      constructor
      · rintro rfl
        exact ⟨[], text, rfl, by simp, rfl⟩
      · rintro ⟨inner, rest, heq, hnot, rfl⟩
        cases inner with
        | nil => rfl
        | cons d inner =>
          have hd : c = d := (List.cons.inj heq).1
          exact absurd (by simp [hd]) hnot
    · simp only [beq_iff_eq, hc, if_false, Option.map_eq_some_iff, ih]
      constructor
      · rintro ⟨_, ⟨inner, rest, rfl, hnot, rfl⟩, rfl⟩
        exact ⟨c :: inner, rest, rfl, by simp [hnot, Ne.symm hc], rfl⟩
      · rintro ⟨inner, rest, heq, hnot, rfl⟩
        cases inner with
        | nil => exact absurd (List.cons.inj heq).1 hc
        | cons d inner =>
          have htext : text = inner ++ b :: rest := (List.cons.inj heq).2
          exact ⟨_, ⟨inner, rest, htext, fun hmem => hnot (by simp [hmem]), rfl⟩, rfl⟩

end Bytes

namespace Symbol

theorem spelling_of_ofByte? {b : UInt8} {s : Symbol} (h : ofByte? b = some s) :
    s.spelling = [b] := by
  unfold ofByte? at h
  split at h <;> cases h
  all_goals
    rename_i hb
    rw [← UInt8.ofNat_toNat (x := b), hb]
    rfl

theorem ne_less_of_ofByte? {b : UInt8} {s : Symbol} (h : ofByte? b = some s) : s ≠ less := by
  rintro rfl
  unfold ofByte? at h
  split at h <;> cases h

end Symbol

namespace TokenKind

/-- The text is a lexeme of the kind. -/
def Spelled : TokenKind → Bytes → Prop
  | keyword k, word => word = k.spelling
  | symbol s, word => word = s.spelling
  | number, word => word ≠ [] ∧ word.all Bytes.isDigit = true
  | text, word => ∃ inner, word = 0x22 :: inner ++ [0x22] ∧ 0x22 ∉ inner ∧ 0x0a ∉ inner
  | identifier, word => Bytes.isIdentifier word = true ∧ Keyword.ofWord? word = none

/-- What follows a lexeme of the kind does not make it longer. -/
def EndsBefore : TokenKind → Bytes → Prop
  | keyword _, rest | identifier, rest => ∀ b ∈ rest.head?, Bytes.isWord b = false
  | number, rest => ∀ b ∈ rest.head?, Bytes.isDigit b = false
  | symbol .less, rest => rest.head? ≠ some 0x3e
  | symbol _, _ | text, _ => True

theorem endsBefore_symbol {s : Symbol} {rest : Bytes} (h : s ≠ .less) :
    (symbol s).EndsBefore rest := by
  cases s with
  | less => exact absurd rfl h
  | _ => trivial

end TokenKind

namespace Lexer

open TokenKind

variable {b : UInt8} {word rest : Bytes} {kind : TokenKind}

theorem lexeme_of_isDigit (h : Bytes.isDigit b = true) :
    lexeme b rest = .ok (.number, (rest.takeWhile Bytes.isDigit).length + 1) := by
  obtain ⟨-, hsymbol, hquote, -, hcolon, hless⟩ := Bytes.plain_of_isWord (Bytes.isWord_of_isDigit h)
  simp only [lexeme, hsymbol, hless, hcolon, hquote, h, if_true, if_false]

theorem lexeme_of_isWordStart (h : Bytes.isWordStart b = true) :
    lexeme b rest = (wordKind (b :: rest.takeWhile Bytes.isWord)).map
      (·, (rest.takeWhile Bytes.isWord).length + 1) := by
  have hword := Bytes.isWord_of_isWordStart h
  obtain ⟨-, hsymbol, hquote, -, hcolon, hless⟩ := Bytes.plain_of_isWord hword
  simp only [lexeme, hsymbol, hless, hcolon, hquote, Bytes.not_isDigit_of_isWordStart h,
    List.takeWhile_cons, hword, if_true, if_false, Bool.false_eq_true, List.isEmpty_cons,
    List.length_cons]
  cases wordKind (b :: rest.takeWhile Bytes.isWord) <;> rfl

theorem lexeme_of_idxOf? {i : Nat} (h : rest.idxOf? 0x22 = some i) :
    lexeme 0x22 rest = .ok (.text, i + 2) := by
  simp [lexeme, Symbol.ofByte?, h]

theorem wordKind_spelling (k : Keyword) : wordKind k.spelling = .ok (.keyword k) := by
  cases k <;> rfl

theorem isIdentifier_spelling (k : Keyword) : Bytes.isIdentifier k.spelling = true := by
  cases k <;> decide

theorem spelled_of_wordKind (h : wordKind word = .ok kind) : kind.Spelled word := by
  simp only [wordKind] at h
  cases hk : Keyword.ofWord? word with
  | some k =>
    simp only [hk] at h
    cases h
    have hsame := List.find?_some (p := fun k : Keyword => k.spelling == word) hk
    exact (beq_iff_eq.mp hsame).symm
  | none =>
    simp only [hk] at h
    by_cases hid : Bytes.isIdentifier word
    · rw [if_pos hid] at h
      cases h
      exact ⟨hid, hk⟩
    · rw [if_neg hid] at h
      cases h

theorem wordKind_of_isIdentifier (h : Bytes.isIdentifier word = true) :
    ∃ kind, wordKind word = .ok kind := by
  unfold wordKind
  split
  · exact ⟨_, rfl⟩
  · exact ⟨_, if_pos h⟩

theorem endsBefore_of_wordKind (h : wordKind word = .ok kind)
    (hrest : ∀ b ∈ rest.head?, Bytes.isWord b = false) : kind.EndsBefore rest := by
  simp only [wordKind] at h
  split at h
  · cases h
    exact hrest
  · split at h
    · cases h
      exact hrest
    · cases h

theorem lexeme_of_wordKind (hid : Bytes.isIdentifier (b :: word) = true)
    (hkind : wordKind (b :: word) = .ok kind) (hrest : ∀ b ∈ rest.head?, Bytes.isWord b = false) :
    lexeme b (word ++ rest) = .ok (kind, word.length + 1) := by
  obtain ⟨hstart, hword⟩ := Bool.and_eq_true_iff.mp hid
  rw [lexeme_of_isWordStart hstart, takeWhile_append hword hrest, hkind]
  rfl

/-- The scanner finds a lexeme that what follows does not make longer. -/
theorem lexeme_of_spelled (h : kind.Spelled (b :: word)) (hrest : kind.EndsBefore rest) :
    lexeme b (word ++ rest) = .ok (kind, word.length + 1) := by
  cases kind with
  | keyword k =>
    have hid := isIdentifier_spelling k
    have hkind := wordKind_spelling k
    rw [← show b :: word = k.spelling from h] at hid hkind
    exact lexeme_of_wordKind hid hkind hrest
  | identifier =>
    obtain ⟨hid, hk⟩ := h
    exact lexeme_of_wordKind hid (by simp only [wordKind, hk, hid, if_true]) hrest
  | number =>
    have hdigits := h.2
    rw [List.all_cons, Bool.and_eq_true] at hdigits
    rw [lexeme_of_isDigit hdigits.1, takeWhile_append hdigits.2 hrest]
  | text =>
    obtain ⟨inner, heq, hquote, -⟩ := h
    rw [List.cons_append] at heq
    obtain ⟨rfl, rfl⟩ := List.cons.inj heq
    have hfound : (inner ++ [0x22] ++ rest).idxOf? 0x22 = some inner.length :=
      Bytes.idxOf?_eq_some_iff.mpr ⟨inner, rest, by simp, hquote, rfl⟩
    rw [lexeme_of_idxOf? hfound]
    simp
  | symbol s =>
    cases s with
    | less =>
      cases (h : b :: word = [0x3c])
      exact if_neg hrest
    | _ =>
      cases h
      rfl

theorem lexeme_cases (b : UInt8) (rest : Bytes) :
    (∃ kind word after, rest = word ++ after ∧ lexeme b rest = .ok (kind, word.length + 1) ∧
      (0x0a ∉ (b :: rest).dropLast → kind.Spelled (b :: word)) ∧ kind.EndsBefore after) ∨
    ∃ problem, lexeme b rest = .error (b :: rest, problem) ∧ problem ≠ .badIdentifier := by
  -- The tests of the scanner in their order: symbols of one byte, `<`, `:`, texts, numbers, words.
  cases hs : Symbol.ofByte? b with
  | some s =>
    have hspelled : (symbol s).Spelled [b] := (Symbol.spelling_of_ofByte? hs).symm
    exact .inl ⟨.symbol s, [], rest, rfl, by simp [lexeme, hs], fun _ => hspelled,
      endsBefore_symbol (Symbol.ne_less_of_ofByte? hs)⟩
  | none =>
    by_cases hless : b = 0x3c
    · subst hless
      by_cases hhead : rest.head? = some 0x3e
      · obtain ⟨after, rfl⟩ := List.head?_eq_some_iff.mp hhead
        exact .inl ⟨.symbol .unequal, [0x3e], after, rfl, rfl, fun _ => rfl, trivial⟩
      · exact .inl ⟨.symbol .less, [], rest, rfl, if_neg hhead, fun _ => rfl, hhead⟩
    by_cases hcolon : b = 0x3a
    · subst hcolon
      by_cases hhead : rest.head? = some 0x3d
      · obtain ⟨after, rfl⟩ := List.head?_eq_some_iff.mp hhead
        exact .inl ⟨.symbol .assign, [0x3d], after, rfl, rfl, fun _ => rfl, trivial⟩
      · exact .inr ⟨.expectedAssign, if_neg hhead, by decide⟩
    by_cases hquote : b = 0x22
    · subst hquote
      cases hi : rest.idxOf? 0x22 with
      | none => exact .inr ⟨.unterminatedText, by simp [lexeme, Symbol.ofByte?, hi], by decide⟩
      | some i =>
        have hfound := lexeme_of_idxOf? hi
        obtain ⟨inner, after, rfl, hinner, rfl⟩ := Bytes.idxOf?_eq_some_iff.mp hi
        refine .inl ⟨.text, inner ++ [0x22], after, by simp, by simpa using hfound, ?_, trivial⟩
        intro hline
        have hnewline : 0x0a ∉ inner := fun hmem => hline (by
          rw [List.dropLast_cons_of_ne_nil (by simp), List.dropLast_append_of_ne_nil (by simp)]
          simp [hmem])
        exact ⟨inner, rfl, hinner, hnewline⟩
    by_cases hdigit : Bytes.isDigit b = true
    · have hdigits : number.Spelled (b :: rest.takeWhile Bytes.isDigit) := by
        refine ⟨by simp, ?_⟩
        rw [List.all_cons, hdigit, Bool.true_and]
        exact List.all_takeWhile
      exact .inl ⟨.number, _, _, List.takeWhile_append_dropWhile.symm, lexeme_of_isDigit hdigit,
        fun _ => hdigits, head?_dropWhile Bytes.isDigit rest⟩
    by_cases hstart : Bytes.isWordStart b = true
    · have hid : Bytes.isIdentifier (b :: rest.takeWhile Bytes.isWord) = true := by
        rw [Bytes.isIdentifier, hstart, Bool.true_and]
        exact List.all_takeWhile
      obtain ⟨kind, hkind⟩ := wordKind_of_isIdentifier hid
      have hends : kind.EndsBefore (rest.dropWhile Bytes.isWord) :=
        endsBefore_of_wordKind hkind (head?_dropWhile Bytes.isWord rest)
      refine .inl ⟨kind, _, _, List.takeWhile_append_dropWhile.symm, ?_,
        fun _ => spelled_of_wordKind hkind, hends⟩
      rw [lexeme_of_isWordStart hstart, hkind]
      rfl
    · have hword : Bytes.isWord b = false := by
        simpa [Bytes.isWord, Bytes.isWordStart, hdigit] using hstart
      exact .inr ⟨.unexpectedCharacter,
        by simp [lexeme, hs, hless, hcolon, hquote, hdigit, hword], by decide⟩

theorem scanLine_skip (line position : Nat) (word rest : Bytes) :
    scanLine line position word.length (word ++ rest) =
      scanLine line (position + word.length) 0 rest := by
  induction word generalizing position with
  | nil => rfl
  | cons b word ih =>
    have hstep := ih (position + 1)
    rw [show position + 1 + word.length = position + (b :: word).length by
      simp only [List.length_cons]; omega] at hstep
    exact hstep

theorem scanLine_space (hb : Space.isSpaceByte b = true) (line position : Nat) :
    scanLine line position 0 (b :: rest) = scanLine line (position + 1) 0 rest :=
  if_pos hb

end Lexer

/-- A lexeme starts neither like white space nor like a comment. -/
theorem TokenKind.Spelled.start {kind : TokenKind} {word : Bytes} (h : kind.Spelled word) :
    ∃ b rest, word = b :: rest ∧ Space.isSpaceByte b = false ∧ b ≠ 0x23 := by
  have hplain {b : UInt8} (hb : Bytes.isWord b = true) :
      Space.isSpaceByte b = false ∧ b ≠ 0x23 := by
    obtain ⟨hspace, -, -, hhash, -⟩ := Bytes.plain_of_isWord hb
    exact ⟨hspace, hhash⟩
  have hword (hid : Bytes.isIdentifier word = true) :
      ∃ b rest, word = b :: rest ∧ Space.isSpaceByte b = false ∧ b ≠ 0x23 := by
    cases word with
    | nil => cases hid
    | cons b rest =>
      have hstart := (Bool.and_eq_true_iff.mp hid).1
      exact ⟨b, rest, rfl, hplain (Bytes.isWord_of_isWordStart hstart)⟩
  cases kind with
  | keyword k =>
    apply hword
    rw [show word = k.spelling from h]
    exact Lexer.isIdentifier_spelling k
  | identifier => exact hword h.1
  | number =>
    obtain ⟨hne, hdigits⟩ := h
    cases word with
    | nil => exact absurd rfl hne
    | cons b rest =>
      rw [List.all_cons, Bool.and_eq_true] at hdigits
      exact ⟨b, rest, rfl, hplain (Bytes.isWord_of_isDigit hdigits.1)⟩
  | text =>
    obtain ⟨inner, rfl, -⟩ := h
    exact ⟨_, _, rfl, by decide, by decide⟩
  | symbol s =>
    cases s <;> exact ⟨_, _, h, by decide, by decide⟩

theorem TokenKind.Spelled.newline_not_mem {kind : TokenKind} {word : Bytes}
    (h : kind.Spelled word) : 0x0a ∉ word := by
  have hword (hid : Bytes.isIdentifier word = true) : 0x0a ∉ word := by
    cases word with
    | nil => cases hid
    | cons b rest =>
      obtain ⟨hstart, hrest⟩ := Bool.and_eq_true_iff.mp hid
      intro hmem
      rcases List.mem_cons.mp hmem with rfl | hmem
      · exact absurd hstart (by decide)
      · exact absurd (List.all_eq_true.mp hrest _ hmem) (by decide)
  cases kind with
  | keyword k =>
    apply hword
    rw [show word = k.spelling from h]
    exact Lexer.isIdentifier_spelling k
  | identifier => exact hword h.1
  | number =>
    intro hmem
    exact absurd (List.all_eq_true.mp h.2 _ hmem) (by decide)
  | text =>
    obtain ⟨inner, rfl, -, hinner⟩ := h
    simp [hinner]
  | symbol s =>
    rw [show word = s.spelling from h]
    cases s <;> decide

/-- The token of a lexeme that starts at a position of a line. -/
def Token.ofLexeme (kind : TokenKind) (word : Bytes) (line position : Nat) : Token :=
  ⟨kind, word, line, position, position + word.length⟩

namespace Lexer

variable {b : UInt8} {word rest : Bytes} {kind : TokenKind}

/-- The scanner adds a lexeme where it stands and goes on behind it. -/
theorem scanLine_lexeme (h : kind.Spelled word) (hrest : kind.EndsBefore rest)
    (line position : Nat) (tokens : Array Token) :
    scanLine line position 0 (word ++ rest) tokens =
      scanLine line (position + word.length) 0 rest
        (tokens.push (.ofLexeme kind word line position)) := by
  obtain ⟨b, word, rfl, hspace, hhash⟩ := h.start
  have hfound := lexeme_of_spelled h hrest
  have htake : (b :: (word ++ rest)).take (word.length + 1) = b :: word := by simp
  rw [List.cons_append, scanLine, hspace, if_neg Bool.false_ne_true, if_neg hhash, hfound]
  simp only [htake]
  change scanLine line (position + 1) word.length (word ++ rest) _ = _
  rw [scanLine_skip, List.length_cons, Nat.add_right_comm, Nat.add_assoc]
  rfl

theorem splitFrom_of_newline_not_mem {done : List Bytes} {current source : Bytes}
    (h : 0x0a ∉ source) :
    splitFrom done current source = (done.reverse, current.reverse ++ source) := by
  induction source generalizing current with
  | nil => simp [splitFrom]
  | cons b source ih =>
    rw [List.mem_cons, not_or] at h
    rw [splitFrom, if_neg (Ne.symm h.1), ih h.2]
    simp

end Lexer

theorem Token.scan_of_newline_not_mem {source : Bytes} {tokens : Array Token}
    (h : 0x0a ∉ source) (hrun : Lexer.scanLine 1 0 0 source #[] = .ok () tokens) :
    Token.scan source = .ok tokens.toList := by
  have hsplit : Lexer.splitLines source = ([], source) := Lexer.splitFrom_of_newline_not_mem h
  have hlines : Lexer.scanLines 1 ([] ++ [source]) #[] = .ok () tokens := bind_eq_of_ok hrun _
  simp only [Token.scan, Lexer.tokenize, hsplit, Bool.false_eq_true, if_false, hlines]

end ClassForge
