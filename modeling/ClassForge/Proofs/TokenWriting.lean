import ClassForge.Proofs.PrintedExpressions

/-! Lexemes that are written out and scanned again. Between two of them stand white space and whole
comments; the scan gives the lexemes back in their order, each with its kind and its place. -/

namespace ClassForge

structure Lexeme where
  kind : TokenKind
  word : Bytes
  spelled : kind.Spelled word

/-- A piece of what stands between lexemes. -/
inductive Filler where
  | space (b : UInt8) (isSpace : Space.isSpaceByte b = true)
  | comment (text : Bytes) (onOneLine : 0x0a ∉ text)

def Filler.bytes : Filler → Bytes
  | space b _ => [b]
  | comment text _ => 0x23 :: text ++ [0x0a]

def fill (gap : List Filler) : Bytes :=
  gap.flatMap Filler.bytes

/-- A lexeme with what stands before it. -/
structure SpacedLexeme extends Lexeme where
  gap : List Filler

def written (items : List SpacedLexeme) : Bytes :=
  items.flatMap fun item => fill item.gap ++ item.word

theorem written_cons (item : SpacedLexeme) (items : List SpacedLexeme) :
    written (item :: items) = fill item.gap ++ item.word ++ written items :=
  List.flatMap_cons

/-- What follows the last newline. -/
def Bytes.lastLine (text : Bytes) : Bytes :=
  text.rtakeWhile (· != 0x0a)

/-- The token of a lexeme that stands behind a text. -/
def Lexeme.tokenBehind (l : Lexeme) (before : Bytes) : Token where
  kind := l.kind
  content := l.word
  line := before.count 0x0a + 1
  start := before.lastLine.length
  stop := before.lastLine.length + l.word.length

namespace Bytes

variable {word : Bytes}

theorem lastLine_append (before : Bytes) (h : 0x0a ∉ word) :
    (before ++ word).lastLine = before.lastLine ++ word := by
  induction word using List.reverseRecOn with
  | nil => simp
  | append_singleton word b ih =>
    rw [List.mem_append, not_or] at h
    have hb : b ≠ 0x0a := fun hb => h.2 (by simp [hb])
    have hstep : (before ++ word ++ [b]).lastLine = (before ++ word).lastLine ++ [b] :=
      List.rtakeWhile_concat_pos _ _ b (by simpa using hb)
    rw [← List.append_assoc, hstep, ih h.1, List.append_assoc]

theorem lastLine_newline (before : Bytes) : (before ++ [0x0a]).lastLine = [] :=
  List.rtakeWhile_concat_neg _ _ _ (by simp)

theorem count_append (before : Bytes) (h : 0x0a ∉ word) :
    (before ++ word).count 0x0a = before.count 0x0a := by
  rw [List.count_append, List.count_eq_zero_of_not_mem h, Nat.add_zero]

theorem splitOn_append (h : 0x0a ∉ word) (text : Bytes) :
    (word ++ text).splitOn 0x0a = (text.splitOn 0x0a).modifyHead (word ++ ·) := by
  induction word with
  | nil =>
    rw [List.nil_append]
    cases text.splitOn 0x0a <;> rfl
  | cons b word ih =>
    rw [List.mem_cons, not_or] at h
    rw [List.cons_append, List.splitOn_cons_eq_if_modifyHead, if_neg (by simpa using Ne.symm h.1),
      ih h.2, List.modifyHead_modifyHead]
    rfl

theorem splitOn_newline (text : Bytes) :
    (0x0a :: text).splitOn 0x0a = [] :: text.splitOn 0x0a := by
  rw [List.splitOn_cons_eq_if_modifyHead, if_pos (by simp)]

end Bytes

namespace Lexer

variable {before text word : Bytes} {found : List Token}

theorem breaks_of_space {b : UInt8} (hb : Space.isSpaceByte b = true) (text : Bytes) :
    Expr.Breaks (b :: text) := by
  intro c hc
  cases hc
  constructor
  · by_contra hword
    have hplain := (Bytes.plain_of_isWord (Bool.eq_true_of_not_eq_false hword)).1
    rw [hb] at hplain
    cases hplain
  · rintro rfl
    exact absurd hb (by decide)

theorem breaks_fill {gap : List Filler} (hgap : gap ≠ []) (text : Bytes) :
    Expr.Breaks (fill gap ++ text) := by
  cases gap with
  | nil => exact absurd rfl hgap
  | cons filler gap =>
    cases filler with
    | space b hb => exact breaks_of_space hb _
    | comment words hwords =>
      intro c hc
      cases (hc : some 0x23 = some c)
      exact ⟨by decide, by decide⟩

/-- What breaks a lexeme off still does so when only the rest of its line is looked at. -/
theorem breaks_of_splitOn {head : Bytes} {rest : List Bytes}
    (hlines : text.splitOn 0x0a = head :: rest) (h : Expr.Breaks text) : Expr.Breaks head := by
  cases text with
  | nil =>
    cases hlines
    exact h
  | cons b text =>
    by_cases hb : b = 0x0a
    · subst hb
      rw [Bytes.splitOn_newline] at hlines
      cases hlines
      simp [Expr.Breaks]
    · have hsplit : ([b] ++ text).splitOn 0x0a = (text.splitOn 0x0a).modifyHead ([b] ++ ·) :=
        Bytes.splitOn_append (by simpa using Ne.symm hb) text
      rw [List.singleton_append, hlines] at hsplit
      cases hrest : text.splitOn 0x0a with
      | nil => exact absurd hrest (List.splitOn_ne_nil _ _)
      | cons head' rest' =>
        rw [hrest] at hsplit
        cases hsplit
        exact h

/-- The lines of a text that stands behind another one are cut each. Its first line goes on with the
last line of the other. -/
def CutBehind (before text : Bytes) (found : List Token) : Prop :=
  ∃ head rest here below, text.splitOn 0x0a = head :: rest ∧ found = here ++ below ∧
    Segments (before.count 0x0a + 1) before.lastLine.length head here ∧
    Cut (before.count 0x0a + 2) rest below

theorem CutBehind.nil (before : Bytes) : CutBehind before [] [] :=
  ⟨[], [], [], [], rfl, rfl, .done _, rfl⟩

theorem CutBehind.newline (h : CutBehind (before ++ [0x0a]) text found) :
    CutBehind before (0x0a :: text) found := by
  obtain ⟨head, rest, here, below, hlines, rfl, hhere, hbelow⟩ := h
  have hcount : (before ++ [0x0a]).count 0x0a = before.count 0x0a + 1 := by
    rw [List.count_append, List.count_singleton_self]
  rw [hcount, Bytes.lastLine_newline] at hhere
  rw [hcount] at hbelow
  exact ⟨[], head :: rest, [], here ++ below, by rw [Bytes.splitOn_newline, hlines], rfl, .done _,
    here, below, rfl, hhere, hbelow⟩

theorem CutBehind.within (here : List Token) (hword : 0x0a ∉ word)
    (hsegments : ∀ head rest, text.splitOn 0x0a = head :: rest → ∀ found,
      Segments (before.count 0x0a + 1) (before.lastLine.length + word.length) head found →
      Segments (before.count 0x0a + 1) before.lastLine.length (word ++ head) (here ++ found))
    (h : CutBehind (before ++ word) text found) :
    CutBehind before (word ++ text) (here ++ found) := by
  obtain ⟨head, rest, here', below, hlines, rfl, hhere, hbelow⟩ := h
  rw [Bytes.count_append before hword, Bytes.lastLine_append before hword,
    List.length_append] at hhere
  rw [Bytes.count_append before hword] at hbelow
  refine ⟨word ++ head, rest, here ++ here', below, ?_, by simp, hsegments head rest hlines _ hhere,
    hbelow⟩
  rw [Bytes.splitOn_append hword, hlines]
  rfl

theorem CutBehind.space {b : UInt8} (hb : Space.isSpaceByte b = true)
    (h : CutBehind (before ++ [b]) text found) : CutBehind before (b :: text) found := by
  by_cases hnewline : b = 0x0a
  · subst hnewline
    exact h.newline
  · exact h.within [] (by simpa using Ne.symm hnewline) fun _ _ _ _ hrest =>
      .space hb hrest

theorem CutBehind.comment (hword : 0x0a ∉ word)
    (h : CutBehind (before ++ (0x23 :: word ++ [0x0a])) text found) :
    CutBehind before (0x23 :: word ++ [0x0a] ++ text) found := by
  have hhash : 0x0a ∉ (0x23 :: word : Bytes) := by simp [hword]
  rw [← List.append_assoc] at h
  -- Behind the comment the line is at its end, so nothing of it is left to cut.
  rw [List.append_assoc]
  refine h.newline.within [] hhash fun head rest hlines found hfound => ?_
  rw [List.singleton_append, Bytes.splitOn_newline] at hlines
  cases hlines
  cases hfound.eq_nil
  exact .comment _ _

theorem CutBehind.lexeme (l : Lexeme) (hbreaks : Expr.Breaks text)
    (h : CutBehind (before ++ l.word) text found) :
    CutBehind before (l.word ++ text) (l.tokenBehind before :: found) :=
  h.within [l.tokenBehind before] l.spelled.newline_not_mem
    fun _ _ hlines _ hrest =>
      .lexeme l.spelled ((breaks_of_splitOn hlines hbreaks).endsBefore l.kind) hrest

theorem CutBehind.fill (gap : List Filler)
    (h : CutBehind (before ++ ClassForge.fill gap) text found) :
    CutBehind before (ClassForge.fill gap ++ text) found := by
  induction gap generalizing before with
  | nil =>
    rw [show ClassForge.fill [] = [] from rfl, List.append_nil] at h
    exact h
  | cons filler gap ih =>
    rw [show ClassForge.fill (filler :: gap) = filler.bytes ++ ClassForge.fill gap from
      List.flatMap_cons] at h ⊢
    rw [← List.append_assoc] at h
    rw [List.append_assoc]
    have hrest := ih h
    cases filler with
    | space b hb => exact hrest.space hb
    | comment words hwords => exact hrest.comment hwords

theorem CutBehind.scan (h : CutBehind [] text found) : Token.scan text = .ok found := by
  obtain ⟨head, rest, here, below, hlines, rfl, hhere, hbelow⟩ := h
  have hcut : Cut 1 (text.splitOn 0x0a) (here ++ below) := by
    rw [hlines]
    exact ⟨here, below, rfl, hhere, hbelow⟩
  have hrun : tokenize text false #[] = .ok () (#[] ++ (here ++ below)) :=
    tokenize_eq_ok_iff.mpr ⟨_, rfl, hcut⟩
  simp [Token.scan, hrun]

theorem breaks_written {items : List SpacedLexeme} (hapart : ∀ item ∈ items, item.gap ≠ [])
    (trail : List Filler) : Expr.Breaks (written items ++ fill trail) := by
  cases items with
  | nil =>
    cases trail with
    | nil => simp [Expr.Breaks, written, fill]
    | cons filler trail => simpa [written] using breaks_fill (List.cons_ne_nil filler trail) []
  | cons item items =>
    rw [written_cons]
    simpa using breaks_fill (hapart item (by simp)) (item.word ++ written items ++ fill trail)

theorem cutBehind_written (before : Bytes) {items : List SpacedLexeme}
    (hapart : ∀ item ∈ items.tail, item.gap ≠ []) (trail : List Filler) :
    CutBehind before (written items ++ fill trail) (items.mapIdx fun n item =>
      item.tokenBehind (before ++ written (items.take n) ++ fill item.gap)) := by
  induction items generalizing before with
  | nil =>
    have hend : CutBehind before (fill trail ++ []) [] := .fill trail (.nil (before ++ fill trail))
    rwa [List.append_nil] at hend
  | cons item items ih =>
    rw [List.tail_cons] at hapart
    have hrest := ih (before ++ fill item.gap ++ item.word) fun next hnext =>
      hapart next (List.mem_of_mem_tail hnext)
    have hitem := CutBehind.fill item.gap (.lexeme item.toLexeme (breaks_written hapart trail) hrest)
    rw [written_cons, List.append_assoc, List.append_assoc, List.mapIdx_cons]
    simpa [written_cons, show written [] = [] from rfl] using hitem

end Lexer

/-- Lexemes that are written with something between every two of them are scanned in their order,
each with its kind, and on the line after the newlines before it. -/
theorem Token.scan_written (items : List SpacedLexeme)
    (hapart : ∀ item ∈ items.tail, item.gap ≠ []) (trail : List Filler) :
    Token.scan (written items ++ fill trail) = .ok (items.mapIdx fun n item =>
      item.tokenBehind (written (items.take n) ++ fill item.gap)) :=
  (Lexer.cutBehind_written [] hapart trail).scan

/-- Symbols that would be one without the byte between them, a text with a comment in it, and a name
with a comment right behind it. -/
def crowdedItems : List SpacedLexeme :=
  [⟨⟨.symbol .less, "<", rfl⟩, []⟩,
    ⟨⟨.symbol .greater, ">", rfl⟩, [.space 0x85 rfl]⟩,
    ⟨⟨.text, "\"#:\"", ⟨"#:", rfl, by decide, by decide⟩⟩, [.comment "<>" (by decide), .space 0x20 rfl]⟩,
    ⟨⟨.identifier, "END_1", ⟨rfl, rfl⟩⟩, [.space 0x0a rfl, .space 0x0a rfl]⟩,
    ⟨⟨.keyword .endBody, "END", rfl⟩, [.comment "\"" (by decide)]⟩]

theorem scan_written_crowdedItems :
    (∀ item ∈ crowdedItems.tail, item.gap ≠ []) ∧
      Token.scan (written crowdedItems ++ fill [.comment "" (by decide)]) = .ok
        [⟨.symbol .less, "<", 1, 0, 1⟩, ⟨.symbol .greater, ">", 1, 2, 3⟩,
          ⟨.text, "\"#:\"", 2, 1, 5⟩, ⟨.identifier, "END_1", 4, 0, 5⟩,
          ⟨.keyword .endBody, "END", 5, 0, 3⟩] := by
  have hapart : ∀ item ∈ crowdedItems.tail, item.gap ≠ [] := by simp [crowdedItems]
  exact ⟨hapart, Token.scan_written crowdedItems hapart _⟩

end ClassForge
