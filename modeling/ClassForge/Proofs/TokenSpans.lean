import ClassForge.Proofs.Lexemes

/-! The places of tokens in a source text. A scan that succeeds cuts every line into lexemes, white
space and at most one comment, and a text has only one list of tokens that account for it so. -/

namespace ClassForge

namespace TokenKind

variable {kind kind' : TokenKind} {word rest : Bytes}

theorem endsBefore_nil (kind : TokenKind) : kind.EndsBefore [] := by
  cases kind with
  | symbol s => cases s <;> simp [EndsBefore]
  | _ => simp [EndsBefore]

theorem endsBefore_append_newline :
    kind.EndsBefore (rest ++ [0x0a]) ↔ kind.EndsBefore rest := by
  cases rest with
  | nil =>
    refine iff_of_true ?_ kind.endsBefore_nil
    cases kind with
    | symbol s => cases s <;> simp [EndsBefore]
    | _ => simp [EndsBefore] <;> decide
  | cons b rest =>
    cases kind with
    | symbol s => cases s <;> rfl
    | _ => rfl

/-- A text is a lexeme of one kind only. -/
theorem Spelled.unique (h : kind.Spelled word) (h' : kind'.Spelled word) : kind = kind' := by
  obtain ⟨b, word, rfl, -⟩ := h.start
  have hfound : Lexer.lexeme b (word ++ []) = .ok (kind, word.length + 1) :=
    Lexer.lexeme_of_spelled h kind.endsBefore_nil
  have hfound' : Lexer.lexeme b (word ++ []) = .ok (kind', word.length + 1) :=
    Lexer.lexeme_of_spelled h' kind'.endsBefore_nil
  rw [hfound] at hfound'
  cases hfound'
  rfl

end TokenKind

namespace Lexer

variable {line position : Nat} {text : Bytes} {found : List Token}

/-- A line, from a position on, cut into lexemes, white space and at most one comment. -/
inductive Segments (line : Nat) : Nat → Bytes → List Token → Prop
  | done (position : Nat) : Segments line position [] []
  | space {position : Nat} {b : UInt8} {rest : Bytes} {found : List Token}
      (hb : Space.isSpaceByte b = true) (hrest : Segments line (position + 1) rest found) :
      Segments line position (b :: rest) found
  | comment (position : Nat) (rest : Bytes) : Segments line position (0x23 :: rest) []
  | lexeme {position : Nat} {kind : TokenKind} {word rest : Bytes} {found : List Token}
      (hword : kind.Spelled word) (hends : kind.EndsBefore rest)
      (hrest : Segments line (position + word.length) rest found) :
      Segments line position (word ++ rest) (.ofLexeme kind word line position :: found)

theorem Segments.scanLine (h : Segments line position text found) (held : Array Token) :
    Lexer.scanLine line position 0 text held = .ok () (held ++ found) := by
  induction h generalizing held with
  | done position =>
    rw [Array.appendList_nil]
    rfl
  | space hb _ ih => rw [scanLine_space hb, ih]
  | comment position rest =>
    rw [Array.appendList_nil]
    rfl
  | lexeme hword hends _ ih =>
    rw [scanLine_lexeme hword hends, ih, Array.appendList_cons]

theorem newline_not_mem_dropLast (before : Bytes) {after : Bytes}
    (h : 0x0a ∉ (before ++ after).dropLast) : 0x0a ∉ after.dropLast := by
  intro hmem
  have hne : after ≠ [] := by
    rintro rfl
    cases hmem
  rw [List.dropLast_append_of_ne_nil hne] at h
  exact h (List.mem_append_right before hmem)

theorem segments_of_scanLine {held tokens : Array Token} (hline : 0x0a ∉ text.dropLast)
    (h : scanLine line position 0 text held = .ok () tokens) :
    ∃ found : List Token, tokens = held ++ found ∧ Segments line position text found := by
  -- The scanner goes on behind each lexeme, so the induction is on the length of what is left.
  induction hn : text.length using Nat.strong_induction_on generalizing position text held with
  | h n ih =>
    subst hn
    cases text with
    | nil =>
      cases h
      exact ⟨[], Array.appendList_nil.symm, .done position⟩
    | cons b rest =>
      by_cases hspace : Space.isSpaceByte b = true
      · rw [scanLine_space hspace] at h
        have hrest : 0x0a ∉ rest.dropLast := newline_not_mem_dropLast [b] hline
        obtain ⟨found, rfl, hfound⟩ := ih rest.length (by simp) hrest h rfl
        exact ⟨found, rfl, .space hspace hfound⟩
      by_cases hhash : b = 0x23
      · subst hhash
        cases h
        exact ⟨[], Array.appendList_nil.symm, .comment position rest⟩
      rcases lexeme_cases b rest with
        ⟨kind, word, after, rfl, -, hspelled, hends⟩ | ⟨problem, hrefused, -⟩
      · rw [← List.cons_append, scanLine_lexeme (hspelled hline) hends] at h
        have hafter : 0x0a ∉ after.dropLast := newline_not_mem_dropLast (b :: word) hline
        obtain ⟨found, rfl, hfound⟩ := ih after.length (by simp) hafter h rfl
        exact ⟨_, Array.appendList_cons.symm, .lexeme (hspelled hline) hends hfound⟩
      · rw [scanLine, if_neg hspace, if_neg hhash, hrefused] at h
        cases h

theorem Segments.eq_nil (h : Segments line position [] found) : found = [] := by
  generalize hnil : ([] : Bytes) = rest at h
  cases h with
  | lexeme hword _ _ =>
    obtain ⟨b, word, rfl, -⟩ := hword.start
    cases hnil
  | done => rfl
  | comment => rfl
  | space => cases hnil

theorem segments_append_newline :
    Segments line position (text ++ [0x0a]) found ↔ Segments line position text found := by
  constructor
  · intro h
    generalize hwhole : text ++ [0x0a] = whole at h
    induction h generalizing text with
    | done position => simp at hwhole
    | space hb hrest ih =>
      cases text with
      | nil =>
        obtain ⟨rfl, rfl⟩ := List.cons.inj hwhole
        cases hrest.eq_nil
        exact .done _
      | cons c text =>
        obtain ⟨rfl, htext⟩ := List.cons.inj hwhole
        exact .space hb (ih htext)
    | comment position rest =>
      cases text with
      | nil => cases hwhole
      | cons c text =>
        obtain ⟨rfl, -⟩ := List.cons.inj hwhole
        exact .comment position text
    | @lexeme position kind word rest found hword hends hrest ih =>
      -- The newline is no part of the lexeme, so the lexeme ends before it.
      have hcut : ∃ after, text = word ++ after ∧ after ++ [0x0a] = rest := by
        rcases List.append_eq_append_iff.mp hwhole with
          ⟨after, hword', hrest'⟩ | ⟨after, htext, hrest'⟩
        · rcases List.append_eq_singleton_iff.mp hrest'.symm with ⟨rfl, rfl⟩ | ⟨rfl, rfl⟩
          · exact ⟨[], by simpa using hword'.symm, rfl⟩
          · exact absurd (by simp [hword']) hword.newline_not_mem
        · exact ⟨after, htext, hrest'.symm⟩
      obtain ⟨after, rfl, hafter⟩ := hcut
      rw [← hafter, TokenKind.endsBefore_append_newline] at hends
      exact .lexeme hword hends (ih hafter)
  · intro h
    induction h with
    | done position => exact .space (by decide) (.done _)
    | space hb _ ih => exact .space hb ih
    | comment position rest => exact .comment position (rest ++ [0x0a])
    | lexeme hword hends _ ih =>
      rw [List.append_assoc]
      exact .lexeme hword (TokenKind.endsBefore_append_newline.mpr hends) ih

/-- The lines of a text, from a line number on, cut each. -/
def Cut (first : Nat) : List Bytes → List Token → Prop
  | [], found => found = []
  | text :: rest, found => ∃ here below, found = here ++ below ∧ Segments first 0 text here ∧
      Cut (first + 1) rest below

theorem appendList_append (held : Array Token) (here below : List Token) :
    held ++ here ++ below = held ++ (here ++ below) := by
  apply Array.ext'
  simp

theorem scanLines_eq_ok_iff {first : Nat} {lines : List Bytes} {held tokens : Array Token}
    (hlines : ∀ text ∈ lines, 0x0a ∉ text.dropLast) :
    scanLines first lines held = .ok () tokens ↔
      ∃ found : List Token, tokens = held ++ found ∧ Cut first lines found := by
  induction lines generalizing first held with
  | nil =>
    constructor
    · intro h
      cases h
      exact ⟨[], Array.appendList_nil.symm, rfl⟩
    · rintro ⟨found, rfl, rfl⟩
      rw [Array.appendList_nil]
      rfl
  | cons text rest ih =>
    have hrest := fun text ht => hlines text (List.mem_cons_of_mem _ ht)
    constructor
    · intro h
      obtain ⟨_, tokens', hfirst, hothers⟩ := ok_of_bind_eq_ok h
      obtain ⟨here, rfl, hhere⟩ := segments_of_scanLine (hlines text List.mem_cons_self) hfirst
      obtain ⟨below, rfl, hbelow⟩ := (ih hrest).mp hothers
      exact ⟨here ++ below, appendList_append held here below, here, below, rfl, hhere, hbelow⟩
    · rintro ⟨_, rfl, here, below, rfl, hhere, hbelow⟩
      rw [scanLines, bind_eq_of_ok (hhere.scanLine held)]
      exact (ih hrest).mpr ⟨below, (appendList_append held here below).symm, hbelow⟩

/-- The lines of a text are what stands between its newlines. All but the last one are complete. -/
theorem splitFrom_eq (done : List Bytes) (current source : Bytes) (hcurrent : 0x0a ∉ current) :
    ∃ texts last, splitFrom done current source = (done.reverse ++ texts.map (· ++ [0x0a]), last) ∧
      (source.splitOn 0x0a).modifyHead (current.reverse ++ ·) = texts ++ [last] ∧
      ∀ text ∈ texts ++ [last], 0x0a ∉ text := by
  induction source generalizing done current with
  | nil => exact ⟨[], current.reverse, by simp [splitFrom], by simp, by simpa using hcurrent⟩
  | cons b source ih =>
    rw [splitFrom, List.splitOn_cons_eq_if_modifyHead]
    by_cases hb : b = 0x0a
    · subst hb
      obtain ⟨texts, last, hsplit, hlines, hfree⟩ :=
        ih ((0x0a :: current).reverse :: done) [] (by simp)
      rw [if_pos rfl, if_pos (by simp), hsplit]
      refine ⟨current.reverse :: texts, last, by simp, ?_, ?_⟩
      · have hlines : source.splitOn 0x0a = texts ++ [last] := by
          rw [← hlines]
          cases source.splitOn 0x0a <;> rfl
        simp [hlines]
      · simpa [hcurrent] using hfree
    · obtain ⟨texts, last, hsplit, hlines, hfree⟩ :=
        ih done (b :: current) (by simp [hcurrent, Ne.symm hb])
      rw [if_neg hb, if_neg (by simpa using hb), hsplit]
      refine ⟨texts, last, rfl, ?_, hfree⟩
      rw [← hlines, List.modifyHead_modifyHead]
      congr 1
      funext text
      simp

theorem cut_append_newline {first : Nat} {texts : List Bytes} {last : Bytes} :
    Cut first (texts.map (· ++ [0x0a]) ++ [last]) found ↔ Cut first (texts ++ [last]) found := by
  induction texts generalizing first found with
  | nil => rfl
  | cons text texts ih =>
    simp only [List.map_cons, List.cons_append, Cut, segments_append_newline, ih]

/-- Scanning a text cuts its lines. -/
theorem tokenize_eq_ok_iff {source : Bytes} {held tokens : Array Token} :
    tokenize source false held = .ok () tokens ↔
      ∃ found : List Token, tokens = held ++ found ∧ Cut 1 (source.splitOn 0x0a) found := by
  obtain ⟨texts, last, hsplit, hlines, hfree⟩ := splitFrom_eq [] [] source (by simp)
  have hlines : source.splitOn 0x0a = texts ++ [last] := by
    rw [← hlines]
    cases source.splitOn 0x0a <;> rfl
  have hnewline : ∀ text ∈ texts.map (· ++ [0x0a]) ++ [last], 0x0a ∉ text.dropLast := by
    intro text htext
    rcases List.mem_append.mp htext with htext | htext
    · obtain ⟨body, hbody, rfl⟩ := List.mem_map.mp htext
      rw [List.dropLast_concat]
      exact hfree body (List.mem_append_left _ hbody)
    · cases List.mem_singleton.mp htext
      exact fun hmem => hfree last (by simp) (List.mem_of_mem_dropLast hmem)
  have hrun : tokenize source false = scanLines 1 (texts.map (· ++ [0x0a]) ++ [last]) := by
    simp only [tokenize, splitLines, hsplit]
    rfl
  rw [hrun, scanLines_eq_ok_iff hnewline, hlines]
  simp only [cut_append_newline]

theorem scanLine_ne_badIdentifier {skip : Nat} {held tokens : Array Token} (near : Bytes)
    (n : Nat) : scanLine line position skip text held ≠
      .error (.lexeme near n .badIdentifier) tokens := by
  induction text generalizing position skip held with
  | nil =>
    intro h
    cases skip <;> cases h
  | cons b rest ih =>
    cases skip with
    | succ skip => exact ih
    | zero =>
      by_cases hspace : Space.isSpaceByte b = true
      · rw [scanLine_space hspace]
        exact ih
      rw [scanLine, if_neg hspace]
      by_cases hhash : b = 0x23
      · rw [if_pos hhash]
        intro h
        cases h
      rw [if_neg hhash]
      rcases lexeme_cases b rest with
        ⟨kind, word, after, -, hfound, -⟩ | ⟨problem, hrefused, hproblem⟩
      · rw [hfound]
        exact ih
      · rw [hrefused]
        intro h
        cases h
        exact hproblem rfl

theorem scanLines_ne_badIdentifier {first : Nat} {lines : List Bytes} {held tokens : Array Token}
    (near : Bytes) (n : Nat) :
    scanLines first lines held ≠ .error (.lexeme near n .badIdentifier) tokens := by
  induction lines generalizing first held with
  | nil =>
    intro h
    cases h
  | cons text rest ih =>
    intro h
    rcases error_of_bind_eq_error h with hfirst | ⟨_, tokens', -, hothers⟩
    · exact scanLine_ne_badIdentifier near n hfirst
    · exact ih hothers

theorem tokenize_ne_badIdentifier {source : Bytes} {isBroken : Bool} {held tokens : Array Token}
    (near : Bytes) (n : Nat) :
    tokenize source isBroken held ≠ .error (.lexeme near n .badIdentifier) tokens := by
  cases isBroken with
  | false => exact scanLines_ne_badIdentifier near n
  | true =>
    intro h
    rcases error_of_bind_eq_error h with hlines | ⟨_, tokens', -, hbroken⟩
    · exact scanLines_ne_badIdentifier near n hlines
    · cases hbroken

end Lexer

/-- The token is a part of the line, and what follows does not make it longer. -/
structure Token.StandsIn (t : Token) (text : Bytes) : Prop where
  nonempty : t.start < t.stop
  inside : t.stop ≤ text.length
  content : t.content = (text.take t.stop).drop t.start
  spelled : t.kind.Spelled t.content
  ends : t.kind.EndsBefore (text.drop t.stop)

/-- From a position on, the line holds the tokens one after another, and every byte outside of them
is white space or belongs to a comment behind the last one. -/
structure Covers (text : Bytes) (position : Nat) (tokens : List Token) : Prop where
  stands : ∀ t ∈ tokens, position ≤ t.start ∧ t.StandsIn text
  ordered : tokens.Pairwise fun t u => t.stop ≤ u.start
  covered : ∀ i b, position ≤ i → text[i]? = some b →
    (∃ t ∈ tokens, t.start ≤ i ∧ i < t.stop) ∨ Space.isSpaceByte b = true ∨
      ∃ j, position ≤ j ∧ j ≤ i ∧ text[j]? = some 0x23 ∧ ∀ t ∈ tokens, t.stop ≤ j

/-- The tokens of a text with the given lines, which are counted from `first` on. -/
structure Accounts (first : Nat) (lines : List Bytes) (tokens : List Token) : Prop where
  placed : ∀ t ∈ tokens, first ≤ t.line ∧ t.line < first + lines.length
  ordered : tokens.Pairwise fun t u => t.line ≤ u.line
  covers : ∀ n text, lines[n]? = some text → Covers text 0 (tokens.filter (·.line = first + n))

namespace Covers

variable {text : Bytes} {position : Nat} {t : Token} {tokens : List Token} {b : UInt8}

theorem eq_nil_of_stop_le (h : Covers text position tokens)
    (hstop : ∀ t ∈ tokens, t.stop ≤ position) : tokens = [] := by
  refine List.eq_nil_iff_forall_not_mem.mpr fun t ht => ?_
  obtain ⟨hstart, hstands⟩ := h.stands t ht
  have hnonempty := hstands.nonempty
  have hle := hstop t ht
  omega

theorem eq_nil_of_length_le (h : Covers text position tokens) (hlength : text.length ≤ position) :
    tokens = [] := by
  refine h.eq_nil_of_stop_le fun t ht => ?_
  have hinside := (h.stands t ht).2.inside
  omega

theorem head (h : Covers text position tokens) (ht : t ∈ tokens) (hstart : t.start = position) :
    ∃ others, tokens = t :: others := by
  cases tokens with
  | nil => cases ht
  | cons u others =>
    rcases List.mem_cons.mp ht with rfl | hothers
    · exact ⟨others, rfl⟩
    · have hbefore := (List.pairwise_cons.mp h.ordered).1 t hothers
      obtain ⟨hfirst, hstands⟩ := h.stands u List.mem_cons_self
      have hnonempty := hstands.nonempty
      omega

theorem space (hb : text[position]? = some b) (hspace : Space.isSpaceByte b = true)
    (h : Covers text (position + 1) tokens) : Covers text position tokens where
  stands := by
    intro t ht
    obtain ⟨hstart, hstands⟩ := h.stands t ht
    exact ⟨by omega, hstands⟩
  ordered := h.ordered
  covered := by
    intro i c hi hc
    by_cases hhere : i = position
    · subst hhere
      rw [hb] at hc
      cases hc
      exact .inr (.inl hspace)
    · rcases h.covered i c (by omega) hc with hin | hspace | ⟨j, hj, hji, hhash, hstop⟩
      · exact .inl hin
      · exact .inr (.inl hspace)
      · exact .inr (.inr ⟨j, by omega, hji, hhash, hstop⟩)

theorem of_space (hb : text[position]? = some b) (hspace : Space.isSpaceByte b = true)
    (hfree : ∀ t ∈ tokens, t.start ≠ position) (h : Covers text position tokens) :
    Covers text (position + 1) tokens where
  stands := by
    intro t ht
    obtain ⟨hstart, hstands⟩ := h.stands t ht
    have hne := hfree t ht
    exact ⟨by omega, hstands⟩
  ordered := h.ordered
  covered := by
    intro i c hi hc
    rcases h.covered i c (by omega) hc with hin | hspace' | ⟨j, hj, hji, hhash, hstop⟩
    · exact .inl hin
    · exact .inr (.inl hspace')
    · have hne : j ≠ position := by
        rintro rfl
        rw [hb] at hhash
        cases hhash
        exact absurd hspace (by decide)
      exact .inr (.inr ⟨j, by omega, hji, hhash, hstop⟩)

theorem comment (hb : text[position]? = some 0x23) : Covers text position [] where
  stands := by simp
  ordered := .nil
  covered := fun i _ hi _ => .inr (.inr ⟨position, le_rfl, hi, hb, by simp⟩)

theorem cons_iff (hstands : t.StandsIn text) :
    Covers text t.start (t :: tokens) ↔ Covers text t.stop tokens := by
  have hnonempty := hstands.nonempty
  constructor
  · intro h
    obtain ⟨hfirst, hothers⟩ := List.pairwise_cons.mp h.ordered
    refine ⟨?_, hothers, ?_⟩
    · intro u hu
      exact ⟨hfirst u hu, (h.stands u (List.mem_cons_of_mem t hu)).2⟩
    · intro i c hi hc
      rcases h.covered i c (by omega) hc with ⟨u, hu, hin⟩ | hspace | ⟨j, hj, hji, hhash, hstop⟩
      · rcases List.mem_cons.mp hu with rfl | hu
        · omega
        · exact .inl ⟨u, hu, hin⟩
      · exact .inr (.inl hspace)
      · obtain ⟨hhere, hbelow⟩ := List.forall_mem_cons.mp hstop
        exact .inr (.inr ⟨j, hhere, hji, hhash, hbelow⟩)
  · intro h
    refine ⟨?_, List.pairwise_cons.mpr ⟨fun u hu => (h.stands u hu).1, h.ordered⟩, ?_⟩
    · intro u hu
      rcases List.mem_cons.mp hu with rfl | hu
      · exact ⟨le_rfl, hstands⟩
      · obtain ⟨hstart, hin⟩ := h.stands u hu
        exact ⟨by omega, hin⟩
    · intro i c hi hc
      by_cases hin : i < t.stop
      · exact .inl ⟨t, List.mem_cons_self, hi, hin⟩
      · rcases h.covered i c (by omega) hc with ⟨u, hu, hin⟩ | hspace | ⟨j, hj, hji, hhash, hstop⟩
        · exact .inl ⟨u, List.mem_cons_of_mem t hu, hin⟩
        · exact .inr (.inl hspace)
        · exact .inr (.inr ⟨j, by omega, hji, hhash, List.forall_mem_cons.mpr ⟨hj, hstop⟩⟩)

end Covers

namespace Accounts

variable {first : Nat} {text : Bytes} {rest : List Bytes} {here below tokens : List Token}

theorem append (hcovers : Covers text 0 here) (hline : ∀ t ∈ here, t.line = first)
    (hbelow : Accounts (first + 1) rest below) : Accounts first (text :: rest) (here ++ below) where
  placed := by
    intro t ht
    rw [List.length_cons]
    rcases List.mem_append.mp ht with ht | ht
    · have heq := hline t ht
      omega
    · obtain ⟨hle, hlt⟩ := hbelow.placed t ht
      omega
  ordered := by
    have hsame : here.Pairwise fun t u => t.line ≤ u.line :=
      List.pairwise_of_forall_mem_list fun t ht u hu => by rw [hline t ht, hline u hu]
    refine List.pairwise_append.mpr ⟨hsame, hbelow.ordered, fun t ht u hu => ?_⟩
    have heq := hline t ht
    have hle := (hbelow.placed u hu).1
    omega
  covers := by
    intro n line hn
    rw [List.filter_append]
    cases n with
    | zero =>
      cases hn
      have hall : here.filter (·.line = first + 0) = here :=
        List.filter_eq_self.mpr fun t ht => by simp [hline t ht]
      have hnone : below.filter (·.line = first + 0) = [] := by
        refine List.filter_eq_nil_iff.mpr fun t ht => ?_
        have hle := (hbelow.placed t ht).1
        simp
        omega
      rwa [hall, hnone, List.append_nil]
    | succ n =>
      have hnone : here.filter (·.line = first + (n + 1)) = [] := by
        refine List.filter_eq_nil_iff.mpr fun t ht => ?_
        simp [hline t ht]
      rw [hnone, List.nil_append, Nat.add_comm n 1, ← Nat.add_assoc]
      exact hbelow.covers n line hn

theorem tail (h : Accounts first (text :: rest) tokens) :
    Accounts (first + 1) rest (tokens.filter (first < ·.line)) where
  placed := by
    intro t ht
    obtain ⟨ht, hlt⟩ := List.mem_filter.mp ht
    have hplaced := h.placed t ht
    have hlater : first < t.line := by simpa using hlt
    rw [List.length_cons] at hplaced
    omega
  ordered := h.ordered.filter _
  covers := by
    intro n line hn
    have hcovers := h.covers (n + 1) line hn
    have hsame : (tokens.filter (first < ·.line)).filter (·.line = first + 1 + n) =
        tokens.filter (·.line = first + (n + 1)) := by
      rw [List.filter_filter]
      congr 1
      funext t
      by_cases ht : t.line = first + (n + 1)
      · simp [ht]
        omega
      · have hne : t.line ≠ first + 1 + n := by omega
        simp [ht, hne]
    rwa [hsame]

theorem stands {lines : List Bytes} {t : Token} (h : Accounts first lines tokens)
    (ht : t ∈ tokens) : ∃ text ∈ lines, t.StandsIn text := by
  obtain ⟨hle, hlt⟩ := h.placed t ht
  obtain ⟨n, hn⟩ := Nat.exists_eq_add_of_le hle
  have hin : n < lines.length := by omega
  have hcovers := h.covers n lines[n] (List.getElem?_eq_getElem hin)
  have hmem : t ∈ tokens.filter (·.line = first + n) := by simp [ht, hn]
  exact ⟨lines[n], List.getElem_mem hin, (hcovers.stands t hmem).2⟩

end Accounts

theorem Token.standsIn_ofLexeme {kind : TokenKind} {before word rest : Bytes} (line : Nat)
    (hword : kind.Spelled word) (hends : kind.EndsBefore rest) :
    (Token.ofLexeme kind word line before.length).StandsIn (before ++ (word ++ rest)) := by
  obtain ⟨b, tail, rfl, -⟩ := hword.start
  refine ⟨?_, ?_, ?_, hword, ?_⟩
  · simp [Token.ofLexeme]
  · simp [Token.ofLexeme]
  · simp [Token.ofLexeme, List.take_append]
  · simpa [Token.ofLexeme, ← List.append_assoc] using hends

theorem Token.StandsIn.cut {t : Token} {before rest : Bytes} (h : t.StandsIn (before ++ rest))
    (hstart : t.start = before.length) :
    ∃ after, rest = t.content ++ after ∧ t.stop = before.length + t.content.length ∧
      t.kind.EndsBefore after ∧ t = .ofLexeme t.kind t.content t.line before.length := by
  have hnonempty := h.nonempty
  have hinside := h.inside
  rw [List.length_append] at hinside
  obtain ⟨n, hn⟩ : ∃ n, t.stop = before.length + n := ⟨t.stop - before.length, by omega⟩
  have hcontent : t.content = rest.take n := by
    rw [h.content, hn, hstart, List.take_length_add_append, List.drop_left]
  have hlength : t.content.length = n := by
    rw [hcontent, List.length_take]
    omega
  have hends := h.ends
  rw [hn, List.drop_length_add_append] at hends
  refine ⟨rest.drop n, ?_, by omega, hends, ?_⟩
  · rw [hcontent, List.take_append_drop]
  · rw [Token.ofLexeme, hlength, ← hn, ← hstart]

namespace Lexer

variable {line : Nat} {text : Bytes} {tokens : List Token}

theorem Segments.line_eq {position : Nat} (h : Segments line position text tokens) :
    ∀ t ∈ tokens, t.line = line := by
  induction h with
  | done position => simp
  | space _ _ ih => exact ih
  | comment position rest => simp
  | lexeme _ _ _ ih => exact List.forall_mem_cons.mpr ⟨rfl, ih⟩

theorem Segments.covers {before : Bytes} (h : Segments line before.length text tokens) :
    Covers (before ++ text) before.length tokens := by
  generalize hposition : before.length = position at h
  induction h generalizing before with
  | done position =>
    refine ⟨by simp, .nil, ?_⟩
    intro i b hi hb
    obtain ⟨hlt, -⟩ := List.getElem?_eq_some_iff.mp hb
    rw [List.append_nil] at hlt
    omega
  | @space position b rest found hspace _ ih =>
    subst hposition
    have hrest := @ih (before ++ [b]) (by simp)
    rw [List.append_assoc, List.singleton_append] at hrest
    exact hrest.space (by simp) hspace
  | comment position rest =>
    subst hposition
    exact .comment (by simp)
  | @lexeme position kind word rest found hword hends _ ih =>
    subst hposition
    have hrest := @ih (before ++ word) (by simp)
    rw [List.append_assoc] at hrest
    exact (Covers.cons_iff (Token.standsIn_ofLexeme line hword hends)).mpr hrest

theorem segments_of_covers {before rest : Bytes} {tokens : List Token}
    (h : Covers (before ++ rest) before.length tokens) (hline : ∀ t ∈ tokens, t.line = line) :
    Segments line before.length rest tokens := by
  induction hn : rest.length using Nat.strong_induction_on generalizing before rest tokens with
  | h n ih =>
    subst hn
    cases rest with
    | nil =>
      cases h.eq_nil_of_length_le (by simp)
      exact .done _
    | cons b rest =>
      -- A token that covers the first byte starts there, since none starts before.
      have hb : (before ++ b :: rest)[before.length]? = some b := by simp
      by_cases hhead : ∃ t ∈ tokens, t.start = before.length
      · obtain ⟨t, ht, hstart⟩ := hhead
        obtain ⟨others, rfl⟩ := h.head ht hstart
        obtain ⟨hhere, hothers⟩ := List.forall_mem_cons.mp hline
        have hstands := (h.stands t ht).2
        obtain ⟨after, hcut, hstop, hends, htoken⟩ := hstands.cut hstart
        rw [← hstart, Covers.cons_iff hstands, hcut, ← List.append_assoc, hstop,
          ← List.length_append] at h
        have hafter : after.length ≤ rest.length := by
          obtain ⟨c, tail, hcontent, -⟩ := hstands.spelled.start
          rw [hcontent] at hcut
          rw [(List.cons.inj hcut).2]
          simp
        have hrest := ih after.length (by simp; omega) h hothers rfl
        rw [List.length_append] at hrest
        rw [hcut, htoken, hhere]
        exact .lexeme hstands.spelled hends hrest
      · rcases h.covered before.length b le_rfl hb with
          ⟨t, ht, hle, -⟩ | hspace | ⟨j, hj, hji, hhash, hstop⟩
        · have hstart := (h.stands t ht).1
          exact absurd ⟨t, ht, by omega⟩ hhead
        · have hbelow := h.of_space hb hspace fun t ht hstart => hhead ⟨t, ht, hstart⟩
          have hlength : before.length + 1 = (before ++ [b]).length := by simp
          rw [← List.singleton_append, ← List.append_assoc, hlength] at hbelow
          have hrest := ih rest.length (by simp) hbelow hline rfl
          rw [← hlength] at hrest
          exact .space hspace hrest
        · cases Nat.le_antisymm hji hj
          rw [hb] at hhash
          cases hhash
          cases h.eq_nil_of_stop_le hstop
          exact .comment _ rest

theorem segments_iff_covers :
    Segments line 0 text tokens ↔ Covers text 0 tokens ∧ ∀ t ∈ tokens, t.line = line := by
  constructor
  · intro h
    exact ⟨@Segments.covers line text tokens [] h, h.line_eq⟩
  · rintro ⟨hcovers, hline⟩
    exact @segments_of_covers line [] text tokens hcovers hline

theorem filter_append_filter {first : Nat} (hfirst : ∀ t ∈ tokens, first ≤ t.line)
    (hordered : tokens.Pairwise fun t u => t.line ≤ u.line) :
    tokens.filter (·.line = first) ++ tokens.filter (first < ·.line) = tokens := by
  induction tokens with
  | nil => rfl
  | cons t tokens ih =>
    obtain ⟨hhere, hbelow⟩ := List.forall_mem_cons.mp hfirst
    obtain ⟨hnext, hothers⟩ := List.pairwise_cons.mp hordered
    by_cases ht : t.line = first
    · simp [ht, ih hbelow hothers]
    · have hlater : ∀ u ∈ t :: tokens, first < u.line := by
        intro u hu
        rcases List.mem_cons.mp hu with rfl | hu
        · omega
        · have hle := hnext u hu
          omega
      have hnone : (t :: tokens).filter (·.line = first) = [] := by
        refine List.filter_eq_nil_iff.mpr fun u hu => ?_
        have hlt := hlater u hu
        simp
        omega
      have hall : (t :: tokens).filter (first < ·.line) = t :: tokens :=
        List.filter_eq_self.mpr fun u hu => by simpa using hlater u hu
      rw [hnone, hall, List.nil_append]

theorem cut_iff_accounts {first : Nat} {lines : List Bytes} {tokens : List Token} :
    Cut first lines tokens ↔ Accounts first lines tokens := by
  induction lines generalizing first tokens with
  | nil =>
    constructor
    · intro h
      cases h
      exact ⟨by simp, .nil, by simp⟩
    · intro h
      refine List.eq_nil_iff_forall_not_mem.mpr fun t ht => ?_
      obtain ⟨hle, hlt⟩ := h.placed t ht
      rw [List.length_nil] at hlt
      omega
  | cons text rest ih =>
    constructor
    · rintro ⟨here, below, rfl, hhere, hbelow⟩
      obtain ⟨hcovers, hline⟩ := segments_iff_covers.mp hhere
      exact Accounts.append hcovers hline (ih.mp hbelow)
    · intro h
      refine ⟨tokens.filter (·.line = first), tokens.filter (first < ·.line), ?_, ?_, ?_⟩
      · exact (filter_append_filter (fun t ht => (h.placed t ht).1) h.ordered).symm
      · exact segments_iff_covers.mpr ⟨h.covers 0 text rfl, by simp⟩
      · exact ih.mpr h.tail

/-- A scan succeeds exactly on the texts that some tokens account for, and it adds these tokens to
those already held. A text has at most one such list. No word of a text is refused as a name. -/
theorem tokenize_accounts_for_source (source : Bytes) :
    (∀ held tokens, tokenize source false held = .ok () tokens ↔
      ∃ found : List Token, tokens = held ++ found ∧ Accounts 1 (source.splitOn 0x0a) found) ∧
    (∀ found found' : List Token, Accounts 1 (source.splitOn 0x0a) found →
      Accounts 1 (source.splitOn 0x0a) found' → found = found') ∧
    (∀ found : List Token, Accounts 1 (source.splitOn 0x0a) found →
      ∀ t ∈ found, ∀ k : Keyword, t.kind = .keyword k ↔ t.content = k.spelling) ∧
    ∀ isBroken held near n tokens, tokenize source isBroken held ≠
      .error (.lexeme near n .badIdentifier) tokens := by
  have hrun : ∀ held tokens, tokenize source false held = .ok () tokens ↔
      ∃ found : List Token, tokens = held ++ found ∧ Accounts 1 (source.splitOn 0x0a) found := by
    intro held tokens
    simp only [tokenize_eq_ok_iff, cut_iff_accounts]
  refine ⟨hrun, ?_, ?_, fun _ _ near n _ => tokenize_ne_badIdentifier near n⟩
  · intro found found' h h'
    have hfirst := (hrun #[] (#[] ++ found)).mpr ⟨found, rfl, h⟩
    have hsecond := (hrun #[] (#[] ++ found')).mpr ⟨found', rfl, h'⟩
    rw [hfirst] at hsecond
    simpa using hsecond
  · intro found h t ht k
    obtain ⟨text, -, hstands⟩ := h.stands ht
    have hspelled := hstands.spelled
    constructor
    · intro hkind
      rwa [hkind] at hspelled
    · intro hcontent
      have hkeyword : (TokenKind.keyword k).Spelled t.content := hcontent
      exact hspelled.unique hkeyword

end Lexer

/-- The tokens of a source text are spelled as their kinds are. -/
theorem Token.spelled_of_scan {source : Bytes} {tokens : List Token}
    (h : Token.scan source = .ok tokens) : ∀ t ∈ tokens, t.kind.Spelled t.content := by
  unfold Token.scan at h
  split at h
  · next found hrun =>
    cases h
    obtain ⟨found, rfl, hcut⟩ := Lexer.tokenize_eq_ok_iff.mp hrun
    intro t ht
    obtain ⟨text, -, hstands⟩ := (Lexer.cut_iff_accounts.mp hcut).stands (by simpa using ht)
    exact hstands.spelled
  · cases h

end ClassForge
