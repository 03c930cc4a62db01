import ClassForge.Proofs.Lexemes
import ClassForge.Proofs.Meaning
import ClassForge.Proofs.TextRepair

/-! What reads take from the input. A line is cut off byte by byte and a number character by
character, from one cursor. Whatever reads follow one another, up to the first that fails, the
bytes that they take, those that the failed one has consumed and those that are left are the input. -/

namespace ClassForge

namespace Decimal

/-- The text is an optional sign and one or more digits, and stands for the number. -/
def Spells (s : Bytes) (n : Int) : Prop :=
  ∃ sign digits : Bytes, s = sign ++ digits ∧ sign ∈ ([[], "+", "-"] : List Bytes) ∧ digits ≠ [] ∧
    digits.all Bytes.isDigit = true ∧
    n = (if sign = ("-" : Bytes) then -1 else 1) *
      (Nat.ofDigits 10 (digits.map fun d => d.toNat - 0x30).reverse : Nat)

theorem value_eq_ofDigits (digits : Bytes) :
    value digits = Nat.ofDigits 10 (digits.map fun d => d.toNat - 0x30).reverse := by
  rw [Nat.ofDigits_eq_foldr, List.foldr_reverse, List.foldl_map, value]
  congr
  funext n d
  simp only [Nat.cast_id]
  omega

theorem parse?_eq_some_iff {s : Bytes} {n : Int} : parse? s = some n ↔ Spells s n := by
  constructor
  · intro h
    obtain ⟨sign, digits, rfl, hsign, hne, hdigits⟩ := parse?_eq_some h
    rw [parse?_sign_append hsign hne hdigits, Option.some.injEq] at h
    refine ⟨sign, digits, rfl, hsign, hne, hdigits, ?_⟩
    rw [← h, ← value_eq_ofDigits]
    split <;> simp
  · rintro ⟨sign, digits, rfl, hsign, hne, hdigits, rfl⟩
    rw [parse?_sign_append hsign hne hdigits, ← value_eq_ofDigits]
    split <;> simp

theorem parseInt32?_eq_some_iff {s : Bytes} {n : Int32} :
    parseInt32? s = some n ↔ Spells s n.toInt := by
  rw [← parse?_eq_some_iff]
  constructor
  · intro h
    simp only [parseInt32?] at h
    split at h
    · next k hk =>
      split at h
      · next hbound =>
        cases h
        rw [hk, Int32.toInt_ofInt_of_le (by simpa using hbound.1) (by simp; omega)]
      · cases h
    · cases h
  · intro h
    have hlo := n.le_toInt
    have hhi := n.toInt_lt
    simp only [parseInt32?, h]
    rw [if_pos (by omega), Int32.ofInt_toInt]

theorem Spells.ne_nil {s : Bytes} {n : Int} (h : Spells s n) : s ≠ [] := by
  obtain ⟨sign, digits, rfl, -, hne, -⟩ := h
  exact List.append_ne_nil_of_right_ne_nil sign hne

theorem Spells.cases_of_mem {s : Bytes} {n : Int} (h : Spells s n) {b : UInt8} (hb : b ∈ s) :
    Bytes.isDigit b = true ∨ b = 0x2b ∨ b = 0x2d := by
  obtain ⟨sign, digits, rfl, hsign, -, hdigits, -⟩ := h
  rcases List.mem_append.mp hb with hb | hb
  · simp only [List.mem_cons, List.not_mem_nil, or_false] at hsign
    rcases hsign with rfl | rfl | rfl
    · cases hb
    · exact .inr (.inl (List.mem_singleton.mp hb))
    · exact .inr (.inr (List.mem_singleton.mp hb))
  · exact .inl (List.all_eq_true.mp hdigits b hb)

theorem Spells.lt_of_mem {s : Bytes} {n : Int} (h : Spells s n) : ∀ b ∈ s, b < 0x80 := by
  intro b hb
  rcases h.cases_of_mem hb with hdigit | rfl | rfl
  · have hle := (Bytes.toNat_of_isDigit hdigit).2
    rw [UInt8.lt_iff_toNat_lt]
    exact Nat.lt_of_le_of_lt hle (by decide)
  · decide
  · decide

end Decimal

theorem Bytes.dropTail_append (s tail : Bytes) : dropTail tail (s ++ tail) = s := by
  have hsuffix : tail <:+ s ++ tail := List.suffix_append ..
  rw [dropTail, if_pos (List.isSuffixOf_iff_suffix.mpr hsuffix)]
  simp

theorem Bytes.dropTail_of_not_suffix {s tail : Bytes} (h : ¬ tail <:+ s) : dropTail tail s = s :=
  if_neg fun hsuffix => h (List.isSuffixOf_iff_suffix.mp hsuffix)

namespace Utf8

variable {s : Bytes} {ps qs : List Piece} {p : Piece}

def Piece.isSpace (p : Piece) : Bool :=
  Space.isSpaceChar p.char

def join (ps : List Piece) : Bytes :=
  ps.flatMap Piece.bytes

@[simp] theorem join_append : join (ps ++ qs) = join ps ++ join qs :=
  List.flatMap_append

theorem join_pieces (s : Bytes) : join (pieces s) = s :=
  flatMap_bytes_pieces s

theorem join_eq_nil_iff : join ps = [] ↔ ps = [] := by
  constructor
  · intro h
    cases ps with
    | nil => rfl
    | cons p ps =>
      have hp : p.bytes = [] := (List.append_eq_nil_iff.mp h).1
      cases p with
      | stray b => cases hp
      | scalar c =>
        obtain ⟨a, more, hbytes, -⟩ := found c
        cases hbytes.symm.trans hp
  · rintro rfl
    rfl

theorem pieces_join_tail (h : pieces s = p :: qs) : pieces (join qs) = qs := by
  induction s using text_induction with
  | nil => cases h
  | scalar c s _ =>
    rw [pieces_scalar] at h
    rw [← (List.cons.inj h).2, join_pieces]
  | stray b s hb _ =>
    rw [pieces_stray hb] at h
    rw [← (List.cons.inj h).2, join_pieces]

theorem pieces_join_suffix (h : pieces s = ps ++ qs) : pieces (join qs) = qs := by
  induction ps generalizing s with
  | nil =>
    rw [List.nil_append] at h
    rw [← h, join_pieces]
  | cons p ps ih => exact ih (pieces_join_tail h)

theorem le_of_stray_mem {b : UInt8} (h : .stray b ∈ pieces s) : ¬ b < 0x80 := by
  induction s using text_induction with
  | nil => cases h
  | scalar c s ih =>
    rw [pieces_scalar, List.mem_cons] at h
    exact ih (h.resolve_left (by simp))
  | stray b' s hb ih =>
    rw [pieces_stray hb, List.mem_cons] at h
    rcases h with h | h
    · cases h
      intro hlt
      obtain ⟨c, -, hc⟩ := first?_ascii hlt s
      exact hb c ⟨s, by rw [hc]; rfl⟩
    · exact ih h

/-- The text of the characters of pieces is the text itself if one of both is ASCII. -/
theorem encode_map_char (hps : ∀ p ∈ ps, p ∈ pieces s)
    (h : (∀ b ∈ join ps, b < 0x80) ∨ ∀ b ∈ encode (ps.map Piece.char), b < 0x80) :
    encode (ps.map Piece.char) = join ps := by
  rw [encode, List.flatMap_map, join]
  refine List.flatMap_congr fun p hp => ?_
  cases p with
  | scalar c => rfl
  | stray b =>
    exfalso
    rcases h with h | h
    · have hmem : b ∈ join ps := List.mem_flatMap.mpr ⟨_, hp, List.mem_singleton_self b⟩
      exact le_of_stray_mem (hps _ hp) (h b hmem)
    -- A stray byte turns into the replacement character, whose bytes are not ASCII.
    · have hmem : (0xef : UInt8) ∈ encode (ps.map Piece.char) :=
        List.mem_flatMap.mpr ⟨replacement, List.mem_map.mpr ⟨_, hp, rfl⟩, by decide⟩
      exact absurd (h _ hmem) (by decide)

end Utf8

/-- What reads one after another give, what stopped them before the last, and what they leave. -/
structure ReadReport where
  items : List Datum := []
  error : Option InputError := none
  input : Input
deriving DecidableEq, Repr

namespace Input

open Utf8 (Piece pieces join)

theorem span_skip (take : Char → Bool) (taken : List Char) (word rest : Bytes) :
    span take taken word.length (word ++ rest) = span take taken 0 rest := by
  induction word with
  | nil => rfl
  | cons b word ih => exact ih

theorem span_piece {take : Char → Bool} {s : Bytes} {p : Piece} {ps : List Piece}
    (h : pieces s = p :: ps) (taken : List Char) :
    span take taken 0 s =
      if take p.char then span take (p.char :: taken) 0 (join ps) else (taken.reverse, s) := by
  induction s using Utf8.text_induction with
  | nil => cases h
  | scalar c s _ =>
    rw [Utf8.pieces_scalar] at h
    obtain ⟨rfl, rfl⟩ := List.cons.inj h
    obtain ⟨a, more, hbytes, hfirst⟩ := Utf8.found c
    have hchar : firstChar a (more ++ s) = (c, more.length + 1) := by
      simp only [firstChar, hfirst s]
    rw [hbytes, List.cons_append, span, hchar, Utf8.join_pieces]
    simp only [Nat.add_sub_cancel, span_skip]
    rfl
  | stray b s hb _ =>
    rw [Utf8.pieces_stray hb] at h
    obtain ⟨rfl, rfl⟩ := List.cons.inj h
    have hchar : firstChar b s = (Utf8.replacement, 1) := by
      simp only [firstChar, Utf8.first?_stray hb]
    rw [span, hchar, Utf8.join_pieces]
    rfl

/-- A run of characters goes as far as the first piece that is not taken. -/
theorem span_eq (take : Char → Bool) (taken : List Char) (s : Bytes) :
    span take taken 0 s =
      (taken.reverse ++ ((pieces s).takeWhile (take ·.char)).map Piece.char,
        join ((pieces s).dropWhile (take ·.char))) := by
  generalize hps : pieces s = ps
  induction ps generalizing s taken with
  | nil =>
    have hs : s = [] := by
      rw [← Utf8.join_pieces s, hps]
      rfl
    simp [hs, span, join]
  | cons p ps ih =>
    rw [span_piece hps]
    by_cases hp : take p.char = true
    · rw [if_pos hp, ih _ _ (Utf8.pieces_join_tail hps)]
      simp [hp]
    · have hs := Utf8.join_pieces s
      rw [hps] at hs
      rw [if_neg hp]
      simp [hp, hs]

theorem span_of_pieces {take : Char → Bool} {s : Bytes} {ps qs : List Piece}
    (hs : pieces s = ps ++ qs) (hps : ∀ p ∈ ps, take p.char = true)
    (hqs : ∀ q ∈ qs.head?, take q.char = false) :
    span take [] 0 s = (ps.map Piece.char, join qs) := by
  have hall : ps.all (take ·.char) = true := List.all_eq_true.mpr hps
  rw [span_eq, hs, takeWhile_append hall hqs, dropWhile_append hall hqs]
  rfl

/-- An unread text, cut before and behind its first token. White space and token are as long as they
can be. -/
structure Cut (s : Bytes) (blanks token after : List Piece) : Prop where
  pieces : pieces s = blanks ++ token ++ after
  blank : ∀ p ∈ blanks, p.isSpace = true
  solid : ∀ p ∈ token, p.isSpace = false
  token_ne_nil : after ≠ [] → token ≠ []
  delimited : ∀ p ∈ after.head?, p.isSpace = true

variable {s : Bytes} {blanks token after : List Piece}

theorem exists_cut (s : Bytes) : ∃ blanks token after, Cut s blanks token after := by
  let rest := (Utf8.pieces s).dropWhile Piece.isSpace
  have hrest : ∀ p ∈ rest.head?, p.isSpace = false := head?_dropWhile Piece.isSpace (Utf8.pieces s)
  refine ⟨(Utf8.pieces s).takeWhile Piece.isSpace, rest.takeWhile (!·.isSpace),
    rest.dropWhile (!·.isSpace), ?_, fun p hp => ?_, fun p hp => ?_, fun hafter htoken => ?_,
    fun p hp => ?_⟩
  · rw [List.append_assoc, List.takeWhile_append_dropWhile, List.takeWhile_append_dropWhile]
  · exact List.mem_takeWhile_imp hp
  · simpa using List.mem_takeWhile_imp hp
  · cases hq : rest with
    | nil => simp [hq] at hafter
    | cons q qs =>
      rw [hq, List.takeWhile_cons_of_pos (by simp [hrest q (by simp [hq])])] at htoken
      cases htoken
  · simpa using head?_dropWhile (!·.isSpace) rest p hp

theorem Cut.text (h : Cut s blanks token after) : s = join blanks ++ join token ++ join after := by
  rw [← Utf8.join_append, ← Utf8.join_append, ← h.pieces, Utf8.join_pieces]

theorem Cut.after_eq_nil (h : Cut s blanks [] after) : after = [] := by
  by_contra hafter
  exact h.token_ne_nil hafter rfl

theorem Cut.head?_token (h : Cut s blanks token after) :
    ∀ p ∈ (token ++ after).head?, p.isSpace = false := by
  intro p hp
  cases token with
  | nil =>
    rw [h.after_eq_nil] at hp
    cases hp
  | cons q token =>
    cases hp
    exact h.solid p (by simp)

theorem Cut.token_eq (h : Cut s blanks token after) : Input.token ⟨s, false⟩ =
    if token = [] then .error .noToken ⟨[], false⟩
    else .ok (Utf8.encode (token.map Piece.char)) ⟨join after, false⟩ := by
  have hpieces : Utf8.pieces s = blanks ++ (token ++ after) := by
    rw [h.pieces, List.append_assoc]
  have hblanks : span Space.isSpaceChar [] 0 s =
      (blanks.map Piece.char, join (token ++ after)) :=
    span_of_pieces hpieces h.blank h.head?_token
  have htoken : span (!Space.isSpaceChar ·) [] 0 (join (token ++ after)) =
      (token.map Piece.char, join after) :=
    span_of_pieces (Utf8.pieces_join_suffix hpieces)
      (fun p hp => congrArg (!·) (h.solid p hp)) fun p hp => congrArg (!·) (h.delimited p hp)
  have hempty : join (token ++ after) = [] ↔ token = [] := by
    rw [Utf8.join_eq_nil_iff, List.append_eq_nil_iff]
    have := h.token_ne_nil
    tauto
  simp only [Input.token, hblanks, htoken, List.isEmpty_iff, hempty]
  split
  · next hnil =>
    rw [hempty.mpr hnil]
    rfl
  · simp

theorem Cut.parseInt32?_token (h : Cut s blanks token after) :
    Decimal.parseInt32? (Utf8.encode (token.map Piece.char)) =
      Decimal.parseInt32? (join token) := by
  have hmem : ∀ p ∈ token, p ∈ Utf8.pieces s := by
    intro p hp
    simp [h.pieces, hp]
  apply Option.ext
  intro n
  simp only [Decimal.parseInt32?_eq_some_iff]
  -- A text that spells a number is ASCII, and then decoding keeps its bytes.
  constructor
  · intro hn
    rwa [← Utf8.encode_map_char hmem (.inr hn.lt_of_mem)]
  · intro hn
    rwa [Utf8.encode_map_char hmem (.inl hn.lt_of_mem)]

theorem Cut.nextInt_eq (h : Cut s blanks token after) : nextInt ⟨s, false⟩ =
    if token = [] then .error .noToken ⟨[], false⟩
    else (Decimal.parseInt32? (join token)).elim
      (.error (.mismatch (Utf8.encode (token.map Piece.char))) ⟨join after, false⟩) fun n =>
      .ok n ⟨join after, false⟩ := by
  have htoken := h.token_eq
  by_cases hne : token = []
  · rw [if_pos hne] at htoken ⊢
    exact bind_eq_of_error htoken _
  · rw [if_neg hne] at htoken ⊢
    refine (bind_eq_of_ok htoken _).trans ?_
    rw [h.parseInt32?_token]
    cases Decimal.parseInt32? (join token) <;> rfl

/-- The text is the rest of a line without a carriage return at its end. -/
def Trimmed (body text : Bytes) : Prop :=
  body = text ++ "\r" ∨ body = text ∧ ¬ ("\r" : Bytes) <:+ body

/-- What a read takes from an unread text in front of what it leaves, and what it gives. -/
inductive Takes : VarType → Bytes → Datum → Bytes → Prop
  | number {s : Bytes} {blanks token after : List Piece} {n : Int32}
      (hcut : Cut s blanks token after) (hn : Decimal.Spells (join token) n.toInt) :
      Takes .integer (join blanks ++ join token) (.number n) (join after)
  | line {body text unread : Bytes} (hbody : 0x0a ∉ body) (htext : Trimmed body text) :
      Takes .text (body ++ "\n") (.text text) unread
  | lastLine {body text : Bytes} (hbody : 0x0a ∉ body) (hne : body ≠ [])
      (htext : Trimmed body text) : Takes .text body (.text text) []

/-- What a read that fails has consumed of an unread text in front of what it leaves, and how it
fails. -/
inductive Refuses : VarType → Bytes → InputError → Bytes → Prop
  | noToken {s : Bytes} {blanks : List Piece} (hcut : Cut s blanks [] []) :
      Refuses .integer s .noToken []
  | mismatch {s : Bytes} {blanks token after : List Piece} (hcut : Cut s blanks token after)
      (hne : token ≠ []) (hn : ∀ n : Int32, ¬ Decimal.Spells (join token) n.toInt) :
      Refuses .integer (join blanks ++ join token)
        (.mismatch (Utf8.encode (token.map Piece.char))) (join after)
  | noLine : Refuses .text [] .noLine []

theorem nextInt_eq_ok_iff {n : Int32} {input : Input} :
    nextInt ⟨s, false⟩ = .ok n input ↔
      ∃ chunk unread, s = chunk ++ unread ∧ Takes .integer chunk (.number n) unread ∧
        input = ⟨unread, false⟩ := by
  constructor
  · intro h
    obtain ⟨blanks, token, after, hcut⟩ := exists_cut s
    rw [hcut.nextInt_eq] at h
    split at h
    · cases h
    · cases hn : Decimal.parseInt32? (join token) with
      | none =>
        rw [hn] at h
        cases h
      | some n' =>
        rw [hn] at h
        cases h
        exact ⟨_, _, hcut.text, .number hcut (Decimal.parseInt32?_eq_some_iff.mp hn), rfl⟩
  · rintro ⟨chunk, unread, rfl, htakes, rfl⟩
    cases htakes with
    | @number _ blanks token after _ hcut hn =>
      have hne : token ≠ [] := fun htoken => hn.ne_nil (Utf8.join_eq_nil_iff.mpr htoken)
      rw [← hcut.text, hcut.nextInt_eq, if_neg hne, Decimal.parseInt32?_eq_some_iff.mpr hn]
      rfl

theorem nextInt_eq_error_iff {e : InputError} {input : Input} :
    nextInt ⟨s, false⟩ = .error e input ↔
      ∃ chunk unread, s = chunk ++ unread ∧ Refuses .integer chunk e unread ∧
        input = ⟨unread, false⟩ := by
  constructor
  · intro h
    obtain ⟨blanks, token, after, hcut⟩ := exists_cut s
    rw [hcut.nextInt_eq] at h
    split at h
    · next htoken =>
      cases h
      subst htoken
      obtain rfl := hcut.after_eq_nil
      exact ⟨s, [], (List.append_nil s).symm, .noToken hcut, rfl⟩
    · next htoken =>
      cases hn : Decimal.parseInt32? (join token) with
      | some n =>
        rw [hn] at h
        cases h
      | none =>
        rw [hn] at h
        cases h
        refine ⟨_, _, hcut.text, .mismatch hcut htoken fun n hspells => ?_, rfl⟩
        rw [Decimal.parseInt32?_eq_some_iff.mpr hspells] at hn
        cases hn
  · rintro ⟨chunk, unread, rfl, hrefuses, rfl⟩
    cases hrefuses with
    | noToken hcut => rw [List.append_nil, hcut.nextInt_eq, if_pos rfl]
    | @mismatch _ blanks token after hcut htoken hn =>
      have hparse : Decimal.parseInt32? (join token) = none := by
        rw [Option.eq_none_iff_forall_ne_some]
        exact fun n hparse => hn n (Decimal.parseInt32?_eq_some_iff.mp hparse)
      rw [← hcut.text, hcut.nextInt_eq, if_neg htoken, hparse]
      rfl

theorem trimmed_iff {body text : Bytes} :
    Trimmed body text ↔ text = Bytes.dropTail "\r" body := by
  constructor
  · rintro (rfl | ⟨rfl, hbody⟩)
    · rw [Bytes.dropTail_append]
    · rw [Bytes.dropTail_of_not_suffix hbody]
  · rintro rfl
    by_cases hbody : ("\r" : Bytes) <:+ body
    · obtain ⟨text, rfl⟩ := hbody
      exact .inl (by rw [Bytes.dropTail_append])
    · exact .inr ⟨(Bytes.dropTail_of_not_suffix hbody).symm, hbody⟩

theorem nextLine_newline {body unread : Bytes} (h : 0x0a ∉ body) :
    nextLine ⟨body ++ "\n" ++ unread, false⟩ =
      .ok (Bytes.dropTail "\r" body) ⟨unread, false⟩ := by
  have hindex : (body ++ "\n" ++ unread : Bytes).idxOf? 0x0a = some body.length :=
    Bytes.idxOf?_eq_some_iff.mpr ⟨body, unread, List.append_assoc .., h, rfl⟩
  have hlength : body.length + 1 = (body ++ "\n" : Bytes).length := by
    rw [List.length_append]
    rfl
  have hline : withoutEnd (body ++ "\n") = Bytes.dropTail "\r" body :=
    congrArg _ (Bytes.dropTail_append body "\n")
  simp only [nextLine, hindex]
  rw [hlength, List.take_left, List.drop_left, hline]

theorem nextLine_rest {body : Bytes} (h : 0x0a ∉ body) : nextLine ⟨body, false⟩ =
    if body = [] then .error .noLine ⟨[], false⟩
    else .ok (Bytes.dropTail "\r" body) ⟨[], false⟩ := by
  have hindex : body.idxOf? 0x0a = none := List.idxOf?_eq_none_iff.mpr h
  have hsuffix : ¬ ("\n" : Bytes) <:+ body := fun hsuffix =>
    h (hsuffix.subset (List.mem_singleton_self _))
  have hline : withoutEnd body = Bytes.dropTail "\r" body :=
    congrArg _ (Bytes.dropTail_of_not_suffix hsuffix)
  simp only [nextLine, hindex, hline, List.isEmpty_iff, Bool.false_eq_true, if_false]
  split
  · next hnil => rw [hnil]
  · rfl

theorem line_cases (s : Bytes) :
    0x0a ∉ s ∨ ∃ body unread, 0x0a ∉ body ∧ s = body ++ "\n" ++ unread := by
  by_cases h : 0x0a ∈ s
  · obtain ⟨body, unread, rfl, hbody⟩ := List.eq_append_cons_of_mem h
    exact .inr ⟨body, unread, hbody, (List.append_assoc body "\n" unread).symm⟩
  · exact .inl h

theorem nextLine_eq_ok_iff {text : Bytes} {input : Input} :
    nextLine ⟨s, false⟩ = .ok text input ↔
      ∃ chunk unread, s = chunk ++ unread ∧ Takes .text chunk (.text text) unread ∧
        input = ⟨unread, false⟩ := by
  constructor
  · intro h
    rcases line_cases s with hs | ⟨body, unread, hbody, rfl⟩
    · rw [nextLine_rest hs] at h
      split at h
      · cases h
      · next hne =>
        cases h
        exact ⟨s, [], (List.append_nil s).symm, .lastLine hs hne (trimmed_iff.mpr rfl), rfl⟩
    · rw [nextLine_newline hbody] at h
      cases h
      exact ⟨_, unread, rfl, .line hbody (trimmed_iff.mpr rfl), rfl⟩
  · rintro ⟨chunk, unread, rfl, htakes, rfl⟩
    cases htakes with
    | line hbody htext => rw [nextLine_newline hbody, trimmed_iff.mp htext]
    | lastLine hbody hne htext =>
      rw [List.append_nil, nextLine_rest hbody, if_neg hne, trimmed_iff.mp htext]

theorem nextLine_eq_error_iff {e : InputError} {input : Input} :
    nextLine ⟨s, false⟩ = .error e input ↔
      ∃ chunk unread, s = chunk ++ unread ∧ Refuses .text chunk e unread ∧
        input = ⟨unread, false⟩ := by
  constructor
  · intro h
    rcases line_cases s with hs | ⟨body, unread, hbody, rfl⟩
    · rw [nextLine_rest hs] at h
      split at h
      · next hnil =>
        cases h
        exact ⟨[], [], hnil, .noLine, rfl⟩
      · cases h
    · rw [nextLine_newline hbody] at h
      cases h
  · rintro ⟨chunk, unread, rfl, hrefuses, rfl⟩
    cases hrefuses
    rfl

theorem next_eq_ok_iff {type : VarType} {d : Datum} {input : Input} :
    Meaning.next type ⟨s, false⟩ = .ok d input ↔
      ∃ chunk unread, s = chunk ++ unread ∧ Takes type chunk d unread ∧
        input = ⟨unread, false⟩ := by
  cases type with
  | integer =>
    constructor
    · intro h
      obtain ⟨n, _, hnext, h⟩ := ok_of_bind_eq_ok h
      cases h
      exact nextInt_eq_ok_iff.mp hnext
    · intro h
      obtain ⟨n, rfl⟩ : ∃ n, d = .number n := by
        obtain ⟨_, _, -, htakes, -⟩ := h
        cases htakes
        exact ⟨_, rfl⟩
      exact bind_eq_of_ok (nextInt_eq_ok_iff.mpr h) _
  | text =>
    constructor
    · intro h
      obtain ⟨text, _, hnext, h⟩ := ok_of_bind_eq_ok h
      cases h
      exact nextLine_eq_ok_iff.mp hnext
    · intro h
      obtain ⟨text, rfl⟩ : ∃ text, d = .text text := by
        obtain ⟨_, _, -, htakes, -⟩ := h
        cases htakes <;> exact ⟨_, rfl⟩
      exact bind_eq_of_ok (nextLine_eq_ok_iff.mpr h) _

theorem next_eq_error_iff {type : VarType} {e : InputError} {input : Input} :
    Meaning.next type ⟨s, false⟩ = .error e input ↔
      ∃ chunk unread, s = chunk ++ unread ∧ Refuses type chunk e unread ∧
        input = ⟨unread, false⟩ := by
  cases type with
  | integer =>
    rw [← nextInt_eq_error_iff]
    exact bind_pure_eq_error
  | text =>
    rw [← nextLine_eq_error_iff]
    exact bind_pure_eq_error

/-- Takes items of the given types in turn, up to the first that cannot be read. -/
def readAll : List VarType → Input → ReadReport
  | [], input => { input }
  | type :: types, input =>
    match Meaning.next type input with
    | .ok d rest =>
      let report := readAll types rest
      { report with items := d :: report.items }
    | .error e rest => { error := some e, input := rest }

theorem readAll_cons_of_ok {type : VarType} {types : List VarType} {input rest : Input} {d : Datum}
    (h : Meaning.next type input = .ok d rest) : readAll (type :: types) input =
      { readAll types rest with items := d :: (readAll types rest).items } := by
  simp only [readAll, h]

/-- Reads in turn, with the bytes that each of them takes from the text, and those that the one that
fails consumes. -/
inductive Session : List VarType → Bytes → List (Bytes × Datum) → Option (Bytes × InputError) →
    Bytes → Prop
  | done {s : Bytes} : Session [] s [] none s
  | failed {type : VarType} {types : List VarType} {chunk unread : Bytes} {e : InputError}
      (h : Refuses type chunk e unread) :
      Session (type :: types) (chunk ++ unread) [] (some (chunk, e)) unread
  | step {type : VarType} {types : List VarType} {chunk unread rest : Bytes} {d : Datum}
      {taken : List (Bytes × Datum)} {failed : Option (Bytes × InputError)}
      (h : Takes type chunk d unread) (hs : Session types unread taken failed rest) :
      Session (type :: types) (chunk ++ unread) ((chunk, d) :: taken) failed rest

theorem Session.flatten {types : List VarType} {s rest : Bytes} {taken : List (Bytes × Datum)}
    {failed : Option (Bytes × InputError)} (h : Session types s taken failed rest) :
    (taken.map Prod.fst ++ (failed.map Prod.fst).toList).flatten ++ rest = s := by
  induction h with
  | done => rfl
  | failed h => simp
  | step h hs ih => simp [← ih]

theorem session_readAll (types : List VarType) (s : Bytes) :
    ∃ taken failed rest,
      readAll types ⟨s, false⟩ = ⟨taken.map Prod.snd, failed.map Prod.snd, ⟨rest, false⟩⟩ ∧
      Session types s taken failed rest := by
  induction types generalizing s with
  | nil => exact ⟨[], none, s, rfl, .done⟩
  | cons type types ih =>
    cases hnext : Meaning.next type ⟨s, false⟩ with
    | error e input =>
      obtain ⟨chunk, unread, rfl, hrefuses, rfl⟩ := next_eq_error_iff.mp hnext
      simp only [readAll, hnext]
      exact ⟨[], some (chunk, e), unread, rfl, .failed hrefuses⟩
    | ok d input =>
      obtain ⟨chunk, unread, rfl, htakes, rfl⟩ := next_eq_ok_iff.mp hnext
      obtain ⟨taken, failed, rest, hreport, hsession⟩ := ih unread
      rw [readAll_cons_of_ok hnext, hreport]
      exact ⟨(chunk, d) :: taken, failed, rest, rfl, .step htakes hsession⟩

/-- The exception that a failed read is reported as tells whether there was a token. -/
theorem Refuses.exception {type : VarType} {e : InputError} {chunk unread : Bytes}
    (h : Refuses type chunk e unread) :
    (if (Utf8.pieces (chunk ++ unread)).all Piece.isSpace then
      ("java.util.NoSuchElementException" : Bytes)
      else "java.util.InputMismatchException") <+: e.message := by
  cases h with
  | noToken hcut =>
    have hblank : (Utf8.pieces (chunk ++ [])).all Piece.isSpace = true := by
      simpa [hcut.pieces] using hcut.blank
    rw [if_pos hblank]
    exact List.prefix_refl _
  | @mismatch s blanks token after hcut hne hn =>
    obtain ⟨p, rest, rfl⟩ := List.exists_cons_of_ne_nil hne
    have hsolid : ¬ (Utf8.pieces s).all Piece.isSpace = true := by
      intro hall
      have hp := List.all_eq_true.mp hall p (by simp [hcut.pieces])
      rw [hcut.solid p (by simp)] at hp
      cases hp
    rw [← hcut.text, if_neg hsolid, InputError.message, List.append_assoc]
    have hname : ("java.util.InputMismatchException" : Bytes) <+:
        "java.util.InputMismatchException: For input string: \"" := by decide
    exact hname.trans (List.prefix_append ..)
  | noLine => exact ⟨": No line found", by decide⟩

/-- Reads partition the input. Each one succeeds exactly if there is something for it to take, and
takes that; else it fails with the exception for what it found, and has consumed that. So whatever
reads follow one another, up to the first that fails, the bytes that they take, those that the failed
one has consumed and the unread rest are the input. -/
theorem reads_partition_input :
    (∀ s n input, nextInt ⟨s, false⟩ = .ok n input ↔
      ∃ chunk unread, s = chunk ++ unread ∧ Takes .integer chunk (.number n) unread ∧
        input = ⟨unread, false⟩) ∧
    (∀ s text input, nextLine ⟨s, false⟩ = .ok text input ↔
      ∃ chunk unread, s = chunk ++ unread ∧ Takes .text chunk (.text text) unread ∧
        input = ⟨unread, false⟩) ∧
    (∀ s e input, (nextInt ⟨s, false⟩ = .error e input ↔
        ∃ chunk unread, s = chunk ++ unread ∧ Refuses .integer chunk e unread ∧
          input = ⟨unread, false⟩) ∧
      (nextLine ⟨s, false⟩ = .error e input ↔
        ∃ chunk unread, s = chunk ++ unread ∧ Refuses .text chunk e unread ∧
          input = ⟨unread, false⟩)) ∧
    (∀ type chunk e unread, Refuses type chunk e unread →
      (if (Utf8.pieces (chunk ++ unread)).all Piece.isSpace then
        ("java.util.NoSuchElementException" : Bytes)
        else "java.util.InputMismatchException") <+: e.message) ∧
    ∀ types s, ∃ taken failed rest,
      readAll types ⟨s, false⟩ = ⟨taken.map Prod.snd, failed.map Prod.snd, ⟨rest, false⟩⟩ ∧
      Session types s taken failed rest ∧
      (taken.map Prod.fst ++ (failed.map Prod.fst).toList).flatten ++ rest = s := by
  refine ⟨fun s n input => nextInt_eq_ok_iff, fun s text input => nextLine_eq_ok_iff,
    fun s e input => ⟨nextInt_eq_error_iff, nextLine_eq_error_iff⟩,
    fun type chunk e unread h => h.exception, fun types s => ?_⟩
  obtain ⟨taken, failed, rest, hreport, hsession⟩ := session_readAll types s
  exact ⟨taken, failed, rest, hreport, hsession, hsession.flatten⟩

example : readAll [.integer, .integer, .text, .text] ⟨"  12\n-3 rest\nsecond line\r\n", false⟩ =
    ⟨[.number 12, .number (-3), .text " rest", .text "second line"], none, ⟨[], false⟩⟩ := by
  decide +kernel

example : readAll [.integer, .integer, .text] ⟨"7 \t8x rest", false⟩ =
    ⟨[.number 7], some (.mismatch "8x"), ⟨" rest", false⟩⟩ := by
  decide +kernel

end Input

end ClassForge
