import ClassForge.Proofs.StatementParsing

/-! The parser accepts the programs of the grammar and no others. Where it fails, it names a place in
the tokens it was given. -/

namespace ClassForge

open Grammar

namespace Parser

variable {tokens rest ts : List Token} {t : Token}

theorem isType_iff : isType t.kind = true ↔ IsType t := by
  unfold isType IsType
  split <;> simp_all

theorem declarationsFrom_eq {ds : List Declaration} (h : Declarations ts ds) (ht : ¬ IsType t)
    (done : List Declaration) :
    declarationsFrom done (ts ++ t :: rest) = (done.reverse ++ ds, t :: rest) := by
  induction h generalizing done with
  | nil =>
    cases rest with
    | nil => simp [declarationsFrom]
    | cons n rest =>
      rw [← isType_iff] at ht
      simp [declarationsFrom, ht]
  | cons htype hn _ ih =>
    rw [← isType_iff] at htype
    simp only [List.cons_append, declarationsFrom, htype, hn, and_self, if_true, ih]
    simp

theorem declarations_of_declarationsFrom (done : List Declaration) (tokens : List Token) :
    ∃ ts ds, tokens = ts ++ (declarationsFrom done tokens).2 ∧ Declarations ts ds ∧
      (declarationsFrom done tokens).1 = done.reverse ++ ds := by
  fun_induction declarationsFrom done tokens with
  | case1 done t n rest hpair ih =>
    obtain ⟨ts, ds, hts, hds, heq⟩ := ih
    refine ⟨t :: n :: ts, ⟨t.content, n.content⟩ :: ds, by simp [← hts], ?_, by simp [heq]⟩
    exact .cons (isType_iff.mp hpair.1) hpair.2 hds
  | case2 => exact ⟨[], [], rfl, .nil, by simp⟩
  | case3 => exact ⟨[], [], rfl, .nil, by simp⟩

theorem program_eq_ok_iff {p : Program} :
    program tokens = .ok (p, rest) ↔ ∃ ts, tokens = ts ++ rest ∧ WholeProgram ts p := by
  constructor
  · intro h
    obtain ⟨⟨_, tokens₁⟩, hprogram, h⟩ := except_bind_eq_ok.mp h
    obtain ⟨⟨name, tokens₂⟩, hname, h⟩ := except_bind_eq_ok.mp h
    obtain ⟨⟨_, tokens₃⟩, hdeclare, h⟩ := except_bind_eq_ok.mp h
    obtain ⟨⟨_, tokens₄⟩, hbegin, h⟩ := except_bind_eq_ok.mp h
    obtain ⟨⟨body, tokens₅⟩, hbody, h⟩ := except_bind_eq_ok.mp h
    cases h
    obtain ⟨k, rfl, hk, -⟩ := expect_eq_ok_iff.mp hprogram
    obtain ⟨n, rfl, hn, rfl⟩ := expect_eq_ok_iff.mp hname
    obtain ⟨d, rfl, hd, -⟩ := expect_eq_ok_iff.mp hdeclare
    obtain ⟨b, hb', hb, -⟩ := expect_eq_ok_iff.mp hbegin
    obtain ⟨ts, ds, hts, hds, heq⟩ := declarations_of_declarationsFrom [] tokens₃
    obtain ⟨us, e, rfl, he, hus⟩ := statements_of_statementsFrom hbody .nil .nil
    refine ⟨k :: n :: d :: ts ++ b :: us ++ [e], ?_, ?_⟩
    · rw [hb'] at hts
      simp [hts]
    · rw [heq]
      exact .intro hk hn hd hds hb (by simpa using hus) he
  · rintro ⟨_, rfl, @⟨k, n, d, b, e, ts, us, ds, body, hk, hn, hd, hts, hb, hus, he⟩⟩
    have htokens : k :: n :: d :: ts ++ b :: us ++ [e] ++ rest =
        k :: n :: d :: (ts ++ b :: (us ++ e :: rest)) := by simp
    have htype : ¬ IsType b := by simp [IsType, hb]
    have hbody : statementsFrom [] [] (us ++ e :: rest) = .ok (body, rest) := by
      rw [passesAll_of_statements hus _ _ _ (endsExpression_cons he rfl), statementsFrom_end he]
      simp
    rw [htokens]
    refine except_bind_eq_ok.mpr ⟨_, expect_eq_ok_iff.mpr ⟨_, rfl, hk, rfl⟩, ?_⟩
    refine except_bind_eq_ok.mpr ⟨_, expect_eq_ok_iff.mpr ⟨_, rfl, hn, rfl⟩, ?_⟩
    refine except_bind_eq_ok.mpr ⟨_, expect_eq_ok_iff.mpr ⟨_, rfl, hd, rfl⟩, ?_⟩
    simp only [declarationsFrom_eq hts htype]
    refine except_bind_eq_ok.mpr ⟨_, expect_eq_ok_iff.mpr ⟨_, rfl, hb, rfl⟩, ?_⟩
    exact except_bind_eq_ok.mpr ⟨_, hbody, rfl⟩

/-- What is left behind a success or from a failure on is the end of the tokens. -/
def Leaves {α : Type} (tokens : List Token) : Except SyntaxError (α × List Token) → Prop
  | .ok (_, rest) => rest <:+ tokens
  | .error e => e.rest <:+ tokens

theorem Leaves.of_suffix {α : Type} {x : Except SyntaxError (α × List Token)}
    (h : Leaves rest x) (hs : rest <:+ tokens) : Leaves tokens x := by
  cases x with
  | ok a => exact List.IsSuffix.trans h hs
  | error e => exact List.IsSuffix.trans h hs

theorem Leaves.bind {α β : Type} {x : Except SyntaxError (α × List Token)}
    {f : α × List Token → Except SyntaxError (β × List Token)} (hx : Leaves tokens x)
    (hf : ∀ a rest, Leaves rest (f (a, rest))) : Leaves tokens (x >>= f) := by
  cases x with
  | ok a => exact (hf a.1 a.2).of_suffix hx
  | error e => exact hx

theorem leaves_expect (kind : TokenKind) (tokens : List Token) :
    Leaves tokens (expect kind tokens) := by
  cases tokens with
  | nil => exact List.suffix_rfl
  | cons t tokens =>
    simp only [expect]
    split
    · exact List.suffix_cons t tokens
    · exact List.suffix_rfl

theorem leaves_operand (tokens : List Token) : Leaves tokens (operand tokens) := by
  cases tokens with
  | nil => exact List.suffix_rfl
  | cons t tokens =>
    simp only [operand]
    split
    · exact List.suffix_cons t tokens
    · exact List.suffix_rfl

theorem leaves_comparison (tokens : List Token) : Leaves tokens (comparison tokens) := by
  cases tokens with
  | nil => exact List.suffix_rfl
  | cons t tokens =>
    simp only [comparison]
    split
    · exact List.suffix_cons t tokens
    · exact List.suffix_rfl

theorem leaves_printOperand (tokens : List Token) : Leaves tokens (printOperand tokens) := by
  cases tokens with
  | nil => exact List.suffix_rfl
  | cons t tokens =>
    simp only [printOperand]
    split
    · exact List.suffix_cons t tokens
    · exact List.suffix_cons t tokens
    · exact List.suffix_rfl

mutual

theorem leaves_termFrom (outer : List Pending) (pending : Pending) (tokens : List Token) :
    Leaves tokens (termFrom outer pending tokens) := by
  cases tokens with
  | nil => exact List.suffix_rfl
  | cons t tokens =>
    have hs := List.suffix_cons t tokens
    simp only [termFrom]
    split
    · exact (leaves_operatorFrom ..).of_suffix hs
    · exact (leaves_operatorFrom ..).of_suffix hs
    · exact (leaves_operatorFrom ..).of_suffix hs
    · exact (leaves_termFrom ..).of_suffix hs
    · exact List.suffix_rfl
termination_by structural tokens

theorem leaves_operatorFrom (outer : List Pending) (pending : Pending) (term : Expr)
    (tokens : List Token) : Leaves tokens (operatorFrom outer pending term tokens) := by
  cases tokens with
  | nil => cases outer <;> exact List.suffix_rfl
  | cons t tokens =>
    have hs := List.suffix_cons t tokens
    simp only [operatorFrom]
    split
    · exact (leaves_termFrom ..).of_suffix hs
    · split
      · exact List.suffix_rfl
      · split
        · exact (leaves_operatorFrom ..).of_suffix hs
        · exact List.suffix_rfl
termination_by structural tokens

end

theorem leaves_assignment (tokens : List Token) : Leaves tokens (assignment tokens) :=
  (leaves_expect ..).bind fun _ _ => (leaves_expect ..).bind fun _ _ =>
    (leaves_termFrom ..).bind fun _ _ => List.suffix_rfl

theorem leaves_simpleStatement (tokens : List Token) : Leaves tokens (simpleStatement tokens) := by
  cases tokens with
  | nil => exact List.suffix_rfl
  | cons t tokens =>
    have hs := List.suffix_cons t tokens
    simp only [simpleStatement]
    split
    · exact (leaves_assignment tokens).of_suffix hs
    · exact leaves_assignment (t :: tokens)
    · refine Leaves.of_suffix ?_ hs
      exact (leaves_printOperand tokens).bind fun _ _ => List.suffix_rfl
    · refine Leaves.of_suffix ?_ hs
      exact (leaves_expect _ tokens).bind fun _ _ => List.suffix_rfl
    · exact List.suffix_rfl

theorem leaves_condition (tokens : List Token) : Leaves tokens (condition tokens) :=
  (leaves_operand ..).bind fun _ _ => (leaves_comparison ..).bind fun _ _ =>
    (leaves_operand ..).bind fun _ _ => (leaves_expect ..).bind fun _ _ => List.suffix_rfl

theorem leaves_statementsFrom (outer : List OpenConditional) (done : List Stmt)
    (tokens : List Token) : Leaves tokens (statementsFrom outer done tokens) := by
  fun_induction statementsFrom outer done tokens with
  | case1 => exact List.suffix_rfl
  | case2 done t tokens => exact List.suffix_cons t tokens
  | case3 done t tokens o outer hk hthen ih =>
    simp only [wfParam, List.unattach_reverse, List.unattach_attach] at ih
    exact ih.of_suffix (List.suffix_cons t tokens)
  | case4 => exact List.suffix_rfl
  | case5 done t tokens o outer hk ih =>
    simp only [wfParam, List.unattach_reverse, List.unattach_attach] at ih
    exact ih.of_suffix (List.suffix_cons t tokens)
  | case6 outer done t tokens hk e he =>
    have hleaves := leaves_condition tokens
    rw [he] at hleaves
    exact List.IsSuffix.trans hleaves (List.suffix_cons t tokens)
  | case7 outer done t tokens hk c rest hc ih =>
    have hleaves := leaves_condition tokens
    rw [hc] at hleaves
    exact ih.of_suffix (List.IsSuffix.trans hleaves (List.suffix_cons t tokens))
  | case8 outer done t tokens e he =>
    have hleaves := leaves_simpleStatement (t :: tokens)
    rw [he] at hleaves
    exact hleaves
  | case9 outer done t tokens s rest hs _ _ _ _ ih =>
    have hleaves := leaves_simpleStatement (t :: tokens)
    rw [hs] at hleaves
    exact ih.of_suffix hleaves

theorem leaves_program (tokens : List Token) : Leaves tokens (program tokens) := by
  refine (leaves_expect ..).bind fun _ _ => (leaves_expect ..).bind fun _ _ =>
    (leaves_expect ..).bind fun _ tokens₃ => ?_
  obtain ⟨ts, -, hts, -⟩ := declarations_of_declarationsFrom [] tokens₃
  refine Leaves.of_suffix ?_ ⟨ts, hts.symm⟩
  exact (leaves_expect ..).bind fun _ _ => (leaves_statementsFrom ..).bind fun _ _ =>
    List.suffix_rfl

end Parser

/-- Tokens are accepted with a program if and only if the grammar derives that program from them, the
program is the only one, and where tokens are refused the place is one of theirs. -/
theorem Program.ofTokens_follows_grammar (tokens : List Token) :
    (∀ p, Program.ofTokens tokens = .ok p ↔ WholeProgram tokens p) ∧
      (∀ p p', WholeProgram tokens p → WholeProgram tokens p' → p = p') ∧
      ∀ e, Program.ofTokens tokens = .error e → e.rest <:+ tokens := by
  have hiff (p : Program) : Program.ofTokens tokens = .ok p ↔ WholeProgram tokens p := by
    have hprogram : Program.ofTokens tokens = .ok p ↔ Parser.program tokens = .ok (p, []) := by
      unfold Program.ofTokens
      split <;> simp_all
    rw [hprogram, Parser.program_eq_ok_iff]
    simp
  refine ⟨hiff, fun p p' h h' => ?_, fun e he => ?_⟩
  · rw [← hiff] at h h'
    exact Except.ok.inj (h.symm.trans h')
  · have hleaves := Parser.leaves_program tokens
    unfold Program.ofTokens at he
    split at he
    · cases he
    · next hp =>
      cases he
      rw [hp] at hleaves
      exact hleaves
    · next hp =>
      cases he
      rw [hp] at hleaves
      exact hleaves

/-- The tokens of a program that adds a product to a number. -/
def weightedSum : List Token :=
  [⟨.keyword .program, "PROGRAM", 1, 0, 7⟩, ⟨.identifier, "P", 1, 8, 9⟩,
    ⟨.keyword .declare, "DECLARE", 2, 0, 7⟩, ⟨.keyword .integerType, "INTEGER", 2, 8, 15⟩,
    ⟨.identifier, "n", 2, 16, 17⟩, ⟨.keyword .beginBody, "BEGIN", 3, 0, 5⟩,
    ⟨.identifier, "n", 4, 0, 1⟩, ⟨.symbol .assign, ":=", 4, 2, 4⟩, ⟨.number, "1", 4, 5, 6⟩,
    ⟨.symbol .plus, "+", 4, 7, 8⟩, ⟨.number, "2", 4, 9, 10⟩, ⟨.symbol .times, "*", 4, 11, 12⟩,
    ⟨.identifier, "n", 4, 13, 14⟩, ⟨.keyword .endBody, "END", 5, 0, 3⟩]

theorem ofTokens_follows_grammar_weightedSum :
    WholeProgram weightedSum ⟨"P", [⟨"INTEGER", "n"⟩],
      [.set "n" (.arithmetic "+" (.int "1") (.arithmetic "*" (.int "2") (.var "n")))]⟩ := by
  have hparse : Program.ofTokens weightedSum = .ok ⟨"P", [⟨"INTEGER", "n"⟩],
      [.set "n" (.arithmetic "+" (.int "1") (.arithmetic "*" (.int "2") (.var "n")))]⟩ := by cbv
  exact ((Program.ofTokens_follows_grammar weightedSum).1 _).mp hparse

end ClassForge
