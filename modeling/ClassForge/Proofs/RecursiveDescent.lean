import ClassForge.Proofs.StatementParsing

/-! Statements by recursive descent. A conditional calls for the statements of its parts, and each
list of statements ends before the first token that may stand behind it. The parser, which keeps the
conditionals that are open in a stack of its own, gives the same statements and the same errors. -/

namespace ClassForge.Parser

/-- What is given by a parser that others call: a value and the tokens behind it, which are fewer
than `bound`. -/
abbrev Part (α : Type) (bound : Nat) :=
  Except SyntaxError (α × { rest : List Token // rest.length < bound })

namespace Part

variable {α β : Type} {bound bound' : Nat}

def of (x : Except SyntaxError (α × List Token))
    (h : ∀ a rest, x = .ok (a, rest) → rest.length < bound) : Part α bound :=
  match x, h with
  | .error e, _ => .error e
  | .ok (a, rest), h => .ok (a, ⟨rest, h a rest rfl⟩)

def plain (x : Part α bound) : Except SyntaxError (α × List Token) :=
  x.map fun (a, rest) => (a, rest.1)

theorem length_of_plain {x : Part α bound} {a : α} {rest : List Token}
    (h : x.plain = .ok (a, rest)) : rest.length < bound := by
  rcases x with e | ⟨b, rest', hrest⟩
  · cases h
  · cases h
    exact hrest

theorem plain_of {x : Except SyntaxError (α × List Token)}
    (h : ∀ a rest, x = .ok (a, rest) → rest.length < bound) : (of x h).plain = x := by
  cases x with
  | error e => rfl
  | ok r => rfl

theorem plain_bind {x : Part α bound}
    {f : α × { rest : List Token // rest.length < bound } → Part β bound'}
    {g : α × List Token → Except SyntaxError (β × List Token)}
    (h : ∀ a rest hrest, (f (a, ⟨rest, hrest⟩)).plain = g (a, rest)) :
    plain (x >>= f) = x.plain >>= g := by
  rcases x with e | ⟨a, rest, hrest⟩
  · rfl
  · exact h a rest hrest

theorem plain_of_bind {x : Except SyntaxError (α × List Token)}
    {h : ∀ a rest, x = .ok (a, rest) → rest.length < bound}
    {f : α × { rest : List Token // rest.length < bound } → Part β bound'}
    {g : α × List Token → Except SyntaxError (β × List Token)}
    (hf : ∀ a rest hrest, (f (a, ⟨rest, hrest⟩)).plain = g (a, rest)) :
    plain (of x h >>= f) = x >>= g := by
  rw [plain_bind hf, plain_of]

end Part

/-- What may stand behind the statements of a program, and behind those of the parts of a
conditional. -/
inductive Ending where
  | endBody
  | elseOrEndIf
  | endIf

def Ending.includes (kind : TokenKind) : Ending → Bool
  | endBody => kind = .keyword .endBody
  | elseOrEndIf => kind = .keyword .elsePart ∨ kind = .keyword .endIf
  | endIf => kind = .keyword .endIf

mutual

/-- Reads statements up to one of their endings, which stays. -/
def statements (ending : Ending) (tokens : List Token) : Part (List Stmt) (tokens.length + 1) :=
  match tokens with
  | [] => .error ⟨[]⟩
  | t :: rest =>
    if ending.includes t.kind then .ok ([], ⟨t :: rest, Nat.lt_succ_self _⟩)
    else do
      let (s, ⟨rest₁, h₁⟩) ← statement t rest
      let (ss, ⟨rest₂, h₂⟩) ← statements ending rest₁
      return (s :: ss, ⟨rest₂, by simp only [List.length_cons]; omega⟩)
termination_by (tokens.length, 1)
decreasing_by
  · exact Prod.Lex.right _ Nat.zero_lt_one
  · exact Prod.Lex.left _ _ h₁

def statement (t : Token) (rest : List Token) : Part Stmt (rest.length + 1) :=
  if t.kind = .keyword .ifTest then conditional rest
  else .of (simpleStatement (t :: rest)) fun _ _ => length_simpleStatement
termination_by (rest.length + 1, 0)
decreasing_by exact Prod.Lex.left _ _ (Nat.lt_succ_self _)

/-- Reads a conditional behind its first token. -/
def conditional (tokens : List Token) : Part Stmt (tokens.length + 1) := do
  let (c, ⟨tokens₁, h₁⟩) ← Part.of (condition tokens) fun _ _ => length_condition
  let (thenBody, ⟨tokens₂, h₂⟩) ← statements .elseOrEndIf tokens₁
  let (elseBody, ⟨tokens₃, h₃⟩) ← alternative tokens₂
  let (_, ⟨tokens₄, h₄⟩) ← Part.of (expect (.keyword .endIf) tokens₃) fun _ _ => length_expect
  return (.conditional c.left c.op c.right thenBody elseBody, ⟨tokens₄, by omega⟩)
termination_by (tokens.length, 0)
decreasing_by
  · exact Prod.Lex.left _ _ h₁
  · exact Prod.Lex.left _ _ (Nat.lt_of_le_of_lt (Nat.le_of_lt_succ h₂) h₁)

def alternative (tokens : List Token) : Part (List Stmt) (tokens.length + 1) :=
  match tokens with
  | [] => .ok ([], ⟨[], Nat.zero_lt_one⟩)
  | t :: rest =>
    if t.kind = .keyword .elsePart then do
      let (elseBody, ⟨rest₁, h₁⟩) ← statements .endIf rest
      return (elseBody, ⟨rest₁, Nat.lt_succ_of_lt h₁⟩)
    else .ok ([], ⟨t :: rest, Nat.lt_succ_self _⟩)
termination_by (tokens.length, 0)
decreasing_by exact Prod.Lex.left _ _ (Nat.lt_succ_self _)

end

section Equations

variable {t : Token} {rest tokens : List Token} {ending : Ending}

theorem plain_statements_ending (h : ending.includes t.kind = true) :
    (statements ending (t :: rest)).plain = .ok ([], t :: rest) := by
  rw [statements, if_pos h]
  rfl

theorem plain_statements_cons (h : ¬ ending.includes t.kind = true) :
    (statements ending (t :: rest)).plain = do
      let (s, rest₁) ← (statement t rest).plain
      let (ss, rest₂) ← (statements ending rest₁).plain
      return (s :: ss, rest₂) := by
  rw [statements, if_neg h]
  exact Part.plain_bind fun _ _ _ => Part.plain_bind fun _ _ _ => rfl

theorem plain_statement_if (h : t.kind = .keyword .ifTest) :
    (statement t rest).plain = (conditional rest).plain := by
  rw [statement, if_pos h]

theorem plain_statement_simple (h : t.kind ≠ .keyword .ifTest) :
    (statement t rest).plain = simpleStatement (t :: rest) := by
  rw [statement, if_neg h, Part.plain_of]

theorem plain_conditional : (conditional tokens).plain = do
    let (c, tokens₁) ← condition tokens
    let (thenBody, tokens₂) ← (statements .elseOrEndIf tokens₁).plain
    let (elseBody, tokens₃) ← (alternative tokens₂).plain
    let (_, tokens₄) ← expect (.keyword .endIf) tokens₃
    return (.conditional c.left c.op c.right thenBody elseBody, tokens₄) := by
  rw [conditional]
  exact Part.plain_of_bind fun _ _ _ => Part.plain_bind fun _ _ _ => Part.plain_bind fun _ _ _ =>
    Part.plain_of_bind fun _ _ _ => rfl

theorem plain_alternative_else (h : t.kind = .keyword .elsePart) :
    (alternative (t :: rest)).plain = (statements .endIf rest).plain := by
  rw [alternative, if_pos h]
  exact (Part.plain_bind fun _ _ _ => rfl).trans (bind_pure _)

theorem plain_alternative_none (h : t.kind ≠ .keyword .elsePart) :
    (alternative (t :: rest)).plain = .ok ([], t :: rest) := by
  rw [alternative, if_neg h]
  rfl

theorem ending_of_statements {ss : List Stmt}
    (h : (statements ending tokens).plain = .ok (ss, rest)) :
    ∃ t rest', rest = t :: rest' ∧ ending.includes t.kind = true := by
  induction hlength : tokens.length using Nat.strong_induction_on generalizing tokens ss with
  | _ n ih =>
  subst hlength
  cases tokens with
  | nil =>
    rw [statements] at h
    cases h
  | cons t tokens =>
    by_cases hend : ending.includes t.kind = true
    · rw [plain_statements_ending hend] at h
      cases h
      exact ⟨t, tokens, rfl, hend⟩
    · rw [plain_statements_cons hend] at h
      obtain ⟨⟨s, rest₁⟩, hs, h⟩ := except_bind_eq_ok.mp h
      obtain ⟨⟨ss', rest₂⟩, hss, h⟩ := except_bind_eq_ok.mp h
      cases h
      exact ih _ (Part.length_of_plain hs) hss rfl

end Equations

/-- What may stand behind the statements inside of the open conditionals. -/
def Ending.of : List OpenConditional → Ending
  | [] => endBody
  | o :: _ => if o.thenBody.isNone then elseOrEndIf else endIf

section Stack

variable {outer : List OpenConditional} {done : List Stmt} {t : Token} {rest : List Token}

theorem statementsFrom_if_error {e : SyntaxError} (hk : t.kind = .keyword .ifTest)
    (h : condition rest = .error e) : statementsFrom outer done (t :: rest) = .error e := by
  rw [statementsFrom.eq_def]
  simp only [hk]
  split
  · next he =>
    rw [h] at he
    cases he
    rfl
  · next he =>
    rw [h] at he
    cases he

theorem statementsFrom_other (hif : t.kind ≠ .keyword .ifTest)
    (hend : ¬ (Ending.of outer).includes t.kind = true) :
    statementsFrom outer done (t :: rest) =
      simpleStatement (t :: rest) >>= fun r => statementsFrom outer (r.1 :: done) r.2 := by
  rw [statementsFrom.eq_def]
  dsimp only
  split
  · next hk => simp [Ending.of, Ending.includes, hk] at hend
  · next o outer hk =>
    split
    · next ho => simp [Ending.of, Ending.includes, hk, ho] at hend
    -- A conditional has no third part, and no statement starts with this keyword either.
    · simp only [simpleStatement, hk]
      rfl
  · next o outer hk =>
    cases ho : o.thenBody.isNone <;> simp [Ending.of, Ending.includes, hk, ho] at hend
  · next hk => exact absurd hk hif
  · split
    · next he => rw [he]; rfl
    · next he => rw [he]; rfl

/-- The parser with a stack reads the tokens as the descent does. -/
def Agrees (tokens : List Token) : Prop :=
  ∀ outer done, statementsFrom outer done tokens =
    (statements (.of outer) tokens).plain >>= fun r => statementsFrom outer (r.1.reverse ++ done) r.2

theorem statementsFrom_conditional (hshorter : ∀ tokens : List Token, tokens.length < rest.length →
    Agrees tokens) (hif : t.kind = .keyword .ifTest) :
    statementsFrom outer done (t :: rest) =
      (conditional rest).plain >>= fun r => statementsFrom outer (r.1 :: done) r.2 := by
  rw [plain_conditional]
  -- Each part is shorter, and the stack holds in turn what the descent has left to do.
  rcases hc : condition rest with e | ⟨c, tokens₁⟩
  · exact statementsFrom_if_error hif hc
  have hlt := length_condition hc
  rw [statementsFrom_if hif hc, hshorter tokens₁ hlt]
  simp only [Ending.of, Option.isNone_none, if_true, bind, Except.bind]
  rcases hthen : (statements .elseOrEndIf tokens₁).plain with e | ⟨thenBody, tokens₂⟩
  · rfl
  have hlt₂ := Part.length_of_plain hthen
  obtain ⟨t₂, rest₂, rfl, hend₂⟩ := ending_of_statements hthen
  by_cases helse : t₂.kind = .keyword .elsePart
  · rw [List.length_cons] at hlt₂
    simp only [plain_alternative_else helse]
    rw [statementsFrom_else helse rfl, hshorter rest₂ (by omega)]
    simp only [Ending.of, Option.isNone_some, Bool.false_eq_true, if_false, bind, Except.bind]
    rcases hbody : (statements .endIf rest₂).plain with e | ⟨elseBody, tokens₃⟩
    · rfl
    obtain ⟨t₃, rest₃, rfl, hend₃⟩ := ending_of_statements hbody
    have hk : t₃.kind = .keyword .endIf := by simpa [Ending.includes] using hend₃
    simp only [statementsFrom_endIf hk, expect, hk, if_true]
    simp [OpenConditional.close, pure, Except.pure]
  · have hk : t₂.kind = .keyword .endIf := by simpa [Ending.includes, helse] using hend₂
    simp only [plain_alternative_none helse, statementsFrom_endIf hk, expect, hk, if_true]
    simp [OpenConditional.close, pure, Except.pure]

theorem agrees (tokens : List Token) : Agrees tokens := by
  induction hlength : tokens.length using Nat.strong_induction_on generalizing tokens with
  | _ n ih =>
  subst hlength
  intro outer done
  cases tokens with
  | nil =>
    rw [statementsFrom.eq_def, statements]
    rfl
  | cons t rest =>
    by_cases hend : (Ending.of outer).includes t.kind = true
    · rw [plain_statements_ending hend]
      rfl
    have hfirst : statementsFrom outer done (t :: rest) =
        (statement t rest).plain >>= fun r => statementsFrom outer (r.1 :: done) r.2 := by
      by_cases hif : t.kind = .keyword .ifTest
      · rw [plain_statement_if hif, statementsFrom_conditional (fun tokens h => ?_) hif]
        exact ih _ (Nat.lt_succ_of_lt h) tokens rfl
      · rw [plain_statement_simple hif, statementsFrom_other hif hend]
    rw [hfirst, plain_statements_cons hend, bind_assoc]
    rcases hs : (statement t rest).plain with e | ⟨s, rest₁⟩
    · rfl
    simp only [bind, Except.bind]
    rw [ih rest₁.length (Part.length_of_plain hs) rest₁ rfl outer (s :: done)]
    simp only [bind, Except.bind]
    rcases (statements (.of outer) rest₁).plain with e | ⟨ss, rest₂⟩
    · rfl
    · simp [pure, Except.pure]

end Stack

/-- The statements of a program, read with a stack, are those that the descent reads up to the end of
the program, which is then passed. -/
theorem statementsFrom_eq_statements (tokens : List Token) :
    statementsFrom [] [] tokens =
      (statements .endBody tokens).plain >>= fun r => .ok (r.1, r.2.tail) := by
  have hagrees : statementsFrom [] [] tokens = (statements .endBody tokens).plain >>= fun r =>
      statementsFrom [] (r.1.reverse ++ []) r.2 := agrees tokens [] []
  rw [hagrees]
  rcases hs : (statements .endBody tokens).plain with e | ⟨ss, rest⟩
  · rfl
  · obtain ⟨t, rest, rfl, hend⟩ := ending_of_statements hs
    have hk : t.kind = .keyword .endBody := by simpa [Ending.includes] using hend
    simp only [bind, Except.bind, statementsFrom_end hk]
    simp

end ClassForge.Parser
