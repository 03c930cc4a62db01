import ClassForge.Proofs.ExpressionParsing

/-! The parser of statements follows the grammar. What has been read of the
conditionals that are still open is kept in its stack. -/

namespace ClassForge

open Grammar

namespace Grammar

theorem Test.start {ts : List Token} {left op right : Bytes} (h : Test ts left op right) :
    ∃ t ts', ts = t :: ts' ∧ t.kind = .keyword .ifTest := by
  obtain ⟨hi, -, -, -, -⟩ := h
  exact ⟨_, _, rfl, hi⟩

theorem Statements.concat {ts : List Token} {s : Stmt} : {us : List Token} →
    {ss : List Stmt} → Statements us ss → Statement ts s → Statements (us ++ ts) (ss ++ [s])
  | _, _, .nil, hs => by simpa using Statements.cons hs .nil
  | _, _, .cons h hrest, hs => by
    rw [List.append_assoc, List.cons_append]
    exact .cons h (hrest.concat hs)

end Grammar

namespace Parser

variable {tokens rest : List Token} {t : Token} {s : Stmt}

theorem expect_eq_ok_iff {kind : TokenKind} {content : Bytes} :
    expect kind tokens = .ok (content, rest) ↔
      ∃ t, tokens = t :: rest ∧ t.kind = kind ∧ t.content = content := by
  cases tokens with
  | nil => simp [expect]
  | cons t tokens =>
    simp only [expect]
    split <;> grind

theorem operand_eq_ok_iff {content : Bytes} :
    operand tokens = .ok (content, rest) ↔
      ∃ t, tokens = t :: rest ∧ IsOperand t ∧ t.content = content := by
  cases tokens with
  | nil => simp [operand]
  | cons t tokens =>
    simp only [operand, IsOperand]
    split <;> grind

theorem comparison_eq_ok_iff {op : Bytes} :
    comparison tokens = .ok (op, rest) ↔
      ∃ t, tokens = t :: rest ∧ relation? t.kind = some op := by
  cases tokens with
  | nil => simp [comparison]
  | cons t tokens =>
    simp only [comparison, List.cons.injEq, ← Operator.ofKind?_comparison_iff]
    split <;> grind

theorem printOperand_eq_ok_iff {e : Expr} :
    printOperand tokens = .ok (e, rest) ↔
      ∃ t, tokens = t :: rest ∧ (t.kind = .text ∧ e = .text t.content ∨
        t.kind = .identifier ∧ e = .var t.content) := by
  cases tokens with
  | nil => simp [printOperand]
  | cons t tokens =>
    simp only [printOperand]
    split <;> grind

theorem assignment_eq_ok_iff :
    assignment tokens = .ok (s, rest) ↔
      EndsExpression rest ∧ ∃ ts, tokens = ts ++ rest ∧ Assignment ts s := by
  constructor
  · intro h
    obtain ⟨⟨name, tokens₁⟩, hname, h⟩ := except_bind_eq_ok.mp h
    obtain ⟨⟨_, tokens₂⟩, hassign, h⟩ := except_bind_eq_ok.mp h
    obtain ⟨⟨value, tokens₃⟩, hvalue, h⟩ := except_bind_eq_ok.mp h
    cases h
    obtain ⟨n, rfl, hn, rfl⟩ := expect_eq_ok_iff.mp hname
    obtain ⟨a, rfl, ha, -⟩ := expect_eq_ok_iff.mp hassign
    obtain ⟨hends, ts, rfl, he⟩ := expression_eq_ok_iff.mp hvalue
    exact ⟨hends, n :: a :: ts, rfl, .intro hn ha he⟩
  · rintro ⟨hends, _, rfl, ⟨hn, ha, he⟩⟩
    refine except_bind_eq_ok.mpr ⟨_, expect_eq_ok_iff.mpr ⟨_, rfl, hn, rfl⟩, ?_⟩
    refine except_bind_eq_ok.mpr ⟨_, expect_eq_ok_iff.mpr ⟨_, rfl, ha, rfl⟩, ?_⟩
    exact except_bind_eq_ok.mpr ⟨_, expression_eq_ok he hends, rfl⟩

theorem condition_eq_ok_iff (ht : t.kind = .keyword .ifTest) {c : Condition} :
    condition tokens = .ok (c, rest) ↔
      ∃ ts, tokens = ts ++ rest ∧ Test (t :: ts) c.left c.op c.right := by
  constructor
  · intro h
    obtain ⟨⟨left, tokens₁⟩, hleft, h⟩ := except_bind_eq_ok.mp h
    obtain ⟨⟨op, tokens₂⟩, hop, h⟩ := except_bind_eq_ok.mp h
    obtain ⟨⟨right, tokens₃⟩, hright, h⟩ := except_bind_eq_ok.mp h
    obtain ⟨⟨_, tokens₄⟩, hthen, h⟩ := except_bind_eq_ok.mp h
    cases h
    obtain ⟨l, rfl, hl, rfl⟩ := operand_eq_ok_iff.mp hleft
    obtain ⟨o, rfl, ho⟩ := comparison_eq_ok_iff.mp hop
    obtain ⟨r, rfl, hr, rfl⟩ := operand_eq_ok_iff.mp hright
    obtain ⟨k, rfl, hk, -⟩ := expect_eq_ok_iff.mp hthen
    exact ⟨[l, o, r, k], rfl, .intro ht hl ho hr hk⟩
  · rintro ⟨ts, rfl, htest⟩
    obtain ⟨left, op, right⟩ := c
    cases htest with
    | intro _ hl ho hr hk =>
      refine except_bind_eq_ok.mpr ⟨_, operand_eq_ok_iff.mpr ⟨_, rfl, hl, rfl⟩, ?_⟩
      refine except_bind_eq_ok.mpr ⟨_, comparison_eq_ok_iff.mpr ⟨_, rfl, ho⟩, ?_⟩
      refine except_bind_eq_ok.mpr ⟨_, operand_eq_ok_iff.mpr ⟨_, rfl, hr, rfl⟩, ?_⟩
      exact except_bind_eq_ok.mpr ⟨_, expect_eq_ok_iff.mpr ⟨_, rfl, hk, rfl⟩, rfl⟩

theorem statement_of_simpleStatement (h : simpleStatement tokens = .ok (s, rest)) :
    ∃ ts, tokens = ts ++ rest ∧ Statement ts s := by
  cases tokens with
  | nil => cases h
  | cons t tokens =>
    simp only [simpleStatement] at h
    split at h
    · next hk =>
      obtain ⟨-, ts, rfl, ha⟩ := assignment_eq_ok_iff.mp h
      exact ⟨t :: ts, rfl, .set hk ha⟩
    · obtain ⟨-, ts, hts, ha⟩ := assignment_eq_ok_iff.mp h
      exact ⟨ts, hts, .assign ha⟩
    · next hk =>
      obtain ⟨⟨e, tokens₁⟩, hoperand, h⟩ := except_bind_eq_ok.mp h
      cases h
      obtain ⟨n, rfl, ⟨hn, rfl⟩ | ⟨hn, rfl⟩⟩ := printOperand_eq_ok_iff.mp hoperand
      · exact ⟨[t, n], rfl, .printText hk hn⟩
      · exact ⟨[t, n], rfl, .printName hk hn⟩
    · next hk =>
      obtain ⟨⟨name, tokens₁⟩, hname, h⟩ := except_bind_eq_ok.mp h
      cases h
      obtain ⟨n, rfl, hn, rfl⟩ := expect_eq_ok_iff.mp hname
      exact ⟨[t, n], rfl, .read hk hn⟩
    · cases h

section

variable {outer : List OpenConditional} {o : OpenConditional} {done : List Stmt}
  {rest' : List Token}

theorem statementsFrom_simple (h : simpleStatement (t :: rest) = .ok (s, rest')) :
    statementsFrom outer done (t :: rest) = statementsFrom outer (s :: done) rest' := by
  rw [statementsFrom.eq_def]
  dsimp only
  split
  · next hk => simp [simpleStatement, hk] at h
  · next hk => simp [simpleStatement, hk] at h
  · next hk => simp [simpleStatement, hk] at h
  · next hk => simp [simpleStatement, hk] at h
  · split
    · next he =>
      rw [h] at he
      cases he
    · next he =>
      rw [h] at he
      cases he
      rfl

theorem statementsFrom_if {c : Condition} (hk : t.kind = .keyword .ifTest)
    (h : condition rest = .ok (c, rest')) :
    statementsFrom outer done (t :: rest) = statementsFrom (⟨c, none, done⟩ :: outer) [] rest' := by
  rw [statementsFrom.eq_def]
  simp only [hk]
  split
  · next he =>
    rw [h] at he
    cases he
  · next he =>
    rw [h] at he
    cases he
    rfl

theorem statementsFrom_else (hk : t.kind = .keyword .elsePart) (ho : o.thenBody = none) :
    statementsFrom (o :: outer) done (t :: rest) =
      statementsFrom ({ o with thenBody := some done.reverse } :: outer) [] rest := by
  rw [statementsFrom.eq_def]
  simp only [hk, ho, Option.isNone_none, if_true]

theorem statementsFrom_endIf (hk : t.kind = .keyword .endIf) :
    statementsFrom (o :: outer) done (t :: rest) =
      statementsFrom outer (o.close done.reverse :: o.before) rest := by
  rw [statementsFrom.eq_def]
  simp only [hk]

theorem statementsFrom_end (hk : t.kind = .keyword .endBody) :
    statementsFrom [] done (t :: rest) = .ok (done.reverse, rest) := by
  rw [statementsFrom.eq_def]
  simp only [hk]

end

/-- No statement starts with an operator. -/
theorem endsExpression_statement {ts : List Token} (h : Statement ts s) (rest : List Token) :
    EndsExpression (ts ++ rest) := by
  have hstart : ∃ t ts', ts = t :: ts' ∧ Operator.ofKind? t.kind = none := by
    cases h with
    | assign h =>
      obtain ⟨hn, -, -⟩ := h
      exact ⟨_, _, rfl, by rw [hn]; rfl⟩
    | set hk => exact ⟨_, _, rfl, by rw [hk]; rfl⟩
    | printText hk => exact ⟨_, _, rfl, by rw [hk]; rfl⟩
    | printName hk => exact ⟨_, _, rfl, by rw [hk]; rfl⟩
    | read hk => exact ⟨_, _, rfl, by rw [hk]; rfl⟩
    | conditional htest =>
      obtain ⟨t, ts', rfl, hk⟩ := htest.start
      exact ⟨_, _, rfl, by rw [hk]; rfl⟩
    | alternative htest =>
      obtain ⟨t, ts', rfl, hk⟩ := htest.start
      exact ⟨_, _, rfl, by rw [hk]; rfl⟩
  obtain ⟨t, ts', rfl, hnone⟩ := hstart
  rintro t' ⟨⟩
  exact hnone

theorem endsExpression_statements {ts rest : List Token} {ss : List Stmt} (h : Statements ts ss)
    (hrest : EndsExpression rest) : EndsExpression (ts ++ rest) := by
  cases h with
  | nil => exact hrest
  | cons hs _ =>
    rw [List.append_assoc]
    exact endsExpression_statement hs _

theorem endsExpression_cons {k : Keyword} (hk : t.kind = .keyword k)
    (hnone : Operator.ofKind? (.keyword k) = none) : EndsExpression (t :: rest) := by
  rintro t' ⟨⟩
  rw [hk, hnone]

/-- Behind the tokens of a statement the parser has done the statement. -/
def Passes (ts : List Token) (s : Stmt) : Prop :=
  ∀ outer done rest, EndsExpression rest →
    statementsFrom outer done (ts ++ rest) = statementsFrom outer (s :: done) rest

def PassesAll (ts : List Token) (ss : List Stmt) : Prop :=
  ∀ outer done rest, EndsExpression rest →
    statementsFrom outer done (ts ++ rest) = statementsFrom outer (ss.reverse ++ done) rest

theorem Passes.assign {ts : List Token} (h : Assignment ts s) : Passes ts s := by
  intro outer done rest hrest
  have hassign := assignment_eq_ok_iff.mpr ⟨hrest, ts, rfl, h⟩
  obtain ⟨hn, -, -⟩ := h
  refine statementsFrom_simple ?_
  simp only [simpleStatement, hn]
  exact hassign

theorem Passes.set {ts : List Token} (hk : t.kind = .keyword .set) (h : Assignment ts s) :
    Passes (t :: ts) s := by
  intro outer done rest hrest
  refine statementsFrom_simple ?_
  simp only [simpleStatement, hk]
  exact assignment_eq_ok_iff.mpr ⟨hrest, ts, rfl, h⟩

theorem Passes.print {n : Token} {e : Expr} (hk : t.kind = .keyword .print)
    (he : n.kind = .text ∧ e = .text n.content ∨ n.kind = .identifier ∧ e = .var n.content) :
    Passes [t, n] (.print (some e)) := by
  intro outer done rest _
  refine statementsFrom_simple ?_
  simp only [simpleStatement, hk]
  exact except_bind_eq_ok.mpr ⟨_, printOperand_eq_ok_iff.mpr ⟨n, rfl, he⟩, rfl⟩

theorem Passes.read {n : Token} (hk : t.kind = .keyword .read) (hn : n.kind = .identifier) :
    Passes [t, n] (.read n.content) := by
  intro outer done rest _
  refine statementsFrom_simple ?_
  simp only [simpleStatement, hk]
  exact except_bind_eq_ok.mpr ⟨_, expect_eq_ok_iff.mpr ⟨n, rfl, hn, rfl⟩, rfl⟩

/-- Behind the head of a conditional the parser has opened it. -/
theorem statementsFrom_test {test rest : List Token} {left op right : Bytes}
    (h : Test test left op right) (outer : List OpenConditional) (done : List Stmt) :
    statementsFrom outer done (test ++ rest) =
      statementsFrom (⟨⟨left, op, right⟩, none, done⟩ :: outer) [] rest := by
  obtain ⟨t, ts, rfl, hk⟩ := h.start
  exact statementsFrom_if hk ((condition_eq_ok_iff hk).mpr ⟨ts, rfl, h⟩)

theorem Passes.conditional {test ts : List Token} {k : Token} {left op right : Bytes}
    {body : List Stmt} (htest : Test test left op right) (h : PassesAll ts body)
    (hk : k.kind = .keyword .endIf) :
    Passes (test ++ ts ++ [k]) (.conditional left op right body []) := by
  intro outer done rest _
  rw [List.append_assoc, List.append_assoc, List.singleton_append, statementsFrom_test htest,
    h _ _ _ (endsExpression_cons hk rfl), statementsFrom_endIf hk]
  simp only [List.append_nil, List.reverse_reverse, OpenConditional.close]

theorem Passes.alternative {test ts us : List Token} {e k : Token} {left op right : Bytes}
    {thenBody elseBody : List Stmt} (htest : Test test left op right)
    (hthen : PassesAll ts thenBody) (he : e.kind = .keyword .elsePart)
    (helse : PassesAll us elseBody) (hk : k.kind = .keyword .endIf) :
    Passes (test ++ ts ++ e :: us ++ [k]) (.conditional left op right thenBody elseBody) := by
  intro outer done rest _
  have htokens : test ++ ts ++ e :: us ++ [k] ++ rest = test ++ (ts ++ (e :: (us ++ k :: rest))) := by
    simp
  rw [htokens, statementsFrom_test htest, hthen _ _ _ (endsExpression_cons he rfl),
    statementsFrom_else he rfl, helse _ _ _ (endsExpression_cons hk rfl), statementsFrom_endIf hk]
  simp only [List.append_nil, List.reverse_reverse, OpenConditional.close]

theorem PassesAll.cons {ts us : List Token} {rest : List Stmt} (hp : Passes ts s)
    (hrest : Statements us rest) (hps : PassesAll us rest) :
    PassesAll (ts ++ us) (s :: rest) := by
  intro outer done tail htail
  rw [List.append_assoc, hp _ _ _ (endsExpression_statements hrest htail), hps _ _ _ htail]
  simp

mutual

theorem passes_of_statement : {ts : List Token} → {s : Stmt} → Statement ts s → Passes ts s
  | _, _, .assign h => .assign h
  | _, _, .set hk h => .set hk h
  | _, _, .printText hk ht => .print hk (.inl ⟨ht, rfl⟩)
  | _, _, .printName hk ht => .print hk (.inr ⟨ht, rfl⟩)
  | _, _, .read hk hn => .read hk hn
  | _, _, .conditional htest h hk => .conditional htest (passesAll_of_statements h) hk
  | _, _, .alternative htest hthen he helse hk =>
    .alternative htest (passesAll_of_statements hthen) he (passesAll_of_statements helse) hk

theorem passesAll_of_statements :
    {ts : List Token} → {ss : List Stmt} → Statements ts ss → PassesAll ts ss
  | _, _, .nil => fun _ _ _ _ => rfl
  | _, _, .cons h hrest => .cons (passes_of_statement h) hrest (passesAll_of_statements hrest)

end

/-- The tokens that were read before the present list of statements. -/
inductive Encloses : List OpenConditional → List Token → Prop
  | nil : Encloses [] []
  | thenPart {outer : List OpenConditional} {vs us test : List Token} {before : List Stmt}
      {c : Condition} (h : Encloses outer vs) (hbefore : Statements us before.reverse)
      (htest : Test test c.left c.op c.right) :
      Encloses (⟨c, none, before⟩ :: outer) (vs ++ us ++ test)
  | elsePart {outer : List OpenConditional} {vs us test ts : List Token} {e : Token}
      {before thenBody : List Stmt} {c : Condition} (h : Encloses outer vs)
      (hbefore : Statements us before.reverse) (htest : Test test c.left c.op c.right)
      (hthen : Statements ts thenBody) (he : e.kind = .keyword .elsePart) :
      Encloses (⟨c, some thenBody, before⟩ :: outer) (vs ++ us ++ test ++ ts ++ [e])

/-- What the parser reads up to the end of the program completes the statements of the grammar. -/
theorem statements_of_statementsFrom {outer : List OpenConditional} {done body : List Stmt}
    {vs us : List Token} (h : statementsFrom outer done tokens = .ok (body, rest))
    (ho : Encloses outer vs) (hd : Statements us done.reverse) :
    ∃ ts e, tokens = ts ++ e :: rest ∧ e.kind = .keyword .endBody ∧
      Statements (vs ++ us ++ ts) body := by
  -- The tokens of the enclosing conditionals, those of the statements that are done and those ahead
  -- are all tokens of the body, at every call.
  fun_induction statementsFrom outer done tokens generalizing vs us with
  | case1 => cases h
  | case2 done t tokens hk =>
    cases h
    cases ho
    exact ⟨[], t, rfl, hk, by simpa using hd⟩
  | case3 done t tokens o outer hk hthen ih =>
    simp only [wfParam, List.unattach_reverse, List.unattach_attach] at hthen ih
    cases ho with
    | elsePart => cases hthen
    | thenPart ho hbefore htest =>
      obtain ⟨ts, e, rfl, he, hs⟩ := ih h (.elsePart ho hbefore htest hd hk) .nil
      exact ⟨t :: ts, e, rfl, he, by simpa using hs⟩
  | case4 => cases h
  | case5 done t tokens o outer hk ih =>
    simp only [wfParam, List.unattach_reverse, List.unattach_attach] at ih
    cases ho with
    | thenPart ho hbefore htest =>
      have hlast := hbefore.concat (.conditional htest hd hk)
      obtain ⟨ts, e, rfl, he, hs⟩ := ih h ho (by simpa [OpenConditional.close] using hlast)
      exact ⟨t :: ts, e, rfl, he, by simpa using hs⟩
    | elsePart ho hbefore htest hthen helse =>
      have hlast := hbefore.concat (.alternative htest hthen helse hd hk)
      obtain ⟨ts, e, rfl, he, hs⟩ := ih h ho (by simpa [OpenConditional.close] using hlast)
      exact ⟨t :: ts, e, rfl, he, by simpa using hs⟩
  | case6 => cases h
  | case7 outer done t tokens hk c tokens' hc ih =>
    obtain ⟨test, rfl, htest⟩ := (condition_eq_ok_iff hk).mp hc
    obtain ⟨ts, e, rfl, he, hs⟩ := ih h (.thenPart ho hd htest) .nil
    exact ⟨t :: test ++ ts, e, by simp, he, by simpa using hs⟩
  | case8 => cases h
  | case9 outer done t tokens s tokens' hstatement _ _ _ _ ih =>
    obtain ⟨ts, hts, hs⟩ := statement_of_simpleStatement hstatement
    obtain ⟨ts', e, rfl, he, hss⟩ := ih h ho (by simpa using hd.concat hs)
    exact ⟨ts ++ ts', e, by simp [hts], he, by simpa using hss⟩

end Parser

end ClassForge
