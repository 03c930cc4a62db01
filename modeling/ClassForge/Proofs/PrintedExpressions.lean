import ClassForge.Proofs.ExpressionParsing
import ClassForge.Proofs.TokenSpans

/-! The printed form of an expression, which has parentheses around every operation, and what is read
when it is taken as a source text. -/

namespace ClassForge

open Grammar

/-- The literals, names and operators of the tree are those that a source text can have. -/
def Expr.IsWritten : Expr → Prop
  | int digits => digits ≠ [] ∧ digits.all Bytes.isDigit = true
  | text literal => ∃ inner, literal = 0x22 :: inner ++ [0x22] ∧ 0x22 ∉ inner ∧ 0x0a ∉ inner
  | var name => Bytes.isIdentifier name = true ∧ Keyword.ofWord? name = none
  | arithmetic op left right =>
    op ∈ (["+", "-", "*", "/"] : List Bytes) ∧ left.IsWritten ∧ right.IsWritten
  | comparison op left right =>
    op ∈ (["GT", "LT", "EQ", "NEQ"] : List Bytes) ∧ left.IsWritten ∧ right.IsWritten

namespace Expr

variable {e left right : Expr} {rest : Bytes} {op : Bytes}

/-- What follows makes no lexeme longer. -/
def Breaks (rest : Bytes) : Prop :=
  ∀ b ∈ rest.head?, Bytes.isWord b = false ∧ b ≠ 0x3e

theorem Breaks.endsBefore (h : Breaks rest) (kind : TokenKind) : kind.EndsBefore rest := by
  have hword : ∀ b ∈ rest.head?, Bytes.isWord b = false := fun b hb => (h b hb).1
  cases kind with
  | keyword k => exact hword
  | identifier => exact hword
  | number =>
    intro b hb
    by_contra hdigit
    have hcontra := Bytes.isWord_of_isDigit (Bool.eq_true_of_not_eq_false hdigit)
    rw [hword b hb] at hcontra
    cases hcontra
  | text => trivial
  | symbol s =>
    cases s with
    | less => exact fun hhead => (h _ hhead).2 rfl
    | _ => trivial

/-- Wherever the printed expression stands, its tokens are a factor of the grammar. -/
def Scans (e : Expr) : Prop :=
  ∀ (line position : Nat) (rest : Bytes) (tokens : Array Token), Breaks rest →
    ∃ position' tokens' ts, tokens'.toList = tokens.toList ++ ts ∧ Expression .factor ts e ∧
      Lexer.scanLine line position 0 (e.renderBefore rest) tokens =
        Lexer.scanLine line position' 0 rest tokens'

theorem Scans.leaf {kind : TokenKind} {word : Bytes} (hspelled : kind.Spelled word)
    (hrender : ∀ rest, e.renderBefore rest = word ++ rest)
    (he : ∀ t : Token, t.kind = kind → t.content = word → Expression .factor [t] e) : e.Scans := by
  intro line position rest tokens hrest
  refine ⟨position + word.length, _, [.ofLexeme kind word line position], Array.toList_push,
    he _ rfl rfl, ?_⟩
  rw [hrender, Lexer.scanLine_lexeme hspelled (hrest.endsBefore kind)]

theorem renderBefore_node (o : Operator) (left right : Expr) (rest : Bytes) :
    (o.node left right).renderBefore rest =
      "(" ++ left.renderBefore (0x20 :: (o.op ++ 0x20 :: right.renderBefore (")" ++ rest))) := by
  simp only [Operator.node]
  split <;> simp only [renderBefore, List.append_assoc] <;> rfl

theorem Scans.node {o : Operator} {kind : TokenKind} (hop : kind.Spelled o.op)
    (ho : Operator.ofKind? kind = some o) (hleft : left.Scans) (hright : right.Scans) :
    (o.node left right).Scans := by
  intro line position rest tokens hrest
  have hspace (text : Bytes) : Breaks (0x20 :: text) := by
    intro b hb
    cases hb
    exact ⟨by decide, by decide⟩
  have hclose : Breaks (")" ++ rest) := by
    intro b hb
    cases (hb : some 0x29 = some b)
    exact ⟨by decide, by decide⟩
  -- The left operand stands behind the parenthesis, the right one behind the operator.
  obtain ⟨p₁, tokens₁, ts, htokens₁, hts, hrun₁⟩ := hleft line (position + ("(" : Bytes).length)
    (0x20 :: (o.op ++ 0x20 :: right.renderBefore (")" ++ rest)))
    (tokens.push (.ofLexeme (.symbol .leftParen) "(" line position)) (hspace _)
  obtain ⟨p₂, tokens₂, us, htokens₂, hus, hrun₂⟩ := hright line (p₁ + 1 + o.op.length + 1)
    (")" ++ rest) (tokens₁.push (.ofLexeme kind o.op line (p₁ + 1))) hclose
  refine ⟨p₂ + (")" : Bytes).length, tokens₂.push (.ofLexeme (.symbol .rightParen) ")" line p₂),
    .ofLexeme (.symbol .leftParen) "(" line position ::
      (ts ++ .ofLexeme kind o.op line (p₁ + 1) :: us) ++
        [.ofLexeme (.symbol .rightParen) ")" line p₂],
    ?_, .parentheses rfl ?_ rfl, ?_⟩
  · rw [Array.toList_push, htokens₂, Array.toList_push, htokens₁, Array.toList_push]
    simp only [List.append_assoc, List.cons_append, List.nil_append]
  · have hl : Expression o.level ts left := hts.mono (by cases o.level <;> decide)
    have hr : Expression o.level.next us right := hus.mono (by cases o.level <;> decide)
    have hnode := Expression.node (t := .ofLexeme kind o.op line (p₁ + 1)) ho hl hr
    exact hnode.mono (by cases o.level <;> decide)
  · have hopens : TokenKind.Spelled (.symbol .leftParen) "(" := rfl
    have hcloses : TokenKind.Spelled (.symbol .rightParen) ")" := rfl
    rw [renderBefore_node, Lexer.scanLine_lexeme hopens trivial, hrun₁,
      Lexer.scanLine_space (by decide), Lexer.scanLine_lexeme hop ((hspace _).endsBefore kind),
      Lexer.scanLine_space (by decide), hrun₂, Lexer.scanLine_lexeme hcloses trivial]

theorem exists_kind_of_arithmetic (h : op ∈ (["+", "-", "*", "/"] : List Bytes)) :
    ∃ kind : TokenKind, kind.Spelled op ∧ Operator.ofKind? kind = some ⟨false, op⟩ := by
  simp only [List.mem_cons, List.not_mem_nil, or_false] at h
  rcases h with rfl | rfl | rfl | rfl
  · exact ⟨.symbol .plus, rfl, rfl⟩
  · exact ⟨.symbol .minus, rfl, rfl⟩
  · exact ⟨.symbol .times, rfl, rfl⟩
  · exact ⟨.symbol .slash, rfl, rfl⟩

theorem exists_kind_of_comparison (h : op ∈ (["GT", "LT", "EQ", "NEQ"] : List Bytes)) :
    ∃ kind : TokenKind, kind.Spelled op ∧ Operator.ofKind? kind = some ⟨true, op⟩ := by
  simp only [List.mem_cons, List.not_mem_nil, or_false] at h
  rcases h with rfl | rfl | rfl | rfl
  · exact ⟨.keyword .gt, rfl, rfl⟩
  · exact ⟨.keyword .lt, rfl, rfl⟩
  · exact ⟨.keyword .eq, rfl, rfl⟩
  · exact ⟨.keyword .neq, rfl, rfl⟩

theorem IsWritten.scans (h : e.IsWritten) : e.Scans := by
  induction e with
  | int digits =>
    refine .leaf (show TokenKind.Spelled .number digits from h) (fun _ => rfl) fun t hk hc => ?_
    subst hc
    exact .number hk
  | text literal =>
    refine .leaf (show TokenKind.Spelled .text literal from h) (fun _ => rfl) fun t hk hc => ?_
    subst hc
    exact .text hk
  | var name =>
    refine .leaf (show TokenKind.Spelled .identifier name from h) (fun _ => rfl) fun t hk hc => ?_
    subst hc
    exact .name hk
  | arithmetic op left right ihleft ihright =>
    obtain ⟨hop, hleft, hright⟩ := h
    obtain ⟨kind, hspelled, ho⟩ := exists_kind_of_arithmetic hop
    exact Scans.node hspelled ho (ihleft hleft) (ihright hright)
  | comparison op left right ihleft ihright =>
    obtain ⟨hop, hleft, hright⟩ := h
    obtain ⟨kind, hspelled, ho⟩ := exists_kind_of_comparison hop
    exact Scans.node hspelled ho (ihleft hleft) (ihright hright)

theorem newline_not_mem_node {o : Operator} (hop : 0x0a ∉ o.op)
    (hleft : ∀ rest, 0x0a ∉ rest → 0x0a ∉ left.renderBefore rest)
    (hright : ∀ rest, 0x0a ∉ rest → 0x0a ∉ right.renderBefore rest) (hrest : 0x0a ∉ rest) :
    0x0a ∉ (o.node left right).renderBefore rest := by
  have hopened : (0x0a : UInt8) ∉ ("(" : Bytes) := by decide
  have hclosed : (0x0a : UInt8) ∉ (")" : Bytes) := by decide
  have hinner := hright (")" ++ rest) (by simp [hclosed, hrest])
  have houter := hleft (0x20 :: (o.op ++ 0x20 :: right.renderBefore (")" ++ rest)))
    (by simp [hop, hinner])
  rw [renderBefore_node, List.mem_append, not_or]
  exact ⟨hopened, houter⟩

theorem IsWritten.newline_not_mem (h : e.IsWritten) (hrest : 0x0a ∉ rest) :
    0x0a ∉ e.renderBefore rest := by
  have hleaf (kind : TokenKind) (word rest : Bytes) (hspelled : kind.Spelled word)
      (hrest : 0x0a ∉ rest) : 0x0a ∉ word ++ rest := by
    rw [List.mem_append, not_or]
    exact ⟨hspelled.newline_not_mem, hrest⟩
  induction e generalizing rest with
  | int digits => exact hleaf .number digits rest h hrest
  | text literal => exact hleaf .text literal rest h hrest
  | var name => exact hleaf .identifier name rest h hrest
  | arithmetic op left right ihleft ihright =>
    obtain ⟨hop, hleft, hright⟩ := h
    obtain ⟨kind, hspelled, -⟩ := exists_kind_of_arithmetic hop
    exact newline_not_mem_node (o := ⟨false, op⟩) hspelled.newline_not_mem
      (fun _ hr => ihleft hleft hr) (fun _ hr => ihright hright hr) hrest
  | comparison op left right ihleft ihright =>
    obtain ⟨hop, hleft, hright⟩ := h
    obtain ⟨kind, hspelled, -⟩ := exists_kind_of_comparison hop
    exact newline_not_mem_node (o := ⟨true, op⟩) hspelled.newline_not_mem
      (fun _ hr => ihleft hleft hr) (fun _ hr => ihright hright hr) hrest

/-- The printed expression is read as the expression, with nothing left. -/
theorem IsWritten.expression_render (h : e.IsWritten) :
    ∃ tokens, Token.scan e.render = .ok tokens ∧ Parser.expression tokens = .ok (e, []) := by
  obtain ⟨position, tokens, ts, htokens, hts, hrun⟩ := h.scans 1 0 [] #[] (by simp [Breaks])
  have hline : 0x0a ∉ e.render := h.newline_not_mem List.not_mem_nil
  have hscan := Token.scan_of_newline_not_mem hline hrun
  refine ⟨ts, ?_, ?_⟩
  · rw [show ts = tokens.toList by simpa using htokens.symm]
    exact hscan
  · have hcomparison : Expression .comparison ts e := hts.mono (by decide)
    exact Parser.expression_eq_ok_iff.mpr
      ⟨by simp [Parser.EndsExpression], ts, (List.append_nil ts).symm, hcomparison⟩

/-- The trees of lexemes are written ones. -/
theorem isWritten_of_expression {level : Level} {ts : List Token} (h : Expression level ts e)
    (hts : ∀ t ∈ ts, t.kind.Spelled t.content) : e.IsWritten := by
  induction h with
  | @number t hk =>
    have hspelled := hts t (by simp)
    rwa [hk] at hspelled
  | @text t hk =>
    have hspelled := hts t (by simp)
    rwa [hk] at hspelled
  | @name t hk =>
    have hspelled := hts t (by simp)
    rwa [hk] at hspelled
  | parentheses _ _ _ ih => exact ih fun t ht => hts t (by simp [ht])
  | factor _ ih => exact ih hts
  | product _ ih => exact ih hts
  | sum _ ih => exact ih hts
  | multiply _ hop _ iha ihb =>
    refine ⟨?_, iha fun t ht => hts t (by simp [ht]), ihb fun t ht => hts t (by simp [ht])⟩
    unfold multiplicative? at hop
    split at hop <;> cases hop <;> simp
  | add _ hop _ iha ihb =>
    refine ⟨?_, iha fun t ht => hts t (by simp [ht]), ihb fun t ht => hts t (by simp [ht])⟩
    unfold additive? at hop
    split at hop <;> cases hop <;> simp
  | compare _ hop _ iha ihb =>
    refine ⟨?_, iha fun t ht => hts t (by simp [ht]), ihb fun t ht => hts t (by simp [ht])⟩
    unfold relation? at hop
    split at hop <;> cases hop <;> simp

end Expr

/-- Printing an expression and reading it back gives the expression, for every tree that can be
written and so for all that are read from a source text. -/
theorem Parser.expression_of_render :
    (∀ e : Expr, e.IsWritten →
      ∃ tokens, Token.scan e.render = .ok tokens ∧ expression tokens = .ok (e, [])) ∧
    ∀ source tokens e rest, Token.scan source = .ok tokens → expression tokens = .ok (e, rest) →
      e.IsWritten ∧
        ∃ tokens', Token.scan e.render = .ok tokens' ∧ expression tokens' = .ok (e, []) := by
  refine ⟨fun e he => he.expression_render, fun source tokens e rest hscan hparse => ?_⟩
  obtain ⟨-, ts, rfl, hts⟩ := expression_eq_ok_iff.mp hparse
  have hwritten := Expr.isWritten_of_expression hts fun t ht =>
    Token.spelled_of_scan hscan t (List.mem_append_left _ ht)
  exact ⟨hwritten, hwritten.expression_render⟩

end ClassForge
