import Mathlib
import ClassForge.Proofs.Grammar
import ClassForge.Sequencing
import ClassForge.Source.Parser

/-! The parser of expressions follows the grammar. Its stack of pending operators holds what has been
read of each level that is still open. -/

namespace ClassForge

open Grammar

def Grammar.Level.rank : Level → Nat
  | comparison => 1
  | sum => 2
  | product => 3
  | factor => 4

/-- The level of the right operands of a level. -/
def Grammar.Level.next : Level → Level
  | comparison => sum
  | sum => product
  | product => factor
  | factor => factor

namespace Operator

def level (o : Operator) : Level :=
  if o.isComparison then .comparison
  else if o.op == ("+" : Bytes) || o.op == ("-" : Bytes) then .sum
  else .product

theorem rank_level (o : Operator) : o.level.rank = o.priority := by
  simp only [level, priority]
  split
  · rfl
  · split <;> rfl

theorem rank_next_level (o : Operator) : o.level.next.rank = o.priority + 1 := by
  simp only [level, priority]
  split
  · rfl
  · split <;> rfl

theorem ofKind?_of_relation? {kind : TokenKind} {op : Bytes} (h : relation? kind = some op) :
    ofKind? kind = some ⟨true, op⟩ := by
  unfold relation? at h
  split at h <;> cases h <;> rfl

theorem ofKind?_of_additive? {kind : TokenKind} {op : Bytes} (h : additive? kind = some op) :
    ofKind? kind = some ⟨false, op⟩ ∧ level ⟨false, op⟩ = .sum := by
  unfold additive? at h
  split at h <;> cases h <;> exact ⟨rfl, rfl⟩

theorem ofKind?_of_multiplicative? {kind : TokenKind} {op : Bytes}
    (h : multiplicative? kind = some op) :
    ofKind? kind = some ⟨false, op⟩ ∧ level ⟨false, op⟩ = .product := by
  unfold multiplicative? at h
  split at h <;> cases h <;> exact ⟨rfl, rfl⟩

theorem ofKind?_eq_some {kind : TokenKind} {o : Operator} (h : ofKind? kind = some o) :
    (∃ op, o = ⟨true, op⟩ ∧ relation? kind = some op) ∨
      (∃ op, o = ⟨false, op⟩ ∧ additive? kind = some op) ∨
      ∃ op, o = ⟨false, op⟩ ∧ multiplicative? kind = some op := by
  unfold ofKind? at h
  split at h <;> cases h <;> simp [relation?, additive?, multiplicative?]

theorem ofKind?_comparison_iff {kind : TokenKind} {op : Bytes} :
    ofKind? kind = some ⟨true, op⟩ ↔ relation? kind = some op := by
  refine ⟨fun h => ?_, ofKind?_of_relation?⟩
  rcases ofKind?_eq_some h with ⟨_, ⟨⟩, hop⟩ | ⟨_, ⟨⟩, -⟩ | ⟨_, ⟨⟩, -⟩
  exact hop

end Operator

namespace Grammar

variable {level level' : Level} {ts us : List Token} {t : Token} {e a b : Expr} {o : Operator}

/-- An expression of a tighter level is one of a looser level. -/
theorem Expression.mono (h : Expression level' ts e) (hle : level.rank ≤ level'.rank) :
    Expression level ts e := by
  have hfactor (h : Expression .factor ts e) : Expression .product ts e := .factor h
  have hproduct (h : Expression .product ts e) : Expression .sum ts e := .product h
  have hsum (h : Expression .sum ts e) : Expression .comparison ts e := .sum h
  cases level <;> cases level' <;> simp [Level.rank] at hle <;> tauto

/-- Two operands and an operator between them are an expression of the level of the operator. -/
theorem Expression.node (ht : Operator.ofKind? t.kind = some o) (ha : Expression o.level ts a)
    (hb : Expression o.level.next us b) : Expression o.level (ts ++ t :: us) (o.node a b) := by
  rcases Operator.ofKind?_eq_some ht with ⟨op, rfl, hop⟩ | ⟨op, rfl, hop⟩ | ⟨op, rfl, hop⟩
  · exact .compare ha hop hb
  · rw [(Operator.ofKind?_of_additive? hop).2] at ha hb ⊢
    exact .add ha hop hb
  · rw [(Operator.ofKind?_of_multiplicative? hop).2] at ha hb ⊢
    exact .multiply ha hop hb

end Grammar

namespace Parser

variable {level level' : Level} {ts us : List Token} {t : Token} {e a b : Expr} {o : Operator}

/-- Joins a term with the pending operators that bind at least as tight as `least`. -/
abbrev reduce (least : Nat) (pending : Pending) (term : Expr) : Pending × Expr :=
  Precedence.reduce Operator.node Operator.priority least pending term

/-- The latest pending operator binds looser than the rank. -/
def Loose (rank : Nat) (pending : Pending) : Prop :=
  ∀ x ∈ pending.head?, x.2.priority < rank

theorem Loose.nil (rank : Nat) : Loose rank [] := by
  simp [Loose]

theorem Loose.mono {rank rank' : Nat} {pending : Pending} (h : Loose rank pending)
    (hle : rank ≤ rank') : Loose rank' pending :=
  fun x hx => (h x hx).trans_le hle

theorem reduce_of_loose {rank : Nat} {pending : Pending} (h : Loose rank pending) (term : Expr) :
    reduce rank pending term = (pending, term) := by
  cases pending with
  | nil => rfl
  | cons x pending =>
    have hlt := h x rfl
    exact if_neg (by omega)

/-- From the start of the tokens on, the parser gets behind them, with the tree of the tokens as its
term as far as looser operators are concerned. -/
def Reads (level : Level) (ts : List Token) (e : Expr) : Prop :=
  ∀ outer pending rest, Loose level.rank pending → ∃ pending' term,
    termFrom outer pending (ts ++ rest) = operatorFrom outer pending' term rest ∧
      ∀ least ≤ level.rank, reduce least pending' term = reduce least pending e

theorem Reads.loosen (h : Reads level' ts e) (hle : level.rank ≤ level'.rank) :
    Reads level ts e := by
  intro outer pending rest hloose
  obtain ⟨pending', term, hruns, hreduce⟩ := h outer pending rest (hloose.mono hle)
  exact ⟨pending', term, hruns, fun least hl => hreduce least (hl.trans hle)⟩

theorem Reads.node (ht : Operator.ofKind? t.kind = some o) (ha : Reads o.level ts a)
    (hb : Reads o.level.next us b) : Reads o.level (ts ++ t :: us) (o.node a b) := by
  intro outer pending rest hloose
  obtain ⟨pending₁, term₁, hruns₁, hreduce₁⟩ := ha outer pending (t :: us ++ rest) hloose
  have hshift : Precedence.shift Operator.node Operator.priority o pending₁ term₁ =
      (a, o) :: pending := by
    have hjoined := (hreduce₁ o.priority o.rank_level.ge).trans
      (reduce_of_loose (o.rank_level ▸ hloose) a)
    simp only [Precedence.shift, hjoined]
  have hloose₂ : Loose o.level.next.rank ((a, o) :: pending) := by
    rintro x ⟨⟩
    rw [o.rank_next_level]
    exact Nat.lt_succ_self _
  obtain ⟨pending₂, term₂, hruns₂, hreduce₂⟩ := hb outer ((a, o) :: pending) rest hloose₂
  refine ⟨pending₂, term₂, ?_, fun least hl => ?_⟩
  · rw [List.append_assoc, hruns₁, List.cons_append, operatorFrom]
    simp only [ht, hshift, hruns₂]
  · rw [o.rank_level] at hl
    rw [hreduce₂ least (by rw [o.rank_next_level]; omega)]
    exact if_pos hl

theorem Reads.parentheses {l r : Token} (hl : l.kind = .symbol .leftParen)
    (h : Reads .comparison ts e) (hr : r.kind = .symbol .rightParen) :
    Reads .factor (l :: ts ++ [r]) e := by
  intro outer pending rest _
  obtain ⟨pending', term, hruns, hreduce⟩ := h (pending :: outer) [] (r :: rest) (.nil _)
  refine ⟨pending, e, ?_, fun _ _ => rfl⟩
  have hwhole : Precedence.finish Operator.node Operator.priority pending' term = e :=
    congrArg Prod.snd (hreduce 0 (Nat.zero_le _))
  have htokens : l :: ts ++ [r] ++ rest = l :: (ts ++ r :: rest) := by simp
  rw [htokens, termFrom]
  simp only [hl, hruns]
  rw [operatorFrom]
  simp only [hr, Operator.ofKind?, hwhole, if_true]

/-- The parser reads what the grammar derives. -/
theorem reads_of_expression {level : Level} {ts : List Token} {e : Expr}
    (h : Expression level ts e) : Reads level ts e := by
  induction h with
  | number h =>
    intro outer pending rest _
    exact ⟨pending, _, by simp [termFrom, h], fun _ _ => rfl⟩
  | text h =>
    intro outer pending rest _
    exact ⟨pending, _, by simp [termFrom, h], fun _ _ => rfl⟩
  | name h =>
    intro outer pending rest _
    exact ⟨pending, _, by simp [termFrom, h], fun _ _ => rfl⟩
  | parentheses hl _ hr ih => exact ih.parentheses hl hr
  | factor _ ih => exact ih.loosen (by decide)
  | multiply _ ht _ iha ihb =>
    obtain ⟨ho, hlevel⟩ := Operator.ofKind?_of_multiplicative? ht
    exact hlevel ▸ Reads.node ho (hlevel ▸ iha) (hlevel ▸ ihb)
  | product _ ih => exact ih.loosen (by decide)
  | add _ ht _ iha ihb =>
    obtain ⟨ho, hlevel⟩ := Operator.ofKind?_of_additive? ht
    exact hlevel ▸ Reads.node ho (hlevel ▸ iha) (hlevel ▸ ihb)
  | sum _ ih => exact ih.loosen (by decide)
  | compare _ ht _ iha ihb => exact Reads.node (Operator.ofKind?_of_relation? ht) iha ihb

/-- No operator stands first, so that an expression may end before the tokens. -/
def EndsExpression (rest : List Token) : Prop :=
  ∀ t ∈ rest.head?, Operator.ofKind? t.kind = none

theorem expression_eq_ok {rest : List Token} (h : Expression .comparison ts e)
    (hrest : EndsExpression rest) : expression (ts ++ rest) = .ok (e, rest) := by
  obtain ⟨pending, term, hruns, hreduce⟩ := reads_of_expression h [] [] rest (.nil _)
  have hwhole : Precedence.finish Operator.node Operator.priority pending term = e :=
    congrArg Prod.snd (hreduce 0 (Nat.zero_le _))
  rw [expression, hruns]
  cases rest with
  | nil => simp only [operatorFrom, hwhole]
  | cons t rest => simp only [operatorFrom, hrest t rfl, hwhole]

/-- The tokens that pending operators and their left operands were read from. -/
inductive Pends : Pending → List Token → Prop
  | nil : Pends [] []
  | cons {pending : Pending} {us ts : List Token} {left : Expr} {o : Operator} {t : Token}
      (h : Pends pending us) (hleft : Expression o.level ts left)
      (ht : Operator.ofKind? t.kind = some o) (hloose : Loose o.priority pending) :
      Pends ((left, o) :: pending) (us ++ ts ++ [t])

/-- The tokens that were read outside of the open parentheses. -/
inductive Opens : List Pending → List Token → Prop
  | nil : Opens [] []
  | cons {outer : List Pending} {pending : Pending} {vs us : List Token} {l : Token}
      (h : Opens outer vs) (hp : Pends pending us) (hl : l.kind = .symbol .leftParen) :
      Opens (pending :: outer) (vs ++ us ++ [l])

/-- Joining a term with pending operators gives a tree of the tokens, and the operators that are
left bind looser. -/
theorem Pends.reduce {pending : Pending} {term : Expr} {least : Nat} (hp : Pends pending us)
    (ht : Expression level ts term) (hloose : Loose level.rank pending)
    (hleast : least ≤ level.rank) :
    ∃ level' us' ts', Pends (reduce least pending term).1 us' ∧
      Expression level' ts' (reduce least pending term).2 ∧ us ++ ts = us' ++ ts' ∧
      Loose least (reduce least pending term).1 ∧ least ≤ level'.rank := by
  induction hp generalizing level ts term with
  | nil => exact ⟨level, [], ts, .nil, ht, rfl, .nil _, hleast⟩
  | @cons pending us ls left o t hp hleft htoken hbelow ih =>
    by_cases hle : least ≤ o.priority
    · have hright : Expression o.level.next ts term := by
        refine ht.mono ?_
        rw [o.rank_next_level]
        exact hloose (left, o) rfl
      have hnode := Expression.node htoken hleft hright
      obtain ⟨level', us', ts', hp', ht', heq, hrest⟩ :=
        ih hnode (o.rank_level ▸ hbelow) (o.rank_level ▸ hle)
      have hstep : Parser.reduce least ((left, o) :: pending) term =
          Parser.reduce least pending (o.node left term) := if_pos hle
      rw [hstep]
      refine ⟨level', us', ts', hp', ht', ?_, hrest⟩
      rw [← heq]
      simp
    · have hstep : Parser.reduce least ((left, o) :: pending) term =
          ((left, o) :: pending, term) := if_neg hle
      rw [hstep]
      refine ⟨level, _, ts, hp.cons hleft htoken hbelow, ht, rfl, ?_, hleast⟩
      rintro x ⟨⟩
      exact Nat.lt_of_not_le hle

theorem loose_factor (pending : Pending) : Loose Level.factor.rank pending := by
  intro x _
  simp only [Operator.priority, Level.rank]
  split
  · omega
  · split <;> omega

theorem Pends.finish {pending : Pending} {term : Expr} (hp : Pends pending us)
    (ht : Expression .factor ts term) :
    Expression .comparison (us ++ ts)
      (Precedence.finish Operator.node Operator.priority pending term) := by
  obtain ⟨level', us', ts', hp', ht', heq, hbelow, -⟩ :=
    hp.reduce ht (loose_factor pending) (Nat.zero_le _)
  cases hrest : (Parser.reduce 0 pending term).1 with
  | nil =>
    rw [hrest] at hp'
    cases hp'
    rw [heq]
    exact ht'.mono (by cases level' <;> decide)
  | cons x rest =>
    rw [hrest] at hbelow
    exact absurd (hbelow x rfl) (Nat.not_lt_zero _)

theorem Pends.shift {pending : Pending} {term : Expr} (hp : Pends pending us)
    (ht : Expression .factor ts term) (ho : Operator.ofKind? t.kind = some o) :
    Pends (Precedence.shift Operator.node Operator.priority o pending term) (us ++ ts ++ [t]) := by
  have hle : o.priority ≤ Level.factor.rank :=
    (loose_factor [(term, o)] (term, o) rfl).le
  obtain ⟨level', us', ts', hp', ht', heq, hbelow, hrank⟩ :=
    hp.reduce ht (loose_factor pending) hle
  rw [heq]
  exact hp'.cons (ht'.mono (by rwa [o.rank_level])) ho hbelow

mutual

/-- What the parser reads from the start of a term on completes an expression of the grammar. -/
theorem expression_of_termFrom {outer : List Pending} {pending : Pending}
    {vs us tokens rest : List Token} (h : termFrom outer pending tokens = .ok (e, rest))
    (ho : Opens outer vs) (hp : Pends pending us) :
    EndsExpression rest ∧ ∃ ts, tokens = ts ++ rest ∧
      Expression .comparison (vs ++ us ++ ts) e := by
  cases tokens with
  | nil => simp [termFrom] at h
  | cons t tokens =>
    have hafter {term : Expr} (hterm : Expression .factor [t] term)
        (h : operatorFrom outer pending term tokens = .ok (e, rest)) :
        EndsExpression rest ∧ ∃ ts, t :: tokens = ts ++ rest ∧
          Expression .comparison (vs ++ us ++ ts) e := by
      obtain ⟨hends, ts, heq, he⟩ := expression_of_operatorFrom h ho hp hterm
      exact ⟨hends, t :: ts, by simp [heq], by simpa using he⟩
    simp only [termFrom] at h
    split at h
    · next hk => exact hafter (.number hk) h
    · next hk => exact hafter (.text hk) h
    · next hk => exact hafter (.name hk) h
    · next hk =>
      obtain ⟨hends, ts, heq, he⟩ := expression_of_termFrom h (ho.cons hp hk) .nil
      exact ⟨hends, t :: ts, by simp [heq], by simpa using he⟩
    · cases h
termination_by structural tokens

theorem expression_of_operatorFrom {outer : List Pending} {pending : Pending} {term : Expr}
    {vs us ts tokens rest : List Token}
    (h : operatorFrom outer pending term tokens = .ok (e, rest)) (ho : Opens outer vs)
    (hp : Pends pending us) (ht : Expression .factor ts term) :
    EndsExpression rest ∧ ∃ ts', tokens = ts' ++ rest ∧
      Expression .comparison (vs ++ us ++ ts ++ ts') e := by
  cases tokens with
  | nil =>
    cases ho with
    | nil =>
      cases h
      exact ⟨by simp [EndsExpression], [], rfl, by simpa using hp.finish ht⟩
    | cons => simp [operatorFrom] at h
  | cons t tokens =>
    simp only [operatorFrom] at h
    cases hop : Operator.ofKind? t.kind with
    | some o =>
      simp only [hop] at h
      obtain ⟨hends, ts', heq, he⟩ := expression_of_termFrom h ho (hp.shift ht hop)
      exact ⟨hends, t :: ts', by simp [heq], by simpa using he⟩
    | none =>
      simp only [hop] at h
      cases ho with
      | nil =>
        cases h
        refine ⟨?_, [], rfl, by simpa using hp.finish ht⟩
        rintro t' ⟨⟩
        exact hop
      | cons ho' hp' hl =>
        simp only at h
        split at h
        · next hr =>
          -- The closed parentheses are a factor, behind the operators that were pending outside.
          obtain ⟨hends, ts', heq, he⟩ :=
            expression_of_operatorFrom h ho' hp' (.parentheses hl (hp.finish ht) hr)
          exact ⟨hends, t :: ts', by simp [heq], by simpa using he⟩
        · cases h
termination_by structural tokens

end

/-- The parser of expressions accepts the expressions of the grammar, up to the first token that
goes on with none. -/
theorem expression_eq_ok_iff {tokens rest : List Token} :
    expression tokens = .ok (e, rest) ↔
      EndsExpression rest ∧ ∃ ts, tokens = ts ++ rest ∧ Expression .comparison ts e := by
  constructor
  · intro h
    simpa using expression_of_termFrom h .nil .nil
  · rintro ⟨hends, ts, rfl, he⟩
    exact expression_eq_ok he hends

end Parser

end ClassForge
