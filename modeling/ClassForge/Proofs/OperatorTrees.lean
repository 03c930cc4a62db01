import ClassForge.Source.Precedence
import Mathlib

/-! Trees whose leaves are the terms of a sequence and whose inner nodes are its operators. Joining
pending operators follows every tree that is ordered by priority, so a sequence has no more than one
such tree. -/

namespace ClassForge.Precedence

variable {α β γ : Type}

inductive Tree (α β : Type) where
  | leaf (term : α)
  | node (op : β) (left right : Tree α β)
deriving DecidableEq, Repr

namespace Tree

/-- The terms from left to right. One operator stands between two neighbours, so the terms and the
operators together are the in-order reading of the tree. -/
def terms : Tree α β → List α
  | leaf a => [a]
  | node _ left right => left.terms ++ right.terms

/-- The operators from left to right. -/
def operators : Tree α β → List β
  | leaf _ => []
  | node op left right => left.operators ++ op :: right.operators

def fold (term : α → γ) (join : β → γ → γ → γ) : Tree α β → γ
  | leaf a => term a
  | node op left right => join op (left.fold term join) (right.fold term join)

/-- At every node the operators on the left bind at least as tight as the one of the node, and those
on the right bind tighter. -/
def Ordered (priority : β → Nat) : Tree α β → Prop
  | leaf _ => True
  | node op left right =>
    (∀ o ∈ left.operators, priority op ≤ priority o) ∧
      (∀ o ∈ right.operators, priority op < priority o) ∧
      left.Ordered priority ∧ right.Ordered priority

instance Ordered.decidable (priority : β → Nat) : (t : Tree α β) → Decidable (t.Ordered priority)
  | leaf _ => isTrue trivial
  | node op left right =>
    have := decidable priority left
    have := decidable priority right
    inferInstanceAs (Decidable ((∀ o ∈ left.operators, priority op ≤ priority o) ∧
      (∀ o ∈ right.operators, priority op < priority o) ∧
      left.Ordered priority ∧ right.Ordered priority))

/-- The first term. -/
def first : Tree α β → α
  | leaf a => a
  | node _ left _ => left.first

/-- The operators, each with the term that follows it. -/
def steps : Tree α β → List (β × α)
  | leaf _ => []
  | node op left right => left.steps ++ (op, right.first) :: right.steps

@[simp]
theorem mem_operators_node {op o : β} {left right : Tree α β} :
    o ∈ (node op left right).operators ↔ o ∈ left.operators ∨ o = op ∨ o ∈ right.operators := by
  simp only [operators, List.mem_append, List.mem_cons]

theorem terms_eq (t : Tree α β) : t.terms = t.first :: t.steps.map Prod.snd := by
  induction t with
  | leaf a => rfl
  | node op left right ihleft ihright => simp [terms, first, steps, ihleft, ihright]

theorem operators_eq (t : Tree α β) : t.operators = t.steps.map Prod.fst := by
  induction t with
  | leaf a => rfl
  | node op left right ihleft ihright => simp [operators, steps, ihleft, ihright]

theorem first_eq_and_steps_eq {t : Tree α β} {a : α} {rest : List (β × α)}
    (hterms : t.terms = a :: rest.map Prod.snd) (hoperators : t.operators = rest.map Prod.fst) :
    t.first = a ∧ t.steps = rest := by
  rw [terms_eq, List.cons.injEq] at hterms
  rw [operators_eq] at hoperators
  have hzip : t.steps = (rest.map Prod.fst).zip (rest.map Prod.snd) :=
    List.zip_of_prod hoperators hterms.2
  exact ⟨hterms.1, hzip.trans (List.zip_of_prod rfl rfl).symm⟩

theorem fold_leaf_node (t : Tree α β) : t.fold leaf node = t := by
  induction t with
  | leaf a => rfl
  | node op left right ihleft ihright => rw [fold, ihleft, ihright]

end Tree

variable {priority : β → Nat} {t u : Tree α β} (term : α → γ) (join : β → γ → γ → γ)

theorem reduce_eq_self {least : Nat} {pending : List (γ × β)}
    (h : ∀ x ∈ pending.head?, priority x.2 < least) (value : γ) :
    reduce join priority least pending value = (pending, value) := by
  cases pending with
  | nil => rfl
  | cons x pending => exact if_neg (Nat.not_le.mpr (h x rfl))

/-- From the first term on, joining gets behind the last one, with the value of the tree as its term
as far as looser operators are concerned. -/
theorem Tree.Ordered.buildFrom_steps (ht : t.Ordered priority) (pending : List (γ × β))
    (hpending : ∀ x ∈ pending.head?, ∀ o ∈ t.operators, priority x.2 < priority o) :
    ∃ pending' value,
      (∀ rest, buildFrom join priority pending (term t.first)
          (t.steps.map (Prod.map id term) ++ rest) =
        buildFrom join priority pending' value rest) ∧
      ∀ least, (∀ o ∈ t.operators, least ≤ priority o) →
        reduce join priority least pending' value =
          reduce join priority least pending (t.fold term join) := by
  induction t generalizing pending with
  | leaf a => exact ⟨pending, term a, fun _ => rfl, fun _ _ => rfl⟩
  | node op left right ihleft ihright =>
    obtain ⟨hleft, hright, hol, hor⟩ := ht
    have hop : ∀ x ∈ pending.head?, priority x.2 < priority op := fun x hx =>
      hpending x hx op (by simp)
    obtain ⟨pending₁, value₁, hruns₁, hreduce₁⟩ := ihleft hol pending fun x hx o ho =>
      hpending x hx o (by simp [ho])
    -- The operator itself takes all of the left operand and nothing of what was pending before.
    have hshift : shift join priority op pending₁ value₁ =
        (left.fold term join, op) :: pending := by
      simp only [shift, (hreduce₁ (priority op) hleft).trans (reduce_eq_self join hop _)]
    obtain ⟨pending₂, value₂, hruns₂, hreduce₂⟩ :=
      ihright hor ((left.fold term join, op) :: pending) <| by
        rintro x ⟨⟩ o ho
        exact hright o ho
    refine ⟨pending₂, value₂, fun rest => ?_, fun least hleast => ?_⟩
    · simp only [first, steps, List.map_append, List.map_cons, List.append_assoc, List.cons_append,
        Prod.map, id, hruns₁, buildFrom, hshift]
      exact hruns₂ rest
    · rw [hreduce₂ least fun o ho => hleast o (by simp [ho])]
      exact if_pos (hleast op (by simp))

/-- An ordered tree is the one that is built of its terms and operators. -/
theorem Tree.Ordered.build_eq_fold (ht : t.Ordered priority) :
    build join priority (term t.first) (t.steps.map (Prod.map id term)) = t.fold term join := by
  obtain ⟨pending, value, hruns, hreduce⟩ := ht.buildFrom_steps term join [] (by simp)
  have hend := hruns []
  rw [List.append_nil] at hend
  calc build join priority (term t.first) (t.steps.map (Prod.map id term))
      = (reduce join priority 0 pending value).2 := hend
    _ = t.fold term join := congrArg Prod.snd (hreduce 0 fun _ _ => Nat.zero_le _)

theorem Tree.Ordered.build_eq {join : β → α → α → α} {a : α} {rest : List (β × α)}
    (ht : t.Ordered priority) (hterms : t.terms = a :: rest.map Prod.snd)
    (hoperators : t.operators = rest.map Prod.fst) :
    build join priority a rest = t.fold id join := by
  obtain ⟨rfl, rfl⟩ := first_eq_and_steps_eq hterms hoperators
  have hbuild := ht.build_eq_fold id join
  rwa [Prod.map_id, List.map_id, id] at hbuild

/-- A sequence of terms and operators has no more than one ordered tree. -/
theorem Tree.Ordered.unique (ht : t.Ordered priority) (hu : u.Ordered priority)
    (hterms : t.terms = u.terms) (hoperators : t.operators = u.operators) : t = u := by
  obtain ⟨hfirst, hsteps⟩ :=
    first_eq_and_steps_eq (hterms.trans u.terms_eq) (hoperators.trans u.operators_eq)
  calc t = t.fold leaf node := t.fold_leaf_node.symm
    _ = build node priority (leaf t.first) (t.steps.map (Prod.map id leaf)) :=
      (ht.build_eq_fold leaf node).symm
    _ = build node priority (leaf u.first) (u.steps.map (Prod.map id leaf)) := by
      rw [hfirst, hsteps]
    _ = u.fold leaf node := hu.build_eq_fold leaf node
    _ = u := u.fold_leaf_node

end ClassForge.Precedence
