import ClassForge.Proofs.ExpressionParsing
import ClassForge.Proofs.OperatorTrees
import ClassForge.Proofs.RawMachine

/-! Precedence climbing over plain memory. The operators and the terms are reached by index, and a
tree that has been joined is written over the last of its terms, where the next operator finds its
left operand. The climb always ends, and what it gives is the tree that the parser joins from its
pending operators. -/

namespace ClassForge.Precedence

/-- A computation over plain memory: it may use up its turns, crash, or give a value. -/
abbrev Run := ExceptT Crash Option

/-- What a climb comes to: a tree, the place of the operator behind it, and the cells as they are
then. -/
structure Climbed (α : Type) where
  tree : α
  place : Nat
  cells : Array α

section Definitions

variable {α β : Type} (join : β → α → α → α) (priority : β → Nat) (ops : Array β)

-- Every call and every turn of a loop leaves one turn less to what comes out of it. The number of
-- turns decides nothing else: a climb ends if there are enough of them.
mutual

/-- Climbs from a cell on, over operators that bind at least as tight as `least`. -/
def climbFrom : Nat → Array α → (start least : Nat) → Run (Climbed α)
  | 0, _, _, _ => .mk none
  | turns + 1, cells, start, least => do
    let left ← Memory.element cells start
    growLeft turns cells least left start

/-- Takes one operator after the other with its right operand. -/
def growLeft : Nat → Array α → (least : Nat) → (left : α) → (i : Nat) → Run (Climbed α)
  | 0, _, _, _, _ => .mk none
  | turns + 1, cells, least, left, i => do
    if i < ops.size then
      let op ← Memory.element ops i
      if least ≤ priority op then
        let right ← Memory.element cells (i + 1 : Nat)
        let r ← growRight turns cells (priority op) right (i + 1)
        let cells ← Memory.update r.cells r.place (join op left r.tree)
        growLeft turns cells least (join op left r.tree) r.place
      else return ⟨left, i, cells⟩
    else return ⟨left, i, cells⟩

/-- Climbs again from where it stands as long as an operator binds tighter than `bound`. -/
def growRight : Nat → Array α → (bound : Nat) → (right : α) → (j : Nat) → Run (Climbed α)
  | 0, _, _, _, _ => .mk none
  | turns + 1, cells, bound, right, j => do
    if j < ops.size then
      let op ← Memory.element ops j
      if bound < priority op then
        let r ← climbFrom turns cells j (priority op)
        growRight turns r.cells bound r.tree r.place
      else return ⟨right, j, cells⟩
    else return ⟨right, j, cells⟩

end

/-- The tree of all terms. -/
def climb (turns : Nat) (terms : Array α) : Run α := do
  if ops.size = 0 then Memory.element terms 0
  else
    let r ← climbFrom join priority ops turns terms 0 0
    return r.tree

end Definitions

variable {α β : Type} {join : β → α → α → α} {priority : β → Nat} {ops : Array β}

/-- From a place on, the cells hold a value and then the terms of `rest`, whose operators are those
from that place on. -/
structure Ahead (ops : Array β) (cells : Array α) (i : Nat) (value : α) (rest : List (β × α)) :
    Prop where
  cells : cells.toList.drop i = value :: rest.map Prod.snd
  ops : ops.toList.drop i = rest.map Prod.fst

namespace Ahead

variable {cells : Array α} {i : Nat} {value : α} {rest : List (β × α)}

theorem getElem? (h : Ahead ops cells i value rest) : cells[i]? = some value := by
  have hhead := congrArg List.head? h.cells
  rwa [List.head?_drop, Array.getElem?_toList] at hhead

theorem element (h : Ahead ops cells i value rest) : Memory.element cells i = .ok value := by
  obtain ⟨hlt, heq⟩ := Array.getElem?_eq_some_iff.mp h.getElem?
  rw [Memory.element_natCast hlt, heq]

theorem not_lt_size (h : Ahead ops cells i value []) : ¬ i < ops.size := by
  have hlen := congrArg List.length h.ops
  simp only [List.length_drop, Array.length_toList, List.map_nil, List.length_nil] at hlen
  omega

theorem element_ops {op : β} {a : α} (h : Ahead ops cells i value ((op, a) :: rest)) :
    i < ops.size ∧ Memory.element ops i = .ok op := by
  have hhead := congrArg List.head? h.ops
  rw [List.head?_drop, Array.getElem?_toList] at hhead
  obtain ⟨hlt, heq⟩ := Array.getElem?_eq_some_iff.mp hhead
  exact ⟨hlt, by rw [Memory.element_natCast hlt, heq]⟩

theorem next {op : β} {a : α} (h : Ahead ops cells i value ((op, a) :: rest)) :
    Ahead ops cells (i + 1) a rest := by
  constructor
  · rw [← List.tail_drop, h.cells]
    rfl
  · rw [← List.tail_drop, h.ops]
    rfl

theorem update (h : Ahead ops cells i value rest) (a : α) :
    Memory.update cells i a = .ok (cells.setIfInBounds i a) ∧
      Ahead ops (cells.setIfInBounds i a) i a rest := by
  obtain ⟨hlt, -⟩ := Array.getElem?_eq_some_iff.mp h.getElem?
  refine ⟨Memory.update_natCast hlt a, ?_, h.ops⟩
  rw [Array.toList_setIfInBounds, List.drop_set]
  simp [h.cells]

end Ahead

/-- The next operator binds looser than `least`, or there is none. -/
def Stops (priority : β → Nat) (least : Nat) (rest : List (β × α)) : Prop :=
  ∀ x ∈ rest.head?, priority x.1 < least

/-- A tree that may be the left operand of the next operator. -/
structure Ripe (priority : β → Nat) (least : Nat) (t : Tree α β) (rest : List (β × α)) : Prop where
  ordered : t.Ordered priority
  binds : ∀ o ∈ t.operators, least ≤ priority o
  ready : ∀ x ∈ rest.head?, ∀ o ∈ t.operators, priority x.1 ≤ priority o

/-- The tree `u` has grown out of `t` over the operators that bind at least as tight as `least`, up
to the first one that does not. -/
structure Grown (priority : β → Nat) (least : Nat) (t : Tree α β) (rest : List (β × α))
    (u : Tree α β) (rest' : List (β × α)) : Prop where
  ordered : u.Ordered priority
  binds : ∀ o ∈ u.operators, least ≤ priority o
  terms : u.terms ++ rest'.map Prod.snd = t.terms ++ rest.map Prod.snd
  operators : u.operators ++ rest'.map Prod.fst = t.operators ++ rest.map Prod.fst
  suffix : rest' <:+ rest
  stops : Stops priority least rest'

section Growth

variable {least bound : Nat} {t u v : Tree α β} {rest rest' rest'' : List (β × α)} {op : β} {a : α}

theorem Ripe.leaf (a : α) (rest : List (β × α)) : Ripe priority least (.leaf a) rest := by
  constructor <;> simp [Tree.Ordered, Tree.operators]

theorem Ripe.grown (h : Ripe priority least t rest) (hstops : Stops priority least rest) :
    Grown priority least t rest t rest :=
  ⟨h.ordered, h.binds, rfl, rfl, List.suffix_rfl, hstops⟩

/-- Operators that stop the growth bind looser than all of the tree. -/
theorem Grown.ripe (h : Grown priority least t rest u rest') (hle : bound ≤ least) :
    Ripe priority bound u rest' := by
  refine ⟨h.ordered, fun o ho => hle.trans (h.binds o ho), fun x hx o ho => ?_⟩
  exact (h.stops x hx).le.trans (h.binds o ho)

theorem Grown.trans (h : Grown priority bound t rest u rest')
    (h' : Grown priority least u rest' v rest'') : Grown priority least t rest v rest'' :=
  ⟨h'.ordered, h'.binds, h'.terms.trans h.terms, h'.operators.trans h.operators,
    h'.suffix.trans h.suffix, h'.stops⟩

/-- A right operand has taken all operators that bind tighter than the one before it, so the next
one may have the whole as its left operand. -/
theorem Ripe.node (h : Ripe priority least t ((op, a) :: rest)) (hop : least ≤ priority op)
    (hright : Grown priority (priority op + 1) (.leaf a) rest u rest') :
    Ripe priority least (.node op t u) rest' := by
  have hleft : ∀ o ∈ t.operators, priority op ≤ priority o := h.ready (op, a) rfl
  refine ⟨⟨hleft, hright.binds, h.ordered, hright.ordered⟩, fun o ho => ?_, fun x hx o ho => ?_⟩
  · rcases Tree.mem_operators_node.mp ho with ho | rfl | ho
    · exact h.binds o ho
    · exact hop
    · exact hop.trans (Nat.le_of_lt (hright.binds o ho))
  · have hnext : priority x.1 ≤ priority op := Nat.le_of_lt_succ (hright.stops x hx)
    rcases Tree.mem_operators_node.mp ho with ho | rfl | ho
    · exact hnext.trans (hleft o ho)
    · exact hnext
    · exact hnext.trans (Nat.le_of_lt (hright.binds o ho))

/-- What grows out of a tree with its next operator and right operand has grown out of the tree. -/
theorem Grown.of_node (hright : Grown priority bound (.leaf a) rest u rest')
    (h : Grown priority least (.node op t u) rest' v rest'') :
    Grown priority least t ((op, a) :: rest) v rest'' := by
  refine ⟨h.ordered, h.binds, h.terms.trans ?_, h.operators.trans ?_,
    (h.suffix.trans hright.suffix).trans (List.suffix_cons _ _), h.stops⟩
  · rw [Tree.terms, List.append_assoc, hright.terms]
    rfl
  · have hops : u.operators ++ rest'.map Prod.fst = rest.map Prod.fst := hright.operators
    rw [Tree.operators, List.append_assoc, List.cons_append, hops]
    rfl

/-- Growth over an operator that binds tight enough gets behind it. -/
theorem Grown.length_lt (h : Grown priority least t ((op, a) :: rest) u rest')
    (hop : least ≤ priority op) : rest'.length < ((op, a) :: rest).length := by
  refine Nat.lt_of_le_of_ne h.suffix.length_le fun hlen => ?_
  have hall : rest' = (op, a) :: rest := h.suffix.eq_of_length hlen
  have hlt : priority op < least := h.stops (op, a) (by rw [hall]; rfl)
  omega

theorem exists_of_not_stops (h : ¬ Stops priority least rest) :
    ∃ op a rest', rest = (op, a) :: rest' ∧ least ≤ priority op := by
  cases rest with
  | nil => exact absurd (by simp [Stops]) h
  | cons x rest =>
    refine ⟨x.1, x.2, rest, rfl, Nat.le_of_not_lt fun hlt => h ?_⟩
    rintro y ⟨⟩
    exact hlt

end Growth

section Runs

variable {turns least bound i : Nat} {left a : α} {op : β} {cells : Array α} {rest : List (β × α)}

theorem bind_of_ok {γ δ : Type} {x : Except Crash γ} {c : γ} (h : x = .ok c) (f : γ → Run δ) :
    (liftM x >>= f) = f c := by
  rw [h]
  rfl

theorem climbFrom_eq_growLeft (h : Ahead ops cells i left rest) :
    climbFrom join priority ops (turns + 1) cells i least =
      growLeft join priority ops turns cells least left i := by
  rw [climbFrom, bind_of_ok h.element]

theorem growLeft_eq_pure (h : Ahead ops cells i left rest) (hstops : Stops priority least rest) :
    growLeft join priority ops (turns + 1) cells least left i = pure ⟨left, i, cells⟩ := by
  rw [growLeft]
  cases rest with
  | nil => rw [if_neg h.not_lt_size]
  | cons x rest =>
    obtain ⟨hlt, helement⟩ := h.element_ops
    rw [if_pos hlt, bind_of_ok helement, if_neg (Nat.not_le.mpr (hstops x rfl))]

theorem growLeft_cons (h : Ahead ops cells i left ((op, a) :: rest)) (hop : least ≤ priority op) :
    growLeft join priority ops (turns + 1) cells least left i = (do
      let r ← growRight join priority ops turns cells (priority op) a (i + 1)
      let cells ← Memory.update r.cells r.place (join op left r.tree)
      growLeft join priority ops turns cells least (join op left r.tree) r.place) := by
  obtain ⟨hlt, helement⟩ := h.element_ops
  rw [growLeft, if_pos hlt, bind_of_ok helement, if_pos hop, bind_of_ok h.next.element]

theorem growRight_eq_pure (h : Ahead ops cells i left rest)
    (hstops : Stops priority (bound + 1) rest) :
    growRight join priority ops (turns + 1) cells bound left i = pure ⟨left, i, cells⟩ := by
  rw [growRight]
  cases rest with
  | nil => rw [if_neg h.not_lt_size]
  | cons x rest =>
    obtain ⟨hlt, helement⟩ := h.element_ops
    have hle : priority x.1 ≤ bound := Nat.le_of_lt_succ (hstops x rfl)
    rw [if_pos hlt, bind_of_ok helement, if_neg (Nat.not_lt.mpr hle)]

theorem growRight_cons (h : Ahead ops cells i left ((op, a) :: rest)) (hop : bound < priority op) :
    growRight join priority ops (turns + 1) cells bound left i = (do
      let r ← climbFrom join priority ops turns cells i (priority op)
      growRight join priority ops turns r.cells bound r.tree r.place) := by
  obtain ⟨hlt, helement⟩ := h.element_ops
  rw [growRight, if_pos hlt, bind_of_ok helement, if_pos hop]

/-- Without operators a climb would give the only term too. -/
theorem climb_eq_growLeft (h : Ahead ops cells 0 left rest) :
    climb join priority ops (turns + 2) cells = (do
      let r ← growLeft join priority ops (turns + 1) cells 0 left 0
      return r.tree) := by
  rw [climb]
  by_cases hsize : ops.size = 0
  · have hrest : rest = [] := by
      have hlen := congrArg List.length h.ops
      simpa [hsize] using hlen.symm
    have helement : Memory.element cells 0 = .ok left := h.element
    rw [if_pos hsize, helement, growLeft_eq_pure h (by simp [hrest, Stops])]
    rfl
  · rw [if_neg hsize, climbFrom_eq_growLeft h]

end Runs

/-- With enough turns the computation ends behind a tree that has grown out of `t`, and the tree is
in the cell where it stands. -/
def Grows (join : β → α → α → α) (priority : β → Nat) (ops : Array β)
    (run : Nat → Run (Climbed α)) (enough least : Nat) (t : Tree α β) (rest : List (β × α)) :
    Prop :=
  ∃ u rest' i cells, (∀ turns ≥ enough, run turns = pure ⟨u.fold id join, i, cells⟩) ∧
    Ahead ops cells i (u.fold id join) rest' ∧ Grown priority least t rest u rest'

def LeftGrows (join : β → α → α → α) (priority : β → Nat) (ops : Array β)
    (rest : List (β × α)) : Prop :=
  ∀ {least i : Nat} {t : Tree α β} {cells : Array α}, Ahead ops cells i (t.fold id join) rest →
    Ripe priority least t rest →
    Grows join priority ops
      (fun turns => growLeft join priority ops turns cells least (t.fold id join) i)
      (3 * rest.length + 1) least t rest

def RightGrows (join : β → α → α → α) (priority : β → Nat) (ops : Array β)
    (rest : List (β × α)) : Prop :=
  ∀ {bound i : Nat} {t : Tree α β} {cells : Array α}, Ahead ops cells i (t.fold id join) rest →
    Ripe priority (bound + 1) t rest →
    Grows join priority ops
      (fun turns => growRight join priority ops turns cells bound (t.fold id join) i)
      (3 * rest.length + 3) (bound + 1) t rest

theorem leftGrows_of_shorter {rest : List (β × α)}
    (hleft : ∀ rest', rest'.length < rest.length → LeftGrows join priority ops rest')
    (hright : ∀ rest', rest'.length < rest.length → RightGrows join priority ops rest') :
    LeftGrows join priority ops rest := by
  intro least i t cells h ht
  by_cases hstops : Stops priority least rest
  · refine ⟨t, rest, i, cells, fun turns hturns => ?_, h, ht.grown hstops⟩
    obtain ⟨turns, rfl⟩ : ∃ n, turns = n + 1 := ⟨turns - 1, by omega⟩
    exact growLeft_eq_pure h hstops
  · obtain ⟨op, a, rest, rfl, hop⟩ := exists_of_not_stops hstops
    have hleaf : Ripe priority (priority op + 1) (.leaf a) rest := .leaf a rest
    obtain ⟨u, rest', j, cells', hruns, hahead, hu⟩ := hright rest (Nat.lt_succ_self _) h.next hleaf
    -- The cell where the right operand stands is overwritten by the whole of both operands.
    obtain ⟨hupdate, hahead'⟩ := hahead.update (join op (t.fold id join) (u.fold id join))
    have hnode : Ripe priority least (.node op t u) rest' := ht.node hop hu
    have hlen : rest'.length ≤ rest.length := hu.suffix.length_le
    obtain ⟨v, rest'', k, cells'', hruns', hahead'', hv⟩ :=
      hleft rest' (Nat.lt_succ_of_le hlen) hahead' hnode
    refine ⟨v, rest'', k, cells'', fun turns hturns => ?_, hahead'', .of_node hu hv⟩
    rw [List.length_cons] at hturns
    obtain ⟨turns, rfl⟩ : ∃ n, turns = n + 1 := ⟨turns - 1, by omega⟩
    have hoperand : growRight join priority ops turns cells (priority op) a (i + 1) =
        pure ⟨u.fold id join, j, cells'⟩ := hruns turns (by omega)
    refine (growLeft_cons h hop).trans ?_
    rw [hoperand, pure_bind, bind_of_ok hupdate]
    exact hruns' turns (by omega)

theorem rightGrows_of_shorter {rest : List (β × α)} (hleft : LeftGrows join priority ops rest)
    (hright : ∀ rest', rest'.length < rest.length → RightGrows join priority ops rest') :
    RightGrows join priority ops rest := by
  intro bound i t cells h ht
  by_cases hstops : Stops priority (bound + 1) rest
  · refine ⟨t, rest, i, cells, fun turns hturns => ?_, h, ht.grown hstops⟩
    obtain ⟨turns, rfl⟩ : ∃ n, turns = n + 1 := ⟨turns - 1, by omega⟩
    exact growRight_eq_pure h hstops
  · obtain ⟨op, a, rest, rfl, hop⟩ := exists_of_not_stops hstops
    -- The climb starts at its own operator, which therefore does not stop it.
    have hclimb : Ripe priority (priority op) t ((op, a) :: rest) :=
      ⟨ht.ordered, ht.ready (op, a) rfl, ht.ready⟩
    obtain ⟨u, rest', j, cells', hruns, hahead, hu⟩ := hleft h hclimb
    have hlen : rest'.length < ((op, a) :: rest).length := hu.length_lt le_rfl
    obtain ⟨v, rest'', k, cells'', hruns', hahead', hv⟩ := hright rest' hlen hahead (hu.ripe hop)
    refine ⟨v, rest'', k, cells'', fun turns hturns => ?_, hahead', hu.trans hv⟩
    obtain ⟨turns, rfl⟩ : ∃ n, turns = n + 2 := ⟨turns - 2, by omega⟩
    have htree : growLeft join priority ops turns cells (priority op) (t.fold id join) i =
        pure ⟨u.fold id join, j, cells'⟩ := hruns turns (by omega)
    refine (growRight_cons h hop).trans ?_
    rw [climbFrom_eq_growLeft h, htree, pure_bind]
    exact hruns' (turns + 1) (by omega)

/-- Both loops end, for any operators that may be ahead. -/
theorem leftGrows_and_rightGrows (rest : List (β × α)) :
    LeftGrows join priority ops rest ∧ RightGrows join priority ops rest := by
  induction hn : rest.length using Nat.strong_induction_on generalizing rest with
  | _ n ih =>
    subst hn
    have hleft : LeftGrows join priority ops rest :=
      leftGrows_of_shorter (fun rest' hlen => (ih _ hlen rest' rfl).1)
        fun rest' hlen => (ih _ hlen rest' rfl).2
    exact ⟨hleft, rightGrows_of_shorter hleft fun rest' hlen => (ih _ hlen rest' rfl).2⟩

theorem exists_rest {terms : Array α} (hsize : terms.size = ops.size + 1) :
    ∃ (a : α) (rest : List (β × α)), terms.toList = a :: rest.map Prod.snd ∧
      ops.toList = rest.map Prod.fst := by
  obtain ⟨a, others, hterms⟩ : ∃ a others, terms.toList = a :: others :=
    List.exists_cons_of_length_eq_add_one (by rw [Array.length_toList, hsize])
  have hlen : ops.toList.length = others.length := by
    have hcount := congrArg List.length hterms
    simp only [Array.length_toList, hsize, List.length_cons] at hcount ⊢
    omega
  refine ⟨a, ops.toList.zip others, ?_, ?_⟩
  · rw [List.map_snd_zip hlen.ge, hterms]
  · rw [List.map_fst_zip hlen.le]

theorem exists_climb_eq_fold (join : β → α → α → α) (priority : β → Nat) {terms : Array α} {a : α}
    {rest : List (β × α)} (hterms : terms.toList = a :: rest.map Prod.snd)
    (hops : ops.toList = rest.map Prod.fst) :
    ∃ t : Tree α β, t.terms = terms.toList ∧ t.operators = ops.toList ∧ t.Ordered priority ∧
      ∀ turns ≥ 3 * ops.size + 2,
        (climb join priority ops turns terms).run = some (.ok (t.fold id join)) := by
  have h : Ahead ops terms 0 ((Tree.leaf a : Tree α β).fold id join) rest := ⟨hterms, hops⟩
  have hleaf : Ripe priority 0 (.leaf a) rest := .leaf a rest
  have hsize : ops.size = rest.length := by
    rw [← Array.length_toList, hops, List.length_map]
  obtain ⟨t, rest', i, cells, hruns, -, ht⟩ := (leftGrows_and_rightGrows rest).1 h hleaf
  -- No priority is below 0, so the climb leaves no operator.
  have hend : rest' = [] := by
    cases rest' with
    | nil => rfl
    | cons x rest' => exact absurd (ht.stops x rfl) (Nat.not_lt_zero _)
  subst hend
  refine ⟨t, ?_, ?_, ht.ordered, fun turns hturns => ?_⟩
  · simpa [hterms, Tree.terms] using ht.terms
  · simpa [hops, Tree.operators] using ht.operators
  · obtain ⟨turns, rfl⟩ : ∃ n, turns = n + 2 := ⟨turns - 2, by omega⟩
    have htree : growLeft join priority ops (turns + 1) terms 0 a 0 =
        pure ⟨t.fold id join, i, cells⟩ := hruns (turns + 1) (by omega)
    refine (climb_eq_growLeft h).trans ?_
    rw [Tree.fold, id, htree, pure_bind]
    rfl

theorem climb_eq_build (join : β → α → α → α) (priority : β → Nat) (first : α)
    (rest : List (β × α)) {turns : Nat} (hturns : 3 * rest.length + 2 ≤ turns) :
    (climb join priority (rest.map Prod.fst).toArray turns
        (first :: rest.map Prod.snd).toArray).run =
      some (.ok (build join priority first rest)) := by
  have hterms : (first :: rest.map Prod.snd).toArray.toList = first :: rest.map Prod.snd := rfl
  obtain ⟨t, ht, ho, hordered, hruns⟩ := exists_climb_eq_fold join priority hterms rfl
  rw [hruns turns (by simpa using hturns), hordered.build_eq ht ho]

/-- Whatever the priorities are, the climb ends without an access outside of the lists. It gives the
tree of all terms and operators, in their order, in which at each operator those on its left bind at
least as tight and those on its right tighter. There is no other such tree, and joining pending
operators gives it too. -/
theorem climb_gives_unique_tree (join : β → α → α → α) (priority : β → Nat) (ops : Array β)
    (terms : Array α) (hsize : terms.size = ops.size + 1) :
    ∃ t : Tree α β, t.terms = terms.toList ∧ t.operators = ops.toList ∧ t.Ordered priority ∧
      (∀ u : Tree α β, u.terms = terms.toList → u.operators = ops.toList → u.Ordered priority →
        u = t) ∧
      (∀ turns ≥ 3 * ops.size + 2,
        (climb join priority ops turns terms).run = some (.ok (t.fold id join))) ∧
      ∀ (first : α) (rest : List (β × α)), terms.toList = first :: rest.map Prod.snd →
        ops.toList = rest.map Prod.fst → build join priority first rest = t.fold id join := by
  obtain ⟨a, rest, hterms, hops⟩ := exists_rest hsize
  obtain ⟨t, ht, ho, hordered, hruns⟩ := exists_climb_eq_fold join priority hterms hops
  refine ⟨t, ht, ho, hordered, fun u hu hou hordered' => ?_, hruns, fun first rest hf hr => ?_⟩
  · exact hordered'.unique hordered (hu.trans ht.symm) (hou.trans ho.symm)
  · exact hordered.build_eq (ht.trans hf) (ho.trans hr)

/-- Four priorities, one of them twice in a row. -/
theorem climb_gives_unique_tree_fourLevels :
    (climb Tree.node id #[1, 3, 2, 2, 0] 17
        #[.leaf 'a', .leaf 'b', .leaf 'c', .leaf 'd', .leaf 'e', .leaf 'f']).run =
      some (.ok (.node 0
        (.node 1 (.leaf 'a')
          (.node 2 (.node 2 (.node 3 (.leaf 'b') (.leaf 'c')) (.leaf 'd')) (.leaf 'e')))
        (.leaf 'f'))) := by
  obtain ⟨t, -, -, -, hunique, hruns, -⟩ := climb_gives_unique_tree Tree.node id #[1, 3, 2, 2, 0]
    #[.leaf 'a', .leaf 'b', .leaf 'c', .leaf 'd', .leaf 'e', .leaf 'f'] rfl
  let term (c : Char) : Tree (Tree Char Nat) Nat := .leaf (.leaf c)
  have hu := hunique (.node 0
    (.node 1 (term 'a') (.node 2 (.node 2 (.node 3 (term 'b') (term 'c')) (term 'd')) (term 'e')))
    (term 'f')) rfl rfl (by decide)
  rw [hruns 17 (by decide), ← hu]
  rfl

end ClassForge.Precedence

namespace ClassForge

open Grammar

/-- The tokens are operators, each with a factor behind it. -/
inductive Grammar.Steps : List Token → List (Operator × Expr) → Prop
  | nil : Steps [] []
  | cons {t : Token} {ts us : List Token} {o : Operator} {e : Expr} {steps : List (Operator × Expr)}
      (ht : Operator.ofKind? t.kind = some o) (he : Expression .factor ts e) (h : Steps us steps) :
      Steps (t :: ts ++ us) ((o, e) :: steps)

/-- The tokens are a factor and then operators with factors. -/
def Grammar.Sequence (ts : List Token) (first : Expr) (steps : List (Operator × Expr)) : Prop :=
  ∃ us vs, ts = us ++ vs ∧ Expression .factor us first ∧ Steps vs steps

namespace Grammar

variable {level : Level} {ts us : List Token} {t : Token} {a b e : Expr} {o : Operator}
  {xs ys : List (Operator × Expr)}

theorem Steps.append (h : Steps ts xs) (h' : Steps us ys) : Steps (ts ++ us) (xs ++ ys) := by
  induction h with
  | nil => exact h'
  | cons ht he _ ih =>
    rw [List.append_assoc]
    exact .cons ht he ih

theorem Sequence.node (ha : Sequence ts a xs) (ht : Operator.ofKind? t.kind = some o)
    (hb : Sequence us b ys) : Sequence (ts ++ t :: us) a (xs ++ (o, b) :: ys) := by
  obtain ⟨ts, ts', rfl, hfirst, hsteps⟩ := ha
  obtain ⟨us, us', rfl, hnext, hsteps'⟩ := hb
  exact ⟨ts, ts' ++ (t :: us ++ us'), by simp, hfirst, hsteps.append (.cons ht hnext hsteps')⟩

theorem Expression.exists_sequence (h : Expression level ts e) : ∃ a xs, Sequence ts a xs := by
  have hfactor {ts : List Token} {e : Expr} (h : Expression .factor ts e) :
      ∃ a xs, Sequence ts a xs := ⟨e, [], ts, [], by simp, h, .nil⟩
  induction h with
  | number h => exact hfactor (.number h)
  | text h => exact hfactor (.text h)
  | name h => exact hfactor (.name h)
  | parentheses hl h hr _ => exact hfactor (.parentheses hl h hr)
  | factor _ ih => exact ih
  | product _ ih => exact ih
  | sum _ ih => exact ih
  | multiply _ ht _ iha ihb =>
    obtain ⟨a, xs, ha⟩ := iha
    obtain ⟨b, ys, hb⟩ := ihb
    exact ⟨a, _, ha.node (Operator.ofKind?_of_multiplicative? ht).1 hb⟩
  | add _ ht _ iha ihb =>
    obtain ⟨a, xs, ha⟩ := iha
    obtain ⟨b, ys, hb⟩ := ihb
    exact ⟨a, _, ha.node (Operator.ofKind?_of_additive? ht).1 hb⟩
  | compare _ ht _ iha ihb =>
    obtain ⟨a, xs, ha⟩ := iha
    obtain ⟨b, ys, hb⟩ := ihb
    exact ⟨a, _, ha.node (Operator.ofKind?_of_relation? ht) hb⟩

end Grammar

namespace Parser

variable {ts us rest : List Token} {first e : Expr} {steps : List (Operator × Expr)}

/-- Behind a term the parser goes on as joining does, from any state that comes to the same. -/
theorem operatorFrom_steps (h : Steps us steps) (outer : List Pending) (rest : List Token)
    {pending pending' : Pending} {term value : Expr}
    (hreduce : ∀ least ≤ Level.factor.rank,
      reduce least pending' term = reduce least pending value) :
    ∃ pending'' term'',
      operatorFrom outer pending' term (us ++ rest) = operatorFrom outer pending'' term'' rest ∧
      Precedence.finish Operator.node Operator.priority pending'' term'' =
        Precedence.buildFrom Operator.node Operator.priority pending value steps := by
  induction h generalizing pending pending' term value with
  | nil => exact ⟨pending', term, rfl, congrArg Prod.snd (hreduce 0 (Nat.zero_le _))⟩
  | @cons t ts us o e steps ht he _ ih =>
    have hpriority : o.priority ≤ Level.factor.rank := (loose_factor [(e, o)] (e, o) rfl).le
    have hshift : Precedence.shift Operator.node Operator.priority o pending' term =
        Precedence.shift Operator.node Operator.priority o pending value := by
      simp only [Precedence.shift, hreduce o.priority hpriority]
    obtain ⟨pending₁, term₁, hruns₁, hreduce₁⟩ := reads_of_expression he outer
      (Precedence.shift Operator.node Operator.priority o pending value) (us ++ rest)
      (loose_factor _)
    obtain ⟨pending₂, term₂, hruns₂, hwhole⟩ := ih hreduce₁
    refine ⟨pending₂, term₂, ?_, hwhole⟩
    rw [List.append_assoc, List.cons_append, operatorFrom]
    simp only [ht, hshift, hruns₁, hruns₂]

theorem expression_eq_build (h : Sequence ts first steps) (hrest : EndsExpression rest) :
    expression (ts ++ rest) =
      .ok (Precedence.build Operator.node Operator.priority first steps, rest) := by
  obtain ⟨us, vs, rfl, hfirst, hsteps⟩ := h
  obtain ⟨pending, term, hruns, hreduce⟩ :=
    reads_of_expression hfirst [] [] (vs ++ rest) (loose_factor [])
  obtain ⟨pending', term', hruns', hwhole⟩ := operatorFrom_steps hsteps [] rest hreduce
  rw [expression, List.append_assoc, hruns, hruns']
  cases rest with
  | nil => simp only [operatorFrom, hwhole, Precedence.build]
  | cons t rest => simp only [operatorFrom, hrest t rfl, hwhole, Precedence.build]

/-- The parser accepts a factor that operators and factors follow, and gives the tree to which a
climb over them comes. -/
theorem expression_eq_ok_iff_climb {tokens : List Token} :
    expression tokens = .ok (e, rest) ↔
      EndsExpression rest ∧ ∃ ts first steps, tokens = ts ++ rest ∧ Sequence ts first steps ∧
        ∀ turns ≥ 3 * steps.length + 2,
          (Precedence.climb Operator.node Operator.priority (steps.map Prod.fst).toArray turns
            (first :: steps.map Prod.snd).toArray).run = some (.ok e) := by
  constructor
  · intro h
    obtain ⟨hends, ts, rfl, he⟩ := expression_eq_ok_iff.mp h
    obtain ⟨first, steps, hsequence⟩ := he.exists_sequence
    rw [expression_eq_build hsequence hends] at h
    cases h
    exact ⟨hends, ts, first, steps, rfl, hsequence, fun turns hturns =>
      Precedence.climb_eq_build _ _ first steps hturns⟩
  · rintro ⟨hends, ts, first, steps, rfl, hsequence, hclimb⟩
    have hbuild := Precedence.climb_eq_build Operator.node Operator.priority first steps le_rfl
    cases (hclimb _ le_rfl).symm.trans hbuild
    exact expression_eq_build hsequence hends

end Parser

end ClassForge
