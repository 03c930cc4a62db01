/-! Trees from a flat list of terms with operators between them. An operator of higher priority
binds tighter, and operators of one priority associate to the left. -/

namespace ClassForge.Precedence

variable {α β : Type} (node : β → α → α → α) (priority : β → Nat)

/-- Joins `term` with those of the pending operators that bind at least as tight as `least`. The
latest pending operator stands first, each with its left operand. -/
def reduce (least : Nat) : List (α × β) → α → List (α × β) × α
  | [], term => ([], term)
  | (left, op) :: pending, term =>
    if least ≤ priority op then reduce least pending (node op left term)
    else ((left, op) :: pending, term)

/-- Takes an operator after `term`: what is then pending. -/
def shift (op : β) (pending : List (α × β)) (term : α) : List (α × β) :=
  let (pending, left) := reduce node priority (priority op) pending term
  (left, op) :: pending

/-- Joins everything that is pending. -/
def finish (pending : List (α × β)) (term : α) : α :=
  (reduce node priority 0 pending term).2

def buildFrom (pending : List (α × β)) (term : α) : List (β × α) → α
  | [] => finish node priority pending term
  | (op, next) :: rest => buildFrom (shift node priority op pending term) next rest

/-- The tree of a first term and of the operators after it, each with the term that follows. -/
def build (first : α) (rest : List (β × α)) : α :=
  buildFrom node priority [] first rest

end ClassForge.Precedence
