import ClassForge.Assembly.Code
import ClassForge.Assembly.Error

/-! The height of the operand stack at each instruction. It is followed along every path from the
first instruction; paths that meet have to agree, and what no path reaches is not looked at. -/

namespace ClassForge

/-- The words an instruction takes from the stack, and the words it then puts there. -/
def Instruction.effect : Instruction → Except InstructionError (Nat × Nat)
  | .mark _ => .ok (0, 0)
  | .pushInt _ | .pushText _ | .type _ _ => .ok (0, 1)
  | .field op m =>
    if op = Opcode.getstatic.byte then
      match Descriptor.fieldWords m.descriptor with
      | .ok size => .ok (0, size)
      | .error e => .error (.descriptor e)
    else .error (.unsupportedField op)
  | .invoke op m =>
    match Descriptor.methodWords m.descriptor with
    | .ok (args, result) =>
      .ok (if op = (Opcode.invoke .static).byte then args else args + 1, result)
    | .error e => .error (.descriptor e)
  | .simple op => .ok (Opcode.popsOfByte op, Opcode.pushesOfByte op)
  | .access op _ => .ok ((Opcode.access op).pops, (Opcode.access op).pushes)
  | .jump op _ => .ok (op.opcode.pops, op.opcode.pushes)

/-- The entry after entry `i`. -/
def Code.following (code : Code) (i : Nat) : Except AssemblyError Nat :=
  if i + 1 < code.entries.size then .ok (i + 1) else .error .fallsOff

/-- The entry that a label marks, as the target of a jump. -/
def Code.destination (code : Code) (label : Label) : Except AssemblyError Nat :=
  match code.place? label with
  | some target => if target < code.entries.size then .ok target else .error (.labelAtEnd label)
  | none => .error (.labelAtEnd label)

/-- The entries that can run directly after entry `i`. -/
def Code.successors (code : Code) (i : Nat) : Instruction → Except AssemblyError (List Nat)
  | .jump .always label => do return [← code.destination label]
  | .jump (.when _) label => do return [← code.destination label, ← code.following i]
  | .simple op =>
    if op = Opcode.returnVoid.byte then .ok [] else do return [← code.following i]
  | _ => do return [← code.following i]

/-- The heights known so far, by entry. -/
abbrev Heights := Array (Option Nat)

namespace Heights

def unknown (heights : Heights) : Nat :=
  heights.countP Option.isNone

/-- Gives every entry of the list the height `out`, and adds the new ones to the work. -/
def spread (out : Nat) : List Nat → Heights × List Nat → Except AssemblyError (Heights × List Nat)
  | [], known => .ok known
  | next :: more, (heights, work) =>
    match heights[next]? with
    | some none => spread out more (heights.setIfInBounds next (some out), next :: work)
    | some (some height) =>
      if height = out then spread out more (heights, work)
      else .error (.inconsistentHeight next height out)
    | none => spread out more (heights, work)

/-- What bounds the exploration: each unknown height can still add one entry to the work. -/
def remaining (known : Heights × List Nat) : Nat :=
  2 * known.1.unknown + known.2.length

theorem remaining_spread {out : Nat} {next : List Nat} {known result : Heights × List Nat}
    (h : spread out next known = .ok result) : remaining result ≤ remaining known := by
  induction next generalizing known with
  | nil => simp only [spread, Except.ok.injEq] at h; simp [h]
  | cons i more ih =>
    obtain ⟨heights, work⟩ := known
    simp only [spread] at h
    split at h
    · rename_i hi
      have hlt : i < heights.size := by
        rw [Array.getElem?_eq_some_iff] at hi
        exact hi.1
      have hnone : heights[i] = none := by
        rw [Array.getElem?_eq_some_iff] at hi
        exact hi.2
      have hpos : 0 < heights.countP Option.isNone :=
        Array.countP_pos_iff.2 ⟨none, hnone ▸ Array.getElem_mem hlt, rfl⟩
      have := ih h
      simp only [remaining, unknown, Array.setIfInBounds, hlt, dite_true, Array.countP_set,
        hnone, Option.isNone_none, Option.isNone_some, if_true, List.length_cons] at this ⊢
      simp at this
      omega
    · split at h
      · exact ih h
      · cases h
    · exact ih h

/-- Follows the paths from the entries in `work`, and gives all heights and the greatest height
after an instruction. -/
def explore (code : Code) (heights : Heights) (deepest : Nat) (work : List Nat) :
    Except AssemblyError (Heights × Nat) :=
  match work with
  | [] => .ok (heights, deepest)
  | i :: work =>
    match code.entries[i]?, heights[i]? with
    | some instruction, some (some height) =>
      match instruction.effect with
      | .error e => .error (.instruction i instruction e)
      | .ok (pops, pushes) =>
        if height < pops then .error (.underflow i instruction)
        else
          let out := height - pops + pushes
          match code.successors i instruction with
          | .error e => .error e
          | .ok next =>
            match _ : spread out next (heights, work) with
            | .error e => .error e
            | .ok (heights, work) => explore code heights (max deepest out) work
    | _, _ => explore code heights deepest work
termination_by remaining (heights, work)
decreasing_by
  · have := remaining_spread ‹_›
    simp only [remaining, List.length_cons] at this ⊢
    omega
  · simp only [remaining, List.length_cons]
    omega

end Heights

/-- The heights of the entries that can be reached, and the greatest height after one of them. -/
def Code.stackHeights (code : Code) : Except AssemblyError (Heights × Nat) :=
  let heights : Heights := (Array.replicate code.entries.size none).setIfInBounds 0 (some 0)
  Heights.explore code heights 0 [0]

end ClassForge
