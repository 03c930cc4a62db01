import ClassForge.Proofs.PoolInvariant

/-! The layout of an assembled body. The entries stand one behind the other, each in as many bytes
as its operands need, and the pool indexes they hold denote their constants. -/

namespace ClassForge

namespace Instruction

/-- The bytes that an instruction takes when its constant has the given pool index. -/
def width (index : Nat) : Instruction → Nat
  | mark _ => 0
  | simple _ => 1
  | pushInt value =>
    if -1 ≤ value.toInt ∧ value.toInt ≤ 5 then 1
    else if Layout.isByteSized value.toInt then 2
    else if Layout.isShortSized value.toInt then 3
    else Layout.constantSize index
  | pushText _ => Layout.constantSize index
  | access _ slot => if slot ≤ 3 then 1 else if slot ≤ 255 then 2 else 4
  | jump _ _ | field _ _ | invoke _ _ | type _ _ => 3

/-- The index denotes the constant that the instruction refers to. Members are told apart by what
they are rendered as. -/
def Refers (pool : ConstantPool) (index : Nat) : Instruction → Prop
  | pushInt value => Layout.isShortSized value.toInt = false → pool.Denotes index (.integer value)
  | pushText text => pool.Denotes index (.stringRef text)
  | field _ m => ∃ m', pool.Denotes index (.fieldRef m') ∧ m'.render = m.render
  | invoke _ m => ∃ m', pool.Denotes index (.methodRef m') ∧ m'.render = m.render
  | type _ name => pool.Denotes index (.classRef name)
  | _ => True

/-- The opcode is known, and the slot can be written in two bytes. -/
def IsEncodable : Instruction → Prop
  | simple op => (Opcode.ofByte? op).isSome
  | access _ slot => 0 ≤ slot ∧ slot ≤ 65535
  | _ => True

theorem Refers.mono {pool pool' : ConstantPool} {index : Nat} {i : Instruction}
    (h : i.Refers pool index) (hw : pool.Within pool') : i.Refers pool' index := by
  cases i with
  | pushInt value => exact fun hs => (h hs).mono hw
  | pushText text => exact ConstantPool.Denotes.mono h hw
  | field op m =>
    obtain ⟨m', hm, hr⟩ := h
    exact ⟨m', hm.mono hw, hr⟩
  | invoke op m =>
    obtain ⟨m', hm, hr⟩ := h
    exact ⟨m', hm.mono hw, hr⟩
  | type op name => exact ConstantPool.Denotes.mono h hw
  | _ => trivial

theorem width_pos {i : Instruction} (h : i.isMark = false) (index : Nat) : 0 < i.width index := by
  cases i with
  | mark label => simp [isMark] at h
  | pushInt value =>
    simp only [width, Layout.constantSize]
    repeat' split
    all_goals omega
  | pushText text =>
    simp only [width, Layout.constantSize]
    split <;> omega
  | access op slot =>
    simp only [width]
    repeat' split
    all_goals omega
  | _ => simp [width]

theorem width_le (i : Instruction) (index : Nat) : i.width index ≤ 4 := by
  cases i with
  | pushInt value =>
    simp only [width, Layout.constantSize]
    repeat' split
    all_goals omega
  | pushText text =>
    simp only [width, Layout.constantSize]
    split <;> omega
  | access op slot =>
    simp only [width]
    repeat' split
    all_goals omega
  | _ => simp [width]

end Instruction

namespace Layout

open ConstantPool

theorem toInt_eq (n : Int32) :
    n.toInt = if n.toUInt32.toNat < 2147483648 then (n.toUInt32.toNat : Int)
      else n.toUInt32.toNat - 4294967296 := by
  have h : n.toInt = n.toBitVec.toInt := rfl
  rw [h, BitVec.toInt_eq_toNat_cond]
  have h' : n.toBitVec.toNat = n.toUInt32.toNat := rfl
  rw [h']
  norm_num
  split <;> split <;> omega

theorem request_keeps {x : Pooled Nat} {post : Nat → ConstantPool → Prop}
    (h : Keeps (fun _ => True) x post) : Keeps (fun _ => True) (request x) post :=
  h.adapt _

theorem measure_keeps (i : Instruction) :
    Keeps (fun _ => True) (measure i) fun r pool =>
      r.1 = i.width r.2 ∧ i.Refers pool r.2 ∧ i.IsEncodable := by
  cases i with
  | mark label => exact .pure fun _ _ => ⟨rfl, trivial, trivial⟩
  | simple op =>
    simp only [measure]
    split
    · rename_i h
      exact .pure fun _ _ => ⟨rfl, trivial, h⟩
    · exact .throw _
  | pushInt value =>
    simp only [measure]
    -- The forms are tried from the shortest on, and only the last one asks the pool.
    split
    · rename_i h
      refine .pure fun _ _ => ⟨by simp [Instruction.width, h], fun hs => ?_, trivial⟩
      simp only [isShortSized, Bool.and_eq_false_iff, decide_eq_false_iff_not] at hs
      omega
    · rename_i h1
      split
      · rename_i h2
        refine .pure fun _ _ => ⟨by simp [Instruction.width, h1, h2], fun hs => ?_, trivial⟩
        simp only [isByteSized, Bool.and_eq_true, decide_eq_true_eq] at h2
        simp only [isShortSized, Bool.and_eq_false_iff, decide_eq_false_iff_not] at hs
        omega
      · rename_i h2
        split
        · rename_i h3
          refine .pure fun _ _ => ⟨by simp [Instruction.width, h1, h2, h3], fun hs => ?_, trivial⟩
          simp [h3] at hs
        · rename_i h3
          refine (request_keeps (integer_keeps value)).bind fun index => .pure fun _ hd => ?_
          exact ⟨by simp [Instruction.width, h1, h2, h3], fun _ => hd, trivial⟩
  | pushText text =>
    exact (request_keeps (stringRef_keeps text)).bind fun index =>
      .pure fun _ hd => ⟨rfl, hd, trivial⟩
  | access op slot =>
    simp only [measure]
    split
    · exact .throw _
    · rename_i h
      have hslot : 0 ≤ slot ∧ slot ≤ 65535 := by omega
      repeat' split
      all_goals exact .pure fun _ _ => ⟨by simp [Instruction.width, *], trivial, hslot⟩
  | jump op label => exact .pure fun _ _ => ⟨rfl, trivial, trivial⟩
  | field op m =>
    exact (request_keeps (fieldRef_keeps m)).bind fun index =>
      .pure fun _ hd => ⟨rfl, hd, trivial⟩
  | invoke op m =>
    exact (request_keeps (methodRef_keeps m)).bind fun index =>
      .pure fun _ hd => ⟨rfl, hd, trivial⟩
  | type op name =>
    exact (request_keeps (classRef_keeps name)).bind fun index =>
      .pure fun _ hd => ⟨rfl, hd, trivial⟩

/-- The instructions stand at the placements, from the first position to the second. -/
inductive Arranged (pool : ConstantPool) :
    Nat → List Instruction → List Placement → Nat → Prop where
  | nil (position : Nat) : Arranged pool position [] [] position
  | cons {position index length : Nat} {i : Instruction} {rest : List Instruction}
      {placements : List Placement} (hencode : i.IsEncodable) (hrefers : i.Refers pool index)
      (hrest : Arranged pool (position + i.width index) rest placements length) :
      Arranged pool position (i :: rest) (⟨position, i.width index, index⟩ :: placements) length

theorem arrange_keeps (instructions : List Instruction) (done : Array Placement) (position : Nat) :
    Keeps (fun _ => True) (arrange done position instructions) fun r pool =>
      ∃ placements, r.1.toList = done.toList ++ placements ∧
        Arranged pool position instructions placements r.2 := by
  induction instructions generalizing done position with
  | nil => exact .pure fun _ _ => ⟨[], by simp, .nil position⟩
  | cons i rest ih =>
    refine ((measure_keeps i).adapt _).bind fun ⟨size, index⟩ => ?_
    have hrest := (ih (done.push ⟨position, size, index⟩) (position + size)).frame
      (fun {p q} hw (h : size = i.width index ∧ i.Refers p index ∧ i.IsEncodable) =>
        ⟨h.1, h.2.1.mono hw, h.2.2⟩)
    refine hrest.imp (fun _ h => ⟨trivial, h⟩) ?_
    rintro r pool ⟨⟨placements, hr, harranged⟩, rfl, hrefers, hencode⟩
    exact ⟨⟨position, i.width index, index⟩ :: placements, by simpa using hr,
      .cons hencode hrefers harranged⟩

namespace Arranged

variable {pool : ConstantPool} {position length : Nat} {instructions : List Instruction}
  {placements : List Placement}

theorem length_eq (h : Arranged pool position instructions placements length) :
    placements.length = instructions.length := by
  induction h with
  | nil => rfl
  | cons _ _ _ ih => simp [ih]

theorem first (h : Arranged pool position instructions placements length) :
    (placements.head?.map Placement.position).getD length = position := by
  cases h with
  | nil => rfl
  | cons => rfl

theorem at_index (h : Arranged pool position instructions placements length) {k : Nat}
    {i : Instruction} {p : Placement} (hi : instructions[k]? = some i)
    (hp : placements[k]? = some p) :
    p.size = i.width p.index ∧ i.Refers pool p.index ∧ i.IsEncodable := by
  induction h generalizing k with
  | nil => simp at hi
  | cons hencode hrefers _ ih =>
    cases k with
    | zero =>
      simp only [List.getElem?_cons_zero, Option.some.injEq] at hi hp
      subst hi hp
      exact ⟨rfl, hrefers, hencode⟩
    | succ k => exact ih (by simpa using hi) (by simpa using hp)

theorem next (h : Arranged pool position instructions placements length) {k : Nat} {p : Placement}
    (hp : placements[k]? = some p) :
    (placements[k + 1]?.map Placement.position).getD length = p.position + p.size := by
  induction h generalizing k with
  | nil => simp at hp
  | cons _ _ hrest ih =>
    cases k with
    | zero =>
      simp only [List.getElem?_cons_zero, Option.some.injEq] at hp
      subst hp
      simpa [List.head?_eq_getElem?] using hrest.first
    | succ k => exact ih (by simpa using hp)

end Arranged

end Layout

namespace Code

variable {code : Code} {pool pool' : ConstantPool}

/-- The data stands in the body from the position on. -/
def Stands (bytecode : Bytes) (position : Nat) (data : Bytes) : Prop :=
  ∃ before after, bytecode = before ++ (data ++ after) ∧ before.length = position

theorem encodeFrom_eq_ok {placements : Array Placement} {length position stop index : Nat}
    {instructions : List Instruction} {rest : List Placement} {out out' : Array UInt8}
    (harranged : Layout.Arranged pool position instructions rest stop) (hout : out.size = position)
    (h : encodeFrom code placements length out index (instructions.zip rest) = .ok out') :
    out'.size = stop ∧ out.toList <+: out'.toList ∧ ∀ (k : Nat) (i : Instruction) (p : Placement),
      instructions[k]? = some i → rest[k]? = some p →
        ∃ data, instructionBytes code placements length p i = .ok data ∧ data.length = p.size ∧
          Stands out'.toList p.position data := by
  induction harranged generalizing out index with
  | nil =>
    simp only [List.zip_nil_left, encodeFrom, Except.ok.injEq] at h
    subst h
    exact ⟨hout, List.prefix_refl _, by simp⟩
  | cons hencode hrefers hrest ih =>
    simp only [List.zip_cons_cons, encodeFrom] at h
    split at h
    · cases h
    rename_i data hdata
    split at h
    · cases h
    rename_i hsize
    have hsum : (out ++ data).size = out.size + data.length := by
      rw [← Array.length_toList]
      simp
    simp only [ne_eq, not_not] at hsize
    -- What was written stays at the front of all that is written later.
    obtain ⟨hstop, hfront, hall⟩ := ih (by simpa using hsize) h
    have hout' : out.toList ++ data <+: out'.toList := by simpa using hfront
    refine ⟨hstop, (List.prefix_append _ _).trans hout', ?_⟩
    intro k i p hi hp
    cases k with
    | zero =>
      simp only [List.getElem?_cons_zero, Option.some.injEq] at hi hp
      subst hi hp
      obtain ⟨after, hafter⟩ := hout'
      refine ⟨data, hdata, by simp only; omega, out.toList, after, ?_, by simpa using hout⟩
      rw [← hafter, List.append_assoc]
    | succ k => exact hall k i p (by simpa using hi) (by simpa using hp)

/-- What an assembled body holds, and where. -/
structure Assembled (code : Code) (pool : ConstantPool) (placements : Array Placement)
    (bytecode : Bytes) : Prop where
  arranged : Layout.Arranged pool 0 code.entries.toList placements.toList bytecode.length
  stands : ∀ {k : Nat} {i : Instruction} {p : Placement}, code.entries[k]? = some i →
    placements[k]? = some p →
      ∃ data, instructionBytes code placements bytecode.length p i = .ok data ∧
        data.length = p.size ∧ Stands bytecode p.position data
  nonempty : 0 < bytecode.length
  bounded : bytecode.length ≤ 65535

theorem layout_keeps (code : Code) :
    ConstantPool.Keeps (fun _ => True) code.layout fun r pool =>
      Layout.Arranged pool 0 code.entries.toList r.1.toList r.2 ∧ 0 < r.2 ∧ r.2 ≤ 65535 := by
  refine (Layout.arrange_keeps code.entries.toList #[] 0).bind fun ⟨placements, length⟩ => ?_
  dsimp only
  split
  · exact .throw _
  · split
    · exact .throw _
    · refine .pure ?_
      rintro pool ⟨rest, hrest, harranged⟩
      simp only [List.nil_append] at hrest
      exact ⟨hrest ▸ harranged, by omega, by omega⟩

theorem liftExcept_eq_ok {α : Type} {x : Except AssemblyError α} {a : α}
    (h : assemble.liftExcept x pool = .ok a pool') : x = .ok a ∧ pool = pool' := by
  cases x with
  | error e => cases h
  | ok b =>
    cases h
    exact ⟨rfl, rfl⟩

/-- The stages that an accepted sequence has passed. -/
theorem assemble_eq_ok {least : Int} {method : Method}
    (h : code.assemble least pool = .ok method pool') :
    code.isSealed = false ∧ code.verifyLabels = .ok () ∧ ∃ placements heights length deepest,
      code.layout pool = .ok (placements, length) pool' ∧
      code.stackHeights = .ok (heights, deepest) ∧
      code.encode placements length = .ok method.bytecode ∧
      method.maxStack = deepest ∧ method.maxLocals = code.maxLocals least := by
  simp only [assemble] at h
  split at h
  · cases h
  rename_i hopen
  obtain ⟨_, _, hlabels, h⟩ := ok_of_bind_eq_ok h
  obtain ⟨hverified, rfl⟩ := liftExcept_eq_ok hlabels
  obtain ⟨⟨placements, length⟩, _, hlayout, h⟩ := ok_of_bind_eq_ok h
  obtain ⟨⟨heights, deepest⟩, _, hheights, h⟩ := ok_of_bind_eq_ok h
  obtain ⟨hknown, rfl⟩ := liftExcept_eq_ok hheights
  obtain ⟨bytecode, _, hencode, h⟩ := ok_of_bind_eq_ok h
  obtain ⟨hbytes, rfl⟩ := liftExcept_eq_ok hencode
  cases h
  exact ⟨by simpa using hopen, hverified, placements, heights, length, deepest, hlayout, hknown,
    hbytes, rfl, rfl⟩

/-- An accepted sequence stands in the body as it was laid out. -/
theorem assembled_of_encode {placements : Array Placement} {length : Nat} {bytecode : Bytes}
    (harranged : Layout.Arranged pool 0 code.entries.toList placements.toList length)
    (hpos : 0 < length) (hle : length ≤ 65535) (h : code.encode placements length = .ok bytecode) :
    code.Assembled pool placements bytecode ∧ bytecode.length = length := by
  cases hout : encodeFrom code placements length #[] 0 (code.entries.toList.zip placements.toList) with
  | error e =>
    rw [encode, hout] at h
    cases h
  | ok out =>
    rw [encode, hout] at h
    cases h
    obtain ⟨hsize, -, hall⟩ := encodeFrom_eq_ok harranged rfl hout
    have hlength : out.toList.length = length := by simpa using hsize
    refine ⟨⟨hlength ▸ harranged, fun {k i p} hi hp => ?_, by omega, by omega⟩, hlength⟩
    rw [hlength]
    exact hall k i p (by simpa using hi) (by simpa using hp)

theorem liftExcept_keeps {α : Type} (x : Except AssemblyError α) :
    ConstantPool.Keeps (fun _ => True) (assemble.liftExcept x) fun _ _ => True := by
  cases x with
  | error e => exact .throw e
  | ok a => exact .pure fun _ _ => trivial

/-- The assembly of a sequence keeps the pool valid, also when it is refused. -/
theorem assemble_keeps (code : Code) (least : Int) :
    ConstantPool.Keeps (fun _ => True) (code.assemble least) fun _ _ => True := by
  simp only [assemble]
  split
  · exact .throw _
  refine (liftExcept_keeps _).bind fun _ => ?_
  refine ((layout_keeps code).imp (fun _ h => h) fun _ _ _ => trivial).bind fun _ => ?_
  refine (liftExcept_keeps _).bind fun _ => (liftExcept_keeps _).bind fun _ => ?_
  exact .pure fun _ _ => trivial

/-- Where entry `k` starts in a body of the given length; what would follow the last entry starts
at its end. -/
def start (placements : Array Placement) (length k : Nat) : Nat :=
  (placements[k]?.map Placement.position).getD length

end Code

namespace Layout.Arranged

open Code

variable {code : Code} {pool : ConstantPool} {placements : Array Placement} {length k : Nat}
  {i : Instruction}

theorem start_zero
    (h : Layout.Arranged pool 0 code.entries.toList placements.toList length) :
    start placements length 0 = 0 := by
  simpa [start, List.head?_eq_getElem?] using h.first

theorem placement (h : Layout.Arranged pool 0 code.entries.toList placements.toList length)
    (hi : code.entries[k]? = some i) :
    ∃ p, placements[k]? = some p ∧ p.position = start placements length k ∧
      p.size = i.width p.index ∧
      start placements length (k + 1) = start placements length k + i.width p.index ∧
      i.Refers pool p.index ∧ i.IsEncodable := by
  obtain ⟨hk, -⟩ := Array.getElem?_eq_some_iff.mp hi
  have hsize := h.length_eq
  simp only [Array.length_toList] at hsize
  obtain ⟨p, hp⟩ : ∃ p, placements[k]? = some p :=
    ⟨placements[k], Array.getElem?_eq_getElem (by omega)⟩
  obtain ⟨hwidth, hrefers, hencode⟩ := h.at_index (k := k) (p := p) (by simpa using hi)
    (by simpa using hp)
  have hnext := h.next (k := k) (p := p) (by simpa using hp)
  have hposition : start placements length k = p.position := by
    simp [start, hp]
  simp only [Array.getElem?_toList] at hnext
  refine ⟨p, hp, hposition.symm, hwidth, ?_, hrefers, hencode⟩
  rw [hposition, ← hwidth]
  exact hnext

theorem start_of_size_le (h : Layout.Arranged pool 0 code.entries.toList placements.toList length)
    (hk : code.entries.size ≤ k) : start placements length k = length := by
  have hsize := h.length_eq
  simp only [Array.length_toList] at hsize
  simp [start, Array.getElem?_eq_none (show placements.size ≤ k by omega)]

theorem start_le_succ (h : Layout.Arranged pool 0 code.entries.toList placements.toList length)
    (k : Nat) : start placements length k ≤ start placements length (k + 1) := by
  rcases Nat.lt_or_ge k code.entries.size with hk | hk
  · obtain ⟨p, -, -, -, hnext, -⟩ := h.placement (Array.getElem?_eq_getElem hk)
    omega
  · rw [h.start_of_size_le hk, h.start_of_size_le (by omega)]

theorem start_mono (h : Layout.Arranged pool 0 code.entries.toList placements.toList length)
    {j : Nat} (hjk : j ≤ k) : start placements length j ≤ start placements length k :=
  monotone_nat_of_le_succ h.start_le_succ hjk

theorem start_lt_succ (h : Layout.Arranged pool 0 code.entries.toList placements.toList length)
    (hi : code.entries[k]? = some i) (hmark : i.isMark = false) :
    start placements length k < start placements length (k + 1) := by
  obtain ⟨p, -, -, -, hnext, -⟩ := h.placement hi
  have := i.width_pos hmark p.index
  omega

theorem start_le_length (h : Layout.Arranged pool 0 code.entries.toList placements.toList length)
    (k : Nat) : start placements length k ≤ length := by
  rcases Nat.lt_or_ge k code.entries.size with hk | hk
  · have := h.start_mono (Nat.le_of_lt hk)
    rwa [h.start_of_size_le (Nat.le_refl _)] at this
  · exact Nat.le_of_eq (h.start_of_size_le hk)

end Layout.Arranged

namespace Code

theorem length_loadConstant (index : Nat) :
    (loadConstant index).length = Layout.constantSize index := by
  simp only [loadConstant, Layout.constantSize]
  split <;> simp [Bytes.u16]

/-- The forms in which a number is pushed, each with its size and its bytes. Two of them can take two
bytes, and two can take three. -/
inductive PushForm (value : Int32) (index : Nat) : Nat → Bytes → Prop
  | opcode (n : Fin 7) (h : Int32.ofInt ((n.val : Int) - 1) = value) :
    PushForm value index 1 [(Opcode.iconst n).byte]
  | byte (h : Layout.isByteSized value.toInt = true) :
    PushForm value index 2 [Opcode.bipush.byte, value.toUInt32.toUInt8]
  | short (h : Layout.isShortSized value.toInt = true) :
    PushForm value index 3 (Opcode.sipush.byte :: Bytes.u16 value.toUInt32.toNat)
  | constant (h : Layout.isShortSized value.toInt = false) :
    PushForm value index (Layout.constantSize index) (loadConstant index)

theorem PushForm.length_eq {value : Int32} {index size : Nat} {data : Bytes}
    (h : PushForm value index size data) : data.length = size := by
  cases h with
  | opcode n h => rfl
  | byte h => rfl
  | short h => rfl
  | constant h => exact length_loadConstant index

theorem iconstZero_byte_add {value : Int32} (h : -1 ≤ value.toInt ∧ value.toInt ≤ 5) :
    Opcode.iconstZero.byte + value.toUInt32.toUInt8 =
      (Opcode.iconst ⟨(value.toInt + 1).toNat, by omega⟩).byte := by
  have hvalue := Layout.toInt_eq value
  have hlt := value.toUInt32.toNat_lt
  apply UInt8.toNat_inj.mp
  simp only [Opcode.iconstZero, Opcode.byte, Nat.toUInt8, UInt8.toNat_add, UInt8.toNat_ofNat',
    UInt8.reduceToNat, UInt32.toNat_toUInt8]
  split at hvalue <;> omega

/-- What is written for a number from its recorded size is the form that the size was recorded
for. -/
theorem pushForm_width (value : Int32) (index : Nat) :
    PushForm value index ((Instruction.pushInt value).width index)
      (pushBytes value ((Instruction.pushInt value).width index) index) := by
  simp only [Instruction.width]
  by_cases hconst : -1 ≤ value.toInt ∧ value.toInt ≤ 5
  · rw [if_pos hconst, pushBytes, if_pos rfl, iconstZero_byte_add hconst]
    refine .opcode _ ?_
    rw [show (((value.toInt + 1).toNat : Int)) - 1 = value.toInt by omega, Int32.ofInt_toInt]
  rw [if_neg hconst]
  by_cases hbyte : Layout.isByteSized value.toInt = true
  · rw [if_pos hbyte, pushBytes, if_neg (by decide), if_pos ⟨rfl, hbyte⟩]
    exact .byte hbyte
  rw [if_neg hbyte]
  by_cases hshort : Layout.isShortSized value.toInt = true
  · rw [if_pos hshort, pushBytes, if_neg (by decide), if_neg (by simp), if_pos ⟨rfl, hshort⟩]
    exact .short hshort
  rw [if_neg hshort]
  -- A constant shares its size with one of the short forms, for which the number is too large.
  have hlong : Layout.constantSize index ≠ 1 := by
    simp only [Layout.constantSize]
    split <;> decide
  rw [pushBytes, if_neg hlong, if_neg fun h => hbyte h.2, if_neg fun h => hshort h.2]
  exact .constant (by simpa using hshort)

/-- Each entry stands between its start and that of the next. -/
theorem Assembled.locate {code : Code} {pool : ConstantPool} {placements : Array Placement}
    {bytecode : Bytes} {k : Nat} {i : Instruction} (h : code.Assembled pool placements bytecode)
    (hi : code.entries[k]? = some i) :
    ∃ p data, placements[k]? = some p ∧ p.position = start placements bytecode.length k ∧
      p.size = i.width p.index ∧ instructionBytes code placements bytecode.length p i = .ok data ∧
      data.length = i.width p.index ∧ Stands bytecode (start placements bytecode.length k) data ∧
      start placements bytecode.length (k + 1) =
        start placements bytecode.length k + i.width p.index ∧
      i.Refers pool p.index ∧ i.IsEncodable := by
  obtain ⟨p, hp, hposition, hwidth, hnext, hrefers, hencode⟩ := h.arranged.placement hi
  obtain ⟨data, hdata, hlength, hstands⟩ := h.stands hi hp
  exact ⟨p, data, hp, hposition, hwidth, hdata, hlength.trans hwidth, hposition ▸ hstands, hnext,
    hrefers, hencode⟩

end Code

theorem foldl_max_le_iff {l : List Int} {least bound : Int} :
    l.foldl max least ≤ bound ↔ least ≤ bound ∧ ∀ n ∈ l, n ≤ bound := by
  induction l generalizing least with
  | nil => simp
  | cons n l ih => simp [ih, and_assoc]

/-- The local variable area is as large as the least and as every slot needs. -/
theorem Code.maxLocals_le_iff {code : Code} {least bound : Int} :
    code.maxLocals least ≤ bound ↔ least ≤ bound ∧ ∀ {k : Nat} {op : LocalOp} {slot : Int},
      code.entries[k]? = some (.access op slot) → slot + 1 ≤ bound := by
  rw [Code.maxLocals, foldl_max_le_iff]
  refine and_congr_right fun _ => ⟨fun h k op slot hk => ?_, fun h n hn => ?_⟩
  · exact h _ (List.mem_filterMap.mpr
      ⟨.access op slot, List.mem_of_getElem? (by simpa using hk), rfl⟩)
  · obtain ⟨i, hi, hn⟩ := List.mem_filterMap.mp hn
    cases i with
    | access op slot =>
      cases hn
      obtain ⟨k, hk⟩ := List.getElem?_of_mem hi
      exact h (by simpa using hk)
    | _ => cases hn

end ClassForge
