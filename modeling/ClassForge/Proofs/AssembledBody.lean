import ClassForge.Proofs.Decoding

/-! An assembled body in a running machine. Where the counter is at the start of an entry, the next
step does what the entry says. -/

namespace ClassForge

/-- A sequence with its layout, the bytes it was assembled to and the heights of the stack. -/
structure Body where
  code : Code
  pool : ConstantPool
  placements : Array Placement
  bytecode : Bytes
  heights : Heights
  deepest : Nat
  valid : pool.Valid
  assembled : code.Assembled pool placements bytecode
  first : heights.at? 0 = some 0
  carries : ∀ {i h : Nat}, heights.at? i = some h →
    ∃ out, code.Carries heights.at? i h out ∧ out ≤ deepest

namespace Body

variable {b : Body} {m : Machine} {k : Nat}

/-- Where entry `k` starts. -/
def start (b : Body) (k : Nat) : Nat :=
  Code.start b.placements b.bytecode.length k

/-- The machine runs the body, over constants that read back as those of the pool, with room for
its heights and its slots. -/
structure Loaded (b : Body) (m : Machine) : Prop where
  code : m.code = b.bytecode.toArray
  constants : ∀ {i : Nat} {c : Constant}, b.pool.Denotes i c →
    constantAt m.constants i = .ok c.repaired
  room : b.deepest ≤ m.maxStack
  slots : ∀ {k : Nat} {op : LocalOp} {slot : Int}, b.code.entries[k]? = some (.access op slot) →
    slot.toNat < m.locals.size

theorem index_lt (b : Body) {i : Nat} {c : Constant} (h : b.pool.Denotes i c) : i < 65536 :=
  b.valid.index_lt h

theorem has_of_stands {data : Bytes} (hcode : m.code = b.bytecode.toArray)
    (h : Code.Stands b.bytecode m.pc data) : m.Has data := by
  obtain ⟨before, after, hbytes, hlength⟩ := h
  intro j hj
  rw [hcode, hbytes, List.getElem?_toArray, ← hlength, List.getElem?_append_right (by omega),
    Nat.add_sub_cancel_left, List.getElem?_append_left hj]

theorem Loaded.fetch (hl : b.Loaded m) (hpc : m.pc = b.start k) {i : Instruction}
    (hi : b.code.entries[k]? = some i) :
    ∃ p data, p.size = i.width p.index ∧
      Code.instructionBytes b.code b.placements b.bytecode.length p i = .ok data ∧
      m.Has data ∧ p.position = m.pc ∧ b.start (k + 1) = m.pc + i.width p.index ∧
      i.Refers b.pool p.index ∧ i.IsEncodable := by
  obtain ⟨p, data, -, hposition, hsize, hdata, -, hstands, hnext, hrefers, hencode⟩ :=
    b.assembled.locate hi
  refine ⟨p, data, hsize, hdata, has_of_stands hl.code (hpc ▸ hstands), hpc ▸ hposition, ?_,
    hrefers, hencode⟩
  rw [hpc]
  exact hnext

theorem Loaded.step_simple (hl : b.Loaded m) (hpc : m.pc = b.start k) {a : UInt8}
    (hi : b.code.entries[k]? = some (.simple a)) :
    ∃ op, Opcode.ofByte? a = some op ∧ Machine.step m = Machine.execute m.pc op m ∧
      b.start (k + 1) = m.pc + 1 := by
  obtain ⟨p, data, -, hdata, hhas, -, hnext, -, hencode⟩ := hl.fetch hpc hi
  obtain ⟨op, hop⟩ := Option.isSome_iff_exists.mp hencode
  cases hdata
  exact ⟨op, hop, hhas.step_of_byte hop, hnext⟩

theorem Loaded.step_pushInt (hl : b.Loaded m) (hpc : m.pc = b.start k) {v : Int32}
    (hi : b.code.entries[k]? = some (.pushInt v)) :
    Machine.step m = (do Machine.push (.int v); return false) { m with pc := b.start (k + 1) } := by
  obtain ⟨p, data, hsize, hdata, hhas, -, hnext, hrefers, -⟩ := hl.fetch hpc hi
  cases hdata
  rw [hsize] at hhas
  rw [hnext]
  exact hhas.step_pushInt (Code.pushForm_width v p.index) fun hlarge =>
    ⟨b.index_lt (hrefers hlarge), hl.constants (hrefers hlarge)⟩

theorem Loaded.step_pushText (hl : b.Loaded m) (hpc : m.pc = b.start k) {text : Bytes}
    (hi : b.code.entries[k]? = some (.pushText text)) :
    Machine.step m = (do Machine.push (.text (Utf8.repair text)); return false)
      { m with pc := b.start (k + 1) } := by
  obtain ⟨p, data, -, hdata, hhas, -, hnext, hrefers, -⟩ := hl.fetch hpc hi
  cases hdata
  rw [hnext]
  exact hhas.step_pushText (b.index_lt hrefers) (hl.constants hrefers)

theorem Loaded.step_access (hl : b.Loaded m) (hpc : m.pc = b.start k) {op : LocalOp} {slot : Int}
    (hi : b.code.entries[k]? = some (.access op slot)) :
    Machine.step m = (do Machine.access op.byte slot.toNat; return false)
      { m with pc := b.start (k + 1) } := by
  obtain ⟨p, data, -, hdata, hhas, -, hnext, -, hencode⟩ := hl.fetch hpc hi
  cases hdata
  rw [hnext]
  exact hhas.step_access hencode p.index

/-- A jump that was written goes to the start of the entry that its label marks. -/
theorem jumpBytes_eq_ok {p : Placement} {op : JumpOp} {label : Label} {data : Bytes}
    (h : Code.jumpBytes b.code b.placements b.bytecode.length p.position op label = .ok data) :
    ∃ t, b.code.place? label = some t ∧ b.start t < b.bytecode.length ∧
      Layout.isShortSized ((b.start t : Int) - p.position) = true ∧
      data = op.opcode.byte :: Bytes.u16 (((b.start t : Int) - p.position) % 65536).toNat := by
  simp only [Code.jumpBytes] at h
  split at h
  · cases h
  rename_i target htarget
  obtain ⟨t, ht, htarget⟩ := Option.bind_eq_some_iff.mp htarget
  obtain ⟨q, hq, htarget⟩ := Option.bind_eq_some_iff.mp htarget
  have hstart : b.start t = target := by
    simpa [start, Code.start, hq] using htarget
  split at h
  · cases h
  rename_i hlt
  split at h
  · rename_i hshort
    cases h
    subst hstart
    exact ⟨t, ht, by omega, hshort, rfl⟩
  · cases h

theorem Loaded.step_goto (hl : b.Loaded m) (hpc : m.pc = b.start k) {label : Label}
    (hi : b.code.entries[k]? = some (.jump .always label)) :
    ∃ t, b.code.place? label = some t ∧
      Machine.step m = .ok false { m with pc := b.start t } := by
  obtain ⟨p, data, -, hdata, hhas, hposition, -⟩ := hl.fetch hpc hi
  obtain ⟨t, ht, hlt, hshort, rfl⟩ := jumpBytes_eq_ok hdata
  rw [hposition] at hshort hhas
  exact ⟨t, ht, hhas.step_goto (by rw [hl.code]; simpa using hlt) hshort⟩

theorem Loaded.step_branch (hl : b.Loaded m) (hpc : m.pc = b.start k) {relation : Relation}
    {label : Label} (hi : b.code.entries[k]? = some (.jump (.when relation) label)) :
    ∃ t taken, b.code.place? label = some t ∧
      Machine.step m = (do Machine.compare relation taken; return false)
        { m with pc := b.start (k + 1) } ∧
      ∀ m' : Machine, m'.code = m.code → taken m' = .ok () { m' with pc := b.start t } := by
  obtain ⟨p, data, -, hdata, hhas, hposition, hnext, -⟩ := hl.fetch hpc hi
  obtain ⟨t, ht, hlt, hshort, rfl⟩ := jumpBytes_eq_ok hdata
  rw [hposition] at hshort hhas
  refine ⟨t, _, ht, ?_, fun m' hcode => Machine.jump_eq ?_ hshort⟩
  · rw [hnext]
    exact hhas.step_branch (by omega)
  · rw [hcode, hl.code]
    simpa using hlt

theorem Loaded.step_getstatic (hl : b.Loaded m) (hpc : m.pc = b.start k) {member : Member}
    (hi : b.code.entries[k]? = some (.field Opcode.getstatic.byte member)) :
    ∃ member' : Member, member'.render = member.render ∧
      Machine.step m = (do Machine.getstatic; return false) m ∧
      Machine.fieldOperand m = .ok member'.repaired { m with pc := b.start (k + 1) } := by
  obtain ⟨p, data, -, hdata, hhas, -, hnext, ⟨member', hdenotes, hrender⟩, -⟩ := hl.fetch hpc hi
  cases hdata
  refine ⟨member', hrender, hhas.step, ?_⟩
  rw [hnext]
  exact hhas.fieldOperand (b.index_lt hdenotes) (hl.constants hdenotes)

theorem Loaded.step_invoke (hl : b.Loaded m) (hpc : m.pc = b.start k) {op : CallOp}
    {member : Member} (hi : b.code.entries[k]? = some (.invoke (Opcode.invoke op).byte member)) :
    ∃ member' : Member, member'.render = member.render ∧
      Machine.step m = Machine.execute m.pc (.invoke op) m ∧
      Machine.methodOperand m = .ok member'.repaired { m with pc := b.start (k + 1) } := by
  obtain ⟨p, data, -, hdata, hhas, -, hnext, ⟨member', hdenotes, hrender⟩, -⟩ := hl.fetch hpc hi
  cases hdata
  refine ⟨member', hrender, hhas.step, ?_⟩
  rw [hnext]
  exact hhas.methodOperand (b.index_lt hdenotes) (hl.constants hdenotes)

theorem Loaded.step_new (hl : b.Loaded m) (hpc : m.pc = b.start k) {name : Bytes}
    (hi : b.code.entries[k]? = some (.type Opcode.new.byte name)) :
    ∃ index, Machine.step m = (do Machine.newObject; return false) m ∧
      Machine.operand16 m = .ok index { m with pc := b.start (k + 1) } ∧
      constantAt m.constants index = .ok (.classRef (Utf8.repair name)) := by
  obtain ⟨p, data, -, hdata, hhas, -, hnext, hrefers, -⟩ := hl.fetch hpc hi
  cases hdata
  refine ⟨p.index, hhas.step, ?_, hl.constants hrefers⟩
  rw [hnext]
  exact hhas.operand16 (b.index_lt hrefers)

end Body

namespace Code

/-- An accepted sequence is a body. -/
theorem body_of_assemble {code : Code} {least : Int} {pool pool' : ConstantPool} {method : Method}
    (hv : pool.Valid) (h : code.assemble least pool = .ok method pool') :
    ∃ b : Body, b.code = code ∧ b.pool = pool' ∧ b.bytecode = method.bytecode ∧
      (b.deepest : Int) = method.maxStack ∧ code.stackHeights = .ok (b.heights, b.deepest) ∧
      code.layout pool = .ok (b.placements, b.bytecode.length) pool' ∧ pool.Within pool' := by
  obtain ⟨-, -, placements, heights, length, deepest, hlayout, hheights, hencode, hmax, -⟩ :=
    assemble_eq_ok h
  obtain ⟨hv', hw, harranged, hpos, hle⟩ := (layout_keeps code).of_ok hv trivial hlayout
  obtain ⟨hassembled, hlength⟩ := assembled_of_encode harranged hpos hle hencode
  have hsize : 0 < code.entries.size := by
    by_contra hempty
    have hend := hassembled.arranged.start_of_size_le (show code.entries.size ≤ 0 by omega)
    rw [hassembled.arranged.start_zero] at hend
    have := hassembled.nonempty
    omega
  obtain ⟨hfirst, hcarries⟩ := stackHeights_sound hsize hheights
  exact ⟨⟨code, pool', placements, method.bytecode, heights, deepest, hv', hassembled, hfirst,
    hcarries⟩, rfl, rfl, rfl, hmax.symm, hheights, hlength ▸ hlayout, hw⟩

end Code

end ClassForge
