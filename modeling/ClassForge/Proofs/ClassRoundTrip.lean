import ClassForge.Proofs.PoolRoundTrip

/-! A class that is written and read back. The methods come back in their order with their bodies,
and every constant stands at the index at which it was interned. -/

namespace ClassForge

namespace ClassFile

/-- Behind the data at the front of any input the reader goes on as another one. -/
def Leads {α : Type} (x : Reader α) (data : Bytes) (y : Reader α) : Prop :=
  ∀ rest position, x { rest := data ++ rest, position } =
    y { rest, position := position + data.length }

theorem Reads.leads {α β : Type} {x : Reader α} {f : α → Reader β} {data data' : Bytes} {a : α}
    {y : Reader β} (hx : Reads x data a) (hf : Leads (f a) data' y) :
    Leads (x >>= f) (data ++ data') y := by
  intro rest position
  have h : (x >>= f) { rest := data ++ data' ++ rest, position } =
      f a { rest := data' ++ rest, position := position + data.length } := by
    change StateT.bind x f _ = _
    simp only [StateT.bind, Bind.bind, Except.bind, List.append_assoc, hx (data' ++ rest) position]
  rw [h, hf rest (position + data.length), List.length_append, Nat.add_assoc]

theorem Reads.leads_of_nil {α β : Type} {x : Reader α} {f : α → Reader β} {data : Bytes} {a : α}
    {y : Reader β} (hx : Reads x [] a) (hf : Leads (f a) data y) : Leads (x >>= f) data y :=
  hx.leads hf

theorem Reads.leads_end {α β : Type} {x : Reader α} {f : α → Reader β} {data : Bytes} {a : α}
    (hx : Reads x data a) : Leads (x >>= f) data (f a) := by
  have h : Leads (f a) [] (f a) := fun _ _ => rfl
  simpa using hx.leads h

theorem reads_ignoreAttributes : Reads ignoreAttributes (Bytes.u16 0) () :=
  (reads_u16 (by omega)).bind_nil (Reads.pure ())

theorem reads_readMagic : Reads readMagic (Bytes.u32 magic) () :=
  (reads_u32 (by decide)).bind_nil (Reads.pure ())

theorem reads_readCode {maxStack maxLocals : Nat} {bytecode : Bytes} (hs : maxStack < 65536)
    (hl : maxLocals < 65536) (hb : bytecode.length < 4294967296) :
    Reads readCode (Bytes.u16 maxStack ++ (Bytes.u16 maxLocals ++ (Bytes.u32 bytecode.length ++
      (bytecode ++ (Bytes.u16 0 ++ Bytes.u16 0))))) { maxStack, maxLocals, bytecode } := by
  refine (reads_u16 hs).bind ((reads_u16 hl).bind ((reads_u32 hb).bind ((reads_take bytecode).bind
    ((reads_u16 (by omega)).bind ((reads_take []).bind_of_nil ?_)))))
  exact reads_ignoreAttributes.bind_nil (reads_check.bind_of_nil (Reads.pure _))

end ClassFile

/-- A method as it is read back. -/
def WrittenMethod.readBack (m : WrittenMethod) : ReadMethod where
  access := m.access
  name := Utf8.repair m.name
  descriptor := Utf8.repair m.descriptor
  code := some {
    maxStack := (m.body.maxStack % 65536).toNat
    maxLocals := (m.body.maxLocals % 65536).toNat
    bytecode := m.body.bytecode }

namespace ClassWriter

open ClassFile

theorem reads_methodBytes {constants : Array Constant} {m : WrittenMethod} {name descriptor code : Nat}
    (hn : constantAt constants name = .ok (.utf8 (Utf8.repair m.name)))
    (hd : constantAt constants descriptor = .ok (.utf8 (Utf8.repair m.descriptor)))
    (hc : constantAt constants code = .ok (.utf8 codeAttributeName))
    (hn' : name < 65536) (hd' : descriptor < 65536) (hc' : code < 65536)
    (hb : m.body.bytecode.length + 12 < 4294967296) :
    Reads (readMethod constants) (methodBytes m name descriptor code) m.readBack := by
  have hs : (m.body.maxStack % 65536).toNat < 65536 := by omega
  have hl : (m.body.maxLocals % 65536).toNat < 65536 := by omega
  have hcode := reads_readCode hs hl (show m.body.bytecode.length < 4294967296 by omega)
  let body := Bytes.u16 (m.body.maxStack % 65536).toNat ++
    (Bytes.u16 (m.body.maxLocals % 65536).toNat ++ (Bytes.u32 m.body.bytecode.length ++
      (m.body.bytecode ++ (Bytes.u16 0 ++ Bytes.u16 0))))
  have hlen : body.length = m.body.bytecode.length + 12 := by
    simp [body, Bytes.u16, Bytes.u32]
  have hattribute : Reads (readMethodAttributes constants (Utf8.repair m.name) 1 none)
      (Bytes.u16 code ++ (Bytes.u32 (m.body.bytecode.length + 12) ++ body)) m.readBack.code := by
    refine reads_failed.bind_of_nil ((reads_u16 hc').bind ((Reads.lift hc).bind_of_nil
      ((reads_u32 (by omega)).bind ?_)))
    rw [← hlen]
    refine (reads_take body).bind_nil (reads_failed.bind_of_nil ?_)
    have hr := hcode [] 0
    rw [List.append_nil] at hr
    simp only [Constant.text, ne_eq, not_true, Bool.false_eq_true, or_self, if_false, body, hr]
    exact Reads.pure _
  have h : Reads (readMethod constants) (Bytes.u16 m.access.toNat ++ (Bytes.u16 name ++
      (Bytes.u16 descriptor ++ (Bytes.u16 1 ++ (Bytes.u16 code ++
        (Bytes.u32 (m.body.bytecode.length + 12) ++ body)))))) m.readBack := by
    refine (reads_u16 m.access.toNat_lt).bind ((reads_u16 hn').bind ((reads_u16 hd').bind
      (reads_check.bind_of_nil ((Reads.lift hn).bind_of_nil ((Reads.lift hd).bind_of_nil
        ((reads_u16 (by omega)).bind (hattribute.bind_nil (reads_check.bind_of_nil ?_))))))))
    have ha : m.access.toNat.toUInt16 = m.access := by simp
    simp only [Constant.text, ha]
    exact Reads.pure _
  simpa only [methodBytes, body, List.append_assoc] using h

/-- What every writer satisfies whose methods can be written. -/
structure Sound (w : ClassWriter) : Prop where
  valid : w.pool.Valid
  this : w.pool.Denotes w.thisIndex (.classRef w.name)
  super : w.pool.Denotes w.superIndex (.classRef w.superName)
  short : ∀ m ∈ w.methods.toList, m.body.bytecode.length + 12 < 4294967296
  distinct : (w.methods.toList.map fun m => (m.name, m.descriptor)).Nodup

/-- The class that a writer stands for, over the constants of its pool. -/
def readBack (w : ClassWriter) (constants : Array Constant) : ClassFile where
  minor := minorVersion
  major := majorVersion
  access := w.access
  name := Utf8.repair w.name
  superName := Utf8.repair w.superName
  constants
  methods := ((w.methods.toList.take (w.methods.size % 65536)).map WrittenMethod.readBack).toArray

/-- The pair of indexes denotes the name and the descriptor of the method. -/
def Names (pool : ConstantPool) (m : WrittenMethod) (indexes : Nat × Nat) : Prop :=
  pool.Denotes indexes.1 (.utf8 m.name) ∧ pool.Denotes indexes.2 (.utf8 m.descriptor)

theorem Names.mono {pool pool' : ConstantPool} {m : WrittenMethod} {indexes : Nat × Nat}
    (h : Names pool m indexes) (hw : pool.Within pool') : Names pool' m indexes :=
  ⟨h.1.mono hw, h.2.mono hw⟩

theorem methodIndexes_keeps (methods : List WrittenMethod) :
    ConstantPool.Keeps (fun _ => True) (methodIndexes methods) fun indexes pool =>
      List.Forall₂ (Names pool) methods indexes := by
  induction methods with
  | nil => exact .pure fun _ _ => .nil
  | cons m rest ih =>
    refine (ConstantPool.utf8_keeps m.name).bind fun i => ?_
    have hd := (ConstantPool.utf8_keeps m.descriptor).frame
      (fun hw h => ConstantPool.Denotes.mono (i := i) (c := .utf8 m.name) h hw)
    refine (hd.imp (fun _ h => ⟨trivial, h⟩) fun _ _ h => h).bind fun j => ?_
    have hrest := ih.frame (fun {p q} hw (h : Names p m (i, j)) => h.mono hw)
    exact (hrest.imp (fun _ h => ⟨trivial, h.2, h.1⟩) fun _ _ h => h).bind fun others =>
      .pure fun pool h => .cons h.2 h.1

theorem reads_bodies {constants : Array Constant} {code : Nat} {methods : List WrittenMethod}
    {indexes : List (Nat × Nat)} {pool : ConstantPool} (hv : pool.Valid)
    (hconstants : ∀ {i : Nat} {c : Constant}, pool.Denotes i c →
      constantAt constants i = .ok c.repaired)
    (hcode : pool.Denotes code (.utf8 codeAttributeName))
    (hshort : ∀ m ∈ methods, m.body.bytecode.length + 12 < 4294967296)
    (hnames : List.Forall₂ (Names pool) methods indexes) :
    ∀ pair ∈ methods.zip indexes, Reads (readMethod constants)
      (methodBytes pair.1 pair.2.1 pair.2.2 code) pair.1.readBack := by
  rintro ⟨m, name, descriptor⟩ hm
  have hnames := (List.forall₂_iff_zip.mp hnames).2 hm
  have hc := hconstants hcode
  have hascii : Utf8.repair codeAttributeName = codeAttributeName :=
    Utf8.repair_of_isAscii (by decide)
  simp only [Constant.repaired, hascii] at hc
  exact reads_methodBytes (hconstants hnames.1) (hconstants hnames.2) hc
    (hv.index_lt hnames.1) (hv.index_lt hnames.2) (hv.index_lt hcode) (hshort m (List.of_mem_zip hm).1)

theorem onPool_eq_ok {ε α : Type} {wrap : ε → ClassError} {x : EStateM ε ConstantPool α}
    {w w' : ClassWriter} {a : α} (h : onPool wrap x w = .ok a w') :
    ∃ pool, x w.pool = .ok a pool ∧ w' = { w with pool } := by
  simp only [onPool] at h
  split at h
  · cases h
    exact ⟨_, ‹_›, rfl⟩
  · cases h

/-- A class is written over its pool with the names of its methods added. -/
theorem bytes_eq_ok {w w' : ClassWriter} {data : Bytes} (h : bytes w = .ok data w') :
    w.isFinished = false ∧ w.methods.toList.find? exceedsFrame = none ∧
      ∃ code pool₁ indexes pool₂, ConstantPool.utf8 codeAttributeName w.pool = .ok code pool₁ ∧
        methodIndexes w.methods.toList pool₁ = .ok indexes pool₂ ∧
        w' = { w with pool := pool₂, isFinished := true } ∧ data = fileBytes w' code indexes := by
  obtain ⟨_, _, hget, h⟩ := ok_of_bind_eq_ok h
  cases hget
  split at h
  · cases h
  rename_i hopen
  obtain ⟨code, w₁, hcode, h⟩ := ok_of_bind_eq_ok h
  obtain ⟨pool₁, hutf8, rfl⟩ := onPool_eq_ok hcode
  obtain ⟨_, _, hget, h⟩ := ok_of_bind_eq_ok h
  cases hget
  obtain ⟨indexes, w₂, hindexes, h⟩ := ok_of_bind_eq_ok h
  obtain ⟨pool₂, hnames, rfl⟩ := onPool_eq_ok hindexes
  obtain ⟨_, _, hget, h⟩ := ok_of_bind_eq_ok h
  cases hget
  cases hframe : w.methods.toList.find? exceedsFrame with
  | some m =>
    simp only [hframe] at h
    cases h
  | none =>
    simp only [hframe] at h
    cases h
    exact ⟨by simpa using hopen, rfl, code, pool₁, indexes, pool₂, hutf8, hnames, rfl, rfl⟩

/-- The methods that the count of a class tells, with the pool indexes that they are written
with. The count is written modulo 2^16. -/
theorem reads_methods {constants : Array Constant} {w : ClassWriter} {code : Nat}
    {indexes : List (Nat × Nat)}
    (hbodies : ∀ pair ∈ w.methods.toList.zip indexes, Reads (readMethod constants)
      (methodBytes pair.1 pair.2.1 pair.2.2 code) pair.1.readBack)
    (hlength : indexes.length = w.methods.size) :
    Reads (many (fun _ => readMethod constants) #[] (w.methods.size % 65536))
      (((w.methods.toList.zip indexes).take (w.methods.size % 65536)).flatMap fun pair =>
        methodBytes pair.1 pair.2.1 pair.2.2 code) (w.readBack constants).methods := by
  have hk : w.methods.size % 65536 ≤ w.methods.size := Nat.mod_le _ _
  have hpairs : ((w.methods.toList.zip indexes).take (w.methods.size % 65536)).length =
      w.methods.size % 65536 := by
    simp [hlength, hk]
  have hreads := reads_many ((w.methods.toList.zip indexes).take (w.methods.size % 65536))
    (fun (_ : Nat) pair hp => hbodies pair (List.mem_of_mem_take hp)) #[]
  rw [hpairs] at hreads
  have hvalues : ((w.methods.toList.zip indexes).take (w.methods.size % 65536)).map
      (fun pair => pair.1.readBack) =
      (w.methods.toList.take (w.methods.size % 65536)).map WrittenMethod.readBack := by
    have hfst : (w.methods.toList.zip indexes).map Prod.fst = w.methods.toList :=
      List.map_fst_zip (by simp [hlength])
    conv_rhs => rw [← hfst, ← List.map_take, List.map_map]
    rfl
  simpa [readBack, hvalues] using hreads

section File

variable {w : ClassWriter} {code : Nat} {indexes : List (Nat × Nat)}

/-- The bytes of methods, with the pool indexes that they are written with. -/
def methodsBytes (code : Nat) (pairs : List (WrittenMethod × Nat × Nat)) : Bytes :=
  pairs.flatMap fun pair => methodBytes pair.1 pair.2.1 pair.2.2 code

/-- The bytes of a class up to the last method that its count tells. -/
def toldBytes (w : ClassWriter) (code : Nat) (indexes : List (Nat × Nat)) : Bytes :=
  Bytes.u32 magic ++ (Bytes.u16 minorVersion ++ (Bytes.u16 majorVersion ++ (w.pool.bytes ++
    (Bytes.u16 w.access.toNat ++ (Bytes.u16 w.thisIndex ++ (Bytes.u16 w.superIndex ++
      (Bytes.u16 0 ++ (Bytes.u16 0 ++ (Bytes.u16 (w.methods.size % 65536) ++
        methodsBytes code ((w.methods.toList.zip indexes).take
          (w.methods.size % 65536)))))))))))

/-- The bytes of the methods that the count does not tell. -/
def untoldBytes (w : ClassWriter) (code : Nat) (indexes : List (Nat × Nat)) : Bytes :=
  methodsBytes code ((w.methods.toList.zip indexes).drop (w.methods.size % 65536))

theorem fileBytes_eq (w : ClassWriter) (code : Nat) (indexes : List (Nat × Nat)) :
    w.fileBytes code indexes =
      w.toldBytes code indexes ++ (w.untoldBytes code indexes ++ Bytes.u16 0) := by
  have hsplit := List.take_append_drop (w.methods.size % 65536) (w.methods.toList.zip indexes)
  have hmethods : methodsBytes code (w.methods.toList.zip indexes) =
      methodsBytes code ((w.methods.toList.zip indexes).take (w.methods.size % 65536)) ++
        w.untoldBytes code indexes := by
    rw [untoldBytes, methodsBytes, methodsBytes, methodsBytes, ← List.flatMap_append, hsplit]
  have hcount : Bytes.u16 w.methods.toList.length = Bytes.u16 (w.methods.size % 65536) := by
    rw [Bytes.u16_mod, Array.length_toList]
  simp only [fileBytes, toldBytes, List.append_assoc, hcount]
  rw [← List.append_assoc (methodsBytes _ _), ← hmethods]
  rfl

theorem untoldBytes_eq_nil (hlength : indexes.length = w.methods.size)
    (hle : w.methods.size ≤ 65535) : w.untoldBytes code indexes = [] := by
  have hall : w.methods.size % 65536 = (w.methods.toList.zip indexes).length := by
    simp only [List.length_zip, Array.length_toList, hlength, Nat.min_self]
    omega
  rw [untoldBytes, hall, List.drop_length]
  rfl

/-- Behind the methods that its count tells, the reader of a class has only attributes left. -/
theorem leads_readClass (hw : w.Sound) {constants : Array Constant}
    (hresolve : resolve (w.pool.entries.map PoolEntry.repaired) = .ok constants)
    (hconstants : ∀ {i : Nat} {c : Constant}, w.pool.Denotes i c →
      constantAt constants i = .ok c.repaired)
    (hcode : w.pool.Denotes code (.utf8 codeAttributeName))
    (hnames : List.Forall₂ (Names w.pool) w.methods.toList indexes) :
    Leads readClass (w.toldBytes code indexes)
      (do ignoreAttributes; return w.readBack constants) := by
  have hlength : indexes.length = w.methods.size := by
    simpa using hnames.length_eq.symm
  have hmethods := reads_methods (w := w) (reads_bodies hw.valid hconstants hcode hw.short hnames)
    hlength
  have hname : classNameAt constants w.thisIndex .thisNotClass = .ok (Utf8.repair w.name) := by
    simp only [classNameAt, hconstants hw.this, Constant.repaired]
  have hsuperName : classNameAt constants w.superIndex .superNotClass =
      .ok (Utf8.repair w.superName) := by
    simp only [classNameAt, hconstants hw.super, Constant.repaired]
  have hne : w.superIndex ≠ 0 := Nat.ne_of_gt hw.super.lt_count.1
  have haccess : w.access.toNat.toUInt16 = w.access := by simp
  refine reads_readMagic.leads ((reads_u16 (by decide)).leads ((reads_u16 (by decide)).leads
    (hw.valid.reads_readPool.leads ?_)))
  refine (Reads.lift hresolve).leads_of_nil ((reads_u16 w.access.toNat_lt).leads
    ((reads_u16 (hw.valid.index_lt hw.this)).leads
      ((reads_u16 (hw.valid.index_lt hw.super)).leads (reads_check.leads_of_nil ?_))))
  refine (Reads.lift hname).leads_of_nil ?_
  simp only [hne, if_false]
  -- There are no interfaces and no fields.
  refine (Reads.lift hsuperName).leads_of_nil ((reads_u16 (by omega)).leads
    ((reads_take []).leads_of_nil ((reads_u16 (by omega)).leads ((Reads.pure ()).leads_of_nil
      ((reads_u16 (Nat.mod_lt _ (by decide))).leads ?_)))))
  simp only [haccess]
  exact hmethods.leads_end

end File

/-- A class that is written reads back, with all its methods if the count can tell them. -/
theorem Sound.parse_bytes {w w' : ClassWriter} {data : Bytes} (hw : w.Sound)
    (h : bytes w = .ok data w') :
    w.pool.Within w'.pool ∧ ∃ constants,
      (∀ {i : Nat} {c : Constant}, w'.pool.Denotes i c → constantAt constants i = .ok c.repaired) ∧
      constants.size = w'.pool.entries.size ∧
      (∀ c, parse data = .ok c → c = w.readBack constants) ∧
      (w.methods.size ≤ 65535 → parse data = .ok (w.readBack constants)) := by
  obtain ⟨-, -, code, pool₁, indexes, pool₂, hutf8, hindexes, rfl, rfl⟩ := bytes_eq_ok h
  obtain ⟨hv₁, hw₁, hcode⟩ := (ConstantPool.utf8_keeps _).of_ok hw.valid trivial hutf8
  obtain ⟨hv₂, hw₂, hnames⟩ := (methodIndexes_keeps _).of_ok hv₁ trivial hindexes
  have hwithin := hw₁.trans hw₂
  have hsound : Sound { w with pool := pool₂, isFinished := true } :=
    ⟨hv₂, hw.this.mono hwithin, hw.super.mono hwithin, hw.short, hw.distinct⟩
  obtain ⟨constants, hresolve, hsize, hconstants⟩ := hv₂.resolve_repaired
  have hleads := leads_readClass hsound hresolve hconstants (hcode.mono hw₂) hnames
  refine ⟨hwithin, constants, hconstants, hsize, fun c hc => ?_, fun hle => ?_⟩
  · rw [parse, fileBytes_eq, hleads] at hc
    -- Where methods are left behind the count, their bytes are taken for attributes.
    generalize hrest : untoldBytes _ code indexes ++ Bytes.u16 0 = rest at hc
    generalize hposition : 0 + (toldBytes _ code indexes).length = position at hc
    cases hi : ignoreAttributes { rest, position } with
    | error e =>
      simp only [bind, StateT.bind, hi, Except.bind] at hc
      cases hc
    | ok r =>
      simp only [bind, StateT.bind, hi, Except.bind, pure, StateT.pure, Except.pure] at hc
      split at hc
      · cases hc
      · split at hc
        · cases hc
          rfl
        · cases hc
  · have hend : Reads (do ignoreAttributes; return w.readBack constants) (Bytes.u16 0)
        (w.readBack constants) := reads_ignoreAttributes.bind_nil (Reads.pure _)
    have hlength : indexes.length = w.methods.size := by simpa using hnames.length_eq.symm
    have hrest : untoldBytes { w with pool := pool₂, isFinished := true } code indexes = [] :=
      untoldBytes_eq_nil hlength hle
    have hend := hend [] (0 + (toldBytes { w with pool := pool₂, isFinished := true } code
      indexes).length)
    rw [List.append_nil] at hend
    rw [parse, fileBytes_eq, hleads, hrest, List.nil_append]
    simp only [readBack] at hend ⊢
    rw [hend]
    rfl

end ClassWriter

end ClassForge
