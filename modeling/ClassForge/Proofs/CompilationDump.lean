import ClassForge.Proofs.CompilerCorrectness
import ClassForge.Proofs.DumpRoundTrip
import ClassForge.Proofs.ListingText
import ClassForge.Proofs.SlotDiscipline

/-! The dump of a compilation reads back. What is dumped are the name of the program, the variables
of the symbol table and the listing, and the limits of the class file keep them within those that
each codec of dumps has to read. -/

namespace ClassForge

open ConstantPool (Fitting)

theorem ShortText.isText {n : Nat} {s : Bytes} (h : ShortText n s)
    (hn : n < 18446744073709551616) : Dump.IsText s :=
  ⟨h.valid, lt_of_le_of_lt h.length hn⟩

namespace ConstantPool

variable {pool : ConstantPool} {i : Nat} {text : Bytes}

theorem Valid.fitting_of_textAt (hv : pool.Valid) (h : textAt pool.entries i = .ok text) :
    Fitting text :=
  hv.short (textAt_eq_ok.mp h)

theorem Valid.fitting_of_stringRef (hv : pool.Valid) (h : pool.Denotes i (.stringRef text)) :
    Fitting text := by
  obtain ⟨entry, -, hd⟩ := h
  cases entry with
  | utf8 text => cases hd
  | integer value => cases hd
  | stringRef j =>
    obtain ⟨x, hx, hd⟩ := except_bind_eq_ok.mp hd
    cases hd
    exact hv.fitting_of_textAt hx
  | _ =>
    obtain ⟨x, -, hd⟩ := except_bind_eq_ok.mp hd
    first
      | cases hd
      | obtain ⟨y, -, hd⟩ := except_bind_eq_ok.mp hd
        cases hd

end ConstantPool

namespace Emitter

theorem fitting_of_newClass {program : Bytes} {w : ClassWriter} (h : newClass program = .ok w) :
    Fitting program := by
  simp only [newClass] at h
  cases hnew : ClassWriter.new program ClassFile.objectClass with
  | error e =>
    simp only [hnew] at h
    cases h
  | ok w₀ =>
    have hsound := (ClassWriter.new_sound hnew).1
    obtain ⟨j, -, htext⟩ := hsound.this.classRef
    rw [(ClassWriter.new_fields hnew).1] at htext
    exact hsound.valid.fitting_of_textAt htext

theorem finish_context {ε : Type} {writer w : ClassWriter} {context context' : Context}
    {result : Except (CompileError ε) Bytes} (h : finish writer context = (result, w, context')) :
    context'.program = context.program ∧ context'.table = context.table := by
  simp only [finish] at h
  split at h
  · cases h
    exact ⟨rfl, rfl⟩
  split at h
  · cases h
    exact ⟨rfl, rfl⟩
  split at h
  · cases h
    exact ⟨rfl, rfl⟩
  · cases h
    exact ⟨rfl, rfl⟩

end Emitter

/-- A compilation ends before its class is handed to the artifact writer, or with the answer of the
writer. -/
theorem Program.compile_outcomes {ε σ : Type} (store : ArtifactSink ε (StateM σ)) (p : Program)
    (s : σ) :
    (∃ e, p.compile store s = (.error e, s)) ∨
    ∃ writer context data listing, p.emit (ε := ε) .idle = .ok () (.body writer context) ∧
      ((∃ cause s', store p.name data s = (.error cause, s') ∧
          p.compile store s = (.error (.write p.name cause), s')) ∨
        ∃ path s', store p.name data s = (.ok path, s') ∧
          p.compile store s = (.ok ⟨⟨p.name, path, data, listing⟩, context.table⟩, s')) := by
  cases hemit : p.emit (ε := ε) .idle with
  | error e emitter => exact .inl ⟨e, by simp only [compile, hemit]; rfl⟩
  | ok u emitter =>
    obtain ⟨writer, table, context, rfl, hemits⟩ := emit_eq_ok hemit
    rcases hfinish : Emitter.finish (ε := ε) writer context with ⟨result, w, context'⟩
    obtain ⟨hprogram, htable⟩ := Emitter.finish_context hfinish
    rw [hemits.program] at hprogram
    cases result with
    | error e => exact .inl ⟨e, by simp only [compile, hemit, Emitter.close, hfinish]; rfl⟩
    | ok data =>
      refine .inr ⟨writer, context, data, context'.code.listing, rfl, ?_⟩
      rcases hstore : store p.name data s with ⟨answer, s'⟩
      rw [← hprogram] at hstore
      cases answer with
      | error cause =>
        refine .inl ⟨cause, s', rfl, ?_⟩
        rw [← hprogram]
        simp only [compile, hemit, Emitter.close, hfinish, bind, StateT.bind, hstore]
        rfl
      | ok path =>
        refine .inr ⟨path, s', rfl, ?_⟩
        rw [← hprogram, ← htable]
        simp only [compile, hemit, Emitter.close, hfinish, bind, StateT.bind, hstore]
        rfl

theorem VarType.name_of_ofName? {s : Bytes} {type : VarType} (h : ofName? s = some type) :
    type.name = s := by
  simp only [ofName?] at h
  split at h
  · next hs =>
    cases h
    exact (beq_iff_eq.mp hs).symm
  split at h
  · next hs =>
    cases h
    exact (beq_iff_eq.mp hs).symm
  · cases h

namespace Dump

/-- The variables of the declarations as they stand in a dump, in slot order. -/
def Symbol.ofDeclarations (declarations : List Declaration) : List Symbol :=
  declarations.mapIdx fun slot d => ⟨d.name, d.type, slot⟩

theorem Symbol.ofVariable_injective : Function.Injective Symbol.ofVariable := by
  rintro ⟨name, type, slot⟩ ⟨name', type', slot'⟩ h
  obtain ⟨rfl, htype, hslot⟩ := Symbol.mk.inj h
  cases Int.ofNat.inj hslot
  cases type <;> cases type' <;> first | rfl | cases htype

theorem isText_typeName (type : VarType) : IsText type.name := by
  cases type with
  | integer => exact ⟨by decide, by decide⟩
  | text => exact ⟨by decide, by decide⟩

end Dump

namespace Program.Emits

variable {p : Program} {writer : ClassWriter} {table : SymbolTable} {context : Context}

theorem declared_eq (h : p.Emits writer table context) :
    context.table.declared = table.declared := by
  rw [h.scopeTable, Emission.scopeOf]
  split
  · rfl
  · rfl

theorem declared_map (h : p.Emits writer table context) :
    table.declared.toList.map .ofVariable = Dump.Symbol.ofDeclarations p.declarations := by
  refine List.ext_getElem? fun k => ?_
  rw [Dump.Symbol.ofDeclarations, List.getElem?_map, List.getElem?_mapIdx, Array.getElem?_toList]
  cases hd : p.declarations[k]? with
  | none =>
    have hlength := List.getElem?_eq_none_iff.mp hd
    rw [Array.getElem?_eq_none (by rw [h.size_declared]; exact hlength)]
    rfl
  | some d =>
    obtain ⟨type, htype, hv, -⟩ := h.lookup_declaration hd
    simp only [hv, Option.map_some, Dump.Symbol.ofVariable, VarType.name_of_ofName? htype]

variable {pool pool' : ConstantPool} {method : Method}

/-- What the assembler accepts keeps to the limits of a dump. -/
theorem dumpable (h : p.Emits writer table context)
    (hassemble : context.finished.assemble context.table.maxLocals writer.pool = .ok method pool') :
    context.table.nextSlot ≤ 65535 ∧ context.finished.listing.length ≤ 131070 ∧
      ∀ line ∈ context.finished.listing, Dump.IsText line := by
  have hv : writer.pool.Valid := (Emitter.newClass_eq_ok h.created).1.sound.valid
  obtain ⟨-, -, placements, -, length, -, hlayout, -⟩ := Code.assemble_eq_ok hassemble
  obtain ⟨hvalid, -, harranged, hpos, hle⟩ := (Code.layout_keeps _).of_ok hv trivial hlayout
  have hlocals := (Code.maxLocals_le_iff.mp (h.maxLocals_le hpos harranged)).1
  have hslots : context.table.nextSlot ≤ 65535 := by
    simp only [SymbolTable.maxLocals] at hlocals
    omega
  have hlines := h.length_listing_le harranged
  have hlabels := h.labels_le harranged
  have hlabel {label : Label} (howns : context.code.owns label = true) :
      label.number ≤ 65535 := by
    have hlt := ((Code.owns_iff _ _).mp howns).2
    omega
  refine ⟨hslots, by omega, fun line hline => ?_⟩
  obtain ⟨i, hi, rfl⟩ := List.mem_map.mp hline
  obtain ⟨k, hk⟩ := List.getElem?_of_mem hi
  rw [Array.getElem?_toList] at hk
  rcases mem_finished (Array.mem_of_getElem? hk) with hmem | rfl
  · have hshort : i.HasShortLine := by
      obtain ⟨j, hj⟩ := Array.getElem?_of_mem hmem
      obtain ⟨q, -, -, -, -, hrefers, -⟩ := harranged.placement hk
      cases i with
      | pushText text => exact hvalid.fitting_of_stringRef hrefers
      | jump op label => exact hlabel (h.labelled.jumps hj)
      | mark label => exact hlabel (h.labelled.marks hj).1
      | _ => trivial
    exact ((h.operations i hmem).shortText_render hslots hshort).isText (by omega)
  · exact (ShortText.ofAscii (n := 7) (by decide) (by decide)).isText (by omega)

theorem isReadable (h : p.Emits writer table context)
    (hassemble : context.finished.assemble context.table.maxLocals writer.pool = .ok method pool')
    (hname : Utf8.isValid p.name = true) (hnames : ∀ d ∈ p.declarations, Dump.IsText d.name) :
    Dump.IsReadable
      ⟨p.name, table.declared.toList.map .ofVariable, some context.finished.listing⟩ := by
  obtain ⟨hslots, hlines, hlisting⟩ := h.dumpable hassemble
  have hsize : table.declared.size ≤ 65535 := by
    rw [h.nextSlot_eq] at hslots
    omega
  have hprogram : Dump.IsText p.name :=
    (ModifiedUtf8.shortText_of_isValid hname (Emitter.fitting_of_newClass h.created)).isText
      (by omega)
  refine ⟨hprogram, fun symbol hsymbol => ?_, hlisting, ?_, ?_⟩
  · obtain ⟨v, hv, rfl⟩ := List.mem_map.mp hsymbol
    obtain ⟨k, hk⟩ := List.getElem?_of_mem hv
    rw [Array.getElem?_toList] at hk
    have hlt := (Array.getElem?_eq_some_iff.mp hk).1
    obtain ⟨d, hd⟩ : ∃ d, p.declarations[k]? = some d :=
      ⟨_, List.getElem?_eq_getElem (by rw [← h.size_declared]; exact hlt)⟩
    obtain ⟨type, -, hv', -⟩ := h.lookup_declaration hd
    cases hk.symm.trans hv'
    refine ⟨hnames d (List.mem_of_getElem? hd), Dump.isText_typeName type, ?_⟩
    simp only [Dump.Symbol.ofVariable]
    omega
  · simp only [List.length_map, Array.length_toList, Cbor.maxItems]
    omega
  · simp only [Option.getD_some, Cbor.maxItems]
    omega

end Program.Emits

theorem Program.dump_read {ε σ : Type} {store : ArtifactSink ε (StateM σ)} {p : Program} {s : σ}
    {c : Compilation} {codec : Dump.Codec} (hcodec : codec.Conforms)
    (h : (p.compile store s).1 = .ok c) (hname : Utf8.isValid p.name = true)
    (hnames : ∀ d ∈ p.declarations, Dump.IsText d.name) :
    (∃ data, c.dump codec = .ok data ∧ Dump.read codec data =
      .ok ⟨p.name, c.table.declared.toList.map .ofVariable, some c.artifact.listing⟩) ∧
    c.table.declared.toList.map .ofVariable = Dump.Symbol.ofDeclarations p.declarations := by
  obtain ⟨writer, table, context, method, pool, w, hemit, hemits, hassemble, -, hlisting⟩ :=
    compile_stages h
  have hview : c.artifact.program = p.name ∧ c.table = context.table := by
    rcases p.compile_outcomes store s with ⟨e, hfail⟩ | ⟨writer', context', data, listing, hemit', hend⟩
    · rw [hfail] at h
      cases h
    cases hemit.symm.trans hemit'
    rcases hend with ⟨cause, s', -, hfail⟩ | ⟨path, s', -, hok⟩
    · rw [hfail] at h
      cases h
    · rw [hok] at h
      cases h
      exact ⟨rfl, rfl⟩
  rw [Compilation.dump, Dump.write, hview.1, hview.2, hemits.declared_eq, hlisting]
  exact ⟨hcodec.read_of_marshal (hemits.isReadable hassemble hname hnames), hemits.declared_map⟩

/-- The dump of every compilation reads back with every codec that conforms, whatever bytes the
literals of the program hold: the name of the program, the variables in slot order and the listing
are those that were dumped. So compilations with equal dumps agree in all three. -/
theorem compilation_dump_reads_back {codec : Dump.Codec} (hcodec : codec.Conforms) {ε σ : Type}
    {store : ArtifactSink ε (StateM σ)} {p : Program} {s : σ} {c : Compilation}
    (h : (p.compile store s).1 = .ok c) (hname : Utf8.isValid p.name = true)
    (hnames : ∀ d ∈ p.declarations, Dump.IsText d.name) :
    (∃ data, c.dump codec = .ok data ∧ Dump.read codec data =
      .ok ⟨p.name, c.table.declared.toList.map .ofVariable, some c.artifact.listing⟩) ∧
    c.table.declared.toList.map .ofVariable = Dump.Symbol.ofDeclarations p.declarations ∧
    ∀ {ε' σ' : Type} {store' : ArtifactSink ε' (StateM σ')} {p' : Program} {s' : σ'}
      {c' : Compilation}, (p'.compile store' s').1 = .ok c' → Utf8.isValid p'.name = true →
      (∀ d ∈ p'.declarations, Dump.IsText d.name) →
      c.dump codec = c'.dump codec → p.name = p'.name ∧ c.table.declared = c'.table.declared ∧
        c.artifact.listing = c'.artifact.listing := by
  obtain ⟨⟨data, hdump, hread⟩, hsymbols⟩ := Program.dump_read hcodec h hname hnames
  refine ⟨⟨data, hdump, hread⟩, hsymbols, fun h' hname' hnames' heq => ?_⟩
  obtain ⟨⟨data', hdump', hread'⟩, -⟩ := Program.dump_read hcodec h' hname' hnames'
  cases hdump.symm.trans (heq.trans hdump')
  obtain ⟨hprogram, hvariables, hlisting⟩ := Dump.mk.inj (Except.ok.inj (hread.symm.trans hread'))
  have hdeclared := List.map_injective_iff.mpr Dump.Symbol.ofVariable_injective hvariables
  exact ⟨hprogram, Array.toList_inj.mp hdeclared, Option.some.inj hlisting⟩

/-- Prints a literal that is no text. -/
def strayLiteral : Program where
  name := "S"
  declarations := [⟨"STRING", "é"⟩]
  body := [.set "é" (.text [0x22, 0xff, 0x22]), .print (some (.var "é"))]

set_option maxRecDepth 8000 in
theorem compilation_dump_reads_back_strayLiteral :
    Dump.cbor.Conforms ∧ ∃ c : Compilation,
      (strayLiteral.compile (fun name _ => pure (.ok name) : ArtifactSink Empty (StateM Unit)) ()).1 =
        .ok c ∧
      (∃ data, c.dump Dump.cbor = .ok data ∧ Dump.read Dump.cbor data =
        .ok ⟨"S", [⟨"é", "STRING", 0⟩], some c.artifact.listing⟩) ∧
      ("\tldc \"\\xff\"" : Bytes) ∈ c.artifact.listing := by
  have hok : resultIs (fun c => c.artifact.listing.elem ("\tldc \"\\xff\"" : Bytes))
      (strayLiteral.compile (fun name _ => pure (.ok name) : ArtifactSink Empty (StateM Unit))
        ()).1 = true := by cbv
  have hnames : ∀ d ∈ strayLiteral.declarations, Dump.IsText d.name := by
    simp only [strayLiteral, List.mem_singleton, forall_eq]
    exact ⟨by decide, by decide⟩
  obtain ⟨c, hc, hline⟩ := of_resultIs hok
  obtain ⟨⟨data, hdump, hread⟩, hsymbols, -⟩ :=
    compilation_dump_reads_back Dump.cbor_conforms hc (by decide) hnames
  rw [hsymbols] at hread
  exact ⟨Dump.cbor_conforms, c, hc, ⟨data, hdump, hread⟩, List.elem_iff.mp hline⟩

end ClassForge
