import ClassForge.Proofs.EmittedProgram
import ClassForge.Proofs.TextRoundTrip
import ClassForge.Proofs.TypeChecking

/-! Where the emission of a checked body can fail. The check looks at names and types, and leaves
the spellings of literals and operators to the emission; these are then all that can be wrong. -/

namespace ClassForge

/-- What stands in a body as it is written, and is looked at only when its code is emitted. -/
inductive Spelling where
  | integer (literal : Bytes)
  | arithmetic (op : Bytes)
  | comparison (op : Bytes)
deriving DecidableEq, Repr

namespace Spelling

def IsKnown : Spelling → Prop
  | integer literal => Decimal.IsInt32 literal
  | arithmetic op => op ∈ (["+", "-", "*", "/"] : List Bytes)
  | comparison op => op ∈ (["GT", "LT", "EQ", "NEQ"] : List Bytes)

instance : DecidablePred IsKnown
  | integer literal => decidable_of_iff _ (Decimal.isSome_parseInt32?_iff literal)
  | arithmetic op => inferInstanceAs (Decidable (op ∈ (["+", "-", "*", "/"] : List Bytes)))
  | comparison op => inferInstanceAs (Decidable (op ∈ (["GT", "LT", "EQ", "NEQ"] : List Bytes)))

def error : Spelling → ProgramError
  | integer literal => .malformedLiteral literal
  | arithmetic op => .unknownArithmetic op
  | comparison op => .unknownComparison op

def firstUnknown? (items : List Spelling) : Option Spelling :=
  items.find? fun item => decide ¬ item.IsKnown

theorem firstUnknown?_append (xs ys : List Spelling) :
    firstUnknown? (xs ++ ys) = (firstUnknown? xs).or (firstUnknown? ys) :=
  List.find?_append

theorem firstUnknown?_cons_of_known {item : Spelling} (h : item.IsKnown) (items : List Spelling) :
    firstUnknown? (item :: items) = firstUnknown? items :=
  List.find?_cons_of_neg (by simpa using h)

theorem firstUnknown?_cons_of_unknown {item : Spelling} (h : ¬ item.IsKnown)
    (items : List Spelling) : firstUnknown? (item :: items) = some item :=
  List.find?_cons_of_pos (by simpa using h)

end Spelling

/-- The spellings of an expression, in the order in which they are looked at. -/
def Expr.spellings : Expr → List Spelling
  | .int literal => [.integer literal]
  | .text _ | .var _ => []
  | .arithmetic op left right => .arithmetic op :: (left.spellings ++ right.spellings)
  | .comparison op left right => .comparison op :: (left.spellings ++ right.spellings)

def operandSpellings (operand : Bytes) : List Spelling :=
  if Bytes.isIdentifier operand then [] else [.integer operand]

mutual

def Stmt.spellings : Stmt → List Spelling
  | .set _ value => value.spellings
  | .print operand => (operand.map Expr.spellings).getD []
  | .read _ => []
  | .conditional left op right thenBody elseBody =>
    .comparison op :: (operandSpellings left ++ (operandSpellings right ++
      (bodySpellings elseBody ++ bodySpellings thenBody)))

def bodySpellings : List Stmt → List Spelling
  | [] => []
  | s :: rest => s.spellings ++ bodySpellings rest

end

namespace Emission

/-- The step emits a complete piece of code if all of the spellings are known, and it is refused
for the first one that is not. -/
structure Decides (x : Emitting Unit) (items : List Spelling) : Prop where
  completes : Spelling.firstUnknown? items = none → ∀ code : Code, code.isSealed = false →
    ∃ code', x code = .ok () code' ∧ code.Fragment code'
  refuses : ∀ {item : Spelling}, Spelling.firstUnknown? items = some item → ∀ code : Code,
    code.isSealed = false → ∃ code', x code = .error (.program item.error) code'

variable {x y : Emitting Unit} {xs ys : List Spelling} {i : Instruction}

section Steps

variable {code first second : Code} {relation : Relation} {label : Label}

theorem append_eq (hcode : code.isSealed = false) (i : Instruction) :
    append i code = .ok () (code.push i) := by
  simp [append, onCode, adaptExcept_eq_ok, Code.append, hcode, Code.push]

theorem place_eq (hcode : code.isSealed = false) (howns : code.owns label = true)
    (hfree : code.place? label = none) :
    onCode (Code.place label) code = .ok () (code.mark label) := by
  simp [onCode, adaptExcept_eq_ok, Code.place, howns, hfree, Code.append, hcode, Code.mark,
    Code.push]

-- The labels of a fork are its own and new when they are placed, so nothing goes wrong there.

theorem openFork_eq (hcode : code.isSealed = false) (relation : Relation)
    (f : Unit → Emitting Unit) :
    (append (.jump (.when relation) code.nextLabel) >>= f) code.addLabel.addLabel =
      f () (code.openFork relation) := by
  have hsealed : code.addLabel.addLabel.isSealed = false := hcode
  exact bind_eq_of_ok (append_eq hsealed _) f

theorem turnFork_eq (hcode : code.isSealed = false)
    (hfirst : (code.openFork relation).Fragment first) (f : Unit → Emitting Unit) :
    (append (.jump .always code.addLabel.nextLabel) >>= fun _ =>
      onCode (Code.place code.nextLabel) >>= f) first = f () (code.turnFork first) := by
  have hsealed : first.isSealed = false := hfirst.isSealed.trans hcode
  have hpushed : (first.push (.jump .always code.addLabel.nextLabel)).isSealed = false := hsealed
  have hserial : first.serial = code.serial := hfirst.serial
  have hlabels := Code.labels_of_openFork hfirst
  rw [bind_eq_of_ok (append_eq hsealed _)]
  refine bind_eq_of_ok (place_eq hpushed ?_ (Code.turnFork_free hfirst _)) f
  simp only [Code.owns_iff, Code.nextLabel_owner, Code.nextLabel_number, Code.serial_push,
    Code.places_push, hserial, true_and]
  omega

theorem closeFork_eq (hcode : code.isSealed = false)
    (hfirst : (code.openFork relation).Fragment first)
    (hsecond : (code.turnFork first).Fragment second) :
    onCode (Code.place code.addLabel.nextLabel) second = .ok () (code.closeFork second) := by
  have hsealed : second.isSealed = false := (hsecond.isSealed.trans hfirst.isSealed).trans hcode
  have hserial : second.serial = code.serial := hsecond.serial.trans hfirst.serial
  have hlabels := Code.labels_of_openFork hfirst
  have hlabels' := Code.labels_of_turnFork hsecond
  refine place_eq hsealed ?_ (Code.closeFork_free hfirst hsecond)
  simp only [Code.owns_iff, Code.nextLabel_owner, Code.nextLabel_number, Code.serial_addLabel,
    Code.size_places_addLabel, hserial, true_and]
  omega

end Steps

namespace Decides

theorem bind (hx : Decides x xs) (hy : Decides y ys) : Decides (do x; y) (xs ++ ys) where
  completes h code hcode := by
    rw [Spelling.firstUnknown?_append, Option.or_eq_none_iff] at h
    obtain ⟨code₁, hok₁, hfrag₁⟩ := hx.completes h.1 code hcode
    obtain ⟨code₂, hok₂, hfrag₂⟩ := hy.completes h.2 code₁ (hfrag₁.isSealed.trans hcode)
    exact ⟨code₂, (bind_eq_of_ok hok₁ _).trans hok₂, hfrag₁.trans hfrag₂⟩
  refuses {item} h code hcode := by
    rw [Spelling.firstUnknown?_append, Option.or_eq_some_iff] at h
    rcases h with h | ⟨hnone, h⟩
    · obtain ⟨code₁, herr⟩ := hx.refuses h code hcode
      exact ⟨code₁, bind_eq_of_error herr _⟩
    · obtain ⟨code₁, hok, hfrag⟩ := hx.completes hnone code hcode
      obtain ⟨code₂, herr⟩ := hy.refuses h code₁ (hfrag.isSealed.trans hcode)
      exact ⟨code₂, (bind_eq_of_ok hok _).trans herr⟩

theorem pure : Decides (pure ()) [] where
  completes _ code _ := ⟨code, rfl, .refl code⟩
  refuses h := nomatch h

/-- A step that looks at no spelling, behind one that may. -/
theorem append_of_nil (hx : Decides x xs) (hy : Decides y []) : Decides (do x; y) xs := by
  simpa only [List.append_nil] using hx.bind hy

theorem append (hi : i.isPlain = true) : Decides (append i) [] where
  completes _ code hcode := ⟨code.push i, append_eq hcode i, .push hi⟩
  refuses h := nomatch h

theorem cons_of_known {item : Spelling} (h : item.IsKnown) (hx : Decides x xs) :
    Decides x (item :: xs) := by
  constructor
  · rw [Spelling.firstUnknown?_cons_of_known h]
    exact hx.completes
  · rw [Spelling.firstUnknown?_cons_of_known h]
    exact hx.refuses

theorem refuse {item : Spelling} (h : ¬ item.IsKnown) (items : List Spelling) :
    Decides (refuse item.error) (item :: items) := by
  constructor
  · rw [Spelling.firstUnknown?_cons_of_unknown h]
    exact nofun
  · rw [Spelling.firstUnknown?_cons_of_unknown h]
    rintro _ ⟨⟩ code -
    exact ⟨code, rfl⟩

theorem literal (text : Bytes) :
    Decides (do Emission.append (.pushInt (← ofExcept (literalValue text))))
      [.integer text] := by
  have hknown := Decimal.isSome_parseInt32?_iff text
  cases hparse : Decimal.parseInt32? text with
  | none =>
    rw [hparse] at hknown
    have hunknown : ¬ (Spelling.integer text).IsKnown := fun h => nomatch hknown.mpr h
    simp only [literalValue, hparse]
    exact refuse hunknown []
  | some n =>
    rw [hparse] at hknown
    simp only [literalValue, hparse]
    exact cons_of_known (hknown.mp rfl) (append (i := .pushInt n) rfl)

theorem fork (relation : Relation) (hx : Decides x xs) (hy : Decides y ys) :
    Decides (do
      let holds ← onCode Code.newLabel
      let done ← onCode Code.newLabel
      Emission.append (.jump (.when relation) holds)
      x
      Emission.append (.jump .always done)
      onCode (Code.place holds)
      y
      onCode (Code.place done)) (xs ++ ys) := by
  constructor
  · intro h code hcode
    rw [Spelling.firstUnknown?_append, Option.or_eq_none_iff] at h
    obtain ⟨first, hok₁, hfirst⟩ := hx.completes h.1 (code.openFork relation) hcode
    have hturned : (code.turnFork first).isSealed = false := hfirst.isSealed.trans hcode
    obtain ⟨second, hok₂, hsecond⟩ := hy.completes h.2 (code.turnFork first) hturned
    refine ⟨code.closeFork second, ?_, .fork hfirst hsecond⟩
    refine (openFork_eq hcode relation _).trans ((bind_eq_of_ok hok₁ _).trans ?_)
    refine (turnFork_eq hcode hfirst _).trans ((bind_eq_of_ok hok₂ _).trans ?_)
    exact closeFork_eq hcode hfirst hsecond
  · intro item h code hcode
    rw [Spelling.firstUnknown?_append, Option.or_eq_some_iff] at h
    rcases h with h | ⟨hnone, h⟩
    · obtain ⟨first, herr⟩ := hx.refuses h (code.openFork relation) hcode
      exact ⟨first, (openFork_eq hcode relation _).trans (bind_eq_of_error herr _)⟩
    · obtain ⟨first, hok₁, hfirst⟩ := hx.completes hnone (code.openFork relation) hcode
      have hturned : (code.turnFork first).isSealed = false := hfirst.isSealed.trans hcode
      obtain ⟨second, herr⟩ := hy.refuses h (code.turnFork first) hturned
      refine ⟨second, (openFork_eq hcode relation _).trans ((bind_eq_of_ok hok₁ _).trans ?_)⟩
      exact (turnFork_eq hcode hfirst _).trans (bind_eq_of_error herr _)

end Decides

theorem isKnown_arithmetic_iff (op : Bytes) :
    (Spelling.arithmetic op).IsKnown ↔ (arithmeticOp? op).isSome = true := by
  simp only [arithmeticOp?, Spelling.IsKnown, beq_iff_eq]
  split_ifs <;> simp_all

theorem isKnown_comparison_iff (op : Bytes) :
    (Spelling.comparison op).IsKnown ↔ (relation? op).isSome = true := by
  simp only [relation?, Spelling.IsKnown, beq_iff_eq]
  split_ifs <;> simp_all

variable {table : SymbolTable} {scope : Scope}

/-- An operator is looked at before any code is emitted for its operands. -/
theorem Decides.operator {α : Type} {op? : Option α} {item : Spelling}
    (hknown : item.IsKnown ↔ op?.isSome = true) (hnone : op? = none → x = Emission.refuse item.error)
    (hsome : ∀ op, op? = some op → Decides x xs) : Decides x (item :: xs) := by
  cases hop : op? with
  | none =>
    rw [hnone hop]
    exact .refuse (fun h => by simpa [hop] using hknown.mp h) xs
  | some op => exact .cons_of_known (hknown.mpr (by simp [hop])) (hsome op hop)

theorem expression_decides {e : Expr} {type : VarType} (h : e.typeIn table = .ok type) :
    Decides (expression table e) e.spellings := by
  induction e generalizing type with
  | int text => exact .literal text
  | text literal => exact .append rfl
  | var name =>
    obtain ⟨v, hv, -⟩ := except_bind_eq_ok.mp h
    simp only [expression, hv, load_eq]
    exact .append (isPlain_loadOf v)
  | arithmetic op left right ihl ihr =>
    obtain ⟨hleft, hright, -⟩ := typeIn_operation h
    refine .operator (isKnown_arithmetic_iff op) (fun hop => ?_) fun op' hop => ?_
    · simp only [expression, hop, Spelling.error]
    · simp only [expression, hop]
      exact (ihl hleft).bind ((ihr hright).append_of_nil (.append rfl))
  | comparison op left right ihl ihr =>
    obtain ⟨hleft, hright, -⟩ := typeIn_operation h
    refine .operator (isKnown_comparison_iff op) (fun hop => ?_) fun relation hop => ?_
    · simp only [expression, hop, Spelling.error]
    · simp only [expression, hop]
      refine (ihl hleft).bind ((ihr hright).append_of_nil ?_)
      exact .fork relation (.append rfl) (.append rfl)

/-- The check asks first whether an operand is a name, and the emission whether it is declared. -/
theorem operand_decides {text : Bytes}
    (hlookup : ∀ name, scope.table.lookup name = table.lookup name)
    (hnames : ∀ {name v}, table.lookup name = .ok v → Bytes.isIdentifier name = true)
    (h : checkOperand table text = .ok ()) :
    Decides (operand scope.table text) (operandSpellings text) := by
  by_cases hname : Bytes.isIdentifier text = true
  · obtain ⟨v, hv, htype⟩ := checkOperand_eq_ok h hname
    simp only [operand, operandSpellings, hlookup, hv, htype, hname, if_true]
    exact .append (i := .access .iload v.slot) rfl
  · cases hv : table.lookup text with
    | ok v => exact absurd (hnames hv) hname
    | error e =>
      simp only [operand, operandSpellings, hlookup, hv, hname]
      exact .literal text

theorem prints_decides (hi : i.isPlain = true) (type : VarType) :
    Decides (do
      getSystemOut
      append i
      callPrintln type) [] :=
  (Decides.append rfl).bind ((Decides.append hi).bind (.append rfl))

theorem print_decides {operand : Option Expr}
    (hlookup : ∀ name, scope.table.lookup name = table.lookup name)
    (h : (Stmt.print operand).check table = .ok ()) :
    Decides (print scope.table operand) (Stmt.print operand).spellings := by
  rcases check_print_eq_ok h with ⟨name, v, rfl, hv⟩ | ⟨literal, rfl⟩
  · simp only [print, hlookup, hv, load_eq]
    exact prints_decides (isPlain_loadOf v) v.type
  · exact prints_decides (i := .pushText (Bytes.unquote literal)) rfl .text

theorem read_decides {name : Bytes} {v : Variable} {reader : Nat}
    (hv : scope.table.lookup name = .ok v) (hreader : scope.reader = some reader) :
    Decides (read scope name) [] := by
  rw [read_eq hv hreader]
  refine (Decides.append rfl).bind ((Decides.append rfl).bind ((Decides.append rfl).bind ?_))
  exact (Decides.append rfl).bind ((Decides.append rfl).bind (.append (isPlain_storeOf v)))

mutual

theorem statement_decides (hlookup : ∀ name, scope.table.lookup name = table.lookup name)
    (hnames : ∀ {name v}, table.lookup name = .ok v → Bytes.isIdentifier name = true) :
    {s : Stmt} → s.check table = .ok () → (s.reads = true → scope.reader.isSome = true) →
      Decides (statement scope s) s.spellings
  | .set name value, h, _ => by
    obtain ⟨v, hv, htype⟩ := check_set_eq_ok h
    rw [← typeIn_congr hlookup] at htype
    simp only [statement, hlookup, hv, store_eq, Stmt.spellings]
    exact (expression_decides htype).append_of_nil (.append (isPlain_storeOf v))
  | .print operand, h, _ => by
    simp only [statement]
    exact print_decides hlookup h
  | .read name, h, hreads => by
    obtain ⟨v, hv⟩ := check_read_eq_ok h
    obtain ⟨reader, hreader⟩ := Option.isSome_iff_exists.mp (hreads (by simp only [Stmt.reads]))
    simp only [statement, Stmt.spellings]
    exact read_decides ((hlookup name).trans hv) hreader
  | .conditional left op right thenBody elseBody, h, hreads => by
    obtain ⟨hleft, hright, hthen, helse⟩ := check_conditional_eq_ok h
    simp only [Stmt.reads, Bool.or_eq_true] at hreads
    simp only [Stmt.spellings]
    refine .operator (isKnown_comparison_iff op) (fun hop => ?_) fun relation hop => ?_
    · simp only [statement, hop, Spelling.error]
    · simp only [statement, hop]
      refine (operand_decides hlookup hnames hleft).bind ?_
      refine (operand_decides hlookup hnames hright).bind (.fork relation ?_ ?_)
      · exact statements_decides hlookup hnames helse fun hr => hreads (.inr hr)
      · exact statements_decides hlookup hnames hthen fun hr => hreads (.inl hr)

theorem statements_decides (hlookup : ∀ name, scope.table.lookup name = table.lookup name)
    (hnames : ∀ {name v}, table.lookup name = .ok v → Bytes.isIdentifier name = true) :
    {body : List Stmt} → checkAll table body = .ok () →
      (anyReads body = true → scope.reader.isSome = true) →
      Decides (statements scope body) (bodySpellings body)
  | [], _, _ => by
    simp only [statements, bodySpellings]
    exact .pure
  | s :: rest, h, hreads => by
    obtain ⟨hs, hrest⟩ := checkAll_cons_eq_ok h
    simp only [anyReads, Bool.or_eq_true] at hreads
    simp only [statements, bodySpellings]
    refine (statement_decides hlookup hnames hs fun hr => hreads (.inl hr)).bind ?_
    exact statements_decides hlookup hnames hrest fun hr => hreads (.inr hr)

end

theorem initialiseAll_decides (vs : List Variable) : Decides (initialiseAll vs) [] := by
  induction vs with
  | nil => exact .pure
  | cons v rest ih =>
    have hplain : (firstOf v.type).isPlain = true := by cases v.type <;> rfl
    simp only [initialiseAll, initialise_eq]
    exact ((Decides.append hplain).bind (.append (isPlain_storeOf v))).bind ih

theorem constructReader_decides (slot : Nat) : Decides (constructReader slot) [] :=
  (Decides.append rfl).bind ((Decides.append rfl).bind ((Decides.append rfl).bind
    ((Decides.append rfl).bind (.append rfl))))

end Emission

namespace SymbolTable

variable {table table' : SymbolTable} {name : Bytes} {v : Variable}

theorem declared_of_lookup {ds : List Declaration} (h : table.declareAll ds = .ok () table')
    (hv : table'.lookup name = .ok v) :
    table.lookup name = .ok v ∨ ∃ d ∈ ds, d.name = name := by
  induction ds generalizing table with
  | nil =>
    cases h
    exact .inl hv
  | cons d rest ih =>
    simp only [declareAll] at h
    split at h
    · next w middle hdeclare =>
      rcases ih h with hmiddle | ⟨d', hd', hname⟩
      · obtain ⟨-, -, -, -, rfl⟩ := declare_eq_ok hdeclare
        rw [lookup_eq_ok, Std.HashMap.getElem?_insert] at hmiddle
        split at hmiddle
        · next heq => exact .inr ⟨d, by simp, by simpa using heq⟩
        · exact .inl (lookup_eq_ok.mpr hmiddle)
      · exact .inr ⟨d', by simp [hd'], hname⟩
    · cases h

end SymbolTable

namespace Context

theorem onCode_of_ok {α : Type} {x : Emission.Emitting α} {a : α} {code : Code} (ctx : Context)
    (h : x ctx.code = .ok a code) : onCode x ctx = .ok a { ctx with code } := by
  simp only [onCode, h]

theorem onCode_of_error {α : Type} {x : Emission.Emitting α} {e : EmissionError} {code : Code}
    (ctx : Context) (h : x ctx.code = .error e code) : onCode x ctx = .error e { ctx with code } := by
  simp only [onCode, h]

/-- The variables are initialised without fail, and there is a reader if the body reads. -/
theorem initialise_succeeds {ctx : Context} (hopen : ctx.code.isSealed = false)
    (body : List Stmt) : ∃ ctx', initialise body ctx = .ok () ctx' ∧
      ctx'.code.isSealed = false ∧ (∀ name, ctx'.table.lookup name = ctx.table.lookup name) ∧
      (anyReads body = true → ctx'.reader.isSome = true) := by
  obtain ⟨code₁, hvars, hfrag₁⟩ :=
    (Emission.initialiseAll_decides ctx.table.declared.toList).completes rfl ctx.code hopen
  have hopen₁ : code₁.isSealed = false := hfrag₁.isSealed.trans hopen
  have hfirst : initialise body ctx =
      (if anyReads body then newReader >>= fun slot => onCode (Emission.constructReader slot)
        else pure () : Step Unit) { ctx with code := code₁ } :=
    bind_eq_of_ok (onCode_of_ok ctx hvars) _
  by_cases hreads : anyReads body = true
  · obtain ⟨code₂, hnew, hfrag₂⟩ :=
      (Emission.constructReader_decides ctx.table.nextSlot).completes rfl code₁ hopen₁
    refine ⟨⟨ctx.program, ctx.table.reserve.2, some ctx.table.nextSlot, code₂⟩, ?_,
      hfrag₂.isSealed.trans hopen₁, fun _ => rfl, fun _ => rfl⟩
    rw [hfirst, if_pos hreads]
    exact onCode_of_ok ⟨ctx.program, _, _, code₁⟩ hnew
  · refine ⟨{ ctx with code := code₁ }, ?_, hopen₁, fun _ => rfl, fun h => absurd h hreads⟩
    rw [hfirst, if_neg hreads]
    rfl

end Context

/-- The emission of a checked body fails only where a literal or an operator is spelled wrong, and
it fails for the first of these. -/
theorem emission_fails_at_first_unknown {p : Program} {table : SymbolTable} {ctx : Context}
    (hnames : ∀ d ∈ p.declarations, Bytes.isIdentifier d.name = true)
    (hdeclared : SymbolTable.declareAll {} p.declarations = .ok () table)
    (hchecked : checkAll table p.body = .ok ())
    (htable : ctx.table = table) (hopen : ctx.code.isSealed = false) :
    let emission : Context.Step Unit := do
      Context.initialise p.body
      Context.emitAll p.body
    ((∃ e ctx', emission ctx = .error e ctx') ↔ ∃ item ∈ bodySpellings p.body, ¬ item.IsKnown) ∧
      ∀ e ctx', emission ctx = .error e ctx' →
        ∃ item, Spelling.firstUnknown? (bodySpellings p.body) = some item ∧
          e = .program item.error := by
  intro emission
  have hfound {name : Bytes} {v : Variable} (hv : table.lookup name = .ok v) :
      Bytes.isIdentifier name = true := by
    rcases SymbolTable.declared_of_lookup hdeclared hv with hv | ⟨d, hd, rfl⟩
    · simp [SymbolTable.lookup_eq_ok] at hv
    · exact hnames d hd
  obtain ⟨ctx₁, hinit, hopen₁, hlookup, hreader⟩ := Context.initialise_succeeds hopen p.body
  rw [htable] at hlookup
  have hdecides : Emission.Decides (Emission.statements ⟨ctx₁.table, ctx₁.reader⟩ p.body)
      (bodySpellings p.body) :=
    Emission.statements_decides hlookup hfound hchecked hreader
  have hemission : emission ctx =
      Context.onCode (Emission.statements ⟨ctx₁.table, ctx₁.reader⟩ p.body) ctx₁ :=
    bind_eq_of_ok hinit _
  cases hfirst : Spelling.firstUnknown? (bodySpellings p.body) with
  | none =>
    obtain ⟨code, hok, -⟩ := hdecides.completes hfirst ctx₁.code hopen₁
    have hall : ∀ item ∈ bodySpellings p.body, item.IsKnown := by
      simpa [Spelling.firstUnknown?] using hfirst
    rw [hemission, Context.onCode_of_ok ctx₁ hok]
    refine ⟨⟨?_, ?_⟩, ?_⟩
    · rintro ⟨e, ctx', ⟨⟩⟩
    · rintro ⟨item, hmem, hunknown⟩
      exact absurd (hall item hmem) hunknown
    · rintro e ctx' ⟨⟩
  | some item =>
    obtain ⟨code, herr⟩ := hdecides.refuses hfirst ctx₁.code hopen₁
    have hunknown : ¬ item.IsKnown := by simpa using List.find?_some hfirst
    rw [hemission, Context.onCode_of_error ctx₁ herr]
    refine ⟨⟨?_, ?_⟩, ?_⟩
    · intro _
      exact ⟨item, List.mem_of_find?_eq_some hfirst, hunknown⟩
    · intro _
      exact ⟨_, _, rfl⟩
    · rintro e ctx' ⟨⟩
      exact ⟨item, rfl, rfl⟩

/-- The check accepts the body: it does not look at what `12a` is, or at the operator behind it. -/
def misspelled : Program where
  name := "Misspelled"
  declarations := [⟨"INTEGER", "n"⟩, ⟨"STRING", "line"⟩]
  body := [
    .set "n" (.arithmetic "+" (.int "-2147483648") (.var "n")),
    .conditional "n" "LT" "12a" [.read "line"] [.print (some (.var "line"))],
    .set "n" (.arithmetic "%" (.var "n") (.int "2"))]

theorem emission_fails_at_first_unknown_misspelled :
    (∀ d ∈ misspelled.declarations, Bytes.isIdentifier d.name = true) ∧
    ∃ table, SymbolTable.declareAll {} misspelled.declarations = .ok () table ∧
      checkAll table misspelled.body = .ok () ∧
      ∃ ctx', (do
        Context.initialise misspelled.body
        Context.emitAll misspelled.body : Context.Step Unit)
          { program := misspelled.name, table } =
        .error (.program (.malformedLiteral "12a")) ctx' := by
  have hnames : ∀ d ∈ misspelled.declarations, Bytes.isIdentifier d.name = true := by decide
  have hitem : Spelling.firstUnknown? (bodySpellings misspelled.body) =
      some (.integer "12a") := by cbv
  have hready : outcomeIs (fun _ table => resultIs (fun _ => true) (checkAll table misspelled.body))
      (SymbolTable.declareAll {} misspelled.declarations) = true := by cbv
  obtain ⟨_, table, hdeclared, hready⟩ := of_outcomeIs hready
  obtain ⟨_, hchecked, -⟩ := of_resultIs hready
  obtain ⟨hfails, herror⟩ := @emission_fails_at_first_unknown misspelled table
    { program := misspelled.name, table } hnames hdeclared hchecked rfl rfl
  have hunknown : ¬ (Spelling.integer "12a").IsKnown := by simpa using List.find?_some hitem
  obtain ⟨e, ctx', he⟩ := hfails.mpr ⟨_, List.mem_of_find?_eq_some hitem, hunknown⟩
  obtain ⟨item, hfirst, rfl⟩ := herror e ctx' he
  rw [hitem] at hfirst
  cases hfirst
  exact ⟨hnames, table, hdeclared, hchecked, ctx', he⟩

end ClassForge
