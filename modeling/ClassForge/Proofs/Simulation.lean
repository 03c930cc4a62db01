import ClassForge.Proofs.EmittedProgram
import ClassForge.Proofs.Evaluation

/-! The code of a statement does what the statement means. Between two statements the slots hold the
values of the variables, and the machine has taken as much input and written the same lines. -/

namespace ClassForge

namespace Meaning

theorem compute_eq {α : Type} {x : Values → Except Stop α} {s : State} {a : α}
    (h : x s.values = .ok a) : compute x s = .ok a s := by
  simp only [compute, h]

theorem compute_eq_error {α : Type} {x : Values → Except Stop α} {s : State} {stop : Stop}
    (h : x s.values = .error stop) : compute x s = .error stop s := by
  simp only [compute, h]

end Meaning

namespace Emission

/-- Names are found under themselves, and no slot is used twice. -/
structure Scope.Separate (scope : Scope) : Prop where
  named : ∀ {name : Bytes} {v : Variable}, scope.table.lookup name = .ok v → v.name = name
  slots : ∀ {name name' : Bytes} {v v' : Variable}, scope.table.lookup name = .ok v →
    scope.table.lookup name' = .ok v' → v.slot = v'.slot → name = name'
  reader : ∀ {name : Bytes} {v : Variable} {slot : Nat}, scope.table.lookup name = .ok v →
    scope.reader = some slot → v.slot ≠ slot

/-- A machine between two statements. -/
structure Scope.Agrees (scope : Scope) (s : Meaning.State) (m : Machine) : Prop where
  values : scope.table.Represents s.values m.locals
  reader : ∀ {slot : Nat}, scope.reader = some slot →
    ∃ number, m.locals[slot]? = some (.scanner number) ∧ m.scanners[number]? = some true
  input : m.input = s.input
  output : m.output = ⟨s.lines, none⟩

theorem Scope.Agrees.goes {scope : Scope} {s : Meaning.State} {m : Machine}
    (h : scope.Agrees s m) (pc : Nat) (stack : Array Value) : scope.Agrees s (m.goes pc stack) :=
  ⟨h.values, h.reader, h.input, h.output⟩

end Emission

open Emission

namespace Body

variable {b : Body} {scope : Scope} {m : Machine} {s : Meaning.State} {i j k : Nat}

/-- Entries `i` to `j` do what is meant by the run with the given result. -/
def Executes (b : Body) (scope : Scope) (i j : Nat) (m : Machine) :
    EStateM.Result Stop Meaning.State Unit → Prop
  | .ok _ s => ∃ m', b.Runs i j m m' ∧ scope.Agrees s m'
  | .error stop s => ∃ fault, stop.fault? = some fault ∧ m.Faults i j fault ⟨s.lines, none⟩

theorem Executes.of_runs {m' : Machine} {x : EStateM.Result Stop Meaning.State Unit}
    (hruns : b.Runs i k m m') (h : b.Executes scope k j m' x) : b.Executes scope i j m x := by
  cases x with
  | ok u s =>
    obtain ⟨m₂, hrest, hagrees⟩ := h
    exact ⟨m₂, hruns.trans hrest, hagrees⟩
  | error stop s =>
    obtain ⟨fault, hfault, hfaults⟩ := h
    exact ⟨fault, hfault, hruns.faults hfaults⟩

theorem Executes.bind {x : Meaning.Run Unit} {f : Unit → Meaning.Run Unit}
    (hx : b.Executes scope i k m (x s)) (hkj : k ≤ j)
    (hf : ∀ {s' : Meaning.State} {m' : Machine}, b.At k m' → scope.Agrees s' m' →
      b.Executes scope k j m' (f () s')) :
    b.Executes scope i j m ((x >>= f) s) := by
  cases hresult : x s with
  | ok u s' =>
    rw [hresult] at hx
    obtain ⟨m', hruns, hagrees⟩ := hx
    rw [bind_eq_of_ok hresult]
    exact (hf hruns.arrives hagrees).of_runs hruns
  | error stop s' =>
    rw [hresult] at hx
    obtain ⟨fault, hfault, hfaults⟩ := hx
    rw [bind_eq_of_error hresult]
    exact ⟨fault, hfault, hfaults.mono hkj⟩

/-- What follows a statement may move the counter. -/
theorem Executes.leave {x : EStateM.Result Stop Meaning.State Unit}
    (h : b.Executes scope i k m x) (hkj : k ≤ j)
    (hleave : ∀ {m' : Machine}, b.At k m' → b.Runs k j m' (m'.goes (b.start j) m'.stack)) :
    b.Executes scope i j m x := by
  cases x with
  | ok u s =>
    obtain ⟨m', hruns, hagrees⟩ := h
    exact ⟨_, hruns.trans (hleave hruns.arrives), hagrees.goes _ _⟩
  | error stop s =>
    obtain ⟨fault, hfault, hfaults⟩ := h
    exact ⟨fault, hfault, hfaults.mono hkj⟩

end Body

namespace Emission

variable {b : Body} {scope : Scope} {m : Machine} {s : Meaning.State} {i j k : Nat}
  {stack : Array Value}

theorem storeOf_executes (hs : scope.Separate) (ha : scope.Agrees s m) {name : Bytes}
    {v : Variable} {d : Datum} (hv : scope.table.lookup name = .ok v) (ht : d.type = v.type)
    (hi : b.code.entries[k]? = some (storeOf v)) (h : b.At k m)
    (hstack : m.stack = stack.push d.value) :
    b.Executes scope k (k + 1) m (Meaning.assign name d s) := by
  obtain ⟨old, hold, htype, hslot⟩ := ha.values.declared hv
  have hlt : v.slot < m.locals.size := (Array.getElem?_eq_some_iff.mp hslot).1
  have hassign : Meaning.assign name d s = .ok () { s with
      values := fun other => if other = name then some d else s.values other } := by
    rw [Meaning.assign, if_pos (by simp [hold, htype, ht])]
  rw [hassign]
  refine ⟨_, h.storeOf hi ht hstack, ⟨fun {other w} hw => ?_, fun {other e} he => ?_⟩,
    fun {slot} hr => ?_, ha.input, ha.output⟩
  · by_cases hother : other = name
    · subst hother
      rw [hv] at hw
      cases hw
      exact ⟨d, by simp, ht, Array.getElem?_setIfInBounds_self_of_lt hlt⟩
    · obtain ⟨d', hd', ht', hslot'⟩ := ha.values.declared hw
      refine ⟨d', by simp [hother, hd'], ht', ?_⟩
      rw [Array.getElem?_setIfInBounds_ne fun heq => hother (hs.slots hw hv heq.symm)]
      exact hslot'
  · have hother : other ≠ name := by
      rintro rfl
      rw [hv] at he
      cases he
    simp only [if_neg hother, ha.values.undeclared he]
  · obtain ⟨number, hnumber, hmade⟩ := ha.reader hr
    refine ⟨number, ?_, hmade⟩
    rw [Array.getElem?_setIfInBounds_ne (hs.reader hv hr)]
    exact hnumber

/-- A printing writes the value that is pushed for it. -/
theorem PrintsAt.runs {push : Instruction} {d : Datum} (hat : PrintsAt b.code push d.type i)
    (hroom : m.output.room = none) (h : b.At i m)
    (hpush : let m' := m.goes (b.start (i + 1)) (m.stack.push .outputStream)
      b.code.entries[i + 1]? = some push → b.At (i + 1) m' →
        b.Runs (i + 1) (i + 2) m' (m'.goes (b.start (i + 2)) (m'.stack.push d.value))) :
    b.Runs i (i + 3) m { m with
      pc := b.start (i + 3)
      output := ⟨m.output.lines.push (d.render ++ "\n"), none⟩ } := by
  obtain ⟨hout, hvalue, hprint⟩ := hat
  have hfirst := h.getstatic hout (.inl ⟨rfl, rfl⟩)
  have hsecond := hpush hvalue hfirst.arrives
  exact (hfirst.trans hsecond).trans (hsecond.arrives.println hprint rfl hroom)

/-- A line that was printed is a line of the run. -/
theorem Scope.Agrees.println (h : scope.Agrees s m) (pc : Nat) (text : Bytes) :
    scope.Agrees { s with lines := s.lines.push text }
      { m with pc, output := ⟨m.output.lines.push text, none⟩ } :=
  ⟨h.values, h.reader, h.input, by simp only [h.output]⟩

theorem Scope.Agrees.room (h : scope.Agrees s m) : m.output.room = none := by
  rw [h.output]

theorem PrintAt.executes {value : Option Expr} (hat : PrintAt b.code scope.table value i j)
    (ha : scope.Agrees s m) (h : b.At i m) :
    b.Executes scope i j m (Meaning.exec (.print value) s) := by
  simp only [Meaning.exec]
  match value, hat with
  | some (.var name), ⟨v, hv, hprints, hj⟩ =>
    subst hj
    obtain ⟨d, hd, htype, hslot⟩ := ha.values.declared hv
    rw [← htype] at hprints
    have hvalue : Meaning.printed s.values (some (.var name)) = .ok d.render := by
      simp only [Meaning.printed, Meaning.valueOf, hd]
      rfl
    rw [bind_eq_of_ok (Meaning.compute_eq hvalue)]
    exact ⟨_, hprints.runs ha.room h fun hi hload => hload.loadOf hi htype hslot,
      ha.println _ _⟩
  | some (.text quoted), ⟨hprints, hj⟩ =>
    subst hj
    have hvalue : Meaning.printed s.values (some (.text quoted)) =
        .ok (Meaning.literalText quoted) := rfl
    rw [bind_eq_of_ok (Meaning.compute_eq hvalue)]
    exact ⟨_, hprints.runs (d := .text (Meaning.literalText quoted)) ha.room h
      fun hi hpush => hpush.pushText hi, ha.println _ _⟩

/-- A reading assigns the next item of the input. -/
theorem take_executes (hs : scope.Separate) (ha : scope.Agrees s m) {name : Bytes} {v : Variable}
    {reader : Nat} (hv : scope.table.lookup name = .ok v) (hreader : scope.reader = some reader)
    (hload : b.code.entries[k]? = some (.access .aload reader))
    (hnext : b.code.entries[k + 1]? =
      some (.invoke (Opcode.invoke .virtual).byte (nextOf v.type)))
    (hstore : b.code.entries[k + 2]? = some (storeOf v)) (h : b.At k m) :
    b.Executes scope k (k + 3) m
      ((Meaning.take (Meaning.next v.type) >>= Meaning.assign name) s) := by
  obtain ⟨number, hnumber, hmade⟩ := ha.reader hreader
  have hscanner := h.load hload hnumber (.inr ⟨rfl, by simp⟩)
  refine Body.Executes.of_runs hscanner ?_
  cases htaken : Meaning.next v.type s.input with
  | ok d input =>
    have htake : Meaning.take (Meaning.next v.type) s = .ok d { s with input } := by
      simp only [Meaning.take, htaken]
    rw [bind_eq_of_ok htake]
    rw [← ha.input] at htaken
    obtain ⟨htype, hread⟩ := hscanner.arrives.next htaken hnext rfl hmade
    have ha' : scope.Agrees { s with input } { m with
        pc := b.start (k + 2)
        stack := m.stack.push d.value
        input } := ⟨ha.values, ha.reader, rfl, ha.output⟩
    exact .of_runs hread (storeOf_executes hs ha' hv htype hstore hread.arrives rfl)
  | error e input =>
    have htake : Meaning.take (Meaning.next v.type) s = .error (.input e) { s with input } := by
      simp only [Meaning.take, htaken]
    rw [bind_eq_of_error htake]
    rw [← ha.input] at htaken
    have hfaults := hscanner.arrives.next htaken hnext rfl hmade
    exact ⟨_, rfl, ha.output ▸ hfaults.mono (by omega)⟩

theorem ReadAt.executes {name : Bytes} (hs : scope.Separate) (hat : ReadAt b.code scope name i j)
    (ha : scope.Agrees s m) (h : b.At i m) :
    b.Executes scope i j m (Meaning.exec (.read name) s) := by
  obtain ⟨v, reader, hv, hreader, hprompt, hload, hnext, hstore, rfl⟩ := hat
  obtain ⟨d, hd, htype, -⟩ := ha.values.declared hv
  simp only [Meaning.exec]
  have hvalue : Meaning.valueOf s.values name = .ok d := by
    simp only [Meaning.valueOf, hd]
  rw [bind_eq_of_ok (Meaning.compute_eq hvalue), htype]
  have htext : Utf8.repair (prompt v) = Meaning.prompt name v.type := by
    rw [← hs.named hv]
    simp only [prompt]
    cases v.type <;> rfl
  have hprints := hprompt.runs (d := .text (Meaning.prompt name v.type)) ha.room h
    fun hi hpush => htext ▸ hpush.pushText hi
  have hline : Meaning.writeLine (Meaning.prompt name v.type) s = .ok () { s with
      lines := s.lines.push (Meaning.prompt name v.type ++ "\n") } := rfl
  rw [bind_eq_of_ok hline]
  exact .of_runs hprints
    (take_executes hs (ha.println _ _) hv hreader hload hnext hstore hprints.arrives)

theorem set_executes (hs : scope.Separate) (ha : scope.Agrees s m) {name : Bytes} {value : Expr}
    {v : Variable} (hv : scope.table.lookup name = .ok v)
    (ht : value.typeIn scope.table = .ok v.type) (hvalue : ExprAt b.code scope.table value i k)
    (hstore : b.code.entries[k]? = some (storeOf v)) (h : b.At i m) :
    b.Executes scope i (k + 1) m (Meaning.exec (.set name value) s) := by
  have hcomputes := hvalue.computes ht ha.values h
  simp only [Meaning.exec]
  cases heval : Meaning.eval s.values value with
  | ok d =>
    rw [heval] at hcomputes
    obtain ⟨htype, hruns⟩ := hcomputes
    rw [bind_eq_of_ok (Meaning.compute_eq heval)]
    exact .of_runs hruns (storeOf_executes hs (ha.goes _ _) hv htype hstore hruns.arrives rfl)
  | error stop =>
    rw [heval] at hcomputes
    obtain ⟨fault, hfault, hfaults⟩ := hcomputes
    rw [bind_eq_of_error (Meaning.compute_eq_error heval)]
    exact ⟨fault, hfault, ha.output ▸ hfaults.mono (Nat.le_succ k)⟩

/-- The code of a condition leads to the branch that the condition chooses. -/
theorem condition_runs (ha : scope.Agrees s m) {left op right : Bytes} {relation : Relation}
    {k' : Nat} (hop : relation? op = some relation) (hleft : OperandAt b.code scope.table left i)
    (hright : OperandAt b.code scope.table right (i + 1))
    (hfork : b.code.Forks relation (i + 2) k k') (hk : i + 2 < k) (h : b.At i m) :
    ∃ holds, Meaning.condition s.values left op right = .ok holds ∧
      let next := if holds then k + 2 else i + 3
      b.Runs i next m (m.goes (b.start next) m.stack) := by
  obtain ⟨x, hx, hfirst⟩ := hleft.runs ha.values h
  obtain ⟨y, hy, hsecond⟩ := hright.runs
    (m := m.goes (b.start (i + 1)) (m.stack.push (.int x))) ha.values hfirst.arrives
  refine ⟨relation.holds x y, ?_, ?_⟩
  · simp only [Meaning.condition, hx, hy]
    exact Meaning.holds_eq hop
  · exact (hfirst.trans hsecond).trans (hfork.runs hk hsecond.arrives rfl)

mutual

/-- The code of a checked statement does what the statement means. -/
theorem StmtAt.executes {table : SymbolTable} (hs : scope.Separate)
    (hlookup : ∀ name, scope.table.lookup name = table.lookup name) : {stmt : Stmt} →
    {i j : Nat} → {s : Meaning.State} → {m : Machine} → StmtAt b.code scope stmt i j →
    stmt.check table = .ok () → scope.Agrees s m → b.At i m →
    b.Executes scope i j m (Meaning.exec stmt s)
  | .set name value, i, j, s, m, hat, hcheck, ha, h => by
    simp only [StmtAt] at hat
    obtain ⟨v, k, hv, hvalue, hstore, rfl⟩ := hat
    obtain ⟨w, hw, htype⟩ := check_set_eq_ok hcheck
    rw [← hlookup, hv] at hw
    cases hw
    refine set_executes hs ha hv ?_ hvalue hstore h
    rw [typeIn_congr hlookup, htype]
  | .print value, i, j, s, m, hat, _, ha, h => by
    simp only [StmtAt] at hat
    exact hat.executes ha h
  | .read name, i, j, s, m, hat, _, ha, h => by
    simp only [StmtAt] at hat
    exact hat.executes hs ha h
  | .conditional left op right thenBody elseBody, i, j, s, m, hat, hcheck, ha, h => by
    simp only [StmtAt] at hat
    obtain ⟨relation, k, k', hop, hleft, hright, hfork, helse, hthen, rfl⟩ := hat
    obtain ⟨-, -, hcheckThen, hcheckElse⟩ := check_conditional_eq_ok hcheck
    have hk := StmtsAt.le helse
    have hk' := StmtsAt.le hthen
    obtain ⟨holds, hholds, hruns⟩ := condition_runs ha hop hleft hright hfork (by omega) h
    simp only [Meaning.exec]
    rw [bind_eq_of_ok (Meaning.compute_eq hholds)]
    refine .of_runs hruns ?_
    cases holds with
    | true =>
      exact (StmtsAt.executes hs hlookup hthen hcheckThen (ha.goes _ _) hruns.arrives).leave
        (by omega) hfork.runs_mark
    | false =>
      exact (StmtsAt.executes hs hlookup helse hcheckElse (ha.goes _ _) hruns.arrives).leave
        (by omega) (hfork.runs_goto (by omega))

theorem StmtsAt.executes {table : SymbolTable} (hs : scope.Separate)
    (hlookup : ∀ name, scope.table.lookup name = table.lookup name) : {body : List Stmt} →
    {i j : Nat} → {s : Meaning.State} → {m : Machine} → StmtsAt b.code scope body i j →
    checkAll table body = .ok () → scope.Agrees s m → b.At i m →
    b.Executes scope i j m (Meaning.execAll body s)
  | [], i, j, s, m, hat, _, ha, h => by
    simp only [StmtsAt] at hat
    subst hat
    exact ⟨m, .refl h, ha⟩
  | stmt :: rest, i, j, s, m, hat, hcheck, ha, h => by
    simp only [StmtsAt] at hat
    obtain ⟨k, hk, hrest⟩ := hat
    obtain ⟨hfirst, hcheck⟩ := checkAll_cons_eq_ok hcheck
    simp only [Meaning.execAll]
    exact (StmtAt.executes hs hlookup hk hfirst ha h).bind (StmtsAt.le hrest)
      fun h' ha' => StmtsAt.executes hs hlookup hrest hcheck ha' h'

end

end Emission

end ClassForge
