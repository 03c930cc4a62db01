import ClassForge.Proofs.EmittedProgram

/-! The life of an emitter and of the artifact writer behind it. Whatever calls are made and
whatever the artifact writer does, the emitter only moves forward, and the writer is called at most
once: by the call that closes a body whose class could be written. -/

namespace ClassForge

open ClassFile

/-- An artifact writer with what it has been called with so far. -/
structure Ledger (σ : Type) where
  state : σ
  calls : List (Bytes × Bytes) := []

/-- The artifact writer with its calls on record. -/
def recording {ε σ : Type} (store : ArtifactSink ε (StateM σ)) :
    ArtifactSink ε (StateM (Ledger σ)) := fun name data ledger =>
  let (result, state) := store name data ledger.state
  (result, ⟨state, ledger.calls ++ [(name, data)]⟩)

/-- The phase that comes next in the life of an emitter. -/
def Phase.next? : Phase → Option Phase
  | idle => some opened
  | opened => some body
  | body => some closed
  | closed => none

namespace Emitter

/-- An emitter with its artifact writer. -/
structure Session (σ : Type) where
  emitter : Emitter
  ledger : Ledger σ

/-- A call to an emitter. Between the calls of its life its context is worked on, such as by
instructions that are appended to the open body. -/
inductive Call where
  | start (program : Bytes)
  | openBody
  | work (x : Context.Step Unit)
  | close

namespace Call

/-- The phase in which the call is made, and its name. -/
def phase? : Call → Option (Phase × Bytes)
  | start _ => some (.idle, "begin")
  | openBody => some (.opened, "begin body")
  | work _ => none
  | close => some (.body, "close")

variable {ε σ : Type}

/-- Makes a call that has nothing to do with the artifact writer. -/
def inside {α : Type} (x : EStateM (CompileError ε) Emitter α) (s : Session σ) :
    Except (CompileError ε) (Option Artifact) × Session σ :=
  match x s.emitter with
  | .ok _ emitter => (.ok none, { s with emitter })
  | .error e emitter => (.error e, { s with emitter })

def perform (store : ArtifactSink ε (StateM σ)) (call : Call) (s : Session σ) :
    Except (CompileError ε) (Option Artifact) × Session σ :=
  match call with
  | start program => inside (Emitter.start program) s
  | openBody => inside Emitter.openBody s
  | work x => inside (onContext x) s
  | close =>
    let ((result, emitter), ledger) := Emitter.close (recording store) s.emitter s.ledger
    (result.map some, { emitter, ledger })

end Call

namespace Session

variable {ε σ : Type}

def new (state : σ) : Session σ :=
  ⟨idle, { state }⟩

def run (s : Session σ) (store : ArtifactSink ε (StateM σ)) (calls : List Call) : Session σ :=
  calls.foldl (fun s call => (call.perform store s).2) s

end Session

/-- The body is assembled behind its final return, and the class with it is written as the data. -/
def Serializes (writer : ClassWriter) (context : Context) (data : Bytes) : Prop :=
  ∃ code method pool w₁ w₂, Code.emit Opcode.returnVoid.byte context.code = .ok () code ∧
    code.assemble context.table.maxLocals writer.pool = .ok method pool ∧
    ClassWriter.addMethod (accPublic ||| accStatic) mainName mainDescriptor (some method)
      { writer with pool } = .ok () w₁ ∧ w₁.bytes = .ok data w₂

variable {ε σ : Type}

theorem finish_eq_ok {writer w : ClassWriter} {context context' : Context} {data : Bytes}
    (h : finish (ε := ε) writer context = (.ok data, w, context')) :
    Serializes writer context data ∧ context'.program = context.program := by
  simp only [finish] at h
  split at h
  · cases h
  next code hcode =>
  split at h
  · cases h
  next method pool hassemble =>
  split at h
  · cases h
  next hadd =>
  cases h
  obtain ⟨_, w₁, hmethod, hbytes⟩ := ok_of_bind_eq_ok hadd
  exact ⟨⟨code, method, pool, w₁, _, hcode, hassemble, hmethod, hbytes⟩, rfl⟩

/-- How closing an open body ends: the class is not written, or it is handed to the artifact writer
once, which may refuse it. -/
inductive Closing (writer : ClassWriter) (context : Context) (ledger : Ledger σ) :
    Except (CompileError ε) Artifact → Ledger σ → Prop
  | unwritten {e : CompileError ε} (h : ∀ program cause, e ≠ .write program cause) :
      Closing writer context ledger (.error e) ledger
  | refused {data : Bytes} (cause : ε) (state : σ) (h : Serializes writer context data) :
      Closing writer context ledger (.error (.write context.program cause))
        ⟨state, ledger.calls ++ [(context.program, data)]⟩
  | stored {artifact : Artifact} (state : σ) (h : Serializes writer context artifact.bytes)
      (hprogram : artifact.program = context.program) :
      Closing writer context ledger (.ok artifact)
        ⟨state, ledger.calls ++ [(context.program, artifact.bytes)]⟩

theorem finish_error {writer w : ClassWriter} {context context' : Context} {e : CompileError ε}
    (h : finish writer context = (.error e, w, context')) :
    ∀ program cause, e ≠ .write program cause := by
  rintro program cause rfl
  simp only [finish] at h
  split at h
  · cases h
  split at h
  · cases h
  split at h
  · cases h
  · cases h

theorem close_body (store : ArtifactSink ε (StateM σ)) (writer : ClassWriter) (context : Context)
    (ledger : Ledger σ) :
    ∃ result w context' ledger', Emitter.close (recording store) (body writer context) ledger =
      ((result, closed w context'), ledger') ∧
      Closing writer context ledger result ledger' := by
  rcases hfinish : finish (ε := ε) writer context with ⟨result, w, context'⟩
  cases result with
  | error e =>
    refine ⟨.error e, w, context', ledger, ?_, .unwritten (finish_error hfinish)⟩
    simp only [Emitter.close, hfinish]
    rfl
  | ok data =>
    obtain ⟨hserializes, hprogram⟩ := finish_eq_ok hfinish
    rcases hstore : store context.program data ledger.state with ⟨answer, state⟩
    have hcalled : recording store context.program data ledger =
        (answer, ⟨state, ledger.calls ++ [(context.program, data)]⟩) := by
      simp only [recording, hstore]
    cases answer with
    | error cause =>
      refine ⟨_, w, context', _, ?_, .refused cause state hserializes⟩
      simp only [Emitter.close, hfinish, bind, StateT.bind, hprogram, hcalled]
      rfl
    | ok path =>
      refine ⟨.ok ⟨context.program, path, data, context'.code.listing⟩, w, context', _, ?_,
        .stored state hserializes rfl⟩
      simp only [Emitter.close, hfinish, bind, StateT.bind, hprogram, hcalled]
      rfl

/-- What a call can come to, from one session to the next. -/
inductive Performs : Call → Session σ → Except (CompileError ε) (Option Artifact) → Session σ → Prop
  | refused {call : Call} {s : Session σ} {phase : Phase} {operation : Bytes}
      (hcall : call.phase? = some (phase, operation)) (hphase : s.emitter.phase ≠ phase) :
      Performs call s (.error (.emission (.program (.invalidState operation s.emitter.phase)))) s
  | unbegun (program : Bytes) (e : ClassError) (ledger : Ledger σ) :
      Performs (.start program) ⟨idle, ledger⟩ (.error (.classFile e)) ⟨idle, ledger⟩
  | begun (program : Bytes) (writer : ClassWriter) (ledger : Ledger σ) :
      Performs (.start program) ⟨idle, ledger⟩ (.ok none) ⟨opened writer { program }, ledger⟩
  | bodied (writer : ClassWriter) (context : Context) (ledger : Ledger σ) :
      Performs .openBody ⟨opened writer context, ledger⟩ (.ok none)
        ⟨body writer { context with code := {} }, ledger⟩
  | worked (x : Context.Step Unit) {s : Session σ} {emitter : Emitter}
      {result : Except (CompileError ε) (Option Artifact)}
      (hphase : emitter.phase = s.emitter.phase) : Performs (.work x) s result ⟨emitter, s.ledger⟩
  | ended {writer w : ClassWriter} {context context' : Context} {ledger ledger' : Ledger σ}
      {result : Except (CompileError ε) Artifact}
      (hclosing : Closing writer context ledger result ledger') :
      Performs .close ⟨body writer context, ledger⟩ (result.map some) ⟨closed w context', ledger'⟩

theorem phase_setContext (emitter : Emitter) (context : Context) :
    (emitter.setContext context).phase = emitter.phase := by
  cases emitter <;> rfl

theorem performs_start (store : ArtifactSink ε (StateM σ)) (program : Bytes) (s : Session σ) :
    Performs (.start program) s ((Call.start program).perform store s).1
      ((Call.start program).perform store s).2 := by
  have hcall : (Call.start program).phase? = some (Phase.idle, ("begin" : Bytes)) := rfl
  obtain ⟨emitter, ledger⟩ := s
  cases emitter with
  | idle =>
    cases hclass : newClass program with
    | error e =>
      simp only [Call.perform, Call.inside, Emitter.start, hclass]
      exact .unbegun program e ledger
    | ok writer =>
      simp only [Call.perform, Call.inside, Emitter.start, hclass]
      exact .begun program writer ledger
  | _ => exact .refused hcall (by simp [phase])

theorem performs_work (store : ArtifactSink ε (StateM σ)) (x : Context.Step Unit) (s : Session σ) :
    Performs (.work x) s ((Call.work x).perform store s).1 ((Call.work x).perform store s).2 := by
  simp only [Call.perform, Call.inside, onContext]
  cases s.emitter.context? with
  | none => exact .worked x rfl
  | some context =>
    dsimp only
    cases x context with
    | ok a context' => exact .worked x (phase_setContext _ _)
    | error e context' => exact .worked x (phase_setContext _ _)

theorem Call.performs (store : ArtifactSink ε (StateM σ)) (call : Call) (s : Session σ) :
    Performs call s (call.perform store s).1 (call.perform store s).2 := by
  cases call with
  | start program => exact performs_start store program s
  | work x => exact performs_work store x s
  | openBody =>
    have hcall : openBody.phase? = some (Phase.opened, ("begin body" : Bytes)) := rfl
    obtain ⟨emitter, ledger⟩ := s
    cases emitter with
    | opened writer context => exact .bodied writer context ledger
    | _ => exact .refused hcall (by simp [Emitter.phase])
  | close =>
    have hcall : close.phase? = some (Phase.body, ("close" : Bytes)) := rfl
    obtain ⟨emitter, ledger⟩ := s
    cases emitter with
    | body writer context =>
      obtain ⟨result, w, context', ledger', hclose, hclosing⟩ :=
        close_body store writer context ledger
      simp only [perform, hclose]
      exact .ended hclosing
    | _ => exact .refused hcall (by simp [Emitter.phase])

/-- What every call keeps to, from one session to the next. -/
structure Call.Lawful (call : Call) (s : Session σ)
    (result : Except (CompileError ε) (Option Artifact)) (s' : Session σ) : Prop where
  forward : s'.emitter.phase = s.emitter.phase ∨
    s.emitter.phase.next? = some s'.emitter.phase
  refused : ∀ phase operation, call.phase? = some (phase, operation) → s.emitter.phase ≠ phase →
    result = .error (.emission (.program (.invalidState operation s.emitter.phase))) ∧ s' = s
  begun : ∀ program a, call = .start program → result = .ok a →
    ∃ writer, s'.emitter = .opened writer { program }
  unbegun : ∀ program e, call = .start program → s.emitter.phase = .idle → result = .error e →
    s'.emitter.phase = .idle ∧ s'.emitter.context? = none
  bodied : ∀ writer context, call = .openBody → s.emitter = .opened writer context →
    result = .ok none ∧ s'.emitter = .body writer { context with code := {} }
  closes : call = .close → s.emitter.phase = .body → s'.emitter.phase = .closed
  writes : s'.ledger = s.ledger ∨ call = .close ∧ ∃ writer context data,
    s.emitter = .body writer context ∧ Serializes writer context data ∧
    s'.ledger.calls = s.ledger.calls ++ [(context.program, data)]

section Laws

variable {call : Call} {s s' : Session σ} {result : Except (CompileError ε) (Option Artifact)}

theorem Performs.forward (h : Performs call s result s') :
    s'.emitter.phase = s.emitter.phase ∨ s.emitter.phase.next? = some s'.emitter.phase := by
  cases h with
  | refused hcall hphase => exact .inl rfl
  | unbegun program e ledger => exact .inl rfl
  | begun program writer ledger => exact .inr rfl
  | bodied writer context ledger => exact .inr rfl
  | worked x hphase => exact .inl hphase
  | ended hclosing => exact .inr rfl

theorem Performs.of_other_phase {phase : Phase} {operation : Bytes} (h : Performs call s result s')
    (hcall : call.phase? = some (phase, operation)) (hphase : s.emitter.phase ≠ phase) :
    result = .error (.emission (.program (.invalidState operation s.emitter.phase))) ∧ s' = s := by
  cases h with
  | refused hcall' _ =>
    cases hcall.symm.trans hcall'
    exact ⟨rfl, rfl⟩
  | worked x _ => cases hcall
  | _ =>
    cases hcall
    exact absurd rfl hphase

theorem Performs.of_started {program : Bytes} {a : Option Artifact}
    (h : Performs (ε := ε) (.start program) s (.ok a) s') :
    ∃ writer, s'.emitter = opened writer { program } := by
  cases h with
  | begun _ writer ledger => exact ⟨writer, rfl⟩

theorem Performs.of_openBody {writer : ClassWriter} {context : Context}
    (h : Performs .openBody s result s') (hopened : s.emitter = opened writer context) :
    result = .ok none ∧ s'.emitter = body writer { context with code := {} } := by
  cases h with
  | refused hcall hphase =>
    cases hcall
    exact absurd (congrArg Emitter.phase hopened) hphase
  | bodied =>
    cases hopened
    exact ⟨rfl, rfl⟩

theorem Performs.of_failed_start {program : Bytes} {e : CompileError ε}
    (h : Performs (.start program) s (.error e) s') (hphase : s.emitter.phase = .idle) :
    s'.emitter = idle := by
  cases h with
  | refused hcall hphase' =>
    cases hcall
    exact absurd hphase hphase'
  | unbegun => rfl

theorem Performs.of_close (h : Performs .close s result s') (hphase : s.emitter.phase = .body) :
    s'.emitter.phase = .closed := by
  cases h with
  | refused hcall hphase' =>
    cases hcall
    exact absurd hphase hphase'
  | ended hclosing => rfl

theorem Performs.writes (h : Performs call s result s') :
    s'.ledger = s.ledger ∨ call = .close ∧ ∃ writer context data,
      s.emitter = .body writer context ∧ Serializes writer context data ∧
      s'.ledger.calls = s.ledger.calls ++ [(context.program, data)] := by
  cases h with
  | @ended writer _ context _ _ _ _ hclosing =>
    cases hclosing with
    | unwritten h => exact .inl rfl
    | refused cause state h => exact .inr ⟨rfl, writer, context, _, rfl, h, rfl⟩
    | stored state h hprogram => exact .inr ⟨rfl, writer, context, _, rfl, h, rfl⟩
  | _ => exact .inl rfl

end Laws

theorem Call.lawful (store : ArtifactSink ε (StateM σ)) (call : Call) (s : Session σ) :
    call.Lawful s (call.perform store s).1 (call.perform store s).2 := by
  have h := call.performs store s
  refine ⟨h.forward, fun _ _ hcall hphase => h.of_other_phase hcall hphase,
    fun program a hcall hok => ?_, fun program e hcall hphase herror => ?_,
    fun writer context hcall hopened => ?_, fun hcall hphase => ?_, h.writes⟩
  · subst hcall
    rw [hok] at h
    exact h.of_started
  · subst hcall
    rw [herror] at h
    rw [h.of_failed_start hphase]
    exact ⟨rfl, rfl⟩
  · subst hcall
    exact h.of_openBody hopened
  · subst hcall
    exact h.of_close hphase

/-- The artifact writer has not been called before the emitter is closed, and at most once then. -/
def Session.Unspent (s : Session σ) : Prop :=
  s.ledger.calls.length ≤ 1 ∧ (s.emitter.phase ≠ .closed → s.ledger.calls = [])

theorem Performs.unspent {call : Call} {s s' : Session σ}
    {result : Except (CompileError ε) (Option Artifact)} (h : Performs call s result s')
    (hs : s.Unspent) : s'.Unspent := by
  cases h with
  | refused hcall hphase => exact hs
  | unbegun program e ledger => exact hs
  | begun program writer ledger => exact ⟨hs.1, fun _ => hs.2 (by simp [phase])⟩
  | bodied writer context ledger => exact ⟨hs.1, fun _ => hs.2 (by simp [phase])⟩
  | worked x hphase => exact ⟨hs.1, fun hne => hs.2 (hphase ▸ hne)⟩
  | @ended writer w context context' ledger ledger' result hclosing =>
    have hnone : ledger.calls = [] := hs.2 (by simp [phase])
    refine ⟨?_, fun hne => absurd rfl hne⟩
    cases hclosing with
    | unwritten h => exact hs.1
    | refused cause state h => simp [hnone]
    | stored state h hprogram => simp [hnone]

theorem Session.Unspent.run {s : Session σ} (hs : s.Unspent) (store : ArtifactSink ε (StateM σ))
    (calls : List Call) : (s.run store calls).Unspent := by
  induction calls generalizing s with
  | nil => exact hs
  | cons call rest ih => exact ih ((call.performs store s).unspent hs)

/-- The step does not fail as a refusal of the artifact writer. -/
def Unwritten {α : Type} (x : EStateM (CompileError ε) Emitter α) : Prop :=
  ∀ emitter emitter' program cause, x emitter ≠ .error (.write program cause) emitter'

theorem Unwritten.bind {α β : Type} {x : EStateM (CompileError ε) Emitter α}
    {f : α → EStateM (CompileError ε) Emitter β} (hx : Unwritten x) (hf : ∀ a, Unwritten (f a)) :
    Unwritten (x >>= f) := by
  intro emitter emitter' program cause h
  rcases error_of_bind_eq_error h with h | ⟨a, middle, -, h⟩
  · exact hx _ _ _ _ h
  · exact hf a _ _ _ _ h

theorem unwritten_start (program : Bytes) : Unwritten (Emitter.start (ε := ε) program) := by
  intro emitter emitter' _ cause h
  cases emitter with
  | idle =>
    simp only [Emitter.start] at h
    split at h
    · cases h
    · cases h
  | _ => cases h

theorem unwritten_openBody : Unwritten (Emitter.openBody (ε := ε)) := by
  intro emitter emitter' program cause h
  cases emitter <;> cases h

theorem unwritten_onContext {α : Type} (x : Context.Step α) :
    Unwritten (discard (onContext (ε := ε) x) : EStateM _ _ _) := by
  intro emitter emitter' program cause h
  simp only [discard, Functor.discard, Functor.mapConst, EStateM.map, Function.comp, onContext] at h
  cases hcontext : emitter.context? with
  | none =>
    simp only [hcontext] at h
    cases h
  | some context =>
    simp only [hcontext] at h
    cases hx : x context with
    | ok a context' =>
      simp only [hx] at h
      cases h
    | error e context' =>
      simp only [hx] at h
      cases h

theorem unwritten_emit (p : Program) : Unwritten (p.emit (ε := ε)) :=
  (unwritten_start p.name).bind fun _ => (unwritten_onContext _).bind fun _ =>
    unwritten_openBody.bind fun _ => unwritten_onContext _

end Emitter

/-- A compilation hands its class to the artifact writer once, under the name of the program, and
not at all unless everything before that succeeds. -/
theorem Program.compile_cases {ε σ : Type} (store : ArtifactSink ε (StateM σ)) (p : Program)
    (state : σ) :
    match p.compile (recording store) { state } with
    | (.ok c, ledger) =>
      c.artifact.program = p.name ∧ ledger.calls = [(p.name, c.artifact.bytes)]
    | (.error e, ledger) =>
      (∃ cause data, e = .write p.name cause ∧ ledger.calls = [(p.name, data)]) ∨
        (∀ program cause, e ≠ .write program cause) ∧ ledger = { state } := by
  simp only [Program.compile]
  cases hemit : p.emit (ε := ε) .idle with
  | error e emitter =>
    refine .inr ⟨?_, rfl⟩
    rintro program cause rfl
    exact Emitter.unwritten_emit p _ _ _ _ hemit
  | ok u emitter =>
    obtain ⟨writer, table, context, rfl, hemits⟩ := Program.emit_eq_ok hemit
    obtain ⟨result, w, context', ledger, hclose, hclosing⟩ :=
      Emitter.close_body store writer context { state }
    simp only [bind, StateT.bind, hclose]
    rw [← hemits.program]
    cases hclosing with
    | unwritten h => exact .inr ⟨h, rfl⟩
    | @refused data cause state h => exact .inl ⟨cause, data, rfl, rfl⟩
    | stored state h hprogram => exact ⟨hprogram, rfl⟩

/-- Nothing reaches the artifact writer unless everything before it succeeds. In every run of calls,
and whatever the writer does, each call keeps to its phase and the writer is called at most once. A
compilation that succeeds has called it once, and one that fails for another reason never. -/
theorem artifact_written_once {ε σ : Type} (store : ArtifactSink ε (StateM σ)) (state : σ) :
    (∀ calls call, let s := (Emitter.Session.new state).run store calls
      Emitter.Call.Lawful call s (call.perform store s).1 (call.perform store s).2) ∧
    (∀ calls, ((Emitter.Session.new state).run store calls).ledger.calls.length ≤ 1) ∧
    ∀ p : Program, match p.compile (recording store) { state } with
      | (.ok c, ledger) =>
        c.artifact.program = p.name ∧ ledger.calls = [(p.name, c.artifact.bytes)]
      | (.error e, ledger) =>
        (∃ cause data, e = .write p.name cause ∧ ledger.calls = [(p.name, data)]) ∨
          (∀ program cause, e ≠ .write program cause) ∧ ledger = { state } := by
  refine ⟨fun calls call => call.lawful store _, fun calls => ?_,
    fun p => p.compile_cases store state⟩
  have hnew : (Emitter.Session.new state).Unspent := ⟨by simp [Emitter.Session.new], fun _ => rfl⟩
  exact (hnew.run store calls).1

/-- A run in which closing the body writes the class, and closing again does not. -/
example :
    let store : ArtifactSink Empty (StateM Unit) := fun name _ => pure (.ok (name ++ ".class"))
    let calls : List Emitter.Call := [.close, .start "G", .openBody, .close, .close]
    ((Emitter.Session.new ()).run store calls).ledger.calls.map (fun c => (c.1, c.2.take 4)) =
      ([("G", [0xca, 0xfe, 0xba, 0xbe])] : List (Bytes × Bytes)) := by
  cbv

end ClassForge
