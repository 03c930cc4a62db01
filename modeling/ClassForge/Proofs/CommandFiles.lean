import ClassForge.Command.Standard
import ClassForge.Files.Tree
import ClassForge.Proofs.CompilationDump

/-! What the command does to the files around it. Writing a file changes one place of the tree, and
every path leads to the same place as before. What keeps the log is given, and so is the codec of
dumps: the one changes no file but its own, and the other writes canonical encodings. -/

namespace ClassForge

namespace FileTree

variable {tree tree' : FileTree} {place : Location} {data path : Bytes}

/-- The place of a path, if the path can be followed. -/
def place? (tree : FileTree) (path : Bytes) : Option Location :=
  (tree.locate path).toOption

/-- The second tree is the first with a file at a place that is no directory. -/
structure Sets (tree : FileTree) (place : Location) (data : Bytes) (tree' : FileTree) : Prop where
  free : tree.node? place ≠ some .directory
  node : ∀ other, tree'.node? other = if other = place then some (.file data) else tree.node? other
  here : tree'.here = tree.here

theorem lookup_filter (nodes : List (Location × FileNode)) {other : Location} (h : other ≠ place) :
    (nodes.filter (·.1 != place)).lookup other = nodes.lookup other := by
  induction nodes with
  | nil => rfl
  | cons entry nodes ih =>
    obtain ⟨first, node⟩ := entry
    by_cases hfirst : first = place
    · have hother : (other == first) = false := by simpa [hfirst] using h
      rw [List.filter_cons_of_neg (by simp [hfirst]), ih, List.lookup_cons, hother]
    · rw [List.filter_cons_of_pos (by simpa using hfirst), List.lookup_cons, List.lookup_cons, ih]

theorem sets_put (h : tree.node? place ≠ some .directory) (data : Bytes) :
    tree.Sets place data (tree.put place (.file data)) := by
  refine ⟨h, fun other => ?_, rfl⟩
  cases other with
  | nil =>
    have hroot : ([] : Location) ≠ place := by
      rintro rfl
      exact h rfl
    rw [if_neg hroot]
    rfl
  | cons name rest =>
    by_cases hother : name :: rest = place
    · subst hother
      simp [node?, put]
    · have hbeq : ((name :: rest) == place) = false := by simpa using hother
      rw [if_neg hother]
      simp only [node?, put, List.lookup_cons, hbeq]
      exact lookup_filter tree.nodes hother

theorem toOption_bind {ε α β : Type} (x : Except ε α) (f : α → Except ε β) :
    (x >>= f).toOption = x.toOption.bind fun a => (f a).toOption := by
  cases x with
  | error e => rfl
  | ok a => rfl

theorem Sets.enter_toOption (h : tree.Sets place data tree') (start : Location) (name : Bytes) :
    (tree'.enter start name).toOption = (tree.enter start name).toOption := by
  by_cases hstart : start = place
  · subst hstart
    have hfile : tree'.node? start = some (.file data) := by rw [h.node, if_pos rfl]
    simp only [enter, hfile]
    -- There was no directory at the place, so the path was not followed past it before either.
    cases hnode : tree.node? start with
    | none => rfl
    | some node =>
      cases node with
      | directory => exact absurd hnode h.free
      | file old => rfl
  · have hsame : tree'.node? start = tree.node? start := by rw [h.node, if_neg hstart]
    simp only [enter, hsame]

theorem Sets.follow_toOption (h : tree.Sets place data tree') (names : List Bytes)
    (start : Location) :
    (tree'.follow start names).toOption = (tree.follow start names).toOption := by
  induction names generalizing start with
  | nil => rfl
  | cons name rest ih =>
    simp only [follow, toOption_bind, h.enter_toOption, ih]

theorem Sets.place?_eq (h : tree.Sets place data tree') (path : Bytes) :
    tree'.place? path = tree.place? path := by
  simp only [place?, locate, h.here]
  split
  · rfl
  split
  · rfl
  split
  · rfl
  · exact h.follow_toOption _ _

theorem change_eq_ok {f : Bytes → Bytes} (h : tree.change path f = .ok tree') :
    ∃ place old, tree.place? path = some place ∧ tree.Sets place (f old) tree' := by
  simp only [change] at h
  split at h
  · cases h
  next place hplace =>
  have hplace : tree.place? path = some place := by
    rw [place?, hplace]
    rfl
  split at h
  · cases h
  · next old hnode =>
    cases h
    exact ⟨place, old, hplace, sets_put (by simp [hnode]) _⟩
  · next hnode =>
    cases h
    exact ⟨place, [], hplace, sets_put (by simp [hnode]) _⟩

theorem read_eq_ok (hplace : tree.place? path = some place) :
    tree.read path = .ok data ↔ tree.node? place = some (.file data) := by
  cases hlocate : tree.locate path with
  | error e =>
    rw [place?, hlocate] at hplace
    cases hplace
  | ok found =>
    rw [place?, hlocate] at hplace
    cases hplace
    simp only [read, hlocate]
    split
    · next old hnode => simp [hnode]
    · next hnode => simp [hnode]
    · next hnode => simp [hnode]

/-- Every path leads to the same place, and the trees have the same nodes, except perhaps at one
place. -/
structure AgreesBut (skipped : Option Location) (tree tree' : FileTree) : Prop where
  places : ∀ path, tree'.place? path = tree.place? path
  nodes : ∀ place, skipped ≠ some place → tree'.node? place = tree.node? place

theorem AgreesBut.refl (skipped : Option Location) (tree : FileTree) :
    tree.AgreesBut skipped tree :=
  ⟨fun _ => rfl, fun _ _ => rfl⟩

theorem AgreesBut.trans {skipped : Option Location} {tree'' : FileTree}
    (h : tree.AgreesBut skipped tree') (h' : tree'.AgreesBut skipped tree'') :
    tree.AgreesBut skipped tree'' :=
  ⟨fun path => (h'.places path).trans (h.places path),
    fun place hplace => (h'.nodes place hplace).trans (h.nodes place hplace)⟩

theorem Sets.agreesBut (h : tree.Sets place data tree') : tree.AgreesBut (some place) tree' := by
  refine ⟨h.place?_eq, fun other hother => ?_⟩
  rw [h.node, if_neg]
  rintro rfl
  exact hother rfl

theorem append_agreesBut (path data : Bytes) (tree : FileTree) :
    tree.AgreesBut (tree.place? path) (access.append path data tree).2 := by
  simp only [access, update]
  split
  · next tree' happend =>
    obtain ⟨place, old, hplace, hsets⟩ := change_eq_ok happend
    rw [hplace]
    exact hsets.agreesBut
  · exact .refl _ tree

/-- The class goes to the file of its name, or nothing is changed. -/
theorem store_write_cases (store : ClassStore) (name data : Bytes) (tree : FileTree) :
    (∃ e, store.write access name data tree = (.error e, tree)) ∨
      ∃ place tree', store.write access name data tree = (.ok (store.path name), tree') ∧
        tree.place? (store.path name) = some place ∧ tree.Sets place data tree' := by
  cases hwrite : tree.write (store.path name) data with
  | error e =>
    refine .inl ⟨⟨store.path name, e⟩, ?_⟩
    simp only [ClassStore.write, access, update, bind, StateT.bind, hwrite]
    rfl
  | ok tree' =>
    obtain ⟨place, old, hplace, hsets⟩ := change_eq_ok hwrite
    refine .inr ⟨place, tree', ?_, hplace, hsets⟩
    simp only [ClassStore.write, access, update, bind, StateT.bind, hwrite]
    rfl

end FileTree

/-- Whatever is logged, no file is changed but that of the log. -/
structure Logger.KeepsToFile (logger : Logger (StateM FileTree)) : Prop where
  configure : ∀ verbosity file (tree : FileTree),
    tree.AgreesBut (file.bind tree.place?) (logger.configure verbosity file tree).2
  info : ∀ {verbosity file tree log tree₁},
    logger.configure verbosity file tree = (.ok log, tree₁) → ∀ message (tree' : FileTree),
      tree'.AgreesBut (file.bind tree'.place?) (log.info message tree').2

theorem Logger.appending_keepsToFile : (Logger.appending FileTree.access).KeepsToFile := by
  constructor
  · intro verbosity file tree
    cases file with
    | none => exact .refl _ tree
    | some path =>
      have happend := FileTree.append_agreesBut path [] tree
      simp only [appending, bind, StateT.bind]
      rcases hanswer : FileTree.access.append path [] tree with ⟨answer, tree'⟩
      rw [hanswer] at happend
      cases answer with
      | error e => exact happend
      | ok u => exact happend
  · intro verbosity file tree log tree₁ h message tree'
    cases file with
    | none =>
      cases h
      exact .refl _ tree'
    | some path =>
      simp only [appending, bind, StateT.bind] at h
      rcases hanswer : FileTree.access.append path [] tree with ⟨answer, tree₂⟩
      rw [hanswer] at h
      cases answer with
      | error e => cases h
      | ok u =>
        cases h
        dsimp only
        split
        · exact FileTree.append_agreesBut path _ tree'
        · exact .refl _ tree'

/-- No dump is a class file: their first bytes differ. -/
theorem Program.dump_ne_bytes {codec : Dump.Codec} (hcodec : codec.IsCanonical) {ε σ : Type}
    {store : ArtifactSink ε (StateM σ)} {p : Program} {s : σ} {c : Compilation}
    (h : (p.compile store s).1 = .ok c) : c.dump codec ≠ .ok c.artifact.bytes := by
  obtain ⟨writer, table, context, method, pool, w, -, -, -, hbytes, -⟩ := compile_stages h
  obtain ⟨-, -, code, pool₁, indexes, pool₂, -, -, -, hdata⟩ := ClassWriter.bytes_eq_ok hbytes
  intro hdump
  have hclass : c.artifact.bytes.head? = some 0xca := by
    rw [hdata]
    rfl
  rw [hcodec hdump] at hclass
  cases hclass

namespace Command

open FileTree (access)

variable {lib : Libraries (StateM FileTree)} {arguments : List Bytes} {input : Input} {limit : Nat}
  {tree tree₁ tree₂ : FileTree} {o : Options} {s : Settings} {log : Log (StateM FileTree)}
  {c : Compilation}

section Settings

variable (reader : SettingsReader)

theorem load_tree (path : Bytes) (tree : FileTree) :
    (Settings.load access reader path tree).2 = tree := by
  simp only [Settings.load, bind, StateT.bind, access]
  cases tree.read path with
  | error e => rfl
  | ok text => rfl

theorem findIn_tree (dir : Bytes) (tree : FileTree) :
    (Settings.findIn access reader dir tree).2 = tree := by
  simp only [Settings.findIn, bind, StateT.bind, access]
  cases tree.stat (Path.join dir Settings.fileName) with
  | ok u => exact load_tree reader _ tree
  | error e =>
    simp only
    split
    · rfl
    · rfl

theorem settings_tree (o : Options) (tree : FileTree) :
    (settings access reader o tree).2 = tree := by
  simp only [settings]
  split
  · exact findIn_tree reader _ tree
  · exact load_tree reader _ tree

end Settings

/-- The options, settings and log with which the command goes on to read the source, and the tree
with the first messages in the log. -/
structure Starts (lib : Libraries (StateM FileTree)) (arguments : List Bytes) (tree : FileTree)
    (o : Options) (s : Settings) (log : Log (StateM FileTree)) (tree₁ : FileTree) : Prop where
  options : Options.parse arguments = .ok o
  settings : (settings access lib.settings o tree).1 = .ok s
  logged : openLog lib.logger s tree = (.ok log, tree₁)

/-- What keeps the command from finishing the compilation. -/
inductive Fails (lib : Libraries (StateM FileTree)) (arguments : List Bytes) (tree : FileTree) :
    CommandError → Prop
  | options {e : OptionError} (h : Options.parse arguments = .error e) :
      Fails lib arguments tree (.options e)
  | settings {o : Options} {e : SettingsError} (ho : Options.parse arguments = .ok o)
      (h : (settings access lib.settings o tree).1 = .error e) :
      Fails lib arguments tree (.settings e)
  | reading {o : Options} {s : Settings} {log : Log (StateM FileTree)} {tree₁ : FileTree}
      {e : FileError} (hs : Starts lib arguments tree o s log tree₁)
      (h : tree₁.read o.input = .error e) : Fails lib arguments tree (.file e)
  | source {o : Options} {s : Settings} {log : Log (StateM FileTree)} {tree₁ : FileTree}
      {text : Bytes} {e : SourceError} (hs : Starts lib arguments tree o s log tree₁)
      (hread : tree₁.read o.input = .ok text) (h : Program.parse text = .error e) :
      Fails lib arguments tree (.source e)
  | compile {o : Options} {s : Settings} {log : Log (StateM FileTree)} {tree₁ : FileTree}
      {text : Bytes} {p : Program} {e : CompileError StoreError}
      (hs : Starts lib arguments tree o s log tree₁) (hread : tree₁.read o.input = .ok text)
      (hparse : Program.parse text = .ok p)
      (h : (p.compile (ClassStore.write ⟨s.dir, s.extension⟩ access) tree₁).1 = .error e) :
      Fails lib arguments tree (.compile e)

/-- The command finishes the compilation. -/
def Compiles (lib : Libraries (StateM FileTree)) (arguments : List Bytes) (tree : FileTree)
    (o : Options) (s : Settings) (c : Compilation) : Prop :=
  ∃ log tree₁ text p, Starts lib arguments tree o s log tree₁ ∧ tree₁.read o.input = .ok text ∧
    Program.parse text = .ok p ∧
    (p.compile (ClassStore.write ⟨s.dir, s.extension⟩ access) tree₁).1 = .ok c

/-- Where the log goes, if it goes to a file. -/
def logPlace? (lib : Libraries (StateM FileTree)) (arguments : List Bytes) (tree : FileTree) :
    Option Location := do
  let o ← (Options.parse arguments).toOption
  let s ← (settings access lib.settings o tree).1.toOption
  (logFile? s).bind tree.place?

theorem logPlace?_of_starts (h : Starts lib arguments tree o s log tree₁) :
    logPlace? lib arguments tree = (logFile? s).bind tree.place? := by
  simp only [logPlace?, h.options, h.settings, Except.toOption, Option.bind_eq_bind,
    Option.bind_some]

def KeepsTo (log : Log (StateM FileTree)) (s : Settings) : Prop :=
  ∀ message (tree : FileTree), tree.AgreesBut ((logFile? s).bind tree.place?) (log.info message tree).2

theorem openLog_eq_ok (hlogger : lib.logger.KeepsToFile)
    (h : openLog lib.logger s tree = (.ok log, tree₁)) :
    tree.AgreesBut ((logFile? s).bind tree.place?) tree₁ ∧ KeepsTo log s := by
  simp only [openLog, bind, StateT.bind] at h
  have hconfigure := hlogger.configure s.verbosity (logFile? s) tree
  rcases hanswer : lib.logger.configure s.verbosity (logFile? s) tree with ⟨answer, tree'⟩
  rw [hanswer] at h hconfigure
  cases answer with
  | error e => cases h
  | ok log' =>
    have hinfo := hlogger.info hanswer
    dsimp only at h hconfigure
    split at h
    · have hmessage := hinfo ("configuration from " ++ s.path) tree'
      have hplace : tree'.place? = tree.place? := funext hconfigure.places
      rw [hplace] at hmessage
      cases h
      exact ⟨hconfigure.trans hmessage, hinfo⟩
    · cases h
      exact ⟨hconfigure, hinfo⟩

/-- The log is the one file that is written before the class. -/
theorem Starts.agreesBut (hlogger : lib.logger.KeepsToFile)
    (h : Starts lib arguments tree o s log tree₁) :
    tree.AgreesBut (logPlace? lib arguments tree) tree₁ := by
  rw [logPlace?_of_starts h]
  exact (openLog_eq_ok hlogger h.logged).1

theorem Starts.settings_eq (h : Starts lib arguments tree o s log tree₁) :
    Command.settings access lib.settings o tree = (.ok s, tree) :=
  Prod.ext h.settings (settings_tree lib.settings o tree)

theorem compileFrom_of_parse {text : Bytes} {p : Program} (hread : tree₁.read o.input = .ok text)
    (hparse : Program.parse text = .ok p) {r : Except (CompileError StoreError) Compilation}
    (hcompile : p.compile (ClassStore.write ⟨s.dir, s.extension⟩ access) tree₁ = (r, tree₂)) :
    compileFrom access s o.input tree₁ = (r.mapError .compile, tree₂) := by
  have hfile : access.read o.input tree₁ = (.ok text, tree₁) := by simp only [access, hread]
  simp only [compileFrom, bind, StateT.bind, hfile, hparse, hcompile]
  cases r with
  | error e => rfl
  | ok c => rfl

variable (input limit)

theorem run_of_compileFrom_error (h : Starts lib arguments tree o s log tree₁) {e : CommandError}
    (he : compileFrom access s o.input tree₁ = (.error e, tree₂)) :
    run access lib arguments input limit tree = ({ error := some e }, tree₂) := by
  simp only [run, h.options, bind, StateT.bind, h.settings_eq, h.logged, he]
  rfl

theorem run_of_compileFrom_ok (h : Starts lib arguments tree o s log tree₁)
    (hc : compileFrom access s o.input tree₁ = (.ok c, tree₂)) :
    run access lib arguments input limit tree =
      conclude access lib.codec log o s c input limit tree₂ := by
  simp only [run, h.options, bind, StateT.bind, h.settings_eq, h.logged, hc]

/-- The command stops where it fails. Until then it has written to its log only. -/
theorem run_of_fails (hlogger : lib.logger.KeepsToFile) {e : CommandError}
    (h : Fails lib arguments tree e) :
    ∃ tree' stderr, run access lib arguments input limit tree =
      ({ stdout := [], stderr, error := some e }, tree') ∧
      tree.AgreesBut (logPlace? lib arguments tree) tree' := by
  cases h with
  | @options e h =>
    refine ⟨tree, Options.complaint e, ?_, .refl _ tree⟩
    simp only [run, h]
    rfl
  | @settings o e ho h =>
    have hsettings : Command.settings access lib.settings o tree = (.error e, tree) :=
      Prod.ext h (settings_tree lib.settings o tree)
    refine ⟨tree, [], ?_, .refl _ tree⟩
    simp only [run, ho, bind, StateT.bind, hsettings]
    rfl
  | @reading o s log tree₁ e hs h =>
    have hfile : access.read o.input tree₁ = (.error e, tree₁) := by simp only [access, h]
    have hcompile : compileFrom access s o.input tree₁ = (.error (.file e), tree₁) := by
      simp only [compileFrom, bind, StateT.bind, hfile]
      rfl
    exact ⟨tree₁, [], run_of_compileFrom_error input limit hs hcompile, hs.agreesBut hlogger⟩
  | @source o s log tree₁ text e hs hread h =>
    have hfile : access.read o.input tree₁ = (.ok text, tree₁) := by simp only [access, hread]
    have hcompile : compileFrom access s o.input tree₁ = (.error (.source e), tree₁) := by
      simp only [compileFrom, bind, StateT.bind, hfile, h]
      rfl
    exact ⟨tree₁, [], run_of_compileFrom_error input limit hs hcompile, hs.agreesBut hlogger⟩
  | @compile o s log tree₁ text p e hs hread hparse h =>
    have hend : p.compile (ClassStore.write ⟨s.dir, s.extension⟩ access) tree₁ =
        (.error e, tree₁) := by
      refine Prod.ext h ?_
      rcases p.compile_outcomes (ClassStore.write ⟨s.dir, s.extension⟩ access) tree₁ with
        ⟨e', hfail⟩ | ⟨_, _, data, _, -, ⟨cause, tree₂, hstore, hfail⟩ | ⟨path, tree₂, -, hok⟩⟩
      · rw [hfail]
      -- The class was handed over and refused, and a refused write changes nothing.
      · rcases FileTree.store_write_cases ⟨s.dir, s.extension⟩ p.name data tree₁ with
          ⟨e', hrefused⟩ | ⟨place, tree₃, hwritten, -⟩
        · cases hrefused.symm.trans hstore
          rw [hfail]
        · cases hwritten.symm.trans hstore
      · rw [hok] at h
        cases h
    exact ⟨tree₁, [], run_of_compileFrom_error input limit hs
      (compileFrom_of_parse hread hparse hend), hs.agreesBut hlogger⟩

/-- Where the dump goes, if one is asked for and can be encoded. -/
def dumpPlace? (codec : Dump.Codec) (s : Settings) (c : Compilation) (tree : FileTree) :
    Option Location :=
  if s.dump && (c.dump codec).isOk then tree.place? (dumpPath s c.artifact.program) else none

/-- The second tree is the first with the dump in its place, the log apart. -/
structure Dumped (codec : Dump.Codec) (s : Settings) (c : Compilation) (tree tree' : FileTree) :
    Prop where
  places : ∀ path, tree'.place? path = tree.place? path
  nodes : ∀ other, (logFile? s).bind tree.place? ≠ some other → tree'.node? other =
    if dumpPlace? codec s c tree' = some other then (c.dump codec).toOption.map .file
    else tree.node? other

theorem dumpPlace?_congr {codec : Dump.Codec} {tree tree' : FileTree}
    (h : ∀ path, tree'.place? path = tree.place? path) :
    dumpPlace? codec s c tree' = dumpPlace? codec s c tree := by
  simp only [dumpPlace?, h]

theorem Dumped.logged {codec : Dump.Codec} {tree tree' : FileTree} (h : Dumped codec s c tree tree')
    (hlog : KeepsTo log s) (message : Bytes) :
    Dumped codec s c tree (log.info message tree').2 := by
  have hmessage := hlog message tree'
  have hplace : tree'.place? = tree.place? := funext h.places
  rw [hplace] at hmessage
  refine ⟨fun path => (hmessage.places path).trans (h.places path), fun other hother => ?_⟩
  rw [hmessage.nodes other hother, h.nodes other hother, dumpPlace?_congr hmessage.places]

theorem writeDump_cases {codec : Dump.Codec} (hlog : KeepsTo log s) (hdump : s.dump = true)
    (tree : FileTree) :
    (∃ e, (writeDump access codec log s c tree).1 = .error (.file e)) ∨
      Dumped codec s c tree (writeDump access codec log s c tree).2 := by
  cases hdata : c.dump codec with
  | error cause =>
    have hwrite : writeDump access codec log s c tree = (.error (.dump cause), tree) := by
      simp only [writeDump, hdata]
      rfl
    rw [hwrite]
    exact .inr ⟨fun _ => rfl, fun other _ => by simp [dumpPlace?, hdata, Except.isOk, Except.toBool]⟩
  | ok data =>
    cases hfile : tree.write (dumpPath s c.artifact.program) data with
    | error e =>
      refine .inl ⟨e, ?_⟩
      simp only [writeDump, hdata, bind, StateT.bind, access, FileTree.update, hfile]
      rfl
    | ok tree' =>
      obtain ⟨place, old, hplace, hsets⟩ := FileTree.change_eq_ok hfile
      have hdumped : dumpPlace? codec s c tree' = some place := by
        simp only [dumpPlace?, hdump, hdata, hsets.place?_eq, hplace]
        rfl
      have hwritten : Dumped codec s c tree tree' := by
        refine ⟨hsets.place?_eq, fun other _ => ?_⟩
        rw [hsets.node, hdumped, hdata]
        simp only [Option.some.injEq, eq_comm, Except.toOption, Option.map_some]
      have hend : (writeDump access codec log s c tree).2 =
          (log.info ("dump written to " ++ dumpPath s c.artifact.program) tree').2 := by
        simp only [writeDump, hdata, bind, StateT.bind, access, FileTree.update, hfile]
        rfl
      rw [hend]
      exact .inr (hwritten.logged hlog _)

theorem conclude_cases {codec : Dump.Codec} (hlog : KeepsTo log s) (o : Options) (c : Compilation)
    (tree : FileTree) :
    ∃ output error tree', conclude access codec log o s c input limit tree =
        ({ stdout := announce o c ++ output, error }, tree') ∧
      ((∃ e, error = some (.file e)) ∨ Dumped codec s c tree tree') := by
  -- The dump is written first, if there is one.
  obtain ⟨answer, tree₁, hwrite, hdumped⟩ : ∃ answer tree₁,
      dumpOnRequest access codec log s c tree = (answer, tree₁) ∧
      ((∃ e, answer = .error (.file e)) ∨ Dumped codec s c tree tree₁) := by
    cases hdump : s.dump with
    | false =>
      refine ⟨.ok (), tree, ?_, .inr ⟨fun _ => rfl, fun other _ => by simp [dumpPlace?, hdump]⟩⟩
      simp only [dumpOnRequest, hdump]
      rfl
    | true =>
      simp only [dumpOnRequest, hdump, if_true]
      exact ⟨_, _, rfl, writeDump_cases hlog hdump tree⟩
  cases answer with
  | error e =>
    refine ⟨[], some e, tree₁, ?_, ?_⟩
    · simp only [conclude, bind, StateT.bind, hwrite, List.append_nil]
      rfl
    · rcases hdumped with ⟨e', he⟩ | hdumped
      · cases he
        exact .inl ⟨e', rfl⟩
      · exact .inr hdumped
  | ok u =>
    have hdumped : Dumped codec s c tree tree₁ := by
      rcases hdumped with ⟨e, he⟩ | hdumped
      · cases he
      · exact hdumped
    cases hrun : o.run with
    | false =>
      refine ⟨[], none, tree₁, ?_, .inr hdumped⟩
      simp only [conclude, bind, StateT.bind, hwrite, hrun, List.append_nil]
      rfl
    | true =>
      -- Running the program writes no file.
      let r := runClass c.artifact.bytes input {} limit
      refine ⟨r.output.bytes, r.error.map .run, (log.info ("run " ++ c.artifact.program) tree₁).2,
        ?_, .inr (hdumped.logged hlog _)⟩
      simp only [conclude, bind, StateT.bind, hwrite, hrun, if_true, runInto]
      rfl

/-- The class is written to the place of the path that is reported. -/
theorem run_of_compiles (h : Compiles lib arguments tree o s c) :
    ∃ log tree₁ tree₂ place, Starts lib arguments tree o s log tree₁ ∧
      tree₁.place? c.artifact.path = some place ∧ tree₁.Sets place c.artifact.bytes tree₂ ∧
      run access lib arguments input limit tree =
        conclude access lib.codec log o s c input limit tree₂ := by
  obtain ⟨log, tree₁, text, p, hs, hread, hparse, hc⟩ := h
  rcases p.compile_outcomes (ClassStore.write ⟨s.dir, s.extension⟩ access) tree₁ with
    ⟨e, hfail⟩ | ⟨_, context, data, listing, -, ⟨cause, tree₂, -, hfail⟩ | ⟨path, tree₂, hstore, hok⟩⟩
  · rw [hfail] at hc
    cases hc
  · rw [hfail] at hc
    cases hc
  rcases FileTree.store_write_cases ⟨s.dir, s.extension⟩ p.name data tree₁ with
    ⟨e, hrefused⟩ | ⟨place, tree₃, hwritten, hplace, hsets⟩
  · cases hrefused.symm.trans hstore
  cases hwritten.symm.trans hstore
  have hcompile := compileFrom_of_parse hread hparse hok
  rw [hok] at hc
  cases hc
  exact ⟨log, tree₁, tree₂, place, hs, hplace, hsets, run_of_compileFrom_ok input limit hs hcompile⟩

/-- What the command does to files, apart from its log, whatever reads its settings. Where it fails
on its options, on its settings, on reading the source or in the compilation, it writes nothing.
Where the compilation and all writing succeed, it has written the class to the path it reports and
nothing but the dump besides; so the class is there unless the dump goes to the same place, where it
replaces the class. -/
theorem run_writes_class_and_dump {lib : Libraries (StateM FileTree)}
    (hlogger : lib.logger.KeepsToFile) (hcodec : lib.codec.IsCanonical) (arguments : List Bytes)
    (input : Input) (limit : Nat) (tree : FileTree) :
    let report := (run access lib arguments input limit tree).1
    let tree' := (run access lib arguments input limit tree).2
    (∀ e, Fails lib arguments tree e → report.error = some e ∧ report.stdout = [] ∧
      ∀ place, logPlace? lib arguments tree ≠ some place → tree'.node? place = tree.node? place) ∧
    ∀ o s c, Compiles lib arguments tree o s c → (∀ e, report.error ≠ some (.file e)) →
      (∃ output,
        report.stdout = "Compiled " ++ o.input ++ " to " ++ c.artifact.path ++ "\n" ++ output) ∧
      ∃ place, tree'.place? c.artifact.path = some place ∧
        (∀ other, logPlace? lib arguments tree ≠ some other → tree'.node? other =
          if dumpPlace? lib.codec s c tree' = some other then
            (c.dump lib.codec).toOption.map .file
          else if other = place then some (.file c.artifact.bytes)
          else tree.node? other) ∧
        (logPlace? lib arguments tree ≠ some place →
          (tree'.read c.artifact.path = .ok c.artifact.bytes ↔
            dumpPlace? lib.codec s c tree' ≠ some place)) := by
  intro report tree'
  refine ⟨fun e he => ?_, fun o s c hcompiles hwritten => ?_⟩
  · obtain ⟨tree₁, stderr, hrun, hagrees⟩ := run_of_fails input limit hlogger he
    simp only [report, tree', hrun]
    exact ⟨trivial, trivial, hagrees.nodes⟩
  obtain ⟨log, tree₁, tree₂, place, hs, hplace, hclass, hrun⟩ := run_of_compiles input limit hcompiles
  obtain ⟨hagrees, hlog⟩ := openLog_eq_ok hlogger hs.logged
  obtain ⟨output, error, tree₃, hconclude, hend⟩ := conclude_cases input limit hlog o c tree₂
  rw [hconclude] at hrun
  have hreport : report = { stdout := announce o c ++ output, error } := congrArg Prod.fst hrun
  have htree : tree' = tree₃ := congrArg Prod.snd hrun
  rcases hend with ⟨e, he⟩ | hdumped
  · refine absurd ?_ (hwritten e)
    rw [hreport, he]
  have hpaths : tree₂.place? = tree.place? :=
    funext fun path => (hclass.place?_eq path).trans (hagrees.places path)
  have hlogPlace : (logFile? s).bind tree₂.place? = logPlace? lib arguments tree := by
    rw [logPlace?_of_starts hs, hpaths]
  have hplace' : tree'.place? c.artifact.path = some place := by
    rw [htree, hdumped.places, hclass.place?_eq, hplace]
  have hnodes : ∀ other, logPlace? lib arguments tree ≠ some other → tree'.node? other =
      if dumpPlace? lib.codec s c tree' = some other then (c.dump lib.codec).toOption.map .file
      else if other = place then some (.file c.artifact.bytes) else tree.node? other := by
    intro other hother
    rw [htree, hdumped.nodes other (hlogPlace ▸ hother), hclass.node,
      (hs.agreesBut hlogger).nodes other hother]
  obtain ⟨listing, hlisting⟩ : ∃ listing, announce o c =
      "Compiled " ++ o.input ++ " to " ++ c.artifact.path ++ "\n" ++ listing := ⟨_, rfl⟩
  refine ⟨⟨listing ++ output, ?_⟩, place, hplace', hnodes, fun hother => ?_⟩
  · rw [hreport, hlisting, List.append_assoc]
  · obtain ⟨_, _, _, _, -, -, -, hok⟩ := hcompiles
    have hdiffer := Program.dump_ne_bytes hcodec hok
    rw [FileTree.read_eq_ok hplace', hnodes place hother, if_pos rfl]
    split
    · next hsame =>
      refine iff_of_false (fun hfile => ?_) (fun hne => hne hsame)
      cases hdata : c.dump lib.codec with
      | error cause =>
        rw [hdata] at hfile
        cases hfile
      | ok data =>
        rw [hdata] at hfile hdiffer
        cases hfile
        exact hdiffer rfl
    · next hne => exact iff_of_true rfl hne

/-- A program that does nothing. -/
def idleSource : Bytes := "PROGRAM G\nDECLARE\nBEGIN\nEND\n"

theorem parse_idleSource : Program.parse idleSource = .ok ⟨"G", [], []⟩ := by cbv

def idleOptions : Options where
  input := "g.kc"
  dump := true

theorem parse_idleOptions : Options.parse ["-dump", "g.kc"] = .ok idleOptions := by cbv

/-- The source, and settings by which there is a log. -/
def loggedTree : FileTree where
  nodes := [(["g.kc"], .file idleSource),
    (["knightcode.toml"], .file "log.verbosity=1\nlog.file=\"kcc.log\"")]

set_option maxRecDepth 10000 in
theorem run_writes_class_and_dump_loggedTree :
    let lib := Libraries.standard access
    let tree' := (run access lib ["-dump", "g.kc"] { rest := [] } 0 loggedTree).2
    lib.logger.KeepsToFile ∧ lib.codec.IsCanonical ∧
    ∃ o s c, Compiles lib ["-dump", "g.kc"] loggedTree o s c ∧
      (∀ e, (run access lib ["-dump", "g.kc"] { rest := [] } 0 loggedTree).1.error ≠
        some (.file e)) ∧
      logPlace? lib ["-dump", "g.kc"] loggedTree = some [("kcc.log" : Bytes)] ∧
      dumpPlace? lib.codec s c tree' = some [("G.dump.cbor" : Bytes)] ∧
      tree'.read "G.class" = .ok c.artifact.bytes := by
  intro lib tree'
  let s : Settings :=
    { dir := ".", verbosity := 1, logFile := "kcc.log", dump := true, path := "knightcode.toml" }
  have hlogger : lib.logger.KeepsToFile := Logger.appending_keepsToFile
  have hcodec : lib.codec.IsCanonical := Dump.cbor_isCanonical
  have hsettings : (settings access lib.settings idleOptions loggedTree).1 = .ok s := by cbv
  have hopened : resultIs (fun _ => true) (openLog lib.logger s loggedTree).1 = true := by cbv
  have hread : (openLog lib.logger s loggedTree).2.read "g.kc" = .ok idleSource := by cbv
  have hcompile : resultIs (fun c => c.artifact.path == ("G.class" : Bytes) &&
      c.artifact.program == ("G" : Bytes))
      (Program.compile (ClassStore.write ⟨s.dir, s.extension⟩ access) ⟨"G", [], []⟩
        (openLog lib.logger s loggedTree).2).1 = true := by cbv
  -- The run is a single argument here, so it is evaluated once.
  have hrun : (fun ended : CommandReport × FileTree => (ended.1.error, ended.2.place? "G.class",
      ended.2.place? "G.dump.cbor")) (run access lib ["-dump", "g.kc"] { rest := [] } 0 loggedTree) =
        (none, some [("G.class" : Bytes)], some [("G.dump.cbor" : Bytes)]) := by cbv
  obtain ⟨herror, hclass, hdump⟩ : _ ∧ _ ∧ _ := by simpa only [Prod.mk.injEq] using hrun
  obtain ⟨log, hlogged, -⟩ := of_resultIs hopened
  obtain ⟨c, hc, hnames⟩ := of_resultIs hcompile
  obtain ⟨hpath, hprogram⟩ := Bool.and_eq_true_iff.mp hnames
  have hstarts : Starts lib ["-dump", "g.kc"] loggedTree idleOptions s log _ :=
    ⟨parse_idleOptions, hsettings, Prod.ext hlogged rfl⟩
  have hcompiles : Compiles lib ["-dump", "g.kc"] loggedTree idleOptions s c :=
    ⟨log, _, _, _, hstarts, hread, parse_idleSource, hc⟩
  have hwritten (e : FileError) :
      (run access lib ["-dump", "g.kc"] { rest := [] } 0 loggedTree).1.error ≠ some (.file e) := by
    rw [herror]
    exact (Option.some_ne_none _).symm
  have hlog : logPlace? lib ["-dump", "g.kc"] loggedTree = some [("kcc.log" : Bytes)] := by
    rw [logPlace?_of_starts hstarts]
    decide
  have hdumped : dumpPlace? lib.codec s c tree' = some [("G.dump.cbor" : Bytes)] := by
    rw [← hdump, dumpPlace?, beq_iff_eq.mp hprogram]
    rfl
  obtain ⟨-, hall⟩ :=
    run_writes_class_and_dump hlogger hcodec ["-dump", "g.kc"] { rest := [] } 0 loggedTree
  obtain ⟨-, place, hplace, -, hiff⟩ := hall idleOptions s c hcompiles hwritten
  rw [beq_iff_eq.mp hpath] at hplace hiff
  cases hclass.symm.trans hplace
  refine ⟨hlogger, hcodec, idleOptions, s, c, hcompiles, hwritten, hlog, hdumped, ?_⟩
  refine (hiff ?_).mpr ?_
  · rw [hlog]
    decide
  · change dumpPlace? lib.codec s c tree' ≠ _
    rw [hdumped]
    decide

/-- The source, and settings by which class files have the extension of dumps. -/
def overlaidTree : FileTree where
  nodes := [(["g.kc"], .file idleSource),
    (["knightcode.toml"], .file "output.extension=\"dump.cbor\"")]

set_option maxRecDepth 10000 in
theorem class_replaced_by_dump :
    let lib := Libraries.standard access
    ∃ o s c, Compiles lib ["-dump", "g.kc"] overlaidTree o s c ∧
      (run access lib ["-dump", "g.kc"] { rest := [] } 0 overlaidTree).1 =
        { stdout := "Compiled g.kc to G.dump.cbor\n" } ∧
      c.artifact.path = "G.dump.cbor" ∧
      (run access lib ["-dump", "g.kc"] { rest := [] } 0 overlaidTree).2.read "G.dump.cbor" ≠
        .ok c.artifact.bytes := by
  intro lib
  let s : Settings :=
    { dir := ".", extension := "dump.cbor", dump := true, path := "knightcode.toml" }
  have hsettings : (settings access lib.settings idleOptions overlaidTree).1 = .ok s := by cbv
  have hstarts : Starts lib ["-dump", "g.kc"] overlaidTree idleOptions s ⟨fun _ => pure ()⟩
      overlaidTree := ⟨parse_idleOptions, hsettings, rfl⟩
  have hcompile : resultIs (fun c => c.artifact.path == ("G.dump.cbor" : Bytes) &&
      c.artifact.bytes.head? == some 0xca)
      (Program.compile (ClassStore.write ⟨s.dir, s.extension⟩ access) ⟨"G", [], []⟩
        overlaidTree).1 = true := by cbv
  have hrun : (fun ended : CommandReport × FileTree => (ended.1, ended.2.read "G.dump.cbor"))
      (run access lib ["-dump", "g.kc"] { rest := [] } 0 overlaidTree) =
        ({ stdout := "Compiled g.kc to G.dump.cbor\n" },
          .ok (Dump.encode ⟨"G", [], some ["\treturn"]⟩)) := by cbv
  obtain ⟨c, hc, hclass⟩ := of_resultIs hcompile
  obtain ⟨hpath, hhead⟩ := Bool.and_eq_true_iff.mp hclass
  refine ⟨idleOptions, s, c, ⟨_, overlaidTree, _, _, hstarts, rfl, parse_idleSource, hc⟩,
    congrArg Prod.fst hrun, beq_iff_eq.mp hpath, fun hread => ?_⟩
  have heq := (congrArg Prod.snd hrun).symm.trans hread
  rw [← Except.ok.inj heq] at hhead
  cases hhead

end Command

end ClassForge
