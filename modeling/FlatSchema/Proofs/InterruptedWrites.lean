import FlatSchema.Proofs.Rendering

/-!
# Interrupted writes

The files of a schema are rendered before the first of them is written, so a schema that breaks a rule leaves no trace. They are then
written one after the other, up to the first that the sink refuses: whatever a sink does, what it has received is a first part of the
files (`Sink.exists_wrote`), and how long that part is depends only on the sink (`Sink.TakesThenRefuses.wrote`).
-/

namespace FlatSchema

namespace Sink

variable {σ : Type} {sink : Sink σ} {output : String} {start : σ} {f : OutputFile} {files : List OutputFile} {k : Nat}

/-- A sink takes paths with their contents, one after the other, and goes from state to state. -/
inductive Received (sink : Sink σ) : σ → List (String × String) → σ → Prop
  | nil (state : σ) : Received sink state [] state
  | cons {state next last : σ} {path contents : String} {rest : List (String × String)}
    (hsave : sink.save state path contents = .ok next) (hrest : Received sink next rest last) :
    Received sink state ((path, contents) :: rest) last

/-- A sink that takes a number of files, whatever they are, and then refuses every file. -/
def TakesThenRefuses (sink : Sink σ) : Nat → σ → Prop
  | 0, state => ∀ path contents, ∃ cause, sink.save state path contents = .error (.io path cause)
  | k + 1, state => ∀ path contents, ∃ next, sink.save state path contents = .ok next ∧ TakesThenRefuses sink k next

/-- What a sink is handed for a file below a directory. -/
def handed (output : String) (f : OutputFile) : String × String := (Path.join output f.path, f.contents)

/-- What was written if all files were: their paths in order, and the lines of all of them. -/
def summary (output : String) (files : List OutputFile) : Summary where
  paths := files.map fun f => Path.join output f.path
  lines := (files.map fun f => lineCount f.contents).foldr (· + ·) 0

/-- The outcome of writing files to a sink that takes the first `k` of them. -/
structure Wrote (sink : Sink σ) (output : String) (start : σ) (files : List OutputFile) (k : Nat)
    (outcome : σ × Except GenError Summary) : Prop where
  /-- The sink has received the first files in order and with their contents, and nothing else. -/
  received : sink.Received start ((files.take k).map (handed output)) outcome.1
  complete : files.length ≤ k → outcome.2 = .ok (summary output files)
  /-- The error is the one with which the next file is refused. -/
  refused : ∀ f, files[k]? = some f →
    ∃ e, sink.save outcome.1 (Path.join output f.path) f.contents = .error e ∧ outcome.2 = .error e
  /-- The files behind the one that is refused have no part in the outcome. -/
  abandoned : k < files.length → ∀ others, sink.writeAll output start (files.take (k + 1) ++ others) = outcome

/-! ## Writing one file -/

/-- A file that is not saved ends the run, and the state stays. -/
theorem writeAll_of_error {e : GenError} (h : sink.save start (Path.join output f.path) f.contents = .error e) :
    sink.writeAll output start (f :: files) = (start, .error e) := by
  rw [writeAll]
  simp only [h]

/-- A file that is saved is counted, and the run goes on from there. -/
theorem writeAll_of_ok {next : σ} (h : sink.save start (Path.join output f.path) f.contents = .ok next) :
    sink.writeAll output start (f :: files) =
      ((sink.writeAll output next files).1, (sink.writeAll output next files).2.map fun s =>
        { paths := Path.join output f.path :: s.paths, lines := lineCount f.contents + s.lines }) := by
  rw [writeAll]
  simp only [h]
  split
  next heq => rw [heq]; rfl
  next heq => rw [heq]; rfl

/-- Without files nothing is written. -/
theorem Wrote.nil : sink.Wrote output start [] k (sink.writeAll output start []) where
  received := by
    rw [List.take_nil]
    exact .nil start
  complete _ := rfl
  refused f hf := by cases hf
  abandoned hk := absurd hk (Nat.not_lt_zero k)

/-- A run that stops at its first file has written none. -/
theorem Wrote.of_error {e : GenError} (h : sink.save start (Path.join output f.path) f.contents = .error e) :
    sink.Wrote output start (f :: files) 0 (sink.writeAll output start (f :: files)) := by
  rw [writeAll_of_error h]
  refine ⟨.nil start, fun hlen => absurd hlen (Nat.not_succ_le_zero _), ?_, fun _ others => writeAll_of_error h⟩
  intro g hg
  cases hg
  exact ⟨e, h, rfl⟩

/-- A run that goes on has written one file more. -/
theorem Wrote.of_ok {next : σ} (h : sink.save start (Path.join output f.path) f.contents = .ok next)
    (hrest : sink.Wrote output next files k (sink.writeAll output next files)) :
    sink.Wrote output start (f :: files) (k + 1) (sink.writeAll output start (f :: files)) := by
  rw [writeAll_of_ok h]
  refine ⟨.cons h hrest.received, fun hlen => ?_, fun g hg => ?_, fun hk others => ?_⟩
  · dsimp only
    rw [hrest.complete (Nat.le_of_succ_le_succ hlen)]
    rfl
  · obtain ⟨e, hsave, herror⟩ := hrest.refused g hg
    refine ⟨e, hsave, ?_⟩
    dsimp only
    rw [herror]
    rfl
  · rw [List.take_succ_cons, List.cons_append, writeAll_of_ok h, hrest.abandoned (Nat.lt_of_succ_lt_succ hk) others]

/-! ## Writing all files -/

/-- Whatever a sink does, it receives a first part of the files. -/
theorem exists_wrote (sink : Sink σ) (output : String) :
    ∀ (files : List OutputFile) (start : σ), ∃ k, sink.Wrote output start files k (sink.writeAll output start files)
  | [], _ => ⟨0, .nil⟩
  | f :: files, start => by
    cases hsave : sink.save start (Path.join output f.path) f.contents with
    | error e => exact ⟨0, .of_error hsave⟩
    | ok next =>
      obtain ⟨k, hk⟩ := exists_wrote sink output files next
      exact ⟨k + 1, .of_ok hsave hk⟩

/-- A sink that takes a number of files receives so many. -/
theorem TakesThenRefuses.wrote : ∀ {files : List OutputFile} {k : Nat} {start : σ}, sink.TakesThenRefuses k start →
    sink.Wrote output start files k (sink.writeAll output start files)
  | [], _, _, _ => .nil
  | f :: files, 0, start, h => by
    obtain ⟨cause, hsave⟩ := h (Path.join output f.path) f.contents
    exact .of_error hsave
  | f :: files, k + 1, start, h => by
    obtain ⟨next, hsave, hnext⟩ := h (Path.join output f.path) f.contents
    exact .of_ok hsave hnext.wrote

/-- After the files that it takes, the sink refuses every file. -/
theorem TakesThenRefuses.refuses {last : σ} {writes : List (String × String)} (hreceived : sink.Received start writes last) :
    sink.TakesThenRefuses writes.length start →
      ∀ path contents, ∃ cause, sink.save last path contents = .error (.io path cause) := by
  induction hreceived with
  | nil => exact id
  | cons hsave _ ih =>
    intro h
    obtain ⟨next, hnext, hrest⟩ := h _ _
    rw [hsave, Except.ok.injEq] at hnext
    exact ih (hnext ▸ hrest)

/-- A limited sink over one that takes every file. -/
theorem limited_takesThenRefuses (h : ∀ state path contents, ∃ next, sink.save state path contents = .ok next) (refusal : String) :
    ∀ (k : Nat) (state : σ), (sink.limited refusal).TakesThenRefuses k (k, state)
  | 0, _ => fun _ _ => ⟨refusal, rfl⟩
  | k + 1, state => fun path contents => by
    obtain ⟨next, hnext⟩ := h state path contents
    refine ⟨(k, next), ?_, limited_takesThenRefuses h refusal k next⟩
    simp only [limited, hnext]
    rfl

end Sink

/-! ## Generation -/

namespace Target

variable {σ : Type} {t : Target} {s : Schema} {options : Options} {sink : Sink σ} {start : σ} {output : String}

/-- If rendering fails, nothing is written. -/
theorem generate_of_error {e : GenError} (h : t.render s options = .error e) :
    t.generate s options sink start output = (start, .error e) := by
  rw [generate, h, Sink.deliver]

/-- If rendering succeeds, its files are written. -/
theorem generate_of_ok {files : List OutputFile} (h : t.render s options = .ok files) :
    t.generate s options sink start output = sink.writeAll output start files := by
  rw [generate, h, Sink.deliver]

/-- A schema that is not valid is not rendered. -/
theorem render_of_invalid {e : LoadError} (h : s.validate = .error e) : t.render s options = .error (.schema e) := by
  rw [render, h]

end Target

/-- Generation writes a first part of the rendered files. If the schema breaks a rule or cannot be rendered, that part is empty, and
the error says why. If all files are taken, the outcome tells their paths and lines; otherwise it is the error of the file that is
refused, and no file behind that one counts. A sink that takes `k` files receives just the first `k`. -/
theorem Language.generate_writes_first (language : Language) (options : Options) (s : Schema) {σ : Type} (sink : Sink σ) (start : σ)
    (output : String) :
    (∀ e, s.validate = .error e →
      (language.target options).generate s options sink start output = (start, .error (.schema e))) ∧
    (s.validate = .ok () → s.Closed → ∃ files, (language.target options).render s options = .ok files) ∧
    (∀ e, (language.target options).render s options = .error e →
      (language.target options).generate s options sink start output = (start, .error e)) ∧
    ∀ files, (language.target options).render s options = .ok files →
      (∃ k, sink.Wrote output start files k ((language.target options).generate s options sink start output)) ∧
      ∀ k, sink.TakesThenRefuses k start →
        sink.Wrote output start files k ((language.target options).generate s options sink start output) ∧
        ∀ f, files[k]? = some f → ∃ cause,
          ((language.target options).generate s options sink start output).2 = .error (.io (Path.join output f.path) cause) := by
  refine ⟨fun e he => Target.generate_of_error (Target.render_of_invalid he), fun hvalid hclosed => ?_,
    fun e he => Target.generate_of_error he, fun files hfiles => ?_⟩
  · obtain ⟨files, hfiles, _⟩ := (language.target_total options hclosed).renders hvalid
    exact ⟨files, hfiles⟩
  · rw [Target.generate_of_ok hfiles]
    refine ⟨sink.exists_wrote output files start, fun k htakes => ?_⟩
    have hwrote : sink.Wrote output start files k (sink.writeAll output start files) := htakes.wrote
    refine ⟨hwrote, fun f hf => ?_⟩
    obtain ⟨e, hsave, herror⟩ := hwrote.refused f hf
    -- the first `k` files are all `k` files that the sink takes
    have hlength : ((files.take k).map (Sink.handed output)).length = k := by
      have hk : k < files.length := (List.getElem?_eq_some_iff.1 hf).1
      rw [List.length_map, List.length_take, Nat.min_eq_left (Nat.le_of_lt hk)]
    obtain ⟨cause, hcause⟩ := Sink.TakesThenRefuses.refuses hwrote.received (hlength.symm ▸ htakes) (Path.join output f.path) f.contents
    rw [hsave, Except.error.injEq] at hcause
    exact ⟨cause, hcause ▸ herror⟩

/-- A schema with a table in a namespace, which is one file and a marker. -/
def markedDoc : SchemaDoc where
  structs := [{ name := "T", scope := "a" }]

/-- Memory that takes a single file keeps the first of two, memory that takes two keeps both, and a table whose name is no identifier
gives nothing. -/
theorem markedDoc_interrupted : ∃ s files, Schema.ofDocument markedDoc = .ok s ∧ (Python.target {}).render s {} = .ok files ∧
    files.map (·.path) = ["a/T.py", "a/__init__.py"] ∧
    (∃ cause, ((Python.target {}).generate s {} (MemoryFiles.sink.limited "full") (1, []) "out").2 =
      .error (.io "out/a/__init__.py" cause)) ∧
    (MemoryFiles.sink.limited "full").Received (1, []) ((files.take 1).map (Sink.handed "out"))
      ((Python.target {}).generate s {} (MemoryFiles.sink.limited "full") (1, []) "out").1 ∧
    ((Python.target {}).generate s {} (MemoryFiles.sink.limited "full") (2, []) "out").2 = .ok (Sink.summary "out" files) ∧
    (Python.target {}).generate { structs := [{ name := "1" }] } {} (MemoryFiles.sink.limited "full") (2, []) "out" =
      ((2, []), .error (.schema (.violation (.badName .definition "1")))) := by
  obtain ⟨s, hs, hseen⟩ := Schema.exists_ofDocument markedDoc
    (fun s => ((Python.target {}).render s {}).toOption.map fun files => files.map (·.path))
    (some ["a/T.py", "a/__init__.py"]) (by decide +kernel)
  obtain ⟨names, declared, hloaded⟩ := Schema.ofDocument_loaded hs
  have htakes : ∀ k, (MemoryFiles.sink.limited "full").TakesThenRefuses k (k, []) := fun k =>
    Sink.limited_takesThenRefuses (fun files path contents => ⟨MemoryFiles.save path contents files, rfl⟩) "full" k []
  have hwrites := fun k => Language.python.generate_writes_first {} s (MemoryFiles.sink.limited "full") (k, []) "out"
  obtain ⟨files, hfiles⟩ := (hwrites 0).2.1 hloaded.valid hloaded.closed
  have hpaths : files.map (·.path) = ["a/T.py", "a/__init__.py"] := by
    have hrender : (Python.target {}).render s {} = .ok files := hfiles
    rw [hrender] at hseen
    exact Option.some.inj hseen
  obtain ⟨hone, hio⟩ := ((hwrites 1).2.2.2 files hfiles).2 1 (htakes 1)
  obtain ⟨htwo, _⟩ := ((hwrites 2).2.2.2 files hfiles).2 2 (htakes 2)
  have hlength : files.length = 2 := by rw [← List.length_map, hpaths]; rfl
  obtain ⟨marker, hmarker, hpath⟩ : ∃ marker, files[1]? = some marker ∧ marker.path = "a/__init__.py" := by
    have hget : (files.map (·.path))[1]? = some "a/__init__.py" := by rw [hpaths]; rfl
    rwa [List.getElem?_map, Option.map_eq_some_iff] at hget
  obtain ⟨cause, hcause⟩ := hio marker hmarker
  rw [hpath] at hcause
  refine ⟨s, files, hs, hfiles, hpaths, ⟨cause, hcause⟩, hone.received, htwo.complete (Nat.le_of_eq hlength), ?_⟩
  exact (Language.python.generate_writes_first {} { structs := [{ name := "1" }] } (MemoryFiles.sink.limited "full") (2, []) "out").1 _ rfl

end FlatSchema
