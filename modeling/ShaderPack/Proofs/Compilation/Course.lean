import ShaderPack.Proofs.Compilation.Outputs

namespace ShaderPack.Compilation

open Journal (Entry Event)

/-!
# Compilations — the course of their states

A compilation that does not fail goes along one `course` of states and records each transition.
What it records in between is `Quiet`: no transition, and no report of a failed compilation.  So
the events build up step by step.  They have `Reached` a state; quiet events leave them there, a
transition takes them to the next state, and with a failure they have `FailedAfter` a state for
good.

* `course_of_compilation` — a compilation comes to the end of its course or fails after a state
  that fits the failure, which is reported once, right before the transition to `failed`.
-/

variable {σ : Type} {events more : List Event} {state next goal : State} {failure : Failure}
  {result : Except Failure CompiledShader}

/-! ### Transitions -/

/-- The states of a compilation that does not fail, in order. -/
def course : List State :=
  [.start, .dialectSelected, .optimized, .modernized, .scanned, .serialized]

/-- The course up to a state. -/
def courseTo (state : State) : List State := course.take (course.idxOf state + 1)

/-- The transitions between states that are visited one after the other. -/
def steps (visited : List State) : List (State × State) := visited.zip visited.tail

/-- The transition that an event records. -/
def transition? : Event → Option (State × State)
  | .entered before after => some (before, after)
  | _ => none

/-- The transitions that events record. -/
def transitions (events : List Event) : List (State × State) := events.filterMap transition?

theorem transitions_append (events more : List Event) :
    transitions (events ++ more) = transitions events ++ transitions more :=
  List.filterMap_append

/-- Each transition begins where the one before it ends. -/
theorem isChain_steps (visited : List State) :
    (steps visited).IsChain fun earlier later => earlier.2 = later.1 := by
  induction visited with
  | nil => exact .nil
  | cons first rest ih =>
    match rest with
    | [] => exact .nil
    | [_] => exact .singleton _
    | _ :: _ :: _ => exact .cons_cons rfl ih

/-- One more state is one more transition. -/
theorem steps_concat {visited : List State} (h : visited.getLast? = some state) (next : State) :
    steps (visited ++ [next]) = steps visited ++ [(state, next)] := by
  induction visited with
  | nil => cases h
  | cons first rest ih =>
    cases rest with
    | nil =>
      obtain rfl : first = state := by simpa using h
      rfl
    | cons second rest =>
      rw [List.getLast?_cons_cons] at h
      exact congrArg ((first, second) :: ·) (ih h)

theorem mem_of_mem_steps {visited : List State} (h : (state, next) ∈ steps visited) :
    next ∈ visited :=
  List.mem_of_mem_tail (List.of_mem_zip h).2

theorem failed_not_mem_courseTo (state : State) : .failed ∉ courseTo state := by
  have hcourse : .failed ∉ course := by decide
  exact mt (fun h => List.take_subset _ _ h) hcourse

theorem getLast?_courseTo (h : state ∈ course) : (courseTo state).getLast? = some state := by
  revert h
  cases state <;> decide

theorem courseTo_next (h : [state, next] <:+: course) :
    courseTo next = courseTo state ++ [next] := by
  revert h
  cases state <;> cases next <;> decide

example : steps (courseTo .optimized) =
    [(.start, .dialectSelected), (.dialectSelected, .optimized)] := by decide

/-! ### Reports of a failure -/

/-- The entry is an error of the compilation itself, and not of one of its parts. -/
def isReport (entry : Entry) : Bool :=
  entry.severity = .error && entry.source = "galaxy3d::shaderc::Compiler"

/-- Only one kind of event makes reports. -/
@[simp]
theorem isReport_entry {event : Event} :
    isReport event.entry ↔ ∃ state failure, event = .failed state failure := by
  cases event <;> simp [isReport, Event.entry, Event.severity, Event.source]

/-- The reports of a failed compilation among the entries of events. -/
def reports (events : List Event) : List Entry := (events.map Event.entry).filter isReport

theorem reports_append (events more : List Event) :
    reports (events ++ more) = reports events ++ reports more := by
  rw [reports, List.map_append, List.filter_append]
  rfl

/-- The entry is a located error that names the state and the failure. -/
structure Tells (entry : Entry) (state : State) (failure : Failure) : Prop where
  severity : entry.severity = .error
  isLocated : entry.isLocated
  message :
    entry.message = "Compilation failed after " ++ state.name ++ ": " ++ failure.message

theorem tells_failed (state : State) (failure : Failure) :
    Tells (Event.failed state failure).entry state failure :=
  ⟨rfl, rfl, rfl⟩

/-! ### Quiet events -/

/-- Events between two transitions. -/
def Quiet (events : List Event) : Prop :=
  ∀ event ∈ events, transition? event = none ∧ ¬isReport event.entry

theorem Quiet.append (h : Quiet events) (hmore : Quiet more) : Quiet (events ++ more) :=
  List.forall_mem_append.mpr ⟨h, hmore⟩

theorem Quiet.transitions_eq (h : Quiet events) : transitions events = [] :=
  List.filterMap_eq_nil_iff.mpr fun event hevent => (h event hevent).1

theorem Quiet.reports_eq (h : Quiet events) : reports events = [] := by
  rw [reports, List.filter_eq_nil_iff, List.forall_mem_map]
  exact fun event hevent => (h event hevent).2

/-- Events of the same kind, which is a quiet one. -/
theorem quiet_map {α : Type} {items : List α} {kind : α → Event}
    (h : ∀ item, transition? (kind item) = none ∧ ¬isReport (kind item).entry) :
    Quiet (items.map kind) :=
  List.forall_mem_map.mpr fun item _ => h item

theorem quiet_singleton {event : Event}
    (h : transition? event = none ∧ ¬isReport event.entry) : Quiet [event] :=
  List.forall_mem_singleton.mpr h

theorem quiet_toList {α : Type} {item? : Option α} {kind : α → Event}
    (h : ∀ item, transition? (kind item) = none ∧ ¬isReport (kind item).entry) :
    Quiet (item?.map kind).toList := by
  rw [Option.toList_map]
  exact quiet_map h

theorem quiet_nil : Quiet [] := fun _ h => absurd h List.not_mem_nil

theorem quiet_findings (f : Recovery.Findings) : Quiet f.events := by
  refine (quiet_map fun b => by simp [transition?]).append ?_
  cases f.ending with
  | complete => exact quiet_nil
  | headerEnd offset word => exact quiet_singleton (by simp [transition?])
  | malformed cause => exact quiet_singleton (by simp [transition?])

theorem quiet_encodeEvents (p : PackedShader) : Quiet p.encodeEvents := by
  have hrecords : Quiet ((p.bindings.toList.takeWhile Pack.nameFits).map .recorded) :=
    quiet_map fun b => by simp [transition?]
  have hunwritten (fault : Pack.WriteFault) : Quiet [.unwritten fault] :=
    quiet_singleton (by simp [transition?])
  unfold PackedShader.encodeEvents
  split
  · exact hrecords
  · exact hrecords.append (hunwritten _)
  · exact hunwritten _

theorem quiet_removalEvents (path : String) (removed : Except FileError FileTree) :
    Quiet (removalEvents path removed) := by
  unfold removalEvents
  split
  · exact quiet_singleton (by simp [transition?])
  · exact quiet_nil
  · exact quiet_singleton (by simp [transition?])

/-! ### Step by step -/

/-- The events lead along the course to a state, and no failure is reported. -/
structure Reached (state : State) (events : List Event) : Prop where
  transitions_eq : transitions events = steps (courseTo state)
  reports_eq : reports events = []

/-- The states after which a compilation can fail, and the failures that it can have there. -/
inductive Fits : State → Failure → Prop
  | rejected (line column : UInt32) (log : String) :
    Fits .dialectSelected (.rejected line column log)
  | malformed (cause : String) : Fits .modernized (.malformed cause)
  | unwritten (cause : String) : Fits .scanned (.unwritten cause)

/-- The events lead along the course to a state and from there to `failed`.  The failure is
    reported right before this last transition, and there is no other report. -/
structure FailedAfter (state : State) (failure : Failure) (events : List Event) : Prop where
  fits : Fits state failure
  transitions_eq : transitions events = steps (courseTo state ++ [.failed])
  reported : ∃ entry, Tells entry state failure ∧ reports events = [entry] ∧
    [entry, (Event.entered state .failed).entry] <:+: events.map Event.entry

theorem Fits.mem_course (h : Fits state failure) : state ∈ course := by
  cases h <;> decide

theorem Fits.ne_serialized (h : Fits state failure) : state ≠ .serialized := by
  cases h <;> decide

theorem reached_start : Reached .start [] := ⟨rfl, rfl⟩

theorem Reached.quiet (h : Reached state events) (hmore : Quiet more) :
    Reached state (events ++ more) where
  transitions_eq := by
    rw [transitions_append, hmore.transitions_eq, List.append_nil, h.transitions_eq]
  reports_eq := by rw [reports_append, h.reports_eq, hmore.reports_eq, List.append_nil]

/-- A transition to the next state of the course. -/
theorem Reached.enter (h : Reached state events) (next : State)
    (hnext : [state, next] <:+: course) : Reached next (events ++ [.entered state next]) where
  transitions_eq := by
    have hlast := getLast?_courseTo (hnext.subset List.mem_cons_self)
    rw [transitions_append, h.transitions_eq, courseTo_next hnext, steps_concat hlast]
    rfl
  reports_eq := by
    rw [reports_append, h.reports_eq]
    rfl

/-- A failure that fits the state. -/
theorem Reached.fail (h : Reached state events) (hfits : Fits state failure) :
    FailedAfter state failure (events ++ failing state failure) where
  fits := hfits
  transitions_eq := by
    rw [transitions_append, h.transitions_eq, steps_concat (getLast?_courseTo hfits.mem_course)]
    rfl
  reported := by
    refine ⟨_, tells_failed state failure, ?_, ?_⟩
    · rw [reports_append, h.reports_eq]
      rfl
    · rw [List.map_append]
      exact List.infix_append' (events.map Event.entry) _ []

theorem FailedAfter.quiet (h : FailedAfter state failure events) (hmore : Quiet more) :
    FailedAfter state failure (events ++ more) where
  fits := h.fits
  transitions_eq := by
    rw [transitions_append, hmore.transitions_eq, List.append_nil, h.transitions_eq]
  reported := by
    obtain ⟨entry, htells, hreports, hinfix⟩ := h.reported
    refine ⟨entry, htells, ?_, ?_⟩
    · rw [reports_append, hreports, hmore.reports_eq, List.append_nil]
    · rw [List.map_append]
      exact hinfix.trans (List.prefix_append _ _).isInfix

/-! ### Runs -/

/-- A run comes to its goal, or fails short of it. -/
inductive Runs (goal : State) : Except Failure CompiledShader → List Event → Prop
  | reached {shader : CompiledShader} {events : List Event} (h : Reached goal events) :
    Runs goal (.ok shader) events
  | failed {state : State} {failure : Failure} {events : List Event} (hshort : state ≠ goal)
    (h : FailedAfter state failure events) : Runs goal (.error failure) events

theorem Runs.failedAfter (h : Runs goal (.error failure) events) :
    ∃ state, FailedAfter state failure events := by
  cases h with
  | failed hshort h => exact ⟨_, h⟩

theorem Runs.reached_of_ok {shader : CompiledShader} (h : Runs goal (.ok shader) events) :
    Reached goal events := by
  cases h with
  | reached h => exact h

theorem Runs.linked (h : Runs goal result events) :
    (transitions events).IsChain fun earlier later => earlier.2 = later.1 := by
  cases h with
  | reached h => exact h.transitions_eq ▸ isChain_steps _
  | failed hshort h => exact h.transitions_eq ▸ isChain_steps _

/-- **A run fails exactly if its last transition leads to `failed`.** -/
theorem Runs.error_iff (h : Runs goal result events) :
    (∃ failure, result = .error failure) ↔
      ∃ state, (transitions events).getLast? = some (state, .failed) := by
  cases h with
  | reached h =>
    refine iff_of_false (by simp) fun ⟨state, hlast⟩ => ?_
    rw [h.transitions_eq] at hlast
    exact failed_not_mem_courseTo goal (mem_of_mem_steps (List.mem_of_getLast? hlast))
  | @failed state failure events hshort h =>
    refine iff_of_true ⟨failure, rfl⟩ ⟨state, ?_⟩
    rw [h.transitions_eq, steps_concat (getLast?_courseTo h.fits.mem_course),
      List.getLast?_concat]

section Compile

variable (optimize : Optimizer) (r : Request) (w : Writer σ) (s : σ) (call : Call)

theorem runs_reject (h : Reached .dialectSelected events) (log : String) :
    Runs .scanned (reject call log w s).result (events ++ (reject call log w s).events) := by
  unfold reject
  have hshort : State.dialectSelected ≠ .scanned := by decide
  refine .failed hshort ?_
  rw [← List.append_assoc]
  exact (h.quiet (quiet_toList fun reason => by simp [transition?])).fail (.rejected ..)

theorem runs_finish (h : Reached .dialectSelected events) (optimized : String) :
    Runs .scanned (finish call optimized s).result
      (events ++ (finish call optimized s).events) := by
  have hoptimized := h.enter .optimized (by decide)
  have hmodernized := hoptimized.enter .modernized (by decide)
  unfold finish
  extract_lets source findings started
  -- what the search found is recorded before its end is looked at
  have hsearched := hmodernized.quiet (quiet_findings findings)
  simp only [List.append_assoc, List.cons_append, List.nil_append] at hsearched
  cases findings.table with
  | error cause =>
    have hfailed := hsearched.fail (.malformed cause.message)
    rw [List.append_assoc] at hfailed
    exact .failed (by decide) hfailed
  | ok bindings =>
    have hscanned := hsearched.enter .scanned (by decide)
    have hquiet : Quiet [.compiled bindings.length (Bytes.utf8 source).length] :=
      quiet_singleton (by simp [transition?])
    have hreached := hscanned.quiet hquiet
    simp only [List.append_assoc] at hreached
    exact .reached hreached

/-- **A compilation** runs to `scanned`. -/
theorem runs_compile :
    Runs .scanned (compile optimize r w s).result (compile optimize r w s).events := by
  have hquiet : Quiet [.targeted r.stage (.select r.version r.platform)] :=
    quiet_singleton (by simp [transition?])
  have hselected := (reached_start.enter .dialectSelected (by decide)).quiet hquiet
  unfold compile
  cases hoptimize : optimize r.stage (.select r.version r.platform) r.source with
  | error log =>
    simp only [hoptimize]
    exact runs_reject w s _ hselected log
  | ok optimized =>
    simp only [hoptimize]
    exact runs_finish s _ hselected optimized

end Compile

/-! ### Runs to files -/

section CompileToFile

variable (split : Splitting) (optimize : Optimizer) (r : Request) (o : Output) (w : Writer σ)
  (s : σ) (t : FileTree)

/-- Removing the outputs is quiet. -/
theorem events_discard (out : FileOutcome σ) (closing : List Event) :
    ∃ removals, Quiet removals ∧
      (discard o out closing).events = out.events ++ removals ++ closing := by
  let left := out.tree.performOrKeep (.remove o.path)
  refine ⟨removalEvents o.path (out.tree.perform (.remove o.path)) ++
      removalEvents o.disassemblyPath (left.perform (.remove o.disassemblyPath)),
    (quiet_removalEvents _ _).append (quiet_removalEvents _ _), ?_⟩
  rw [← List.append_assoc]
  rfl

theorem runs_discard {out : FileOutcome σ} (hresult : out.result = .error failure)
    (h : FailedAfter state failure out.events) :
    Runs .serialized (discard o out []).result (discard o out []).events := by
  obtain ⟨removals, hquiet, hevents⟩ := events_discard o out []
  rw [result_discard, hresult, hevents, List.append_nil]
  exact .failed h.fits.ne_serialized (h.quiet hquiet)

theorem runs_failScanned {out : FileOutcome σ} (h : Reached .scanned out.events)
    (hfits : Fits .scanned failure) :
    Runs .serialized (failScanned o out failure).result (failScanned o out failure).events := by
  unfold failScanned
  obtain ⟨removals, hquiet, hevents⟩ :=
    events_discard o { out with result := .error failure } (failing .scanned failure)
  rw [result_discard, hevents]
  exact .failed (by decide) ((h.quiet hquiet).fail hfits)

theorem reached_saveSide {out : FileOutcome σ} {source : String} (h : Reached goal out.events) :
    Reached goal (saveSide split o source out).events := by
  unfold saveSide
  split
  · exact h.quiet (quiet_toList fun e => by simp [transition?])
  · exact h

/-- **A compilation to files** runs to `serialized`. -/
theorem runs_compileToFile :
    Runs .serialized (compileToFile split optimize r o w s t).result
      (compileToFile split optimize r o w s t).events := by
  have hcompile := runs_compile optimize r w s
  have hends := compileToFile_ends split optimize r o w s t
  generalize compileToFile split optimize r o w s t = final at hends ⊢
  -- the events of the compilation itself come first in all four cases
  cases hends with
  | failed hresult =>
    rw [hresult] at hcompile
    obtain ⟨state, hfailed⟩ := hcompile.failedAfter
    exact runs_discard o hresult hfailed
  | unpacked hresult hencode =>
    rw [hresult] at hcompile
    exact runs_failScanned o (hcompile.reached_of_ok.quiet (quiet_encodeEvents _)) (.unwritten _)
  | unsaved hresult hencode hsaved =>
    rw [hresult] at hcompile
    exact runs_failScanned o (hcompile.reached_of_ok.quiet (quiet_encodeEvents _)) (.unwritten _)
  | @saved shader bytes hresult hencode hsaved =>
    rw [hresult] at hcompile
    have hscanned := hcompile.reached_of_ok.quiet (quiet_encodeEvents shader.packed)
    have hserialized := hscanned.enter .serialized (by decide)
    rw [result_saveSide, show (attempted optimize r w s t _ _).result = _ from hresult]
    exact .reached (reached_saveSide split o hserialized)

end CompileToFile

/-! ### The course of a compilation -/

/-- What a run to the goal records of its states: it keeps to the course, each transition
    begins where the one before it ends, and the last one leads to `failed` exactly if the run
    fails. -/
structure Lifecycle (goal : State) (result : Except Failure CompiledShader)
    (events : List Event) : Prop where
  runs : Runs goal result events
  linked : (transitions events).IsChain fun earlier later => earlier.2 = later.1
  error_iff : (∃ failure, result = .error failure) ↔
    ∃ state, (transitions events).getLast? = some (state, .failed)

theorem Runs.lifecycle (h : Runs goal result events) : Lifecycle goal result events :=
  ⟨h, h.linked, h.error_iff⟩

/-- **The states of a compilation.** A compilation goes from `start` along the course to
    `scanned`, and a compilation to files to `serialized`; or it stops short of that after a
    state that fits the failure, reports this once, and goes to `failed`. -/
theorem course_of_compilation (split : Splitting) (optimize : Optimizer) (r : Request)
    (o : Output) (w : Writer σ) (s : σ) (t : FileTree) :
    let made := compile optimize r w s
    let saved := compileToFile split optimize r o w s t
    Lifecycle .scanned made.result made.events ∧
      Lifecycle .serialized saved.result saved.events :=
  ⟨(runs_compile optimize r w s).lifecycle,
    (runs_compileToFile split optimize r o w s t).lifecycle⟩

end ShaderPack.Compilation
