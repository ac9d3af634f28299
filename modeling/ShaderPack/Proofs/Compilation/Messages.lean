import ShaderPack.Compilation.Basic
import ShaderPack.Proofs.Writer.Delivery
import ShaderPack.Proofs.Writer.Moments
import ShaderPack.Writer.Script

namespace ShaderPack.Compilation

open Journal (Event)

/-!
# Compilations — the message writer has no say

The message writer is handed the `announcement` of a compilation and answers as it likes: it may
take the bytes a few at a time, be interrupted, fail, or take nothing at all.  The result, the call
of the optimizer and the journal are the same with every writer, except that a report which was
not taken whole leaves one warning.

What the writer has accepted is told by its answers: a report is a `Queue` of pieces, and `Reported`
is the way from its first moment to the last.  `compile_undisturbed` says so of all writers at once,
so it compares the runs with any two of them.
-/

variable {σ : Type}

/-! ### What is said and asked -/

/-- The only question to the optimizer. -/
def Request.call (r : Request) : Call := ⟨r.stage, .select r.version r.platform, r.source⟩

/-- What the optimizer answers to a call. -/
def Optimizer.answer (optimize : Optimizer) (call : Call) : Except String String :=
  optimize call.stage call.dialect call.source

/-- The text for the message writer: an excerpt of a source that the optimizer refused and the
    optimizer's log, and nothing about a source that it accepted. -/
def announcement (optimize : Optimizer) (r : Request) : String :=
  match optimize.answer r.call with
  | .ok _ => ""
  | .error log =>
    (Rejection.ofLog log).excerpt r.source ++ "Error: " ++ .ofList (Text.trimEnd log.toList) ++
      "\n"

/-- The pieces of a report make up its text. -/
theorem flatten_report (log source : String) :
    (report (.ofLog log) source).flatten = Bytes.utf8 ((Rejection.ofLog log).excerpt source ++
      "Error: " ++ .ofList (Text.trimEnd log.toList) ++ "\n") := by
  simp [report, Bytes.utf8, Rejection.ofLog]

/-! ### Compilations with any writer -/

/-- Pieces have been handed to the message writer as an outcome tells: the writer's answers have led
    from the first moment to the one at which that is over, the accepted bytes are those of this
    moment, and the writer is in the state in which its last answer has left it. -/
def Reported (pieces : List Bytes) (w : Writer σ) (s : σ) (failure : Option String)
    (out : Outcome σ) : Prop :=
  ∃ q, Queue.Reaches w.write (.start pieces s) q ∧ Queue.Over w.write q failure out.writer ∧
    out.messages = q.moment.accepted

/-- A compilation in which the message writer has no say: but for one warning, all that it comes
    to is fixed, and so are the pieces that the writer is handed.  They make up the announcement,
    and at every moment the writer has accepted a leading part of it, even if it is interrupted
    forever; if at the last one this is not the whole announcement, there is the warning. -/
structure Undisturbed (optimize : Optimizer) (r : Request) (result : Except Failure CompiledShader)
    (before after : List Event) (pieces : List Bytes) (w : Writer σ) (s : σ) (out : Outcome σ) :
    Prop where
  result_eq : out.result = result
  calls_eq : out.calls = [r.call]
  pieces_eq : pieces.flatten = Bytes.utf8 (announcement optimize r)
  events_eq : ∃ failure : Option String, Reported pieces w s failure out ∧
    out.events = before ++ (failure.map Event.unshown).toList ++ after ∧
    (∀ event ∈ failure.map Event.unshown, event.entry.severity = .warn) ∧
    (failure = none ↔ out.messages = Bytes.utf8 (announcement optimize r))
  moments_leading : ∀ (write : σ → Bytes → Answer × σ) (q : Queue σ),
    Queue.Reaches write (.start pieces s) q →
      q.moment.accepted <+: Bytes.utf8 (announcement optimize r)
  messages_leading : out.messages <+: Bytes.utf8 (announcement optimize r)
  messages_whole : w.Unfailing → out.messages = Bytes.utf8 (announcement optimize r)

/-- At every moment of a report, a leading part of the announcement is accepted. -/
theorem accepted_leading {write : σ → Bytes → Answer × σ} {pieces : List Bytes} {s : σ}
    {q : Queue σ} {text : Bytes} (h : Queue.Reaches write (.start pieces s) q)
    (hpieces : pieces.flatten = text) : q.moment.accepted <+: text :=
  ⟨q.pending, h.kept.trans hpieces⟩

/-- Entries in front of a run are no matter of the writer. -/
theorem Undisturbed.opened {optimize : Optimizer} {r : Request}
    {result : Except Failure CompiledShader} {before after : List Event} {pieces : List Bytes}
    {w : Writer σ} {s : σ} {out : Outcome σ}
    (h : Undisturbed optimize r result before after pieces w s out) (front : List Event) :
    Undisturbed optimize r result (front ++ before) after pieces w s
      { out with events := front ++ out.events } := by
  obtain ⟨failure, hreported, hevents, hwarning⟩ := h.events_eq
  exact ⟨h.result_eq, h.calls_eq, h.pieces_eq, ⟨failure, hreported, by simp [hevents], hwarning⟩,
    h.moments_leading, h.messages_leading, h.messages_whole⟩

section

variable {optimize : Optimizer} {r : Request}

/-- A failure to show a report is a warning. -/
theorem severity_unshown (failure : Option String) :
    ∀ event ∈ failure.map Event.unshown, event.entry.severity = .warn := by
  intro event hevent
  obtain ⟨reason, -, rfl⟩ := Option.map_eq_some_iff.mp hevent
  rfl

/-- A refused source is reported as far as the writer takes it. -/
theorem undisturbed_reject {log : String} (hanswer : optimize.answer r.call = .error log)
    (w : Writer σ) (s : σ) :
    Undisturbed optimize r (.error (Rejection.ofLog log).failure) []
      (failing .dialectSelected (Rejection.ofLog log).failure) (report (.ofLog log) r.source) w s
      (reject r.call log w s) := by
  have hshown := w.delivers_writeEach s (report (.ofLog log) r.source)
  have hpieces : (report (.ofLog log) r.source).flatten =
      Bytes.utf8 (announcement optimize r) := by
    rw [flatten_report, announcement, hanswer]
  rw [hpieces] at hshown
  refine ⟨rfl, rfl, hpieces, ?_, fun _ _ hq => accepted_leading hq hpieces, hshown.leading,
    fun hw => ?_⟩
  · -- the warning is the failure of the delivery
    obtain ⟨q, hq, haccepted, hover⟩ := w.over_writeEach s (report (.ofLog log) r.source) []
    exact ⟨_, ⟨q, hq, hover, haccepted.symm⟩, rfl, severity_unshown _, hshown.complete_iff⟩
  · exact hshown.complete_iff.mp (hw.failure_writeEach s _)

/-- About an accepted source nothing is said, and the writer's own state is all that differs. -/
theorem undisturbed_finish {optimized : String} (hanswer : optimize.answer r.call = .ok optimized) :
    ∃ result after, ∀ {σ : Type} (w : Writer σ) (s : σ),
      Undisturbed optimize r result [] after [] w s (finish r.call optimized s) := by
  have hpieces : ([] : List Bytes).flatten = Bytes.utf8 (announcement optimize r) := by
    rw [announcement, hanswer]
    rfl
  refine ⟨(finish r.call optimized ()).result, (finish r.call optimized ()).events,
    fun w s => ?_⟩
  have hfinish : finish r.call optimized s =
      { finish r.call optimized () with calls := [r.call], messages := [], writer := s } := by
    unfold finish
    dsimp only
    split <;> rfl
  rw [hfinish]
  refine ⟨rfl, rfl, hpieces, ?_, fun _ _ hq => accepted_leading hq hpieces, List.nil_prefix,
    fun _ => hpieces⟩
  -- without pieces, the first moment is the last one
  have hreported : Reported [] w s none { finish r.call optimized () with
      calls := [r.call], messages := [], writer := s } :=
    ⟨.start [] s, .refl, .written rfl rfl, rfl⟩
  exact ⟨none, hreported, rfl, severity_unshown none, iff_of_true rfl hpieces⟩

end

/-- What is recorded before the optimizer is asked. -/
def opening (r : Request) : List Event :=
  [.entered .start .dialectSelected, .targeted r.stage r.call.dialect]

/-- A compilation asks the optimizer once and goes on with its answer. -/
theorem compile_eq (optimize : Optimizer) (r : Request) (w : Writer σ) (s : σ) :
    compile optimize r w s =
      let rest := match optimize.answer r.call with
        | .error log => reject r.call log w s
        | .ok optimized => finish r.call optimized s
      { rest with events := opening r ++ rest.events } := rfl

/-- A source cannot be reported if the optimizer refuses it and there is no excerpt. -/
theorem compile?_eq_none_iff {o : Overflow} {optimize : Optimizer} {r : Request} {w : Writer σ}
    {s : σ} : compile? o optimize r w s = none ↔ ∃ log, optimize.answer r.call = .error log ∧
      (Rejection.ofLog log).excerpt? o r.source = none := by
  have hreportable : isReportable o optimize r = match optimize.answer r.call with
      | .error log => ((Rejection.ofLog log).excerpt? o r.source).isSome
      | .ok _ => true := rfl
  rw [compile?, hreportable]
  cases hanswer : optimize.answer r.call with
  | error log => simp
  | ok optimized => simp

/-- A source that can be reported is compiled. -/
theorem compile?_eq_some {o : Overflow} {optimize : Optimizer} {r : Request} {w : Writer σ} {s : σ}
    {out : Outcome σ} (h : compile? o optimize r w s = some out) :
    out = compile optimize r w s := by
  rw [compile?] at h
  split at h
  · exact (Option.some.inj h).symm
  · cases h

/-- **The message writer has no say in a compilation**, whatever it does with what it is handed;
    nor has any answer of the optimizer but the one to the only call.  Nor does it depend on the
    writer whether the source can be reported. -/
theorem compile_undisturbed (optimize : Optimizer) (r : Request) :
    (∃ result before after pieces, ∀ {σ : Type} (w : Writer σ) (s : σ),
      Undisturbed optimize r result before after pieces w s (compile optimize r w s)) ∧
    (∀ other : Optimizer, other.answer r.call = optimize.answer r.call →
      ∀ {σ : Type} (w : Writer σ) (s : σ), compile other r w s = compile optimize r w s) ∧
    ∀ (o : Overflow) {σ : Type} (w : Writer σ) (s : σ),
      (compile? o optimize r w s = none ↔ ∃ log, optimize.answer r.call = .error log ∧
        (Rejection.ofLog log).excerpt? o r.source = none) ∧
      ∀ out, compile? o optimize r w s = some out → out = compile optimize r w s := by
  refine ⟨?_, ?_, fun o σ w s => ⟨compile?_eq_none_iff, fun out => compile?_eq_some⟩⟩
  · cases hanswer : optimize.answer r.call with
    | error log =>
      let failure := (Rejection.ofLog log).failure
      refine ⟨.error failure, opening r ++ [], failing .dialectSelected failure,
        report (.ofLog log) r.source, fun w s => ?_⟩
      rw [compile_eq, hanswer]
      exact (undisturbed_reject hanswer w s).opened _
    | ok optimized =>
      obtain ⟨result, after, hfinish⟩ := undisturbed_finish hanswer
      refine ⟨result, opening r ++ [], after, [], fun w s => ?_⟩
      rw [compile_eq, hanswer]
      exact (hfinish w s).opened _
  · intro other hother σ w s
    rw [compile_eq, compile_eq, hother]

/-- A source for the samples. -/
def sampleSource : Request := ⟨.fragment, 120, .none, "a = 1;"⟩

/-- Refuses everything. -/
def refusing : Optimizer := fun _ _ _ => .error "(1,3)"

/-- Refuses the sample only. -/
def choosy : Optimizer := fun _ _ source =>
  if source = "a = 1;" then .error "(1,3)" else .ok source

/-- Is interrupted, takes two bytes at a time and is full after six. -/
def narrow : Script := { interrupt := true, limit := some 6, chunk := some 2 }

/-- A writer that is soon full has taken six bytes at most when it fails, and changes nothing of the
    result, which is that with any other writer and with any other optimizer that refuses the source
    in the same words. -/
theorem compile_narrow :
    let out := compile refusing sampleSource narrow.writer narrow.start
    (∃ pieces reason, pieces.flatten = Bytes.utf8 (announcement refusing sampleSource) ∧
        Reported pieces narrow.writer narrow.start (some reason) out) ∧
      out.messages.length ≤ 6 ∧
      out.messages <+: Bytes.utf8 (announcement refusing sampleSource) ∧
      out.calls = [⟨.fragment, .select 120 .none, "a = 1;"⟩] ∧
      out.result = (compile choosy sampleSource (Script.writer {}) (Script.start {})).result := by
  intro out
  obtain ⟨⟨result, before, after, pieces, hany⟩, hother, -⟩ :=
    compile_undisturbed refusing sampleSource
  have hchoosy : choosy.answer sampleSource.call = refusing.answer sampleSource.call := rfl
  have hnarrow := hany narrow.writer narrow.start
  obtain ⟨failure, hreported, -, -, hwhole⟩ := hnarrow.events_eq
  have hlength : out.messages.length ≤ 6 := by
    obtain ⟨q, hq, -, hmessages⟩ := hreported
    have hlimit : narrow.limit = some 6 := rfl
    rw [hmessages]
    exact Script.length_accepted_le hlimit hq
  -- the announcement is longer, so it has not been accepted
  have hlong : 6 < (Bytes.utf8 (announcement refusing sampleSource)).length := by decide
  obtain ⟨reason, rfl⟩ : ∃ reason, failure = some reason := by
    refine Option.ne_none_iff_exists'.mp fun hnone => ?_
    rw [hwhole.mp hnone] at hlength
    omega
  refine ⟨⟨pieces, reason, hnarrow.pieces_eq, hreported⟩, hlength, hnarrow.messages_leading,
    hnarrow.calls_eq, ?_⟩
  rw [hother choosy hchoosy, hnarrow.result_eq, (hany _ _).result_eq]

end ShaderPack.Compilation
