import Mathlib.Logic.Relation
import ShaderPack.Writer.Script

namespace ShaderPack

/-!
# Writers — a delivery, moment by moment

A delivery is a row of moments.  From one to the `Next` the writer is called once and handed all
that is left; an interruption leaves everything as it was, and what is taken goes over from what is
left to what is accepted.  A delivery is `Over` when a write does not go on or when nothing is left
and the writer has been told to pass on what it holds.

Nothing is asked of the writer here, so these are also the moments of a delivery that never ends:

* `Reaches.kept` — at every moment, what is accepted and what is left make up the bytes;
* `Reaches.eq_of_over` — a delivery is over at one moment at most;
* `Writer.over_writeAndFlush` — a writer that is not interrupted forever comes to it.

Several pieces are a `Queue`: its moments are those of the piece that is handed over, and once
nothing of it is left the next piece follows.  They keep the same (`Queue.Reaches.kept`) and end the
same way, but that nothing is passed on (`Writer.over_writeEach`).  `Script.length_accepted_le` says
what a limit is to them.
-/

variable {σ : Type}

/-- What the writer has accepted, what is left, and the state in which it is. -/
structure Moment (σ : Type) where
  accepted : Bytes
  left : Bytes
  state : σ

namespace Moment

variable {write : σ → Bytes → Answer × σ} {m n n' : Moment σ}

/-- Before the first write. -/
def start (bytes : Bytes) (s : σ) : Moment σ := ⟨[], bytes, s⟩

/-! ### From one moment to the next -/

/-- A write after which the delivery goes on. -/
inductive Next (write : σ → Bytes → Answer × σ) : Moment σ → Moment σ → Prop
  /-- Nothing was taken, and all will be handed over again. -/
  | interrupted {accepted left : Bytes} {s s' : σ} (hleft : left ≠ [])
      (hwrite : write s left = (.interrupted, s')) :
    Next write ⟨accepted, left, s⟩ ⟨accepted, left, s'⟩
  /-- Some bytes were taken, the first ones. -/
  | taken {accepted left : Bytes} {s s' : σ} {count : Nat} (hleft : left ≠ [])
      (hwrite : write s left = (.accepted (count + 1), s')) :
    Next write ⟨accepted, left, s⟩
      ⟨accepted ++ left.take (count + 1), left.drop (count + 1), s'⟩

/-- A write after which the delivery does not go on, for a reason. -/
inductive Stops (write : σ → Bytes → Answer × σ) : Moment σ → String → σ → Prop
  | failed {accepted left : Bytes} {s s' : σ} {reason : String} (hleft : left ≠ [])
      (hwrite : write s left = (.failed reason, s')) :
    Stops write ⟨accepted, left, s⟩ reason s'
  /-- The writer takes nothing. -/
  | nothing {accepted left : Bytes} {s s' : σ} (hleft : left ≠ [])
      (hwrite : write s left = (.accepted 0, s')) :
    Stops write ⟨accepted, left, s⟩ "failed to write whole buffer" s'

/-- The last call of the writer: a write after which the delivery does not go on, or, once nothing
    is left, the order to pass on what it holds. -/
inductive Over (w : Writer σ) (m : Moment σ) : Option String → σ → Prop
  | stopped {reason : String} {s' : σ} (h : Stops w.write m reason s') : Over w m (some reason) s'
  | flushed {failure : Option String} {s' : σ} (hleft : m.left = [])
      (hflush : w.flush m.state = (failure, s')) : Over w m failure s'

/-- The moments that a delivery comes to. -/
def Reaches (write : σ → Bytes → Answer × σ) : Moment σ → Moment σ → Prop :=
  Relation.ReflTransGen (Next write)

/-! ### What every moment keeps -/

/-- A write loses no byte and repeats none. -/
theorem Next.kept (h : Next write m n) : n.accepted ++ n.left = m.accepted ++ m.left := by
  cases h with
  | interrupted hleft hwrite => rfl
  | @taken accepted left s s' count hleft hwrite =>
    show accepted ++ left.take (count + 1) ++ left.drop (count + 1) = accepted ++ left
    rw [List.append_assoc, List.take_append_drop]

/-- **At every moment** what is accepted and what is left make up the bytes. -/
theorem Reaches.kept {bytes : Bytes} {s : σ} (h : Reaches write (start bytes s) m) :
    m.accepted ++ m.left = bytes := by
  induction h with
  | refl => rfl
  | tail hbefore hnext ih => rw [hnext.kept, ih]

/-! ### One way only -/

/-- The writer's answer decides what comes next. -/
theorem Next.unique (h : Next write m n) (h' : Next write m n') : n = n' := by
  cases h with
  | interrupted hleft hwrite =>
    cases h' with
    | interrupted _ hwrite' =>
      cases hwrite.symm.trans hwrite'
      rfl
    | taken _ hwrite' => cases hwrite.symm.trans hwrite'
  | taken hleft hwrite =>
    cases h' with
    | interrupted _ hwrite' => cases hwrite.symm.trans hwrite'
    | taken _ hwrite' =>
      cases hwrite.symm.trans hwrite'
      rfl

variable {reason reason' : String} {s s' : σ}

/-- Only a write of some bytes can fail to go on. -/
theorem Stops.left_ne_nil (h : Stops write m reason s) : m.left ≠ [] := by
  cases h with
  | failed hleft hwrite => exact hleft
  | nothing hleft hwrite => exact hleft

theorem Stops.not_next (h : Stops write m reason s) : ¬Next write m n := by
  intro hnext
  cases h with
  | failed hleft hwrite => cases hnext with | _ _ hwrite' => cases hwrite.symm.trans hwrite'
  | nothing hleft hwrite => cases hnext with | _ _ hwrite' => cases hwrite.symm.trans hwrite'

theorem Stops.unique (h : Stops write m reason s) (h' : Stops write m reason' s') :
    reason = reason' := by
  cases h with
  | failed hleft hwrite =>
    cases h' with
    | failed _ hwrite' =>
      cases hwrite.symm.trans hwrite'
      rfl
    | nothing _ hwrite' => cases hwrite.symm.trans hwrite'
  | nothing hleft hwrite =>
    cases h' with
    | failed _ hwrite' => cases hwrite.symm.trans hwrite'
    | nothing _ hwrite' => rfl

variable {w : Writer σ} {failure failure' : Option String}

/-- A delivery that is over does not go on. -/
theorem Over.not_next (h : Over w m failure s) : ¬Next w.write m n := by
  cases h with
  | stopped hstops => exact hstops.not_next
  | flushed hleft hflush =>
    intro hnext
    cases hnext with | _ hleft' _ => exact hleft' hleft

/-- It is over in one way. -/
theorem Over.unique (h : Over w m failure s) (h' : Over w m failure' s') : failure = failure' := by
  cases h with
  | stopped hstops =>
    cases h' with
    | stopped hstops' => rw [hstops.unique hstops']
    | flushed hleft _ => exact absurd hleft hstops.left_ne_nil
  | flushed hleft hflush =>
    cases h' with
    | stopped hstops => exact absurd hleft hstops.left_ne_nil
    | flushed _ hflush' => exact congrArg Prod.fst (hflush.symm.trans hflush')

/-- **A delivery is over at one moment** at most. -/
theorem Reaches.eq_of_over (hn : Reaches w.write m n) (hn' : Reaches w.write m n')
    (hover : Over w n failure s) (hover' : Over w n' failure' s') : n = n' := by
  have hend {n n' : Moment σ} {failure : Option String} {s : σ} (hover : Over w n failure s)
      (h : Reaches w.write n n') : n = n' := by
    rcases Relation.ReflTransGen.cases_head h with rfl | ⟨_, hnext, -⟩
    · rfl
    · exact absurd hnext hover.not_next
  rcases Relation.ReflTransGen.total_of_right_unique (fun _ _ _ h h' => h.unique h') hn hn' with
    h | h
  · exact hend hover h
  · exact (hend hover' h).symm

end Moment

namespace Writer

open Moment (Next Reaches Stops Over)

/-! ### Deliveries that end -/

/-- Writing all bytes ends where nothing is left or a write does not go on. -/
theorem exists_reaches_writeAll (w : Writer σ) (s : σ) (bytes front : Bytes) :
    ∃ m, Reaches w.write ⟨front, bytes, s⟩ m ∧
      m.accepted = front ++ (w.writeAll s bytes).accepted ∧
      match (w.writeAll s bytes).failure with
      | none => m.left = [] ∧ m.state = (w.writeAll s bytes).state
      | some reason => Stops w.write m reason (w.writeAll s bytes).state := by
  -- the induction is that of `writeAll`; `front` is what has been accepted before
  fun_induction writeAll w s bytes generalizing front with
  | case1 s => exact ⟨⟨front, [], s⟩, .refl, (List.append_nil front).symm, rfl, rfl⟩
  | case2 s bytes hne s' hwrite hpatience ih =>
    obtain ⟨m, hm, hend⟩ := ih front
    exact ⟨m, .head (.interrupted hne hwrite) hm, hend⟩
  | case3 s bytes hne reason s' hwrite =>
    exact ⟨⟨front, bytes, s⟩, .refl, (List.append_nil front).symm, .failed hne hwrite⟩
  | case4 s bytes hne s' hwrite =>
    exact ⟨⟨front, bytes, s⟩, .refl, (List.append_nil front).symm, .nothing hne hwrite⟩
  | case5 s bytes hne count s' hwrite rest ih =>
    obtain ⟨m, hm, haccepted, hend⟩ := ih (front ++ bytes.take (count + 1))
    exact ⟨m, .head (.taken hne hwrite) hm, by rw [haccepted, List.append_assoc], hend⟩

theorem writeAndFlush_of_failed {w : Writer σ} {s : σ} {bytes : Bytes} {reason : String}
    (h : (w.writeAll s bytes).failure = some reason) :
    w.writeAndFlush s bytes = w.writeAll s bytes := by
  simp [writeAndFlush, h]

theorem writeAndFlush_of_written {w : Writer σ} {s : σ} {bytes : Bytes}
    (h : (w.writeAll s bytes).failure = none) :
    w.writeAndFlush s bytes = ⟨(w.writeAll s bytes).accepted,
      (w.flush (w.writeAll s bytes).state).1, (w.flush (w.writeAll s bytes).state).2⟩ := by
  simp [writeAndFlush, h]

/-- **A delivery comes to its end**, and is reported as it ends. -/
theorem over_writeAndFlush (w : Writer σ) (s : σ) (bytes : Bytes) :
    ∃ m, Reaches w.write (.start bytes s) m ∧
      m.accepted = (w.writeAndFlush s bytes).accepted ∧
      Over w m (w.writeAndFlush s bytes).failure (w.writeAndFlush s bytes).state := by
  obtain ⟨m, hm, haccepted, hend⟩ := w.exists_reaches_writeAll s bytes []
  refine ⟨m, hm, ?_⟩
  cases hfailure : (w.writeAll s bytes).failure with
  | some reason =>
    rw [hfailure] at hend
    rw [writeAndFlush_of_failed hfailure, hfailure]
    exact ⟨haccepted, .stopped hend⟩
  | none =>
    rw [hfailure] at hend
    obtain ⟨hleft, hstate⟩ := hend
    rw [writeAndFlush_of_written hfailure]
    exact ⟨haccepted, .flushed hleft (by rw [hstate])⟩

end Writer

/-! ### Several pieces -/

/-- The moment of the piece that is handed over, and the pieces behind it. -/
structure Queue (σ : Type) where
  moment : Moment σ
  behind : List Bytes

namespace Queue

variable {write : σ → Bytes → Answer × σ} {q q' : Queue σ}

/-- Before the first piece. -/
def start (pieces : List Bytes) (s : σ) : Queue σ := ⟨.start [] s, pieces⟩

/-- What is not accepted yet. -/
def pending (q : Queue σ) : Bytes := q.moment.left ++ q.behind.flatten

/-- From one moment to the next. -/
inductive Next (write : σ → Bytes → Answer × σ) : Queue σ → Queue σ → Prop
  /-- The piece is handed over. -/
  | written {m n : Moment σ} {behind : List Bytes} (h : Moment.Next write m n) :
    Next write ⟨m, behind⟩ ⟨n, behind⟩
  /-- Nothing of it is left, and another one follows. -/
  | following {accepted piece : Bytes} {s : σ} {behind : List Bytes} :
    Next write ⟨⟨accepted, [], s⟩, piece :: behind⟩ ⟨⟨accepted, piece, s⟩, behind⟩

/-- The last moment: a write does not go on, for a reason, or there is nothing left to write. -/
inductive Over (write : σ → Bytes → Answer × σ) (q : Queue σ) : Option String → σ → Prop
  | stopped {reason : String} {s' : σ} (h : Moment.Stops write q.moment reason s') :
    Over write q (some reason) s'
  | written (hleft : q.moment.left = []) (hbehind : q.behind = []) :
    Over write q none q.moment.state

/-- The moments that the pieces come to. -/
def Reaches (write : σ → Bytes → Answer × σ) : Queue σ → Queue σ → Prop :=
  Relation.ReflTransGen (Next write)

/-- No byte is lost or repeated, in a piece or between two. -/
theorem Next.kept (h : Next write q q') :
    q'.moment.accepted ++ q'.pending = q.moment.accepted ++ q.pending := by
  cases h with
  | written hnext => rw [pending, pending, ← List.append_assoc, hnext.kept, List.append_assoc]
  | following => rfl

/-- **At every moment** what is accepted and what is pending make up the pieces. -/
theorem Reaches.kept {pieces : List Bytes} {s : σ} (h : Reaches write (start pieces s) q) :
    q.moment.accepted ++ q.pending = pieces.flatten := by
  induction h with
  | refl => rfl
  | tail hbefore hnext ih => rw [hnext.kept, ih]

/-- The moments of a piece are moments of the queue. -/
theorem reaches_piece {m n : Moment σ} (h : Moment.Reaches write m n) (behind : List Bytes) :
    Reaches write ⟨m, behind⟩ ⟨n, behind⟩ :=
  Relation.ReflTransGen.lift (fun m => Queue.mk m behind) (fun _ _ hnext => .written hnext) _ _ h

end Queue

/-- **Pieces come to their end**, and are reported as they end; `front` is accepted before. -/
theorem Writer.over_writeEach (w : Writer σ) (s : σ) (pieces : List Bytes) (front : Bytes) :
    ∃ q, Queue.Reaches w.write ⟨⟨front, [], s⟩, pieces⟩ q ∧
      q.moment.accepted = front ++ (w.writeEach s pieces).accepted ∧
      q.Over w.write (w.writeEach s pieces).failure (w.writeEach s pieces).state := by
  induction pieces generalizing s front with
  | nil => exact ⟨_, .refl, (List.append_nil front).symm, .written rfl rfl⟩
  | cons piece pieces ih =>
    obtain ⟨m, hm, haccepted, hend⟩ := w.exists_reaches_writeAll s piece front
    have hpiece : Queue.Reaches w.write ⟨⟨front, [], s⟩, piece :: pieces⟩ ⟨m, pieces⟩ :=
      .head .following (Queue.reaches_piece hm pieces)
    rw [writeEach]
    cases hfailure : (w.writeAll s piece).failure with
    | some reason =>
      rw [hfailure] at hend
      -- the pieces behind a failure are not handed over
      refine ⟨_, hpiece, haccepted, ?_⟩
      show Queue.Over w.write _ (w.writeAll s piece).failure _
      rw [hfailure]
      exact .stopped hend
    | none =>
      rw [hfailure] at hend
      obtain ⟨hleft, hstate⟩ := hend
      obtain ⟨q, hq, hall, hover⟩ := ih m.state m.accepted
      have hm_eq : m = ⟨m.accepted, [], m.state⟩ := by rw [← hleft]
      rw [hm_eq] at hpiece
      refine ⟨q, hpiece.trans hq, ?_, hstate ▸ hover⟩
      rw [hall, haccepted, hstate, List.append_assoc]

/-! ### Scripted writers -/

namespace Script

variable {script : Script} {s s' : State} {bytes : Bytes} {count limit : Nat}

/-- An interruption takes nothing. -/
theorem taken_of_interrupted (h : script.write s bytes = (.interrupted, s')) :
    s'.taken = s.taken := by
  unfold write at h
  split at h
  · cases h
    rfl
  · split at h
    · split at h <;> cases h
    · cases h

/-- There is no more room than what is missing to the limit. -/
theorem exists_room (hlimit : script.limit = some limit) (s : State) :
    ∃ room, script.room? s = some room ∧ room ≤ limit - s.taken := by
  unfold room?
  rw [hlimit]
  cases script.chunk with
  | none => exact ⟨_, rfl, Nat.le_refl _⟩
  | some chunk => exact ⟨_, rfl, Nat.min_le_left _ _⟩

/-- The bytes that are taken are counted, and there is room for them. -/
theorem taken_of_accepted (hlimit : script.limit = some limit) (hs : s.taken ≤ limit)
    (h : script.write s bytes = (.accepted count, s')) :
    count ≤ bytes.length ∧ s'.taken = s.taken + count ∧ s'.taken ≤ limit := by
  unfold write at h
  split at h
  · cases h
  · split at h
    · -- a full writer takes nothing
      split at h
      · cases h
        exact ⟨Nat.zero_le _, rfl, hs⟩
      · cases h
    · cases h
      obtain ⟨room, hroom, hle⟩ := exists_room hlimit s
      rw [hroom]
      show (bytes.take room).length ≤ _ ∧ _ = _ ∧ s.taken + (bytes.take room).length ≤ limit
      have htake : (bytes.take room).length ≤ room := List.length_take_le room bytes
      exact ⟨List.length_take_le' room bytes, rfl, by omega⟩

/-- What is accepted is what the writer has counted, up to its limit. -/
def Counted (limit : Nat) (m : Moment State) : Prop :=
  m.accepted.length = m.state.taken ∧ m.state.taken ≤ limit

theorem counted_next {m n : Moment State} (hlimit : script.limit = some limit)
    (h : Moment.Next script.write m n) (hm : Counted limit m) : Counted limit n := by
  obtain ⟨hlength, hle⟩ := hm
  cases h with
  | interrupted hleft hwrite =>
    rw [Counted, taken_of_interrupted hwrite]
    exact ⟨hlength, hle⟩
  | @taken accepted left s s' count hleft hwrite =>
    obtain ⟨hcount, htaken, hle⟩ := taken_of_accepted hlimit hle hwrite
    refine ⟨?_, hle⟩
    show (accepted ++ left.take (count + 1)).length = s'.taken
    have hlength : accepted.length = s.taken := hlength
    rw [List.length_append, List.length_take, Nat.min_eq_left hcount, hlength, htaken]

/-- **At every moment, no more is accepted than the limit.** -/
theorem length_accepted_le (hlimit : script.limit = some limit) {pieces : List Bytes}
    {q : Queue State} (h : Queue.Reaches script.write (.start pieces script.start) q) :
    q.moment.accepted.length ≤ limit := by
  have hcounted : Counted limit q.moment := by
    induction h with
    | refl => exact ⟨rfl, Nat.zero_le _⟩
    | tail hbefore hnext ih =>
      cases hnext with
      | following => exact ih
      | written hwritten => exact counted_next hlimit hwritten ih
  exact hcounted.1 ▸ hcounted.2

end Script

end ShaderPack
