import DeepseekX.ExecProcessEvents
import DeepseekX.Interleavings

/-!
# The events of a process on the exec server

Two tasks read the output streams of a process and a third one waits for its exit. Each locks
the process to number an event and to publish it; whoever finds that the streams have ended
and that the process has exited emits `Closed`. The tasks interleave at the lock.
-/

namespace DeepseekX.ExecProcesses
open Interleavings List Function

/-- Of a running process what its events depend on, and the notifications handed over. -/
structure RunningProcess (P : Type*) where
  nextSeq : ℕ
  exitCode : Option ℤ
  openStreams : ℕ
  closed : Bool
  events : List ExecProcessEvent
  notifications : List (ServerNotification P)

inductive Worker where
  | stdout
  | stderr
  | exit
  deriving DecidableEq

/-- What a task does when it next holds the lock. -/
inductive WorkerState where
  | streamOutput (stream : ExecOutputStream)
  | finishOutputStream
  | watchExit
  | maybeEmitClosed
  | done
  deriving DecidableEq

/-- What the operating system hands to the task that moves. -/
inductive Input where
  | chunk (bytes : List UInt8)
  | endOfStream
  | exit (code : ℤ)

section Steps
variable {P : Type*} (processId : P)

def RunningProcess.start : RunningProcess P := ⟨1, none, 2, false, [], []⟩

variable (process : RunningProcess P)

def streamOutput (stream : ExecOutputStream) (bytes : List UInt8) : RunningProcess P :=
  let seq := process.nextSeq
  { process with
    nextSeq := seq + 1
    events := process.events ++ [.output ⟨seq, stream, bytes⟩]
    notifications := process.notifications ++ [.outputDelta processId seq stream bytes] }

def watchExit (exitCode : ℤ) : RunningProcess P :=
  let seq := process.nextSeq
  { process with
    nextSeq := seq + 1
    exitCode := some exitCode
    events := process.events ++ [.exited seq exitCode]
    notifications := process.notifications ++ [.exited processId seq exitCode] }

def finishOutputStream : RunningProcess P :=
  if process.openStreams > 0 then { process with openStreams := process.openStreams - 1 }
  else process

def maybeEmitClosed : RunningProcess P :=
  if process.closed || process.openStreams != 0 || process.exitCode.isNone then process
  else
    let seq := process.nextSeq
    { process with
      closed := true
      nextSeq := seq + 1
      events := process.events ++ [.closed seq]
      notifications := process.notifications ++ [.closed processId seq] }

def workerStep (input : Input) (process : RunningProcess P) :
    WorkerState → RunningProcess P × WorkerState
  | .streamOutput stream =>
    match input with
    | .chunk bytes => (streamOutput processId process stream bytes, .streamOutput stream)
    | .endOfStream => (process, .finishOutputStream)
    | .exit _ => (process, .streamOutput stream)
  | .finishOutputStream => (finishOutputStream process, .maybeEmitClosed)
  | .watchExit =>
    match input with
    | .exit code => (watchExit processId process code, .maybeEmitClosed)
    | _ => (process, .watchExit)
  | .maybeEmitClosed => (maybeEmitClosed processId process, .done)
  | .done => (process, .done)

/-- The tasks as `start_process` spawns them. -/
def startProcess (tty : Bool) : System Worker (RunningProcess P) WorkerState where
  shared := .start
  tasks
    | .stdout => .streamOutput (if tty then .pty else .stdout)
    | .stderr => .streamOutput (if tty then .pty else .stderr)
    | .exit => .watchExit

end Steps

/-- The events of a process from its start to its end: numbered from one on, with one `Exited`
and with `Closed` once, at the end. -/
structure CompleteEvents (events : List ExecProcessEvent) : Prop where
  numbered : events.map ExecProcessEvent.seq = (range' 1 events.length).map some
  exited : events.countP ExecProcessEvent.isExited = 1
  closed : ∃ earlier seq, events = earlier ++ [.closed seq] ∧
    ∀ event ∈ earlier, event.isClosed = false

section Runs
variable {P : Type*} {processId : P}

/-- The stream of the task has not been counted as ended. -/
def WorkerState.streaming : WorkerState → Bool
  | streamOutput _ | finishOutputStream => true
  | _ => false

/-- The record of a process agrees with its log. -/
structure Logged (processId : P) (process : RunningProcess P) : Prop where
  nextSeq : process.nextSeq = process.events.length + 1
  numbered : process.events.map ExecProcessEvent.seq = (range' 1 process.events.length).map some
  notifications : process.notifications.map ServerNotification.event? =
    process.events.map fun event => some (processId, event)
  exited : process.events.countP ExecProcessEvent.isExited = process.exitCode.toList.length
  unclosed : process.closed = false → ∀ event ∈ process.events, event.isClosed = false
  closed : process.closed = true → process.openStreams = 0 ∧ process.exitCode.isSome ∧
    ∃ earlier seq, process.events = earlier ++ [.closed seq] ∧
      ∀ event ∈ earlier, event.isClosed = false

/-- The record of a process agrees with its tasks. -/
structure Attended (process : RunningProcess P) (tasks : Worker → WorkerState) : Prop where
  streams : Counted (fun task => task.streaming = true) tasks process.openStreams
  exit : Counted (· = .watchExit) tasks (1 - process.exitCode.toList.length)
  unclosed : process.closed = false → process.openStreams = 0 → process.exitCode.isSome →
    ∃ worker, tasks worker = .maybeEmitClosed

theorem numbered_append {events : List ExecProcessEvent} {event : ExecProcessEvent}
    (h : events.map ExecProcessEvent.seq = (range' 1 events.length).map some)
    (hseq : event.seq = some (events.length + 1)) :
    (events ++ [event]).map ExecProcessEvent.seq =
      (range' 1 (events ++ [event]).length).map some := by
  rw [map_append, h, length_append, length_singleton, range'_1_concat]
  simp [hseq, Nat.add_comm]

variable {process : RunningProcess P} {tasks : Worker → WorkerState}

theorem finishOutputStream_eq (process : RunningProcess P) :
    finishOutputStream process = { process with openStreams := process.openStreams - 1 } := by
  unfold finishOutputStream
  split
  · rfl
  next h => rw [show process.openStreams - 1 = process.openStreams by omega]

variable (h : Logged processId process)
include h

variable (hclosed : process.closed = false)
include hclosed

theorem Logged.streamOutput (stream : ExecOutputStream) (bytes : List UInt8) :
    Logged processId (streamOutput processId process stream bytes) where
  nextSeq := by simp [ExecProcesses.streamOutput, h.nextSeq]
  numbered := numbered_append h.numbered (congrArg some h.nextSeq)
  notifications := by
    simp [ExecProcesses.streamOutput, h.notifications, ServerNotification.event?]
  exited := by
    simp [ExecProcesses.streamOutput, h.exited, ExecProcessEvent.isExited]
  unclosed _ := by
    simpa [ExecProcesses.streamOutput, or_imp, forall_and, ExecProcessEvent.isClosed]
      using h.unclosed hclosed
  closed hnow := absurd (hclosed.symm.trans hnow) (by decide)

theorem Logged.watchExit (hexit : process.exitCode = none) (exitCode : ℤ) :
    Logged processId (watchExit processId process exitCode) where
  nextSeq := by simp [ExecProcesses.watchExit, h.nextSeq]
  numbered := numbered_append h.numbered (congrArg some h.nextSeq)
  notifications := by
    simp [ExecProcesses.watchExit, h.notifications, ServerNotification.event?]
  exited := by
    simp [ExecProcesses.watchExit, h.exited, hexit, ExecProcessEvent.isExited]
  unclosed _ := by
    simpa [ExecProcesses.watchExit, or_imp, forall_and, ExecProcessEvent.isClosed]
      using h.unclosed hclosed
  closed hnow := absurd (hclosed.symm.trans hnow) (by decide)

theorem Logged.finishOutputStream : Logged processId (finishOutputStream process) := by
  rw [finishOutputStream_eq]
  exact ⟨h.nextSeq, h.numbered, h.notifications, h.exited, h.unclosed,
    fun hnow => absurd (hclosed.symm.trans hnow) (by decide)⟩

omit h hclosed

/-- Either `Closed` was emitted before, or it cannot be emitted yet, or it is emitted now. -/
theorem maybeEmitClosed_cases (processId : P) (process : RunningProcess P) :
    (maybeEmitClosed processId process = process ∧
      (process.closed = true ∨ process.openStreams ≠ 0 ∨ process.exitCode = none)) ∨
    (process.closed = false ∧ process.openStreams = 0 ∧ process.exitCode.isSome ∧
      maybeEmitClosed processId process =
        { process with
          closed := true
          nextSeq := process.nextSeq + 1
          events := process.events ++ [.closed process.nextSeq]
          notifications := process.notifications ++ [.closed processId process.nextSeq] }) := by
  unfold maybeEmitClosed
  split
  next hkeep => exact .inl ⟨rfl, by simpa [or_assoc] using hkeep⟩
  next hemit =>
    simp only [Bool.or_eq_true, bne_iff_ne, not_or, Bool.not_eq_true, not_not,
      Option.isNone_eq_false_iff] at hemit
    exact .inr ⟨hemit.1.1, hemit.1.2, hemit.2, rfl⟩

theorem Logged.maybeEmitClosed (h : Logged processId process) :
    Logged processId (maybeEmitClosed processId process) := by
  rcases maybeEmitClosed_cases processId process with ⟨heq, -⟩ | ⟨hclosed, hopen, hexit, heq⟩
  · rw [heq]
    exact h
  · rw [heq]
    exact {
      nextSeq := by simp [h.nextSeq]
      numbered := numbered_append h.numbered (congrArg some h.nextSeq)
      notifications := by simp [h.notifications, ServerNotification.event?]
      exited := by simp [h.exited, ExecProcessEvent.isExited]
      unclosed := fun hnow => nomatch hnow
      closed := fun _ => ⟨hopen, hexit, _, _, rfl, h.unclosed hclosed⟩ }

variable {worker : Worker}

/-- While a stream is read and before the exit, the process is not closed. -/
theorem Attended.unclosed_of_streaming (hattended : Attended process tasks)
    (hlogged : Logged processId process) (hworker : (tasks worker).streaming = true) :
    process.closed = false := by
  by_contra hclosed
  have hzero := (hlogged.closed (Bool.not_eq_false _ ▸ hclosed)).1
  exact (hzero ▸ hattended.streams).none_of_zero worker hworker

theorem Attended.exitCode_of_watching (hattended : Attended process tasks)
    (hworker : tasks worker = .watchExit) : process.exitCode = none := by
  cases hcode : process.exitCode with
  | none => rfl
  | some code =>
    have hexit := hattended.exit
    rw [hcode] at hexit
    exact absurd hworker (hexit.none_of_zero worker)

theorem Logged.unclosed_of_running (hlogged : Logged processId process)
    (hexit : process.exitCode = none) : process.closed = false := by
  by_contra hclosed
  have hsome := (hlogged.closed (Bool.not_eq_false _ ▸ hclosed)).2.1
  rw [hexit] at hsome
  cases hsome

theorem Logged.step (hlogged : Logged processId process) (hattended : Attended process tasks)
    (worker : Worker) (input : Input) :
    Logged processId (workerStep processId input process (tasks worker)).1 := by
  cases htask : tasks worker with
  | streamOutput stream =>
    have hclosed := hattended.unclosed_of_streaming hlogged (congrArg _ htask)
    cases input with
    | chunk bytes => exact hlogged.streamOutput hclosed stream bytes
    | endOfStream | exit => exact hlogged
  | finishOutputStream =>
    exact hlogged.finishOutputStream (hattended.unclosed_of_streaming hlogged (congrArg _ htask))
  | watchExit =>
    have hexit := hattended.exitCode_of_watching htask
    cases input with
    | exit code => exact hlogged.watchExit (hlogged.unclosed_of_running hexit) hexit code
    | chunk | endOfStream => exact hlogged
  | maybeEmitClosed => exact hlogged.maybeEmitClosed
  | done => exact hlogged

/-- A task that is about to emit `Closed` still is when another task moves. -/
theorem emitting_update {task : WorkerState} (hne : tasks worker ≠ .maybeEmitClosed)
    (h : ∃ other, tasks other = .maybeEmitClosed) :
    ∃ other, update tasks worker task other = .maybeEmitClosed := by
  obtain ⟨other, hother⟩ := h
  have hne : other ≠ worker := fun heq => hne (heq ▸ hother)
  exact ⟨other, (update_of_ne hne _ _).trans hother⟩

theorem Attended.step (hattended : Attended process tasks) (worker : Worker) (input : Input) :
    Attended (workerStep processId input process (tasks worker)).1
      (update tasks worker (workerStep processId input process (tasks worker)).2) := by
  have hkept : Attended process (update tasks worker (tasks worker)) := by
    rwa [update_eq_self]
  cases htask : tasks worker with
  | streamOutput stream =>
    rw [htask] at hkept
    cases input with
    | chunk bytes => exact ⟨hkept.streams, hkept.exit, hkept.unclosed⟩
    | exit code => exact hkept
    | endOfStream =>
      refine ⟨hattended.streams.update_of_iff ?_, hattended.exit.update_of_iff ?_,
        fun hclosed hopen hexit => emitting_update ?_ (hattended.unclosed hclosed hopen hexit)⟩
      all_goals simp [htask, workerStep, WorkerState.streaming]
  | finishOutputStream =>
    rw [workerStep, finishOutputStream_eq]
    exact ⟨hattended.streams.update_lose (congrArg _ htask) Bool.false_ne_true,
      hattended.exit.update_of_iff (by simp [htask]), fun _ _ _ => ⟨worker, update_self ..⟩⟩
  | watchExit =>
    have hexit := hattended.exit
    rw [hattended.exitCode_of_watching htask] at hexit
    rw [htask] at hkept
    cases input with
    | exit code =>
      exact ⟨hattended.streams.update_of_iff (by simp [htask, workerStep, WorkerState.streaming]),
        hexit.update_lose htask (by simp [workerStep]),
        fun _ _ _ => ⟨worker, update_self ..⟩⟩
    | chunk | endOfStream => exact hkept
  | maybeEmitClosed =>
    have hstreams : Counted (fun task => task.streaming = true)
        (update tasks worker .done) process.openStreams :=
      hattended.streams.update_of_iff (by simp [htask, WorkerState.streaming])
    have hexit : Counted (· = .watchExit) (update tasks worker .done)
        (1 - process.exitCode.toList.length) :=
      hattended.exit.update_of_iff (by simp [htask])
    rw [workerStep]
    rcases maybeEmitClosed_cases processId process with ⟨heq, hkeep⟩ | ⟨-, -, -, heq⟩
    · rw [heq]
      refine ⟨hstreams, hexit, fun hclosed hopen hcode => ?_⟩
      rcases hkeep with hkeep | hkeep | hkeep
      · exact absurd (hclosed.symm.trans hkeep) (by decide)
      · exact absurd hopen hkeep
      · rw [hkeep] at hcode
        cases hcode
    · rw [heq]
      exact ⟨hstreams, hexit, fun hclosed => nomatch hclosed⟩
  | done =>
    rw [htask] at hkept
    exact hkept

theorem logged_start (processId : P) : Logged processId .start where
  nextSeq := rfl
  numbered := rfl
  notifications := rfl
  exited := rfl
  unclosed _ _ hmem := absurd hmem not_mem_nil
  closed hclosed := nomatch hclosed

theorem attended_start (tty : Bool) :
    Attended (startProcess (P := P) tty).shared (startProcess (P := P) tty).tasks where
  streams := ⟨{.stdout, .stderr}, fun worker => by
    cases worker <;> simp [startProcess, WorkerState.streaming], rfl⟩
  exit := ⟨{.exit}, fun worker => by cases worker <;> simp [startProcess], rfl⟩
  unclosed _ hopen := absurd hopen (Nat.succ_ne_zero 1)

theorem run_logged {system : System Worker (RunningProcess P) WorkerState}
    (hlogged : Logged processId system.shared) (hattended : Attended system.shared system.tasks)
    (schedule : List (Worker × Input)) :
    Logged processId (system.run (workerStep processId) schedule).shared ∧
      Attended (system.run (workerStep processId) schedule).shared
        (system.run (workerStep processId) schedule).tasks := by
  induction schedule generalizing system with
  | nil => exact ⟨hlogged, hattended⟩
  | cons event schedule ih =>
    exact ih (hlogged.step hattended event.1 event.2) (hattended.step event.1 event.2)

theorem completeEvents_of_done {process : RunningProcess P} {tasks : Worker → WorkerState}
    (hlogged : Logged processId process) (hattended : Attended process tasks)
    (hdone : ∀ worker, tasks worker = .done) : CompleteEvents process.events := by
  have hopen : process.openStreams = 0 := by
    have hzero : Counted (fun task : WorkerState => task.streaming = true) tasks 0 :=
      counted_zero fun worker => by simp [hdone worker, WorkerState.streaming]
    exact hattended.streams.unique hzero
  have hzero : Counted (· = .watchExit) tasks 0 := counted_zero fun worker => by simp [hdone worker]
  have hexit := hattended.exit.unique hzero
  cases hcode : process.exitCode with
  | none =>
    rw [hcode] at hexit
    cases hexit
  | some code =>
    have hclosed : process.closed = true := by
      by_contra hclosed
      obtain ⟨worker, hworker⟩ :=
        hattended.unclosed (Bool.eq_false_of_not_eq_true hclosed) hopen (by rw [hcode]; rfl)
      rw [hdone worker] at hworker
      cases hworker
    exact ⟨hlogged.numbered, hlogged.exited.trans (by rw [hcode]; rfl),
      (hlogged.closed hclosed).2.2⟩

end Runs

end DeepseekX.ExecProcesses
