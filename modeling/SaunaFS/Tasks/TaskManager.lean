/-
Jobs of the master that take many steps (`master/task_manager.cc`).

What the execution of a task does is a parameter, and it may depend on a world that changes between the calls; it puts
new tasks at the front or at the back of the queue of its job. Beside the state of `TaskManager` there is a record of
each submitted job.
-/
import SaunaFS.Lib.ModifyFirst
import SaunaFS.Lib.Stepwise

namespace SaunaFS.Tasks

/-! ## Tasks -/

def statusOk : ℤ := 0

def errorNotdone : ℤ := 16

def errorWaiting : ℤ := 50

/-- what `execute` does: its status, the task afterwards, and the tasks it puts at the front and at the back of the
queue -/
structure Execution (T W : Type) where
  status : ℤ
  task : T
  front : List T
  back : List T
  world : W

structure Behaviour (T W : Type) where
  execute : UInt32 → W → T → Execution T W
  isFinished : T → Bool

structure Object (T : Type) where
  ref : ℕ
  data : T
deriving DecidableEq

/-- the objects of tasks that are made one after the other -/
def objects {T : Type} (first : ℕ) (tasks : List T) : List (Object T) := tasks.zipIdx.map fun p => ⟨first + p.2, p.1⟩

/-! ## Jobs -/

/-- the callback of a job: the local one of `submitTask`, or that of the client -/
inductive Callback where
  | batch
  | client
deriving DecidableEq

structure Job (T : Type) where
  id : UInt32
  number : ℕ
  callback : Callback
  tasks : List (Object T)
deriving DecidableEq

def Job.isFinished {T : Type} (job : Job T) : Bool := job.tasks.isEmpty

/-- what happened to a job -/
structure Life where
  answer : Option ℤ
  statuses : List ℤ
  calls : List ℤ
  cancelled : Bool
  unfinished : ℕ
deriving DecidableEq

/-- nothing yet -/
def Life.none : Life := ⟨Option.none, [], [], false, 0⟩

structure TaskManager (T W : Type) where
  jobList : List (Job T)
  world : W
  submitted : ℕ
  life : ℕ → Life
  created : ℕ
  deleted : List ℕ

namespace TaskManager

variable {T W : Type} (b : Behaviour T W)

/-- the constructor -/
def new (world : W) : TaskManager T W := ⟨[], world, 0, fun _ => .none, 0, []⟩

variable (m : TaskManager T W) (number : ℕ) (id : UInt32)

/-- something is written to the record of a job -/
def note (f : Life → Life) : TaskManager T W := { m with life := Function.update m.life number (f (m.life number)) }

def deleteTask (task : Object T) : TaskManager T W :=
  { m with deleted := m.deleted ++ [task.ref] }.note number fun l =>
    if b.isFinished task.data then l else { l with unfinished := l.unfinished + 1 }

def call (job : Job T) (status : ℤ) : TaskManager T W :=
  match job.callback with
  | .batch => m
  | .client => m.note job.number fun l => { l with calls := l.calls ++ [status] }

def finalize (job : Job T) (status : ℤ) : TaskManager T W × Job T :=
  (job.tasks.foldl (fun m task => m.deleteTask b job.number task) (m.call job status), { job with tasks := [] })

/-- `Job::finalizeTask` for the task between `front` and `back`; the status is that of `finalize`, if it is called -/
def finalizeTask (job : Job T) (front : List (Object T)) (task : Object T) (back : List (Object T))
    (status : ℤ) : TaskManager T W × Job T × Option ℤ :=
  let job := { job with tasks := front ++ task :: back }
  if status ≠ statusOk ∨ b.isFinished task.data ∧ job.tasks.length ≤ 1 then
    let r := m.finalize b job status
    (r.1, r.2, some status)
  else if b.isFinished task.data then (m.deleteTask b job.number task, { job with tasks := front ++ back }, none)
  else (m, job, none)

/-- the state after an execution of a task of a job -/
def executed (x : Execution T W) : TaskManager T W :=
  { m with world := x.world, created := m.created + x.front.length + x.back.length }.note number fun l =>
    { l with statuses := l.statuses ++ [x.status] }

def processTask (ts : UInt32) (job : Job T) : TaskManager T W × Job T × Option ℤ :=
  match job.tasks with
  | [] => (m, job, none)
  | task :: rest =>
    let x := b.execute ts m.world task.data
    (m.executed job.number x).finalizeTask b job (objects m.created x.front) { task with data := x.task }
      (rest ++ objects (m.created + x.front.length) x.back) x.status

/-- the first batch of `submitTask`: it ends early when the job is finished -/
def firstBatch (ts : UInt32) : ℕ → TaskManager T W → Job T → TaskManager T W × Job T × Option ℤ
  | 0, m, job => (m, job, none)
  | n + 1, m, job =>
    let r := m.processTask b ts job
    if r.2.1.isFinished then r else firstBatch ts n r.1 r.2.1

/-- the job that `submitTask` makes -/
def newJob (task : T) : TaskManager T W × Job T :=
  ({ m with submitted := m.submitted + 1, created := m.created + 1 }, ⟨id, m.submitted, .batch, [⟨m.created, task⟩]⟩)

/-- `submitTask`; the answer goes to the record -/
def submitTask (ts : UInt32) (initialBatchSize : ℤ) (task : T) : TaskManager T W :=
  let new := m.newJob id task
  let r := new.1.firstBatch b ts initialBatchSize.toNat new.2
  match r.2.2 with
  | some status => r.1.note m.submitted fun l => { l with answer := some status }
  | none =>
    { r.1 with jobList := r.1.jobList ++ [{ r.2.1 with callback := .client }] }.note m.submitted fun l =>
      { l with answer := some errorWaiting }

/-- the loop of `processJobs` from the job with index `i` on; `rounds` is the number of rounds before the limit is
reached or the watchdog expires -/
def processFrom (ts : UInt32) : ℕ → ℕ → TaskManager T W → TaskManager T W
  | 0, _, m => m
  | rounds + 1, i, m =>
    match m.jobList[i]? with
    | none => m
    | some job =>
      if job.isFinished then
        let m := { m with jobList := m.jobList.eraseIdx i }
        processFrom ts rounds (if i = m.jobList.length then 0 else i) m
      else
        let r := m.processTask b ts job
        let m := { r.1 with jobList := r.1.jobList.set i r.2.1 }
        processFrom ts rounds (if i + 1 = m.jobList.length then 0 else i + 1) m

def processJobs (ts : UInt32) (rounds : ℕ) : TaskManager T W := processFrom b ts rounds 0 m

def cancelJob : TaskManager T W :=
  match m.jobList.find? fun job => job.id = id with
  | none => m
  | some job =>
    let r := (m.note job.number fun l => { l with cancelled := true }).finalize b job errorNotdone
    { r.1 with jobList := ModifyFirst.modifyFirst (fun job => job.id = id) (fun _ => r.2) r.1.jobList }

def destroy : TaskManager T W :=
  { m.jobList.foldl (fun m job => job.tasks.foldl (fun m task => m.deleteTask b job.number task) m)
    m with jobList := [] }

end TaskManager

/-! ## Runs -/

/-- a call, or a change of the world -/
inductive Op (T W : Type) where
  | submitTask (id ts : UInt32) (initialBatchSize : ℤ) (task : T)
  | processJobs (ts : UInt32) (rounds : ℕ)
  | cancelJob (id : UInt32)
  | outside (world : W)

def TaskManager.step {T W : Type} (b : Behaviour T W) (m : TaskManager T W) : Op T W → TaskManager T W
  | .submitTask id ts initialBatchSize task => m.submitTask b id ts initialBatchSize task
  | .processJobs ts rounds => m.processJobs b ts rounds
  | .cancelJob id => m.cancelJob b id
  | .outside world => { m with world := world }

end SaunaFS.Tasks
