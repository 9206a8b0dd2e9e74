/-
When the callback of a job is called, and with what.

- `reported_once`: in every run in which no first batch fails with the status `WAITING` and no finished job is
  cancelled, a job that waits has its callback called exactly once, when it has no tasks left, and each task object is
  deleted once.
-/
import SaunaFS.Tasks.TaskManager

namespace SaunaFS.Tasks

open List Nat TaskManager Function

variable {T W : Type} {b : Behaviour T W} {m : TaskManager T W} {job : Job T} {ts : UInt32} {k : ℕ} {st : ℤ}

/-! ## Records -/

/-- a job at work: no error, no call, no task deleted before its end -/
structure Life.Running (answer : Option ℤ) (l : Life) : Prop where
  answer : l.answer = answer
  statuses : ∀ x ∈ l.statuses, x = statusOk
  calls : l.calls = []
  cancelled : l.cancelled = false
  unfinished : l.unfinished = 0

/-- the status that a job has to report -/
def Life.Verdict (l : Life) (status : ℤ) : Prop :=
  l.cancelled = false ∧ status ≠ statusOk ∧ (∃ before, l.statuses = before ++ [status] ∧ ∀ x ∈ before, x = statusOk) ∨
    l.cancelled = false ∧ status = statusOk ∧ (∀ x ∈ l.statuses, x = statusOk) ∧ l.unfinished = 0 ∨
    l.cancelled = true ∧ status = errorNotdone ∧ ∀ x ∈ l.statuses, x = statusOk

/-- a job that has reported -/
def Life.Reported (l : Life) : Prop := l.answer = some errorWaiting ∧ ∃ status, l.calls = [status] ∧ l.Verdict status

/-- a job that was finished when `submitTask` returned -/
def Life.Answered (l : Life) : Prop := ∃ status, status ≠ errorWaiting ∧ l.answer = some status ∧ l.calls = []

/-! ## Task objects -/

def Job.refs (job : Job T) : List ℕ := job.tasks.map Object.ref

theorem refs_objects {first : ℕ} {tasks : List T} :
    (objects first tasks).map Object.ref = range' first tasks.length := by
  unfold objects
  refine ext_getElem (by simp) fun i hi _ => ?_
  simp [comp]

theorem range'_split {c d e : ℕ} (h : c ≤ d) (h' : d ≤ e) :
    range' c (e - c) = range' c (d - c) ++ range' d (e - d) := by
  obtain ⟨x, rfl⟩ := Nat.exists_eq_add_of_le h
  obtain ⟨y, rfl⟩ := Nat.exists_eq_add_of_le h'
  rw [Nat.add_sub_cancel_left, Nat.add_sub_cancel_left, Nat.add_assoc, Nat.add_sub_cancel_left, range'_append_1]

theorem range_split {c d : ℕ} (h : c ≤ d) : range d = range c ++ range' c (d - c) := by
  simpa [range_eq_range'] using range'_split c.zero_le h

theorem perm_none_created {l l' : List ℕ} {c d : ℕ} (h : l.Perm l') (hc : d = c) : l.Perm (l' ++ range' c (d - c)) := by
  subst hc
  rw [Nat.sub_self]
  exact (append_nil l').symm ▸ h

namespace TaskManager

theorem life_note (m : TaskManager T W) (number : ℕ) (f : Life → Life) :
    (m.note number f).life number = f (m.life number) :=
  update_self _ _ _

variable {number : ℕ} {f : Life → Life}

theorem life_note_of_ne (h : k ≠ number) : (m.note number f).life k = m.life k := update_of_ne h _ _

/-- what the functions on one job leave alone -/
structure Frame (m m' : TaskManager T W) (number : ℕ) : Prop where
  jobList : m'.jobList = m.jobList
  submitted : m'.submitted = m.submitted
  life : ∀ k, k ≠ number → m'.life k = m.life k

theorem Frame.refl (m : TaskManager T W) (number : ℕ) : Frame m m number := ⟨rfl, rfl, fun _ _ => rfl⟩

theorem Frame.trans {m₁ m₂ m₃ : TaskManager T W} (h : Frame m₁ m₂ number) (h' : Frame m₂ m₃ number) :
    Frame m₁ m₃ number :=
  ⟨h'.jobList.trans h.jobList, h'.submitted.trans h.submitted, fun k hk => (h'.life k hk).trans (h.life k hk)⟩

theorem frame_note : Frame m (m.note number f) number := ⟨rfl, rfl, fun _ hk => life_note_of_ne hk⟩

theorem deleteTasks_spec (tasks : List (Object T)) (m : TaskManager T W) (number : ℕ) :
    let m' := tasks.foldl (fun m task => m.deleteTask b number task) m
    Frame m m' number ∧ m'.deleted = m.deleted ++ tasks.map Object.ref ∧ m'.created = m.created ∧ m'.world = m.world ∧
      m'.life number = { m.life number with
        unfinished := (m.life number).unfinished + tasks.countP fun task => !b.isFinished task.data } := by
  induction tasks generalizing m with
  | nil => exact ⟨Frame.refl m number, (append_nil _).symm, rfl, rfl, rfl⟩
  | cons task tasks ih =>
    obtain ⟨hfr, hd, hc, hw, hl⟩ := ih (m.deleteTask b number task)
    have ho : (m.deleteTask b number task).life number = { m.life number with
          unfinished := (m.life number).unfinished + [task].countP fun task => !b.isFinished task.data } := by
      refine (life_note _ _ _).trans ?_
      by_cases hf : b.isFinished task.data
      · simp [hf]
      · simp [hf]
    have hfr' : Frame m (m.deleteTask b number task) number := ⟨rfl, rfl, fun k hk => update_of_ne hk _ _⟩
    refine ⟨hfr'.trans hfr, ?_, hc, hw, ?_⟩
    · refine hd.trans ?_
      change (m.deleted ++ [task.ref]) ++ _ = _
      rw [append_assoc]
      rfl
    · refine hl.trans ?_
      rw [ho]
      simp only [countP_cons, countP_nil]
      congr 1
      omega

theorem finalize_spec (m : TaskManager T W) (job : Job T) (status : ℤ) :
    Frame m (m.finalize b job status).1 job.number ∧ (m.finalize b job status).1.deleted = m.deleted ++ job.refs ∧
      (m.finalize b job status).1.created = m.created ∧
      (m.finalize b job status).1.life job.number = { m.life job.number with
        calls := if job.callback = .client then (m.life job.number).calls ++ [status] else (m.life job.number).calls
        unfinished := (m.life job.number).unfinished + job.tasks.countP fun task => !b.isFinished task.data } := by
  obtain ⟨hf, hd, hc, -, hl⟩ := deleteTasks_spec (b := b) job.tasks (m.call job status) job.number
  have hca : Frame m (m.call job status) job.number ∧ (m.call job status).deleted = m.deleted ∧
      (m.call job status).created = m.created ∧ (m.call job status).life job.number = { m.life job.number with
        calls := if job.callback = .client then (m.life job.number).calls ++ [status]
          else (m.life job.number).calls } := by
    unfold call
    cases job.callback with
    | batch => exact ⟨Frame.refl _ _, rfl, rfl, rfl⟩
    | client => exact ⟨frame_note, rfl, rfl, life_note _ _ _⟩
  obtain ⟨hf', hd', hc', hl'⟩ := hca
  refine ⟨hf'.trans hf, hd.trans (by rw [hd']; rfl), hc.trans hc', hl.trans ?_⟩
  rw [hl']

/-! ## One step of a job -/

/-- what a step does to a job at work: `r` has the state and the job afterwards, and the status that was reported -/
structure Processed (answer : Option ℤ) (m : TaskManager T W) (job : Job T)
    (r : TaskManager T W × Job T × Option ℤ) : Prop where
  frame : Frame m r.1 job.number
  number : r.2.1.number = job.number
  callback : r.2.1.callback = job.callback
  created : m.created ≤ r.1.created
  refs : (r.2.1.refs ++ r.1.deleted).Perm (job.refs ++ m.deleted ++ range' m.created (r.1.created - m.created))
  goesOn : r.2.2 = none → r.2.1.tasks ≠ [] ∧ (r.1.life job.number).Running answer
  ends : ∀ status, r.2.2 = some status → r.2.1.tasks = [] ∧ (r.1.life job.number).answer = answer ∧
    (r.1.life job.number).calls = (if job.callback = .client then [status] else []) ∧
    (r.1.life job.number).Verdict status

variable {answer : Option ℤ}

/-- `finalize`, called in a state that differs from `m` in the record of the job only -/
theorem finalize_processed {m' : TaskManager T W} {status : ℤ} (hf : Frame m m' job.number)
    (hd : m'.deleted = m.deleted) (hc : m'.created = m.created) (ha : (m'.life job.number).answer = answer)
    (hca : (m'.life job.number).calls = []) (hv : ((m'.finalize b job status).1.life job.number).Verdict status) :
    Processed answer m job ((m'.finalize b job status).1, (m'.finalize b job status).2, some status) := by
  obtain ⟨hf', hd', hc', hl⟩ := finalize_spec (b := b) m' job status
  refine ⟨hf.trans hf', rfl, rfl, (hc'.trans hc).ge, perm_none_created ?_ (hc'.trans hc), fun h => (nomatch h), ?_⟩
  · dsimp only
    rw [hd', hd]
    exact (perm_append_comm : (m.deleted ++ job.refs).Perm _)
  · rintro _ ⟨⟩
    refine ⟨rfl, ?_, ?_, hv⟩
    · rw [hl]
      exact ha
    · rw [hl, hca]
      rfl

theorem finalizeTask_spec {l : Life} (m : TaskManager T W) (job : Job T) (front : List (Object T))
    (task : Object T) (back : List (Object T)) (status : ℤ) (hr : l.Running answer)
    (hli : m.life job.number = { l with statuses := l.statuses ++ [status] }) :
    Processed answer m { job with tasks := front ++ task :: back } (m.finalizeTask b job front task back status) := by
  have hz (h0 : status = statusOk) : ∀ y ∈ l.statuses ++ [status], y = statusOk := by
    intro y hy
    rcases mem_append.1 hy with hy | hy
    · exact hr.statuses y hy
    · exact (mem_singleton.1 hy).trans h0
  unfold finalizeTask
  dsimp only
  split_ifs with he hfi
  · obtain ⟨-, -, -, hl⟩ := finalize_spec (b := b) m { job with tasks := front ++ task :: back } status
    refine finalize_processed (Frame.refl _ _) rfl rfl (hli ▸ hr.answer) (hli ▸ hr.calls) ?_
    rw [hl, hli]
    by_cases h0 : status = statusOk
    · obtain ⟨hfi, hle⟩ := he.resolve_left (not_not.2 h0)
      have ho : front ++ task :: back = [task] := by
        rw [length_append, length_cons] at hle
        rw [eq_nil_of_length_eq_zero (by omega : front.length = 0),
          eq_nil_of_length_eq_zero (by omega : back.length = 0)]
        rfl
      refine Or.inr (Or.inl ⟨hr.cancelled, h0, hz h0, ?_⟩)
      simp [ho, hfi, hr.unfinished]
    · exact Or.inl ⟨hr.cancelled, h0, l.statuses, rfl, hr.statuses⟩
  · rw [not_or, not_not] at he
    obtain ⟨hf, hd, hc, -, hl⟩ := deleteTasks_spec (b := b) [task] m job.number
    rw [hli] at hl
    have hne : front ++ back ≠ [] := by
      intro hn
      obtain ⟨rfl, rfl⟩ := append_eq_nil_iff.1 hn
      exact he.2 ⟨hfi, le_rfl⟩
    refine ⟨hf, rfl, rfl, hc.ge, perm_none_created ?_ hc, fun _ => ⟨hne, ?_⟩, fun _ h => (nomatch h)⟩
    · change ((front ++ back).map Object.ref ++ (m.deleted ++ [task.ref])).Perm
        ((front ++ task :: back).map Object.ref ++ m.deleted)
      rw [perm_iff_count]
      intro ref
      simp only [map_append, map_cons, count_append, count_cons, count_nil]
      omega
    · refine hl ▸ ⟨hr.answer, hz he.1, hr.calls, hr.cancelled, ?_⟩
      simp [hfi, hr.unfinished]
  · rw [not_or, not_not] at he
    refine ⟨Frame.refl _ _, rfl, rfl, le_rfl, perm_none_created (.refl _) rfl, fun _ => ⟨by simp, ?_⟩,
      fun _ h => (nomatch h)⟩
    exact hli ▸ ⟨hr.answer, hz he.1, hr.calls, hr.cancelled, hr.unfinished⟩

theorem processTask_spec (m : TaskManager T W) (ts : UInt32) (job : Job T) (ht : job.tasks ≠ [])
    (hr : (m.life job.number).Running answer) : Processed answer m job (m.processTask b ts job) := by
  obtain ⟨task, rest, hco⟩ := exists_cons_of_ne_nil ht
  unfold processTask
  rw [hco]
  dsimp only
  generalize b.execute ts m.world task.data = x
  have hfr : Frame m (m.executed job.number x) job.number := ⟨rfl, rfl, fun k hk => update_of_ne hk _ _⟩
  have hf := finalizeTask_spec (b := b) (m.executed job.number x) job (objects m.created x.front)
    { task with data := x.task } (rest ++ objects (m.created + x.front.length) x.back) x.status hr (life_note _ _ _)
  have hc : (m.executed job.number x).created = m.created + x.front.length + x.back.length := rfl
  have hl := hf.created
  refine ⟨hfr.trans hf.frame, hf.number, hf.callback, by omega, hf.refs.trans ?_, hf.goesOn, hf.ends⟩
  generalize (finalizeTask b (m.executed job.number x) job (objects m.created x.front)
    { task with data := x.task } (rest ++ objects (m.created + x.front.length) x.back) x.status).1.created = c at hl
  have hd : (m.executed job.number x).deleted = m.deleted := rfl
  rw [range'_split (Nat.le_add_right m.created x.front.length) (by omega),
    range'_split (Nat.le_add_right (m.created + x.front.length) x.back.length) (by omega), hd, hc,
    Nat.add_sub_cancel_left, Nat.add_sub_cancel_left, perm_iff_count]
  intro ref
  simp only [Job.refs, hco, map_append, map_cons, count_append, count_cons, refs_objects]
  omega

theorem Processed.trans {r r' : TaskManager T W × Job T × Option ℤ} (h : Processed answer m job r)
    (h' : Processed answer r.1 r.2.1 r') : Processed answer m job r' := by
  have hf := h'.frame
  have he := h'.ends
  have hg := h'.goesOn
  rw [h.number] at hf he hg
  rw [h.callback] at he
  refine ⟨h.frame.trans hf, h'.number.trans h.number, h'.callback.trans h.callback, h.created.trans h'.created,
    h'.refs.trans ?_, hg, he⟩
  rw [range'_split h.created h'.created, ← append_assoc]
  exact h.refs.append_right _

theorem firstBatch_spec (ts : UInt32) (n : ℕ) (m : TaskManager T W) (job : Job T)
    (ht : job.tasks ≠ []) (hr : (m.life job.number).Running answer) :
    Processed answer m job (m.firstBatch b ts n job) := by
  induction n generalizing m job with
  | zero =>
    exact ⟨Frame.refl _ _, rfl, rfl, le_rfl, perm_none_created (.refl _) rfl, fun _ => ⟨ht, hr⟩, fun _ h => (nomatch h)⟩
  | succ n ih =>
    have hs := processTask_spec (b := b) m ts job ht hr
    unfold firstBatch
    dsimp only
    split_ifs with hf
    · exact hs
    · have hne : (m.processTask b ts job).2.1.tasks ≠ [] := fun hni => hf (isEmpty_iff.2 hni)
      have hn : (m.processTask b ts job).2.2 = none := by
        cases hst : (m.processTask b ts job).2.2 with
        | none => rfl
        | some status => exact absurd (hs.ends status hst).1 hne
      refine hs.trans (ih _ _ hne ?_)
      rw [hs.number]
      exact (hs.goesOn hn).2

/-! ## Whole runs -/

/-- each job in the list is at work or has reported, all others have reported or were answered at once; and each task
object is in one place -/
structure Inv (m : TaskManager T W) : Prop where
  client : ∀ job ∈ m.jobList, job.callback = .client
  numbers : (m.jobList.map Job.number).Nodup
  bound : ∀ job ∈ m.jobList, job.number < m.submitted
  running : ∀ job ∈ m.jobList, job.tasks ≠ [] → (m.life job.number).Running (some errorWaiting)
  settled : ∀ k < m.submitted, (∀ job ∈ m.jobList, job.number = k → job.tasks = []) →
    (m.life k).Reported ∨ (m.life k).Answered
  fresh : ∀ k, m.submitted ≤ k → m.life k = .none
  refs : (m.jobList.flatMap Job.refs ++ m.deleted).Perm (range m.created)

theorem inv_new {world : W} : (new world : TaskManager T W).Inv where
  client := fun _ h => absurd h not_mem_nil
  numbers := nodup_nil
  bound := fun _ h => absurd h not_mem_nil
  running := fun _ h => absurd h not_mem_nil
  settled := fun _ h => absurd h (not_lt_zero _)
  fresh := fun _ _ => rfl
  refs := Perm.refl _

theorem exists_around {α : Type} {l : List α} {i : ℕ} {a : α} (h : l[i]? = some a) :
    ∃ before after, l = before ++ a :: after ∧ (∀ c, l.set i c = before ++ c :: after) ∧
      l.eraseIdx i = before ++ after := by
  obtain ⟨hi, rfl⟩ := List.getElem?_eq_some_iff.1 h
  refine ⟨l.take i, l.drop (i + 1), ?_, fun c => ?_, ?_⟩
  · rw [← drop_eq_getElem_cons hi, take_append_drop]
  · rw [set_eq_take_append_cons_drop, if_pos hi]
  · exact eraseIdx_eq_take_drop_succ l i

/-- a call that concerns one job: the records of the others stay, and so do they -/
theorem Inv.change {m' : TaskManager T W} (h : m.Inv) (hk : k ≤ m.submitted)
    (hs : m'.submitted = max m.submitted (k + 1))
    (hl : ∀ i, i ≠ k → m'.life i = m.life i) (hj : ∀ job, job.number ≠ k → (job ∈ m'.jobList ↔ job ∈ m.jobList))
    (ho : ∀ job ∈ m'.jobList, job.number = k →
      job.callback = .client ∧ (job.tasks ≠ [] → (m'.life k).Running (some errorWaiting)))
    (he : (∀ job ∈ m'.jobList, job.number = k → job.tasks = []) → (m'.life k).Reported ∨ (m'.life k).Answered)
    (hn : (m'.jobList.map Job.number).Nodup)
    (hr : (m'.jobList.flatMap Job.refs ++ m'.deleted).Perm (List.range m'.created)) : m'.Inv := by
  refine ⟨fun job hm => ?_, hn, fun job hm => ?_, fun job hm ht => ?_, fun i hi ha => ?_, fun i hi => ?_, hr⟩
  · by_cases hjk : job.number = k
    · exact (ho job hm hjk).1
    · exact h.client job ((hj job hjk).1 hm)
  · by_cases hjk : job.number = k
    · omega
    · have hb := h.bound job ((hj job hjk).1 hm)
      omega
  · by_cases hjk : job.number = k
    · exact hjk ▸ (ho job hm hjk).2 ht
    · rw [hl _ hjk]
      exact h.running job ((hj job hjk).1 hm) ht
  · obtain rfl | hik := eq_or_ne i k
    · exact he ha
    · rw [hl i hik]
      exact h.settled i (by omega) fun job hm hji => ha job ((hj job (hji ▸ hik)).2 hm) hji
  · rw [hl i (by omega)]
    exact h.fresh i (by omega)

section Around

variable {before after : List (Job T)}

theorem Inv.ne_number (h : m.Inv) (hl : m.jobList = before ++ job :: after) {other : Job T}
    (ho : other ∈ before ++ after) : other.number ≠ job.number := by
  have hn := h.numbers
  rw [hl, map_append, map_cons, nodup_middle, nodup_cons, ← map_append] at hn
  exact fun he => hn.1 (he ▸ mem_map_of_mem ho)

theorem Inv.replace {r : TaskManager T W × Job T × Option ℤ} (h : m.Inv) (hl : m.jobList = before ++ job :: after)
    (hr : Processed (some errorWaiting) m job r) : Inv { r.1 with jobList := before ++ r.2.1 :: after } := by
  have hj : job ∈ m.jobList := hl ▸ mem_append_right _ mem_cons_self
  have hb := h.bound job hj
  have hs : r.1.submitted = m.submitted := hr.frame.submitted
  refine h.change hb.le (by dsimp only; omega) hr.frame.life (fun other ho => ?_) (fun other ho hno => ?_)
    (fun ha => ?_) ?_ ?_
  · have hne : other ≠ r.2.1 := fun e => ho (e ▸ hr.number)
    have hne' : other ≠ job := fun e => ho (e ▸ rfl)
    simp [hl, hne, hne']
  · obtain rfl | ho := mem_cons.1 (perm_middle.mem_iff.1 ho)
    · refine ⟨hr.callback.trans (h.client job hj), fun hne => ?_⟩
      cases hst : r.2.2 with
      | none => exact (hr.goesOn hst).2
      | some status => exact absurd (hr.ends status hst).1 hne
    · exact absurd hno (h.ne_number hl ho)
  · have hni : r.2.1.tasks = [] := ha r.2.1 (mem_append_right _ mem_cons_self) hr.number
    cases hst : r.2.2 with
    | none => exact absurd hni (hr.goesOn hst).1
    | some status =>
      obtain ⟨-, han, hca, hv⟩ := hr.ends status hst
      rw [if_pos (h.client job hj)] at hca
      exact Or.inl ⟨han, status, hca, hv⟩
  · have hma : (before ++ r.2.1 :: after).map Job.number = m.jobList.map Job.number := by
      rw [hl, map_append, map_append, map_cons, map_cons, hr.number]
    exact hma.symm ▸ h.numbers
  · have hre := h.refs
    have hst := perm_iff_count.1 hr.refs
    rw [hl, perm_iff_count] at hre
    rw [range_split hr.created, perm_iff_count]
    intro ref
    have h1 := hre ref
    have h2 := hst ref
    simp only [flatMap_append, flatMap_cons, count_append] at h1 h2 ⊢
    omega

theorem Inv.erase (h : m.Inv) (hl : m.jobList = before ++ job :: after) (hf : job.tasks = []) :
    Inv { m with jobList := before ++ after } := by
  have hm (other : Job T) (ho : other ∈ before ++ after) : other ∈ m.jobList := by
    rw [hl]
    exact perm_middle.mem_iff.2 (mem_cons_of_mem _ ho)
  refine ⟨fun other ho => h.client other (hm other ho), ?_, fun other ho => h.bound other (hm other ho),
    fun other ho => h.running other (hm other ho), fun k hk ha => h.settled k hk fun other ho hnu => ?_,
    h.fresh, ?_⟩
  · have hn := h.numbers
    rw [hl, map_append, map_cons, nodup_middle, nodup_cons, ← map_append] at hn
    exact hn.2
  · rw [hl] at ho
    rcases mem_cons.1 (perm_middle.mem_iff.1 ho) with rfl | ho
    · exact hf
    · exact ha other ho hnu
  · have hr := h.refs
    rw [hl, flatMap_append, flatMap_cons, Job.refs, hf] at hr
    rw [flatMap_append]
    exact hr

end Around

theorem Inv.processFrom (ts : UInt32) {rounds : ℕ} (i : ℕ) (h : m.Inv) : (m.processFrom b ts rounds i).Inv := by
  induction rounds generalizing i m with
  | zero => exact h
  | succ rounds ih =>
    unfold processFrom
    cases hj : m.jobList[i]? with
    | none => exact h
    | some job =>
      obtain ⟨before, after, hl, hs, he⟩ := exists_around hj
      dsimp only
      by_cases hf : job.isFinished
      · rw [if_pos hf, he]
        exact ih _ (h.erase hl (isEmpty_iff.1 hf))
      · rw [if_neg hf]
        have hn : job.tasks ≠ [] := fun hni => hf (isEmpty_iff.2 hni)
        have hru := h.running job (hl ▸ mem_append_right _ mem_cons_self) hn
        have hr := processTask_spec (b := b) m ts job hn hru
        rw [hr.frame.jobList, hs]
        exact ih _ (h.replace hl hr)

theorem cancel_spec {job : Job T} (hr : (m.life job.number).Running (some errorWaiting)) :
    let r := (m.note job.number fun l => { l with cancelled := true }).finalize b job errorNotdone
    Processed (some errorWaiting) m job (r.1, r.2, some errorNotdone) := by
  intro r
  obtain ⟨-, -, -, hl⟩ :=
    finalize_spec (b := b) (m.note job.number fun l => { l with cancelled := true }) job errorNotdone
  rw [life_note] at hl
  refine finalize_processed frame_note rfl rfl ?_ ?_ ?_
  · rw [life_note]
    exact hr.answer
  · rw [life_note]
    exact hr.calls
  · rw [hl]
    exact Or.inr (Or.inr ⟨rfl, rfl, hr.statuses⟩)

/-- the job that `cancelJob` finds is not finished -/
def Cancellable (m : TaskManager T W) (id : UInt32) : Prop :=
  ∀ job, m.jobList.find? (fun job => job.id = id) = some job → job.tasks ≠ []

theorem Inv.cancelJob {id : UInt32} (h : m.Inv) (ho : m.Cancellable id) : (m.cancelJob b id).Inv := by
  unfold TaskManager.cancelJob
  cases hf : m.jobList.find? fun job => job.id = id with
  | none => exact h
  | some job =>
    have hj : job ∈ m.jobList := mem_of_find?_eq_some hf
    have hr := cancel_spec (b := b) (h.running job hj (ho job hf))
    obtain ⟨before, after, hl, hm⟩ := ModifyFirst.modifyFirst_of_find (f := fun _ =>
      ((m.note job.number fun l => { l with cancelled := true }).finalize b job errorNotdone).2) hf
    have hre := h.replace hl hr
    dsimp only
    rw [show ((m.note job.number fun l => { l with cancelled := true }).finalize b job errorNotdone).1.jobList =
      m.jobList
      from hr.frame.jobList, hm]
    exact hre

/-- the status that the first batch of `submitTask` ends with, if it ends the job -/
def batchStatus (b : Behaviour T W) (m : TaskManager T W) (id ts : UInt32) (initialBatchSize : ℤ) (task : T) :
    Option ℤ :=
  ((m.newJob id task).1.firstBatch b ts initialBatchSize.toNat (m.newJob id task).2).2.2

theorem Inv.newJob (h : m.Inv) (b : Behaviour T W) (id ts : UInt32) (n : ℕ) (task : T) :
    Processed none (m.newJob id task).1 (m.newJob id task).2
      ((m.newJob id task).1.firstBatch b ts n (m.newJob id task).2) := by
  refine firstBatch_spec ts n _ _ (cons_ne_nil _ _) ?_
  change (m.life m.submitted).Running none
  rw [h.fresh _ le_rfl]
  exact ⟨rfl, fun _ hx => absurd hx not_mem_nil, rfl, rfl, rfl⟩

theorem Inv.submitTask {id : UInt32} {initialBatchSize : ℤ} {task : T} (h : m.Inv)
    (hok : m.batchStatus b id ts initialBatchSize task ≠ some errorWaiting) :
    (m.submitTask b id ts initialBatchSize task).Inv := by
  have hr := h.newJob b id ts initialBatchSize.toNat task
  unfold TaskManager.submitTask
  unfold batchStatus at hok
  dsimp only
  generalize (m.newJob id task).1.firstBatch b ts initialBatchSize.toNat (m.newJob id task).2 = r at hr hok
  have hjo : r.1.jobList = m.jobList := hr.frame.jobList
  have hs : r.1.submitted = max m.submitted (m.submitted + 1) := by
    rw [hr.frame.submitted, max_eq_right (le_succ _)]
    rfl
  have hl (k : ℕ) (hk : k ≠ m.submitted) : r.1.life k = m.life k := hr.frame.life k hk
  have hne (job : Job T) (hj : job ∈ m.jobList) : job.number ≠ m.submitted := (h.bound job hj).ne
  have hre : (m.jobList.flatMap Job.refs ++ r.2.1.refs ++ r.1.deleted).Perm (List.range r.1.created) := by
    have hcr : m.created + 1 ≤ r.1.created := hr.created
    have hold := perm_iff_count.1 h.refs
    have hnew := perm_iff_count.1 hr.refs
    rw [range_split hcr, range_succ, perm_iff_count]
    intro ref
    have h1 := hold ref
    have h2 := hnew ref
    change count ref _ = count ref ([m.created] ++ m.deleted ++
      range' (m.created + 1) (r.1.created - (m.created + 1))) at h2
    simp only [count_append] at h1 h2 ⊢
    omega
  cases hst : r.2.2 with
  | some status =>
    -- the job has ended in its first batch and is in no list
    obtain ⟨ht, -, hca, -⟩ := hr.ends status hst
    refine h.change le_rfl hs (fun k hk => (life_note_of_ne hk).trans (hl k hk))
      (fun job _ => iff_of_eq (congrArg _ hjo))
      (fun job hj hno => absurd hno (hne job (hjo ▸ hj))) (fun _ => Or.inr ?_) (hjo.symm ▸ h.numbers) ?_
    · rw [life_note]
      exact ⟨status, fun he => hok (hst.trans (congrArg some he)), rfl, hca⟩
    · rw [Job.refs, ht, map_nil, append_nil] at hre
      exact hjo.symm ▸ hre
  | none =>
    obtain ⟨ht, hru⟩ := hr.goesOn hst
    refine h.change le_rfl hs (fun k hk => (life_note_of_ne hk).trans (hl k hk)) (fun job hn => ?_)
      (fun job hj hno => ?_) (fun ha => ?_) ?_ ?_
    · have hn' : job ≠ { r.2.1 with callback := .client } := fun e => hn (e ▸ hr.number)
      simp [note, hjo, hn']
    · obtain hj | hj := mem_append.1 hj
      · exact absurd hno (hne job (hjo ▸ hj))
      · obtain rfl := mem_singleton.1 hj
        refine ⟨rfl, fun _ => ?_⟩
        rw [life_note]
        exact ⟨rfl, hru.statuses, hru.calls, hru.cancelled, hru.unfinished⟩
    · exact absurd (ha { r.2.1 with callback := .client } (mem_append_right _ mem_cons_self) hr.number) ht
    · change ((r.1.jobList ++ [{ r.2.1 with callback := .client }]).map Job.number).Nodup
      rw [hjo, map_append, nodup_append']
      refine ⟨h.numbers, nodup_singleton _, fun k hk hk' => ?_⟩
      obtain ⟨job, hj, rfl⟩ := mem_map.1 hk
      exact hne job hj ((mem_singleton.1 hk').trans hr.number)
    · change ((r.1.jobList ++ [{ r.2.1 with callback := .client }]).flatMap Job.refs ++ r.1.deleted).Perm _
      rw [hjo, flatMap_append, flatMap_singleton]
      exact hre

/-- the conditions on a call in the state it meets -/
def Allowed (b : Behaviour T W) (m : TaskManager T W) : Op T W → Prop
  | .submitTask id ts initialBatchSize task => m.batchStatus b id ts initialBatchSize task ≠ some errorWaiting
  | .cancelJob id => m.Cancellable id
  | _ => True

theorem Inv.step {op : Op T W} (h : m.Inv) (ho : m.Allowed b op) : (m.step b op).Inv := by
  cases op with
  | submitTask id ts initialBatchSize task => exact h.submitTask ho
  | processJobs ts rounds => exact h.processFrom ts 0
  | cancelJob id => exact h.cancelJob ho
  | outside world => exact ⟨h.client, h.numbers, h.bound, h.running, h.settled, h.fresh, h.refs⟩

theorem deleted_destroy : (m.destroy b).deleted = m.deleted ++ m.jobList.flatMap Job.refs := by
  have hj (jobs : List (Job T)) (m : TaskManager T W) :
      (jobs.foldl (fun m job => job.tasks.foldl (fun m task => m.deleteTask b job.number task) m) m).deleted =
        m.deleted ++ jobs.flatMap Job.refs := by
    induction jobs generalizing m with
    | nil => exact (append_nil _).symm
    | cons job jobs ih =>
      rw [foldl_cons, ih, (deleteTasks_spec (b := b) job.tasks m job.number).2.1, flatMap_cons, append_assoc]
      rfl
  exact hj m.jobList m

/-- the state after some calls -/
abbrev after (b : Behaviour T W) (world : W) (ops : List (Op T W)) : TaskManager T W :=
  Stepwise.run (step b) (new world) ops

def AtWork (m : TaskManager T W) (k : ℕ) : Prop := ∃ job ∈ m.jobList, job.number = k ∧ job.tasks ≠ []

/-- **Reported once.** A job that is answered with an error or at once is never reported, and one that waits is reported
once when its tasks are done; every task that was made is deleted once. -/
theorem reported_once (b : Behaviour T W) (world : W) (ops : List (Op T W))
    (hok : Stepwise.Along (step b) (Allowed b) (new world) ops) :
    (∀ k < (after b world ops).submitted, ∃ status, ((after b world ops).life k).answer = some status ∧
      (status ≠ errorWaiting → ((after b world ops).life k).calls = []) ∧
      (status = errorWaiting →
        ((after b world ops).AtWork k → ((after b world ops).life k).calls = []) ∧
          (¬ (after b world ops).AtWork k → ∃ report, ((after b world ops).life k).calls = [report] ∧
            ((after b world ops).life k).Verdict report))) ∧
      ((after b world ops).jobList.flatMap Job.refs ++ (after b world ops).deleted).Perm
        (range (after b world ops).created) ∧
      ((after b world ops).destroy b).deleted.Perm (List.range (after b world ops).created) := by
  have hinv : (after b world ops).Inv :=
    Stepwise.inv_run (fun m op hok h => Inv.step h hok) (new world) ops hok inv_new
  refine ⟨fun k hk => ?_, hinv.refs, ?_⟩
  · by_cases hwork : (after b world ops).AtWork k
    · obtain ⟨job, hjob, rfl, htasks⟩ := hwork
      have hrun := hinv.running job hjob htasks
      exact ⟨errorWaiting, hrun.answer, fun hne => absurd rfl hne, fun _ => ⟨fun _ => hrun.calls, fun hnot =>
        absurd ⟨job, hjob, rfl, htasks⟩ hnot⟩⟩
    · have hsettled := hinv.settled k hk fun job hjob hnum => by
        by_contra htasks
        exact hwork ⟨job, hjob, hnum, htasks⟩
      rcases hsettled with ⟨hanswer, hreport⟩ | ⟨status, hne, hanswer, hcalls⟩
      · exact ⟨errorWaiting, hanswer, fun hne => absurd rfl hne, fun _ => ⟨fun h => absurd h hwork, fun _ => hreport⟩⟩
      · exact ⟨status, hanswer, fun _ => hcalls, fun heq => absurd heq hne⟩
  · rw [deleted_destroy]
    exact perm_append_comm.trans hinv.refs

def oneStep : Behaviour Bool Unit where
  execute := fun _ _ _ => ⟨statusOk, true, [], [], ()⟩
  isFinished := id

theorem reported_once_cancelled :
    ((after oneStep () [.submitTask 1 0 0 false, .cancelJob 1, .processJobs 0 5]).life 0).Verdict errorNotdone := by
  have h := reported_once oneStep () [.submitTask 1 0 0 false, .cancelJob 1, .processJobs 0 5]
    ⟨fun h => (nomatch h), fun job hjob => by cases hjob; exact cons_ne_nil _ _, trivial, trivial⟩
  obtain ⟨status, hanswer, -, hwaiting⟩ := h.1 0 (by decide)
  obtain rfl : errorWaiting = status := Option.some.inj hanswer
  obtain ⟨report, hcalls, hverdict⟩ := (hwaiting rfl).2 (by rintro ⟨_, hjob, _⟩; cases hjob)
  obtain rfl : errorNotdone = report := (List.cons.inj hcalls).1
  exact hverdict

/-- **Reported twice.** The job finishes, and is cancelled before `processJobs` visits it again. -/
theorem reported_twice :
    ((after oneStep () [.submitTask 1 0 0 false, .processJobs 0 1, .cancelJob 1]).life 0).answer = some errorWaiting ∧
      ((after oneStep () [.submitTask 1 0 0 false, .processJobs 0 1, .cancelJob 1]).life 0).calls =
        [statusOk, errorNotdone] := by
  decide

end TaskManager

end SaunaFS.Tasks
