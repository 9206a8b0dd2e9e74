/-
The memory that the read caches of a mount account for (`gUsedReadCacheMemory` of `mount/readdata_cache.h`): the loop of
`read_to_buffer` in `mount/readdata.cc`, what a read worker does around it, and how an entry leaves its cache.

A slot holds an entry with its one read, and a step is what one thread does between two points where others can
interfere. When entries are erased, expire or are looked up is left open. The counter is an integer with a mark for a
subtraction that exceeds it.
-/
import SaunaFS.Chunks.ChunkPart
import SaunaFS.Lib.ModifyFirst
import SaunaFS.Lib.Stepwise

namespace SaunaFS.Mount

open ModifyFirst Stepwise List

/-- the exceptions of a read -/
inductive ReadFailure where
  | unrecoverable
  | recoverable
deriving DecidableEq

/-- `gUsedReadCacheMemory`, and whether more was ever subtracted than it held -/
structure Memory where
  used : ℤ
  underflowed : Bool
deriving DecidableEq

namespace Memory

def increase (n : ℕ) (m : Memory) : Memory := { m with used := m.used + n }

def decrease (n : ℕ) (m : Memory) : Memory where
  used := m.used - n
  underflowed := m.underflowed || decide (m.used < n)

end Memory

/-- what a read finds set: `maxRetries`, `gReadCacheMaxSize` and the memory that the system has left -/
structure Limits where
  maxRetries : ℕ
  readCacheMaxSize : ℕ
  availableMemory : ℕ
deriving DecidableEq

/-- `readShouldWaitForSystemMemory`; the difference is one of 64-bit words -/
def readShouldWaitForSystemMemory (limits : Limits) (m : Memory) (bytesToReadLeft : ℕ) : Bool :=
  decide (((limits.readCacheMaxSize : ℤ) - m.used) % 2 ^ 64 < bytesToReadLeft) ||
    decide (limits.availableMemory < bytesToReadLeft)

/-- `getBytesToBeReadFromCS`, which is also what `ChunkReader::readData` appends to the buffer -/
def getBytesToBeReadFromCS (index offset size fileLength : ℕ) : ℕ :=
  let offsetInFile := index * chunkSize + offset
  if fileLength ≤ offsetInFile then 0
  else if fileLength < offsetInFile + size then fileLength - offsetInFile
  else size

/-! ## The loop of `read_to_buffer` -/

/-- the variables of `read_to_buffer`; `fileLength` is the one of the chunk located last -/
structure ReadLoop where
  currentOffset : ℕ
  bytesToRead : ℕ
  tryCounter : ℕ
  preparedChunk : Option ℕ
  forcePrepare : Bool
  fileLength : ℕ
  totalReserved : ℕ
  lastReserved : ℕ
deriving DecidableEq

inductive Phase where
  | queued
  | looping
  | reserved
  | returned (failed : Bool)
  | released (failed : Bool)
deriving DecidableEq

namespace ReadLoop

def init (offset bytes : ℕ) (forcePrepare : Bool) : ReadLoop where
  currentOffset := offset
  bytesToRead := bytes
  tryCounter := 0
  preparedChunk := none
  forcePrepare := forcePrepare
  fileLength := 0
  totalReserved := 0
  lastReserved := 0

variable (l : ReadLoop)

def sizeInChunk : ℕ := min (chunkSize - l.currentOffset % chunkSize) l.bytesToRead

/-- the bytes of the next chunk that the file has -/
def reservation : ℕ :=
  getBytesToBeReadFromCS (l.currentOffset / chunkSize) (l.currentOffset % chunkSize) l.sizeInChunk l.fileLength

/-- `prepareReadingChunk`, if it is called: it throws or finds the length of the file -/
def prepare (located : Except ReadFailure ℕ) : Except ReadFailure ReadLoop :=
  if l.forcePrepare || l.preparedChunk != some (l.currentOffset / chunkSize) then
    located.map fun fileLength =>
      { l with preparedChunk := some (l.currentOffset / chunkSize), forcePrepare := false, fileLength := fileLength }
  else .ok l

/-- the `catch` clauses -/
def catchException (maxRetries : ℕ) (l : ReadLoop) (m : Memory) : ReadFailure → ReadLoop × Phase × Memory
  | .unrecoverable => (l, .returned true, m.decrease l.totalReserved)
  | .recoverable =>
    if maxRetries < l.tryCounter then
      ({ l with forcePrepare := true }, .returned true, m.decrease l.totalReserved)
    else
      ({ l with
          forcePrepare := true
          tryCounter := l.tryCounter + 1
          totalReserved := (l.totalReserved + (2 ^ 32 - l.lastReserved)) % 2 ^ 32 },
        .looping, m.decrease l.lastReserved)

/-- an iteration up to `readData`: what is to be read is reserved -/
def attempt (limits : Limits) (located : Except ReadFailure ℕ) (l : ReadLoop) (m : Memory) :
    ReadLoop × Phase × Memory :=
  match l.prepare located with
  | .error failure => l.catchException limits.maxRetries m failure
  | .ok l =>
    if readShouldWaitForSystemMemory limits m l.reservation then l.catchException limits.maxRetries m .recoverable
    else
      ({ l with lastReserved := l.reservation, totalReserved := (l.totalReserved + l.reservation) % 2 ^ 32 },
        .reserved, m.increase l.reservation)

/-- the exception that ends an iteration before anything is reserved in it -/
def earlyFailure (limits : Limits) (located : Except ReadFailure ℕ) (l : ReadLoop) (m : Memory) :
    Option ReadFailure :=
  match l.prepare located with
  | .error failure => some failure
  | .ok l => if readShouldWaitForSystemMemory limits m l.reservation then some .recoverable else none

/-- the rest of an iteration whose `readData` returned -/
def advance : ReadLoop × Phase :=
  let read := l.reservation
  let next := { l with currentOffset := l.currentOffset + read, bytesToRead := l.bytesToRead - read }
  if read < l.sizeInChunk then (next, .returned false)
  else ({ next with tryCounter := 0 }, if next.bytesToRead = 0 then .returned false else .looping)

end ReadLoop

/-! ## Entries with their reads -/

/-- a read: by a worker for a queued request, or by the reading thread itself. The request of a worker can be given an
error by `clearAndNotify`. -/
structure Reading where
  direct : Bool
  loop : ReadLoop
  phase : Phase
  errorCode : Bool
deriving DecidableEq

/-- whether the read still holds its reference to the entry -/
def Reading.holds (r : Reading) : Bool :=
  match r.phase with
  | .released _ => false
  | _ => true

/-- `ReadCache::Entry`; `results` are the references of query results, `reserved` says in which list of the cache the
entry is -/
structure Slot where
  id : ℕ
  bufferSize : ℕ
  results : ℕ
  reserved : Bool
  reading : Option Reading
deriving DecidableEq

inductive SlotEvent where
  | pickUp
  | discard
  | propagateError
  | attempt (limits : Limits) (located : Except ReadFailure ℕ)
  | readData (maxRetries : ℕ) (thrown : Option ReadFailure)
  | release
  | settle
  | acquireResult
  | releaseResult
  | erase
  | clearReserved

namespace Slot

variable (s : Slot)

def refcount : ℕ := s.results + (if s.reading.any Reading.holds then 1 else 0)

def delete (m : Memory) : Option Slot × Memory := (none, m.decrease s.bufferSize)

/-- what happens to a read; a step that the read is not ready for does nothing -/
def stepReading (r : Reading) (m : Memory) : SlotEvent → Slot × Memory
  | .pickUp =>
    if r.phase = .queued then
      ({ s with reading := some { r with phase := if r.loop.bytesToRead = 0 then .returned false else .looping } }, m)
    else (s, m)
  | .discard =>
    -- the worker finds the request discarded or cancelled
    if r.phase = .queued ∧ r.direct = false then ({ s with reading := none }, m) else (s, m)
  | .propagateError => if r.direct then (s, m) else ({ s with reading := some { r with errorCode := true } }, m)
  | .attempt limits located =>
    if r.phase = .looping then
      let out := r.loop.attempt limits located m
      ({ s with reading := some { r with loop := out.1, phase := out.2.1 } }, out.2.2)
    else (s, m)
  | .readData maxRetries thrown =>
    if r.phase = .reserved then
      match thrown with
      | none =>
        ({ s with
            bufferSize := s.bufferSize + r.loop.reservation
            reading := some { r with loop := r.loop.advance.1, phase := r.loop.advance.2 } }, m)
      | some failure =>
        let out := r.loop.catchException maxRetries m failure
        ({ s with reading := some { r with loop := out.1, phase := out.2.1 } }, out.2.2)
    else (s, m)
  | .release =>
    match r.phase with
    | .returned failed =>
      if r.direct then (s, m) else ({ s with reading := some { r with phase := .released failed } }, m)
    | _ => (s, m)
  | .settle =>
    match r.phase with
    | .returned failed =>
      -- the reading thread keeps the entry in its result
      if r.direct then
        ({ s with bufferSize := if failed then 0 else s.bufferSize, results := s.results + 1, reading := none }, m)
      else (s, m)
    | .released failed =>
      ({ s with bufferSize := if failed || r.errorCode then 0 else s.bufferSize, reading := none }, m)
    | _ => (s, m)
  | _ => (s, m)

def step (m : Memory) : SlotEvent → Option Slot × Memory
  | .acquireResult => (some { s with results := s.results + 1 }, m)
  | .releaseResult => (some { s with results := s.results - 1 }, m)
  | .erase =>
    if s.reserved then (some s, m)
    else if 0 < s.refcount then (some { s with reserved := true }, m)
    else s.delete m
  | .clearReserved => if s.reserved ∧ s.refcount = 0 then s.delete m else (some s, m)
  | e =>
    match s.reading with
    | none => (some s, m)
    | some r => let out := s.stepReading r m e; (some out.1, out.2)

/-- what the destructor of a cache does with an entry: it is erased, and cleared if it is reserved then -/
def destroy (m : Memory) : Option Slot × Memory :=
  match s.step m .erase with
  | (none, m) => (none, m)
  | (some s, m) => s.step m .clearReserved

/-- a step that keeps the accounts: no exception is retried before anything is reserved in the iteration, unless nothing
was reserved before; no buffer of a successful read is cleared by a cancelled request; no entry of a failed read is
deleted between the worker's release and its clearing of the buffer -/
def Careful (m : Memory) : SlotEvent → Prop
  | .attempt limits located => ∀ r ∈ s.reading, r.phase = .looping →
      r.loop.earlyFailure limits located m = some .recoverable → r.loop.tryCounter ≤ limits.maxRetries →
      r.loop.lastReserved = 0
  | .settle => ∀ r ∈ s.reading, r.phase = .released false → r.errorCode = true → s.bufferSize = 0
  | .erase => ∀ r ∈ s.reading, r.phase = .released true → s.bufferSize = 0
  | .clearReserved => ∀ r ∈ s.reading, r.phase = .released true → s.bufferSize = 0
  | _ => True

instance (s : Slot) (m : Memory) (e : SlotEvent) : Decidable (s.Careful m e) := by
  cases e <;> unfold Careful <;> infer_instance

end Slot

/-! ## All caches -/

structure ReadCaches where
  slots : List Slot
  memory : Memory
  nextId : ℕ

inductive Event where
  | request (offset : ℕ) (bytes : Fin (2 ^ 32)) (direct forcePrepare : Bool)
  | slot (id : ℕ) (event : SlotEvent)

namespace ReadCaches

def init : ReadCaches where
  slots := []
  memory := ⟨0, false⟩
  nextId := 0

variable (s : ReadCaches)

def find (id : ℕ) : Option Slot := s.slots.find? (·.id == id)

def step : Event → ReadCaches
  | .request offset bytes direct forcePrepare =>
    { s with
      slots := s.slots ++
        [{ id := s.nextId, bufferSize := 0, results := 0, reserved := false,
           reading := some
            { direct := direct, loop := .init offset bytes forcePrepare, phase := .queued, errorCode := false } }]
      nextId := s.nextId + 1 }
  | .slot id event =>
    match s.find id with
    | none => s
    | some slot =>
      match slot.step s.memory event with
      | (some slot', m) => { s with slots := modifyFirst (·.id == id) (fun _ => slot') s.slots, memory := m }
      | (none, m) => { s with slots := s.slots.eraseP (·.id == id), memory := m }

def run (events : List Event) : ReadCaches := events.foldl step s

def Careful : Event → Prop
  | .request .. => True
  | .slot id event => ∀ slot ∈ s.find id, slot.Careful s.memory event

instance (s : ReadCaches) (e : Event) : Decidable (s.Careful e) := by
  cases e <;> unfold Careful <;> infer_instance

/-- no read is in progress -/
def Quiescent : Prop := ∀ slot ∈ s.slots, slot.reading = none

instance (s : ReadCaches) : Decidable s.Quiescent := inferInstanceAs (Decidable (∀ slot ∈ s.slots, slot.reading = none))

def bufferSizes : ℕ := (s.slots.map Slot.bufferSize).sum

def destroySlots : List Slot → Memory → List Slot × Memory
  | [], m => ([], m)
  | slot :: slots, m =>
    let destroyed := slot.destroy m
    let rest := destroySlots slots destroyed.2
    (destroyed.1.toList ++ rest.1, rest.2)

def destroyAll : ReadCaches :=
  { s with slots := (destroySlots s.slots s.memory).1, memory := (destroySlots s.slots s.memory).2 }

end ReadCaches

/-! ## One iteration -/

theorem getBytesToBeReadFromCS_le {index offset size fileLength : ℕ} :
    getBytesToBeReadFromCS index offset size fileLength ≤ size := by
  unfold getBytesToBeReadFromCS
  simp only
  split_ifs <;> omega

namespace ReadLoop

variable {l l' : ReadLoop} {m : Memory} {limits : Limits} {located : Except ReadFailure ℕ} {size reserved : ℕ}

theorem reservation_le : l.reservation ≤ l.bytesToRead := (getBytesToBeReadFromCS_le).trans (min_le_right _ _)

theorem prepare_ok (h : l.prepare located = .ok l') : l'.bytesToRead = l.bytesToRead ∧ l'.tryCounter = l.tryCounter ∧
      l'.totalReserved = l.totalReserved ∧ l'.lastReserved = l.lastReserved := by
  unfold prepare at h
  split_ifs at h
  · cases located with
    | error failure => cases h
    | ok fileLength =>
      cases h
      exact ⟨rfl, rfl, rfl, rfl⟩
  · cases h
    exact ⟨rfl, rfl, rfl, rfl⟩

/-- what the handlers give back, if the amount they subtract for a retry is the one that is reserved in the iteration -/
theorem catchException_cases (maxRetries : ℕ) (m : Memory) (failure : ReadFailure)
    (ht : l.totalReserved = size + reserved) (hs : size + reserved < 2 ^ 32)
    (hl : failure = .recoverable → l.tryCounter ≤ maxRetries → l.lastReserved = reserved) :
    (∃ l', l.catchException maxRetries m failure = (l', .returned true, m.decrease (size + reserved))) ∨
      ∃ l', l.catchException maxRetries m failure = (l', .looping, m.decrease reserved) ∧
        l'.totalReserved = size ∧ l'.bytesToRead = l.bytesToRead := by
  cases failure with
  | unrecoverable => exact .inl ⟨l, by rw [← ht]; rfl⟩
  | recoverable =>
    simp only [catchException]
    split_ifs with htr
    · exact .inl ⟨_, by rw [← ht]⟩
    · obtain rfl := hl rfl (not_lt.1 htr)
      refine .inr ⟨_, rfl, ?_, rfl⟩
      simp only [ht]
      omega

theorem attempt_cases (ht : l.totalReserved = size) (hs : size + l.bytesToRead < 2 ^ 32)
    (hl : l.earlyFailure limits located m = some .recoverable → l.tryCounter ≤ limits.maxRetries →
      l.lastReserved = 0) : (∃ l', l.attempt limits located m = (l', .returned true, m.decrease size)) ∨
      (∃ l', l.attempt limits located m = (l', .looping, m.decrease 0) ∧
        l'.totalReserved = size ∧ l'.bytesToRead = l.bytesToRead) ∨
      ∃ l', l.attempt limits located m = (l', .reserved, m.increase l'.lastReserved) ∧
        l'.totalReserved = size + l'.lastReserved ∧ l'.lastReserved = l'.reservation ∧
        l'.bytesToRead = l.bytesToRead := by
  unfold attempt
  unfold earlyFailure at hl
  cases hp : l.prepare located with
  | error failure =>
    rw [hp] at hl
    have hc := catchException_cases limits.maxRetries m failure (ht.trans (add_zero size).symm) (by omega)
      fun h => hl (by rw [h])
    rcases hc with h | h
    · exact .inl h
    · exact .inr (.inl h)
  | ok l' =>
    obtain ⟨hb, htr, ht', hl'⟩ := prepare_ok hp
    simp only [hp] at hl ⊢
    split_ifs at hl ⊢ with hw
    · have hc := catchException_cases limits.maxRetries m .recoverable
        (ht'.trans (ht.trans (add_zero size).symm)) (by omega) fun _ h => hl'.trans (hl rfl (htr ▸ h))
      rcases hc with h | ⟨l'', h, h1, h2⟩
      · exact .inl h
      · exact .inr (.inl ⟨l'', h, h1, h2.trans hb⟩)
    · refine .inr (.inr ⟨_, rfl, ?_, rfl, hb⟩)
      have hle := l'.reservation_le
      simp only [ht', ht]
      exact Nat.mod_eq_of_lt (by omega)

theorem advance_cases : (∃ l', l.advance = (l', .returned false)) ∨
      ∃ l', l.advance = (l', .looping) ∧ l'.totalReserved = l.totalReserved ∧
        l'.bytesToRead = l.bytesToRead - l.reservation := by
  simp only [advance]
  split_ifs
  · exact .inl ⟨_, rfl⟩
  · exact .inl ⟨_, rfl⟩
  · exact .inr ⟨_, rfl, rfl, rfl⟩

end ReadLoop

/-! ## What an entry is charged for -/

namespace Slot

/-- the part of the counter that is due to an entry -/
def due (s : Slot) : ℕ :=
  match s.reading with
  | none => s.bufferSize
  | some r =>
    match r.phase with
    | .queued => s.bufferSize
    | .looping => s.bufferSize
    | .reserved => s.bufferSize + r.loop.lastReserved
    | .returned failed => if failed then 0 else s.bufferSize
    | .released failed => if failed then 0 else s.bufferSize

/-- what the variables of the loop say about the buffer -/
def Sound (s : Slot) : Prop :=
  match s.reading with
  | none => True
  | some r =>
    match r.phase with
    | .queued => s.bufferSize = 0 ∧ r.loop.totalReserved = 0 ∧ r.loop.bytesToRead < 2 ^ 32
    | .looping => r.loop.totalReserved = s.bufferSize ∧ s.bufferSize + r.loop.bytesToRead < 2 ^ 32
    | .reserved => r.loop.totalReserved = s.bufferSize + r.loop.lastReserved ∧
        r.loop.lastReserved = r.loop.reservation ∧ s.bufferSize + r.loop.bytesToRead < 2 ^ 32
    | _ => True

/-- a step of an entry charges it for what it changes, and takes no more than it was charged for -/
structure Settles (s : Slot) (m : Memory) (out : Option Slot × Memory) : Prop where
  used : out.2.used + s.due = m.used + (out.1.elim 0 due : ℕ)
  underflowed : (s.due : ℤ) ≤ m.used → m.underflowed = false → out.2.underflowed = false
  sound : ∀ x, out.1 = some x → x.Sound

variable {m : Memory} {x : Slot} {n : ℕ} {e : SlotEvent}

theorem settles_same {s : Slot} (hx : x.Sound) (hd : x.due = s.due) : s.Settles m (some x, m) where
  used := by simp [hd]
  underflowed := fun _ h => h
  sound := by rintro _ ⟨⟩; exact hx

variable {s : Slot}

theorem settles_decrease {x : Option Slot} (hx : ∀ y, x = some y → y.Sound)
    (hd : s.due = x.elim 0 due + n) : s.Settles m (x, m.decrease n) where
  used := by
    simp only [Memory.decrease, hd]
    push_cast
    ring
  underflowed := by
    intro hl hm
    simp only [Memory.decrease, hm, Bool.false_or, decide_eq_false_iff_not]
    omega
  sound := hx

theorem settles_increase {s : Slot} (hx : x.Sound) (hd : x.due = s.due + n) : s.Settles m (some x, m.increase n) where
  used := by
    simp only [Memory.increase, Option.elim_some, hd]
    push_cast
    ring
  underflowed := fun _ h => h
  sound := by rintro _ ⟨⟩; exact hx

theorem settles_stepReading {r : Reading} (hr : s.reading = some r) (hs : s.Sound) (he : s.Careful m e) :
    s.Settles m (some (s.stepReading r m e).1, (s.stepReading r m e).2) := by
  have hsa : s.Settles m (some s, m) := settles_same hs rfl
  cases e with
  | pickUp =>
    simp only [stepReading]
    split_ifs with hp hb
    · simp only [Sound, hr, hp] at hs
      exact settles_same (by simp [Sound]) (by simp [due, hr, hp])
    · simp only [Sound, hr, hp] at hs
      refine settles_same ?_ (by simp [due, hr, hp])
      simp only [Sound]
      omega
    · exact hsa
  | discard =>
    simp only [stepReading]
    split_ifs with hp
    · exact settles_same (by simp [Sound]) (by simp [due, hr, hp.1])
    · exact hsa
  | propagateError =>
    simp only [stepReading]
    split_ifs with hd
    · exact hsa
    · simp only [Sound, hr] at hs
      exact settles_same (by simpa [Sound] using hs) (by simp [due, hr])
  | attempt limits located =>
    simp only [stepReading]
    split_ifs with hp
    · simp only [Sound, hr, hp] at hs
      rcases ReadLoop.attempt_cases hs.1 hs.2 (he r hr hp) with ⟨l', h⟩ | ⟨l', h, h1, h2⟩ | ⟨l', h, h1, h2, h3⟩
      · rw [h]
        exact settles_decrease (by simp [Sound]) (by simp [due, hr, hp])
      · rw [h]
        exact settles_decrease (by simpa [Sound, h1, h2] using hs.2) (by simp [due, hr, hp])
      · rw [h]
        exact settles_increase (by simpa [Sound, h1, ← h2, h3] using hs.2) (by simp [due, hr, hp])
    · exact hsa
  | readData maxRetries thrown =>
    simp only [stepReading]
    split_ifs with hp
    · simp only [Sound, hr, hp] at hs
      obtain ⟨ht, hl, hsi⟩ := hs
      have hle := r.loop.reservation_le
      cases thrown with
      | none =>
        rcases r.loop.advance_cases with ⟨l', h⟩ | ⟨l', h, h1, h2⟩
        · exact settles_same (by simp [Sound, h]) (by simp [due, hr, hp, h, hl])
        · refine settles_same ?_ (by simp [due, hr, hp, h, hl])
          simp only [Sound, h, h1, h2]
          omega
      | some failure =>
        have hc := ReadLoop.catchException_cases maxRetries m failure ht (by omega) fun _ _ => rfl
        rcases hc with ⟨l', h⟩ | ⟨l', h, h1, h2⟩
        · simp only [h]
          exact settles_decrease (by simp [Sound]) (by simp [due, hr, hp])
        · simp only [h]
          exact settles_decrease (by simpa [Sound, h1, h2] using hsi) (by simp [due, hr, hp])
    · exact hsa
  | release =>
    simp only [stepReading]
    split
    · next failed hp =>
      split_ifs
      · exact hsa
      · exact settles_same (by simp [Sound]) (by simp [due, hr, hp])
    · exact hsa
  | settle =>
    simp only [stepReading]
    split
    · next failed hp =>
      by_cases hd : r.direct
      · rw [if_pos hd]
        exact settles_same (by simp [Sound]) (by simp [due, hr, hp])
      · rw [if_neg hd]
        exact hsa
    · next failed hp =>
      refine settles_same (by simp [Sound]) ?_
      cases failed with
      | true => simp [due, hr, hp]
      | false =>
        cases her : r.errorCode with
        | false => simp [due, hr, hp]
        | true => simp [due, hr, hp, he r hr hp her]
    · exact hsa
  | acquireResult | releaseResult | erase | clearReserved => exact hsa

theorem settles_delete (hre : s.refcount = 0)
    (hc : ∀ r, s.reading = some r → r.phase = .released true → s.bufferSize = 0) : s.Settles m (s.delete m) := by
  refine settles_decrease (by simp) ?_
  cases hr : s.reading with
  | none => simp [due, hr]
  | some r =>
    simp only [refcount, hr, Option.any_some, Nat.add_eq_zero_iff, ite_eq_right_iff, one_ne_zero, imp_false] at hre
    cases hp : r.phase with
    | released failed =>
      cases failed with
      | true => simp [due, hr, hp, hc r hr hp]
      | false => simp [due, hr, hp]
    | _ => simp [Reading.holds, hp] at hre

theorem destroy_free (hr : s.reading = none) (hre : s.results = 0) (m : Memory) :
    s.destroy m = (none, m.decrease s.bufferSize) := by
  have href : s.refcount = 0 := by simp [refcount, hr, hre]
  unfold destroy
  cases hres : s.reserved with
  | false | true => simp [step, hres, href, delete]

theorem settles_step (hs : s.Sound) (he : s.Careful m e) : s.Settles m (s.step m e) := by
  have hsa : s.Settles m (some s, m) := settles_same hs rfl
  have hre : s.Settles m (match s.reading with
      | none => (some s, m)
      | some r => let out := s.stepReading r m e; (some out.1, out.2)) := by
    cases hr : s.reading with
    | none => exact hsa
    | some r => exact settles_stepReading hr hs he
  cases e with
  | acquireResult | releaseResult => exact settles_same hs rfl
  | erase =>
    simp only [step]
    split_ifs with hres href
    · exact hsa
    · exact settles_same hs rfl
    · exact settles_delete (Nat.eq_zero_of_not_pos href) he
  | clearReserved =>
    simp only [step]
    split_ifs with hres
    · exact settles_delete hres.2 he
    · exact hsa
  | _ => exact hre

end Slot

/-! ## All entries -/

namespace ReadCaches

/-- what all entries are charged for -/
def allDue (s : ReadCaches) : ℕ := (s.slots.map Slot.due).sum

structure Inv (s : ReadCaches) : Prop where
  used : s.memory.used = s.allDue
  underflowed : s.memory.underflowed = false
  sound : ∀ slot ∈ s.slots, slot.Sound

theorem inv_init : init.Inv where
  used := rfl
  underflowed := rfl
  sound := by simp [init]

variable {s : ReadCaches}

theorem Inv.step (h : s.Inv) {e : Event} (he : s.Careful e) : (s.step e).Inv := by
  cases e with
  | request offset bytes direct forcePrepare =>
    refine ⟨?_, h.underflowed, ?_⟩
    · simp [ReadCaches.step, allDue, Slot.due, h.used]
    · simp only [ReadCaches.step, mem_append, mem_singleton]
      rintro slot (hslo | rfl)
      · exact h.sound slot hslo
      · simp [Slot.Sound, ReadLoop.init]
  | slot id event =>
    cases hf : s.find id with
    | none => simpa [ReadCaches.step, hf] using h
    | some slot =>
      obtain ⟨before, after, hsl, her, hm⟩ := split_of_find hf
      have hme : slot ∈ s.slots := by simp [hsl]
      have hs := Slot.settles_step (h.sound slot hme) (he slot hf)
      have hd : s.allDue = slot.due + ((before ++ after).map Slot.due).sum := by
        simp only [allDue, hsl, map_append, map_cons, sum_append, sum_cons]
        omega
      have hr : ∀ x ∈ before ++ after, x.Sound := fun x hx =>
        h.sound x (by rw [hsl]; simp only [mem_append, mem_cons] at hx ⊢; tauto)
      have hus := h.used
      have hu := hs.underflowed (by omega) h.underflowed
      have hc := hs.used
      have hso := hs.sound
      simp only [ReadCaches.step, hf]
      generalize slot.step s.memory event = out at hu hc hso ⊢
      obtain ⟨slot', m⟩ := out
      cases slot' with
      | none =>
        refine ⟨?_, hu, ?_⟩
        · simp only [allDue, her]
          simp only [Option.elim_none] at hc
          omega
        · simpa only [her] using hr
      | some slot' =>
        refine ⟨?_, hu, ?_⟩
        · simp only [map_append, sum_append] at hd
          simp only [allDue, hm, map_append, map_cons, sum_append, sum_cons]
          simp only [Option.elim_some] at hc
          omega
        · simp only [hm]
          intro x hx
          rcases mem_cons.1 (perm_middle.mem_iff.1 hx) with rfl | hx
          · exact hso x rfl
          · exact hr x hx

theorem Inv.used_of_quiescent (h : s.Inv) (hq : s.Quiescent) : s.memory.used = s.bufferSizes := by
  have hd : ∀ slot ∈ s.slots, slot.due = slot.bufferSize := fun slot hs => by simp [Slot.due, hq slot hs]
  rw [h.used, allDue, bufferSizes, map_congr_left hd]

/-! ## Destroyed caches -/

theorem destroySlots_free {slots : List Slot} (hf : ∀ slot ∈ slots, slot.reading = none ∧ slot.results = 0)
    (m : Memory) (hl : ((slots.map Slot.bufferSize).sum : ℤ) ≤ m.used) (hm : m.underflowed = false) :
    destroySlots slots m = ([], ⟨m.used - (slots.map Slot.bufferSize).sum, false⟩) := by
  induction slots generalizing m with
  | nil => simp [destroySlots, ← hm]
  | cons slot slots ih =>
    obtain ⟨hr, h0⟩ := hf slot mem_cons_self
    simp only [map_cons, sum_cons, Nat.cast_add] at hl ⊢
    have hre := ih (fun x hx => hf x (mem_cons_of_mem slot hx)) (m.decrease slot.bufferSize)
      (by simp only [Memory.decrease]; omega)
      (by simp only [Memory.decrease, hm, Bool.false_or, decide_eq_false_iff_not]; omega)
    simp only [destroySlots, Slot.destroy_free hr h0, hre, Option.toList_none, nil_append]
    simp only [Memory.decrease, sub_sub]

/-- **read cache memory**: in a run of careful steps no subtraction exceeds the counter; whenever no read is in progress
it is the size of all buffers, and it returns to zero when all caches are destroyed -/
theorem used_eq_sum_bufferSize (events : List Event) (hc : Along step Careful init events) :
    let s := init.run events
    s.memory.underflowed = false ∧ (s.Quiescent → s.memory.used = s.bufferSizes ∧
        ((∀ slot ∈ s.slots, slot.results = 0) →
          s.destroyAll.slots = [] ∧ s.destroyAll.memory.used = 0 ∧ s.destroyAll.memory.underflowed = false)) := by
  intro s
  have h : s.Inv := inv_run (P := Inv) (fun _ _ hc hs => hs.step hc) init events hc inv_init
  refine ⟨h.underflowed, fun hq => ⟨h.used_of_quiescent hq, fun hfree => ?_⟩⟩
  have hused := h.used_of_quiescent hq
  have hdestroy := destroySlots_free (fun slot hslot => ⟨hq slot hslot, hfree slot hslot⟩) s.memory
    hused.ge h.underflowed
  simp only [destroyAll, hdestroy, hused, bufferSizes]
  exact ⟨trivial, sub_self _, trivial⟩

/-- room for everything -/
def roomy : Limits := ⟨10, 2 ^ 30, 2 ^ 30⟩

/-- a worker's read of one block, from the request to the end; at first the chunk cannot be located -/
def readBlock : List Event :=
  [.request 0 65536 false false, .slot 0 .pickUp, .slot 0 (.attempt roomy (.error .recoverable)),
    .slot 0 (.attempt roomy (.ok 65536)), .slot 0 (.readData 10 none), .slot 0 .release, .slot 0 .settle]

theorem used_eq_sum_bufferSize_readBlock :
    Along step Careful init readBlock ∧ (init.run readBlock).memory.used = 65536 ∧
      (init.run readBlock).bufferSizes = 65536 ∧
      (init.run readBlock).destroyAll.memory.used = 0 := by
  have hcareful : Along step Careful init readBlock := by decide
  have h := (used_eq_sum_bufferSize readBlock hcareful).2 (by decide)
  have hsize : (init.run readBlock).bufferSizes = 65536 := by decide
  exact ⟨hcareful, by rw [h.1, hsize]; rfl, hsize, (h.2 (by decide)).2.1⟩

/-- `readData` throws, then the chunk cannot be located for the second attempt, and the third succeeds -/
def retried : List Event :=
  [.request 0 65536 false false, .slot 0 .pickUp, .slot 0 (.attempt roomy (.ok 65536)),
    .slot 0 (.readData 10 (some .recoverable)), .slot 0 (.attempt roomy (.error .recoverable)),
    .slot 0 (.attempt roomy (.ok 65536)), .slot 0 (.readData 10 none), .slot 0 .release, .slot 0 .settle]

/-- the failed second attempt subtracts what the first one reserved and has already given back -/
theorem retry_underflows :
    let s := init.run retried
    s.Quiescent ∧ s.memory.underflowed ∧ s.memory.used = 0 ∧ s.bufferSizes = 65536 ∧
      s.destroyAll.memory.used = -65536 := by
  decide

-- the other two kinds of steps: a cancelled request whose read succeeds stays counted
example :
    let s := init.run ([.request 0 65536 false false, .slot 0 .pickUp, .slot 0 .propagateError] ++ readBlock.drop 2)
    s.Quiescent ∧ s.memory.used = 65536 ∧ s.bufferSizes = 0 := by
  decide

-- and an entry of a failed read that is erased before the worker has cleared it is subtracted twice
example :
    let s := init.run
      [.request 0 67174400 false false, .slot 0 .pickUp, .slot 0 (.attempt roomy (.ok 67174400)),
        .slot 0 (.readData 10 none), .slot 0 (.attempt roomy (.ok 67174400)),
        .slot 0 (.readData 10 (some .unrecoverable)), .slot 0 .release, .slot 0 .erase]
    s.slots = [] ∧ s.memory.used = -67108864 := by
  decide

end ReadCaches

end SaunaFS.Mount
