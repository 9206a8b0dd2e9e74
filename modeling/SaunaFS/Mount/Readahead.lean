/-
Readahead of one open file (`ReadRecord` of `mount/readdata.{h,cc}` with its `ReadCache`): how
`ReadaheadOperationsManager::request` puts together a result, and how the read workers finish their requests.

`request` runs under the inode lock, but a worker marks its entry as done without it, so the call is cut at the points
where it looks at entries again. A request is named by the number of its entry. Which entries have expired, the advice
on the window and the size of readahead are left open. The notified requests and the answers of `request` are kept as
history.
-/
import SaunaFS.Lib.Stepwise
import SaunaFS.Chunks.ChunkPart

namespace SaunaFS.Mount.Readahead

open Function

def roundUpToBlocksize (bytes : ℕ) : ℕ := (bytes + blockSize - 1) / blockSize * blockSize

def toSize (n : ℕ) : ℕ := n % 2 ^ 32

/-! ## Entries -/

/-- how far an entry is: just inserted, with a request in the queue or in the hands of a worker, or done. A read that
returned fewer bytes than it was asked for met the end of the file. -/
inductive EntryStatus where
  | inserted
  | queued
  | reading
  | filled (bytes : ℕ)
  | failed
deriving DecidableEq

structure Entry where
  offset : ℕ
  asked : ℕ
  status : EntryStatus
deriving DecidableEq

namespace Entry

variable (e : Entry)

def done : Bool :=
  match e.status with
  | .filled _ => true
  | .failed => true
  | _ => false

/-- `requested_size`, which a worker sets to the size of the buffer when it is done -/
def requestedSize : ℕ :=
  match e.status with
  | .filled bytes => bytes
  | .failed => 0
  | _ => e.asked

/-- `ReadaheadRequestEntry::endOffset`, and `Result::endOffset` of the last entry of a result -/
def endOffset : ℕ := e.offset + e.requestedSize

def IsFilled : Prop := ∃ bytes, e.status = .filled bytes

instance (e : Entry) : Decidable e.IsFilled :=
  match h : e.status with
  | .filled bytes => .isTrue ⟨bytes, h⟩
  | .inserted | .queued | .reading | .failed => .isFalse fun ⟨_, h'⟩ => by rw [h] at h'; cases h'

/-- the entry answers for a byte of the file: its buffer has it, or its read met the end of the file before it -/
def Answers (byte : ℕ) : Prop :=
  ∃ bytes, e.status = .filled bytes ∧ e.offset ≤ byte ∧
    (byte < e.offset + bytes ∨ (bytes < e.asked ∧ byte < e.offset + e.asked))

end Entry

/-! ## The cache -/

abbrev Heap := ℕ → Entry

/-- `upper_bound(offset)`, one back: the entries before the last one that starts at or before the offset, and the
rest -/
def splitAtOffset (heap : Heap) (offset : ℕ) : List ℕ → List ℕ × List ℕ
  | [] => ([], [])
  | [x] => ([], [x])
  | x :: y :: ids =>
    if (heap y).offset ≤ offset then
      let rest := splitAtOffset heap offset (y :: ids)
      (x :: rest.1, rest.2)
    else ([], x :: y :: ids)

/-- what a query found: entries added to the result, entries erased, and what is left to look for -/
structure Found where
  added : List ℕ
  erased : List ℕ
  offset : ℕ
  bytesLeft : ℕ

/-- the loop of `query` -/
def scan (heap : Heap) (expired : ℕ → Bool) : List ℕ → ℕ → ℕ → Found
  | [], offset, bytesLeft => ⟨[], [], offset, bytesLeft⟩
  | id :: ids, offset, bytesLeft =>
    if bytesLeft = 0 ∨ offset < (heap id).offset then ⟨[], [], offset, bytesLeft⟩
    else
      match (heap id).status with
      | .failed => let f := scan heap expired ids offset bytesLeft; { f with erased := id :: f.erased }
      | .filled bytes =>
        if expired id ∨ bytes = 0 then
          let f := scan heap expired ids offset bytesLeft
          { f with erased := id :: f.erased }
        else if offset < (heap id).offset + bytes then
          let taken := min (bytes - (offset - (heap id).offset)) bytesLeft
          let f := scan heap expired ids (offset + taken) (bytesLeft - taken)
          { f with added := id :: f.added }
        else scan heap expired ids offset bytesLeft
      | _ => scan heap expired ids offset bytesLeft

def clearCollisions (heap : Heap) (startOffset : ℕ) : List ℕ → List ℕ
  | [] => []
  | id :: ids =>
    if (heap id).offset < startOffset then
      if (heap id).done ∧ startOffset < (heap id).endOffset then clearCollisions heap startOffset ids
      else id :: clearCollisions heap startOffset ids
    else id :: ids

/-- the insertion of `entries_`, which is ordered by offset -/
def insertByOffset (heap : Heap) (id : ℕ) : List ℕ → List ℕ
  | [] => [id]
  | x :: ids => if (heap id).offset < (heap x).offset then id :: x :: ids else x :: insertByOffset heap id ids

/-! ## The record -/

/-- what the adviser says at a call, and the limit on requests -/
structure Advice where
  isSequential : Bool
  window : ℕ
  throughputWindow : ℕ
  maxReadaheadRequests : ℕ

/-- where a call of `request` is -/
inductive Phase where
  /-- before `continuousOffsetRequested` looks at the first pending request -/
  | search (cachedOffset : ℕ)
  /-- before the first pending request is taken over -/
  | take (front cachedOffset : ℕ)
  /-- before the second query -/
  | again (cachedOffset maximumRequestedOffset : ℕ) (taken : Option ℕ)
  /-- before a request is added for the last entry -/
  | append (requestOffset bytesToReadLeft : ℕ)
  /-- before the decision to wait -/
  | decide (rcvp : Option ℕ)

structure Call where
  offset : ℕ
  size : ℕ
  advice : Advice
  result : List ℕ
  phase : Phase

def Call.recommendedSize (c : Call) : ℕ := roundUpToBlocksize (max c.size c.advice.window)

/-- what `request` returned -/
structure Answer where
  offset : ℕ
  size : ℕ
  mustWait : Bool
  rcvp : Option ℕ
  result : List ℕ
deriving DecidableEq

structure ReadRecord where
  heap : Heap
  nextId : ℕ
  /-- `cache.entries_` -/
  cached : List ℕ
  /-- `readaheadRequests.pendingRequests_` -/
  pending : List ℕ
  errorCode : ℕ → Bool
  /-- requests in state `kDiscarded` -/
  discarded : ℕ → Bool
  /-- requests in state `kFinished` -/
  finished : ℕ → Bool
  /-- requests whose worker has ended its read and still has to take the inode lock -/
  ending : ℕ → Bool
  suggestedReadaheadReqs : ℕ
  /-- the call that holds the inode lock -/
  call : Option Call
  notified : ℕ → Bool
  answers : List Answer

namespace ReadRecord

variable (s : ReadRecord) (c : Call)

def setStatus (id : ℕ) (status : EntryStatus) : ReadRecord :=
  { s with heap := update s.heap id { s.heap id with status := status } }

def collectGarbage (garbage : ℕ → Bool) (s : ReadRecord) : ReadRecord :=
  { s with cached := s.cached.filter fun id => !(garbage id && (s.heap id).done) }

/-- `ReadCache::insert` at the position found for the offset -/
def insert (offset size : ℕ) (s : ReadRecord) : ReadRecord :=
  let heap := update s.heap s.nextId ⟨offset, size, .inserted⟩
  let parts := splitAtOffset heap offset s.cached
  { s with
    heap := heap
    nextId := s.nextId + 1
    cached := insertByOffset heap s.nextId (parts.1 ++ clearCollisions heap (offset + size) parts.2) }

/-- `query`, without and with `insertPending`; with it, what is left is inserted as a new entry -/
def query (offset size : ℕ) (expired garbage : ℕ → Bool) (s : ReadRecord) : ReadRecord × Found :=
  let s := s.collectGarbage garbage
  let found := scan s.heap expired (splitAtOffset s.heap offset s.cached).2 offset size
  ({ s with cached := s.cached.filter fun id => !found.erased.contains id }, found)

def queryInsert (offset size : ℕ) (expired garbage : ℕ → Bool) (s : ReadRecord) : ReadRecord × List ℕ :=
  let r := s.query offset size expired garbage
  if r.2.bytesLeft = 0 then (r.1, r.2.added)
  else
    -- an entry that starts here is pending, and makes room
    let s := { r.1 with cached := r.1.cached.filter fun id => decide ((r.1.heap id).offset ≠ r.2.offset) }
    (s.insert r.2.offset r.2.bytesLeft, r.2.added ++ [s.nextId])

/-- `find`, which erases an entry without data -/
def find (offset : ℕ) (s : ReadRecord) : ReadRecord × Option ℕ :=
  match s.cached.find? fun id => decide ((s.heap id).offset = offset) with
  | none => (s, none)
  | some id =>
    if (s.heap id).requestedSize = 0 then ({ s with cached := s.cached.erase id }, none) else (s, some id)

def addRequest (id : ℕ) (s : ReadRecord) : ReadRecord := { s.setStatus id .queued with pending := s.pending ++ [id] }

/-- the loop of `addExtraRequests_`; every round moves the offset, so the fuel is never used up -/
def extraLoop (garbage : ℕ → Bool) (limit satisfyingSize : ℕ) : ℕ → ℕ → ReadRecord → ReadRecord
  | 0, _, s => s
  | fuel + 1, maximumRequestedOffset, s =>
    if s.pending.length < s.suggestedReadaheadReqs ∧ maximumRequestedOffset < limit then
      match s.find maximumRequestedOffset with
      | (s, some id) => extraLoop garbage limit satisfyingSize fuel
        (maximumRequestedOffset + (s.heap id).requestedSize) s
      | (s, none) =>
        let s := s.collectGarbage garbage
        extraLoop garbage limit satisfyingSize fuel (maximumRequestedOffset + satisfyingSize)
          ((s.insert maximumRequestedOffset (toSize satisfyingSize)).addRequest s.nextId)
    else s

def addExtraRequests (garbage : ℕ → Bool) (advice : Advice) (currentOffset satisfyingSize maximumRequestedOffset : ℕ)
    (s : ReadRecord) : ReadRecord :=
  let start := match s.pending.getLast? with
    | none => maximumRequestedOffset
    | some last => (s.heap last).endOffset
  let limit := currentOffset + min (advice.maxReadaheadRequests * satisfyingSize) advice.throughputWindow
  s.extraLoop garbage limit satisfyingSize (limit - start) start

/-- `discardAllPendingRequests`; the requests that nobody else refers to are not read any more -/
def discardAllPendingRequests (unreferenced : ℕ → Bool) (s : ReadRecord) : ReadRecord :=
  { s with
    discarded := fun id =>
      s.discarded id || (s.pending.contains id && decide ((s.heap id).status = .queued) && unreferenced id)
    pending := [] }

/-- the end of a call -/
def answer (mustWait : Bool) (rcvp : Option ℕ) (s : ReadRecord) : ReadRecord :=
  { s with call := none, answers := ⟨c.offset, c.size, mustWait, rcvp, c.result⟩ :: s.answers }

def tryNotify : ReadRecord :=
  { s with
    notified := fun id => s.notified id || (s.pending.takeWhile s.finished).contains id
    pending := s.pending.dropWhile s.finished }

/-- `clearAndNotify`; the request and all those behind it get its error -/
def clearAndNotify (id : ℕ) (s : ReadRecord) : ReadRecord :=
  let removed := s.pending.dropWhile (· != id)
  { s with
    errorCode := fun x => s.errorCode x || removed.contains x
    notified := fun x => s.notified x || removed.contains x
    pending := s.pending.takeWhile (· != id) }

def resultEnd (result : List ℕ) (offset : ℕ) : ℕ :=
  match result.getLast? with
  | none => offset
  | some id => (s.heap id).endOffset

/-! ## The pieces of `request` -/

/-- up to the first query; served from the cache, the call is over -/
def beginRequest (offset size : ℕ) (advice : Advice) (expired garbage : ℕ → Bool) (s : ReadRecord) : ReadRecord :=
  let r := s.query offset size expired garbage
  let c : Call := ⟨offset, size, advice, r.2.added, .search r.2.offset⟩
  if r.2.bytesLeft = 0 then
    answer c false none
      (r.1.addExtraRequests garbage advice offset c.recommendedSize (r.1.resultEnd c.result offset))
  else
    { r.1 with
      suggestedReadaheadReqs :=
        if advice.isSequential then min advice.maxReadaheadRequests (r.1.suggestedReadaheadReqs + 1) else 0
      call := some c }

variable (cachedOffset : ℕ)

/-- `continuousOffsetRequested`. Its loop compares with the first pending request in every round, so it takes over that
request or none. -/
def searchStep (s : ReadRecord) : ReadRecord :=
  match s.pending with
  | [] => { s with call := some { c with phase := .again cachedOffset cachedOffset none } }
  | front :: _ =>
    if (s.heap front).offset ≤ cachedOffset ∧ cachedOffset < (s.heap front).endOffset then
      { s with call := some { c with phase := .take front cachedOffset } }
    else { s with call := some { c with phase := .again cachedOffset cachedOffset none } }

/-- the first pending request is added to the result -/
def takeStep (front cachedOffset : ℕ) (garbage : ℕ → Bool) (s : ReadRecord) : ReadRecord :=
  let c := { c with result := c.result ++ [front] }
  let reached := (s.heap front).endOffset
  if c.offset + c.size ≤ reached then
    answer c true (some front) (s.addExtraRequests garbage c.advice c.offset c.recommendedSize (c.offset + c.size))
  else { s with call := some { c with phase := .again cachedOffset reached (some front) } }

/-- `remainingSize`, as the second query gets it -/
def remainingSize (maximumRequestedOffset : ℕ) : ℕ := toSize (c.recommendedSize + c.offset - maximumRequestedOffset)

/-- whether the call throws the pending requests away before its second query -/
def discards (maximumRequestedOffset : ℕ) : Bool :=
  !c.advice.isSequential && decide (maximumRequestedOffset = cachedOffset)

/-- the second query; the differences stop at 0, where those of the source would wrap around -/
def againStep (maximumRequestedOffset : ℕ) (expired garbage unreferenced : ℕ → Bool) (s : ReadRecord) : ReadRecord :=
  let s := if discards c cachedOffset maximumRequestedOffset then s.discardAllPendingRequests unreferenced else s
  let r := s.queryInsert maximumRequestedOffset (remainingSize c maximumRequestedOffset) expired garbage
  let c := { c with result := c.result ++ r.2 }
  let requestOffset := match c.result.getLast? with
    | none => maximumRequestedOffset
    | some id => (r.1.heap id).offset
  let bytesToReadLeft := roundUpToBlocksize
    (c.recommendedSize + c.offset - maximumRequestedOffset - (requestOffset - maximumRequestedOffset))
  { r.1 with call := some { c with phase := .append requestOffset bytesToReadLeft } }

/-- a request for the last entry, unless it is done -/
def appendStep (requestOffset bytesToReadLeft : ℕ) (garbage : ℕ → Bool) (s : ReadRecord) : ReadRecord :=
  let extra := fun s : ReadRecord =>
    s.addExtraRequests garbage c.advice c.offset c.recommendedSize (requestOffset + bytesToReadLeft)
  match c.result.getLast? with
  | none => { extra s with call := some { c with phase := .decide none } }
  | some back =>
    if (s.heap back).done then { extra s with call := some { c with phase := .decide none } }
    else { extra (s.addRequest back) with call := some { c with phase := .decide (some back) } }

/-- `mustWait` -/
def decideStep (rcvp : Option ℕ) (s : ReadRecord) : ReadRecord :=
  answer c (c.result.any fun id => !(s.heap id).done) rcvp s

/-! ## Steps -/

inductive Event where
  | request (offset size : ℕ) (advice : Advice) (expired garbage : ℕ → Bool)
  | proceed (expired garbage unreferenced : ℕ → Bool)
  | pickUp (id : ℕ)
  | readEnds (id : ℕ) (bytes : Option ℕ)
  | markFinished (id : ℕ)
  | lockFinish (id : ℕ)
  | readDataEnd (unreferenced : ℕ → Bool)

/-- the next piece of the call -/
def proceed (expired garbage unreferenced : ℕ → Bool) (s : ReadRecord) : ReadRecord :=
  match c.phase with
  | .search cachedOffset => s.searchStep c cachedOffset
  | .take front cachedOffset => s.takeStep c front cachedOffset garbage
  | .again cachedOffset maximumRequestedOffset _ =>
    s.againStep c cachedOffset maximumRequestedOffset expired garbage unreferenced
  | .append requestOffset bytesToReadLeft => s.appendStep c requestOffset bytesToReadLeft garbage
  | .decide rcvp => s.decideStep c rcvp

/-- the last thing a worker does with a request, under the inode lock -/
def finishUnderLock (id : ℕ) (s : ReadRecord) : ReadRecord :=
  match (s.heap id).status with
  | .failed =>
    let s := { s with ending := update s.ending id false }
    if s.errorCode id then s else ({ s with errorCode := update s.errorCode id true }).clearAndNotify id
  | _ => if s.finished id then ({ s with ending := update s.ending id false }).tryNotify else s

def step : Event → ReadRecord
  | .request offset size advice expired garbage =>
    if s.call.isSome ∨ size = 0 then s else s.beginRequest offset size advice expired garbage
  | .proceed expired garbage unreferenced =>
    match s.call with
    | none => s
    | some c => s.proceed c expired garbage unreferenced
  | .pickUp id =>
    if (s.heap id).status = .queued then
      s.setStatus id (if s.errorCode id || s.discarded id then .failed else .reading)
    else s
  | .readEnds id bytes =>
    if (s.heap id).status = .reading then
      -- a request that was given an error keeps nothing of what was read
      let status := match bytes with
        | none => .failed
        | some bytes => if s.errorCode id then .failed else .filled (min bytes (s.heap id).asked)
      { s.setStatus id status with ending := update s.ending id true }
    else s
  | .markFinished id =>
    match (s.heap id).status with
    | .filled _ => if s.ending id then { s with finished := update s.finished id true } else s
    | _ => s
  | .lockFinish id => if s.call.isSome ∨ s.ending id = false then s else s.finishUnderLock id
  | .readDataEnd unreferenced => if s.call.isSome then s else s.discardAllPendingRequests unreferenced

def run (events : List Event) : ReadRecord := events.foldl step s

/-- a record with any entries cached, and no request yet -/
structure IsInitial (s : ReadRecord) : Prop where
  cached_lt : ∀ id ∈ s.cached, id < s.nextId
  unused : ∀ id, s.nextId ≤ id → (s.heap id).status = .inserted
  filled_le : ∀ id bytes, (s.heap id).status = .filled bytes → bytes ≤ (s.heap id).asked
  no_requests : s.pending = [] ∧ s.call = none ∧ s.answers = [] ∧ (∀ id, s.notified id = false) ∧
    ∀ id, s.finished id = false

/-! ## What an answer promises -/

/-- all entries of the result are filled, and they answer for every byte that was asked for -/
def Complete (a : Answer) : Prop :=
  (∀ x ∈ a.result, (s.heap x).IsFilled) ∧
    ∀ byte, a.offset ≤ byte → byte < a.offset + a.size → ∃ x ∈ a.result, (s.heap x).Answers byte

/-- with a wait: there is a request to wait for, and once it was notified without an error the result is complete -/
def Kept (a : Answer) : Prop :=
  if a.mustWait then
    ∃ t, a.rcvp = some t ∧ (s.notified t = true → s.errorCode t = false → s.Complete a)
  else s.Complete a

/-- the pieces of a call that keep the promise: the second query, if the call has taken over a request that is not
filled, leaves it with a request of its own and the pending requests in place, and asks for all that is left; the
decision to wait finds no failed entry when all are done -/
def CarefulCall (expired garbage : ℕ → Bool) : Prop :=
  match c.phase with
  | .again cachedOffset maximumRequestedOffset taken =>
    c.offset + c.size ≤ maximumRequestedOffset + remainingSize c maximumRequestedOffset ∧
      ∀ front ∈ taken, ¬ (s.heap front).IsFilled → discards c cachedOffset maximumRequestedOffset = false ∧
          (s.query maximumRequestedOffset (remainingSize c maximumRequestedOffset) expired garbage).2.bytesLeft ≠ 0
  | .decide _ => (∀ x ∈ c.result, (s.heap x).done = true) → ∀ x ∈ c.result, (s.heap x).IsFilled
  | _ => True

def Careful : Event → Prop
  | .proceed expired garbage _ => ∀ c ∈ s.call, s.CarefulCall c expired garbage
  | _ => True

instance (s : ReadRecord) (c : Call) (expired garbage : ℕ → Bool) : Decidable (s.CarefulCall c expired garbage) := by
  unfold CarefulCall
  cases c.phase <;> infer_instance

instance (s : ReadRecord) (e : Event) : Decidable (s.Careful e) := by
  cases e <;> unfold Careful <;> infer_instance

def opened : ReadRecord where
  heap := fun _ => ⟨0, 0, .inserted⟩
  nextId := 0
  cached := []
  pending := []
  errorCode := fun _ => false
  discarded := fun _ => false
  finished := fun _ => false
  ending := fun _ => false
  suggestedReadaheadReqs := 0
  call := none
  notified := fun _ => false
  answers := []

theorem isInitial_opened : opened.IsInitial := ⟨by simp [opened], by simp [opened], by simp [opened], by simp [opened]⟩

end ReadRecord

end SaunaFS.Mount.Readahead
