/-
The queue of endangered chunks (`Chunk::endangeredChunks` of `master/chunks.cc`): raw pointers to chunk objects, which
are recycled through a free list while pointers to them stay in the queue. A pointer is the number of its object in the
order of first use; the jobs of a chunk that the worker takes from the queue are further steps.
-/
import SaunaFS.Lib.Stepwise
import SaunaFS.Chunks.Statistics

namespace SaunaFS.Chunks.EndangeredQueue

open Function List Statistics Stepwise

/-- the fields of the chunk objects, the queue, and how many chunks each object has held -/
structure Master where
  inEndangeredQueue : ℕ → Bool
  allMissingParts : ℕ → ℕ
  generation : ℕ → ℕ
  firstfree : ℕ
  chfreehead : List ℕ
  /-- each pointer with the generation that it was queued for -/
  endangeredChunks : List (ℕ × ℕ)
  endangeredChunksServingLimit : ℕ
  endangeredChunksMaxCapacity : ℕ

inductive Event where
  | chunkMalloc (all : CopyState)
  | chunkFree (c : ℕ)
  | updateStats (all : CopyState) (c : ℕ)
  | replicateChunkPart (state : AvailabilityState) (c : ℕ)
  | serveEndangered
  | reload (limit capacity : ℕ)

namespace Master

variable (s : Master)

/-- the chunk is in the hash table -/
abbrev Live (c : ℕ) : Prop := c < s.firstfree ∧ c ∉ s.chfreehead

/-- the test before both calls of `push_back`; `due` is what else they ask for -/
def enqueueIf (due : Bool) (c : ℕ) : Master :=
  if 0 < s.endangeredChunksServingLimit ∧ s.endangeredChunks.length < s.endangeredChunksMaxCapacity ∧ due ∧
      s.inEndangeredQueue c = false then
    { s with
      inEndangeredQueue := update s.inEndangeredQueue c true
      endangeredChunks := s.endangeredChunks ++ [(c, s.generation c)] }
  else s

/-- with what the calculator finds -/
def updateStats (all : CopyState) (c : ℕ) : Master :=
  let missing := all.cut.allMissingParts
  { s with allMissingParts := update s.allMissingParts c missing }.enqueueIf
    (decide (s.allMissingParts c < missing) && all.allAvailabilityState == AvailabilityState.endangered) c

/-- the end of `replicateChunkPart` when it has tried to replicate in vain -/
def replicateChunkPart (state : AvailabilityState) : ℕ → Master := s.enqueueIf (state == .endangered)

def clear (all : CopyState) (c : ℕ) : Master :=
  { s with
    inEndangeredQueue := update s.inEndangeredQueue c false
    allMissingParts := update s.allMissingParts c 0
    generation := update s.generation c (s.generation c + 1) }.updateStats all c

def chunkMalloc (all : CopyState) : Master :=
  match s.chfreehead with
  | c :: next => { s with chfreehead := next }.clear all c
  | [] => { s with firstfree := s.firstfree + 1 }.clear all s.firstfree

def chunkFree (c : ℕ) : Master :=
  { s with chfreehead := c :: s.chfreehead, inEndangeredQueue := update s.inEndangeredQueue c false }

/-- a round of the first loop of `mainLoop`; a flag that is down stays down -/
def serveEndangered : Master :=
  match s.endangeredChunks with
  | [] => s
  | (c, _) :: rest => { s with endangeredChunks := rest, inEndangeredQueue := update s.inEndangeredQueue c false }

/-- the functions are called for chunks of the hash table -/
def step : Event → Master
  | .chunkMalloc all => s.chunkMalloc all
  | .chunkFree c => if s.Live c then s.chunkFree c else s
  | .updateStats all c => if s.Live c then s.updateStats all c else s
  | .replicateChunkPart state c => if s.Live c then s.replicateChunkPart state c else s
  | .serveEndangered => s.serveEndangered
  | .reload limit capacity =>
    { s with endangeredChunksServingLimit := limit, endangeredChunksMaxCapacity := capacity }

def start (limit capacity : ℕ) : Master := ⟨fun _ => false, fun _ => 0, fun _ => 0, 0, [], [], limit, capacity⟩

/-- an object is not used again while the queue points to it -/
def Drained : Event → Prop
  | .chunkMalloc _ => ∀ c ∈ s.chfreehead.head?, ∀ e ∈ s.endangeredChunks, e.1 ≠ c
  | _ => True

instance decidableDrained (o : Event) : Decidable (s.Drained o) := by
  cases o <;> unfold Drained <;> infer_instance

/-- no pointer twice, and what is flagged is what was queued; a pointer to a live chunk has its flag up -/
structure Sound (s : Master) : Prop where
  nodup : (s.endangeredChunks.map Prod.fst).Nodup
  marked : ∀ e ∈ s.endangeredChunks, s.inEndangeredQueue e.1 → s.generation e.1 = e.2
  used : ∀ e ∈ s.endangeredChunks, e.1 < s.firstfree
  live : ∀ e ∈ s.endangeredChunks, s.inEndangeredQueue e.1 ∨ e.1 ∈ s.chfreehead
  free : ∀ c ∈ s.chfreehead, c < s.firstfree

variable {s} {c : ℕ}

/-- the flag keeps an object from being queued twice -/
theorem Sound.enqueueIf (h : s.Sound) (hc : c < s.firstfree)
    (hq : ∀ e ∈ s.endangeredChunks, e.1 = c → s.inEndangeredQueue c) {due : Bool} : (s.enqueueIf due c).Sound := by
  unfold Master.enqueueIf
  split
  · rename_i hd
    have hn : ∀ e ∈ s.endangeredChunks, e.1 ≠ c := fun e he hec => by simpa [hd] using hq e he hec
    refine ⟨by simpa [nodup_append, h.nodup] using hn, ?_, ?_, ?_, h.free⟩
    all_goals
      intro e he
      rcases mem_append.1 he with he | he
    · simpa [hn e he] using h.marked e he
    · simp [mem_singleton.1 he]
    · exact h.used e he
    · simpa [mem_singleton.1 he] using hc
    · simpa [hn e he] using h.live e he
    · simp [mem_singleton.1 he]
  · exact h

theorem Sound.updateStats (h : s.Sound) (hc : c < s.firstfree)
    (hq : ∀ e ∈ s.endangeredChunks, e.1 = c → s.inEndangeredQueue c) {all : CopyState} :
    (s.updateStats all c).Sound := by
  apply Sound.enqueueIf
  exacts [⟨h.nodup, h.marked, h.used, h.live, h.free⟩, hc, hq]

/-- an object that the queue does not point to may be cleared -/
theorem Sound.clear (h : s.Sound) (hc : c < s.firstfree) (hn : ∀ e ∈ s.endangeredChunks, e.1 ≠ c) {all : CopyState} :
    (s.clear all c).Sound := by
  apply Sound.updateStats
  · refine ⟨h.nodup, fun e he => ?_, h.used, fun e he => ?_, h.free⟩
    · simpa [hn e he] using h.marked e he
    · simpa [hn e he] using h.live e he
  · exact hc
  · exact fun e he hec => absurd hec (hn e he)

theorem Sound.chunkMalloc (h : s.Sound) (all : CopyState)
    (hd : ∀ c ∈ s.chfreehead.head?, ∀ e ∈ s.endangeredChunks, e.1 ≠ c) : (s.chunkMalloc all).Sound := by
  obtain ⟨hn, hm, hu, hl, hf⟩ := h
  unfold Master.chunkMalloc
  split
  · rename_i c next hs
    rw [hs] at hd hl hf
    have hs' : Sound { s with chfreehead := next } := by
      refine ⟨hn, hm, hu, fun e he => ?_, fun d hd => hf d (mem_cons_of_mem _ hd)⟩
      exact (hl e he).imp_right fun hi => (mem_cons.1 hi).resolve_left (hd c rfl e he)
    exact hs'.clear (hf c mem_cons_self) (hd c rfl)
  · have hs' : Sound { s with firstfree := s.firstfree + 1 } :=
      ⟨hn, hm, fun e he => (hu e he).trans (lt_add_one _), hl, fun d hd => (hf d hd).trans (lt_add_one _)⟩
    exact hs'.clear (lt_add_one _) fun e he => (hu e he).ne

theorem Sound.chunkFree (h : s.Sound) (hc : c < s.firstfree) : (s.chunkFree c).Sound := by
  refine ⟨h.nodup, fun e he => ?_, h.used, fun e he => ?_, by simpa [Master.chunkFree, hc] using h.free⟩
  · simpa [Master.chunkFree, update_apply] using fun _ => h.marked e he
  · by_cases hec : e.1 = c
    · simp [Master.chunkFree, hec]
    · simpa [Master.chunkFree, hec] using h.live e he

theorem Sound.serveEndangered (h : s.Sound) : s.serveEndangered.Sound := by
  unfold Master.serveEndangered
  split
  · exact h
  · rename_i c g rest hs
    obtain ⟨hn, hm, hu, hl, hf⟩ := h
    rw [hs] at hn hm hu hl
    obtain ⟨hc, hn⟩ := nodup_cons.1 hn
    have hne : ∀ e ∈ rest, e.1 ≠ c := fun e he hec => hc (mem_map.2 ⟨e, he, hec⟩)
    refine ⟨hn, fun e he => ?_, fun e he => hu e (mem_cons_of_mem _ he), fun e he => ?_, hf⟩
    · simpa [hne e he] using hm e (mem_cons_of_mem _ he)
    · simpa [hne e he] using hl e (mem_cons_of_mem _ he)

theorem Sound.step (h : s.Sound) (o : Event) (hd : s.Drained o) : (s.step o).Sound := by
  have hq : ∀ {c}, s.Live c → ∀ e ∈ s.endangeredChunks, e.1 = c → s.inEndangeredQueue c := by
    rintro c hc e he rfl
    exact (h.live e he).resolve_right hc.2
  cases o with
  | chunkMalloc all => exact h.chunkMalloc all hd
  | serveEndangered => exact h.serveEndangered
  | reload limit capacity => exact ⟨h.nodup, h.marked, h.used, h.live, h.free⟩
  | chunkFree c =>
    dsimp only [Master.step]
    split_ifs with hc
    · exact h.chunkFree hc.1
    · exact h
  | updateStats all c =>
    dsimp only [Master.step]
    split_ifs with hc
    · exact h.updateStats hc.1 (hq hc)
    · exact h
  | replicateChunkPart state c =>
    dsimp only [Master.step]
    split_ifs with hc
    · exact h.enqueueIf hc.1 (hq hc)
    · exact h

/-- **No chunk is queued twice.** If no object is used again while the queue points to it, the queue holds no pointer
twice, and a pointer to an object with its flag up means the chunk that was queued. -/
theorem endangered_queue_sound (limit capacity : ℕ) (os : List Event)
    (h : Along step Drained (start limit capacity) os) :
    let s := run step (start limit capacity) os
    (s.endangeredChunks.map Prod.fst).Nodup ∧
      ∀ e ∈ s.endangeredChunks, s.inEndangeredQueue e.1 → s.generation e.1 = e.2 := by
  have hs : (start limit capacity).Sound := by constructor <;> simp [start]
  have hr := inv_run (fun _ o ho hs => Sound.step hs o ho) _ os h hs
  exact ⟨hr.nodup, hr.marked⟩

/-- a chunk loses a copy, and is deleted while it waits in the queue -/
def deletedWhileQueued : List Event :=
  [.chunkMalloc ⟨.safe, 0, 0, 0, 0⟩, .updateStats ⟨.endangered, 1, 0, 1, 2⟩ 0, .chunkFree 0]

theorem endangered_queue_sound_deleted : (run step (start 1 2) deletedWhileQueued).endangeredChunks.Nodup :=
  (endangered_queue_sound 1 2 _ (by decide)).1.of_map

/-- the next chunk in the same object is queued too: two pointers to it, one of them queued for the deleted chunk -/
theorem queued_twice :
    let s := run step (start 1 2) (deletedWhileQueued ++ deletedWhileQueued.take 2)
    s.endangeredChunks = [(0, 1), (0, 2)] ∧ s.inEndangeredQueue 0 ∧ s.generation 0 = 2 := by
  decide

end Master

end SaunaFS.Chunks.EndangeredQueue
