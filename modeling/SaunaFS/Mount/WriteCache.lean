/-
The accounting of the write cache of a mount (`mount/writedata.cc`). A block is known by its chunk index. The writer of
a job keeps the blocks handed to it in a journal and may do anything to it; all threads interleave under one lock.
-/
import SaunaFS.Lib.FiniteTable
import SaunaFS.Lib.Stepwise

namespace SaunaFS.Mount.WriteCache

open FiniteTable List

/-! ## The chain of an inode -/

/-- `inodedata`, with the journal of the writer that works on it; the status 0 is `SAUNAFS_STATUS_OK` -/
structure InodeData where
  status : ℕ := 0
  inqueue : Bool := false
  dataChain : List ℕ := []
  alterationsInChain : ℤ := 0
  journal : List ℕ := []
deriving DecidableEq

namespace InodeData

variable (d : InodeData)

def pushToChain (block : ℕ) : InodeData :=
  let chain := d.dataChain ++ [block]
  { d with
    dataChain := chain
    alterationsInChain :=
      if 1 < chain.length ∧ chain.reverse[0]? ≠ chain.reverse[1]? then d.alterationsInChain + 1
        else d.alterationsInChain }

def popFromChain : InodeData :=
  { d with
    dataChain := d.dataChain.tail
    alterationsInChain :=
      if 1 < d.dataChain.length ∧ d.dataChain[0]? ≠ d.dataChain[1]? then d.alterationsInChain - 1
      else d.alterationsInChain }

/-- the loop of `returnJournalToDataChain` over the blocks behind the first one -/
def journalAlterations (prevId : ℕ) : List ℕ → ℕ
  | [] => 0
  | block :: rest => (if block ≠ prevId then 1 else 0) + journalAlterations block rest

/-- `returnJournalToDataChain`, and the number of blocks it acquires -/
def returnJournalToDataChain : InodeData × ℤ :=
  match d.journal with
  | [] => (d, 0)
  | first :: rest =>
    let between := if d.dataChain ≠ [] ∧ d.journal.getLast? ≠ d.dataChain.head? then 1 else 0
    ({ d with
      dataChain := d.journal ++ d.dataChain
      alterationsInChain := d.alterationsInChain + (between + journalAlterations first rest : ℕ)
      journal := [] }, -d.journal.length)

/-- `write_job_delayed_end`, and the number of blocks it releases; a chain with work to do stays in a queue -/
def jobDelayedEnd (status : ℕ) : InodeData × ℤ :=
  let d := if status ≠ 0 then { d with status := status } else d
  if d.dataChain ≠ [] ∧ d.status = 0 then (d, 0)
  else ({ d with dataChain := [], inqueue := false }, d.dataChain.length)

def writeBlock (chindx : ℕ) : InodeData × ℤ := ({ d.pushToChain chindx with inqueue := true }, -1)

/-- `processDataChain` hands the first block to the writer -/
def handOver : InodeData × ℤ :=
  match d.dataChain with
  | [] => (d, 0)
  | block :: _ => ({ d.popFromChain with journal := d.journal ++ [block] }, 1)

end InodeData

/-! ## The cache -/

structure Cache where
  freecacheblocks : ℤ
  inodes : FiniteTable ℕ InodeData

inductive Event where
  | getInodedata (inode : ℕ)
  | writeBlock (inode chindx : ℕ)
  | handOver (inode : ℕ)
  /-- the writer changes its journal -/
  | write (inode : ℕ) (journal : List ℕ)
  | returnJournal (inode : ℕ)
  | jobEnd (inode status : ℕ)
  | freeInodedata (inode : ℕ)

namespace Cache

/-- an update of the data of one inode, with the change of the free blocks -/
def onInode (inode : ℕ) (f : InodeData → InodeData × ℤ) (s : Cache) : Cache :=
  match s.inodes.get inode with
  | none => s
  | some d => ⟨s.freecacheblocks + (f d).2, s.inodes.set inode (f d).1⟩

/-- an update by the job of an inode, which exists only if the inode is in a queue or being processed -/
def onJob (inode : ℕ) (f : InodeData → InodeData × ℤ) : Cache → Cache :=
  onInode inode fun d => if d.inqueue then f d else (d, 0)

def step (s : Cache) : Event → Cache
  | .getInodedata inode => { s with inodes := s.inodes.insertNew inode {} }
  | .writeBlock inode chindx => s.onInode inode (·.writeBlock chindx)
  | .handOver inode => s.onJob inode (·.handOver)
  | .write inode journal => s.onJob inode fun d => ({ d with journal := journal }, 0)
  | .returnJournal inode => s.onJob inode (·.returnJournalToDataChain)
  | .jobEnd inode status => s.onJob inode (·.jobDelayedEnd status)
  | .freeInodedata inode =>
    match s.inodes.get inode with
    | none => s
    | some d => if d.inqueue then s else { s with inodes := s.inodes.erase inode }

/-- `write_data_init` with the given number of blocks -/
def init (blocks : ℕ) : Cache := ⟨blocks, .empty⟩

/-- the blocks in all chains -/
def chained (s : Cache) : ℤ := s.inodes.sum fun _ d => (d.dataChain.length : ℤ)

/-- the blocks in all journals -/
def journaled (s : Cache) : ℤ := s.inodes.sum fun _ d => (d.journal.length : ℤ)

end Cache

/-! ## Alterations -/

/-- the neighbours with different chunk indices -/
def alterations : List ℕ → ℕ
  | a :: b :: rest => (if a ≠ b then 1 else 0) + alterations (b :: rest)
  | _ => 0

variable {a : ℕ} {l : List ℕ}

theorem alterations_cons :
    alterations (a :: l) = alterations l + if 1 < (a :: l).length ∧ (a :: l)[0]? ≠ (a :: l)[1]? then 1 else 0 := by
  cases l with
  | nil => rfl
  | cons b l => simp [alterations, add_comm]

theorem alterations_append {chain : List ℕ} : alterations (l ++ chain) =
      alterations l + (if chain ≠ [] ∧ l ≠ [] ∧ l.getLast? ≠ chain.head? then 1 else 0) + alterations chain := by
  induction l with
  | nil => simp [alterations]
  | cons a l ih =>
    cases l with
    | nil => cases chain <;> simp [alterations]
    | cons b l =>
      simp only [cons_append, alterations] at ih ⊢
      rw [ih]
      simp [add_assoc]

theorem journalAlterations_eq : InodeData.journalAlterations a l = alterations (a :: l) := by
  induction l generalizing a with
  | nil => rfl
  | cons b l ih => simp [InodeData.journalAlterations, alterations, ih, eq_comm]

/-! ## Steps -/

namespace InodeData

variable {d : InodeData}

/-- the counter is right while there is no error, and a chain with blocks is in a queue or being worked on -/
structure Counted (d : InodeData) : Prop where
  alterations : d.status = 0 → d.alterationsInChain = alterations d.dataChain
  queued : d.inqueue = false → d.dataChain = []

/-- an update that keeps the counter right and accounts for the blocks of the chain -/
structure Accounts (d : InodeData) (r : InodeData × ℤ) : Prop where
  counted : r.1.Counted
  balance : r.2 + r.1.dataChain.length = d.dataChain.length

section

variable (h : d.Counted)
include h

theorem Counted.writeBlock {chindx : ℕ} : d.Accounts (d.writeBlock chindx) where
  counted := by
    refine ⟨fun ho => ?_, fun hq => by cases hq⟩
    have hl : d.dataChain.reverse[0]? = d.dataChain.getLast? := by
      rw [← head?_eq_getElem?, head?_reverse]
    simp only [InodeData.writeBlock, pushToChain, alterations_append, h.alterations ho, List.reverse_append,
      reverse_singleton, singleton_append, getElem?_cons_zero, getElem?_cons_succ, hl]
    rcases eq_or_ne d.dataChain [] with hni | hn
    · simp [hni, WriteCache.alterations]
    · have hp := length_pos_of_ne_nil hn
      simp only [length_append, length_singleton, hn, WriteCache.alterations, head?_cons, ne_eq,
        eq_comm (a := some chindx)]
      split_ifs <;> simp_all
  balance := by simp [InodeData.writeBlock, pushToChain]

theorem Counted.handOver : d.Accounts d.handOver := by
  unfold InodeData.handOver
  split
  · exact ⟨h, zero_add _⟩
  · rename_i block rest hc
    refine ⟨⟨fun ho => ?_, fun hq => ?_⟩, ?_⟩
    · have hco := h.alterations ho
      rw [hc, alterations_cons] at hco
      simp only [popFromChain, hc, tail_cons]
      split_ifs at hco ⊢ <;> omega
    · cases hc.symm.trans (h.queued hq)
    · simp [popFromChain, hc]
      omega

theorem Counted.returnJournal (hq : d.inqueue) : d.Accounts d.returnJournalToDataChain := by
  unfold returnJournalToDataChain
  split
  · exact ⟨h, zero_add _⟩
  · rename_i first rest hj
    refine ⟨⟨fun ho => ?_, fun hq' => absurd hq (by simp_all)⟩, ?_⟩
    · simp only [hj, journalAlterations_eq, alterations_append, h.alterations ho, ne_eq, reduceCtorEq,
        not_false_eq_true, true_and]
      push_cast
      ring
    · simp

theorem Counted.jobDelayedEnd {status : ℕ} : d.Accounts (d.jobDelayedEnd status) := by
  unfold InodeData.jobDelayedEnd
  by_cases hs : status = 0
  · simp only [hs, ne_eq, not_true_eq_false, if_false]
    split_ifs with hw
    · exact ⟨h, zero_add _⟩
    · refine ⟨⟨fun ho => ?_, fun _ => rfl⟩, by simp⟩
      have hn : d.dataChain = [] := by
        by_contra hne
        exact hw ⟨hne, ho⟩
      have hc := h.alterations ho
      rw [hn] at hc
      exact hc
  · simp only [ne_eq, hs, not_false_eq_true, if_true, and_false, if_false]
    exact ⟨⟨fun ho => absurd ho hs, fun _ => rfl⟩, by simp⟩

end

end InodeData

namespace Cache

open Stepwise InodeData

/-- every counter is right, and no block is lost -/
structure Accounted (blocks : ℕ) (s : Cache) : Prop where
  counted : ∀ inode d, s.inodes.get inode = some d → d.Counted
  total : s.freecacheblocks + s.chained = blocks

variable {blocks : ℕ} {s : Cache} {inode : ℕ} {f : InodeData → InodeData × ℤ}

section

variable (h : s.Accounted blocks)
include h

theorem Accounted.onInode
    (hf : ∀ d : InodeData, d.Counted → d.Accounts (f d)) : (s.onInode inode f).Accounted blocks := by
  unfold Cache.onInode
  split
  · exact h
  · rename_i d hd
    obtain ⟨hc, hb⟩ := hf d (h.counted inode d hd)
    refine ⟨fun j e he => ?_, ?_⟩
    · rw [get_set] at he
      split_ifs at he
      · exact Option.some.inj he ▸ hc
      · exact h.counted j e he
    · have ht := h.total
      unfold chained at ht ⊢
      rw [sum_set _ hd]
      linarith

theorem Accounted.onJob
    (hf : ∀ d : InodeData, d.Counted → d.inqueue → d.Accounts (f d)) : (s.onJob inode f).Accounted blocks := by
  refine h.onInode fun d hd => ?_
  split_ifs with hq
  · exact hf d hd hq
  · exact ⟨hd, zero_add _⟩

theorem Accounted.step {e : Event} : (s.step e).Accounted blocks := by
  cases e with
  | getInodedata inode =>
    dsimp only [Cache.step, insertNew]
    split_ifs with hs
    · exact h
    · refine ⟨fun j d hd => ?_, ?_⟩
      · rw [get_set] at hd
        split_ifs at hd
        · exact Option.some.inj hd ▸ ⟨fun _ => rfl, fun _ => rfl⟩
        · exact h.counted j d hd
      · have ht := h.total
        unfold chained at ht ⊢
        rw [sum_insert _ (Option.not_isSome_iff_eq_none.1 hs)]
        simpa using ht
  | writeBlock inode chindx => exact h.onInode fun d hd => hd.writeBlock
  | handOver inode => exact h.onJob fun d hd _ => hd.handOver
  | write inode journal => exact h.onJob fun d hd _ => ⟨⟨hd.alterations, hd.queued⟩, zero_add _⟩
  | returnJournal inode => exact h.onJob fun d hd hq => hd.returnJournal hq
  | jobEnd inode status => exact h.onJob fun d hd _ => hd.jobDelayedEnd
  | freeInodedata inode =>
    dsimp only [Cache.step]
    split
    · exact h
    · rename_i d hd
      split_ifs with hq
      · exact h
      · have hn := (h.counted inode d hd).queued (Bool.eq_false_iff.2 hq)
        refine ⟨fun j e he => ?_, ?_⟩
        · rw [get_erase] at he
          split_ifs at he
          exact h.counted j e he
        · have ht := h.total
          unfold chained at ht ⊢
          rw [sum_erase _ hd, hn]
          simpa using ht

end

/-- **Accounting of the write cache.** In every state, the counter of every inode without an error counts the
alterations of its chain, and the free blocks and the blocks of all chains make up the cache. -/
theorem chains_accounted (blocks : ℕ) (es : List Event) :
    (∀ inode d, (run step (init blocks) es).inodes.get inode = some d → d.status = 0 →
      d.alterationsInChain = alterations d.dataChain) ∧
    (run step (init blocks) es).freecacheblocks + (run step (init blocks) es).chained = blocks := by
  have hinit : (init blocks).Accounted blocks := ⟨fun _ _ hd => (by cases hd), add_zero _⟩
  have h : (run step (init blocks) es).Accounted blocks :=
    inv_run (fun s e _ hs => hs.step) _ es (@along_of_forall _ _ _ (fun _ _ => True) (fun _ _ => trivial) _ _) hinit
  exact ⟨fun inode d hd => (h.counted inode d hd).alterations, h.total⟩

/-- three blocks of different chunks are written, and the first one is handed over -/
def firstHandedOver : List Event := [.getInodedata 1, .writeBlock 1 0, .writeBlock 1 1, .writeBlock 1 2, .handOver 1]

/-- the writer fails, and so does its last retry -/
def firstReturned : List Event := firstHandedOver ++ [.returnJournal 1, .jobEnd 1 5]

theorem chains_accounted_handedOver :
    (∃ d, (run step (init 10) firstHandedOver).inodes.get 1 = some d ∧ d.dataChain = [1, 2] ∧
      d.alterationsInChain = alterations d.dataChain) ∧
    (run step (init 10) firstHandedOver).freecacheblocks + (run step (init 10) firstHandedOver).chained = 10 := by
  obtain ⟨hcounter, htotal⟩ := chains_accounted 10 firstHandedOver
  exact ⟨⟨_, rfl, rfl, hcounter 1 _ rfl rfl⟩, htotal⟩

/-- **What is not accounted for.** The block in the journal counts as free, and the counter of a cleared chain stays. -/
theorem chains_not_accounted :
    (run step (init 10) firstHandedOver).freecacheblocks + (run step (init 10) firstHandedOver).chained +
      (run step (init 10) firstHandedOver).journaled = 11 ∧
    ∃ d, (run step (init 10) firstReturned).inodes.get 1 = some d ∧ d.dataChain = [] ∧ d.alterationsInChain = 2 := by
  refine ⟨?_, _, rfl, ?_, ?_⟩
  · decide
  · decide
  · decide

end Cache

end SaunaFS.Mount.WriteCache
