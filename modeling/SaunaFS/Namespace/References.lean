/-
The references that files hold to chunks, and the calls into the chunk table by which the master passes them on.
`Transfers` says that each call takes away only what the node holds at that moment, and that together they turn the
references of the node before the operation into those after it.
-/
import SaunaFS.Namespace.Files

namespace SaunaFS.Namespace

open List Metadata ChunkCall

/-! ## References -/

/-- numbers of references, for each chunk and goal -/
abbrev Refs := ℕ × ℕ → ℤ

def oneRef (chunkid goal : ℕ) : Refs := Pi.single (chunkid, goal) 1

/-- the references of a file of this goal with these chunks; holes are 0 -/
def chunkRefs (goal : ℕ) (chunks : List ℕ) : Refs := ((chunks.filter (0 < ·)).map (oneRef · goal)).sum

def FSNode.refs (n : FSNode) : Refs := (n.data.file?.map fun f => chunkRefs n.goal f.chunks).getD 0

theorem oneRef_nonneg (chunkid goal : ℕ) : 0 ≤ oneRef chunkid goal := Pi.single_nonneg.2 zero_le_one

section ChunkRefs

variable (goal : ℕ)

theorem chunkRefs_append {a b : List ℕ} : chunkRefs goal (a ++ b) = chunkRefs goal a + chunkRefs goal b := by
  simp [chunkRefs, filter_append]

theorem chunkRefs_cons {c : ℕ} (chunks : List ℕ) :
    chunkRefs goal (c :: chunks) = (if 0 < c then oneRef c goal else 0) + chunkRefs goal chunks := by
  unfold chunkRefs
  by_cases hc : 0 < c <;> simp [hc]

theorem chunkRefs_nonneg (chunks : List ℕ) : 0 ≤ chunkRefs goal chunks := by
  refine sum_nonneg fun r hr => ?_
  obtain ⟨c, _, rfl⟩ := mem_map.1 hr
  exact oneRef_nonneg c goal

theorem chunkRefs_eq_zero {chunks : List ℕ} (h : ∀ c ∈ chunks, c = 0) : chunkRefs goal chunks = 0 := by
  have hn : chunks.filter (0 < ·) = [] := filter_eq_nil_iff.2 fun c hc => by simp [h c hc]
  rw [chunkRefs, hn]
  rfl

theorem chunkRefs_zeros {m : ℕ} : chunkRefs goal (List.replicate m 0) = 0 :=
  chunkRefs_eq_zero goal fun _ => eq_of_mem_replicate

theorem chunkRefs_resize (chunks : List ℕ) (size : ℕ) :
    chunkRefs goal (resizeChunks chunks size) = chunkRefs goal chunks := by
  rw [resizeChunks, chunkRefs_append, chunkRefs_zeros, add_zero]

theorem chunkRefs_take_add_drop (chunks : List ℕ) (k : ℕ) :
    chunkRefs goal (chunks.take k) + chunkRefs goal (chunks.drop k) = chunkRefs goal chunks := by
  rw [← chunkRefs_append, take_append_drop]

end ChunkRefs

theorem FSNode.refs_file {n : FSNode} {f : FileData} (h : n.data = .file f) : n.refs = chunkRefs n.goal f.chunks := by
  simp [FSNode.refs, h, NodeData.file?]

theorem FSNode.refs_of_data {n n' : FSNode} (hd : n'.data = n.data) (hg : n'.goal = n.goal ∨ n.isAnyFile = false) :
    n'.refs = n.refs := by
  unfold FSNode.refs
  rw [hd]
  rcases hg with hg | hl
  · rw [hg]
  · rw [FSNode.isAnyFile, Option.isSome_eq_false_iff, Option.isNone_iff_eq_none] at hl
    rw [hl]
    rfl

theorem FSNode.refs_setRdev (n : FSNode) (rdev : UInt32) : { n with data := n.data.setRdev rdev }.refs = n.refs := by
  unfold FSNode.refs
  cases n.data <;> rfl

/-! ## Calls -/

namespace ChunkCall

def taken : ChunkCall → Refs
  | add _ _ => 0
  | delete c goal | repair c goal => oneRef c goal
  | change c old _ => oneRef c old
  | modify old goal _ => if 0 < old then oneRef old goal else 0

def given : ChunkCall → Refs
  | add c goal => oneRef c goal
  | delete _ _ | repair _ _ => 0
  | change c _ new => oneRef c new
  | modify _ goal new => oneRef new goal

/-- the references are `r` before the calls: each call takes away what is there, and in the end they are `r'` -/
def Honoured : List ChunkCall → Refs → Refs → Prop
  | [], r, r' => r' = r
  | call :: calls, r, r' => call.taken ≤ r ∧ Honoured calls (r - call.taken + call.given) r'

theorem honoured_map (call : ℕ → ChunkCall) (ht : ∀ c, 0 ≤ (call c).taken) (hg : ∀ c, 0 ≤ (call c).given)
    (cs : List ℕ) {r : Refs} (hr : (cs.map fun c => (call c).taken).sum ≤ r) :
    Honoured (cs.map call) r (r - (cs.map fun c => (call c).taken).sum + (cs.map fun c => (call c).given).sum) := by
  induction cs generalizing r with
  | nil =>
    change _ = r
    simp
  | cons c cs ih =>
    have hre : 0 ≤ (cs.map fun c => (call c).taken).sum := sum_nonneg fun x hx => by
      obtain ⟨c', _, rfl⟩ := mem_map.1 hx
      exact ht c'
    refine ⟨(le_add_of_nonneg_right hre).trans hr, ?_⟩
    have hl : (cs.map fun c => (call c).taken).sum ≤ r - (call c).taken + (call c).given := by
      have h := add_le_add (le_sub_iff_add_le'.2 hr) (hg c)
      rwa [add_zero] at h
    have h := ih hl
    rwa [show r - (call c).taken + (call c).given - (cs.map fun c => (call c).taken).sum +
        (cs.map fun c => (call c).given).sum =
      r - ((call c).taken + (cs.map fun c => (call c).taken).sum) +
        ((call c).given + (cs.map fun c => (call c).given).sum) by abel] at h

end ChunkCall

/-- the calls made so far, and further ones that turn the references `r` into `r'` -/
def Transfers (calls calls' : List ChunkCall) (r r' : Refs) : Prop :=
  ∃ new, calls' = calls ++ new ∧ Honoured new r r'

theorem transfers_same {r r' : Refs} (calls : List ChunkCall) (h : r' = r) : Transfers calls calls r r' :=
  ⟨[], (append_nil calls).symm, h⟩

/-! ## The calls of the operations -/

section Operations

variable {goal : ℕ} {chunks : List ℕ} {r : Refs} (calls : List ChunkCall)

theorem transfers_adds (goal : ℕ) (chunks : List ℕ) (hr : 0 ≤ r) :
    Transfers calls (calls ++ chunkCalls (.add · goal) chunks) r (r + chunkRefs goal chunks) := by
  have h := honoured_map (.add · goal) (fun _ => le_rfl) (oneRef_nonneg · goal)
    (chunks.filter (0 < ·)) (r := r)
  simp only [taken, map_const', sum_replicate, smul_zero, sub_zero] at h
  exact ⟨_, rfl, h hr⟩

theorem transfers_deletes (call : ℕ → ChunkCall) (hc : ∀ c, (call c).taken = oneRef c goal ∧ (call c).given = 0)
    (h : chunkRefs goal chunks ≤ r) :
    Transfers calls (calls ++ chunkCalls call chunks) r (r - chunkRefs goal chunks) := by
  have h' := honoured_map call (fun c => (hc c).1 ▸ oneRef_nonneg c goal)
    (fun c => (hc c).2.ge) (chunks.filter (0 < ·)) (r := r)
  simp only [hc, map_const', sum_replicate, smul_zero, add_zero] at h'
  exact ⟨_, rfl, h' h⟩

theorem transfers_changes {old : ℕ} (new : ℕ) (h : chunkRefs old chunks ≤ r) :
    Transfers calls (calls ++ chunkCalls (.change · old new) chunks) r
      (r - chunkRefs old chunks + chunkRefs new chunks) :=
  ⟨_, rfl, honoured_map (.change · old new) (oneRef_nonneg · old) (oneRef_nonneg · new) _ h⟩

theorem transfers_modify {indx new : ℕ} (goal : ℕ) (hn : 0 < new) (hi : indx < chunks.length) :
    Transfers calls (calls ++ [.modify (chunks.getD indx 0) goal new]) (chunkRefs goal chunks)
      (chunkRefs goal (chunks.set indx new)) := by
  have hold : chunks.getD indx 0 = chunks[indx] := by
    simp [getD_eq_getElem?_getD, hi]
  have hs : chunkRefs goal chunks = (if 0 < chunks[indx] then oneRef chunks[indx] goal else 0) +
      (chunkRefs goal (chunks.take indx) + chunkRefs goal (chunks.drop (indx + 1))) := by
    rw [add_left_comm, ← chunkRefs_cons, ← chunkRefs_append, getElem_cons_drop, take_append_drop]
  have hse : chunkRefs goal (chunks.set indx new) = oneRef new goal +
      (chunkRefs goal (chunks.take indx) + chunkRefs goal (chunks.drop (indx + 1))) := by
    rw [set_eq_take_append_cons_drop, if_pos hi, chunkRefs_append, chunkRefs_cons, if_pos hn, add_left_comm]
  refine ⟨_, rfl, ?_, ?_⟩
  · rw [hold, hs]
    exact le_add_of_nonneg_right (add_nonneg (chunkRefs_nonneg _ _) (chunkRefs_nonneg _ _))
  · change _ = chunkRefs goal chunks - (if 0 < chunks.getD indx 0 then _ else 0) + oneRef new goal
    rw [hold, hs, hse]
    abel

theorem transfers_truncate (goal : ℕ) (chunks : List ℕ) (k : ℕ) :
    Transfers calls (calls ++ chunkCalls (.delete · goal) (chunks.drop k)) (chunkRefs goal chunks)
      (chunkRefs goal (chunks.take k)) := by
  have hl : chunkRefs goal (chunks.drop k) ≤ chunkRefs goal chunks := by
    rw [← chunkRefs_take_add_drop goal chunks k]
    exact le_add_of_nonneg_left (chunkRefs_nonneg _ _)
  have h := transfers_deletes calls (.delete · goal) (fun _ => ⟨rfl, rfl⟩) hl
  rwa [← chunkRefs_take_add_drop goal chunks k, add_sub_cancel_right, chunkRefs_take_add_drop] at h

theorem eq_zero_of_mem_drop {f : FileData} {k c : ℕ} (hk : f.chunkCount ≤ k) (hc : c ∈ f.chunks.drop k) : c = 0 := by
  have hs : f.chunks = (f.chunks.reverse.dropWhile (· = 0)).reverse ++
    (f.chunks.reverse.takeWhile (· = 0)).reverse := by
    rw [← reverse_append, takeWhile_append_dropWhile, reverse_reverse]
  have hl : (f.chunks.reverse.dropWhile (· = 0)).reverse.length ≤ k := by
    rw [length_reverse]
    exact hk
  rw [hs, drop_append, drop_eq_nil_of_le hl, nil_append] at hc
  have hm := mem_reverse.1 (mem_of_mem_drop hc)
  simpa using mem_takeWhile_imp hm

theorem chunkRefs_appended (goal : ℕ) (dst src : FileData) : chunkRefs goal (appendedChunks dst src) =
      chunkRefs goal dst.chunks + chunkRefs goal (src.chunks.take src.chunkCount) := by
  obtain ⟨m, hm⟩ : ∃ m, (if dst.chunks.length < src.chunkCount + dst.chunkCount then
      resizeChunks dst.chunks (roundedSize (src.chunkCount + dst.chunkCount)) else dst.chunks) =
        dst.chunks ++ List.replicate m 0 := by
    split_ifs
    · exact ⟨_, rfl⟩
    · exact ⟨0, (append_nil _).symm⟩
  have hz {k : ℕ} (hk : dst.chunkCount ≤ k) : chunkRefs goal ((dst.chunks ++ List.replicate m 0).drop k) = 0 := by
    refine chunkRefs_eq_zero goal fun c hc => ?_
    rw [drop_append] at hc
    rcases mem_append.1 hc with hc | hc
    · exact eq_zero_of_mem_drop hk hc
    · exact eq_of_mem_replicate (mem_of_mem_drop hc)
  have hke := chunkRefs_take_add_drop goal (dst.chunks ++ List.replicate m 0) dst.chunkCount
  rw [hz le_rfl, add_zero, chunkRefs_append, chunkRefs_zeros, add_zero] at hke
  unfold appendedChunks
  simp only [hm]
  rw [chunkRefs_append, chunkRefs_append, hke, hz (Nat.le_add_left ..), add_zero]

theorem chunkRefs_repaired (goal : ℕ) (chunks : List ℕ) (answers : ℕ → Option ℕ) :
    chunkRefs goal (repairedChunks chunks answers) + chunkRefs goal (erasedChunks chunks answers) =
      chunkRefs goal chunks := by
  unfold repairedChunks erasedChunks
  induction chunks generalizing answers with
  | nil => rfl
  | cons c chunks ih =>
    rw [mapIdx_cons, mapIdx_cons, chunkRefs_cons, chunkRefs_cons, chunkRefs_cons, ← ih fun i => answers (i + 1)]
    by_cases h : answers 0 = some 0
    · simp only [h, if_true, lt_irrefl, if_false]
      abel
    · simp only [h, if_false, lt_irrefl]
      abel

theorem transfers_repair (goal : ℕ) (chunks : List ℕ) (answers : ℕ → Option ℕ) :
    Transfers calls (calls ++ chunkCalls (.repair · goal) (erasedChunks chunks answers))
      (chunkRefs goal chunks) (chunkRefs goal (repairedChunks chunks answers)) := by
  have hs := chunkRefs_repaired goal chunks answers
  have hl : chunkRefs goal (erasedChunks chunks answers) ≤ chunkRefs goal chunks :=
    hs ▸ le_add_of_nonneg_left (chunkRefs_nonneg _ _)
  have h := transfers_deletes calls (.repair · goal) (fun _ => ⟨rfl, rfl⟩) hl
  rwa [← hs, add_sub_cancel_right, hs] at h

end Operations

end SaunaFS.Namespace
