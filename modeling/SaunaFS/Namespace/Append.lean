/-
Appending one file to another (`fsnodes_appendchunks` of `master/filesystem_node.cc`). The boundary behind the last
chunk of the destination is computed in 32 bits, and holes behind that chunk are not counted.
-/
import SaunaFS.Namespace.Edits

namespace SaunaFS.Namespace

open List FiniteTable

structure Concatenated (f g f' : FileData) : Prop where
  length : f'.length = f.chunkCount * chunkSize + g.length
  kept : f'.chunks.take f.chunkCount = f.chunks.take f.chunkCount
  appended : (f'.chunks.drop f.chunkCount).take g.chunkCount = g.chunks.take g.chunkCount
  covered : f.length ≤ f'.length

namespace FileData

theorem chunkCount_le {f : FileData} : f.chunkCount ≤ f.chunks.length := by
  exact (length_dropWhile_le _ _).trans_eq (length_reverse ..)

end FileData

namespace Metadata

variable {t : Metadata} {cfg : Config} {ts : UInt32} {dst src : Inode} {n : FSNode} {f : FileData}

theorem appendedChunks_slots {f g : FileData} : (appendedChunks f g).take f.chunkCount = f.chunks.take f.chunkCount ∧
      ((appendedChunks f g).drop f.chunkCount).take g.chunkCount = g.chunks.take g.chunkCount := by
  obtain ⟨m, hm⟩ : ∃ m, (if f.chunks.length < g.chunkCount + f.chunkCount then
      resizeChunks f.chunks (roundedSize (g.chunkCount + f.chunkCount)) else f.chunks) = f.chunks ++ m := by
    split_ifs
    · exact ⟨_, rfl⟩
    · exact ⟨[], (append_nil _).symm⟩
  have hf : (f.chunks.take f.chunkCount).length = f.chunkCount := by simp [f.chunkCount_le]
  have hg : (g.chunks.take g.chunkCount).length = g.chunkCount := by simp [g.chunkCount_le]
  unfold appendedChunks
  simp only [hm]
  rw [take_append_of_le_length f.chunkCount_le, append_assoc]
  exact ⟨take_left' hf, by rw [drop_left' hf, take_left' hg]⟩

theorem get_fsnodesAppendchunks {g : FileData} (hg : t.nodes.get dst = some n) (hf : n.data = .file f) :
    ∃ n', (t.fsnodesAppendchunks cfg ts dst src n f g).nodes.get dst = some n' ∧ n'.data = .file
      { f with length := appendedLength f g, chunks := appendedChunks f g } := by
  let u := (t.addCalls (chunkCalls (.add · n.goal) (g.chunks.take g.chunkCount))).adjustSpace f
    (appendedLength f g)
  let k : FileData → FileData := fun f' =>
    { f' with length := appendedLength f g, chunks := appendedChunks f' g }
  let v := (u.setFile dst k).recountFile cfg dst n n.parent (t.fsnodesGetStats cfg dst)
  have hv : v.nodes.get dst = some { n with data := .file (k f) } := by
    change (u.setFile dst k).nodes.get dst = _
    rw [modify_file (t := u) k hg hf, get_set_self]
  let w := v.modifyNode dst fun n => { n with mtime := ts, atime := ts }
  have hw : w.nodes.get dst = some { n with mtime := ts, atime := ts, data := .file (k f) } := by
    rw [get_modifyNode, if_pos rfl, hv]
    rfl
  change ∃ n', (w.modifyNode src fun n => { n with atime := ts }).nodes.get dst = some n' ∧ _
  rw [get_modifyNode]
  split_ifs with he
  · rw [← he, hw]
    exact ⟨_, rfl, rfl⟩
  · exact ⟨_, hw, rfl⟩

/-- **Appending.** The files are concatenated exactly if the boundary behind the chunks of the destination is below 4
GiB, the new length fits 64 bits, and no hole at the end of the destination is longer than the source. -/
theorem append_concatenates (t : Metadata) (cfg : Config) (ts : UInt32) (dst src : Inode) (n : FSNode) (f g : FileData)
    (hget : t.nodes.get dst = some n) (hf : n.data = .file f) :
    ∃ n' f', (t.fsnodesAppendchunks cfg ts dst src n f g).nodes.get dst = some n' ∧ n'.data = .file f' ∧
      (Concatenated f g f' ↔ f.chunkCount < 64 ∧ f.chunkCount * chunkSize + g.length < 2 ^ 64 ∧
        f.length ≤ f.chunkCount * chunkSize + g.length) := by
  obtain ⟨n', hget', hdata⟩ := get_fsnodesAppendchunks hget hf
  refine ⟨n', _, hget', hdata, fun h => ?_, fun ⟨hcount, hfits, hlength⟩ => ?_⟩
  · have hlength := h.length
    have hcovered := h.covered
    simp only [appendedLength, chunkSize] at hlength hcovered ⊢
    omega
  · obtain ⟨hkept, happended⟩ := appendedChunks_slots
    have hmod : appendedLength f g = f.chunkCount * chunkSize + g.length := by
      rw [appendedLength, chunkSize] at *
      omega
    exact ⟨hmod, hkept, happended, by rw [hmod]; exact hlength⟩

/-- a file in the place of the root -/
def fileNode (f : FileData) : FSNode := ⟨0, 0, 0, 1, 0o644, 5, 9, 0, [], none, .file f⟩

/-- a file of one chunk and another one -/
theorem append_concatenates_small : ∃ n' f',
    (((fsNew .unlimited 1).modifyNode rootInode fun _ => fileNode ⟨.live, 5, [], [3]⟩).fsnodesAppendchunks .unlimited 1
      rootInode 2 (fileNode ⟨.live, 5, [], [3]⟩) ⟨.live, 5, [], [3]⟩ ⟨.live, 1, [], [7]⟩).nodes.get
        rootInode = some n' ∧
      n'.data = .file f' ∧ Concatenated ⟨.live, 5, [], [3]⟩ ⟨.live, 1, [], [7]⟩ f' := by
  obtain ⟨n', f', hget, hdata, hiff⟩ := append_concatenates
    ((fsNew .unlimited 1).modifyNode rootInode fun _ => fileNode ⟨.live, 5, [], [3]⟩) .unlimited 1 rootInode 2
    (fileNode ⟨.live, 5, [], [3]⟩) ⟨.live, 5, [], [3]⟩ ⟨.live, 1, [], [7]⟩ rfl rfl
  exact ⟨n', f', hget, hdata, hiff.2 (by decide)⟩

/-- **A file of 4 GiB is lost.** It has 64 full chunks, and a file of one byte is appended to it. -/
theorem append_truncates : ∃ n' f', let f : FileData := ⟨.live, 2 ^ 32, [], replicate 64 3⟩
    (((fsNew .unlimited 1).modifyNode rootInode fun _ => fileNode f).fsnodesAppendchunks .unlimited 1 rootInode 2
      (fileNode f) f ⟨.live, 1, [], [7]⟩).nodes.get rootInode = some n' ∧ n'.data = .file f' ∧ f'.length = 1 ∧
      ¬ Concatenated f ⟨.live, 1, [], [7]⟩ f' := by
  have hsource : ((fsNew .unlimited 1).modifyNode rootInode fun _ =>
      fileNode ⟨.live, 2 ^ 32, [], replicate 64 3⟩).nodes.get rootInode =
        some (fileNode ⟨.live, 2 ^ 32, [], replicate 64 3⟩) := rfl
  obtain ⟨n', hget, hdata⟩ := get_fsnodesAppendchunks hsource rfl
  refine ⟨n', _, hget, hdata, by decide, fun h => ?_⟩
  exact absurd h.covered (by decide)

end Metadata

end SaunaFS.Namespace
