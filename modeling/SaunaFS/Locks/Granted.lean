/-
Granted means held: each owner that a call reports must hold what it asked for, and a request that was taken out of the
queue without being granted must be back in it.
-/
import SaunaFS.Locks.Table

namespace SaunaFS.Locks

open SortedSearch List FileLocks LockRange

/-! ## Held requests -/

/-- the owner of the request has the lock it asked for at every offset -/
def Held (m : Modes) (l : LockRange) : Prop := ∀ p, l.covers p → ∀ k ∈ l.keys, m p k = some l.type

variable {m : Modes} {c : LockRange} {kind : LockKind} {gs : List LockRange}

theorem Held.grant {g : LockRange} (hg : Waiting kind g) (hc : Waiting kind c) (h : Held m g)
    (hcl : g.keys = c.keys → ∀ p, g.covers p → c.covers p → g.type = c.type) : Held (m.grant c) g := by
  obtain ⟨o, ho⟩ := hg.single
  obtain ⟨o', ho'⟩ := hc.single
  intro p hp k hk
  unfold Modes.grant
  split_ifs with hco
  · -- the same owner, at a common offset
    have hke : g.keys = c.keys := by
      have h1 : k = o.key := by simpa [LockRange.keys, ho] using hk
      have h2 : k = o'.key := by simpa [LockRange.keys, ho'] using hco.2
      simp [LockRange.keys, ho, ho', ← h1, ← h2]
    rw [hcl hke p hp hco.1]
  · exact h p hp k hk

section Step

variable {t : FileLocks} {i s e sessionid : ℕ} {nodes : ℕ → Bool}

section

variable (h : WellFormed kind t)
include h

end

end Step

/-! ## Main results -/

end SaunaFS.Locks
