/-
The changes that a master remembers for the shadows that were away: `matomlserv_store_logstring`,
`matomlserv_send_old_changes` and the decision of `matomlserv_register_shadow` in `master/matomlserv.cc`.

The remembered entries are kept in blocks, a list from `old_changes_head` on; the last one is `old_changes_current`.
-/
import Mathlib.Tactic

namespace SaunaFS.Shadow

open List

/-- an entry of the changelog with its version -/
abbrev Change (L : Type) := UInt64 × L

def oldChangesBlockSize : ℕ := 5000

structure OldChangesBlock (L : Type) where
  entries : List (Change L)
  mintimestamp : UInt32
  minversion : UInt64
deriving DecidableEq

variable {L : Type}

/-! ## Model -/

/-- the loop at the end of `matomlserv_store_logstring` that drops what has expired -/
def expire (seconds : UInt16) (ts : UInt32) : List (OldChangesBlock L) → List (OldChangesBlock L)
  | head :: next :: rest =>
    if next.mintimestamp + seconds.toUInt32 < ts then expire seconds ts (next :: rest) else head :: next :: rest
  | blocks => blocks

/-- the new entry goes into the last block -/
def addEntry (e : Change L) : List (OldChangesBlock L) → List (OldChangesBlock L)
  | [] => []
  | [oc] => [{ oc with entries := oc.entries ++ [e] }]
  | oc :: rest => oc :: addEntry e rest

/-- a new block is needed -/
def full (blocks : List (OldChangesBlock L)) : Bool :=
  match blocks.getLast? with
  | none => true
  | some current => oldChangesBlockSize ≤ current.entries.length

def storeLogstring (blocks : List (OldChangesBlock L)) (seconds : UInt16) (ts : UInt32) (e : Change L) :
    List (OldChangesBlock L) :=
  if seconds = 0 then []
  else addEntry e (if full blocks then expire seconds ts (blocks ++ [⟨[], ts, e.1⟩]) else blocks)

/-- `matomlserv_send_old_changes`, the loop over the blocks -/
def sendBlocks (version : UInt64) : Bool → List (OldChangesBlock L) → List (Change L)
  | _, [] => []
  | start, oc :: rest =>
    let start := start || decide (version ≤ oc.minversion) ||
      (decide (oc.minversion ≤ version) && (rest.head?.all fun next => decide (version < next.minversion)))
    (if start then oc.entries.filter fun e => decide (version < e.1) else []) ++ sendBlocks version start rest

def sendOldChanges (blocks : List (OldChangesBlock L)) (version : UInt64) : List (Change L) :=
  sendBlocks version false blocks

/-- the version that `matomlserv_register_shadow` puts into its reply -/
def replyVersion (blocks : List (OldChangesBlock L)) (myMetadataVersion shadowMetadataVersion : UInt64) : UInt64 :=
  match blocks with
  | [] => myMetadataVersion
  | head :: _ =>
    if shadowMetadataVersion < myMetadataVersion ∧ head.minversion ≤ shadowMetadataVersion then shadowMetadataVersion
    else myMetadataVersion

/-! ## Numbered entries -/

/-- the entries are numbered from `n` on without a gap -/
def Numbered (n : ℕ) (l : List (Change L)) : Prop := l.map (fun e => e.1.toNat) = range' n l.length

theorem numbered_nil (n : ℕ) : Numbered n ([] : List (Change L)) := rfl

variable {n : ℕ} {e : Change L} {l log : List (Change L)}

theorem numbered_cons : Numbered n (e :: l) ↔ e.1.toNat = n ∧ Numbered (n + 1) l := by
  unfold Numbered
  rw [map_cons, length_cons, range'_succ, List.cons.injEq]

theorem numbered_append {a b : List (Change L)} : Numbered n (a ++ b) ↔ Numbered n a ∧ Numbered (n + a.length) b := by
  induction a generalizing n with
  | nil => simp [numbered_nil]
  | cons e a ih =>
    rw [cons_append, numbered_cons, ih, numbered_cons, length_cons, and_assoc]
    have : n + 1 + a.length = n + (a.length + 1) := by omega
    rw [this]

theorem Numbered.filter_lt (h : Numbered n l) {v : UInt64} :
    (l.filter fun e => decide (v < e.1)) = l.drop (v.toNat + 1 - n) := by
  induction l generalizing n with
  | nil => simp
  | cons e l ih =>
    obtain ⟨he, hl⟩ := numbered_cons.mp h
    rw [filter_cons, ih hl]
    by_cases hv : v < e.1
    · have hlt : v.toNat < e.1.toNat := hv
      have h0 : v.toNat + 1 - (n + 1) = 0 := by omega
      have h1 : v.toNat + 1 - n = 0 := by omega
      rw [decide_eq_true hv, if_pos rfl, h0, h1]
      rfl
    · have hle : e.1.toNat ≤ v.toNat := Nat.le_of_not_lt hv
      have h1 : v.toNat + 1 - n = v.toNat + 1 - (n + 1) + 1 := by omega
      rw [decide_eq_false hv, if_neg (by decide), h1, drop_succ_cons]

/-! ## The blocks hold a suffix of the log -/

def remembered (blocks : List (OldChangesBlock L)) : List (Change L) := blocks.flatMap OldChangesBlock.entries

@[simp] theorem remembered_cons (oc : OldChangesBlock L) {blocks : List (OldChangesBlock L)} :
    remembered (oc :: blocks) = oc.entries ++ remembered blocks := rfl

/-- the blocks hold the entries from `n` on; each is called after its first entry, and only the last one may be empty -/
def Blocks : ℕ → List (OldChangesBlock L) → Prop
  | _, [] => True
  | n, oc :: rest =>
    oc.minversion.toNat = n ∧ Numbered n oc.entries ∧ (rest ≠ [] → oc.entries ≠ []) ∧
      Blocks (n + oc.entries.length) rest

variable {blocks : List (OldChangesBlock L)}

section

variable (h : Blocks n blocks)
include h

theorem Blocks.numbered : Numbered n (remembered blocks) := by
  induction blocks generalizing n with
  | nil => exact numbered_nil n
  | cons oc rest ih => exact numbered_append.mpr ⟨h.2.1, ih h.2.2.2⟩

theorem Blocks.append (oc : OldChangesBlock L)
    (hf : ∀ b ∈ blocks, b.entries ≠ []) (hm : oc.minversion.toNat = n + (remembered blocks).length)
    (he : oc.entries = []) : Blocks n (blocks ++ [oc]) := by
  induction blocks generalizing n with
  | nil => exact ⟨hm, he ▸ numbered_nil n, fun h => absurd rfl h, trivial⟩
  | cons b rest ih =>
    refine ⟨h.1, h.2.1, fun _ => hf b mem_cons_self, ih h.2.2.2 (fun x hx => hf x (mem_cons_of_mem _ hx)) ?_⟩
    rw [remembered_cons, length_append] at hm
    omega

theorem Blocks.expire {seconds : UInt16} {ts : UInt32} : ∃ k, Blocks (n + k) (expire seconds ts blocks) ∧
      remembered (expire seconds ts blocks) = (remembered blocks).drop k ∧
      k ≤ (remembered blocks).length ∧ (blocks ≠ [] → expire seconds ts blocks ≠ []) := by
  induction blocks generalizing n with
  | nil => exact ⟨0, trivial, rfl, le_rfl, fun h => absurd rfl h⟩
  | cons head rest ih =>
    cases rest with
    | nil => exact ⟨0, h, rfl, Nat.zero_le _, fun _ h => (nomatch h)⟩
    | cons next rest =>
      unfold Shadow.expire
      split_ifs with he
      · obtain ⟨k, hb, hd, hl, hn⟩ := ih h.2.2.2
        refine ⟨head.entries.length + k, Nat.add_assoc _ _ _ ▸ hb, ?_, ?_, fun _ => hn (cons_ne_nil _ _)⟩
        · rw [hd, remembered_cons head, drop_length_add_append]
        · rw [remembered_cons, length_append]
          omega
      · exact ⟨0, h, rfl, Nat.zero_le _, fun _ h => (nomatch h)⟩

theorem Blocks.addEntry (hn : blocks ≠ []) (he : e.1.toNat = n + (remembered blocks).length) :
    Blocks n (addEntry e blocks) ∧ remembered (addEntry e blocks) = remembered blocks ++ [e] ∧
      (∀ b ∈ addEntry e blocks, b.entries ≠ []) := by
  induction blocks generalizing n with
  | nil => exact absurd rfl hn
  | cons oc rest ih =>
    cases rest with
    | nil =>
      have hl : (remembered [oc]).length = oc.entries.length := by simp [remembered]
      refine ⟨⟨h.1, numbered_append.mpr ⟨h.2.1, numbered_cons.mpr ⟨hl ▸ he, numbered_nil _⟩⟩, fun h =>
        absurd rfl h, trivial⟩,
        by simp [Shadow.addEntry, remembered], fun b hb => ?_⟩
      rw [mem_singleton.mp hb]
      simp
    | cons next rest =>
      rw [remembered_cons, length_append] at he
      obtain ⟨hbl, hr, ha⟩ := ih h.2.2.2 (cons_ne_nil _ _) (by omega)
      refine ⟨⟨h.1, h.2.1, fun _ => h.2.2.1 (cons_ne_nil _ _), hbl⟩, ?_, fun b hb => ?_⟩
      · show oc.entries ++ remembered (Shadow.addEntry e (next :: rest)) = _
        rw [hr, remembered_cons oc, append_assoc]
      · rcases mem_cons.mp hb with rfl | hb
        · exact h.2.2.1 (cons_ne_nil _ _)
        · exact ha b hb

end

/-- what the master remembers of a log that is numbered from `n` on: nothing, or its end -/
structure Remembers (n : ℕ) (log : List (Change L)) (blocks : List (OldChangesBlock L)) : Prop where
  ends : ∃ k ≤ log.length, remembered blocks = log.drop k ∧ Blocks (n + k) blocks
  nonempty : ∀ b ∈ blocks, b.entries ≠ []

theorem remembers_nil (n : ℕ) (log : List (Change L)) : Remembers n log [] :=
  ⟨⟨log.length, le_rfl, by simp [remembered], trivial⟩, by simp⟩

theorem remembers_store
    (h : Remembers n log blocks) (he : e.1.toNat = n + log.length) (seconds : UInt16) (ts : UInt32) :
    Remembers n (log ++ [e]) (storeLogstring blocks seconds ts e) := by
  unfold storeLogstring
  split_ifs with hz hf
  · exact remembers_nil n _
  · -- a new block, and perhaps fewer of the old ones
    obtain ⟨k, hk, hre, hb⟩ := h.ends
    have hl : (remembered blocks).length = log.length - k := by rw [hre, length_drop]
    have hne := hb.append ⟨[], ts, e.1⟩ h.nonempty (by simp only; omega) rfl
    have hs : remembered (blocks ++ [⟨[], ts, e.1⟩]) = remembered blocks := by simp [remembered]
    obtain ⟨j, hexp, hd, hj, hn⟩ := hne.expire
    rw [hs] at hd hj
    have hl' : (remembered (expire seconds ts (blocks ++ [⟨[], ts, e.1⟩]))).length = log.length - k - j := by
      rw [hd, length_drop, hl]
    obtain ⟨ha, hr, hal⟩ := hexp.addEntry (e := e) (hn (by simp)) (by rw [hl']; omega)
    refine ⟨⟨k + j, by simp; omega, ?_, Nat.add_assoc _ _ _ ▸ ha⟩, hal⟩
    rw [hr, hd, hre, drop_drop, drop_append_of_le_length (by omega)]
  · obtain ⟨k, hk, hre, hb⟩ := h.ends
    have hn : blocks ≠ [] := by
      rintro rfl
      exact hf rfl
    have hl : (remembered blocks).length = log.length - k := by rw [hre, length_drop]
    obtain ⟨ha, hr, hal⟩ := hb.addEntry (e := e) hn (by omega)
    refine ⟨⟨k, by simp; omega, ?_, ha⟩, hal⟩
    rw [hr, hre, drop_append_of_le_length hk]

/-! ## What is sent -/

theorem sendBlocks_eq (h : Blocks n blocks) (version : UInt64) (start : Bool) :
    sendBlocks version start blocks = (remembered blocks).filter fun e => decide (version < e.1) := by
  induction blocks generalizing n start with
  | nil => rfl
  | cons oc rest ih =>
    unfold sendBlocks
    dsimp only
    rw [ih h.2.2.2, remembered_cons, filter_append]
    congr 1
    split_ifs with hs
    · rfl
    · -- a block that is passed over is followed by one that does not begin after the version
      have hsk : ¬ version ≤ oc.minversion ∧ ∃ next ∈ rest.head?, next.minversion ≤ version := by
        simp only [Bool.or_eq_true, Bool.and_eq_true, decide_eq_true_eq, not_or, not_and, Bool.not_eq_true] at hs
        refine ⟨hs.1.2, ?_⟩
        have ha := hs.2 (by grind)
        cases hh : rest.head? with
        | none => rw [hh] at ha; cases ha
        | some next =>
          rw [hh] at ha
          exact ⟨next, rfl, by simpa using ha⟩
      obtain ⟨next, hn, hl⟩ := hsk.2
      obtain ⟨rest', rfl⟩ : ∃ rest', rest = next :: rest' := by
        cases rest with
        | nil => cases hn
        | cons a rest' => exact ⟨rest', by cases hn; rfl⟩
      have hm : next.minversion.toNat = n + oc.entries.length := h.2.2.2.1
      have hl' : next.minversion.toNat ≤ version.toNat := hl
      rw [h.2.1.filter_lt, drop_of_length_le (by omega)]

theorem sendOldChanges_eq (h : Remembers n log blocks) (version : UInt64)
    (hr : blocks = [] ∨ ∃ head ∈ blocks.head?, head.minversion.toNat ≤ version.toNat + 1) :
    sendOldChanges blocks version = if blocks = [] then [] else log.drop (version.toNat + 1 - n) := by
  obtain ⟨k, hk, hre, hb⟩ := h.ends
  unfold sendOldChanges
  rw [sendBlocks_eq hb, hb.numbered.filter_lt, hre, drop_drop]
  cases blocks with
  | nil =>
    have : log.drop k = [] := hre.symm
    rw [← drop_drop, this]
    simp
  | cons head rest =>
    rcases hr with hn | ⟨head', hh, hl⟩
    · cases hn
    · cases hh
      have := hb.1
      congr 1
      omega

end SaunaFS.Shadow
