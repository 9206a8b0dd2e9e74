/-
Which changelog entries survive being written and read back.
-/
import SaunaFS.Namespace.Permissions

namespace SaunaFS.Changelog

open Namespace List Option Entry Prod

/-! ## Lossless entries -/

def Entry.strings : Entry → List Name
  | clone _ _ _ name _ | create _ name _ _ _ _ _ _ | link _ _ name | unlink _ name _ => [name]
  | move _ nameSrc _ nameDst _ => [nameSrc, nameDst]
  | setpath _ path => [path]
  | setxattr _ name value _ => [name, value]
  | symlink _ name path _ _ _ => [name, path]
  | _ => []

/-- bytes that separate arguments, and control bytes -/
def separates (b : UInt8) : Bool := b = 44 || b = 41 || b = 58 || b < 32 || b = 127

/-- the line of an entry is not cut, it is read back as the entry, and nothing in its strings separates arguments -/
structure Logged.Lossless (l : Logged) : Prop where
  whole : fsChangelog l = u32 l.ts ++ lit "|" ++ l.entry.text
  back : restoreLine (lit ": " ++ fsChangelog l) = some l
  apart : ∀ s ∈ l.entry.strings, ∀ b ∈ fsnodesEscapeName s, separates b = false

theorem whole_iff {l : Logged} :
    fsChangelog l = u32 l.ts ++ lit "|" ++ l.entry.text ↔ l.entry.text.length < maxEntrySize := by
  have hp : 0 < maxEntrySize := by decide
  rw [fsChangelog, append_cancel_left_eq, take_eq_self_iff]
  omega

theorem apart_iff {s : Name} : (∀ b ∈ fsnodesEscapeName s, separates b = false) ↔ 58 ∉ s := by
  have ha (b : UInt8) : ((escapeByte b).all fun x => !separates x) = decide (b ≠ 58) :=
    forall_byte (P := fun b => ((escapeByte b).all fun x => !separates x) = decide (b ≠ 58)) (by decide +kernel) b
  have hb (b : UInt8) : (∀ x ∈ escapeByte b, separates x = false) ↔ b ≠ 58 := by
    rw [← decide_eq_true_iff (p := b ≠ 58), ← ha, List.all_eq_true]
    simp
  induction s with
  | nil => simp [fsnodesEscapeName]
  | cons b s ih =>
    rw [fsnodesEscapeName_cons, forall_mem_append, hb, mem_cons, not_or]
    exact and_congr ne_comm ih

/-! ## What the reader can return -/

variable {c : UInt8} {s rest : Name} {n : ℕ} {name : Name} {e : Entry}

theorem length_getEscaped (h : getEscaped c n s = some (name, rest)) :
    name.length ≤ n ∧ name.length + rest.length ≤ s.length ∧ 0 < rest.length := by
  fun_induction getEscaped c n s generalizing name rest with
  | case1 => cases h
  | case2 b s | case3 => cases h; simp
  | case4 n h1 h2 s hn ih =>
    simp only [bind_eq_bind, bind_eq_some_iff, some.injEq, mk.injEq] at h
    obtain ⟨x, -, y, -, ⟨name', rest'⟩, hr, rfl, rfl⟩ := h
    have := ih hr
    simp only [length_cons]
    omega
  | case5 => cases h
  | case6 n b s hn hp ih =>
    simp only [bind_eq_bind, bind_eq_some_iff, some.injEq, mk.injEq] at h
    obtain ⟨⟨name', rest'⟩, hr, rfl, rfl⟩ := h
    have := ih hr
    simp only [length_cons]
    omega

theorem zero_notMem_cString {s : Name} : 0 ∉ cString s := fun h => by
  simpa using mem_takeWhile_imp h

theorem getName_readable (h : getName c s = some (name, rest)) : ReadableName name := by
  obtain ⟨r, hr, he⟩ := map_eq_some_iff.1 h
  obtain ⟨rfl, -⟩ := mk.inj he
  have hl := (length_getEscaped hr).1
  exact ⟨((takeWhile_sublist _).length_le).trans hl, zero_notMem_cString⟩

theorem getPath_readable {path : Name} (h : getPath c s = some (path, rest)) : 0 ∉ path := by
  obtain ⟨r, -, he⟩ := map_eq_some_iff.1 h
  obtain ⟨rfl, -⟩ := mk.inj he
  exact zero_notMem_cString

theorem plain_of_getEscaped {b : UInt8} (h : getEscaped c n (s ++ [b]) = some (s, rest)) : ∀ x ∈ s, x ≠ 37 ∧ x ≠ c := by
  induction s generalizing n with
  | nil => simp
  | cons x s ih =>
    cases n with
    | zero => cases h
    | succ n =>
      rw [cons_append] at h
      unfold getEscaped at h
      split_ifs at h with he hp
      · cases h
      · -- an escaped byte takes three bytes of the text
        split at h
        · rename_i h1 h2 s' heq
          simp only [bind_eq_bind, bind_eq_some_iff, some.injEq, mk.injEq, cons.injEq] at h
          obtain ⟨_, -, _, -, ⟨name', rest'⟩, hr, ⟨-, rfl⟩, rfl⟩ := h
          have hl := length_getEscaped hr
          have := congrArg length heq
          simp only [length_append, length_cons, length_nil] at this
          omega
        · cases h
      · simp only [bind_eq_bind, bind_eq_some_iff, some.injEq, mk.injEq, cons.injEq] at h
        obtain ⟨⟨name', rest'⟩, hr, ⟨-, rfl⟩, rfl⟩ := h
        exact forall_mem_cons.2 ⟨⟨hp, he⟩, ih hr⟩

theorem plain_of_getPath (h : getPath 41 (s ++ [41]) = some (s, rest)) : ReadablePlain s := by
  have hz := getPath_readable h
  obtain ⟨⟨name, r⟩, hr, he⟩ := map_eq_some_iff.1 h
  obtain ⟨hn, -⟩ : cString name = s ∧ r = rest := mk.inj he
  have hl := length_getEscaped hr
  rw [length_append, length_singleton] at hl
  have hp : cString name <+: name := takeWhile_prefix _
  have hw := hp.eq_of_length_le (by rw [hn]; omega)
  rw [← hn, hw] at hr hz ⊢
  exact fun b hb => ⟨fun h0 => hz (h0 ▸ hb), plain_of_getEscaped hr b hb⟩

/-- an entry with the names that the reader returns -/
def Entry.Named : Entry → Prop
  | setacl _ _ _ | setrichacl _ _ => True
  | e => e.Readable

theorem named_of_parseEntry (h : parseEntry s = some e) : e.Named := by
  unfold parseEntry at h
  split at h
  · cases h
  · rename_i p hp
    have hm := mem_of_find?_eq_some hp
    simp only [parsers, mem_cons, not_mem_nil, or_false] at hm
    generalize drop p.1.length s = r at h
    rcases hm with rfl | rfl | rfl | rfl | rfl | rfl | rfl | rfl | rfl | rfl | rfl | rfl | rfl | rfl | rfl | rfl
    all_goals
      simp only [doAttr, doAcquire, doCloneNode, doCreate, doDeleteacl, doLink, doMove, doPurge, doRelease,
        doSetacl, doSetpath, doSetxattr, doSymlink, doSetrichacl, doUnlink, doUndel, bind_eq_bind, bind_eq_some_iff,
        Option.some.injEq, Prod.exists] at h
      grind [Named, Readable, getName_readable, getPath_readable]

theorem readable_of_parseEntry (h : parseEntry e.text = some e) : e.Readable := by
  have hn := named_of_parseEntry h
  cases e with
  | setacl inode type aclString =>
    simp [text, lit, parseEntry, parsers, doSetacl, getChar, eat_cons, getU32_comma, bind_eq_some_iff] at h
    obtain ⟨rest, hr, -⟩ := h
    exact plain_of_getPath hr
  | setrichacl inode aclString =>
    simp [text, lit, parseEntry, parsers, doSetrichacl, eat_cons, getU32_comma, bind_eq_some_iff] at h
    obtain ⟨rest, hr, -⟩ := h
    exact plain_of_getPath hr
  | _ => exact hn

/-! ## The changelog -/

/-- **Lossless entries.** An entry survives the changelog exactly if it fits into a line, its names fit into the buffers
of the reader and no string of it has a colon; lists that are logged have no such byte in their text. -/
theorem changelog_lossless_iff (l : Logged) :
    (l.Lossless ↔ l.entry.text.length < maxEntrySize ∧ l.entry.Readable ∧ ∀ s ∈ l.entry.strings, 58 ∉ s) ∧
    (∀ inode type (acl : AccessControlList), (setacl inode type acl.toString).Readable) ∧
    ∀ inode (acl : RichAcl), (setrichacl inode acl.toString).Readable := by
  refine ⟨⟨fun h => ?_, fun ⟨hfits, hreadable, hcolon⟩ => ?_⟩, fun _ _ acl => acl.toString_plain,
    fun _ acl => acl.toString_plain⟩
  · refine ⟨(whole_iff).1 h.whole, readable_of_parseEntry ?_, fun s hs => (apart_iff).1 (h.apart s hs)⟩
    have hts (rest : Name) : getU32 (u32 l.ts ++ 124 :: rest) = (l.ts, 124 :: rest) := getU32_u32 _ _ (by simp; decide)
    have hback := h.back
    rw [h.whole] at hback
    simp [restoreLine, lit, eat_cons, hts, bind_eq_some_iff] at hback
    obtain ⟨e, hparse, heq⟩ := hback
    exact hparse.trans (congrArg (some ·.entry) heq)
  · exact ⟨(whole_iff).2 hfits, restoreLine_fsChangelog hreadable hfits, fun s hs => (apart_iff).2 (hcolon s hs)⟩

/-- **Cut entries.** A symlink with a target of 200000 bytes is made, and the line of its entry is cut. -/
theorem changelog_cuts_entry : let path : Name := replicate 200000 97
    let l : Logged := ⟨1, .symlink rootInode (lit "l") path 7 9 2⟩
    (∃ u, (Metadata.withDirectory (Metadata.groupDirectory 0o777)).exec .unlimited
      (.symlink (Metadata.memberOf 9) rootInode (lit "l") path 2) = .ok (u, [l])) ∧ ¬ l.Lossless := by
  intro path l
  constructor
  · refine ⟨_, finish_eq_ok.2 ⟨Metadata.fsSymlink_eq_ok.2 ⟨rfl, _, _, rfl, ?_, rfl, rfl, rfl, _, rfl, rfl, rfl⟩, rfl⟩⟩
    have hne : path ≠ [] := ne_nil_of_length_pos (by rw [length_replicate]; norm_num)
    have hzero : ¬ path.contains 0 := fun h => by
      have heq := eq_of_mem_replicate (contains_iff_mem.1 h)
      cases heq
    rw [decide_eq_true hne, Bool.eq_false_iff.2 hzero]
    rfl
  · intro h
    have hfits := (whole_iff).1 h.whole
    have hlen := length_le_escape path
    simp only [l, path, text, length_append, length_replicate, maxEntrySize] at hfits hlen
    omega

end SaunaFS.Changelog
