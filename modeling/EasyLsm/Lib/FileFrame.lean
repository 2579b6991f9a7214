import Mathlib.Data.List.Basic
import EasyLsm.Lib.FileStore

/-!
# What an operation leaves alone in a directory

`Agree keep fs fs'` says that the files whose names are in `keep` are the same in two directories:
the same names, the same inodes, the same content. An operation on a name outside of `keep`, or a
write to an inode that no name of `keep` points to (`Free`), keeps the directories in agreement.
-/

namespace EasyLsm.Lib.FileStore

variable {N : Type}

/-- Two directories have the same files under the names of `keep`. -/
structure Agree (keep : N → Prop) (fs fs' : FileStore N) : Prop where
  names : ∀ {n}, keep n → ∀ i, (n, i) ∈ fs'.names ↔ (n, i) ∈ fs.names
  content : ∀ {n i}, keep n → (n, i) ∈ fs.names → fs'.content i = fs.content i

/-- No name of `keep` points to the inode. -/
def Free (keep : N → Prop) (fs : FileStore N) (i : Nat) : Prop := ∀ n, keep n → (n, i) ∉ fs.names

variable {keep : N → Prop} {fs fs' fs'' : FileStore N} {n : N} {i : Nat}

namespace Agree

theorem refl (keep : N → Prop) (fs : FileStore N) : Agree keep fs fs :=
  ⟨fun _ _ => Iff.rfl, fun _ _ => rfl⟩

theorem trans (h : Agree keep fs fs') (h' : Agree keep fs' fs'') : Agree keep fs fs'' where
  names hn i := (h'.names hn i).trans (h.names hn i)
  content hn hi := (h'.content hn ((h.names hn _).mpr hi)).trans (h.content hn hi)

theorem symm (h : Agree keep fs fs') : Agree keep fs' fs where
  names hn i := (h.names hn i).symm
  content hn hi := (h.content hn ((h.names hn _).mp hi)).symm

/-- Fewer names agree too. -/
theorem mono {keep' : N → Prop} (h : Agree keep fs fs') (hkeep : ∀ n, keep' n → keep n) :
    Agree keep' fs fs' where
  names hn := h.names (hkeep _ hn)
  content hn := h.content (hkeep _ hn)

/-- An inode that is free stays free. -/
theorem free (h : Agree keep fs fs') : Free keep fs' i ↔ Free keep fs i :=
  forall₂_congr fun _ hn => not_congr (h.names hn i)

/-- A file that agrees has the same content. -/
theorem read [DecidableEq N] (h : Agree keep fs fs') (hn : keep n) : fs'.read n = fs.read n := by
  cases hlookup : fs.lookup n with
  | none =>
      have habsent : fs'.lookup n = none :=
        lookup_eq_none.mpr fun i hi => lookup_eq_none.mp hlookup i ((h.names hn i).mp hi)
      rw [FileStore.read, FileStore.read, hlookup, habsent]
      rfl
  | some i =>
      have hmem := lookup_eq_some.mp hlookup
      rw [read_of_mem hmem, read_of_mem ((h.names hn i).mpr hmem), h.content hn hmem]

end Agree

/-- The inode of a name outside of `keep` is free. -/
theorem free_of_mem (hn : ¬ keep n) (hi : (n, i) ∈ fs.names) : Free keep fs i :=
  fun _ hm hmem => hn (fs.name_unique hmem hi ▸ hm)

/-- The next inode is free. -/
theorem free_next (keep : N → Prop) (fs : FileStore N) : Free keep fs fs.next :=
  fun m _ => fs.next_not_mem m

/-- Writing to a free inode. -/
theorem agree_setContent (hi : Free keep fs i) (data : List UInt8) :
    Agree keep fs (fs.setContent i data) where
  names _ _ := Iff.rfl
  content {m j} hm hmem := by
    have hne : j ≠ i := by
      rintro rfl
      exact hi m hm hmem
    exact fs.content_setContent_of_ne hne data

/-- Removing a name outside of `keep`. -/
theorem agree_unlink [DecidableEq N] (hn : ¬ keep n) : Agree keep fs (fs.unlink n) where
  names hm i := by
    rw [mem_unlink]
    exact ⟨And.left, fun hmem => ⟨hmem, fun heq => hn (heq ▸ hm)⟩⟩
  content _ _ := rfl

/-- Renaming one name outside of `keep` to another. -/
theorem agree_rename [DecidableEq N] {old new : N} (hold : ¬ keep old) (hnew : ¬ keep new)
    (h : fs.rename old new = some fs') : Agree keep fs fs' := by
  obtain ⟨i, _, hcontent, _, hnames⟩ := rename_spec h
  refine ⟨fun {m} hm j => ?_, fun _ _ => by rw [hcontent]⟩
  rw [hnames]
  have hne : m ≠ old := fun heq => hold (heq ▸ hm)
  have hne' : m ≠ new := fun heq => hnew (heq ▸ hm)
  constructor
  · rintro (⟨heq, _⟩ | ⟨hmem, _⟩)
    · exact absurd heq hne'
    · exact hmem
  · intro hmem
    exact .inr ⟨hmem, hne, hne'⟩

/-- Opening a name outside of `keep` for writing. -/
theorem agree_openOrCreate [DecidableEq N] (hn : ¬ keep n)
    (h : fs.openOrCreate n = (i, fs')) : Agree keep fs fs' ∧ Free keep fs i := by
  obtain ⟨hnames, hinode, hcontent, _⟩ := openOrCreate_spec h
  refine ⟨⟨fun {m} hm j => ?_, fun {m j} _ hmem => hcontent j ?_⟩, ?_⟩
  · rw [hnames]
    exact or_iff_right fun heq => hn (heq.1 ▸ hm)
  · exact fun heq => fs.next_not_mem m (heq ▸ hmem)
  · rcases hinode with ⟨hmem, _⟩ | ⟨rfl, _⟩
    · exact free_of_mem hn hmem
    · exact free_next keep fs

/-- Creating a file with a name outside of `keep`. -/
theorem agree_create [DecidableEq N] (hn : ¬ keep n) (h : fs.create n = (i, fs')) :
    Agree keep fs fs' ∧ Free keep fs i := by
  rcases hopen : fs.openOrCreate n with ⟨j, mid⟩
  simp only [create, hopen, Prod.mk.injEq] at h
  obtain ⟨rfl, rfl⟩ := h
  obtain ⟨hagree, hfree⟩ := agree_openOrCreate hn hopen
  exact ⟨hagree.trans (agree_setContent (hagree.free.mpr hfree) []), hfree⟩

/-- A name that is opened for writing has the content it had, or none. -/
theorem content_openOrCreate [DecidableEq N] (h : fs.openOrCreate n = (i, fs')) :
    fs'.content i = (fs.read n).getD [] := by
  unfold openOrCreate at h
  split at h
  · rename_i j hj
    cases h
    rw [read_of_mem (lookup_eq_some.mp hj), Option.getD_some]
  · rename_i hnone
    cases h
    have habsent : fs.read n = none := by rw [read, hnone, Option.map_none]
    rw [habsent]
    exact content_setContent_self fs _ _

/-- Opening a file that exists changes nothing. -/
theorem openOrCreate_of_read [DecidableEq N] {data : List UInt8} (hread : fs.read n = some data)
    (h : fs.openOrCreate n = (i, fs')) : fs' = fs := by
  obtain ⟨j, hlookup, _⟩ := Option.map_eq_some_iff.mp hread
  unfold openOrCreate at h
  split at h
  · cases h
    rfl
  · rename_i hnone
    rw [hlookup] at hnone
    cases hnone

end EasyLsm.Lib.FileStore
