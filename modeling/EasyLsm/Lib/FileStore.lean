import Mathlib.Data.List.Basic
import Mathlib.Data.List.Nodup
import Mathlib.Logic.Function.Basic

/-!
# A directory of files

One directory over a type `N` of names. A name points to an inode and an inode holds bytes, so a
handle that was opened before a rename or a removal still writes to the same content. Names are
unique and no two names share an inode; both facts are fields of the structure. A file created
over an existing name keeps the inode and loses its content.
-/

namespace EasyLsm.Lib

/-- Write `new` at position `pos`, filling a gap behind the end with zeros. -/
def overwrite (old : List UInt8) (pos : Nat) (new : List UInt8) : List UInt8 :=
  old.take pos ++ List.replicate (pos - old.length) 0 ++ new ++ old.drop (pos + new.length)

/-- Writing at the end appends. -/
theorem overwrite_length (old new : List UInt8) :
    overwrite old old.length new = old ++ new := by
  simp [overwrite]

/-- A directory: its entries, the content of every inode, and the next inode to allocate. -/
structure FileStore (N : Type) where
  names : List (N × Nat)
  content : Nat → List UInt8
  next : Nat
  namesNodup : (names.map Prod.fst).Nodup
  inodesNodup : (names.map Prod.snd).Nodup
  allocated : ∀ e ∈ names, e.2 < next

namespace FileStore

variable {N : Type}

/-- The empty directory. -/
def empty : FileStore N := ⟨[], fun _ => [], 0, List.nodup_nil, List.nodup_nil, by simp⟩

/-- The directory that consists of given files. -/
def ofFiles (files : List (N × List UInt8)) (h : (files.map Prod.fst).Nodup) : FileStore N where
  names := files.zipIdx.map fun p => (p.1.1, p.2)
  content i := (files[i]?.map Prod.snd).getD []
  next := files.length
  namesNodup := by
    rw [List.map_map]
    have hfst : (files.zipIdx.map Prod.fst).map Prod.fst = files.map Prod.fst := by
      rw [List.zipIdx_map_fst]
    rw [List.map_map] at hfst
    exact hfst ▸ h
  inodesNodup := by
    rw [List.map_map]
    have hsnd : files.zipIdx.map Prod.snd = List.range' 0 files.length :=
      List.zipIdx_map_snd 0 files
    exact hsnd ▸ List.nodup_range'
  allocated e he := by
    obtain ⟨p, hp, rfl⟩ := List.mem_map.mp he
    exact (List.mem_zipIdx' hp).1

/-- The entries of given files. -/
theorem mem_names_ofFiles {files : List (N × List UInt8)} {h : (files.map Prod.fst).Nodup} {n : N}
    {i : Nat} : (n, i) ∈ (ofFiles files h).names ↔ ∃ data, files[i]? = some (n, data) := by
  show (n, i) ∈ files.zipIdx.map (fun p => (p.1.1, p.2)) ↔ _
  rw [List.mem_map]
  constructor
  · rintro ⟨⟨⟨n, data⟩, i⟩, hmem, heq⟩
    cases heq
    exact ⟨data, List.mem_zipIdx_iff_getElem?.mp hmem⟩
  · rintro ⟨data, hdata⟩
    exact ⟨((n, data), i), List.mem_zipIdx_iff_getElem?.mpr hdata, rfl⟩

/-- Two entries of one name have the same inode. -/
theorem inode_unique (fs : FileStore N) {n : N} {i j : Nat} (hi : (n, i) ∈ fs.names)
    (hj : (n, j) ∈ fs.names) : i = j := by
  have h := List.inj_on_of_nodup_map fs.namesNodup hi hj rfl
  exact congrArg Prod.snd h

/-- Two entries of one inode have the same name. -/
theorem name_unique (fs : FileStore N) {n m : N} {i : Nat} (hn : (n, i) ∈ fs.names)
    (hm : (m, i) ∈ fs.names) : n = m := by
  have h := List.inj_on_of_nodup_map fs.inodesNodup hn hm rfl
  exact congrArg Prod.fst h

/-- Replace the content of an inode. -/
def setContent (fs : FileStore N) (i : Nat) (data : List UInt8) : FileStore N :=
  { fs with content := Function.update fs.content i data }

/-- Write at a position of an inode. -/
def writeAt (fs : FileStore N) (i pos : Nat) (data : List UInt8) : FileStore N :=
  fs.setContent i (overwrite (fs.content i) pos data)

/-- Append to an inode. -/
def append (fs : FileStore N) (i : Nat) (data : List UInt8) : FileStore N :=
  fs.setContent i (fs.content i ++ data)

@[simp] theorem names_setContent (fs : FileStore N) (i : Nat) (data : List UInt8) :
    (fs.setContent i data).names = fs.names := rfl

@[simp] theorem next_setContent (fs : FileStore N) (i : Nat) (data : List UInt8) :
    (fs.setContent i data).next = fs.next := rfl

@[simp] theorem content_setContent_self (fs : FileStore N) (i : Nat) (data : List UInt8) :
    (fs.setContent i data).content i = data := Function.update_self _ _ _

theorem content_setContent_of_ne (fs : FileStore N) {i j : Nat} (h : j ≠ i)
    (data : List UInt8) : (fs.setContent i data).content j = fs.content j :=
  Function.update_of_ne h _ _

/-- The next inode has no name. -/
theorem next_not_mem (fs : FileStore N) (m : N) : (m, fs.next) ∉ fs.names :=
  fun hm => absurd (fs.allocated _ hm) (Nat.lt_irrefl _)

variable [DecidableEq N]

/-- The inode a name points to. -/
def lookup (fs : FileStore N) (n : N) : Option Nat :=
  (fs.names.find? (fun e => e.1 = n)).map Prod.snd

/-- The content of the file with a given name. -/
def read (fs : FileStore N) (n : N) : Option (List UInt8) := (fs.lookup n).map fs.content

/-- `lookup` finds the entry of a name. -/
theorem lookup_eq_some {fs : FileStore N} {n : N} {i : Nat} :
    fs.lookup n = some i ↔ (n, i) ∈ fs.names := by
  rw [lookup, Option.map_eq_some_iff]
  constructor
  · rintro ⟨⟨m, j⟩, hfind, rfl⟩
    have hm := List.find?_some hfind
    simp only [decide_eq_true_eq] at hm
    exact hm ▸ List.mem_of_find?_eq_some hfind
  · intro hmem
    cases hfind : fs.names.find? (fun e => e.1 = n) with
    | none =>
        have habsent := List.find?_eq_none.mp hfind (n, i) hmem
        simp at habsent
    | some e =>
        obtain ⟨m, j⟩ := e
        have hm := List.find?_some hfind
        simp only [decide_eq_true_eq] at hm
        subst hm
        exact ⟨_, rfl, fs.inode_unique (List.mem_of_find?_eq_some hfind) hmem⟩

/-- A name without an entry is not found. -/
theorem lookup_eq_none {fs : FileStore N} {n : N} :
    fs.lookup n = none ↔ ∀ i, (n, i) ∉ fs.names := by
  rw [Option.eq_none_iff_forall_ne_some]
  exact forall_congr' fun i => not_congr lookup_eq_some

/-- Reading a name gives the content of its inode. -/
theorem read_of_mem {fs : FileStore N} {n : N} {i : Nat} (h : (n, i) ∈ fs.names) :
    fs.read n = some (fs.content i) := by
  rw [read, lookup_eq_some.mpr h, Option.map_some]

/-- The content of one of the given files. -/
theorem read_ofFiles {files : List (N × List UInt8)} (h : (files.map Prod.fst).Nodup) {i : Nat}
    {n : N} {data : List UInt8} (hi : files[i]? = some (n, data)) :
    (ofFiles files h).read n = some data := by
  rw [read_of_mem (mem_names_ofFiles.mpr ⟨data, hi⟩)]
  show some ((files[i]?.map Prod.snd).getD []) = some data
  rw [hi]
  rfl

/-- Remove a name. The inode keeps its content for the handles that are open. -/
def unlink (fs : FileStore N) (n : N) : FileStore N where
  names := fs.names.filter (fun e => e.1 ≠ n)
  content := fs.content
  next := fs.next
  namesNodup := fs.namesNodup.sublist (List.filter_sublist.map _)
  inodesNodup := fs.inodesNodup.sublist (List.filter_sublist.map _)
  allocated e he := fs.allocated e (List.mem_of_mem_filter he)

/-- The names left by a removal. -/
theorem mem_unlink {fs : FileStore N} {n m : N} {i : Nat} :
    (m, i) ∈ (fs.unlink n).names ↔ (m, i) ∈ fs.names ∧ m ≠ n := by
  simp [unlink]

@[simp] theorem content_unlink (fs : FileStore N) (n : N) :
    (fs.unlink n).content = fs.content := rfl

/-- Remove names, one after the other. -/
def unlinkAll (fs : FileStore N) (names : List N) : FileStore N := names.foldl unlink fs

/-- The names left by removals. -/
theorem mem_unlinkAll {fs : FileStore N} {names : List N} {m : N} {i : Nat} :
    (m, i) ∈ (fs.unlinkAll names).names ↔ (m, i) ∈ fs.names ∧ m ∉ names := by
  induction names generalizing fs with
  | nil => simp [unlinkAll]
  | cons n names ih =>
      show (m, i) ∈ ((fs.unlink n).unlinkAll names).names ↔ _
      rw [ih, mem_unlink, List.mem_cons, not_or, and_assoc]

@[simp] theorem content_unlinkAll (fs : FileStore N) (names : List N) :
    (fs.unlinkAll names).content = fs.content := by
  induction names generalizing fs with
  | nil => rfl
  | cons n names ih => exact ih (fs.unlink n)

/-- Point an unused name to an inode that has no name. -/
def link (fs : FileStore N) (n : N) (i : Nat) (hn : ∀ j, (n, j) ∉ fs.names)
    (hi : ∀ m, (m, i) ∉ fs.names) : FileStore N where
  names := (n, i) :: fs.names
  content := fs.content
  next := max fs.next (i + 1)
  namesNodup := List.nodup_cons.mpr ⟨by simpa using hn, fs.namesNodup⟩
  inodesNodup := List.nodup_cons.mpr ⟨by simpa using hi, fs.inodesNodup⟩
  allocated e he := by
    rcases List.mem_cons.mp he with rfl | he
    · exact Nat.lt_of_lt_of_le (Nat.lt_succ_self i) (Nat.le_max_right _ _)
    · exact Nat.lt_of_lt_of_le (fs.allocated e he) (Nat.le_max_left _ _)

/-- Open a name for writing, creating an empty file when it does not exist: the inode and the
directory after it. -/
def openOrCreate (fs : FileStore N) (n : N) : Nat × FileStore N :=
  match h : fs.lookup n with
  | some i => (i, fs)
  | none =>
      let fresh := fs.setContent fs.next []
      (fs.next, fresh.link n fs.next (lookup_eq_none.mp h) fs.next_not_mem)

/-- Create a file, truncating an existing one: the inode and the directory after it. -/
def create (fs : FileStore N) (n : N) : Nat × FileStore N :=
  let (i, fs) := fs.openOrCreate n
  (i, fs.setContent i [])

/-- Rename a file over whatever the new name pointed to; `none` when there is no such file. -/
def rename (fs : FileStore N) (old new : N) : Option (FileStore N) :=
  match h : fs.lookup old with
  | none => none
  | some i =>
      some (((fs.unlink old).unlink new).link new i
        (fun _ hj => (mem_unlink.mp hj).2 rfl)
        (fun m hm => by
          obtain ⟨hm, hold⟩ := mem_unlink.mp (mem_unlink.mp hm).1
          exact hold (fs.name_unique hm (lookup_eq_some.mp h))))

/-- Opening a name keeps the other names and every content. The inode is the one the name had,
or a new one whose content is empty. -/
theorem openOrCreate_spec {fs fs' : FileStore N} {n : N} {i : Nat}
    (h : fs.openOrCreate n = (i, fs')) :
    (∀ m j, (m, j) ∈ fs'.names ↔ (m = n ∧ j = i) ∨ (m, j) ∈ fs.names) ∧
      ((n, i) ∈ fs.names ∧ fs' = fs ∨ i = fs.next ∧ fs'.content i = []) ∧
      (∀ j, j ≠ fs.next → fs'.content j = fs.content j) ∧ fs.next ≤ fs'.next := by
  unfold openOrCreate at h
  split at h
  · rename_i j hj
    cases h
    have hmem := lookup_eq_some.mp hj
    refine ⟨fun m k => ⟨.inr, ?_⟩, .inl ⟨hmem, rfl⟩, fun _ _ => rfl, Nat.le_refl _⟩
    rintro (⟨rfl, rfl⟩ | hk)
    · exact hmem
    · exact hk
  · cases h
    refine ⟨fun m k => ?_, .inr ⟨rfl, content_setContent_self fs _ _⟩,
      fun k hk => content_setContent_of_ne fs hk _, Nat.le_max_left _ _⟩
    simp [link]

/-- Creating a file empties it and keeps the other names and contents. -/
theorem create_spec {fs fs' : FileStore N} {n : N} {i : Nat} (h : fs.create n = (i, fs')) :
    (∀ m j, (m, j) ∈ fs'.names ↔ (m = n ∧ j = i) ∨ (m, j) ∈ fs.names) ∧
      ((n, i) ∈ fs.names ∨ i = fs.next) ∧ fs'.content i = [] ∧
      (∀ j, j ≠ i → j ≠ fs.next → fs'.content j = fs.content j) ∧ fs.next ≤ fs'.next := by
  rcases hopen : fs.openOrCreate n with ⟨i', mid⟩
  simp only [create, hopen, Prod.mk.injEq] at h
  obtain ⟨rfl, rfl⟩ := h
  obtain ⟨hnames, hinode, hcontent, hnext⟩ := openOrCreate_spec hopen
  refine ⟨hnames, hinode.imp And.left And.left, content_setContent_self _ _ _, ?_, hnext⟩
  intro j hj hj'
  rw [content_setContent_of_ne _ hj, hcontent j hj']

/-- A renaming moves the inode to the new name and keeps the other names and every content. -/
theorem rename_spec {fs fs' : FileStore N} {old new : N} (h : fs.rename old new = some fs') :
    ∃ i, (old, i) ∈ fs.names ∧ fs'.content = fs.content ∧ fs.next ≤ fs'.next ∧
      ∀ m j, (m, j) ∈ fs'.names ↔
        (m = new ∧ j = i) ∨ ((m, j) ∈ fs.names ∧ m ≠ old ∧ m ≠ new) := by
  unfold rename at h
  split at h
  · cases h
  · rename_i i hi
    cases h
    refine ⟨i, lookup_eq_some.mp hi, rfl, Nat.le_max_left _ _, fun m j => ?_⟩
    simp [link, mem_unlink, and_assoc]

/-- A renaming of an existing file succeeds. -/
theorem rename_isSome {fs : FileStore N} {old new : N} {i : Nat} (h : (old, i) ∈ fs.names) :
    ∃ fs', fs.rename old new = some fs' := by
  have hlookup := lookup_eq_some.mpr h
  unfold rename
  split
  · rename_i hnone
    rw [hlookup] at hnone
    cases hnone
  · exact ⟨_, rfl⟩

end FileStore

end EasyLsm.Lib
