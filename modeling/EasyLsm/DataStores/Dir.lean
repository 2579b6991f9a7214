import Mathlib.Data.List.Basic
import EasyLsm.Lib.FileStore

/-!
# The database directory

The files the database creates, named after a manifest version, a WAL id or a table id. The
numbers are printed with at least five digits.
-/

namespace EasyLsm

open Lib

/-- The name of a file in the database directory. -/
inductive FileName where
  | mf (version : UInt32)
  | mfTmp (version : UInt32)
  | wal (id : UInt32)
  | sst (id : UInt32)
  deriving DecidableEq, Repr

/-- `format!("{:05}", n)`. -/
def pad5 (n : UInt32) : String :=
  let digits := toString n.toNat
  String.ofList (List.replicate (5 - digits.length) '0') ++ digits

/-- The text of a file name. -/
def FileName.text : FileName → String
  | .mf version => pad5 version ++ ".mf"
  | .mfTmp version => pad5 version ++ ".mf.tmp"
  | .wal id => pad5 id ++ ".wal"
  | .sst id => pad5 id ++ ".sst"

/-- The database directory. -/
abbrev Dir := FileStore FileName

/-- The versions of the manifest files in a directory. -/
def Dir.versions (dir : Dir) : List UInt32 :=
  dir.names.filterMap fun e =>
    match e.1 with
    | .mf version => some version
    | _ => none

/-- The versions listed are those of the manifest files. -/
theorem Dir.mem_versions {dir : Dir} {v : UInt32} :
    v ∈ Dir.versions dir ↔ ∃ i, (FileName.mf v, i) ∈ dir.names := by
  simp only [Dir.versions, List.mem_filterMap, Prod.exists]
  constructor
  · rintro ⟨name, i, hmem, hname⟩
    cases name with
    | mf version =>
        cases hname
        exact ⟨i, hmem⟩
    | mfTmp => cases hname
    | wal => cases hname
    | sst => cases hname
  · rintro ⟨i, hmem⟩
    exact ⟨_, i, hmem, rfl⟩

end EasyLsm
