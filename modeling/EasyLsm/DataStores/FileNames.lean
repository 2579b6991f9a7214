import Mathlib.Data.List.Basic
import EasyLsm.DataStores.Dir

/-!
# The names of files as text

How the source takes the names in a directory apart: `str::ends_with`, `str::trim_end_matches`,
`str::parse` for unsigned integers, `Path::file_stem` and `Path::extension`. A directory may hold
names that are not UTF-8 and names of other files; `EntryName` has all of them. The names that the
database gives its files are read back as the numbers they were made of.
-/

namespace EasyLsm

open Lib

/-- The name of a directory entry. -/
inductive EntryName where
  | utf8 (s : List Char)
  | notUtf8 (bytes : List UInt8)
  deriving DecidableEq

/-- `OsStr::to_str`. -/
def EntryName.toStr : EntryName → Option (List Char)
  | utf8 s => some s
  | notUtf8 _ => none

/-- The characters of a file name. -/
@[irreducible] def FileName.chars (name : FileName) : List Char := name.text.toList

/-- The entry of a file of the database. -/
def FileName.entry (name : FileName) : EntryName := .utf8 name.chars

/-! ## Strings -/

/-- `str::ends_with`. -/
def endsWith (s pat : List Char) : Bool := pat.isSuffixOf s

/-- Take a text away from the front of another one, as often as it is there, at most `n` times. -/
def trimFront (pat : List Char) : Nat → List Char → List Char
  | 0, s => s
  | n + 1, s => if pat.isPrefixOf s then trimFront pat n (s.drop pat.length) else s

/-- `str::trim_end_matches`, for a text that is not empty. -/
def trimEndMatches (s pat : List Char) : List Char :=
  (trimFront pat.reverse s.length s.reverse).reverse

/-- What is behind a plus sign. -/
def trimPlus (s : List Char) : List Char := if s.head? = some '+' then s.tail else s

/-- `str::parse` for the unsigned integers below a bound: decimal digits, perhaps behind a plus
sign. -/
def parseUnsigned (bound : Nat) (s : List Char) : Option Nat :=
  let digits := trimPlus s
  if digits ≠ [] ∧ digits.all Char.isDigit ∧ Nat.ofDigitChars 10 digits 0 < bound then
    some (Nat.ofDigitChars 10 digits 0)
  else none

/-- `str::parse::<u32>`. -/
def parseU32 (s : List Char) : Option UInt32 := (parseUnsigned UInt32.size s).map UInt32.ofNat

/-- `str::parse::<u64>`. -/
def parseU64 (s : List Char) : Option UInt64 := (parseUnsigned UInt64.size s).map UInt64.ofNat

/-- `Path::file_stem` and `Path::extension`: what is before and behind the last dot, unless that is
the first character. -/
def splitExtension (s : List Char) : List Char × Option (List Char) :=
  match s.reverse.dropWhile (· ≠ '.') with
  | [] => (s, none)
  | _ :: before =>
      if before.isEmpty then (s, none)
      else (before.reverse, some (s.reverse.takeWhile (· ≠ '.')).reverse)

theorem trimPlus_suffix (s : List Char) : trimPlus s <:+ s := by
  unfold trimPlus
  split
  · exact List.tail_suffix s
  · exact List.suffix_refl s

/-- What `parse` accepts ends in a digit. -/
theorem isDigit_of_parseUnsigned {bound n : Nat} {s : List Char}
    (h : parseUnsigned bound s = some n) :
    ∃ c, s.getLast? = some c ∧ c.isDigit := by
  simp only [parseUnsigned] at h
  split at h
  · rename_i hdigits
    obtain ⟨hne, hall, -⟩ := hdigits
    obtain ⟨before, hbefore⟩ := trimPlus_suffix s
    refine ⟨(trimPlus s).getLast hne, ?_, List.all_eq_true.mp hall _ (List.getLast_mem hne)⟩
    conv_lhs => rw [← hbefore]
    rw [List.getLast?_append, List.getLast?_eq_some_getLast hne, Option.some_or]
  · cases h

/-- A number below a bound is parsed below any larger bound. -/
theorem parseUnsigned_mono {bound n : Nat} {s : List Char} (bound' : Nat) (hle : bound ≤ bound')
    (h : parseUnsigned bound s = some n) : parseUnsigned bound' s = some n ∧ n < bound := by
  simp only [parseUnsigned] at h ⊢
  split at h
  · rename_i hdigits
    cases h
    refine ⟨if_pos ⟨hdigits.1, hdigits.2.1, Nat.lt_of_lt_of_le hdigits.2.2 hle⟩, hdigits.2.2⟩
  · cases h

/-! ## Extensions -/

theorem endsWith_append (s pat : List Char) : endsWith (s ++ pat) pat = true :=
  List.isSuffixOf_iff_suffix.mpr (List.suffix_append s pat)

/-- A text does not end with another one when their last characters are different. -/
theorem endsWith_eq_false {s pat : List Char} {c d : Char} (hs : s.getLast? = some c)
    (hpat : pat.getLast? = some d) (hne : c ≠ d) : endsWith s pat = false := by
  rw [endsWith, ← Bool.not_eq_true, List.isSuffixOf_iff_suffix]
  rintro ⟨before, rfl⟩
  rw [List.getLast?_append, hpat, Option.some_or, Option.some.injEq] at hs
  exact hne hs.symm

/-- An extension is taken away once when a digit is in front of it. -/
theorem trimEndMatches_append {s pat : List Char} {c d : Char} (hs : s.getLast? = some c)
    (hc : c.isDigit) (hpat : pat.getLast? = some d) (hd : d.isDigit = false) :
    trimEndMatches (s ++ pat) pat = s := by
  have hno : (pat.reverse.isPrefixOf s.reverse) = false := by
    have hends := endsWith_eq_false hs hpat (by rintro rfl; rw [hc] at hd; cases hd)
    rwa [endsWith, List.isSuffixOf] at hends
  have hlen : (s ++ pat).length = s.length + pat.length - 1 + 1 := by
    have hpos : 0 < s.length := List.length_pos_of_ne_nil (by rintro rfl; cases hs)
    rw [List.length_append]
    omega
  have hstop : ∀ n, trimFront pat.reverse n s.reverse = s.reverse := by
    intro n
    cases n with
    | zero => rfl
    | succ n => rw [trimFront, hno, if_neg Bool.false_ne_true]
  have hfront : pat.reverse.isPrefixOf (pat.reverse ++ s.reverse) = true := by simp
  rw [trimEndMatches, List.reverse_append, hlen, trimFront, if_pos hfront,
    List.drop_left' rfl, hstop, List.reverse_reverse]

/-- The last dot of a name with an extension is that of the extension. -/
theorem splitExtension_append {s : List Char} (ext : List Char) (hs : s ≠ []) (hext : '.' ∉ ext) :
    splitExtension (s ++ '.' :: ext) = (s, some ext) := by
  have hall : ∀ c ∈ ext.reverse, (decide (c ≠ '.')) = true := by
    intro c hc
    refine decide_eq_true ?_
    rintro rfl
    exact hext (List.mem_reverse.mp hc)
  have hrev : (s ++ '.' :: ext).reverse = ext.reverse ++ '.' :: s.reverse := by simp
  have hdrop : (s ++ '.' :: ext).reverse.dropWhile (· ≠ '.') = '.' :: s.reverse := by
    rw [hrev, List.dropWhile_append_of_pos hall]
    rfl
  have htake : (s ++ '.' :: ext).reverse.takeWhile (· ≠ '.') = ext.reverse := by
    rw [hrev, List.takeWhile_append_of_pos hall]
    simp
  rw [splitExtension, hdrop, htake]
  simp [hs]

/-- A name with an extension is the stem, a dot and the extension. -/
theorem eq_of_splitExtension {s stem ext : List Char} (h : splitExtension s = (stem, some ext)) :
    s = stem ++ '.' :: ext := by
  have hsplit := List.takeWhile_append_dropWhile (p := (· ≠ '.')) (l := s.reverse)
  unfold splitExtension at h
  split at h
  · cases h
  · rename_i c before hdrop
    split at h
    · cases h
    · cases h
      have hc : c = '.' := by
        have hhead := List.head?_dropWhile_not (· ≠ '.') s.reverse
        rw [hdrop] at hhead
        simpa using hhead
      rw [hdrop, hc] at hsplit
      have hs := congrArg List.reverse hsplit
      rw [List.reverse_reverse] at hs
      exact hs.symm.trans (by simp)

/-! ## The names of the database -/

/-- The digits of a number. -/
theorem toList_pad5 (n : UInt32) : ∃ k, (pad5 n).toList = List.replicate k '0' ++
    Nat.toDigits 10 n.toNat := by
  refine ⟨5 - (toString n.toNat).length, ?_⟩
  simp [pad5]

/-- The number of a name is read back. -/
theorem parseUnsigned_pad5 {bound : Nat} {n : UInt32} (h : n.toNat < bound) :
    parseUnsigned bound (pad5 n).toList = some n.toNat := by
  obtain ⟨k, hk⟩ := toList_pad5 n
  have hne : Nat.toDigits 10 n.toNat ≠ [] := Nat.toDigits_ne_nil
  have hall : ∀ c ∈ (pad5 n).toList, c.isDigit = true := by
    intro c hc
    rw [hk] at hc
    rcases List.mem_append.mp hc with hc | hc
    · rw [(List.mem_replicate.mp hc).2]
      rfl
    · exact Nat.isDigit_of_mem_toDigits (by decide) (by decide) hc
  have hplus : trimPlus (pad5 n).toList = (pad5 n).toList := by
    rw [trimPlus, if_neg]
    intro hhead
    exact absurd (hall '+' (List.mem_of_mem_head? hhead)) (by decide)
  have hvalue : Nat.ofDigitChars 10 (pad5 n).toList 0 = n.toNat := by
    rw [hk, Nat.ofDigitChars_append, Nat.ofDigitChars_replicate_zero, Nat.mul_zero,
      Nat.ofDigitChars_ten_toDigits]
  simp only [parseUnsigned, hplus, hvalue]
  refine if_pos ⟨?_, List.all_eq_true.mpr hall, h⟩
  rw [hk]
  simp [hne]

theorem parseU32_pad5 (n : UInt32) : parseU32 (pad5 n).toList = some n := by
  have hlt : n.toNat < UInt32.size := n.toNat_lt
  rw [parseU32, parseUnsigned_pad5 hlt, Option.map_some, UInt32.ofNat_toNat]

theorem parseU64_pad5 (n : UInt32) : parseU64 (pad5 n).toList = some n.toUInt64 := by
  have hlt : n.toNat < UInt64.size := Nat.lt_trans n.toNat_lt (by decide)
  rw [parseU64, parseUnsigned_pad5 hlt, Option.map_some]
  refine congrArg some (UInt64.toNat_inj.mp ?_)
  rw [UInt64.toNat_ofNat_of_lt' hlt, UInt32.toNat_toUInt64]

end EasyLsm
