import Mathlib.Data.List.Basic
import Mathlib.Data.List.Sort
import EasyLsm.DataStores.FileNames
import EasyLsm.DataStores.Manifest
import EasyLsm.Db.Sweep

/-!
# Garbage collection, by file names

`garbage_collect` on the names as they are in the directory, with all removals succeeding. It takes
what ends in `.mf`, `.wal` or `.sst` behind a number for a file of the database, and leaves all the
other names alone. `recover_or_init` reads the names of manifests in another way.
-/

namespace EasyLsm.Db.Entries

open Lib Lib.FileStore

/-- The directory as it is. -/
abbrev Directory := FileStore EntryName

/-- The extension of manifests. -/
def mfExtension : List Char := ['.', 'm', 'f']

/-- The extension of logs. -/
def walExtension : List Char := ['.', 'w', 'a', 'l']

/-- The extension of tables. -/
def sstExtension : List Char := ['.', 's', 's', 't']

/-- The version of a manifest, by its name. -/
def manifestVersion (s : List Char) : Option UInt64 :=
  if endsWith s mfExtension then parseU64 (trimEndMatches s mfExtension) else none

/-- The id of a log or a table, by its name. -/
def fileId (extension s : List Char) : Option UInt32 :=
  if endsWith s extension then parseU32 (trimEndMatches s extension) else none

/-- The names that are UTF-8. -/
def fileNames (dir : Directory) : List (List Char) := dir.names.filterMap fun e => e.1.toStr

/-- The manifests, the highest version first. -/
def manifestFiles (dir : Directory) : List (UInt64 × List Char) :=
  ((fileNames dir).filterMap fun s => (manifestVersion s).map fun v => (v, s)).insertionSort
    fun a b => a.1 ≥ b.1

/-- What a manifest file lists; nothing when it cannot be read. -/
def referencedBy (crc : Bytes → UInt32) (dir : Directory) (s : List Char) :
    List UInt32 × List UInt32 :=
  match (dir.read (.utf8 s)).map (Manifest.decode crc) with
  | some (.ok (m, _)) => (m.wals, m.sstableIds)
  | _ => ([], [])

/-- A log or a table that is not referenced. Every name with the extension `.mf` is kept apart. -/
def isObsolete (referencedWals referencedSsts : List UInt32) (s : List Char) : Bool :=
  if endsWith s mfExtension then false
  else if endsWith s walExtension then
    match parseU32 (trimEndMatches s walExtension) with
    | some id => !referencedWals.contains id
    | none => false
  else if endsWith s sstExtension then
    match parseU32 (trimEndMatches s sstExtension) with
    | some id => !referencedSsts.contains id
    | none => false
  else false

/-- `garbage_collect`. -/
def garbageCollect (crc : Bytes → UInt32) (liveWalsSnapshot liveSstsSnapshot : List UInt32)
    (dir : Directory) : Directory :=
  let keepCount := 2
  let kept := ((manifestFiles dir).take keepCount).map fun p => referencedBy crc dir p.2
  let referencedWals := liveWalsSnapshot ++ kept.flatMap Prod.fst
  let referencedSsts := liveSstsSnapshot ++ kept.flatMap Prod.snd
  let deleted := dir.unlinkAll (((manifestFiles dir).drop keepCount).map fun p => .utf8 p.2)
  deleted.unlinkAll
    (((fileNames dir).filter (isObsolete referencedWals referencedSsts)).map .utf8)

/-- The version of a manifest that `recover_or_init` finds by its name. -/
def recoverVersion (s : List Char) : Option UInt32 :=
  if (splitExtension s).2 = some ['m', 'f'] then parseU32 (splitExtension s).1 else none

/-- The larger one of two elements, the later one when their keys are equal. -/
def laterMax {α : Type} (best : Option (UInt32 × α)) (p : UInt32 × α) : Option (UInt32 × α) :=
  match best with
  | none => some p
  | some b => if b.1 ≤ p.1 then some p else some b

/-- `Iterator::max_by_key`. -/
def maxByKey {α : Type} (l : List (UInt32 × α)) : Option (UInt32 × α) := l.foldl laterMax none

/-- The manifest that `recover_or_init` opens. -/
def newestManifest (dir : Directory) : Option (UInt32 × List Char) :=
  maxByKey ((fileNames dir).filterMap fun s => (recoverVersion s).map fun v => (v, s))

/-! ## The names of the database -/

/-- The extension of a file. -/
def extension : FileName → List Char
  | .mf _ => mfExtension
  | .mfTmp _ => ['.', 'm', 'f', '.', 't', 'm', 'p']
  | .wal _ => walExtension
  | .sst _ => sstExtension

/-- The number of a file. -/
def number : FileName → UInt32
  | .mf version => version
  | .mfTmp version => version
  | .wal id => id
  | .sst id => id

theorem chars_eq (name : FileName) :
    name.chars = (pad5 (number name)).toList ++ extension name := by
  unfold FileName.chars
  cases name <;> simp [FileName.text, number, extension, mfExtension, walExtension, sstExtension]

theorem getLast?_chars (name : FileName) :
    name.chars.getLast? = (extension name).getLast? := by
  rw [chars_eq, List.getLast?_append]
  cases name <;> rfl

theorem endsWith_chars {pat : List Char}
    (hpat : pat = mfExtension ∨ pat = walExtension ∨ pat = sstExtension) (name : FileName) :
    endsWith name.chars pat = decide (extension name = pat) := by
  by_cases heq : extension name = pat
  · rw [chars_eq, heq, endsWith_append, decide_eq_true rfl]
  · rw [decide_eq_false heq]
    obtain ⟨c, hc⟩ : ∃ c, (extension name).getLast? = some c := by
      cases name <;> exact ⟨_, rfl⟩
    obtain ⟨d, hd⟩ : ∃ d, pat.getLast? = some d := by
      rcases hpat with rfl | rfl | rfl <;> exact ⟨_, rfl⟩
    refine endsWith_eq_false ((getLast?_chars name).trans hc) hd ?_
    rintro rfl
    rw [← hd] at hc
    rcases hpat with rfl | rfl | rfl <;> cases name <;>
      simp [extension, mfExtension, walExtension, sstExtension] at hc heq

/-- The number in front of the extension is read back. -/
theorem trimEndMatches_chars {pat : List Char}
    (hpat : pat = mfExtension ∨ pat = walExtension ∨ pat = sstExtension) {name : FileName}
    (heq : extension name = pat) :
    trimEndMatches name.chars pat = (pad5 (number name)).toList := by
  obtain ⟨c, hc, hdigit⟩ := isDigit_of_parseUnsigned
    (parseUnsigned_pad5 (number name).toNat_lt)
  rw [chars_eq, heq]
  rcases hpat with rfl | rfl | rfl <;> exact trimEndMatches_append hc hdigit rfl rfl

theorem manifestVersion_chars (name : FileName) : manifestVersion name.chars =
    if extension name = mfExtension then some (number name).toUInt64 else none := by
  rw [manifestVersion, endsWith_chars (.inl rfl)]
  by_cases heq : extension name = mfExtension
  · rw [decide_eq_true heq, if_pos rfl, if_pos heq, trimEndMatches_chars (.inl rfl) heq,
      parseU64_pad5]
  · rw [decide_eq_false heq, if_neg Bool.false_ne_true, if_neg heq]

theorem manifestVersion_mf (version : UInt32) :
    manifestVersion (FileName.mf version).chars = some version.toUInt64 :=
  (manifestVersion_chars (.mf version)).trans (if_pos rfl)

theorem fileId_chars {pat : List Char}
    (hpat : pat = mfExtension ∨ pat = walExtension ∨ pat = sstExtension) (name : FileName) :
    fileId pat name.chars = if extension name = pat then some (number name) else none := by
  rw [fileId, endsWith_chars hpat]
  by_cases heq : extension name = pat
  · rw [decide_eq_true heq, if_pos rfl, if_pos heq, trimEndMatches_chars hpat heq, parseU32_pad5]
  · rw [decide_eq_false heq, if_neg Bool.false_ne_true, if_neg heq]

/-- Different files have different names. -/
theorem entry_injective : Function.Injective FileName.entry := by
  intro a b h
  have hchars : a.chars = b.chars := EntryName.utf8.inj h
  have hlast := congrArg List.getLast? hchars
  rw [getLast?_chars, getLast?_chars] at hlast
  have hext : extension a = extension b := by
    cases a <;> cases b <;> first | rfl | simp [extension, mfExtension, walExtension,
      sstExtension] at hlast
  rw [chars_eq, chars_eq, hext, List.append_cancel_right_eq] at hchars
  have hnumber := congrArg parseU32 hchars
  rw [parseU32_pad5, parseU32_pad5, Option.some.injEq] at hnumber
  cases a <;> cases b <;> first | exact congrArg _ hnumber | simp [extension, mfExtension,
    walExtension, sstExtension] at hext

/-! ## What is removed -/

variable {crc : Bytes → UInt32} {dir : Directory} {liveWals liveSsts : List UInt32}

theorem mem_fileNames {s : List Char} :
    s ∈ fileNames dir ↔ ∃ i, (EntryName.utf8 s, i) ∈ dir.names := by
  rw [fileNames, List.mem_filterMap]
  constructor
  · rintro ⟨⟨n, i⟩, hmem, hs⟩
    cases n with
    | utf8 s' =>
        cases hs
        exact ⟨i, hmem⟩
    | notUtf8 bytes => cases hs
  · rintro ⟨i, hmem⟩
    exact ⟨_, hmem, rfl⟩

theorem mem_manifestFiles {v : UInt64} {s : List Char} :
    (v, s) ∈ manifestFiles dir ↔ s ∈ fileNames dir ∧ manifestVersion s = some v := by
  rw [manifestFiles, List.mem_insertionSort, List.mem_filterMap]
  constructor
  · rintro ⟨s', hs', hv⟩
    obtain ⟨v', hv', heq⟩ := Option.map_eq_some_iff.mp hv
    cases heq
    exact ⟨hs', hv'⟩
  · rintro ⟨hs, hv⟩
    exact ⟨s, hs, by rw [hv, Option.map_some]⟩

/-- The logs that are live or that one of the two newest manifests lists. -/
def keptWals (crc : Bytes → UInt32) (liveWals : List UInt32) (dir : Directory) : List UInt32 :=
  liveWals ++ (((manifestFiles dir).take 2).map fun p => referencedBy crc dir p.2).flatMap Prod.fst

/-- The tables that are live or that one of the two newest manifests lists. -/
def keptSsts (crc : Bytes → UInt32) (liveSsts : List UInt32) (dir : Directory) : List UInt32 :=
  liveSsts ++ (((manifestFiles dir).take 2).map fun p => referencedBy crc dir p.2).flatMap Prod.snd

/-- What is left: all but the manifests behind the first two, and the obsolete logs and tables. -/
theorem mem_garbageCollect {n : EntryName} {i : Nat} :
    (n, i) ∈ (garbageCollect crc liveWals liveSsts dir).names ↔ (n, i) ∈ dir.names ∧
      ∀ s, n = .utf8 s → (∀ v, (v, s) ∉ (manifestFiles dir).drop 2) ∧
        isObsolete (keptWals crc liveWals dir) (keptSsts crc liveSsts dir) s = false := by
  simp only [garbageCollect]
  rw [mem_unlinkAll, mem_unlinkAll, and_assoc]
  refine and_congr_right fun hmem => ?_
  constructor
  · rintro ⟨hmanifest, hother⟩ s rfl
    refine ⟨fun v hv => hmanifest (List.mem_map.mpr ⟨_, hv, rfl⟩), ?_⟩
    rw [← Bool.not_eq_true]
    exact fun hobsolete => hother (List.mem_map_of_mem
      (List.mem_filter.mpr ⟨mem_fileNames.mpr ⟨i, hmem⟩, hobsolete⟩))
  · intro hall
    refine ⟨fun hmanifest => ?_, fun hother => ?_⟩
    · obtain ⟨p, hp, rfl⟩ := List.mem_map.mp hmanifest
      exact (hall p.2 rfl).1 p.1 hp
    · obtain ⟨s, hs, rfl⟩ := List.mem_map.mp hother
      have hkept := (hall s rfl).2
      rw [keptWals, keptSsts, (List.mem_filter.mp hs).2] at hkept
      cases hkept

/-- The files that are left are what they were. -/
theorem content_garbageCollect :
    (garbageCollect crc liveWals liveSsts dir).content = dir.content := by
  simp only [garbageCollect, content_unlinkAll]

/-! ## The names of the database, and others -/

/-- A file is in the directory. -/
def Has (dir : Directory) (name : FileName) : Prop := ∃ i, (name.entry, i) ∈ dir.names

/-- A name that is not taken for one of a manifest, a log or a table. -/
def Foreign (n : EntryName) : Prop := ∀ s, n = .utf8 s →
  manifestVersion s = none ∧ fileId walExtension s = none ∧ fileId sstExtension s = none

/-- The files of the database have the names it gives them. -/
def Named (dir : Directory) : Prop :=
  ∀ n i, (n, i) ∈ dir.names → (∃ name : FileName, n = name.entry) ∨ Foreign n

/-- One of the two newest manifests. -/
def Newest (dir : Directory) (v : UInt32) : Prop :=
  Has dir (.mf v) ∧ ∀ v₁ v₂, v < v₁ → v₁ < v₂ → Has dir (.mf v₁) → ¬ Has dir (.mf v₂)

theorem mem_fileNames_chars (name : FileName) : name.chars ∈ fileNames dir ↔ Has dir name :=
  mem_fileNames

/-- The manifests are those with the names of manifests. -/
theorem mem_manifestFiles_of_named (hnames : Named dir) {v : UInt64} {s : List Char} :
    (v, s) ∈ manifestFiles dir ↔ ∃ u : UInt32, Has dir (.mf u) ∧ v = u.toUInt64 ∧
      s = (FileName.mf u).chars := by
  rw [mem_manifestFiles]
  constructor
  · rintro ⟨hs, hv⟩
    obtain ⟨i, hi⟩ := mem_fileNames.mp hs
    rcases hnames _ i hi with ⟨name, hname⟩ | hforeign
    · obtain rfl := EntryName.utf8.inj hname
      rw [manifestVersion_chars] at hv
      cases name with
      | mf u => exact ⟨u, ⟨i, hi⟩, (Option.some.inj hv).symm, rfl⟩
      | mfTmp u => cases hv
      | wal id => cases hv
      | sst id => cases hv
    · rw [(hforeign s rfl).1] at hv
      cases hv
  · rintro ⟨u, hu, hv, hs⟩
    rw [hv, hs]
    exact ⟨(mem_fileNames_chars (.mf u)).mpr hu, manifestVersion_mf u⟩

theorem nodup_fileNames (dir : Directory) : (fileNames dir).Nodup := by
  refine List.pairwise_filterMap.mpr ((List.pairwise_map.mp dir.namesNodup).imp ?_)
  rintro ⟨n, i⟩ ⟨n', i'⟩ hne s hs _ hs' rfl
  cases n with
  | utf8 t =>
      cases n' with
      | utf8 t' =>
          cases hs
          cases hs'
          exact hne rfl
      | notUtf8 bytes => cases hs'
  | notUtf8 bytes => cases hs

/-- The versions go down. -/
theorem pairwise_manifestFiles (hnames : Named dir) :
    (manifestFiles dir).Pairwise fun a b => b.1.toNat < a.1.toNat := by
  have : Std.Total fun a b : UInt64 × List Char => a.1 ≥ b.1 := ⟨fun a b => UInt64.le_total b.1 a.1⟩
  have : IsTrans (UInt64 × List Char) fun a b => a.1 ≥ b.1 :=
    ⟨fun a b c hab hbc => UInt64.le_trans hbc hab⟩
  have hsorted : (manifestFiles dir).Pairwise fun a b => a.1 ≥ b.1 :=
    List.pairwise_insertionSort _ _
  have hnodup : (manifestFiles dir).Nodup := by
    refine (List.perm_insertionSort _ _).nodup_iff.mpr
      (List.pairwise_filterMap.mpr ((nodup_fileNames dir).imp ?_))
    intro s s' hne p hp p' hp' heq
    obtain ⟨v, _, rfl⟩ := Option.map_eq_some_iff.mp hp
    obtain ⟨v', _, rfl⟩ := Option.map_eq_some_iff.mp hp'
    exact hne (Prod.ext_iff.mp heq).2
  refine (hsorted.and hnodup).imp_of_mem fun {a b} ha hb hab =>
    lt_of_le_of_ne (UInt64.le_iff_toNat_le.mp hab.1) fun heq => ?_
  -- the version gives the name
  obtain ⟨u, _, hu, hs⟩ := (mem_manifestFiles_of_named hnames).mp ha
  obtain ⟨u', _, hu', hs'⟩ := (mem_manifestFiles_of_named hnames).mp hb
  have hversion : u = u' := by
    rw [hu, hu', UInt32.toNat_toUInt64, UInt32.toNat_toUInt64] at heq
    exact UInt32.toNat_inj.mp heq.symm
  exact hab.2 (Prod.ext (by rw [hu, hu', hversion]) (by rw [hs, hs', hversion]))

/-- What comes behind the first two has two before it. -/
theorem mem_drop_two {α κ : Type} [LinearOrder κ] {key : α → κ} {l : List α} {x : α}
    (hsorted : l.Pairwise fun a b => key b < key a) (hx : x ∈ l) :
    x ∈ l.drop 2 ↔ ∃ a ∈ l, ∃ b ∈ l, key x < key a ∧ key a < key b := by
  rcases l with _ | ⟨a, _ | ⟨b, rest⟩⟩
  · cases hx
  · obtain rfl := List.mem_singleton.mp hx
    simp
  · have ha := (List.pairwise_cons.mp hsorted).1
    have hb := (List.pairwise_cons.mp (List.pairwise_cons.mp hsorted).2).1
    constructor
    · intro hrest
      exact ⟨b, by simp, a, by simp, hb x hrest, ha b List.mem_cons_self⟩
    · rintro ⟨c, hc, d, hd, hxc, hcd⟩
      have hbelow : ∀ y ∈ a :: b :: rest, key y ≤ key a := by
        intro y hy
        rcases List.mem_cons.mp hy with rfl | hy
        · exact le_refl _
        · exact le_of_lt (ha y hy)
      have hxa : key x < key b := by
        rcases List.mem_cons.mp hc with rfl | hc
        · exact absurd (hbelow d hd) (not_le_of_gt hcd)
        · rcases List.mem_cons.mp hc with rfl | hc
          · exact hxc
          · exact lt_trans hxc (hb c hc)
      rcases List.mem_cons.mp hx with rfl | hx
      · exact absurd (ha b List.mem_cons_self) (not_lt_of_gt hxa)
      · rcases List.mem_cons.mp hx with rfl | hx
        · exact absurd hxa (lt_irrefl _)
        · exact hx

/-- The manifests behind the first two are those that are not among the two newest. -/
theorem mem_drop_manifestFiles (hnames : Named dir) {u : UInt32} (hu : Has dir (.mf u)) :
    (∃ v, (v, (FileName.mf u).chars) ∈ (manifestFiles dir).drop 2) ↔ ¬ Newest dir u := by
  have hmem := (mem_manifestFiles_of_named hnames).mpr ⟨u, hu, rfl, rfl⟩
  have hdrop := mem_drop_two (pairwise_manifestFiles hnames) hmem
  have hversion : (∃ v, (v, (FileName.mf u).chars) ∈ (manifestFiles dir).drop 2) ↔
      (u.toUInt64, (FileName.mf u).chars) ∈ (manifestFiles dir).drop 2 := by
    refine ⟨fun h => ?_, fun h => ⟨_, h⟩⟩
    obtain ⟨v, hv⟩ := h
    have hv' := (mem_manifestFiles.mp (List.mem_of_mem_drop hv)).2
    rw [manifestVersion_mf, Option.some.injEq] at hv'
    rwa [hv']
  rw [hversion, hdrop]
  constructor
  · rintro ⟨⟨a, s⟩, ha, ⟨b, t⟩, hb, hua, hab⟩ hnewest
    obtain ⟨u₁, hu₁, hva, -⟩ := (mem_manifestFiles_of_named hnames).mp ha
    obtain ⟨u₂, hu₂, hvb, -⟩ := (mem_manifestFiles_of_named hnames).mp hb
    rw [hva] at hua hab
    rw [hvb] at hab
    exact hnewest.2 u₁ u₂ (UInt32.lt_iff_toNat_lt.mpr hua) (UInt32.lt_iff_toNat_lt.mpr hab) hu₁ hu₂
  · intro hnot
    obtain ⟨u₁, u₂, hlt₁, hlt₂, hu₁, hu₂⟩ : ∃ u₁ u₂, u < u₁ ∧ u₁ < u₂ ∧ Has dir (.mf u₁) ∧
        Has dir (.mf u₂) := by
      by_contra hnone
      push Not at hnone
      exact hnot ⟨hu, hnone⟩
    exact ⟨_, (mem_manifestFiles_of_named hnames).mpr ⟨u₁, hu₁, rfl, rfl⟩, _,
      (mem_manifestFiles_of_named hnames).mpr ⟨u₂, hu₂, rfl, rfl⟩,
      UInt32.lt_iff_toNat_lt.mp hlt₁, UInt32.lt_iff_toNat_lt.mp hlt₂⟩

/-- The first two manifests are the two newest. -/
theorem mem_take_manifestFiles (hnames : Named dir) {p : UInt64 × List Char} :
    p ∈ (manifestFiles dir).take 2 ↔
      ∃ u, Newest dir u ∧ p = (u.toUInt64, (FileName.mf u).chars) := by
  have hnodup : (manifestFiles dir).Nodup :=
    (pairwise_manifestFiles hnames).imp fun h heq => absurd h (by rw [heq]; exact lt_irrefl _)
  have hdisjoint := List.disjoint_take_drop hnodup (le_refl 2)
  constructor
  · intro hp
    obtain ⟨u, hu, hv, hs⟩ := (mem_manifestFiles_of_named hnames).mp (List.mem_of_mem_take hp)
    refine ⟨u, ?_, Prod.ext hv hs⟩
    by_contra hold
    obtain ⟨v, hv'⟩ := (mem_drop_manifestFiles hnames hu).mpr hold
    have hsame := (mem_manifestFiles.mp (List.mem_of_mem_drop hv')).2
    rw [manifestVersion_mf, Option.some.injEq, ← hv] at hsame
    rw [← hsame, ← hs] at hv'
    exact hdisjoint hp hv'
  · rintro ⟨u, hnewest, hp⟩
    have hmem := (mem_manifestFiles_of_named hnames).mpr ⟨u, hnewest.1, rfl, rfl⟩
    rw [← hp, ← List.take_append_drop 2 (manifestFiles dir)] at hmem
    refine (List.mem_append.mp hmem).resolve_right fun hdrop => ?_
    exact (mem_drop_manifestFiles hnames hnewest.1).mp ⟨_, hp ▸ hdrop⟩ hnewest

/-! ## Obsolete logs and tables -/

theorem isObsolete_iff {wals ssts : List UInt32} {s : List Char} :
    isObsolete wals ssts s = true ↔ endsWith s mfExtension = false ∧
      ((∃ id, fileId walExtension s = some id ∧ id ∉ wals) ∨
        endsWith s walExtension = false ∧ ∃ id, fileId sstExtension s = some id ∧ id ∉ ssts) := by
  unfold isObsolete fileId
  cases endsWith s mfExtension with
  | true => simp
  | false =>
      cases endsWith s walExtension with
      | true => cases parseU32 (trimEndMatches s walExtension) <;> simp
      | false =>
          cases endsWith s sstExtension with
          | true => cases parseU32 (trimEndMatches s sstExtension) <;> simp
          | false => simp

/-- Of the files of the database, the obsolete ones are logs and tables that are not referenced. -/
theorem isObsolete_chars {wals ssts : List UInt32} {name : FileName} :
    isObsolete wals ssts name.chars = true ↔
      (∃ id, name = .wal id ∧ id ∉ wals) ∨ ∃ id, name = .sst id ∧ id ∉ ssts := by
  rw [isObsolete_iff, endsWith_chars (.inl rfl), endsWith_chars (.inr (.inl rfl)),
    fileId_chars (.inr (.inl rfl)), fileId_chars (.inr (.inr rfl))]
  cases name <;> simp [extension, number, mfExtension, walExtension, sstExtension]

theorem isObsolete_of_foreign {wals ssts : List UInt32} {s : List Char} (h : Foreign (.utf8 s)) :
    isObsolete wals ssts s = false := by
  obtain ⟨-, hwal, hsst⟩ := h s rfl
  rw [← Bool.not_eq_true, isObsolete_iff, hwal, hsst]
  simp

/-- The manifest that a manifest file holds. -/
def storedManifest (crc : Bytes → UInt32) (dir : Directory) (v : UInt32) : Option Manifest :=
  match (dir.read (FileName.mf v).entry).map (Manifest.decode crc) with
  | some (.ok (m, _)) => some m
  | _ => none

theorem referencedBy_eq (crc : Bytes → UInt32) (dir : Directory) (v : UInt32) :
    referencedBy crc dir (FileName.mf v).chars =
      ((storedManifest crc dir v).map fun m => (m.wals, m.sstableIds)).getD ([], []) := by
  unfold referencedBy storedManifest FileName.entry
  rcases (dir.read _).map (Manifest.decode crc) with _ | _ | _ <;> rfl

/-- A file that the manifest in one of the two newest manifest files lists. -/
def ListedByNewest (crc : Bytes → UInt32) (dir : Directory) (name : FileName) : Prop :=
  ∃ v m, Newest dir v ∧ storedManifest crc dir v = some m ∧ Listed m name

/-- What the first two manifest files list. -/
theorem mem_referenced (hnames : Named dir) {f : List UInt32 × List UInt32 → List UInt32}
    (hf : f ([], []) = []) {id : UInt32} :
    id ∈ (((manifestFiles dir).take 2).map fun p => referencedBy crc dir p.2).flatMap f ↔
      ∃ v m, Newest dir v ∧ storedManifest crc dir v = some m ∧ id ∈ f (m.wals, m.sstableIds) := by
  simp only [List.mem_flatMap, List.mem_map]
  constructor
  · rintro ⟨r, ⟨p, hp, rfl⟩, hid⟩
    obtain ⟨v, hv, hpair⟩ := (mem_take_manifestFiles hnames).mp hp
    rw [hpair, referencedBy_eq] at hid
    cases hstored : storedManifest crc dir v with
    | none =>
        rw [hstored, Option.map_none, Option.getD_none, hf] at hid
        cases hid
    | some m =>
        rw [hstored, Option.map_some, Option.getD_some] at hid
        exact ⟨v, m, hv, hstored, hid⟩
  · rintro ⟨v, m, hv, hstored, hid⟩
    refine ⟨_, ⟨_, (mem_take_manifestFiles hnames).mpr ⟨v, hv, rfl⟩, rfl⟩, ?_⟩
    rw [referencedBy_eq, hstored, Option.map_some, Option.getD_some]
    exact hid

theorem mem_keptWals (hnames : Named dir) {id : UInt32} :
    id ∈ keptWals crc liveWals dir ↔ id ∈ liveWals ∨ ListedByNewest crc dir (.wal id) := by
  rw [keptWals, List.mem_append, mem_referenced hnames rfl]
  refine or_congr_right ⟨fun h => ?_, fun h => ?_⟩
  · obtain ⟨v, m, hv, hstored, hid⟩ := h
    exact ⟨v, m, hv, hstored, .inl ⟨id, hid, rfl⟩⟩
  · obtain ⟨v, m, hv, hstored, ⟨id', hid, hname⟩ | ⟨id', _, hname⟩⟩ := h
    · cases hname
      exact ⟨v, m, hv, hstored, hid⟩
    · cases hname

theorem mem_keptSsts (hnames : Named dir) {id : UInt32} :
    id ∈ keptSsts crc liveSsts dir ↔ id ∈ liveSsts ∨ ListedByNewest crc dir (.sst id) := by
  rw [keptSsts, List.mem_append, mem_referenced hnames rfl]
  refine or_congr_right ⟨fun h => ?_, fun h => ?_⟩
  · obtain ⟨v, m, hv, hstored, hid⟩ := h
    exact ⟨v, m, hv, hstored, .inr ⟨id, hid, rfl⟩⟩
  · obtain ⟨v, m, hv, hstored, ⟨id', _, hname⟩ | ⟨id', hid, hname⟩⟩ := h
    · cases hname
    · cases hname
      exact ⟨v, m, hv, hstored, hid⟩

end EasyLsm.Db.Entries
