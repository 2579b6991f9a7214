import Mathlib.Data.List.Basic
import Mathlib.Data.List.Sort
import EasyLsm.Db.Entries

/-!
# What garbage collection keeps

`garbageCollect_keeps`: when the files of the database have the names it gives them, the two newest
manifests stay, and of the logs and tables those that are live or that one of these two lists. So
after the newest manifest was removed, the one before it finds all that it lists.

`garbageCollect_entries`: without I/O failures, `garbage_collect` on the files of the database is
the one on the names in the directory.
-/

namespace EasyLsm.Db.Entries

open Lib Lib.FileStore

variable {crc : Bytes → UInt32} {dir : Directory} {liveWals liveSsts : List UInt32}

/-! ## What is kept -/

/-- The files of the database that are left. -/
theorem has_garbageCollect (hnames : Named dir) {name : FileName} :
    Has (garbageCollect crc liveWals liveSsts dir) name ↔ Has dir name ∧
      (∀ v, name = .mf v → Newest dir v) ∧
      (∀ id, name = .wal id → id ∈ liveWals ∨ ListedByNewest crc dir name) ∧
      (∀ id, name = .sst id → id ∈ liveSsts ∨ ListedByNewest crc dir name) := by
  have hleft : Has (garbageCollect crc liveWals liveSsts dir) name ↔ Has dir name ∧
      (∀ v, (v, name.chars) ∉ (manifestFiles dir).drop 2) ∧
      isObsolete (keptWals crc liveWals dir) (keptSsts crc liveSsts dir) name.chars = false := by
    constructor
    · rintro ⟨i, hi⟩
      obtain ⟨hi, hall⟩ := mem_garbageCollect.mp hi
      exact ⟨⟨i, hi⟩, hall _ rfl⟩
    · rintro ⟨⟨i, hi⟩, hkept⟩
      refine ⟨i, mem_garbageCollect.mpr ⟨hi, fun s hs => ?_⟩⟩
      obtain rfl := EntryName.utf8.inj hs
      exact hkept
  rw [hleft]
  refine and_congr_right fun hhas => and_congr ?_ ?_
  · constructor
    · rintro hnone v rfl
      by_contra hold
      obtain ⟨v', hv'⟩ := (mem_drop_manifestFiles hnames hhas).mpr hold
      exact hnone v' hv'
    · intro hnewest v hv
      -- only a manifest is in the list
      obtain ⟨u, hu, -, hchars⟩ :=
        (mem_manifestFiles_of_named hnames).mp (List.mem_of_mem_drop hv)
      obtain rfl := entry_injective (congrArg EntryName.utf8 hchars)
      exact (mem_drop_manifestFiles hnames hu).mp ⟨v, hv⟩ (hnewest u rfl)
  · rw [← Bool.not_eq_true, isObsolete_chars, not_or]
    refine and_congr ?_ ?_
    · constructor
      · rintro hno id rfl
        by_contra hunlisted
        exact hno ⟨id, rfl, fun hid => hunlisted ((mem_keptWals hnames).mp hid)⟩
      · rintro hlisted ⟨id, rfl, hid⟩
        exact hid ((mem_keptWals hnames).mpr (hlisted id rfl))
    · constructor
      · rintro hno id rfl
        by_contra hunlisted
        exact hno ⟨id, rfl, fun hid => hunlisted ((mem_keptSsts hnames).mp hid)⟩
      · rintro hlisted ⟨id, rfl, hid⟩
        exact hid ((mem_keptSsts hnames).mpr (hlisted id rfl))

/-- The names that are not those of manifests, logs and tables stay. -/
theorem mem_garbageCollect_of_other (hnames : Named dir) {n : EntryName} {i : Nat}
    (hmf : ∀ v, n ≠ (FileName.mf v).entry) (hwal : ∀ id, n ≠ (FileName.wal id).entry)
    (hsst : ∀ id, n ≠ (FileName.sst id).entry) :
    (n, i) ∈ (garbageCollect crc liveWals liveSsts dir).names ↔ (n, i) ∈ dir.names := by
  rw [mem_garbageCollect]
  refine ⟨And.left, fun hmem => ⟨hmem, ?_⟩⟩
  rintro s rfl
  refine ⟨fun v hv => ?_, ?_⟩
  · obtain ⟨u, _, -, hchars⟩ :=
      (mem_manifestFiles_of_named hnames).mp (List.mem_of_mem_drop hv)
    exact hmf u (congrArg EntryName.utf8 hchars)
  · rcases hnames _ i hmem with ⟨name, hname⟩ | hforeign
    · obtain rfl := EntryName.utf8.inj hname
      rw [← Bool.not_eq_true, isObsolete_chars]
      rintro (⟨id, rfl, _⟩ | ⟨id, rfl, _⟩)
      · exact hwal id rfl
      · exact hsst id rfl
    · exact isObsolete_of_foreign hforeign

/-- A file that is left is what it was. -/
theorem read_garbageCollect {n : EntryName} {i : Nat}
    (h : (n, i) ∈ (garbageCollect crc liveWals liveSsts dir).names) :
    (garbageCollect crc liveWals liveSsts dir).read n = dir.read n := by
  rw [read_of_mem h, read_of_mem (mem_garbageCollect.mp h).1, content_garbageCollect]

/-! ## The manifest to recover from -/

theorem foldl_laterMax {α : Type} (l : List (UInt32 × α)) (b : UInt32 × α) :
    ∃ p, l.foldl laterMax (some b) = some p ∧ p ∈ b :: l ∧ ∀ q ∈ b :: l, q.1 ≤ p.1 := by
  induction l generalizing b with
  | nil => exact ⟨b, rfl, List.mem_cons_self, by simp⟩
  | cons a l ih =>
      rw [List.foldl_cons, laterMax]
      split
      · rename_i hle
        obtain ⟨p, hp, hmem, hmax⟩ := ih a
        refine ⟨p, hp, List.mem_cons_of_mem b hmem, fun q hq => ?_⟩
        rcases List.mem_cons.mp hq with rfl | hq
        · exact UInt32.le_trans hle (hmax a List.mem_cons_self)
        · exact hmax q hq
      · rename_i hlt
        obtain ⟨p, hp, hmem, hmax⟩ := ih b
        have hab : a.1 ≤ b.1 := UInt32.le_of_lt (UInt32.not_le.mp hlt)
        refine ⟨p, hp, ?_, fun q hq => ?_⟩
        · rcases List.mem_cons.mp hmem with rfl | hmem
          · exact List.mem_cons_self
          · exact List.mem_cons_of_mem b (List.mem_cons_of_mem a hmem)
        · rcases List.mem_cons.mp hq with rfl | hq
          · exact hmax _ List.mem_cons_self
          · rcases List.mem_cons.mp hq with rfl | hq
            · exact UInt32.le_trans hab (hmax b List.mem_cons_self)
            · exact hmax q (List.mem_cons_of_mem b hq)

/-- There is a largest element unless the list is empty. -/
theorem maxByKey_eq_some {α : Type} {l : List (UInt32 × α)} (hne : l ≠ []) :
    ∃ p, maxByKey l = some p ∧ p ∈ l ∧ ∀ q ∈ l, q.1 ≤ p.1 := by
  obtain ⟨b, l, rfl⟩ := List.exists_cons_of_ne_nil hne
  exact foldl_laterMax l b

/-- A name that `recover_or_init` takes for a manifest is one for `garbage_collect` as well. -/
theorem manifestVersion_of_recoverVersion {s : List Char} {v : UInt32}
    (h : recoverVersion s = some v) : manifestVersion s = some v.toUInt64 := by
  unfold recoverVersion at h
  split at h
  · rename_i hext
    obtain ⟨n, hn, rfl⟩ := Option.map_eq_some_iff.mp h
    obtain ⟨c, hc, hdigit⟩ := isDigit_of_parseUnsigned hn
    obtain ⟨hn', hlt⟩ := parseUnsigned_mono UInt64.size (by decide) hn
    have hs : s = (splitExtension s).1 ++ mfExtension :=
      eq_of_splitExtension (Prod.ext rfl hext)
    have htrim : trimEndMatches s mfExtension = (splitExtension s).1 := by
      conv_lhs => rw [hs]
      exact trimEndMatches_append hc hdigit rfl rfl
    have hends : endsWith s mfExtension = true := by
      rw [hs]
      exact endsWith_append _ _
    rw [manifestVersion, if_pos hends, htrim, parseU64, hn', Option.map_some]
    refine congrArg some (UInt64.toNat_inj.mp ?_)
    rw [UInt64.toNat_ofNat_of_lt' (Nat.lt_trans hlt (by decide)), UInt32.toNat_toUInt64,
      UInt32.toNat_ofNat_of_lt' hlt]
  · cases h


theorem recoverVersion_mf (v : UInt32) : recoverVersion (FileName.mf v).chars = some v := by
  obtain ⟨c, hc, -⟩ := isDigit_of_parseUnsigned (parseUnsigned_pad5 v.toNat_lt)
  have hne : (pad5 v).toList ≠ [] := by
    intro hnil
    rw [hnil] at hc
    cases hc
  have hsplit : splitExtension (FileName.mf v).chars = ((pad5 v).toList, some ['m', 'f']) := by
    rw [chars_eq]
    exact splitExtension_append ['m', 'f'] hne (by decide)
  simp only [recoverVersion, hsplit, if_true]
  exact parseU32_pad5 v

/-- The candidates are the manifests. -/
theorem mem_candidates (hnames : Named dir) {p : UInt32 × List Char} :
    (p ∈ (fileNames dir).filterMap fun s => (recoverVersion s).map fun v => (v, s)) ↔
      ∃ v, Has dir (.mf v) ∧ p = (v, (FileName.mf v).chars) := by
  rw [List.mem_filterMap]
  constructor
  · rintro ⟨s, hs, hp⟩
    obtain ⟨v, hv, rfl⟩ := Option.map_eq_some_iff.mp hp
    obtain ⟨u, hu, hversion, hchars⟩ := (mem_manifestFiles_of_named hnames).mp
      (mem_manifestFiles.mpr ⟨hs, manifestVersion_of_recoverVersion hv⟩)
    rw [hchars, recoverVersion_mf] at hv
    obtain rfl := Option.some.inj hv
    exact ⟨u, hu, by rw [hchars]⟩
  · rintro ⟨v, hv, rfl⟩
    exact ⟨_, (mem_fileNames_chars (.mf v)).mpr hv, by rw [recoverVersion_mf]; rfl⟩

/-- The manifest to open is the one with the highest version. -/
theorem newestManifest_eq_some (hnames : Named dir) {v : UInt32} {s : List Char} :
    newestManifest dir = some (v, s) ↔ s = (FileName.mf v).chars ∧ Has dir (.mf v) ∧
      ∀ u, Has dir (.mf u) → u ≤ v := by
  have hcandidates := fun q => @mem_candidates dir hnames q
  rw [newestManifest]
  generalize ((fileNames dir).filterMap fun s => (recoverVersion s).map fun v => (v, s)) = l
    at hcandidates
  have hfound : ∀ p', maxByKey l = some p' → p' ∈ l ∧ ∀ q ∈ l, q.1 ≤ p'.1 := by
    intro p' hp'
    have hne : l ≠ [] := by
      rintro rfl
      cases hp'
    obtain ⟨p'', hp'', hmem, hmax⟩ := maxByKey_eq_some hne
    obtain rfl := Option.some.inj (hp'.symm.trans hp'')
    exact ⟨hmem, hmax⟩
  constructor
  · intro hp
    obtain ⟨hmem, hmax⟩ := hfound _ hp
    obtain ⟨u, hu, hpair⟩ := (hcandidates _).mp hmem
    obtain ⟨rfl, rfl⟩ := Prod.mk.inj hpair
    exact ⟨rfl, hu, fun u' hu' => hmax _ ((hcandidates _).mpr ⟨u', hu', rfl⟩)⟩
  · rintro ⟨rfl, hv, hmax⟩
    have hmem := (hcandidates _).mpr ⟨v, hv, rfl⟩
    obtain ⟨p', hp', hmem', hmax'⟩ := maxByKey_eq_some (List.ne_nil_of_mem hmem)
    obtain ⟨v', hv', rfl⟩ := (hcandidates p').mp hmem'
    have heq : v' = v := UInt32.le_antisymm (hmax v' hv') (hmax' _ hmem)
    rw [hp', heq]

theorem exists_newestManifest (hnames : Named dir) {v : UInt32} (hv : Has dir (.mf v)) :
    ∃ u, newestManifest dir = some (u, (FileName.mf u).chars) := by
  have hmem := (mem_candidates hnames).mpr ⟨v, hv, rfl⟩
  obtain ⟨p, hp, hmem', -⟩ := maxByKey_eq_some (List.ne_nil_of_mem hmem)
  obtain ⟨u, -, rfl⟩ := (mem_candidates hnames).mp hmem'
  exact ⟨u, hp⟩

/-- When the newest manifest is kept and none is added, the same one is opened. -/
theorem newestManifest_congr {dir' : Directory} (hnames : Named dir) (hnames' : Named dir')
    (hkept : ∀ v, Has dir (.mf v) → (∀ u, Has dir (.mf u) → u ≤ v) → Has dir' (.mf v))
    (hsub : ∀ v, Has dir' (.mf v) → Has dir (.mf v)) :
    newestManifest dir' = newestManifest dir := by
  refine Option.ext fun ⟨v, s⟩ => ?_
  rw [newestManifest_eq_some hnames, newestManifest_eq_some hnames']
  refine and_congr_right fun _ => ⟨fun h => ?_, fun h => ?_⟩
  · obtain ⟨hp, hmax⟩ := h
    obtain ⟨u, hu⟩ := exists_newestManifest hnames (hsub _ hp)
    obtain ⟨-, hu, hmaxu⟩ := (newestManifest_eq_some hnames).mp hu
    exact ⟨hsub _ hp, fun w hw => UInt32.le_trans (hmaxu w hw) (hmax u (hkept u hu hmaxu))⟩
  · obtain ⟨hp, hmax⟩ := h
    exact ⟨hkept _ hp hmax, fun w hw => hmax w (hsub w hw)⟩

/-- What is kept of a directory: the two newest manifests, the logs and tables that are live or that
one of these two lists, and all the other files. -/
structure KeepsLastTwo (crc : Bytes → UInt32) (liveWals liveSsts : List UInt32)
    (dir dir' : Directory) : Prop where
  manifests : ∀ v, Has dir' (.mf v) ↔ Newest dir v
  wals : ∀ id, Has dir' (.wal id) ↔
    Has dir (.wal id) ∧ (id ∈ liveWals ∨ ListedByNewest crc dir (.wal id))
  ssts : ∀ id, Has dir' (.sst id) ↔
    Has dir (.sst id) ∧ (id ∈ liveSsts ∨ ListedByNewest crc dir (.sst id))
  others : ∀ n i, (∀ v, n ≠ (FileName.mf v).entry) → (∀ id, n ≠ (FileName.wal id).entry) →
    (∀ id, n ≠ (FileName.sst id).entry) → ((n, i) ∈ dir'.names ↔ (n, i) ∈ dir.names)
  files : ∀ n file, dir'.read n = some file → dir.read n = some file

/-- When the newest manifest is removed, the one before it is opened, and all that it lists is what
it was. -/
structure RollsBack (crc : Bytes → UInt32) (dir dir' : Directory) : Prop where
  newest : newestManifest dir' = newestManifest dir
  previous : ∀ v s, newestManifest dir' = some (v, s) →
    newestManifest (dir'.unlink (.utf8 s)) = newestManifest (dir.unlink (.utf8 s))
  listed : ∀ v s v' s' m, newestManifest dir' = some (v, s) →
    newestManifest (dir'.unlink (.utf8 s)) = some (v', s') →
    Manifest.tryOpen crc (((dir'.unlink (.utf8 s)).read (.utf8 s')).getD []) v' = .ok m →
    ∀ name, Listed m name → Has dir name →
      (dir'.unlink (.utf8 s)).read name.entry = dir.read name.entry

theorem keepsLastTwo (hnames : Named dir) : KeepsLastTwo crc liveWals liveSsts dir
    (garbageCollect crc liveWals liveSsts dir) where
  manifests v := by
    rw [has_garbageCollect hnames]
    constructor
    · rintro ⟨_, hnewest, _⟩
      exact hnewest v rfl
    · intro hnewest
      refine ⟨hnewest.1, fun u hu => FileName.mf.inj hu ▸ hnewest, fun id hid => ?_,
        fun id hid => ?_⟩
      · cases hid
      · cases hid
  wals id := by
    rw [has_garbageCollect hnames]
    refine and_congr_right fun _ =>
      ⟨fun h => h.2.1 id rfl, fun h => ⟨fun v hv => ?_, ?_, fun _ hid => ?_⟩⟩
    · cases hv
    · intro id' hid
      exact FileName.wal.inj hid ▸ h
    · cases hid
  ssts id := by
    rw [has_garbageCollect hnames]
    refine and_congr_right fun _ =>
      ⟨fun h => h.2.2 id rfl, fun h => ⟨fun v hv => ?_, fun _ hid => ?_, ?_⟩⟩
    · cases hv
    · cases hid
    · intro id' hid
      exact FileName.sst.inj hid ▸ h
  others n i hmf hwal hsst := mem_garbageCollect_of_other hnames hmf hwal hsst
  files n file hread := by
    obtain ⟨i, hi, _⟩ := Option.map_eq_some_iff.mp hread
    rw [← hread, read_garbageCollect (lookup_eq_some.mp hi)]

theorem Named.sub {dir' : Directory} (hnames : Named dir)
    (hsub : ∀ n i, (n, i) ∈ dir'.names → (n, i) ∈ dir.names) : Named dir' :=
  fun n i hmem => hnames n i (hsub n i hmem)

theorem has_unlink {name name' : FileName} :
    Has (dir.unlink name'.entry) name ↔ Has dir name ∧ name ≠ name' := by
  unfold Has
  simp only [mem_unlink, exists_and_right]
  exact and_congr_right fun _ => not_congr ⟨fun h => entry_injective h, congrArg _⟩

/-- A file that is still there after the newest manifest was removed is what it was. -/
theorem read_unlink_garbageCollect {n removed : EntryName} {i : Nat}
    (h : (n, i) ∈ ((garbageCollect crc liveWals liveSsts dir).unlink removed).names) :
    ((garbageCollect crc liveWals liveSsts dir).unlink removed).read n = dir.read n := by
  have hleft := (mem_unlink.mp h).1
  rw [read_of_mem h, read_of_mem (mem_garbageCollect.mp hleft).1, content_unlink,
    content_garbageCollect]

/-- A manifest file that can be opened is one of those whose lists are kept. -/
theorem listedByNewest_of_tryOpen {v : UInt32} {file : Bytes} {m : Manifest}
    (hnewest : Newest dir v)
    (hread : dir.read (FileName.mf v).entry = some file)
    (hopen : Manifest.tryOpen crc file v = .ok m) {name : FileName} (hlisted : Listed m name) :
    ListedByNewest crc dir name := by
  obtain ⟨⟨m₀, r⟩, hdecode, hopen⟩ := bind_ok_iff.mp hopen
  cases hopen
  refine ⟨v, m₀, hnewest, ?_, hlisted⟩
  rw [storedManifest, hread, Option.map_some, hdecode]

theorem rollsBack (hnames : Named dir) : RollsBack crc dir
    (garbageCollect crc liveWals liveSsts dir) := by
  have hkeeps : KeepsLastTwo crc liveWals liveSsts dir _ := keepsLastTwo hnames
  have hnames' : Named (garbageCollect crc liveWals liveSsts dir) :=
    hnames.sub fun n i hmem => (mem_garbageCollect.mp hmem).1
  have hnewest :
      newestManifest (garbageCollect crc liveWals liveSsts dir) = newestManifest dir := by
    refine newestManifest_congr hnames hnames' (fun v hv hmax => ?_)
      fun v hv => ((hkeeps.manifests v).mp hv).1
    refine (hkeeps.manifests v).mpr ⟨hv, fun v₁ v₂ hlt _ hv₁ => ?_⟩
    exact absurd (hmax v₁ hv₁) (UInt32.not_le.mpr hlt)
  -- the manifest before the newest one is among the two newest
  have hsecond : ∀ v u, (∀ w, Has dir (.mf w) → w ≤ v) →
      Has (dir.unlink (FileName.mf v).entry) (.mf u) →
      (∀ w, Has (dir.unlink (FileName.mf v).entry) (.mf w) → w ≤ u) → Newest dir u := by
    intro v u hmax hu hmaxu
    refine ⟨(has_unlink.mp hu).1, fun v₁ v₂ hlt₁ hlt₂ hv₁ hv₂ => ?_⟩
    have hne : v₁ ≠ v := by
      rintro rfl
      exact absurd (hmax v₂ hv₂) (UInt32.not_le.mpr hlt₂)
    exact absurd (hmaxu v₁ (has_unlink.mpr ⟨hv₁, fun h => hne (FileName.mf.inj h)⟩))
      (UInt32.not_le.mpr hlt₁)
  have hprevious : ∀ v s, newestManifest (garbageCollect crc liveWals liveSsts dir) = some (v, s) →
      newestManifest ((garbageCollect crc liveWals liveSsts dir).unlink (.utf8 s)) =
        newestManifest (dir.unlink (.utf8 s)) := by
    intro v s hv
    rw [hnewest] at hv
    obtain ⟨rfl, _, hmax⟩ := (newestManifest_eq_some hnames).mp hv
    refine newestManifest_congr (hnames.sub fun n i hmem => (mem_unlink.mp hmem).1)
      (hnames'.sub fun n i hmem => (mem_unlink.mp hmem).1) (fun u hu hmaxu => ?_) fun u hu => ?_
    · exact has_unlink.mpr
        ⟨(hkeeps.manifests u).mpr (hsecond v u hmax hu hmaxu), (has_unlink.mp hu).2⟩
    · obtain ⟨hu, hne⟩ := has_unlink.mp hu
      exact has_unlink.mpr ⟨((hkeeps.manifests u).mp hu).1, hne⟩
  refine ⟨hnewest, hprevious, fun v s v' s' m hv hv' hopen name hlisted hhas => ?_⟩
  have hback := hprevious v s hv ▸ hv'
  rw [hnewest] at hv
  obtain ⟨rfl, _, hmax⟩ := (newestManifest_eq_some hnames).mp hv
  obtain ⟨rfl, hold, hmax'⟩ :=
    (newestManifest_eq_some (hnames.sub fun n i hmem => (mem_unlink.mp hmem).1)).mp hback
  have hkept : Newest dir v' := hsecond v v' hmax hold hmax'
  -- the file that is opened is what it was, so what it lists was kept
  obtain ⟨i, hi⟩ := has_unlink.mpr ⟨(hkeeps.manifests v').mpr hkept, (has_unlink.mp hold).2⟩
  obtain ⟨i', hi'⟩ := hkept.1
  have hsame := (read_unlink_garbageCollect hi).trans (read_of_mem hi')
  have hentry : ∀ u, EntryName.utf8 (FileName.mf u).chars = (FileName.mf u).entry := fun _ => rfl
  rw [hentry, hentry, hsame, Option.getD_some] at hopen
  have hlistedBy := listedByNewest_of_tryOpen hkept (read_of_mem hi') hopen hlisted
  have hleft : Has (garbageCollect crc liveWals liveSsts dir) name ∧ name ≠ .mf v := by
    rcases hlisted with ⟨id, _, rfl⟩ | ⟨id, _, rfl⟩
    · exact ⟨(hkeeps.wals id).mpr ⟨hhas, .inr hlistedBy⟩, by simp⟩
    · exact ⟨(hkeeps.ssts id).mpr ⟨hhas, .inr hlistedBy⟩, by simp⟩
  obtain ⟨j, hj⟩ := has_unlink.mpr hleft
  exact read_unlink_garbageCollect hj

/-- Garbage collection keeps the two newest manifests, the logs and tables that are live or that one
of these two lists, and all the other files. So the database can be recovered from the manifest
before the newest one. -/
theorem garbageCollect_keeps (crc : Bytes → UInt32) (liveWals liveSsts : List UInt32)
    (dir : Directory) (hnames : Named dir) :
    KeepsLastTwo crc liveWals liveSsts dir (garbageCollect crc liveWals liveSsts dir) ∧
      RollsBack crc dir (garbageCollect crc liveWals liveSsts dir) :=
  ⟨keepsLastTwo hnames, rollsBack hnames⟩

/-- Files of a database, and an entry whose name is not UTF-8. -/
def sampleFiles : List (FileName × Bytes) :=
  [(.mf 1, []), (.mf 2, (Manifest.new 1).encode crc32), (.mf 3, []), (.mfTmp 4, []), (.wal 0, []),
    (.wal 1, []), (.sst 0, [])]

/-- A directory with three manifests. -/
def sampleDir : Directory :=
  ofFiles ((.notUtf8 [0xff], []) :: sampleFiles.map fun p => (p.1.entry, p.2)) (by
    have hnodup : (sampleFiles.map Prod.fst).Nodup := by decide
    rw [List.map_cons, List.map_map]
    refine List.nodup_cons.mpr ⟨?_, ?_⟩
    · rw [List.mem_map]
      rintro ⟨p, _, hp⟩
      cases hp
    · show (sampleFiles.map (FileName.entry ∘ Prod.fst)).Nodup
      rw [← List.map_map]
      exact hnodup.map entry_injective)

theorem garbageCollect_keeps_sample :
    KeepsLastTwo crc32 [0] [] sampleDir (garbageCollect crc32 [0] [] sampleDir) ∧
      RollsBack crc32 sampleDir (garbageCollect crc32 [0] [] sampleDir) :=
  garbageCollect_keeps crc32 [0] [] sampleDir (by
    intro n i hmem
    obtain ⟨file, hfile⟩ := mem_names_ofFiles.mp hmem
    rcases List.mem_cons.mp (List.mem_of_getElem? hfile) with heq | hmem
    · cases heq
      exact .inr fun s hs => by cases hs
    · obtain ⟨p, _, heq⟩ := List.mem_map.mp hmem
      cases heq
      exact .inl ⟨p.1, rfl⟩)

/-- The name of a file of the database has at least eight characters. -/
theorem eight_le_length_chars (name : FileName) : 8 ≤ name.chars.length := by
  have hnumber : 5 ≤ (pad5 (number name)).toList.length := by
    have hdigits :
        (number name).toNat.repr.length = (Nat.toDigits 10 (number name).toNat).length := by
      rw [Nat.repr_eq_ofList_toDigits, String.length_ofList]
    simp [pad5, hdigits]
    omega
  have hextension : 3 ≤ (extension name).length := by
    cases name <;> exact Nat.le_of_ble_eq_true rfl
  rw [chars_eq, List.length_append]
  omega

/-- A name that the database would not give to a log can be that of a log all the same, and then it
is removed. -/
theorem garbageCollect_removes_other : ¬ ∀ (crc : Bytes → UInt32) (liveWals liveSsts : List UInt32)
    (dir : Directory), KeepsLastTwo crc liveWals liveSsts dir
      (garbageCollect crc liveWals liveSsts dir) := by
  intro hall
  let dir : Directory := ofFiles [(.utf8 ['1', '.', 'w', 'a', 'l'], [])] (by decide)
  have hother : ∀ name : FileName, EntryName.utf8 ['1', '.', 'w', 'a', 'l'] ≠ name.entry := by
    intro name heq
    have hlength := eight_le_length_chars name
    rw [← EntryName.utf8.inj heq] at hlength
    exact absurd hlength (by decide)
  have hkept := ((hall crc32 [] [] dir).others (.utf8 ['1', '.', 'w', 'a', 'l']) 0
    (fun _ => hother _) (fun _ => hother _) (fun _ => hother _)).mpr List.mem_cons_self
  have hobsolete := ((mem_garbageCollect.mp hkept).2 _ rfl).2
  have hremoved : isObsolete (keptWals crc32 [] dir) (keptSsts crc32 [] dir)
      ['1', '.', 'w', 'a', 'l'] = true := by decide +kernel
  rw [hremoved] at hobsolete
  cases hobsolete

/-! ## The files of the database -/

/-- A directory of files of the database, and the directory with their names. -/
structure SameFiles (d : Dir) (dir : Directory) : Prop where
  names : ∀ name i, (name, i) ∈ d.names ↔ (name.entry, i) ∈ dir.names
  content : d.content = dir.content

variable {env : Env} {w : World} {d : Dir}

theorem SameFiles.has (h : SameFiles d dir) (name : FileName) :
    Has dir name ↔ ∃ i, (name, i) ∈ d.names :=
  exists_congr fun i => (h.names name i).symm

theorem SameFiles.read (h : SameFiles d dir) (name : FileName) :
    d.read name = dir.read name.entry := by
  cases hlookup : d.lookup name with
  | none =>
      have hnone : dir.lookup name.entry = none :=
        lookup_eq_none.mpr fun i hi => lookup_eq_none.mp hlookup i ((h.names name i).mpr hi)
      rw [FileStore.read, FileStore.read, hlookup, hnone]
      rfl
  | some i =>
      have hmem := lookup_eq_some.mp hlookup
      rw [read_of_mem hmem, read_of_mem ((h.names name i).mp hmem), h.content]

/-- The manifests in descending order, with their names. -/
theorem manifestFiles_eq (h : SameFiles d dir) (hnames : Named dir) :
    manifestFiles dir = ((Dir.versions d).insertionSort (· ≥ ·)).map
      fun v => (v.toUInt64, (FileName.mf v).chars) := by
  have hnodup := (List.perm_insertionSort (· ≥ ·) (Dir.versions d)).nodup_iff.mpr (nodup_versions d)
  have hsorted : ((Dir.versions d).insertionSort (· ≥ ·)).Pairwise fun a b => b.toNat < a.toNat :=
    ((List.pairwise_insertionSort _ _).and hnodup).imp fun {a b} hab =>
      Nat.lt_of_le_of_ne (UInt32.le_iff_toNat_le.mp hab.1)
        fun heq => hab.2 (UInt32.toNat_inj.mp heq.symm)
  have hsorted' : (((Dir.versions d).insertionSort (· ≥ ·)).map
      fun v => (v.toUInt64, (FileName.mf v).chars)).Pairwise fun a b => b.1.toNat < a.1.toNat :=
    List.pairwise_map.mpr hsorted
  have hirrefl : ∀ l : List (UInt64 × List Char), l.Pairwise (fun a b => b.1.toNat < a.1.toNat) →
      l.Nodup := fun l hl => hl.imp fun hlt heq => absurd hlt (by rw [heq]; exact lt_irrefl _)
  refine List.Perm.eq_of_pairwise (fun a b _ _ hab hba => absurd hab (not_lt_of_gt hba))
    (pairwise_manifestFiles hnames) hsorted' ?_
  refine (List.perm_ext_iff_of_nodup (hirrefl _ (pairwise_manifestFiles hnames))
    (hirrefl _ hsorted')).mpr fun p => ?_
  rw [show p = (p.1, p.2) from rfl, mem_manifestFiles_of_named hnames, List.mem_map]
  constructor
  · rintro ⟨u, hu, hv, hs⟩
    refine ⟨u, ?_, by rw [← hv, ← hs]⟩
    exact (List.mem_insertionSort _).mpr (Dir.mem_versions.mpr ((h.has _).mp hu))
  · rintro ⟨u, hu, hp⟩
    refine ⟨u, (h.has _).mpr (Dir.mem_versions.mp ((List.mem_insertionSort _).mp hu)), ?_, ?_⟩
    · exact (congrArg Prod.fst hp).symm
    · exact (congrArg Prod.snd hp).symm

theorem referencedBy_run (hsame : SameFiles w.dir dir) (hfaults : w.faults = []) (v : UInt32) :
    Db.referencedBy env v w =
      (.ok (referencedBy env.crates.crc32 dir (FileName.mf v).chars), w) := by
  have hfault : nextFault w = (.ok none, w) := by
    rw [nextFault, hfaults]
  have hread := hsame.read (.mf v)
  have hentry : EntryName.utf8 (FileName.mf v).chars = (FileName.mf v).entry := rfl
  rw [referencedBy, hentry, ← hread, FileStore.read]
  simp only [Db.referencedBy, openFile, Prog.attempt, Prog.bind_apply, hfault, Prog.read]
  cases w.dir.lookup (.mf v) with
  | none => rfl
  | some i =>
      simp only [Option.map_some, pure, Prog.pure, Prog.bind_apply, Prog.read]
      rcases Manifest.decode env.crates.crc32 (w.dir.content i) with _ | ⟨m, r⟩ <;> rfl

/-- A directory after some names were removed from it. -/
structure Without (removed : List FileName) (d d' : Dir) : Prop where
  names : ∀ name i, (name, i) ∈ d'.names ↔ (name, i) ∈ d.names ∧ name ∉ removed
  content : d'.content = d.content

theorem Without.trans {removed removed' : List FileName} {d d' d'' : Dir}
    (h : Without removed d d') (h' : Without removed' d' d'') :
    Without (removed ++ removed') d d'' where
  names name i := by rw [h'.names, h.names, List.mem_append, not_or, and_assoc]
  content := h'.content.trans h.content

/-- The obsolete files are those with the names of obsolete files. -/
theorem isObsolete_eq (wals ssts : List UInt32) (name : FileName) :
    isObsolete wals ssts name.chars = Db.isObsolete wals ssts name := by
  rw [Bool.eq_iff_iff, isObsolete_chars]
  cases name <;> simp [Db.isObsolete]

theorem deleteFile_run (name : FileName) (hfaults : w.faults = []) :
    ∃ w', deleteFile name w = (.ok (), w') ∧ w'.faults = [] ∧ Without [name] w.dir w'.dir := by
  have hfault : nextFault w = (.ok none, w) := by
    rw [nextFault, hfaults]
  simp only [deleteFile, removeFile, Prog.attempt, Prog.bind_apply, hfault, Prog.read]
  cases hlookup : w.dir.lookup name with
  | none =>
      refine ⟨w, rfl, hfaults, fun n i => ⟨fun hmem => ⟨hmem, fun hn => ?_⟩, And.left⟩, rfl⟩
      obtain rfl := List.mem_singleton.mp hn
      exact lookup_eq_none.mp hlookup i hmem
  | some i =>
      refine ⟨_, rfl, hfaults, fun n j => ?_, content_unlink _ _⟩
      rw [List.mem_singleton]
      exact mem_unlink

/-- Deleting files, without I/O failures. -/
theorem deleteFiles_run {α : Type} (f : α → FileName) (l : List α) (hfaults : w.faults = []) :
    ∃ us w', Prog.forEach (fun a => deleteFile (f a)) l w = (.ok us, w') ∧ w'.faults = [] ∧
      Without (l.map f) w.dir w'.dir := by
  induction l generalizing w with
  | nil => exact ⟨[], w, rfl, hfaults, by simp, rfl⟩
  | cons a l ih =>
      obtain ⟨w₁, hrun₁, hfaults₁, hleft₁⟩ := deleteFile_run (f a) hfaults
      obtain ⟨us, w₂, hrun₂, hfaults₂, hleft₂⟩ := ih hfaults₁
      refine ⟨() :: us, w₂, ?_, hfaults₂, hleft₁.trans hleft₂⟩
      simp only [Prog.forEach, Prog.bind_apply, hrun₁, hrun₂]
      rfl

theorem referencedBys_run (hsame : SameFiles w.dir dir) (hfaults : w.faults = [])
    (versions : List UInt32) :
    Prog.forEach (Db.referencedBy env) versions w =
      (.ok (versions.map fun v => referencedBy env.crates.crc32 dir (FileName.mf v).chars), w) := by
  induction versions with
  | nil => rfl
  | cons v versions ih =>
      simp only [Prog.forEach, Prog.bind_apply, referencedBy_run hsame hfaults, ih]
      rfl

/-- Without I/O failures, garbage collection of the files of the database removes the files that it
removes by their names. -/
theorem garbageCollect_entries (env : Env) (liveWals liveSsts : List UInt32)
    (hsame : SameFiles w.dir dir) (hnames : Named dir) (hfaults : w.faults = []) :
    ∃ w', Db.garbageCollect env liveWals liveSsts w = (.ok (), w') ∧
      SameFiles w'.dir (garbageCollect env.crates.crc32 liveWals liveSsts dir) := by
  have hfault : nextFault w = (.ok none, w) := by
    rw [nextFault, hfaults]
  have hmanifests := manifestFiles_eq hsame hnames
  have hkept : (((Dir.versions w.dir).insertionSort (· ≥ ·)).take 2).map
      (fun v => referencedBy env.crates.crc32 dir (FileName.mf v).chars) =
      ((manifestFiles dir).take 2).map fun p => referencedBy env.crates.crc32 dir p.2 := by
    rw [hmanifests, ← List.map_take, List.map_map]
    rfl
  obtain ⟨us, w₁, hrun₁, hfaults₁, hleft₁⟩ := deleteFiles_run FileName.mf
    (((Dir.versions w.dir).insertionSort (· ≥ ·)).drop 2) hfaults
  obtain ⟨us', w₂, hrun₂, hfaults₂, hleft₂⟩ := deleteFiles_run id
    ((w.dir.names.map Prod.fst).filter (Db.isObsolete (keptWals env.crates.crc32 liveWals dir)
      (keptSsts env.crates.crc32 liveSsts dir))) hfaults₁
  have hleft := hleft₁.trans hleft₂
  refine ⟨w₂, ?_, fun name i => ?_, ?_⟩
  · have hrun₂ : Prog.forEach deleteFile _ w₁ = (.ok us', w₂) := hrun₂
    simp only [Db.garbageCollect, Prog.bind_apply, hfault, Prog.read,
      referencedBys_run hsame hfaults, hkept, hrun₁]
    rw [keptWals, keptSsts] at hrun₂
    rw [hrun₂]
    rfl
  · rw [hleft.names, mem_garbageCollect, hsame.names]
    refine and_congr_right fun hmem => ?_
    have hhas : name ∈ w.dir.names.map Prod.fst :=
      List.mem_map_of_mem ((hsame.names name i).mpr hmem)
    have hdropped : name ∈ (((Dir.versions w.dir).insertionSort (· ≥ ·)).drop 2).map FileName.mf ↔
        ∃ v, (v, name.chars) ∈ (manifestFiles dir).drop 2 := by
      rw [hmanifests, ← List.map_drop]
      constructor
      · intro hname
        obtain ⟨v, hv, rfl⟩ := List.mem_map.mp hname
        exact ⟨_, List.mem_map.mpr ⟨v, hv, rfl⟩⟩
      · rintro ⟨v, hv⟩
        obtain ⟨u, hu, heq⟩ := List.mem_map.mp hv
        have hchars : (FileName.mf u).entry = name.entry :=
          congrArg EntryName.utf8 (congrArg Prod.snd heq)
        exact List.mem_map.mpr ⟨u, hu, entry_injective hchars⟩
    rw [List.mem_append, not_or, List.map_id, List.mem_filter, hdropped, not_exists,
      ← isObsolete_eq]
    constructor
    · rintro ⟨hkept, hneeded⟩ s hs
      obtain rfl := EntryName.utf8.inj hs
      exact ⟨hkept, Bool.not_eq_true _ ▸ fun hobsolete => hneeded ⟨hhas, hobsolete⟩⟩
    · intro hall
      obtain ⟨hkept, hneeded⟩ := hall _ rfl
      refine ⟨hkept, fun hobsolete => ?_⟩
      rw [hneeded] at hobsolete
      cases hobsolete.2
  · rw [hleft.content, hsame.content, content_garbageCollect]

end EasyLsm.Db.Entries
