import Mathlib.Data.List.Basic
import Mathlib.Data.List.Pairwise
import Mathlib.Data.List.Sort
import EasyLsm.Lib.Levels

/-!
# Versions of keys in a tree of levels

A store keeps several versions of a key, of which the one with the largest sequence number is the
newest. Its runs, lists of versions, are arranged in levels. `Descending` says that shallower levels
hold newer versions, and `Ordered` that the runs of a level cover disjoint ranges, in order. Both
are kept when runs are pushed into level 0 and when some runs of a level and of the next one are
replaced. `NewestFirst` is what a reader needs who takes the first version that he finds.
-/

namespace EasyLsm.Lib.Versions

open Levels

/-- Entries are versions of keys. -/
class Versioned (ε : Type) (κ : outParam Type) where
  key : ε → κ
  seq : ε → Nat

open Versioned

variable {ε κ α : Type} [Versioned ε κ] {as bs cs : List ε}

/-! ## Age -/

/-- The versions in `bs` are newer than those of the same key in `as`. -/
def Older (as bs : List ε) : Prop := ∀ a ∈ as, ∀ b ∈ bs, key a = key b → seq a < seq b

/-- No key has versions in both lists. -/
def Apart (as bs : List ε) : Prop := ∀ a ∈ as, ∀ b ∈ bs, key a ≠ key b

/-- Of two versions of a key the newer one comes first. -/
def NewestFirst (es : List ε) : Prop := es.Pairwise fun a b => key a = key b → seq b ≤ seq a

theorem Apart.older (h : Apart as bs) : Older as bs := fun a ha b hb heq => absurd heq (h a ha b hb)

theorem Apart.symm (h : Apart as bs) : Apart bs as := fun b hb a ha heq => h a ha b hb heq.symm

theorem older_nil (as : List ε) : Older as [] := fun _ _ _ hb => absurd hb List.not_mem_nil

/-- The first version of a key is the newest one. -/
theorem NewestFirst.find? [DecidableEq κ] {es : List ε} {k : κ} {e x : ε} (h : NewestFirst es)
    (he : es.find? (fun e => key e = k) = some e) (hx : x ∈ es) (hkey : key x = k) :
    seq x ≤ seq e := by
  obtain ⟨hk, before, after, rfl, hbefore⟩ := List.find?_eq_some_iff_append.mp he
  have hk : key e = k := of_decide_eq_true hk
  rcases List.mem_append.mp hx with hx | hx
  · have hne : key x ≠ k := by simpa using hbefore x hx
    exact absurd hkey hne
  · rcases List.mem_cons.mp hx with rfl | hx
    · exact Nat.le_refl _
    · exact (List.pairwise_cons.mp (List.pairwise_append.mp h).2.1).1 x hx (hk.trans hkey.symm)

/-- Two arrangements of the same versions with the newest first have the same first version of a
key. -/
theorem NewestFirst.find?_eq [DecidableEq κ] {es es' : List ε} (k : κ) (h : NewestFirst es)
    (h' : NewestFirst es') (hperm : es.Perm es')
    (hunique : ∀ a ∈ es, ∀ b ∈ es, key a = key b → seq a = seq b → a = b) :
    es.find? (fun e => key e = k) = es'.find? (fun e => key e = k) := by
  cases hfind : es.find? (fun e => key e = k) with
  | none =>
      refine (List.find?_eq_none.mpr fun x hx => ?_).symm
      exact List.find?_eq_none.mp hfind x (hperm.mem_iff.mpr hx)
  | some e =>
      have he := List.mem_of_find?_eq_some hfind
      have hk : key e = k := by simpa using List.find?_some hfind
      cases hfind' : es'.find? (fun e => key e = k) with
      | none =>
          exact absurd (decide_eq_true hk) (List.find?_eq_none.mp hfind' e (hperm.mem_iff.mp he))
      | some e' =>
          have he' := hperm.mem_iff.mpr (List.mem_of_find?_eq_some hfind')
          have hk' : key e' = k := by simpa using List.find?_some hfind'
          have hle := h.find? hfind he' hk'
          have hle' := h'.find? hfind' (hperm.mem_iff.mp he) hk
          rw [hunique e he e' he' (hk.trans hk'.symm) (Nat.le_antisymm hle' hle)]

/-- Lists one after the other, each older than those before it. -/
theorem newestFirst_flatten {ls : List (List ε)} (h : ∀ l ∈ ls, NewestFirst l)
    (holder : ls.Pairwise fun as bs => Older bs as) : NewestFirst ls.flatten := by
  refine List.pairwise_flatten.mpr ⟨h, holder.imp fun hab a ha b hb heq => ?_⟩
  exact le_of_lt (hab b hb a ha heq.symm)

/-! ## Levels -/

/-- Shallower levels hold newer versions. -/
def Descending (entries : α → List ε) (levels : List (List α)) : Prop :=
  ∀ i j, i < j → ∀ a ∈ get levels i, ∀ b ∈ get levels j, Older (entries b) (entries a)

variable {entries : α → List ε} {levels : List (List α)} {gone gone' : α → Bool}
  {le : α → α → Prop} [DecidableRel le] {source : Nat} {new : List α}

/-- Runs that are newer than the levels behind level 0 are pushed. -/
theorem Descending.push (h : Descending entries levels)
    (hnew : ∀ r ∈ new, ∀ j, 0 < j → ∀ b ∈ get levels j, Older (entries b) (entries r)) :
    Descending entries (Levels.push new levels) := by
  intro i j hij a ha b hb
  rw [get_push, if_neg (by omega)] at hb
  rw [get_push] at ha
  split at ha
  · rename_i hi
    rcases List.mem_append.mp ha with ha | ha
    · exact h 0 j (by omega) a ha b hb
    · exact hnew a ha j (by omega) b hb
  · exact h i j hij a ha b hb

/-- A run of the target level after a replacement: an old one that stays, or a new one. -/
theorem mem_get_replace_target {r : α}
    (h : r ∈ get (Levels.replace gone gone' le source new levels) (source + 1)) :
    (r ∈ get levels (source + 1) ∧ gone' r = false) ∨ r ∈ new := by
  rw [get_replace, if_neg (Nat.succ_ne_self _), if_pos rfl, List.mem_insertionSort,
    List.mem_append, List.mem_filter] at h
  simpa using h

/-- A run of the source level after a replacement is an old one that stays. -/
theorem mem_get_replace_source {r : α} :
    r ∈ get (Levels.replace gone gone' le source new levels) source ↔
      r ∈ get levels source ∧ gone r = false := by
  rw [get_replace, if_pos rfl, List.mem_filter]
  simp

/-- The other levels are not touched. -/
theorem get_replace_other {i : Nat} (hsource : i ≠ source) (htarget : i ≠ source + 1) :
    get (Levels.replace gone gone' le source new levels) i = get levels i := by
  rw [get_replace, if_neg hsource, if_neg htarget]

/-- Every version in the new runs comes from a run that is taken out. -/
def Rewrites (entries : α → List ε) (gone gone' : α → Bool) (source : Nat)
    (levels : List (List α)) (new : List α) : Prop :=
  ∀ r ∈ new, ∀ e ∈ entries r, (∃ a ∈ get levels source, gone a = true ∧ e ∈ entries a) ∨
    ∃ b ∈ get levels (source + 1), gone' b = true ∧ e ∈ entries b

/-- Runs that are older than those that stay in their level are moved to the next level. -/
theorem Descending.replace (h : Descending entries levels)
    (hstay : ∀ a ∈ get levels source, gone a = true → ∀ b ∈ get levels source, gone b = false →
      Older (entries a) (entries b))
    (hnew : Rewrites entries gone gone' source levels new) :
    Descending entries (Levels.replace gone gone' le source new levels) := by
  -- a level behind the source or in front of it
  have hbehind : ∀ i, i ≠ source + 1 → ∀ a ∈ get (Levels.replace gone gone' le source new levels) i,
      a ∈ get levels i := by
    intro i hi a ha
    by_cases hsource : i = source
    · subst hsource
      exact (mem_get_replace_source.mp ha).1
    · rwa [get_replace_other hsource hi] at ha
  intro i j hij a ha b hb
  by_cases hi : i = source + 1
  · -- the target level is the newer one
    subst hi
    have hb := hbehind j (by omega) b hb
    rcases mem_get_replace_target ha with ⟨ha, _⟩ | ha
    · exact h _ j hij a ha b hb
    · intro x hx y hy heq
      rcases hnew a ha y hy with ⟨r, hr, _, hy⟩ | ⟨r, hr, _, hy⟩
      · exact h source j (by omega) r hr b hb x hx y hy heq
      · exact h (source + 1) j hij r hr b hb x hx y hy heq
  · by_cases hj : j = source + 1
    · -- the target level is the older one
      subst hj
      have ha' := hbehind i hi a ha
      rcases mem_get_replace_target hb with ⟨hb, _⟩ | hb
      · exact h i _ hij a ha' b hb
      · intro x hx y hy heq
        rcases hnew b hb x hx with ⟨r, hr, hgone, hx⟩ | ⟨r, hr, _, hx⟩
        · by_cases hsource : i = source
          · subst hsource
            obtain ⟨ha, hstays⟩ := mem_get_replace_source.mp ha
            exact hstay r hr hgone a ha hstays x hx y hy heq
          · exact h i source (by omega) a ha' r hr x hx y hy heq
        · exact h i (source + 1) hij a ha' r hr x hx y hy heq
    · exact h i j hij a (hbehind i hi a ha) b (hbehind j hj b hb)

/-- When shallower levels hold newer versions and within every level the newest version comes first,
so it does in all levels one after the other. -/
theorem Descending.newestFirst (h : Descending entries levels)
    (hlevel : ∀ i, NewestFirst ((get levels i).flatMap entries)) :
    NewestFirst (levels.flatten.flatMap entries) := by
  rw [Levels.flatMap_flatten]
  refine newestFirst_flatten ?_ (List.pairwise_map.mpr ?_)
  · intro l hl
    obtain ⟨level, hmem, rfl⟩ := List.mem_map.mp hl
    obtain ⟨i, hi, rfl⟩ := List.mem_iff_getElem.mp hmem
    exact Levels.get_eq_getElem hi ▸ hlevel i
  · refine List.pairwise_iff_getElem.mpr fun i j hi hj hij => ?_
    intro b hb a ha heq
    obtain ⟨s, hs, hb⟩ := List.mem_flatMap.mp hb
    obtain ⟨r, hr, ha⟩ := List.mem_flatMap.mp ha
    exact h i j hij r (Levels.get_eq_getElem hi ▸ hr) s
      (Levels.get_eq_getElem hj ▸ hs) b hb a ha heq

/-- When the newest version comes first in all levels one after the other, shallower levels hold
newer versions. -/
theorem Descending.of_newestFirst (h : NewestFirst (levels.flatten.flatMap entries))
    (hunique : (levels.flatten.flatMap entries).Pairwise fun a b => key a = key b → seq a ≠ seq b) :
    Descending entries levels := by
  have hpairs := h.and hunique
  rw [Levels.flatMap_flatten] at hpairs
  have hlevels := List.pairwise_map.mp (List.pairwise_flatten.mp hpairs).2
  intro i j hij a ha b hb x hx y hy heq
  have hi := Levels.lt_length_of_mem ha
  have hj := Levels.lt_length_of_mem hb
  rw [Levels.get_eq_getElem hi] at ha
  rw [Levels.get_eq_getElem hj] at hb
  obtain ⟨hle, hne⟩ := List.pairwise_iff_getElem.mp hlevels i j hi hj hij y
    (List.mem_flatMap.mpr ⟨a, ha, hy⟩) x (List.mem_flatMap.mpr ⟨b, hb, hx⟩)
  exact lt_of_le_of_ne (hle heq.symm) (hne heq.symm).symm

/-! ## Ranges -/

section Ranges

variable {ι : Type} [LinearOrder ι] {lo hi : α → ι}

/-- The runs cover disjoint ranges, in order. -/
def Ordered (lo hi : α → ι) (level : List α) : Prop := level.Pairwise fun a b => hi a < lo b

/-- Disjoint ranges are in order when they are sorted by their lower bounds. -/
theorem ordered_insertionSort {level : List α} (hrange : ∀ a ∈ level, lo a ≤ hi a)
    (hdisjoint : level.Pairwise fun a b => hi a < lo b ∨ hi b < lo a) :
    Ordered lo hi (level.insertionSort fun a b => lo a ≤ lo b) := by
  have hperm := List.perm_insertionSort (fun a b : α => lo a ≤ lo b) level
  have hsorted : (level.insertionSort fun a b => lo a ≤ lo b).Pairwise fun a b => lo a ≤ lo b :=
    List.pairwise_insertionSort _ level
  have hdisjoint' := (hperm.pairwise_iff (R := fun a b => hi a < lo b ∨ hi b < lo a)
    fun h => h.symm).mpr hdisjoint
  refine (hsorted.and hdisjoint').imp_of_mem fun {a b} ha hb hab => ?_
  obtain ⟨hle, hlt | hlt⟩ := hab
  · exact hlt
  · -- the range of `b` would end before it begins
    have hb' := hrange b (hperm.mem_iff.mp hb)
    exact absurd (lt_of_le_of_lt hle (lt_of_le_of_lt hb' hlt)) (lt_irrefl _)

/-- Runs that meet a range are taken out of an ordered level, together with others of that range,
and runs within the ranges of these are put in. -/
theorem Ordered.replace_overlapping {level taken new : List α} {gone : α → Bool} {low high : ι}
    (h : Ordered lo hi level) (hrange : ∀ a ∈ level, lo a ≤ hi a)
    (hgone : ∀ a ∈ level, gone a = true ↔ low ≤ hi a ∧ lo a ≤ high)
    (htaken : ∀ a ∈ taken, low ≤ lo a ∧ hi a ≤ high)
    (hnew : Ordered lo hi new)
    (hcover : ∀ r ∈ new, lo r ≤ hi r ∧
      (∃ p, (p ∈ taken ∨ p ∈ level ∧ gone p = true) ∧ lo p ≤ lo r) ∧
      ∃ p, (p ∈ taken ∨ p ∈ level ∧ gone p = true) ∧ hi r ≤ hi p) :
    Ordered lo hi (((level.filter fun a => !gone a) ++ new).insertionSort
      fun a b => lo a ≤ lo b) := by
  have hapart : ∀ a ∈ level, ∀ b ∈ level, gone a = true → gone b = false →
      hi a < lo b ∨ hi b < lo a := by
    intro a ha b hb hga hgb
    have hdisjoint : level.Pairwise fun a b => hi a < lo b ∨ hi b < lo a :=
      h.imp fun hlt => .inl hlt
    have hsymm : Std.Symm fun a b : α => hi a < lo b ∨ hi b < lo a := ⟨fun _ _ hor => hor.symm⟩
    refine hdisjoint.forall ha hb fun heq => ?_
    rw [heq, hgb] at hga
    cases hga
  -- a run that stays and a new one
  have hcross : ∀ b ∈ level, gone b = false → ∀ r ∈ new, hi b < lo r ∨ hi r < lo b := by
    intro b hb hstays r hr
    obtain ⟨_, ⟨p, hp, hlow⟩, q, hq, hhigh⟩ := hcover r hr
    have hb' := hrange b hb
    have hout : hi b < low ∨ high < lo b := by
      by_contra hin
      obtain ⟨hlow', hhigh'⟩ := not_or.mp hin
      rw [(hgone b hb).mpr ⟨not_lt.mp hlow', not_lt.mp hhigh'⟩] at hstays
      cases hstays
    rcases hout with hbefore | hbehind
    · refine .inl (lt_of_lt_of_le ?_ hlow)
      rcases hp with hp | ⟨hp, hgp⟩
      · exact lt_of_lt_of_le hbefore (htaken p hp).1
      · rcases hapart p hp b hb hgp hstays with hpb | hbp
        · have hmeets := ((hgone p hp).mp hgp).1
          exact absurd (lt_of_lt_of_le hpb hb')
            (not_lt.mpr (le_of_lt (lt_of_lt_of_le hbefore hmeets)))
        · exact hbp
    · refine .inr (lt_of_le_of_lt hhigh ?_)
      rcases hq with hq | ⟨hq, hgq⟩
      · exact lt_of_le_of_lt (htaken q hq).2 hbehind
      · rcases hapart q hq b hb hgq hstays with hqb | hbq
        · exact hqb
        · have hmeets := ((hgone q hq).mp hgq).2
          exact absurd (lt_of_le_of_lt hb' hbq)
            (not_lt.mpr (le_of_lt (lt_of_le_of_lt hmeets hbehind)))
  refine ordered_insertionSort (fun a ha => ?_) (List.pairwise_append.mpr ⟨?_, ?_, ?_⟩)
  · rcases List.mem_append.mp ha with ha | ha
    · exact hrange a (List.mem_of_mem_filter ha)
    · exact (hcover a ha).1
  · exact (h.sublist List.filter_sublist).imp fun hlt => .inl hlt
  · exact hnew.imp fun hlt => .inl hlt
  · intro b hb r hr
    obtain ⟨hb, hstays⟩ := List.mem_filter.mp hb
    exact hcross b hb (by simpa using hstays) r hr

end Ranges

end EasyLsm.Lib.Versions
