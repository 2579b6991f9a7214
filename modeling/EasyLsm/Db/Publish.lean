import Mathlib.Data.List.Basic
import EasyLsm.Db.Atomic
import EasyLsm.Db.Building
import EasyLsm.Db.Sweep

/-!
# Publishing new tables

A flush and a compaction end in the same way: a commit with a closure that does no I/O, a new
version, and a garbage collection (`Published`). The only step that can fail is the commit.
`Throughout` speaks of all the directories on the way, so of every point at which a crash can come.
-/

namespace EasyLsm.Db

open Lib Lib.FileStore

variable {env : Env} {keep : FileName → Prop} {w₀ w₁ w w' : World}

/-- `P` holds of every directory between the two states and of the last one. -/
def Throughout (P : Dir → Prop) (w₀ w : World) : Prop :=
  (∃ dirs, w.trace = w₀.trace ++ dirs ∧ ∀ d ∈ dirs, P d) ∧ P w.dir

theorem Throughout.trans {P : Dir → Prop} (h : Throughout P w₀ w) (h' : Throughout P w w') :
    Throughout P w₀ w' := by
  obtain ⟨⟨dirs, htrace, hdirs⟩, _⟩ := h
  obtain ⟨⟨dirs', htrace', hdirs'⟩, hdir'⟩ := h'
  refine ⟨⟨dirs ++ dirs', by rw [htrace', htrace, List.append_assoc], fun d hd => ?_⟩, hdir'⟩
  rcases List.mem_append.mp hd with hd | hd
  · exact hdirs d hd
  · exact hdirs' d hd

/-- The same directories on the way. -/
theorem Throughout.congr {P : Dir → Prop} (h : Throughout P w₀ w) (hdir : w'.dir = w.dir)
    (htrace : w'.trace = w.trace) : Throughout P w₀ w' := by
  rw [Throughout, hdir, htrace]
  exact h

theorem Throughout.mono {P P' : Dir → Prop} (h : Throughout P w₀ w) (hP : ∀ d, P d → P' d) :
    Throughout P' w₀ w := by
  obtain ⟨⟨dirs, htrace, hdirs⟩, hdir⟩ := h
  exact ⟨⟨dirs, htrace, fun d hd => hP d (hdirs d hd)⟩, hP _ hdir⟩

theorem Quiet.throughout (h : Quiet keep w₀ w) : Throughout (Agree keep w₀.dir) w₀ w :=
  ⟨h.trace, h.dir⟩

/-- A commit leaves the files as they are until it renames the new manifest. -/
theorem Committed.throughout {c : Manifest} (h : Committed env w₁ c w)
    (htmp : ∀ v, ¬ keep (.mfTmp v)) :
    Throughout (fun d => Agree keep w₁.dir d ∨ d = w.dir) w₁ w := by
  obtain ⟨w₂, hquiet, _, _, htrace⟩ := h.rename
  have hbefore := hquiet.mono fun n hn heq => htmp _ (heq ▸ hn)
  refine (hbefore.throughout.mono fun d hd => .inl hd).trans
    ⟨⟨[w.dir], htrace, fun d hd => ?_⟩, .inr rfl⟩
  exact .inr (List.mem_singleton.mp hd)

theorem Swept.throughout (h : Swept w₀ w) :
    Throughout (Pruned (Needed w₀.dir w₀.manifest) w₀.dir) w₀ w := ⟨h.trace, h.dir⟩

/-- A commit that fails leaves the manifest in memory alone. -/
theorem applyAtomicUpdate_error {m : Manifest} {mutator : Manifest → Op Manifest}
    (h : ∀ c, KeepsManifest m (mutator c)) (attempts : Nat) :
    Prog.Spec (fun w => w.manifest = m) (applyAtomicUpdate env mutator attempts) (fun _ _ => True)
      fun _ w => w.manifest = m := by
  induction attempts with
  | zero => exact Prog.Spec.fail fun _ h => h
  | succ attempts ih =>
      refine Prog.Spec.bind (KeepsManifest.read _) fun guard => Prog.Spec.bind (h guard) fun c => ?_
      refine Prog.Spec.bind (KeepsManifest.writeToPath env _ _) fun _ => ?_
      refine Prog.Spec.bind (KeepsManifest.read _) fun guard' =>
        Prog.Spec.ite (fun _ => ?_) fun _ => ?_
      · exact Prog.Spec.bind (KeepsManifest.removeFile _).attempt fun _ => ih
      · refine Prog.Spec.bind (KeepsManifest.renameFile _ _).attempt fun res => ?_
        cases res with
        | error e =>
            exact Prog.Spec.bind (KeepsManifest.removeFile _).attempt fun _ =>
              Prog.Spec.fail fun _ h => h
        | ok =>
            exact Prog.Spec.bind (Q := fun _ _ => True) (Prog.Spec.modify fun _ _ => trivial)
              fun _ => Prog.Spec.pure fun _ _ => trivial

/-- From `w₁` the manifest that `f` makes was committed, the version that `g` makes installed, and
the garbage collected. -/
def Published (env : Env) (f : Manifest → Except DbError Manifest) (g : Version → Version)
    (w₁ w : World) : Prop :=
  ∃ c w₂, f w₁.manifest = .ok c ∧ Committed env w₁ c w₂ ∧
    Swept { w₂ with current := g w₂.current } w

/-- The last part of a flush and of a compaction. -/
theorem publish_spec {f : Manifest → Except DbError Manifest} (hf : KeepsCounters f)
    (g : Version → Version) :
    Prog.Spec (· = w₀)
      (applyAtomicUpdate env (fun m => Prog.ofExcept (f m)) 3 >>= fun _ =>
        (Prog.modify fun w => { w with current := g w.current }) >>= fun _ => collectGarbage env)
      (fun _ w => Published env f g w₀ w)
      (fun _ w => Steady (fun n => ∀ v, n ≠ .mfTmp v) w₀ w ∧
        (w₀.faults = [] → ∀ c, f w₀.manifest ≠ .ok c)) := by
  have hmanifest : Prog.Spec (· = w₀) (applyAtomicUpdate env (fun m => Prog.ofExcept (f m)) 3)
      (fun _ _ => True) fun _ w => w.manifest = w₀.manifest :=
    (applyAtomicUpdate_error (fun _ => KeepsManifest.ofExcept _) 3).weaken
      (fun _ hw => by rw [hw]) (fun _ _ h => h) fun _ _ h => h
  refine Prog.Spec.bind_forall (((commit_spec hf (by simp)).and hmanifest).weaken (fun _ h => h)
    (fun _ _ h => h.1) fun _ _ h => ⟨⟨h.1.1, h.2⟩, h.1.2⟩) fun m w₂ hcommit => ?_
  obtain ⟨_, c, hc, hcommitted⟩ := hcommit
  refine Prog.Spec.bind_forall (Q := fun _ w => w = { w₂ with current := g w₂.current })
    (Prog.Spec.modify fun w hw => by rw [hw]) fun _ w₃ hw₃ => ?_
  subst hw₃
  exact (collectGarbage_swept).weaken (fun _ h => h)
    (fun _ w hswept => ⟨c, w₂, hc, hcommitted, hswept⟩)
    fun _ _ h => h

namespace Published

variable {f : Manifest → Except DbError Manifest} {g : Version → Version}

theorem current (h : Published env f g w₁ w) : w.current = g w₁.current := by
  obtain ⟨c, w₂, _, hcommitted, hswept⟩ := h
  rw [hswept.current, ← hcommitted.current]

theorem nextLsn (h : Published env f g w₁ w) : w.nextLsn = w₁.nextLsn := by
  obtain ⟨c, w₂, _, hcommitted, hswept⟩ := h
  exact hswept.nextLsn.trans hcommitted.nextLsn

theorem faults (h : Published env f g w₁ w) (hnil : w₁.faults = []) : w.faults = [] := by
  obtain ⟨c, w₂, _, hcommitted, hswept⟩ := h
  exact hswept.faults (hcommitted.faults hnil)

theorem manifest (h : Published env f g w₁ w) :
    ∃ c, f w₁.manifest = .ok c ∧ w.manifest = { c with version := c.version + 1 } := by
  obtain ⟨c, w₂, hc, hcommitted, hswept⟩ := h
  exact ⟨c, hc, hswept.manifest.trans hcommitted.manifest⟩

/-- The files that the new manifest lists are those of before. -/
theorem agree (h : Published env f g w₁ w) : Agree (Listed w.manifest) w₁.dir w.dir := by
  obtain ⟨c, w₂, _, hcommitted, hswept⟩ := h
  obtain ⟨w₃, hquiet, _, hrename, _⟩ := hcommitted.rename
  have hother : ∀ {n}, Listed w.manifest n → ∀ v, n ≠ .mfTmp v ∧ n ≠ .mf v := by
    rintro n (⟨id, _, rfl⟩ | ⟨id, _, rfl⟩) v <;> simp
  refine ((hquiet.dir.mono fun n hn => (hother hn _).1).trans (agree_rename ?_ ?_ hrename)).trans
    (hswept.dir.agree.mono fun n hn => ?_)
  · exact fun hn => (hother hn _).1 rfl
  · exact fun hn => (hother hn _).2 rfl
  · rw [hswept.manifest] at hn
    exact .inr hn

end Published

end EasyLsm.Db
