import Mathlib.Data.List.Infix
import EasyLsm.Lib.Journal

/-!
# Numbers above what is recorded elsewhere

Records with increasing sequence numbers are appended to a log, and the last ones of them may not be
durable yet. `Above durable records top next` says that a recovery that continues behind the last
durable record continues above `top`, up to which everything goes that is recorded elsewhere. It
does not matter how many more of the records turn out to be durable.
-/

namespace EasyLsm.Lib

open Versions

variable {E κ : Type} [Versioned E κ] {durable durable' records records' : List E} {top next : Nat}

/-- The numbers of the records increase, and those of the last durable record and of all that follow
it are not below `top`. -/
structure Above (durable records : List E) (top next : Nat) : Prop where
  begins : durable <+: records
  increasing : records.Pairwise fun a b => Versioned.seq a < Versioned.seq b
  bounds : ∀ e ∈ records, 0 < Versioned.seq e ∧ Versioned.seq e < next
  above : ∀ e ∈ records.drop (durable.length - 1), top ≤ Versioned.seq e
  top_lt : top < next

namespace Above

/-- A log without records. -/
theorem fresh (h : top < next) : Above ([] : List E) [] top next :=
  ⟨List.prefix_refl _, .nil, by simp, by simp, h⟩

/-- A record gets the next number. -/
theorem accept (h : Above durable records top next) {e : E} (he : Versioned.seq e = next) :
    Above durable (records ++ [e]) top (next + 1) := by
  have hless := h.top_lt
  refine ⟨h.begins.trans (List.prefix_append _ _), ?_, fun x hx => ?_, fun x hx => ?_,
    Nat.lt_succ_of_lt hless⟩
  · refine List.pairwise_append.mpr ⟨h.increasing, List.pairwise_singleton _ _, fun a ha b hb => ?_⟩
    rw [List.mem_singleton.mp hb, he]
    exact (h.bounds a ha).2
  · rcases List.mem_append.mp hx with hx | hx
    · exact (h.bounds x hx).imp_right Nat.lt_succ_of_lt
    · rw [List.mem_singleton.mp hx]
      omega
  · have hlength : durable.length - 1 ≤ records.length :=
      Nat.le_trans (Nat.sub_le _ _) h.begins.length_le
    rw [List.drop_append_of_le_length hlength] at hx
    rcases List.mem_append.mp hx with hx | hx
    · exact h.above x hx
    · rw [List.mem_singleton.mp hx]
      omega

/-- More of the records are durable. -/
theorem advance (h : Above durable records top next) (hmore : durable <+: durable')
    (hrecords : durable' <+: records) : Above durable' records top next where
  begins := hrecords
  increasing := h.increasing
  bounds := h.bounds
  above e he := by
    have hle : durable.length - 1 ≤ durable'.length - 1 := Nat.sub_le_sub_right hmore.length_le 1
    rw [← Nat.add_sub_cancel' hle, ← List.drop_drop] at he
    exact h.above e (List.mem_of_mem_drop he)
  top_lt := h.top_lt

/-- The last records are lost. -/
theorem keep (h : Above durable records top next) (hdurable : durable <+: records')
    (hfewer : records' <+: records) : Above durable records' top next where
  begins := hdurable
  increasing := h.increasing.sublist hfewer.sublist
  bounds e he := h.bounds e (hfewer.subset he)
  above e he := h.above e ((List.IsPrefix.drop hfewer _).subset he)
  top_lt := h.top_lt

/-- When the last record is durable, its number may be used elsewhere. -/
theorem settle {e : E} (h : Above (records ++ [e]) (records ++ [e]) top next) :
    Above (records ++ [e]) (records ++ [e]) (Versioned.seq e) next where
  begins := h.begins
  increasing := h.increasing
  bounds := h.bounds
  above x hx := by
    rw [List.length_append, List.length_singleton, Nat.add_sub_cancel, List.drop_left] at hx
    rw [List.mem_singleton.mp hx]
  top_lt := (h.bounds e (List.mem_append_right _ (List.mem_singleton_self _))).2

/-- What a recovery finds, when there is a durable record. -/
theorem recovered (h : Above durable records top next) (hne : durable ≠ []) :
    top ≤ Journal.lastSeq durable ∧ (∀ e ∈ durable, Versioned.seq e ≤ Journal.lastSeq durable) ∧
      Above durable durable (Journal.lastSeq durable) (Journal.lastSeq durable + 1) := by
  obtain ⟨before, last, rfl⟩ : ∃ before last, durable = before ++ [last] :=
    ⟨_, _, (List.dropLast_append_getLast hne).symm⟩
  have hseq : Journal.lastSeq (before ++ [last]) = Versioned.seq last := by
    rw [Journal.lastSeq, List.getLast?_concat]
    rfl
  have hself : Above (before ++ [last]) (before ++ [last]) top next :=
    h.keep (List.prefix_refl _) h.begins
  have hlast : ∀ e ∈ before ++ [last], Versioned.seq e ≤ Versioned.seq last := by
    intro e he
    rcases List.mem_append.mp he with he | he
    · exact Nat.le_of_lt ((List.pairwise_append.mp hself.increasing).2.2 e he last
        (List.mem_singleton_self _))
    · rw [List.mem_singleton.mp he]
  have hsettled := hself.settle
  rw [hseq]
  refine ⟨hself.above last ?_, hlast, hself.begins, hself.increasing, fun e he => ?_,
    hsettled.above, Nat.lt_succ_self _⟩
  · rw [List.length_append, List.length_singleton, Nat.add_sub_cancel, List.drop_left]
    exact List.mem_singleton_self _
  · exact ⟨(hself.bounds e he).1, Nat.lt_succ_of_le (hlast e he)⟩

end Above

end EasyLsm.Lib
