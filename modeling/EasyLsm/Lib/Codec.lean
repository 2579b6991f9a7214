import Mathlib.Data.List.Basic
import Mathlib.Data.List.Infix
import Mathlib.Tactic.Ring

/-!
# Byte codecs

Little-endian integers and a small theory of prefix-detecting readers. A reader consumes a
prefix of its input or fails. `Decodes eof dec bs a` says that `dec` reads `a` back from `bs`
whatever follows, and that it fails with `eof` on every proper prefix of `bs`. The relation is
closed under sequencing (`Decodes.bind`) and under counted repetition (`Decodes.replicate`), so
a composite format inherits both facts from its fields.
-/

namespace EasyLsm.Lib

/-- A byte string. -/
abbrev Bytes := List UInt8

/-! ## Little-endian integers -/

/-- The `k` low bytes of `n`, least significant first. Higher bytes are dropped. -/
def leBytes : Nat → Nat → Bytes
  | 0, _ => []
  | k + 1, n => UInt8.ofNat n :: leBytes k (n / 256)

/-- The number whose little-endian bytes are given. -/
def leNat : Bytes → Nat
  | [] => 0
  | b :: bs => b.toNat + 256 * leNat bs

@[simp] theorem length_leBytes (k n : Nat) : (leBytes k n).length = k := by
  induction k generalizing n with
  | zero => rfl
  | succ k ih => simp [leBytes, ih]

/-- Reading back `k` little-endian bytes keeps the number modulo `256 ^ k`. -/
theorem leNat_leBytes (k n : Nat) : leNat (leBytes k n) = n % 256 ^ k := by
  induction k generalizing n with
  | zero => simp [leBytes, leNat, Nat.mod_one]
  | succ k ih =>
      have hbyte : (UInt8.ofNat n).toNat = n % 256 := by simp
      rw [leBytes, leNat, ih, hbyte, pow_succ', Nat.mod_mul]

/-- A number that fits `k` bytes survives the little-endian round trip. -/
theorem leNat_leBytes_of_lt {k n : Nat} (h : n < 256 ^ k) : leNat (leBytes k n) = n := by
  rw [leNat_leBytes, Nat.mod_eq_of_lt h]

/-! ## Readers -/

section Reader

variable {ε α β : Type}

/-- Sequencing after a success. -/
@[simp] theorem ok_bind (a : α) (f : α → Except ε β) : (Except.ok a >>= f) = f a := rfl

/-- Sequencing after a failure. -/
@[simp] theorem error_bind (e : ε) (f : α → Except ε β) :
    (Except.error e >>= f) = Except.error e := rfl

/-- A reader consumes a prefix of its input, or fails. -/
abbrev Reader (ε α : Type) := Bytes → Except ε (α × Bytes)

/-- Read exactly `n` bytes, failing with `eof` when fewer are left. -/
def readExact (eof : ε) (n : Nat) : Reader ε Bytes := fun r =>
  if n ≤ r.length then .ok (r.take n, r.drop n) else .error eof

/-- Run a reader `n` times and collect the results. -/
def replicateR (dec : Reader ε α) : Nat → Reader ε (List α)
  | 0, r => .ok ([], r)
  | n + 1, r => do
      let (a, r) ← dec r
      let (as, r) ← replicateR dec n r
      return (a :: as, r)

/-- Run a reader until its input is used up. The fuel bounds the number of items; the length of the
input is enough for a reader that always consumes something. -/
def decodeAll (dec : Reader ε α) : Nat → Bytes → Except ε (List α)
  | _, [] => .ok []
  | 0, _ :: _ => .ok []
  | fuel + 1, b :: r => do
      let (a, r) ← dec (b :: r)
      let as ← decodeAll dec fuel r
      return a :: as

/-- `dec` reads `bs` back as `a` whatever follows, and runs out of input with `eof` on every
proper prefix of `bs`. -/
structure Decodes (eof : ε) (dec : Reader ε α) (bs : Bytes) (a : α) : Prop where
  reads : ∀ rest, dec (bs ++ rest) = .ok (a, rest)
  starves : ∀ p, p <+: bs → p ≠ bs → dec p = .error eof

variable {eof : ε}

/-- A prefix of `a ++ b` is a proper prefix of `a`, or `a` followed by a prefix of `b`. -/
theorem prefix_append_cases {α : Type} {p a b : List α} (h : p <+: a ++ b) :
    (p <+: a ∧ p ≠ a) ∨ ∃ q, q <+: b ∧ p = a ++ q := by
  rcases List.prefix_or_prefix_of_prefix h (List.prefix_append a b) with hpa | ⟨q, rfl⟩
  · by_cases hne : p = a
    · exact .inr ⟨[], List.nil_prefix, by simp [hne]⟩
    · exact .inl ⟨hpa, hne⟩
  · exact .inr ⟨q, (List.prefix_append_right_inj a).mp h, rfl⟩

namespace Decodes

/-- A reader that consumes nothing decodes the empty string. -/
theorem pure (a : α) : Decodes eof (fun r => .ok (a, r)) [] a where
  reads _ := rfl
  starves _ hp hne := absurd (List.prefix_nil.mp hp) hne

/-- Sequencing two readers decodes the concatenation of their inputs. -/
theorem bind {d : Reader ε α} {k : α → Reader ε β} {bs bs' : Bytes} {a : α} {b : β}
    (h : Decodes eof d bs a) (hk : Decodes eof (k a) bs' b) :
    Decodes eof (fun r => d r >>= fun p => k p.1 p.2) (bs ++ bs') b where
  reads rest := by
    rw [List.append_assoc]
    simp only [h.reads, ok_bind]
    exact hk.reads rest
  starves p hp hne := by
    rcases prefix_append_cases hp with ⟨hpre, hproper⟩ | ⟨q, hq, rfl⟩
    · simp only [h.starves p hpre hproper, error_bind]
    · simp only [h.reads, ok_bind]
      exact hk.starves q hq (fun heq => hne (by rw [heq]))

/-- The last reader of a sequence, followed by a pure conversion of its result. -/
theorem map {d : Reader ε α} {bs : Bytes} {a : α} (h : Decodes eof d bs a) (f : α → β) :
    Decodes eof (fun r => d r >>= fun p => .ok (f p.1, p.2)) bs (f a) := by
  have hbind := h.bind (k := fun a r => .ok (f a, r)) (Decodes.pure (f a))
  rwa [List.append_nil] at hbind

/-- Reading a known number of bytes. -/
theorem readExact (bs : Bytes) : Decodes eof (readExact eof bs.length) bs bs where
  reads rest := by simp [Lib.readExact]
  starves p hp hne := by
    have hlt : p.length < bs.length :=
      lt_of_le_of_ne hp.length_le (fun heq => hne (hp.eq_of_length heq))
    simp [Lib.readExact, Nat.not_le.mpr hlt]

/-- A list of items decodes item by item. -/
theorem replicate {dec : Reader ε α} {enc : α → Bytes} (as : List α)
    (h : ∀ a ∈ as, Decodes eof dec (enc a) a) :
    Decodes eof (replicateR dec as.length) (as.flatMap enc) as := by
  induction as with
  | nil => exact Decodes.pure []
  | cons a as ih =>
      have hrest := ih (fun x hx => h x (by simp [hx]))
      exact (h a (by simp)).bind (k := fun a r => do
        let (as, r) ← replicateR dec as.length r
        return (a :: as, r)) (hrest.map (a :: ·))

/-- Items one after the other are decoded until the input is used up. -/
theorem all {dec : Reader ε α} {enc : α → Bytes} {as : List α} {fuel : Nat}
    (h : ∀ a ∈ as, Decodes eof dec (enc a) a) (hne : ∀ a ∈ as, enc a ≠ [])
    (hfuel : as.length ≤ fuel) : decodeAll dec fuel (as.flatMap enc) = .ok as := by
  induction as generalizing fuel with
  | nil => cases fuel <;> rfl
  | cons a as ih =>
      obtain ⟨b, r, henc⟩ := List.exists_cons_of_ne_nil (hne a List.mem_cons_self)
      obtain ⟨fuel, rfl⟩ : ∃ n, fuel = n + 1 := ⟨fuel - 1, by rw [List.length_cons] at hfuel; omega⟩
      have hhead := (h a List.mem_cons_self).reads (as.flatMap enc)
      have hrest := ih (fun x hx => h x (List.mem_cons_of_mem a hx))
        (fun x hx => hne x (List.mem_cons_of_mem a hx)) (Nat.le_of_succ_le_succ hfuel)
      rw [henc, List.cons_append] at hhead
      rw [List.flatMap_cons, henc, List.cons_append, decodeAll, hhead]
      simp only [ok_bind, hrest]
      rfl

/-- Non-empty items are at most as many as their bytes. -/
theorem length_le_flatMap {enc : α → Bytes} {as : List α} (hne : ∀ a ∈ as, enc a ≠ []) :
    as.length ≤ (as.flatMap enc).length := by
  induction as with
  | nil => exact Nat.le_refl _
  | cons a as ih =>
      have hpos := List.length_pos_iff.mpr (hne a List.mem_cons_self)
      have hrest := ih (fun x hx => hne x (List.mem_cons_of_mem a hx))
      rw [List.flatMap_cons, List.length_append, List.length_cons]
      omega

end Decodes

end Reader

end EasyLsm.Lib
