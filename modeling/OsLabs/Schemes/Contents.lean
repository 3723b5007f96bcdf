import Mathlib.Data.List.GetD
import OsLabs.Schemes.Bytes
import OsLabs.Schemes.Loop

/-! scheme:bytes | what a memory holds from an address on

    `Holds m p l`: the bytes of `l` stand in `m` from `p` on. A scan over held bytes stops where the
    list says; storing a list makes the buffer hold it, and changes nothing else. C strings that
    were written one after the other (`Strings`) stay while what follows them is written.

        o          o'          o''        top
        a b c 0    d e 0       f 0        ..                                  -/

namespace Schemes

/-- The bytes of the list stand in memory from `p` on. -/
def Mem.Holds (m : Mem) (p : ℕ) : List UInt8 → Prop
  | [] => True
  | c :: l => m p = c ∧ Mem.Holds m (p + 1) l

section holds
variable {m m' : Mem}

theorem holds_append {l l' : List UInt8} {p : ℕ} :
    m.Holds p (l ++ l') ↔ m.Holds p l ∧ m.Holds (p + l.length) l' := by
  induction l generalizing p with
  | nil => exact (iff_of_eq (true_and _)).symm
  | cons c l ih =>
    rw [List.cons_append, Mem.Holds, Mem.Holds, ih, and_assoc, List.length_cons, Nat.add_assoc,
      Nat.add_comm 1]

/-- Bytes elsewhere do not matter. -/
theorem Mem.Holds.congr {l : List UInt8} {p : ℕ} (h : m.Holds p l)
    (heq : ∀ i, p ≤ i → i < p + l.length → m' i = m i) : m'.Holds p l := by
  induction l generalizing p with
  | nil => trivial
  | cons c l ih =>
    rw [List.length_cons] at heq
    refine ⟨(heq p le_rfl (by omega)).trans h.1, ih h.2 fun i hi hlt => ?_⟩
    exact heq i (by omega) (by omega)

/-- Reading the held bytes. -/
theorem Mem.Holds.range' {l : List UInt8} {p : ℕ} (h : m.Holds p l) :
    (List.range' p l.length).map m = l := by
  induction l generalizing p with
  | nil => rfl
  | cons c l ih => rw [List.length_cons, List.range'_succ, List.map_cons, h.1, ih h.2]

/-- A scan over held bytes passes what satisfies `q` and stops at the first byte that does not. -/
theorem scan_holds {q : UInt8 → Bool} {w r : List UInt8} {c : UInt8} {p n : ℕ}
    (h : m.Holds p (w ++ c :: r)) (hw : ∀ d ∈ w, q d = true) (hc : q c = false)
    (hn : w.length < n) : scan (fun i => q (m i)) n p = p + w.length := by
  induction w generalizing p n with
  | nil =>
    obtain ⟨n, rfl⟩ := Nat.exists_eq_add_one.mpr hn
    rw [scan, h.1, hc]
    rfl
  | cons d w ih =>
    obtain ⟨n, rfl⟩ := Nat.exists_eq_add_one.mpr (Nat.zero_lt_of_lt hn)
    rw [List.length_cons] at hn ⊢
    rw [scan, h.1, hw d (List.mem_cons_self ..), if_pos rfl,
      ih h.2 (fun e he => hw e (List.mem_cons_of_mem _ he)) (by omega)]
    omega

end holds

namespace Mem

/-- The C string at `p`: the bytes up to a NUL, at most `k` of them. -/
def string (m : Mem) : ℕ → ℕ → List UInt8
  | 0, _ => []
  | k + 1, p => if m p = 0 then [] else m p :: string m k (p + 1)

theorem string_holds {m : Mem} {l : List UInt8} {p k : ℕ} (h : m.Holds p (l ++ [0])) (h0 : 0 ∉ l)
    (hk : l.length < k) : m.string k p = l := by
  induction l generalizing p k with
  | nil =>
    obtain ⟨k, rfl⟩ := Nat.exists_eq_add_one.mpr hk
    rw [string, if_pos h.1]
  | cons c l ih =>
    obtain ⟨k, rfl⟩ := Nat.exists_eq_add_one.mpr (Nat.zero_lt_of_lt hk)
    rw [List.mem_cons, not_or] at h0
    rw [List.length_cons] at hk
    rw [string, h.1, if_neg (Ne.symm h0.1), ih h.2 h0.2 (by omega)]

section string
variable {m m' : Mem} {k p i : ℕ}

/-- The string of some bytes and a NUL goes up to the first NUL. -/
theorem string_takeWhile {l : List UInt8} (h : m.Holds p (l ++ [0])) (hk : l.length < k) :
    m.string k p = l.takeWhile (· ≠ 0) := by
  induction l generalizing p k with
  | nil =>
    obtain ⟨k, rfl⟩ := Nat.exists_eq_add_one.mpr hk
    rw [string, if_pos h.1]
    rfl
  | cons c l ih =>
    obtain ⟨k, rfl⟩ := Nat.exists_eq_add_one.mpr (Nat.zero_lt_of_lt hk)
    rw [string, h.1]
    by_cases hc : c = 0
    · simp [hc]
    · rw [if_neg hc, ih h.2 (Nat.lt_of_succ_lt_succ hk), List.takeWhile_cons_of_pos (by simpa)]

/-- A string ends at the first NUL. -/
theorem length_string_le (h : m (p + i) = 0) : (m.string k p).length ≤ i := by
  induction k generalizing p i with
  | zero => exact Nat.zero_le _
  | succ k ih =>
    rw [string]
    by_cases hp : m p = 0
    · rw [if_pos hp]
      exact Nat.zero_le _
    · cases i with
      | zero => exact absurd h hp
      | succ i =>
        rw [if_neg hp, List.length_cons]
        exact Nat.succ_le_succ (ih (by rwa [Nat.add_assoc, Nat.add_comm 1]))

/-- Where a string ends there is a NUL. -/
theorem string_nul (h : (m.string k p).length < k) : m (p + (m.string k p).length) = 0 := by
  induction k generalizing p with
  | zero => exact absurd h (Nat.not_lt_zero _)
  | succ k ih =>
    rw [string] at h ⊢
    by_cases hp : m p = 0
    · rwa [if_pos hp]
    · rw [if_neg hp, List.length_cons] at h ⊢
      rw [← Nat.add_assoc, Nat.add_right_comm]
      exact ih (Nat.lt_of_succ_lt_succ h)

/-- A string depends on its bytes and its NUL. -/
theorem string_congr (h : ∀ j ≤ (m.string k p).length, m' (p + j) = m (p + j)) :
    m'.string k p = m.string k p := by
  induction k generalizing p with
  | zero => rfl
  | succ k ih =>
    have hp : m' p = m p := h 0 (Nat.zero_le _)
    rw [string] at h
    rw [string, string, hp]
    by_cases h0 : m p = 0
    · rw [if_pos h0, if_pos h0]
    · rw [if_neg h0, List.length_cons] at h
      rw [if_neg h0, if_neg h0, ih]
      intro j hj
      rw [Nat.add_assoc, Nat.add_comm 1]
      exact h (j + 1) (Nat.succ_le_succ hj)

end string

/-- Contents given byte by byte. -/
theorem holds_of_getD {m : Mem} {l : List UInt8} {p : ℕ}
    (h : ∀ i < l.length, m (p + i) = l.getD i 0) : m.Holds p l := by
  induction l generalizing p with
  | nil => trivial
  | cons c l ih =>
    rw [List.length_cons] at h
    refine ⟨h 0 (by omega), ih fun i hi => ?_⟩
    rw [Nat.add_assoc, Nat.add_comm 1, h (i + 1) (by omega), List.getD_cons_succ]

end Mem

namespace Buf
variable {n : ℕ} {b : Buf n} {l l' : List UInt8} {off : ℕ}

/-- The buffer with the bytes of a list stored from `off` on. -/
def store (b : Buf n) (off : ℕ) (l : List UInt8) : Buf n := b.copy off l.length fun i => l.getD i 0

/-- The C string at `p`, to the end of the buffer at most. -/
def string (b : Buf n) (p : ℕ) : List UInt8 := b.byte.string (n - p) p

theorem store_out {i : ℕ} (h : i < off ∨ off + l.length ≤ i) : (b.store off l).byte i = b.byte i :=
  copy_byte_out h

theorem store_in {i : ℕ} (hn : off + i < n) (h : i < l.length) :
    (b.store off l).byte (off + i) = l.getD i 0 :=
  (copy_byte b off l.length _ hn).trans (Mem.copy_in h)

theorem store_nil : b.store off [] = b := by
  ext1; funext i
  exact store_out (by rw [List.length_nil]; omega)

theorem store_holds (h : off + l.length ≤ n) : (b.store off l).byte.Holds off l :=
  Mem.holds_of_getD fun _ hi => store_in (by omega) hi

/-- Storing one list after the other is storing both. -/
theorem store_append : (b.store off l).store (off + l.length) l' = b.store off (l ++ l') := by
  ext1; funext i
  rcases lt_or_ge i n with hn | hn
  · rcases lt_or_ge i off with hlo | hlo
    · rw [store_out (by omega), store_out (by omega), store_out (by omega)]
    · obtain ⟨k, rfl⟩ := Nat.exists_eq_add_of_le hlo
      rcases lt_or_ge k l.length with hk | hk
      · rw [store_out (by omega), store_in hn hk,
          store_in hn (by rw [List.length_append]; omega), List.getD_append _ _ _ _ hk]
      · obtain ⟨j, rfl⟩ := Nat.exists_eq_add_of_le hk
        rw [← Nat.add_assoc] at hn ⊢
        rcases lt_or_ge j l'.length with hj | hj
        · rw [store_in hn hj, Nat.add_assoc,
            store_in (by omega) (by rw [List.length_append]; omega),
            List.getD_append_right _ _ _ _ hk, Nat.add_sub_cancel_left]
        · rw [store_out (by omega), store_out (by omega),
            store_out (by rw [List.length_append]; omega)]
  · rw [(Buf.store _ _ _).out i hn, (Buf.store _ _ _).out i hn]

end Buf

/-! ### Strings one after the other -/

/-- The strings at `os` end with a NUL below `top`, each before the next one starts. -/
structure Strings {n : ℕ} (b : Buf n) (top : ℕ) (os : List ℕ) : Prop where
  nul : ∀ o ∈ os, b.byte (o + (b.string o).length) = 0 ∧ o + (b.string o).length < top
  apart : os.Pairwise fun o o' => o + (b.string o).length < o'

namespace Strings
variable {n top top' e : ℕ} {b b' : Buf n} {os os' : List ℕ}

theorem nil : Strings b top [] := ⟨List.forall_mem_nil _, .nil⟩

theorem sublist (h : Strings b top os) (hs : os'.Sublist os) : Strings b top os' :=
  ⟨fun o ho => h.nul o (hs.subset ho), h.apart.sublist hs⟩

/-- Stores at `top` and above do not touch them. -/
theorem keep (h : Strings b top os) (hb : ∀ i < top, b'.byte i = b.byte i) (htop : top ≤ top') :
    Strings b' top' os := by
  have hstr : ∀ o ∈ os, b'.string o = b.string o := by
    intro o ho
    have hend := (h.nul o ho).2
    rw [Buf.string] at hend
    exact Mem.string_congr fun j hj => hb (o + j) (by omega)
  refine ⟨fun o ho => ?_, h.apart.imp_of_mem fun {o o'} ho _ hlt => ?_⟩
  · obtain ⟨h0, hlt⟩ := h.nul o ho
    rw [hstr o ho, hb _ hlt]
    exact ⟨h0, Nat.lt_of_lt_of_le hlt htop⟩
  · rwa [hstr o ho]

/-- Another string from `top` on, with its NUL at `e`. -/
theorem snoc (h : Strings b top os) (he : top ≤ e) (hn : e < n) (h0 : b.byte e = 0) :
    Strings b (e + 1) (os ++ [top]) := by
  obtain ⟨i, rfl⟩ := Nat.exists_eq_add_of_le he
  have hle : (b.string top).length ≤ i := Mem.length_string_le h0
  have hold := h.keep (fun _ _ => rfl) (Nat.le_succ_of_le he)
  refine ⟨?_, List.pairwise_append.mpr ⟨h.apart, List.pairwise_singleton .., ?_⟩⟩
  · intro o ho
    rcases List.mem_append.mp ho with ho | ho
    · exact hold.nul o ho
    · obtain rfl := List.mem_singleton.mp ho
      refine ⟨Mem.string_nul ?_, by omega⟩
      rw [Buf.string] at hle
      omega
  · intro o ho o' ho'
    obtain rfl := List.mem_singleton.mp ho'
    exact (h.nul o ho).2

end Strings

end Schemes
