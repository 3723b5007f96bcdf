import Mathlib.Tactic.Ring
import Mathlib.Tactic.Linarith

/-! scheme:bytes | C buffers and the numbers stored in them

    A memory gives a byte at every address; a buffer of `n` bytes is a memory that is zero from `n`
    on, so that two buffers with the same `n` bytes are equal. `copy` is `memcpy`, `getLE` / `putLE`
    read and write a little-endian number of `w` bytes. Everything a field access needs is the
    get-put pair: a number just written reads back modulo `256 ^ w`, and a write leaves every
    field it does not overlap as it was. -/

namespace Schemes

/-- A memory: a byte at every address. -/
abbrev Mem := ℕ → UInt8

namespace Mem

/-- `memcpy`: the first `k` bytes of `src`, stored from `off` on. -/
def copy (m : Mem) (off k : ℕ) (src : Mem) : Mem :=
  fun i => if off ≤ i ∧ i < off + k then src (i - off) else m i

/-- The little-endian number in the `w` bytes from `off` on. -/
def getLE (m : Mem) (off : ℕ) : ℕ → ℕ
  | 0 => 0
  | w + 1 => (m off).toNat + 256 * getLE m (off + 1) w

/-- The bytes of `v`, least significant first. -/
def leBytes (v : ℕ) : Mem := fun k => UInt8.ofNat (v / 256 ^ k)

/-- Store `v` as a little-endian number of `w` bytes at `off`. -/
def putLE (m : Mem) (off w v : ℕ) : Mem := m.copy off w (leBytes v)

theorem copy_in {m src : Mem} {off k i : ℕ} (h : i < k) : m.copy off k src (off + i) = src i := by
  simp [copy, h]

theorem copy_out {m src : Mem} {off k i : ℕ} (h : i < off ∨ off + k ≤ i) :
    m.copy off k src i = m i := by
  rw [copy, if_neg (by omega)]

/-- A number depends on its own bytes only. -/
theorem getLE_congr {m m' : Mem} : ∀ {w off : ℕ}, (∀ i, off ≤ i → i < off + w → m i = m' i) →
    m.getLE off w = m'.getLE off w
  | 0, _, _ => rfl
  | w + 1, off, h => by
      rw [getLE, getLE, h off (le_refl _) (by omega),
        getLE_congr (fun i hi hi' => h i (by omega) (by omega))]

/-- `w` bytes that are the bytes of `v` read as `v` modulo `256 ^ w`. -/
theorem getLE_of_leBytes {m : Mem} : ∀ {w off v : ℕ}, (∀ k < w, m (off + k) = leBytes v k) →
    m.getLE off w = v % 256 ^ w
  | 0, _, v, _ => by rw [getLE, pow_zero, Nat.mod_one]
  | w + 1, off, v, h => by
      have hhead : (m off).toNat = v % 256 := by
        have h0 := h 0 (by omega)
        rw [leBytes, pow_zero, Nat.div_one, Nat.add_zero] at h0
        rw [h0]; rfl
      have htail : m.getLE (off + 1) w = v / 256 % 256 ^ w := by
        refine getLE_of_leBytes (fun k hk => ?_)
        have hk' := h (k + 1) (by omega)
        rw [Nat.add_assoc, Nat.add_comm 1, hk', leBytes, leBytes, Nat.div_div_eq_div_mul, pow_succ']
      rw [getLE, hhead, htail, pow_succ', Nat.mod_mul]

theorem getLE_putLE (m : Mem) (off w v : ℕ) : (m.putLE off w v).getLE off w = v % 256 ^ w :=
  getLE_of_leBytes (fun _ hk => copy_in hk)

theorem getLE_copy_out {m src : Mem} {off k off' w : ℕ} (h : off' + w ≤ off ∨ off + k ≤ off') :
    (m.copy off k src).getLE off' w = m.getLE off' w :=
  getLE_congr (fun i hi hi' => copy_out (by omega))

theorem getLE_lt (m : Mem) : ∀ (w off : ℕ), m.getLE off w < 256 ^ w
  | 0, _ => by simp [getLE]
  | w + 1, off => by
      have hb : (m off).toNat < 256 := UInt8.toNat_lt _
      have ht := getLE_lt m w (off + 1)
      rw [getLE, pow_succ']; omega

end Mem

/-- A buffer of `n` bytes. -/
@[ext] structure Buf (n : ℕ) where
  byte : Mem
  out : ∀ i, n ≤ i → byte i = 0

namespace Buf
variable {n : ℕ}

/-- The buffer `bzero` leaves. -/
def zero (n : ℕ) : Buf n := ⟨fun _ => 0, fun _ _ => rfl⟩

/-- Two buffers are equal when their `n` bytes are. -/
theorem ext_lt {b c : Buf n} (h : ∀ i < n, b.byte i = c.byte i) : b = c := by
  ext1; funext i
  rcases lt_or_ge i n with hi | hi
  · exact h i hi
  · rw [b.out i hi, c.out i hi]

instance : DecidableEq (Buf n) := fun b c =>
  decidable_of_iff (∀ i < n, b.byte i = c.byte i) ⟨ext_lt, fun h _ _ => by rw [h]⟩

/-- The first `n` bytes of a memory. -/
def ofMem (n : ℕ) (m : Mem) : Buf n := ⟨fun i => if i < n then m i else 0, fun i hi => by
  rw [if_neg (by omega)]⟩

/-- `memcpy` into the buffer; what falls outside is dropped. -/
def copy (b : Buf n) (off k : ℕ) (src : Mem) : Buf n := ofMem n (b.byte.copy off k src)

/-- The field of `k` bytes at `off`. -/
def slice (b : Buf n) (off k : ℕ) : Buf k := ofMem k (fun j => b.byte (off + j))

/-- The little-endian number in the `w` bytes from `off` on. -/
def getLE (b : Buf n) (off w : ℕ) : ℕ := b.byte.getLE off w

/-- Store `v` as a little-endian number of `w` bytes at `off`. -/
def putLE (b : Buf n) (off w v : ℕ) : Buf n := b.copy off w (Mem.leBytes v)

theorem copy_byte (b : Buf n) (off k : ℕ) (src : Mem) {i : ℕ} (hi : i < n) :
    (b.copy off k src).byte i = b.byte.copy off k src i := if_pos hi

theorem copy_byte_out {b : Buf n} {off k i : ℕ} {src : Mem} (h : i < off ∨ off + k ≤ i) :
    (b.copy off k src).byte i = b.byte i := by
  rcases lt_or_ge i n with hi | hi
  · rw [copy_byte b off k src hi, Mem.copy_out h]
  · rw [(b.copy off k src).out i hi, b.out i hi]

@[simp] theorem copy_zero (b : Buf n) (off : ℕ) (src : Mem) : b.copy off 0 src = b :=
  ext_lt fun i _ => copy_byte_out (by omega)

theorem getLE_putLE {b : Buf n} {off w v : ℕ} (h : off + w ≤ n) :
    (b.putLE off w v).getLE off w = v % 256 ^ w := by
  refine Mem.getLE_of_leBytes (fun k hk => ?_)
  rw [putLE, copy_byte b off w _ (by omega), Mem.copy_in hk]

theorem getLE_copy_out {b : Buf n} {off k off' w : ℕ} {src : Mem}
    (h : off' + w ≤ off ∨ off + k ≤ off') : (b.copy off k src).getLE off' w = b.getLE off' w :=
  Mem.getLE_congr (fun i hi hi' => copy_byte_out (by omega))

theorem getLE_putLE_out {b : Buf n} {off w off' w' v : ℕ} (h : off' + w' ≤ off ∨ off + w ≤ off') :
    (b.putLE off w v).getLE off' w' = b.getLE off' w' := getLE_copy_out h

theorem slice_copy {b : Buf n} {off k : ℕ} {src : Mem} (h : off + k ≤ n) :
    (b.copy off k src).slice off k = ofMem k src := by
  ext1; funext j
  rcases lt_or_ge j k with hj | hj
  · simp only [slice, ofMem, if_pos hj]
    rw [copy_byte b off k src (by omega), Mem.copy_in hj]
  · rw [(slice _ off k).out j hj, (ofMem k src).out j hj]

theorem slice_copy_out {b : Buf n} {off k off' k' : ℕ} {src : Mem}
    (h : off' + k' ≤ off ∨ off + k ≤ off') :
    (b.copy off k src).slice off' k' = b.slice off' k' := by
  ext1; funext j
  rcases lt_or_ge j k' with hj | hj
  · simp only [slice, ofMem, if_pos hj]
    exact copy_byte_out (by omega)
  · rw [(slice _ off' k').out j hj, (slice b off' k').out j hj]

theorem slice_putLE_out {b : Buf n} {off w v off' k' : ℕ} (h : off' + k' ≤ off ∨ off + w ≤ off') :
    (b.putLE off w v).slice off' k' = b.slice off' k' := slice_copy_out h

end Buf

end Schemes
