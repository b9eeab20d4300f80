import Mathlib.Data.List.TakeDrop
import Mathlib.Algebra.Group.Int.Even

/-!
# Fixed-width integers as bytes

An unsigned integer of `n` bytes, least significant byte first (`leBytes`) or most significant
byte first (`beBytes`), and the values such bytes spell. Bytes are `List UInt8`: lists are what
the proofs take apart.
-/

namespace FsXfs.Bytes

set_option autoImplicit false

/-- The low `n` bytes of `v`, least significant first. -/
def leBytes : ℕ → ℕ → List UInt8
  | 0, _ => []
  | n + 1, v => UInt8.ofNat (v % 256) :: leBytes n (v / 256)

/-- The number bytes spell, least significant first. -/
def leValue : List UInt8 → ℕ
  | [] => 0
  | b :: rest => b.toNat + 256 * leValue rest

def beBytes (n v : ℕ) : List UInt8 :=
  (leBytes n v).reverse

def beValue (bytes : List UInt8) : ℕ :=
  leValue bytes.reverse

/-! ## Encodings -/

@[simp] theorem leBytes_length (n v : ℕ) : (leBytes n v).length = n := by
  induction n generalizing v with
  | zero => rfl
  | succ n ih => simp [leBytes, ih]

@[simp] theorem beBytes_length (n v : ℕ) : (beBytes n v).length = n := by
  simp [beBytes]

theorem leValue_leBytes (n v : ℕ) : leValue (leBytes n v) = v % 256 ^ n := by
  induction n generalizing v with
  | zero => simp [leBytes, leValue, Nat.mod_one]
  | succ n ih =>
    have hstep : v % 256 ^ (n + 1) = v % 256 + 256 * (v / 256 % 256 ^ n) := by
      rw [Nat.pow_succ', Nat.mod_mul]
    simp [leBytes, leValue, ih, hstep]

theorem beValue_beBytes (n v : ℕ) : beValue (beBytes n v) = v % 256 ^ n := by
  rw [beValue, beBytes, List.reverse_reverse, leValue_leBytes]

theorem beValue_beBytes_of_lt {n v : ℕ} (h : v < 256 ^ n) : beValue (beBytes n v) = v := by
  rw [beValue_beBytes, Nat.mod_eq_of_lt h]

theorem leValue_leBytes_of_lt {n v : ℕ} (h : v < 256 ^ n) : leValue (leBytes n v) = v := by
  rw [leValue_leBytes, Nat.mod_eq_of_lt h]

/-! ## Ranges of a buffer -/

def slice (buf : List UInt8) (at_ n : ℕ) : List UInt8 :=
  (buf.drop at_).take n

def patch (buf : List UInt8) (at_ : ℕ) (new : List UInt8) : List UInt8 :=
  buf.take at_ ++ new ++ buf.drop (at_ + new.length)

variable {buf new : List UInt8} {at_ n : ℕ}

theorem slice_length (h : at_ + n ≤ buf.length) : (slice buf at_ n).length = n := by
  simp [slice]
  omega

theorem patch_length (h : at_ + new.length ≤ buf.length) :
    (patch buf at_ new).length = buf.length := by
  simp [patch]
  omega

theorem slice_append_right {front rest : List UInt8} (h : front.length ≤ at_) :
    slice (front ++ rest) at_ n = slice rest (at_ - front.length) n := by
  simp [slice, List.drop_append, List.drop_eq_nil_of_le h]

theorem slice_append_left {front rest : List UInt8} (h : at_ + n ≤ front.length) :
    slice (front ++ rest) at_ n = slice front at_ n := by
  rw [slice, List.drop_append_of_le_length (by omega), List.take_append_of_le_length (by simp; omega),
    slice]

theorem takeD_eq_append (h : buf.length ≤ n) :
    buf.takeD n 0 = buf ++ List.replicate (n - buf.length) 0 := by
  induction buf generalizing n with
  | nil => simp
  | cons b buf ih =>
    cases n with
    | zero => cases h
    | succ n =>
      rw [List.takeD_succ, List.head?_cons, List.tail_cons, ih (by simpa using h)]
      simp

theorem slice_all (h : buf.length = n) : slice buf 0 n = buf := by
  simp [slice, ← h]

theorem getElem?_slice (buf : List UInt8) (at_ n k : ℕ) :
    (slice buf at_ n)[k]? = if k < n then buf[at_ + k]? else none := by
  rw [slice, List.getElem?_take, List.getElem?_drop]

section

variable (h : at_ + new.length ≤ buf.length)

include h

theorem getElem?_patch (k : ℕ) : (patch buf at_ new)[k]? =
      if at_ ≤ k ∧ k < at_ + new.length then new[k - at_]? else buf[k]? := by
  have htake : (buf.take at_).length = at_ := by
    rw [List.length_take]
    omega
  rw [patch, List.append_assoc]
  by_cases hlow : k < at_
  · rw [if_neg (by omega), List.getElem?_append_left (by omega), List.getElem?_take, if_pos hlow]
  rw [List.getElem?_append_right (by omega), htake]
  by_cases hin : k < at_ + new.length
  · rw [if_pos ⟨by omega, hin⟩, List.getElem?_append_left (by omega)]
  · rw [if_neg (by omega), List.getElem?_append_right (by omega), List.getElem?_drop]
    congr 1
    omega

theorem getElem?_patch_of_outside {k : ℕ} (hk : k < at_ ∨ at_ + new.length ≤ k) :
    (patch buf at_ new)[k]? = buf[k]? := by
  rw [getElem?_patch h, if_neg (by omega)]

theorem getElem?_patch_of_inside {k : ℕ} (hlo : at_ ≤ k) (hhi : k < at_ + new.length) :
    (patch buf at_ new)[k]? = new[k - at_]? := by
  rw [getElem?_patch h, if_pos ⟨hlo, hhi⟩]

theorem slice_patch_of_outside {off n : ℕ} (hoff : off + n ≤ at_ ∨ at_ + new.length ≤ off) :
    slice (patch buf at_ new) off n = slice buf off n := by
  refine List.ext_getElem? fun k => ?_
  rw [getElem?_slice, getElem?_slice]
  by_cases hk : k < n
  · rw [if_pos hk, if_pos hk, getElem?_patch_of_outside h (by omega)]
  · rw [if_neg hk, if_neg hk]

theorem slice_patch_self : slice (patch buf at_ new) at_ new.length = new := by
  refine List.ext_getElem? fun k => ?_
  rw [getElem?_slice]
  by_cases hk : k < new.length
  · rw [if_pos hk, getElem?_patch_of_inside h (by omega) (by omega), Nat.add_sub_cancel_left]
  · rw [if_neg hk, List.getElem?_eq_none (by omega)]

end

theorem patch_comm {buf new new' : List UInt8} {at_ at' : ℕ} (h : at_ + new.length ≤ at')
    (h' : at' + new'.length ≤ buf.length) :
    patch (patch buf at_ new) at' new' = patch (patch buf at' new') at_ new := by
  have hfit : at_ + new.length ≤ buf.length := by omega
  refine List.ext_getElem? fun k => ?_
  rw [getElem?_patch (by rw [patch_length hfit]; exact h'), getElem?_patch hfit,
    getElem?_patch (by rw [patch_length h']; exact hfit), getElem?_patch h']
  by_cases hk : at' ≤ k ∧ k < at' + new'.length
  · rw [if_pos hk, if_neg (by omega), if_pos hk]
  · rw [if_neg hk, if_neg hk]

theorem slice_flatMap {α : Type} {f : α → List UInt8} (hf : ∀ a, (f a).length = n)
    (l : List α) {i : ℕ} (hi : i < l.length) :
    slice (l.flatMap f) (n * i) n = f l[i] := by
  induction l generalizing i with
  | nil => cases hi
  | cons a l ih =>
    rw [List.flatMap_cons]
    cases i with
    | zero =>
      rw [Nat.mul_zero, slice_append_left (by rw [hf]; omega), slice_all (hf a)]
      rfl
    | succ i =>
      have hlt : i < l.length := by simpa using hi
      rw [slice_append_right (by rw [hf, Nat.mul_succ]; omega), hf, Nat.mul_succ,
        Nat.add_sub_cancel, ih hlt]
      rfl

theorem length_flatMap_range {f : ℕ → List UInt8} {w n : ℕ} (hf : ∀ k < n, (f k).length = w) :
    ((List.range n).flatMap f).length = n * w := by
  induction n with
  | zero => simp
  | succ n ih =>
    rw [List.range_succ, List.flatMap_append, List.length_append,
      ih fun k hk => hf k (by omega), List.flatMap_singleton, hf n (by omega), Nat.add_mul,
      Nat.one_mul]

theorem getElem?_flatMap_range {f : ℕ → List UInt8} {w n : ℕ} (hw : 0 < w)
    (hf : ∀ k < n, (f k).length = w) (j : ℕ) :
    ((List.range n).flatMap f)[j]? = if j < n * w then (f (j / w))[j % w]? else none := by
  induction n with
  | zero => simp
  | succ n ih =>
    have hlen := length_flatMap_range fun k hk => hf k (Nat.lt_succ_of_lt hk)
    rw [List.range_succ, List.flatMap_append, List.flatMap_singleton]
    by_cases hlow : j < n * w
    · rw [List.getElem?_append_left (by rw [hlen]; exact hlow),
        ih fun k hk => hf k (Nat.lt_succ_of_lt hk), if_pos hlow, if_pos]
      rw [Nat.add_mul]
      omega
    · rw [List.getElem?_append_right (by rw [hlen]; omega), hlen]
      by_cases hin : j < (n + 1) * w
      · have hdiv : j / w = n := Nat.div_eq_of_lt_le (by omega) hin
        have hmod : j - n * w = j % w := by
          have hdm := Nat.div_add_mod j w
          rw [hdiv, Nat.mul_comm] at hdm
          omega
        rw [if_pos hin, hdiv, hmod]
      · rw [if_neg hin, List.getElem?_eq_none]
        rw [hf n (Nat.lt_succ_self n)]
        rw [Nat.add_mul] at hin
        omega

end FsXfs.Bytes
