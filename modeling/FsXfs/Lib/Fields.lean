import FsXfs.Lib.Bytes

/-!
# Records laid out at fixed offsets

A record is written field by field, each a run of bytes at its own offset. Where the fields do not
overlap, the order they are written in does not matter, and each reads back.
-/

namespace FsXfs.Bytes

set_option autoImplicit false

/-- The fields written in order, each an offset and its bytes. -/
def putAll (buf : List UInt8) (fields : List (ℕ × List UInt8)) : List UInt8 :=
  fields.foldl (fun buf f => patch buf f.1 f.2) buf

/-- Two ranges, each an offset and a length, that share no byte. -/
def Apart (r s : ℕ × ℕ) : Prop :=
  r.1 + r.2 ≤ s.1 ∨ s.1 + s.2 ≤ r.1

instance (r s : ℕ × ℕ) : Decidable (Apart r s) :=
  inferInstanceAs (Decidable (_ ∨ _))

def spans (fields : List (ℕ × List UInt8)) : List (ℕ × ℕ) :=
  fields.map fun f => (f.1, f.2.length)

/-! ## Values -/

theorem leValue_lt (bytes : List UInt8) : leValue bytes < 256 ^ bytes.length := by
  induction bytes with
  | nil => decide
  | cons b rest ih =>
    have hb : b.toNat < 256 := b.toNat_lt
    rw [leValue, List.length_cons, Nat.pow_succ]
    omega

theorem beValue_lt (bytes : List UInt8) : beValue bytes < 256 ^ bytes.length := by
  have h := leValue_lt bytes.reverse
  rwa [List.length_reverse] at h

theorem beValue_slice_lt (buf : List UInt8) (at_ n : ℕ) : beValue (slice buf at_ n) < 256 ^ n := by
  refine lt_of_lt_of_le (beValue_lt _) (Nat.pow_le_pow_right (by decide) ?_)
  rw [slice, List.length_take]
  exact Nat.min_le_left _ _

theorem leBytes_leValue (buf : List UInt8) : leBytes buf.length (leValue buf) = buf := by
  induction buf with
  | nil => rfl
  | cons b buf ih =>
    have hb : b.toNat < 256 := b.toNat_lt
    have hdiv : leValue (b :: buf) / 256 = leValue buf := by
      rw [leValue]
      omega
    have hmod : leValue (b :: buf) % 256 = b.toNat := by
      rw [leValue]
      omega
    rw [List.length_cons, leBytes, hdiv, ih, hmod, UInt8.ofNat_toNat]

theorem beBytes_beValue {buf : List UInt8} {n : ℕ} (h : buf.length = n) :
    beBytes n (beValue buf) = buf := by
  rw [beBytes, beValue, ← h, ← List.length_reverse, leBytes_leValue, List.reverse_reverse]

/-! ## One field over another -/

section

variable {buf : List UInt8} {at_ n : ℕ}

theorem patch_patch_self {old new : List UInt8} (hin : at_ + old.length ≤ buf.length)
    (hlen : old.length = new.length) : patch (patch buf at_ old) at_ new = patch buf at_ new := by
  have hin' : at_ + new.length ≤ buf.length := hlen ▸ hin
  have houter : at_ + new.length ≤ (patch buf at_ old).length := by rwa [patch_length hin]
  refine List.ext_getElem? fun k => ?_
  rw [getElem?_patch houter, getElem?_patch hin', getElem?_patch hin, hlen]
  split
  · rfl
  · rfl

theorem take_patch {new : List UInt8} (hin : at_ + new.length ≤ n) (hn : n ≤ buf.length) :
    (patch buf at_ new).take n = patch (buf.take n) at_ new := by
  have hbuf : at_ + new.length ≤ buf.length := Nat.le_trans hin hn
  have htake : at_ + new.length ≤ (buf.take n).length := by
    rw [List.length_take, Nat.min_eq_left hn]
    exact hin
  refine List.ext_getElem? fun k => ?_
  rw [List.getElem?_take, getElem?_patch hbuf, getElem?_patch htake, List.getElem?_take]
  split
  · rfl
  next hk =>
    rw [if_neg (by omega)]

end

/-! ## Writing fields -/

section

variable {buf : List UInt8} {fields : List (ℕ × List UInt8)}

section

variable (hin : ∀ f ∈ fields, f.1 + f.2.length ≤ buf.length)

include hin

theorem putAll_length :
    (putAll buf fields).length = buf.length := by
  induction fields generalizing buf with
  | nil => rfl
  | cons f fields ih =>
    have hlen := patch_length (hin f List.mem_cons_self)
    have hrest := @ih (patch buf f.1 f.2) fun g hg => by
      rw [hlen]
      exact hin g (List.mem_cons_of_mem _ hg)
    exact hrest.trans hlen

theorem slice_putAll_of_apart {at_ n : ℕ} (hapart : ∀ r ∈ spans fields, Apart (at_, n) r) :
    slice (putAll buf fields) at_ n = slice buf at_ n := by
  induction fields generalizing buf with
  | nil => rfl
  | cons f fields ih =>
    have hf := hin f List.mem_cons_self
    have hlen := patch_length hf
    have hrest := @ih (patch buf f.1 f.2) (fun g hg => by
      rw [hlen]
      exact hin g (List.mem_cons_of_mem _ hg)) fun r hr => hapart r (List.mem_cons_of_mem _ hr)
    refine hrest.trans (slice_patch_of_outside hf ?_)
    have h := hapart (f.1, f.2.length) List.mem_cons_self
    exact h

theorem slice_putAll_of_mem {at_ : ℕ} {new : List UInt8} (hpair : (spans fields).Pairwise Apart)
    (hmem : (at_, new) ∈ fields) : slice (putAll buf fields) at_ new.length = new := by
  induction fields generalizing buf with
  | nil => exact absurd hmem List.not_mem_nil
  | cons f fields ih =>
    have hf := hin f List.mem_cons_self
    have hlen := patch_length hf
    have hin' : ∀ g ∈ fields, g.1 + g.2.length ≤ (patch buf f.1 f.2).length := fun g hg => by
      rw [hlen]
      exact hin g (List.mem_cons_of_mem _ hg)
    rw [spans, List.map_cons, List.pairwise_cons] at hpair
    rcases List.mem_cons.mp hmem with rfl | hmem
    · exact (slice_putAll_of_apart hin' hpair.1).trans (slice_patch_self hf)
    · exact ih hin' hpair.2 hmem

theorem beValue_putAll {at_ n v : ℕ} (hpair : (spans fields).Pairwise Apart)
    (hmem : (at_, beBytes n v) ∈ fields) (hv : v < 256 ^ n) :
    beValue (slice (putAll buf fields) at_ n) = v := by
  have h := slice_putAll_of_mem hin hpair hmem
  rw [beBytes_length] at h
  rw [h, beValue_beBytes_of_lt hv]

end

end

end FsXfs.Bytes
