import FsXfs.Basic
import Mathlib.Data.List.AList
import Mathlib.Data.List.Sort

/-!
# What a mount has logged but nothing has replayed

`overlay.rs`: the buffers this mount's records carry, held by basic block over the device. The
source keys them by byte offset, always a multiple of 512; here the key is the basic block's number
and a sector's content is a function of the offset inside it.
-/

namespace FsXfs

open Bytes

set_option autoImplicit false
set_option maxRecDepth 8192

abbrev Sector := ℕ → UInt8

structure Overlay where
  logged : AList fun _ : ℕ => Sector

namespace Overlay

def empty : Overlay where
  logged := ∅

def Held (o : Overlay) (bb : ℕ) : Prop :=
  bb ∈ o.logged

instance (o : Overlay) (bb : ℕ) : Decidable (o.Held bb) :=
  inferInstanceAs (Decidable (bb ∈ o.logged))

def byte (o : Overlay) (inner : ℕ → UInt8) (a : ℕ) : UInt8 :=
  match o.logged.lookup (a / 512) with
  | some sector => sector (a % 512)
  | none => inner a

-- in the order of a `BTreeMap`'s keys
def pushed (o : Overlay) : List (ℕ × Sector) :=
  (o.logged.keys.insertionSort (· ≤ ·)).map fun bb => (bb, (o.logged.lookup bb).getD fun _ => 0)

-- what a read of `offset..end_` takes of one sector
def copySector (offset end_ : ℕ) (buf : List UInt8) (s : ℕ × Sector) : List UInt8 :=
  let from_ := max (s.1 * 512) offset
  let to_ := min (s.1 * 512 + 512) end_
  if to_ ≤ from_ then buf
  else patch buf (from_ - offset) ((List.range (to_ - from_)).map fun i => s.2 (from_ - s.1 * 512 + i))

def readAt (o : Overlay) (d : Device) (offset len : ℕ) : Except Error (List UInt8) := do
  let buf ← d.readAt offset len
  if buf.isEmpty then pure buf
  else
    let first := offset - offset % 512
    let end_ := offset + len
    pure ((o.pushed.filter fun s => decide (first ≤ s.1 * 512) && decide (s.1 * 512 < end_)).foldl
      (copySector offset end_) buf)

-- one chunk of a logged buffer: a partial one keeps what is held, or what the device has, around it
def put (o : Overlay) (inner : ℕ → UInt8) (bb : ℕ) (chunk : List UInt8) : Overlay where
  logged := o.logged.insert bb fun i =>
    if i < chunk.length then chunk.getD i 0 else o.byte inner (bb * 512 + i)

def putChunks (o : Overlay) (inner : ℕ → UInt8) (bb : ℕ) (bytes : List UInt8) (n : ℕ) : Overlay :=
  (List.range n).foldl (fun o i => o.put inner (bb + i) (slice bytes (i * 512) 512)) o

def wrote (o : Overlay) (inner : ℕ → UInt8) (bb : ℕ) (bytes : List UInt8) : Overlay :=
  o.putChunks inner bb bytes (divCeil bytes.length 512)

def forget (o : Overlay) (offset len : ℕ) : Overlay where
  logged := (o.logged.keys.filter fun bb =>
      decide (offset ≤ bb * 512) && decide (bb * 512 < offset + len)).foldl
    (fun m bb => m.erase bb) o.logged

def bytes (o : Overlay) : ℕ :=
  o.logged.entries.length * 512

/-! ## Reads -/

theorem byte_of_not_held {o : Overlay} {inner : ℕ → UInt8} {a : ℕ} (h : ¬o.Held (a / 512)) :
    o.byte inner a = inner a := by
  rw [byte, AList.lookup_eq_none.mpr h]

@[simp] theorem byte_empty (inner : ℕ → UInt8) (a : ℕ) : empty.byte inner a = inner a :=
  byte_of_not_held (AList.notMem_empty _)

theorem mem_pushed {o : Overlay} {bb : ℕ} {sector : Sector} :
    (bb, sector) ∈ o.pushed ↔ o.logged.lookup bb = some sector := by
  simp only [Overlay.pushed, List.mem_map, List.mem_insertionSort, Prod.mk.injEq]
  constructor
  · rintro ⟨bb', hkey, rfl, rfl⟩
    obtain ⟨s, hs⟩ := Option.isSome_iff_exists.mp (AList.lookup_isSome.mpr hkey)
    rw [hs, Option.getD_some]
  · intro h
    refine ⟨bb, ?_, rfl, by rw [h, Option.getD_some]⟩
    exact AList.lookup_isSome.mp (by rw [h]; rfl)

section

variable {buf : List UInt8} {offset len : ℕ} (hlen : buf.length = len)

include hlen

theorem length_copySector (s : ℕ × Sector) :
    (copySector offset (offset + len) buf s).length = len := by
  unfold copySector
  dsimp only
  split
  · exact hlen
  · rw [patch_length, hlen]
    rw [List.length_map, List.length_range]
    omega

theorem getElem?_copySector (s : ℕ × Sector) {i : ℕ} (hi : i < len) :
    (copySector offset (offset + len) buf s)[i]? =
      if (offset + i) / 512 = s.1 then some (s.2 ((offset + i) % 512)) else buf[i]? := by
  unfold copySector
  dsimp only
  split
  · rw [if_neg (by omega)]
  · rw [getElem?_patch, List.length_map, List.length_range]
    · by_cases hin : (offset + i) / 512 = s.1
      · have hat : max (s.1 * 512) offset - s.1 * 512 + (i - (max (s.1 * 512) offset - offset)) =
            (offset + i) % 512 := by omega
        rw [if_pos hin, if_pos (by omega), List.getElem?_map, List.getElem?_range (by omega),
          Option.map_some, hat]
      · rw [if_neg hin, if_neg (by omega)]
    · rw [List.length_map, List.length_range]
      omega

/-- The loop puts each byte of a sector it passes where the read has it, and no other. -/
theorem foldl_copySector {o : Overlay} (inner : ℕ → UInt8) {sectors : List (ℕ × Sector)}
    (h : ∀ s ∈ sectors, s ∈ o.pushed) :
    (sectors.foldl (copySector offset (offset + len)) buf).length = len ∧ ∀ i < len,
      (sectors.foldl (copySector offset (offset + len)) buf)[i]? =
        if (offset + i) / 512 ∈ sectors.map Prod.fst then some (o.byte inner (offset + i))
        else buf[i]? := by
  induction sectors generalizing buf with
  | nil => exact ⟨hlen, fun i _ => (if_neg List.not_mem_nil).symm⟩
  | cons s sectors ih =>
    obtain ⟨hs, hsectors⟩ := List.forall_mem_cons.mp h
    obtain ⟨hlength, hget⟩ := ih (length_copySector hlen s) hsectors
    refine ⟨hlength, fun i hi => ?_⟩
    rw [List.foldl_cons, hget i hi, getElem?_copySector hlen s hi, List.map_cons]
    simp only [List.mem_cons]
    by_cases hhere : (offset + i) / 512 = s.1
    · have hbyte : o.byte inner (offset + i) = s.2 ((offset + i) % 512) := by
        rw [byte, hhere, mem_pushed.mp hs]
      rw [if_pos hhere, hbyte, ite_self, if_pos (.inl hhere)]
    · rw [if_neg hhere]
      exact if_congr (or_iff_right hhere).symm rfl rfl

end

/-- A read that the device does not refuse is of the bytes held, and the device's where none is. -/
theorem readAt_eq (o : Overlay) (d : Device) (offset len : ℕ) :
    o.readAt d offset len = (d.readAt offset len).map fun _ =>
      (List.range len).map fun i => o.byte d.byte (offset + i) := by
  rw [readAt]
  cases hread : d.readAt offset len with
  | error e => rfl
  | ok buf =>
    obtain ⟨hlen, hfits⟩ := Device.readAt_length hread
    rw [Device.readAt, if_pos hfits] at hread
    obtain ⟨hlength, hget⟩ := @foldl_copySector buf offset len hlen o d.byte
      (o.pushed.filter fun s => decide (offset - offset % 512 ≤ s.1 * 512) &&
        decide (s.1 * 512 < offset + len)) fun s hs => (List.mem_filter.mp hs).1
    change (if buf.isEmpty then _ else _) = _
    split
    · next hempty =>
      obtain rfl := List.isEmpty_iff.mp hempty
      subst hlen
      rfl
    · refine congrArg Except.ok (List.ext_getElem? fun i => ?_)
      by_cases hi : i < len
      · rw [hget i hi, List.getElem?_map, List.getElem?_range hi, Option.map_some]
        split
        · rfl
        · next hout =>
          rw [← Except.ok.inj hread, List.getElem?_map, List.getElem?_range hi, Option.map_some,
            byte_of_not_held]
          intro hheld
          obtain ⟨sector, hsector⟩ := Option.isSome_iff_exists.mp (AList.lookup_isSome.mpr hheld)
          refine hout (List.mem_map.mpr ⟨_, List.mem_filter.mpr ⟨mem_pushed.mpr hsector, ?_⟩, rfl⟩)
          simp only [Bool.and_eq_true, decide_eq_true_eq]
          omega
      · rw [List.getElem?_eq_none (by omega), List.getElem?_eq_none (by simp; omega)]

section

variable (o : Overlay) (inner : ℕ → UInt8) (bb : ℕ)

include o inner bb

theorem byte_put {chunk : List UInt8} (hlen : chunk.length ≤ 512) (a : ℕ) :
    (o.put inner bb chunk).byte inner a =
      if bb * 512 ≤ a ∧ a < bb * 512 + chunk.length then chunk.getD (a - bb * 512) 0
      else o.byte inner a := by
  have hdm := Nat.div_add_mod a 512
  rw [Nat.mul_comm] at hdm
  by_cases hbb : a / 512 = bb
  · subst hbb
    have hoff : a - a / 512 * 512 = a % 512 := by omega
    rw [byte, put, AList.lookup_insert]
    by_cases hin : a % 512 < chunk.length
    · simp only [hin, if_true, hoff]
      rw [if_pos (by omega)]
    · simp only [hin, if_false]
      rw [if_neg (by omega), hdm]
  · have hne : ¬(bb * 512 ≤ a ∧ a < bb * 512 + chunk.length) := by
      rintro ⟨hlo, hhi⟩
      apply hbb
      apply Nat.div_eq_of_lt_le
      · omega
      · omega
    rw [if_neg hne, byte, put, AList.lookup_insert_ne hbb, byte]

theorem putChunks_succ (bytes : List UInt8) (n : ℕ) :
    o.putChunks inner bb bytes (n + 1) =
      (o.putChunks inner bb bytes n).put inner (bb + n) (slice bytes (n * 512) 512) := by
  simp [putChunks, List.range_succ]

theorem byte_putChunks (bytes : List UInt8) (n a : ℕ) :
    (o.putChunks inner bb bytes n).byte inner a =
      if bb * 512 ≤ a ∧ a < bb * 512 + min (n * 512) bytes.length then
        bytes.getD (a - bb * 512) 0
      else o.byte inner a := by
  induction n with
  | zero =>
    rw [if_neg (by omega)]
    rfl
  | succ n ih =>
    have hlen : (slice bytes (n * 512) 512).length =
        min 512 (bytes.length - n * 512) := by
      simp [slice]
    rw [putChunks_succ, byte_put _ _ _ (by rw [hlen]; exact Nat.min_le_left _ _), ih, hlen]
    by_cases hnew : (bb + n) * 512 ≤ a ∧ a < (bb + n) * 512 + min 512 (bytes.length - n * 512)
    · -- the byte is in the last chunk
      rw [if_pos hnew, if_pos (by omega)]
      have hidx : a - bb * 512 = n * 512 + (a - (bb + n) * 512) := by omega
      rw [hidx, slice, List.getD_eq_getElem?_getD, List.getElem?_take_of_lt (by omega),
        List.getElem?_drop, ← List.getD_eq_getElem?_getD]
    · rw [if_neg hnew]
      by_cases hold : bb * 512 ≤ a ∧ a < bb * 512 + min (n * 512) bytes.length
      · rw [if_pos hold, if_pos (by omega)]
      · rw [if_neg hold, if_neg (by omega)]

/-- After a buffer is put at basic block `bb`, its bytes are read where it lies and what was read
before is read everywhere else. -/
theorem byte_wrote (bytes : List UInt8) (a : ℕ) :
    (o.wrote inner bb bytes).byte inner a =
      if bb * 512 ≤ a ∧ a < bb * 512 + bytes.length then bytes.getD (a - bb * 512) 0
      else o.byte inner a := by
  have hle := @le_divCeil_mul bytes.length 512 (by decide)
  rw [wrote, byte_putChunks, Nat.min_eq_right hle]

/-! ## What is held -/

theorem held_put (chunk : List UInt8) (b : ℕ) :
    (o.put inner bb chunk).Held b ↔ b = bb ∨ o.Held b :=
  AList.mem_insert _

end

theorem bytes_put {o : Overlay} {bb : ℕ} (h : ¬o.Held bb) (inner : ℕ → UInt8)
    (chunk : List UInt8) : (o.put inner bb chunk).bytes = o.bytes + 512 := by
  rw [bytes, put, AList.entries_insert_of_notMem h, List.length_cons, Nat.add_mul, bytes]

theorem held_putChunks (o : Overlay) (inner : ℕ → UInt8) (bb : ℕ) (bytes : List UInt8) (n b : ℕ) :
    (o.putChunks inner bb bytes n).Held b ↔ (bb ≤ b ∧ b < bb + n) ∨ o.Held b := by
  induction n with
  | zero =>
    have hnone : ¬(bb ≤ b ∧ b < bb + 0) := by omega
    simp only [hnone, false_or]
    rfl
  | succ n ih =>
    rw [putChunks_succ, held_put, ih, ← or_assoc]
    have hrange : (b = bb + n ∨ bb ≤ b ∧ b < bb + n) ↔ (bb ≤ b ∧ b < bb + (n + 1)) := by omega
    rw [hrange]

theorem bytes_putChunks {o : Overlay} {bb : ℕ} (inner : ℕ → UInt8) (bytes : List UInt8) {n : ℕ}
    (h : ∀ b, bb ≤ b → b < bb + n → ¬o.Held b) :
    (o.putChunks inner bb bytes n).bytes = o.bytes + n * 512 := by
  induction n with
  | zero => simp [putChunks]
  | succ n ih =>
    have hnew : ¬(o.putChunks inner bb bytes n).Held (bb + n) := by
      rw [held_putChunks]
      rintro (hlt | hheld)
      · omega
      · exact h (bb + n) (by omega) (by omega) hheld
    rw [putChunks_succ, bytes_put hnew, ih (fun b hlo hhi => h b hlo (by omega))]
    omega

theorem held_wrote (o : Overlay) (inner : ℕ → UInt8) (bb : ℕ) (bytes : List UInt8) (b : ℕ) :
    (o.wrote inner bb bytes).Held b ↔
      (bb ≤ b ∧ b < bb + divCeil bytes.length 512) ∨ o.Held b :=
  held_putChunks o inner bb bytes _ b

theorem mem_foldl_erase (bbs : List ℕ) (m : AList fun _ : ℕ => Sector) (b : ℕ) :
    b ∈ bbs.foldl (fun m bb => m.erase bb) m ↔ b ∈ m ∧ b ∉ bbs := by
  induction bbs generalizing m with
  | nil => simp
  | cons bb bbs ih =>
    rw [List.foldl_cons, ih, AList.mem_erase, List.mem_cons]
    tauto

theorem held_forget (o : Overlay) (offset len b : ℕ) :
    (o.forget offset len).Held b ↔ o.Held b ∧ ¬(offset ≤ b * 512 ∧ b * 512 < offset + len) := by
  have hkeys : b ∈ o.logged.keys ↔ o.Held b := Iff.rfl
  change b ∈ List.foldl (fun m bb => m.erase bb) o.logged _ ↔ _
  rw [mem_foldl_erase, List.mem_filter, hkeys, Bool.and_eq_true, decide_eq_true_iff,
    decide_eq_true_iff]
  constructor
  · rintro ⟨hheld, hnot⟩
    exact ⟨hheld, fun hin => hnot ⟨hheld, hin⟩⟩
  · rintro ⟨hheld, hnot⟩
    exact ⟨hheld, fun hin => hnot hin.2⟩

theorem bytes_wrote {o : Overlay} {bb : ℕ} (inner : ℕ → UInt8) (bytes : List UInt8)
    (h : ∀ b, bb ≤ b → b < bb + divCeil bytes.length 512 → ¬o.Held b) :
    (o.wrote inner bb bytes).bytes = o.bytes + divCeil bytes.length 512 * 512 :=
  bytes_putChunks inner bytes h

end Overlay

end FsXfs
