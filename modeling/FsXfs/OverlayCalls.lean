import FsXfs.Effects

/-!
# Reads through the overlay

Any calls of `wrote`, `forget` and `push` on the overlay and the device under it, with what the
device fails, against a flat map of the bytes written and not forgotten since.
-/

namespace FsXfs

open Redo Mount

set_option autoImplicit false

structure Stack where
  overlay : Overlay
  inner : ℕ → UInt8

namespace Stack

/-- The calls, with the sectors the device can be read for during a `wrote`, and the number of
sectors a `push` that fails has written. -/
inductive Call where
  | wrote (bb : ℕ) (bytes : List UInt8) (readable : ℕ → Bool)
  | forget (offset len : ℕ)
  | push (stops : Option ℕ)

variable (s : Stack)

def byte (a : ℕ) : UInt8 :=
  s.overlay.byte s.inner a

-- the block a partial chunk goes in starts as zeros, and a failed read of the device is ignored
def found (readable : ℕ → Bool) (a : ℕ) : UInt8 :=
  if readable (a / 512) then s.inner a else 0

def landed (sectors : List (ℕ × Sector)) : ℕ → UInt8 :=
  applyAll (sectors.map fun x => Event.sectorPatch x.1 x.2) s.inner

def call : Call → Stack
  | .wrote bb bytes readable => { s with overlay := s.overlay.wrote (s.found readable) bb bytes }
  | .forget offset len => { s with overlay := s.overlay.forget offset len }
  | .push none => ⟨.empty, s.landed s.overlay.pushed⟩
  | .push (some n) => { s with inner := s.landed (s.overlay.pushed.take n) }

/-- The bytes written and not forgotten since, a sector being forgotten when it starts in the
range. -/
def flat (laid : ℕ → Option UInt8) : Call → ℕ → Option UInt8
  | .wrote bb bytes _ => fun a =>
    if bb * 512 ≤ a ∧ a < bb * 512 + bytes.length then some (bytes.getD (a - bb * 512) 0) else laid a
  | .forget offset len => fun a =>
    if offset ≤ a / 512 * 512 ∧ a / 512 * 512 < offset + len then none else laid a
  | .push none => fun _ => none
  | .push (some _) => laid

structure Reads (laid : ℕ → Option UInt8) : Prop where
  byte_eq : ∀ a, s.byte a = (laid a).getD (s.inner a)
  push_byte : ∀ stops a, (s.call (.push stops)).byte a = s.byte a
  push_inner : (s.call (.push none)).inner = s.byte
  push_overlay : ∀ n, (s.call (.push (some n))).overlay = s.overlay

/-- Past the end of the buffer, its last sector is held, can be read, or is blank. -/
def Kept : Call → Prop
  | .wrote bb bytes readable => ∀ a, bb * 512 + bytes.length ≤ a →
    a / 512 < bb + divCeil bytes.length 512 → ¬s.overlay.Held (a / 512) →
      readable (a / 512) = false → s.inner a = 0
  | _ => True

def Right : Stack → (ℕ → Option UInt8) → List Call → Prop
  | s, laid, [] => s.Reads laid
  | s, laid, c :: calls => s.Reads laid ∧ Right (s.call c) (flat laid c) calls

def AllKept : Stack → List Call → Prop
  | _, [] => True
  | s, c :: calls => s.Kept c ∧ AllKept (s.call c) calls

/-! ## One call -/

theorem byte_of_held {o : Overlay} {inner inner' : ℕ → UInt8} {a : ℕ} (h : o.Held (a / 512)) :
    o.byte inner a = o.byte inner' a := by
  obtain ⟨sector, hsector⟩ := Option.isSome_iff_exists.mp (AList.lookup_isSome.mpr h)
  rw [Overlay.byte, Overlay.byte, hsector]

variable {s} {laid : ℕ → Option UInt8}

theorem byte_stopped (n a : ℕ) : (s.call (.push (some n))).byte a = s.byte a ∧
    (s.byte a = s.inner a → (s.call (.push (some n))).inner a = s.inner a) := by
  have hland := home_after_push (List.take_prefix n s.overlay.pushed) s.inner a
  refine ⟨?_, fun hsame => hland.elim id fun h => h.trans hsame⟩
  by_cases hheld : s.overlay.Held (a / 512)
  · exact byte_of_held hheld
  · have hsame : s.byte a = s.inner a := Overlay.byte_of_not_held hheld
    rw [hsame]
    exact (Overlay.byte_of_not_held hheld).trans (hland.elim id fun h => h.trans hsame)

theorem reads_iff : s.Reads laid ↔ ∀ a, s.byte a = (laid a).getD (s.inner a) := by
  have hpushed : (s.call (.push none)).inner = s.byte := home_after_whole_push _ _
  refine ⟨Reads.byte_eq, fun h => ⟨h, fun stops a => ?_, hpushed, fun _ => rfl⟩⟩
  cases stops with
  | none => exact (Overlay.byte_empty _ _).trans (congrFun hpushed a)
  | some n => exact (byte_stopped n a).1

theorem byte_wrote_found (bb : ℕ) (bytes : List UInt8) (readable : ℕ → Bool) (a : ℕ) :
    (s.call (.wrote bb bytes readable)).byte a =
      if bb * 512 ≤ a ∧ a < bb * 512 + bytes.length then bytes.getD (a - bb * 512) 0
      else if (bb ≤ a / 512 ∧ a / 512 < bb + divCeil bytes.length 512) ∧ ¬s.overlay.Held (a / 512) then
        s.found readable a
      else s.byte a := by
  have hle := @le_divCeil_mul bytes.length 512 (by decide)
  by_cases hheld : (s.overlay.wrote (s.found readable) bb bytes).Held (a / 512)
  · have hbyte := Overlay.byte_wrote s.overlay (s.found readable) bb bytes a
    refine (byte_of_held hheld).trans (hbyte.trans (if_congr Iff.rfl rfl ?_))
    rw [Overlay.held_wrote] at hheld
    by_cases hold : s.overlay.Held (a / 512)
    · rw [if_neg (by tauto)]
      exact byte_of_held hold
    · rw [if_pos ⟨hheld.resolve_right hold, hold⟩, Overlay.byte_of_not_held hold]
  · have hbyte : (s.call (.wrote bb bytes readable)).byte a = s.inner a :=
      Overlay.byte_of_not_held hheld
    rw [Overlay.held_wrote, not_or] at hheld
    rw [hbyte, if_neg (by omega), if_neg (by tauto)]
    exact (Overlay.byte_of_not_held hheld.2).symm

theorem lookup_foldl_erase {bbs : List ℕ} {m : AList fun _ : ℕ => Sector} {b : ℕ} (h : b ∉ bbs) :
    (bbs.foldl (fun m bb => m.erase bb) m).lookup b = m.lookup b := by
  induction bbs generalizing m with
  | nil => rfl
  | cons bb bbs ih =>
    rw [List.mem_cons, not_or] at h
    exact (ih h.2).trans (AList.lookup_erase_ne h.1)

theorem byte_forget (offset len a : ℕ) : (s.call (.forget offset len)).byte a =
    if offset ≤ a / 512 * 512 ∧ a / 512 * 512 < offset + len then s.inner a else s.byte a := by
  split
  · next hin =>
    refine Overlay.byte_of_not_held fun hheld => ?_
    exact ((Overlay.held_forget _ _ _ _).mp hheld).2 hin
  · next hout =>
    have hkept : (s.overlay.forget offset len).logged.lookup (a / 512) =
        s.overlay.logged.lookup (a / 512) := by
      refine lookup_foldl_erase fun hmem => hout ?_
      simpa using (List.mem_filter.mp hmem).2
    change (s.overlay.forget offset len).byte s.inner a = s.overlay.byte s.inner a
    rw [Overlay.byte, hkept, Overlay.byte]

theorem reads_call_iff (h : s.Reads laid) (c : Call) : (s.call c).Reads (flat laid c) ↔ s.Kept c := by
  have hbyte := h.byte_eq
  rw [reads_iff]
  cases c with
  | wrote bb bytes readable =>
    have hsame : ∀ a, (s.call (.wrote bb bytes readable)).byte a =
          (flat laid (.wrote bb bytes readable) a).getD (s.inner a) ↔
        (bb * 512 + bytes.length ≤ a → a / 512 < bb + divCeil bytes.length 512 →
          ¬s.overlay.Held (a / 512) → readable (a / 512) = false → s.inner a = 0) := by
      intro a
      rw [byte_wrote_found]
      simp only [flat]
      by_cases hin : bb * 512 ≤ a ∧ a < bb * 512 + bytes.length
      · rw [if_pos hin, if_pos hin]
        exact iff_of_true rfl fun hout => absurd hin.2 (by omega)
      · rw [if_neg hin, if_neg hin, ← hbyte]
        split
        · next hnew =>
          rw [show s.byte a = s.inner a from Overlay.byte_of_not_held hnew.2, found]
          cases readable (a / 512) with
          | true => simp
          | false =>
            have hpast : bb * 512 + bytes.length ≤ a := by omega
            simp [hpast, hnew.1.2, hnew.2, eq_comm]
        · next hnew =>
          exact iff_of_true rfl fun hpast hlt hheld => absurd ⟨⟨by omega, hlt⟩, hheld⟩ hnew
    exact forall_congr' hsame
  | forget offset len =>
    refine iff_of_true (fun a => ?_) trivial
    rw [byte_forget]
    simp only [flat]
    split
    · rfl
    · exact hbyte a
  | push stops =>
    refine iff_of_true (fun a => ?_) (by cases stops <;> trivial)
    cases stops with
    | none => exact Overlay.byte_empty _ _
    | some n =>
      have hold := hbyte a
      rw [(byte_stopped n a).1, hold]
      simp only [flat]
      cases hover : laid a with
      | some v => rfl
      | none =>
        rw [hover] at hold
        exact ((byte_stopped n a).2 hold).symm

/-! ## Any calls -/

theorem Right.reads {calls : List Call} (h : Right s laid calls) : s.Reads laid := by
  cases calls with
  | nil => exact h
  | cons c calls => exact h.1

theorem right_iff {calls : List Call} (h : s.Reads laid) : Right s laid calls ↔ AllKept s calls := by
  induction calls generalizing s laid with
  | nil => exact iff_of_true h trivial
  | cons c calls ih =>
    constructor
    · rintro ⟨-, hrest⟩
      exact ⟨(reads_call_iff h c).mp hrest.reads, (ih hrest.reads).mp hrest⟩
    · rintro ⟨hkept, hrest⟩
      have hnext := (reads_call_iff h c).mpr hkept
      exact ⟨h, (ih hnext).mpr hrest⟩

theorem overlay_reads_iff (inner : ℕ → UInt8) (calls : List Call) :
    Right ⟨.empty, inner⟩ (fun _ => none) calls ↔ AllKept ⟨.empty, inner⟩ calls :=
  right_iff (reads_iff.mpr fun a => Overlay.byte_empty inner a)

theorem unread_sector_zeroed :
    (call ⟨.empty, fun _ => 7⟩ (.wrote 0 [1] fun _ => false)).byte 1 = 0 ∧
      flat (fun _ => none) (.wrote 0 [1] fun _ => false) 1 = none :=
  ⟨rfl, rfl⟩

end Stack

end FsXfs
