import FsXfs.Names.Operations
import FsXfs.Lib.Hierarchy
import Mathlib.Algebra.BigOperators.Group.Finset.Basic

/-!
# The links a volume's directories make

What names an inode: entries, a directory's own `.`, and the `..` of the directories in it. `State.links`
adds them up over the volume, and `links_put` says how one inode's change moves the sum. The
directories themselves are a `Forest`.
-/

namespace FsXfs.Names

open Hierarchy

set_option autoImplicit false

def naming (entries : List Entry) (i : ℕ) : ℕ :=
  entries.countP fun e => e.ino = i

def weight (d : ℕ) (core : Core) (i : ℕ) : ℕ :=
  if core.isDir then
    naming core.names.entries i + (if core.names.parent = i then 1 else 0) + if d = i then 1 else 0
  else 0

theorem naming_perm {l l' : List Entry} (h : l.Perm l') (i : ℕ) : naming l i = naming l' i :=
  h.countP_eq _

theorem naming_cons (e : Entry) (l : List Entry) (i : ℕ) :
    naming (e :: l) i = naming l i + if e.ino = i then 1 else 0 := by
  simp [naming, List.countP_cons]

theorem naming_pos {l : List Entry} {i : ℕ} : 0 < naming l i ↔ ∃ e ∈ l, e.ino = i := by
  simp [naming, List.countP_pos_iff]

namespace State

def links (s : State) (i : ℕ) : ℕ :=
  ∑ d ∈ s.inos, weight d (s.core d) i

def IsDir (s : State) (d : ℕ) : Prop :=
  d ∈ s.inos ∧ (s.core d).isDir = true

def Has (s : State) (p : ℕ) (name : List UInt8) (i : ℕ) : Prop :=
  (⟨name, i⟩ : Entry) ∈ (s.core p).names.entries

instance (s : State) (d : ℕ) : Decidable (s.IsDir d) :=
  inferInstanceAs (Decidable (_ ∧ _))

instance (s : State) (p : ℕ) (name : List UInt8) (i : ℕ) : Decidable (s.Has p name i) :=
  inferInstanceAs (Decidable (_ ∈ _))

def forest (s : State) : Forest ℕ (List UInt8) where
  node := s.IsDir
  names := s.Has
  up := fun d => (s.core d).names.parent

section

variable {s : State} {d i : ℕ} {slot : Slot}

@[simp] theorem put_inos : (s.put d slot).inos = s.inos := rfl

theorem put_core_self : (s.put d slot).core d = slot.core := by
  simp [core, put]

theorem put_core_of_ne {e : ℕ} (h : e ≠ d) : (s.put d slot).core e = s.core e := by
  simp [core, put, h]

theorem put_slot_self : (s.put d slot).slot d = slot := by
  simp [put]

theorem put_slot_of_ne {e : ℕ} (h : e ≠ d) : (s.put d slot).slot e = s.slot e := by
  simp [put, h]

theorem links_put (hd : d ∈ s.inos) :
    (s.put d slot).links i + weight d (s.core d) i = s.links i + weight d slot.core i := by
  have hrest : ∑ e ∈ s.inos.erase d, weight e ((s.put d slot).core e) i =
      ∑ e ∈ s.inos.erase d, weight e (s.core e) i :=
    Finset.sum_congr rfl fun e he => by rw [put_core_of_ne (Finset.ne_of_mem_erase he)]
  have hnew := Finset.add_sum_erase s.inos (fun e => weight e ((s.put d slot).core e) i) hd
  have hold := Finset.add_sum_erase s.inos (fun e => weight e (s.core e) i) hd
  simp only [put_core_self] at hnew
  unfold links
  rw [put_inos]
  omega

theorem weight_le_links (hd : d ∈ s.inos) : weight d (s.core d) i ≤ s.links i :=
  Finset.single_le_sum (f := fun e => weight e (s.core e) i) (fun _ _ => Nat.zero_le _) hd

theorem links_pos_of_has {name : List UInt8} (hd : s.IsDir d) (h : s.Has d name i) :
    0 < s.links i := by
  have hnaming : 0 < naming (s.core d).names.entries i := naming_pos.mpr ⟨_, h, rfl⟩
  have hweight : naming (s.core d).names.entries i ≤ weight d (s.core d) i := by
    rw [weight, if_pos hd.2]
    omega
  have hle := weight_le_links (i := i) hd.1
  omega

end

end State

end FsXfs.Names
