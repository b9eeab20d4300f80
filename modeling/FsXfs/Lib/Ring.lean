import Mathlib.Data.List.Range
import Mathlib.Logic.Function.Basic
import Mathlib.Data.Nat.ModEq

/-!
# Rings

A queue kept in a fixed number of cells: `count` entries from cell `first` on, going round past the
last cell. `window` lists them in order.
-/

namespace FsXfs.Ring

set_option autoImplicit false

variable {α : Type}

def window (cells : ℕ → α) (size first count : ℕ) : List α :=
  (List.range count).map fun i => cells ((first + i) % size)

@[simp] theorem length_window (cells : ℕ → α) (size first count : ℕ) :
    (window cells size first count).length = count := by
  simp [window]

theorem window_cons (cells : ℕ → α) {size first : ℕ} (hfirst : first < size) (count : ℕ) :
    window cells size first (count + 1) =
      cells first :: window cells size ((first + 1) % size) count := by
  rw [window, List.range_succ_eq_map, List.map_cons, List.map_map, Nat.add_zero,
    Nat.mod_eq_of_lt hfirst, window]
  refine congrArg _ (List.map_congr_left fun i _ => ?_)
  rw [Function.comp_apply, Nat.mod_add_mod, Nat.add_right_comm, Nat.add_assoc]

theorem cell_ne {size first i j : ℕ} (hij : i < j) (hj : j < i + size) :
    (first + i) % size ≠ (first + j) % size := by
  intro heq
  have hmod : first + i ≡ first + j [MOD size] := heq
  have hdvd := (Nat.modEq_iff_dvd' (by omega)).mp hmod
  have hle := Nat.le_of_dvd (by omega) hdvd
  omega

theorem window_push {cells cells' : ℕ → α} {size first count : ℕ} (hcount : count < size)
    (hsame : ∀ c, c ≠ (first + count) % size → cells' c = cells c) :
    window cells' size first (count + 1) =
      window cells size first count ++ [cells' ((first + count) % size)] := by
  rw [window, List.range_succ, List.map_append]
  refine congrArg (· ++ _) (List.map_congr_left fun i hi => hsame _ ?_)
  exact cell_ne (List.mem_range.mp hi) (by omega)

end FsXfs.Ring
