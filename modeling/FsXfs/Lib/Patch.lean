import Mathlib.Data.List.Basic
import Mathlib.Data.Option.Basic

/-!
# Redo patches

A redo log is a list of patches: partial maps from cells to the contents they give. Applying a list
in order leaves each cell with what the last patch over it says. Hence redoing a list over a state
that has already received some of it, in any part and in any order, ends where redoing it over the
state it was written for ends (`applyAll_congr`): only the cells no patch covers have to agree.
-/

namespace FsXfs.Redo

set_option autoImplicit false

variable {α β : Type}

abbrev Patch (α β : Type) := α → Option β

def apply (p : Patch α β) (s : α → β) : α → β := fun a => (p a).getD (s a)

def applyAll (ps : List (Patch α β)) (s : α → β) : α → β :=
  ps.foldl (fun s p => apply p s) s

def Covers (ps : List (Patch α β)) (a : α) : Prop :=
  ∃ p ∈ ps, (p a).isSome

@[simp] theorem applyAll_nil (s : α → β) : applyAll [] s = s := rfl

@[simp] theorem applyAll_cons (p : Patch α β) (ps : List (Patch α β)) (s : α → β) :
    applyAll (p :: ps) s = applyAll ps (apply p s) := rfl

theorem applyAll_append (ps qs : List (Patch α β)) (s : α → β) :
    applyAll (ps ++ qs) s = applyAll qs (applyAll ps s) :=
  List.foldl_append

variable {ps : List (Patch α β)} {a : α} {s : α → β}

theorem apply_of_none {p : Patch α β} (h : p a = none) : apply p s a = s a := by
  rw [apply, h, Option.getD_none]

theorem apply_of_some {p : Patch α β} {b : β} (h : p a = some b) :
    apply p s a = b := by
  rw [apply, h, Option.getD_some]

theorem applyAll_congr_at {t : α → β} (h : s a = t a ∨ Covers ps a) :
    applyAll ps s a = applyAll ps t a := by
  induction ps generalizing s t with
  | nil =>
    rcases h with h | ⟨p, hp, -⟩
    · exact h
    · cases hp
  | cons p ps ih =>
    rw [applyAll_cons, applyAll_cons]
    apply ih
    cases hp : p a with
    | some b => exact .inl (by rw [apply_of_some hp, apply_of_some hp])
    | none =>
      rw [apply_of_none hp, apply_of_none hp]
      rcases h with h | ⟨q, hq, hsome⟩
      · exact .inl h
      · rcases List.mem_cons.mp hq with rfl | hq
        · simp [hp] at hsome
        · exact .inr ⟨q, hq, hsome⟩

theorem applyAll_congr (ps : List (Patch α β)) {t : α → β} (h : ∀ a, ¬Covers ps a → s a = t a) :
    applyAll ps s = applyAll ps t := by
  funext a
  by_cases hcov : Covers ps a
  · exact applyAll_congr_at (.inr hcov)
  · exact applyAll_congr_at (.inl (h a hcov))

theorem applyAll_of_not_covers (h : ¬Covers ps a) :
    applyAll ps s a = s a := by
  induction ps generalizing s with
  | nil => rfl
  | cons p ps ih =>
    have hp : p a = none := by
      cases hp : p a with
      | none => rfl
      | some b => exact absurd ⟨p, List.mem_cons_self, by simp [hp]⟩ h
    rw [applyAll_cons, ih (fun ⟨q, hq, hs⟩ => h ⟨q, List.mem_cons_of_mem _ hq, hs⟩),
      apply_of_none hp]

/-- Where every patch over a cell gives it the same content, the cell ends with that content if any
patch lies over it, and keeps its own otherwise. -/
theorem applyAll_of_agree {v : β} (h : ∀ p ∈ ps, ∀ b, p a = some b → b = v) (hcov : Covers ps a) :
    applyAll ps s a = v := by
  induction ps generalizing s with
  | nil => exact absurd hcov (by simp [Covers])
  | cons p ps ih =>
    rw [applyAll_cons]
    by_cases hrest : Covers ps a
    · exact ih (fun q hq => h q (List.mem_cons_of_mem _ hq)) hrest
    · rw [applyAll_of_not_covers hrest]
      cases hp : p a with
      | some b => rw [apply_of_some hp, h p List.mem_cons_self b hp]
      | none =>
        obtain ⟨q, hq, hsome⟩ := hcov
        rcases List.mem_cons.mp hq with rfl | hq
        · simp [hp] at hsome
        · exact absurd ⟨q, hq, hsome⟩ hrest

end FsXfs.Redo
