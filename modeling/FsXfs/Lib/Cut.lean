import Mathlib.Data.List.Infix

/-!
# Cuts of a trace

A crash stops a program between two of its effects, so what must hold at every moment holds at every
cut of the list of effects. `Cuts` says so, and `cuts_append` takes a trace apart where the program
that wrote it is.
-/

namespace FsXfs.Cut

set_option autoImplicit false

variable {α : Type} {P : List α → Prop} {as bs : List α}

def Cuts (P : List α → Prop) (events : List α) : Prop :=
  ∀ t, t <+: events → P t

theorem cuts_nil : Cuts P [] ↔ P [] := by
  constructor
  · intro h
    exact h [] List.nil_prefix
  · intro h t ht
    rw [List.prefix_nil.mp ht]
    exact h

theorem cuts_append : Cuts P (as ++ bs) ↔ Cuts P as ∧ Cuts (fun t => P (as ++ t)) bs := by
  constructor
  · intro h
    refine ⟨fun t ht => h t (ht.trans (List.prefix_append _ _)), fun t ht => h _ ?_⟩
    exact (List.prefix_append_right_inj as).mpr ht
  · rintro ⟨has, hbs⟩ t ht
    rcases List.prefix_or_prefix_of_prefix ht (List.prefix_append as bs) with hle | ⟨rest, rfl⟩
    · exact has t hle
    · exact hbs rest ((List.prefix_append_right_inj as).mp ht)

theorem Cuts.whole (h : Cuts P as) : P as :=
  h as (List.prefix_refl as)

theorem Cuts.shorten (h : Cuts P bs) (hpre : as <+: bs) : Cuts P as :=
  fun t ht => h t (ht.trans hpre)

end FsXfs.Cut
