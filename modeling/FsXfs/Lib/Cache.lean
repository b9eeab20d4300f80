import FsXfs.Lib.Patch
import Mathlib.Data.List.Sublists

/-!
# A store with a volatile cache

Writes reach the medium in no particular order until a flush. A crash keeps every write that a
flush follows, and of the later ones any selection.
-/

namespace FsXfs.Cache

open Redo

set_option autoImplicit false

inductive Event (ω : Type) where
  | write (w : ω)
  | flush

section

variable {ω : Type}

def bufferStep (state : List ω × List ω) : Event ω → List ω × List ω
  | .write w => (state.1, state.2 ++ [w])
  | .flush => (state.1 ++ state.2, [])

/-- The writes that a flush follows, and those that none does. -/
def buffered (events : List (Event ω)) : List ω × List ω :=
  events.foldl bufferStep ([], [])

/-- The writes on the medium after a crash that follows the events. -/
def Kept (events : List (Event ω)) (kept : List ω) : Prop :=
  ∃ reached, reached.Sublist (buffered events).2 ∧ kept = (buffered events).1 ++ reached

theorem buffered_writes (ws : List ω) : buffered (ws.map Event.write) = ([], ws) := by
  have h : ∀ state : List ω × List ω,
      (ws.map Event.write).foldl bufferStep state = (state.1, state.2 ++ ws) := by
    induction ws with
    | nil => simp
    | cons w ws ih =>
      intro state
      rw [List.map_cons, List.foldl_cons, ih]
      simp [bufferStep]
  exact h ([], [])

theorem kept_sublist {ws kept : List ω} {t : List (Event ω)}
    (ht : t <+: ws.map Event.write ++ [Event.flush]) (hkept : Kept t kept) : kept.Sublist ws := by
  obtain ⟨reached, hreached, rfl⟩ := hkept
  rcases List.prefix_concat_iff.mp ht with rfl | hwrites
  · have hdone : buffered (ws.map Event.write ++ [Event.flush]) = (ws, []) := by
      have h := buffered_writes ws
      unfold buffered at h ⊢
      rw [List.foldl_append, h]
      rfl
    rw [hdone] at hreached ⊢
    rw [List.sublist_nil.mp hreached, List.append_nil]
  · obtain ⟨n, rfl⟩ : ∃ n, t = (ws.take n).map Event.write := by
      refine ⟨t.length, ?_⟩
      rw [List.map_take]
      exact List.prefix_iff_eq_take.mp hwrites
    rw [buffered_writes] at hreached ⊢
    exact hreached.trans (List.take_sublist n ws)

theorem kept_before_flush {ws kept : List ω} (h : kept.Sublist ws) :
    Kept (ws.map Event.write) kept :=
  ⟨kept, by rw [buffered_writes]; exact h, by rw [buffered_writes, List.nil_append]⟩

end

section

variable {α β : Type} {ps qs : List (Patch α β)} {s : α → β} {a : α}

theorem Covers.last (h : Covers ps a) :
    ∃ front p rest b, ps = front ++ p :: rest ∧ p a = some b ∧ ¬Covers rest a := by
  induction ps with
  | nil =>
    obtain ⟨p, hp, -⟩ := h
    exact absurd hp List.not_mem_nil
  | cons p ps ih =>
    by_cases hrest : Covers ps a
    · obtain ⟨front, q, rest, b, rfl, hq, hlast⟩ := ih hrest
      exact ⟨p :: front, q, rest, b, rfl, hq, hlast⟩
    · obtain ⟨q, hq, hsome⟩ := h
      rcases List.mem_cons.mp hq with rfl | hq
      · obtain ⟨b, hb⟩ := Option.isSome_iff_exists.mp hsome
        exact ⟨[], q, ps, b, rfl, hb, hrest⟩
      · exact absurd ⟨q, hq, hsome⟩ hrest

theorem applyAll_last {front rest : List (Patch α β)} {p : Patch α β} {b : β} (hp : p a = some b)
    (hrest : ¬Covers rest a) : applyAll (front ++ p :: rest) s a = b := by
  rw [applyAll_append, applyAll_cons, applyAll_of_not_covers hrest, apply_of_some hp]

theorem applyAll_eq_iff (hsub : qs.Sublist ps) :
    applyAll qs s = applyAll ps s ↔
      ∀ front p rest, ps = front ++ p :: rest →
        ∀ a b, p a = some b → ¬Covers rest a → applyAll qs s a = b := by
  constructor
  · rintro heq front p rest rfl a b hp hrest
    rw [heq, applyAll_last hp hrest]
  · intro hshows
    funext a
    by_cases hcov : Covers ps a
    · obtain ⟨front, p, rest, b, hps, hp, hrest⟩ := Covers.last hcov
      rw [hshows front p rest hps a b hp hrest, hps, applyAll_last hp hrest]
    · have hnone : ¬Covers qs a := fun ⟨p, hp, hsome⟩ => hcov ⟨p, hsub.subset hp, hsome⟩
      rw [applyAll_of_not_covers hcov, applyAll_of_not_covers hnone]

end

end FsXfs.Cache
