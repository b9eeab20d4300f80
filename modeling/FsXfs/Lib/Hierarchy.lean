import Mathlib.Logic.Function.Iterate
import Mathlib.Order.Basic

/-!
# Trees of named nodes

Nodes that name each other, each with a pointer up: a tree when every node but the root is named
once, by the node its pointer leads to, and every pointer chain ends at the root. The changes a
hierarchy goes through keep it a tree: `IsTree.add`, `IsTree.drop`, `IsTree.move`. Names of things
that are no nodes do not matter, and `IsTree.congr` says so.
-/

namespace FsXfs.Hierarchy

set_option autoImplicit false

variable {ι ν : Type}

structure Forest (ι ν : Type) where
  node : ι → Prop
  names : ι → ν → ι → Prop
  up : ι → ι

def Reaches (up : ι → ι) (root i : ι) : Prop :=
  ∃ n, up^[n] i = root

structure IsTree (F : Forest ι ν) (root : ι) : Prop where
  root_node : F.node root
  root_up : F.up root = root
  root_unnamed : ∀ p n, F.node p → ¬F.names p n root
  up_node : ∀ i, F.node i → F.node (F.up i)
  named : ∀ i, F.node i → i ≠ root → ∃ n, F.names (F.up i) n i
  once : ∀ i, F.node i → ∀ p n, F.node p → F.names p n i → p = F.up i
  once_name : ∀ i, F.node i → ∀ p n n', F.node p → F.names p n i → F.names p n' i → n = n'
  reaches : ∀ i, F.node i → Reaches F.up root i

/-! ## Pointer chains -/

section

variable {up up' : ι → ι} {root i j : ι}

theorem iterate_induction {P : ι → Prop} (hstep : ∀ i, P i → P (up i)) (hi : P i) (n : ℕ) :
    P (up^[n] i) := by
  induction n with
  | zero => exact hi
  | succ n ih =>
    rw [Function.iterate_succ_apply']
    exact hstep _ ih

theorem Reaches.step (h : Reaches up root (up i)) : Reaches up root i := by
  obtain ⟨n, hn⟩ := h
  exact ⟨n + 1, hn⟩

theorem Reaches.congr (h : Reaches up root i)
    (hup : ∀ n, up^[n] i ≠ root → up' (up^[n] i) = up (up^[n] i) ∨ Reaches up' root (up^[n] i)) :
    Reaches up' root i := by
  obtain ⟨n, hn⟩ := h
  induction n generalizing i with
  | zero => exact ⟨0, hn⟩
  | succ n ih =>
    by_cases hroot : i = root
    · exact ⟨0, hroot⟩
    rcases hup 0 hroot with hsame | hdone
    · have hnext := @ih (up i) (fun k => hup (k + 1)) hn
      refine Reaches.step ?_
      rw [show up' i = up i from hsame]
      exact hnext
    · exact hdone

theorem iterate_ne_self (hroot : up root = root) (h : Reaches up root i) (hne : i ≠ root) {n : ℕ}
    (hn : 0 < n) : up^[n] i ≠ i := by
  intro hcycle
  obtain ⟨m, hm⟩ := h
  have hfix : ∀ k, up^[k] root = root := fun k => Function.iterate_fixed hroot k
  have hround : ∀ k, up^[n * k] i = i := by
    intro k
    rw [Function.iterate_mul]
    exact Function.iterate_fixed hcycle k
  have hlast : up^[n * m] i = root := by
    obtain ⟨k, hk⟩ : ∃ k, n * m = k + m := ⟨n * m - m, by
      have := Nat.le_mul_of_pos_left m hn
      omega⟩
    rw [hk, Function.iterate_add_apply, hm, hfix]
  exact hne ((hround m).symm.trans hlast)

end

/-! ## Changes that keep a tree -/

section

variable {F F' : Forest ι ν} {root : ι}

theorem IsTree.congr (h : IsTree F root) (hnode : ∀ i, F'.node i ↔ F.node i)
    (hup : ∀ i, F.node i → F'.up i = F.up i)
    (hnames : ∀ p n i, F.node p → F.node i → (F'.names p n i ↔ F.names p n i)) :
    IsTree F' root where
  root_node := (hnode root).mpr h.root_node
  root_up := by rw [hup root h.root_node, h.root_up]
  root_unnamed p n hp := by
    rw [hnames p n root ((hnode p).mp hp) h.root_node]
    exact h.root_unnamed p n ((hnode p).mp hp)
  up_node i hi := by
    have hi := (hnode i).mp hi
    rw [hup i hi]
    exact (hnode _).mpr (h.up_node i hi)
  named i hi hne := by
    have hi := (hnode i).mp hi
    obtain ⟨n, hn⟩ := h.named i hi hne
    refine ⟨n, ?_⟩
    rw [hup i hi]
    exact (hnames _ n i (h.up_node i hi) hi).mpr hn
  once i hi p n hp hn := by
    have hi := (hnode i).mp hi
    have hp := (hnode p).mp hp
    rw [hup i hi]
    exact h.once i hi p n hp ((hnames p n i hp hi).mp hn)
  once_name i hi p n n' hp hn hn' := by
    have hi := (hnode i).mp hi
    have hp := (hnode p).mp hp
    exact h.once_name i hi p n n' hp ((hnames p n i hp hi).mp hn) ((hnames p n' i hp hi).mp hn')
  reaches i hi := by
    have hi := (hnode i).mp hi
    exact (h.reaches i hi).congr fun n _ => .inl (hup _ (iterate_induction h.up_node hi n))

theorem IsTree.add (h : IsTree F root) (child parent : ι) (name : ν) (hparent : F.node parent)
    (hfresh : ¬F.node child) (hnode : ∀ i, F'.node i ↔ F.node i ∨ i = child)
    (hup : ∀ i, F.node i → F'.up i = F.up i) (hchild : F'.up child = parent)
    (hnames : ∀ p n i, F.node p → F.node i → (F'.names p n i ↔ F.names p n i))
    (hnew : ∀ p n, F.node p → (F'.names p n child ↔ p = parent ∧ n = name))
    (hempty : ∀ n i, F'.node i → ¬F'.names child n i) : IsTree F' root := by
  have hold : ∀ i, F.node i → F'.node i := fun i hi => (hnode i).mpr (.inl hi)
  have hreach : ∀ i, F.node i → Reaches F'.up root i := by
    intro i hi
    exact (h.reaches i hi).congr fun n _ => .inl (hup _ (iterate_induction h.up_node hi n))
  refine ⟨hold _ h.root_node, ?_, ?_, ?_, ?_, ?_, ?_, ?_⟩
  · rw [hup root h.root_node, h.root_up]
  · intro p n hp hn
    rcases (hnode p).mp hp with hp | rfl
    · exact h.root_unnamed p n hp ((hnames p n root hp h.root_node).mp hn)
    · exact hempty n root (hold _ h.root_node) hn
  · intro i hi
    rcases (hnode i).mp hi with hi | rfl
    · rw [hup i hi]
      exact hold _ (h.up_node i hi)
    · rw [hchild]
      exact hold _ hparent
  · intro i hi hroot
    rcases (hnode i).mp hi with hi | rfl
    · obtain ⟨n, hn⟩ := h.named i hi hroot
      refine ⟨n, ?_⟩
      rw [hup i hi]
      exact (hnames _ n i (h.up_node i hi) hi).mpr hn
    · refine ⟨name, ?_⟩
      rw [hchild]
      exact (hnew parent name hparent).mpr ⟨rfl, rfl⟩
  · intro i hi p n hp hn
    rcases (hnode p).mp hp with hp' | rfl
    · rcases (hnode i).mp hi with hi | rfl
      · rw [hup i hi]
        exact h.once i hi p n hp' ((hnames p n i hp' hi).mp hn)
      · rw [hchild]
        exact ((hnew p n hp').mp hn).1
    · exact absurd hn (hempty n i hi)
  · intro i hi p n n' hp hn hn'
    rcases (hnode p).mp hp with hp' | rfl
    · rcases (hnode i).mp hi with hi | rfl
      · exact h.once_name i hi p n n' hp' ((hnames p n i hp' hi).mp hn)
          ((hnames p n' i hp' hi).mp hn')
      · exact ((hnew p n hp').mp hn).2.trans ((hnew p n' hp').mp hn').2.symm
    · exact absurd hn (hempty n i hi)
  · intro i hi
    rcases (hnode i).mp hi with hi | rfl
    · exact hreach i hi
    · exact Reaches.step (hchild ▸ hreach parent hparent)

theorem IsTree.drop (h : IsTree F root) {gone : ι} (hroot : gone ≠ root)
    (hempty : ∀ n i, F.node i → ¬F.names gone n i)
    (hnode : ∀ i, F'.node i ↔ F.node i ∧ i ≠ gone) (hup : ∀ i, F'.node i → F'.up i = F.up i)
    (hnames : ∀ p n i, F'.node p → F'.node i → (F'.names p n i ↔ F.names p n i)) :
    IsTree F' root := by
  have hrootNode : F'.node root := (hnode root).mpr ⟨h.root_node, hroot.symm⟩
  have habove : ∀ i, F'.node i → F'.node (F.up i) := by
    intro i hi
    obtain ⟨hi, hne⟩ := (hnode i).mp hi
    refine (hnode _).mpr ⟨h.up_node i hi, fun heq => ?_⟩
    by_cases hir : i = root
    · subst hir
      exact hroot (heq.symm.trans h.root_up)
    · obtain ⟨n, hn⟩ := h.named i hi hir
      exact hempty n i hi (heq ▸ hn)
  refine ⟨hrootNode, ?_, ?_, ?_, ?_, ?_, ?_, ?_⟩
  · rw [hup root hrootNode, h.root_up]
  · intro p n hp hn
    exact h.root_unnamed p n ((hnode p).mp hp).1 ((hnames p n root hp hrootNode).mp hn)
  · intro i hi
    rw [hup i hi]
    exact habove i hi
  · intro i hi hir
    obtain ⟨n, hn⟩ := h.named i ((hnode i).mp hi).1 hir
    refine ⟨n, ?_⟩
    rw [hup i hi]
    exact (hnames _ n i (habove i hi) hi).mpr hn
  · intro i hi p n hp hn
    rw [hup i hi]
    exact h.once i ((hnode i).mp hi).1 p n ((hnode p).mp hp).1 ((hnames p n i hp hi).mp hn)
  · intro i hi p n n' hp hn hn'
    exact h.once_name i ((hnode i).mp hi).1 p n n' ((hnode p).mp hp).1
      ((hnames p n i hp hi).mp hn) ((hnames p n' i hp hi).mp hn')
  · intro i hi
    exact (h.reaches i ((hnode i).mp hi).1).congr fun n _ =>
      .inl (hup _ (iterate_induction habove hi n))

theorem IsTree.move (h : IsTree F root) (moved parent : ι) (name : ν) (hmoved : F.node moved)
    (hroot : moved ≠ root) (hparent : F.node parent) (hbelow : ∀ n, F.up^[n] parent ≠ moved)
    (hnode : ∀ i, F'.node i ↔ F.node i) (hup : ∀ i, F.node i → i ≠ moved → F'.up i = F.up i)
    (hthere : F'.up moved = parent)
    (hnames : ∀ p n i, F.node p → F.node i → i ≠ moved → (F'.names p n i ↔ F.names p n i))
    (hnew : ∀ p n, F.node p → (F'.names p n moved ↔ p = parent ∧ n = name)) : IsTree F' root := by
  have hchain : ∀ i, F.node i → ∀ n, F.node (F.up^[n] i) := fun i hi =>
    iterate_induction h.up_node hi
  have hparentUp : Reaches F'.up root parent :=
    (h.reaches parent hparent).congr fun n _ => .inl (hup _ (hchain parent hparent n) (hbelow n))
  have hmovedUp : Reaches F'.up root moved := Reaches.step (hthere ▸ hparentUp)
  refine ⟨(hnode root).mpr h.root_node, ?_, ?_, ?_, ?_, ?_, ?_, ?_⟩
  · rw [hup root h.root_node hroot.symm, h.root_up]
  · intro p n hp hn
    have hp := (hnode p).mp hp
    exact h.root_unnamed p n hp ((hnames p n root hp h.root_node hroot.symm).mp hn)
  · intro i hi
    have hi := (hnode i).mp hi
    by_cases him : i = moved
    · rw [him, hthere]
      exact (hnode _).mpr hparent
    · rw [hup i hi him]
      exact (hnode _).mpr (h.up_node i hi)
  · intro i hi hir
    have hi := (hnode i).mp hi
    by_cases him : i = moved
    · subst him
      refine ⟨name, ?_⟩
      rw [hthere]
      exact (hnew parent name hparent).mpr ⟨rfl, rfl⟩
    · obtain ⟨n, hn⟩ := h.named i hi hir
      refine ⟨n, ?_⟩
      rw [hup i hi him]
      exact (hnames _ n i (h.up_node i hi) hi him).mpr hn
  · intro i hi p n hp hn
    have hi := (hnode i).mp hi
    have hp := (hnode p).mp hp
    by_cases him : i = moved
    · subst him
      rw [hthere]
      exact ((hnew p n hp).mp hn).1
    · rw [hup i hi him]
      exact h.once i hi p n hp ((hnames p n i hp hi him).mp hn)
  · intro i hi p n n' hp hn hn'
    have hi := (hnode i).mp hi
    have hp := (hnode p).mp hp
    by_cases him : i = moved
    · subst him
      exact ((hnew p n hp).mp hn).2.trans ((hnew p n' hp).mp hn').2.symm
    · exact h.once_name i hi p n n' hp ((hnames p n i hp hi him).mp hn)
        ((hnames p n' i hp hi him).mp hn')
  · intro i hi
    have hi := (hnode i).mp hi
    refine (h.reaches i hi).congr fun n _ => ?_
    by_cases him : F.up^[n] i = moved
    · exact .inr (him ▸ hmovedUp)
    · exact .inl (hup _ (hchain i hi n) him)

end

end FsXfs.Hierarchy
