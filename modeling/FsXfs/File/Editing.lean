import FsXfs.File.BlockMap
import FsXfs.File.WriteAlloc

/-!
# The groups of an operation that frees and takes

An exchange gives back the blocks of the trees it replaces and takes blocks for the new ones, moving
reverse-mapping records in between. `Edited` says what its groups hold of free space at any point:
what they had, with what was given back and without what was taken.
-/

namespace FsXfs.File

open FsXfs.Group

set_option autoImplicit false

namespace Volume

/-- The free space and reference counts of the groups opened, after `given` was given back and
`taken` was taken, each block with its group. -/
structure Edited (v : Volume) (given taken : List (ℕ × ℕ)) (groups : Groups) : Prop where
  opened : ∀ agno ed, groups.lookup agno = some ed →
    ∃ group, openGroup v.crc32c v.sb v.device agno = .ok group ∧
      FreeRuns 0 (2 ^ 32 - 1) ed.byBlock ∧ ed.refcount = group.refcount ∧
      ∀ b, Free ed.byBlock b ↔
        (Free group.byBlock b ∨ (agno, b) ∈ given) ∧ (agno, b) ∉ taken
  closed : ∀ p, p ∈ given ∨ p ∈ taken → (groups.lookup p.1).isSome

theorem edited_nil (v : Volume) : Edited v [] [] [] where
  opened := by simp
  closed := by simp

section

variable {v : Volume} {given taken : List (ℕ × ℕ)} {groups : Groups} {agno : ℕ}
  {ed ed' : GroupAlloc}

section

variable (h : Edited v given taken groups) (hgroup : v.groupFor groups agno = .ok ed)

include h hgroup

theorem Edited.group :
    ∃ group, openGroup v.crc32c v.sb v.device agno = .ok group ∧
      FreeRuns 0 (2 ^ 32 - 1) ed.byBlock ∧ ed.refcount = group.refcount ∧
      ∀ b, Free ed.byBlock b ↔
        (Free group.byBlock b ∨ (agno, b) ∈ given) ∧ (agno, b) ∉ taken := by
  unfold groupFor at hgroup
  split at hgroup
  next open_ hsome => exact h.opened agno ed (Except.ok.inj hgroup ▸ hsome)
  next hnone =>
    have hclosed : ∀ b, (agno, b) ∉ given ∧ (agno, b) ∉ taken := by
      intro b
      have hopen := h.closed (agno, b)
      rw [hnone] at hopen
      simpa using hopen
    have hruns := ((openGroup_spec hgroup).editor v.accepted.agblocks_lt).runs
    refine ⟨ed, hgroup, hruns, rfl, fun b => ?_⟩
    simp [hclosed b]

theorem Edited.put {given' taken' : List (ℕ × ℕ)} (hruns : FreeRuns 0 (2 ^ 32 - 1) ed'.byBlock)
    (hcounts : ed'.refcount = ed.refcount)
    (hother : ∀ p : ℕ × ℕ, p.1 ≠ agno → (p ∈ given' ↔ p ∈ given) ∧ (p ∈ taken' ↔ p ∈ taken))
    (hfree : ∀ b group, openGroup v.crc32c v.sb v.device agno = .ok group →
      (Free ed.byBlock b ↔ (Free group.byBlock b ∨ (agno, b) ∈ given) ∧ (agno, b) ∉ taken) →
      (Free ed'.byBlock b ↔ (Free group.byBlock b ∨ (agno, b) ∈ given') ∧ (agno, b) ∉ taken')) :
    Edited v given' taken' (groups.put agno ed') where
  opened := by
    intro k ed'' hk
    rw [Groups.lookup_put] at hk
    split at hk
    next heq =>
      subst heq
      cases hk
      obtain ⟨group, hopen, -, hcount, hiff⟩ := h.group hgroup
      exact ⟨group, hopen, hruns, hcounts.trans hcount, fun b => hfree b group hopen (hiff b)⟩
    next hne =>
      obtain ⟨group, hopen, hruns', hcount, hiff⟩ := h.opened k ed'' hk
      refine ⟨group, hopen, hruns', hcount, fun b => ?_⟩
      obtain ⟨hg, ht⟩ := hother (k, b) hne
      rw [hg, ht, hiff b]
  closed := by
    intro p hp
    rw [Groups.lookup_put]
    split
    · rfl
    next hne =>
      obtain ⟨hg, ht⟩ := hother p hne
      rw [hg, ht] at hp
      exact h.closed p hp

theorem Edited.edit (hfree : ed'.byBlock = ed.byBlock) (hcounts : ed'.refcount = ed.refcount) :
    Edited v given taken (groups.put agno ed') := by
  obtain ⟨-, -, hruns, -⟩ := h.group hgroup
  refine h.put hgroup (hfree ▸ hruns) hcounts (fun _ _ => ⟨Iff.rfl, Iff.rfl⟩) fun b group _ hiff => ?_
  rw [hfree]
  exact hiff

theorem Edited.give {b : ℕ} (hb : b + 1 < 2 ^ 32) (hnew : (agno, b) ∉ taken)
    (hgive : Group.freeExtent ed.byBlock ⟨b, 1⟩ = .ok ed'.byBlock)
    (hcounts : ed'.refcount = ed.refcount) :
    Edited v (given ++ [(agno, b)]) taken (groups.put agno ed') := by
  obtain ⟨-, -, hruns, -⟩ := h.group hgroup
  have hend : (⟨b, 1⟩ : FreeExtent).end_ ≤ 2 ^ 32 - 1 := by
    simp only [FreeExtent.end_]
    omega
  refine h.put hgroup (hruns.giveBack (by decide) hend hgive (Nat.zero_le _)) hcounts
    (fun p hp => ⟨?_, Iff.rfl⟩) fun n group _ hiff => ?_
  · rw [List.mem_append, List.mem_singleton]
    exact or_iff_left fun heq => hp (congrArg Prod.fst heq)
  · rw [free_freeExtent hruns (by decide) hend hgive, hiff, List.mem_append, List.mem_singleton,
      Prod.mk.injEq]
    have hone : (⟨b, 1⟩ : FreeExtent).Holds n ↔ n = b := by
      simp only [FreeExtent.Holds, FreeExtent.end_]
      omega
    rw [hone]
    constructor
    · rintro (⟨hfree, hnot⟩ | rfl)
      · exact ⟨by tauto, hnot⟩
      · exact ⟨.inr (.inr ⟨rfl, rfl⟩), hnew⟩
    · rintro ⟨hfree | hfree | ⟨-, rfl⟩, hnot⟩
      · exact .inl ⟨.inl hfree, hnot⟩
      · exact .inl ⟨.inr hfree, hnot⟩
      · exact .inr rfl

theorem Edited.take {run : FreeExtent} (hone : run.blockcount = 1)
    (hcounts : ed'.refcount = ed.refcount) (halloc : allocExtent ed.byBlock run = .ok ed'.byBlock) :
    (v.FreeAt agno run.startblock ∨ (agno, run.startblock) ∈ given) ∧
      (agno, run.startblock) ∉ taken ∧
      Edited v given (taken ++ [(agno, run.startblock)]) (groups.put agno ed') := by
  obtain ⟨group, hopen, hruns, -, hiff⟩ := h.group hgroup
  have hholds : ∀ n, run.Holds n ↔ n = run.startblock := by
    intro n
    simp only [FreeExtent.Holds, FreeExtent.end_, hone]
    omega
  obtain ⟨hfree, hnot⟩ := (hiff run.startblock).mp
    (free_of_allocExtent halloc ((hholds run.startblock).mpr rfl))
  refine ⟨hfree.imp_left fun hfree => ⟨group, hopen, hfree⟩, hnot, ?_⟩
  refine h.put hgroup (hruns.alloc halloc) hcounts (fun p hp => ⟨Iff.rfl, ?_⟩)
    fun n group _ hiff => ?_
  · rw [List.mem_append, List.mem_singleton]
    exact or_iff_left fun heq => hp (congrArg Prod.fst heq)
  · rw [free_allocExtent hruns halloc, hiff, hholds, List.mem_append, List.mem_singleton,
      Prod.mk.injEq, not_or, and_assoc]
    refine and_congr_right fun _ => and_congr_right fun _ => ?_
    simp

end

end

/-! ## Reverse-mapping records -/

variable {ed' ed : GroupAlloc} {record : Rmap}

theorem putRmap_same (h : ed.putRmap record = .ok ed') :
    ed'.byBlock = ed.byBlock ∧ ed'.refcount = ed.refcount := by
  rcases putRmap_spec h with ⟨-, rfl⟩ | ⟨_, _, _, -, -, rfl⟩
  · exact ⟨rfl, rfl⟩
  · exact ⟨rfl, rfl⟩

theorem forgetRmap_same (h : ed.forgetRmap record = .ok ed') :
    ed'.byBlock = ed.byBlock ∧ ed'.refcount = ed.refcount := by
  unfold GroupAlloc.forgetRmap at h
  split at h
  next => exact Except.ok.inj h ▸ ⟨rfl, rfl⟩
  next =>
    obtain ⟨_, -, h⟩ := bind_eq_ok.mp h
    exact Except.ok.inj h ▸ ⟨rfl, rfl⟩

theorem rememberMovedRmap_same
    (h : ed.rememberMovedRmap record = .ok ed') :
    ed'.byBlock = ed.byBlock ∧ ed'.refcount = ed.refcount := by
  unfold GroupAlloc.rememberMovedRmap at h
  split at h
  · exact putRmap_same h
  · split at h
    next => exact Except.ok.inj h ▸ ⟨rfl, rfl⟩
    next =>
      obtain ⟨_, -, h⟩ := bind_eq_ok.mp h
      exact Except.ok.inj h ▸ ⟨rfl, rfl⟩

/-! ## Trees -/

section

variable {v : Volume} {given taken : List (ℕ × ℕ)} {groups groups' : Groups} {ino agno : ℕ}

theorem giveTreeBack_edited {blocks : List ℕ} (h : Edited v given taken groups)
    (hfit : ∀ x ∈ blocks, (v.sb.splitFsblock x).2 + 1 < 2 ^ 32)
    (hnew : ∀ x ∈ blocks, v.sb.splitFsblock x ∉ taken)
    (hgive : v.giveTreeBack ino groups blocks = .ok groups') :
    Edited v (given ++ blocks.map v.sb.splitFsblock) taken groups' := by
  induction blocks generalizing given groups with
  | nil =>
    cases hgive
    simpa using h
  | cons x blocks ih =>
    obtain ⟨mid, hmid, hgive⟩ := bind_eq_ok.mp hgive
    obtain ⟨ed, hgroup, hmid⟩ := bind_eq_ok.mp hmid
    obtain ⟨ed1, hforget, hmid⟩ := bind_eq_ok.mp hmid
    obtain ⟨ed2, hback, hmid⟩ := bind_eq_ok.mp hmid
    cases hmid
    obtain ⟨free, hfree, hback⟩ := bind_eq_ok.mp hback
    cases hback
    obtain ⟨hsame, hcounts⟩ := forgetRmap_same hforget
    rw [hsame] at hfree
    have hgiven : Edited v (given ++ [v.sb.splitFsblock x]) taken
        (groups.put (v.sb.splitFsblock x).1 { ed1 with byBlock := free, took := true }) :=
      h.give hgroup (hfit x List.mem_cons_self) (hnew x List.mem_cons_self) hfree hcounts
    have hrest := ih hgiven (fun y hy => hfit y (List.mem_cons_of_mem _ hy))
      (fun y hy => hnew y (List.mem_cons_of_mem _ hy)) hgive
    rw [List.map_cons, List.append_cons]
    exact hrest

theorem takeTree_edited {n : ℕ} {fsblocks : List ℕ} (h : Edited v given taken groups)
    (htake : v.takeTree ino agno n groups = .ok (groups', fsblocks)) :
    ∃ bs : List ℕ, fsblocks = bs.map (packBlock v.sb agno) ∧ bs.length = n ∧ bs.Nodup ∧
      (∀ b ∈ bs, (v.FreeAt agno b ∨ (agno, b) ∈ given) ∧ (agno, b) ∉ taken) ∧
      Edited v given (taken ++ bs.map fun b => (agno, b)) groups' := by
  induction n generalizing taken groups fsblocks with
  | zero =>
    cases htake
    exact ⟨[], rfl, rfl, .nil, by simp, by simpa using h⟩
  | succ n ih =>
    obtain ⟨ed, hgroup, htake⟩ := bind_eq_ok.mp htake
    obtain ⟨⟨ed', run⟩, hrun, htake⟩ := bind_eq_ok.mp htake
    obtain ⟨⟨groups1, rest⟩, hrest, htake⟩ := bind_eq_ok.mp htake
    cases htake
    obtain ⟨hone, halloc⟩ := takeAligned_alloc hrun
    have hcounts : ed'.refcount = ed.refcount := by
      obtain ⟨start, -, hrun⟩ := takeAligned_eq_ok hrun
      obtain ⟨free, -, hrun⟩ := bind_eq_ok.mp hrun
      obtain ⟨mid, hput, hrun⟩ := bind_eq_ok.mp hrun
      obtain ⟨rfl, -⟩ := Prod.mk.inj (Except.ok.inj hrun)
      exact (putRmap_same hput).2
    obtain ⟨hfree, hnot, hnext⟩ := h.take hgroup hone hcounts halloc
    obtain ⟨bs, rfl, hlen, hnodup, hall, hedited⟩ := ih hnext hrest
    refine ⟨run.startblock :: bs, rfl, by rw [List.length_cons, hlen],
      List.nodup_cons.mpr ⟨fun hmem => ?_, hnodup⟩, ?_, by simpa [List.append_assoc] using hedited⟩
    · exact (hall _ hmem).2 (by simp)
    · refine List.forall_mem_cons.mpr ⟨⟨hfree, hnot⟩, fun b hb => ?_⟩
      obtain ⟨hfree', hnot'⟩ := hall b hb
      exact ⟨hfree', fun hmem => hnot' (List.mem_append_left _ hmem)⟩

end

end Volume

end FsXfs.File
