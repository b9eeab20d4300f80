import FsXfs.Names.Relinking
import FsXfs.Names.Tree
import Mathlib.Logic.Relation

/-!
# Link counts

The operations compute their counts by deltas, each in its own module. Over a volume whose directories
are a tree the deltas add up: `Counted` says that every count is the number of links, and that exactly
the inodes with none are free, and `steps_counted` that a run of operations keeps it.
-/

namespace FsXfs.Names

open Hierarchy

set_option autoImplicit false

/-! ## The links one inode makes -/

theorem naming_append (l l' : List Entry) (i : ℕ) : naming (l ++ l') i = naming l i + naming l' i := by
  simp [naming]

@[simp] theorem naming_nil (i : ℕ) : naming [] i = 0 := rfl

@[simp] theorem naming_singleton (e : Entry) (i : ℕ) :
    naming [e] i = if e.ino = i then 1 else 0 := by
  simp [naming_cons]

variable {d : ℕ} {core : Core}

theorem weight_of_file (h : core.isDir = false) (i : ℕ) : weight d core i = 0 := by
  simp [weight, h]

theorem weight_of_empty (h : core.isDir = true)
    (hempty : core.names.entries = []) (i : ℕ) :
    weight d core i = (if core.names.parent = i then 1 else 0) + if d = i then 1 else 0 := by
  simp [weight, h, hempty]

theorem weight_self_pos (h : core.isDir = true) : 0 < weight d core d := by
  rw [weight, if_pos h, if_pos rfl]
  omega

theorem weight_traded {old new : Core} {out in_ : List Entry} (hdir : old.isDir = true)
    (hmode : new.mode = old.mode) (h : Traded old.names.entries new.names.entries out in_) (i : ℕ) :
    weight d new i + naming out i + (if old.names.parent = i then 1 else 0) =
      weight d old i + naming in_ i + if new.names.parent = i then 1 else 0 := by
  obtain ⟨rest, hout, hin⟩ := h
  have hold : naming old.names.entries i = naming out i + naming rest i := by
    rw [naming_perm hout, naming_append]
  have hnew : naming new.names.entries i = naming in_ i + naming rest i := by
    rw [naming_perm hin, naming_append]
  have hdir' : new.isDir = true := by
    unfold Core.isDir at hdir ⊢
    rw [hmode]
    exact hdir
  rw [weight, weight, if_pos hdir, if_pos hdir', hold, hnew]
  omega

namespace State

/-- Every count is the number of links, those from outside the directories included, and the inodes
without one are those marked free. -/
structure Counted (outside : ℕ → ℕ) (s : State) : Prop where
  counts : ∀ i ∈ s.inos, (s.core i).nlink = s.links i + outside i
  free : ∀ i ∈ s.inos, ((s.slot i).free = true ↔ (s.core i).nlink = 0)
  dirs : ∀ d, s.IsDir d → outside d = 0
  live : ∀ i, i ∉ s.inos → s.links i = 0 ∧ outside i = 0

section

variable {s s' : State}

theorem links_pos_of_isDir {d : ℕ} (hd : s.IsDir d) : 0 < s.links d :=
  lt_of_lt_of_le (weight_self_pos hd.2) (weight_le_links hd.1)

theorem Relinked.links {p i : ℕ} {change : Core} {slot : Slot} {out in_ : List Entry}
    (h : Relinked s s' p i change slot out in_) (k : ℕ) :
    s'.links k + naming out k + weight i (s.core i) k =
      s.links k + naming in_ k + weight i slot.core k := by
  have hdir := @links_put s p k { s.slot p with core := change } h.dir.1
  have hinode := @links_put (s.setCore p change) i k slot h.mem
  have htraded := @weight_traded p (s.core p) change out in_ h.dir.2 h.mode h.entries k
  rw [h.parent] at htraded
  rw [setCore_core_of_ne h.ne, ← h.eq] at hinode
  change (s.setCore p change).links k + _ = _ + weight p change k at hdir
  omega

end

section

variable {outside : ℕ → ℕ} {root : ℕ} {s s' : State} (hc : Counted outside s)

include hc

variable {name : List UInt8} {ino : ℕ} {sb : Superblock}

theorem Counted.mem_of_has {d i : ℕ} (hd : s.IsDir d) (h : s.Has d name i) : i ∈ s.inos := by
  by_contra hnot
  have hpos := links_pos_of_has hd h
  rw [(hc.live i hnot).1] at hpos
  exact lt_irrefl 0 hpos

theorem Counted.unnamed_of_free {i : ℕ} (hi : i ∈ s.inos) (hfree : (s.slot i).free = true) :
    s.links i = 0 ∧ outside i = 0 := by
  have hcount := hc.counts i hi
  rw [(hc.free i hi).mp hfree] at hcount
  omega

theorem Counted.namesUsed : s.NamesUsed := by
  intro p name i hp hhas
  have hmem := hc.mem_of_has hp hhas
  refine ⟨hmem, ?_⟩
  by_contra hfree
  have hpos := links_pos_of_has hp hhas
  rw [(hc.unnamed_of_free hmem (Bool.eq_true_of_not_eq_false hfree)).1] at hpos
  exact lt_irrefl 0 hpos

/-! ## A directory and the inode its entry names -/

theorem Relinked.counted {p i : ℕ} {change : Core} {slot : Slot} {out in_ : List Entry}
    (h : Relinked s s' p i change slot out in_)
    (hp : change.nlink + naming out p + weight i (s.core i) p =
      (s.core p).nlink + naming in_ p + weight i slot.core p)
    (hi : slot.core.nlink + naming out i + weight i (s.core i) i =
      (s.core i).nlink + naming in_ i + weight i slot.core i)
    (hrest : ∀ k, k ≠ p → k ≠ i →
      naming out k + weight i (s.core i) k = naming in_ k + weight i slot.core k)
    (hfree : slot.free = true ↔ slot.core.nlink = 0)
    (hdir : slot.core.isDir = true → outside i = 0) : Counted outside s' := by
  have hcounts : ∀ k ∈ s'.inos, (s'.core k).nlink = s'.links k + outside k := by
    intro k hk
    have hlinks := h.links k
    have hcount := hc.counts k (h.inos ▸ hk)
    by_cases hkp : k = p
    · subst hkp
      rw [h.core_dir]
      omega
    · by_cases hki : k = i
      · subst hki
        rw [h.core_self]
        omega
      · have := hrest k hkp hki
        rw [h.core_of_ne hkp hki]
        omega
  refine ⟨hcounts, fun k hk => ?_, fun d hd => ?_, fun k hk => ?_⟩
  · by_cases hki : k = i
    · subst hki
      unfold State.core
      rw [h.slot_self]
      exact hfree
    · rw [h.free_of_ne hki]
      have hold := hc.free k (h.inos ▸ hk)
      by_cases hkp : k = p
      · -- a directory has its own `.`
        subst hkp
        have hwas := hc.counts k h.dir.1
        have hnow := hcounts k hk
        have hposWas := links_pos_of_isDir h.dir
        have hposNow := links_pos_of_isDir ((h.isDir_of_ne hki).mpr h.dir)
        exact iff_of_false (fun heq => by have := hold.mp heq; omega) (by omega)
      · rw [h.core_of_ne hkp hki]
        exact hold
  · by_cases hdi : d = i
    · subst hdi
      have hcore : (s'.core d).isDir = true := hd.2
      rw [h.core_self] at hcore
      exact hdir hcore
    · exact hc.dirs d ((h.isDir_of_ne hdi).mp hd)
  · rw [h.inos] at hk
    have hkp : k ≠ p := fun heq => hk (heq ▸ h.dir.1)
    have hki : k ≠ i := fun heq => hk (heq ▸ h.mem)
    have hlive := hc.live k hk
    have hlinks := h.links k
    have := hrest k hkp hki
    exact ⟨by omega, hlive.2⟩

/-! ## Create, link, remove -/

omit hc in
theorem Taken.links (h : Taken s s' ino) (i : ℕ) : s'.links i = s.links i := by
  unfold State.links
  rw [← Finset.sum_subset h.sub fun k hk hnew => ?_]
  · exact Finset.sum_congr rfl fun k hk => by rw [h.core_eq hk]
  · rw [core, h.new k hk hnew]
    exact weight_of_file (by decide) i

theorem Taken.counted (h : Taken s s' ino) : Counted outside s' := by
  refine ⟨fun k hk => ?_, fun k hk => ?_, fun d hd => hc.dirs d (h.isDir_iff.mp hd), fun k hk => ?_⟩
  · rw [h.links]
    by_cases hold : k ∈ s.inos
    · rw [h.core_eq hold]
      exact hc.counts k hold
    · obtain ⟨hlinks, hout⟩ := hc.live k hold
      unfold core
      rw [h.new k hk hold, hlinks, hout]
      rfl
  · by_cases hold : k ∈ s.inos
    · unfold core
      rw [h.old k hold]
      exact hc.free k hold
    · unfold core
      rw [h.new k hk hold]
      exact iff_of_true rfl rfl
  · rw [h.links]
    exact hc.live k fun hold => hk (h.sub hold)

theorem create_counted {answers : Answers s} {parent mode : ℕ}
    {name target : List UInt8} {kind : Kind} (hs : WellNamed root s)
    (hroom : kind = .directory → (s.core parent).nlink + 1 < 2 ^ 32)
    (h : s.create answers sb parent name mode kind target = .ok s') :
    WellNamed root s' ∧ Counted outside s' := by
  obtain ⟨mid, ino, change, new, -, -, htaken, hp, hfresh, hnlink, hdir, hnew, hnames, hre⟩ :=
    create_relinked h
  refine ⟨create_wellNamed hs (Counted.namesUsed hc) h, ?_⟩
  have hcMid := Taken.counted hc htaken
  obtain ⟨-, hout⟩ := hcMid.unnamed_of_free htaken.mem htaken.free
  have hzero := (hcMid.free ino htaken.mem).mp htaken.free
  have hold := @weight_of_file ino _ htaken.file
  have hne := hre.ne
  have hparent := htaken.core_eq hp.1
  by_cases hkind : kind = .directory
  · subst hkind
    have hisDir : new.isDir = true := hdir.mpr rfl
    have hnames : new.names = ⟨parent, []⟩ := hnames
    have hweight := @weight_of_empty ino new hisDir (by rw [hnames])
    simp only [hnames] at hweight
    refine Relinked.counted hcMid hre ?_ ?_ (fun k hkp hki => ?_) ?_ fun _ => hout
    · rw [hold, hweight, hparent, hnlink]
      simp only [naming_nil, naming_singleton, if_neg hne, if_true, parentNlink]
      rw [Nat.mod_eq_of_lt (hroom rfl)]
    · rw [hold, hweight, hzero]
      simp [hnew, hne.symm, Kind.nlink]
    · rw [hold, hweight]
      simp [hkp.symm, hki.symm]
    · simp [hnew, Kind.nlink]
  · have hfile : new.isDir = false := by
      rw [← Bool.not_eq_true, hdir]
      exact hkind
    have hone : new.nlink = 1 := by
      rw [hnew]
      cases kind with
      | file => rfl
      | symlink => rfl
      | directory => exact absurd rfl hkind
    have hsame : change.nlink = (s.core parent).nlink := by
      rw [hnlink]
      cases kind with
      | file => rfl
      | symlink => rfl
      | directory => exact absurd rfl hkind
    have hweight := @weight_of_file ino new hfile
    refine Relinked.counted hcMid hre ?_ ?_ (fun k hkp hki => ?_) ?_ fun _ => hout
    · rw [hold, hweight, hparent, hsame]
      simp [hne]
    · rw [hold, hweight, hzero]
      simp [hone]
    · rw [hold, hweight]
      simp [hki.symm]
    · simp [hone]

theorem link_counted {answers : Answers s} {ino dirIno : ℕ}
    (hs : WellNamed root s) (h : s.link answers sb ino dirIno name = .ok s') :
    WellNamed root s' ∧ Counted outside s' := by
  obtain ⟨hfile, hused, -, change, hnlink, hre⟩ := link_relinked h
  have hold := @weight_of_file ino _ hfile
  have hnew := @weight_of_file ino { s.core ino with nlink := (s.core ino).nlink + 1 } hfile
  have hfree := hc.free ino hre.mem
  refine ⟨link_wellNamed hs h, ?_⟩
  refine Relinked.counted hc hre ?_ ?_ (fun k hkp hki => ?_) ?_ fun hdir => ?_
  · rw [hold, hnew, hnlink]
    simp [hre.ne]
  · rw [hold, hnew]
    simp
  · rw [hold, hnew]
    simp [hki.symm]
  · exact iff_of_false (fun heq => hused (hfree.mp heq)) (Nat.succ_ne_zero _)
  · exact absurd (hfile.symm.trans hdir) Bool.false_ne_true

theorem remove_counted {answers : Answers s} {parent : ℕ}
    {target : Target} (hs : WellNamed root s)
    (h : s.remove answers sb parent name target = .ok s') :
    WellNamed root s' ∧ Counted outside s' := by
  obtain ⟨ino, change, hhas, hkind, hempty, hnlink, hre⟩ := remove_relinked hs h
  have hcount := hc.counts ino hre.mem
  have hfree := hc.free ino hre.mem
  have hpos := links_pos_of_has hre.dir hhas
  have hne := hre.ne
  refine ⟨remove_wellNamed hs h, ?_⟩
  cases target with
  | file =>
    have hfile : (s.core ino).isDir = false := hkind
    have hold := @weight_of_file ino _ hfile
    simp only [reduceCtorEq, false_or, if_false] at hre hnlink
    have hgone := unlinked_file (s.slot ino) hfile
    have hnew := @weight_of_file ino _ (hgone (decide ((s.core ino).nlink ≤ 1)))
    have hleft : (unlinked (decide ((s.core ino).nlink ≤ 1)) (s.slot ino) (s.core ino)).core.nlink + 1 =
        (s.core ino).nlink := by
      by_cases hlast : (s.core ino).nlink ≤ 1
      · simp only [unlinked, hlast, decide_true, if_true, emptied, emptiedCore]
        omega
      · simp only [unlinked, hlast, decide_false]
        simp only [Bool.false_eq_true, if_false]
        omega
    refine Relinked.counted hc hre ?_ ?_ (fun k hkp hki => ?_) ?_ fun hdir => ?_
    · rw [hold, hnew]
      simp [hne]
      omega
    · rw [hold, hnew]
      simp
      omega
    · rw [hold, hnew]
      simp [hki.symm]
    · by_cases hlast : (s.core ino).nlink ≤ 1
      · simp [unlinked, hlast, emptied, emptiedCore]
      · have hnot : (s.slot ino).free ≠ true := fun heq => by
          have := hfree.mp heq
          omega
        simp only [unlinked, hlast, decide_false]
        simp only [Bool.false_eq_true, if_false]
        exact iff_of_false hnot (by omega)
    · exact absurd ((hgone _).symm.trans hdir) Bool.false_ne_true
  | directory =>
    have hdir : (s.core ino).isDir = true := hkind
    obtain ⟨hnone, htwo⟩ := hempty rfl
    simp only [true_or, decide_true, if_true] at hre hnlink
    have hgone : (unlinked true (s.slot ino) (s.core ino)).core.isDir = false :=
      isDir_of_mode_eq_zero rfl
    have hup : (s.core ino).names.parent = parent :=
      (hs.tree.once ino ⟨hre.mem, hdir⟩ parent name hre.dir hhas).symm
    have hold := @weight_of_empty ino _ hdir hnone
    have hnew := @weight_of_file ino _ hgone
    rw [hup] at hold
    refine Relinked.counted hc hre ?_ ?_ (fun k hkp hki => ?_) ?_ fun heq => ?_
    · rw [hold, hnew]
      simp [hne]
      omega
    · rw [hold, hnew, htwo]
      simp [hne.symm, unlinked, emptied, emptiedCore]
    · rw [hold, hnew]
      simp [hkp.symm, hki.symm]
    · simp [unlinked, emptied, emptiedCore]
    · exact absurd (hgone.symm.trans heq) Bool.false_ne_true

end

/-! ## Rename -/

section

variable {outside : ℕ → ℕ} {root : ℕ} {s s' : State} {fromDir toDir moved : ℕ}
  {from_ to_ : List UInt8} {victim : Option ℕ}

def victimLinks (s : State) (toDir i : ℕ) : Option ℕ → ℕ
  | none => 0
  | some v => (if v = i then 1 else 0) +
      if (s.core v).isDir then (if toDir = i then 1 else 0) + if v = i then 1 else 0 else 0

def movedLinks (s : State) (moved d i : ℕ) : ℕ :=
  if (s.core moved).isDir then (if d = i then 1 else 0) else 0

namespace Renamed

variable (h : Renamed s s' fromDir toDir from_ to_ moved victim) (hs : WellNamed root s)

include h hs

theorem up_moved (hdir : (s.core moved).isDir = true) : (s.core moved).names.parent = fromDir :=
  (hs.tree.once moved ⟨h.mem, hdir⟩ fromDir from_ h.dirs.1 h.source).symm

theorem weight_eq {p : ℕ} (hp : p ∈ s.inos) (i : ℕ) :
    weight p (s'.core p) i + (naming (outOf fromDir toDir from_ to_ moved victim p) i +
        (if p = moved then movedLinks s moved fromDir i else 0) +
        if victim = some p then victimLinks s toDir i victim - (if p = i then 1 else 0) else 0) =
      weight p (s.core p) i + (naming (inOf toDir to_ moved p) i +
        if p = moved then movedLinks s moved toDir i else 0) := by
  by_cases hv : victim = some p
  · -- what was replaced is gone, or is no directory
    have hnot : ¬s'.IsDir p := fun hdir => (h.isDir_iff.mp hdir).2 hv
    have hfile : (s'.core p).isDir = false := by
      rw [← Bool.not_eq_true]
      exact fun hdir => hnot ⟨h.inos ▸ hp, hdir⟩
    obtain ⟨hto, hfrom⟩ := h.victim_ne hs hv
    have hmoved : p ≠ moved := fun heq => h.ne (heq ▸ hv)
    rw [weight_of_file hfile, if_pos hv, if_neg hmoved, if_neg hmoved, hv]
    simp only [outOf, inOf, victimLinks, if_neg hto, if_neg hfrom, List.append_nil, naming_nil]
    cases hdir : (s.core p).isDir with
    | false =>
      rw [weight_of_file hdir]
      simp
    | true =>
      have hup : (s.core p).names.parent = toDir :=
        (hs.tree.once p ⟨hp, hdir⟩ toDir to_ h.dirs.2 ((h.target p).mp hv)).symm
      rw [weight_of_empty hdir (h.empty p hv hdir), hup]
      simp
  · rw [if_neg hv]
    have hmode := (h.kept p hv).2
    cases hdir : (s.core p).isDir with
    | false =>
      have hto : p ≠ toDir := fun heq => by
        have := h.dirs.2.2
        rw [← heq, hdir] at this
        exact Bool.false_ne_true this
      have hfrom : p ≠ fromDir := fun heq => by
        have := h.dirs.1.2
        rw [← heq, hdir] at this
        exact Bool.false_ne_true this
      have hdir' : (s'.core p).isDir = false := by
        unfold Core.isDir at hdir ⊢
        rw [hmode]
        exact hdir
      have hmoved : p = moved → (s.core moved).isDir = false := fun heq => heq ▸ hdir
      rw [weight_of_file hdir, weight_of_file hdir']
      simp only [outOf, inOf, if_neg hto, if_neg hfrom, List.append_nil, naming_nil, movedLinks]
      by_cases hpm : p = moved
      · simp [hmoved hpm]
      · simp [hpm]
    | true =>
      have htraded := @weight_traded p _ _ _ _ hdir hmode (h.entries p hv) i
      rw [h.parents p hv] at htraded
      by_cases hpm : p = moved
      · subst hpm
        rw [h.up_moved hs hdir, if_pos (⟨rfl, hdir⟩ : p = p ∧ _)] at htraded
        simp only [if_true, movedLinks, hdir]
        omega
      · have hother : ¬(p = moved ∧ (s.core moved).isDir = true) := fun heq => hpm heq.1
        rw [if_neg hother] at htraded
        simp only [if_neg hpm]
        omega

theorem links_eq (hv : ∀ v, victim = some v → v ∈ s.inos) (i : ℕ) :
    s'.links i + movedLinks s moved fromDir i + victimLinks s toDir i victim =
      s.links i + movedLinks s moved toDir i := by
  have hsum := Finset.sum_congr (rfl : s.inos = s.inos) fun p hp => h.weight_eq hs hp i
  have hout : ∑ p ∈ s.inos, naming (outOf fromDir toDir from_ to_ moved victim p) i =
      (if moved = i then 1 else 0) + naming (victim.map fun v => (⟨to_, v⟩ : Entry)).toList i := by
    simp only [outOf, naming_append, apply_ite (naming · i), naming_nil, Finset.sum_add_distrib,
      Finset.sum_ite_eq', h.dirs.1.1, h.dirs.2.1, if_true, naming_singleton]
  have hin : ∑ p ∈ s.inos, naming (inOf toDir to_ moved p) i = if moved = i then 1 else 0 := by
    simp only [inOf, apply_ite (naming · i), naming_nil, Finset.sum_ite_eq', h.dirs.2.1, if_true,
      naming_singleton]
  have hlost : ∑ p ∈ s.inos,
      (if victim = some p then victimLinks s toDir i victim - (if p = i then 1 else 0) else 0) +
        naming (victim.map fun v => (⟨to_, v⟩ : Entry)).toList i = victimLinks s toDir i victim := by
    cases hvictim : victim with
    | none => simp [victimLinks]
    | some v =>
      simp only [Option.some.injEq, Finset.sum_ite_eq, hv v hvictim, if_true, Option.map_some,
        Option.toList_some, naming_singleton]
      simp only [victimLinks]
      omega
  simp only [Finset.sum_add_distrib, Finset.sum_ite_eq', h.mem, if_true] at hsum
  unfold State.links
  rw [h.inos]
  omega

theorem links_gone {v : ℕ} (hv : victim = some v) (hdir : (s.core v).isDir = true)
    (hmem : v ∈ s.inos) : s'.links v = 0 := by
  have hhas := (h.target v).mp hv
  have hnode : s.IsDir v := ⟨hmem, hdir⟩
  have hroot : v ≠ root := fun heq => hs.tree.root_unnamed toDir to_ h.dirs.2 (heq ▸ hhas)
  refine Finset.sum_eq_zero fun p hp => ?_
  cases hpDir : (s'.core p).isDir with
  | false => exact weight_of_file hpDir v
  | true =>
    have hp' : s'.IsDir p := ⟨hp, hpDir⟩
    obtain ⟨hold, hne⟩ := h.isDir_iff.mp hp'
    have hnaming : naming (s'.core p).names.entries v = 0 := by
      by_contra hpos
      obtain ⟨e, he, hino⟩ := naming_pos.mp (Nat.pos_of_ne_zero hpos)
      obtain ⟨name, ino⟩ := e
      obtain rfl : ino = v := hino
      rcases (h.has_iff hs hp').mp he with ⟨hother, -, hkept⟩ | ⟨-, -, heq⟩
      · have hup := hs.tree.once ino hnode p name hold hother
        have hup' := hs.tree.once ino hnode toDir to_ h.dirs.2 hhas
        obtain rfl : p = toDir := hup.trans hup'.symm
        exact hkept ⟨rfl, hs.tree.once_name ino hnode p name to_ hold hother hhas⟩
      · exact h.ne (heq ▸ hv)
    have hparent : (s'.core p).names.parent ≠ v := by
      rw [h.parents p hne]
      split
      · exact (h.victim_ne hs hv).1.symm
      · -- it held no name, so nothing points up to it
        intro heq
        by_cases hpr : p = root
        · subst hpr
          exact hroot (heq.symm.trans hs.tree.root_up)
        · obtain ⟨n, hn⟩ := hs.tree.named p hold hpr
          change (⟨n, p⟩ : Entry) ∈ (s.core (s.core p).names.parent).names.entries at hn
          rw [heq, h.empty v hv hdir] at hn
          cases hn
    have hself : p ≠ v := fun heq => hne (heq ▸ hv)
    rw [weight, if_pos hpDir, hnaming, if_neg hparent, if_neg hself]
    rfl

theorem counted (hc : Counted outside s) : Counted outside s' := by
  have hmem : ∀ v, victim = some v → v ∈ s.inos := fun v hv =>
    hc.mem_of_has h.dirs.2 ((h.target v).mp hv)
  have hcounts : ∀ i ∈ s'.inos, (s'.core i).nlink = s'.links i + outside i := by
    intro i hi
    rw [h.inos] at hi
    have hcount := hc.counts i hi
    have hlinks := h.links_eq hs hmem i
    by_cases hv : victim = some i
    · obtain ⟨hto, hfrom⟩ := h.victim_ne hs hv
      have hslot := congrArg Slot.core (h.gone i hv).1
      change s'.core i = _ at hslot
      cases hdir : (s.core i).isDir with
      | true =>
        rw [hslot, h.links_gone hs hv hdir hi, hc.dirs i ⟨hi, hdir⟩]
        simp [unlinked, victimFreed, hdir, emptied, emptiedCore]
      | false =>
        have hlost : s'.links i + 1 = s.links i := by
          simpa [victimLinks, movedLinks, hv, hdir, hto.symm, hfrom.symm] using hlinks
        rw [hslot]
        by_cases hlast : (s.core i).nlink ≤ 1
        · simp only [unlinked, victimFreed, hdir, hlast, decide_true, Bool.or_true, if_true, emptied,
            emptiedCore]
          omega
        · simp only [unlinked, victimFreed, hdir, hlast, decide_false, Bool.or_false]
          simp only [Bool.false_eq_true, if_false]
          omega
    · have hdelta := h.counts i hv
      have hvictim : victimLinks s toDir i victim =
          if toDir = i ∧ (victim.any fun v => (s.core v).isDir) = true then 1 else 0 := by
        cases hvictim : victim with
        | none => simp [victimLinks]
        | some v =>
          have hvi : v ≠ i := fun heq => hv (by rw [hvictim, heq])
          cases hdir : (s.core v).isDir <;> by_cases hto : toDir = i <;>
            simp [victimLinks, hvi, hdir, hto]
      rw [hvictim] at hlinks
      unfold movedLinks at hlinks
      generalize (s.core moved).isDir = movedDir at hdelta hlinks
      generalize (victim.any fun v => (s.core v).isDir) = victimDir at hdelta hlinks
      cases movedDir <;> cases victimDir <;>
        simp only [ofBool, Bool.and_eq_true, Bool.and_true, Bool.and_false, Bool.false_and,
          decide_eq_true_eq, Bool.not_eq_true', decide_eq_false_iff_not, Bool.false_eq_true, and_true,
          and_false, if_false, if_true] at hdelta hlinks
      · omega
      all_goals split_ifs at hdelta hlinks <;> omega
  have hold : ∀ i, s'.IsDir i → s.IsDir i := fun i hi => (h.isDir_iff.mp hi).1
  refine ⟨hcounts, fun i hi => ?_, fun d hd => hc.dirs d (hold d hd), fun i hi => ?_⟩
  · have hcount := hcounts i hi
    rw [h.inos] at hi
    have hfree := hc.free i hi
    by_cases hv : victim = some i
    · unfold core
      rw [(h.gone i hv).1]
      by_cases hfreed : victimFreed (s.core i) = true
      · simp [unlinked, hfreed, emptied, emptiedCore]
      · have hmore : ¬(s.core i).nlink ≤ 1 := by
          intro hle
          exact hfreed (by simp [victimFreed, hle])
        rw [unlinked, if_neg hfreed]
        exact iff_of_false (fun heq => by have := hfree.mp heq; omega) (by simp only; omega)
    · rw [(h.kept i hv).1]
      by_cases hdir : s'.IsDir i
      · have hposNow := links_pos_of_isDir hdir
        have hposWas := links_pos_of_isDir (hold i hdir)
        have hwas := hc.counts i hi
        exact iff_of_false (fun heq => by have := hfree.mp heq; omega) (by omega)
      · -- only the two directories' counts move
        have hnot : ∀ d, s.IsDir d → i ≠ d := by
          rintro d hd rfl
          exact hdir (h.isDir_iff.mpr ⟨hd, hv⟩)
        have hdelta := h.counts i hv
        simp only [ofBool, hnot _ h.dirs.1, hnot _ h.dirs.2, decide_false, Bool.false_and,
          Bool.false_eq_true, if_false] at hdelta
        rw [hfree]
        omega
  · rw [h.inos] at hi
    have hlinks := h.links_eq hs hmem i
    have hlive := hc.live i hi
    have hnot : ∀ d ∈ s.inos, d ≠ i := fun d hd heq => hi (heq ▸ hd)
    have hto : movedLinks s moved toDir i = 0 := by
      simp [movedLinks, hnot _ h.dirs.2.1]
    exact ⟨by omega, hlive.2⟩

end Renamed

end

/-! ## Runs -/

inductive Op where
  | create (parent : ℕ) (name : List UInt8) (mode : ℕ) (kind : Kind) (target : List UInt8)
  | link (ino dirIno : ℕ) (name : List UInt8)
  | remove (parent : ℕ) (name : List UInt8) (target : Target)
  | rename (fromDir : ℕ) (from_ : List UInt8) (toDir : ℕ) (to_ : List UInt8)

def run (s : State) (answers : Answers s) (sb : Superblock) : Op → Except Error State
  | .create parent name mode kind target => s.create answers sb parent name mode kind target
  | .link ino dirIno name => s.link answers sb ino dirIno name
  | .remove parent name target => s.remove answers sb parent name target
  | .rename fromDir from_ toDir to_ => s.rename answers sb fromDir from_ toDir to_

def HasRoom (s : State) : Op → Prop
  | .create parent _ _ .directory _ => (s.core parent).nlink + 1 < 2 ^ 32
  | _ => True

/-- One operation that returned. -/
def Step (sb : Superblock) (s s' : State) : Prop :=
  ∃ op answers, s.HasRoom op ∧ s.run answers sb op = .ok s'

section

variable {outside : ℕ → ℕ} {s s' : State} {sb : Superblock}

theorem Step.counted (h : Step sb s s') (hs : WellNamed sb.rootino s) (hc : Counted outside s) :
    WellNamed sb.rootino s' ∧ Counted outside s' := by
  obtain ⟨op, answers, hroom, hrun⟩ := h
  cases op with
  | create parent name mode kind target =>
    refine create_counted hc hs (fun hkind => ?_) hrun
    subst hkind
    exact hroom
  | link ino dirIno name => exact link_counted hc hs hrun
  | remove parent name target => exact remove_counted hc hs hrun
  | rename fromDir from_ toDir to_ =>
    rcases rename_renamed hs hrun with ⟨rfl, -⟩ | ⟨moved, victim, hrenamed⟩
    · exact ⟨hs, hc⟩
    · exact ⟨hrenamed.wellNamed hs, hrenamed.counted hs hc⟩

theorem steps_invariant (hs : WellNamed sb.rootino s) (hc : Counted outside s)
    (h : Relation.ReflTransGen (Step sb) s s') : WellNamed sb.rootino s' ∧ Counted outside s' := by
  induction h with
  | refl => exact ⟨hs, hc⟩
  | tail _ hstep ih => exact hstep.counted ih.1 ih.2

/-- Over any run from a volume whose directories are a tree, counts that held hold. -/
theorem steps_counted (hs : WellNamed sb.rootino s) (hc : Counted outside s)
    (h : Relation.ReflTransGen (Step sb) s s') : Counted outside s' :=
  (steps_invariant hs hc h).2

/-- And the directories are still a tree. -/
theorem steps_wellNamed (hs : WellNamed sb.rootino s) (hc : Counted outside s)
    (h : Relation.ReflTransGen (Step sb) s s') : WellNamed sb.rootino s' :=
  (steps_invariant hs hc h).1

end

theorem oneDirectory_counted : Counted (fun _ => 0) oneDirectory where
  counts := by decide
  free := by decide
  dirs := fun _ _ => rfl
  live := by
    intro i hi
    have hne : i ≠ 64 ∧ i ≠ 65 := by simpa [oneDirectory] using hi
    refine ⟨Finset.sum_eq_zero fun d hd => ?_, rfl⟩
    have hd : d = 64 ∨ d = 65 := by simpa [oneDirectory] using hd
    rcases hd with rfl | rfl <;>
      simp [weight, core, oneDirectory, smallDirectory, naming, hne.1.symm, hne.2.symm]

def renamedThenRemoved : Except Error (State × State) := do
  let s ← oneDirectory.rename (calmAnswers oneDirectory) twoGroups 64 nameA 64 nameB
  let s' ← s.remove (calmAnswers s) twoGroups 64 nameB .directory
  pure (s, s')

theorem renamedThenRemoved_steps : ∃ s s' : State, Step twoGroups oneDirectory s ∧ Step twoGroups s s' ∧
    s.Has 64 nameB 65 ∧ (s.core 64).nlink = 3 ∧ (s'.core 64).nlink = 2 := by
  have hsample : (renamedThenRemoved.toOption.map fun s => decide (s.1.Has 64 nameB 65 ∧
      (s.1.core 64).nlink = 3 ∧ (s.2.core 64).nlink = 2)) = some true := by decide +kernel
  obtain ⟨⟨s, s'⟩, hrun, hhas⟩ := ok_of_toOption_map hsample
  obtain ⟨mid, hfirst, hrun⟩ := bind_eq_ok.mp hrun
  obtain ⟨last, hsecond, hrun⟩ := bind_eq_ok.mp hrun
  obtain ⟨rfl, rfl⟩ := Prod.mk.inj (Except.ok.inj hrun)
  exact ⟨mid, last, ⟨.rename 64 nameA 64 nameB, calmAnswers oneDirectory, trivial, hfirst⟩,
    ⟨.remove 64 nameB .directory, calmAnswers mid, trivial, hsecond⟩, of_decide_eq_true hhas⟩

theorem steps_counted_small : ∃ s s' : State, Step twoGroups oneDirectory s ∧ Step twoGroups s s' ∧
    s.Has 64 nameB 65 ∧ (s.core 64).nlink = 3 ∧ (s'.core 64).nlink = 2 ∧ Counted (fun _ => 0) s' := by
  obtain ⟨s, s', hone, htwo, hhas, hbefore, hafter⟩ := renamedThenRemoved_steps
  exact ⟨s, s', hone, htwo, hhas, hbefore, hafter,
    steps_counted oneDirectory_wellNamed oneDirectory_counted (.tail (.single hone) htwo)⟩

theorem steps_wellNamed_small : ∃ s s' : State, Step twoGroups oneDirectory s ∧ Step twoGroups s s' ∧
    WellNamed 64 s' := by
  obtain ⟨s, s', hone, htwo, -⟩ := renamedThenRemoved_steps
  exact ⟨s, s', hone, htwo,
    steps_wellNamed oneDirectory_wellNamed oneDirectory_counted (.tail (.single hone) htwo)⟩

/-! ## A directory with two names -/

def nameC : List UInt8 := [99]

def twoNames : State where
  inos := {64, 65, 66}
  slot := fun ino =>
    if ino = 64 then smallDirectory 4 64 [⟨nameA, 65⟩, ⟨nameB, 66⟩]
    else if ino = 65 then smallDirectory 2 64 [⟨nameA, 66⟩]
    else smallDirectory 3 64 []

theorem twoNames_counted : Counted (fun _ => 0) twoNames where
  counts := by decide
  free := by decide
  dirs := fun _ _ => rfl
  live := by
    intro i hi
    have hne : i ≠ 64 ∧ i ≠ 65 ∧ i ≠ 66 := by simpa [twoNames] using hi
    refine ⟨Finset.sum_eq_zero fun d hd => ?_, rfl⟩
    have hd : d = 64 ∨ d = 65 ∨ d = 66 := by simpa [twoNames] using hd
    rcases hd with rfl | rfl | rfl <;>
      simp [weight, core, twoNames, smallDirectory, naming, hne.1.symm, hne.2.1.symm, hne.2.2.symm]

/-- Moved by the name that its `..` is not about, it takes a link from a directory that has none of
it. -/
theorem rename_miscounts : Counted (fun _ => 0) twoNames ∧
    ∃ s', twoNames.run (calmAnswers twoNames) twoGroups (.rename 65 nameA 64 nameC) = .ok s' ∧
      (s'.core 65).nlink = 1 ∧ s'.links 65 = 2 := by
  have hsample : ((twoNames.rename (calmAnswers twoNames) twoGroups 65 nameA 64 nameC).toOption.map
      fun s' => ((s'.core 65).nlink, s'.links 65)) = some (1, 2) := by decide +kernel
  obtain ⟨s', hs', hpair⟩ := ok_of_toOption_map hsample
  obtain ⟨hnlink, hlinks⟩ := Prod.mk.inj hpair
  exact ⟨twoNames_counted, s', hs', hnlink, hlinks⟩

end State

end FsXfs.Names
