import FsXfs.Names.Links

/-!
# What a rename does

A rename taken apart once: `rename_cases` says which of its three courses it took, `Moving` what the
longest of them computed, and `Renamed` what every course leaves. `Renamed.wellNamed` is that the
directories are still a tree.
-/

namespace FsXfs.Names

open Hierarchy

set_option autoImplicit false

/-- The directories are a tree, and no directory has two entries of one name. -/
structure WellNamed (root : ℕ) (s : State) : Prop where
  tree : IsTree s.forest root
  distinct : ∀ d, s.IsDir d → (s.core d).names.Distinct

section

variable {root : ℕ} {s : State}

theorem WellNamed.has_unique (hs : WellNamed root s) {p i j : ℕ} (hp : s.IsDir p)
    {name : List UInt8} (hi : s.Has p name i) (hj : s.Has p name j) : i = j := by
  have hone := (Directory.find_eq_some (hs.distinct p hp)).mpr ⟨hi, rfl⟩
  have htwo := (Directory.find_eq_some (hs.distinct p hp)).mpr ⟨hj, rfl⟩
  exact congrArg Entry.ino (Option.some.inj (hone.symm.trans htwo))

theorem WellNamed.not_self (hs : WellNamed root s) {p : ℕ} (hp : s.IsDir p) {name : List UInt8} :
    ¬s.Has p name p := by
  intro hself
  have hroot : p ≠ root := fun heq => hs.tree.root_unnamed p name hp (heq ▸ hself)
  have hup := hs.tree.once p hp p name hp hself
  exact iterate_ne_self hs.tree.root_up (hs.tree.reaches p hp) hroot Nat.one_pos hup.symm

end

namespace State

/-! ## Reading -/

section

variable {s : State} {answers : Answers s}

variable {ino i : ℕ} {name : List UInt8}

theorem readInode_ok {core : Core} (h : s.readInode answers ino = .ok core) :
    ino ∈ s.inos ∧ core = s.core ino := by
  obtain ⟨_, -, h⟩ := bind_eq_ok.mp h
  obtain ⟨_, hmem, h⟩ := bind_eq_ok.mp h
  exact ⟨ensure_eq_ok.mp hmem, (Except.ok.inj h).symm⟩

theorem entryIno_mem {dir : Core} (hdir : dir.names.Distinct)
    (h : entryIno dir name = some i) : ⟨name, i⟩ ∈ dir.names.entries := by
  unfold entryIno at h
  split at h
  · cases h
  · obtain ⟨e, he, rfl⟩ := Option.map_eq_some_iff.mp h
    obtain ⟨hmem, rfl⟩ := (Directory.find_eq_some hdir).mp he
    exact hmem

theorem entryIno_eq_some {root d : ℕ} (hs : WellNamed root s) (hd : s.IsDir d) (h : entryIno (s.core d) name = some i) : s.Has d name i :=
  entryIno_mem (hs.distinct d hd) h

theorem entryIno_valid {dir : Core} (hname : entryNameIsValid name = true) :
    entryIno dir name = (dir.names.find name).map Entry.ino := by
  simp only [entryNameIsValid, Bool.and_eq_true, decide_eq_true_eq] at hname
  exact if_neg fun h => h.elim hname.1.2 hname.2

theorem entryIno_iff {root d : ℕ} (hs : WellNamed root s) (hd : s.IsDir d)
    (hname : entryNameIsValid name = true) :
    entryIno (s.core d) name = some i ↔ s.Has d name i := by
  refine ⟨entryIno_eq_some hs hd, fun hhas => ?_⟩
  rw [entryIno_valid hname, (Directory.find_eq_some (hs.distinct d hd)).mpr ⟨hhas, rfl⟩]
  rfl

theorem entryIno_eq_none {d : ℕ} (hname : entryNameIsValid name = true)
    (h : entryIno (s.core d) name = none) : ∀ e ∈ (s.core d).names.entries, e.name ≠ name := by
  rw [entryIno_valid hname, Option.map_eq_none_iff] at h
  simpa [Directory.find] using h

theorem changeDirectory_ok {what : String} {dir change : Core} {edits : List DirEdit}
    (h : s.changeDirectory answers what ino dir edits = .ok change) :
    change.mode = dir.mode ∧ change.nlink = dir.nlink ∧
      edits.foldlM dir.edit dir.names = .ok change.names := by
  obtain ⟨_, -, h⟩ := bind_eq_ok.mp h
  obtain ⟨names, hnames, h⟩ := bind_eq_ok.mp h
  obtain ⟨⟨format, nodeForm⟩, -, h⟩ := bind_eq_ok.mp h
  cases h
  exact ⟨rfl, rfl, hnames⟩

theorem changeDirectory_one {what : String} {dir change : Core} {e : DirEdit}
    (h : s.changeDirectory answers what ino dir [e] = .ok change) :
    change.mode = dir.mode ∧ change.nlink = dir.nlink ∧ dir.edit dir.names e = .ok change.names := by
  obtain ⟨hmode, hnlink, hnames⟩ := changeDirectory_ok h
  obtain ⟨names, hone, hnames⟩ := bind_eq_ok.mp hnames
  cases hnames
  exact ⟨hmode, hnlink, hone⟩

theorem walkUp_ok {root moved toDir steps at_ : ℕ} {u : Unit}
    (h : s.walkUp answers root moved toDir steps at_ = .ok u) :
    ∃ n, s.forest.up^[n] at_ = root ∧ ∀ k < n, s.forest.up^[k] at_ ≠ moved := by
  induction steps generalizing at_ with
  | zero =>
    unfold walkUp at h
    split at h
    next hroot => exact ⟨0, hroot, by simp⟩
    next =>
      split at h
      · cases h
      · obtain ⟨_, -, h⟩ := bind_eq_ok.mp h
        cases h
  | succ steps ih =>
    unfold walkUp at h
    split at h
    next hroot => exact ⟨0, hroot, by simp⟩
    next =>
      split at h
      next => cases h
      next hne =>
        obtain ⟨d, hd, h⟩ := bind_eq_ok.mp h
        obtain ⟨-, rfl⟩ := readInode_ok hd
        obtain ⟨n, hn, hall⟩ := ih h
        refine ⟨n + 1, hn, fun k hk => ?_⟩
        cases k with
        | zero => exact hne
        | succ k => exact hall k (by omega)

end

/-! ## The courses of a rename -/

section

variable {s s' : State} {answers : Answers s} {sb : Superblock} {fromDir toDir : ℕ}
  {from_ to_ : List UInt8}

/-- A rename that had two directories to change, or a target to replace. -/
structure Moving (s : State) (answers : Answers s) (sb : Superblock) (fromDir toDir : ℕ)
    (from_ to_ : List UInt8) (moved : ℕ) (victim : Option (ℕ × Core))
    (srcChange : Core) (dstChange : Option Core) (movedChange : Core) (srcLinks toLinks : ℕ) :
    Prop where
  replaced : s.replacedCore answers (s.core moved).isDir (entryIno (s.core toDir) to_) = .ok victim
  above : s.refuseBeneath answers sb.rootino fromDir toDir moved (s.core moved).isDir = .ok ()
  changed : s.changes answers fromDir toDir moved (s.core fromDir) (s.core toDir) (s.core moved)
    from_ to_ (entryIno (s.core toDir) to_).isSome = .ok (srcChange, dstChange, movedChange)
  freed : s.freeVictim sb victim = .ok ()
  srcCount : linkBy (s.core fromDir).nlink
    (-ofBool ((s.core moved).isDir && !decide (fromDir = toDir)) -
      ofBool (decide (fromDir = toDir) && victim.any fun p => p.2.isDir)) = .ok srcLinks
  toCount : dstLinks (s.core toDir).nlink
    (ofBool (s.core moved).isDir - ofBool (victim.any fun p => p.2.isDir)) dstChange = .ok toLinks

theorem rename_cases (h : s.rename answers sb fromDir from_ toDir to_ = .ok s') :
    s.IsDir fromDir ∧ s.IsDir toDir ∧ entryNameIsValid to_ = true ∧
      ∃ moved, entryIno (s.core fromDir) from_ = some moved ∧
        ((fromDir = toDir ∧ s.renameInDirectory answers sb fromDir from_ to_ = .ok s') ∨
          (entryIno (s.core toDir) to_ = some moved ∧ s' = s) ∨
          (moved ∈ s.inos ∧ entryIno (s.core toDir) to_ ≠ some moved ∧
            (fromDir = toDir → entryIno (s.core toDir) to_ ≠ none) ∧
            ∃ victim srcChange dstChange movedChange srcLinks toLinks,
              Moving s answers sb fromDir toDir from_ to_ moved victim srcChange dstChange
                movedChange srcLinks toLinks ∧
              s' = putVictim ((putDst (s.setCore fromDir { srcChange with nlink := srcLinks }) toDir
                toLinks dstChange).setCore moved movedChange) victim)) := by
  obtain ⟨_, -, h⟩ := bind_eq_ok.mp h
  obtain ⟨_, -, h⟩ := bind_eq_ok.mp h
  obtain ⟨_, hvalid, h⟩ := bind_eq_ok.mp h
  obtain ⟨src, hsrc, h⟩ := bind_eq_ok.mp h
  obtain ⟨dst, hdst, h⟩ := bind_eq_ok.mp h
  obtain ⟨_, hdirs, h⟩ := bind_eq_ok.mp h
  obtain ⟨moved, hmoved, h⟩ := bind_eq_ok.mp h
  obtain ⟨hsrcMem, rfl⟩ := readInode_ok hsrc
  obtain ⟨hdstMem, rfl⟩ := readInode_ok hdst
  have hdirs := ensure_eq_ok.mp hdirs
  refine ⟨⟨hsrcMem, hdirs.1⟩, ⟨hdstMem, hdirs.2⟩, (ensure_eq_ok.mp hvalid).1, moved,
    orElse_eq_ok.mp hmoved, ?_⟩
  dsimp only at h
  split at h
  next hsame => exact .inl ⟨hsame.1, h⟩
  next hother =>
    split at h
    next hself => exact .inr (.inl ⟨hself, (Except.ok.inj h).symm⟩)
    next hne =>
      obtain ⟨movedCore, hread, h⟩ := bind_eq_ok.mp h
      obtain ⟨hmem, rfl⟩ := readInode_ok hread
      obtain ⟨victim, hvictim, h⟩ := bind_eq_ok.mp h
      obtain ⟨_, -, h⟩ := bind_eq_ok.mp h
      obtain ⟨_, habove, h⟩ := bind_eq_ok.mp h
      obtain ⟨⟨srcChange, dstChange, movedChange⟩, hchanges, h⟩ := bind_eq_ok.mp h
      obtain ⟨_, hfreed, h⟩ := bind_eq_ok.mp h
      obtain ⟨srcLinks, hsrcLinks, h⟩ := bind_eq_ok.mp h
      obtain ⟨toLinks, htoLinks, h⟩ := bind_eq_ok.mp h
      obtain ⟨_, -, h⟩ := bind_eq_ok.mp h
      exact .inr (.inr ⟨hmem, hne, fun hsame hnone => hother ⟨hsame, hnone⟩, victim, srcChange,
        dstChange, movedChange, srcLinks, toLinks,
        ⟨hvictim, habove, hchanges, hfreed, hsrcLinks, htoLinks⟩, (Except.ok.inj h).symm⟩)

end

/-! ## What it leaves -/

def outOf (fromDir toDir : ℕ) (from_ to_ : List UInt8) (moved : ℕ) (victim : Option ℕ) (p : ℕ) :
    List Entry :=
  (if p = fromDir then [⟨from_, moved⟩] else []) ++
    if p = toDir then (victim.map fun v => (⟨to_, v⟩ : Entry)).toList else []

def inOf (toDir : ℕ) (to_ : List UInt8) (moved p : ℕ) : List Entry :=
  if p = toDir then [⟨to_, moved⟩] else []

/-- A name moved, over what had it where it went. -/
structure Renamed (s s' : State) (fromDir toDir : ℕ) (from_ to_ : List UInt8) (moved : ℕ)
    (victim : Option ℕ) : Prop where
  inos : s'.inos = s.inos
  dirs : s.IsDir fromDir ∧ s.IsDir toDir
  mem : moved ∈ s.inos
  source : s.Has fromDir from_ moved
  target : ∀ v, victim = some v ↔ s.Has toDir to_ v
  ne : victim ≠ some moved
  alike : ∀ v, victim = some v → (s.core v).isDir = (s.core moved).isDir
  empty : ∀ v, victim = some v → (s.core v).isDir = true → (s.core v).names.entries = []
  above : (s.core moved).isDir = true → ∀ n, s.forest.up^[n] toDir ≠ moved
  kept : ∀ i, victim ≠ some i → (s'.slot i).free = (s.slot i).free ∧
    (s'.core i).mode = (s.core i).mode
  gone : ∀ v, victim = some v →
    s'.slot v = unlinked (victimFreed (s.core v)) (s.slot v) (s.core v) ∧
      (victimFreed (s.core v) = true → (s.slot v).free = false)
  entries : ∀ p, victim ≠ some p → Traded (s.core p).names.entries (s'.core p).names.entries
    (outOf fromDir toDir from_ to_ moved victim p) (inOf toDir to_ moved p)
  parents : ∀ i, victim ≠ some i → (s'.core i).names.parent =
    if i = moved ∧ (s.core moved).isDir = true then toDir else (s.core i).names.parent
  counts : ∀ i, victim ≠ some i → ((s'.core i).nlink : ℤ) = (s.core i).nlink -
    ofBool (decide (i = fromDir) && (s.core moved).isDir && !decide (fromDir = toDir)) +
    ofBool (decide (i = toDir) && (s.core moved).isDir && !decide (fromDir = toDir)) -
    ofBool (decide (i = toDir) && victim.any fun v => (s.core v).isDir)

section

variable {root : ℕ} {s s' : State} {fromDir toDir moved : ℕ} {from_ to_ : List UInt8}
  {victim : Option ℕ}

namespace Renamed

variable (h : Renamed s s' fromDir toDir from_ to_ moved victim) (hs : WellNamed root s)

include h hs

theorem victim_ne {v : ℕ} (hv : victim = some v) : v ≠ toDir ∧ v ≠ fromDir := by
  have hhas := (h.target v).mp hv
  have hto : v ≠ toDir := fun heq => hs.not_self h.dirs.2 (heq ▸ hhas)
  refine ⟨hto, fun heq => ?_⟩
  subst heq
  have hempty := h.empty v hv h.dirs.1.2
  have hsource := h.source
  unfold Has at hsource
  rw [hempty] at hsource
  cases hsource

omit hs in
theorem isDir_iff {i : ℕ} : s'.IsDir i ↔ s.IsDir i ∧ victim ≠ some i := by
  by_cases hv : victim = some i
  · refine iff_of_false (fun hdir => ?_) fun hdir => hdir.2 hv
    obtain ⟨hslot, -⟩ := h.gone i hv
    have hcore : (s'.core i).isDir = true := hdir.2
    unfold core at hcore
    rw [hslot] at hcore
    unfold unlinked at hcore
    split at hcore
    · exact absurd hcore (by simp [emptied, emptiedCore, Core.isDir, sIfmt])
    next hfreed =>
      have hfile : (s.core i).isDir = true := hcore
      exact hfreed (by simp [victimFreed, hfile])
  · unfold IsDir Core.isDir
    rw [h.inos, (h.kept i hv).2]
    exact ⟨fun hdir => ⟨hdir, hv⟩, fun hdir => hdir.1⟩

theorem has_iff {p i : ℕ} {name : List UInt8} (hp : s'.IsDir p) : s'.Has p name i ↔
    (s.Has p name i ∧ ¬(p = fromDir ∧ name = from_) ∧ ¬(p = toDir ∧ name = to_)) ∨
      (p = toDir ∧ name = to_ ∧ i = moved) := by
  obtain ⟨hdir, hne⟩ := h.isDir_iff.mp hp
  have hentries := h.entries p hne
  unfold Has
  rw [hentries.mem_iff (hs.distinct p hdir)]
  refine or_congr ?_ ?_
  · refine and_congr_right fun hmem => ?_
    constructor
    · intro hall
      refine ⟨?_, ?_⟩
      · rintro ⟨rfl, rfl⟩
        exact hall ⟨name, moved⟩ (by simp [outOf]) rfl
      · rintro ⟨rfl, rfl⟩
        exact hall ⟨name, i⟩ (by simp [outOf, (h.target i).mpr hmem]) rfl
    · rintro ⟨hfrom, hto⟩ x hx heq
      rcases List.mem_append.mp hx with hx | hx
      · split at hx
        next hp' =>
          obtain rfl := List.mem_singleton.mp hx
          exact hfrom ⟨hp', heq⟩
        next => cases hx
      · split at hx
        next hp' =>
          obtain ⟨v, -, rfl⟩ := Option.map_eq_some_iff.mp (Option.mem_toList.mp hx)
          exact hto ⟨hp', heq⟩
        next => cases hx
  · unfold inOf
    split
    next hp' => simp [hp']
    next hp' => simp [hp']

theorem distinct {p : ℕ} (hp : s'.IsDir p) : (s'.core p).names.Distinct := by
  obtain ⟨hdir, hne⟩ := h.isDir_iff.mp hp
  refine (h.entries p hne).nodup_map Entry.name (hs.distinct p hdir) ?_ fun e he x hx hname => ?_
  · unfold inOf
    split
    · exact List.nodup_singleton _
    · exact .nil
  · unfold inOf at he
    split at he
    next hp' =>
      obtain rfl := List.mem_singleton.mp he
      subst hp'
      obtain ⟨xname, xino⟩ := x
      obtain rfl : xname = to_ := hname
      exact ⟨⟨xname, xino⟩, by simp [outOf, (h.target xino).mpr hx], rfl⟩
    next => cases he

theorem tree_without : IsTree (⟨fun i => s.IsDir i ∧ victim ≠ some i, s.Has, s.forest.up⟩ :
    Forest ℕ (List UInt8)) root := by
  cases hv : victim with
  | none => exact hs.tree.congr (fun i => by simp [forest]) (fun _ _ => rfl) fun _ _ _ _ _ => Iff.rfl
  | some v =>
    have hhas := (h.target v).mp hv
    by_cases hdir : s.IsDir v
    · have hroot : v ≠ root := fun heq => hs.tree.root_unnamed toDir to_ h.dirs.2 (heq ▸ hhas)
      refine hs.tree.drop hroot (fun n i _ hmem => ?_) (fun i => ?_) (fun _ _ => rfl)
        fun _ _ _ _ _ => Iff.rfl
      · change (⟨n, i⟩ : Entry) ∈ (s.core v).names.entries at hmem
        rw [h.empty v hv hdir.2] at hmem
        cases hmem
      · exact and_congr_right fun _ => not_congr (by rw [Option.some.injEq, eq_comm])
    · refine hs.tree.congr (fun i => ?_) (fun _ _ => rfl) fun _ _ _ _ _ => Iff.rfl
      refine and_iff_left_of_imp fun hi heq => hdir ?_
      rw [Option.some.inj heq]
      exact hi

theorem has_other {p i : ℕ} {name : List UInt8} (hp : s'.IsDir p) (hi : i ≠ moved)
    (hv : victim ≠ some i) : s'.Has p name i ↔ s.Has p name i := by
  rw [h.has_iff hs hp]
  constructor
  · rintro (⟨hhas, -⟩ | ⟨-, -, heq⟩)
    · exact hhas
    · exact absurd heq hi
  · refine fun hhas => .inl ⟨hhas, ?_, ?_⟩
    · rintro ⟨rfl, rfl⟩
      exact hi (hs.has_unique (h.isDir_iff.mp hp).1 hhas h.source)
    · rintro ⟨rfl, rfl⟩
      exact hv ((h.target i).mpr hhas)

theorem wellNamed : WellNamed root s' := by
  refine ⟨?_, fun p hp => h.distinct hs hp⟩
  · have hmem := h.mem
    by_cases hmoved : (s.core moved).isDir = true
    · have hroot : moved ≠ root := fun heq =>
        hs.tree.root_unnamed fromDir from_ h.dirs.1 (heq ▸ h.source)
      have hparent : victim ≠ some toDir := fun hv => (h.victim_ne hs hv).1 rfl
      refine (h.tree_without hs).move moved toDir to_ ⟨⟨hmem, hmoved⟩, h.ne⟩ hroot
        ⟨h.dirs.2, hparent⟩ (h.above hmoved) (fun i => h.isDir_iff) (fun i hi hne => ?_) ?_
        (fun p n i hp hi hne => h.has_other hs (h.isDir_iff.mpr hp) hne hi.2) fun p n hp => ?_
      · exact (h.parents i hi.2).trans (if_neg fun heq => hne heq.1)
      · exact (h.parents moved h.ne).trans (if_pos ⟨rfl, hmoved⟩)
      · change s'.Has p n moved ↔ p = toDir ∧ n = to_
        rw [h.has_iff hs (h.isDir_iff.mpr hp)]
        constructor
        · rintro (⟨hhas, hfrom, -⟩ | ⟨hp', hn, -⟩)
          · have hup := hs.tree.once moved ⟨hmem, hmoved⟩ p n hp.1 hhas
            have hup' := hs.tree.once moved ⟨hmem, hmoved⟩ fromDir from_ h.dirs.1 h.source
            obtain rfl : p = fromDir := hup.trans hup'.symm
            exact absurd ⟨rfl, hs.tree.once_name moved ⟨hmem, hmoved⟩ p n from_ hp.1 hhas h.source⟩ hfrom
          · exact ⟨hp', hn⟩
        · exact fun heq => .inr ⟨heq.1, heq.2, rfl⟩
    · -- nothing a directory is named by changes
      have hfile : ∀ i, s.IsDir i → i ≠ moved ∧ victim ≠ some i := by
        refine fun i hi => ⟨fun heq => hmoved (heq ▸ hi.2), fun hv => hmoved ?_⟩
        rw [← h.alike i hv]
        exact hi.2
      refine hs.tree.congr (fun i => ?_) (fun i hi => ?_) fun p n i hp hi => ?_
      · exact h.isDir_iff.trans (and_iff_left_of_imp fun hi => (hfile i hi).2)
      · exact (h.parents i (hfile i hi).2).trans (if_neg fun heq => (hfile i hi).1 heq.1)
      · exact h.has_other hs (h.isDir_iff.mpr ⟨hp, (hfile p hp).2⟩) (hfile i hi).1 (hfile i hi).2

end Renamed

end

/-! ## That is what a rename does -/

section

variable {s s' : State} {answers : Answers s} {sb : Superblock} {fromDir toDir moved : ℕ}
  {from_ to_ : List UInt8}

variable {core : Core} {dstChange : Option Core}

theorem setCore_core_self {s : State} {d : ℕ} : (s.setCore d core).core d = core :=
  put_core_self

theorem setCore_core_of_ne {s : State} {d e : ℕ} (h : e ≠ d) :
    (s.setCore d core).core e = s.core e :=
  put_core_of_ne h

theorem setCore_free {s : State} {d : ℕ} (i : ℕ) :
    ((s.setCore d core).slot i).free = (s.slot i).free := by
  by_cases hi : i = d
  · subst hi
    simp [setCore, put]
  · simp [setCore, put, hi]

theorem above_of_has {root : ℕ} (hs : WellNamed root s) (hdir : s.IsDir fromDir)
    (hmem : moved ∈ s.inos) (hhas : s.Has fromDir from_ moved) (hmoved : (s.core moved).isDir = true) (n : ℕ) :
    s.forest.up^[n] fromDir ≠ moved := by
  intro hup
  have hnode : s.IsDir moved := ⟨hmem, hmoved⟩
  have hroot : moved ≠ root := fun heq => hs.tree.root_unnamed fromDir from_ hdir (heq ▸ hhas)
  have honce : fromDir = s.forest.up moved := hs.tree.once moved hnode fromDir from_ hdir hhas
  rw [honce] at hup
  exact iterate_ne_self hs.tree.root_up (hs.tree.reaches moved hnode) hroot (Nat.succ_pos n) hup

theorem renameInDirectory_cases (hdistinct : (s.core fromDir).names.Distinct)
    (h : s.renameInDirectory answers sb fromDir from_ to_ = .ok s') :
    ∃ moved change, s.IsDir fromDir ∧ moved ∈ s.inos ∧ s.Has fromDir from_ moved ∧
      change.mode = (s.core fromDir).mode ∧ change.nlink = (s.core fromDir).nlink ∧
      change.names.parent = (s.core fromDir).names.parent ∧
      (∀ x ∈ (s.core fromDir).names.entries, x.name ≠ to_) ∧
      Traded (s.core fromDir).names.entries change.names.entries [⟨from_, moved⟩] [⟨to_, moved⟩] ∧
      s' = (s.setCore fromDir change).setCore moved (s.core moved) := by
  obtain ⟨_, -, h⟩ := bind_eq_ok.mp h
  obtain ⟨_, -, h⟩ := bind_eq_ok.mp h
  obtain ⟨_, -, h⟩ := bind_eq_ok.mp h
  obtain ⟨dir, hread, h⟩ := bind_eq_ok.mp h
  obtain ⟨_, hisDir, h⟩ := bind_eq_ok.mp h
  obtain ⟨hmem, rfl⟩ := readInode_ok hread
  have hdir : s.IsDir fromDir := ⟨hmem, ensure_eq_ok.mp hisDir⟩
  split at h
  · obtain ⟨_, hnone, h⟩ := bind_eq_ok.mp h
    obtain ⟨found, hfound, h⟩ := bind_eq_ok.mp h
    obtain ⟨⟨format, nodeForm⟩, -, h⟩ := bind_eq_ok.mp h
    obtain ⟨movedCore, hmoved, h⟩ := bind_eq_ok.mp h
    obtain ⟨_, -, h⟩ := bind_eq_ok.mp h
    obtain ⟨hmovedMem, rfl⟩ := readInode_ok hmoved
    obtain ⟨hhas, rfl⟩ := (Directory.find_eq_some hdistinct).mp (orElse_eq_ok.mp hfound)
    refine ⟨found.ino, _, hdir, hmovedMem, hhas, ?_, ?_, ?_,
      Directory.has_eq_false.mp (ensure_eq_ok.mp hnone), ?_, (Except.ok.inj h).symm⟩
    · rfl
    · rfl
    · rfl
    · exact ⟨_, Directory.perm_without hdistinct hhas, List.perm_append_singleton _ _⟩
  next hformat =>
    obtain ⟨change, hchange, h⟩ := bind_eq_ok.mp h
    obtain ⟨ino, hino, h⟩ := bind_eq_ok.mp h
    obtain ⟨movedCore, hmoved, h⟩ := bind_eq_ok.mp h
    obtain ⟨_, -, h⟩ := bind_eq_ok.mp h
    obtain ⟨hmovedMem, rfl⟩ := readInode_ok hmoved
    obtain ⟨hmode, hnlink, hedit⟩ := changeDirectory_one hchange
    obtain ⟨hparent, hnone, ino', rest, hfind, hout, hin⟩ :=
      Core.edit_rename hdistinct hformat hedit
    have hhas : s.Has fromDir from_ ino := entryIno_mem hdistinct (orElse_eq_ok.mp hino)
    have hfind' := (Directory.find_eq_some hdistinct).mpr ⟨hhas, rfl⟩
    obtain rfl : ino' = ino := congrArg Entry.ino (Option.some.inj (hfind.symm.trans hfind'))
    exact ⟨ino', change, hdir, hmovedMem, hhas, hmode, hnlink, hparent, hnone, ⟨rest, hout, hin⟩,
      (Except.ok.inj h).symm⟩

theorem linkBy_ok {was n : ℕ} {delta : ℤ} (h : linkBy was delta = .ok n) :
    (n : ℤ) = was + delta := by
  unfold linkBy at h
  split at h
  next hzero =>
    cases h
    omega
  next =>
    obtain ⟨_, hrange, h⟩ := bind_eq_ok.mp h
    obtain ⟨hnonneg, -⟩ := ensure_eq_ok.mp hrange
    cases h
    exact Int.toNat_of_nonneg hnonneg

theorem replacedCore_ok {isDir : Bool} {target : Option ℕ} {victim : Option (ℕ × Core)}
    (h : s.replacedCore answers isDir target = .ok victim) :
    victim = target.map (fun t => (t, s.core t)) ∧ ∀ t, target = some t →
      (s.core t).isDir = isDir ∧ ((s.core t).isDir = true → (s.core t).names.entries = []) := by
  cases target with
  | none => exact ⟨(Except.ok.inj h).symm, by simp⟩
  | some t =>
    obtain ⟨core, hread, h⟩ := bind_eq_ok.mp h
    obtain ⟨_, hcheck, h⟩ := bind_eq_ok.mp h
    obtain ⟨-, rfl⟩ := readInode_ok hread
    cases h
    refine ⟨rfl, fun t' ht => ?_⟩
    cases ht
    unfold checkReplaced at hcheck
    split at hcheck
    · cases hcheck
    · cases hcheck
    next hv _ => exact ⟨hv, fun _ => ensure_eq_ok.mp hcheck⟩
    next hv _ => exact ⟨hv, fun htrue => absurd (hv.symm.trans htrue) (by simp)⟩

theorem refuseBeneath_ok (hs : WellNamed sb.rootino s) (hdir : s.IsDir fromDir)
    (hmem : moved ∈ s.inos) (hhas : s.Has fromDir from_ moved) {u : Unit}
    (h : s.refuseBeneath answers sb.rootino fromDir toDir moved (s.core moved).isDir = .ok u)
    (hmoved : (s.core moved).isDir = true) (n : ℕ) : s.forest.up^[n] toDir ≠ moved := by
  unfold refuseBeneath at h
  split at h
  · obtain ⟨m, hroot, hall⟩ := walkUp_ok h
    have hne : moved ≠ sb.rootino := fun heq =>
      hs.tree.root_unnamed fromDir from_ hdir (heq ▸ hhas)
    rcases Nat.lt_or_ge n m with hlt | hge
    · exact hall n hlt
    · rw [← Nat.sub_add_cancel hge, Function.iterate_add_apply, hroot,
        Function.iterate_fixed hs.tree.root_up]
      exact hne.symm
  next hsame =>
    have hsame : fromDir = toDir := by
      by_contra hne
      exact hsame ⟨hmoved, hne⟩
    exact hsame ▸ above_of_has hs hdir hmem hhas hmoved n

theorem changes_ok {src movedChange : Core} {replaces : Bool}
    (h : s.changes answers fromDir toDir moved (s.core fromDir) (s.core toDir) (s.core moved) from_ to_
      replaces = .ok (src, dstChange, movedChange)) :
    (fromDir = toDir ∧ dstChange = none ∧ movedChange = s.core moved ∧
      s.changeDirectory answers "a rename" fromDir (s.core fromDir)
        [.remove from_, .remove to_, .add ⟨to_, moved⟩] = .ok src) ∨
    (fromDir ≠ toDir ∧
      s.changeDirectory answers "a rename" fromDir (s.core fromDir) [.remove from_] = .ok src ∧
      ∃ dst, dstChange = some dst ∧
        s.changeDirectory answers "a rename" toDir (s.core toDir)
          (if replaces then [.remove to_, .add ⟨to_, moved⟩] else [.add ⟨to_, moved⟩]) = .ok dst ∧
        movedChange.mode = (s.core moved).mode ∧ movedChange.nlink = (s.core moved).nlink ∧
        movedChange.names = if (s.core moved).isDir = true then
          { (s.core moved).names with parent := toDir } else (s.core moved).names) := by
  unfold changes at h
  split at h
  next hsame =>
    obtain ⟨change, hchange, h⟩ := bind_eq_ok.mp h
    obtain ⟨rfl, hrest⟩ := Prod.mk.inj (Except.ok.inj h)
    obtain ⟨rfl, rfl⟩ := Prod.mk.inj hrest
    exact .inl ⟨hsame, rfl, rfl, hchange⟩
  next hother =>
    obtain ⟨srcChange, hsrc, h⟩ := bind_eq_ok.mp h
    obtain ⟨dst, hdst, h⟩ := bind_eq_ok.mp h
    split at h
    next hmoved =>
      obtain ⟨change, hchange, h⟩ := bind_eq_ok.mp h
      obtain ⟨rfl, hrest⟩ := Prod.mk.inj (Except.ok.inj h)
      obtain ⟨rfl, rfl⟩ := Prod.mk.inj hrest
      obtain ⟨hmode, hnlink, hedit⟩ := changeDirectory_one hchange
      refine .inr ⟨hother, hsrc, dst, rfl, hdst, hmode, hnlink, ?_⟩
      rw [if_pos hmoved]
      exact Core.edit_reparent hedit
    next hmoved =>
      obtain ⟨rfl, hrest⟩ := Prod.mk.inj (Except.ok.inj h)
      obtain ⟨rfl, rfl⟩ := Prod.mk.inj hrest
      exact .inr ⟨hother, hsrc, dst, rfl, hdst, rfl, rfl, (if_neg hmoved).symm⟩

theorem changes_traded {src movedChange : Core}
    (hfrom : (s.core fromDir).names.Distinct) (hto : (s.core toDir).names.Distinct)
    (hmoved : entryIno (s.core fromDir) from_ = some moved)
    (hne : entryIno (s.core toDir) to_ ≠ some moved)
    (hsome : fromDir = toDir → entryIno (s.core toDir) to_ ≠ none)
    (h : s.changes answers fromDir toDir moved (s.core fromDir) (s.core toDir) (s.core moved) from_ to_
      (entryIno (s.core toDir) to_).isSome = .ok (src, dstChange, movedChange)) :
    (fromDir = toDir ∧ dstChange = none ∧ movedChange = s.core moved ∧
      src.mode = (s.core fromDir).mode ∧ src.names.parent = (s.core fromDir).names.parent ∧
      Traded (s.core fromDir).names.entries src.names.entries
        (outOf fromDir toDir from_ to_ moved (entryIno (s.core toDir) to_) toDir) [⟨to_, moved⟩]) ∨
    (fromDir ≠ toDir ∧ src.mode = (s.core fromDir).mode ∧
      src.names.parent = (s.core fromDir).names.parent ∧
      Traded (s.core fromDir).names.entries src.names.entries [⟨from_, moved⟩] [] ∧
      ∃ dst, dstChange = some dst ∧ dst.mode = (s.core toDir).mode ∧
        dst.names.parent = (s.core toDir).names.parent ∧
        Traded (s.core toDir).names.entries dst.names.entries
          (outOf fromDir toDir from_ to_ moved (entryIno (s.core toDir) to_) toDir) [⟨to_, moved⟩] ∧
        movedChange.mode = (s.core moved).mode ∧ movedChange.nlink = (s.core moved).nlink ∧
        movedChange.names = if (s.core moved).isDir = true then
          { (s.core moved).names with parent := toDir } else (s.core moved).names) := by
  have hhas := entryIno_mem hfrom hmoved
  generalize htgt : entryIno (s.core toDir) to_ = target at *
  rcases changes_ok h with ⟨rfl, rfl, rfl, hchange⟩ |
    ⟨hother, hsrcChange, dst, rfl, hdstChange, hmode, hnlink, hnames⟩
  · -- one directory, with a target
    obtain ⟨v, rfl⟩ := Option.ne_none_iff_exists'.mp (hsome rfl)
    obtain ⟨hmode, -, hfold⟩ := changeDirectory_ok hchange
    have hv := entryIno_mem hto htgt
    have hnames : from_ ≠ to_ := by
      rintro rfl
      exact hne (htgt.symm.trans hmoved)
    obtain ⟨hparent, htraded⟩ := Core.foldlM_trade [⟨from_, moved⟩, ⟨to_, v⟩] hfrom (by
      intro x hx
      rcases List.mem_cons.mp hx with rfl | hx
      · exact hhas
      · exact List.mem_singleton.mp hx ▸ hv) (by simpa using hnames) hfold
    exact .inl ⟨rfl, rfl, rfl, hmode, hparent, by simpa [outOf] using htraded⟩
  · obtain ⟨hsrcMode, -, hsrcEdit⟩ := changeDirectory_one hsrcChange
    obtain ⟨hdstMode, -, hdstFold⟩ := changeDirectory_ok hdstChange
    obtain ⟨hsrcParent, hsrcPerm⟩ := Core.edit_remove (e := ⟨from_, moved⟩) hfrom hhas hsrcEdit
    have htrade : dst.names.parent = (s.core toDir).names.parent ∧
        Traded (s.core toDir).names.entries dst.names.entries
          (outOf fromDir toDir from_ to_ moved target toDir) [⟨to_, moved⟩] := by
      cases target with
      | none =>
        have hdone := Core.foldlM_trade [] hto (by simp) .nil hdstFold
        simpa [outOf, Ne.symm hother] using hdone
      | some v =>
        have hdone := Core.foldlM_trade [⟨to_, v⟩] hto (by
          intro x hx
          exact List.mem_singleton.mp hx ▸ entryIno_mem hto htgt) (List.nodup_singleton _) hdstFold
        simpa [outOf, Ne.symm hother] using hdone
    exact .inr ⟨hother, hsrcMode, hsrcParent, ⟨_, hsrcPerm, .refl _⟩, dst, rfl, hdstMode, htrade.1,
      htrade.2, hmode, hnlink, hnames⟩

theorem putVictim_of_ne {s : State} {victim : Option ℕ} {cores : ℕ → Core} {i : ℕ}
    (h : victim ≠ some i) :
    (putVictim s (victim.map fun t => (t, cores t))).slot i = s.slot i := by
  cases victim with
  | none => rfl
  | some t => exact put_slot_of_ne fun heq => h (heq ▸ rfl)

/-- One directory of a rename, as its edits and its count leave it. -/
structure DirAfter (before after : Core) (out in_ : List Entry) (delta : ℤ) : Prop where
  mode : after.mode = before.mode
  parent : after.names.parent = before.names.parent
  entries : Traded before.names.entries after.names.entries out in_
  nlink : (after.nlink : ℤ) = before.nlink + delta

theorem renamed_of_parts {mid : State} {victim : Option ℕ} (hs : WellNamed sb.rootino s)
    (hdirs : s.IsDir fromDir ∧ s.IsDir toDir) (hmem : moved ∈ s.inos)
    (hhas : s.Has fromDir from_ moved) (htarget : ∀ v, victim = some v ↔ s.Has toDir to_ v) (hne : victim ≠ some moved)
    (hlike : ∀ t, victim = some t → (s.core t).isDir = (s.core moved).isDir ∧
      ((s.core t).isDir = true → (s.core t).names.entries = []))
    (habove : (s.core moved).isDir = true → ∀ n, s.forest.up^[n] toDir ≠ moved)
    (hfreed : s.freeVictim sb (victim.map fun t => (t, s.core t)) = .ok ())
    (hinos : mid.inos = s.inos) (hfree : ∀ i, (mid.slot i).free = (s.slot i).free)
    (hother : ∀ i, i ≠ fromDir → i ≠ toDir → i ≠ moved → mid.core i = s.core i)
    (hfrom : fromDir ≠ toDir → DirAfter (s.core fromDir) (mid.core fromDir) [⟨from_, moved⟩] []
      (-ofBool (s.core moved).isDir))
    (hto : DirAfter (s.core toDir) (mid.core toDir) (outOf fromDir toDir from_ to_ moved victim toDir)
      [⟨to_, moved⟩] (ofBool ((s.core moved).isDir && !decide (fromDir = toDir)) -
        ofBool (victim.any fun v => (s.core v).isDir)))
    (hmoved : (mid.core moved).mode = (s.core moved).mode ∧
      (mid.core moved).nlink = (s.core moved).nlink ∧
      (mid.core moved).names.entries = (s.core moved).names.entries ∧
      (mid.core moved).names.parent =
        if (s.core moved).isDir = true then toDir else (s.core moved).names.parent) :
    Renamed s (putVictim mid (victim.map fun t => (t, s.core t))) fromDir toDir from_ to_ moved
      victim := by
  have hslot : ∀ i, victim ≠ some i →
      (putVictim mid (victim.map fun t => (t, s.core t))).slot i = mid.slot i :=
    fun i hi => putVictim_of_ne hi
  have hcore : ∀ i, victim ≠ some i →
      (putVictim mid (victim.map fun t => (t, s.core t))).core i = mid.core i :=
    fun i hi => congrArg Slot.core (hslot i hi)
  have hvne : ∀ v, victim = some v → v ≠ fromDir ∧ v ≠ toDir ∧ v ≠ moved := by
    intro v hv
    refine ⟨?_, fun heq => hs.not_self hdirs.2 (heq ▸ (htarget v).mp hv), fun heq => hne (heq ▸ hv)⟩
    rintro rfl
    have hempty := (hlike v hv).2 hdirs.1.2
    unfold Has at hhas
    rw [hempty] at hhas
    cases hhas
  refine ⟨?_, hdirs, hmem, hhas, htarget, hne, fun v hv => (hlike v hv).1, fun v hv => (hlike v hv).2,
    habove, fun i hi => ?_, fun v hv => ?_, fun p hp => ?_, fun i hi => ?_, fun i hi => ?_⟩
  · cases victim with
    | none => exact hinos
    | some t => exact hinos
  · rw [hcore i hi, hslot i hi, hfree]
    refine ⟨rfl, ?_⟩
    by_cases him : i = moved
    · exact him ▸ hmoved.1
    · by_cases hit : i = toDir
      · exact hit ▸ hto.mode
      · by_cases hif : i = fromDir
        · exact hif ▸ (hfrom fun heq => hit (hif.trans heq)).mode
        · rw [hother i hif hit him]
  · obtain ⟨hvf, hvt, hvm⟩ := hvne v hv
    subst hv
    have hmid : mid.slot v = s.slot v := by
      have hc := hother v hvf hvt hvm
      have hf := hfree v
      unfold core at hc
      revert hc hf
      cases mid.slot v
      cases s.slot v
      rintro rfl rfl
      rfl
    refine ⟨?_, fun hgone => ?_⟩
    · change ((mid.put v _).slot v) = _
      rw [put_slot_self, hmid]
    · change s.freeIf sb (victimFreed (s.core v)) v = .ok () at hfreed
      unfold freeIf at hfreed
      rw [if_pos hgone] at hfreed
      obtain ⟨_, -, hfreed⟩ := bind_eq_ok.mp hfreed
      exact ensure_eq_ok.mp hfreed
  · rw [hcore p hp]
    by_cases hpt : p = toDir
    · subst hpt
      simpa [inOf] using hto.entries
    · by_cases hpf : p = fromDir
      · subst hpf
        simpa [outOf, inOf, hpt] using (hfrom hpt).entries
      · have hsame : (mid.core p).names.entries = (s.core p).names.entries := by
          by_cases hpm : p = moved
          · exact hpm ▸ hmoved.2.2.1
          · rw [hother p hpf hpt hpm]
        rw [hsame]
        simpa [outOf, inOf, hpt, hpf] using Traded.same _
  · rw [hcore i hi]
    by_cases him : i = moved
    · subst him
      simpa using hmoved.2.2.2
    · rw [if_neg fun heq => him heq.1]
      by_cases hit : i = toDir
      · exact hit ▸ hto.parent
      · by_cases hif : i = fromDir
        · exact hif ▸ (hfrom fun heq => hit (hif.trans heq)).parent
        · rw [hother i hif hit him]
  · rw [hcore i hi]
    by_cases hit : i = toDir
    · subst hit
      rw [hto.nlink]
      by_cases hsame : fromDir = i
      · simp [hsame, ofBool]
        ring
      · simp [hsame, ofBool, Ne.symm hsame]
        ring
    · by_cases hif : i = fromDir
      · subst hif
        rw [(hfrom hit).nlink]
        simp [hit, ofBool]
        ring
      · have hsame : (mid.core i).nlink = (s.core i).nlink := by
          by_cases him : i = moved
          · exact him ▸ hmoved.2.1
          · rw [hother i hif hit him]
        rw [hsame]
        simp [hit, hif, ofBool]

theorem renameInDirectory_renamed (hs : WellNamed sb.rootino s) (hdir : s.IsDir fromDir)
    (h : s.renameInDirectory answers sb fromDir from_ to_ = .ok s') :
    ∃ moved, Renamed s s' fromDir fromDir from_ to_ moved none := by
  obtain ⟨moved, change, -, hmem, hhas, hmode, hnlink, hparent, hnone, htraded, rfl⟩ :=
    renameInDirectory_cases (hs.distinct fromDir hdir) h
  have hmf : fromDir ≠ moved := by
    rintro rfl
    exact hs.not_self hdir hhas
  refine ⟨moved, ?_⟩
  change Renamed s (putVictim ((s.setCore fromDir change).setCore moved (s.core moved))
    ((none : Option ℕ).map fun t => (t, s.core t))) fromDir fromDir from_ to_ moved none
  refine renamed_of_parts hs ⟨hdir, hdir⟩ hmem hhas (fun v => ?_) (by simp) (by simp)
    (above_of_has hs hdir hmem hhas) rfl rfl (fun i => by rw [setCore_free, setCore_free])
    (fun i hif _ him => ?_) (fun hself => absurd rfl hself) ?_ ?_
  · exact iff_of_false (by simp) fun hto => hnone _ hto rfl
  · rw [setCore_core_of_ne him, setCore_core_of_ne hif]
  · rw [setCore_core_of_ne hmf, setCore_core_self]
    exact ⟨hmode, hparent, by simpa [outOf] using htraded, by simp [hnlink, ofBool]⟩
  · rw [setCore_core_self]
    refine ⟨rfl, rfl, rfl, ?_⟩
    split
    next hisDir => exact (hs.tree.once moved ⟨hmem, hisDir⟩ fromDir from_ hdir hhas).symm
    next => rfl

theorem Moving.renamed (hs : WellNamed sb.rootino s) (hfrom : s.IsDir fromDir)
    (hmem : moved ∈ s.inos) (hto : s.IsDir toDir) (hvalid : entryNameIsValid to_ = true)
    (hmoved : entryIno (s.core fromDir) from_ = some moved)
    (hne : entryIno (s.core toDir) to_ ≠ some moved)
    (hsome : fromDir = toDir → entryIno (s.core toDir) to_ ≠ none)
    {victim : Option (ℕ × Core)} {srcChange movedChange : Core}
    {srcLinks toLinks : ℕ}
    (h : Moving s answers sb fromDir toDir from_ to_ moved victim srcChange dstChange movedChange
      srcLinks toLinks) :
    Renamed s (putVictim ((putDst (s.setCore fromDir { srcChange with nlink := srcLinks }) toDir
      toLinks dstChange).setCore moved movedChange) victim) fromDir toDir from_ to_ moved
      (entryIno (s.core toDir) to_) := by
  have hhas := entryIno_eq_some hs hfrom hmoved
  have htarget : ∀ v, entryIno (s.core toDir) to_ = some v ↔ s.Has toDir to_ v :=
    fun v => entryIno_iff hs hto hvalid
  obtain ⟨rfl, hlike⟩ := replacedCore_ok h.replaced
  have hmf : fromDir ≠ moved := by
    rintro rfl
    exact hs.not_self hfrom hhas
  have habove := refuseBeneath_ok hs hfrom hmem hhas h.above
  have hmt : toDir ≠ moved := fun heq => habove (heq ▸ hto.2) 0 heq
  have hsrc := linkBy_ok h.srcCount
  have hany : (Option.map (fun t => (t, s.core t)) (entryIno (s.core toDir) to_)).any
      (fun p => p.2.isDir) = (entryIno (s.core toDir) to_).any fun v => (s.core v).isDir := by
    cases entryIno (s.core toDir) to_ with
    | none => rfl
    | some v => rfl
  have htoCount := h.toCount
  rw [hany] at hsrc htoCount
  have hfreed := h.freed
  rcases changes_traded (hs.distinct fromDir hfrom) (hs.distinct toDir hto) hmoved hne hsome h.changed
    with ⟨rfl, rfl, rfl, hmode, hparent, htraded⟩ |
      ⟨hother, hsrcMode, hsrcParent, hsrcTraded, dst, rfl, hdstMode, hdstParent, hdstTraded, hmode,
        hnlink, hnames⟩
  · -- one directory, with a target
    refine renamed_of_parts hs ⟨hfrom, hto⟩ hmem hhas htarget hne hlike habove hfreed rfl
      (fun i => by rw [setCore_free]; exact setCore_free i) (fun i hif _ him => ?_)
      (fun hself => absurd rfl hself) ?_ ?_
    · rw [setCore_core_of_ne him]
      exact setCore_core_of_ne hif
    · rw [setCore_core_of_ne hmf]
      have hcore : (putDst (s.setCore fromDir { srcChange with nlink := srcLinks }) fromDir toLinks
          none).core fromDir = { srcChange with nlink := srcLinks } := setCore_core_self
      rw [hcore]
      refine ⟨hmode, hparent, htraded, ?_⟩
      simp only [hsrc]
      simp [ofBool]
    · rw [setCore_core_self]
      refine ⟨rfl, rfl, rfl, ?_⟩
      split
      next hisDir =>
        exact (hs.tree.once moved ⟨hmem, hisDir⟩ fromDir from_ hfrom hhas).symm
      next => rfl
  · have htoLinks : (toLinks : ℤ) = _ := linkBy_ok htoCount
    have hcoreTo : ((putDst (s.setCore fromDir { srcChange with nlink := srcLinks }) toDir toLinks
        (some dst)).setCore moved movedChange).core toDir = { dst with nlink := toLinks } := by
      rw [setCore_core_of_ne hmt]
      exact setCore_core_self
    have hcoreFrom : ((putDst (s.setCore fromDir { srcChange with nlink := srcLinks }) toDir toLinks
        (some dst)).setCore moved movedChange).core fromDir = { srcChange with nlink := srcLinks } := by
      rw [setCore_core_of_ne hmf]
      exact (setCore_core_of_ne hother).trans setCore_core_self
    refine renamed_of_parts hs ⟨hfrom, hto⟩ hmem hhas htarget hne hlike habove hfreed rfl (fun i => ?_)
      (fun i hif hit him => ?_) (fun _ => ?_) ?_ ?_
    · rw [setCore_free]
      exact (setCore_free i).trans (setCore_free i)
    · rw [setCore_core_of_ne him]
      exact (setCore_core_of_ne hit).trans (setCore_core_of_ne hif)
    · rw [hcoreFrom]
      refine ⟨hsrcMode, hsrcParent, hsrcTraded, ?_⟩
      simp only [hsrc, hother, decide_false, Bool.not_false, Bool.and_true, Bool.false_and]
      simp [ofBool]
    · rw [hcoreTo]
      refine ⟨hdstMode, hdstParent, hdstTraded, ?_⟩
      simp only [htoLinks, hother, decide_false, Bool.not_false, Bool.and_true]
    · rw [setCore_core_self]
      refine ⟨hmode, hnlink, ?_, ?_⟩
      · rw [hnames]
        split
        · rfl
        · rfl
      · rw [hnames]
        split
        · rfl
        · rfl

theorem rename_renamed (hs : WellNamed sb.rootino s)
    (h : s.rename answers sb fromDir from_ toDir to_ = .ok s') :
    (s' = s ∧ ∃ moved, s.IsDir fromDir ∧ s.IsDir toDir ∧ s.Has fromDir from_ moved ∧
      s.Has toDir to_ moved) ∨
      ∃ moved victim, Renamed s s' fromDir toDir from_ to_ moved victim := by
  obtain ⟨hfrom, hto, hvalid, moved, hmoved, hcourse⟩ := rename_cases h
  rcases hcourse with ⟨rfl, hcourse⟩ | ⟨hself, rfl⟩ | ⟨hmem, hne, hsome, victim, srcChange,
    dstChange, movedChange, srcLinks, toLinks, hmoving, rfl⟩
  · obtain ⟨moved, hrenamed⟩ := renameInDirectory_renamed hs hfrom hcourse
    exact .inr ⟨moved, none, hrenamed⟩
  · exact .inl ⟨rfl, moved, hfrom, hto, entryIno_eq_some hs hfrom hmoved, entryIno_eq_some hs hto hself⟩
  · exact .inr ⟨moved, _, hmoving.renamed hs hfrom hmem hto hvalid hmoved hne hsome⟩

end

end State

end FsXfs.Names
