import FsXfs.Names.Renaming

/-!
# What a create, a link and a removal do

Each changes two inodes: a directory, whose entries are traded, and the inode the entry names.
`Relinked` is that change, and `create_relinked`, `link_relinked` and `remove_relinked` say that it is
all they do. A directory made is a leaf more of the tree, and one removed a leaf less.
-/

namespace FsXfs.Names

open Hierarchy

set_option autoImplicit false

namespace State

structure Relinked (s s' : State) (p i : ℕ) (change : Core) (slot : Slot) (out in_ : List Entry) :
    Prop where
  eq : s' = (s.setCore p change).put i slot
  dir : s.IsDir p
  mem : i ∈ s.inos
  ne : i ≠ p
  mode : change.mode = (s.core p).mode
  parent : change.names.parent = (s.core p).names.parent
  entries : Traded (s.core p).names.entries change.names.entries out in_

/-! ## Two inodes changed -/

section

variable {root : ℕ} {s s' : State} {p i : ℕ} {change : Core} {slot : Slot} {out in_ : List Entry}

namespace Relinked

variable (h : Relinked s s' p i change slot out in_)

include h

theorem inos : s'.inos = s.inos := by
  rw [h.eq]
  rfl

theorem core_self : s'.core i = slot.core := by
  rw [h.eq, put_core_self]

theorem core_dir : s'.core p = change := by
  rw [h.eq, put_core_of_ne h.ne.symm, setCore_core_self]

variable {k : ℕ}

theorem core_of_ne (hp : k ≠ p) (hi : k ≠ i) : s'.core k = s.core k := by
  rw [h.eq, put_core_of_ne hi, setCore_core_of_ne hp]

theorem slot_self : s'.slot i = slot := by
  rw [h.eq, put_slot_self]

theorem free_of_ne (hi : k ≠ i) : (s'.slot k).free = (s.slot k).free := by
  rw [h.eq, put_slot_of_ne hi]
  exact setCore_free k

theorem isDir_of_ne (hi : k ≠ i) : s'.IsDir k ↔ s.IsDir k := by
  unfold IsDir
  rw [h.inos]
  by_cases hp : k = p
  · subst hp
    unfold Core.isDir
    rw [h.core_dir, h.mode]
  · rw [h.core_of_ne hp hi]

theorem up_of_ne (hi : k ≠ i) : s'.forest.up k = s.forest.up k := by
  change (s'.core k).names.parent = (s.core k).names.parent
  by_cases hp : k = p
  · subst hp
    rw [h.core_dir, h.parent]
  · rw [h.core_of_ne hp hi]

section

variable (hs : WellNamed root s)

include hs

theorem has_iff {q k : ℕ} {name : List UInt8} (hi : q ≠ i) :
    s'.Has q name k ↔
      (s.Has q name k ∧ ∀ x ∈ out, q = p → name ≠ x.name) ∨ (q = p ∧ (⟨name, k⟩ : Entry) ∈ in_) := by
  unfold Has
  by_cases hp : q = p
  · subst hp
    rw [h.core_dir, h.entries.mem_iff (hs.distinct q h.dir)]
    simp
  · rw [h.core_of_ne hp hi]
    simp [hp]

theorem distinct (hin : (in_.map Entry.name).Nodup)
    (hnew : ∀ e ∈ in_, ∀ x ∈ (s.core p).names.entries, x.name ≠ e.name)
    (hself : slot.core.isDir = true → slot.core.names.Distinct) (hk : s'.IsDir k) :
    (s'.core k).names.Distinct := by
  by_cases hi : k = i
  · subst hi
    have hdir : (s'.core k).isDir = true := hk.2
    rw [h.core_self] at hdir ⊢
    exact hself hdir
  · have hold := hs.distinct k ((h.isDir_of_ne hi).mp hk)
    by_cases hp : k = p
    · subst hp
      rw [h.core_dir]
      exact h.entries.nodup_map Entry.name hold hin fun e he x hx hname => absurd hname (hnew e he x hx)
    · rw [h.core_of_ne hp hi]
      exact hold

theorem tree_of_file (hold : (s.core i).isDir = false) (hfile : slot.core.isDir = false)
    (hout : ∀ e ∈ out, e = ⟨e.name, i⟩ ∧ s.Has p e.name i) (hin : ∀ e ∈ in_, e.ino = i) :
    IsTree s'.forest root := by
  have hne : ∀ k, s.IsDir k → k ≠ i := by
    rintro k hk rfl
    exact Bool.false_ne_true (hold.symm.trans hk.2)
  have hself : ¬s'.IsDir i := by
    intro hdir
    have hcore : (s'.core i).isDir = true := hdir.2
    rw [h.core_self, hfile] at hcore
    exact Bool.false_ne_true hcore
  refine hs.tree.congr (fun k => ?_) (fun k hk => h.up_of_ne (hne k hk)) fun q name k hq hk => ?_
  · change s'.IsDir k ↔ s.IsDir k
    by_cases hi : k = i
    · subst hi
      exact iff_of_false hself fun hk => hne k hk rfl
    · exact h.isDir_of_ne hi
  · change s'.Has q name k ↔ s.Has q name k
    rw [h.has_iff hs (hne q hq)]
    constructor
    · rintro (⟨hhas, -⟩ | ⟨-, hmem⟩)
      · exact hhas
      · exact absurd (hin _ hmem) (hne k hk)
    · refine fun hhas => .inl ⟨hhas, fun x hx hp heq => ?_⟩
      subst hp heq
      exact hne k hk (hs.has_unique hq hhas (hout x hx).2)

theorem tree_of_made (name : List UInt8) (hold : (s.core i).isDir = false)
    (hdir : slot.core.isDir = true) (hnames : slot.core.names = ⟨p, []⟩) (hout : out = [])
    (hin : in_ = [⟨name, i⟩]) (hunnamed : ∀ q n, s.IsDir q → ¬s.Has q n i) :
    IsTree s'.forest root := by
  subst hout hin
  have hne : ∀ k, s.IsDir k → k ≠ i := by
    rintro k hk rfl
    exact Bool.false_ne_true (hold.symm.trans hk.2)
  refine hs.tree.add i p name h.dir (fun hk => hne i hk rfl) (fun k => ?_)
    (fun k hk => h.up_of_ne (hne k hk)) ?_ (fun q n k hq hk => ?_) (fun q n hq => ?_) fun n k _ hhas => ?_
  · change s'.IsDir k ↔ s.IsDir k ∨ k = i
    by_cases hi : k = i
    · subst hi
      refine iff_of_true ⟨h.inos ▸ h.mem, ?_⟩ (.inr rfl)
      rw [h.core_self]
      exact hdir
    · rw [h.isDir_of_ne hi]
      exact (or_iff_left hi).symm
  · change (s'.core i).names.parent = p
    rw [h.core_self, hnames]
  · change s'.Has q n k ↔ s.Has q n k
    rw [h.has_iff hs (hne q hq)]
    simp [hne k hk]
  · change s'.Has q n i ↔ q = p ∧ n = name
    rw [h.has_iff hs (hne q hq)]
    simp [hunnamed q n hq]
  · change (⟨n, k⟩ : Entry) ∈ (s'.core i).names.entries at hhas
    rw [h.core_self, hnames] at hhas
    cases hhas

theorem tree_of_removed (name : List UInt8) (hhas : s.Has p name i) (hold : (s.core i).isDir = true)
    (hempty : (s.core i).names.entries = []) (hgone : slot.core.isDir = false)
    (hout : out = [⟨name, i⟩]) (hin : in_ = []) :
    IsTree s'.forest root := by
  subst hout hin
  have hroot : i ≠ root := fun heq => hs.tree.root_unnamed p name h.dir (heq ▸ hhas)
  have hnode : ∀ k, s'.IsDir k ↔ s.IsDir k ∧ k ≠ i := by
    intro k
    by_cases hi : k = i
    · subst hi
      refine iff_of_false (fun hk => ?_) fun hk => hk.2 rfl
      have hcore : (s'.core k).isDir = true := hk.2
      rw [h.core_self, hgone] at hcore
      exact Bool.false_ne_true hcore
    · rw [h.isDir_of_ne hi]
      exact (and_iff_left hi).symm
  refine hs.tree.drop hroot (fun n k _ hn => ?_) hnode
    (fun k hk => h.up_of_ne ((hnode k).mp hk).2) fun q n k hq hk => ?_
  · change (⟨n, k⟩ : Entry) ∈ (s.core i).names.entries at hn
    rw [hempty] at hn
    cases hn
  · obtain ⟨hqDir, hqNe⟩ := (hnode q).mp hq
    obtain ⟨-, hkNe⟩ := (hnode k).mp hk
    change s'.Has q n k ↔ s.Has q n k
    rw [h.has_iff hs hqNe]
    constructor
    · rintro (⟨hn, -⟩ | ⟨-, hmem⟩)
      · exact hn
      · cases hmem
    · refine fun hn => .inl ⟨hn, fun x hx hp heq => ?_⟩
      obtain rfl := List.mem_singleton.mp hx
      subst hp heq
      exact hkNe (hs.has_unique hqDir hn hhas)

end

end Relinked

end

/-! ## The operations -/

section

variable {root : ℕ} {s s' : State} {answers : Answers s} {sb : Superblock}

variable {name : List UInt8} {target : Target} {parent : ℕ} {kind : Kind}

theorem changeDirectory_remove {what : String} {d i : ℕ} {change : Core}
    (hd : (s.core d).names.Distinct) (hhas : s.Has d name i)
    (h : s.changeDirectory answers what d (s.core d) [.remove name] = .ok change) :
    change.mode = (s.core d).mode ∧ change.nlink = (s.core d).nlink ∧
      change.names.parent = (s.core d).names.parent ∧
      Traded (s.core d).names.entries change.names.entries [⟨name, i⟩] [] := by
  obtain ⟨hmode, hnlink, hedit⟩ := changeDirectory_one h
  obtain ⟨hparent, hperm⟩ := Core.edit_remove hd hhas hedit
  exact ⟨hmode, hnlink, hparent, change.names.entries, hperm, .refl _⟩

theorem changeDirectory_add {what : String} {d : ℕ} {e : Entry} {change : Core}
    (h : s.changeDirectory answers what d (s.core d) [.add e] = .ok change) :
    change.mode = (s.core d).mode ∧ change.nlink = (s.core d).nlink ∧
      change.names.parent = (s.core d).names.parent ∧
      Traded (s.core d).names.entries change.names.entries [] [e] ∧
      ((s.core d).format ≠ .local_ → ∀ x ∈ (s.core d).names.entries, x.name ≠ e.name) := by
  obtain ⟨hmode, hnlink, hedit⟩ := changeDirectory_one h
  obtain ⟨hparent, hperm⟩ := Core.edit_add hedit
  exact ⟨hmode, hnlink, hparent, ⟨_, .refl _, hperm⟩, fun hformat => Core.edit_add_new hformat hedit⟩

variable {name : List UInt8} {ino parent mode : ℕ}

theorem link_relinked {dirIno : ℕ} (h : s.link answers sb ino dirIno name = .ok s') :
    (s.core ino).isDir = false ∧ (s.core ino).nlink ≠ 0 ∧
      (∀ x ∈ (s.core dirIno).names.entries, x.name ≠ name) ∧
      ∃ change, change.nlink = (s.core dirIno).nlink ∧
        Relinked s s' dirIno ino change
          ⟨(s.slot ino).free, { s.core ino with nlink := (s.core ino).nlink + 1 }⟩
          [] [⟨name, ino⟩] := by
  obtain ⟨_, -, h⟩ := bind_eq_ok.mp h
  obtain ⟨_, -, h⟩ := bind_eq_ok.mp h
  obtain ⟨_, hname, h⟩ := bind_eq_ok.mp h
  obtain ⟨dir, hdir, h⟩ := bind_eq_ok.mp h
  obtain ⟨_, hisDir, h⟩ := bind_eq_ok.mp h
  obtain ⟨inode, hinode, h⟩ := bind_eq_ok.mp h
  obtain ⟨_, hfile, h⟩ := bind_eq_ok.mp h
  obtain ⟨_, hused, h⟩ := bind_eq_ok.mp h
  obtain ⟨_, -, h⟩ := bind_eq_ok.mp h
  obtain ⟨_, hnone, h⟩ := bind_eq_ok.mp h
  obtain ⟨change, hchange, h⟩ := bind_eq_ok.mp h
  obtain ⟨_, -, hdone⟩ := bind_eq_ok.mp h
  obtain ⟨hdirMem, rfl⟩ := readInode_ok hdir
  obtain ⟨hmem, rfl⟩ := readInode_ok hinode
  have hisDir := ensure_eq_ok.mp hisDir
  have hfile := ensure_eq_ok.mp hfile
  have hne : ino ≠ dirIno := by
    rintro rfl
    exact Bool.false_ne_true (hfile.symm.trans hisDir)
  obtain ⟨hmode, hnlink, hparent, hentries, -⟩ := changeDirectory_add hchange
  refine ⟨hfile, ensure_eq_ok.mp hused,
    entryIno_eq_none (ensure_eq_ok.mp hname) (ensure_eq_ok.mp hnone), change, hnlink, ?_,
    ⟨hdirMem, hisDir⟩, hmem, hne, hmode, hparent, hentries⟩
  rw [← Except.ok.inj hdone]
  change (s.setCore dirIno change).put ino ⟨((s.setCore dirIno change).slot ino).free, _⟩ = _
  rw [setCore_free]

theorem checkVictim_ok {victim : Core} {u : Unit} (h : checkVictim ino victim target = .ok u) :
    victim.isDir = decide (target = .directory) ∧
      (target = .directory → victim.names.entries = [] ∧ victim.nlink = 2) := by
  cases target with
  | file => exact ⟨ensure_eq_ok.mp h, by simp⟩
  | directory =>
    obtain ⟨_, hdir, h⟩ := bind_eq_ok.mp h
    obtain ⟨_, hempty, h⟩ := bind_eq_ok.mp h
    exact ⟨ensure_eq_ok.mp hdir, fun _ => ⟨ensure_eq_ok.mp hempty, ensure_eq_ok.mp h⟩⟩

theorem parentAfter_ok {was nlink : ℕ} (h : parentAfter parent was target = .ok nlink) :
    nlink + (if target = .directory then 1 else 0) = was := by
  cases target with
  | file =>
    cases h
    simp
  | directory =>
    obtain ⟨_, hthree, h⟩ := bind_eq_ok.mp h
    have hthree := ensure_eq_ok.mp hthree
    cases h
    simp only [if_true]
    omega

theorem remove_cases
    (h : s.remove answers sb parent name target = .ok s') :
    s.IsDir parent ∧ ∃ ino change nlink, entryIno (s.core parent) name = some ino ∧ ino ∈ s.inos ∧
      checkVictim ino (s.core ino) target = .ok () ∧
      s.changeDirectory answers "removing an entry here" parent (s.core parent) [.remove name] =
        .ok change ∧
      parentAfter parent (s.core parent).nlink target = .ok nlink ∧
      s' = (s.setCore parent { change with nlink := nlink }).put ino
        (unlinked (decide (target = .directory ∨ (s.core ino).nlink ≤ 1))
          ((s.setCore parent { change with nlink := nlink }).slot ino) (s.core ino)) := by
  obtain ⟨_, -, h⟩ := bind_eq_ok.mp h
  obtain ⟨_, -, h⟩ := bind_eq_ok.mp h
  obtain ⟨dir, hdir, h⟩ := bind_eq_ok.mp h
  obtain ⟨_, hisDir, h⟩ := bind_eq_ok.mp h
  obtain ⟨_, -, h⟩ := bind_eq_ok.mp h
  obtain ⟨ino, hino, h⟩ := bind_eq_ok.mp h
  obtain ⟨victim, hvictim, h⟩ := bind_eq_ok.mp h
  obtain ⟨_, hcheck, h⟩ := bind_eq_ok.mp h
  dsimp only at h
  obtain ⟨_, -, h⟩ := bind_eq_ok.mp h
  obtain ⟨_, -, h⟩ := bind_eq_ok.mp h
  obtain ⟨change, hchange, h⟩ := bind_eq_ok.mp h
  obtain ⟨nlink, hnlink, h⟩ := bind_eq_ok.mp h
  obtain ⟨_, -, hdone⟩ := bind_eq_ok.mp h
  obtain ⟨hdirMem, rfl⟩ := readInode_ok hdir
  obtain ⟨hmem, rfl⟩ := readInode_ok hvictim
  exact ⟨⟨hdirMem, ensure_eq_ok.mp hisDir⟩, ino, change, nlink, orElse_eq_ok.mp hino, hmem, hcheck,
    hchange, hnlink, (Except.ok.inj hdone).symm⟩

theorem remove_relinked
    (hs : WellNamed root s) (h : s.remove answers sb parent name target = .ok s') :
    ∃ ino change, s.Has parent name ino ∧
      (s.core ino).isDir = decide (target = .directory) ∧
      (target = .directory → (s.core ino).names.entries = [] ∧ (s.core ino).nlink = 2) ∧
      change.nlink + (if target = .directory then 1 else 0) = (s.core parent).nlink ∧
      Relinked s s' parent ino change
        (unlinked (decide (target = .directory ∨ (s.core ino).nlink ≤ 1)) (s.slot ino) (s.core ino))
        [⟨name, ino⟩] [] := by
  obtain ⟨hp, ino, change, nlink, hino, hmem, hcheck, hchange, hnlink, hdone⟩ := remove_cases h
  have hhas := entryIno_eq_some hs hp hino
  have hne : ino ≠ parent := by
    rintro rfl
    exact hs.not_self hp hhas
  obtain ⟨hkind, hdirCase⟩ := checkVictim_ok hcheck
  obtain ⟨hmode, -, hparent, hentries⟩ := changeDirectory_remove (hs.distinct parent hp) hhas hchange
  refine ⟨ino, { change with nlink := nlink }, hhas, hkind, hdirCase, parentAfter_ok hnlink, ?_, hp,
    hmem, hne, hmode, hparent, hentries⟩
  rw [hdone]
  unfold setCore
  rw [put_slot_of_ne hne]

/-! ### Create -/

theorem typedMode_isDir {typed : ℕ} (h : typedMode mode kind = .ok typed) :
    (typed &&& sIfmt = 0o040000) ↔ kind = .directory := by
  have htype : typed &&& sIfmt = kind.typeBits := by
    unfold typedMode at h
    split at h
    next hnone =>
      cases h
      rw [Nat.and_or_distrib_right, hnone, Nat.zero_or]
      cases kind <;> rfl
    next =>
      split at h
      next hsame =>
        cases h
        exact hsame
      next => cases h
  rw [htype]
  cases kind <;> decide

/-- The inode taken was free, and the volume has it. -/
structure Taken (s s' : State) (ino : ℕ) : Prop where
  sub : s.inos ⊆ s'.inos
  old : ∀ k ∈ s.inos, s'.slot k = s.slot k
  new : ∀ k ∈ s'.inos, k ∉ s.inos → s'.slot k = ⟨true, blankCore⟩
  mem : ino ∈ s'.inos
  file : (s'.core ino).isDir = false
  free : (s'.slot ino).free = true

theorem isDir_of_mode_eq_zero {core : Core} (h : core.mode = 0) : core.isDir = false := by
  simp [Core.isDir, h]

theorem takeInode_taken (h : s.takeInode answers = .ok (s', ino)) : Taken s s' ino := by
  obtain ⟨choice, -, h⟩ := bind_eq_ok.mp h
  cases choice with
  | inl chosen =>
    obtain ⟨_, hfree, h⟩ := bind_eq_ok.mp h
    obtain ⟨_, hmode, h⟩ := bind_eq_ok.mp h
    cases h
    have hfree := ensure_eq_ok.mp hfree
    exact ⟨fun _ hk => hk, fun _ _ => rfl, fun _ hk hnot => absurd hk hnot, hfree.1,
      isDir_of_mode_eq_zero (ensure_eq_ok.mp hmode), hfree.2⟩
  | inr start =>
    cases h
    obtain ⟨start, hfresh⟩ := start
    have hin : start ≤ start ∧ start < start + inodesPerChunk := ⟨le_refl _, Nat.lt_add_of_pos_right (by decide)⟩
    have hblank : (s.addChunk start).slot start = ⟨true, blankCore⟩ := if_pos hin
    refine ⟨Finset.subset_union_left, fun k hk => if_neg fun hrange => ?_, fun k hk hnot => if_pos ?_,
      Finset.mem_union_right _ (Finset.mem_image.mpr ⟨0, by decide, rfl⟩), ?_, ?_⟩
    · change start ≤ k ∧ k < start + inodesPerChunk at hrange
      refine hfresh (k - start) (by omega) ?_
      rw [Nat.add_sub_cancel' hrange.1]
      exact hk
    · obtain ⟨j, hj, rfl⟩ := Finset.mem_image.mp ((Finset.mem_union.mp hk).resolve_left hnot)
      have hj := Finset.mem_range.mp hj
      omega
    · unfold core
      rw [hblank]
      rfl
    · rw [hblank]

theorem create_relinked {target : List UInt8}
    (h : s.create answers sb parent name mode kind target = .ok s') :
    ∃ mid ino change new, s.takeInode answers = .ok (mid, ino) ∧ typedMode mode kind = .ok new.mode ∧
      Taken s mid ino ∧ s.IsDir parent ∧
      (∀ x ∈ (s.core parent).names.entries, x.name ≠ name) ∧
      change.nlink = parentNlink kind (s.core parent).nlink ∧
      (new.isDir = true ↔ kind = .directory) ∧ new.nlink = kind.nlink ∧
      new.names = createdNames parent kind ∧
      Relinked mid s' parent ino change ⟨false, new⟩ [] [⟨name, ino⟩] := by
  obtain ⟨_, -, h⟩ := bind_eq_ok.mp h
  obtain ⟨_, -, h⟩ := bind_eq_ok.mp h
  obtain ⟨_, -, h⟩ := bind_eq_ok.mp h
  obtain ⟨typed, htyped, h⟩ := bind_eq_ok.mp h
  obtain ⟨_, -, h⟩ := bind_eq_ok.mp h
  obtain ⟨dir, hdir, h⟩ := bind_eq_ok.mp h
  obtain ⟨_, hisDir, h⟩ := bind_eq_ok.mp h
  obtain ⟨_, -, h⟩ := bind_eq_ok.mp h
  obtain ⟨_, hnone, h⟩ := bind_eq_ok.mp h
  obtain ⟨⟨mid, ino⟩, htake, h⟩ := bind_eq_ok.mp h
  obtain ⟨change, hchange, h⟩ := bind_eq_ok.mp h
  obtain ⟨_, -, hdone⟩ := bind_eq_ok.mp h
  obtain ⟨hmem, rfl⟩ := readInode_ok hdir
  have htaken := takeInode_taken htake
  have hp : s.IsDir parent := ⟨hmem, ensure_eq_ok.mp hisDir⟩
  have hslot : mid.core parent = s.core parent := congrArg Slot.core (htaken.old parent hmem)
  have hpMid : mid.IsDir parent := ⟨htaken.sub hmem, hslot ▸ hp.2⟩
  have hne : ino ≠ parent := by
    rintro rfl
    exact Bool.false_ne_true (htaken.file.symm.trans hpMid.2)
  obtain ⟨hmode, -, hparent, hentries, hnew⟩ := changeDirectory_add hchange
  have hfresh : ∀ x ∈ (s.core parent).names.entries, x.name ≠ name := by
    by_cases hformat : (s.core parent).format = .local_
    · exact Directory.has_eq_false.mp (ensure_eq_ok.mp hnone hformat)
    · exact hnew hformat
  refine ⟨mid, ino, _, _, htake, htyped, htaken, hp, hfresh, rfl, ?_, rfl, rfl,
    (Except.ok.inj hdone).symm, hpMid, htaken.mem, hne, ?_, ?_, ?_⟩
  · rw [← typedMode_isDir htyped]
    simp [Core.isDir]
  · rw [hslot]
    exact hmode
  · rw [hslot]
    exact hparent
  · rw [hslot]
    exact hentries

/-! ### The tree after them -/

/-- Every entry names an inode that is in use. -/
def NamesUsed (s : State) : Prop :=
  ∀ p name i, s.IsDir p → s.Has p name i → i ∈ s.inos ∧ (s.slot i).free = false

namespace Taken

variable {mid : State} {ino : ℕ} (h : Taken s mid ino)

include h

theorem core_eq {k : ℕ} (hk : k ∈ s.inos) : mid.core k = s.core k :=
  congrArg Slot.core (h.old k hk)

theorem isDir_iff {k : ℕ} : mid.IsDir k ↔ s.IsDir k := by
  unfold IsDir
  by_cases hk : k ∈ s.inos
  · rw [h.core_eq hk]
    exact and_congr_left fun _ => iff_of_true (h.sub hk) hk
  · refine iff_of_false (fun hdir => ?_) fun hdir => hk hdir.1
    have hblank : mid.core k = blankCore := congrArg Slot.core (h.new k hdir.1 hk)
    rw [hblank] at hdir
    exact absurd hdir.2 (by decide)

theorem wellNamed (hs : WellNamed root s) : WellNamed root mid := by
  have hcore : ∀ k, s.IsDir k → mid.core k = s.core k := fun k hk => h.core_eq hk.1
  refine ⟨hs.tree.congr (fun k => h.isDir_iff) (fun k hk => ?_) (fun p n i hp hi => ?_), fun d hd => ?_⟩
  · change (mid.core k).names.parent = (s.core k).names.parent
    rw [hcore k hk]
  · change mid.Has p n i ↔ s.Has p n i
    unfold Has
    rw [hcore p hp]
  · have hd := h.isDir_iff.mp hd
    rw [hcore d hd]
    exact hs.distinct d hd

theorem unnamed (hused : s.NamesUsed) {q : ℕ} (hq : mid.IsDir q) :
    ¬mid.Has q name ino := by
  intro hhas
  have hq := h.isDir_iff.mp hq
  unfold Has at hhas
  rw [h.core_eq hq.1] at hhas
  obtain ⟨hmem, hfree⟩ := hused q name ino hq hhas
  have hfree' := h.free
  rw [h.old ino hmem] at hfree'
  exact Bool.false_ne_true (hfree.symm.trans hfree')

end Taken

theorem link_wellNamed {dirIno : ℕ} (hs : WellNamed root s)
    (h : s.link answers sb ino dirIno name = .ok s') : WellNamed root s' := by
  obtain ⟨hfile, -, hfresh, change, -, hre⟩ := link_relinked h
  refine ⟨hre.tree_of_file hs hfile hfile (by simp) (by simp), fun d hd => ?_⟩
  refine hre.distinct hs (by simp) ?_ (fun hdir => ?_) hd
  · intro e he x hx
    rw [List.mem_singleton.mp he]
    exact hfresh x hx
  · exact absurd (hfile.symm.trans hdir) Bool.false_ne_true

theorem unlinked_file {core : Core} (slot : Slot) (hfile : core.isDir = false) (freed : Bool) :
    (unlinked freed slot core).core.isDir = false := by
  cases freed with
  | false => exact hfile
  | true => exact isDir_of_mode_eq_zero rfl

theorem remove_wellNamed (hs : WellNamed root s)
    (h : s.remove answers sb parent name target = .ok s') : WellNamed root s' := by
  obtain ⟨ino, change, hhas, hkind, hempty, -, hre⟩ := remove_relinked hs h
  cases target with
  | file =>
    have hfile : (s.core ino).isDir = false := hkind
    have hgone := unlinked_file (s.slot ino) hfile
    refine ⟨hre.tree_of_file hs hfile (hgone _) (by simp [hhas]) (by simp), fun d hd => ?_⟩
    refine hre.distinct hs (by simp) (by simp) (fun hdir => ?_) hd
    exact absurd ((hgone _).symm.trans hdir) Bool.false_ne_true
  | directory =>
    obtain ⟨hnone, -⟩ := hempty rfl
    have hgone : (unlinked true (s.slot ino) (s.core ino)).core.isDir = false :=
      isDir_of_mode_eq_zero rfl
    refine ⟨hre.tree_of_removed hs name hhas hkind hnone hgone rfl rfl, fun d hd => ?_⟩
    refine hre.distinct hs (by simp) (by simp) (fun heq => ?_) hd
    exact absurd (hgone.symm.trans heq) Bool.false_ne_true

theorem create_wellNamed {target : List UInt8} (hs : WellNamed root s) (hused : s.NamesUsed)
    (h : s.create answers sb parent name mode kind target = .ok s') : WellNamed root s' := by
  obtain ⟨mid, ino, change, new, -, -, htaken, hp, hfresh, -, hdir, -, hnames, hre⟩ := create_relinked h
  have hsMid := htaken.wellNamed hs
  have hparent := htaken.core_eq hp.1
  have hdistinct : ∀ d, s'.IsDir d → (s'.core d).names.Distinct := by
    refine fun d hd => hre.distinct hsMid (by simp) ?_ (fun _ => ?_) hd
    · intro e he x hx
      rw [List.mem_singleton.mp he]
      exact hfresh x (hparent ▸ hx)
    · change new.names.Distinct
      rw [hnames]
      cases kind <;> exact List.nodup_nil
  refine ⟨?_, hdistinct⟩
  by_cases hkind : kind = .directory
  · subst hkind
    exact hre.tree_of_made hsMid name htaken.file (hdir.mpr rfl) hnames rfl rfl fun q n hq =>
      htaken.unnamed hused hq
  · have hfile : new.isDir = false := by
      rw [← Bool.not_eq_true, hdir]
      exact hkind
    exact hre.tree_of_file hsMid htaken.file hfile (by simp) (by simp)

end

end State

end FsXfs.Names
