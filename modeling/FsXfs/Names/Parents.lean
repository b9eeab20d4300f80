import FsXfs.Names.Counts
import FsXfs.Names.Pointers

/-!
# Parent pointers after the operations

Every operation on names changes the parent pointers of the inodes whose names it changes, in the same
record. `Volume` is the volume's inodes with their attributes and generations, and the operations here
are those of `Names.Operations` with what they do to the attribute forks.
-/

namespace FsXfs.Names

open Acl (Xattr isParent parentStart)

set_option autoImplicit false

-- `incompat::PARENT` is bit 7
def hasParents (sb : Superblock) : Bool :=
  sb.featuresIncompat.testBit 7

structure Volume where
  names : State
  attrs : ℕ → List Xattr
  -- a number that is no inode's has the generation a chunk made there gives it
  gen : ℕ → ℕ

namespace Volume

open State (entryIno unlinked victimFreed)

def nextGen (v : Volume) (ino : ℕ) : ℕ → ℕ :=
  Function.update v.gen ino ((v.gen ino + 1) % 2 ^ 32)

section

variable (v : Volume) (answers : Answers v.names) (layouts : Layouts) (sb : Superblock)

def changed (attrs : ℕ → List Xattr) (ino : ℕ) (changes : List ParentChange) :
    Except Error (ℕ → List Xattr) :=
  if hasParents sb then do
    let after ← withParentPointers layouts ino (attrs ino) changes
    pure (Function.update attrs ino after)
  else pure attrs

-- `emptied_core`: no attribute fork, and the next generation
def emptied (names : State) (attrs : ℕ → List Xattr) (ino : ℕ) : Volume :=
  ⟨names, Function.update attrs ino [], v.nextGen ino⟩

def create (parent : ℕ) (name : List UInt8) (mode : ℕ) (kind : Kind) (target : List UInt8) :
    Except Error Volume := do
  let names ← v.names.create answers sb parent name mode kind target
  let ino ← orElse (entryIno (names.core parent) name) .notFound
  let fork := if hasParents sb then [Pointer.xattr ⟨name, parent, v.gen parent⟩] else []
  pure ⟨names, Function.update v.attrs ino fork, v.nextGen ino⟩

def link (ino dirIno : ℕ) (name : List UInt8) : Except Error Volume := do
  let names ← v.names.link answers sb ino dirIno name
  let attrs ← changed layouts sb v.attrs ino [.add name dirIno (v.gen dirIno)]
  pure ⟨names, attrs, v.gen⟩

def remove (parent : ℕ) (name : List UInt8) (target : State.Target) : Except Error Volume := do
  let names ← v.names.remove answers sb parent name target
  let ino ← orElse (entryIno (v.names.core parent) name) .notFound
  if target = .directory ∨ (v.names.core ino).nlink ≤ 1 then pure (v.emptied names v.attrs ino)
  else do
    let attrs ← changed layouts sb v.attrs ino [.remove name parent]
    pure ⟨names, attrs, v.gen⟩

def replaced (names : State) (attrs : ℕ → List Xattr) (toDir : ℕ) (to_ : List UInt8) :
    Option ℕ → Except Error Volume
  | none => .ok ⟨names, attrs, v.gen⟩
  | some t =>
    if victimFreed (v.names.core t) then .ok (v.emptied names attrs t)
    else do
      let attrs ← changed layouts sb attrs t [.remove to_ toDir]
      pure ⟨names, attrs, v.gen⟩

def rename (fromDir : ℕ) (from_ : List UInt8) (toDir : ℕ) (to_ : List UInt8) :
    Except Error Volume := do
  let names ← v.names.rename answers sb fromDir from_ toDir to_
  let moved ← orElse (entryIno (v.names.core fromDir) from_) .notFound
  let target := entryIno (v.names.core toDir) to_
  if target = some moved then pure { v with names := names }
  else do
    let attrs ← changed layouts sb v.attrs moved
      [.remove from_ fromDir, .add to_ toDir (v.gen toDir)]
    v.replaced layouts sb names attrs toDir to_ target

def run : State.Op → Except Error Volume
  | .create parent name mode kind target => v.create answers sb parent name mode kind target
  | .link ino dirIno name => v.link answers layouts sb ino dirIno name
  | .remove parent name target => v.remove answers layouts sb parent name target
  | .rename fromDir from_ toDir to_ => v.rename answers layouts sb fromDir from_ toDir to_

end

/-! ## What is kept -/

/-- The pointer is that of an entry that names the inode. -/
def Naming (v : Volume) (i : ℕ) (q : Pointer) : Prop :=
  v.names.IsDir q.parent ∧ v.names.Has q.parent q.name i ∧ v.gen q.parent = q.generation

def InUse (v : Volume) (i : ℕ) : Prop :=
  i ∈ v.names.inos ∧ (v.names.slot i).free = false

/-- The parent pointers of every inode in use are one for each entry that names it. -/
def Mirrored (v : Volume) : Prop :=
  ∀ i, v.InUse i → ∃ n, Follows i (v.attrs i) (v.Naming i) n

/-- An inode in use before and after has the attributes it had, parent pointers apart. -/
def Carries (v v' : Volume) : Prop :=
  ∀ i, v.InUse i → v'.InUse i → (ordinary (v'.attrs i)).Perm (ordinary (v.attrs i))

structure Sound (root : ℕ) (v : Volume) : Prop where
  named : WellNamed root v.names
  used : v.names.NamesUsed
  unused : ∀ i ∈ v.names.inos, (v.names.slot i).free = true →
    (v.names.core i).nlink = 0 ∧ (v.names.core i).isDir = false
  counted : ∀ i, v.InUse i → (v.names.core i).isDir = false →
    (pointers (v.attrs i)).length = (v.names.core i).nlink
  inos : ∀ i ∈ v.names.inos, i < 256 ^ 8
  gens : ∀ i, v.gen i < 256 ^ 4

section

variable {root : ℕ} {v v' : Volume}

variable {i : ℕ}

theorem Naming.once {q q' : Pointer} (hq : v.Naming i q) (hq' : v.Naming i q')
    (hname : q.name = q'.name) (hparent : q.parent = q'.parent) : q = q' := by
  obtain ⟨name, parent, generation⟩ := q
  obtain ⟨name', parent', generation'⟩ := q'
  subst hname hparent
  have hgeneration : generation = generation' := hq.2.2.symm.trans hq'.2.2
  rw [hgeneration]

theorem naming_of_has {p i : ℕ} {name : List UInt8} (hp : v.names.IsDir p)
    (hhas : v.names.Has p name i) : v.Naming i ⟨name, p, v.gen p⟩ :=
  ⟨hp, hhas, rfl⟩

/-- An inode in use, its pointers and, for a file, its links. -/
def Told (v : Volume) (i : ℕ) : Prop :=
  ∃ n, Follows i (v.attrs i) (v.Naming i) n ∧
    ((v.names.core i).isDir = false → n = (v.names.core i).nlink)

theorem Sound.told (hv : Sound root v) (hm : v.Mirrored) (hi : v.InUse i) : v.Told i := by
  obtain ⟨n, hn⟩ := hm i hi
  exact ⟨n, hn, fun hfile => hn.length_eq.symm.trans (hv.counted i hi hfile)⟩

theorem Told.carry (h : v.Told i) (hattrs : v'.attrs i = v.attrs i)
    (hnaming : ∀ q, v'.Naming i q ↔ v.Naming i q)
    (hcore : (v'.names.core i).isDir = false →
      (v.names.core i).isDir = false ∧ (v'.names.core i).nlink = (v.names.core i).nlink) :
    v'.Told i := by
  obtain ⟨n, hn, hlinks⟩ := h
  refine ⟨n, hattrs ▸ hn.congr hnaming, fun hfile => ?_⟩
  obtain ⟨hfile, hnlink⟩ := hcore hfile
  rw [hnlink]
  exact hlinks hfile

/-- `Sound` and `Mirrored` as the operations keep them, one inode at a time. -/
structure Kept (root : ℕ) (v : Volume) : Prop where
  named : WellNamed root v.names
  used : v.names.NamesUsed
  unused : ∀ i ∈ v.names.inos, (v.names.slot i).free = true →
    (v.names.core i).nlink = 0 ∧ (v.names.core i).isDir = false
  told : ∀ i, v.InUse i → v.Told i
  gens : ∀ i, v.gen i < 256 ^ 4

theorem Sound.kept (hv : Sound root v) (hm : v.Mirrored) : Kept root v :=
  ⟨hv.named, hv.used, hv.unused, fun _ hi => hv.told hm hi, hv.gens⟩

theorem Kept.sound (h : Kept root v) (hinos : ∀ i ∈ v.names.inos, i < 256 ^ 8) :
    Sound root v ∧ v.Mirrored := by
  refine ⟨⟨h.named, h.used, h.unused, fun i hi hfile => ?_, hinos, h.gens⟩, fun i hi => ?_⟩
  · obtain ⟨n, hn, hlinks⟩ := h.told i hi
    exact hn.length_eq.trans (hlinks hfile)
  · obtain ⟨n, hn, -⟩ := h.told i hi
    exact ⟨n, hn⟩

theorem Kept.inUse_of_isDir (h : Kept root v) {d : ℕ} (hd : v.names.IsDir d) : v.InUse d := by
  refine ⟨hd.1, ?_⟩
  by_contra hfree
  have hfile := (h.unused d hd.1 (Bool.eq_true_of_not_eq_false hfree)).2
  exact Bool.false_ne_true (hfile.symm.trans hd.2)

theorem Kept.only_name (h : Kept root v) {p ino : ℕ} {name : List UInt8} (hp : v.names.IsDir p)
    (hhas : v.names.Has p name ino)
    (hlast : (v.names.core ino).isDir = true ∨ (v.names.core ino).nlink ≤ 1) {q : Pointer}
    (hq : v.Naming ino q) : q.name = name ∧ q.parent = p := by
  have hinUse := h.used p name ino hp hhas
  by_cases hdir : (v.names.core ino).isDir = true
  · have hnode : v.names.IsDir ino := ⟨hinUse.1, hdir⟩
    have hparent := h.named.tree.once ino hnode _ _ hq.1 hq.2.1
    have hparent' := h.named.tree.once ino hnode p name hp hhas
    have hsame : q.parent = p := hparent.trans hparent'.symm
    refine ⟨?_, hsame⟩
    exact h.named.tree.once_name ino hnode p _ _ hp (hsame ▸ hq.2.1) hhas
  · obtain ⟨n, hn, hlinks⟩ := h.told ino hinUse
    have hone : n ≤ 1 := hlinks (Bool.eq_false_of_not_eq_true hdir) ▸ hlast.resolve_left hdir
    by_contra hne
    have htwo := hn.two_le hq (naming_of_has hp hhas) (by
      rintro rfl
      exact hne ⟨rfl, rfl⟩)
    omega

theorem nextGen_lt (hgens : ∀ i, v.gen i < 256 ^ 4) (ino i : ℕ) : v.nextGen ino i < 256 ^ 4 := by
  unfold nextGen
  by_cases hi : i = ino
  · subst hi
    rw [Function.update_self]
    exact Nat.mod_lt _ (by decide)
  · rw [Function.update_of_ne hi]
    exact hgens i

theorem nextGen_of_ne {ino i : ℕ} (h : i ≠ ino) : v.nextGen ino i = v.gen i :=
  Function.update_of_ne h _ _

theorem changed_ok {layouts : Layouts} {sb : Superblock} (hsb : hasParents sb = true)
    {attrs attrs' : ℕ → List Xattr} {ino : ℕ} {changes : List ParentChange}
    (h : changed layouts sb attrs ino changes = .ok attrs') :
    ∃ after, withParentPointers layouts ino (attrs ino) changes = .ok after ∧
      attrs' = Function.update attrs ino after := by
  unfold changed at h
  rw [if_pos hsb] at h
  obtain ⟨after, hafter, h⟩ := bind_eq_ok.mp h
  exact ⟨after, hafter, (Except.ok.inj h).symm⟩

end

/-! ## A directory and the inode its entry names -/

/-- The names of one inode changed in one directory, which is not the inode itself; if it is a
directory, it is an empty one. -/
structure Retold (v v' : Volume) (p ino : ℕ) (change : Core) (slot : Slot) (out in_ : List Entry) :
    Prop where
  relinked : State.Relinked v.names v'.names p ino change slot out in_
  out : ∀ x ∈ out, x.ino = ino
  in_ : ∀ x ∈ in_, x.ino = ino
  before : (v.names.core ino).isDir = true → (v.names.core ino).names.entries = []
  after : slot.core.isDir = true → slot.core.names.entries = []
  attrs : ∀ i, i ≠ ino → v'.attrs i = v.attrs i
  gen : ∀ i, i ≠ ino → v'.gen i = v.gen i

namespace Retold

variable {root : ℕ} {v v' : Volume} {p ino : ℕ} {change : Core} {slot : Slot} {out in_ : List Entry}
  (h : Retold v v' p ino change slot out in_)

include h

section

variable (hs : WellNamed root v.names)

include hs

theorem naming_iff {k : ℕ} {q : Pointer} :
    v'.Naming k q ↔ (v.Naming k q ∧ ∀ x ∈ out, q.parent = p → q.name ≠ x.name) ∨
      (q.parent = p ∧ (⟨q.name, k⟩ : Entry) ∈ in_ ∧ v.gen p = q.generation) := by
  have hre := h.relinked
  by_cases hq : q.parent = ino
  · -- it names nothing, before and after
    have hp : ¬q.parent = p := fun heq => hre.ne (hq.symm.trans heq)
    refine iff_of_false ?_ ?_
    · rintro ⟨hdir, hhas, -⟩
      rw [hq] at hdir hhas
      have hisDir : (v'.names.core ino).isDir = true := hdir.2
      unfold State.Has at hhas
      rw [hre.core_self] at hisDir hhas
      rw [h.after hisDir] at hhas
      cases hhas
    · rintro (⟨⟨hdir, hhas, -⟩, -⟩ | ⟨heq, -⟩)
      · rw [hq] at hdir hhas
        unfold State.Has at hhas
        rw [h.before hdir.2] at hhas
        cases hhas
      · exact hp heq
  · unfold Naming
    rw [hre.isDir_of_ne hq, hre.has_iff hs hq, h.gen _ hq]
    constructor
    · rintro ⟨hdir, ⟨hhas, hout⟩ | ⟨hp, hin⟩, hgen⟩
      · exact .inl ⟨⟨hdir, hhas, hgen⟩, hout⟩
      · exact .inr ⟨hp, hin, hp ▸ hgen⟩
    · rintro (⟨⟨hdir, hhas, hgen⟩, hout⟩ | ⟨hp, hin, hgen⟩)
      · exact ⟨hdir, .inl ⟨hhas, hout⟩, hgen⟩
      · exact ⟨hp ▸ hre.dir, .inr ⟨hp, hin⟩, hp ▸ hgen⟩

theorem naming_of_ne {k : ℕ} (hk : k ≠ ino) (q : Pointer) :
    v'.Naming k q ↔ v.Naming k q := by
  rw [h.naming_iff hs]
  constructor
  · rintro (⟨hq, -⟩ | ⟨-, hin, -⟩)
    · exact hq
    · exact absurd (h.in_ _ hin) hk
  · refine fun hq => .inl ⟨hq, fun x hx hp hname => hk ?_⟩
    have hmem : v.names.Has p x.name ino := by
      have hx' := h.relinked.entries.out_mem hx
      rw [← h.out x hx]
      exact hx'
    obtain ⟨hdir, hhas, -⟩ := hq
    rw [hp] at hdir
    rw [hp, hname] at hhas
    exact hs.has_unique hdir hhas hmem

omit h in
theorem naming_added {name : List UInt8} (h : Retold v v' p ino change slot [] [⟨name, ino⟩])
    (q : Pointer) :
    v'.Naming ino q ↔ v.Naming ino q ∨ q = ⟨name, p, v.gen p⟩ := by
  rw [h.naming_iff hs]
  simp only [List.not_mem_nil, false_implies, implies_true, and_true, List.mem_singleton]
  refine or_congr_right ⟨?_, ?_⟩
  · rintro ⟨hp, hname, hgen⟩
    obtain ⟨qname, parent, generation⟩ := q
    simp only [Entry.mk.injEq, and_true] at hp hname hgen
    rw [hp, hname, hgen]
  · rintro rfl
    exact ⟨rfl, rfl, rfl⟩

omit h in
theorem naming_removed {name : List UInt8} (h : Retold v v' p ino change slot [⟨name, ino⟩] [])
    (q : Pointer) :
    v'.Naming ino q ↔ v.Naming ino q ∧ ¬(q.name = name ∧ q.parent = p) := by
  rw [h.naming_iff hs]
  simp only [List.mem_singleton, forall_eq, List.not_mem_nil, false_and, and_false, or_false]
  refine and_congr_right fun _ => ⟨?_, ?_⟩
  · rintro hne ⟨hname, hp⟩
    exact hne hp hname
  · intro hne hp hname
    exact hne ⟨hname, hp⟩

end

theorem kept (hv : Kept root v) (hnamed : WellNamed root v'.names) (hgens : ∀ i, v'.gen i < 256 ^ 4)
    (htold : slot.free = false → v'.Told ino)
    (hslot : slot.free = true → slot.core.nlink = 0 ∧ slot.core.isDir = false)
    (hgone : slot.free = true → ∀ q, ¬v'.Naming ino q) : Kept root v' := by
  have hre := h.relinked
  refine ⟨hnamed, fun d n i hd hhas => ?_, fun i hi hfree => ?_, fun i hi => ?_, hgens⟩
  · have hnaming := naming_of_has hd hhas
    by_cases hi : i = ino
    · subst hi
      rw [hre.inos, hre.slot_self]
      refine ⟨hre.mem, ?_⟩
      by_contra hfree
      exact hgone (Bool.eq_true_of_not_eq_false hfree) _ hnaming
    · obtain ⟨hdir, hold, -⟩ := (h.naming_of_ne hv.named hi _).mp hnaming
      rw [hre.inos, hre.free_of_ne hi]
      exact hv.used d n i hdir hold
  · by_cases hino : i = ino
    · subst hino
      rw [hre.slot_self] at hfree
      rw [hre.core_self]
      exact hslot hfree
    · rw [hre.free_of_ne hino] at hfree
      rw [hre.inos] at hi
      have hp : i ≠ p := by
        rintro rfl
        exact Bool.false_ne_true ((hv.inUse_of_isDir hre.dir).2.symm.trans hfree)
      rw [hre.core_of_ne hp hino]
      exact hv.unused i hi hfree
  · by_cases hino : i = ino
    · subst hino
      refine htold ?_
      rw [← hre.slot_self]
      exact hi.2
    · have hold : v.InUse i := ⟨hre.inos ▸ hi.1, (hre.free_of_ne hino).symm.trans hi.2⟩
      refine (hv.told i hold).carry (h.attrs i hino) (h.naming_of_ne hv.named hino) fun hfile => ?_
      by_cases hp : i = p
      · subst hp
        have hdir := ((hre.isDir_of_ne hino).mpr hre.dir).2
        exact absurd (hfile.symm.trans hdir) Bool.false_ne_true
      · rw [hre.core_of_ne hp hino] at hfile ⊢
        exact ⟨hfile, rfl⟩

theorem carries (hself : slot.free = false →
    (ordinary (v'.attrs ino)).Perm (ordinary (v.attrs ino))) : v.Carries v' := by
  intro i _ hi
  by_cases hino : i = ino
  · subst hino
    refine hself ?_
    rw [← h.relinked.slot_self]
    exact hi.2
  · rw [h.attrs i hino]

end Retold

/-! ## A name moved -/

structure Moved (v v' : Volume) (fromDir toDir : ℕ) (from_ to_ : List UInt8) (moved : ℕ)
    (victim : Option ℕ) : Prop where
  renamed : State.Renamed v.names v'.names fromDir toDir from_ to_ moved victim
  attrs : ∀ i, i ≠ moved → victim ≠ some i → v'.attrs i = v.attrs i
  gen : ∀ i, victim ≠ some i → v'.gen i = v.gen i

namespace Moved

variable {root : ℕ} {v v' : Volume} {fromDir toDir moved : ℕ} {from_ to_ : List UInt8}
  {victim : Option ℕ} (h : Moved v v' fromDir toDir from_ to_ moved victim)

include h

omit h in
theorem has_of_naming {k parent : ℕ} {name : List UInt8} {q : Pointer} (hq : v.Naming k q)
    (heq : q.name = name ∧ q.parent = parent) : v.names.Has parent name k := by
  obtain ⟨rfl, rfl⟩ := heq
  exact hq.2.1

theorem naming_iff (hs : WellNamed root v.names) {k : ℕ} {q : Pointer} :
    v'.Naming k q ↔ (v.Naming k q ∧ ¬(q.name = from_ ∧ q.parent = fromDir) ∧
      ¬(q.name = to_ ∧ q.parent = toDir)) ∨ (k = moved ∧ q = ⟨to_, toDir, v.gen toDir⟩) := by
  have hre := h.renamed
  obtain ⟨name, parent, generation⟩ := q
  by_cases hq : victim = some parent
  · -- a directory replaced was empty
    have hne := (hre.victim_ne hs hq).1
    refine iff_of_false ?_ ?_
    · rintro ⟨hdir, -, -⟩
      exact (hre.isDir_iff.mp hdir).2 hq
    · rintro (⟨⟨hdir, hhas, -⟩, -⟩ | ⟨-, heq⟩)
      · unfold State.Has at hhas
        rw [hre.empty parent hq hdir.2] at hhas
        cases hhas
      · exact hne (Pointer.mk.inj heq).2.1
  · have hdir : v'.names.IsDir parent ↔ v.names.IsDir parent := by
      rw [hre.isDir_iff]
      exact and_iff_left hq
    unfold Naming
    simp only [h.gen parent hq, Pointer.mk.injEq]
    constructor
    · rintro ⟨hdir', hhas, hgen⟩
      rcases (hre.has_iff hs hdir').mp hhas with ⟨hold, hfrom, hto⟩ | ⟨rfl, rfl, rfl⟩
      · refine .inl ⟨⟨hdir.mp hdir', hold, hgen⟩, ?_, ?_⟩
        · exact fun heq => hfrom heq.symm
        · exact fun heq => hto heq.symm
      · exact .inr ⟨rfl, rfl, rfl, hgen.symm⟩
    · rintro (⟨⟨hdir', hold, hgen⟩, hfrom, hto⟩ | ⟨rfl, rfl, rfl, hgen⟩)
      · have hdir' := hdir.mpr hdir'
        refine ⟨hdir', (hre.has_iff hs hdir').mpr (.inl ⟨hold, ?_, ?_⟩), hgen⟩
        · exact fun heq => hfrom heq.symm
        · exact fun heq => hto heq.symm
      · have hdir' := hdir.mpr hre.dirs.2
        exact ⟨hdir', (hre.has_iff hs hdir').mpr (.inr ⟨rfl, rfl, rfl⟩), hgen.symm⟩

theorem naming_of_ne (hs : WellNamed root v.names) {k : ℕ} (hk : k ≠ moved) (hv : victim ≠ some k)
    (q : Pointer) : v'.Naming k q ↔ v.Naming k q := by
  have hre := h.renamed
  rw [h.naming_iff hs]
  constructor
  · rintro (⟨hq, -⟩ | ⟨heq, -⟩)
    · exact hq
    · exact absurd heq hk
  · refine fun hq => .inl ⟨hq, ?_, ?_⟩
    · exact fun heq => hk (hs.has_unique hre.dirs.1 (has_of_naming hq heq) hre.source)
    · exact fun heq => hv ((hre.target k).mpr (has_of_naming hq heq))

theorem links_of_file {i : ℕ} (hi : victim ≠ some i) (hfile : (v'.names.core i).isDir = false) :
    (v.names.core i).isDir = false ∧ (v'.names.core i).nlink = (v.names.core i).nlink := by
  have hre := h.renamed
  have hmode := (hre.kept i hi).2
  have hfile : (v.names.core i).isDir = false := by
    unfold Core.isDir at hfile ⊢
    rwa [hmode] at hfile
  have hfrom : i ≠ fromDir := by
    rintro rfl
    exact Bool.false_ne_true (hfile.symm.trans hre.dirs.1.2)
  have hto : i ≠ toDir := by
    rintro rfl
    exact Bool.false_ne_true (hfile.symm.trans hre.dirs.2.2)
  have hcount := hre.counts i hi
  simp [hfrom, hto, State.ofBool] at hcount
  exact ⟨hfile, hcount⟩

theorem told_moved {layouts : Layouts} {after : List Xattr} (hv : Kept root v)
    (hfrom : fromDir < 256 ^ 8) (hto : toDir < 256 ^ 8)
    (hafter : withParentPointers layouts moved (v.attrs moved)
      [.remove from_ fromDir, .add to_ toDir (v.gen toDir)] = .ok after)
    (hattrs : v'.attrs moved = after) : v'.Told moved := by
  have hre := h.renamed
  obtain ⟨n, hn, hlinks⟩ := hv.told moved (hv.used fromDir from_ moved hre.dirs.1 hre.source)
  have hnew : ¬v.Naming moved ⟨to_, toDir, v.gen toDir⟩ :=
    fun hq => hre.ne ((hre.target moved).mpr hq.2.1)
  have htraded := hn.traded (fun q q' => Naming.once) hnew hfrom hto (hv.gens toDir) hafter
  refine ⟨n, hattrs ▸ htraded.congr fun q => ?_, fun hfile => ?_⟩
  · rw [h.naming_iff hv.named]
    refine or_congr (and_congr_right fun hq => and_iff_left ?_) (and_iff_right rfl)
    exact fun heq => hre.ne ((hre.target moved).mpr (has_of_naming hq heq))
  · obtain ⟨hfile, hnlink⟩ := h.links_of_file hre.ne hfile
    rw [hnlink]
    exact hlinks hfile

theorem told_victim {layouts : Layouts} {left : List Xattr} {t : ℕ} (hv : Kept root v)
    (hto : toDir < 256 ^ 8) (ht : victim = some t) (hlive : victimFreed (v.names.core t) = false)
    (hleft : withParentPointers layouts t (v.attrs t) [.remove to_ toDir] = .ok left)
    (hattrs : v'.attrs t = left) : v'.Told t := by
  have hre := h.renamed
  obtain ⟨n, hn, hlinks⟩ := hv.told t (hv.used toDir to_ t hre.dirs.2 ((hre.target t).mp ht))
  obtain ⟨m, rfl, hremoved⟩ := hn.removed (fun q q' => Naming.once) hto hleft
  have hne : t ≠ moved := fun heq => hre.ne (heq ▸ ht)
  refine ⟨m, hattrs ▸ hremoved.congr fun q => ?_, fun hfile => ?_⟩
  · rw [h.naming_iff hv.named]
    constructor
    · rintro (⟨hq, -, hto⟩ | ⟨heq, -⟩)
      · exact ⟨hq, hto⟩
      · exact absurd heq hne
    · rintro ⟨hq, hto⟩
      refine .inl ⟨hq, fun heq => ?_, hto⟩
      exact hne (hv.named.has_unique hre.dirs.1 (has_of_naming hq heq) hre.source)
  · have hcore : v'.names.core t = { v.names.core t with nlink := (v.names.core t).nlink - 1 } := by
      unfold State.core
      rw [(hre.gone t ht).1, hlive]
      rfl
    rw [hcore] at hfile ⊢
    change m = (v.names.core t).nlink - 1
    rw [← hlinks hfile]
    rfl

theorem kept (hv : Kept root v) (hgens : ∀ i, v'.gen i < 256 ^ 4) (htold : v'.Told moved)
    (hvictim : ∀ t, victim = some t → victimFreed (v.names.core t) = false → v'.Told t) :
    Kept root v' := by
  have hre := h.renamed
  have hused : ∀ t, victim = some t → v.InUse t := fun t ht =>
    hv.used toDir to_ t hre.dirs.2 ((hre.target t).mp ht)
  have hlive : ∀ t, victim = some t → victimFreed (v.names.core t) = false →
      (v'.names.slot t).free = false := by
    intro t ht hfreed
    rw [(hre.gone t ht).1, hfreed]
    exact (hused t ht).2
  refine ⟨hre.wellNamed hv.named, fun d n i hd hhas => ?_, fun i hi hfree => ?_, fun i hi => ?_, hgens⟩
  · rw [hre.inos]
    rcases (h.naming_iff hv.named).mp (naming_of_has hd hhas) with ⟨hq, -, hto⟩ | ⟨rfl, -⟩
    · have hinUse := hv.used _ _ i hq.1 hq.2.1
      refine ⟨hinUse.1, ?_⟩
      by_cases ht : victim = some i
      · refine hlive i ht ?_
        by_contra hfreed
        have hlast : (v.names.core i).isDir = true ∨ (v.names.core i).nlink ≤ 1 := by
          simpa [victimFreed] using Bool.eq_true_of_not_eq_false hfreed
        exact hto (hv.only_name hre.dirs.2 ((hre.target i).mp ht) hlast hq)
      · exact (hre.kept i ht).1.trans hinUse.2
    · have hinUse := hv.used fromDir from_ i hre.dirs.1 hre.source
      exact ⟨hinUse.1, (hre.kept i hre.ne).1.trans hinUse.2⟩
  · by_cases ht : victim = some i
    · cases hfreed : victimFreed (v.names.core i) with
      | false => exact absurd ((hlive i ht hfreed).symm.trans hfree) Bool.false_ne_true
      | true =>
        unfold State.core
        rw [(hre.gone i ht).1, hfreed]
        exact ⟨rfl, State.isDir_of_mode_eq_zero rfl⟩
    · obtain ⟨hfree', hmode⟩ := hre.kept i ht
      obtain ⟨hzero, hfile⟩ := hv.unused i (hre.inos ▸ hi) (hfree'.symm.trans hfree)
      have hfile' : (v'.names.core i).isDir = false := by
        unfold Core.isDir at hfile ⊢
        rwa [hmode]
      exact ⟨(h.links_of_file ht hfile').2.trans hzero, hfile'⟩
  · by_cases hm : i = moved
    · exact hm ▸ htold
    by_cases ht : victim = some i
    · refine hvictim i ht ?_
      by_contra hfreed
      have hfree : (v'.names.slot i).free = true := by
        rw [(hre.gone i ht).1, Bool.eq_true_of_not_eq_false hfreed]
        rfl
      exact Bool.false_ne_true (hi.2.symm.trans hfree)
    · have hold : v.InUse i := ⟨hre.inos ▸ hi.1, (hre.kept i ht).1.symm.trans hi.2⟩
      exact (hv.told i hold).carry (h.attrs i hm ht) (h.naming_of_ne hv.named hm ht) (h.links_of_file ht)

theorem carries (hmoved : (ordinary (v'.attrs moved)).Perm (ordinary (v.attrs moved)))
    (hvictim : ∀ t, victim = some t → victimFreed (v.names.core t) = false →
      (ordinary (v'.attrs t)).Perm (ordinary (v.attrs t))) : v.Carries v' := by
  intro i _ hi
  by_cases hm : i = moved
  · exact hm ▸ hmoved
  by_cases ht : victim = some i
  · refine hvictim i ht (Bool.eq_false_of_not_eq_true fun hfreed => ?_)
    have hslot := (h.renamed.gone i ht).1
    rw [hfreed] at hslot
    exact Bool.false_ne_true (hi.2.symm.trans (congrArg Slot.free hslot))
  · rw [h.attrs i hm ht]

end Moved

/-! ## The operations -/

theorem perm_of_eq {attrs after old : List Xattr} (h : attrs = after)
    (hperm : (ordinary after).Perm (ordinary old)) : (ordinary attrs).Perm (ordinary old) := by
  rw [h]
  exact hperm

section

variable {root : ℕ} {v v' : Volume} {answers : Answers v.names} {layouts : Layouts} {sb : Superblock}

theorem link_kept {ino dirIno : ℕ} {name : List UInt8} (hsb : hasParents sb = true)
    (hv : Kept root v) (hinos : ∀ i ∈ v.names.inos, i < 256 ^ 8)
    (h : v.link answers layouts sb ino dirIno name = .ok v') : Kept root v' ∧ v.Carries v' := by
  obtain ⟨names, hnames, h⟩ := bind_eq_ok.mp h
  obtain ⟨attrs, hattrs, h⟩ := bind_eq_ok.mp h
  cases h
  obtain ⟨after, hafter, rfl⟩ := changed_ok hsb hattrs
  obtain ⟨hfile, hused, hfresh, change, -, hre⟩ := State.link_relinked hnames
  have hinUse : v.InUse ino := by
    refine ⟨hre.mem, ?_⟩
    by_contra hfree
    exact hused (hv.unused ino hre.mem (Bool.eq_true_of_not_eq_false hfree)).1
  have hretold : Retold v ⟨names, Function.update v.attrs ino after, v.gen⟩ dirIno ino change _ []
      [⟨name, ino⟩] :=
    ⟨hre, by simp, by simp, fun hdir => absurd (hfile.symm.trans hdir) Bool.false_ne_true,
      fun hdir => absurd (hfile.symm.trans hdir) Bool.false_ne_true,
      fun i hi => Function.update_of_ne hi _ _, fun _ _ => rfl⟩
  have hfree : (v.names.slot ino).free ≠ true := by simp [hinUse.2]
  have hself : Function.update v.attrs ino after ino = after := Function.update_self ..
  refine ⟨?_, hretold.carries fun _ => perm_of_eq hself (withParentPointers_ordinary hafter)⟩
  refine hretold.kept hv (State.link_wellNamed hv.named hnames) hv.gens (fun _ => ?_)
    (fun htrue => absurd htrue hfree) fun htrue => absurd htrue hfree
  obtain ⟨n, hn, hlinks⟩ := hv.told ino hinUse
  have hnew : ¬v.Naming ino ⟨name, dirIno, v.gen dirIno⟩ := fun hnaming => hfresh _ hnaming.2.1 rfl
  have hadded := hn.added hnew (hinos dirIno hre.dir.1) (hv.gens dirIno) hafter
  refine ⟨n + 1, ?_, fun _ => ?_⟩
  · change Follows ino (Function.update v.attrs ino after ino) _ _
    rw [hself]
    exact hadded.congr (hretold.naming_added hv.named)
  · change n + 1 = (names.core ino).nlink
    rw [hre.core_self, hlinks hfile]

theorem remove_kept {parent : ℕ} {name : List UInt8} {target : State.Target}
    (hsb : hasParents sb = true) (hv : Kept root v) (hinos : ∀ i ∈ v.names.inos, i < 256 ^ 8)
    (h : v.remove answers layouts sb parent name target = .ok v') : Kept root v' ∧ v.Carries v' := by
  obtain ⟨names, hnames, h⟩ := bind_eq_ok.mp h
  obtain ⟨ino', hino', h⟩ := bind_eq_ok.mp h
  obtain ⟨ino, change, hhas, hkind, hempty, -, hre⟩ := State.remove_relinked hv.named hnames
  obtain rfl := hv.named.has_unique hre.dir
    (State.entryIno_eq_some hv.named hre.dir (orElse_eq_ok.mp hino')) hhas
  have hnamed := State.remove_wellNamed hv.named hnames
  have hinUse : v.InUse ino' := hv.used parent name ino' hre.dir hhas
  obtain ⟨n, hn, hlinks⟩ := hv.told ino' hinUse
  have hbefore : (v.names.core ino').isDir = true → (v.names.core ino').names.entries = [] := by
    intro hdir
    rw [hkind] at hdir
    exact (hempty (of_decide_eq_true hdir)).1
  split at h
  next hfreed =>
    cases h
    rw [decide_eq_true hfreed] at hre
    have hgone : (unlinked true (v.names.slot ino') (v.names.core ino')).core.isDir = false :=
      State.isDir_of_mode_eq_zero rfl
    have hretold : Retold v (v.emptied names v.attrs ino') parent ino' change _ [⟨name, ino'⟩] [] :=
      ⟨hre, by simp, by simp, hbefore, fun hdir => absurd (hgone.symm.trans hdir) Bool.false_ne_true,
        fun i hi => Function.update_of_ne hi _ _, fun i hi => nextGen_of_ne hi⟩
    refine ⟨?_, hretold.carries fun hfree => absurd hfree.symm Bool.false_ne_true⟩
    refine hretold.kept hv hnamed (nextGen_lt hv.gens ino') (fun hfree => absurd hfree.symm Bool.false_ne_true)
      (fun _ => ⟨rfl, hgone⟩) fun _ q hq => ?_
    obtain ⟨hq, hne⟩ := (hretold.naming_removed hv.named q).mp hq
    refine hne (hv.only_name hre.dir hhas (hfreed.imp_left fun heq => ?_) hq)
    rw [hkind]
    exact decide_eq_true heq
  next hlive =>
    obtain ⟨attrs, hattrs, h⟩ := bind_eq_ok.mp h
    cases h
    obtain ⟨after, hafter, rfl⟩ := changed_ok hsb hattrs
    rw [decide_eq_false hlive] at hre
    have hfile : (v.names.core ino').isDir = false := by
      rw [hkind]
      exact decide_eq_false fun heq => hlive (.inl heq)
    have hretold : Retold v ⟨names, Function.update v.attrs ino' after, v.gen⟩ parent ino' change _
        [⟨name, ino'⟩] [] :=
      ⟨hre, by simp, by simp, hbefore,
        fun hdir => absurd (hfile.symm.trans hdir) Bool.false_ne_true,
        fun i hi => Function.update_of_ne hi _ _, fun _ _ => rfl⟩
    have hfree : (v.names.slot ino').free ≠ true := by simp [hinUse.2]
    have hself : Function.update v.attrs ino' after ino' = after := Function.update_self ..
    refine ⟨?_, hretold.carries fun _ => perm_of_eq hself (withParentPointers_ordinary hafter)⟩
    refine hretold.kept hv hnamed hv.gens (fun _ => ?_) (fun htrue => absurd htrue hfree)
      fun htrue => absurd htrue hfree
    obtain ⟨m, hm, hremoved⟩ := hn.removed (fun q q' => Naming.once) (hinos parent hre.dir.1) hafter
    refine ⟨m, ?_, fun _ => ?_⟩
    · change Follows ino' (Function.update v.attrs ino' after ino') _ _
      rw [hself]
      exact hremoved.congr (hretold.naming_removed hv.named)
    · change m = (names.core ino').nlink
      rw [hre.core_self]
      change m = (v.names.core ino').nlink - 1
      rw [← hlinks hfile, hm]
      rfl

theorem Kept.taken {mid : State} {ino : ℕ} (hv : Kept root v) (h : State.Taken v.names mid ino) :
    Kept root { v with names := mid } := by
  have hhas : ∀ d n i, v.names.IsDir d → (mid.Has d n i ↔ v.names.Has d n i) := by
    intro d n i hd
    unfold State.Has
    rw [h.core_eq hd.1]
  have hnaming : ∀ k q, Naming { v with names := mid } k q ↔ v.Naming k q := by
    intro k q
    unfold Naming
    rw [h.isDir_iff]
    exact and_congr_right fun hd => and_congr_left fun _ => hhas _ _ _ hd
  refine ⟨h.wellNamed hv.named, fun d n i hd hn => ?_, fun i hi hfree => ?_, fun i hi => ?_, hv.gens⟩
  · have hd := h.isDir_iff.mp hd
    obtain ⟨hmem, hfree⟩ := hv.used d n i hd ((hhas d n i hd).mp hn)
    exact ⟨h.sub hmem, (congrArg Slot.free (h.old i hmem)).trans hfree⟩
  · change (mid.core i).nlink = 0 ∧ (mid.core i).isDir = false
    by_cases hmem : i ∈ v.names.inos
    · rw [h.core_eq hmem]
      exact hv.unused i hmem ((congrArg Slot.free (h.old i hmem)).symm.trans hfree)
    · have hblank : mid.core i = State.blankCore := congrArg Slot.core (h.new i hi hmem)
      rw [hblank]
      exact ⟨rfl, rfl⟩
  · have hmem : i ∈ v.names.inos := by
      by_contra hnot
      have hfree : (mid.slot i).free = true := congrArg Slot.free (h.new i hi.1 hnot)
      exact Bool.false_ne_true (hi.2.symm.trans hfree)
    have hold : v.InUse i := ⟨hmem, (congrArg Slot.free (h.old i hmem)).symm.trans hi.2⟩
    refine (hv.told i hold).carry rfl (hnaming i) fun hfile => ?_
    change (mid.core i).isDir = false at hfile
    change _ ∧ (mid.core i).nlink = _
    rw [h.core_eq hmem] at hfile ⊢
    exact ⟨hfile, rfl⟩

theorem create_kept {parent mode : ℕ} {name target : List UInt8} {kind : Kind}
    (hsb : hasParents sb = true) (hv : Kept root v) (hinos : ∀ i ∈ v.names.inos, i < 256 ^ 8)
    (h : v.create answers sb parent name mode kind target = .ok v') : Kept root v' ∧ v.Carries v' := by
  obtain ⟨names, hnames, h⟩ := bind_eq_ok.mp h
  obtain ⟨ino', hino', h⟩ := bind_eq_ok.mp h
  rw [if_pos hsb] at h
  cases h
  obtain ⟨mid, ino, change, new, -, -, htaken, hp, hfresh, -, hdir, hnlink, hcreated, hre⟩ :=
    State.create_relinked hnames
  have hmid := hv.taken htaken
  have hnamed := State.create_wellNamed hv.named hv.used hnames
  have hpDir : names.IsDir parent := (hre.isDir_of_ne hre.ne.symm).mpr hre.dir
  obtain rfl : ino' = ino := by
    refine hnamed.has_unique hpDir (State.entryIno_eq_some hnamed hpDir (orElse_eq_ok.mp hino')) ?_
    exact (hre.has_iff hmid.named hre.ne.symm).mpr (.inr ⟨rfl, by simp⟩)
  have hempty : new.names.entries = [] := by
    rw [hcreated]
    cases kind <;> rfl
  have hretold : Retold { v with names := mid } ⟨names, Function.update v.attrs ino'
      [Pointer.xattr ⟨name, parent, v.gen parent⟩], v.nextGen ino'⟩ parent ino' change ⟨false, new⟩ []
      [⟨name, ino'⟩] :=
    ⟨hre, by simp, by simp, fun hisDir => absurd (htaken.file.symm.trans hisDir) Bool.false_ne_true,
      fun _ => hempty, fun i hi => Function.update_of_ne hi _ _, fun i hi => nextGen_of_ne hi⟩
  refine ⟨?_, fun i hi _ => ?_⟩
  swap
  · -- the inode taken was not in use
    have hne : i ≠ ino' := by
      rintro rfl
      have hfree := htaken.free
      rw [htaken.old i hi.1, hi.2] at hfree
      exact Bool.false_ne_true hfree
    rw [hretold.attrs i hne]
  refine hretold.kept hmid hnamed (nextGen_lt hv.gens ino') (fun _ => ?_)
    (fun hfree => absurd hfree Bool.false_ne_true) fun hfree => absurd hfree Bool.false_ne_true
  have hnone : ∀ q, ¬Naming { v with names := mid } ino' q :=
    fun q hq => htaken.unnamed hv.used hq.1 hq.2.1
  have hadded := (Follows.nil ino' hnone).add (hnone ⟨name, parent, v.gen parent⟩) (hinos parent hp.1)
    (hv.gens parent)
  refine ⟨1, ?_, fun hfile => ?_⟩
  · change Follows ino' (Function.update v.attrs ino' _ ino') _ _
    rw [Function.update_self]
    exact hadded.congr (hretold.naming_added hmid.named)
  · change (names.core ino').isDir = false at hfile
    change 1 = (names.core ino').nlink
    rw [hre.core_self] at hfile ⊢
    change 1 = new.nlink
    rw [hnlink]
    cases kind with
    | file => rfl
    | symlink => rfl
    | directory => exact absurd (hfile.symm.trans (hdir.mpr rfl)) Bool.false_ne_true

theorem rename_kept {fromDir toDir : ℕ} {from_ to_ : List UInt8} (hsb : hasParents sb = true)
    (hv : Kept sb.rootino v) (hinos : ∀ i ∈ v.names.inos, i < 256 ^ 8)
    (h : v.rename answers layouts sb fromDir from_ toDir to_ = .ok v') :
    Kept sb.rootino v' ∧ v.Carries v' := by
  obtain ⟨names, hnames, h⟩ := bind_eq_ok.mp h
  obtain ⟨moved', hmoved', h⟩ := bind_eq_ok.mp h
  obtain ⟨hfrom, hto, hvalid, -⟩ := State.rename_cases hnames
  have hsource := State.entryIno_eq_some hv.named hfrom (orElse_eq_ok.mp hmoved')
  rcases State.rename_renamed hv.named hnames with ⟨rfl, moved, -, -, hhas, hself⟩ |
    ⟨moved, victim, hre⟩
  · obtain rfl := hv.named.has_unique hfrom hhas hsource
    rw [if_pos ((State.entryIno_iff hv.named hto hvalid).mpr hself)] at h
    cases h
    exact ⟨hv, fun i _ _ => .refl _⟩
  · obtain rfl := hv.named.has_unique hfrom hre.source hsource
    have htarget : entryIno (v.names.core toDir) to_ = victim := by
      refine Option.ext fun t => ?_
      rw [State.entryIno_iff hv.named hto hvalid, hre.target t]
    rw [htarget, if_neg hre.ne] at h
    obtain ⟨attrs, hattrs, h⟩ := bind_eq_ok.mp h
    obtain ⟨after, hafter, rfl⟩ := changed_ok hsb hattrs
    have hfromLt := hinos fromDir hfrom.1
    have htoLt := hinos toDir hto.1
    have hself : Function.update v.attrs moved after moved = after := Function.update_self ..
    have hordinary := withParentPointers_ordinary hafter
    cases victim with
    | none =>
      cases h
      have hmoved : Moved v ⟨names, Function.update v.attrs moved after, v.gen⟩ fromDir toDir from_ to_
          moved none :=
        ⟨hre, fun i hi _ => Function.update_of_ne hi _ _, fun _ _ => rfl⟩
      exact ⟨hmoved.kept hv hv.gens (hmoved.told_moved hv hfromLt htoLt hafter hself)
          fun t ht => absurd ht (by simp),
        hmoved.carries (perm_of_eq hself hordinary) fun t ht => absurd ht (by simp)⟩
    | some t =>
      have hne : t ≠ moved := fun heq => hre.ne (heq ▸ rfl)
      have hother : ∀ left i, i ≠ moved → some t ≠ some i →
          Function.update (Function.update v.attrs moved after) t left i = v.attrs i := by
        intro left i hi ht
        have hit : i ≠ t := fun heq => ht (heq ▸ rfl)
        rw [Function.update_of_ne hit, Function.update_of_ne hi]
      have hself : ∀ left, Function.update (Function.update v.attrs moved after) t left moved = after :=
        fun left => (Function.update_of_ne hne.symm _ _).trans hself
      simp only [replaced] at h
      split at h
      next hfreed =>
        cases h
        have hmoved : Moved v (v.emptied names (Function.update v.attrs moved after) t) fromDir toDir
            from_ to_ moved (some t) :=
          ⟨hre, hother [], fun i ht => nextGen_of_ne fun heq => ht (heq ▸ rfl)⟩
        have hnot : ∀ t', some t = some t' → victimFreed (v.names.core t') ≠ false := by
          intro t' ht' hlive
          cases ht'
          exact Bool.false_ne_true (hlive.symm.trans hfreed)
        exact ⟨hmoved.kept hv (nextGen_lt hv.gens t)
            (hmoved.told_moved hv hfromLt htoLt hafter (hself []))
            fun t' ht' hlive => absurd hlive (hnot t' ht'),
          hmoved.carries (perm_of_eq (hself []) hordinary)
            fun t' ht' hlive => absurd hlive (hnot t' ht')⟩
      next hlive =>
        obtain ⟨attrs, hattrs, h⟩ := bind_eq_ok.mp h
        cases h
        obtain ⟨left, hleft, rfl⟩ := changed_ok hsb hattrs
        rw [Function.update_of_ne hne] at hleft
        have hmoved : Moved v ⟨names, Function.update (Function.update v.attrs moved after) t left, v.gen⟩
            fromDir toDir from_ to_ moved (some t) :=
          ⟨hre, hother left, fun _ _ => rfl⟩
        have hleftSelf : Function.update (Function.update v.attrs moved after) t left t = left :=
          Function.update_self ..
        refine ⟨hmoved.kept hv hv.gens (hmoved.told_moved hv hfromLt htoLt hafter (hself left))
            fun t' ht' hlive => ?_,
          hmoved.carries (perm_of_eq (hself left) hordinary) fun t' ht' _ => ?_⟩
        · cases ht'
          exact hmoved.told_victim hv htoLt rfl hlive hleft hleftSelf
        · cases ht'
          exact perm_of_eq hleftSelf (withParentPointers_ordinary hleft)

/-! ## Runs -/

/-- One operation that returned. Inode numbers are words. -/
def Step (sb : Superblock) (v v' : Volume) : Prop :=
  ∃ op answers layouts, v.run answers layouts sb op = .ok v' ∧ ∀ i ∈ v'.names.inos, i < 256 ^ 8

def LiveStep (sb : Superblock) (i : ℕ) (v v' : Volume) : Prop :=
  Step sb v v' ∧ v.InUse i ∧ v'.InUse i

theorem Step.sound (hsb : hasParents sb = true) (h : Step sb v v') (hv : Sound sb.rootino v)
    (hm : v.Mirrored) : (Sound sb.rootino v' ∧ v'.Mirrored) ∧ v.Carries v' := by
  obtain ⟨op, answers, layouts, hrun, hinos⟩ := h
  have hkept := hv.kept hm
  suffices hdone : Kept sb.rootino v' ∧ v.Carries v' from ⟨hdone.1.sound hinos, hdone.2⟩
  cases op with
  | create parent name mode kind target => exact create_kept hsb hkept hv.inos hrun
  | link ino dirIno name => exact link_kept hsb hkept hv.inos hrun
  | remove parent name target => exact remove_kept hsb hkept hv.inos hrun
  | rename fromDir from_ toDir to_ => exact rename_kept hsb hkept hv.inos hrun

theorem steps_sound (hsb : hasParents sb = true) (hv : Sound sb.rootino v) (hm : v.Mirrored)
    (h : Relation.ReflTransGen (Step sb) v v') : Sound sb.rootino v' ∧ v'.Mirrored := by
  induction h with
  | refl => exact ⟨hv, hm⟩
  | tail _ hstep ih => exact (hstep.sound hsb ih.1 ih.2).1

theorem steps_carry (hsb : hasParents sb = true) (hv : Sound sb.rootino v) (hm : v.Mirrored) {i : ℕ}
    (h : Relation.ReflTransGen (LiveStep sb i) v v') :
    (ordinary (v'.attrs i)).Perm (ordinary (v.attrs i)) := by
  suffices hall : (Sound sb.rootino v' ∧ v'.Mirrored) ∧
      (ordinary (v'.attrs i)).Perm (ordinary (v.attrs i)) from hall.2
  induction h with
  | refl => exact ⟨⟨hv, hm⟩, .refl _⟩
  | tail _ hstep ih =>
    obtain ⟨hdone, hcarries⟩ := hstep.1.sound hsb ih.1.1 ih.1.2
    exact ⟨hdone, (hcarries i hstep.2.1 hstep.2.2).trans ih.2⟩

/-- Over any run the parent pointers of every inode in use stay its entries, and an inode that stays in
use keeps its other attributes. -/
theorem steps_mirrored (hsb : hasParents sb = true) (hv : Sound sb.rootino v) (hm : v.Mirrored)
    (h : Relation.ReflTransGen (Step sb) v v') :
    v'.Mirrored ∧ ∀ i, Relation.ReflTransGen (LiveStep sb i) v v' →
      (ordinary (v'.attrs i)).Perm (ordinary (v.attrs i)) :=
  ⟨(steps_sound hsb hv hm h).2, fun _ hlive => steps_carry hsb hv hm hlive⟩

end

/-! ## A root with one directory, and its parent pointer -/

def parentVolume : Superblock :=
  { twoGroups with featuresIncompat := twoGroups.featuresIncompat ||| 2 ^ 7 }

def inOrder : Layouts := fun _ attrs => .ok ⟨attrs, .refl _⟩

def oneParent : Volume where
  names := State.oneDirectory
  attrs := fun i => if i = 65 then [Pointer.xattr ⟨State.nameA, 64, 7⟩] else []
  gen := fun _ => 7

variable {p i : ℕ} {name : List UInt8} {slot : Slot}

theorem oneParent_has : oneParent.names.Has p name i ↔ p = 64 ∧ name = State.nameA ∧ i = 65 := by
  by_cases hp : p = 64 <;>
    simp [State.Has, State.core, oneParent, State.oneDirectory, State.smallDirectory, hp]

theorem oneParent_mem (hi : i ∈ oneParent.names.inos) : i = 64 ∨ i = 65 := by
  simpa [oneParent, State.oneDirectory] using hi

theorem oneParent_sound : Sound 64 oneParent where
  named := State.oneDirectory_wellNamed
  used := by
    intro p name i _ hhas
    obtain ⟨-, -, rfl⟩ := oneParent_has.mp hhas
    decide
  unused := by
    intro i hi hfree
    rcases oneParent_mem hi with rfl | rfl <;> exact absurd hfree (by decide)
  counted := by
    intro i hi hfile
    rcases oneParent_mem hi.1 with rfl | rfl <;> exact absurd hfile (by decide)
  inos := by
    intro i hi
    rcases oneParent_mem hi with rfl | rfl <;> decide
  gens := by
    intro i
    change 7 < 256 ^ 4
    decide

theorem oneParent_mirrored : oneParent.Mirrored := by
  intro i hi
  rcases oneParent_mem hi.1 with rfl | rfl
  · refine ⟨0, Follows.nil 64 fun q hq => ?_⟩
    exact absurd (oneParent_has.mp hq.2.1).2.2 (by decide)
  · refine ⟨1, [⟨State.nameA, 64, 7⟩], by decide, List.nodup_singleton _, rfl, fun q => ?_⟩
    rw [List.mem_singleton]
    constructor
    · rintro rfl
      exact ⟨by decide, by decide, rfl⟩
    · intro hq
      obtain ⟨hparent, hname, -⟩ := oneParent_has.mp hq.2.1
      have hgen : 7 = q.generation := hq.2.2
      obtain ⟨name, parent, generation⟩ := q
      simp only at hparent hname hgen
      rw [hparent, hname, hgen]

theorem steps_mirrored_small : ∃ v', Relation.ReflTransGen (Step parentVolume) oneParent v' ∧
    pointers (v'.attrs 65) = [⟨State.nameB, 64, 7⟩] ∧ v'.Mirrored := by
  have hsample : ((oneParent.rename (State.calmAnswers oneParent.names) inOrder parentVolume 64
      State.nameA 64 State.nameB).toOption.map fun v' =>
        decide (pointers (v'.attrs 65) = [⟨State.nameB, 64, 7⟩] ∧
          ∀ i ∈ v'.names.inos, i < 256 ^ 8)) = some true := by decide +kernel
  obtain ⟨v', hv', hafter⟩ := ok_of_toOption_map hsample
  obtain ⟨hpointers, hinos⟩ := of_decide_eq_true hafter
  have hstep : Step parentVolume oneParent v' :=
    ⟨.rename 64 State.nameA 64 State.nameB, State.calmAnswers oneParent.names, inOrder, hv', hinos⟩
  exact ⟨v', .single hstep, hpointers,
    (steps_mirrored (by decide) oneParent_sound oneParent_mirrored (.single hstep)).1⟩

/-! ## A file with one link and two names -/

def smallFile (nlink : ℕ) : Slot :=
  ⟨false, ⟨0o100644, nlink, .extents, false, ⟨0, []⟩⟩⟩

def namedTwice (slot : Slot) : Volume where
  names :=
    { inos := {64, 65}
      slot := fun ino =>
        if ino = 64 then State.smallDirectory 3 64 [⟨State.nameA, 65⟩, ⟨State.nameB, 65⟩] else slot }
  attrs := fun i =>
    if i = 65 then [Pointer.xattr ⟨State.nameA, 64, 7⟩, Pointer.xattr ⟨State.nameB, 64, 7⟩] else []
  gen := fun _ => 7

theorem namedTwice_has (hslot : slot.core.names.entries = []) : (namedTwice slot).names.Has p name i ↔
      p = 64 ∧ (name = State.nameA ∨ name = State.nameB) ∧ i = 65 := by
  by_cases hp : p = 64
  · simp [State.Has, State.core, namedTwice, State.smallDirectory, hp]
    tauto
  · simp [State.Has, State.core, namedTwice, hp, hslot]

theorem namedTwice_mirrored (hslot : slot.core.names.entries = []) :
    (namedTwice slot).Mirrored := by
  intro i hi
  have hmem : i = 64 ∨ i = 65 := by simpa [namedTwice] using hi.1
  rcases hmem with rfl | rfl
  · refine ⟨0, Follows.nil 64 fun q hq => ?_⟩
    exact absurd ((namedTwice_has hslot).mp hq.2.1).2.2 (by decide)
  · have hread : parentPointers 65 [Pointer.xattr ⟨State.nameA, 64, 7⟩,
        Pointer.xattr ⟨State.nameB, 64, 7⟩] = .ok [⟨State.nameA, 64, 7⟩, ⟨State.nameB, 64, 7⟩] := by
      decide
    refine ⟨2, [⟨State.nameA, 64, 7⟩, ⟨State.nameB, 64, 7⟩], hread, by decide, rfl, fun q => ?_⟩
    have hdir : (namedTwice slot).names.IsDir 64 := by
      refine ⟨by simp [namedTwice], ?_⟩
      simp [State.core, namedTwice, State.smallDirectory, Core.isDir, sIfmt]
    simp only [List.mem_cons, List.not_mem_nil, or_false]
    constructor
    · rintro (rfl | rfl)
      · exact ⟨hdir, (namedTwice_has hslot).mpr ⟨rfl, .inl rfl, rfl⟩, rfl⟩
      · exact ⟨hdir, (namedTwice_has hslot).mpr ⟨rfl, .inr rfl, rfl⟩, rfl⟩
    · intro hq
      obtain ⟨hparent, hname, -⟩ := (namedTwice_has hslot).mp hq.2.1
      have hgen : 7 = q.generation := hq.2.2
      obtain ⟨name, parent, generation⟩ := q
      simp only at hparent hname hgen
      rw [hparent, ← hgen]
      rcases hname with rfl | rfl
      · exact .inl rfl
      · exact .inr rfl

theorem not_mirrored {v : Volume} (hi : v.InUse i)
    (hp : v.names.IsDir p) (hhas : v.names.Has p name i)
    (hnone : ∀ q ∈ pointers (v.attrs i), q.name ≠ name) : ¬v.Mirrored := by
  intro hm
  obtain ⟨n, l, hl, -, -, hmem⟩ := hm i hi
  obtain ⟨-, rfl⟩ := parentPointers_eq_ok.mp hl
  exact hnone _ ((hmem _).mpr (naming_of_has hp hhas)) rfl

def takes (s : State) (ino : ℕ) : Answers s :=
  { State.calmAnswers s with choose := .ok (.inl ino) }

def reused (slot : Slot) (target : State.Target) : Except Error (Volume × Volume) := do
  let v ← (namedTwice slot).remove (State.calmAnswers _) inOrder parentVolume 64 State.nameA target
  let v' ← v.create (takes v.names 65) parentVolume 64 State.nameC 0o644 .file []
  pure (v, v')

theorem reused_not_mirrored (target : State.Target)
    (hsample : ((reused slot target).toOption.map fun p => decide
      (p.1.names.inos = {64, 65} ∧ p.2.names.inos = {64, 65} ∧ p.2.names.IsDir 64 ∧
        p.2.names.Has 64 State.nameB 65 ∧ (p.2.names.slot 65).free = false ∧
          ∀ q ∈ pointers (p.2.attrs 65), q.name ≠ State.nameB)) = some true) :
    ∃ v', Relation.ReflTransGen (Step parentVolume) (namedTwice slot) v' ∧ ¬v'.Mirrored := by
  obtain ⟨⟨v, v'⟩, hrun, hafter⟩ := ok_of_toOption_map hsample
  obtain ⟨hinos, hinos', hdir, hhas, hfree, hnone⟩ := of_decide_eq_true hafter
  obtain ⟨w, hw, hrun⟩ := bind_eq_ok.mp hrun
  obtain ⟨w', hw', hrun⟩ := bind_eq_ok.mp hrun
  obtain ⟨rfl, rfl⟩ := Prod.mk.inj (Except.ok.inj hrun)
  have hwords : ∀ i ∈ ({64, 65} : Finset ℕ), i < 256 ^ 8 := by decide
  have hfirst : Step parentVolume (namedTwice slot) w :=
    ⟨.remove 64 State.nameA target, _, inOrder, hw, hinos ▸ hwords⟩
  have hsecond : Step parentVolume w w' :=
    ⟨.create 64 State.nameC 0o644 .file [], _, inOrder, hw', hinos' ▸ hwords⟩
  have hmem : 65 ∈ w'.names.inos := by
    rw [hinos']
    decide
  exact ⟨w', .tail (.single hfirst) hsecond, not_mirrored ⟨hmem, hfree⟩ hdir hhas hnone⟩

/-- A file whose count leaves out one of its names, and a directory with two, are freed with an entry
that still names them: what is made in the inode next has a name and no pointer for it. -/
theorem removed_name_returns : hasParents parentVolume = true ∧
    ((namedTwice (smallFile 1)).Mirrored ∧
      ∃ v', Relation.ReflTransGen (Step parentVolume) (namedTwice (smallFile 1)) v' ∧ ¬v'.Mirrored) ∧
    (namedTwice (State.smallDirectory 2 64 [])).Mirrored ∧
      ∃ v', Relation.ReflTransGen (Step parentVolume) (namedTwice (State.smallDirectory 2 64 [])) v' ∧
        ¬v'.Mirrored := by
  refine ⟨by decide, ⟨namedTwice_mirrored rfl, reused_not_mirrored .file ?_⟩, namedTwice_mirrored rfl,
    reused_not_mirrored .directory ?_⟩
  · decide +kernel
  · decide +kernel

end Volume

end FsXfs.Names
