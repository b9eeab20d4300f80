import FsXfs.Names.Renaming

/-!
# A rename leaves a tree

Directories that are a tree before a rename are a tree after it. What would break the tree is refused:
a directory moved into itself or beneath itself, and one replaced while it holds names or by what is
no directory.
-/

namespace FsXfs.Names

open Hierarchy

set_option autoImplicit false

namespace State

def Beneath (s : State) (d top : ℕ) : Prop :=
  ∃ n, s.forest.up^[n] d = top

/-- A rename that would cut directories off the tree: what is moved would hold itself, or what is
replaced is a directory that names something or that no directory takes the place of. -/
def Breaks (s : State) (fromDir : ℕ) (from_ : List UInt8) (toDir : ℕ) (to_ : List UInt8) : Prop :=
  ∃ moved, s.Has fromDir from_ moved ∧
    (s.IsDir moved ∧ s.Beneath toDir moved ∨
      ∃ v, v ≠ moved ∧ s.Has toDir to_ v ∧ s.IsDir v ∧
        ((s.core v).names.entries ≠ [] ∨ ¬s.IsDir moved))

/-- No directory but the root is its own ancestor. -/
def Acyclic (s : State) (root : ℕ) : Prop :=
  ∀ d, s.IsDir d → d ≠ root → ∀ n, 0 < n → s.forest.up^[n] d ≠ d

section

variable {s s' : State} {answers : Answers s} {sb : Superblock} {root fromDir toDir : ℕ}
  {from_ to_ : List UInt8}

theorem WellNamed.acyclic (hs : WellNamed root s) : s.Acyclic root :=
  fun d hd hne _ hn => iterate_ne_self hs.tree.root_up (hs.tree.reaches d hd) hne hn

theorem rename_wellNamed (hs : WellNamed sb.rootino s)
    (h : s.rename answers sb fromDir from_ toDir to_ = .ok s') : WellNamed sb.rootino s' := by
  rcases rename_renamed hs h with ⟨rfl, -⟩ | ⟨moved, victim, hrenamed⟩
  · exact hs
  · exact hrenamed.wellNamed hs

theorem not_beneath_of_has {moved : ℕ} (hs : WellNamed root s) (hto : s.IsDir toDir)
    (hmoved : s.IsDir moved) (hhas : s.Has toDir to_ moved) : ¬s.Beneath toDir moved := by
  rintro ⟨n, hn⟩
  have hup : toDir = s.forest.up moved := hs.tree.once moved hmoved toDir to_ hto hhas
  have hroot : moved ≠ root := fun heq => hs.tree.root_unnamed toDir to_ hto (heq ▸ hhas)
  refine WellNamed.acyclic hs moved hmoved hroot (n + 1) (Nat.succ_pos n) ?_
  rw [Function.iterate_succ_apply, ← hup]
  exact hn

theorem not_breaks_of_ok (hs : WellNamed sb.rootino s)
    (h : s.rename answers sb fromDir from_ toDir to_ = .ok s') :
    ¬s.Breaks fromDir from_ toDir to_ := by
  rcases rename_renamed hs h with ⟨-, moved, hfrom, hto, hsource, htarget⟩ |
    ⟨moved, victim, hrenamed⟩
  · rintro ⟨other, hother, hbreaks⟩
    obtain rfl := hs.has_unique hfrom hsource hother
    rcases hbreaks with ⟨hdir, hbeneath⟩ | ⟨v, hne, hv, -⟩
    · exact not_beneath_of_has hs hto hdir htarget hbeneath
    · exact hne (hs.has_unique hto hv htarget)
  · rintro ⟨other, hother, hbreaks⟩
    obtain rfl := hs.has_unique hrenamed.dirs.1 hrenamed.source hother
    rcases hbreaks with ⟨⟨-, hdir⟩, n, hn⟩ | ⟨v, hne, hv, ⟨-, hdir⟩, hfull | hfile⟩
    · exact hrenamed.above hdir n hn
    · exact hfull (hrenamed.empty v ((hrenamed.target v).mpr hv) hdir)
    · have halike := hrenamed.alike v ((hrenamed.target v).mpr hv)
      exact hfile ⟨hrenamed.mem, halike ▸ hdir⟩

/-- A rename keeps the directories a tree, in which nothing is above itself, and one that would not
is refused. -/
theorem rename_keeps_tree (hs : WellNamed sb.rootino s) :
    (∀ s', s.rename answers sb fromDir from_ toDir to_ = .ok s' →
      IsTree s'.forest sb.rootino ∧ s'.Acyclic sb.rootino) ∧
      (s.Breaks fromDir from_ toDir to_ →
        ∃ e, s.rename answers sb fromDir from_ toDir to_ = .error e) := by
  constructor
  · intro s' h
    have hs' := rename_wellNamed hs h
    exact ⟨hs'.tree, WellNamed.acyclic hs'⟩
  · intro hbreaks
    cases h : s.rename answers sb fromDir from_ toDir to_ with
    | ok s' => exact absurd hbreaks (not_breaks_of_ok hs h)
    | error e => exact ⟨e, rfl⟩

end

/-! ## A root with one directory in it -/

def nameA : List UInt8 := [97]

def nameB : List UInt8 := [98]

def smallDirectory (nlink parent : ℕ) (entries : List Entry) : Slot :=
  ⟨false, ⟨0o040755, nlink, .local_, false, ⟨parent, entries⟩⟩⟩

def oneDirectory : State where
  inos := {64, 65}
  slot := fun ino =>
    if ino = 64 then smallDirectory 3 64 [⟨nameA, 65⟩] else smallDirectory 2 64 []

theorem oneDirectory_wellNamed : WellNamed 64 oneDirectory := by
  have hdir : ∀ d, oneDirectory.IsDir d ↔ d = 64 ∨ d = 65 := by
    intro d
    constructor
    · rintro ⟨hmem, -⟩
      simpa [oneDirectory] using hmem
    · rintro (rfl | rfl) <;> decide
  have hhas : ∀ p n i, oneDirectory.Has p n i ↔ p = 64 ∧ n = nameA ∧ i = 65 := by
    intro p n i
    by_cases hp : p = 64 <;> simp [Has, core, oneDirectory, smallDirectory, hp]
  have hup : ∀ d, oneDirectory.forest.up d = 64 := by
    intro d
    by_cases hd : d = 64 <;> simp [forest, core, oneDirectory, smallDirectory, hd]
  refine ⟨⟨(hdir 64).mpr (.inl rfl), hup 64, ?_, ?_, ?_, ?_, ?_, ?_⟩, ?_⟩
  · intro p n hp hn
    exact absurd ((hhas p n 64).mp hn).2.2 (by decide)
  · intro i _
    rw [hup]
    exact (hdir 64).mpr (.inl rfl)
  · intro i hi hne
    rw [hup]
    exact ⟨nameA, (hhas 64 nameA i).mpr ⟨rfl, rfl, ((hdir i).mp hi).resolve_left hne⟩⟩
  · intro i hi p n hp hn
    rw [hup]
    exact ((hhas p n i).mp hn).1
  · intro i hi p n n' hp hn hn'
    exact ((hhas p n i).mp hn).2.1.trans ((hhas p n' i).mp hn').2.1.symm
  · intro i hi
    exact ⟨1, hup i⟩
  · intro d hd
    rcases (hdir d).mp hd with rfl | rfl <;> simp [Directory.Distinct, core, oneDirectory, smallDirectory]

def calmAnswers (s : State) : Answers s where
  writable := .ok ()
  read := fun _ => .ok ()
  layOut := fun _ _ => .ok (.local_, false)
  choose := .error .notFound
  inline := true
  rest := .ok ()

theorem rename_keeps_tree_small :
    (∃ s', oneDirectory.rename (calmAnswers oneDirectory) twoGroups 64 nameA 64 nameB = .ok s' ∧
      IsTree s'.forest 64) ∧
      ∃ e, oneDirectory.rename (calmAnswers oneDirectory) twoGroups 64 nameA 65 nameB = .error e := by
  constructor
  · obtain ⟨s', h⟩ := exists_ok_of_toBool (show (oneDirectory.rename (calmAnswers oneDirectory)
      twoGroups 64 nameA 64 nameB).toBool = true by decide +kernel)
    have htree := (rename_keeps_tree oneDirectory_wellNamed).1 s' h
    exact ⟨s', h, htree.1⟩
  · exact (rename_keeps_tree oneDirectory_wellNamed).2 ⟨65, by decide, .inl ⟨by decide, 0, rfl⟩⟩

end State

end FsXfs.Names
