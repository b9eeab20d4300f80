import FsXfs.Inode.Core
import Mathlib.Data.List.Nodup

/-!
# The names in a directory

A directory as it is parsed, its `..` apart from its entries, and the edits made to it
(`dir_edit.rs`, `dir_node.rs`, `change_directory`). The three forms a directory can be in check
different things, and a directory in node form is edited through its index, one entry at a time.
-/

namespace FsXfs.Names

set_option autoImplicit false

structure Entry where
  name : List UInt8
  ino : ℕ
  deriving DecidableEq, Repr

structure Directory where
  parent : ℕ
  entries : List Entry
  deriving DecidableEq, Repr

def dot : List UInt8 := [46]

def dotDot : List UInt8 := [46, 46]

def entryNameIsValid (name : List UInt8) : Bool :=
  !name.isEmpty && decide (name.length ≤ 255) && !name.any (fun b => b == 47 || b == 0) &&
    decide (name ≠ dot) && decide (name ≠ dotDot)

inductive DirEdit where
  | remove (name : List UInt8)
  | add (entry : Entry)
  | reparent (parent : ℕ)
  | rename (from_ to_ : List UInt8)

namespace Directory

def without (d : Directory) (name : List UInt8) : List Entry :=
  d.entries.filter fun e => e.name ≠ name

def has (d : Directory) (name : List UInt8) : Bool :=
  d.entries.any fun e => e.name = name

def find (d : Directory) (name : List UInt8) : Option Entry :=
  d.entries.find? fun e => e.name = name

def editLocal (d : Directory) : DirEdit → Directory
  | .remove name => { d with entries := d.without name }
  | .add entry => { d with entries := d.entries ++ [entry] }
  | .reparent parent => { d with parent := parent }
  | .rename from_ to_ =>
    { d with entries := d.entries.map fun e => if e.name = from_ then { e with name := to_ } else e }

def editBlocks (d : Directory) : DirEdit → Except Error Directory
  | .remove name => do
    ensure ((d.without name).length ≠ d.entries.length) .notFound
    pure { d with entries := d.without name }
  | .add entry => do
    ensure (d.has entry.name = false) .alreadyExists
    pure { d with entries := d.entries ++ [entry] }
  | .reparent parent => pure { d with parent := parent }
  | .rename from_ to_ => do
    ensure (d.has to_ = false) .alreadyExists
    let found ← orElse (d.find from_) .notFound
    pure { d with entries := d.entries.eraseP (fun e => e.name = from_) ++ [{ found with name := to_ }] }

def removeEntry (d : Directory) (name : List UInt8) : Except Error Directory := do
  let _ ← orElse (d.find name) .notFound
  pure { d with entries := d.entries.eraseP fun e => e.name = name }

def addEntry (d : Directory) (entry : Entry) : Except Error Directory := do
  ensure ((d.find entry.name).isNone) .alreadyExists
  pure { d with entries := d.entries ++ [entry] }

def editNode (d : Directory) : DirEdit → Except Error Directory
  | .remove name => d.removeEntry name
  | .add entry => d.addEntry entry
  | .reparent parent => pure { d with parent := parent }
  | .rename from_ to_ => do
    ensure ((d.find to_).isNone) .alreadyExists
    let found ← orElse (d.find from_) .notFound
    let rest ← d.removeEntry from_
    rest.addEntry { found with name := to_ }

end Directory

/-- What an operation on names reads of an inode. -/
structure Core where
  mode : ℕ
  nlink : ℕ
  format : Format
  nodeForm : Bool
  names : Directory
  deriving DecidableEq, Repr

namespace Core

def isDir (core : Core) : Bool :=
  core.mode &&& sIfmt = 0o040000

def edit (core : Core) (names : Directory) (e : DirEdit) : Except Error Directory :=
  if core.format = .local_ then pure (names.editLocal e)
  else if core.nodeForm then names.editNode e
  else names.editBlocks e

end Core

/-! ## What an edit leaves -/

namespace Directory

/-- No two entries share a name. -/
def Distinct (d : Directory) : Prop :=
  (d.entries.map Entry.name).Nodup

instance (d : Directory) : Decidable d.Distinct :=
  inferInstanceAs (Decidable (List.Nodup _))

variable {e : Entry} {d : Directory} {name : List UInt8}

theorem Distinct.eq_of_name (hd : d.Distinct) {e' : Entry} (he : e ∈ d.entries) (he' : e' ∈ d.entries)
    (h : e.name = e'.name) : e = e' :=
  List.inj_on_of_nodup_map hd he he' h

theorem find_eq_some (hd : d.Distinct) : d.find name = some e ↔ e ∈ d.entries ∧ e.name = name := by
  constructor
  · intro h
    exact ⟨List.mem_of_find?_eq_some h, by simpa using List.find?_some h⟩
  · rintro ⟨he, rfl⟩
    cases hfind : d.find e.name with
    | none => exact absurd (List.find?_eq_none.mp hfind e he) (by simp)
    | some f =>
      have hname : f.name = e.name := by simpa using List.find?_some hfind
      rw [hd.eq_of_name (List.mem_of_find?_eq_some hfind) he hname]

theorem perm_eraseP (hd : d.Distinct) (he : e ∈ d.entries) :
    d.entries.Perm (e :: d.entries.eraseP fun x => x.name = e.name) := by
  obtain ⟨f, before, after, -, hname, hsplit, herase⟩ :=
    @List.exists_of_eraseP _ (fun x : Entry => decide (x.name = e.name)) _ e he (decide_eq_true rfl)
  obtain rfl := hd.eq_of_name (by simp [hsplit]) he (of_decide_eq_true hname)
  rw [herase, hsplit]
  exact List.perm_middle

theorem Distinct.remove {d d' : Directory} (hd : d.Distinct)
    (hperm : d.entries.Perm (e :: d'.entries)) :
    d'.Distinct ∧ ∀ x ∈ d'.entries, x.name ≠ e.name := by
  have hnodup := ((hperm.map Entry.name).nodup_iff).mp hd
  rw [List.map_cons, List.nodup_cons] at hnodup
  exact ⟨hnodup.2, fun x hx heq => hnodup.1 (heq ▸ List.mem_map_of_mem hx)⟩

theorem perm_without (hd : d.Distinct) (he : e ∈ d.entries) :
    d.entries.Perm (e :: d.without e.name) := by
  have hcons := perm_eraseP hd he
  have hrest := (@Distinct.remove e d ⟨d.parent, _⟩ hd hcons).2
  have hfilter := hcons.filter fun x => decide (x.name ≠ e.name)
  rw [List.filter_cons_of_neg (by simp),
    List.filter_eq_self.mpr fun x hx => decide_eq_true (hrest x hx)] at hfilter
  exact hcons.trans (hfilter.symm.cons e)

theorem has_eq_false : d.has name = false ↔ ∀ e ∈ d.entries, e.name ≠ name := by
  simp [has]

theorem find_isNone : (d.find name).isNone = true ↔ ∀ e ∈ d.entries, e.name ≠ name := by
  simp [find]

end Directory

namespace Core

variable {core : Core} {names names' : Directory} {e : Entry}

theorem edit_remove (hd : names.Distinct) (he : e ∈ names.entries)
    (h : core.edit names (.remove e.name) = .ok names') :
    names'.parent = names.parent ∧ names.entries.Perm (e :: names'.entries) := by
  unfold edit at h
  split at h
  · cases h
    exact ⟨rfl, Directory.perm_without hd he⟩
  · split at h
    · obtain ⟨_, -, h⟩ := bind_eq_ok.mp h
      cases h
      exact ⟨rfl, Directory.perm_eraseP hd he⟩
    · obtain ⟨_, -, h⟩ := bind_eq_ok.mp h
      cases h
      exact ⟨rfl, Directory.perm_without hd he⟩

theorem edit_add (h : core.edit names (.add e) = .ok names') :
    names'.parent = names.parent ∧ names'.entries.Perm (e :: names.entries) := by
  have hlast : (names.entries ++ [e]).Perm (e :: names.entries) := List.perm_append_singleton e _
  unfold edit at h
  split at h
  · cases h
    exact ⟨rfl, hlast⟩
  · split at h
    · obtain ⟨_, -, h⟩ := bind_eq_ok.mp h
      cases h
      exact ⟨rfl, hlast⟩
    · obtain ⟨_, -, h⟩ := bind_eq_ok.mp h
      cases h
      exact ⟨rfl, hlast⟩

theorem edit_add_new (hformat : core.format ≠ .local_)
    (h : core.edit names (.add e) = .ok names') : ∀ x ∈ names.entries, x.name ≠ e.name := by
  unfold edit at h
  rw [if_neg hformat] at h
  split at h
  · obtain ⟨_, hnone, -⟩ := bind_eq_ok.mp h
    exact Directory.find_isNone.mp (ensure_eq_ok.mp hnone)
  · obtain ⟨_, hnone, -⟩ := bind_eq_ok.mp h
    exact Directory.has_eq_false.mp (ensure_eq_ok.mp hnone)

theorem edit_reparent {parent : ℕ} (h : core.edit names (.reparent parent) = .ok names') :
    names' = { names with parent := parent } := by
  unfold edit at h
  split at h
  · exact (Except.ok.inj h).symm
  · split at h
    · exact (Except.ok.inj h).symm
    · exact (Except.ok.inj h).symm

theorem edit_rename {from_ to_ : List UInt8} (hd : names.Distinct) (hformat : core.format ≠ .local_)
    (h : core.edit names (.rename from_ to_) = .ok names') :
    names'.parent = names.parent ∧ (∀ x ∈ names.entries, x.name ≠ to_) ∧
      ∃ ino rest, names.find from_ = some ⟨from_, ino⟩ ∧ names.entries.Perm (⟨from_, ino⟩ :: rest) ∧
        names'.entries.Perm (⟨to_, ino⟩ :: rest) := by
  unfold edit at h
  rw [if_neg hformat] at h
  split at h
  · obtain ⟨_, hnone, h⟩ := bind_eq_ok.mp h
    obtain ⟨found, hfound, h⟩ := bind_eq_ok.mp h
    obtain ⟨mid, hmid, h⟩ := bind_eq_ok.mp h
    obtain ⟨_, -, hmid⟩ := bind_eq_ok.mp hmid
    cases hmid
    obtain ⟨_, -, h⟩ := bind_eq_ok.mp h
    cases h
    have hfound := orElse_eq_ok.mp hfound
    obtain ⟨hmem, rfl⟩ := (Directory.find_eq_some hd).mp hfound
    exact ⟨rfl, Directory.find_isNone.mp (ensure_eq_ok.mp hnone), found.ino, _, hfound,
      Directory.perm_eraseP hd hmem, List.perm_append_singleton _ _⟩
  · obtain ⟨_, hnone, h⟩ := bind_eq_ok.mp h
    obtain ⟨found, hfound, h⟩ := bind_eq_ok.mp h
    cases h
    have hfound := orElse_eq_ok.mp hfound
    obtain ⟨hmem, rfl⟩ := (Directory.find_eq_some hd).mp hfound
    exact ⟨rfl, Directory.has_eq_false.mp (ensure_eq_ok.mp hnone), found.ino, _, hfound,
      Directory.perm_eraseP hd hmem, List.perm_append_singleton _ _⟩

end Core

/-! ## Several edits -/

/-- A directory's entries with some taken out and some put in. -/
def Traded (old new out in_ : List Entry) : Prop :=
  ∃ rest, old.Perm (out ++ rest) ∧ new.Perm (in_ ++ rest)

namespace Traded

variable {old new out in_ : List Entry}

theorem mem_iff (h : Traded old new out in_) (hold : (old.map Entry.name).Nodup) {e : Entry} :
    e ∈ new ↔ (e ∈ old ∧ ∀ x ∈ out, e.name ≠ x.name) ∨ e ∈ in_ := by
  obtain ⟨rest, hout, hin⟩ := h
  have hnodup := ((hout.map Entry.name).nodup_iff).mp hold
  rw [List.map_append, List.nodup_append] at hnodup
  rw [hin.mem_iff, List.mem_append, hout.mem_iff, List.mem_append, or_comm]
  refine or_congr_left ⟨fun he => ⟨.inr he, fun x hx heq => ?_⟩, ?_⟩
  · exact hnodup.2.2 _ (List.mem_map_of_mem hx) _ (List.mem_map_of_mem he) heq.symm
  · rintro ⟨he | he, hne⟩
    · exact absurd rfl (hne e he)
    · exact he

theorem same (l : List Entry) : Traded l l [] [] :=
  ⟨l, .refl _, .refl _⟩

theorem out_mem (h : Traded old new out in_) {e : Entry} (he : e ∈ out) : e ∈ old := by
  obtain ⟨rest, hout, -⟩ := h
  exact hout.mem_iff.mpr (List.mem_append_left _ he)

theorem nodup_map {κ : Type} (h : Traded old new out in_) (key : Entry → κ)
    (hold : (old.map key).Nodup) (hin : (in_.map key).Nodup)
    (hnew : ∀ e ∈ in_, ∀ x ∈ old, key x = key e → ∃ y ∈ out, key y = key e) :
    (new.map key).Nodup := by
  obtain ⟨rest, hout, hperm⟩ := h
  have hnodup := ((hout.map key).nodup_iff).mp hold
  rw [List.map_append, List.nodup_append] at hnodup
  refine ((hperm.map key).nodup_iff).mpr ?_
  rw [List.map_append, List.nodup_append]
  refine ⟨hin, hnodup.2.1, fun a ha b hb heq => ?_⟩
  obtain ⟨e, he, rfl⟩ := List.mem_map.mp ha
  obtain ⟨x, hx, rfl⟩ := List.mem_map.mp hb
  obtain ⟨y, hy, hname⟩ := hnew e he x (hout.mem_iff.mpr (List.mem_append_right _ hx)) heq.symm
  exact hnodup.2.2 _ (List.mem_map_of_mem hy) _ (List.mem_map_of_mem hx) (hname.trans heq)

end Traded

namespace Core

theorem foldlM_remove {core : Core} {names names' : Directory} {out : List Entry}
    (hd : names.Distinct) (hmem : ∀ e ∈ out, e ∈ names.entries) (hout : (out.map Entry.name).Nodup)
    (h : (out.map fun e => DirEdit.remove e.name).foldlM core.edit names = .ok names') :
    names'.parent = names.parent ∧ names.entries.Perm (out ++ names'.entries) := by
  induction out generalizing names with
  | nil =>
    cases h
    exact ⟨rfl, .refl _⟩
  | cons e out ih =>
    obtain ⟨mid, hmid, h⟩ := bind_eq_ok.mp h
    rw [List.map_cons, List.nodup_cons] at hout
    obtain ⟨hparent, hperm⟩ := edit_remove hd (hmem e List.mem_cons_self) hmid
    obtain ⟨hdMid, -⟩ := hd.remove hperm
    have hrest : ∀ x ∈ out, x ∈ mid.entries := by
      intro x hx
      rcases List.mem_cons.mp (hperm.mem_iff.mp (hmem x (List.mem_cons_of_mem _ hx))) with rfl | hx'
      · exact absurd (List.mem_map_of_mem hx) hout.1
      · exact hx'
    obtain ⟨hparent', hperm'⟩ := ih hdMid hrest hout.2 h
    exact ⟨hparent'.trans hparent, hperm.trans (hperm'.cons e)⟩

theorem foldlM_trade {core : Core} {names names' : Directory} {e : Entry} (out : List Entry)
    (hd : names.Distinct) (hmem : ∀ x ∈ out, x ∈ names.entries) (hout : (out.map Entry.name).Nodup)
    (h : ((out.map fun x => DirEdit.remove x.name) ++ [DirEdit.add e]).foldlM core.edit names =
      .ok names') :
    names'.parent = names.parent ∧ Traded names.entries names'.entries out [e] := by
  rw [List.foldlM_append] at h
  obtain ⟨mid, hmid, h⟩ := bind_eq_ok.mp h
  obtain ⟨last, hlast, h⟩ := bind_eq_ok.mp h
  cases h
  obtain ⟨hparent, hperm⟩ := foldlM_remove hd hmem hout hmid
  obtain ⟨hparent', hperm'⟩ := edit_add hlast
  exact ⟨hparent'.trans hparent, mid.entries, hperm, hperm'⟩

end Core

end FsXfs.Names
