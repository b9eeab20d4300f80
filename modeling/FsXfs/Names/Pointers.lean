import FsXfs.Acl.Store
import Mathlib.Data.List.Nodup

/-!
# Parent pointers as attributes

On a volume with parent pointers an inode keeps each of its names a second time, as an attribute: the
entry's name after a start no other attribute has, with the directory's number and generation as the
value. `parent_pointers` reads them, `with_parent_pointers` takes some out and puts others in, and
lays the fork out again, which may change the order attributes are read in.
-/

namespace FsXfs.Names

open Bytes
open Acl (Xattr isParent parentStart)

set_option autoImplicit false

structure Pointer where
  name : List UInt8
  parent : ℕ
  generation : ℕ
  deriving DecidableEq, Repr

-- the attribute `parent_fork` and `ParentChange::Add` make
def Pointer.xattr (p : Pointer) : Xattr :=
  ⟨parentStart ++ p.name, beBytes 8 p.parent ++ beBytes 4 p.generation⟩

def readPointer (a : Xattr) : Pointer :=
  ⟨a.name.drop parentStart.length, beValue (slice a.value 0 8), beValue (slice a.value 8 4)⟩

def parentPointers (ino : ℕ) (attrs : List Xattr) : Except Error (List Pointer) :=
  (attrs.filter fun a => isParent a.name).mapM fun a => do
    ensure (a.value.length = 12)
      (.badSuperblock s!"inode {ino}: attribute fork: a parent pointer whose value is {a.value.length} bytes")
    pure (readPointer a)

def ordinary (attrs : List Xattr) : List Xattr :=
  attrs.filter fun a => !isParent a.name

inductive ParentChange where
  | remove (name : List UInt8) (parent : ℕ)
  | add (name : List UInt8) (parent generation : ℕ)

def isPointer (name : List UInt8) (parent : ℕ) (a : Xattr) : Bool :=
  isParent a.name && decide (a.name.drop parentStart.length = name) &&
    decide (slice a.value 0 8 = beBytes 8 parent)

def changeParent (ino : ℕ) (attrs : List Xattr) : ParentChange → Except Error (List Xattr)
  | .remove name parent => do
    ensure (attrs.any (isPointer name parent) = true)
      (.unsupportedFeature s!"inode {ino} has no parent pointer for {repr name} in directory {parent}")
    pure (attrs.eraseP (isPointer name parent))
  | .add name parent generation => pure (attrs ++ [Pointer.xattr ⟨name, parent, generation⟩])

/-- Where a fork goes, or why it has no room: its attributes are all there, in some order. -/
def Layouts : Type :=
  ℕ → (attrs : List Xattr) → Except Error {after : List Xattr // after.Perm attrs}

def withParentPointers (layouts : Layouts) (ino : ℕ) (attrs : List Xattr)
    (changes : List ParentChange) : Except Error (List Xattr) := do
  let attrs ← changes.foldlM (changeParent ino) attrs
  let after ← layouts ino attrs
  pure after.val

/-! ## What is read -/

def pointers (attrs : List Xattr) : List Pointer :=
  (attrs.filter fun a => isParent a.name).map readPointer

/-- Every parent pointer's value is as long as one. -/
def Readable (attrs : List Xattr) : Prop :=
  ∀ a ∈ attrs, isParent a.name = true → a.value.length = 12

theorem mapM_ensure_eq_ok {α β : Type} {c : α → Prop} [DecidablePred c] {error : α → Error}
    {f : α → β} {l : List α} {r : List β} :
    (l.mapM fun a => do
      ensure (c a) (error a)
      pure (f a)) = .ok r ↔ (∀ a ∈ l, c a) ∧ r = l.map f := by
  induction l generalizing r with
  | nil => simp [pure, Except.pure, eq_comm]
  | cons a l ih =>
    rw [List.mapM_cons, bind_eq_ok]
    constructor
    · rintro ⟨b, hb, h⟩
      obtain ⟨_, hc, hb⟩ := bind_eq_ok.mp hb
      cases hb
      obtain ⟨bs, hbs, h⟩ := bind_eq_ok.mp h
      cases h
      obtain ⟨hall, rfl⟩ := ih.mp hbs
      exact ⟨List.forall_mem_cons.mpr ⟨ensure_eq_ok.mp hc, hall⟩, rfl⟩
    · rintro ⟨hall, rfl⟩
      obtain ⟨hc, hall⟩ := List.forall_mem_cons.mp hall
      exact ⟨f a, bind_eq_ok.mpr ⟨(), ensure_of hc, rfl⟩,
        bind_eq_ok.mpr ⟨l.map f, ih.mpr ⟨hall, rfl⟩, rfl⟩⟩

section

variable {ino : ℕ} {attrs attrs' : List Xattr}

theorem parentPointers_eq_ok {l : List Pointer} :
    parentPointers ino attrs = .ok l ↔ Readable attrs ∧ l = pointers attrs := by
  unfold parentPointers
  rw [mapM_ensure_eq_ok]
  simp [Readable, pointers]

theorem Readable.perm (h : Readable attrs) (hperm : attrs'.Perm attrs) : Readable attrs' :=
  fun a ha => h a (hperm.mem_iff.mp ha)

theorem pointers_perm (h : attrs'.Perm attrs) : (pointers attrs').Perm (pointers attrs) :=
  (h.filter _).map _

theorem isParent_xattr (p : Pointer) : isParent p.xattr.name = true := by
  simp [isParent, Pointer.xattr]

theorem readPointer_xattr {p : Pointer} (hparent : p.parent < 256 ^ 8)
    (hgeneration : p.generation < 256 ^ 4) : readPointer p.xattr = p := by
  obtain ⟨name, parent, generation⟩ := p
  have htake : (beBytes 4 generation).take 4 = beBytes 4 generation :=
    List.take_of_length_le (beBytes_length 4 generation).le
  simp [readPointer, Pointer.xattr, slice, List.drop_append, htake, beValue_beBytes_of_lt hparent,
    beValue_beBytes_of_lt hgeneration]

/-! ## One change -/

theorem changeParent_add {name : List UInt8} {parent generation : ℕ}
    (h : changeParent ino attrs (.add name parent generation) = .ok attrs') :
    attrs' = attrs ++ [Pointer.xattr ⟨name, parent, generation⟩] :=
  (Except.ok.inj h).symm

theorem changeParent_remove {name : List UInt8} {parent : ℕ}
    (h : changeParent ino attrs (.remove name parent) = .ok attrs') :
    ∃ a, isPointer name parent a = true ∧ attrs.Perm (a :: attrs') := by
  obtain ⟨_, hany, h⟩ := bind_eq_ok.mp h
  obtain ⟨a, ha, hpointer⟩ := List.any_eq_true.mp (ensure_eq_ok.mp hany)
  cases h
  obtain ⟨b, l, l', -, hb, hsplit, herase⟩ := List.exists_of_eraseP ha hpointer
  refine ⟨b, hb, ?_⟩
  rw [herase]
  nth_rewrite 1 [hsplit]
  exact List.perm_middle

variable {change : ParentChange}

theorem changeParent_ordinary (h : changeParent ino attrs change = .ok attrs') :
    (ordinary attrs').Perm (ordinary attrs) := by
  cases change with
  | remove name parent =>
    obtain ⟨a, ha, hperm⟩ := changeParent_remove h
    simp only [isPointer, Bool.and_eq_true] at ha
    have hfilter := hperm.filter fun a => !isParent a.name
    rw [List.filter_cons_of_neg (by simp [ha.1.1])] at hfilter
    exact hfilter.symm
  | add name parent generation =>
    rw [changeParent_add h]
    unfold ordinary
    rw [List.filter_append, List.filter_cons_of_neg (by simp [isParent_xattr])]
    simp

variable {layouts : Layouts}

theorem withParentPointers_one (h : withParentPointers layouts ino attrs [change] = .ok attrs') :
    ∃ mid, changeParent ino attrs change = .ok mid ∧ attrs'.Perm mid := by
  obtain ⟨mid, hmid, h⟩ := bind_eq_ok.mp h
  obtain ⟨after, -, h⟩ := bind_eq_ok.mp h
  obtain rfl := Except.ok.inj h
  obtain ⟨mid', hone, hmid⟩ := bind_eq_ok.mp hmid
  obtain rfl := Except.ok.inj hmid
  exact ⟨mid', hone, after.property⟩

theorem withParentPointers_ordinary {changes : List ParentChange}
    (h : withParentPointers layouts ino attrs changes = .ok attrs') :
    (ordinary attrs').Perm (ordinary attrs) := by
  obtain ⟨mid, hmid, h⟩ := bind_eq_ok.mp h
  obtain ⟨after, -, h⟩ := bind_eq_ok.mp h
  cases h
  refine (after.property.filter _).trans ?_
  change (ordinary mid).Perm (ordinary attrs)
  refine foldlM_invariant (P := fun l => (ordinary l).Perm (ordinary attrs)) ?_ (.refl _) hmid
  intro l l' change _ hl hchange
  exact (changeParent_ordinary hchange).trans hl

end

/-! ## The pointers of a predicate -/

/-- The parent pointers read are those of `P`, each once, and there are `n`. -/
def Follows (ino : ℕ) (attrs : List Xattr) (P : Pointer → Prop) (n : ℕ) : Prop :=
  ∃ l, parentPointers ino attrs = .ok l ∧ l.Nodup ∧ l.length = n ∧ ∀ q, q ∈ l ↔ P q

namespace Follows

variable {ino : ℕ} {attrs attrs' : List Xattr} {P Q : Pointer → Prop} {n : ℕ}

theorem congr (h : Follows ino attrs P n) (hiff : ∀ q, Q q ↔ P q) : Follows ino attrs Q n := by
  obtain ⟨l, hl, hnodup, hlength, hmem⟩ := h
  exact ⟨l, hl, hnodup, hlength, fun q => (hmem q).trans (hiff q).symm⟩

theorem length_eq (h : Follows ino attrs P n) : (pointers attrs).length = n := by
  obtain ⟨l, hl, -, hlength, -⟩ := h
  obtain ⟨-, rfl⟩ := parentPointers_eq_ok.mp hl
  exact hlength

theorem two_le (h : Follows ino attrs P n) {q q' : Pointer} (hq : P q) (hq' : P q') (hne : q ≠ q') :
    2 ≤ n := by
  obtain ⟨l, -, -, rfl, hmem⟩ := h
  have hq := (hmem q).mpr hq
  have hq' := (hmem q').mpr hq'
  match l, hq, hq' with
  | [a], hq, hq' => exact absurd ((List.mem_singleton.mp hq).trans (List.mem_singleton.mp hq').symm) hne
  | _ :: _ :: _, _, _ => simp

theorem nil (ino : ℕ) (hP : ∀ q, ¬P q) : Follows ino [] P 0 :=
  ⟨[], rfl, .nil, rfl, fun q => iff_of_false (by simp) (hP q)⟩

theorem perm (h : Follows ino attrs P n) (hperm : attrs'.Perm attrs) : Follows ino attrs' P n := by
  obtain ⟨l, hl, hnodup, hlength, hmem⟩ := h
  obtain ⟨hread, rfl⟩ := parentPointers_eq_ok.mp hl
  have hpointers := pointers_perm hperm
  exact ⟨_, parentPointers_eq_ok.mpr ⟨hread.perm hperm, rfl⟩, hpointers.nodup_iff.mpr hnodup,
    hpointers.length_eq.trans hlength, fun q => hpointers.mem_iff.trans (hmem q)⟩

theorem add (h : Follows ino attrs P n) {p : Pointer} (hnew : ¬P p) (hparent : p.parent < 256 ^ 8)
    (hgeneration : p.generation < 256 ^ 4) :
    Follows ino (attrs ++ [p.xattr]) (fun q => P q ∨ q = p) (n + 1) := by
  obtain ⟨l, hl, hnodup, hlength, hmem⟩ := h
  obtain ⟨hread, rfl⟩ := parentPointers_eq_ok.mp hl
  have hpointers : pointers (attrs ++ [p.xattr]) = pointers attrs ++ [p] := by
    unfold pointers
    have hone : [p.xattr].filter (fun a => isParent a.name) = [p.xattr] := by simp [isParent_xattr]
    rw [List.filter_append, hone, List.map_append, List.map_singleton,
      readPointer_xattr hparent hgeneration]
  refine ⟨_, parentPointers_eq_ok.mpr ⟨?_, rfl⟩, ?_, ?_, fun q => ?_⟩
  · intro a ha
    rcases List.mem_append.mp ha with ha | ha
    · exact hread a ha
    · rw [List.mem_singleton.mp ha]
      intro _
      simp [Pointer.xattr]
  · rw [hpointers]
    refine List.nodup_append.mpr ⟨hnodup, List.nodup_singleton p, fun a ha b hb heq => ?_⟩
    rw [heq, List.mem_singleton.mp hb] at ha
    exact hnew ((hmem p).mp ha)
  · rw [hpointers, List.length_append, hlength]
    rfl
  · rw [hpointers, List.mem_append, hmem, List.mem_singleton]

variable {name : List UInt8}

variable {parent : ℕ}

theorem remove (h : Follows ino attrs P n)
    (honce : ∀ q q', P q → P q' → q.name = q'.name → q.parent = q'.parent → q = q')
    (hparent : parent < 256 ^ 8)
    (hchange : changeParent ino attrs (.remove name parent) = .ok attrs') :
    ∃ m, n = m + 1 ∧ Follows ino attrs' (fun q => P q ∧ ¬(q.name = name ∧ q.parent = parent)) m := by
  obtain ⟨l, hl, hnodup, hlength, hmem⟩ := h
  obtain ⟨hread, rfl⟩ := parentPointers_eq_ok.mp hl
  obtain ⟨a, ha, hperm⟩ := changeParent_remove hchange
  simp only [isPointer, Bool.and_eq_true, decide_eq_true_eq] at ha
  obtain ⟨⟨hisParent, hname⟩, hvalue⟩ := ha
  have hpointers : (pointers attrs).Perm (readPointer a :: pointers attrs') := by
    have hfilter := (hperm.filter fun a => isParent a.name).map readPointer
    have hone : (a :: attrs').filter (fun a => isParent a.name) =
        a :: attrs'.filter fun a => isParent a.name := by simp [hisParent]
    rwa [hone] at hfilter
  have hgone : (readPointer a).name = name ∧ (readPointer a).parent = parent :=
    ⟨hname, (congrArg beValue hvalue).trans (beValue_beBytes_of_lt hparent)⟩
  have hsplit := List.nodup_cons.mp (hpointers.nodup_iff.mp hnodup)
  have hold : P (readPointer a) := (hmem _).mp (hpointers.mem_iff.mpr List.mem_cons_self)
  refine ⟨(pointers attrs').length, ?_, _, parentPointers_eq_ok.mpr ⟨?_, rfl⟩, hsplit.2, rfl, fun q => ?_⟩
  · rw [← hlength, hpointers.length_eq, List.length_cons]
  · exact fun b hb => hread b (hperm.mem_iff.mpr (List.mem_cons_of_mem _ hb))
  · change q ∈ pointers attrs' ↔ P q ∧ ¬(q.name = name ∧ q.parent = parent)
    rw [← hmem q, hpointers.mem_iff, List.mem_cons]
    constructor
    · intro hq
      refine ⟨.inr hq, fun hsame => hsplit.1 ?_⟩
      have hPq : P q := (hmem q).mp (hpointers.mem_iff.mpr (List.mem_cons_of_mem _ hq))
      rw [← honce q _ hPq hold (hsame.1.trans hgone.1.symm) (hsame.2.trans hgone.2.symm)]
      exact hq
    · rintro ⟨rfl | hq, hne⟩
      · exact absurd hgone hne
      · exact hq

variable {layouts : Layouts}

theorem added (h : Follows ino attrs P n) {generation : ℕ} (hnew : ¬P ⟨name, parent, generation⟩)
    (hparent : parent < 256 ^ 8) (hgeneration : generation < 256 ^ 4)
    (hw : withParentPointers layouts ino attrs [.add name parent generation] = .ok attrs') :
    Follows ino attrs' (fun q => P q ∨ q = ⟨name, parent, generation⟩) (n + 1) := by
  obtain ⟨mid, hmid, hperm⟩ := withParentPointers_one hw
  rw [changeParent_add hmid] at hperm
  exact (h.add hnew hparent hgeneration).perm hperm

section

variable (h : Follows ino attrs P n)
  (honce : ∀ q q', P q → P q' → q.name = q'.name → q.parent = q'.parent → q = q')

include h honce

theorem removed (hparent : parent < 256 ^ 8)
    (hw : withParentPointers layouts ino attrs [.remove name parent] = .ok attrs') :
    ∃ m, n = m + 1 ∧ Follows ino attrs' (fun q => P q ∧ ¬(q.name = name ∧ q.parent = parent)) m := by
  obtain ⟨mid, hmid, hperm⟩ := withParentPointers_one hw
  obtain ⟨m, hm, hfollows⟩ := h.remove honce hparent hmid
  exact ⟨m, hm, hfollows.perm hperm⟩

theorem traded {from_ to_ : List UInt8} {fromDir toDir generation : ℕ}
    (hnew : ¬P ⟨to_, toDir, generation⟩) (hfrom : fromDir < 256 ^ 8) (hto : toDir < 256 ^ 8)
    (hgeneration : generation < 256 ^ 4) (hw : withParentPointers layouts ino attrs
      [.remove from_ fromDir, .add to_ toDir generation] = .ok attrs') :
    Follows ino attrs' (fun q => (P q ∧ ¬(q.name = from_ ∧ q.parent = fromDir)) ∨
      q = ⟨to_, toDir, generation⟩) n := by
  obtain ⟨last, hlast, hw⟩ := bind_eq_ok.mp hw
  obtain ⟨mid, hmid, hlast⟩ := bind_eq_ok.mp hlast
  obtain ⟨mid', hmid', hperm⟩ := withParentPointers_one (bind_eq_ok.mpr ⟨last, hlast, hw⟩)
  obtain ⟨m, rfl, hfollows⟩ := h.remove honce hfrom hmid
  rw [changeParent_add hmid'] at hperm
  exact (hfollows.add (fun hP => hnew hP.1) hto hgeneration).perm hperm

end

end Follows

end FsXfs.Names
