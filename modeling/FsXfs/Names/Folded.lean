import FsXfs.Names.Counts

/-!
# Names that differ in case

A volume with case-insensitive directories hashes a name with its ASCII letters folded, and that is all
of the feature the driver has: every comparison of two names, the index's too once it has found the
hash, is of their bytes. `FoldDistinct` says that no directory holds one name twice in that sense, and
`Spelled` that a call spells a name as the directory does that has it.
-/

namespace FsXfs.Names

set_option autoImplicit false

/-! ## The hash -/

def rol32 (word shift : UInt32) : UInt32 :=
  (word <<< shift) ||| (word >>> (32 - shift))

def hashFrom (hash : UInt32) : List UInt8 → UInt32
  | a :: b :: c :: d :: name =>
    hashFrom ((a.toUInt32 <<< 21) ^^^ (b.toUInt32 <<< 14) ^^^ (c.toUInt32 <<< 7) ^^^ d.toUInt32 ^^^
      rol32 hash (7 * 4)) name
  | [a, b, c] => (a.toUInt32 <<< 14) ^^^ (b.toUInt32 <<< 7) ^^^ c.toUInt32 ^^^ rol32 hash (7 * 3)
  | [a, b] => (a.toUInt32 <<< 7) ^^^ b.toUInt32 ^^^ rol32 hash (7 * 2)
  | [a] => a.toUInt32 ^^^ rol32 hash 7
  | [] => hash

def hashname (name : List UInt8) : UInt32 :=
  hashFrom 0 name

-- `to_ascii_lowercase`
def foldByte (b : UInt8) : UInt8 :=
  if 65 ≤ b ∧ b ≤ 90 then b + 32 else b

def fold (name : List UInt8) : List UInt8 :=
  name.map foldByte

def hashFolded (caseInsensitive : Bool) (name : List UInt8) : UInt32 :=
  if caseInsensitive then hashname (fold name) else hashname name

def hashFor (sb : Superblock) (name : List UInt8) : UInt32 :=
  hashFolded sb.hasCaseInsensitiveDirs name

example : hashFolded false [77, 105, 120, 101, 100] = 0xdd3e32e0 ∧
    hashFolded true [77, 105, 120, 101, 100] = 0xdd3e32e2 := by decide

namespace Directory

variable (d : Directory)

def index (hash : List UInt8 → UInt32) : List (UInt32 × Entry) :=
  d.entries.map fun e => (hash e.name, e)

-- `lookup_by_hash`: the entries of one hash, and the name itself compared
def indexed (hash : List UInt8 → UInt32) (name : List UInt8) : Option Entry :=
  (((d.index hash).filter fun r => r.1 = hash name).find? fun r => r.2.name = name).map Prod.snd

theorem indexed_find (hash : List UInt8 → UInt32) (name : List UInt8) :
    d.indexed hash name = d.find name := by
  unfold indexed index find
  rw [List.find?_filter, List.find?_map, Option.map_map]
  have hpred : ∀ e : Entry, decide (decide (hash e.name = hash name) = true ∧
      decide (e.name = name) = true) = decide (e.name = name) := by
    intro e
    by_cases he : e.name = name
    · simp [he]
    · simp [he]
  simp only [Function.comp_def, hpred]
  exact congrFun Option.map_id _

def findFolded (name : List UInt8) : Option Entry :=
  d.entries.find? fun e => fold e.name = fold name

/-- No two entries' names fold to one. -/
def FoldDistinct : Prop :=
  (d.entries.map fun e => fold e.name).Nodup

/-- A name that folds to an entry's is spelled as the entry is. -/
def Spelled (name : List UInt8) : Prop :=
  ∀ e ∈ d.entries, fold e.name = fold name → e.name = name

variable {d}

theorem FoldDistinct.distinct (hd : d.FoldDistinct) : d.Distinct := by
  have hcomp : d.entries.map (fun e => fold e.name) = (d.entries.map Entry.name).map fold := by simp
  unfold FoldDistinct at hd
  rw [hcomp] at hd
  exact hd.of_map fold

theorem FoldDistinct.eq_of_fold_eq (hd : d.FoldDistinct) {e e' : Entry} (he : e ∈ d.entries)
    (he' : e' ∈ d.entries) (hfold : fold e.name = fold e'.name) : e = e' :=
  List.inj_on_of_nodup_map hd he he' hfold

theorem find_eq_findFolded_iff (hd : d.FoldDistinct) (name : List UInt8) :
    d.find name = d.findFolded name ↔ d.Spelled name := by
  constructor
  · intro hfind e he hfold
    obtain ⟨e', hsome⟩ : ∃ e', d.findFolded name = some e' := by
      refine Option.isSome_iff_exists.mp (List.find?_isSome.mpr ⟨e, he, ?_⟩)
      simpa using hfold
    have hfold' : fold e'.name = fold name := by simpa using List.find?_some hsome
    obtain rfl := hd.eq_of_fold_eq he (List.mem_of_find?_eq_some hsome) (hfold.trans hfold'.symm)
    exact ((find_eq_some hd.distinct).mp (hfind.trans hsome)).2
  · intro hspelled
    cases hsome : d.findFolded name with
    | none =>
      have hnone : ∀ e ∈ d.entries, fold e.name ≠ fold name := by simpa [findFolded] using hsome
      refine List.find?_eq_none.mpr fun e he hname => hnone e he ?_
      rw [of_decide_eq_true hname]
    | some e =>
      have hmem := List.mem_of_find?_eq_some hsome
      have hfold : fold e.name = fold name := by simpa using List.find?_some hsome
      exact (find_eq_some hd.distinct).mpr ⟨hmem, hspelled e hmem hfold⟩

end Directory

variable {name : List UInt8}

theorem Traded.folded {d d' : Directory} {out : List Entry} {i : ℕ}
    (h : Traded d.entries d'.entries out [⟨name, i⟩]) (hd : d.FoldDistinct) (hname : d.Spelled name)
    (hover : ∀ x ∈ d.entries, x.name = name → x ∈ out) : d'.FoldDistinct := by
  refine h.nodup_map (fun e => fold e.name) hd (List.nodup_singleton _) fun e he x hx hfold => ?_
  obtain rfl := List.mem_singleton.mp he
  exact ⟨x, hover x hx (hname x hx hfold), hfold⟩

theorem Traded.folded_out {d d' : Directory} {out : List Entry}
    (h : Traded d.entries d'.entries out []) (hd : d.FoldDistinct) : d'.FoldDistinct :=
  h.nodup_map (fun e => fold e.name) hd .nil (by simp)

namespace State

/-! ## One operation -/

def FoldDistinct (s : State) : Prop :=
  ∀ d, s.IsDir d → (s.core d).names.FoldDistinct

def given : Op → List (ℕ × List UInt8)
  | .create parent name _ _ _ => [(parent, name)]
  | .link _ dirIno name => [(dirIno, name)]
  | .remove parent name _ => [(parent, name)]
  | .rename fromDir from_ toDir to_ => [(fromDir, from_), (toDir, to_)]

def Spelled (s : State) (op : Op) : Prop :=
  ∀ p ∈ given op, (s.core p.1).names.Spelled p.2

section

variable {s s' : State} {answers : Answers s} {sb : Superblock}

theorem FoldDistinct.put (hs : s.FoldDistinct) {i : ℕ} {slot : Slot}
    (hslot : slot.core.isDir = true → slot.core.names.FoldDistinct) : (s.put i slot).FoldDistinct := by
  intro d hd
  by_cases hi : d = i
  · subst hi
    have hdir : ((s.put d slot).core d).isDir = true := hd.2
    rw [put_core_self] at hdir ⊢
    exact hslot hdir
  · have hdir : ((s.put i slot).core d).isDir = true := hd.2
    rw [put_core_of_ne hi] at hdir ⊢
    exact hs d ⟨hd.1, hdir⟩

theorem unlinked_folded {core : Core} (h : core.isDir = true → core.names.FoldDistinct) (freed : Bool)
    (slot : Slot) (hdir : (unlinked freed slot core).core.isDir = true) :
    (unlinked freed slot core).core.names.FoldDistinct := by
  cases freed with
  | true => exact absurd hdir (by simp [unlinked, emptied, emptiedCore, Core.isDir])
  | false => exact h hdir

section

variable (hs : s.FoldDistinct)

include hs

theorem FoldDistinct.taken {mid : State} {ino : ℕ} (h : Taken s mid ino) :
    mid.FoldDistinct := by
  intro d hd
  by_cases hmem : d ∈ s.inos
  · have hcore : mid.core d = s.core d := congrArg Slot.core (h.old d hmem)
    rw [hcore]
    exact hs d ⟨hmem, hcore ▸ hd.2⟩
  · have hcore : mid.core d = blankCore := congrArg Slot.core (h.new d hd.1 hmem)
    rw [hcore]
    exact .nil

theorem link_folded {ino dirIno : ℕ} (hname : s.Spelled (.link ino dirIno name))
    (h : s.link answers sb ino dirIno name = .ok s') :
    s'.FoldDistinct := by
  obtain ⟨hfile, -, hfresh, change, -, hre⟩ := link_relinked h
  rw [hre.eq]
  refine FoldDistinct.put (FoldDistinct.put hs fun _ => ?_) fun hdir => ?_
  · exact hre.entries.folded (hs dirIno hre.dir) (hname _ List.mem_cons_self)
      fun x hx heq => absurd heq (hfresh x hx)
  · cases hfile.symm.trans hdir

theorem remove_folded {parent : ℕ} {target : Target}
    (h : s.remove answers sb parent name target = .ok s') : s'.FoldDistinct := by
  obtain ⟨hp, ino, change, nlink, hino, hmem, -, hchange, -, rfl⟩ := remove_cases h
  have hdistinct := (hs parent hp).distinct
  obtain ⟨-, -, -, hentries⟩ := changeDirectory_remove hdistinct (entryIno_mem hdistinct hino) hchange
  exact FoldDistinct.put (FoldDistinct.put hs fun _ => hentries.folded_out (hs parent hp))
    (unlinked_folded (fun hdir => hs ino ⟨hmem, hdir⟩) _ _)

theorem create_folded {parent mode : ℕ} {target : List UInt8} {kind : Kind}
    (hname : s.Spelled (.create parent name mode kind target))
    (h : s.create answers sb parent name mode kind target = .ok s') : s'.FoldDistinct := by
  obtain ⟨mid, ino, change, new, -, -, htaken, hp, hfresh, -, -, -, hnames, hre⟩ := create_relinked h
  have hcore : mid.core parent = s.core parent := congrArg Slot.core (htaken.old parent hp.1)
  have hentries := hre.entries
  rw [hcore] at hentries
  rw [hre.eq]
  refine FoldDistinct.put (FoldDistinct.put (hs.taken htaken) fun _ => ?_) fun _ => ?_
  · exact hentries.folded (hs parent hp) (hname _ List.mem_cons_self)
      fun x hx heq => absurd heq (hfresh x hx)
  · change new.names.FoldDistinct
    rw [hnames]
    cases kind <;> exact .nil

theorem rename_folded {fromDir toDir : ℕ} {from_ to_ : List UInt8}
    (hname : (s.core toDir).names.Spelled to_)
    (h : s.rename answers sb fromDir from_ toDir to_ = .ok s') : s'.FoldDistinct := by
  obtain ⟨hfrom, hto, hvalid, moved, hmoved, hcourse⟩ := rename_cases h
  have hfromDistinct := (hs fromDir hfrom).distinct
  have htoDistinct := (hs toDir hto).distinct
  rcases hcourse with ⟨rfl, hcourse⟩ | ⟨-, rfl⟩ | ⟨hmem, hne, hsome, victim, srcChange, dstChange,
    movedChange, srcLinks, toLinks, hmoving, rfl⟩
  · obtain ⟨moved, change, -, hmem, -, -, -, -, hnone, htraded, rfl⟩ :=
      renameInDirectory_cases hfromDistinct hcourse
    refine FoldDistinct.put (FoldDistinct.put hs fun _ => ?_) fun hdir => hs moved ⟨hmem, hdir⟩
    exact htraded.folded (hs fromDir hfrom) hname fun x hx heq => absurd heq (hnone x hx)
  · exact hs
  · -- what had the name goes out, if anything had it
    have hover : ∀ x ∈ (s.core toDir).names.entries, x.name = to_ →
        x ∈ outOf fromDir toDir from_ to_ moved (entryIno (s.core toDir) to_) toDir := by
      intro x hx heq
      cases htarget : entryIno (s.core toDir) to_ with
      | none => exact absurd heq (entryIno_eq_none hvalid htarget x hx)
      | some v =>
        have hv := entryIno_mem htoDistinct htarget
        obtain rfl := (hs toDir hto).eq_of_fold_eq hx hv (congrArg fold heq)
        exact List.mem_append_right _ (by simp)
    obtain ⟨rfl, hlike⟩ := replacedCore_ok hmoving.replaced
    have hchanged : ((putDst (s.setCore fromDir { srcChange with nlink := srcLinks }) toDir toLinks
        dstChange).setCore moved movedChange).FoldDistinct := by
      rcases changes_traded hfromDistinct htoDistinct hmoved hne hsome hmoving.changed with
        ⟨rfl, rfl, rfl, -, -, htraded⟩ |
          ⟨-, -, -, hsrcTraded, dst, rfl, -, -, hdstTraded, hmode, -, hnames⟩
      · refine FoldDistinct.put (FoldDistinct.put hs fun _ => ?_) fun hdir => hs moved ⟨hmem, hdir⟩
        exact htraded.folded (hs fromDir hfrom) hname hover
      · refine FoldDistinct.put (FoldDistinct.put (FoldDistinct.put hs fun _ => ?_) fun _ => ?_)
          fun hdir => ?_
        · exact hsrcTraded.folded_out (hs fromDir hfrom)
        · exact hdstTraded.folded (hs toDir hto) hname hover
        · have hold : s.IsDir moved := ⟨hmem, by
            unfold Core.isDir at hdir ⊢
            rwa [hmode] at hdir⟩
          change movedChange.names.FoldDistinct
          rw [hnames, if_pos hold.2]
          exact hs moved hold
    cases htarget : entryIno (s.core toDir) to_ with
    | none => exact hchanged
    | some v =>
      refine FoldDistinct.put hchanged (unlinked_folded (fun hdir => ?_) _ _)
      unfold Directory.FoldDistinct
      rw [(hlike v htarget).2 hdir]
      exact .nil

theorem run_folded {op : Op} (hop : s.Spelled op) (h : s.run answers sb op = .ok s') :
    s'.FoldDistinct := by
  cases op with
  | create parent name mode kind target => exact create_folded hs hop h
  | link ino dirIno name => exact link_folded hs hop h
  | remove parent name target => exact remove_folded hs h
  | rename fromDir from_ toDir to_ => exact rename_folded hs (hop (toDir, to_) (by simp [given])) h

end

/-! ## Runs -/

/-- One operation that returned, and was given names spelled as they stand. -/
def SpelledStep (sb : Superblock) (s s' : State) : Prop :=
  ∃ op answers, s.Spelled op ∧ s.run answers sb op = .ok s'

/-- A run of such operations leaves every directory without two names that fold to one, and a name
finds what folds to it exactly if it is spelled so. -/
theorem folded_steps (hs : s.FoldDistinct)
    (h : Relation.ReflTransGen (SpelledStep sb) s s') :
    s'.FoldDistinct ∧ ∀ d name, s'.IsDir d →
      ((s'.core d).names.indexed (hashFor sb) name = (s'.core d).names.findFolded name ↔
        (s'.core d).names.Spelled name) := by
  have hfolded : s'.FoldDistinct := by
    induction h with
    | refl => exact hs
    | tail _ hstep ih =>
      obtain ⟨op, answers, hop, hrun⟩ := hstep
      exact run_folded ih hop hrun
  refine ⟨hfolded, fun d name hd => ?_⟩
  rw [Directory.indexed_find]
  exact Directory.find_eq_findFolded_iff (hfolded d hd) name

end

/-! ## Two directories, and a name in capitals -/

def foldingVolume : Superblock :=
  { twoGroups with versionnum := twoGroups.versionnum + 2 ^ 14 }

def twoDirectories : State where
  inos := {64, 65, 66}
  slot := fun ino =>
    if ino = 64 then smallDirectory 4 64 [⟨nameA, 65⟩, ⟨nameB, 66⟩] else smallDirectory 2 64 []

def nameCapitalA : List UInt8 := [65]

theorem twoDirectories_folded : twoDirectories.FoldDistinct := by
  intro d hd
  have hd : d = 64 ∨ d = 65 ∨ d = 66 := by simpa [twoDirectories] using hd.1
  rcases hd with rfl | rfl | rfl
  · unfold Directory.FoldDistinct
    decide
  · exact .nil
  · exact .nil

theorem folded_steps_lower : ∃ s', Relation.ReflTransGen (SpelledStep foldingVolume) twoDirectories s' ∧
    s'.Has 64 nameC 66 ∧ s'.FoldDistinct := by
  have hsample : ((twoDirectories.rename (calmAnswers twoDirectories) foldingVolume 64 nameB 64
      nameC).toOption.map fun s' => decide (s'.Has 64 nameC 66)) = some true := by decide +kernel
  obtain ⟨s', hs', hhas⟩ := ok_of_toOption_map hsample
  have hstep : SpelledStep foldingVolume twoDirectories s' := by
    refine ⟨.rename 64 nameB 64 nameC, calmAnswers twoDirectories, ?_, hs'⟩
    unfold Spelled Directory.Spelled
    decide
  exact ⟨s', .single hstep, of_decide_eq_true hhas,
    (folded_steps twoDirectories_folded (.single hstep)).1⟩

/-- `A` does not find `a`, and goes in beside it. -/
theorem rename_beside_folded : foldingVolume.hasCaseInsensitiveDirs = true ∧
    twoDirectories.FoldDistinct ∧
    (twoDirectories.core 64).names.indexed (hashFor foldingVolume) nameCapitalA = none ∧
    (twoDirectories.core 64).names.findFolded nameCapitalA = some ⟨nameA, 65⟩ ∧
    ∃ s', twoDirectories.run (calmAnswers twoDirectories) foldingVolume
        (.rename 64 nameB 64 nameCapitalA) = .ok s' ∧
      s'.IsDir 64 ∧ ¬(s'.core 64).names.FoldDistinct := by
  have hsample : ((twoDirectories.rename (calmAnswers twoDirectories) foldingVolume 64 nameB 64
      nameCapitalA).toOption.map fun s' => decide (s'.IsDir 64 ∧
        (s'.core 64).names.entries = [⟨nameA, 65⟩, ⟨nameCapitalA, 66⟩])) = some true := by
    decide +kernel
  obtain ⟨s', hs', hafter⟩ := ok_of_toOption_map hsample
  obtain ⟨hdir, hentries⟩ := of_decide_eq_true hafter
  refine ⟨by decide, twoDirectories_folded, by decide, by decide, s', hs', hdir, ?_⟩
  unfold Directory.FoldDistinct
  rw [hentries]
  decide

end State

end FsXfs.Names
