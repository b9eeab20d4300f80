import FsXfs.Names.ShortForm
import Mathlib.Data.List.AList
import Mathlib.Data.List.Sort

/-!
# Directories past their inode, edited

`dir_node.rs` as far as the entries go: each data block's entries by offset, with the type byte they are
stored with, and the size of the directory. Both indexes lie past the data blocks, and of them the number
of blocks is kept: what the hash index finds, what the free index says has room, and the blocks they take
and give up, are answers of the rest.
-/

namespace FsXfs.Edits

open Names (FileType ftypeFromRaw ftypeToRaw dataAlign dataHdrSize dotDot)

set_option autoImplicit false

/-! ## Entries -/

structure Entry where
  name : List UInt8
  ino : ℕ
  ftype : ℕ
  deriving DecidableEq, Repr

-- an entry's type byte is read as a type, and a type written as a byte
def reread (e : Entry) : Except Error Entry := do
  let ftype ← ftypeFromRaw e.ftype
  pure { e with ftype := ftypeToRaw ftype }

def whiteout : ℕ := 8

theorem ftypeToRaw_of_read {raw : ℕ} {ftype : Option FileType} (h : ftypeFromRaw raw = .ok ftype) :
    ftypeToRaw ftype = if raw = whiteout then 0 else raw := by
  unfold ftypeFromRaw at h
  split at h
  case h_10 => cases h
  all_goals
    cases h
    rfl

variable {e : Entry} {entries : List Entry}

theorem reread_eq {read : Entry} (h : reread e = .ok read) :
    read = if e.ftype = whiteout then { e with ftype := 0 } else e := by
  obtain ⟨ftype, hftype, h⟩ := bind_eq_ok.mp h
  cases h
  rw [ftypeToRaw_of_read hftype]
  split <;> rfl

theorem reread_ne_whiteout {read : Entry} (h : reread e = .ok read) : read.ftype ≠ whiteout := by
  rw [reread_eq h]
  split
  next => exact Nat.zero_ne_add_one 7
  next hne => exact hne

theorem mem_reread {read : List Entry} (h : entries.mapM reread = .ok read) (he : e ∈ entries) :
    e ∈ read ↔ e.ftype ≠ whiteout := by
  constructor
  · intro hread
    obtain ⟨e', -, he'⟩ := mem_of_mapM_eq_ok h hread
    exact reread_ne_whiteout he'
  · intro hne
    obtain ⟨e', he', hread⟩ := ok_of_mapM_eq_ok h he
    rwa [reread_eq hread, if_neg hne] at he'

def entrySize (namelen : ℕ) : ℕ :=
  divCeil (8 + 1 + namelen + 1 + 2) dataAlign * dataAlign

/-! ## Data blocks -/

/-- `DirBlocks`: the data blocks that are mapped, by number, how many blocks the hash index and the free
index have, and `di_size`. -/
structure DirBlocks where
  ino : ℕ
  blocksize : ℕ
  per : ℕ
  blocks : AList fun _ : ℕ => List (ℕ × Entry)
  leaves : ℕ
  frees : ℕ
  size : ℕ
  pos : 0 < blocksize * per

/-- What one edit is answered by the indexes and the allocator. -/
structure Answers where
  -- the data block and offset the hash index leads to
  find : List UInt8 → Except Error (Option (ℕ × ℕ))
  -- the first data block whose recorded best holds so many bytes
  roomFor : ℕ → Except Error (Option ℕ)
  add : Except Error Unit
  release : Except Error Unit
  -- the blocks the index takes for a record put in, and those it is left with after one is taken out
  indexInsert : Except Error ℕ
  indexRemove : Except Error ℕ
  -- the blocks the free index is left with
  setBest : Except Error ℕ

inductive DirEdit where
  | remove (name : List UInt8)
  | add (entry : Entry)
  | reparent (parent : ℕ)
  | rename (from_ to_ : List UInt8)

namespace DirBlocks

section

variable (d : DirBlocks) (ans : Answers)

def dbs : ℕ :=
  d.blocksize * d.per

def leafDa : ℕ :=
  2 ^ 35 / d.blocksize

def corrupt (why : String) : Error :=
  .unsupportedFeature s!"inode {d.ino}'s directory: {why}"

def readEntry (db : ℕ) (p : ℕ × Entry) : Except Error (ℕ × Entry) :=
  match reread p.2 with
  | .ok e => .ok (p.1, e)
  | .error _ => .error (.unsupportedFeature s!"inode {d.ino}'s data block {db} could not be read")

def dataEntries (db : ℕ) : Except Error (List (ℕ × Entry)) := do
  let block ← orElse (d.blocks.lookup db) (d.corrupt s!"block {db * d.per} is not mapped")
  block.mapM (d.readEntry db)

def gapFrom (size : ℕ) : ℕ → List (ℕ × ℕ) → Option ℕ
  | at_, [] => if at_ + size ≤ d.dbs then some at_ else none
  | at_, (offset, len) :: rest =>
    if at_ + size ≤ offset then some at_ else gapFrom size (max at_ (offset + len)) rest

def firstGap (entries : List (ℕ × Entry)) (size : ℕ) : Option ℕ :=
  d.gapFrom size dataHdrSize ((entries.map fun p => (p.1, entrySize p.2.name.length)).insertionSort
    fun a b => a.1 < b.1 ∨ a.1 = b.1 ∧ a.2 ≤ b.2)

def checkPlaced : ℕ → List (ℕ × Entry) → Except Error Unit
  | _, [] => pure ()
  | at_, (offset, e) :: rest => do
    ensure (at_ ≤ offset ∧ offset + entrySize e.name.length ≤ d.dbs ∧ offset % dataAlign = 0)
      (.internal s!"inode {d.ino}'s entry at {offset} overlaps another or the block's end")
    checkPlaced (offset + entrySize e.name.length) rest

-- `data_block`, and the block put in its place
def putBlock (db : ℕ) (entries : List (ℕ × Entry)) : Except Error DirBlocks := do
  d.checkPlaced dataHdrSize (entries.insertionSort fun a b => a.1 ≤ b.1)
  pure { d with blocks := d.blocks.insert db entries }

def indexed (leaves frees : ℕ) : DirBlocks :=
  { d with leaves := leaves, frees := frees }

def find (name : List UInt8) : Except Error (Option (ℕ × ℕ)) := do
  match ← ans.find name with
  | none => pure none
  | some (db, offset) => do
    let entries ← d.dataEntries db
    pure (if entries.any fun p => p.1 == offset && p.2.name == name then some (db, offset) else none)

def firstHole : ℕ :=
  ((List.range (d.blocks.keys.length + 1)).find? fun db => db ∉ d.blocks.keys).getD 0

def newDataBlock : Except Error (ℕ × DirBlocks) := do
  ensure (d.firstHole * d.per < d.leafDa) (d.corrupt "its data space is full")
  ans.add
  pure (d.firstHole,
    { d with
      blocks := d.blocks.insert d.firstHole []
      size := max d.size ((d.firstHole + 1) * d.dbs) })

def landing (size : ℕ) : Except Error (ℕ × DirBlocks) := do
  match ← ans.roomFor size with
  | some db => pure (db, d)
  | none => d.newDataBlock ans

def addEntry (entry : Entry) : Except Error DirBlocks := do
  ensure ((← d.find ans entry.name) = none) .alreadyExists
  let size := entrySize entry.name.length
  let (db, d₁) ← d.landing ans size
  let entries ← d₁.dataEntries db
  let offset ← orElse (d₁.firstGap entries size) (d.corrupt s!"data block {db}'s best does not fit a name")
  let d₂ ← d₁.putBlock db (entries ++ [(offset, entry)])
  let frees ← ans.setBest
  ensure ((db * d.dbs + offset) / dataAlign < 2 ^ 32)
    (d.corrupt "a data block lies past what an index record holds")
  let taken ← ans.indexInsert
  pure (d₂.indexed (d.leaves + taken) frees)

def removeEntry (name : List UInt8) : Except Error DirBlocks := do
  let (db, offset) ← orElse (← d.find ans name) .notFound
  let leaves ← ans.indexRemove
  let entries ← d.dataEntries db
  let kept := entries.filter fun p => p.1 ≠ offset
  if kept = [] ∧ db ≠ 0 then do
    ans.release
    let frees ← ans.setBest
    pure { d with
      blocks := d.blocks.erase db
      leaves := leaves
      frees := frees
      size := if (db + 1) * d.dbs = d.size then db * d.dbs else d.size }
  else do
    let d₁ ← d.putBlock db kept
    let frees ← ans.setBest
    pure (d₁.indexed leaves frees)

def pointTo (parent : ℕ) : List (ℕ × Entry) → List (ℕ × Entry)
  | [] => []
  | p :: rest => if p.2.name = dotDot then (p.1, { p.2 with ino := parent }) :: rest else p :: pointTo parent rest

def reparent (parent : ℕ) : Except Error DirBlocks := do
  let entries ← d.dataEntries 0
  ensure (∃ p ∈ entries, p.2.name = dotDot) (d.corrupt "its first data block has no `..`")
  d.putBlock 0 (pointTo parent entries)

/-- One edit of a node-form directory; a rename's addition has answers of its own. -/
def edit (again : Answers) : DirEdit → Except Error DirBlocks
  | .remove name => d.removeEntry ans name
  | .add entry => d.addEntry ans entry
  | .reparent parent => d.reparent parent
  | .rename from_ to_ => do
    ensure ((← d.find ans to_) = none) .alreadyExists
    let (db, offset) ← orElse (← d.find ans from_) .notFound
    let entries ← d.dataEntries db
    let moved ← orElse (entries.find? fun p => p.1 == offset) (d.corrupt "an index record names no entry")
    let d₁ ← d.removeEntry ans from_
    d₁.addEntry again { moved.2 with name := to_ }

end

/-! ## Where a directory ends -/

/-- `di_size` is the end of the last data block that is mapped. -/
def Ends (d : DirBlocks) : Prop :=
  ∃ db ∈ d.blocks, d.size = (db + 1) * d.dbs ∧ ∀ other ∈ d.blocks, other ≤ db

/-- The name is alone in data block `db`, which is the last, and the block before that one is a hole. -/
def LeavesHole (d : DirBlocks) (ans : Answers) (name : List UInt8) (db : ℕ) : Prop :=
  ∃ offset block, d.find ans name = .ok (some (db, offset)) ∧ d.blocks.lookup db = some block ∧
    (∀ p ∈ block, p.1 = offset) ∧ db ≠ 0 ∧ (db + 1) * d.dbs = d.size ∧ db - 1 ∉ d.blocks

section

variable {d d' : DirBlocks} {ans again : Answers} {db : ℕ} {entries : List (ℕ × Entry)}

theorem ends_indexed {leaves frees : ℕ} : (d.indexed leaves frees).Ends ↔ d.Ends :=
  Iff.rfl

theorem dataEntries_spec (h : d.dataEntries db = .ok entries) :
    ∃ block, d.blocks.lookup db = some block ∧ block.mapM (d.readEntry db) = .ok entries := by
  obtain ⟨block, hblock, h⟩ := bind_eq_ok.mp h
  exact ⟨block, orElse_eq_ok.mp hblock, h⟩

theorem readEntry_eq {p read : ℕ × Entry} (h : d.readEntry db p = .ok read) :
    ∃ e, reread p.2 = .ok e ∧ read = (p.1, e) := by
  unfold readEntry at h
  split at h
  next e he => exact ⟨e, he, (Except.ok.inj h).symm⟩
  next => cases h

theorem mem_of_dataEntries (h : d.dataEntries db = .ok entries) : db ∈ d.blocks := by
  obtain ⟨block, hblock, -⟩ := dataEntries_spec h
  exact AList.lookup_isSome.mp (hblock ▸ rfl)

theorem putBlock_spec (h : d.putBlock db entries = .ok d') :
    d' = { d with blocks := d.blocks.insert db entries } := by
  obtain ⟨_, -, h⟩ := bind_eq_ok.mp h
  exact (Except.ok.inj h).symm

theorem Ends.put (hends : d.Ends) (hmem : db ∈ d.blocks) (h : d.putBlock db entries = .ok d') :
    d'.Ends := by
  obtain ⟨last, hlast, hsize, hmax⟩ := hends
  have hsame : ∀ other, other ∈ d.blocks.insert db entries ↔ other ∈ d.blocks := by
    intro other
    rw [AList.mem_insert, or_iff_right_of_imp]
    rintro rfl
    exact hmem
  rw [putBlock_spec h]
  exact ⟨last, (hsame last).mpr hlast, hsize, fun other hother => hmax other ((hsame other).mp hother)⟩

theorem firstHole_spec (d : DirBlocks) : d.firstHole ∉ d.blocks ∧ ∀ db < d.firstHole, db ∈ d.blocks := by
  obtain ⟨hole, hhole⟩ : ∃ hole, ((List.range (d.blocks.keys.length + 1)).find? fun db =>
      db ∉ d.blocks.keys) = some hole := by
    rw [← Option.isSome_iff_exists, List.find?_isSome]
    by_contra hall
    push Not at hall
    have hsub : List.range (d.blocks.keys.length + 1) ⊆ d.blocks.keys :=
      fun db hdb => by simpa using hall db hdb
    have hle := (List.nodup_range.subperm hsub).length_le
    rw [List.length_range] at hle
    omega
  have heq : d.firstHole = hole := by
    rw [firstHole, hhole]
    rfl
  rw [heq]
  refine ⟨?_, fun db hdb => ?_⟩
  · rw [AList.mem_keys]
    simpa using List.find?_some hhole
  · rw [AList.mem_keys]
    simpa using (List.find?_range_eq_some.mp hhole).2.2 db hdb

theorem newDataBlock_ends (hends : d.Ends) (h : d.newDataBlock ans = .ok (db, d')) : d'.Ends := by
  obtain ⟨_, -, h⟩ := bind_eq_ok.mp h
  obtain ⟨_, -, h⟩ := bind_eq_ok.mp h
  cases h
  obtain ⟨last, hlast, hsize, hmax⟩ := hends
  by_cases hlt : d.firstHole < last
  · have hle : (d.firstHole + 1) * d.dbs ≤ d.size := by
      rw [hsize]
      exact Nat.mul_le_mul_right _ (by omega)
    refine ⟨last, (AList.mem_insert _).mpr (.inr hlast), (max_eq_left hle).trans hsize, fun other hother => ?_⟩
    rcases (AList.mem_insert _).mp hother with rfl | hother
    · exact hlt.le
    · exact hmax other hother
  · have hle : d.size ≤ (d.firstHole + 1) * d.dbs := by
      rw [hsize]
      exact Nat.mul_le_mul_right _ (by omega)
    refine ⟨d.firstHole, (AList.mem_insert _).mpr (.inl rfl), max_eq_right hle, fun other hother => ?_⟩
    rcases (AList.mem_insert _).mp hother with rfl | hother
    · exact le_rfl
    · have := hmax other hother
      omega

theorem addEntry_spec {entry : Entry} (h : d.addEntry ans entry = .ok d') :
    ∃ db d₁ d₂ entries offset taken frees, d.landing ans (entrySize entry.name.length) = .ok (db, d₁) ∧
      d₁.dataEntries db = .ok entries ∧ d₁.putBlock db (entries ++ [(offset, entry)]) = .ok d₂ ∧
      ans.indexInsert = .ok taken ∧ ans.setBest = .ok frees ∧
      d' = d₂.indexed (d.leaves + taken) frees := by
  obtain ⟨_, -, h⟩ := bind_eq_ok.mp h
  obtain ⟨_, -, h⟩ := bind_eq_ok.mp h
  obtain ⟨⟨db, d₁⟩, hlanding, h⟩ := bind_eq_ok.mp h
  obtain ⟨entries, hentries, h⟩ := bind_eq_ok.mp h
  obtain ⟨offset, -, h⟩ := bind_eq_ok.mp h
  obtain ⟨d₂, hd₂, h⟩ := bind_eq_ok.mp h
  obtain ⟨frees, hfrees, h⟩ := bind_eq_ok.mp h
  obtain ⟨_, -, h⟩ := bind_eq_ok.mp h
  obtain ⟨taken, htaken, h⟩ := bind_eq_ok.mp h
  cases h
  exact ⟨db, d₁, d₂, entries, offset, taken, frees, hlanding, hentries, hd₂, htaken, hfrees, rfl⟩

theorem addEntry_ends {entry : Entry} (hends : d.Ends) (h : d.addEntry ans entry = .ok d') : d'.Ends := by
  obtain ⟨db, d₁, d₂, entries, offset, taken, frees, hlanding, hentries, hput, -, -, rfl⟩ :=
    addEntry_spec h
  have hends₁ : d₁.Ends := by
    obtain ⟨room, -, hlanding⟩ := bind_eq_ok.mp hlanding
    cases room with
    | some db' => exact (Prod.mk.inj (Except.ok.inj hlanding)).2 ▸ hends
    | none => exact newDataBlock_ends hends hlanding
  exact ends_indexed.mpr (hends₁.put (mem_of_dataEntries hentries) hput)

theorem reparent_ends {parent : ℕ} (hends : d.Ends) (h : d.reparent parent = .ok d') : d'.Ends := by
  obtain ⟨entries, hentries, h⟩ := bind_eq_ok.mp h
  obtain ⟨_, -, h⟩ := bind_eq_ok.mp h
  exact hends.put (mem_of_dataEntries hentries) h

theorem removeEntry_spec {name : List UInt8} (h : d.removeEntry ans name = .ok d') :
    ∃ db offset entries leaves frees, d.find ans name = .ok (some (db, offset)) ∧
      d.dataEntries db = .ok entries ∧
      if (entries.filter fun p => p.1 ≠ offset) = [] ∧ db ≠ 0 then
        d' = { d with
          blocks := d.blocks.erase db
          leaves := leaves
          frees := frees
          size := if (db + 1) * d.dbs = d.size then db * d.dbs else d.size }
      else ∃ d₁, d.putBlock db (entries.filter fun p => p.1 ≠ offset) = .ok d₁ ∧
        d' = d₁.indexed leaves frees := by
  obtain ⟨found, hfound, h⟩ := bind_eq_ok.mp h
  obtain ⟨⟨db, offset⟩, hplace, h⟩ := bind_eq_ok.mp h
  rw [orElse_eq_ok.mp hplace] at hfound
  obtain ⟨leaves, -, h⟩ := bind_eq_ok.mp h
  obtain ⟨entries, hentries, h⟩ := bind_eq_ok.mp h
  dsimp only at h
  split at h
  next hempty =>
    obtain ⟨_, -, h⟩ := bind_eq_ok.mp h
    obtain ⟨frees, -, h⟩ := bind_eq_ok.mp h
    refine ⟨db, offset, entries, leaves, frees, hfound, hentries, ?_⟩
    rw [if_pos hempty]
    exact (Except.ok.inj h).symm
  next hkept =>
    obtain ⟨d₁, hd₁, h⟩ := bind_eq_ok.mp h
    obtain ⟨frees, -, h⟩ := bind_eq_ok.mp h
    refine ⟨db, offset, entries, leaves, frees, hfound, hentries, ?_⟩
    rw [if_neg hkept]
    exact ⟨d₁, hd₁, (Except.ok.inj h).symm⟩

theorem emptied_iff {offset : ℕ} {block : List (ℕ × Entry)}
    (h : block.mapM (d.readEntry db) = .ok entries) :
    (entries.filter fun p => p.1 ≠ offset) = [] ↔ ∀ p ∈ block, p.1 = offset := by
  rw [List.filter_eq_nil_iff]
  constructor
  · intro hall p hp
    obtain ⟨read, hread, hp'⟩ := ok_of_mapM_eq_ok h hp
    obtain ⟨e, -, rfl⟩ := readEntry_eq hp'
    simpa using hall _ hread
  · intro hall read hread
    obtain ⟨p, hp, hp'⟩ := mem_of_mapM_eq_ok h hread
    obtain ⟨e, -, rfl⟩ := readEntry_eq hp'
    simpa using hall p hp

theorem removeEntry_ends_iff {name : List UInt8} (hends : d.Ends) (h : d.removeEntry ans name = .ok d') :
    d'.Ends ↔ ¬∃ db, d.LeavesHole ans name db := by
  obtain ⟨db, offset, entries, leaves, frees, hfind, hentries, hd'⟩ := removeEntry_spec h
  obtain ⟨block, hblock, hread⟩ := dataEntries_spec hentries
  have hmem := mem_of_dataEntries hentries
  have hhole : (∃ db, d.LeavesHole ans name db) ↔ ((entries.filter fun p => p.1 ≠ offset) = [] ∧ db ≠ 0) ∧
      (db + 1) * d.dbs = d.size ∧ db - 1 ∉ d.blocks := by
    rw [emptied_iff hread]
    constructor
    · rintro ⟨db', offset', block', hfind', hblock', hall, hne, hlast, hhole⟩
      obtain ⟨rfl, rfl⟩ := Prod.mk.inj (Option.some.inj (Except.ok.inj (hfind.symm.trans hfind')))
      obtain rfl := Option.some.inj (hblock.symm.trans hblock')
      exact ⟨⟨hall, hne⟩, hlast, hhole⟩
    · rintro ⟨⟨hall, hne⟩, hlast, hhole⟩
      exact ⟨db, offset, block, hfind, hblock, hall, hne, hlast, hhole⟩
  rw [hhole]
  split at hd'
  next hempty =>
    subst hd'
    obtain ⟨last, hlast, hsize, hmax⟩ := hends
    have hinj : ∀ a b : ℕ, (a + 1) * d.dbs = (b + 1) * d.dbs → a = b := fun a b heq => by
      have := Nat.eq_of_mul_eq_mul_right d.pos heq
      omega
    by_cases heq : (db + 1) * d.dbs = d.size
    · obtain rfl : db = last := hinj _ _ (heq.trans hsize)
      have hpred : (db - 1 + 1) * d.dbs = db * d.dbs := by rw [Nat.sub_add_cancel (by omega)]
      constructor
      · rintro ⟨new, hnew, hsize', -⟩ ⟨-, -, hhole⟩
        have hprev : db - 1 = new := hinj _ _ (hpred.trans ((if_pos heq).symm.trans hsize'))
        exact hhole (hprev ▸ (AList.mem_erase.mp hnew).2)
      · intro hnot
        have hprev : db - 1 ∈ d.blocks := by
          by_contra hhole
          exact hnot ⟨hempty, heq, hhole⟩
        refine ⟨db - 1, AList.mem_erase.mpr ⟨by omega, hprev⟩, (if_pos heq).trans hpred.symm, ?_⟩
        intro other hother
        obtain ⟨hne, hother⟩ := AList.mem_erase.mp hother
        have := hmax other hother
        omega
    · refine iff_of_true ⟨last, AList.mem_erase.mpr ⟨?_, hlast⟩, ?_, fun other hother => ?_⟩ (by simp [heq])
      · rintro rfl
        exact heq hsize.symm
      · rw [if_neg heq]
        exact hsize
      · exact hmax other (AList.mem_erase.mp hother).2
  next hkept =>
    obtain ⟨d₁, hput, rfl⟩ := hd'
    exact iff_of_true (ends_indexed.mpr (hends.put hmem hput)) fun hall => hkept hall.1

theorem removeEntry_hole {name : List UInt8} (h : d.removeEntry ans name = .ok d')
    (hhole : d.LeavesHole ans name db) : ∃ leaves frees size, d' = { d with
      blocks := d.blocks.erase db
      leaves := leaves
      frees := frees
      size := size } := by
  obtain ⟨db', offset', entries, leaves, frees, hfind', hentries, hd'⟩ := removeEntry_spec h
  obtain ⟨offset, block, hfind, hblock, hall, hne, -, -⟩ := hhole
  obtain ⟨rfl, rfl⟩ := Prod.mk.inj (Option.some.inj (Except.ok.inj (hfind.symm.trans hfind')))
  obtain ⟨block', hblock', hread⟩ := dataEntries_spec hentries
  obtain rfl := Option.some.inj (hblock.symm.trans hblock')
  rw [if_pos ⟨(emptied_iff hread).mpr hall, hne⟩] at hd'
  exact ⟨leaves, frees, _, hd'⟩

/-- An edit that takes out no name whose block is the last and lies past a hole. -/
def Fine (d : DirBlocks) (ans : Answers) : DirEdit → Prop
  | .remove name => ¬∃ db, d.LeavesHole ans name db
  | .rename from_ _ => ¬∃ db, d.LeavesHole ans from_ db
  | _ => True

theorem edit_rename_spec {from_ to_ : List UInt8} (h : d.edit ans again (.rename from_ to_) = .ok d') :
    ∃ (d₁ : DirBlocks) (moved : Entry), d.removeEntry ans from_ = .ok d₁ ∧
      d₁.addEntry again { moved with name := to_ } = .ok d' := by
  obtain ⟨_, -, h⟩ := bind_eq_ok.mp h
  obtain ⟨_, -, h⟩ := bind_eq_ok.mp h
  obtain ⟨_, -, h⟩ := bind_eq_ok.mp h
  obtain ⟨⟨db, offset⟩, -, h⟩ := bind_eq_ok.mp h
  obtain ⟨entries, -, h⟩ := bind_eq_ok.mp h
  obtain ⟨moved, -, h⟩ := bind_eq_ok.mp h
  obtain ⟨d₁, hd₁, h⟩ := bind_eq_ok.mp h
  exact ⟨d₁, moved.2, hd₁, h⟩

theorem edit_ends {e : DirEdit} (hends : d.Ends) (hfine : d.Fine ans e)
    (h : d.edit ans again e = .ok d') : d'.Ends := by
  cases e with
  | remove name => exact (removeEntry_ends_iff hends h).mpr hfine
  | add entry => exact addEntry_ends hends h
  | reparent parent => exact reparent_ends hends h
  | rename from_ to_ =>
    obtain ⟨d₁, moved, hd₁, h⟩ := edit_rename_spec h
    exact addEntry_ends ((removeEntry_ends_iff hends hd₁).mpr hfine) h

end

/-! ## What the blocks hold -/

section

variable {d : DirBlocks} {db k o : ℕ} {x : Entry} {entries : List (ℕ × Entry)}

def Has (d : DirBlocks) (k o : ℕ) (x : Entry) : Prop :=
  ∃ block, d.blocks.lookup k = some block ∧ (o, x) ∈ block

theorem has_indexed {leaves frees : ℕ} : (d.indexed leaves frees).Has k o x ↔ d.Has k o x :=
  Iff.rfl

theorem ne_whiteout_of_mem (h : d.dataEntries db = .ok entries) (hx : (o, x) ∈ entries) :
    x.ftype ≠ whiteout := by
  obtain ⟨block, -, hread⟩ := dataEntries_spec h
  obtain ⟨p, -, hp⟩ := mem_of_mapM_eq_ok hread hx
  obtain ⟨e, he, heq⟩ := readEntry_eq hp
  rw [(Prod.mk.inj heq).2]
  exact reread_ne_whiteout he

theorem Has.mem_iff (hx : d.Has db o x) (h : d.dataEntries db = .ok entries) :
    (o, x) ∈ entries ↔ x.ftype ≠ whiteout := by
  refine ⟨ne_whiteout_of_mem h, fun hne => ?_⟩
  obtain ⟨block, hblock, hread⟩ := dataEntries_spec h
  obtain ⟨block', hblock', hx⟩ := hx
  obtain rfl := Option.some.inj (hblock.symm.trans hblock')
  obtain ⟨read, hmem, hread'⟩ := ok_of_mapM_eq_ok hread hx
  obtain ⟨e, he, rfl⟩ := readEntry_eq hread'
  rwa [reread_eq he, if_neg hne] at hmem

end

end DirBlocks

end FsXfs.Edits
