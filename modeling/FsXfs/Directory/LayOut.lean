import FsXfs.Directory.Edits

/-!
# Directories laid out again

`edit_directory` (`dir_edit.rs`) reads a directory in block or leaf form whole, changes the list of its
entries and lays it out again in the smallest form that holds them (`lay_out`). One in node form is edited
in place, and laid out again where its index is down to one leaf and leaf form would hold it.
-/

namespace FsXfs.Edits

open Names (dataAlign dataHdrSize dotDot)

set_option autoImplicit false

/-! ## Blocks built from entries -/

section

variable (room : ℕ)

-- `dir_leaf::pack`, with the block being filled and what it holds
def packFrom (used : ℕ) (block : List Entry) : List Entry → Except Error (List (List Entry))
  | [] => pure [block]
  | e :: rest => do
    ensure (entrySize e.name.length ≤ room)
      (.unsupportedFeature s!"an entry of {entrySize e.name.length} bytes does not fit in a {room + dataHdrSize}-byte directory block")
    if room < used + entrySize e.name.length then do
      let blocks ← packFrom (entrySize e.name.length) [e] rest
      pure (block :: blocks)
    else packFrom (used + entrySize e.name.length) (block ++ [e]) rest

end

section

variable (ino dbs : ℕ)

def pack (entries : List Entry) : Except Error (List (List Entry)) :=
  packFrom (dbs - dataHdrSize) 0 [] entries

def spaceNeeded (entries : List Entry) : ℕ :=
  dataHdrSize + (entries.map fun e => entrySize e.name.length).sum + entries.length * 8 + 8

def leafCapacity (dataBlocks : ℕ) : ℕ :=
  (dbs - 64 - 4 - dataBlocks * 2) / 8

-- `build_data_block`; the first and last of its checks cannot fail in `dir_block::build`
def build (db : ℕ) : ℕ → List Entry → Except Error (List (ℕ × Entry))
  | _, [] => pure []
  | at_, e :: rest => do
    ensure (at_ + entrySize e.name.length ≤ dbs)
      (.internal s!"data block {db} of inode {ino} was given more entries than it holds")
    ensure (e.name.length ≤ 255) (.unsupportedFeature s!"a name of {e.name.length} bytes is too long")
    ensure ((db * dbs + at_) / dataAlign < 2 ^ 32) (.unsupportedFeature
      s!"data block {db} lies past the addresses a directory index can hold")
    let placed ← build db (at_ + entrySize e.name.length) rest
    pure ((at_, e) :: placed)

end

-- the blocks of an index whose lowest level has `n`, with the levels it may still have
def indexBlocks (cap : ℕ) : ℕ → ℕ → Option ℕ
  | 0, n => if n ≤ 1 then some n else none
  | levels + 1, n =>
    if n ≤ 1 then some n else (indexBlocks cap levels (shares n cap).length).map (n + ·)

def numbered (blocks : List (List (ℕ × Entry))) : AList fun _ : ℕ => List (ℕ × Entry) where
  entries := blocks.zipIdx.map fun p => ⟨p.2, p.1⟩
  nodupKeys := by
    rw [List.NodupKeys, List.keys, List.map_map]
    exact List.zipIdx_map_snd 0 blocks ▸ List.nodup_range'

-- `.` and `..` first, as in every directory that has left its inode
def dots : List Entry → Bool
  | a :: b :: _ => a.name == Names.dot && b.name == dotDot
  | _ => false

/-! ## One call -/

/-- What laying a directory out is answered. -/
structure Laying where
  -- the first block of the hash index is a leaf
  root : Except Error Bool
  -- the blocks it keeps are read, those it needs are taken and the others given back
  place : Except Error Unit

/-- An edit with what it is answered. -/
structure Edited where
  edit : DirEdit
  ans : Answers
  again : Answers

namespace DirBlocks

section

variable (d : DirBlocks)

def isNode : Bool :=
  decide (d.frees ≠ 0)

def entries : Except Error (List Entry) := do
  let blocks ← (d.blocks.keys.insertionSort (· ≤ ·)).mapM d.dataEntries
  ensure (dots (blocks.flatten.map Prod.snd) = true)
    (d.corrupt "its first data block does not begin with `.` and `..`")
  pure (blocks.flatten.map Prod.snd)

def fitsLeafForm (lay : Laying) : Except Error (Option (List Entry)) := do
  if (← lay.root) then do
    let entries ← d.entries
    let groups ← pack d.dbs entries
    pure (if entries.length ≤ leafCapacity d.dbs groups.length then some entries else none)
  else pure none

def BlockForm (entries : List Entry) : Prop :=
  spaceNeeded entries ≤ d.dbs

instance (entries : List Entry) : Decidable (d.BlockForm entries) :=
  inferInstanceAs (Decidable (_ ≤ _))

def groups (entries : List Entry) : Except Error (List (List Entry)) :=
  if d.BlockForm entries then pure [entries] else pack d.dbs entries

/-- The blocks of the two indexes beside so many data blocks. -/
def indexes (entries : List Entry) (groups : ℕ) : Except Error (ℕ × ℕ) :=
  if d.BlockForm entries then pure (0, 0)
  else if entries.length ≤ leafCapacity d.dbs groups then pure (1, 0)
  else do
    -- `XFS_DA_NODE_MAXDEPTH` is five
    let leaves ← orElse
      (indexBlocks ((d.dbs - 64) / 8) 4 (shares entries.length ((d.dbs - 64) / 8)).length)
      (d.corrupt "its index would be deeper than XFS allows")
    pure (leaves, divCeil groups ((d.dbs - 64) / 2))

def layOut (lay : Laying) (entries : List Entry) : Except Error DirBlocks := do
  let groups ← d.groups entries
  let (leaves, frees) ← d.indexes entries groups.length
  lay.place
  let blocks ← groups.zipIdx.mapM fun p => build d.ino d.dbs p.2 dataHdrSize p.1
  pure { d with
    blocks := numbered blocks
    leaves := leaves
    frees := frees
    size := groups.length * d.dbs }

def apply (e : Edited) : Except Error DirBlocks :=
  d.edit e.ans e.again e.edit

end

end DirBlocks

/-- An edit of a directory in block or leaf form, of which every entry has been read. -/
def editEntries (entries : List Entry) : DirEdit → Except Error (List Entry)
  | .remove name => do
    ensure (∃ e ∈ entries, e.name = name) .notFound
    pure (entries.filter fun e => e.name ≠ name)
  | .add entry => do
    ensure (∀ e ∈ entries, e.name ≠ entry.name) .alreadyExists
    pure (entries ++ [entry])
  | .reparent parent => pure (entries.modify 1 fun e => { e with ino := parent })
  | .rename from_ to_ => do
    ensure (∀ e ∈ entries, e.name ≠ to_) .alreadyExists
    let moved ← orElse ((entries.drop 2).find? fun e => e.name = from_) .notFound
    pure (entries.take 2 ++ ((entries.drop 2).eraseP fun e => e.name = from_) ++
      [{ moved with name := to_ }])

def DirBlocks.editDirectory (d : DirBlocks) (edits : List Edited) (lay : Laying) :
    Except Error DirBlocks :=
  if d.isNode then do
    let d₁ ← edits.foldlM DirBlocks.apply d
    match ← d₁.fitsLeafForm lay with
    | some entries => d₁.layOut lay entries
    | none => pure d₁
  else do
    let entries ← d.entries
    let entries' ← (edits.map Edited.edit).foldlM editEntries entries
    d.layOut lay entries'

/-! ## The names an edit leaves -/

def Entry.toName (e : Entry) : Names.Entry :=
  ⟨e.name, e.ino⟩

def DirEdit.toNames : DirEdit → Names.DirEdit
  | .remove name => .remove name
  | .add entry => .add entry.toName
  | .reparent parent => .reparent parent
  | .rename from_ to_ => .rename from_ to_

/-- An edit that neither gives nor takes one of the dots. -/
def DirEdit.KeepsDots : DirEdit → Prop
  | .remove name => name ≠ Names.dot ∧ name ≠ dotDot
  | .add entry => entry.name ≠ Names.dot ∧ entry.name ≠ dotDot
  | .reparent _ => True
  | .rename from_ to_ =>
    (from_ ≠ Names.dot ∧ from_ ≠ dotDot) ∧ to_ ≠ Names.dot ∧ to_ ≠ dotDot

-- `..` is the second entry
def namesOf (entries : List Entry) : Names.Directory :=
  ⟨(entries[1]?.map Entry.ino).getD 0, (entries.drop 2).map Entry.toName⟩

theorem dots_cases {l : List Entry} (h : dots l = true) :
    ∃ a b rest, l = a :: b :: rest ∧ a.name = Names.dot ∧ b.name = dotDot := by
  rcases l with _ | ⟨a, _ | ⟨b, rest⟩⟩
  · cases h
  · cases h
  · exact ⟨a, b, rest, rfl, by simpa [dots] using h⟩

theorem fresh_iff {a b : Entry} {rest : List Entry} {name : List UInt8} (ha : a.name = Names.dot)
    (hb : b.name = dotDot) (hname : name ≠ Names.dot ∧ name ≠ dotDot) :
    (∀ e ∈ a :: b :: rest, e.name ≠ name) ↔
      Names.Directory.has ⟨b.ino, rest.map Entry.toName⟩ name = false := by
  rw [List.forall_mem_cons, List.forall_mem_cons, ha, hb, Names.Directory.has, List.any_map,
    List.any_eq_false]
  constructor
  · exact fun h e he hsame => h.2.2 e he (of_decide_eq_true hsame)
  · exact fun h => ⟨hname.1.symm, hname.2.symm, fun e he hsame => h e he (decide_eq_true hsame)⟩

/-- A directory in block or leaf form is edited as `Names.Directory.editBlocks` edits its names. -/
theorem editBlocks_namesOf {l : List Entry} {e : DirEdit} (hdots : dots l = true) (he : e.KeepsDots) :
    (namesOf l).editBlocks e.toNames = (editEntries l e).map namesOf := by
  obtain ⟨a, b, rest, rfl, ha, hb⟩ := dots_cases hdots
  have hnames : namesOf (a :: b :: rest) = ⟨b.ino, rest.map Entry.toName⟩ := rfl
  rw [hnames]
  cases e with
  | remove name =>
    have hkept : (a :: b :: rest).filter (fun e => e.name ≠ name) =
        a :: b :: rest.filter fun e => e.name ≠ name := by
      simp [ha, hb, he.1.symm, he.2.symm]
    have hwithout : Names.Directory.without ⟨b.ino, rest.map Entry.toName⟩ name =
        (rest.filter fun e => e.name ≠ name).map Entry.toName := by
      rw [Names.Directory.without, List.filter_map]
      rfl
    have hfound : (∃ e ∈ a :: b :: rest, e.name = name) ↔
        ((rest.filter fun e => e.name ≠ name).map Entry.toName).length ≠
          (rest.map Entry.toName).length := by
      rw [List.length_map, List.length_map, ne_eq, List.length_filter_eq_length_iff]
      simp [ha, hb, he.1.symm, he.2.symm]
    rw [editEntries, hkept]
    simp only [DirEdit.toNames, Names.Directory.editBlocks, hwithout, ensure, hfound]
    split <;> rfl
  | add entry =>
    have hnew : (∀ e ∈ a :: b :: rest, e.name ≠ entry.name) ↔
        Names.Directory.has ⟨b.ino, rest.map Entry.toName⟩ entry.toName.name = false :=
      fresh_iff ha hb he
    rw [editEntries]
    simp only [DirEdit.toNames, Names.Directory.editBlocks, ensure, hnew]
    split
    · simp [namesOf, Except.map, bind, Except.bind, pure, Except.pure]
    · rfl
  | reparent parent => rfl
  | rename from_ to_ =>
    have hnew : (∀ e ∈ a :: b :: rest, e.name ≠ to_) ↔
        Names.Directory.has ⟨b.ino, rest.map Entry.toName⟩ to_ = false := fresh_iff ha hb he.2
    have hfind : Names.Directory.find ⟨b.ino, rest.map Entry.toName⟩ from_ =
        (rest.find? fun e => e.name = from_).map Entry.toName := by
      rw [Names.Directory.find, List.find?_map]
      rfl
    have herase : (rest.map Entry.toName).eraseP (fun e => e.name = from_) =
        (rest.eraseP fun e => e.name = from_).map Entry.toName := by
      rw [List.eraseP_map]
      rfl
    rw [editEntries]
    simp only [DirEdit.toNames, Names.Directory.editBlocks, ensure, hnew, hfind, herase,
      List.drop_succ_cons, List.drop_zero]
    split
    · cases rest.find? fun e => e.name = from_ with
      | none => rfl
      | some moved =>
        simp [namesOf, Except.map, bind, Except.bind, pure, Except.pure, orElse, Entry.toName]
    · rfl

/-! ## What is laid out -/

section

variable {entries : List Entry} {ino dbs : ℕ}

theorem flatten_packFrom {room used : ℕ} {block : List Entry} {blocks : List (List Entry)}
    (h : packFrom room used block entries = .ok blocks) :
    blocks.flatten = block ++ entries ∧ 0 < blocks.length := by
  induction entries generalizing used block blocks with
  | nil =>
    cases h
    simp
  | cons e rest ih =>
    obtain ⟨_, -, h⟩ := bind_eq_ok.mp h
    split at h
    · obtain ⟨blocks', hblocks', h⟩ := bind_eq_ok.mp h
      cases h
      rw [List.flatten_cons, (ih hblocks').1, List.singleton_append]
      exact ⟨rfl, Nat.succ_pos _⟩
    · obtain ⟨hflat, hpos⟩ := ih h
      rw [hflat, List.append_assoc, List.singleton_append]
      exact ⟨rfl, hpos⟩

theorem build_entries {db at_ : ℕ} {placed : List (ℕ × Entry)} (h : build ino dbs db at_ entries = .ok placed) :
    placed.map Prod.snd = entries := by
  induction entries generalizing at_ placed with
  | nil =>
    cases h
    rfl
  | cons e rest ih =>
    obtain ⟨_, -, h⟩ := bind_eq_ok.mp h
    obtain ⟨_, -, h⟩ := bind_eq_ok.mp h
    obtain ⟨_, -, h⟩ := bind_eq_ok.mp h
    obtain ⟨placed', hplaced', h⟩ := bind_eq_ok.mp h
    cases h
    rw [List.map_cons, ih hplaced']

variable {blocks : List (List (ℕ × Entry))} {db : ℕ}

theorem lookup_numbered (blocks : List (List (ℕ × Entry))) (db : ℕ) :
    (numbered blocks).lookup db = blocks[db]? := by
  refine Option.ext fun block => ?_
  rw [AList.lookup, ← Option.mem_def, List.mem_dlookup_iff (numbered blocks).nodupKeys]
  simp [numbered, List.mem_map, List.mk_mem_zipIdx_iff_getElem?]

theorem mem_numbered : db ∈ numbered blocks ↔ db < blocks.length := by
  rw [← AList.lookup_isSome, lookup_numbered]
  simp

end

namespace DirBlocks

variable {d d' : DirBlocks} {lay : Laying} {l : List Entry} {x : Entry} {k o : ℕ}

theorem groups_spec {groups : List (List Entry)} (h : d.groups l = .ok groups) :
    groups.flatten = l ∧ 0 < groups.length := by
  unfold DirBlocks.groups at h
  split at h
  next =>
    cases h
    simp
  next => exact flatten_packFrom h

theorem layOut_spec (h : d.layOut lay l = .ok d') :
    ∃ groups leaves frees blocks, d.groups l = .ok groups ∧
      d.indexes l groups.length = .ok (leaves, frees) ∧
      (groups.zipIdx.mapM fun p => build d.ino d.dbs p.2 dataHdrSize p.1) = .ok blocks ∧
      d' = { d with
        blocks := numbered blocks
        leaves := leaves
        frees := frees
        size := groups.length * d.dbs } := by
  obtain ⟨groups, hgroups, h⟩ := bind_eq_ok.mp h
  obtain ⟨⟨leaves, frees⟩, hindexes, h⟩ := bind_eq_ok.mp h
  obtain ⟨_, -, h⟩ := bind_eq_ok.mp h
  obtain ⟨blocks, hblocks, h⟩ := bind_eq_ok.mp h
  exact ⟨groups, leaves, frees, blocks, hgroups, hindexes, hblocks, (Except.ok.inj h).symm⟩

/-- A directory laid out again ends where its last block does. -/
theorem layOut_ends (h : d.layOut lay l = .ok d') : d'.Ends := by
  obtain ⟨groups, leaves, frees, blocks, hgroups, -, hblocks, rfl⟩ := layOut_spec h
  have hpos := (groups_spec hgroups).2
  have hlen : blocks.length = groups.length := by
    rw [(mapM_eq_ok hblocks).1, List.length_zipIdx]
  refine ⟨groups.length - 1, mem_numbered.mpr (by omega), ?_, fun other hother => ?_⟩
  · rw [Nat.sub_add_cancel hpos]
    rfl
  · have := mem_numbered.mp hother
    omega

/-- It holds the entries it was laid out with and no others. -/
theorem has_layOut (h : d.layOut lay l = .ok d') : (∃ k o, d'.Has k o x) ↔ x ∈ l := by
  obtain ⟨groups, leaves, frees, blocks, hgroups, -, hblocks, rfl⟩ := layOut_spec h
  obtain rfl := (groups_spec hgroups).1
  have hplaced : ∀ (p : List Entry × ℕ) block, build d.ino d.dbs p.2 dataHdrSize p.1 = .ok block →
      (x ∈ p.1 ↔ ∃ o, (o, x) ∈ block) := by
    intro p block hbuild
    rw [← build_entries hbuild]
    simp
  simp only [Has, lookup_numbered, List.mem_flatten]
  constructor
  · rintro ⟨k, o, block, hblock, hx⟩
    obtain ⟨p, hp, hbuild⟩ := mem_of_mapM_eq_ok hblocks (List.mem_of_getElem? hblock)
    exact ⟨p.1, List.fst_mem_of_mem_zipIdx hp, (hplaced p block hbuild).mpr ⟨o, hx⟩⟩
  · rintro ⟨group, hgroup, hx⟩
    obtain ⟨i, hi, rfl⟩ := List.getElem_of_mem hgroup
    obtain ⟨block, hmem, hbuild⟩ := ok_of_mapM_eq_ok hblocks
      (List.mk_mem_zipIdx_iff_getElem?.mpr (List.getElem?_eq_getElem hi))
    obtain ⟨o, ho⟩ := (hplaced _ block hbuild).mp hx
    obtain ⟨k, hk⟩ := List.mem_iff_getElem?.mp hmem
    exact ⟨k, o, block, hk, ho⟩

theorem entries_spec (h : d.entries = .ok l) :
    dots l = true ∧ ∃ blocks, (d.blocks.keys.insertionSort (· ≤ ·)).mapM d.dataEntries = .ok blocks ∧
      l = blocks.flatten.map Prod.snd := by
  obtain ⟨blocks, hblocks, h⟩ := bind_eq_ok.mp h
  obtain ⟨_, hdots, h⟩ := bind_eq_ok.mp h
  cases h
  exact ⟨ensure_eq_ok.mp hdots, blocks, hblocks, rfl⟩

theorem ne_whiteout_of_entries (h : d.entries = .ok l) (hx : x ∈ l) : x.ftype ≠ whiteout := by
  obtain ⟨-, blocks, hblocks, rfl⟩ := entries_spec h
  obtain ⟨⟨o, x⟩, hmem, rfl⟩ := List.mem_map.mp hx
  obtain ⟨block, hblock, hmem⟩ := List.mem_flatten.mp hmem
  obtain ⟨db, -, hread⟩ := mem_of_mapM_eq_ok hblocks hblock
  exact ne_whiteout_of_mem hread hmem

theorem Has.mem_entries (hx : d.Has k o x) (h : d.entries = .ok l) (hne : x.ftype ≠ whiteout) : x ∈ l := by
  obtain ⟨-, blocks, hblocks, rfl⟩ := entries_spec h
  have hk : k ∈ d.blocks.keys.insertionSort (· ≤ ·) := by
    obtain ⟨block, hblock, -⟩ := hx
    rw [List.mem_insertionSort, ← AList.mem_keys, ← AList.lookup_isSome, hblock]
    rfl
  obtain ⟨entries, hentries, hread⟩ := ok_of_mapM_eq_ok hblocks hk
  exact List.mem_map.mpr ⟨(o, x), List.mem_flatten.mpr ⟨entries, hentries, (hx.mem_iff hread).mpr hne⟩, rfl⟩

theorem fitsLeafForm_some (h : d.fitsLeafForm lay = .ok (some l)) : d.entries = .ok l := by
  obtain ⟨root, -, h⟩ := bind_eq_ok.mp h
  split at h
  next =>
    obtain ⟨entries, hentries, h⟩ := bind_eq_ok.mp h
    obtain ⟨groups, -, h⟩ := bind_eq_ok.mp h
    split at h
    next => exact Option.some.inj (Except.ok.inj h) ▸ hentries
    next => cases h
  next => cases h

/-- One call leaves a directory laid out again, or as the edits made in place leave it. -/
theorem editDirectory_cases {edits : List Edited} (h : d.editDirectory edits lay = .ok d') :
    (d.isNode = true ∧ ∃ d₁, edits.foldlM apply d = .ok d₁ ∧
      ((∃ l, d₁.fitsLeafForm lay = .ok (some l) ∧ d₁.layOut lay l = .ok d') ∨
        d₁.fitsLeafForm lay = .ok none ∧ d' = d₁)) ∨
    (d.isNode = false ∧ ∃ l l', d.entries = .ok l ∧
      (edits.map Edited.edit).foldlM editEntries l = .ok l' ∧ d.layOut lay l' = .ok d') := by
  unfold editDirectory at h
  split at h
  next hnode =>
    obtain ⟨d₁, hd₁, h⟩ := bind_eq_ok.mp h
    obtain ⟨fits, hfits, h⟩ := bind_eq_ok.mp h
    refine .inl ⟨hnode, d₁, hd₁, ?_⟩
    cases fits with
    | none => exact .inr ⟨hfits, (Except.ok.inj h).symm⟩
    | some l => exact .inl ⟨l, hfits, h⟩
  next hnode =>
    obtain ⟨l, hl, h⟩ := bind_eq_ok.mp h
    obtain ⟨l', hl', h⟩ := bind_eq_ok.mp h
    exact .inr ⟨by simpa using hnode, l, l', hl, hl', h⟩

/-! ## Where a directory ends -/

/-- The directory would fit leaf form, and its index is one leaf. -/
def Small (d : DirBlocks) (lay : Laying) : Prop :=
  ∃ l, d.fitsLeafForm lay = .ok (some l)

/-- Edits made one after another, none of which leaves a hole below the block it takes out. -/
def AllFine : DirBlocks → List Edited → Prop
  | _, [] => True
  | d, e :: rest => d.Fine e.ans e.edit ∧ ∀ d₁, d.apply e = .ok d₁ → d₁.AllFine rest

/-- Such edits, where they are made in place and the directory they leave is past leaf form. -/
def FineCall (d : DirBlocks) (edits : List Edited) (lay : Laying) : Prop :=
  d.isNode = true → (∃ d₁, edits.foldlM apply d = .ok d₁ ∧ d₁.Small lay) ∨ d.AllFine edits

/-- A removal that leaves a hole below the block it takes out, of a directory that is past leaf form
without that block. -/
def Strands (d : DirBlocks) (ans : Answers) (lay : Laying) (name : List UInt8) : Prop :=
  ∃ db, d.LeavesHole ans name db ∧ ¬({ d with blocks := d.blocks.erase db } : DirBlocks).Small lay

variable {edits : List Edited}

theorem edits_ends {d₁ : DirBlocks} (hends : d.Ends) (hfine : d.AllFine edits)
    (h : edits.foldlM apply d = .ok d₁) : d₁.Ends := by
  induction edits generalizing d with
  | nil =>
    cases h
    exact hends
  | cons e rest ih =>
    obtain ⟨mid, hmid, h⟩ := bind_eq_ok.mp h
    exact ih (edit_ends hends hfine.1 hmid) (hfine.2 mid hmid) h

theorem editDirectory_ends (hends : d.Ends) (hfine : d.FineCall edits lay)
    (h : d.editDirectory edits lay = .ok d') : d'.Ends := by
  obtain ⟨hnode, d₁, hd₁, ⟨l, -, hlaid⟩ | ⟨hpast, rfl⟩⟩ | ⟨-, l, l', -, -, hlaid⟩ :=
    editDirectory_cases h
  · exact layOut_ends hlaid
  · rcases hfine hnode with ⟨d₂, hd₂, l, hsmall⟩ | hall
    · obtain rfl := Except.ok.inj (hd₁.symm.trans hd₂)
      exact absurd (hpast.symm.trans hsmall) (by simp)
    · exact edits_ends hends hall hd₁
  · exact layOut_ends hlaid

theorem removal_ends_iff {ans again : Answers} {name : List UInt8} (hnode : d.isNode = true)
    (hends : d.Ends) (h : d.editDirectory [⟨.remove name, ans, again⟩] lay = .ok d') :
    d'.Ends ↔ ¬d.Strands ans lay name := by
  obtain ⟨-, d₁, hd₁, hlaid⟩ | ⟨hwhole, -⟩ := editDirectory_cases h
  · obtain ⟨d₂, hremove, hd₂⟩ := bind_eq_ok.mp hd₁
    obtain rfl := Except.ok.inj hd₂
    -- what is left of the directory does not depend on how the indexes are left
    have hsame : ∀ db, d.LeavesHole ans name db →
        ({ d with blocks := d.blocks.erase db } : DirBlocks).fitsLeafForm lay = d₂.fitsLeafForm lay := by
      intro db hhole
      obtain ⟨leaves, frees, size, rfl⟩ := removeEntry_hole hremove hhole
      rfl
    rcases hlaid with ⟨l, hsmall, hlaid⟩ | ⟨hpast, rfl⟩
    · refine iff_of_true (layOut_ends hlaid) ?_
      rintro ⟨db, hhole, hnot⟩
      exact hnot ⟨l, (hsame db hhole).trans hsmall⟩
    · rw [removeEntry_ends_iff hends hremove]
      refine not_congr ⟨?_, fun ⟨db, hhole, _⟩ => ⟨db, hhole⟩⟩
      rintro ⟨db, hhole⟩
      refine ⟨db, hhole, ?_⟩
      rintro ⟨l, hsmall⟩
      exact absurd (hpast.symm.trans ((hsame db hhole).symm.trans hsmall)) (by simp)
  · exact absurd (hnode.symm.trans hwhole) (by simp)

/-- Calls made one after another, each of edits that leave no such hole. -/
inductive Run : DirBlocks → DirBlocks → Prop
  | refl (d : DirBlocks) : Run d d
  | tail {d d₁ d₂ : DirBlocks} {edits : List Edited} {lay : Laying} :
    Run d d₁ → d₁.FineCall edits lay → d₁.editDirectory edits lay = .ok d₂ → Run d d₂

/-- The size stays the end of the last mapped data block through calls none of which leaves a hole below a
block it takes out of a directory past leaf form, and a removal that does leaves it wrong. -/
theorem edits_end_iff (hends : d.Ends) :
    (∀ d', Run d d' → d'.Ends) ∧
      ∀ ans again lay name d', d.isNode = true →
        d.editDirectory [⟨.remove name, ans, again⟩] lay = .ok d' →
          (d'.Ends ↔ ¬d.Strands ans lay name) := by
  refine ⟨fun d' hrun => ?_, fun ans again lay name d' hnode h => removal_ends_iff hnode hends h⟩
  induction hrun with
  | refl => exact hends
  | tail _ hfine hedit ih => exact editDirectory_ends ih hfine hedit

/-! ### A last block past a hole -/

-- sixteen names of two bytes, after `.` and `..` in the first block
def sixteen (db : ℕ) : List (ℕ × Entry) :=
  (if db = 0 then [(64, ⟨Names.dot, 128, 2⟩), (80, ⟨dotDot, 64, 2⟩)] else []) ++
    (List.range 16).map fun i => (96 + 16 * i, ⟨[UInt8.ofNat (db + 1), UInt8.ofNat (i + 65)], 200, 1⟩)

theorem oneBlock_pos : 0 < 4096 * 1 := by decide

/-- A directory of 722 names, more than one leaf of 504 records can index: its last two blocks have one
name each. -/
def wide : DirBlocks where
  ino := 128
  blocksize := 4096
  per := 1
  blocks := numbered ((List.range 45).map sixteen ++ [[(64, ⟨[97], 131, 1⟩)], [(64, ⟨[98], 132, 8⟩)]])
  leaves := 3
  frees := 1
  size := 192512
  pos := oneBlock_pos

def wideAnswers : Answers where
  find := fun name => .ok (if name = [97] then some (45, 64) else if name = [98] then some (46, 64) else none)
  roomFor := fun _ => .ok (some 46)
  add := .ok ()
  release := .ok ()
  indexInsert := .ok 0
  indexRemove := .ok 3
  setBest := .ok 1

def wideRemove (name : List UInt8) : List Edited :=
  [⟨.remove name, wideAnswers, wideAnswers⟩]

def wideLaying : Laying :=
  ⟨.ok false, .ok ()⟩

theorem wide_ends : wide.Ends :=
  ⟨46, by decide, rfl, by decide⟩

theorem wide_last_removed : ∃ d', wide.editDirectory (wideRemove [98]) wideLaying = .ok d' ∧
    (d'.Ends ↔ ¬wide.Strands wideAnswers wideLaying [98]) := by
  refine ⟨_, rfl, ?_⟩
  exact (edits_end_iff wide_ends).2 wideAnswers wideAnswers wideLaying [98] _ rfl rfl

/-- Emptied from the front, the last two blocks leave the directory ending in a hole, with 722 entries. -/
theorem wide_emptied : ∃ d₁ d₂, wide.editDirectory (wideRemove [97]) wideLaying = .ok d₁ ∧
    d₁.editDirectory (wideRemove [98]) wideLaying = .ok d₂ ∧ d₁.Ends ∧ d₂.blocks.keys = List.range 45 ∧
      (d₂.blocks.entries.map fun b => b.2.length).sum = 722 ∧ d₂.size = 188416 ∧ ¬d₂.Ends := by
  refine ⟨_, _, rfl, rfl, ⟨46, by decide, rfl, by decide⟩, by decide, by decide, rfl, ?_⟩
  rintro ⟨db, hdb, hsize, -⟩
  have hlt : db ∈ List.range 45 := AList.mem_keys.mp hdb
  have hsize : 188416 = (db + 1) * 4096 := hsize
  have := List.mem_range.mp hlt
  omega

end DirBlocks

end FsXfs.Edits
