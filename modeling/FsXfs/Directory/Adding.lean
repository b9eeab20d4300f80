import FsXfs.Directory.LayOut

/-!
# A name added to a directory past its inode

`create`, `link` and `rename` all change such a directory through `edit_directory`, and each accounts
for what it is left with: `di_nblocks` becomes the blocks of its new layout, which is no more than the
directory's own blocks and those of its map, and the difference is charged to its quota. `create` takes
the difference as a `u64`; the others take it with a sign, bound the number of extents, and look the name
up in the hash index before they change anything.
-/

namespace FsXfs.Edits

set_option autoImplicit false

/-- `dir_edit::Rewritten`, as far as it is accounted for. -/
structure Rewritten where
  blocks : ℕ
  nextents : ℕ
  deriving DecidableEq, Repr

/-- What adding an entry is answered: by the indexes and the allocator, and by `map_data_fork` with the
extents the blocks make and the blocks of their tree. -/
structure Env where
  ans : Answers
  lay : Laying
  extents : ℕ
  treeBlocks : Except Error ℕ

namespace DirBlocks

def count (d : DirBlocks) : ℕ :=
  d.blocks.keys.length + d.leaves + d.frees

def finish (d : DirBlocks) (env : Env) : Except Error Rewritten := do
  let treeBlocks ← env.treeBlocks
  pure ⟨d.count * d.per + treeBlocks, env.extents⟩

def adding (d : DirBlocks) (env : Env) (entry : Entry) : Except Error DirBlocks :=
  d.editDirectory [⟨.add entry, env.ans, env.ans⟩] env.lay

/-- How many blocks the directory takes with an entry more: those `lay_out` wants for its entries, or
those it has and what the addition takes. -/
inductive Needs (d : DirBlocks) (env : Env) (entry : Entry) : ℕ → Prop
  | whole {l : List Entry} {groups : List (List Entry)} {leaves frees : ℕ} : d.isNode = false →
    d.entries = .ok l → d.groups (l ++ [entry]) = .ok groups →
    d.indexes (l ++ [entry]) groups.length = .ok (leaves, frees) →
    Needs d env entry (groups.length + leaves + frees)
  | again {d₁ : DirBlocks} {l : List Entry} {groups : List (List Entry)} {leaves frees : ℕ} :
    d.isNode = true → d.addEntry env.ans entry = .ok d₁ → d₁.fitsLeafForm env.lay = .ok (some l) →
    d₁.groups l = .ok groups → d₁.indexes l groups.length = .ok (leaves, frees) →
    Needs d env entry (groups.length + leaves + frees)
  | inPlace {d₁ : DirBlocks} {room : Option ℕ} {taken frees : ℕ} : d.isNode = true →
    d.addEntry env.ans entry = .ok d₁ → d₁.fitsLeafForm env.lay = .ok none →
    env.ans.roomFor (entrySize entry.name.length) = .ok room → env.ans.indexInsert = .ok taken →
    env.ans.setBest = .ok frees →
    Needs d env entry
      (d.blocks.keys.length + (if room.isSome then 0 else 1) + (d.leaves + taken) + frees)

variable {d d' d₁ : DirBlocks} {env : Env} {entry : Entry}

theorem adding_cases (h : d.adding env entry = .ok d') :
    (d.isNode = true ∧ ∃ d₁, d.addEntry env.ans entry = .ok d₁ ∧
      ((∃ l, d₁.fitsLeafForm env.lay = .ok (some l) ∧ d₁.layOut env.lay l = .ok d') ∨
        d₁.fitsLeafForm env.lay = .ok none ∧ d' = d₁)) ∨
    (d.isNode = false ∧ ∃ l, d.entries = .ok l ∧ d.layOut env.lay (l ++ [entry]) = .ok d') := by
  obtain ⟨hnode, d₁, hd₁, hlaid⟩ | ⟨hwhole, l, l', hl, hl', hlaid⟩ := editDirectory_cases h
  · obtain ⟨d₂, hadd, hd₂⟩ := bind_eq_ok.mp hd₁
    obtain rfl := Except.ok.inj hd₂
    exact .inl ⟨hnode, d₂, hadd, hlaid⟩
  · obtain ⟨l₂, hadd, hl₂⟩ := bind_eq_ok.mp hl'
    obtain rfl := Except.ok.inj hl₂
    obtain ⟨_, -, hadd⟩ := bind_eq_ok.mp hadd
    obtain rfl := Except.ok.inj hadd
    exact .inr ⟨hwhole, l, hl, hlaid⟩

theorem count_layOut {l : List Entry} {groups : List (List Entry)} {leaves frees : ℕ}
    (h : d.layOut env.lay l = .ok d') (hgroups : d.groups l = .ok groups)
    (hindexes : d.indexes l groups.length = .ok (leaves, frees)) :
    d'.count = groups.length + leaves + frees := by
  obtain ⟨groups', leaves', frees', blocks, hgroups', hindexes', hblocks, rfl⟩ := layOut_spec h
  obtain rfl := Except.ok.inj (hgroups.symm.trans hgroups')
  obtain ⟨rfl, rfl⟩ := Prod.mk.inj (Except.ok.inj (hindexes.symm.trans hindexes'))
  have hlen : blocks.length = groups.length := by
    rw [(mapM_eq_ok hblocks).1, List.length_zipIdx]
  rw [← hlen]
  simp [count, numbered, AList.keys, List.keys]

theorem length_insert_of_mem {d : DirBlocks} {db : ℕ} {block : List (ℕ × Entry)} (h : db ∈ d.blocks) :
    (d.blocks.insert db block).keys.length = d.blocks.keys.length := by
  have hmem : db ∈ d.blocks.keys := AList.mem_keys.mp h
  rw [AList.keys_insert, List.length_cons, List.length_erase_of_mem hmem]
  have := List.length_pos_of_mem hmem
  omega

theorem count_addEntry {room : Option ℕ} {taken frees : ℕ} (h : d.addEntry env.ans entry = .ok d₁)
    (hroom : env.ans.roomFor (entrySize entry.name.length) = .ok room)
    (htaken : env.ans.indexInsert = .ok taken) (hfrees : env.ans.setBest = .ok frees) :
    d₁.count = d.blocks.keys.length + (if room.isSome then 0 else 1) + (d.leaves + taken) + frees := by
  obtain ⟨db, d₂, d₃, entries, offset, taken', frees', hlanding, hentries, hput, htaken', hfrees', rfl⟩ :=
    addEntry_spec h
  obtain rfl := Except.ok.inj (htaken.symm.trans htaken')
  obtain rfl := Except.ok.inj (hfrees.symm.trans hfrees')
  have hkeys : d₃.blocks.keys.length = d₂.blocks.keys.length := by
    rw [putBlock_spec hput]
    exact length_insert_of_mem (mem_of_dataEntries hentries)
  have hland : d₂.blocks.keys.length = d.blocks.keys.length + if room.isSome then 0 else 1 := by
    obtain ⟨room', hroom', hlanding⟩ := bind_eq_ok.mp hlanding
    obtain rfl := Except.ok.inj (hroom.symm.trans hroom')
    cases room with
    | some db' =>
      rw [← (Prod.mk.inj (Except.ok.inj hlanding)).2]
      rfl
    | none =>
      obtain ⟨_, -, hlanding⟩ := bind_eq_ok.mp hlanding
      obtain ⟨_, -, hlanding⟩ := bind_eq_ok.mp hlanding
      rw [← (Prod.mk.inj (Except.ok.inj hlanding)).2]
      have hnew : d.firstHole ∉ d.blocks.keys := fun hmem => (firstHole_spec d).1 (AList.mem_keys.mpr hmem)
      rw [AList.keys_insert, List.length_cons, List.erase_of_not_mem hnew]
      rfl
  show d₃.blocks.keys.length + (d.leaves + taken) + frees = _
  rw [hkeys, hland]

theorem Needs.eq_count {n : ℕ} (hn : d.Needs env entry n) (h : d.adding env entry = .ok d') :
    n = d'.count := by
  obtain ⟨hnode, d₁, hd₁, hlaid⟩ | ⟨hwhole, l, hl, hlaid⟩ := adding_cases h
  · cases hn with
    | whole hwhole => exact absurd (hnode.symm.trans hwhole) (by simp)
    | again _ hd₂ hsmall hgroups hindexes =>
      obtain rfl := Except.ok.inj (hd₁.symm.trans hd₂)
      rcases hlaid with ⟨l', hsmall', hlaid⟩ | ⟨hpast, -⟩
      · obtain rfl := Option.some.inj (Except.ok.inj (hsmall.symm.trans hsmall'))
        exact (count_layOut hlaid hgroups hindexes).symm
      · exact absurd (hpast.symm.trans hsmall) (by simp)
    | inPlace _ hd₂ hpast hroom htaken hfrees =>
      obtain rfl := Except.ok.inj (hd₁.symm.trans hd₂)
      rcases hlaid with ⟨l', hsmall, -⟩ | ⟨-, rfl⟩
      · exact absurd (hpast.symm.trans hsmall) (by simp)
      · exact (count_addEntry hd₁ hroom htaken hfrees).symm
  · cases hn with
    | whole _ hl' hgroups hindexes =>
      obtain rfl := Except.ok.inj (hl.symm.trans hl')
      exact (count_layOut hlaid hgroups hindexes).symm
    | again hnode => exact absurd (hnode.symm.trans hwhole) (by simp)
    | inPlace hnode => exact absurd (hnode.symm.trans hwhole) (by simp)

theorem needs_count (h : d.adding env entry = .ok d') : d.Needs env entry d'.count := by
  obtain ⟨hnode, d₁, hd₁, ⟨l, hsmall, hlaid⟩ | ⟨hpast, rfl⟩⟩ | ⟨hwhole, l, hl, hlaid⟩ := adding_cases h
  · obtain ⟨groups, leaves, frees, -, hgroups, hindexes, -, -⟩ := layOut_spec hlaid
    rw [count_layOut hlaid hgroups hindexes]
    exact .again hnode hd₁ hsmall hgroups hindexes
  · obtain ⟨db, _, _, _, _, taken, frees, hlanding, -, -, htaken, hfrees, -⟩ := addEntry_spec hd₁
    obtain ⟨room, hroom, -⟩ := bind_eq_ok.mp hlanding
    rw [count_addEntry hd₁ hroom htaken hfrees]
    exact .inPlace hnode hd₁ hpast hroom htaken hfrees
  · obtain ⟨groups, leaves, frees, -, hgroups, hindexes, -, -⟩ := layOut_spec hlaid
    rw [count_layOut hlaid hgroups hindexes]
    exact .whole hwhole hl hgroups hindexes

theorem per_addEntry (h : d.addEntry env.ans entry = .ok d₁) : d₁.per = d.per := by
  obtain ⟨db, d₂, d₃, _, _, _, _, hlanding, -, hput, -, -, rfl⟩ := addEntry_spec h
  have hland : d₂.per = d.per := by
    obtain ⟨room, -, hlanding⟩ := bind_eq_ok.mp hlanding
    cases room with
    | some db' => rw [← (Prod.mk.inj (Except.ok.inj hlanding)).2]
    | none =>
      obtain ⟨_, -, hlanding⟩ := bind_eq_ok.mp hlanding
      obtain ⟨_, -, hlanding⟩ := bind_eq_ok.mp hlanding
      rw [← (Prod.mk.inj (Except.ok.inj hlanding)).2]
  rw [← hland, putBlock_spec hput]
  rfl

theorem per_layOut {l : List Entry} (h : d.layOut env.lay l = .ok d') : d'.per = d.per := by
  obtain ⟨_, _, _, _, -, -, -, rfl⟩ := layOut_spec h
  rfl

theorem per_adding (h : d.adding env entry = .ok d') : d'.per = d.per := by
  obtain ⟨-, d₁, hd₁, ⟨l, -, hlaid⟩ | ⟨-, rfl⟩⟩ | ⟨-, l, -, hlaid⟩ := adding_cases h
  · rw [per_layOut hlaid, per_addEntry hd₁]
  · exact per_addEntry hd₁
  · exact per_layOut hlaid

end DirBlocks

/-! ## The three callers -/

/-- A directory past its inode, with what `entry_ino` finds in it. -/
structure Parent where
  dir : DirBlocks
  nblocks : ℕ
  nrext64 : Bool
  entryIno : List UInt8 → Except Error (Option ℕ)

/-- `accounting_items`, which skips a change of nothing; `charge` is what the quota records answer. -/
def account (charge : ℤ → Except Error Unit) (blocksFs : ℤ) : Except Error Unit :=
  if blocksFs = 0 then pure () else charge blocksFs

namespace Parent

section

variable (p : Parent) (env : Env) (charge : ℤ → Except Error Unit) (entry : Entry)

def editDirectory : Except Error Rewritten := do
  let d' ← p.dir.adding env entry
  d'.finish env

def create : Except Error Unit := do
  let rw ← p.editDirectory env entry
  ensure (p.nblocks ≤ rw.blocks ∧ rw.blocks - p.nblocks < 2 ^ 63)
    (.unsupportedFeature "quota block delta overflowed")
  account charge (rw.blocks - p.nblocks : ℕ)

/-- `link`, and `rename` into the directory: `change_directory` and `core_after`. -/
def link : Except Error Unit := do
  ensure ((← p.entryIno entry.name) = none) .alreadyExists
  let rw ← p.editDirectory env entry
  ensure (p.nrext64 = true ∨ rw.nextents < 2 ^ 32)
    (.unsupportedFeature "an extent count past 32 bits")
  account charge (((rw.blocks : ℤ) - p.nblocks).bmod (2 ^ 64))

/-- The name is added on every path or on none, whatever the quota allows; and with quota off, whenever
the directory can be laid out with it. -/
structure Alike : Prop where
  same : ∀ charge, p.create env charge entry = .ok () ↔ p.link env charge entry = .ok ()
  off : ∀ rw, p.editDirectory env entry = .ok rw → p.create env (fun _ => .ok ()) entry = .ok ()

/-- Where the directory can take the name, the hash index does not have it, the directory needs no fewer
blocks than `di_nblocks` says, and its extents can be counted. -/
structure Keeps : Prop where
  absent : p.entryIno entry.name = .ok none
  blocks : ∀ n treeBlocks, p.dir.Needs env entry n → env.treeBlocks = .ok treeBlocks →
    p.nblocks ≤ n * p.dir.per + treeBlocks ∧ n * p.dir.per + treeBlocks - p.nblocks < 2 ^ 63
  counted : p.nrext64 = true ∨ env.extents < 2 ^ 32

end

variable {p : Parent} {env : Env} {charge : ℤ → Except Error Unit} {entry : Entry} {rw : Rewritten}

theorem create_eq_ok : p.create env charge entry = .ok () ↔ ∃ rw, p.editDirectory env entry = .ok rw ∧
    (p.nblocks ≤ rw.blocks ∧ rw.blocks - p.nblocks < 2 ^ 63) ∧
      account charge (rw.blocks - p.nblocks : ℕ) = .ok () := by
  simp only [create, bind_eq_ok, ensure_eq_ok, exists_and_left, exists_const]

theorem link_eq_ok : p.link env charge entry = .ok () ↔ p.entryIno entry.name = .ok none ∧
    ∃ rw, p.editDirectory env entry = .ok rw ∧ (p.nrext64 = true ∨ rw.nextents < 2 ^ 32) ∧
      account charge (((rw.blocks : ℤ) - p.nblocks).bmod (2 ^ 64)) = .ok () := by
  simp only [link, bind_eq_ok, ensure_eq_ok, exists_and_left, exists_const]
  constructor
  · rintro ⟨_, habsent, rfl, h⟩
    exact ⟨habsent, h⟩
  · rintro ⟨habsent, h⟩
    exact ⟨none, habsent, rfl, h⟩

theorem account_off (blocksFs : ℤ) : account (fun _ => .ok ()) blocksFs = .ok () := by
  unfold account
  split <;> rfl

theorem delta_eq {blocks nblocks : ℕ} (hle : nblocks ≤ blocks) (hlt : blocks - nblocks < 2 ^ 63) :
    ((blocks : ℤ) - nblocks).bmod (2 ^ 64) = (blocks - nblocks : ℕ) := by
  rw [Nat.cast_sub hle]
  exact Int.bmod_eq_of_le (by omega) (by omega)

/-- What is accounted for is what the directory needs. -/
theorem editDirectory_needs (h : p.editDirectory env entry = .ok rw) :
    rw.nextents = env.extents ∧ ∃ n treeBlocks, env.treeBlocks = .ok treeBlocks ∧
      rw.blocks = n * p.dir.per + treeBlocks ∧ ∀ m, p.dir.Needs env entry m ↔ m = n := by
  obtain ⟨d', hd', h⟩ := bind_eq_ok.mp h
  obtain ⟨treeBlocks, htree, h⟩ := bind_eq_ok.mp h
  cases h
  refine ⟨rfl, d'.count, treeBlocks, htree, by rw [DirBlocks.per_adding hd'], fun m => ?_⟩
  exact ⟨fun hm => hm.eq_count hd', fun hm => hm ▸ DirBlocks.needs_count hd'⟩

/-- An empty directory of one block, which an attribute keeps a second block for. -/
def withAttribute : Parent where
  dir := {
    ino := 131
    blocksize := 4096
    per := 1
    blocks := numbered [[(64, ⟨Names.dot, 131, 2⟩), (80, ⟨Names.dotDot, 128, 2⟩)]]
    leaves := 0
    frees := 0
    size := 4096
    pos := DirBlocks.oneBlock_pos }
  nblocks := 2
  nrext64 := false
  entryIno := fun _ => .ok none

def oneExtent : Env where
  ans := DirBlocks.wideAnswers
  lay := ⟨.ok true, .ok ()⟩
  extents := 1
  treeBlocks := .ok 0

end Parent

end FsXfs.Edits
