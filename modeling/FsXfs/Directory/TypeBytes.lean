import FsXfs.Directory.LayOut

/-!
# Type bytes through edits

`ftype_to_raw` undoes `ftype_from_raw` except at a whiteout's byte, which is read as no type. So the byte
of an entry an edit is not about is lost where the entry is a whiteout's and is written again: with its
data block in node form, and with the whole directory in every other.

The names themselves are edited as `Names.Directory.editLocal` and `editNode` have it.
-/

namespace FsXfs.Edits

open Names (dotDot)

set_option autoImplicit false

/-! ## In place -/

/-- An edit gives an entry of that name its place or its number. -/
def DirEdit.Gives (name : List UInt8) : DirEdit → Prop
  | .remove _ => False
  | .add entry => name = entry.name
  | .reparent _ => name = dotDot
  | .rename _ to_ => name = to_

namespace DirBlocks

section

variable (d : DirBlocks) (ans again : Answers)

/-- An edit takes out the entry at an offset of a data block. -/
def Takes (k o : ℕ) : DirEdit → Prop
  | .remove name | .rename name _ => d.find ans name = .ok (some (k, o))
  | _ => False

/-- An edit writes a data block again. -/
def Rewrites (k : ℕ) : DirEdit → Prop
  | .remove name => ∃ offset, d.find ans name = .ok (some (k, offset))
  | .add entry => ∃ d₁, d.landing ans (entrySize entry.name.length) = .ok (k, d₁)
  | .reparent _ => k = 0
  | .rename from_ to_ => (∃ offset, d.find ans from_ = .ok (some (k, offset))) ∨
    ∃ d₁ d₂, d.removeEntry ans from_ = .ok d₁ ∧ d₁.landing again (entrySize to_.length) = .ok (k, d₂)

end

def TakenBy : DirBlocks → List Edited → ℕ → ℕ → Prop
  | _, [], _, _ => False
  | d, e :: rest, k, o => d.Takes e.ans k o e.edit ∨ ∃ d₁, d.apply e = .ok d₁ ∧ d₁.TakenBy rest k o

def RewrittenBy : DirBlocks → List Edited → ℕ → Prop
  | _, [], _ => False
  | d, e :: rest, k =>
    d.Rewrites e.ans e.again k e.edit ∨ ∃ d₁, d.apply e = .ok d₁ ∧ d₁.RewrittenBy rest k

variable {d d' : DirBlocks} {ans again : Answers} {db k o : ℕ} {x : Entry} {entries L : List (ℕ × Entry)}

theorem has_put (h : d.putBlock db L = .ok d') :
    d'.Has k o x ↔ if k = db then (o, x) ∈ L else d.Has k o x := by
  rw [putBlock_spec h]
  unfold Has
  split
  next hk =>
    subst hk
    simp only [AList.lookup_insert, Option.some.injEq, exists_eq_left']
  next hk => simp only [AList.lookup_insert_ne hk]

theorem Has.put (hx : d.Has k o x) (h : d.dataEntries db = .ok entries) (hput : d.putBlock db L = .ok d')
    (hne : x.ftype ≠ whiteout) (hL : k = db → (o, x) ∈ entries → (o, x) ∈ L) : d'.Has k o x := by
  rw [has_put hput]
  split
  next hk =>
    subst hk
    exact hL rfl ((hx.mem_iff h).mpr hne)
  next => exact hx

theorem whiteout_put (h : d.dataEntries db = .ok entries) (hput : d.putBlock db L = .ok d')
    (hwhiteout : x.ftype = whiteout) (hL : (o, x) ∈ L → (o, x) ∈ entries) :
    d'.Has k o x ↔ d.Has k o x ∧ ¬k = db := by
  rw [has_put hput]
  split
  next hk =>
    refine iff_of_false (fun hmem => ?_) fun hboth => hboth.2 hk
    exact ne_whiteout_of_mem h (hL hmem) hwhiteout
  next hk => rw [and_iff_left hk]

section

variable {name : List UInt8}

theorem removeEntry_keeps (h : d.removeEntry ans name = .ok d') (hx : d.Has k o x)
    (hne : x.ftype ≠ whiteout) (hname : d.find ans name ≠ .ok (some (k, o))) : d'.Has k o x := by
  obtain ⟨db, offset, entries, leaves, frees, hfind, hentries, hd'⟩ := removeEntry_spec h
  have hother : k = db → o ≠ offset := by
    rintro rfl rfl
    exact hname hfind
  split at hd'
  next hempty =>
    subst hd'
    obtain ⟨block, hblock, hmem⟩ := hx
    have hk : k ≠ db := by
      intro hk
      obtain ⟨block', hblock', hread⟩ := dataEntries_spec hentries
      obtain rfl := Option.some.inj (hblock.symm.trans (hk ▸ hblock'))
      exact hother hk ((emptied_iff hread).mp hempty.1 _ hmem)
    exact ⟨block, (AList.lookup_erase_ne hk).trans hblock, hmem⟩
  next =>
    obtain ⟨d₁, hput, rfl⟩ := hd'
    refine has_indexed.mpr (hx.put hentries hput hne fun hk hmem => ?_)
    exact List.mem_filter.mpr ⟨hmem, by simpa using hother hk⟩

theorem removeEntry_whiteout (h : d.removeEntry ans name = .ok d') (hwhiteout : x.ftype = whiteout) :
    d'.Has k o x ↔ d.Has k o x ∧ ¬∃ offset, d.find ans name = .ok (some (k, offset)) := by
  obtain ⟨db, offset, entries, leaves, frees, hfind, hentries, hd'⟩ := removeEntry_spec h
  have hplace : (∃ offset, d.find ans name = .ok (some (k, offset))) ↔ k = db := by
    rw [hfind]
    simp [eq_comm]
  rw [hplace]
  split at hd'
  next =>
    subst hd'
    unfold Has
    by_cases hk : k = db
    · subst hk
      simp
    · simp [AList.lookup_erase_ne hk, hk]
  next =>
    obtain ⟨d₁, hput, rfl⟩ := hd'
    rw [has_indexed]
    exact whiteout_put hentries hput hwhiteout List.mem_of_mem_filter

end

theorem has_landing {size : ℕ} (h : d.landing ans size = .ok (db, d')) : d'.Has k o x ↔ d.Has k o x := by
  obtain ⟨room, -, h⟩ := bind_eq_ok.mp h
  cases room with
  | some db' => rw [(Prod.mk.inj (Except.ok.inj h)).2]
  | none =>
    obtain ⟨_, -, h⟩ := bind_eq_ok.mp h
    obtain ⟨_, -, h⟩ := bind_eq_ok.mp h
    cases h
    unfold Has
    by_cases hk : k = d.firstHole
    · have hnone : d.blocks.lookup k = none := AList.lookup_eq_none.mpr (hk ▸ (firstHole_spec d).1)
      rw [hnone, hk, AList.lookup_insert]
      simp
    · simp only [AList.lookup_insert_ne hk]

section

variable {entry : Entry}

theorem addEntry_keeps (h : d.addEntry ans entry = .ok d') (hx : d.Has k o x)
    (hne : x.ftype ≠ whiteout) : d'.Has k o x := by
  obtain ⟨db, d₁, d₂, entries, offset, taken, frees, hlanding, hentries, hput, -, -, rfl⟩ :=
    addEntry_spec h
  refine has_indexed.mpr (((has_landing hlanding).mpr hx).put hentries hput hne fun _ hmem => ?_)
  exact List.mem_append_left _ hmem

theorem addEntry_whiteout (h : d.addEntry ans entry = .ok d') (hwhiteout : x.ftype = whiteout)
    (hname : x.name ≠ entry.name) : d'.Has k o x ↔
      d.Has k o x ∧ ¬∃ d₁, d.landing ans (entrySize entry.name.length) = .ok (k, d₁) := by
  obtain ⟨db, d₁, d₂, entries, offset, taken, frees, hlanding, hentries, hput, -, -, rfl⟩ :=
    addEntry_spec h
  have hplace : (∃ d₁, d.landing ans (entrySize entry.name.length) = .ok (k, d₁)) ↔ k = db := by
    rw [hlanding]
    simp [eq_comm]
  rw [has_indexed, hplace, whiteout_put hentries hput hwhiteout, has_landing hlanding]
  intro hmem
  refine (List.mem_append.mp hmem).resolve_right fun hlast => hname ?_
  exact congrArg (fun p => p.2.name) (List.mem_singleton.mp hlast)

end

theorem mem_pointTo {parent : ℕ} (hx : x.name ≠ dotDot) :
    (o, x) ∈ pointTo parent entries ↔ (o, x) ∈ entries := by
  induction entries with
  | nil => rfl
  | cons p rest ih =>
    rw [pointTo]
    split
    next hp =>
      rw [List.mem_cons, List.mem_cons]
      refine or_congr_left (iff_of_false ?_ ?_)
      · intro heq
        exact hx ((congrArg (fun p => p.2.name) heq).trans hp)
      · rintro rfl
        exact hx hp
    next => rw [List.mem_cons, List.mem_cons, ih]

variable {e : DirEdit}

theorem edit_keeps (h : d.edit ans again e = .ok d') (hx : d.Has k o x) (hne : x.ftype ≠ whiteout)
    (hgives : ¬e.Gives x.name) (htakes : ¬d.Takes ans k o e) : d'.Has k o x := by
  cases e with
  | remove name => exact removeEntry_keeps h hx hne htakes
  | add entry => exact addEntry_keeps h hx hne
  | reparent parent =>
    obtain ⟨entries, hentries, h⟩ := bind_eq_ok.mp h
    obtain ⟨_, -, h⟩ := bind_eq_ok.mp h
    exact hx.put hentries h hne fun _ hmem => (mem_pointTo hgives).mpr hmem
  | rename from_ to_ =>
    obtain ⟨d₁, moved, hd₁, h⟩ := edit_rename_spec h
    exact addEntry_keeps h (removeEntry_keeps hd₁ hx hne htakes) hne

theorem edit_whiteout (h : d.edit ans again e = .ok d') (hwhiteout : x.ftype = whiteout)
    (hgives : ¬e.Gives x.name) : d'.Has k o x ↔ d.Has k o x ∧ ¬d.Rewrites ans again k e := by
  cases e with
  | remove name => exact removeEntry_whiteout h hwhiteout
  | add entry => exact addEntry_whiteout h hwhiteout hgives
  | reparent parent =>
    obtain ⟨entries, hentries, h⟩ := bind_eq_ok.mp h
    obtain ⟨_, -, h⟩ := bind_eq_ok.mp h
    exact whiteout_put hentries h hwhiteout (mem_pointTo hgives).mp
  | rename from_ to_ =>
    obtain ⟨d₁, moved, hd₁, h⟩ := edit_rename_spec h
    rw [addEntry_whiteout h hwhiteout hgives, removeEntry_whiteout hd₁ hwhiteout, and_assoc, ← not_or,
      Rewrites, hd₁]
    simp

variable {edits : List Edited}

theorem edits_keep (h : edits.foldlM apply d = .ok d') (hx : d.Has k o x) (hne : x.ftype ≠ whiteout)
    (hgives : ∀ e ∈ edits, ¬e.edit.Gives x.name) (htaken : ¬d.TakenBy edits k o) : d'.Has k o x := by
  induction edits generalizing d with
  | nil =>
    cases h
    exact hx
  | cons e rest ih =>
    obtain ⟨mid, hmid, h⟩ := bind_eq_ok.mp h
    obtain ⟨htakes, hlater⟩ := not_or.mp htaken
    refine ih h (edit_keeps hmid hx hne (hgives e List.mem_cons_self) htakes)
      (fun e' he' => hgives e' (List.mem_cons_of_mem _ he')) fun hrest => hlater ⟨mid, hmid, hrest⟩

theorem edits_whiteout (h : edits.foldlM apply d = .ok d') (hwhiteout : x.ftype = whiteout)
    (hgives : ∀ e ∈ edits, ¬e.edit.Gives x.name) :
    d'.Has k o x ↔ d.Has k o x ∧ ¬d.RewrittenBy edits k := by
  induction edits generalizing d with
  | nil =>
    cases h
    rw [RewrittenBy, and_iff_left not_false]
  | cons e rest ih =>
    obtain ⟨mid, hmid, h⟩ := bind_eq_ok.mp h
    have hlater : (∃ d₁, d.apply e = .ok d₁ ∧ d₁.RewrittenBy rest k) ↔ mid.RewrittenBy rest k := by
      rw [hmid]
      simp
    rw [ih h fun e' he' => hgives e' (List.mem_cons_of_mem _ he'), RewrittenBy, hlater, not_or,
      ← and_assoc, ← edit_whiteout hmid hwhiteout (hgives e List.mem_cons_self)]

end DirBlocks

/-! ## In lists of entries -/

/-- An edit is about an entry: by its name, or as the second of a list, which is `..`. -/
def Touches (l : List Entry) (x : Entry) : DirEdit → Prop
  | .remove name => x.name = name
  | .add entry => x.name = entry.name
  | .reparent _ => l[1]? = some x
  | .rename from_ to_ => x.name = from_ ∨ x.name = to_

def TouchedBy (x : Entry) : List Entry → List DirEdit → Prop
  | _, [] => False
  | l, e :: rest => Touches l x e ∨ ∃ l', editEntries l e = .ok l' ∧ TouchedBy x l' rest

/-- No entry of the name is a whiteout's. -/
def Plain (x : Entry) (l : List Entry) : Prop :=
  ∀ y ∈ l, y.name = x.name → y.ftype ≠ whiteout

section

variable {x : Entry} {l l' : List Entry} {e : DirEdit}

theorem editEntries_keeps (h : editEntries l e = .ok l') (hx : x ∈ l) (ht : ¬Touches l x e) : x ∈ l' := by
  cases e with
  | remove name =>
    obtain ⟨_, -, h⟩ := bind_eq_ok.mp h
    rw [← Except.ok.inj h]
    exact List.mem_filter.mpr ⟨hx, decide_eq_true ht⟩
  | add entry =>
    obtain ⟨_, -, h⟩ := bind_eq_ok.mp h
    rw [← Except.ok.inj h]
    exact List.mem_append_left _ hx
  | reparent parent =>
    rw [← Except.ok.inj h]
    obtain ⟨i, hi⟩ := List.mem_iff_getElem?.mp hx
    have hne : 1 ≠ i := by
      rintro rfl
      exact ht hi
    refine List.mem_of_getElem? (i := i) ?_
    rw [List.getElem?_modify_ne _ _ hne, hi]
  | rename from_ to_ =>
    obtain ⟨hfrom, -⟩ := not_or.mp ht
    obtain ⟨_, -, h⟩ := bind_eq_ok.mp h
    obtain ⟨moved, -, h⟩ := bind_eq_ok.mp h
    rw [← Except.ok.inj h]
    refine List.mem_append_left _ (List.mem_append.mpr ?_)
    rw [List.mem_eraseP_of_neg (by simpa using hfrom), ← List.mem_append, List.take_append_drop]
    exact hx

theorem Plain.edit (h : editEntries l e = .ok l') (hl : Plain x l) (ht : ¬Touches l x e) : Plain x l' := by
  intro y hy hname
  cases e with
  | remove name =>
    obtain ⟨_, -, h⟩ := bind_eq_ok.mp h
    rw [← Except.ok.inj h] at hy
    exact hl y (List.mem_of_mem_filter hy) hname
  | add entry =>
    obtain ⟨_, -, h⟩ := bind_eq_ok.mp h
    rw [← Except.ok.inj h] at hy
    rcases List.mem_append.mp hy with hy | hy
    · exact hl y hy hname
    · exact absurd (List.mem_singleton.mp hy ▸ hname).symm ht
  | reparent parent =>
    rw [← Except.ok.inj h] at hy
    obtain ⟨i, hi⟩ := List.mem_iff_getElem?.mp hy
    rw [List.getElem?_modify] at hi
    obtain ⟨z, hz, rfl⟩ := Option.map_eq_some_iff.mp hi
    have hplain := hl z (List.mem_of_getElem? hz)
    split
    next heq =>
      rw [if_pos heq] at hname
      exact hplain hname
    next hne =>
      rw [if_neg hne] at hname
      exact hplain hname
  | rename from_ to_ =>
    obtain ⟨-, hto⟩ := not_or.mp ht
    obtain ⟨_, -, h⟩ := bind_eq_ok.mp h
    obtain ⟨moved, -, h⟩ := bind_eq_ok.mp h
    rw [← Except.ok.inj h] at hy
    rcases List.mem_append.mp hy with hy | hy
    · rcases List.mem_append.mp hy with hy | hy
      · exact hl y (List.mem_of_mem_take hy) hname
      · exact hl y (List.mem_of_mem_drop (List.mem_of_mem_eraseP hy)) hname
    · exact absurd (List.mem_singleton.mp hy ▸ hname).symm hto

theorem mem_edited {es : List DirEdit} (h : es.foldlM editEntries l = .ok l') (ht : ¬TouchedBy x l es) :
    (x ∈ l → x ∈ l') ∧ (Plain x l → Plain x l') := by
  induction es generalizing l with
  | nil =>
    cases h
    exact ⟨id, id⟩
  | cons e rest ih =>
    obtain ⟨mid, hmid, h⟩ := bind_eq_ok.mp h
    obtain ⟨htouches, hlater⟩ := not_or.mp ht
    obtain ⟨hkeep, hplain⟩ := ih h fun hrest => hlater ⟨mid, hmid, hrest⟩
    exact ⟨fun hx => hkeep (editEntries_keeps hmid hx htouches),
      fun hl => hplain (hl.edit hmid htouches)⟩

end

/-! ## In the inode -/

def renamed (from_ to_ : List UInt8) (e : Entry) : Entry :=
  if e.name = from_ then { e with name := to_ } else e

-- `change_directory`, whose `..` is not one of the entries
def editShort (entries : List Entry) : DirEdit → List Entry
  | .remove name => entries.filter fun e => e.name ≠ name
  | .add entry => entries ++ [entry]
  | .reparent _ => entries
  | .rename from_ to_ => entries.map (renamed from_ to_)

theorem editLocal_map_toName (parent : ℕ) (l : List Entry) (e : DirEdit) :
    (Names.Directory.editLocal ⟨parent, l.map Entry.toName⟩ e.toNames).entries =
      (editShort l e).map Entry.toName := by
  cases e with
  | remove name =>
    change (l.map Entry.toName).filter (fun e => e.name ≠ name) = _
    rw [List.filter_map]
    rfl
  | add entry =>
    change _ = (l ++ [entry]).map Entry.toName
    rw [List.map_append]
    rfl
  | reparent => rfl
  | rename from_ to_ =>
    refine (List.map_map ..).trans (Eq.trans ?_ (List.map_map ..).symm)
    refine List.map_congr_left fun x _ => ?_
    change (if x.name = from_ then _ else _) = (renamed from_ to_ x).toName
    rw [renamed]
    split <;> rfl

/-- What writes the entries of a directory in its inode again. -/
inductive Writer where
  | edits (es : List DirEdit)
  -- `short_form_with_entry` and `convert_to_block_form`, `short_form_without_entry`
  | withEntry (entry : Entry)
  | withoutEntry (name : List UInt8)
  | afterRename (from_ to_ : List UInt8)

namespace Writer

def change (entries : List Entry) : Writer → Except Error (List Entry)
  | .edits es => pure (es.foldl editShort entries)
  | .withEntry entry => pure (entries ++ [entry])
  | .withoutEntry name => do
    ensure (∃ e ∈ entries, e.name = name) .notFound
    pure (entries.filter fun e => e.name ≠ name)
  | .afterRename from_ to_ => do
    let moved ← orElse (entries.find? fun e => e.name = from_) (.panicked "the caller checked this")
    pure ((entries.filter fun e => e.name ≠ from_) ++ [{ moved with name := to_ }])

def parent (parent_ : ℕ) : Writer → ℕ
  | .edits es => es.foldl (fun p e => match e with | .reparent q => q | _ => p) parent_
  | _ => parent_

def run (w : Writer) (entries : List Entry) : Except Error (List Entry) := do
  let read ← entries.mapM reread
  w.change read

def Names (x : Entry) : Writer → Prop
  | .edits es => ∃ e ∈ es, Touches [] x e
  | .withEntry entry => x.name = entry.name
  | .withoutEntry name => x.name = name
  | .afterRename from_ to_ => x.name = from_ ∨ x.name = to_

variable {l l' : List Entry} {x : Entry} {w : Writer}

theorem mem_append_singleton {new : Entry} (h : x.name ≠ new.name) : x ∈ l ++ [new] ↔ x ∈ l := by
  rw [List.mem_append, List.mem_singleton, or_iff_left]
  exact fun heq => h (congrArg Entry.name heq)

theorem mem_filter_name {name : List UInt8} (h : x.name ≠ name) :
    (x ∈ l.filter fun e => e.name ≠ name) ↔ x ∈ l := by
  rw [List.mem_filter, and_iff_left (by simpa using h)]

theorem mem_renamed {from_ to_ : List UInt8}
    (h : ¬(x.name = from_ ∨ x.name = to_)) : x ∈ l.map (renamed from_ to_) ↔ x ∈ l := by
  obtain ⟨hfrom, hto⟩ := not_or.mp h
  rw [List.mem_map]
  constructor
  · rintro ⟨e, he, rfl⟩
    unfold renamed at hto ⊢
    split at hto
    next => exact absurd rfl hto
    next hne => rwa [if_neg hne]
  · exact fun hx => ⟨x, hx, if_neg hfrom⟩

theorem mem_editShort {e : DirEdit} (h : ¬Touches [] x e) : x ∈ editShort l e ↔ x ∈ l := by
  cases e with
  | remove name => exact mem_filter_name h
  | add entry => exact mem_append_singleton h
  | reparent parent => exact Iff.rfl
  | rename from_ to_ => exact mem_renamed h

theorem mem_change (h : w.change l = .ok l') (hname : ¬w.Names x) : x ∈ l' ↔ x ∈ l := by
  cases w with
  | edits es =>
    cases h
    induction es generalizing l with
    | nil => exact Iff.rfl
    | cons e rest ih =>
      have hfirst : ¬Touches [] x e := fun ht => hname ⟨e, List.mem_cons_self, ht⟩
      have hrest : ¬Names x (.edits rest) :=
        fun ⟨e', he', ht⟩ => hname ⟨e', List.mem_cons_of_mem _ he', ht⟩
      rw [List.foldl_cons, ih hrest, mem_editShort hfirst]
  | withEntry entry => rw [← Except.ok.inj h, mem_append_singleton hname]
  | withoutEntry name =>
    obtain ⟨_, -, h⟩ := bind_eq_ok.mp h
    rw [← Except.ok.inj h, mem_filter_name hname]
  | afterRename from_ to_ =>
    obtain ⟨moved, -, h⟩ := bind_eq_ok.mp h
    obtain ⟨hfrom, hto⟩ := not_or.mp hname
    rw [← Except.ok.inj h, mem_append_singleton hto, mem_filter_name hfrom]

theorem run_iff (h : w.run l = .ok l') (hx : x ∈ l) (hname : ¬w.Names x) :
    x ∈ l' ↔ x.ftype ≠ whiteout := by
  obtain ⟨read, hread, h⟩ := bind_eq_ok.mp h
  rw [mem_change h hname, mem_reread hread hx]

end Writer

/-! ## In every form -/

inductive Stored where
  -- the blocks of a directory in its inode are none
  | short (dir : DirBlocks) (parent : ℕ) (entries : List Entry)
  | blocks (d : DirBlocks)

def Stored.Holds (x : Entry) : Stored → Prop
  | .short _ _ entries => x ∈ entries
  | .blocks d => ∃ k o, d.Has k o x

/-- A directory, with what is done to it: one call of `edit_directory`, or its entries written again, in its
inode or, with the answers to `lay_out`, in blocks. -/
inductive Change where
  | edit (d : DirBlocks) (edits : List Edited) (lay : Laying)
  | write (dir : DirBlocks) (parent : ℕ) (entries : List Entry) (w : Writer) (lay : Option Laying)

namespace Change

def before : Change → Stored
  | .edit d _ _ => .blocks d
  | .write dir parent entries _ _ => .short dir parent entries

def run : Change → Except Error Stored
  | .edit d edits lay => do
    let d' ← d.editDirectory edits lay
    pure (.blocks d')
  | .write dir parent entries w none => do
    let out ← w.run entries
    pure (.short dir (w.parent parent) out)
  | .write dir parent entries w (some lay) => do
    let out ← w.run entries
    let d' ← dir.layOut lay (⟨Names.dot, dir.ino, 2⟩ :: ⟨dotDot, w.parent parent, 2⟩ :: out)
    pure (.blocks d')

/-- The change is about the entry. -/
def Names (x : Entry) : Change → Prop
  | .edit d edits _ =>
    if d.isNode then
      (∃ e ∈ edits, e.edit.Gives x.name) ∨ ∃ k o, d.Has k o x ∧ d.TakenBy edits k o
    else ∃ l, d.entries = .ok l ∧ TouchedBy x l (edits.map Edited.edit)
  | .write _ _ _ w _ => w.Names x

/-- The edits are made in place, the directory is then past leaf form, and none of them is in the data
block of the entry. -/
def Spares (x : Entry) : Change → Prop
  | .edit d edits lay => d.isNode = true ∧ (¬∃ d₁, edits.foldlM DirBlocks.apply d = .ok d₁ ∧ d₁.Small lay) ∧
    ∃ k o, d.Has k o x ∧ ¬d.RewrittenBy edits k
  | .write _ _ _ _ _ => False

variable {c : Change} {s : Stored} {x : Entry} {d d' : DirBlocks} {edits : List Edited} {lay : Laying}

theorem editDirectory_keeps_iff (h : d.editDirectory edits lay = .ok d') (hx : ∃ k o, d.Has k o x)
    (hname : ¬(Change.edit d edits lay).Names x) :
    (∃ k o, d'.Has k o x) ↔ x.ftype ≠ whiteout ∨ (Change.edit d edits lay).Spares x := by
  obtain ⟨hnode, d₁, hd₁, hlaid⟩ | ⟨hwhole, l, l', hl, hl', hlaid⟩ := DirBlocks.editDirectory_cases h
  · simp only [Names, hnode, if_true, not_or, not_exists, not_and] at hname
    obtain ⟨hgives, htaken⟩ := hname
    have hplain : x.ftype ≠ whiteout → ∃ k o, d₁.Has k o x := by
      obtain ⟨k, o, hx⟩ := hx
      exact fun hne => ⟨k, o, DirBlocks.edits_keep hd₁ hx hne hgives (htaken k o hx)⟩
    rcases hlaid with ⟨l, hsmall, hlaid⟩ | ⟨hpast, rfl⟩
    · -- laid out again: every entry is one that was read
      rw [DirBlocks.has_layOut hlaid, or_iff_left]
      · have hl := DirBlocks.fitsLeafForm_some hsmall
        refine ⟨DirBlocks.ne_whiteout_of_entries hl, fun hne => ?_⟩
        obtain ⟨k, o, hx₁⟩ := hplain hne
        exact hx₁.mem_entries hl hne
      · exact fun hspares => hspares.2.1 ⟨d₁, hd₁, l, hsmall⟩
    · by_cases hwhiteout : x.ftype = whiteout
      · rw [or_iff_right (not_not.mpr hwhiteout), Spares, and_iff_right hnode, and_iff_right]
        · exact exists₂_congr fun k o => DirBlocks.edits_whiteout hd₁ hwhiteout hgives
        · rintro ⟨d₂, hd₂, l, hsmall⟩
          obtain rfl := Except.ok.inj (hd₁.symm.trans hd₂)
          exact absurd (hpast.symm.trans hsmall) (by simp)
      · exact iff_of_true (hplain hwhiteout) (.inl hwhiteout)
  · have htouched : ¬TouchedBy x l (edits.map Edited.edit) := fun ht =>
      hname (by simp only [Names, hwhole, Bool.false_eq_true, if_false]; exact ⟨l, hl, ht⟩)
    obtain ⟨hkeep, hplain⟩ := mem_edited hl' htouched
    rw [DirBlocks.has_layOut hlaid, or_iff_left fun hspares => by simp [Spares, hwhole] at hspares]
    constructor
    · exact fun hmem => hplain (fun y hy _ => DirBlocks.ne_whiteout_of_entries hl hy) x hmem rfl
    · intro hne
      obtain ⟨k, o, hx⟩ := hx
      exact hkeep (hx.mem_entries hl hne)

theorem dir_ne_whiteout : 2 ≠ whiteout := by
  decide

/-- The entry of a name a change is not about keeps its type byte exactly when that is not a whiteout's, or
when the change is made in place and in other data blocks. -/
theorem type_byte_kept_iff (h : c.run = .ok s) (hx : c.before.Holds x) (hname : ¬c.Names x) :
    s.Holds x ↔ x.ftype ≠ whiteout ∨ c.Spares x := by
  cases c with
  | edit d edits lay =>
    obtain ⟨d', hd', h⟩ := bind_eq_ok.mp h
    cases h
    exact editDirectory_keeps_iff hd' hx hname
  | write dir parent entries w lay =>
    rw [or_iff_left (show ¬Spares x (.write dir parent entries w lay) from id)]
    cases lay with
    | none =>
      obtain ⟨out, hout, h⟩ := bind_eq_ok.mp h
      cases h
      exact Writer.run_iff hout hx hname
    | some lay =>
      obtain ⟨out, hout, h⟩ := bind_eq_ok.mp h
      obtain ⟨d', hd', h⟩ := bind_eq_ok.mp h
      cases h
      rw [Stored.Holds, DirBlocks.has_layOut hd', List.mem_cons, List.mem_cons,
        Writer.run_iff hout hx hname]
      refine ⟨?_, fun hne => .inr (.inr hne)⟩
      -- `.` and `..` are written as directories
      rintro (rfl | rfl | hne)
      · exact dir_ne_whiteout
      · exact dir_ne_whiteout
      · exact hne

/-! ### A whiteout beside a new name -/

-- the only name of the last data block of `wide`
def whited : Entry :=
  ⟨[98], 132, whiteout⟩

def wideAdd : List Edited :=
  [⟨.add ⟨[99], 133, 1⟩, DirBlocks.wideAnswers, DirBlocks.wideAnswers⟩]

theorem wide_holds : (Stored.blocks DirBlocks.wide).Holds whited :=
  ⟨46, 64, _, rfl, by decide⟩

/-- A name taken out of the block before it leaves the whiteout as it is. -/
theorem whiteout_spared : ∃ s, (Change.edit DirBlocks.wide (DirBlocks.wideRemove [97])
    DirBlocks.wideLaying).run = .ok s ∧ s.Holds whited := by
  refine ⟨_, rfl, (type_byte_kept_iff (c := .edit DirBlocks.wide (DirBlocks.wideRemove [97])
    DirBlocks.wideLaying) rfl wide_holds ?_).mpr (.inr ⟨rfl, ?_, 46, 64, ⟨_, rfl, by decide⟩, ?_⟩)⟩
  · rintro (⟨e, he, hgives⟩ | ⟨k, o, ⟨block, hblock, hmem⟩, htakes | ⟨_, -, hlater⟩⟩)
    · obtain rfl := List.mem_singleton.mp he
      exact hgives
    · have hfound : some (45, 64) = some (k, o) := Except.ok.inj htakes
      obtain ⟨rfl, rfl⟩ := Prod.mk.inj (Option.some.inj hfound)
      cases hblock
      exact absurd hmem (by decide)
    · exact hlater
  · rintro ⟨d₁, -, l, hsmall⟩
    cases hsmall
  · rintro (⟨offset, hfind⟩ | ⟨_, -, hlater⟩)
    · have hfound : some (45, 64) = some (46, offset) := Except.ok.inj hfind
      exact absurd (Prod.mk.inj (Option.some.inj hfound)).1 (by decide)
    · exact hlater

/-- A name added to the block of the whiteout leaves it with no type. -/
theorem whiteout_lost :
    ∃ d', DirBlocks.wide.editDirectory wideAdd DirBlocks.wideLaying = .ok d' ∧
      DirBlocks.wide.Has 46 64 whited ∧ ¬d'.Has 46 64 whited ∧ d'.Has 46 64 { whited with ftype := 0 } := by
  refine ⟨_, rfl, ⟨_, rfl, by decide⟩, ?_, ⟨_, rfl, by decide⟩⟩
  rintro ⟨block, hblock, hmem⟩
  cases hblock
  exact absurd hmem (by decide)

end Change

/-! ## The names in node form -/

namespace DirBlocks

/-- The data block `k` has an entry at `o` that gives the name. -/
def At (d : DirBlocks) (k o : ℕ) (n : Names.Entry) : Prop :=
  ∃ x, d.Has k o x ∧ x.toName = n

/-- Beside the dots, the names of the entries are those of the directory. -/
def Lists (d : DirBlocks) (dir : Names.Directory) : Prop :=
  ∀ n : Names.Entry, n.name ≠ Names.dot → n.name ≠ dotDot → ((∃ k o, d.At k o n) ↔ n ∈ dir.entries)

section

variable {d d' : DirBlocks} {ans again : Answers} {db k o : ℕ} {n : Names.Entry} {name : List UInt8}
  {entries L : List (ℕ × Entry)}

theorem toName_reread {e read : Entry} (h : reread e = .ok read) : read.toName = e.toName := by
  rw [reread_eq h]
  split <;> rfl

theorem at_dataEntries (h : d.dataEntries db = .ok entries) :
    (∃ x, (o, x) ∈ entries ∧ x.toName = n) ↔ d.At db o n := by
  obtain ⟨block, hblock, hread⟩ := dataEntries_spec h
  constructor
  · rintro ⟨x, hx, hn⟩
    obtain ⟨p, hp, hpx⟩ := mem_of_mapM_eq_ok hread hx
    obtain ⟨e, he, heq⟩ := readEntry_eq hpx
    cases heq
    exact ⟨p.2, ⟨block, hblock, hp⟩, (toName_reread he).symm.trans hn⟩
  · rintro ⟨x, ⟨block', hblock', hx⟩, hn⟩
    obtain rfl := Option.some.inj (hblock.symm.trans hblock')
    obtain ⟨p, hp, hpx⟩ := ok_of_mapM_eq_ok hread hx
    obtain ⟨e, he, rfl⟩ := readEntry_eq hpx
    exact ⟨e, hp, (toName_reread he).trans hn⟩

theorem at_put (h : d.putBlock db L = .ok d') :
    d'.At k o n ↔ if k = db then ∃ x, (o, x) ∈ L ∧ x.toName = n else d.At k o n := by
  unfold At
  simp only [has_put h]
  split <;> rfl

theorem at_removeEntry (h : d.removeEntry ans name = .ok d') : ∃ db offset,
    d.find ans name = .ok (some (db, offset)) ∧
      ∀ k o n, d'.At k o n ↔ d.At k o n ∧ ¬(k = db ∧ o = offset) := by
  obtain ⟨db, offset, entries, leaves, frees, hfind, hentries, hd'⟩ := removeEntry_spec h
  refine ⟨db, offset, hfind, fun k o n => ?_⟩
  split at hd'
  next hempty =>
    subst hd'
    by_cases hk : k = db
    · subst hk
      refine iff_of_false ?_ fun hboth => hboth.2 ⟨rfl, ?_⟩
      · rintro ⟨x, ⟨block, hblock, -⟩, -⟩
        rw [AList.lookup_erase] at hblock
        cases hblock
      · obtain ⟨x, hx, -⟩ := (at_dataEntries hentries).mpr hboth.1
        simpa using List.filter_eq_nil_iff.mp hempty.1 _ hx
    · unfold At Has
      simp [AList.lookup_erase_ne hk, hk]
  next =>
    obtain ⟨d₁, hput, rfl⟩ := hd'
    refine (at_put hput).trans ?_
    split
    next hk =>
      subst hk
      rw [← at_dataEntries hentries]
      simp only [List.mem_filter, decide_eq_true_eq, true_and]
      constructor
      · rintro ⟨x, ⟨hx, ho⟩, hn⟩
        exact ⟨⟨x, hx, hn⟩, ho⟩
      · rintro ⟨⟨x, hx, hn⟩, ho⟩
        exact ⟨x, ⟨hx, ho⟩, hn⟩
    next hk => simp [hk]

theorem at_addEntry {entry : Entry} (h : d.addEntry ans entry = .ok d') : ∃ db offset, ∀ k o n,
    d'.At k o n ↔ d.At k o n ∨ (k = db ∧ o = offset ∧ n = entry.toName) := by
  obtain ⟨db, d₁, d₂, entries, offset, taken, frees, hlanding, hentries, hput, -, -, rfl⟩ :=
    addEntry_spec h
  have hsame : ∀ k o n, d₁.At k o n ↔ d.At k o n := by
    intro k o n
    unfold At
    simp only [has_landing hlanding]
  refine ⟨db, offset, fun k o n => (at_put hput).trans ?_⟩
  split
  next hk =>
    subst hk
    rw [← hsame, ← at_dataEntries hentries]
    simp only [List.mem_append, List.mem_singleton, Prod.mk.injEq, or_and_right, exists_or, true_and]
    refine or_congr_right ⟨?_, ?_⟩
    · rintro ⟨x, ⟨ho, rfl⟩, hn⟩
      exact ⟨ho, hn.symm⟩
    · rintro ⟨ho, hn⟩
      exact ⟨entry, ⟨ho, rfl⟩, hn.symm⟩
  next hk => simp [hk, hsame]

theorem find_at (h : d.find ans name = .ok (some (db, o))) : ∃ n, d.At db o n ∧ n.name = name := by
  obtain ⟨found, -, h⟩ := bind_eq_ok.mp h
  cases found with
  | none => cases h
  | some p =>
    obtain ⟨entries, hentries, h⟩ := bind_eq_ok.mp h
    have hplace := Except.ok.inj h
    split at hplace
    next hany =>
      cases hplace
      obtain ⟨q, hq, hsame⟩ := List.any_eq_true.mp hany
      simp only [Bool.and_eq_true, beq_iff_eq] at hsame
      refine ⟨q.2.toName, (at_dataEntries hentries).mp ⟨q.2, ?_, rfl⟩, hsame.2⟩
      rw [← hsame.1]
      exact hq
    next => cases hplace

/-- Each name has one place and each place one name, and the index finds those there are. -/
structure Indexed (d : DirBlocks) (ans : Answers) : Prop where
  complete : ∀ name, d.find ans name = .ok none → ∀ k o n, d.At k o n → n.name ≠ name
  name : ∀ k o n n', d.At k o n → d.At k o n' → n = n'
  place : ∀ k o k' o' n, d.At k o n → d.At k' o' n → k = k' ∧ o = o'

variable {dir : Names.Directory}

theorem Lists.fresh (hl : d.Lists dir) (hi : d.Indexed ans) (hname : name ≠ Names.dot ∧ name ≠ dotDot)
    (h : d.find ans name = .ok none) : (dir.find name).isNone = true := by
  refine Names.Directory.find_isNone.mpr fun e he heq => ?_
  obtain ⟨k, o, hat⟩ := (hl e (heq ▸ hname.1) (heq ▸ hname.2)).mpr he
  exact hi.complete name h k o e hat heq

theorem Lists.remove (hl : d.Lists dir) (hdir : dir.Distinct) (hi : d.Indexed ans)
    (hname : name ≠ Names.dot ∧ name ≠ dotDot) (h : d.removeEntry ans name = .ok d') :
    ∃ dir', dir.removeEntry name = .ok dir' ∧ d'.Lists dir' ∧ dir'.entries ⊆ dir.entries := by
  obtain ⟨db, offset, hfind, hat⟩ := at_removeEntry h
  obtain ⟨gone, hgone, rfl⟩ := find_at hfind
  have hmem := (hl gone hname.1 hname.2).mp ⟨db, offset, hgone⟩
  have hperm := Names.Directory.perm_eraseP hdir hmem
  refine ⟨{ dir with entries := _ }, bind_eq_ok.mpr ⟨gone, orElse_eq_ok.mpr
    ((Names.Directory.find_eq_some hdir).mpr ⟨hmem, rfl⟩), rfl⟩, fun n hdot hdotDot => ?_,
    List.eraseP_subset⟩
  simp only [hat]
  constructor
  · rintro ⟨k, o, hn, hother⟩
    have hcons := hperm.subset ((hl n hdot hdotDot).mp ⟨k, o, hn⟩)
    refine (List.mem_cons.mp hcons).resolve_left ?_
    rintro rfl
    exact hother (hi.place k o db offset n hn hgone)
  · intro hn
    obtain ⟨k, o, hold⟩ := (hl n hdot hdotDot).mpr (List.mem_of_mem_eraseP hn)
    refine ⟨k, o, hold, ?_⟩
    rintro ⟨rfl, rfl⟩
    obtain rfl := hi.name k o n gone hold hgone
    exact (@Names.Directory.Distinct.remove n dir ⟨dir.parent, _⟩ hdir hperm).2 n hn rfl

theorem Lists.add {entry : Entry} (hl : d.Lists dir) (hnone : (dir.find entry.name).isNone = true)
    (h : d.addEntry ans entry = .ok d') :
    ∃ dir', dir.addEntry entry.toName = .ok dir' ∧ d'.Lists dir' := by
  obtain ⟨db, offset, hat⟩ := at_addEntry h
  refine ⟨_, bind_eq_ok.mpr ⟨(), ensure_eq_ok.mpr hnone, rfl⟩, fun n hdot hdotDot => ?_⟩
  rw [List.mem_append, List.mem_singleton, ← hl n hdot hdotDot]
  simp only [hat, exists_or]
  refine or_congr_right ⟨?_, fun hn => ⟨db, offset, rfl, rfl, hn⟩⟩
  rintro ⟨_, _, _, _, hn⟩
  exact hn

theorem Lists.reparent {parent : ℕ} (hl : d.Lists dir) (h : d.reparent parent = .ok d') :
    d'.Lists { dir with parent := parent } := by
  obtain ⟨entries, hentries, h⟩ := bind_eq_ok.mp h
  obtain ⟨_, -, h⟩ := bind_eq_ok.mp h
  intro n hdot hdotDot
  refine Iff.trans (exists₂_congr fun k o => (at_put h).trans ?_) (hl n hdot hdotDot)
  split
  next hk =>
    rw [hk, ← at_dataEntries hentries]
    refine exists_congr fun x => and_congr_left fun hx => mem_pointTo ?_
    rwa [← hx] at hdotDot
  next => rfl

theorem Lists.rename {from_ to_ : List UInt8} (hl : d.Lists dir) (hdir : dir.Distinct)
    (hi : d.Indexed ans) (hfrom_ : from_ ≠ Names.dot ∧ from_ ≠ dotDot)
    (hto_ : to_ ≠ Names.dot ∧ to_ ≠ dotDot) (h : d.edit ans again (.rename from_ to_) = .ok d') :
    ∃ dir', dir.editNode (.rename from_ to_) = .ok dir' ∧ d'.Lists dir' := by
  obtain ⟨found, hto, h⟩ := bind_eq_ok.mp h
  obtain ⟨_, hnone, h⟩ := bind_eq_ok.mp h
  rw [ensure_eq_ok.mp hnone] at hto
  obtain ⟨from?, hfrom, h⟩ := bind_eq_ok.mp h
  obtain ⟨⟨db, offset⟩, hplace, h⟩ := bind_eq_ok.mp h
  obtain ⟨entries, hentries, h⟩ := bind_eq_ok.mp h
  obtain ⟨moved, hmoved, h⟩ := bind_eq_ok.mp h
  obtain ⟨d₁, hremove, hadd⟩ := bind_eq_ok.mp h
  rw [orElse_eq_ok.mp hplace] at hfrom
  obtain ⟨n, hn, rfl⟩ := find_at hfrom
  have hmem := (hl n hfrom_.1 hfrom_.2).mp ⟨db, offset, hn⟩
  have hfresh := hl.fresh hi hto_ hto
  obtain ⟨dir₁, hdir₁, hl₁, hsub⟩ := hl.remove hdir hi hfrom_ hremove
  have hfresh₁ : (dir₁.find to_).isNone = true :=
    Names.Directory.find_isNone.mpr fun e he =>
      Names.Directory.find_isNone.mp hfresh e (hsub he)
  -- the entry at the place found is the one the index gives
  have hsame : moved.2.toName = n := by
    have hfound := orElse_eq_ok.mp hmoved
    have hoffset : moved.1 = offset := by simpa using List.find?_some hfound
    refine hi.name db offset _ n ((at_dataEntries hentries).mp ⟨moved.2, ?_, rfl⟩) hn
    rw [← hoffset]
    exact List.mem_of_find?_eq_some hfound
  subst hsame
  obtain ⟨dir', hdir', hl'⟩ := hl₁.add hfresh₁ hadd
  refine ⟨dir', bind_eq_ok.mpr ⟨(), ensure_eq_ok.mpr hfresh, bind_eq_ok.mpr
    ⟨moved.2.toName, ?_, bind_eq_ok.mpr ⟨dir₁, hdir₁, hdir'⟩⟩⟩, hl'⟩
  exact orElse_eq_ok.mpr ((Names.Directory.find_eq_some hdir).mpr ⟨hmem, rfl⟩)

/-- A directory in node form is edited as `Names.Directory.editNode` edits its names. -/
theorem Lists.edit {e : DirEdit} (hl : d.Lists dir) (hdir : dir.Distinct) (hi : d.Indexed ans)
    (he : e.KeepsDots) (h : d.edit ans again e = .ok d') :
    ∃ dir', dir.editNode e.toNames = .ok dir' ∧ d'.Lists dir' := by
  cases e with
  | remove name =>
    obtain ⟨dir', hdir', hl', -⟩ := hl.remove hdir hi he h
    exact ⟨dir', hdir', hl'⟩
  | add entry =>
    obtain ⟨found, hfound, hrest⟩ := bind_eq_ok.mp h
    obtain ⟨_, hnone, -⟩ := bind_eq_ok.mp hrest
    rw [ensure_eq_ok.mp hnone] at hfound
    exact hl.add (hl.fresh hi he hfound) h
  | reparent parent => exact ⟨_, rfl, hl.reparent h⟩
  | rename from_ to_ => exact hl.rename hdir hi he.1 he.2 h

end

end DirBlocks

end FsXfs.Edits
