import FsXfs.Names.ShortForm
import Mathlib.Logic.Relation

/-!
# The offsets of a directory kept in its inode

An entry's offset is its place in the block the directory would become. `NameOp.write` is what each
operation asks the short form to be (`create.rs`, `rename.rs`, `unlink.rs`, `change_directory`); an
entry that stays keeps its offset and a new one goes past every other, whatever the block holds.
-/

namespace FsXfs.Names

open Bytes

set_option autoImplicit false

/-! ## The operations -/

namespace ShortFormDir

def has (parsed : ShortFormDir) (name : List UInt8) : Bool :=
  parsed.entries.any fun e => e.name = name

def find (parsed : ShortFormDir) (name : List UInt8) : Option DirEntry :=
  parsed.entries.find? fun e => e.name = name

end ShortFormDir

def DirEntry.block (e : DirEntry) : BlockEntry :=
  ⟨e.name, e.ino, e.ftype⟩

-- `change_directory`: names taken out, then at most one put in
def changed (parsed : ShortFormDir) (out : List (List UInt8)) (arriving : Option BlockEntry) :
    List BlockEntry :=
  (parsed.entries.filter fun e => e.name ∉ out).map DirEntry.block ++ arriving.toList

/-- What is asked of one directory; a rename between two asks each its own part. -/
inductive NameOp where
  | create (name : List UInt8) (ino : ℕ) (ftype : Option FileType)
  | link (name : List UInt8) (ino : ℕ) (ftype : Option FileType)
  | remove (name : List UInt8)
  | rename (from_ to_ : List UInt8)
  | replace (from_ to_ : List UInt8) (ftype : Option FileType)
  | leave (from_ : List UInt8)
  | arrive (to_ : List UInt8) (ino : ℕ) (ftype : Option FileType)
  | reparent (parent : ℕ)

def checkName (name : List UInt8) : Except Error Unit :=
  ensure (entryNameIsValid name = true)
    (.unsupportedFeature s!"{repr name} is not a name a directory entry can hold")

def unlessSame (same : Prop) [Decidable same] (w : Write) : Option Write :=
  if same then none else some w

namespace NameOp

def write (parsed : ShortFormDir) (forkSpace : ℕ) : NameOp → Except Error (Option Write)
  | .create name ino ftype => do
    checkName name
    ensure (parsed.has name = false) .alreadyExists
    pure (some (.withEntry name ino ftype forkSpace))
  | .link name ino ftype => do
    checkName name
    ensure (parsed.has name = false) .alreadyExists
    pure (some (.listed parsed.parentIno (changed parsed [] (some ⟨name, ino, ftype⟩)) forkSpace))
  | .remove name => pure (some (.withoutEntry name forkSpace))
  | .rename from_ to_ => do
    checkName to_
    ensure (parsed.has to_ = false) .alreadyExists
    ensure (parsed.has from_ = true) .notFound
    pure (some (.afterRename from_ to_ forkSpace))
  | .replace from_ to_ ftype => do
    checkName to_
    let moved ← orElse (parsed.find from_) .notFound
    let target ← orElse (parsed.find to_) .notFound
    pure (unlessSame (target.ino = moved.ino) (.listed parsed.parentIno
      (changed parsed [from_, to_] (some ⟨to_, moved.ino, ftype⟩)) forkSpace))
  | .leave from_ => pure (some (.listed parsed.parentIno (changed parsed [from_] none) forkSpace))
  | .arrive to_ ino ftype => do
    checkName to_
    let target := parsed.find to_
    let out := if target.isSome then [to_] else []
    pure (unlessSame (target.map DirEntry.ino = some ino) (.listed parsed.parentIno
      (changed parsed out (some ⟨to_, ino, ftype⟩)) forkSpace))
  | .reparent parent => pure (some (.listed parent (changed parsed [] none) forkSpace))

def Legal (sb : Superblock) : NameOp → Prop
  | .create _ ino _ => LegalIno sb ino
  | .link _ ino _ => LegalIno sb ino
  | .arrive _ ino _ => LegalIno sb ino
  | .reparent parent => LegalIno sb parent
  | _ => True

end NameOp

/-! ## A block that could hold the entries -/

/-- Offsets in order, past the dots, and before the index and the tail the block ends with. -/
structure InBlock (sb : Superblock) (entries : List SfEntry) : Prop where
  increasing : entries.Pairwise fun a b => a.cookie < b.cookie
  first : ∀ e ∈ entries, firstCookie sb.hasFtype ≤ e.cookie
  last : ∀ e ∈ entries, e.cookie + cookieSpan e.name.length sb.hasFtype +
    8 * (entries.length + 2) + 8 ≤ sb.dirblocksize

/-- The bytes of a fork that holds these entries. -/
def ForkOf (sb : Superblock) (fork : List UInt8) (entries : List SfEntry) : Prop :=
  ∃ parent i8count, fork = beBytes 1 entries.length ++ beBytes 1 i8count ++
    beBytes (inoSize (decide (i8count ≠ 0))) parent ++
    entries.flatMap (encodeEntry sb.hasFtype (decide (i8count ≠ 0)))

/-- From wherever an entry ends, a name more and the index still fit. -/
def RoomFor (sb : Superblock) (parsed : ShortFormDir) (name : List UInt8) (count : ℕ) : Prop :=
  ∀ end_ ∈ firstCookie sb.hasFtype ::
      parsed.entries.map (fun e => e.offset + cookieSpan e.name.length sb.hasFtype),
    end_ + cookieSpan name.length sb.hasFtype + 8 * (count + 2) + 8 ≤ sb.dirblocksize

instance (sb : Superblock) (parsed : ShortFormDir) (name : List UInt8) (count : ℕ) :
    Decidable (RoomFor sb parsed name count) :=
  inferInstanceAs (Decidable (∀ _ ∈ _, _))

def NameOp.HasRoom (sb : Superblock) (parsed : ShortFormDir) : NameOp → Prop
  | .create name _ _ => RoomFor sb parsed name (parsed.entries.length + 1)
  | .link name _ _ => RoomFor sb parsed name (parsed.entries.length + 1)
  | .rename _ to_ => RoomFor sb parsed to_ parsed.entries.length
  | .replace _ to_ _ => RoomFor sb parsed to_ (parsed.entries.length - 1)
  | .arrive to_ _ _ => RoomFor sb parsed to_
      (if parsed.has to_ then parsed.entries.length else parsed.entries.length + 1)
  | _ => True

/-! ## Where a new name goes -/

section

variable {sb : Superblock} {parsed : ShortFormDir}

theorem nextCookie_ge {hasFtype : Bool} {e : DirEntry} (he : e ∈ parsed.entries) :
    e.offset + cookieSpan e.name.length hasFtype ≤ nextCookie parsed hasFtype := by
  have hmem := List.mem_map_of_mem (f := fun e : DirEntry =>
    e.offset + cookieSpan e.name.length hasFtype) he
  unfold nextCookie
  cases hmax : (parsed.entries.map fun e => e.offset + cookieSpan e.name.length hasFtype).max? with
  | none =>
    rw [List.max?_eq_none_iff.mp hmax] at hmem
    cases hmem
  | some m => exact (List.max?_eq_some_iff.mp hmax).2 _ hmem

theorem nextCookie_mem (hasFtype : Bool) : nextCookie parsed hasFtype ∈ firstCookie hasFtype ::
    parsed.entries.map (fun e => e.offset + cookieSpan e.name.length hasFtype) := by
  unfold nextCookie
  cases hmax : (parsed.entries.map fun e => e.offset + cookieSpan e.name.length hasFtype).max? with
  | none => exact List.mem_cons_self
  | some m => exact List.mem_cons_of_mem _ (List.max?_eq_some_iff.mp hmax).1

theorem cookieSpan_pos (namelen : ℕ) (hasFtype : Bool) : 0 < cookieSpan namelen hasFtype := by
  unfold cookieSpan dataAlign
  omega

theorem firstCookie_le_nextCookie (h : InBlock sb (parsed.entries.map DirEntry.sf)) :
    firstCookie sb.hasFtype ≤ nextCookie parsed sb.hasFtype := by
  rcases List.mem_cons.mp (@nextCookie_mem parsed sb.hasFtype) with heq | hmem
  · exact le_of_eq heq.symm
  · obtain ⟨e, he, heq⟩ := List.mem_map.mp hmem
    have hfirst := h.first e.sf (List.mem_map_of_mem he)
    change firstCookie sb.hasFtype ≤ e.offset at hfirst
    omega

theorem InBlock.sublist {entries kept : List SfEntry} (h : InBlock sb entries)
    (hsub : kept.Sublist entries) : InBlock sb kept where
  increasing := h.increasing.sublist hsub
  first := fun e he => h.first e (hsub.subset he)
  last := fun e he => by
    have hlast := h.last e (hsub.subset he)
    have hlen := hsub.length_le
    omega

theorem InBlock.snoc {kept : List DirEntry} {name : List UInt8} {ino count : ℕ}
    {ftype : Option FileType} (h : InBlock sb (parsed.entries.map DirEntry.sf))
    (hsub : kept.Sublist parsed.entries) (hcount : kept.length + 1 ≤ count)
    (hroom : RoomFor sb parsed name count) :
    InBlock sb (kept.map DirEntry.sf ++ [⟨name, ino, ftype, nextCookie parsed sb.hasFtype⟩]) := by
  have hkept := h.sublist (hsub.map DirEntry.sf)
  have hfits := hroom _ (nextCookie_mem sb.hasFtype)
  have hend : ∀ e ∈ kept.map DirEntry.sf,
      e.cookie + cookieSpan e.name.length sb.hasFtype ≤ nextCookie parsed sb.hasFtype := by
    intro e he
    obtain ⟨d, hd, rfl⟩ := List.mem_map.mp he
    exact nextCookie_ge (hsub.subset hd)
  refine ⟨List.pairwise_append.mpr ⟨hkept.increasing, List.pairwise_singleton _ _, ?_⟩, ?_, ?_⟩
  · intro e he x hx
    obtain rfl := List.mem_singleton.mp hx
    have := hend e he
    have hpos := cookieSpan_pos e.name.length sb.hasFtype
    change e.cookie < nextCookie parsed sb.hasFtype
    omega
  · intro e he
    rcases List.mem_append.mp he with he | he
    · exact hkept.first e he
    · obtain rfl := List.mem_singleton.mp he
      exact firstCookie_le_nextCookie h
  · intro e he
    rw [List.length_append, List.length_map, List.length_singleton]
    rcases List.mem_append.mp he with he | he
    · have := hend e he
      omega
    · obtain rfl := List.mem_singleton.mp he
      change nextCookie parsed sb.hasFtype + cookieSpan name.length sb.hasFtype + _ + 8 ≤ _
      omega

end

/-! ## What each operation writes -/

section

variable {sb : Superblock} {parsed : ShortFormDir} {op : NameOp} {w : Write} {forkSpace : ℕ}

/-- No two entries share a name. -/
def ShortFormDir.Distinct (parsed : ShortFormDir) : Prop :=
  (parsed.entries.map DirEntry.name).Nodup

instance (parsed : ShortFormDir) : Decidable parsed.Distinct :=
  inferInstanceAs (Decidable (List.Nodup _))

variable {name : List UInt8} {kept : List DirEntry} {e : DirEntry} {entries : List SfEntry}
  {new : Option BlockEntry}

theorem ShortFormDir.has_eq_false :
    parsed.has name = false ↔ ∀ e ∈ parsed.entries, e.name ≠ name := by
  simp [has]

theorem ShortFormDir.Distinct.eq_of_name (h : parsed.Distinct) {e e' : DirEntry}
    (he : e ∈ parsed.entries) (he' : e' ∈ parsed.entries) (hname : e.name = e'.name) : e = e' :=
  List.inj_on_of_nodup_map h he he' hname

theorem cookiesFor_kept (hd : parsed.Distinct)
    (hsub : ∀ e ∈ kept, e ∈ parsed.entries) (hasFtype : Bool) (next : ℕ) (rest : List BlockEntry) :
    cookiesFor parsed hasFtype next (kept.map DirEntry.block ++ rest) =
      kept.map DirEntry.sf ++ cookiesFor parsed hasFtype next rest := by
  induction kept with
  | nil => rfl
  | cons e kept ih =>
    have hmem := hsub e List.mem_cons_self
    have hfind : (parsed.entries.find? fun p =>
        decide (p.name = e.block.name ∧ p.ino = e.block.ino)) = some e := by
      cases hfound : parsed.entries.find? fun p =>
          decide (p.name = e.block.name ∧ p.ino = e.block.ino) with
      | none => exact absurd (List.find?_eq_none.mp hfound e hmem) (by simp [DirEntry.block])
      | some p =>
        have hp := List.find?_some hfound
        rw [decide_eq_true_eq] at hp
        rw [hd.eq_of_name (List.mem_of_find?_eq_some hfound) hmem hp.1]
    rw [List.map_cons, List.cons_append, cookiesFor, hfind]
    simp only [ih fun x hx => hsub x (List.mem_cons_of_mem _ hx)]
    rfl

/-- The entries of a write: some that stay, and at most one new past them all. -/
structure Written (sb : Superblock) (parsed : ShortFormDir) (op : NameOp) (entries : List SfEntry)
    (kept : List DirEntry) (new : Option BlockEntry) : Prop where
  sub : kept.Sublist parsed.entries
  eq : entries = kept.map DirEntry.sf ++
    (new.map fun e => (⟨e.name, e.ino, e.ftype, nextCookie parsed sb.hasFtype⟩ : SfEntry)).toList
  fresh : ∀ e ∈ new, ∀ x ∈ kept, x.name ≠ e.name
  valid : ∀ e ∈ new, entryNameIsValid e.name = true
  legal : op.Legal sb → (∀ x ∈ parsed.entries, LegalIno sb x.ino) → ∀ e ∈ new, LegalIno sb e.ino
  room : op.HasRoom sb parsed → ∀ e ∈ new, ∃ count, kept.length + 1 ≤ count ∧
    RoomFor sb parsed e.name count

def keptBy (parsed : ShortFormDir) (out : List (List UInt8)) : List DirEntry :=
  parsed.entries.filter fun e => e.name ∉ out

theorem keptBy_sublist (out : List (List UInt8)) : (keptBy parsed out).Sublist parsed.entries :=
  List.filter_sublist

theorem keptBy_nil : keptBy parsed [] = parsed.entries := by
  simp [keptBy]

theorem mem_keptBy {out : List (List UInt8)} :
    e ∈ keptBy parsed out ↔ e ∈ parsed.entries ∧ e.name ∉ out := by
  simp [keptBy]

theorem keptBy_length_lt {out : List (List UInt8)} (he : e ∈ parsed.entries)
    (hout : e.name ∈ out) : (keptBy parsed out).length < parsed.entries.length := by
  refine List.length_filter_lt_length_iff_exists.mpr ⟨e, he, ?_⟩
  simpa using hout

theorem listed_entries (hd : parsed.Distinct) (out : List (List UInt8)) (new : Option BlockEntry)
    (hnew : ∀ e ∈ new, ∀ p ∈ parsed.entries, p.name = e.name → p.ino ≠ e.ino) (parent : ℕ) :
    (Write.listed parent (changed parsed out new) forkSpace).entries sb parsed =
      (keptBy parsed out).map DirEntry.sf ++ (new.map fun e =>
        (⟨e.name, e.ino, e.ftype, nextCookie parsed sb.hasFtype⟩ : SfEntry)).toList := by
  refine (cookiesFor_kept hd (fun e he => (mem_keptBy.mp he).1) sb.hasFtype _ _).trans
    (congrArg _ ?_)
  cases new with
  | none => rfl
  | some e =>
    have hfind : (parsed.entries.find? fun p => decide (p.name = e.name ∧ p.ino = e.ino)) = none :=
      List.find?_eq_none.mpr fun p hp => by
        rw [decide_eq_true_eq]
        exact fun hboth => hnew e rfl p hp hboth.1 hboth.2
    change cookiesFor parsed sb.hasFtype _ [e] = _
    rw [cookiesFor, hfind]
    rfl

theorem unlessSame_eq_some {same : Prop} [Decidable same] {w' : Write}
    (h : unlessSame same w' = some w) : w = w' ∧ ¬same := by
  unfold unlessSame at h
  split at h
  next => cases h
  next hne => exact ⟨(Option.some.inj h).symm, hne⟩

theorem mem_of_find (h : parsed.find name = some e) :
    e ∈ parsed.entries ∧ e.name = name :=
  ⟨List.mem_of_find?_eq_some h, by simpa using List.find?_some h⟩

theorem has_eq_true_of_find (h : parsed.find name = some e) : parsed.has name = true := by
  obtain ⟨hmem, hname⟩ := mem_of_find h
  simp only [ShortFormDir.has, List.any_eq_true, decide_eq_true_eq]
  exact ⟨e, hmem, hname⟩

theorem Written.dropped (hsub : kept.Sublist parsed.entries) (heq : entries = kept.map DirEntry.sf) :
    Written sb parsed op entries kept none where
  sub := hsub
  eq := by simpa using heq
  fresh := by simp
  valid := by simp
  legal := by simp
  room := by simp

theorem Written.added {new : BlockEntry} (hsub : kept.Sublist parsed.entries)
    (heq : entries = kept.map DirEntry.sf ++
      [⟨new.name, new.ino, new.ftype, nextCookie parsed sb.hasFtype⟩])
    (hfresh : ∀ x ∈ kept, x.name ≠ new.name) (hvalid : entryNameIsValid new.name = true)
    (hlegal : op.Legal sb → (∀ x ∈ parsed.entries, LegalIno sb x.ino) → LegalIno sb new.ino)
    (hroom : op.HasRoom sb parsed → ∃ count, kept.length + 1 ≤ count ∧
      RoomFor sb parsed new.name count) : Written sb parsed op entries kept (some new) where
  sub := hsub
  eq := heq
  fresh := by simpa using hfresh
  valid := by simpa using hvalid
  legal := by simpa using hlegal
  room := by simpa using hroom

theorem keptBy_length_two {a b : DirEntry} (ha : a ∈ parsed.entries) (hb : b ∈ parsed.entries)
    (hne : a ≠ b) : (keptBy parsed [a.name, b.name]).length + 2 ≤ parsed.entries.length := by
  have hsub : [a, b].Subperm (parsed.entries.filter fun e => decide (e.name ∈ [a.name, b.name])) := by
    refine List.subperm_of_subset (by simpa using hne) fun x hx => ?_
    rcases List.mem_cons.mp hx with rfl | hx
    · exact List.mem_filter.mpr ⟨ha, by simp⟩
    · obtain rfl := List.mem_singleton.mp hx
      exact List.mem_filter.mpr ⟨hb, by simp⟩
  have hsplit := List.length_eq_length_filter_add (l := parsed.entries)
    (fun e => decide (e.name ∈ [a.name, b.name]))
  have hkept : (keptBy parsed [a.name, b.name]).length =
      (parsed.entries.filter fun e => !decide (e.name ∈ [a.name, b.name])).length := by
    unfold keptBy
    congr 2
    funext e
    exact decide_not
  have htwo := hsub.length_le
  rw [List.length_cons, List.length_singleton] at htwo
  omega

theorem NameOp.written (hd : parsed.Distinct) (h : op.write parsed forkSpace = .ok (some w))
    {fork : List UInt8} (hfork : w.fork sb parsed = .ok (some fork)) :
    ∃ kept new, Written sb parsed op (w.entries sb parsed) kept new ∧
      (op.Legal sb → LegalIno sb parsed.parentIno → LegalIno sb (w.parent parsed)) := by
  cases op with
  | create name ino ftype =>
    obtain ⟨_, hvalid, h⟩ := bind_eq_ok.mp h
    obtain ⟨_, hnone, h⟩ := bind_eq_ok.mp h
    obtain rfl := Option.some.inj (Except.ok.inj h)
    have hnone := ShortFormDir.has_eq_false.mp (ensure_eq_ok.mp hnone)
    exact ⟨parsed.entries, some ⟨name, ino, ftype⟩, .added (.refl _) rfl hnone
      (ensure_eq_ok.mp hvalid) (fun hlegal _ => hlegal) (fun hroom => ⟨_, le_rfl, hroom⟩),
      fun _ hparent => hparent⟩
  | link name ino ftype =>
    obtain ⟨_, hvalid, h⟩ := bind_eq_ok.mp h
    obtain ⟨_, hnone, h⟩ := bind_eq_ok.mp h
    obtain rfl := Option.some.inj (Except.ok.inj h)
    have hnone := ShortFormDir.has_eq_false.mp (ensure_eq_ok.mp hnone)
    refine ⟨keptBy parsed [], some ⟨name, ino, ftype⟩, .added (keptBy_sublist _)
      (listed_entries hd _ _ ?_ _) (fun x hx => hnone x (mem_keptBy.mp hx).1)
      (ensure_eq_ok.mp hvalid) (fun hlegal _ => hlegal) (fun hroom => ?_),
      fun _ hparent => hparent⟩
    · rintro e ⟨⟩ p hp hname
      exact absurd hname (hnone p hp)
    · rw [keptBy_nil]
      exact ⟨_, le_rfl, hroom⟩
  | remove name =>
    obtain rfl := Option.some.inj (Except.ok.inj h)
    refine ⟨parsed.entries.filter fun e => e.name ≠ name, none, .dropped List.filter_sublist ?_,
      fun _ hparent => hparent⟩
    simp [Write.entries, keptEntries]
  | rename from_ to_ =>
    obtain ⟨_, hvalid, h⟩ := bind_eq_ok.mp h
    obtain ⟨_, hnone, h⟩ := bind_eq_ok.mp h
    obtain ⟨_, -, h⟩ := bind_eq_ok.mp h
    obtain rfl := Option.some.inj (Except.ok.inj h)
    have hnone := ShortFormDir.has_eq_false.mp (ensure_eq_ok.mp hnone)
    obtain ⟨moved, hmoved, -⟩ := bind_eq_ok.mp (map_some_eq_ok hfork)
    have hfind := orElse_eq_ok.mp hmoved
    obtain ⟨hmem, hname⟩ := mem_of_find hfind
    refine ⟨parsed.entries.filter fun e => e.name ≠ from_, some ⟨to_, moved.ino, moved.ftype⟩,
      .added List.filter_sublist ?_ (fun x hx => hnone x (List.mem_of_mem_filter hx))
        (ensure_eq_ok.mp hvalid) (fun _ hall => hall moved hmem) (fun hroom => ⟨_, ?_, hroom⟩),
      fun _ hparent => hparent⟩
    · simp only [Write.entries, hfind]
      rfl
    · exact List.length_filter_lt_length_iff_exists.mpr ⟨moved, hmem, by simp [hname]⟩
  | replace from_ to_ ftype =>
    obtain ⟨_, hvalid, h⟩ := bind_eq_ok.mp h
    obtain ⟨moved, hmoved, h⟩ := bind_eq_ok.mp h
    obtain ⟨target, htarget, h⟩ := bind_eq_ok.mp h
    obtain ⟨rfl, hne⟩ := unlessSame_eq_some (Except.ok.inj h)
    obtain ⟨hmovedMem, rfl⟩ := mem_of_find (orElse_eq_ok.mp hmoved)
    obtain ⟨htargetMem, rfl⟩ := mem_of_find (orElse_eq_ok.mp htarget)
    refine ⟨keptBy parsed [moved.name, target.name], some ⟨target.name, moved.ino, ftype⟩,
      .added (keptBy_sublist _) (listed_entries hd _ _ ?_ _) (fun x hx hname => ?_)
        (ensure_eq_ok.mp hvalid) (fun _ hall => hall moved hmovedMem) (fun hroom => ⟨_, ?_, hroom⟩),
      fun _ hparent => hparent⟩
    · rintro e ⟨⟩ p hp hname
      rw [hd.eq_of_name hp htargetMem hname]
      exact hne
    · exact (mem_keptBy.mp hx).2 (by simp [hname])
    · have htwo := keptBy_length_two hmovedMem htargetMem fun heq => hne (heq ▸ rfl)
      omega
  | leave from_ =>
    obtain rfl := Option.some.inj (Except.ok.inj h)
    exact ⟨keptBy parsed [from_], none, .dropped (keptBy_sublist _)
      (by simpa using listed_entries hd _ none (by simp) _), fun _ hparent => hparent⟩
  | arrive to_ ino ftype =>
    obtain ⟨_, hvalid, h⟩ := bind_eq_ok.mp h
    obtain ⟨rfl, hne⟩ := unlessSame_eq_some (Except.ok.inj h)
    cases hfind : parsed.find to_ with
    | none =>
      have hnone : ∀ x ∈ parsed.entries, x.name ≠ to_ := fun x hx => by
        simpa using List.find?_eq_none.mp hfind x hx
      refine ⟨keptBy parsed [], some ⟨to_, ino, ftype⟩, .added (keptBy_sublist _)
        (listed_entries hd _ _ ?_ _) (fun x hx => hnone x (mem_keptBy.mp hx).1)
        (ensure_eq_ok.mp hvalid) (fun hlegal _ => hlegal) (fun hroom => ⟨_, ?_, hroom⟩),
        fun _ hparent => hparent⟩
      · rintro e ⟨⟩ p hp hname
        exact absurd hname (hnone p hp)
      · simp [ShortFormDir.has_eq_false.mpr hnone, keptBy_nil]
    | some target =>
      obtain ⟨hmem, rfl⟩ := mem_of_find hfind
      rw [hfind] at hne
      refine ⟨keptBy parsed [target.name], some ⟨target.name, ino, ftype⟩, .added (keptBy_sublist _)
        (listed_entries hd _ _ ?_ _) (fun x hx hname => ?_) (ensure_eq_ok.mp hvalid)
        (fun hlegal _ => hlegal) (fun hroom => ⟨_, ?_, hroom⟩), fun _ hparent => hparent⟩
      · rintro e ⟨⟩ p hp hname heq
        rw [hd.eq_of_name hp hmem hname] at heq
        exact hne (congrArg some heq)
      · exact (mem_keptBy.mp hx).2 (by simp [hname])
      · simp only [has_eq_true_of_find hfind, if_true]
        exact keptBy_length_lt hmem (by simp)
  | reparent parent =>
    obtain rfl := Option.some.inj (Except.ok.inj h)
    exact ⟨keptBy parsed [], none, .dropped (keptBy_sublist _)
      (by simpa using listed_entries hd _ none (by simp) _), fun hlegal _ => hlegal⟩

section

variable (h : Written sb parsed op entries kept new)

include h

theorem Written.inBlock (hblock : InBlock sb (parsed.entries.map DirEntry.sf))
    (hroom : op.HasRoom sb parsed) : InBlock sb entries := by
  rw [h.eq]
  cases new with
  | none =>
    rw [Option.map_none, Option.toList_none, List.append_nil]
    exact hblock.sublist (h.sub.map DirEntry.sf)
  | some e =>
    obtain ⟨count, hcount, hfits⟩ := h.room hroom e rfl
    exact hblock.snoc h.sub hcount hfits

theorem Written.distinct (hd : parsed.Distinct) :
    (entries.map SfEntry.name).Nodup := by
  have hnames : (kept.map DirEntry.sf).map SfEntry.name = kept.map DirEntry.name := by
    rw [List.map_map]
    rfl
  have hkept : (kept.map DirEntry.name).Nodup := hd.sublist (h.sub.map DirEntry.name)
  rw [h.eq, List.map_append, hnames]
  cases new with
  | none => simpa using hkept
  | some e =>
    refine List.nodup_append.mpr ⟨hkept, List.nodup_singleton _, fun a ha b hb heq => ?_⟩
    obtain ⟨x, hx, rfl⟩ := List.mem_map.mp ha
    obtain rfl := List.mem_singleton.mp hb
    exact h.fresh e rfl x hx heq

theorem Written.mem_cases {e : SfEntry} (he : e ∈ entries) :
    (∃ x ∈ parsed.entries, e = x.sf) ∨ ∃ x ∈ new, e.name = x.name ∧ e.ino = x.ino := by
  rw [h.eq] at he
  rcases List.mem_append.mp he with he | he
  · obtain ⟨x, hx, rfl⟩ := List.mem_map.mp he
    exact .inl ⟨x, h.sub.subset hx, rfl⟩
  · obtain ⟨x, hx, rfl⟩ := Option.map_eq_some_iff.mp (Option.mem_toList.mp he)
    exact .inr ⟨x, hx, rfl, rfl⟩

end

end

/-! ## Runs -/

section

variable {sb : Superblock} {parsed parsed' : ShortFormDir} {op : NameOp} {w : Write}
  {forkSpace : ℕ}

/-- Numbers and names as a reader has checked them. -/
structure Checked (sb : Superblock) (parsed : ShortFormDir) : Prop where
  parent : LegalIno sb parsed.parentIno
  inos : ∀ e ∈ parsed.entries, LegalIno sb e.ino
  names : ∀ e ∈ parsed.entries, 0 < e.name.length ∧ e.name.length < 256

theorem checkEntryIno_ok {n : ℕ} {what : String} {u : Unit} (h : checkEntryIno sb n what = .ok u) :
    LegalIno sb n := by
  simp only [checkEntryIno, bind_eq_ok, ensure_eq_ok, exists_const] at h
  exact ⟨h.1, h.2.1, h.2.2⟩

theorem readEntries_checked {ino : ℕ} {wide : Bool} {count i cur end_ : ℕ} {rest : List UInt8}
    {entries : List DirEntry} (h : readEntries sb ino wide count i cur rest = .ok (entries, end_)) :
    ∀ e ∈ entries, LegalIno sb e.ino ∧ 0 < e.name.length ∧ e.name.length < 256 := by
  induction count generalizing i cur rest entries end_ with
  | zero =>
    obtain ⟨rfl, -⟩ := Prod.mk.inj (Except.ok.inj h)
    simp
  | succ count ih =>
    obtain ⟨_, -, h⟩ := bind_eq_ok.mp h
    obtain ⟨_, hnamed, h⟩ := bind_eq_ok.mp h
    obtain ⟨_, hfit, h⟩ := bind_eq_ok.mp h
    obtain ⟨ftype, -, h⟩ := bind_eq_ok.mp h
    obtain ⟨target, -, h⟩ := bind_eq_ok.mp h
    obtain ⟨_, hlegal, h⟩ := bind_eq_ok.mp h
    obtain ⟨⟨others, end'⟩, hothers, h⟩ := bind_eq_ok.mp h
    cases h
    have hfit := ensure_eq_ok.mp hfit
    have hnamed := ensure_eq_ok.mp hnamed
    intro e he
    rcases List.mem_cons.mp he with rfl | he
    · have hlen : (slice rest 3 (beValue (slice rest 0 1))).length = beValue (slice rest 0 1) :=
        slice_length (by omega)
      have hbyte := beValue_lt (slice rest 0 1)
      have hone : (slice rest 0 1).length ≤ 1 := by simp [slice]
      have hpow : 256 ^ (slice rest 0 1).length ≤ 256 ^ 1 := Nat.pow_le_pow_right (by decide) hone
      refine ⟨checkEntryIno_ok hlegal, ?_, ?_⟩
      · change 0 < (slice rest 3 (beValue (slice rest 0 1))).length
        omega
      · change (slice rest 3 (beValue (slice rest 0 1))).length < 256
        omega
    · exact ih hothers e he

theorem readShortForm_checked {inode : DirInode} {fork : List UInt8}
    (h : readShortForm sb inode fork = .ok parsed) : Checked sb parsed := by
  obtain ⟨_, -, h⟩ := bind_eq_ok.mp h
  obtain ⟨_, -, h⟩ := bind_eq_ok.mp h
  obtain ⟨_, -, h⟩ := bind_eq_ok.mp h
  obtain ⟨_, -, h⟩ := bind_eq_ok.mp h
  obtain ⟨_, -, h⟩ := bind_eq_ok.mp h
  obtain ⟨parent, -, h⟩ := bind_eq_ok.mp h
  obtain ⟨_, hparent, h⟩ := bind_eq_ok.mp h
  obtain ⟨⟨entries, end_⟩, hentries, h⟩ := bind_eq_ok.mp h
  obtain ⟨_, -, h⟩ := bind_eq_ok.mp h
  obtain ⟨_, -, h⟩ := bind_eq_ok.mp h
  cases h
  have hall := readEntries_checked hentries
  exact ⟨checkEntryIno_ok hparent, fun e he => (hall e he).1, fun e he => (hall e he).2⟩

/-- One operation's fork written over the directory, and the directory read again. -/
def Rewrote (sb : Superblock) (parsed parsed' : ShortFormDir) : Prop :=
  ∃ op forkSpace w fork ino pad, NameOp.Legal sb op ∧ op.HasRoom sb parsed ∧
    op.write parsed forkSpace = .ok (some w) ∧ w.fork sb parsed = .ok (some fork) ∧
    readShortForm sb ⟨ino, true, .local_, fork.length⟩ (fork ++ pad) = .ok parsed'

/-- The condition a run keeps. -/
structure Sound (sb : Superblock) (parsed : ShortFormDir) : Prop where
  checked : Checked sb parsed
  distinct : parsed.Distinct
  block : InBlock sb (parsed.entries.map DirEntry.sf)

theorem length_of_valid {name : List UInt8} (h : entryNameIsValid name = true) :
    0 < name.length ∧ name.length < 256 := by
  simp only [entryNameIsValid, Bool.and_eq_true, Bool.not_eq_true', decide_eq_true_eq,
    List.isEmpty_eq_false_iff] at h
  exact ⟨List.length_pos_iff.mpr h.1.1.1.1, Nat.lt_succ_of_le h.1.1.1.2⟩

theorem Rewrote.sound (h : Rewrote sb parsed parsed') (hs : Sound sb parsed) : Sound sb parsed' := by
  obtain ⟨op, forkSpace, w, fork, ino, pad, hlegal, hroom, hwrite, hfork, hread⟩ := h
  obtain ⟨kept, new, hw, hparent⟩ := NameOp.written hs.distinct hwrite hfork
  have hblock := hw.inBlock hs.block hroom
  have hdistinct := hw.distinct hs.distinct
  have hinos : ∀ e ∈ w.entries sb parsed, LegalIno sb e.ino := by
    intro e he
    rcases hw.mem_cases he with ⟨x, hx, rfl⟩ | ⟨x, hx, -, hino⟩
    · exact hs.checked.inos x hx
    · rw [hino]
      exact hw.legal hlegal hs.checked.inos x hx
  have hnames : ∀ e ∈ w.entries sb parsed, 0 < e.name.length ∧ e.name.length < 256 := by
    intro e he
    rcases hw.mem_cases he with ⟨x, hx, rfl⟩ | ⟨x, hx, hname, -⟩
    · exact hs.checked.names x hx
    · rw [hname]
      exact length_of_valid (hw.valid x hx)
  have hnumbers : ∀ n ∈ w.numbers sb parsed, LegalIno sb n := by
    intro n hn
    rcases List.mem_cons.mp hn with rfl | hn
    · exact hparent hlegal hs.checked.parent
    · obtain ⟨e, he, rfl⟩ := List.mem_map.mp hn
      exact hinos e he
  obtain ⟨-, hentries⟩ := Write.read_written hnumbers hnames hfork hread
  refine ⟨readShortForm_checked hread, ?_, ?_⟩
  · unfold ShortFormDir.Distinct
    rw [hentries, List.map_map]
    exact hdistinct
  · rw [hentries, List.map_map]
    refine ⟨List.pairwise_map.mpr hblock.increasing, fun e he => ?_, fun e he => ?_⟩
    · obtain ⟨x, hx, rfl⟩ := List.mem_map.mp he
      exact hblock.first x hx
    · obtain ⟨x, hx, rfl⟩ := List.mem_map.mp he
      rw [List.length_map]
      exact hblock.last x hx

theorem encodeEntries_eq {hasFtype wide : Bool} {entries : List SfEntry} {body : List UInt8}
    (h : encodeEntries hasFtype wide entries = .ok body) :
    body = entries.flatMap (encodeEntry hasFtype wide) := by
  induction entries generalizing body with
  | nil => exact (Except.ok.inj h).symm
  | cons e entries ih =>
    obtain ⟨_, -, h⟩ := bind_eq_ok.mp h
    obtain ⟨rest, hrest, h⟩ := bind_eq_ok.mp h
    rw [← Except.ok.inj h, ih hrest, List.flatMap_cons]

theorem forkOf_write {fork : List UInt8} (h : w.fork sb parsed = .ok (some fork)) :
    ForkOf sb fork (w.entries sb parsed) := by
  rcases Write.fork_cases h with ⟨parent, rfl, rfl⟩ | ⟨-, space, hencode⟩
  · refine ⟨parent, (decide (0xffffffff < parent)).toNat, ?_⟩
    have hwide : decide ((decide (0xffffffff < parent)).toNat ≠ 0) = decide (0xffffffff < parent) := by
      by_cases hlt : 0xffffffff < parent <;> simp [hlt]
    rw [hwide]
    exact (List.append_nil _).symm
  · obtain ⟨_, -, hencode⟩ := bind_eq_ok.mp hencode
    obtain ⟨_, -, hencode⟩ := bind_eq_ok.mp hencode
    obtain ⟨body, hbody, hencode⟩ := bind_eq_ok.mp hencode
    obtain ⟨_, -, hencode⟩ := bind_eq_ok.mp hencode
    exact ⟨w.parent parsed, _, by rw [← Except.ok.inj hencode, encodeEntries_eq hbody]⟩

theorem run_sound {first : ShortFormDir} (hs : Sound sb first)
    (hrun : Relation.ReflTransGen (Rewrote sb) first parsed) : Sound sb parsed := by
  induction hrun with
  | refl => exact hs
  | tail _ hstep ih => exact hstep.sound ih

/-- Every fork written in a run holds entries a block of the volume could hold, while each new name
has room behind the others. -/
theorem forks_in_block {first : ShortFormDir} {inode : DirInode} {was fork : List UInt8}
    (hread : readShortForm sb inode was = .ok first) (hdistinct : first.Distinct)
    (hblock : InBlock sb (first.entries.map DirEntry.sf))
    (hrun : Relation.ReflTransGen (Rewrote sb) first parsed) (hroom : op.HasRoom sb parsed)
    (hwrite : op.write parsed forkSpace = .ok (some w)) (hfork : w.fork sb parsed = .ok (some fork)) :
    ∃ entries, ForkOf sb fork entries ∧ InBlock sb entries := by
  have hs := run_sound ⟨readShortForm_checked hread, hdistinct, hblock⟩ hrun
  obtain ⟨kept, new, hw, -⟩ := NameOp.written hs.distinct hwrite hfork
  exact ⟨_, forkOf_write hfork, hw.inBlock hs.block hroom⟩

end

/-! ## One name, early and late in its block -/

def oneNameFork (offset : ℕ) : List UInt8 :=
  [1, 0, 0, 0, 0, 128, 1] ++ beBytes 2 offset ++ [97, 1, 0, 0, 0, 131]

def oneName (offset : ℕ) : ShortFormDir :=
  ⟨128, 0, [⟨[97], 131, some .regular, offset⟩]⟩

instance (sb : Superblock) (entries : List SfEntry) : Decidable (InBlock sb entries) :=
  decidable_of_iff ((entries.Pairwise fun a b => a.cookie < b.cookie) ∧
    (∀ e ∈ entries, firstCookie sb.hasFtype ≤ e.cookie) ∧
    ∀ e ∈ entries, e.cookie + cookieSpan e.name.length sb.hasFtype + 8 * (entries.length + 2) + 8 ≤
      sb.dirblocksize) ⟨fun h => ⟨h.1, h.2.1, h.2.2⟩, fun h => ⟨h.increasing, h.first, h.last⟩⟩

def renamedName : ShortFormDir :=
  ⟨128, 0, [⟨[98], 131, some .regular, 112⟩]⟩

theorem renamedName_rewrote : Rewrote wideVolume (oneName 96) renamedName := by
  refine ⟨.rename [97] [98], 336, .afterRename [97] [98] 336,
    [1, 0, 0, 0, 0, 128, 1, 0, 112, 98, 1, 0, 0, 0, 131], 130, [], trivial, ?_, rfl, by decide +kernel,
    by decide +kernel⟩
  unfold NameOp.HasRoom
  decide +kernel

/-- A name is renamed, the directory is read again and a second name is made in it. -/
theorem forks_in_block_small : ∃ fork entries,
    (Write.withEntry [99] 132 (some .regular) 336).fork wideVolume renamedName = .ok (some fork) ∧
      ForkOf wideVolume fork entries ∧ InBlock wideVolume entries := by
  have hread : readShortForm wideVolume ⟨130, true, .local_, 15⟩ (oneNameFork 96) =
      .ok (oneName 96) := by decide +kernel
  have hfork : (Write.withEntry [99] 132 (some .regular) 336).fork wideVolume renamedName =
      .ok (some [2, 0, 0, 0, 0, 128, 1, 0, 112, 98, 1, 0, 0, 0, 131, 1, 0, 128, 99, 1, 0, 0, 0, 132]) := by
    decide +kernel
  have hwrite : (NameOp.create [99] 132 (some .regular)).write renamedName 336 =
      .ok (some (.withEntry [99] 132 (some .regular) 336)) := rfl
  have hroom : (NameOp.create [99] 132 (some .regular)).HasRoom wideVolume renamedName := by
    unfold NameOp.HasRoom
    decide +kernel
  obtain ⟨entries, hentries⟩ := forks_in_block hread (by decide +kernel) (by decide +kernel)
    (.single renamedName_rewrote) hroom hwrite hfork
  exact ⟨_, entries, hfork, hentries⟩

/-- The last place of a block of 4096 bytes: the next name goes past it. -/
theorem rename_past_block :
    readShortForm wideVolume ⟨130, true, .local_, 15⟩ (oneNameFork 4048) = .ok (oneName 4048) ∧
      InBlock wideVolume ((oneName 4048).entries.map DirEntry.sf) ∧
      (NameOp.rename [97] [98]).write (oneName 4048) 336 = .ok (some (.afterRename [97] [98] 336)) ∧
      (Write.afterRename [97] [98] 336).fork wideVolume (oneName 4048) =
        .ok (some ([1, 0, 0, 0, 0, 128, 1] ++ beBytes 2 4064 ++ [98, 1, 0, 0, 0, 131])) ∧
      wideVolume.dirblocksize < 4064 + cookieSpan 1 wideVolume.hasFtype + 8 * (1 + 2) + 8 := by
  refine ⟨by decide +kernel, by decide +kernel, rfl, by decide +kernel, by decide +kernel⟩

end FsXfs.Names
