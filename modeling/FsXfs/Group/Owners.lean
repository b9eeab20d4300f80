import FsXfs.Group.Ledger

/-!
# Who owns a group's own blocks

The reverse map records the blocks of the free-space and reverse-mapping trees and of the free list
under `OWN_AG`, and those of the reference-count tree under `OWN_REFC`. The first three trees trade
blocks with the list under one owner; the reference-count tree trades with the same list, and nothing
moves the blocks it gains or gives up from one owner to the other.
-/

namespace FsXfs.Group

set_option autoImplicit false

structure Layout where
  agBlocks : List ℕ
  refcountBlocks : List ℕ
  records : List Rmap

structure Layout.Owned (layout : Layout) : Prop where
  ag : ∀ b ∈ layout.agBlocks, Recorded layout.records Rmap.ownAg b
  refcount : ∀ b ∈ layout.refcountBlocks, Recorded layout.records Rmap.ownRefc b

instance (records : List Rmap) (owner : ℤ) (b : ℕ) : Decidable (Recorded records owner b) :=
  inferInstanceAs (Decidable (∃ r ∈ records, r.owner = owner ∧ r.startblock ≤ b ∧ b < r.end_))

instance (layout : Layout) : Decidable layout.Owned :=
  decidable_of_iff ((∀ b ∈ layout.agBlocks, Recorded layout.records Rmap.ownAg b) ∧
      ∀ b ∈ layout.refcountBlocks, Recorded layout.records Rmap.ownRefc b)
    ⟨fun h => ⟨h.1, h.2⟩, fun h => ⟨h.ag, h.refcount⟩⟩

namespace GroupAlloc

def rmapRecords (ed : GroupAlloc) : List Rmap :=
  ed.rmap.elim [] Prod.fst

def layout (sb : Superblock) (ed : GroupAlloc) : Layout :=
  ⟨ed.bnoBlocks ++ ed.cntBlocks ++ treeBlocks ed.rmap ++ ed.agfl.entries sb, treeBlocks ed.refcount,
    ed.rmapRecords⟩

end GroupAlloc

def Finished.layout (sb : Superblock) (out : Finished) : Layout :=
  ⟨out.relaid.bnoBlocks ++ out.relaid.cntBlocks ++ out.relaid.rmapBlocks ++
    out.relaid.agfl.entries sb, out.relaid.refcountBlocks, out.ed.rmapRecords⟩

def leaves (crc32c : List UInt8 → ℕ) (sb : Superblock) (device : BlockRead) (ed : GroupAlloc) :
    Except Error Layout :=
  if ed.took then do
    let out ← finish crc32c sb device ed
    pure (out.layout sb)
  else pure (ed.layout sb)

/-- The reference-count tree is laid out over as many blocks as it holds. -/
def GroupAlloc.SameSize (sb : Superblock) (ed : GroupAlloc) : Prop :=
  ∀ tree ∈ ed.refcount, ∀ levels, plan sb refcountShape tree.1.length = .ok levels →
    levels.sum = tree.2.length

structure GroupAlloc.Exclusive (ed : GroupAlloc) : Prop where
  owners : ∀ b, Recorded ed.rmapRecords Rmap.ownAg b → ¬Recorded ed.rmapRecords Rmap.ownRefc b
  free : ∀ b, Free ed.byBlock b → ¬Recorded ed.rmapRecords Rmap.ownRefc b

section

variable {crc32c : List UInt8 → ℕ} {sb : Superblock} {device : BlockRead} {agno : ℕ}
  {group ed ed' : GroupAlloc} {e : Edit} {n : ℤ} {owner : ℤ} {b : ℕ} {record : Rmap}

variable {old new : Option (List Rmap × List ℕ)} {relaid : Relaid}

theorem RmapPut.recorded (h : RmapPut record old new) (hsome : old.isSome) :
    Recorded (new.elim [] Prod.fst) owner b ↔
      Recorded (old.elim [] Prod.fst) owner b ∨ record.Names owner b := by
  cases h with
  | none => cases hsome
  | some hinsert => exact recorded_insert hinsert

theorem RmapPut.keeps (h : RmapPut record old new) (hb : Recorded (old.elim [] Prod.fst) owner b) :
    Recorded (new.elim [] Prod.fst) owner b := by
  cases h with
  | none => exact hb
  | some hinsert => exact (recorded_insert hinsert).mpr (.inl hb)

theorem Step.recorded (h : Step ed e ed' n)
    (hforget : ∀ record, e = .forgetRmap record → ¬record.Names owner b)
    (hb : Recorded ed.rmapRecords owner b) : Recorded ed'.rmapRecords owner b := by
  cases h with
  | idle => exact hb
  | took _ _ hput => exact hput.keeps hb
  | gave _ => exact hb
  | forgot hsome hremove =>
    rw [GroupAlloc.rmapRecords, hsome] at hb
    exact (recorded_remove hremove).2 hb (hforget _ rfl)
  | remembered _ hsome hinsert =>
    rw [GroupAlloc.rmapRecords, hsome] at hb
    rcases hinsert with hinsert | hinsert
    · exact (recorded_insert hinsert).mpr (.inl hb)
    · obtain ⟨pre, post, hjoins, -⟩ := rmapInsertShared_joins hinsert
      exact hjoins.recorded.mpr (.inl hb)
  | released _ _ => exact hb

theorem SameGroup.blocks (sb : Superblock) (h : SameGroup ed ed') (hlist : ed'.agfl = ed.agfl) :
    (ed'.layout sb).agBlocks = (ed.layout sb).agBlocks ∧
      (ed'.layout sb).refcountBlocks = (ed.layout sb).refcountBlocks := by
  refine ⟨?_, h.refcount⟩
  simp only [GroupAlloc.layout]
  rw [h.bno, h.cnt, h.rmap, hlist]

def Keeps (layout : Layout) (edits : List Edit) : Prop :=
  ∀ record, Edit.forgetRmap record ∈ edits → (∀ b ∈ layout.agBlocks, ¬record.Names Rmap.ownAg b) ∧
    ∀ b ∈ layout.refcountBlocks, ¬record.Names Rmap.ownRefc b

theorem owned_run {edits : List Edit} {moved : ℤ} (hkeeps : Keeps (group.layout sb) edits)
    (howned : (group.layout sb).Owned) (h : run crc32c sb device group edits = .ok (ed, moved)) :
    (ed.layout sb).Owned := by
  have hall := run_invariant (P := fun x _ => SameGroup group x ∧ x.agfl = group.agfl ∧
      (x.layout sb).Owned) ?_ (m := 0) ⟨.refl group, rfl, howned⟩ h
  · exact hall.2.2
  · intro e he x x' m n hP hstep
    obtain ⟨hgroup, hlist, hx⟩ := hP
    obtain ⟨hsame, hagfl⟩ := hstep.same
    obtain ⟨hag, hrefc⟩ := hgroup.blocks sb hlist
    obtain ⟨hag', hrefc'⟩ := hsame.blocks sb hagfl
    refine ⟨hgroup.trans hsame, hagfl.trans hlist, ⟨fun b hb => ?_, fun b hb => ?_⟩⟩
    · rw [hag'] at hb
      refine hstep.recorded (fun record heq => ?_) (hx.ag b hb)
      exact (hkeeps record (heq ▸ he)).1 b (hag ▸ hb)
    · rw [hrefc'] at hb
      refine hstep.recorded (fun record heq => ?_) (hx.refcount b hb)
      exact (hkeeps record (heq ▸ he)).2 b (hrefc ▸ hb)

/-! ## Topping the list up -/

structure Refilled (sb : Superblock) (ed ed' : GroupAlloc) (added : List ℕ) : Prop where
  same : SameGroup ed ed'
  refcount : ed'.refcount = ed.refcount
  list : ed'.agfl.entries sb = ed.agfl.entries sb ++ added
  runs : ∀ b, Free ed'.byBlock b → Free ed.byBlock b
  free : ∀ b ∈ added, Free ed.byBlock b
  records : ∀ owner b, Recorded ed'.rmapRecords owner b ↔
    Recorded ed.rmapRecords owner b ∨ owner = Rmap.ownAg ∧ b ∈ added

theorem names_one {start : ℕ} : (⟨start, 1, Rmap.ownAg, 0⟩ : Rmap).Names owner b ↔
    owner = Rmap.ownAg ∧ b = start := by
  rw [Rmap.Names, Rmap.Holds, Rmap.end_]
  constructor
  · rintro ⟨howner, hlo, hhi⟩
    exact ⟨howner.symm, by dsimp only at hlo hhi; omega⟩
  · rintro ⟨rfl, rfl⟩
    exact ⟨rfl, by dsimp only; omega, by dsimp only; omega⟩

theorem refilled_refill (hed : Editor sb ed) (hrmap : ed.rmap.isSome)
    (h : ed.refillFreeList sb = .ok ed') : Editor sb ed' ∧ ∃ added, Refilled sb ed ed' added := by
  refine refillBy_invariant (P := fun x => ∃ added, Refilled sb ed x added) (fun x x' hx hP hone => ?_)
    hed ⟨[], .refl ed, rfl, by simp, fun _ h => h, by simp, by simp⟩ h
  obtain ⟨added, hadded⟩ := hP
  obtain ⟨-, hsame, hrefcount, -, start, halloc, hentries, hput⟩ := refillOne_spec hx hone
  have hstart : Free x.byBlock start := free_of_allocExtent halloc ⟨le_refl _, Nat.lt_succ_self _⟩
  refine ⟨added ++ [start], hadded.same.trans hsame, hrefcount.trans hadded.refcount,
    by rw [hentries, hadded.list, List.append_assoc],
    fun b hb => hadded.runs b ((free_allocExtent hx.runs halloc).mp hb).1, ?_, fun owner b => ?_⟩
  · intro b hb
    rcases List.mem_append.mp hb with hb | hb
    · exact hadded.free b hb
    · exact hadded.runs b (List.mem_singleton.mp hb ▸ hstart)
  · have hsome : x.rmap.isSome := by rw [hadded.same.rmap_some, hrmap]
    change Recorded (x'.rmap.elim [] Prod.fst) owner b ↔ _
    rw [hput.recorded hsome, names_one]
    change Recorded x.rmapRecords owner b ∨ _ ↔ _
    rw [hadded.records, List.mem_append, List.mem_singleton]
    tauto

theorem Refilled.owned {added : List ℕ} (h : Refilled sb ed ed' added)
    (howned : (ed.layout sb).Owned) : (ed'.layout sb).Owned := by
  refine ⟨fun b hb => (h.records _ b).mpr ?_, fun b hb => (h.records _ b).mpr (.inl ?_)⟩
  · change b ∈ ed'.bnoBlocks ++ ed'.cntBlocks ++ treeBlocks ed'.rmap ++ ed'.agfl.entries sb at hb
    rw [h.same.bno, h.same.cnt, h.same.rmap, h.list, ← List.append_assoc] at hb
    rcases List.mem_append.mp hb with hb | hb
    · exact .inl (howned.ag b hb)
    · exact .inr ⟨rfl, hb⟩
  · change b ∈ treeBlocks ed'.refcount at hb
    rw [h.same.refcount] at hb
    exact howned.refcount b hb

theorem Refilled.exclusive {added : List ℕ} (h : Refilled sb ed ed' added) (hex : ed.Exclusive) :
    Recorded ed'.rmapRecords Rmap.ownAg b → ¬Recorded ed'.rmapRecords Rmap.ownRefc b := by
  intro hag hrefc
  have hrefc' : Recorded ed.rmapRecords Rmap.ownRefc b := by
    rcases (h.records _ b).mp hrefc with hrefc | ⟨hne, -⟩
    · exact hrefc
    · exact absurd hne (by decide)
  rcases (h.records _ b).mp hag with hag | ⟨-, hadded⟩
  · exact hex.owners b hag hrefc'
  · exact hex.free b (h.free b hadded) hrefc'

/-! ## Laying the trees out again -/

theorem moved_of_length {held list held' list' : List ℕ} (h : Moved held list held' list')
    (hlen : held'.length = held.length) : held' = held ∧ list' = list := by
  rcases h with ⟨taken, rfl, rfl⟩ | ⟨spare, rfl, rfl⟩
  · have hnil : taken = [] := by
      rw [List.length_append] at hlen
      exact List.length_eq_zero_iff.mp (by omega)
    simp [hnil]
  · have hnil : spare = [] := by
      rw [List.length_append] at hlen
      exact List.length_eq_zero_iff.mp (by omega)
    simp [hnil]

theorem exists_of_moved {held list held' list' : List ℕ} (h : Moved held list held' list')
    (hlen : held'.length ≠ held.length) :
    (∃ b, b ∈ list ∧ b ∈ held') ∨ ∃ b, b ∈ held ∧ b ∈ list' := by
  rcases h with ⟨taken, rfl, rfl⟩ | ⟨spare, rfl, rfl⟩
  · cases taken with
    | nil => simp at hlen
    | cons b taken => exact .inl ⟨b, by simp, by simp⟩
  · cases spare with
    | nil => simp at hlen
    | cons b spare => exact .inr ⟨b, by simp, by simp⟩

theorem owned_relaid (hrelaid : RelaidFrom sb ed relaid) (howned : (ed.layout sb).Owned)
    (hlen : relaid.refcountBlocks.length = (treeBlocks ed.refcount).length) :
    Layout.Owned ⟨relaid.bnoBlocks ++ relaid.cntBlocks ++ relaid.rmapBlocks ++ relaid.agfl.entries sb,
      relaid.refcountBlocks, ed.rmapRecords⟩ := by
  obtain ⟨list, hperm, hmoved⟩ := hrelaid.moved
  obtain ⟨hsame, hlist⟩ := moved_of_length hmoved hlen
  refine ⟨fun b hb => howned.ag b (hperm.subset ?_), fun b hb => howned.refcount b ?_⟩
  · rw [← hlist]
    exact hb
  · change b ∈ treeBlocks ed.refcount
    rw [← hsame]
    exact hb

theorem length_eq_of_owned (hrelaid : RelaidFrom sb ed relaid) (howned : (ed.layout sb).Owned)
    (hex : ∀ b, Recorded ed.rmapRecords Rmap.ownAg b → ¬Recorded ed.rmapRecords Rmap.ownRefc b)
    (hafter : Layout.Owned ⟨relaid.bnoBlocks ++ relaid.cntBlocks ++ relaid.rmapBlocks ++
      relaid.agfl.entries sb, relaid.refcountBlocks, ed.rmapRecords⟩) :
    relaid.refcountBlocks.length = (treeBlocks ed.refcount).length := by
  obtain ⟨list, hperm, hmoved⟩ := hrelaid.moved
  by_contra hlen
  rcases exists_of_moved hmoved hlen with ⟨b, hlist, hheld⟩ | ⟨b, hheld, hlist⟩
  · have hag := howned.ag b (hperm.subset (List.mem_append_right _ hlist))
    exact hex b hag (hafter.refcount b hheld)
  · have hag := hafter.ag b (List.mem_append_right _ hlist)
    exact hex b hag (howned.refcount b hheld)

theorem sameSize_iff (hrelaid : RelaidFrom sb ed relaid) :
    ed.SameSize sb ↔ relaid.refcountBlocks.length = (treeBlocks ed.refcount).length := by
  cases htree : ed.refcount with
  | none =>
    rw [hrelaid.refcount.1 htree]
    refine iff_of_true (fun tree h => ?_) rfl
    cases htree ▸ h
  | some tree =>
    obtain ⟨-, levels, hplan, hlen⟩ := hrelaid.refcount.2 tree htree
    rw [hlen]
    constructor
    · exact fun h => h tree htree levels hplan
    · intro h tree' htree' levels' hplan'
      obtain rfl : tree = tree' := Option.some.inj (htree.symm.trans htree')
      obtain rfl : levels = levels' := Except.ok.inj (hplan.symm.trans hplan')
      exact h

/-- The group's own blocks stay under their owners when the reference-count tree keeps its size, and,
where no block has two of these owners, only then. -/
theorem owned_leaves {edits : List Edit} {moved : ℤ} {after : Layout} (hsb : sb.Accepted)
    (hopen : openGroup crc32c sb device agno = .ok group) (hrmap : group.rmap.isSome)
    (howned : (group.layout sb).Owned) (hkeeps : Keeps (group.layout sb) edits)
    (hrun : run crc32c sb device group edits = .ok (ed, moved))
    (h : leaves crc32c sb device ed = .ok after) :
    (ed.took = false ∨ ed.SameSize sb → after.Owned) ∧
      (ed.Exclusive → after.Owned → ed.took = false ∨ ed.SameSize sb) := by
  have hbalance := balanced_run hsb.agblocks_lt (openGroup_spec hopen) hrun
  have hed := owned_run hkeeps howned hrun
  unfold leaves at h
  split at h
  next htook =>
    obtain ⟨out, hfinish, h⟩ := bind_eq_ok.mp h
    obtain ⟨hrefill, hrelay, -⟩ := finish_spec hfinish
    have hsome : ed.rmap.isSome := by rw [hbalance.same.rmap_some, hrmap]
    obtain ⟨heditor, added, hadded⟩ := refilled_refill hbalance.editor hsome hrefill
    have hrelaid := relayAll_spec heditor hrelay
    have hout := hadded.owned hed
    have hsize : ed.SameSize sb ↔
        out.relaid.refcountBlocks.length = (treeBlocks out.ed.refcount).length := by
      rw [← sameSize_iff hrelaid, GroupAlloc.SameSize, GroupAlloc.SameSize, hadded.refcount]
    have htouched : ¬ed.took = false := by simp [htook]
    rw [← Except.ok.inj h, or_iff_right htouched, hsize]
    exact ⟨owned_relaid hrelaid hout, fun hex hafter =>
      length_eq_of_owned hrelaid hout (fun b => hadded.exclusive hex) hafter⟩
  next htook =>
    have huntouched : ed.took = false := by simpa using htook
    rw [← Except.ok.inj h]
    exact ⟨fun _ => hed, fun _ _ => .inl huntouched⟩

end

/-! ## A reference-count tree that grows -/

def sharedRuns (count : ℕ) : List Refcount :=
  (List.range count).map fun i => ⟨60 + 4 * i, 3, 3, false⟩

def ownerRecords : List Rmap :=
  [⟨0, 4, -3, 0⟩, ⟨4, 3, Rmap.ownAg, 0⟩, ⟨7, 1, Rmap.ownRefc, 0⟩, ⟨8, 6, Rmap.ownAg, 0⟩,
    ⟨61, 1, 131, 0⟩]

def ownersDevice (count : ℕ) : BlockRead :=
  smallDevice ([agfSector [(agfRoots, 4), (agfRoots + 4, 5), (agfRoots + 8, 6), (agfLevels, 1),
    (agfLevels + 4, 1), (agfLevels + 8, 1), (agfFllast, 5), (agfFlcount, 6), (agfFreeblks, 30),
    (agfLongest, 30), (agfRmapBlocks, 1), (agfRefcountBlocks, 1), (agfRefcountRoot, 7),
    (agfRefcountLevel, 1)],
    agflSector [8, 9, 10, 11, 12, 13]] ++ treeSectors (freeCodec .byBlock) [⟨220, 30⟩] [4] ++
    treeSectors (freeCodec .byCount) [⟨220, 30⟩] [5] ++ treeSectors rmapCodec ownerRecords [6] ++
    treeSectors refcountCodec (sharedRuns count) [7])

def releaseOne : List Edit :=
  [.forgetRmap ⟨61, 1, 131, 0⟩, .releaseShared 61 1]

theorem keeps_releaseOne (layout : Layout) : Keeps layout releaseOne := by
  intro record hmem
  simp only [releaseOne, List.mem_cons, Edit.forgetRmap.injEq, reduceCtorEq, List.not_mem_nil,
    or_false] at hmem
  subst hmem
  exact ⟨fun _ _ h => absurd h.1 (by decide), fun _ _ h => absurd h.1 (by decide)⟩

def leavesOwned (device : BlockRead) (ed : GroupAlloc) : Option Bool :=
  ((leaves zeroCrc smallBlocks device ed).map fun after => decide after.Owned).toOption

theorem leavesOwned_spec {device : BlockRead} {ed : GroupAlloc} {owned : Bool}
    (h : leavesOwned device ed = some owned) :
    ∃ after, leaves zeroCrc smallBlocks device ed = .ok after ∧ decide after.Owned = owned := by
  unfold leavesOwned at h
  cases hleaves : leaves zeroCrc smallBlocks device ed with
  | error e => rw [hleaves] at h; exact absurd h (by simp [Except.map, Except.toOption])
  | ok after =>
    rw [hleaves] at h
    exact ⟨after, rfl, Option.some.inj h⟩

theorem roomy_run : sampleRun (ownersDevice 2) releaseOne (fun group ed _ =>
    group.rmap.isSome && decide (group.layout smallBlocks).Owned &&
      decide (∀ tree ∈ ed.refcount, tree.1.length = 4 ∧ tree.2.length = 1) &&
      decide (leavesOwned (ownersDevice 2) ed = some true)) = true := by
  decide +kernel

theorem owned_roomy : ∃ group ed moved after,
    openGroup zeroCrc smallBlocks (ownersDevice 2) 0 = .ok group ∧
      run zeroCrc smallBlocks (ownersDevice 2) group releaseOne = .ok (ed, moved) ∧
      leaves zeroCrc smallBlocks (ownersDevice 2) ed = .ok after ∧ after.Owned := by
  obtain ⟨group, ed, moved, hopen, hrun, htest⟩ := sampleRun_spec roomy_run
  simp only [Bool.and_eq_true, decide_eq_true_eq] at htest
  obtain ⟨⟨⟨hrmap, howned⟩, hsize⟩, hafter⟩ := htest
  obtain ⟨after, hafter, -⟩ := leavesOwned_spec hafter
  have hsame : ed.SameSize smallBlocks := by
    intro tree htree levels hplan
    obtain ⟨hrecords, hblocks⟩ := hsize tree htree
    have hone : plan smallBlocks refcountShape 4 = .ok [1] := by decide +kernel
    rw [hrecords, hone] at hplan
    rw [← Except.ok.inj hplan, hblocks]
    rfl
  exact ⟨group, ed, moved, after, hopen, hrun, hafter,
    (owned_leaves smallBlocks_accepted hopen hrmap howned (keeps_releaseOne _) hrun hafter).1
      (.inr hsame)⟩

theorem full_run : sampleRun (ownersDevice 38) releaseOne (fun group ed _ =>
    group.rmap.isSome && decide (group.layout smallBlocks).Owned &&
      decide (leavesOwned (ownersDevice 38) ed = some false)) = true := by
  decide +kernel

/-- A tree with no room for two more records takes two blocks of the list, still under `OWN_AG`. -/
theorem not_owned_full : ∃ group ed moved after,
    openGroup zeroCrc smallBlocks (ownersDevice 38) 0 = .ok group ∧ group.rmap.isSome ∧
      (group.layout smallBlocks).Owned ∧ Keeps (group.layout smallBlocks) releaseOne ∧
      run zeroCrc smallBlocks (ownersDevice 38) group releaseOne = .ok (ed, moved) ∧
      leaves zeroCrc smallBlocks (ownersDevice 38) ed = .ok after ∧ ¬after.Owned := by
  obtain ⟨group, ed, moved, hopen, hrun, htest⟩ := sampleRun_spec full_run
  simp only [Bool.and_eq_true, decide_eq_true_eq] at htest
  obtain ⟨⟨hrmap, howned⟩, hafter⟩ := htest
  obtain ⟨after, hafter, hnot⟩ := leavesOwned_spec hafter
  exact ⟨group, ed, moved, after, hopen, hrmap, howned, keeps_releaseOne _, hrun, hafter,
    of_decide_eq_false hnot⟩

end FsXfs.Group
