import FsXfs.Group.Steps

/-!
# The blocks a group accounts for

A group's header counts its free blocks, the blocks on its free list and the blocks of its trees.
Taking blocks and giving them back moves the sum by what was taken and given back; topping the list
up and laying the trees out again only moves blocks between the terms.
-/

namespace FsXfs.Group

open Bytes Log

set_option autoImplicit false

def heldBlocks (header : List UInt8) : ℕ :=
  beAt header agfFreeblks 4 + beAt header agfFlcount 4 + beAt header agfBtreeblks 4 +
    beAt header agfRefcountBlocks 4

structure HeaderAgrees (group : GroupAlloc) : Prop where
  freeblks : beAt group.agfRaw agfFreeblks 4 = totalFree group.byBlock
  btreeblks : beAt group.agfRaw agfBtreeblks 4 = (group.bnoBlocks.length - 1) +
    (group.cntBlocks.length - 1) + ((treeBlocks group.rmap).length - 1)
  refcountBlocks : beAt group.agfRaw agfRefcountBlocks 4 = (treeBlocks group.refcount).length

def headerAfter (group : GroupAlloc) (items : List BufferItem) : List UInt8 :=
  items.head?.elim group.agfRaw BufferItem.data

structure Balanced (sb : Superblock) (group ed : GroupAlloc) (moved : ℤ) : Prop where
  editor : Editor sb ed
  same : SameGroup group ed
  list : ed.agfl = group.agfl
  free : (totalFree ed.byBlock : ℤ) = totalFree group.byBlock + moved
  untouched : ed.took = false → moved = 0

section

variable {crc32c : List UInt8 → ℕ} {sb : Superblock} {device : BlockRead} {agno : ℕ}
  {group ed ed' : GroupAlloc} {e : Edit} {m n : ℤ}

theorem Balanced.step (h : Balanced sb group ed m) (hstep : Step ed e ed' n) :
    Balanced sb group ed' (m + n) := by
  obtain ⟨hsame, hagfl⟩ := hstep.same
  have hfree := h.free
  have heditor := h.editor.step hstep
  refine ⟨heditor, h.same.trans hsame, hagfl.trans h.list, ?_, ?_⟩
  · cases hstep with
    | idle => omega
    | took _ halloc _ =>
      have hsum := totalFree_allocExtent halloc
      dsimp only
      omega
    | @gave free run hgive =>
      have hfits := run.fits
      have hend : run.extent.end_ ≤ 2 ^ 32 - 1 := by
        change run.startblock + run.blockcount ≤ _
        omega
      have hsum := totalFree_freeExtent h.editor.runs (by decide) hend hgive
      change totalFree free = totalFree ed.byBlock + run.blockcount at hsum
      dsimp only
      omega
    | forgot _ _ => dsimp only; omega
    | remembered _ _ _ => dsimp only; omega
    | released _ _ => dsimp only; omega
  · intro htook
    cases hstep with
    | idle => rw [h.untouched htook, Int.add_zero]
    | released _ _ =>
      rw [h.untouched (Bool.or_eq_false_iff.mp htook).1, Int.add_zero]
    | took _ _ _ => cases htook
    | gave _ => cases htook
    | forgot _ _ => cases htook
    | remembered _ _ _ => cases htook

theorem balanced_run {edits : List Edit} (hsb : sb.agblocks < 2 ^ 32) (hopen : Opened sb group)
    (h : run crc32c sb device group edits = .ok (ed, m)) : Balanced sb group ed m := by
  have hstart : Balanced sb group group 0 :=
    ⟨hopen.editor hsb, .refl group, rfl, by omega, fun _ => rfl⟩
  have hall := run_invariant (P := Balanced sb group) (fun _ _ _ _ _ _ hP hs => hP.step hs) hstart h
  rwa [Int.zero_add] at hall

/-! ## Topping the list up -/

theorem refill_count (hed : Editor sb ed) (h : ed.refillFreeList sb = .ok ed') :
    Editor sb ed' ∧ SameGroup ed ed' ∧
      totalFree ed'.byBlock + ed'.agfl.count = totalFree ed.byBlock + ed.agfl.count := by
  refine refillBy_invariant (P := fun x => SameGroup ed x ∧
    totalFree x.byBlock + x.agfl.count = totalFree ed.byBlock + ed.agfl.count)
    (fun a b ha hP hone => ?_) hed ⟨.refl ed, rfl⟩ h
  obtain ⟨-, hsame, -, -, block, halloc, hentries, -⟩ := refillOne_spec ha hone
  have hsum := totalFree_allocExtent halloc
  have hlen := congrArg List.length hentries
  rw [List.length_append, Agfl.length_entries, Agfl.length_entries, List.length_singleton] at hlen
  obtain ⟨hP, hcount⟩ := hP
  exact ⟨hP.trans hsame, by dsimp only at hsum; omega⟩

/-! ## Laying the trees out again -/

variable {relaid : Relaid}

theorem relaid_count (h : RelaidFrom sb ed relaid) :
    relaid.bnoBlocks.length + relaid.cntBlocks.length + relaid.rmapBlocks.length +
        relaid.refcountBlocks.length + relaid.agfl.count =
      ed.bnoBlocks.length + ed.cntBlocks.length + (treeBlocks ed.rmap).length +
        (treeBlocks ed.refcount).length + ed.agfl.count := by
  obtain ⟨list, hperm, hmoved⟩ := h.moved
  have hfirst := hperm.length_eq
  have hlast := hmoved.perm.length_eq
  simp only [List.length_append, Agfl.length_entries] at hfirst hlast
  omega

theorem refcountBlocks_lt (hsb : 512 ≤ sb.blocksize) (hed : Editor sb ed)
    (h : RelaidFrom sb ed relaid) : relaid.refcountBlocks.length < 2 ^ 32 := by
  cases htree : ed.refcount with
  | none =>
    rw [h.refcount.1 htree]
    decide
  | some tree =>
    obtain ⟨-, levels, hplan, hlen⟩ := h.refcount.2 tree htree
    obtain ⟨-, -, -, -, hsum, -⟩ := plan_spec hplan
    have hrecords := (hed.bounded tree htree).length_le
    have hleaf : 38 ≤ perLeaf sb refcountShape := by
      have hheader : btHeader sb ≤ 56 := by
        unfold btHeader
        split
        · exact le_refl 56
        · decide
      change 38 ≤ (sb.blocksize - btHeader sb) / 12
      omega
    have hleaves : divCeil tree.1.length (perLeaf sb refcountShape) ≤ tree.1.length / 38 + 1 := by
      calc (tree.1.length + perLeaf sb refcountShape - 1) / perLeaf sb refcountShape
          ≤ (tree.1.length + perLeaf sb refcountShape) / perLeaf sb refcountShape :=
            Nat.div_le_div_right (by omega)
        _ = tree.1.length / perLeaf sb refcountShape + 1 := Nat.add_div_right _ (by omega)
        _ ≤ tree.1.length / 38 + 1 := Nat.add_le_add_right (Nat.div_le_div_left hleaf (by decide)) 1
    omega

theorem Agfl.count_lt {agfl : Agfl} (hsect : sb.sectsize ≤ 32768) (h : agfl.Ok sb) :
    agfl.count < 2 ^ 32 := by
  have hle := h.count_le
  have hcap := h.capacity_eq
  have hdiv : agflCapacity sb ≤ sb.sectsize - agflHeader sb := Nat.div_le_self _ _
  omega

theorem heldBlocks_newHeader {fields : List (ℕ × ℕ)} (hsb : sb.Accepted) (hed : Editor sb ed)
    (hrelaid : RelaidFrom sb ed relaid)
    (hrefcount : ed.refcount = none → beAt ed.agfRaw agfRefcountBlocks 4 = 0)
    (h : headerFields sb ed relaid = .ok fields) :
    heldBlocks (putWords fields ed.agfRaw) = totalFree ed.byBlock + relaid.agfl.count +
      relaid.btreeblks + relaid.refcountBlocks.length := by
  have hof := headerFields_spec h
  have hsect := hsb.geometry.sectsize_ge
  have hfit : ∀ w ∈ fields, w.1 + 4 ≤ sb.sectsize := fun w hw => by
    have hle := (hof.fit w hw).2.1
    omega
  have hfree := beAt_putWords hed.raw_length hfit hof.apart hof.freeblks.1 hof.freeblks.2
  have hcount := beAt_putWords hed.raw_length hfit hof.apart hof.list.2.2
    (Agfl.count_lt hsb.sectors.1 hrelaid.list)
  have hbtree := beAt_putWords hed.raw_length hfit hof.apart hof.btreeblks.1 hof.btreeblks.2
  have hrefc : beAt (putWords fields ed.agfRaw) agfRefcountBlocks 4 =
      relaid.refcountBlocks.length := by
    rcases hof.refcount with ⟨hnil, hnot⟩ | ⟨hmem, -⟩
    · have hnone : ed.refcount = none := by
        cases htree : ed.refcount with
        | none => rfl
        | some tree => exact absurd hnil (hrelaid.refcount.2 tree htree).1
      rw [beAt, slice_putWords hed.raw_length hfit, ← beAt, hrefcount hnone, hnil]
      · rfl
      · intro w hw
        have hne := (hnot w hw).2.2
        have hmod := (hof.fit w hw).2.2.2
        simp only [agfRefcountBlocks] at hne ⊢
        omega
    · exact beAt_putWords hed.raw_length hfit hof.apart hmem
        (refcountBlocks_lt hsb.geometry.blocksize_ge hed hrelaid)
  rw [heldBlocks, hfree, hcount, hbtree, hrefc]

/-- The blocks a group accounts for change by what was given back and what was taken. -/
theorem heldBlocks_intoItems {edits : List Edit} {items : List BufferItem} {moved : ℤ}
    (hsb : sb.Accepted) (hopen : openGroup crc32c sb device agno = .ok group)
    (hagree : HeaderAgrees group) (hrun : run crc32c sb device group edits = .ok (ed, moved))
    (hitems : intoItems crc32c sb device ed = .ok items) :
    (heldBlocks (headerAfter group items) : ℤ) = heldBlocks group.agfRaw + moved := by
  have hopened := openGroup_spec hopen
  have hbalance := balanced_run hsb.agblocks_lt hopened hrun
  unfold intoItems at hitems
  split at hitems
  next htook =>
    obtain ⟨out, hfinish, hitems⟩ := bind_eq_ok.mp hitems
    obtain ⟨hrefill, hrelay, ⟨fields, hfields, hheader⟩, agfItem, rest, hlist, hagf, -⟩ :=
      finish_spec hfinish
    obtain ⟨hed, hsame, hmoved⟩ := refill_count hbalance.editor hrefill
    have hgroup := hbalance.same.trans hsame
    have hrelaid := relayAll_spec hed hrelay
    obtain ⟨-, -, -, hdata, -⟩ := changedChunks_spec hagf
    have hafter : headerAfter group items = putWords fields out.ed.agfRaw := by
      rw [← Except.ok.inj hitems, hlist, headerAfter, ← hheader]
      simp only [List.cons_append, List.head?_cons, Option.elim_some]
      rw [hdata]
    have hrefcount : out.ed.refcount = none → beAt out.ed.agfRaw agfRefcountBlocks 4 = 0 := by
      intro hnone
      have hblocks := hgroup.refcount
      rw [hnone] at hblocks
      rw [hgroup.raw, hagree.refcountBlocks, ← hblocks]
      rfl
    have hheld := heldBlocks_newHeader hsb hed hrelaid hrefcount hfields
    have hcount := relaid_count hrelaid
    rw [hgroup.bno, hgroup.cnt, hgroup.rmap, hgroup.refcount] at hcount
    have hbnolen : 0 < group.bnoBlocks.length := List.length_pos_iff.mpr hopened.bno_ne
    have hcntlen : 0 < group.cntBlocks.length := List.length_pos_iff.mpr hopened.cnt_ne
    have hbnolen' : 0 < out.relaid.bnoBlocks.length :=
      List.length_pos_iff.mpr (hrelaid.bno.2 _ rfl).1
    have hcntlen' : 0 < out.relaid.cntBlocks.length :=
      List.length_pos_iff.mpr (hrelaid.cnt.2 _ rfl).1
    have hrmaplen : (out.relaid.rmapBlocks.length = 0 ∧ (treeBlocks group.rmap).length = 0) ∨
        (0 < out.relaid.rmapBlocks.length ∧ 0 < (treeBlocks group.rmap).length) := by
      cases htree : group.rmap with
      | none =>
        have hnone : out.ed.rmap = none := by
          have hsome := hgroup.rmap_some
          rw [htree] at hsome
          simpa using hsome
        rw [hrelaid.rmap.1 hnone]
        exact .inl ⟨rfl, rfl⟩
      | some tree =>
        obtain ⟨tree', htree'⟩ : ∃ tree', out.ed.rmap = some tree' := by
          have hsome := hgroup.rmap_some
          rw [htree] at hsome
          exact Option.isSome_iff_exists.mp hsome
        exact .inr ⟨List.length_pos_iff.mpr (hrelaid.rmap.2 tree' htree').1,
          List.length_pos_iff.mpr (hopened.rmap_ne tree htree)⟩
    have hfree := hbalance.free
    have hlistcount : ed.agfl.count = beAt group.agfRaw agfFlcount 4 := by
      rw [hbalance.list, hopened.count_eq]
    rw [hafter, hheld, Relaid.btreeblks]
    rw [heldBlocks, hagree.freeblks, hagree.btreeblks, hagree.refcountBlocks, ← hlistcount]
    omega
  next htook =>
    have hmoved := hbalance.untouched (by simpa using htook)
    rw [← Except.ok.inj hitems, hmoved, Int.add_zero]
    rfl

end

/-! ## A small group -/

def smallBlocks : Superblock where
  blocksize := 512
  dblocks := 512
  logstart := 128
  rootino := 64
  agblocks := 256
  agcount := 2
  logblocks := 16
  sectsize := 512
  inodesize := 512
  inopblock := 1
  blocklog := 9
  sectlog := 9
  inodelog := 9
  inopblog := 0
  agblklog := 8
  inprogress := 0
  dirblklog := 0
  logsunit := 0
  featuresRoCompat := 6

theorem smallBlocks_accepted : smallBlocks.Accepted := by
  decide

abbrev zeroCrc : List UInt8 → ℕ := fun _ => 0

def smallDevice (sectors : List (ℕ × List UInt8)) : BlockRead where
  readAt offset len :=
    if offset + len ≤ 512 * 512 then
      .ok (((sectors.lookup (offset / 512)).getD []).takeD len 0)
    else .error (.io "a read past the device")
  length_eq := by
    intro offset len bytes h
    split at h
    · rw [← Except.ok.inj h, List.takeD_length]
    · cases h

def agfSector (fields : List (ℕ × ℕ)) : ℕ × List UInt8 :=
  (1, putWords ((0, xfsAgfMagic) :: (agfLength, 256) :: fields) (List.replicate 512 0))

def agflSector (entries : List ℕ) : ℕ × List UInt8 :=
  (3, putWords ((0, xfsAgflMagic) :: entries.zipIdx.map fun e => (36 + 4 * e.2, e.1))
    (List.replicate 512 0))

def treeSectors {T : Type} (codec : Codec T) (records : List T) (blocks : List ℕ) :
    List (ℕ × List UInt8) :=
  (build zeroCrc smallBlocks 0 codec records blocks).toOption.getD []

def calmDevice : BlockRead :=
  smallDevice ([agfSector [(agfRoots, 4), (agfRoots + 4, 5), (agfLevels, 1), (agfLevels + 4, 1),
    (agfFllast, 3), (agfFlcount, 4), (agfFreeblks, 50), (agfLongest, 50)],
    agflSector [8, 9, 10, 11]] ++ treeSectors (freeCodec .byBlock) [⟨100, 50⟩] [4] ++
    treeSectors (freeCodec .byCount) [⟨100, 50⟩] [5])

def calmEdits : List Edit :=
  [.take 3 131 0, .giveBack ⟨101, 1, by decide⟩]

def sampleRun (device : BlockRead) (edits : List Edit) (test : GroupAlloc → GroupAlloc → ℤ → Bool) :
    Bool :=
  match openGroup zeroCrc smallBlocks device 0 with
  | .error _ => false
  | .ok group =>
    match run zeroCrc smallBlocks device group edits with
    | .error _ => false
    | .ok (ed, moved) => test group ed moved

theorem sampleRun_spec {device : BlockRead} {edits : List Edit}
    {test : GroupAlloc → GroupAlloc → ℤ → Bool} (h : sampleRun device edits test = true) :
    ∃ group ed moved, openGroup zeroCrc smallBlocks device 0 = .ok group ∧
      run zeroCrc smallBlocks device group edits = .ok (ed, moved) ∧ test group ed moved = true := by
  unfold sampleRun at h
  split at h
  · cases h
  next group hopen =>
    split at h
    · cases h
    next ed moved hrun => exact ⟨group, ed, moved, hopen, hrun, h⟩

theorem calm_run : sampleRun calmDevice calmEdits (fun group ed moved =>
    decide (beAt group.agfRaw agfFreeblks 4 = totalFree group.byBlock ∧
      beAt group.agfRaw agfBtreeblks 4 = (group.bnoBlocks.length - 1) +
        (group.cntBlocks.length - 1) + ((treeBlocks group.rmap).length - 1) ∧
      beAt group.agfRaw agfRefcountBlocks 4 = (treeBlocks group.refcount).length) &&
    decide (moved = -2) && (intoItems zeroCrc smallBlocks calmDevice ed).toBool) = true := by
  decide +kernel

theorem heldBlocks_calm : ∃ group ed items,
    openGroup zeroCrc smallBlocks calmDevice 0 = .ok group ∧
      run zeroCrc smallBlocks calmDevice group calmEdits = .ok (ed, -2) ∧
      intoItems zeroCrc smallBlocks calmDevice ed = .ok items ∧
      (heldBlocks (headerAfter group items) : ℤ) = heldBlocks group.agfRaw + -2 := by
  obtain ⟨group, ed, moved, hopen, hrun, htest⟩ := sampleRun_spec calm_run
  simp only [Bool.and_eq_true, decide_eq_true_eq] at htest
  obtain ⟨⟨⟨hfree, hbtree, hrefcount⟩, rfl⟩, hitems⟩ := htest
  obtain ⟨items, hitems⟩ := exists_ok_of_toBool hitems
  exact ⟨group, ed, items, hopen, hrun, hitems,
    heldBlocks_intoItems smallBlocks_accepted hopen ⟨hfree, hbtree, hrefcount⟩ hrun hitems⟩

end FsXfs.Group
