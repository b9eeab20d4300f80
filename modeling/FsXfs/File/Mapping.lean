import FsXfs.Extent
import Mathlib.Data.List.Sort

/-!
# What an extent list maps

A fork's extents are a partial map from file blocks to filesystem blocks. The data paths cut, shift,
join and sort the list; what they mean to do is said of the map.
-/

namespace FsXfs.File

set_option autoImplicit false

def byStart (a b : Extent) : Prop :=
  a.startoff ≤ b.startoff

instance : DecidableRel byStart :=
  fun a b => inferInstanceAs (Decidable (a.startoff ≤ b.startoff))

instance : Std.Total byStart :=
  ⟨fun a b => Nat.le_total a.startoff b.startoff⟩

instance : IsTrans Extent byStart :=
  ⟨fun _ _ _ h h' => Nat.le_trans h h'⟩

/-! ## Lists in order -/

variable {extents l l' : List Extent}

theorem sorted_iff :
    Sorted extents ↔ extents.Pairwise (fun a b => a.endOffset ≤ b.startoff) ∧
      ∀ e ∈ extents, 0 < e.blockcount := by
  induction extents with
  | nil => simp [Sorted]
  | cons e rest ih =>
    cases rest with
    | nil => simp [Sorted]
    | cons f rest =>
      simp only [Sorted, ih, List.pairwise_cons, List.forall_mem_cons]
      constructor
      · rintro ⟨hpos, hle, ⟨hf, hrest⟩, hfpos, hall⟩
        refine ⟨⟨⟨hle, fun x hx => ?_⟩, hf, hrest⟩, hpos, hfpos, hall⟩
        have hfx := hf x hx
        unfold Extent.endOffset at hfx hle ⊢
        omega
      · rintro ⟨⟨⟨hle, -⟩, hf, hrest⟩, hpos, hfpos, hall⟩
        exact ⟨hpos, hle, ⟨hf, hrest⟩, hfpos, hall⟩

def Clear (a b : Extent) : Prop :=
  a.endOffset ≤ b.startoff ∨ b.endOffset ≤ a.startoff

instance : Std.Symm Clear :=
  ⟨fun _ _ h => h.symm⟩

/-- No file block is covered twice. -/
structure Apart (extents : List Extent) : Prop where
  apart : extents.Pairwise Clear
  pos : ∀ e ∈ extents, 0 < e.blockcount

theorem Apart.perm (h : Apart l) (hperm : l.Perm l') : Apart l' where
  apart := (hperm.pairwise_iff fun hab => hab.symm).mp h.apart
  pos := fun e he => h.pos e (hperm.mem_iff.mpr he)

theorem apart_append : Apart (l ++ l') ↔ Apart l ∧ Apart l' ∧ ∀ a ∈ l, ∀ b ∈ l', Clear a b := by
  constructor
  · rintro ⟨hapart, hpos⟩
    obtain ⟨hl, hl', hcross⟩ := List.pairwise_append.mp hapart
    exact ⟨⟨hl, fun e he => hpos e (List.mem_append_left _ he)⟩,
      ⟨hl', fun e he => hpos e (List.mem_append_right _ he)⟩, hcross⟩
  · rintro ⟨hl, hl', hcross⟩
    refine ⟨List.pairwise_append.mpr ⟨hl.apart, hl'.apart, hcross⟩, fun e he => ?_⟩
    rcases List.mem_append.mp he with he | he
    · exact hl.pos e he
    · exact hl'.pos e he

theorem apart_of_sorted (h : Sorted extents) : Apart extents where
  apart := (sorted_iff.mp h).1.imp fun hab => .inl hab
  pos := (sorted_iff.mp h).2

theorem sorted_of_byStart (h : Apart extents)
    (horder : extents.Pairwise byStart) : Sorted extents := by
  refine sorted_iff.mpr ⟨?_, h.pos⟩
  refine (h.apart.and horder).imp_of_mem fun {a b} ha hb hab => ?_
  obtain ⟨hapart, hle⟩ := hab
  have hposb := h.pos b hb
  unfold byStart at hle
  unfold Clear Extent.endOffset at *
  omega

theorem Apart.sorted (h : Apart extents) :
    Sorted (extents.insertionSort byStart) :=
  sorted_of_byStart (h.perm (List.perm_insertionSort byStart extents).symm)
    (List.pairwise_insertionSort byStart extents)

/-! ## The map -/

def MapsTo (extents : List Extent) (fb phys : ℕ) (unwritten : Bool) : Prop :=
  ∃ e ∈ extents, e.contains fb = true ∧ phys = e.startblock + (fb - e.startoff) ∧
    unwritten = e.unwritten

section

variable {l l' : List Extent} {fb phys : ℕ} {u : Bool}

theorem mapsTo_append : MapsTo (l ++ l') fb phys u ↔ MapsTo l fb phys u ∨ MapsTo l' fb phys u := by
  simp only [MapsTo, List.mem_append, or_and_right, exists_or]

theorem mapsTo_nil : MapsTo [] fb phys u ↔ False := by
  simp [MapsTo]

variable {e : Extent}

theorem mapsTo_singleton : MapsTo [e] fb phys u ↔ e.contains fb = true ∧
    phys = e.startblock + (fb - e.startoff) ∧ u = e.unwritten := by
  simp [MapsTo]

theorem mapsTo_cons : MapsTo (e :: l) fb phys u ↔ MapsTo [e] fb phys u ∨ MapsTo l fb phys u := by
  rw [← List.singleton_append, mapsTo_append]

theorem mapsTo_flatMap {α : Type} {xs : List α} {f : α → List Extent} :
    MapsTo (xs.flatMap f) fb phys u ↔ ∃ x ∈ xs, MapsTo (f x) fb phys u := by
  simp only [MapsTo, List.mem_flatMap]
  constructor
  · rintro ⟨e, ⟨x, hx, he⟩, h⟩
    exact ⟨x, hx, e, he, h⟩
  · rintro ⟨x, hx, e, he, h⟩
    exact ⟨e, ⟨x, hx, he⟩, h⟩

theorem mapsTo_iff_singletons : MapsTo l fb phys u ↔ ∃ e ∈ l, MapsTo [e] fb phys u := by
  refine ⟨fun ⟨e, he, h⟩ => ⟨e, he, mapsTo_singleton.mpr h⟩, fun ⟨e, he, h⟩ => ⟨e, he, ?_⟩⟩
  exact mapsTo_singleton.mp h

theorem mapsTo_perm (h : l.Perm l') : MapsTo l fb phys u ↔ MapsTo l' fb phys u := by
  simp only [MapsTo, h.mem_iff]

theorem holds_of_mapsTo (h : MapsTo l fb phys u) : ∃ e ∈ l, e.Holds phys := by
  obtain ⟨e, he, hc, rfl, -⟩ := h
  have := Extent.contains_iff.mp hc
  exact ⟨e, he, by omega, by omega⟩

theorem Apart.mapsTo_unique {phys' : ℕ} {u' : Bool} (hl : Apart l) (h : MapsTo l fb phys u)
    (h' : MapsTo l fb phys' u') : phys = phys' ∧ u = u' := by
  obtain ⟨e, he, hc, rfl, rfl⟩ := h
  obtain ⟨e', he', hc', rfl, rfl⟩ := h'
  by_cases heq : e = e'
  · subst heq
    exact ⟨rfl, rfl⟩
  · have hclear := hl.apart.forall he he' heq
    have h1 := Extent.contains_iff.mp hc
    have h2 := Extent.contains_iff.mp hc'
    unfold Clear Extent.endOffset at hclear
    omega

theorem lookup_eq_some_iff (hl : Sorted l) :
    lookup l fb = some e ↔ e ∈ l ∧ e.contains fb = true := by
  refine ⟨lookup_mem, fun ⟨he, hc⟩ => ?_⟩
  obtain ⟨hpair, hpos⟩ := sorted_iff.mp hl
  have hin := Extent.contains_iff.mp hc
  obtain ⟨front, back, rfl⟩ := List.append_of_mem he
  have hfront : ∀ x ∈ front, decide (x.endOffset ≤ fb) = true := by
    intro x hx
    have hxe := (List.pairwise_append.mp hpair).2.2 x hx e List.mem_cons_self
    rw [decide_eq_true_eq]
    omega
  rw [lookup, List.dropWhile_append_of_pos hfront, List.dropWhile_cons_of_neg
    (by rw [decide_eq_true_eq]; unfold Extent.endOffset; omega), List.head?_cons]
  simp [hc]

theorem lookup_eq_none_iff (hl : Sorted l) :
    lookup l fb = none ↔ ∀ phys u, ¬MapsTo l fb phys u := by
  constructor
  · rintro h phys u ⟨e, he, hc, -⟩
    rw [(lookup_eq_some_iff hl).mpr ⟨he, hc⟩] at h
    cases h
  · intro h
    cases hlook : lookup l fb with
    | none => rfl
    | some e =>
      obtain ⟨he, hc⟩ := lookup_mem hlook
      exact absurd ⟨e, he, hc, rfl, rfl⟩ (h _ e.unwritten)

end

/-! ## Pieces of extents -/

theorem apart_flatMap {f : Extent → List Extent} (hl : Apart l)
    (hf : ∀ e ∈ l, Apart (f e))
    (hin : ∀ e ∈ l, ∀ x ∈ f e, e.startoff ≤ x.startoff ∧ x.endOffset ≤ e.endOffset) :
    Apart (l.flatMap f) where
  apart := by
    refine List.pairwise_flatMap.mpr ⟨fun e he => (hf e he).apart, ?_⟩
    refine hl.apart.imp_of_mem fun {a b} ha hb hab x hx y hy => ?_
    have hx' := hin a ha x hx
    have hy' := hin b hb y hy
    unfold Clear at hab ⊢
    omega
  pos := fun x hx => by
    obtain ⟨e, he, hx⟩ := List.mem_flatMap.mp hx
    exact (hf e he).pos x hx

instance (e : Extent) (b : ℕ) : Decidable (e.Holds b) :=
  inferInstanceAs (Decidable (_ ∧ _))

/-- How many of the extents map a filesystem block. -/
def countHolds (b : ℕ) (extents : List Extent) : ℕ :=
  extents.countP fun e => decide (e.Holds b)

theorem countHolds_cons (b : ℕ) (e : Extent) (l : List Extent) :
    countHolds b (e :: l) = countHolds b l + if e.Holds b then 1 else 0 := by
  simp [countHolds, List.countP_cons]

theorem countHolds_append (b : ℕ) (l l' : List Extent) :
    countHolds b (l ++ l') = countHolds b l + countHolds b l' :=
  List.countP_append

theorem countHolds_perm (b : ℕ) (h : l.Perm l') :
    countHolds b l = countHolds b l' :=
  h.countP_eq _

theorem countHolds_pos_iff {b : ℕ} : 0 < countHolds b l ↔ ∃ e ∈ l, e.Holds b := by
  simp [countHolds, List.countP_pos_iff]

end FsXfs.File
