/-
Module: OsSim.Library.Tiling
Purpose: Tilings of an interval by dyadic blocks, some of them free, in which
  free buddies have been coalesced.  Such a tiling is determined by its used
  blocks.
Trusted boundary: none
Main exports:
  Shape, Tiles, Coalesced, Buddied, tiles_sum, exists_free_cover,
  Buddied.unique, Pending, Pending.split, Pending.mergeRight,
  Pending.mergeLeft, Pending.finish
-/
import OsSim.Library.Dyadic

namespace Tiling

open Dyadic

variable {τ : Type*}

/-- What a tiling needs to know about its tiles. -/
structure Shape (τ : Type*) where
  start : τ → Nat
  size : τ → Nat
  free : τ → Prop

namespace Shape

/-- The first number behind a tile. -/
def stop (shape : Shape τ) (tile : τ) : Nat :=
  shape.start tile + shape.size tile

/-- A tile shares a number with the block of `size` numbers from `start`. -/
def Meets (shape : Shape τ) (tile : τ) (start size : Nat) : Prop :=
  shape.start tile < start + size ∧ start < shape.stop tile

end Shape

variable {shape : Shape τ}

/-- The tiles cover `[lo, hi)` in order and without overlap. -/
def Tiles (shape : Shape τ) : Nat → List τ → Nat → Prop
  | lo, [], hi => lo = hi
  | lo, tile :: rest, hi =>
      shape.start tile = lo ∧ Tiles shape (lo + shape.size tile) rest hi

/-- No two free tiles are buddies of each other. -/
def Coalesced (shape : Shape τ) (tiles : List τ) : Prop :=
  ∀ one ∈ tiles, ∀ other ∈ tiles, shape.free one → shape.free other →
    shape.size one = shape.size other →
    shape.start one ^^^ shape.size one ≠ shape.start other

/-- Every tile is a dyadic block. -/
def AllAligned (shape : Shape τ) (tiles : List τ) : Prop :=
  ∀ tile ∈ tiles, Aligned (shape.start tile) (shape.size tile)

/-- The tilings a buddy allocator keeps. -/
structure Buddied (shape : Shape τ) (lo : Nat) (tiles : List τ) (hi : Nat) :
    Prop where
  covered : Tiles shape lo tiles hi
  aligned : AllAligned shape tiles
  coalesced : Coalesced shape tiles

/-! ### Order and cover -/

theorem tiles_append {lo hi : Nat} {left right : List τ} :
    Tiles shape lo (left ++ right) hi ↔
      ∃ middle, Tiles shape lo left middle ∧ Tiles shape middle right hi := by
  induction left generalizing lo with
  | nil =>
      constructor
      · intro covered
        exact ⟨lo, rfl, covered⟩
      · rintro ⟨middle, same, covered⟩
        have same : lo = middle := same
        exact same ▸ covered
  | cons tile rest ih =>
      rw [List.cons_append, Tiles, ih]
      constructor
      · rintro ⟨first, middle, one, two⟩
        exact ⟨middle, ⟨first, one⟩, two⟩
      · rintro ⟨middle, ⟨first, one⟩, two⟩
        exact ⟨first, middle, one, two⟩

/-- A tiling around one of its tiles. -/
theorem tiles_middle {lo hi : Nat} {left right : List τ} {tile : τ} :
    Tiles shape lo (left ++ tile :: right) hi ↔
      Tiles shape lo left (shape.start tile) ∧
        Tiles shape (shape.stop tile) right hi := by
  rw [tiles_append]
  constructor
  · rintro ⟨middle, one, first, two⟩
    subst first
    exact ⟨one, two⟩
  · rintro ⟨one, two⟩
    exact ⟨shape.start tile, one, rfl, two⟩

theorem tiles_le {lo hi : Nat} {tiles : List τ}
    (covered : Tiles shape lo tiles hi) : lo ≤ hi := by
  induction tiles generalizing lo with
  | nil => exact Nat.le_of_eq covered
  | cons tile rest ih =>
      exact Nat.le_trans (Nat.le_add_right _ _) (ih covered.2)

/-- The sizes of the tiles add up to the length of the interval. -/
theorem tiles_sum {lo hi : Nat} {tiles : List τ}
    (covered : Tiles shape lo tiles hi) :
    lo + (tiles.map shape.size).sum = hi := by
  induction tiles generalizing lo with
  | nil => exact covered
  | cons tile rest ih =>
      rw [List.map_cons, List.sum_cons, ← Nat.add_assoc]
      exact ih covered.2

/-- Every tile lies in the interval that is tiled. -/
theorem tiles_bounds {lo hi : Nat} {tiles : List τ}
    (covered : Tiles shape lo tiles hi) {tile : τ} (member : tile ∈ tiles) :
    lo ≤ shape.start tile ∧ shape.stop tile ≤ hi := by
  obtain ⟨left, right, rfl⟩ := List.append_of_mem member
  rw [tiles_middle] at covered
  exact ⟨tiles_le covered.1, tiles_le covered.2⟩

/-- The tiles are in order, and each starts where the ones before it have
ended. -/
theorem tiles_pairwise {lo hi : Nat} {tiles : List τ}
    (covered : Tiles shape lo tiles hi) :
    tiles.Pairwise fun one other => shape.stop one ≤ shape.start other := by
  induction tiles generalizing lo with
  | nil => exact List.Pairwise.nil
  | cons tile rest ih =>
      obtain ⟨start, tail⟩ := covered
      refine List.pairwise_cons.mpr ⟨?_, ih tail⟩
      intro next member
      have bounds := (tiles_bounds tail member).1
      rwa [Shape.stop, start]

/-- Every number of the interval lies in a tile. -/
theorem tiles_cover {lo hi : Nat} {tiles : List τ}
    (covered : Tiles shape lo tiles hi) (point : Nat) (above : lo ≤ point)
    (below : point < hi) :
    ∃ tile ∈ tiles, shape.start tile ≤ point ∧ point < shape.stop tile := by
  induction tiles generalizing lo with
  | nil =>
      have same : lo = hi := covered
      omega
  | cons tile rest ih =>
      obtain ⟨first, tail⟩ := covered
      by_cases inside : point < shape.stop tile
      · exact ⟨tile, by simp, first ▸ above, inside⟩
      · rw [Shape.stop, first] at inside
        obtain ⟨found, member, bounds⟩ := ih tail (Nat.le_of_not_lt inside)
        exact ⟨found, List.mem_cons_of_mem tile member, bounds⟩

/-- Two tiles that share a number are the same. -/
theorem eq_of_meets {lo hi : Nat} {tiles : List τ}
    (covered : Tiles shape lo tiles hi) {one other : τ} (first : one ∈ tiles)
    (second : other ∈ tiles) (below : shape.start one < shape.stop other)
    (above : shape.start other < shape.stop one) : one = other := by
  induction tiles generalizing lo with
  | nil => simp at first
  | cons tile rest ih =>
      obtain ⟨start, tail⟩ := covered
      have later : ∀ {next : τ}, next ∈ rest →
          shape.stop tile ≤ shape.start next := by
        intro next member
        have bounds := (tiles_bounds tail member).1
        rwa [Shape.stop, start]
      rcases List.mem_cons.mp first with oneHead | oneTail
      · rcases List.mem_cons.mp second with otherHead | otherTail
        · rw [oneHead, otherHead]
        · subst oneHead
          exact absurd above (Nat.not_lt.mpr (later otherTail))
      · rcases List.mem_cons.mp second with otherHead | otherTail
        · subst otherHead
          exact absurd below (Nat.not_lt.mpr (later oneTail))
        · exact ih tail oneTail otherTail

/-- Tiles of positive size are told apart by where they start. -/
theorem eq_of_start_eq {lo hi : Nat} {tiles : List τ}
    (covered : Tiles shape lo tiles hi) (aligned : AllAligned shape tiles)
    {one other : τ} (first : one ∈ tiles) (second : other ∈ tiles)
    (same : shape.start one = shape.start other) : one = other := by
  have onePos := (aligned one first).pos
  have otherPos := (aligned other second).pos
  apply eq_of_meets covered first second
  · rw [Shape.stop, same]
    exact Nat.lt_add_of_pos_right otherPos
  · rw [Shape.stop, ← same]
    exact Nat.lt_add_of_pos_right onePos

/-- Two tilings of one interval with the same tiles are equal. -/
theorem tiles_ext {lo hi : Nat} {one other : List τ}
    (oneCovered : Tiles shape lo one hi)
    (otherCovered : Tiles shape lo other hi)
    (aligned : AllAligned shape one)
    (members : ∀ tile, tile ∈ one ↔ tile ∈ other) : one = other := by
  induction one generalizing lo other with
  | nil =>
      cases other with
      | nil => rfl
      | cons tile rest => exact absurd ((members tile).mpr (by simp)) (by simp)
  | cons tile rest ih =>
      cases other with
      | nil => exact absurd ((members tile).mp (by simp)) (by simp)
      | cons first tail =>
          have otherAligned : AllAligned shape (first :: tail) :=
            fun found member => aligned found ((members found).mpr member)
          have sameHead : tile = first :=
            eq_of_start_eq otherCovered otherAligned
              ((members tile).mp (by simp)) (by simp)
              (oneCovered.1.trans otherCovered.1.symm)
          subst sameHead
          have positive := (aligned tile (by simp)).pos
          have apart : ∀ {tiles : List τ},
              Tiles shape (lo + shape.size tile) tiles hi →
              tile ∉ tiles := by
            intro tiles covered member
            have bound := (tiles_bounds covered member).1
            have start := oneCovered.1
            omega
          have tails : ∀ found, found ∈ rest ↔ found ∈ tail := by
            intro found
            have whole := members found
            rw [List.mem_cons, List.mem_cons] at whole
            by_cases same : found = tile
            · subst same
              exact iff_of_false (apart oneCovered.2) (apart otherCovered.2)
            · simpa [same] using whole
          rw [ih oneCovered.2 otherCovered.2
            (fun found member => aligned found (List.mem_cons_of_mem _ member))
            tails]

/-! ### Free regions

Which free tiles a coalesced tiling has is decided by its used ones.  The key is a
dyadic region that meets free tiles only: it lies in one of them.  Otherwise it
would contain several, and a smallest of these would have its buddy in the region
too, covered by free tiles none of which is smaller, and so by one of the same
size.  A coalesced tiling has no such pair.  Two coalesced tilings with the same
used tiles therefore cover each other's free ones, and are equal.
-/

/-- In a coalesced tiling a dyadic region that meets free tiles only lies in
one of them.  A smallest tile inside the region would be the buddy of a free
tile of its own size. -/
theorem Buddied.exists_free_cover {lo hi start size : Nat} {tiles : List τ}
    (buddied : Buddied shape lo tiles hi) (region : Aligned start size)
    (above : lo ≤ start) (below : start + size ≤ hi)
    (unused : ∀ tile ∈ tiles, shape.Meets tile start size → shape.free tile) :
    ∃ tile ∈ tiles, shape.free tile ∧ shape.start tile ≤ start ∧
      start + size ≤ shape.stop tile := by
  have regionPos := region.pos
  -- A tile that meets the region and is at least as large covers it.
  have covers : ∀ tile ∈ tiles, shape.Meets tile start size →
      size ≤ shape.size tile →
      shape.start tile ≤ start ∧ start + size ≤ shape.stop tile := by
    intro tile member meets large
    exact region.nested (buddied.aligned tile member) large meets.2 meets.1
  -- No tile that meets the region is smaller: induction on its size.
  have small : ∀ bound, ∀ tile ∈ tiles, shape.Meets tile start size →
      shape.size tile = bound → shape.size tile < size → False := by
    intro bound
    induction bound using Nat.strong_induction_on with
    | _ bound ih =>
        intro tile member meets sizeEq smaller
        have aligned := buddied.aligned tile member
        have positive := aligned.pos
        have double := aligned.two_mul_le region smaller
        -- The tile and its buddy fill a block `parent` inside the region.
        have parent : ∃ base, Aligned base (2 * shape.size tile) ∧
            base ≤ shape.start tile ∧
            shape.stop tile ≤ base + 2 * shape.size tile ∧
            base ≤ shape.start tile ^^^ shape.size tile ∧
            (shape.start tile ^^^ shape.size tile) + shape.size tile ≤
              base + 2 * shape.size tile := by
          by_cases left : 2 * shape.size tile ∣ shape.start tile
          · have buddy := aligned.xor_of_dvd left
            refine ⟨shape.start tile, aligned.double left, ?_⟩
            rw [buddy, Shape.stop]
            omega
          · have buddy := aligned.xor_of_not_dvd left
            refine ⟨shape.start tile - shape.size tile,
              aligned.double_sub left, ?_⟩
            rw [buddy.2, Shape.stop]
            omega
        obtain ⟨base, parentAligned, baseLe, stopLe, buddyGe, buddyLe⟩ := parent
        have inside := parentAligned.nested region double
          (by unfold Shape.Meets Shape.stop at meets; omega)
          (by unfold Shape.Meets Shape.stop at *; omega)
        obtain ⟨other, otherMember, otherLe, otherGt⟩ :=
          tiles_cover buddied.covered
            (shape.start tile ^^^ shape.size tile)
            (by omega) (by omega)
        have otherAligned := buddied.aligned other otherMember
        have otherMeets : shape.Meets other start size :=
          ⟨by omega, by omega⟩
        rcases Nat.lt_trichotomy (shape.size other) (shape.size tile) with
          less | same | greater
        · exact ih (shape.size other) (sizeEq ▸ less) other otherMember
            otherMeets rfl (Nat.lt_trans less smaller)
        · have buddyAligned : Aligned (shape.start tile ^^^ shape.size tile)
              (shape.size tile) := by
            refine ⟨aligned.order, ?_⟩
            by_cases left : 2 * shape.size tile ∣ shape.start tile
            · rw [aligned.xor_of_dvd left]
              exact Nat.dvd_add_self_right.mpr aligned.dvd
            · rw [(aligned.xor_of_not_dvd left).2]
              exact Nat.dvd_sub aligned.dvd (Nat.dvd_refl _)
          have nested := buddyAligned.nested otherAligned (Nat.le_of_eq same.symm)
            (by unfold Shape.stop at otherGt; exact otherGt) (by omega)
          have sameStart :
              shape.start tile ^^^ shape.size tile = shape.start other := by
            omega
          exact buddied.coalesced tile member other otherMember
            (unused tile member meets) (unused other otherMember otherMeets)
            same.symm sameStart
        · have large := aligned.two_mul_le otherAligned greater
          have nested := parentAligned.nested otherAligned large
            (by unfold Shape.stop at otherGt; omega)
            (by omega)
          have equal : tile = other :=
            eq_of_meets buddied.covered member otherMember
              (by unfold Shape.stop at *; omega)
              (by unfold Shape.stop at *; omega)
          rw [equal] at greater
          exact Nat.lt_irrefl _ greater
  obtain ⟨tile, member, startLe, stopGt⟩ :=
    tiles_cover buddied.covered start above (Nat.lt_of_lt_of_le
      (Nat.lt_add_of_pos_right regionPos) below)
  have meets : shape.Meets tile start size := ⟨by omega, stopGt⟩
  have large : size ≤ shape.size tile :=
    Nat.le_of_not_lt fun less => small _ tile member meets rfl less
  exact ⟨tile, member, unused tile member meets,
    covers tile member meets large⟩

/-- A free tile of one coalesced tiling lies in a free tile of any other one
with the same used tiles. -/
private theorem free_tile_covered {lo hi : Nat} {one other : List τ}
    (oneBuddied : Buddied shape lo one hi)
    (otherBuddied : Buddied shape lo other hi)
    (used : ∀ tile, ¬ shape.free tile → (tile ∈ one ↔ tile ∈ other))
    {tile : τ} (member : tile ∈ one) (free : shape.free tile) :
    ∃ cover ∈ other, shape.free cover ∧
      shape.start cover ≤ shape.start tile ∧
      shape.stop tile ≤ shape.stop cover := by
  have bounds := tiles_bounds oneBuddied.covered member
  apply otherBuddied.exists_free_cover (oneBuddied.aligned tile member)
    bounds.1 bounds.2
  intro found foundMember meets
  by_cases foundFree : shape.free found
  · exact foundFree
  · have inOne := (used found foundFree).mpr foundMember
    have same := eq_of_meets oneBuddied.covered inOne member meets.1 meets.2
    rw [same]
    exact free

/-- The used tiles of a coalesced tiling determine the whole tiling, provided a
free tile is no more than the block it covers. -/
theorem Buddied.unique {lo hi : Nat} {one other : List τ}
    (oneBuddied : Buddied shape lo one hi)
    (otherBuddied : Buddied shape lo other hi)
    (freeExt : ∀ {s t : τ}, shape.free s → shape.free t →
      shape.start s = shape.start t → shape.size s = shape.size t → s = t)
    (used : ∀ tile, ¬ shape.free tile → (tile ∈ one ↔ tile ∈ other)) :
    one = other := by
  -- Covering a free tile back and forth returns to the tile itself.
  have transfer : ∀ {first second : List τ}, Buddied shape lo first hi →
      Buddied shape lo second hi →
      (∀ tile, ¬ shape.free tile → (tile ∈ first ↔ tile ∈ second)) →
      ∀ tile ∈ first, shape.free tile → tile ∈ second := by
    intro first second firstBuddied secondBuddied same tile member free
    have positive := (firstBuddied.aligned tile member).pos
    obtain ⟨cover, coverMember, coverFree, startLe, stopGe⟩ :=
      free_tile_covered firstBuddied secondBuddied same member free
    obtain ⟨back, backMember, _, backLe, backGe⟩ :=
      free_tile_covered secondBuddied firstBuddied
        (fun found busy => (same found busy).symm) coverMember coverFree
    have backEq : back = tile := by
      apply eq_of_meets firstBuddied.covered backMember member
      · unfold Shape.stop at *
        omega
      · unfold Shape.stop at *
        omega
    subst backEq
    have coverEq : back = cover := by
      apply freeExt free coverFree
      · omega
      · unfold Shape.stop at *
        omega
    rw [coverEq]
    exact coverMember
  apply tiles_ext oneBuddied.covered otherBuddied.covered oneBuddied.aligned
  intro tile
  by_cases free : shape.free tile
  · constructor
    · intro member
      exact transfer oneBuddied otherBuddied used tile member free
    · intro member
      exact transfer otherBuddied oneBuddied
        (fun found busy => (used found busy).symm) tile member free
  · exact used tile free

/-! ### Splitting and merging one tile

While an allocator works on one tile, buddies may be missing their partner
there: the tiling around it is coalesced only apart from that tile.
-/

/-- A tiling that is coalesced apart from one tile. -/
structure Pending (shape : Shape τ) (lo : Nat) (left : List τ) (tile : τ)
    (right : List τ) (hi : Nat) : Prop where
  covered : Tiles shape lo (left ++ tile :: right) hi
  aligned : AllAligned shape (left ++ tile :: right)
  coalesced : Coalesced shape (left ++ right)

namespace Pending

variable {lo hi : Nat} {left right : List τ} {tile : τ}

theorem tile_aligned (pending : Pending shape lo left tile right hi) :
    Aligned (shape.start tile) (shape.size tile) :=
  pending.aligned tile (by simp)

/-- Tiles to the left of the pending one stop where it starts. -/
theorem stop_le (pending : Pending shape lo left tile right hi) {other : τ}
    (member : other ∈ left) : shape.stop other ≤ shape.start tile :=
  (tiles_bounds (tiles_middle.mp pending.covered).1 member).2

/-- Tiles to the right of the pending one start where it stops. -/
theorem le_start (pending : Pending shape lo left tile right hi) {other : τ}
    (member : other ∈ right) : shape.stop tile ≤ shape.start other :=
  (tiles_bounds (tiles_middle.mp pending.covered).2 member).1

/-- No other tile starts where the pending one does. -/
theorem start_ne (pending : Pending shape lo left tile right hi) {other : τ}
    (member : other ∈ left ++ right) :
    shape.start other ≠ shape.start tile := by
  intro same
  have tilePos := pending.tile_aligned.pos
  rcases List.mem_append.mp member with inLeft | inRight
  · have stop := pending.stop_le inLeft
    have positive := (pending.aligned other (by simp [inLeft])).pos
    unfold Shape.stop at stop
    omega
  · have start := pending.le_start inRight
    unfold Shape.stop at start
    omega

/-- Any tile of a coalesced tiling may be worked on. -/
theorem of_buddied (buddied : Buddied shape lo (left ++ tile :: right) hi) :
    Pending shape lo left tile right hi := by
  refine ⟨buddied.covered, buddied.aligned, ?_⟩
  have inside : ∀ {other : τ}, other ∈ left ++ right →
      other ∈ left ++ tile :: right := by
    intro other member
    rcases List.mem_append.mp member with inLeft | inRight
    · simp [inLeft]
    · simp [inRight]
  intro one oneMember other otherMember
  exact buddied.coalesced one (inside oneMember) other (inside otherMember)

/-- Replacing the pending tile by one of the same extent changes nothing. -/
theorem replace (pending : Pending shape lo left tile right hi) {other : τ}
    (start : shape.start other = shape.start tile)
    (size : shape.size other = shape.size tile) :
    Pending shape lo left other right hi := by
  refine ⟨?_, ?_, pending.coalesced⟩
  · have covered := tiles_middle.mp pending.covered
    rw [tiles_middle, start, Shape.stop, start, size]
    exact covered
  · intro found member
    rcases List.mem_append.mp member with inLeft | inRest
    · exact pending.aligned found (by simp [inLeft])
    · rcases List.mem_cons.mp inRest with same | inRight
      · rw [same, start, size]
        exact pending.tile_aligned
      · exact pending.aligned found (by simp [inRight])

/-- Splitting the pending tile: the work goes on with its left half, and its
right half becomes a tile of its own. -/
theorem split (pending : Pending shape lo left tile right hi)
    (large : 1 < shape.size tile) {first second : τ}
    (firstStart : shape.start first = shape.start tile)
    (firstSize : shape.size first = shape.size tile / 2)
    (secondStart : shape.start second =
      shape.start tile + shape.size tile / 2)
    (secondSize : shape.size second = shape.size tile / 2) :
    Pending shape lo left first (second :: right) hi := by
  have twice := pending.tile_aligned.two_mul_half large
  have whole : Aligned (shape.start tile) (2 * (shape.size tile / 2)) :=
    twice.symm ▸ pending.tile_aligned
  obtain ⟨firstAligned, secondAligned⟩ := whole.halves
  have covered := tiles_middle.mp pending.covered
  refine ⟨?_, ?_, ?_⟩
  · rw [tiles_middle, firstStart]
    refine ⟨covered.1, ?_, ?_⟩
    · rw [Shape.stop, secondStart, firstStart, firstSize]
    · have stop : shape.stop first + shape.size second = shape.stop tile := by
        unfold Shape.stop
        omega
      rw [stop]
      exact covered.2
  · intro found member
    rcases List.mem_append.mp member with inLeft | inRest
    · exact pending.aligned found (by simp [inLeft])
    · rcases List.mem_cons.mp inRest with isFirst | inTail
      · rw [isFirst, firstStart, firstSize]
        exact firstAligned
      · rcases List.mem_cons.mp inTail with isSecond | inRight
        · rw [isSecond, secondStart, secondSize]
          exact secondAligned
        · exact pending.aligned found (by simp [inRight])
  · -- The buddy of the new half starts where the pending tile does.
    have buddy : shape.start second ^^^ shape.size second =
        shape.start tile := by
      have flip := firstAligned.xor_of_dvd whole.dvd
      rw [secondStart, secondSize, ← flip, Nat.xor_assoc, Nat.xor_self,
        Nat.xor_zero]
    have members : ∀ {found : τ}, found ∈ left ++ second :: right →
        found = second ∨ found ∈ left ++ right := by
      intro found member
      simp only [List.mem_append, List.mem_cons] at member ⊢
      tauto
    intro one oneMember other otherMember oneFree otherFree sizes meets
    rcases members oneMember with oneSecond | oneOld
    · rcases members otherMember with otherSecond | otherOld
      · subst oneSecond otherSecond
        rw [buddy] at meets
        omega
      · subst oneSecond
        rw [buddy] at meets
        exact pending.start_ne otherOld meets.symm
    · rcases members otherMember with otherSecond | otherOld
      · subst otherSecond
        have back : shape.start one = shape.start tile := by
          rw [← buddy, ← meets, ← sizes, Nat.xor_assoc, Nat.xor_self,
            Nat.xor_zero]
        exact pending.start_ne oneOld back
      · exact pending.coalesced one oneOld other otherOld oneFree otherFree
          sizes meets

/-- Merging the pending tile, a left half, with the next one. -/
theorem mergeRight {buddy : τ}
    (pending : Pending shape lo left tile (buddy :: right) hi)
    (isLeft : 2 * shape.size tile ∣ shape.start tile)
    (same : shape.size buddy = shape.size tile) {merged : τ}
    (start : shape.start merged = shape.start tile)
    (size : shape.size merged = 2 * shape.size tile) :
    Pending shape lo left merged right hi := by
  have covered := tiles_middle.mp pending.covered
  refine ⟨?_, ?_, ?_⟩
  · rw [tiles_middle, start]
    refine ⟨covered.1, ?_⟩
    have stop : shape.stop merged = shape.stop tile + shape.size buddy := by
      unfold Shape.stop
      omega
    rw [stop]
    exact covered.2.2
  · intro found member
    rcases List.mem_append.mp member with inLeft | inRest
    · exact pending.aligned found (by simp [inLeft])
    · rcases List.mem_cons.mp inRest with isMerged | inRight
      · rw [isMerged, start, size]
        exact pending.tile_aligned.double isLeft
      · exact pending.aligned found (by simp [inRight])
  · intro one oneMember other otherMember
    apply pending.coalesced one _ other
    · simp only [List.mem_append, List.mem_cons] at otherMember ⊢
      tauto
    · simp only [List.mem_append, List.mem_cons] at oneMember ⊢
      tauto

/-- Merging the pending tile, a right half, with the previous one. -/
theorem mergeLeft {buddy : τ}
    (pending : Pending shape lo (left ++ [buddy]) tile right hi)
    (isRight : ¬ 2 * shape.size tile ∣ shape.start tile)
    (same : shape.size buddy = shape.size tile) {merged : τ}
    (start : shape.start merged = shape.start buddy)
    (size : shape.size merged = 2 * shape.size tile) :
    Pending shape lo left merged right hi := by
  have covered := tiles_middle.mp pending.covered
  have leftCovered := tiles_middle.mp covered.1
  have stopEq : shape.stop buddy = shape.start tile := leftCovered.2
  have aligned := pending.tile_aligned.double_sub isRight
  have startEq : shape.start tile - shape.size tile = shape.start buddy := by
    unfold Shape.stop at stopEq
    omega
  refine ⟨?_, ?_, ?_⟩
  · rw [tiles_middle, start]
    refine ⟨leftCovered.1, ?_⟩
    have stop : shape.stop merged = shape.stop tile := by
      unfold Shape.stop at *
      omega
    rw [stop]
    exact covered.2
  · intro found member
    rcases List.mem_append.mp member with inLeft | inRest
    · exact pending.aligned found (by simp [inLeft])
    · rcases List.mem_cons.mp inRest with isMerged | inRight
      · rw [isMerged, start, size, ← startEq]
        exact aligned
      · exact pending.aligned found (by simp [inRight])
  · intro one oneMember other otherMember
    apply pending.coalesced one _ other
    · simp only [List.mem_append, List.mem_cons] at otherMember ⊢
      tauto
    · simp only [List.mem_append, List.mem_cons] at oneMember ⊢
      tauto

/-- The work is done once no free tile is the buddy of a free pending one. -/
theorem finish (pending : Pending shape lo left tile right hi)
    (alone : shape.free tile → ∀ other ∈ left ++ right, shape.free other →
      shape.size tile = shape.size other →
      shape.start tile ^^^ shape.size tile ≠ shape.start other) :
    Buddied shape lo (left ++ tile :: right) hi := by
  refine ⟨pending.covered, pending.aligned, ?_⟩
  have members : ∀ {found : τ}, found ∈ left ++ tile :: right →
      found = tile ∨ found ∈ left ++ right := by
    intro found member
    simp only [List.mem_append, List.mem_cons] at member ⊢
    tauto
  intro one oneMember other otherMember oneFree otherFree sizes meets
  rcases members oneMember with oneTile | oneOld
  · subst oneTile
    rcases members otherMember with otherTile | otherOld
    · subst otherTile
      have aligned := pending.tile_aligned
      have positive := aligned.pos
      by_cases isLeft : 2 * shape.size other ∣ shape.start other
      · rw [aligned.xor_of_dvd isLeft] at meets
        omega
      · have flip := aligned.xor_of_not_dvd isLeft
        rw [flip.2] at meets
        omega
    · exact alone oneFree other otherOld otherFree sizes meets
  · rcases members otherMember with otherTile | otherOld
    · subst otherTile
      apply alone otherFree one oneOld oneFree sizes.symm
      rw [← meets, ← sizes, Nat.xor_assoc, Nat.xor_self, Nat.xor_zero]
    · exact pending.coalesced one oneOld other otherOld oneFree otherFree
        sizes meets

/-- A used pending tile needs no buddy. -/
theorem finish_used (pending : Pending shape lo left tile right hi)
    (used : ¬ shape.free tile) :
    Buddied shape lo (left ++ tile :: right) hi :=
  pending.finish fun free => absurd free used

/-- The only tile that can be the buddy of a left half is the next one. -/
theorem finish_left_half (pending : Pending shape lo left tile right hi)
    (isLeft : 2 * shape.size tile ∣ shape.start tile)
    (blocked : ∀ next ∈ right.head?, shape.free next →
      shape.size next ≠ shape.size tile) :
    Buddied shape lo (left ++ tile :: right) hi := by
  apply pending.finish
  intro _ other member otherFree sizes meets
  rw [pending.tile_aligned.xor_of_dvd isLeft] at meets
  have positive := pending.tile_aligned.pos
  have otherPos : 0 < shape.size other := sizes ▸ positive
  rcases List.mem_append.mp member with inLeft | inRight
  · have stop := pending.stop_le inLeft
    unfold Shape.stop at stop
    omega
  · cases right with
    | nil => simp at inRight
    | cons next rest =>
        have covered := (tiles_middle.mp pending.covered).2
        have nextStart : shape.start next = shape.stop tile := covered.1
        have isNext : other = next := by
          apply eq_of_start_eq covered
            (fun found inside => pending.aligned found
              (List.mem_append_right _ (List.mem_cons_of_mem _ inside)))
            inRight (by simp)
          rw [nextStart, Shape.stop, meets]
        subst isNext
        exact blocked other (by simp) otherFree sizes.symm

/-- The only tile that can be the buddy of a right half is the previous one. -/
theorem finish_right_half (pending : Pending shape lo left tile right hi)
    (isRight : ¬ 2 * shape.size tile ∣ shape.start tile)
    (blocked : ∀ previous ∈ left.getLast?, shape.free previous →
      shape.size previous ≠ shape.size tile) :
    Buddied shape lo (left ++ tile :: right) hi := by
  apply pending.finish
  intro _ other member otherFree sizes meets
  have flip := pending.tile_aligned.xor_of_not_dvd isRight
  rw [flip.2] at meets
  have positive := pending.tile_aligned.pos
  rcases List.mem_append.mp member with inLeft | inRight
  · obtain ⟨front, previous, split⟩ :=
      List.eq_nil_or_concat left |>.resolve_left (List.ne_nil_of_mem inLeft)
    rw [List.concat_eq_append] at split
    subst split
    have covered := (tiles_middle.mp pending.covered).1
    have stopEq : shape.stop previous = shape.start tile :=
      (tiles_middle.mp covered).2
    have previousPos :=
      (pending.aligned previous (by simp)).pos
    have isPrevious : other = previous := by
      apply eq_of_meets covered inLeft (by simp)
      · unfold Shape.stop at *
        omega
      · unfold Shape.stop at *
        omega
    subst isPrevious
    exact blocked other (by simp) otherFree sizes.symm
  · have start := pending.le_start inRight
    unfold Shape.stop at start
    omega

end Pending

end Tiling
