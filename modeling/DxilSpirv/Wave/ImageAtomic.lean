import DxilSpirv.Wave.Helpers

/-!
# The compacted image atomic

The helper that writes sampler feedback: in every turn of its loop the lanes with the coordinate of
the first lane combine their values, and an elected lane does one atomic for all of them, on its own
image.
-/

namespace DxilSpirv.Wave

open DxilSpirv.Spirv

/-- A coordinate of an image, or of an array of images. -/
abbrev Coord (array : Bool) := Fin (if array then 3 else 2) → BitVec 32

/-- The texels of all images. -/
abbrev Texels (array : Bool) := Nat → Coord array → BitVec 64

/-- The arguments of the helper in each lane: `img`, `coord`, `value` and `active_lane`. -/
structure Feedback (n : Nat) (array : Bool) where
  image : Fin n → Nat
  coord : Fin n → Coord array
  value : Fin n → BitVec 64
  activeLane : Fin n → Bool

variable {n : Nat} {array : Bool}

/-- `OpAtomicOr`. -/
def atomicOr (image : Nat) (coord : Coord array) (value : BitVec 64) (texels : Texels array) :
    Texels array :=
  fun image' coord' => if image' = image ∧ coord' = coord then texels image' coord' ||| value
    else texels image' coord'

namespace Feedback

variable (s : Feedback n array)

/-- `write_block`, for the lanes that enter it: one lane is elected. -/
def write (writers : Finset (Fin n)) (texels : Texels array) : Texels array :=
  match firstLane writers with
  | some elected =>
    atomicOr (s.image elected) (s.coord elected) (reduce (· ||| ·) 0#64 writers s.value) texels
  | none => texels

/-- The loop, for the lanes that are not done. -/
def loop : Nat → Finset (Fin n) → Texels array → Option (Texels array)
  | fuel, lanes, texels =>
    if lanes = ∅ then some texels
    else
      match fuel with
      | 0 => none
      | fuel + 1 =>
        loop fuel (lanes.filter fun lane => agreesWithFirst lanes s.coord lane = false)
          (s.write (lanes.filter fun lane => agreesWithFirst lanes s.coord lane = true) texels)

/-- The lanes of a subgroup that enter the loop. -/
def participants (lanes : Finset (Fin n)) : Finset (Fin n) :=
  lanes.filter fun lane => s.activeLane lane = true

/-- `build_image_atomic_r64_compact`: the function, called by the lanes of a subgroup. -/
def writeFeedback (fuel : Nat) (lanes : Finset (Fin n)) (texels : Texels array) :
    Option (Texels array) :=
  s.loop fuel (s.participants lanes) texels

/-- Every texel has its old value and the values of the lanes that name it. -/
def WritesAll (lanes : Finset (Fin n)) (texels final : Texels array) : Prop :=
  ∀ image coord, final image coord = texels image coord ||| reduce (· ||| ·) 0#64
    ((s.participants lanes).filter fun lane => s.image lane = image ∧ s.coord lane = coord) s.value

/-- The first lane with a coordinate has the image of every lane with the coordinate that has a
value. -/
def ImagesAgree (lanes : Finset (Fin n)) : Prop :=
  ∀ lane ∈ s.participants lanes, ∀ first,
    firstLane ((s.participants lanes).filter fun j => s.coord j = s.coord lane) = some first →
      s.image lane = s.image first ∨ s.value lane = 0

variable {s}

/-- What is written for a coordinate: the values of its lanes go to the image of the first of
them. -/
def Written (s : Feedback n array) (lanes : Finset (Fin n)) (image : Nat) (coord : Coord array)
    (b : Nat) : Prop :=
  ∃ first, firstLane (lanes.filter fun j => s.coord j = coord) = some first ∧
    s.image first = image ∧ ∃ j ∈ lanes, s.coord j = coord ∧ (s.value j).getLsbD b = true

/-- The bits of a texel after a write. -/
theorem getLsbD_write {lanes : Finset (Fin n)} {f : Fin n} (hf : firstLane lanes = some f)
    (texels : Texels array) (image : Nat) (coord : Coord array) (b : Nat) :
    (s.write (lanes.filter fun j => s.coord j = s.coord f) texels image coord).getLsbD b = true ↔
      (texels image coord).getLsbD b = true ∨ coord = s.coord f ∧
        s.Written lanes image coord b := by
  have helected := firstLane_filter (p := fun j => s.coord j = s.coord f) hf rfl
  rw [write, helected]
  dsimp only [atomicOr]
  by_cases hcoord : coord = s.coord f
  · subst hcoord
    by_cases himage : image = s.image f
    · rw [if_pos ⟨himage, rfl⟩, BitVec.getLsbD_or, Bool.or_eq_true, getLsbD_reduce_or]
      refine or_congr_right ⟨?_, ?_⟩
      · rintro ⟨j, hj, hbit⟩
        obtain ⟨hj, hsame⟩ := Finset.mem_filter.mp hj
        exact ⟨rfl, f, helected, himage.symm, j, hj, hsame, hbit⟩
      · rintro ⟨-, -, -, -, j, hj, hsame, hbit⟩
        exact ⟨j, Finset.mem_filter.mpr ⟨hj, hsame⟩, hbit⟩
    · rw [if_neg fun h => himage h.1]
      refine ⟨Or.inl, fun h => h.resolve_right ?_⟩
      rintro ⟨-, first, hfirst, hname, -⟩
      cases helected.symm.trans hfirst
      exact himage hname.symm
  · rw [if_neg fun h => hcoord h.2]
    exact ⟨Or.inl, fun h => h.resolve_right fun h => hcoord h.1⟩

/-- What is written for a coordinate does not depend on the lanes with another. -/
theorem written_filter {lanes : Finset (Fin n)} {image : Nat}
    {coord other : Coord array} {b : Nat} :
    s.Written (lanes.filter fun j => s.coord j ≠ other) image coord b ↔
      coord ≠ other ∧ s.Written lanes image coord b := by
  by_cases hcoord : coord = other
  · subst hcoord
    refine ⟨?_, fun h => absurd rfl h.1⟩
    rintro ⟨-, -, -, j, hj, hsame, -⟩
    exact absurd hsame (Finset.mem_filter.mp hj).2
  · have hfilter : (lanes.filter fun j => s.coord j ≠ other).filter (fun j => s.coord j = coord) =
        lanes.filter fun j => s.coord j = coord := by
      ext j
      simp only [Finset.mem_filter]
      constructor
      · rintro ⟨⟨hj, -⟩, hsame⟩
        exact ⟨hj, hsame⟩
      · rintro ⟨hj, hsame⟩
        exact ⟨⟨hj, fun hother => hcoord (hsame.symm.trans hother)⟩, hsame⟩
    unfold Written
    rw [hfilter]
    refine ⟨?_, ?_⟩
    · rintro ⟨first, hfirst, himage, j, hj, hsame, hbit⟩
      exact ⟨hcoord, first, hfirst, himage, j, (Finset.mem_filter.mp hj).1, hsame, hbit⟩
    · rintro ⟨-, first, hfirst, himage, j, hj, hsame, hbit⟩
      have hj' : j ∈ lanes.filter fun j => s.coord j ≠ other :=
        Finset.mem_filter.mpr ⟨hj, fun hother => hcoord (hsame.symm.trans hother)⟩
      exact ⟨first, hfirst, himage, j, hj', hsame, hbit⟩

/-- The loop ends, and has written the values for every coordinate. -/
theorem loop_spec (s : Feedback n array) {fuel : Nat} {lanes : Finset (Fin n)}
    (hfuel : lanes.card ≤ fuel) (texels : Texels array) :
    ∃ final, s.loop fuel lanes texels = some final ∧ ∀ image coord b,
      (final image coord).getLsbD b = true ↔
        (texels image coord).getLsbD b = true ∨ s.Written lanes image coord b := by
  induction fuel generalizing lanes texels with
  | zero =>
    have hempty := Finset.card_eq_zero.mp (Nat.le_zero.mp hfuel)
    subst hempty
    refine ⟨texels, by rw [loop, if_pos rfl], fun image coord b => ?_⟩
    refine ⟨Or.inl, fun h => h.resolve_right ?_⟩
    rintro ⟨-, -, -, j, hj, -⟩
    exact absurd hj (Finset.notMem_empty j)
  | succ fuel ih =>
    by_cases hempty : lanes = ∅
    · subst hempty
      refine ⟨texels, by rw [loop, if_pos rfl], fun image coord b => ?_⟩
      refine ⟨Or.inl, fun h => h.resolve_right ?_⟩
      rintro ⟨-, -, -, j, hj, -⟩
      exact absurd hj (Finset.notMem_empty j)
    · obtain ⟨lane, hlane⟩ := Finset.nonempty_iff_ne_empty.mpr hempty
      obtain ⟨f, hf⟩ := exists_firstLane hlane
      have hagree (j : Fin n) : agreesWithFirst lanes s.coord j = true ↔ s.coord j = s.coord f :=
        agreesWithFirst_iff hf
      have hwriters : (lanes.filter fun j => agreesWithFirst lanes s.coord j = true) =
          lanes.filter fun j => s.coord j = s.coord f := by
        simp only [hagree]
      have hrest : (lanes.filter fun j => agreesWithFirst lanes s.coord j = false) =
          lanes.filter fun j => s.coord j ≠ s.coord f := by
        simp only [← Bool.not_eq_true, hagree, ne_eq]
      -- the first lane is done, so that fewer lanes are left
      have hless : (lanes.filter fun j => s.coord j ≠ s.coord f).card < lanes.card :=
        Finset.card_lt_card (Finset.filter_ssubset.mpr ⟨f, firstLane_mem hf, not_not.mpr rfl⟩)
      have hfew : (lanes.filter fun j => s.coord j ≠ s.coord f).card ≤ fuel := by omega
      obtain ⟨final, hloop, hfinal⟩ :=
        ih hfew (s.write (lanes.filter fun j => s.coord j = s.coord f) texels)
      refine ⟨final, ?_, fun image coord b => ?_⟩
      · rw [loop, if_neg hempty]
        rw [hwriters, hrest, hloop]
      · rw [hfinal, getLsbD_write hf, written_filter]
        by_cases hcoord : coord = s.coord f
        · simp [hcoord]
        · simp [hcoord]

/-- **The compacted image atomic.** The loop ends, and every texel has its old value and the values
of the lanes that name it, for any contents of the images, exactly when the images agree. -/
theorem writeFeedback_iff (s : Feedback n array) {fuel : Nat} (hfuel : n ≤ fuel)
    (lanes : Finset (Fin n)) :
    (∀ texels, (s.writeFeedback fuel lanes texels).isSome) ∧
    ((∀ texels final, s.writeFeedback fuel lanes texels = some final →
      s.WritesAll lanes texels final) ↔ s.ImagesAgree lanes) := by
  have hcard : (s.participants lanes).card ≤ fuel := by
    have hle := Finset.card_le_univ (s.participants lanes)
    rw [Fintype.card_fin] at hle
    exact hle.trans hfuel
  have hclear (b : Nat) : ¬ (0 : BitVec 64).getLsbD b = true := by simp
  refine ⟨fun texels => ?_, fun hwrites => ?_, fun hagree texels final hfinal => ?_⟩
  · obtain ⟨final, hloop, -⟩ := loop_spec s hcard texels
    exact Option.isSome_iff_exists.mpr ⟨final, hloop⟩
  · intro lane hlane first hfirst
    by_contra hne
    obtain ⟨himage, hvalue⟩ := not_or.mp hne
    -- start from empty images, where the values of the lane are lost
    obtain ⟨final, hloop, hbits⟩ := loop_spec s hcard fun _ _ => 0
    apply hvalue
    apply BitVec.eq_of_getLsbD_eq
    intro b _
    rw [Bool.eq_iff_iff, iff_false_right (hclear b)]
    intro hbit
    have hexpected : (final (s.image lane) (s.coord lane)).getLsbD b = true := by
      rw [hwrites _ final hloop, BitVec.getLsbD_or, Bool.or_eq_true, getLsbD_reduce_or]
      exact Or.inr ⟨lane, Finset.mem_filter.mpr ⟨hlane, rfl, rfl⟩, hbit⟩
    rcases (hbits _ _ b).mp hexpected with hold | ⟨other, hother, hname, -⟩
    · exact hclear b hold
    · cases hfirst.symm.trans hother
      exact himage hname.symm
  · obtain ⟨final', hloop, hbits⟩ := loop_spec s hcard texels
    cases hloop.symm.trans hfinal
    intro image coord
    apply BitVec.eq_of_getLsbD_eq
    intro b _
    rw [Bool.eq_iff_iff, hbits, BitVec.getLsbD_or, Bool.or_eq_true, getLsbD_reduce_or]
    refine or_congr_right ⟨?_, ?_⟩
    · rintro ⟨first, hfirst, rfl, j, hj, rfl, hbit⟩
      have hsame := (hagree j hj first hfirst).resolve_right fun hzero =>
        hclear b (hzero ▸ hbit)
      exact ⟨j, Finset.mem_filter.mpr ⟨hj, hsame, rfl⟩, hbit⟩
    · rintro ⟨j, hj, hbit⟩
      obtain ⟨hmem, rfl, rfl⟩ := Finset.mem_filter.mp hj
      have hgroup : j ∈ (s.participants lanes).filter fun i => s.coord i = s.coord j :=
        Finset.mem_filter.mpr ⟨hmem, rfl⟩
      obtain ⟨first, hfirst⟩ := exists_firstLane hgroup
      have hsame := (hagree j hmem first hfirst).resolve_right fun hzero =>
        hclear b (hzero ▸ hbit)
      exact ⟨first, hfirst, hsame.symm, j, hmem, rfl, hbit⟩

/-- Images that are the same in all lanes agree. -/
theorem imagesAgree_of_uniform (h : ∀ i j, s.image i = s.image j) (lanes : Finset (Fin n)) :
    s.ImagesAgree lanes :=
  fun lane _ first _ => Or.inl (h lane first)

/-- Two lanes with one coordinate in two images. -/
def twoImages : Feedback 2 false where
  image lane := lane
  coord _ _ := 0
  value lane := 1 <<< lane.val
  activeLane _ := true

/-- Two lanes with one coordinate in one image. -/
def oneImage : Feedback 2 false := { twoImages with image := fun _ => 0 }

/-- Both values are written to one image. -/
theorem oneImage_writesAll :
    (∀ texels, (oneImage.writeFeedback 2 Finset.univ texels).isSome) ∧
    ∀ texels final, oneImage.writeFeedback 2 Finset.univ texels = some final →
      oneImage.WritesAll Finset.univ texels final :=
  ⟨(writeFeedback_iff oneImage (le_refl 2) Finset.univ).1,
    (writeFeedback_iff oneImage (le_refl 2) Finset.univ).2.mpr
      (imagesAgree_of_uniform (fun _ _ => rfl) _)⟩

/-- With two images, the value of the second lane goes to the first image. -/
theorem twoImages_lost :
    (twoImages.writeFeedback 2 Finset.univ fun _ _ => 0).map (fun final => (final 0 0, final 1 0)) =
      some (3, 0) ∧
    ¬ ∀ texels final, twoImages.writeFeedback 2 Finset.univ texels = some final →
      twoImages.WritesAll Finset.univ texels final := by
  have hrun : (twoImages.writeFeedback 2 Finset.univ fun _ _ => 0).map
      (fun final => (final 0 0, final 1 0)) = some (3, 0) := by
    decide
  refine ⟨hrun, fun h => ?_⟩
  obtain ⟨final, hfinal, hpair⟩ := Option.map_eq_some_iff.mp hrun
  have hsecond := h _ final hfinal 1 0
  rw [(Prod.mk.inj hpair).2] at hsecond
  revert hsecond
  decide

end Feedback

end DxilSpirv.Wave
