import Mathlib.Data.List.Flatten

/-!
# Records that tell their size

A list that is cut into records: the first element of a record tells how many elements it has. What
is put into records is read from the list exactly when all records tell their size.
-/

namespace DxilSpirv.Words

variable {α β : Type*} {size : α → Nat}

/-- A record has as many elements as its first one tells. -/
def IsRecord (size : α → Nat) (r : List α) : Prop := ∃ a as, r = a :: as ∧ size a = r.length

/-- A list cut into records, if they end where it ends. -/
def splitRecords (size : α → Nat) : List α → Option (List (List α))
  | [] => some []
  | a :: as =>
    if size a = 0 ∨ as.length + 1 < size a then none
    else (splitRecords size (as.drop (size a - 1))).map ((a :: as.take (size a - 1)) :: ·)
termination_by l => l.length
decreasing_by simp only [List.length_drop, List.length_cons]; omega

@[simp] theorem splitRecords_nil : splitRecords size [] = some [] := by rw [splitRecords]

/-- A record at the front is cut off. -/
theorem splitRecords_append {r : List α} (hr : IsRecord size r) (rest : List α) :
    splitRecords size (r ++ rest) = (splitRecords size rest).map (r :: ·) := by
  obtain ⟨a, as, rfl, hsize⟩ := hr
  rw [List.length_cons] at hsize
  rw [List.cons_append, splitRecords, hsize, Nat.add_sub_cancel, List.take_left,
    List.drop_left, if_neg]
  rw [List.length_append]
  omega

/-- Records that are put together are cut apart again. -/
theorem splitRecords_flatten {rs : List (List α)} (hrs : ∀ r ∈ rs, IsRecord size r) :
    splitRecords size rs.flatten = some rs := by
  induction rs with
  | nil => exact splitRecords_nil
  | cons r rs ih =>
    obtain ⟨hr, hrs⟩ := List.forall_mem_cons.mp hrs
    rw [List.flatten_cons, splitRecords_append hr, ih hrs]
    rfl

/-- What is cut apart are records, and they make up the list. -/
theorem splitRecords_sound {l : List α} {rs : List (List α)} (h : splitRecords size l = some rs) :
    rs.flatten = l ∧ ∀ r ∈ rs, IsRecord size r := by
  induction l using splitRecords.induct size generalizing rs with
  | case1 =>
    obtain rfl : [] = rs := Option.some.inj (splitRecords_nil.symm.trans h)
    exact ⟨rfl, nofun⟩
  | case2 a as hbad =>
    rw [splitRecords, if_pos hbad] at h
    exact nomatch h
  | case3 a as hgood ih =>
    rw [splitRecords, if_neg hgood, Option.map_eq_some_iff] at h
    obtain ⟨rest, hrest, rfl⟩ := h
    obtain ⟨hflatten, hrecords⟩ := ih hrest
    refine ⟨?_, List.forall_mem_cons.mpr ⟨⟨a, _, rfl, ?_⟩, hrecords⟩⟩
    · rw [List.flatten_cons, hflatten, List.cons_append, List.take_append_drop]
    · rw [List.length_cons, List.length_take]
      omega

/-- All elements of a list have a value, and these are the values. -/
theorem mapM_eq_some_iff {f : α → Option β} {l : List α} {r : List β} :
    l.mapM f = some r ↔ l.map f = r.map some := by
  induction l generalizing r with
  | nil => cases r <;> simp
  | cons a l ih =>
    rw [List.mapM_cons, List.map_cons]
    cases r with
    | nil => cases f a <;> cases l.mapM f <;> simp
    | cons b r =>
      rw [List.map_cons, List.cons.injEq, ← ih]
      cases f a <;> cases l.mapM f <;> simp

/-- If all elements of a list have a value, then it has values. -/
theorem exists_mapM_eq {f : α → Option β} {l : List α} (h : ∀ a ∈ l, ∃ b, f a = some b) :
    ∃ r, l.mapM f = some r := by
  induction l with
  | nil => exact ⟨[], rfl⟩
  | cons a l ih =>
    obtain ⟨⟨b, hb⟩, h⟩ := List.forall_mem_cons.mp h
    obtain ⟨r, hr⟩ := ih h
    refine ⟨b :: r, mapM_eq_some_iff.mpr ?_⟩
    rw [List.map_cons, hb, mapM_eq_some_iff.mp hr, List.map_cons]

variable {encode : β → List α} {decode : List α → Option β} {xs : List β}

/-- What the records of a list are read as. -/
def readRecords (size : α → Nat) (decode : List α → Option β) (l : List α) : Option (List β) :=
  (splitRecords size l).bind (List.mapM decode)

/-- What is put into lists one after the other is read back exactly when all of them are records, if
each list is read back and nothing else of another length is read as the same. -/
theorem readRecords_flatMap_iff (hdecode : ∀ x ∈ xs, decode (encode x) = some x)
    (hlength : ∀ x ∈ xs, ∀ r, decode r = some x → r.length = (encode x).length) :
    readRecords size decode (xs.flatMap encode) = some xs ↔ ∀ x ∈ xs, IsRecord size (encode x) := by
  rw [List.flatMap_def]
  constructor
  · intro hread
    obtain ⟨rs, hrs, hmap⟩ := Option.bind_eq_some_iff.mp hread
    obtain ⟨hflatten, hrecords⟩ := splitRecords_sound hrs
    have hmap := mapM_eq_some_iff.mp hmap
    have hlengths : rs.map List.length = (xs.map encode).map List.length := by
      rw [List.map_map]
      refine List.ext_getElem ?_ fun k hk hk' => ?_
      · simpa using congrArg List.length hmap
      · rw [List.length_map] at hk hk'
        have hread : decode rs[k] = some xs[k] := by
          simpa [hk, hk'] using congrArg (fun l => l[k]?) hmap
        rw [List.getElem_map, List.getElem_map]
        exact hlength _ (List.getElem_mem _) _ hread
    obtain rfl : rs = xs.map encode := List.eq_iff_flatten_eq.mpr ⟨hflatten, hlengths⟩
    exact fun x hx => hrecords _ (List.mem_map_of_mem hx)
  · intro hrecords
    refine Option.bind_eq_some_iff.mpr
      ⟨_, splitRecords_flatten (List.forall_mem_map.mpr hrecords), ?_⟩
    rw [mapM_eq_some_iff, List.map_map]
    exact List.map_congr_left hdecode

end DxilSpirv.Words
