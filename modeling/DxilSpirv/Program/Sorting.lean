import Mathlib.Data.List.Sort

/-!
# Lists sorted by a key

A stable sort by a number, equal neighbours in what is sorted, and the elements that stand directly
before one another where all keys differ.
-/

namespace DxilSpirv.Program

variable {α : Type} {key : α → Nat} {l : List α} {a b : α}

/-- The stable sort by a key. -/
def sortByKey (key : α → Nat) (l : List α) : List α := l.insertionSort fun x y => key x ≤ key y

theorem sortByKey_perm (key : α → Nat) (l : List α) : (sortByKey key l).Perm l :=
  List.perm_insertionSort _ l

theorem pairwise_sortByKey (key : α → Nat) (l : List α) :
    (sortByKey key l).Pairwise fun x y => key x ≤ key y := by
  have : IsTrans α fun x y => key x ≤ key y := ⟨fun _ _ _ => Nat.le_trans⟩
  have : Std.Total fun x y : α => key x ≤ key y := ⟨fun x y => Nat.le_total (key x) (key y)⟩
  exact List.pairwise_insertionSort _ l

/-- The first key that two neighbours share. -/
def repeatedKey (key : α → Nat) : List α → Option Nat
  | [] => none
  | [_] => none
  | x :: y :: l => if key y = key x then some (key y) else repeatedKey key (y :: l)

/-- In a sorted list no neighbours share a key just when all keys differ. -/
theorem repeatedKey_eq_none_iff (h : l.Pairwise fun x y => key x ≤ key y) :
    repeatedKey key l = none ↔ l.Pairwise fun x y => key x < key y := by
  induction l with
  | nil => simp [repeatedKey]
  | cons x l ih =>
    cases l with
    | nil => simp [repeatedKey]
    | cons y l =>
      obtain ⟨hx, hl⟩ := List.pairwise_cons.mp h
      rw [repeatedKey]
      by_cases heq : key y = key x
      · rw [if_pos heq]
        refine ⟨fun h => absurd h (Option.some_ne_none _), fun hlt => ?_⟩
        have := (List.pairwise_cons.mp hlt).1 y (List.mem_cons_self ..)
        omega
      · rw [if_neg heq, ih hl, List.pairwise_cons (a := x)]
        refine ⟨fun hlt => ⟨fun z hz => ?_, hlt⟩, fun hlt => hlt.2⟩
        have hxy := hx y (List.mem_cons_self ..)
        rcases List.mem_cons.mp hz with rfl | hz
        · omega
        · have hyz := (List.pairwise_cons.mp hlt).1 z hz
          omega

/-- Keys that do not decrease and differ increase. -/
theorem pairwise_lt_iff_nodup (h : l.Pairwise fun x y => key x ≤ key y) :
    l.Pairwise (fun x y => key x < key y) ↔ (l.map key).Nodup := by
  rw [List.Nodup, List.pairwise_map]
  constructor
  · exact fun hlt => hlt.imp fun hxy => Nat.ne_of_lt hxy
  · exact fun hne => (List.pairwise_and_iff.mpr ⟨h, hne⟩).imp fun hxy =>
      Nat.lt_of_le_of_ne hxy.1 hxy.2

/-- What stands directly before another element has a smaller key, and no key is between. -/
theorem no_key_between {before after : List α}
    (h : (before ++ a :: b :: after).Pairwise fun x y => key x < key y) :
    key a < key b ∧ ∀ x ∈ before ++ a :: b :: after, ¬ (key a < key x ∧ key x < key b) := by
  obtain ⟨-, hafter, hbefore⟩ := List.pairwise_append.mp h
  obtain ⟨ha, hb⟩ := List.pairwise_cons.mp hafter
  refine ⟨ha b (List.mem_cons_self ..), fun x hx hbetween => ?_⟩
  rcases List.mem_append.mp hx with hx | hx
  · have := hbefore x hx a (List.mem_cons_self ..)
    omega
  · rcases List.mem_cons.mp hx with rfl | hx
    · omega
    · rcases List.mem_cons.mp hx with rfl | hx
      · omega
      · have := (List.pairwise_cons.mp hb).1 x hx
        omega

/-- Where no key is between, elements stand directly before one another. -/
theorem exists_directly_before (h : l.Pairwise fun x y => key x < key y) (ha : a ∈ l) (hb : b ∈ l)
    (hlt : key a < key b) (hbetween : ∀ x ∈ l, ¬ (key a < key x ∧ key x < key b)) :
    ∃ before after, l = before ++ a :: b :: after := by
  obtain ⟨before, rest, rfl⟩ := List.append_of_mem ha
  obtain ⟨-, hrest, hbefore⟩ := List.pairwise_append.mp h
  cases rest with
  | nil =>
    rcases List.mem_append.mp hb with hb | hb
    · have := hbefore b hb a (List.mem_cons_self ..)
      omega
    · rw [List.mem_singleton.mp hb] at hlt
      omega
  | cons next after =>
    obtain ⟨hnext, hafter⟩ := List.pairwise_cons.mp hrest
    have hfirst := hnext next (List.mem_cons_self ..)
    rcases List.mem_append.mp hb with hb | hb
    · have := hbefore b hb a (List.mem_cons_self ..)
      omega
    · rcases List.mem_cons.mp hb with rfl | hb
      · omega
      · rcases List.mem_cons.mp hb with rfl | hb
        · exact ⟨before, after, rfl⟩
        · have hlate := (List.pairwise_cons.mp hafter).1 b hb
          exact absurd ⟨hfirst, hlate⟩ (hbetween next (by simp))

end DxilSpirv.Program
