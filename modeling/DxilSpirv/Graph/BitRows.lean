import DxilSpirv.Graph.Walk
import Mathlib.Data.BitVec

/-!
# Reachability in rows of bits

A row of 32-bit words for each vertex of an acyclic graph, with one bit for each vertex. Going
through the vertices successors first, every row takes over the rows of the successors. No bit is
lost however the rows lie in memory; where they do not overlap, no bit is set that is not reachable.
-/

namespace DxilSpirv.Graph

section Words

variable {bits : Nat → BitVec 32} {row source stride column : Nat}

/-- The bit of a column in the row that starts at a word. -/
def bitAt (bits : Nat → BitVec 32) (row column : Nat) : Bool :=
  (bits (row + column / 32)).getLsbD (column % 32)

/-- The words of one row are taken over into another, one after the other. -/
def orRow (row source stride : Nat) (bits : Nat → BitVec 32) : Nat → BitVec 32 :=
  (List.range stride).foldl (fun bits i =>
    Function.update bits (row + i) (bits (row + i) ||| bits (source + i))) bits

/-- The bit of a column is set. -/
def setBit (row column : Nat) (bits : Nat → BitVec 32) : Nat → BitVec 32 :=
  Function.update bits (row + column / 32)
    (bits (row + column / 32) ||| BitVec.twoPow 32 (column % 32))

theorem getLsbD_setBit {word j : Nat} :
    (setBit row column bits word).getLsbD j =
      ((bits word).getLsbD j || decide (word = row + column / 32 ∧ j = column % 32)) := by
  unfold setBit
  by_cases hword : word = row + column / 32
  · subst hword
    have hlt : column % 32 < 32 := Nat.mod_lt _ (by omega)
    rw [Function.update_self, BitVec.getLsbD_or, BitVec.getLsbD_twoPow]
    by_cases hbit : j = column % 32
    · simp [hbit, hlt]
    · simp [hbit, Ne.symm hbit]
  · rw [Function.update_of_ne hword]
    simp [hword]

/-- A step of the loop keeps every bit. -/
theorem getLsbD_update_or {word i j : Nat} (h : (bits word).getLsbD j = true) :
    (Function.update bits (row + i) (bits (row + i) ||| bits (source + i)) word).getLsbD j =
      true := by
  by_cases hword : word = row + i
  · rw [hword] at h
    rw [hword, Function.update_self, BitVec.getLsbD_or, h, Bool.true_or]
  · rw [Function.update_of_ne hword]
    exact h

/-- No bit is lost. -/
theorem getLsbD_orRow {word j : Nat} (h : (bits word).getLsbD j = true) :
    (orRow row source stride bits word).getLsbD j = true := by
  unfold orRow
  induction stride with
  | zero => exact h
  | succ stride ih =>
    rw [List.range_succ, List.foldl_append]
    exact getLsbD_update_or ih

/-- The bits of the source are taken over. -/
theorem getLsbD_orRow_source {i j : Nat} (hi : i < stride)
    (h : (bits (source + i)).getLsbD j = true) :
    (orRow row source stride bits (row + i)).getLsbD j = true := by
  unfold orRow
  induction stride with
  | zero => omega
  | succ stride ih =>
    rw [List.range_succ, List.foldl_append, List.foldl_cons, List.foldl_nil]
    by_cases hlast : i = stride
    · have hkept : (orRow row source stride bits (source + stride)).getLsbD j = true :=
        getLsbD_orRow (hlast ▸ h)
      unfold orRow at hkept
      rw [hlast, Function.update_self, BitVec.getLsbD_or, hkept, Bool.or_true]
    · exact getLsbD_update_or (ih (by omega))

/-- Where the rows do not overlap, the source is all that is taken over. -/
theorem orRow_eq (h : row + stride ≤ source ∨ source + stride ≤ row) (word : Nat) :
    orRow row source stride bits word =
      if row ≤ word ∧ word < row + stride then bits word ||| bits (source + (word - row))
      else bits word := by
  unfold orRow
  induction stride generalizing word with
  | zero =>
    rw [if_neg (by omega)]
    rfl
  | succ stride ih =>
    have ih := ih (by omega)
    rw [List.range_succ, List.foldl_append, List.foldl_cons, List.foldl_nil]
    by_cases hword : word = row + stride
    · rw [hword, Function.update_self, ih, ih, if_neg (by omega), if_neg (by omega),
        if_pos (by omega), Nat.add_sub_cancel_left]
    · rw [Function.update_of_ne hword, ih]
      by_cases hin : row ≤ word ∧ word < row + stride
      · rw [if_pos hin, if_pos (by omega)]
      · rw [if_neg hin, if_neg (by omega)]

end Words

variable {α : Type*} (succ : α → List α) (row column : α → Nat) (stride : Nat)

/-- The row of a vertex takes over the rows of its successors and gets its own bit. -/
def closeRow (bits : Nat → BitVec 32) (v : α) : Nat → BitVec 32 :=
  setBit (row v) (column v)
    ((succ v).foldl (fun bits w => orRow (row v) (row w) stride bits) bits)

/-- All rows, one after the other. -/
def closeRows (order : List α) : Nat → BitVec 32 :=
  order.foldl (closeRow succ row column stride) fun _ => 0

variable {succ row column stride} {bits : Nat → BitVec 32} {v w a b : α} {order : List α}

/-- The edges of the graph. -/
abbrev SuccEdge (succ : α → List α) (a b : α) : Prop := b ∈ succ a

theorem bitAt_setBit {row column column' row' : Nat} : bitAt (setBit row column bits) row' column' =
    (bitAt bits row' column' ||
      decide (row' + column' / 32 = row + column / 32 ∧ column' % 32 = column % 32)) :=
  getLsbD_setBit

theorem bitAt_foldl_orRow {l : List α} {r c target : Nat} (h : bitAt bits r c = true) :
    bitAt (l.foldl (fun bits w => orRow target (row w) stride bits) bits) r c = true := by
  induction l generalizing bits with
  | nil => exact h
  | cons w l ih => exact ih (getLsbD_orRow h)

theorem bitAt_foldl_orRow_source {l : List α} {target c : Nat} (hw : w ∈ l) (hc : c / 32 < stride)
    (h : bitAt bits (row w) c = true) :
    bitAt (l.foldl (fun bits w => orRow target (row w) stride bits) bits) target c = true := by
  induction l generalizing bits with
  | nil => cases hw
  | cons x l ih =>
    rcases List.mem_cons.mp hw with rfl | hw
    · have hor : bitAt (orRow target (row w) stride bits) target c = true :=
        getLsbD_orRow_source hc h
      rw [List.foldl_cons]
      exact bitAt_foldl_orRow hor
    · exact ih hw (getLsbD_orRow h)

/-- No bit is lost. -/
theorem bitAt_closeRow {r c : Nat} (h : bitAt bits r c = true) :
    bitAt (closeRow succ row column stride bits v) r c = true := by
  rw [closeRow, bitAt_setBit, bitAt_foldl_orRow h, Bool.true_or]

theorem bitAt_closeRow_self :
    bitAt (closeRow succ row column stride bits v) (row v) (column v) = true := by
  rw [closeRow, bitAt_setBit]
  simp

theorem bitAt_closeRow_succ {c : Nat} (hw : w ∈ succ v) (hc : c / 32 < stride)
    (h : bitAt bits (row w) c = true) :
    bitAt (closeRow succ row column stride bits v) (row v) c = true := by
  rw [closeRow, bitAt_setBit, bitAt_foldl_orRow_source hw hc h, Bool.true_or]

/-- Every vertex comes after its successors. -/
def SuccFirst (succ : α → List α) (order : List α) : Prop :=
  ∀ before v after, order = before ++ v :: after → ∀ w ∈ succ v, w ∈ before

/-- Every vertex that is reached has its bit, wherever the rows lie. -/
theorem bitAt_closeRows (hfirst : SuccFirst succ order)
    (hcolumn : ∀ b ∈ order, column b / 32 < stride) (ha : a ∈ order)
    (hab : Reaches (SuccEdge succ) a b) :
    bitAt (closeRows succ row column stride order) (row a) (column b) = true := by
  suffices hrun : ∀ before after, order = before ++ after → ∀ a ∈ before, ∀ b,
      Reaches (SuccEdge succ) a b → b ∈ before ∧
        bitAt (closeRows succ row column stride before) (row a) (column b) = true from
    (hrun order [] (List.append_nil _).symm a ha b hab).2
  intro before
  induction before using List.reverseRecOn with
  | nil =>
    intro _ _ a ha
    cases ha
  | append_singleton before v ih =>
    intro after horder a ha b hab
    rw [List.append_assoc] at horder
    have ih := ih _ horder
    rw [closeRows, List.foldl_append]
    rcases List.mem_append.mp ha with ha | ha
    · obtain ⟨hb, hbit⟩ := ih a ha b hab
      exact ⟨List.mem_append_left _ hb, bitAt_closeRow hbit⟩
    · rw [List.mem_singleton.mp ha] at hab ⊢
      rcases Relation.ReflTransGen.cases_head hab with rfl | ⟨w, hw, hwb⟩
      · exact ⟨List.mem_append_right _ (List.mem_singleton_self _), bitAt_closeRow_self⟩
      · obtain ⟨hb, hbit⟩ := ih w (hfirst _ _ _ horder w hw) b hwb
        refine ⟨List.mem_append_left _ hb, bitAt_closeRow_succ hw (hcolumn b ?_) hbit⟩
        rw [horder]
        exact List.mem_append_left _ hb

/-- The rows of two vertices have no word in common. -/
def RowsApart (row : α → Nat) (stride : Nat) (a b : α) : Prop :=
  row a + stride ≤ row b ∨ row b + stride ≤ row a

/-- One row is written where the rows do not overlap. -/
theorem bitAt_orRow (hvw : RowsApart row stride v w) (hav : a ≠ v → RowsApart row stride a v)
    {c : Nat} (hc : c / 32 < stride)
    (h : bitAt (orRow (row v) (row w) stride bits) (row a) c = true) :
    bitAt bits (row a) c = true ∨ a = v ∧ bitAt bits (row w) c = true := by
  rw [bitAt, orRow_eq hvw] at h
  by_cases hv : a = v
  · rw [hv, if_pos (by omega), BitVec.getLsbD_or, Bool.or_eq_true, Nat.add_sub_cancel_left] at h
    rcases h with h | h
    · exact Or.inl (hv ▸ h)
    · exact Or.inr ⟨hv, h⟩
  · have hapart := hav hv
    unfold RowsApart at hapart
    rw [if_neg (by omega)] at h
    exact Or.inl h

/-- Only the rows of successors are taken over. -/
theorem bitAt_foldl_orRow_iff {l : List α} (hl : ∀ w ∈ l, w ≠ v ∧ RowsApart row stride w v)
    (hav : a ≠ v → RowsApart row stride a v) {c : Nat} (hc : c / 32 < stride)
    (h : bitAt (l.foldl (fun bits w => orRow (row v) (row w) stride bits) bits) (row a) c = true) :
    bitAt bits (row a) c = true ∨ a = v ∧ ∃ w ∈ l, bitAt bits (row w) c = true := by
  induction l generalizing bits with
  | nil => exact Or.inl h
  | cons x l ih =>
    obtain ⟨-, hx⟩ := hl x (List.mem_cons_self ..)
    have hvx : RowsApart row stride v x := Or.symm hx
    rcases ih (fun w hw => hl w (List.mem_cons_of_mem _ hw)) h with h | ⟨hv, w, hw, h⟩
    · rcases bitAt_orRow hvx hav hc h with h | ⟨hv, h⟩
      · exact Or.inl h
      · exact Or.inr ⟨hv, x, List.mem_cons_self .., h⟩
    · obtain ⟨hne, hapart⟩ := hl w (List.mem_cons_of_mem _ hw)
      rcases bitAt_orRow hvx (fun _ => hapart) hc h with h | ⟨hv, -⟩
      · exact Or.inr ⟨hv, w, List.mem_cons_of_mem _ hw, h⟩
      · exact absurd hv hne

/-- Where the rows do not overlap, every bit that is set is reached. -/
theorem reaches_of_bitAt (hfirst : SuccFirst succ order) (hnodup : order.Nodup)
    (hcolumn : ∀ b ∈ order, column b / 32 < stride)
    (hinj : ∀ a ∈ order, ∀ b ∈ order, column a = column b → a = b)
    (hapart : ∀ a ∈ order, ∀ b ∈ order, a ≠ b → RowsApart row stride a b)
    (ha : a ∈ order) (hb : b ∈ order)
    (h : bitAt (closeRows succ row column stride order) (row a) (column b) = true) :
    Reaches (SuccEdge succ) a b := by
  suffices hrun : ∀ before after, order = before ++ after → ∀ a ∈ order, ∀ c, c / 32 < stride →
      bitAt (closeRows succ row column stride before) (row a) c = true →
      a ∈ before ∧ ∃ b ∈ before, column b = c ∧ Reaches (SuccEdge succ) a b by
    obtain ⟨-, b', hb', heq, hab⟩ :=
      hrun order [] (List.append_nil _).symm a ha (column b) (hcolumn b hb) h
    rw [← hinj b' hb' b hb heq]
    exact hab
  intro before
  induction before using List.reverseRecOn with
  | nil =>
    intro _ _ a _ c _ h
    simp [closeRows, bitAt] at h
  | append_singleton before v ih =>
    intro after horder a ha c hc h
    rw [List.append_assoc] at horder
    have ih := ih _ horder
    have hv : v ∈ order := by
      rw [horder]
      exact List.mem_append_right _ (List.mem_cons_self ..)
    have hnotin : v ∉ before := by
      intro hin
      rw [horder] at hnodup
      exact (List.nodup_append.mp hnodup).2.2 v hin v (List.mem_cons_self ..) rfl
    have hsucc : ∀ w ∈ succ v, w ∈ before := hfirst _ _ _ horder
    have hin : ∀ w ∈ before, w ∈ order := by
      intro w hw
      rw [horder]
      exact List.mem_append_left _ hw
    have hl : ∀ w ∈ succ v, w ≠ v ∧ RowsApart row stride w v := by
      intro w hw
      have hne : w ≠ v := by
        rintro rfl
        exact hnotin (hsucc w hw)
      exact ⟨hne, hapart w (hin w (hsucc w hw)) v hv hne⟩
    rw [closeRows, List.foldl_append, List.foldl_cons, List.foldl_nil, closeRow, bitAt_setBit,
      Bool.or_eq_true, decide_eq_true_iff] at h
    have hlast : v ∈ before ++ [v] := List.mem_append_right _ (List.mem_singleton_self v)
    rcases h with h | ⟨hword, hbit⟩
    · rcases bitAt_foldl_orRow_iff hl (hapart a ha v hv) hc h with h | ⟨rfl, w, hw, h⟩
      · obtain ⟨hain, b, hb, heq, hab⟩ := ih a ha c hc h
        exact ⟨List.mem_append_left _ hain, b, List.mem_append_left _ hb, heq, hab⟩
      · obtain ⟨-, b, hb, heq, hwb⟩ := ih w (hin w (hsucc w hw)) c hc h
        exact ⟨hlast, b, List.mem_append_left _ hb, heq, .head hw hwb⟩
    · have hav : a = v := by
        by_contra hne
        have hrows := hapart a ha v hv hne
        have hcv := hcolumn v hv
        unfold RowsApart at hrows
        omega
      subst hav
      have heq : column a = c := by omega
      exact ⟨hlast, a, hlast, heq, .refl⟩

end DxilSpirv.Graph
