import DxilSpirv.Bitstream.Writer

/-!
# Records are read back

The operands of a record, in full or under an abbreviation, and the abbreviations themselves, are
codes that the decoder reads.
-/

namespace DxilSpirv.Bitstream

open DxilSpirv.Program DxilSpirv.Bitcode Stoppable

variable {α : Type} {m : Reader α} {f : α → Option (List Bool)}

/-- Codes one after the other. -/
theorem reads_readMany (hf : ∀ a x, f a = some x → ∀ p, Reads m p x a) {l : List α} {x : List Bool}
    (h : manyBits f l = some x) (p : Nat) : Reads (readMany m l.length) p x l := by
  induction l generalizing x p with
  | nil =>
    obtain rfl : [] = x := Option.some.inj h
    exact reads_pure [] p
  | cons a l ih =>
    obtain ⟨x₁, hx₁, h⟩ := Option.bind_eq_some_iff.mp h
    obtain ⟨x₂, hx₂, h⟩ := Option.bind_eq_some_iff.mp h
    obtain rfl : x₁ ++ x₂ = x := Option.some.inj h
    exact (hf a x₁ hx₁ p).bind ((ih hx₂ _).bind_nil (reads_pure _ _))

variable {p id : Nat} {ops : List Nat} {x : List Bool} {a : AbbrevDesc} {blob : Option (List UInt8)}

/-- A code of a character is a number of six bits. -/
theorem char6_of_char6Code {v c : Nat} (h : char6Code v = some c) : c < 2 ^ 6 ∧ char6 c = v := by
  refine ⟨List.mem_range.mp (List.mem_of_find?_eq_some h), ?_⟩
  simpa using List.find?_some h

/-- An operand under a parameter. -/
theorem reads_scalar {param : AbbrevParam} {v : Nat} (h : scalarBits param v = some x) (p : Nat) :
    Reads (decodeAbbrevParam param) p x v := by
  cases param with
  | fixed w =>
    obtain ⟨⟨hw, hv⟩, hx⟩ := Option.ite_none_right_eq_some.mp h
    obtain rfl : lowBits w v = x := Option.some.inj hx
    exact reads_fixed hw hv (hv.trans_le (Nat.pow_le_pow_right (by decide) hw))
  | vbr g =>
    obtain ⟨⟨hg, hg', hv⟩, hx⟩ := Option.ite_none_right_eq_some.mp h
    obtain rfl : vbrBits g v = x := Option.some.inj hx
    exact reads_vbr hg hg' le_rfl hv
  | char6 =>
    obtain ⟨c, hc, rfl⟩ := Option.map_eq_some_iff.mp h
    obtain ⟨hlt, rfl⟩ := char6_of_char6Code hc
    exact reads_c6 hlt
  | literal value =>
    obtain ⟨rfl, hx⟩ := Option.ite_none_right_eq_some.mp h
    obtain rfl : [] = x := Option.some.inj hx
    exact reads_pure v p
  | array => cases h
  | blob => cases h
  | other encoding => cases h

/-- The operands under the parameters of an abbreviation, and the blob. -/
theorem reads_operands {params : List AbbrevParam} (h : operandBits p params ops blob = some x) :
    Reads (readOperands params) p x
      { ops := ops, blob := blob, blobLength := blobLengthOf blob } := by
  fun_induction operandBits p params ops blob generalizing x with
  | case1 p =>
    obtain rfl : [] = x := Option.some.inj h
    exact reads_pure ({} : Operands) p
  | case2 p elType ops =>
    obtain ⟨y, hy, h⟩ := Option.bind_eq_some_iff.mp h
    obtain ⟨hlen, hx⟩ := Option.ite_none_right_eq_some.mp h
    obtain rfl : vbrBits 6 ops.length ++ y = x := Option.some.inj hx
    exact (reads_vbr (by decide) (by decide) le_rfl hlen).bind
      ((reads_readMany (fun _ _ => reads_scalar) hy _).bind_nil (reads_pure _ _))
  | case3 p blob hlen =>
    obtain rfl : blobBits p blob = x := Option.some.inj h
    exact (reads_assertThat rfl p).bind ((reads_readBlob hlen).bind_nil (reads_pure _ _))
  | case4 => cases h
  | case5 p param params op ops blob _ ih =>
    obtain ⟨y, hy, h⟩ := Option.bind_eq_some_iff.mp h
    obtain ⟨z, hz, h⟩ := Option.bind_eq_some_iff.mp h
    obtain rfl : y ++ z = x := Option.some.inj h
    have hread : Reads (do
        let op ← decodeAbbrevParam param
        let operands ← readOperands params
        pure { operands with ops := op :: operands.ops }) p (y ++ z)
        { ops := op :: ops, blob := blob, blobLength := blobLengthOf blob } :=
      (reads_scalar hy p).bind ((ih y hz).bind_nil (reads_pure _ _))
    cases param with
    | array => cases hy
    | blob => cases hy
    | other => cases hy
    | _ => exact hread
  | case6 => cases h

/-- An abbreviated record. -/
theorem reads_abbreviated (h : abbreviatedBits p a id ops blob = some x) :
    Reads (readAbbreviated a) p x (.mk false id [] ops blob (blobLengthOf blob)) := by
  cases a with
  | nil => cases h
  | cons code params =>
    obtain ⟨y, hy, h⟩ := Option.bind_eq_some_iff.mp h
    obtain ⟨z, hz, h⟩ := Option.bind_eq_some_iff.mp h
    obtain ⟨hid, hx⟩ := Option.ite_none_right_eq_some.mp h
    obtain rfl : y ++ z = x := Option.some.inj hx
    have hlast : Reads (pure (BlockOrRecord.mk false (id % 2 ^ 32) [] ops blob (blobLengthOf blob)))
        (p + y.length + z.length) [] (.mk false id [] ops blob (blobLengthOf blob)) := by
      rw [Nat.mod_eq_of_lt hid]
      exact reads_pure _ _
    exact (reads_scalar hy p).bind ((reads_operands hz).bind_nil hlast)

/-- A record in full. -/
theorem reads_unabbreviated (h : recordBits id ops = some x) (p : Nat) :
    Reads readUnabbreviated p x (id, ops) := by
  obtain ⟨y, hy, h⟩ := Option.bind_eq_some_iff.mp h
  obtain ⟨⟨hid, hlen⟩, hx⟩ := Option.ite_none_right_eq_some.mp h
  obtain rfl := Option.some.inj hx
  refine (reads_vbr (by decide) (by decide) (by decide) hid).bind
    ((reads_vbr (by decide) (by decide) (by decide) hlen).bind
      ((reads_readMany ?_ hy _).bind_nil (reads_pure _ _)))
  intro op z hz p
  obtain ⟨hop, hz⟩ := Option.ite_none_right_eq_some.mp hz
  obtain rfl : vbrBits 6 op = z := Option.some.inj hz
  exact reads_vbr (by decide) (by decide) le_rfl hop

/-- A parameter of an abbreviation. -/
theorem reads_param {param : AbbrevParam} (h : paramBits param = some x) (p : Nat) :
    Reads readAbbrevParam p x param := by
  have hlit {v : Nat} (hv : v < 2 ^ 1) : Reads (fixed 1 1) p (lowBits 1 v) v :=
    reads_fixed (by decide) hv (by omega)
  have hencoding {v q : Nat} (hv : v < 2 ^ 3) : Reads (fixed 1 3) q (lowBits 3 v) v :=
    reads_fixed (by decide) hv (by omega)
  unfold readAbbrevParam
  cases param with
  | fixed w =>
    obtain ⟨hw, hx⟩ := Option.ite_none_right_eq_some.mp h
    obtain rfl := Option.some.inj hx
    exact (hlit (by decide)).bind ((hencoding (by decide)).bind
      ((reads_vbr (by decide) (by decide) le_rfl hw).bind_nil (reads_pure _ _)))
  | vbr g =>
    obtain ⟨hg, hx⟩ := Option.ite_none_right_eq_some.mp h
    obtain rfl := Option.some.inj hx
    exact (hlit (by decide)).bind ((hencoding (by decide)).bind
      ((reads_vbr (by decide) (by decide) le_rfl hg).bind_nil (reads_pure _ _)))
  | array =>
    obtain rfl := Option.some.inj h
    exact (hlit (by decide)).bind ((hencoding (by decide)).bind_nil (reads_pure _ _))
  | char6 =>
    obtain rfl := Option.some.inj h
    exact (hlit (by decide)).bind ((hencoding (by decide)).bind_nil (reads_pure _ _))
  | blob =>
    obtain rfl := Option.some.inj h
    exact (hlit (by decide)).bind ((hencoding (by decide)).bind_nil (reads_pure _ _))
  | literal value =>
    obtain ⟨hvalue, hx⟩ := Option.ite_none_right_eq_some.mp h
    obtain rfl := Option.some.inj hx
    exact (hlit (by decide)).bind
      ((reads_vbr (by decide) (by decide) le_rfl hvalue).bind_nil (reads_pure _ _))
  | other encoding => cases h

/-- The definition of an abbreviation. -/
theorem reads_abbrevDesc {a : AbbrevDesc} (h : abbrevBits a = some x) (p : Nat) :
    Reads readAbbrevDesc p x a := by
  obtain ⟨y, hy, h⟩ := Option.bind_eq_some_iff.mp h
  obtain ⟨hlen, hx⟩ := Option.ite_none_right_eq_some.mp h
  obtain rfl := Option.some.inj hx
  exact (reads_vbr (by decide) (by decide) (by decide) hlen).bind
    (reads_readMany (fun _ _ => reads_param) hy _)

end DxilSpirv.Bitstream
