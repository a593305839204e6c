import DxilSpirv.Spirv.Words
import DxilSpirv.Wave.QuadDispatch

/-!
# Reading a lane

`WaveReadLaneAt` reads the lane that an expression names. Where the expression is the lane's own
index with its two low bits replaced, or combined with a constant, the read becomes one of the quad
or of a fixed permutation.
-/

namespace DxilSpirv.Wave

open DxilSpirv.Spirv

/-- The binary operations on lane indices; `other` is every one that the matchers do not look
for. -/
inductive LaneOps
  | and | or | xor | add | other (code : Nat)
  deriving DecidableEq, Repr

/-- An expression for a lane. -/
inductive LaneIndex
  /-- `WaveGetLaneIndex`. -/
  | waveLane
  | constantInt (c : BitVec 32)
  /-- A value that the matchers know nothing about. -/
  | leaf (i : Nat)
  | binaryOperator (op : LaneOps) (lhs rhs : LaneIndex)
  deriving DecidableEq, Repr

/-- The values of what is opaque, and the meaning of the other operations. -/
structure LaneEnv where
  leaf : Nat → BitVec 32
  other : Nat → BitVec 32 → BitVec 32 → BitVec 32

/-- What an operation computes. -/
def LaneOps.eval (env : LaneEnv) (a b : BitVec 32) : LaneOps → BitVec 32
  | .and => a &&& b
  | .or => a ||| b
  | .xor => a ^^^ b
  | .add => a + b
  | .other code => env.other code a b

namespace LaneIndex

/-- The value of an expression in a lane. -/
def eval (env : LaneEnv) (lane : BitVec 32) : LaneIndex → BitVec 32
  | waveLane => lane
  | constantInt c => c
  | leaf i => env.leaf i
  | binaryOperator op lhs rhs => op.eval env (lhs.eval env lane) (rhs.eval env lane)

/-- `value_is_wave_lane`. -/
def isWaveLane : LaneIndex → Bool
  | waveLane => true
  | _ => false

/-- `get_constant_int`: whether the value is a constant, and what the output holds afterwards. -/
def getConstantInt (value : LaneIndex) (out : BitVec 32) : Bool × BitVec 32 :=
  match value with
  | constantInt c => (true, c)
  | _ => (false, out)

/-- `get_constant_xor_lane`. -/
def getConstantXorLane (lane : LaneIndex) (xorLane : BitVec 32) : Bool × BitVec 32 :=
  match lane with
  | binaryOperator .xor lhs rhs =>
    if lhs.isWaveLane && (rhs.getConstantInt xorLane).1 then rhs.getConstantInt xorLane
    else if rhs.isWaveLane && (lhs.getConstantInt xorLane).1 then lhs.getConstantInt xorLane
    else (false, xorLane)
  | _ => (false, xorLane)

/-- A constant beside the lane's own index, on either side. -/
def constantAndLane (lhs rhs : LaneIndex) (quadLane : BitVec 32) : Bool × BitVec 32 :=
  let left := lhs.getConstantInt quadLane
  if left.1 && rhs.isWaveLane then (true, left.2)
  else if lhs.isWaveLane then rhs.getConstantInt left.2
  else (false, left.2)

/-- A constant beside what a matcher accepts, on either side: the outputs of both. -/
def constantAndQuad (lhs rhs : LaneIndex) (lhsQuad rhsQuad : BitVec 32 → Bool × BitVec 32)
    (quadLane : BitVec 32) : Bool × BitVec 32 × BitVec 32 :=
  let left := lhs.getConstantInt quadLane
  let inner := if left.1 then rhsQuad 0 else (false, 0)
  if left.1 && inner.1 then (true, left.2, inner.2)
  else
    let inner := lhsQuad inner.2
    if inner.1 then
      let right := rhs.getConstantInt left.2
      (right.1, right.2, inner.2)
    else (false, left.2, inner.2)

/-- `get_constant_quad_lane`: whether the expression is a lane of the quad, and what the output
holds afterwards, also when it is not. -/
def getConstantQuadLane : LaneIndex → BitVec 32 → Bool × BitVec 32
  | binaryOperator .or lhs rhs, quadLane =>
    let lane := constantAndLane lhs rhs quadLane
    if lane.1 then (lane.2 = 3, lane.2)
    else
      let quad := constantAndQuad lhs rhs lhs.getConstantQuadLane rhs.getConstantQuadLane lane.2
      (quad.1 && (quad.2.1 < 4 && quad.2.2 = 0), quad.2.1)
  | binaryOperator .and lhs rhs, quadLane =>
    let lane := constantAndLane lhs rhs quadLane
    if lane.1 && lane.2 = ~~~3 then (true, 0) else (false, lane.2)
  | binaryOperator .add lhs rhs, quadLane =>
    let quad := constantAndQuad lhs rhs lhs.getConstantQuadLane rhs.getConstantQuadLane quadLane
    (quad.1 && (quad.2.1 < 4 && quad.2.2 = 0), quad.2.1)
  | _, quadLane => (false, quadLane)

end LaneIndex

/-- The operation that reads a lane. -/
inductive ReadLane
  | broadcast (id : LaneIndex)
  | quadBroadcast (index : BitVec 32)
  | quadSwap (direction : BitVec 32)
  | shuffleXor (mask : BitVec 32)
  | shuffle (id : LaneIndex)
  deriving DecidableEq, Repr

/-- `execution_model_can_quad_op`. -/
def executionModelCanQuadOp (model : ExecutionModel) : Bool :=
  model = .fragment || model = .glCompute

/-- `emit_wave_read_lane_at_instruction`. -/
def emitWaveReadLaneAtInstruction (model : ExecutionModel) (lane : LaneIndex) : ReadLane :=
  let canQuadOp := executionModelCanQuadOp model
  if (lane.getConstantInt 0).1 then .broadcast lane
  else
    let quad := if canQuadOp then lane.getConstantQuadLane 0 else (false, 0)
    if quad.1 then .quadBroadcast quad.2
    else
      let xorLane := lane.getConstantXorLane quad.2
      if xorLane.1 then
        if canQuadOp && xorLane.2 < 4 && 0 < xorLane.2 then .quadSwap (xorLane.2 - 1)
        else .shuffleXor xorLane.2
      else .shuffle lane

/-- A subgroup that is made of quads, with its active lanes. -/
structure Subgroup where
  size : BitVec 32
  active : Finset (BitVec 32)
  active_lt : ∀ lane ∈ active, lane < size
  quads : size.toNat % 4 = 0

variable (g : Subgroup) (env : LaneEnv) (lane : BitVec 32)

/-- The lane of the calling lane's quad with an index; a quad is four lanes from a multiple of four
on. -/
def quadInvocation (index : BitVec 32) : Option (BitVec 32) :=
  if index < 4 then some (BitVec.ofNat 32 (lane.toNat / 4 * 4 + index.toNat)) else none

/-- The position of the calling lane in its quad after a swap: along a row, a column or a
diagonal. -/
def swappedIndex (direction : BitVec 32) : Option (BitVec 32) :=
  match direction.toNat with
  | 0 => some (lane % 4 ^^^ 1)
  | 1 => some (lane % 4 ^^^ 2)
  | 2 => some (lane % 4 ^^^ 3)
  | _ => none

/-- The lane that an operation names, where it is defined. -/
def ReadLane.source : ReadLane → Option (BitVec 32)
  | broadcast id => some (id.eval env lane)
  | quadBroadcast index => quadInvocation lane index
  | quadSwap direction => (swappedIndex lane direction).bind (quadInvocation lane)
  | shuffleXor mask => some (lane ^^^ mask)
  | shuffle id => some (id.eval env lane)

/-- The lane that an operation reads from; a lane that is not active has nothing to read. -/
def ReadLane.readsFrom (op : ReadLane) : Option (BitVec 32) :=
  (op.source env lane).filter (· ∈ g.active)

variable {env lane} {v lhs rhs : LaneIndex} {q : BitVec 32}

theorem eval_of_isWaveLane (h : v.isWaveLane = true) : v.eval env lane = lane := by
  cases v with
  | waveLane => rfl
  | constantInt c => cases h
  | leaf i => cases h
  | binaryOperator op lhs rhs => cases h

theorem eval_of_getConstantInt (h : (v.getConstantInt q).1 = true) :
    v.eval env lane = (v.getConstantInt q).2 := by
  cases v with
  | waveLane => cases h
  | constantInt c => rfl
  | leaf i => cases h
  | binaryOperator op lhs rhs => cases h

variable {k m : BitVec 32}

/-- The index in the quad. -/
theorem and_three : lane &&& 3 = lane % 4 := by
  apply BitVec.eq_of_toNat_eq
  rw [BitVec.toNat_and, BitVec.toNat_umod]
  exact Nat.and_two_pow_sub_one_eq_mod _ 2

/-- The first lane of the quad. -/
theorem and_not_three : lane &&& ~~~3 = roundDown 4 lane := by
  have hsplit : (lane &&& 3) + (lane &&& ~~~3) = lane := and_add_and_not lane 3
  have hlow : (lane &&& 3).toNat = lane.toNat % 4 := by
    rw [and_three, BitVec.toNat_umod]
    rfl
  have hbase : lane &&& ~~~3 = lane - (lane &&& 3) := by
    rw [BitVec.eq_sub_iff_add_eq, BitVec.add_comm, hsplit]
  have hle : lane &&& 3 ≤ lane := by
    rw [BitVec.le_def, hlow]
    exact Nat.mod_le _ _
  have hlt := lane.isLt
  apply BitVec.eq_of_toNat_eq
  rw [hbase, BitVec.toNat_sub_of_le hle, hlow, roundDown, BitVec.toNat_ofNat]
  omega

/-- An index in a quad has only the two low bits. -/
theorem and_not_three_of_lt (hk : k < 4) : k &&& ~~~3 = 0 := by
  have hk : k.toNat < 4 := hk
  rw [and_not_three, roundDown, Nat.div_eq_of_lt hk]
  rfl

/-- The first lane of the quad and an index in it have no bit in common. -/
theorem base_and (lane : BitVec 32) (hk : k &&& ~~~3 = 0) : (lane &&& ~~~3) &&& k = 0 := by
  rw [BitVec.and_assoc, BitVec.and_comm (~~~3) k, hk]
  exact BitVec.and_zero

/-- The lane with an index in the quad. -/
theorem quadInvocation_eq (hk : k < 4) : quadInvocation lane k = some ((lane &&& ~~~3) + k) := by
  rw [quadInvocation, if_pos hk, and_not_three, roundDown, BitVec.ofNat_add, BitVec.ofNat_toNat,
    BitVec.setWidth_eq]

/-- An exclusive disjunction with a constant below four stays in the quad. -/
theorem xor_eq_base_add (hm : m < 4) : lane ^^^ m = (lane &&& ~~~3) + (lane % 4 ^^^ m) := by
  have hlow := and_not_three_of_lt hm
  have hbit : ∀ i (hi : i < 32), (m[i] && !(3#32)[i]) = false := fun i hi => by
    have hi' : (m &&& ~~~3#32)[i] = (0#32)[i] := congrArg (fun x : BitVec 32 => x[i]) hlow
    rwa [BitVec.getElem_and, BitVec.getElem_not, BitVec.getElem_zero] at hi'
  have hindex : (lane % 4 ^^^ m) &&& ~~~3 = 0 := by
    rw [← and_three]
    ext i hi
    have := hbit i hi
    simp only [BitVec.getElem_xor, BitVec.getElem_and, BitVec.getElem_not]
    revert this
    cases (lane[i]) <;> cases ((3#32)[i]) <;> cases (m[i]) <;> simp
  rw [BitVec.add_eq_or_of_and_eq_zero _ _ (base_and lane hindex), ← and_three]
  ext i hi
  have := hbit i hi
  simp only [BitVec.getElem_or, BitVec.getElem_xor, BitVec.getElem_and, BitVec.getElem_not]
  revert this
  cases (lane[i]) <;> cases ((3#32)[i]) <;> cases (m[i]) <;> simp

/-- With its two low bits set a lane is the last one of the quad. -/
theorem or_three : lane ||| 3 = (lane &&& ~~~3) + 3 := by
  rw [BitVec.add_eq_or_of_and_eq_zero _ _ (base_and lane (by decide))]
  ext i hi
  simp only [BitVec.getElem_or, BitVec.getElem_and, BitVec.getElem_not]
  cases (lane[i]) <;> cases ((3#32)[i]) <;> rfl

section Matched

open LaneIndex

/-- What was matched as a constant beside the lane's own index is that, on one of the sides. -/
theorem constantAndLane_spec (env : LaneEnv) (lane : BitVec 32)
    (h : (constantAndLane lhs rhs q).1 = true) :
    lhs.eval env lane = (constantAndLane lhs rhs q).2 ∧ rhs.eval env lane = lane ∨
      lhs.eval env lane = lane ∧ rhs.eval env lane = (constantAndLane lhs rhs q).2 := by
  unfold constantAndLane at h ⊢
  simp only at h ⊢
  by_cases hleft : ((lhs.getConstantInt q).1 && rhs.isWaveLane) = true
  · rw [if_pos hleft]
    rw [Bool.and_eq_true] at hleft
    exact Or.inl ⟨eval_of_getConstantInt hleft.1, eval_of_isWaveLane hleft.2⟩
  · rw [if_neg hleft] at h ⊢
    by_cases hlane : lhs.isWaveLane = true
    · rw [if_pos hlane] at h ⊢
      exact Or.inr ⟨eval_of_isWaveLane hlane, eval_of_getConstantInt h⟩
    · rw [if_neg hlane] at h
      cases h

/-- What was matched as a constant beside a lane of the quad is that, on one of the sides. -/
theorem constantAndQuad_spec (env : LaneEnv) (lane : BitVec 32)
    {lhsQuad rhsQuad : BitVec 32 → Bool × BitVec 32}
    (h : (constantAndQuad lhs rhs lhsQuad rhsQuad q).1 = true) :
    (lhs.eval env lane = (constantAndQuad lhs rhs lhsQuad rhsQuad q).2.1 ∧
      ∃ s, (rhsQuad s).1 = true ∧ (rhsQuad s).2 = (constantAndQuad lhs rhs lhsQuad rhsQuad q).2.2) ∨
    (rhs.eval env lane = (constantAndQuad lhs rhs lhsQuad rhsQuad q).2.1 ∧
      ∃ s, (lhsQuad s).1 = true ∧
        (lhsQuad s).2 = (constantAndQuad lhs rhs lhsQuad rhsQuad q).2.2) := by
  unfold constantAndQuad at h ⊢
  simp only at h ⊢
  generalize hinner : (if (lhs.getConstantInt q).1 = true then rhsQuad 0 else (false, 0)) =
    inner at h ⊢
  by_cases hright : ((lhs.getConstantInt q).1 && inner.1) = true
  · rw [if_pos hright]
    rw [Bool.and_eq_true] at hright
    rw [if_pos hright.1] at hinner
    exact Or.inl ⟨eval_of_getConstantInt hright.1, 0, by rw [hinner]; exact hright.2,
      by rw [hinner]⟩
  · rw [if_neg hright] at h ⊢
    by_cases hleft : (lhsQuad inner.2).1 = true
    · rw [if_pos hleft] at h ⊢
      exact Or.inr ⟨eval_of_getConstantInt h, inner.2, hleft, rfl⟩
    · rw [if_neg hleft] at h
      cases h

/-- A lane of the quad, as the matchers find it: its index, and its value in every lane. -/
def IsQuadLane (env : LaneEnv) (lane : BitVec 32) (v : LaneIndex) (index : BitVec 32) : Prop :=
  index < 4 ∧ v.eval env lane = (lane &&& ~~~3) + index

/-- A constant below four beside the first lane of the quad is the lane with that index. -/
theorem IsQuadLane.of_constantAndQuad {lhsQuad rhsQuad : BitVec 32 → Bool × BitVec 32}
    (hlhs : ∀ s, (lhsQuad s).1 = true → IsQuadLane env lane lhs (lhsQuad s).2)
    (hrhs : ∀ s, (rhsQuad s).1 = true → IsQuadLane env lane rhs (rhsQuad s).2)
    {op : LaneOps} (hop : op = .or ∨ op = .add)
    (h : ((constantAndQuad lhs rhs lhsQuad rhsQuad q).1 &&
      ((constantAndQuad lhs rhs lhsQuad rhsQuad q).2.1 < 4 &&
        (constantAndQuad lhs rhs lhsQuad rhsQuad q).2.2 = 0)) = true) :
    IsQuadLane env lane (.binaryOperator op lhs rhs)
      (constantAndQuad lhs rhs lhsQuad rhsQuad q).2.1 := by
  simp only [Bool.and_eq_true, decide_eq_true_eq] at h
  obtain ⟨hmatched, hlt, hsecondary⟩ := h
  have hor := BitVec.add_eq_or_of_and_eq_zero _ _ (base_and lane (and_not_three_of_lt hlt))
  refine ⟨hlt, ?_⟩
  rcases constantAndQuad_spec env lane hmatched with
    ⟨hconstant, s, hquad, hindex⟩ | ⟨hconstant, s, hquad, hindex⟩
  · obtain ⟨-, hvalue⟩ := hrhs s hquad
    rw [hindex, hsecondary, add_zero] at hvalue
    rcases hop with rfl | rfl
    · rw [hor, BitVec.or_comm]
      exact congrArg₂ (· ||| ·) hconstant hvalue
    · rw [BitVec.add_comm]
      exact congrArg₂ (· + ·) hconstant hvalue
  · obtain ⟨-, hvalue⟩ := hlhs s hquad
    rw [hindex, hsecondary, add_zero] at hvalue
    rcases hop with rfl | rfl
    · rw [hor]
      exact congrArg₂ (· ||| ·) hvalue hconstant
    · exact congrArg₂ (· + ·) hvalue hconstant

/-- `get_constant_quad_lane` accepts lanes of the quad only, whatever its output held before. -/
theorem getConstantQuadLane_spec (env : LaneEnv) (lane : BitVec 32)
    (h : (v.getConstantQuadLane q).1 = true) :
    IsQuadLane env lane v (v.getConstantQuadLane q).2 := by
  induction v generalizing q with
  | waveLane => cases h
  | constantInt c => cases h
  | leaf i => cases h
  | binaryOperator op lhs rhs ihl ihr =>
    cases op with
    | or =>
      unfold getConstantQuadLane at h ⊢
      simp only at h ⊢
      by_cases hlane : (constantAndLane lhs rhs q).1 = true
      · rw [if_pos hlane] at h ⊢
        have hthree := of_decide_eq_true h
        refine ⟨by rw [hthree]; decide, ?_⟩
        rcases constantAndLane_spec env lane hlane with ⟨hl, hr⟩ | ⟨hl, hr⟩
        · rw [hthree] at hl ⊢
          show lhs.eval env lane ||| rhs.eval env lane = _
          rw [hl, hr, BitVec.or_comm, or_three]
        · rw [hthree] at hr ⊢
          show lhs.eval env lane ||| rhs.eval env lane = _
          rw [hl, hr, or_three]
      · rw [if_neg hlane] at h ⊢
        exact IsQuadLane.of_constantAndQuad (fun s => ihl) (fun s => ihr) (Or.inl rfl) h
    | and =>
      unfold getConstantQuadLane at h ⊢
      simp only at h ⊢
      by_cases hmask : ((constantAndLane lhs rhs q).1 &&
          decide ((constantAndLane lhs rhs q).2 = ~~~3)) = true
      · rw [if_pos hmask]
        rw [Bool.and_eq_true, decide_eq_true_eq] at hmask
        refine ⟨by decide, ?_⟩
        show _ = (lane &&& ~~~3) + 0
        rw [add_zero]
        rcases constantAndLane_spec env lane hmask.1 with ⟨hl, hr⟩ | ⟨hl, hr⟩
        · rw [hmask.2] at hl
          show lhs.eval env lane &&& rhs.eval env lane = _
          rw [hl, hr, BitVec.and_comm]
        · rw [hmask.2] at hr
          show lhs.eval env lane &&& rhs.eval env lane = _
          rw [hl, hr]
      · rw [if_neg hmask] at h
        cases h
    | add =>
      unfold getConstantQuadLane at h ⊢
      exact IsQuadLane.of_constantAndQuad (fun s => ihl) (fun s => ihr) (Or.inr rfl) h
    | xor => cases h
    | other code => cases h

/-- `get_constant_xor_lane` accepts the lane's own index flipped by a constant only. -/
theorem getConstantXorLane_spec (env : LaneEnv) (lane : BitVec 32)
    (h : (v.getConstantXorLane q).1 = true) :
    v.eval env lane = lane ^^^ (v.getConstantXorLane q).2 := by
  cases v with
  | waveLane => cases h
  | constantInt c => cases h
  | leaf i => cases h
  | binaryOperator op lhs rhs =>
    cases op with
    | xor =>
      unfold getConstantXorLane at h ⊢
      simp only at h ⊢
      show lhs.eval env lane ^^^ rhs.eval env lane = _
      by_cases hleft : (lhs.isWaveLane && (rhs.getConstantInt q).1) = true
      · rw [if_pos hleft] at h ⊢
        rw [Bool.and_eq_true] at hleft
        rw [eval_of_isWaveLane hleft.1, eval_of_getConstantInt h]
      · rw [if_neg hleft] at h ⊢
        by_cases hright : (rhs.isWaveLane && (lhs.getConstantInt q).1) = true
        · rw [if_pos hright] at h ⊢
          rw [Bool.and_eq_true] at hright
          rw [eval_of_isWaveLane hright.1, eval_of_getConstantInt h, BitVec.xor_comm]
        · rw [if_neg hright] at h
          cases h
    | and => cases h
    | or => cases h
    | add => cases h
    | other code => cases h

/-- A swap in the quad flips the index by a constant from one to three. -/
theorem source_quadSwap {m : BitVec 32} (hm : m < 4) (hpos : 0 < m) :
    (ReadLane.quadSwap (m - 1)).source env lane = some (lane ^^^ m) := by
  have hswap : swappedIndex lane (m - 1) = some (lane % 4 ^^^ m) := by
    have hm' : m.toNat < 4 := hm
    have hpos' : 0 < m.toNat := hpos
    obtain h | h | h : m = 1 ∨ m = 2 ∨ m = 3 := by
      have : m.toNat = 1 ∨ m.toNat = 2 ∨ m.toNat = 3 := by omega
      exact this.imp BitVec.eq_of_toNat_eq (Or.imp BitVec.eq_of_toNat_eq BitVec.eq_of_toNat_eq)
    all_goals subst h; rfl
  have hindex : lane % 4 ^^^ m < 4 := by
    rw [BitVec.lt_def, BitVec.toNat_xor, BitVec.toNat_umod]
    exact Nat.xor_lt_two_pow (Nat.mod_lt _ (by decide) : lane.toNat % 4 < 2 ^ 2)
      (show m.toNat < 2 ^ 2 from hm)
  show (swappedIndex lane (m - 1)).bind (quadInvocation lane) = _
  rw [hswap, Option.bind_some, quadInvocation_eq hindex, ← xor_eq_base_add hm]

end Matched

/-- The operation chosen for a lane reads the lane that the expression names. -/
theorem emitWaveReadLaneAt_readsFrom (g : Subgroup) (env : LaneEnv) (model : ExecutionModel)
    (v : LaneIndex) (lane : BitVec 32) (hactive : v.eval env lane ∈ g.active) :
    (emitWaveReadLaneAtInstruction model v).readsFrom g env lane = some (v.eval env lane) := by
  suffices hsource : (emitWaveReadLaneAtInstruction model v).source env lane =
      some (v.eval env lane) by
    rw [ReadLane.readsFrom, hsource, Option.filter_some, if_pos (decide_eq_true hactive)]
  unfold emitWaveReadLaneAtInstruction
  simp only
  by_cases hconstant : (v.getConstantInt 0).1 = true
  · rw [if_pos hconstant]
    rfl
  rw [if_neg hconstant]
  generalize hquad : (if executionModelCanQuadOp model = true then v.getConstantQuadLane 0
    else (false, 0)) = quad
  by_cases hmatched : quad.1 = true
  · -- A quad broadcast.
    rw [if_pos hmatched]
    have hfound : v.getConstantQuadLane 0 = quad := by
      by_cases hcan : executionModelCanQuadOp model = true
      · rwa [if_pos hcan] at hquad
      · rw [if_neg hcan] at hquad
        rw [← hquad] at hmatched
        cases hmatched
    rw [← hfound] at hmatched ⊢
    obtain ⟨hlt, hvalue⟩ := getConstantQuadLane_spec env lane hmatched
    rw [hvalue]
    exact quadInvocation_eq hlt
  rw [if_neg hmatched]
  by_cases hxor : (v.getConstantXorLane quad.2).1 = true
  · have hvalue := getConstantXorLane_spec env lane hxor
    rw [if_pos hxor, hvalue]
    split
    · rename_i hswap
      simp only [Bool.and_eq_true, decide_eq_true_eq] at hswap
      exact source_quadSwap hswap.1.2 hswap.2
    · rfl
  · rw [if_neg hxor]
    rfl

/-- Lane 5 of 32 reads lane 6, the third of its quad. -/
theorem emitWaveReadLaneAt_readsFrom_quad :
    (emitWaveReadLaneAtInstruction .fragment (.binaryOperator .or (.constantInt 2)
      (.binaryOperator .and .waveLane (.constantInt (~~~3))))).readsFrom
        ⟨32, {5, 6}, by simp, by simp⟩ ⟨fun _ => 0, fun _ _ _ => 0⟩ 5 = some 6 :=
  emitWaveReadLaneAt_readsFrom ⟨32, {5, 6}, by simp, by simp⟩ ⟨fun _ => 0, fun _ _ _ => 0⟩
    .fragment _ 5 (by decide)

end DxilSpirv.Wave
