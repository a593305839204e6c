import DxilSpirv.Ir.ArgumentList

/-!
# An operation is a list of arguments

As long as no capacity comes within 31 of `2 ^ 32`, the block of an operation represents the list
that the same mutations build. Beyond that the word count of the mask wraps around.
-/

namespace DxilSpirv.Ir

open WordBlock

variable (fresh : Nat → BitVec 32) {release : Bool} {o other : Operation} {l : ArgumentList}

/-- The block of an operation holds a list: its values, and its flags in the mask. -/
structure Operation.Represents (o : Operation) (l : ArgumentList) : Prop where
  count : o.argumentCount = l.length
  fits : l.length ≤ o.argumentCapacity
  nonempty : 0 < o.argumentCapacity
  bound : o.argumentCapacity + 31 < 2 ^ 32
  length : o.arguments.length = o.argumentCapacity + (o.argumentCapacity + 31) / 32
  value : ∀ i, i < l.length → o.arguments[i]? = l[i]?.map Prod.fst
  literal : ∀ i, i < l.length →
    readBit o.arguments o.argumentCapacity i = l[i]?.map Prod.snd

/-- What can be observed of an operation is what can be observed of a list. -/
structure Operation.BehavesAs (o : Operation) (l : ArgumentList) : Prop where
  numArguments : o.numArguments = l.length
  argument : ∀ i, o.argument i = l[i]?.map Prod.fst
  argumentIsLiteral : ∀ i, o.argumentIsLiteral i = l[i]?.map Prod.snd

/-- A mutation whose capacities stay more than 31 below `2 ^ 32`. -/
def Mutation.InRange (o : Operation) : Mutation → Prop
  | .addId _ | .addLiteral _ =>
    o.argumentCount = o.argumentCapacity → o.argumentCapacity * 2 + 31 < 2 ^ 32
  | .addIds args => o.argumentCount + args.length ≤ o.argumentCapacity ∨
    o.argumentCount + args.length + 31 < 2 ^ 32
  | .reserveArguments count => count.toNat ≤ o.argumentCapacity ∨ count.toNat + 31 < 2 ^ 32
  | .setArgument _ _ => True

/-- A step whose mutation is in range where it is made. -/
def Step.InRange {Name : Type} (ops : Name → Operation) : Step Name → Prop
  | .mutate x mutation => mutation.InRange (ops x)
  | .construct .. | .copyConstruct .. | .copyAssign .. => True

/-- Every step of a run is in range where it is made. -/
def RunInRange {Name : Type} [DecidableEq Name] (release : Bool) (ops : Name → Operation) :
    List ((Nat → BitVec 32) × Step Name) → Prop
  | [] => True
  | (fresh, s) :: steps => s.InRange ops ∧
    ∀ ops', step fresh release ops s = some ops' → RunInRange release ops' steps

theorem assert_of {p : Prop} [Decidable p] (h : release ∨ p) : assert release p = some () :=
  if_pos h

theorem of_assert {p : Prop} {_ : Decidable p} {u : Unit} (h : assert release p = some u) :
    release ∨ p := by
  unfold assert at h
  split at h
  · assumption
  · cases h

theorem getLiteralWordCount_of_lt {count : Nat} (h : count + 31 < 2 ^ 32) :
    getLiteralWordCount count = (count + 31) / 32 := by
  rw [getLiteralWordCount, Nat.mod_eq_of_lt h]

/-- The observers read the list off the block. -/
theorem Operation.Represents.behavesAs (h : o.Represents l) : o.BehavesAs l where
  numArguments := h.count
  argument i := by
    unfold Operation.argument
    rw [h.count]
    by_cases hi : i < l.length
    · rw [if_pos hi, h.value i hi]
    · rw [if_neg hi, List.getElem?_eq_none (by omega), Option.map_none]
  argumentIsLiteral i := by
    unfold Operation.argumentIsLiteral
    rw [h.count]
    by_cases hi : i < l.length
    · rw [if_pos hi, h.literal i hi]
    · rw [if_neg hi, List.getElem?_eq_none (by omega), Option.map_none]

/-- A new operation holds the empty list, whatever its memory held. -/
theorem Operation.new_represents (op id typeId : BitVec 32) :
    (Operation.new fresh op id typeId).Represents [] where
  count := rfl
  fits := Nat.zero_le _
  nonempty := by simp [Operation.new, inlineArguments]
  bound := by simp [Operation.new, inlineArguments]
  length := by simp [Operation.new, inlineArguments, getLiteralWordCount]
  value i hi := absurd hi (Nat.not_lt_zero i)
  literal i hi := absurd hi (Nat.not_lt_zero i)

/-- The mask has a word for every argument. -/
theorem Operation.Represents.mask_le (h : o.Represents l) :
    o.argumentCapacity + getLiteralWordCount o.argumentCount ≤ o.arguments.length := by
  have hfits := h.fits
  have hbound := h.bound
  rw [h.length, h.count, getLiteralWordCount_of_lt (by omega)]
  omega

/-- Growing the block keeps what it holds. -/
theorem reserveArguments_spec (h : o.Represents l) (count : Nat)
    (hcount : count ≤ o.argumentCapacity ∨ count + 31 < 2 ^ 32) :
    ∃ o', o.reserveArguments fresh count = some o' ∧ o'.Represents l ∧
      count ≤ o'.argumentCapacity := by
  unfold Operation.reserveArguments
  by_cases hle : count ≤ o.argumentCapacity
  · exact ⟨o, if_pos hle, h, hle⟩
  have hbound : count + 31 < 2 ^ 32 := hcount.resolve_left hle
  have hfits := h.fits
  have hwords : getLiteralWordCount o.argumentCount = (l.length + 31) / 32 := by
    rw [h.count, getLiteralWordCount_of_lt (by omega)]
  rw [if_neg hle, getLiteralWordCount_of_lt hbound, hwords]
  -- The values, then a clear mask, then the old words of the mask.
  obtain ⟨values, hvalues, hvaluesLength, hvaluesGet⟩ := memcpy_spec
    ((List.range (count + (count + 31) / 32)).map fresh) 0 o.arguments 0 o.argumentCount
    (by simp only [List.length_map, List.length_range, h.count]; omega)
    (by rw [h.length, h.count]; omega)
  rw [List.length_map, List.length_range] at hvaluesLength
  obtain ⟨clear, hclear, hclearLength, hclearGet⟩ := memset_spec values count
    ((count + 31) / 32) (by omega)
  obtain ⟨block, hblock, hblockLength, hblockGet⟩ := memcpy_spec clear count
    o.arguments o.argumentCapacity ((l.length + 31) / 32)
    (by omega) (by rw [h.length]; omega)
  refine ⟨{ o with arguments := block, argumentCapacity := count }, ?_, ?_, Nat.le_refl _⟩
  · simp only [hvalues, hclear, hblock, Option.bind_eq_bind, Option.bind_some]
    rfl
  · refine ⟨h.count, (by omega : l.length ≤ count), (by omega : 0 < count), hbound, ?_,
      fun i hi => ?_, fun i hi => ?_⟩
    · rw [hblockLength, hclearLength, hvaluesLength]
    · rw [hblockGet i, if_neg (by omega), hclearGet i, if_neg (by omega), hvaluesGet i,
        if_pos (by rw [h.count]; omega), ← h.value i hi]
      congr 1
      omega
    · rw [← h.literal i hi]
      show readBit block count i = _
      refine readBit_congr ?_
      rw [hblockGet, if_pos (by omega)]
      congr 1
      omega

/-- Appending to a block with room appends to the list. -/
theorem addArgument_room (h : o.Represents l) (value : BitVec 32) (literal : Bool)
    (hroom : l.length < o.argumentCapacity) :
    ∃ o', o.addArgument fresh value literal = some o' ∧ o'.Represents (l ++ [(value, literal)]) ∧
      o'.argumentCapacity = o.argumentCapacity := by
  have hbound := h.bound
  obtain ⟨values, hvalues, hvaluesLength, hvaluesGet⟩ := store_spec value
    (show l.length < o.arguments.length by rw [h.length]; omega)
  obtain ⟨block, hblock, hblockLength, hblockGet, hblockBit⟩ := writeBit_spec literal
    (show o.argumentCapacity + l.length / 32 < values.length by
      rw [hvaluesLength, h.length]; omega)
  refine ⟨{ o with arguments := block, argumentCount := l.length + 1 }, ?_, ?_, rfl⟩
  · unfold Operation.addArgument
    rw [h.count, if_neg (by omega)]
    simp only [h.count, hvalues, hblock, Option.bind_eq_bind, Option.bind_some]
    rw [Nat.mod_eq_of_lt (by omega)]
    rfl
  · have hlength : (l ++ [(value, literal)]).length = l.length + 1 := by simp
    refine ⟨hlength.symm, ?_, h.nonempty, hbound, ?_, fun i hi => ?_, fun i hi => ?_⟩
    · rw [hlength]
      exact hroom
    · rw [hblockLength, hvaluesLength, h.length]
    · rw [hlength] at hi
      rw [hblockGet i (by omega), hvaluesGet i]
      by_cases hlast : i = l.length
      · rw [if_pos hlast, hlast, List.getElem?_concat_length, Option.map_some]
      · rw [if_neg hlast, h.value i (by omega), List.getElem?_append_left (by omega)]
    · rw [hlength] at hi
      rw [hblockBit i]
      by_cases hlast : i = l.length
      · rw [if_pos hlast, hlast, List.getElem?_concat_length, Option.map_some]
      · rw [if_neg hlast, List.getElem?_append_left (by omega), ← h.literal i (by omega)]
        refine readBit_congr ?_
        rw [hvaluesGet, if_neg (by omega)]

/-- Appending appends to the list, with the block doubled first where it is full. -/
theorem addArgument_spec (h : o.Represents l) (value : BitVec 32) (literal : Bool)
    (hrange : o.argumentCount = o.argumentCapacity → o.argumentCapacity * 2 + 31 < 2 ^ 32) :
    ∃ o', o.addArgument fresh value literal = some o' ∧
      o'.Represents (l ++ [(value, literal)]) := by
  have hfits := h.fits
  by_cases hfull : o.argumentCount = o.argumentCapacity
  · have hrange := hrange hfull
    have hnonempty := h.nonempty
    obtain ⟨o₁, hreserve, h₁, hcapacity⟩ := reserveArguments_spec fresh h
      (o.argumentCapacity * 2 % 2 ^ 32) (Or.inr (by rw [Nat.mod_eq_of_lt] <;> omega))
    rw [Nat.mod_eq_of_lt (by omega)] at hcapacity
    have hcount := h.count
    obtain ⟨o', hadd, h', _⟩ := addArgument_room fresh h₁ value literal (by omega)
    refine ⟨o', ?_, h'⟩
    have hroom : ¬ o₁.argumentCount = o₁.argumentCapacity := by
      rw [h₁.count]
      omega
    rw [← hadd]
    unfold Operation.addArgument
    rw [if_pos hfull, if_neg hroom, hreserve]
  · have hcount := h.count
    obtain ⟨o', hadd, h', _⟩ := addArgument_room fresh h value literal (by omega)
    exact ⟨o', hadd, h'⟩

/-- The loop of `add_ids` appends every id to a block with room for them. -/
theorem addIds_loop (args : List (BitVec 32)) (h : o.Represents l)
    (hroom : l.length + args.length ≤ o.argumentCapacity)
    (hargs : release ∨ ∀ arg ∈ args, arg ≠ 0) :
    ∃ o', args.foldlM (fun o arg => do
        assert release (arg ≠ 0)
        o.addId fresh release arg) o = some o' ∧ o'.Represents (l ++ args.map (·, false)) := by
  induction args generalizing o l with
  | nil => exact ⟨o, rfl, by simpa using h⟩
  | cons arg args ih =>
    rw [List.length_cons] at hroom
    obtain ⟨o₁, hadd, h₁, hcapacity⟩ := addArgument_room fresh h arg false (by omega)
    obtain ⟨o', hloop, h'⟩ := ih h₁
      (by rw [List.length_append, List.length_singleton, hcapacity]; omega)
      (hargs.imp_right fun hall a ha => hall a (List.mem_cons_of_mem arg ha))
    have harg : assert release (arg ≠ 0) = some () :=
      assert_of (hargs.imp_right fun hall => hall arg List.mem_cons_self)
    refine ⟨o', ?_, by simpa using h'⟩
    rw [List.foldlM_cons]
    simp only [Operation.addId, harg, hadd, Option.bind_eq_bind, Option.bind_some]
    simpa only [Operation.addId, Option.bind_eq_bind] using hloop

/-- A copy holds the list of the original. -/
theorem copyFrom_spec {l₀ : ArgumentList} (h₀ : o.Represents l₀) (h : other.Represents l) :
    ∃ o', o.copyFrom fresh other = some o' ∧ o'.Represents l := by
  have hfits := h.fits
  have hbound := h.bound
  let header : Operation :=
    { o with op := other.op, id := other.id, typeId := other.typeId, flags := other.flags }
  have hheader : header.Represents l₀ :=
    ⟨h₀.count, h₀.fits, h₀.nonempty, h₀.bound, h₀.length, h₀.value, h₀.literal⟩
  obtain ⟨o₁, hreserve, h₁, hcapacity⟩ := reserveArguments_spec fresh hheader
    other.argumentCount (Or.inr (by rw [h.count]; omega))
  have hwords : getLiteralWordCount other.argumentCount = (l.length + 31) / 32 := by
    rw [h.count, getLiteralWordCount_of_lt (by omega)]
  rw [h.count] at hcapacity
  obtain ⟨values, hvalues, hvaluesLength, hvaluesGet⟩ := memcpy_spec o₁.arguments 0
    other.arguments 0 other.argumentCount
    (by rw [h₁.length, h.count]; omega) (by rw [h.length, h.count]; omega)
  obtain ⟨block, hblock, hblockLength, hblockGet⟩ := memcpy_spec values
    o₁.argumentCapacity other.arguments other.argumentCapacity
    (getLiteralWordCount other.argumentCount)
    (by rw [hvaluesLength, h₁.length, hwords]; omega) h.mask_le
  refine ⟨{ o₁ with arguments := block, argumentCount := other.argumentCount }, ?_, ?_⟩
  · unfold Operation.copyFrom
    simp only [header] at hreserve
    simp only [hreserve, hvalues, hblock, Option.bind_eq_bind, Option.bind_some]
    rfl
  · refine ⟨h.count, hcapacity, h₁.nonempty, h₁.bound, ?_, fun i hi => ?_, fun i hi => ?_⟩
    · rw [hblockLength, hvaluesLength, h₁.length]
    · rw [hblockGet i, if_neg (by omega), hvaluesGet i, if_pos (by rw [h.count]; omega),
        ← h.value i hi]
      congr 1
      omega
    · rw [← h.literal i hi]
      show readBit block o₁.argumentCapacity i = _
      refine readBit_congr ?_
      rw [hblockGet, hwords, if_pos (by omega)]
      congr 1
      omega

/-- Replacing a value keeps the other values and every flag. -/
theorem setArgument_spec (h : o.Represents l) {index : Nat} {value : BitVec 32}
    {l' : ArgumentList} (hset : l.setArgument release index value = some l') :
    ∃ o', o.setArgument release index value = some o' ∧ o'.Represents l' := by
  simp only [ArgumentList.setArgument, Option.bind_eq_bind, Option.bind_eq_some_iff] at hset
  obtain ⟨old, hold, _, hassert, hl'⟩ := hset
  cases hl'
  have hindex : index < l.length := (List.getElem?_eq_some_iff.mp hold).1
  have hliteral : o.argumentIsLiteral index = some old.2 := by
    rw [h.behavesAs.argumentIsLiteral, hold, Option.map_some]
  obtain ⟨block, hblock, hblockLength, hblockGet⟩ := store_spec value
    (show index < o.arguments.length by have := h.fits; rw [h.length]; omega)
  have hcheck : assert release (o.argumentIsLiteral index = some true ∨ value ≠ 0) = some () :=
    assert_of (by simpa only [hliteral, Option.some.injEq] using of_assert hassert)
  refine ⟨{ o with arguments := block }, ?_, ?_⟩
  · unfold Operation.setArgument
    rw [if_pos (by rw [h.count]; exact hindex)]
    simp only [hcheck, hblock, Option.bind_eq_bind, Option.bind_some]
    rfl
  · have hfits := h.fits
    refine ⟨by rw [List.length_set]; exact h.count, by rw [List.length_set]; exact hfits,
      h.nonempty, h.bound, by rw [hblockLength]; exact h.length, fun i hi => ?_, fun i hi => ?_⟩
    · rw [List.length_set] at hi
      rw [hblockGet i]
      by_cases hi' : i = index
      · rw [if_pos hi', hi', List.getElem?_set_self hindex, Option.map_some]
      · rw [if_neg hi', List.getElem?_set_ne (Ne.symm hi'), h.value i hi]
    · rw [List.length_set] at hi
      have hbit : readBit block o.argumentCapacity i = readBit o.arguments o.argumentCapacity i :=
        readBit_congr (by rw [hblockGet, if_neg (by omega)])
      rw [hbit, h.literal i hi]
      by_cases hi' : i = index
      · rw [hi', List.getElem?_set_self hindex, hold, Option.map_some, Option.map_some]
      · rw [List.getElem?_set_ne (Ne.symm hi')]

/-- A mutation in range does to the block what it does to the list. -/
theorem mutate_spec (h : o.Represents l) {mutation : Mutation} (hrange : mutation.InRange o)
    {l' : ArgumentList} (hmutate : l.mutate release mutation = some l') :
    ∃ o', o.mutate fresh release mutation = some o' ∧ o'.Represents l' := by
  cases mutation with
  | addId arg =>
    simp only [ArgumentList.mutate, ArgumentList.addIds, Option.bind_eq_bind,
      Option.bind_eq_some_iff] at hmutate
    obtain ⟨_, hassert, hl'⟩ := hmutate
    cases hl'
    have harg : assert release (arg ≠ 0) = some () :=
      assert_of ((of_assert hassert).imp_right fun hall => hall arg (List.mem_singleton_self arg))
    obtain ⟨o', hadd, h'⟩ := addArgument_spec fresh h arg false hrange
    refine ⟨o', ?_, h'⟩
    simp only [Operation.mutate, Operation.addId, harg, hadd, Option.bind_eq_bind,
      Option.bind_some]
  | addLiteral lit =>
    cases hmutate
    exact addArgument_spec fresh h lit true hrange
  | addIds args =>
    simp only [ArgumentList.mutate, ArgumentList.addIds, Option.bind_eq_bind,
      Option.bind_eq_some_iff] at hmutate
    obtain ⟨_, hassert, hl'⟩ := hmutate
    cases hl'
    have hcount := h.count
    have hfits := h.fits
    have hbound := h.bound
    have hsum : o.argumentCount + args.length < 2 ^ 32 := by
      rcases hrange with hrange | hrange <;> omega
    obtain ⟨o₁, hreserve, h₁, hcapacity⟩ := reserveArguments_spec fresh h
      ((o.argumentCount + args.length) % 2 ^ 32)
      (by rw [Nat.mod_eq_of_lt hsum]; exact hrange)
    rw [Nat.mod_eq_of_lt hsum] at hcapacity
    obtain ⟨o', hloop, h'⟩ := addIds_loop fresh args h₁ (by omega) (of_assert hassert)
    refine ⟨o', ?_, h'⟩
    simp only [Operation.mutate, Operation.addIds, hreserve, Option.bind_eq_bind,
      Option.bind_some]
    simpa only [Option.bind_eq_bind] using hloop
  | reserveArguments count =>
    cases hmutate
    obtain ⟨o', hreserve, h', _⟩ := reserveArguments_spec fresh h _ hrange
    exact ⟨o', hreserve, h'⟩
  | setArgument index value => exact setArgument_spec h hmutate

/-- A literal whose word of the mask lies behind the block cannot be appended. -/
theorem addLiteral_out_of_block {lit : BitVec 32} (hcount : o.argumentCount = 0)
    (hcapacity : 0 < o.argumentCapacity) (hlength : o.arguments.length ≤ o.argumentCapacity) :
    o.addLiteral fresh lit = none := by
  unfold Operation.addLiteral Operation.addArgument
  rw [if_neg (by omega), Option.bind_eq_bind, Option.bind_some]
  simp only [hcount, Option.bind_eq_bind]
  rw [Option.bind_eq_none_iff]
  intro arguments harguments
  have hmask : arguments[o.argumentCapacity + 0 / 32]? = none := by
    refine List.getElem?_eq_none ?_
    unfold store at harguments
    split at harguments
    · obtain rfl := Option.some.inj harguments
      rw [List.length_set]
      omega
    · cases harguments
  rw [writeBit, hmask]
  rfl

/-- Growing a new block to `2 ^ 32 - 1` values leaves no word for their mask. -/
theorem reserveArguments_all_ones {op id typeId : BitVec 32}
    (h : (Operation.new fresh op id typeId).reserveArguments fresh 0xFFFFFFFF = some o) :
    o.argumentCount = 0 ∧ o.argumentCapacity = 0xFFFFFFFF ∧
      o.arguments.length = o.argumentCapacity := by
  have hwords : getLiteralWordCount 0xFFFFFFFF = 0 := by decide
  unfold Operation.reserveArguments at h
  rw [if_neg (by simp [Operation.new, inlineArguments]), hwords] at h
  simp only [Option.bind_eq_bind, Option.bind_eq_some_iff] at h
  obtain ⟨values, hvalues, clear, hclear, block, hblock, ho⟩ := h
  obtain rfl := Option.some.inj ho
  refine ⟨rfl, rfl, ?_⟩
  have hlength := length_of_memcpy hvalues
  rw [List.length_map, List.length_range] at hlength
  exact (length_of_memcpy hblock).trans ((length_of_memcpy hclear).trans hlength)

variable {Name : Type} [DecidableEq Name] {ops : Name → Operation} {lists : Name → ArgumentList}

/-- Replacing one operation and its list keeps what all of them hold. -/
theorem represents_update (h : ∀ x, (ops x).Represents (lists x)) (x : Name)
    (hx : o.Represents l) (y : Name) :
    (Function.update ops x o y).Represents (Function.update lists x l y) := by
  by_cases hy : y = x
  · rw [hy, Function.update_self, Function.update_self]
    exact hx
  · rw [Function.update_of_ne hy, Function.update_of_ne hy]
    exact h y

/-- A step in range keeps every operation the block of its list. -/
theorem step_spec (h : ∀ x, (ops x).Represents (lists x)) {s : Step Name}
    (hrange : s.InRange ops) {lists' : Name → ArgumentList}
    (hstep : ArgumentList.step release lists s = some lists') :
    ∃ ops', step fresh release ops s = some ops' ∧ ∀ x, (ops' x).Represents (lists' x) := by
  cases s with
  | construct x op id typeId =>
    cases hstep
    exact ⟨_, rfl, represents_update h x (Operation.new_represents _ op id typeId)⟩
  | mutate x mutation =>
    simp only [ArgumentList.step, Option.bind_eq_bind, Option.bind_eq_some_iff] at hstep
    obtain ⟨l', hmutate, hlists⟩ := hstep
    cases hlists
    obtain ⟨o', hrun, ho'⟩ := mutate_spec fresh (h x) hrange hmutate
    exact ⟨_, by simp only [step, hrun, Option.bind_eq_bind, Option.bind_some]; rfl,
      represents_update h x ho'⟩
  | copyConstruct x y =>
    cases hstep
    obtain ⟨o', hrun, ho'⟩ := copyFrom_spec fresh
      (Operation.new_represents fresh 0 0 0) (h y)
    exact ⟨_, by simp only [step, hrun, Option.bind_eq_bind, Option.bind_some]; rfl,
      represents_update h x ho'⟩
  | copyAssign x y =>
    cases hstep
    by_cases hxy : x = y
    · refine ⟨ops, if_pos hxy, fun z => ?_⟩
      rw [hxy, Function.update_eq_self]
      exact h z
    · obtain ⟨o', hrun, ho'⟩ := copyFrom_spec fresh (h x) (h y)
      refine ⟨_, ?_, represents_update h x ho'⟩
      simp only [step, if_neg hxy, hrun, Option.bind_eq_bind, Option.bind_some]
      rfl

/-- A run in range keeps every operation the block of its list. -/
theorem run_spec {steps : List ((Nat → BitVec 32) × Step Name)}
    (h : ∀ x, (ops x).Represents (lists x)) (hrange : RunInRange release ops steps)
    {lists' : Name → ArgumentList}
    (hrun : ArgumentList.run release lists (steps.map Prod.snd) = some lists') :
    ∃ ops', run release ops steps = some ops' ∧ ∀ x, (ops' x).Represents (lists' x) := by
  induction steps generalizing ops lists with
  | nil =>
    cases hrun
    exact ⟨ops, rfl, h⟩
  | cons head steps ih =>
    obtain ⟨fresh, s⟩ := head
    obtain ⟨hs, hrest⟩ := hrange
    simp only [List.map_cons, ArgumentList.run, Option.bind_eq_bind,
      Option.bind_eq_some_iff] at hrun
    obtain ⟨lists₁, hstep, hrun⟩ := hrun
    obtain ⟨ops₁, hstep₁, h₁⟩ := step_spec fresh h hs hstep
    obtain ⟨ops', hrun', h'⟩ := ih h₁ (hrest ops₁ hstep₁) hrun
    exact ⟨ops', by simp only [run, hstep₁, Option.bind_eq_bind, Option.bind_some, hrun'], h'⟩

/-- Over any run in range every operation shows the list that the same steps build. -/
theorem run_behavesAs (release : Bool) (memory : Name → Nat → BitVec 32)
    (steps : List ((Nat → BitVec 32) × Step Name))
    (hrange : RunInRange release (fun x => Operation.new (memory x) 0 0 0) steps)
    (lists : Name → ArgumentList)
    (hrun : ArgumentList.run release (fun _ => []) (steps.map Prod.snd) = some lists) :
    ∃ ops, run release (fun x => Operation.new (memory x) 0 0 0) steps = some ops ∧
      ∀ x, (ops x).BehavesAs (lists x) := by
  obtain ⟨ops, hops, h⟩ := run_spec (fun x => Operation.new_represents _ 0 0 0) hrange hrun
  exact ⟨ops, hops, fun x => (h x).behavesAs⟩

/-- How many arguments a step appends. -/
def Step.size : Step Name → Nat
  | .mutate _ (.addId _) | .mutate _ (.addLiteral _) => 1
  | .mutate _ (.addIds args) => args.length
  | _ => 0

/-- What a step reserves stays in range. -/
def Step.ReservesInRange : Step Name → Prop
  | .mutate _ (.reserveArguments count) => count.toNat + 31 < 2 ^ 32
  | _ => True

/-- A step makes no list longer than by the arguments it appends. -/
theorem length_step_le {n : Nat} (hn : ∀ x, (lists x).length ≤ n) {s : Step Name}
    {lists' : Name → ArgumentList} (hstep : ArgumentList.step release lists s = some lists') :
    ∀ x, (lists' x).length ≤ n + s.size := by
  have hupdate : ∀ {l : ArgumentList} {x : Name}, l.length ≤ n + s.size →
      ∀ y, (Function.update lists x l y).length ≤ n + s.size := by
    intro l x hl y
    by_cases hy : y = x
    · rw [hy, Function.update_self]
      exact hl
    · rw [Function.update_of_ne hy]
      exact Nat.le_trans (hn y) (Nat.le_add_right ..)
  cases s with
  | construct x op id typeId =>
    cases hstep
    exact hupdate (Nat.zero_le _)
  | mutate x mutation =>
    simp only [ArgumentList.step, Option.bind_eq_bind, Option.bind_eq_some_iff] at hstep
    obtain ⟨l', hmutate, hlists⟩ := hstep
    cases hlists
    refine hupdate ?_
    have hx := hn x
    cases mutation with
    | addId arg =>
      simp only [ArgumentList.mutate, ArgumentList.addIds, Option.bind_eq_bind,
        Option.bind_eq_some_iff] at hmutate
      obtain ⟨_, -, hl'⟩ := hmutate
      cases hl'
      simp only [List.length_append, List.length_map, List.length_singleton, Step.size]
      omega
    | addLiteral lit =>
      cases hmutate
      simp only [List.length_append, List.length_singleton, Step.size]
      omega
    | addIds args =>
      simp only [ArgumentList.mutate, ArgumentList.addIds, Option.bind_eq_bind,
        Option.bind_eq_some_iff] at hmutate
      obtain ⟨_, -, hl'⟩ := hmutate
      cases hl'
      simp only [List.length_append, List.length_map, Step.size]
      omega
    | reserveArguments count =>
      cases hmutate
      exact hx
    | setArgument index value =>
      simp only [ArgumentList.mutate, ArgumentList.setArgument, Option.bind_eq_bind,
        Option.bind_eq_some_iff] at hmutate
      obtain ⟨old, -, _, -, hl'⟩ := hmutate
      cases hl'
      rw [List.length_set]
      exact hx
  | copyConstruct x y =>
    cases hstep
    exact hupdate (hn y)
  | copyAssign x y =>
    cases hstep
    exact hupdate (hn y)

omit [DecidableEq Name] in
/-- A step on short lists is in range. -/
theorem Step.inRange_of_size (h : ∀ x, (ops x).Represents (lists x)) {n : Nat}
    (hn : ∀ x, (lists x).length ≤ n) {s : Step Name} (hsize : 2 * (n + s.size) + 31 < 2 ^ 32)
    (hreserve : s.ReservesInRange) : s.InRange ops := by
  cases s with
  | construct x op id typeId => trivial
  | mutate x mutation =>
    have hcount := (h x).count
    have hx := hn x
    cases mutation with
    | addId arg =>
      intro hfull
      omega
    | addLiteral lit =>
      intro hfull
      omega
    | addIds args =>
      refine .inr ?_
      simp only [Step.size] at hsize
      omega
    | reserveArguments count => exact .inr hreserve
    | setArgument index value => trivial
  | copyConstruct x y => trivial
  | copyAssign x y => trivial

/-- A run that appends less than `2 ^ 31 - 15` arguments in all is in range, whatever it copies. -/
theorem runInRange_of_size {steps : List ((Nat → BitVec 32) × Step Name)}
    (h : ∀ x, (ops x).Represents (lists x)) {n : Nat} (hn : ∀ x, (lists x).length ≤ n)
    (hsize : 2 * (n + (steps.map fun s => s.2.size).sum) + 31 < 2 ^ 32)
    (hreserve : ∀ s ∈ steps, s.2.ReservesInRange) {lists' : Name → ArgumentList}
    (hrun : ArgumentList.run release lists (steps.map Prod.snd) = some lists') :
    RunInRange release ops steps := by
  induction steps generalizing ops lists n with
  | nil => trivial
  | cons head steps ih =>
    obtain ⟨fresh, s⟩ := head
    simp only [List.map_cons, ArgumentList.run, Option.bind_eq_bind,
      Option.bind_eq_some_iff] at hrun
    obtain ⟨lists₁, hstep, hrun⟩ := hrun
    simp only [List.map_cons, List.sum_cons] at hsize
    have hs : s.InRange ops :=
      Step.inRange_of_size h hn (by omega) (hreserve _ (List.mem_cons_self ..))
    refine ⟨hs, fun ops₁ hops₁ => ?_⟩
    obtain ⟨ops₂, hops₂, h₁⟩ := step_spec fresh h hs hstep
    obtain rfl := Option.some.inj (hops₂.symm.trans hops₁)
    exact ih h₁ (length_step_le hn hstep) (by omega)
      (fun s hs => hreserve s (List.mem_cons_of_mem _ hs)) hrun

/-- The ids from `start` on. -/
def idsFrom (start n : Nat) : List (BitVec 32) := (List.range' start n).map (BitVec.ofNat 32)

/-- The block of an operation grows for ids, for a literal when it is full, by reserving, and past
32 arguments; then it is copied over another operation. -/
def growingRun : List ((Nat → BitVec 32) × Step Bool) :=
  [.mutate true (.addIds (idsFrom 1 8)), .mutate true (.addLiteral 9),
    .mutate true (.reserveArguments 20), .mutate true (.addIds (idsFrom 10 24)),
    .mutate true (.addLiteral 5), .mutate true (.setArgument 33 6),
    .copyAssign false true].map (fun _ => 0xFFFFFFFF#32, ·)

/-- All 34 arguments arrive in the copy. -/
theorem run_behavesAs_copy :
    ∃ ops, run false (fun _ : Bool => Operation.new (fun _ => 0xFFFFFFFF#32) 0 0 0) growingRun =
        some ops ∧
      (ops false).BehavesAs ((idsFrom 1 8).map (·, false) ++ [(9, true)] ++
        (idsFrom 10 24).map (·, false) ++ [(6, true)]) := by
  have hlists : (ArgumentList.run false (fun _ => []) (growingRun.map Prod.snd)).map (· false) =
      some ((idsFrom 1 8).map (·, false) ++ [(9, true)] ++ (idsFrom 10 24).map (·, false) ++
        [(6, true)]) := by decide +kernel
  obtain ⟨lists, hrun, hlist⟩ := Option.map_eq_some_iff.mp hlists
  have hreserve : ∀ s ∈ growingRun, s.2.ReservesInRange := by
    simp [growingRun, Step.ReservesInRange]
  have hsize : (growingRun.map fun s => s.2.size).sum = 34 := by decide +kernel
  have hrange := runInRange_of_size (fun _ : Bool => Operation.new_represents
    (fun _ => 0xFFFFFFFF#32) 0 0 0) (fun _ => Nat.zero_le 0) (by rw [hsize]; omega) hreserve hrun
  obtain ⟨ops, hops, h⟩ := run_behavesAs false (fun _ : Bool => fun _ => 0xFFFFFFFF#32) growingRun
    hrange lists hrun
  exact ⟨ops, hops, hlist ▸ h false⟩

/-- With a capacity of `2 ^ 32 - 1` the mask has no word, and the first literal leaves the block. -/
theorem not_run_behavesAs :
    ¬ ∀ (steps : List ((Nat → BitVec 32) × Step Unit)) (lists : Unit → ArgumentList),
      ArgumentList.run true (fun _ => []) (steps.map Prod.snd) = some lists →
      ∃ ops, run true (fun _ => Operation.new (fun _ => 0) 0 0 0) steps = some ops ∧
        ∀ x, (ops x).BehavesAs (lists x) := by
  intro h
  obtain ⟨ops, hops, -⟩ := h
    [(fun _ => 0, .mutate () (.reserveArguments 0xFFFFFFFF)),
      (fun _ => 0, .mutate () (.addLiteral 1))] _ rfl
  simp only [run, step, Operation.mutate, Option.bind_eq_bind, Option.bind_eq_some_iff] at hops
  obtain ⟨_, ⟨o, hreserve, hops₁⟩, _, ⟨o', hadd, -⟩, -⟩ := hops
  obtain rfl := Option.some.inj hops₁
  rw [Function.update_self] at hadd
  have hall : (0xFFFFFFFF : BitVec 32).toNat = 0xFFFFFFFF := by decide
  rw [hall] at hreserve
  obtain ⟨hcount, hcapacity, hlength⟩ := reserveArguments_all_ones _ hreserve
  rw [addLiteral_out_of_block _ hcount (by omega) (Nat.le_of_eq hlength)] at hadd
  cases hadd

end DxilSpirv.Ir
