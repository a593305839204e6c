import DxilSpirv.Bitcode.Instructions

/-!
# Shuffle masks

The mask of a shuffle is a constant vector, which the constants block encodes in one of four forms.
The instruction only reads the elements of a data vector, and takes every other mask for a zero.
-/

namespace DxilSpirv.Bitcode

open DxilSpirv.Program Stoppable

/-- The value of a constant integer. -/
def Context.constantValue (c : Context) (p : ValuePtr) : Option Int :=
  match c.object p with
  | .constantInt width value => some (getSExtValue width value)
  | _ => none

/-- The value that an element of an aggregate stands for, be it a forward reference. -/
def Context.elementPointer (c : Context) : Value → Option ValuePtr
  | .object p _ => some p
  | .proxy q _ => c.values[(c.valueProxy q).id]?.map (·.1)

/-- The integer value of an element of a constant vector with `size` elements. Undefined elements
have none. -/
def Context.elementValue (c : Context) (size : Nat) (contents : Contents) (i : Nat) : Option Int :=
  match contents with
  | .constantDataVector elements => elements[i]?.bind c.constantValue
  | .constantAggregate elements => (elements[i]?.join.bind c.elementPointer).bind c.constantValue
  | .constantAggregateZero => if i < size then some 0 else none
  | _ => none

/-- The mask operand of a shuffle. -/
def Context.maskOperand (c : Context) (ops : List Nat) : Option Value :=
  let a := c.getValueAndType ops 0
  let b := a.2.getNextValue ops a.1.index a.1.second
  (b.2.getValueAndType ops b.1.2).1.first

/-- What the constructor reads of the contents of a mask operand. -/
def Context.Reads (c : Context) (size : Nat) (contents : Contents) (mask : List Int) : Prop :=
  (∃ elements, contents = .constantDataVector elements ∧
      ∀ i : Nat, mask[i]? = (elements[i]?.bind c.constantValue).map toInt32) ∨
    (∀ elements, contents ≠ .constantDataVector elements) ∧ mask = List.replicate size 0

variable {c c' c₀ c₁ : Context} {ops : List Nat}

/-- The elements that are read are integers. -/
theorem maskElements_runs {l : List ValuePtr} {mask : List Int}
    (h : maskElements c l c₀ = .ok (mask, c₁)) :
    ∀ i : Nat, mask[i]? = (l[i]?.bind c.constantValue).map toInt32 := by
  induction l generalizing mask c₀ c₁ with
  | nil =>
    obtain ⟨rfl, -⟩ := pure_runs.mp h
    exact fun i => rfl
  | cons element rest ih =>
    unfold maskElements at h
    rw [bind_runs] at h
    obtain ⟨value, c₂, h₁, h⟩ := h
    rw [bind_runs] at h
    obtain ⟨values, c₃, h₂, h⟩ := h
    obtain ⟨rfl, -⟩ := pure_runs.mp h
    have hvalue : (c.constantValue element).map toInt32 = some value := by
      unfold maskElement at h₁
      unfold Context.constantValue
      generalize c.object element = contents at h₁ ⊢
      cases contents with
      | constantInt width value =>
        obtain ⟨rfl, -⟩ := pure_runs.mp h₁
        rfl
      | _ => exact absurd (stop_runs.mp h₁) id
    intro i
    cases i with
    | zero => exact hvalue.symm
    | succ i => exact ih h₂ i

/-- What the constructor of a shuffle reads of a constant mask. -/
theorem shuffleMask_runs {p : ValuePtr} {t : TypePtr} {size : Nat} {e : TypePtr} {mask : List Int}
    (ht : c.heap.lookup t = .vector size e) (h : shuffleMask (.object p t) c = .ok (mask, c')) :
    c.Reads size (c.object p) mask := by
  unfold shuffleMask at h
  rw [bind_runs] at h
  obtain ⟨vector, c₁, h₁, h⟩ := h
  obtain ⟨q, hq, hvector, rfl⟩ := castVectorType_runs.mp h₁
  obtain rfl := Option.some.inj hq
  rw [bind_runs] at h
  obtain ⟨c₂, c₃, h₂, h⟩ := h
  obtain ⟨rfl, rfl⟩ := get_runs.mp h₂
  rw [bind_runs] at h
  obtain ⟨r, c₄, h₃, h⟩ := h
  obtain ⟨hr, rfl⟩ := deref_runs.mp h₃
  obtain rfl := Option.some.inj hr
  have hsize : vector.1 = size := by
    rw [ht, IRType.vector.injEq] at hvector
    exact hvector.1.symm
  simp only at h
  generalize c.object p = contents at h ⊢
  cases contents with
  | constantDataVector elements =>
    exact .inl ⟨elements, rfl, maskElements_runs h⟩
  | _ =>
    obtain ⟨rfl, -⟩ := pure_runs.mp h
    exact .inr ⟨nofun, by rw [hsize]⟩

/-- What is read of a mask depends on the values that were made only. -/
theorem Context.Reads.congr {size : Nat} {contents : Contents} {mask : List Int}
    (h : c.Reads size contents mask) (hobjects : c.objects = c'.objects) :
    c'.Reads size contents mask := by
  have hvalue : c'.constantValue = c.constantValue := by
    funext p
    rw [Context.constantValue, Context.constantValue, Context.object, Context.object, hobjects]
  rw [Context.Reads, hvalue]
  exact h

/-- A value that gets an id is not made anew. -/
theorem addValue_runs {value : ValuePtr} {type : Option TypePtr} {u : Unit}
    (h : addValue value type c = .ok (u, c')) : c'.objects = c.objects := by
  unfold addValue at h
  rw [bind_runs] at h
  obtain ⟨t, c₁, h₁, h⟩ := h
  obtain ⟨-, rfl⟩ := deref_runs.mp h₁
  rw [bind_runs] at h
  obtain ⟨c₂, c₃, h₂, h⟩ := h
  obtain ⟨rfl, rfl⟩ := get_runs.mp h₂
  by_cases hvoid : c.heap.lookup t ≠ .void
  · rw [if_pos hvoid] at h
    rw [← modify_runs.mp h]
  · rw [if_neg hvoid] at h
    rw [(pure_runs.mp h).2]

/-- An instruction that is added is the last value that was made. -/
theorem addInstruction_runs {type : Option TypePtr} {kind : InstructionKind} {operands : List Value}
    {b : Bool} (h : addInstruction type kind operands c = .ok (b, c')) :
    c'.objects = c.objects ++ [.instruction kind (operands.map some) []] := by
  unfold addInstruction at h
  rw [bind_runs] at h
  obtain ⟨inst, c₁, h₁, h⟩ := h
  have hobjects : c₁.objects = c.objects ++ [.instruction kind (operands.map some) []] := by
    rw [← (Prod.mk.inj (modifyGet_runs.mp h₁)).2]
  rw [bind_runs] at h
  obtain ⟨_, c₂, h₂, h⟩ := h
  have hobjects₂ : c₂.objects = c₁.objects := by
    rw [← modify_runs.mp h₂]
  rw [bind_runs] at h
  obtain ⟨c₃, c₄, h₃, h⟩ := h
  obtain ⟨rfl, rfl⟩ := get_runs.mp h₃
  cases hbb : c₂.currentBb with
  | none =>
    simp only [hbb] at h
    obtain ⟨-, rfl⟩ := pure_runs.mp h
    rw [hobjects₂, hobjects]
  | some bb =>
    simp only [hbb] at h
    rw [bind_runs] at h
    obtain ⟨_, c₅, h₄, h⟩ := h
    have hobjects₅ : c₅.objects = c₂.objects := by
      rw [← modify_runs.mp h₄]
      rfl
    rw [← hobjects, ← hobjects₂, ← hobjects₅]
    cases hkind : kind.isTerminator with
    | true =>
      simp only [hkind, ↓reduceIte, bind_runs] at h
      obtain ⟨_, c₆, h₅, h⟩ := h
      obtain ⟨-, rfl⟩ := pure_runs.mp h
      rw [← modify_runs.mp h₅]
      rfl
    | false =>
      simp only [hkind, Bool.false_eq_true, ↓reduceIte, bind_runs] at h
      obtain ⟨_, c₆, h₅, h⟩ := h
      obtain ⟨-, rfl⟩ := pure_runs.mp h
      exact addValue_runs h₅

/-- A type that is in use has the same contents after another one was made. -/
theorem makeType_lookup {t : TypePtr} {size : Nat} {e : TypePtr} (new : IRType)
    (ht : c.heap.lookup t = .vector size e) :
    (c.makeType new).2.heap.lookup t = .vector size e := by
  have hlt : t < c.heap.types.length := by
    by_contra hge
    rw [TypeHeap.lookup, List.getD_eq_default _ _ (Nat.not_lt.mp hge)] at ht
    exact absurd ht nofun
  rw [← ht]
  exact c.heap.lookup_get_of_lt new hlt

/-- The mask of a shuffle that was parsed is what its constructor reads of the mask operand. -/
theorem parseShuffleVec_runs {p : ValuePtr} {t : TypePtr} {size : Nat} {e : TypePtr} {u : Unit}
    (hmask : c.maskOperand ops = some (.object p t)) (ht : c.heap.lookup t = .vector size e)
    (h : parseShuffleVec ops c = .ok (u, c')) :
    ∃ c₁ c₂ mask operands, c₁.objects = c.objects ∧ c₁.heap.lookup t = .vector size e ∧
      shuffleMask (.object p t) c₁ = .ok (mask, c₂) ∧
      c'.objects = c₂.objects ++ [.instruction (.shuffleVector mask) operands []] := by
  unfold parseShuffleVec at h
  simp only [bind_runs] at h
  obtain ⟨a, c₁, h₁, b, c₂, h₂, shuf, c₃, h₃, first, c₄, h₄, second, c₅, h₅, mask, c₆, h₆, h⟩ := h
  replace h₁ := modifyGet_runs.mp h₁
  replace h₂ := modifyGet_runs.mp h₂
  replace h₃ := modifyGet_runs.mp h₃
  have hproxies : ProxiesOnly c c₃ := by
    have hfirst := ProxiesOnly.getValueAndType c ops 0
    have hsecond := ProxiesOnly.getNextValue c₁ ops a.index a.second
    have hthird := ProxiesOnly.getValueAndType c₂ ops b.2
    rw [h₁] at hfirst
    rw [h₂] at hsecond
    rw [h₃] at hthird
    exact (hfirst.trans hsecond).trans hthird
  obtain ⟨-, rfl⟩ := orFalse_runs.mp h₄
  obtain ⟨-, rfl⟩ := orFalse_runs.mp h₅
  obtain ⟨hshuf, rfl⟩ := orFalse_runs.mp h₆
  obtain rfl : Value.object p t = mask := by
    simp only [Context.maskOperand, h₁, h₂, h₃] at hmask
    exact Option.some.inj (hmask.symm.trans hshuf)
  obtain ⟨type, c₇, h₇, h⟩ := h
  obtain ⟨_, -, -, rfl⟩ := typeAt_runs.mp h₇
  cases type with
  | vector n element =>
    simp only [bind_runs] at h
    obtain ⟨_, _, hpure, vector, c₈, h₈, result, c₉, h₉, elements, c₁₀, h₁₀, made, c₁₁, h₁₁, h⟩ := h
    obtain ⟨rfl, rfl⟩ := pure_runs.mp hpure
    obtain ⟨_, -, -, rfl⟩ := castVectorType_runs.mp h₈
    obtain ⟨-, rfl⟩ := require_runs.mp h
    have hc₉ : (c₃.makeType (.vector vector.1 element)).2 = c₉ := by
      rw [modifyGet_runs.mp h₉]
    have ht₃ : c₃.heap.lookup t = .vector size e := by
      rw [hproxies.heap, ht]
    have hobjects : c₉.objects = c.objects := by
      rw [← hc₉, ← hproxies.objects]
      rfl
    refine ⟨c₉, c₁₀, elements, _, hobjects, ?_, h₁₀, addInstruction_runs h₁₁⟩
    rw [← hc₉]
    exact makeType_lookup _ ht₃
  | _ =>
    obtain ⟨_, _, hstop, -⟩ := bind_runs.mp h
    exact absurd (stop_runs.mp hstop) id

/-- The constructor of a shuffle reads the elements of a data vector when they are kept as an `int`,
and only zeros of an aggregate. -/
def Context.MaskIsRead (c : Context) (size : Nat) (contents : Contents) : Prop :=
  match contents with
  | .constantDataVector _ => ∀ i v, c.elementValue size contents i = some v → toInt32 v = v
  | .constantAggregate _ => ∀ i v, c.elementValue size contents i = some v → i < size ∧ v = 0
  | _ => True

/-- A mask agrees with the operand that it is read from, at every element that is defined, exactly
when the operand is one that is read. -/
theorem Context.Reads.agrees_iff {size : Nat} {contents : Contents} {mask : List Int}
    (h : c.Reads size contents mask) :
    (∀ i v, c.elementValue size contents i = some v → mask[i]? = some v) ↔
      c.MaskIsRead size contents := by
  obtain ⟨elements, rfl, hmask⟩ | ⟨hother, rfl⟩ := h
  · refine forall₂_congr fun i v => forall_congr' fun hv => ?_
    change elements[i]?.bind c.constantValue = some v at hv
    rw [hmask i, hv]
    exact Option.some_inj
  · cases contents with
    | constantDataVector elements => exact absurd rfl (hother elements)
    | constantAggregate elements =>
      refine forall₂_congr fun i v => forall_congr' fun hv => ?_
      rw [List.getElem?_replicate]
      by_cases hi : i < size
      · rw [if_pos hi, Option.some_inj]
        exact ⟨fun h0 => ⟨hi, h0.symm⟩, fun h0 => h0.2.symm⟩
      · rw [if_neg hi]
        exact iff_of_false nofun fun h0 => hi h0.1
    | constantAggregateZero =>
      refine iff_of_true (fun i v hv => ?_) trivial
      unfold Context.elementValue at hv
      rw [List.getElem?_replicate]
      exact hv
    | _ => exact iff_of_true nofun trivial

/-! ## The four forms of a mask -/

/-- A record adds a value with these contents to the value list. -/
def Context.Adds (c : Context) (entry : BlockOrRecord) (type : TypePtr)
    (post : Context → Contents → Prop) : Prop :=
  ∃ c' p, parseConstantsRecord entry c = .ok ((), c') ∧ c'.values = c.values ++ [(p, type)] ∧
    post c' (c'.object p)

/-- An element of an aggregate stands for the value with an id. -/
def Context.RefersTo (c : Context) (id : Nat) (element : Value) : Prop :=
  match element with
  | .object p type => c.values[id]? = some (p, type)
  | .proxy q _ => (c.proxies[q]?).map (·.id) = some id

/-- A constant that is pushed. -/
theorem pushConstant_adds (type : TypePtr) (contents : Contents) :
    ∃ c', pushConstant type contents c = .ok ((), c') ∧
      c'.values = c.values ++ [(c.objects.length, type)] ∧
      c'.objects = c.objects ++ [contents] ∧ c'.proxies = c.proxies :=
  ⟨_, rfl, rfl, rfl, rfl⟩

/-- More values and proxies do not change what an element stands for. -/
theorem Context.RefersTo.mono {id : Nat} {element : Value} (h : c.RefersTo id element)
    (hvalues : c.values <+: c'.values) (hproxies : c.proxies <+: c'.proxies) :
    c'.RefersTo id element := by
  obtain ⟨values, hvalues⟩ := hvalues
  obtain ⟨proxies, hproxies⟩ := hproxies
  cases element with
  | object p type =>
    rw [RefersTo, ← hvalues]
    exact (List.getElem?_append_left (List.getElem?_eq_some_iff.mp h).1).trans h
  | proxy q type =>
    obtain ⟨x, hx, hid⟩ := Option.map_eq_some_iff.mp h
    rw [RefersTo, ← hproxies, List.getElem?_append_left (List.getElem?_eq_some_iff.mp hx).1]
    exact h

/-- Looking up an element of an integer type. -/
theorem getAbsolute_refersTo {op w : Nat} {e : TypePtr} (he : c.heap.lookup e = .integer w)
    (htype : ∀ v, c.values[op]? = some v → v.2 = e) :
    (∃ element, (c.getAbsolute op (some e)).1 = some element ∧
        (c.getAbsolute op (some e)).2.RefersTo op element) ∧
      c.proxies <+: (c.getAbsolute op (some e)).2.proxies := by
  have hmatch : c.matchedType (some e) = some e := by
    simp only [Context.matchedType, Option.map_some, he]
  unfold Context.getAbsolute
  cases hv : c.values[op]? with
  | none =>
    refine ⟨⟨_, rfl, ?_⟩, List.prefix_append _ _⟩
    change ((c.proxies ++ [{ id := op }])[c.proxies.length]?).map ValueProxy.id = some op
    rw [List.getElem?_concat_length]
    rfl
  | some v =>
    obtain rfl := htype v hv
    simp only [hmatch, or_true, ↓reduceIte]
    exact ⟨⟨_, rfl, hv⟩, List.prefix_rfl⟩

/-- The elements of an aggregate with an integer type stand for the values with their ids. -/
theorem getElements_refersTo {w : Nat} {e : TypePtr} (ops : List Nat)
    (he : c.heap.lookup e = .integer w)
    (htypes : ∀ op ∈ ops, ∀ v, c.values[op]? = some v → v.2 = e) :
    let r := c.getElements (ops.map fun op => (op, some e))
    r.1.length = ops.length ∧ ProxiesOnly c r.2 ∧ c.proxies <+: r.2.proxies ∧
      ∀ i op : Nat, ops[i]? = some op → ∃ element, r.1[i]? = some (some element) ∧
        r.2.RefersTo op element := by
  induction ops generalizing c with
  | nil => exact ⟨rfl, .refl c, List.prefix_rfl, nofun⟩
  | cons op ops ih =>
    have hproxies : ProxiesOnly c (c.getAbsolute op (some e)).2 := .getAbsolute c op _
    obtain ⟨⟨element, hsome, hrefers⟩, hprefix⟩ :=
      getAbsolute_refersTo he (htypes op List.mem_cons_self)
    obtain ⟨hlen, honly, hprefix', hrest⟩ := ih (c := (c.getAbsolute op (some e)).2)
      (by rw [hproxies.heap, he]) (by
        rw [hproxies.values]
        exact fun op' hop' => htypes op' (List.mem_cons_of_mem _ hop'))
    refine ⟨congrArg (· + 1) hlen, hproxies.trans honly, hprefix.trans hprefix',
      fun i op' hop' => ?_⟩
    cases i with
    | zero =>
      obtain rfl : op = op' := Option.some.inj hop'
      refine ⟨element, congrArg some hsome, hrefers.mono ?_ hprefix'⟩
      rw [← honly.values]
      exact List.prefix_rfl
    | succ i => exact hrest i op' hop'

/-- The four forms of a mask with elements of type `e`, which are integers of `w` bits: a data
vector with the values of the record, an aggregate whose elements stand for the values with the ids
of the record, a zero and an undefined value. -/
def Context.MaskForms (c : Context) (type e : TypePtr) (w : Nat) : Prop :=
  (∀ ops, c.Adds (.record 22 ops) type fun c' contents =>
    ∃ elements, contents = .constantDataVector elements ∧
      ∀ i : Nat, elements[i]?.bind c'.constantValue = ops[i]?.map (getSExtValue w)) ∧
  (∀ ops, (∀ op ∈ ops, ∀ v, c.values[op]? = some v → v.2 = e) →
    c.Adds (.record 7 ops) type fun c' contents =>
      ∃ elements, contents = .constantAggregate elements ∧ elements.length = ops.length ∧
        ∀ i op : Nat, ops[i]? = some op → ∃ element, elements[i]? = some (some element) ∧
          c'.RefersTo op element) ∧
  (∀ ops, c.Adds (.record 2 ops) type fun _ contents => contents = .constantAggregateZero) ∧
  (∀ ops, c.Adds (.record 3 ops) type fun _ contents => contents = .undef)

/-- The value that was made last. -/
theorem object_of_concat {contents : Contents} {p : ValuePtr}
    (h : c'.objects = c.objects ++ [contents]) (hp : p = c.objects.length) :
    c'.object p = contents := by
  rw [Context.object, h, hp, List.getD_eq_getElem?_getD, List.getElem?_concat_length]
  rfl

/-- The type of the constants block, once it is set. -/
theorem getConstantType_runs {type : TypePtr} (h : c.constantType = some type) :
    (modifyGet Context.getConstantType : Parser TypePtr) c = .ok (type, c) := by
  rw [modifyGet_runs, Context.getConstantType, h]

section Forms

variable {type e : TypePtr} {size w : Nat} (htype : c.constantType = some type)
  (hvector : c.heap.lookup type = .vector size e)

include htype

theorem undef_adds (ops : List Nat) :
    c.Adds (.record 3 ops) type fun _ contents => contents = .undef := by
  obtain ⟨c', hrun, hvalues, hobjects, -⟩ := pushConstant_adds (c := c) type .undef
  refine ⟨c', _, ?_, hvalues, object_of_concat hobjects rfl⟩
  change parseUndef c = _
  unfold parseUndef
  rw [bind_runs]
  exact ⟨type, c, getConstantType_runs htype, hrun⟩

include hvector

theorem constNull_adds (ops : List Nat) :
    c.Adds (.record 2 ops) type fun _ contents => contents = .constantAggregateZero := by
  obtain ⟨c', hrun, hvalues, hobjects, -⟩ := pushConstant_adds (c := c) type .constantAggregateZero
  refine ⟨c', _, ?_, hvalues, object_of_concat hobjects rfl⟩
  change parseConstNull c = _
  unfold parseConstNull
  rw [bind_runs]
  refine ⟨type, c, getConstantType_runs htype, ?_⟩
  rw [bind_runs]
  refine ⟨c, c, rfl, ?_⟩
  simp only [hvector]
  exact hrun

variable (he : c.heap.lookup e = .integer w)

include he

theorem aggregate_adds (ops : List Nat)
    (htypes : ∀ op ∈ ops, ∀ v, c.values[op]? = some v → v.2 = e) :
    c.Adds (.record 7 ops) type fun c' contents =>
      ∃ elements, contents = .constantAggregate elements ∧ elements.length = ops.length ∧
        ∀ i op : Nat, ops[i]? = some op → ∃ element, elements[i]? = some (some element) ∧
          c'.RefersTo op element := by
  obtain ⟨hlen, honly, -, hrefers⟩ := getElements_refersTo ops he htypes
  generalize hr : c.getElements (ops.map fun op => (op, some e)) = r at hlen honly hrefers
  obtain ⟨c', hrun, hvalues, hobjects, hproxies⟩ :=
    pushConstant_adds (c := r.2) type (.constantAggregate r.1)
  rw [honly.values] at hvalues
  refine ⟨c', _, ?_, hvalues, r.1, object_of_concat hobjects rfl, hlen, fun i op hop => ?_⟩
  · change parseAggregate ops c = _
    unfold parseAggregate
    rw [bind_runs]
    refine ⟨type, c, getConstantType_runs htype, ?_⟩
    rw [bind_runs]
    refine ⟨c, c, rfl, ?_⟩
    simp only [hvector, bind_runs]
    exact ⟨r.1, r.2, modifyGet_runs.mpr hr, hrun⟩
  · obtain ⟨element, helement, hrefer⟩ := hrefers i op hop
    refine ⟨element, helement, hrefer.mono ?_ ?_⟩
    · rw [hvalues, honly.values]
      exact List.prefix_append _ _
    · exact hproxies ▸ List.prefix_rfl

theorem data_adds (ops : List Nat) :
    c.Adds (.record 22 ops) type fun c' contents =>
      ∃ elements, contents = .constantDataVector elements ∧
        ∀ i : Nat, elements[i]?.bind c'.constantValue = ops[i]?.map (getSExtValue w) := by
  generalize hr : c.constructAll (ops.map (Contents.constantInt w)) = r
  obtain ⟨hrange, hconstructed⟩ := Prod.mk.inj hr
  obtain ⟨c', hrun, hvalues, hobjects, -⟩ :=
    pushConstant_adds (c := r.2) type (.constantDataVector r.1)
  have hvalues' : c'.values = c.values ++ [(r.2.objects.length, type)] := by
    rw [hvalues, ← hconstructed]
  refine ⟨c', _, ?_, hvalues', r.1, object_of_concat hobjects rfl, fun i => ?_⟩
  · change parseData ops c = _
    unfold parseData
    rw [bind_runs]
    refine ⟨type, c, getConstantType_runs htype, ?_⟩
    rw [bind_runs]
    refine ⟨c, c, rfl, ?_⟩
    simp only [hvector, bind_runs]
    refine ⟨e, c, rfl, ?_⟩
    simp only [he, bind_runs]
    refine ⟨_, c, rfl, r.1, r.2, modifyGet_runs.mpr hr, hrun⟩
  · have hmade : c'.objects = c.objects ++ (ops.map (Contents.constantInt w) ++
        [.constantDataVector r.1]) := by
      rw [hobjects, ← hconstructed, List.append_assoc]
    rw [← hrange]
    by_cases hi : i < ops.length
    · have hvalue : c'.object (c.objects.length + i) = .constantInt w ops[i] := by
        rw [Context.object, hmade, List.getD_eq_getElem?_getD,
          List.getElem?_append_right (by omega),
          Nat.add_sub_cancel_left, List.getElem?_append_left (by rwa [List.length_map]),
          List.getElem?_map, List.getElem?_eq_getElem hi]
        rfl
      rw [List.length_map, List.getElem?_range' hi, List.getElem?_eq_getElem hi, one_mul,
        Option.bind_some, Context.constantValue, hvalue, Option.map_some]
    · rw [List.getElem?_eq_none (Nat.not_lt.mp hi), List.getElem?_eq_none (by simpa using hi)]
      rfl

theorem maskForms : c.MaskForms type e w :=
  ⟨data_adds htype hvector he, aggregate_adds htype hvector he, constNull_adds htype hvector,
    undef_adds htype⟩

end Forms

/-- A shuffle whose mask is a constant vector. The mask of the shuffle has the value of every
element that is defined exactly when the constructor reads the constant; and each form of a record
makes its constant. -/
theorem parseShuffleVec_maskValue_iff (c c' : Context) (ops : List Nat) (p : ValuePtr)
    (t e : TypePtr) (size : Nat) (hmask : c.maskOperand ops = some (.object p t))
    (ht : c.heap.lookup t = .vector size e) (h : parseShuffleVec ops c = .ok ((), c')) :
    (∃ mask operands, c'.objects.getLast? = some (.instruction (.shuffleVector mask) operands []) ∧
      ((∀ i v, c.elementValue size (c.object p) i = some v → mask[i]? = some v) ↔
        c.MaskIsRead size (c.object p))) ∧
    ∀ (c₀ : Context) (type e : TypePtr) (size w : Nat), c₀.constantType = some type →
      c₀.heap.lookup type = .vector size e → c₀.heap.lookup e = .integer w →
      c₀.MaskForms type e w := by
  refine ⟨?_, fun c₀ type e size w => maskForms⟩
  obtain ⟨c₁, c₂, mask, operands, hobjects, ht₁, hshuffle, hobjects'⟩ :=
    parseShuffleVec_runs hmask ht h
  have hobject : c₁.object p = c.object p := by
    rw [Context.object, hobjects, Context.object]
  have hreads : c.Reads size (c.object p) mask := by
    rw [← hobject]
    exact (shuffleMask_runs ht₁ hshuffle).congr hobjects
  refine ⟨mask, operands, ?_, hreads.agrees_iff⟩
  rw [hobjects', List.getLast?_concat]

/-- The constants 1 and undefined and a zero vector of two integers, and then a mask of two
integers. -/
def shuffleContext (id : Nat) (mask : List Nat) : Context :=
  match parseConstantsRecord (.record id mask)
      { heap := ⟨[.integer 32, .vector 2 0]⟩, types := [0, 1], constantType := some 1
        objects := [.constantInt 32 1, .undef, .constantAggregateZero]
        values := [(0, 0), (1, 0), (2, 1)]
        blocks := [{}], basicBlocks := [0], currentBb := some 0 } with
  | .ok r => r.2
  | .error _ => {}

/-- A shuffle of the zero vector with the mask. -/
def afterShuffle (id : Nat) (mask : List Nat) : Context :=
  match parseShuffleVec [2, 2, 1] (shuffleContext id mask) with
  | .ok r => r.2
  | .error _ => {}

/-- A shuffle that is parsed leaves this context. -/
theorem afterShuffle_runs {id : Nat} {mask : List Nat}
    (h : (parseShuffleVec [2, 2, 1] (shuffleContext id mask)).isOk = true) :
    parseShuffleVec [2, 2, 1] (shuffleContext id mask) = .ok ((), afterShuffle id mask) := by
  unfold afterShuffle
  cases hrun : parseShuffleVec [2, 2, 1] (shuffleContext id mask) with
  | error e => rw [hrun] at h; exact absurd h nofun
  | ok r => rfl

/-- The mask of a value that is a shuffle. -/
def Contents.mask : Contents → List Int
  | .instruction (.shuffleVector mask) .. => mask
  | _ => []

/-- A mask without undefined elements is read. -/
theorem data_maskValue : ∃ mask operands,
    (afterShuffle 22 [1, 0]).objects.getLast? =
        some (.instruction (.shuffleVector mask) operands []) ∧
      mask[0]? = some 1 ∧ mask[1]? = some 0 := by
  have hobject : (shuffleContext 22 [1, 0]).object 5 = .constantDataVector [3, 4] := rfl
  have hone : (shuffleContext 22 [1, 0]).constantValue 3 = some 1 := by decide +kernel
  have hzero : (shuffleContext 22 [1, 0]).constantValue 4 = some 0 := by decide +kernel
  obtain ⟨⟨mask, operands, hlast, hiff⟩, -⟩ := parseShuffleVec_maskValue_iff
    (shuffleContext 22 [1, 0])
    (afterShuffle 22 [1, 0]) [2, 2, 1] 5 1 0 2 (by decide +kernel) (by decide +kernel)
    (afterShuffle_runs (by decide +kernel))
  rw [hobject] at hiff
  have hread := hiff.mpr fun i v hv => by
    match i, hv with
    | 0, hv =>
      obtain rfl := Option.some.inj (hone.symm.trans hv)
      decide
    | 1, hv =>
      obtain rfl := Option.some.inj (hzero.symm.trans hv)
      decide
  exact ⟨mask, operands, hlast, hread 0 1 hone, hread 1 0 hzero⟩

/-- A mask with an undefined element is taken for zeros. -/
theorem aggregate_not_maskValue :
    ¬ ∀ (c c' : Context) (ops : List Nat) (p : ValuePtr) (t e : TypePtr) (size : Nat),
      c.maskOperand ops = some (.object p t) → c.heap.lookup t = .vector size e →
      parseShuffleVec ops c = .ok ((), c') →
      ∃ mask operands, c'.objects.getLast? = some (.instruction (.shuffleVector mask) operands []) ∧
        ∀ i v, c.elementValue size (c.object p) i = some v → mask[i]? = some v := by
  intro h
  obtain ⟨mask, operands, hlast, hread⟩ := h (shuffleContext 7 [0, 1]) (afterShuffle 7 [0, 1])
    [2, 2, 1] 3 1 0 2 (by decide +kernel) (by decide +kernel)
      (afterShuffle_runs (by decide +kernel))
  have hmask : ((afterShuffle 7 [0, 1]).objects.getLast?.map Contents.mask) = some [0, 0] := by
    decide +kernel
  rw [hlast] at hmask
  obtain rfl : mask = [0, 0] := Option.some.inj hmask
  exact absurd (hread 0 1 (by decide +kernel)) (by decide)

end DxilSpirv.Bitcode
