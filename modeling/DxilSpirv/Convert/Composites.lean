import DxilSpirv.Convert.AccessMask
import Mathlib.Data.Fintype.Powerset
import Mathlib.Tactic.IntervalCases

/-!
# The types of composites that flow through PHIs

What emits a composite chooses a type by the components that are accessed: a scalar, a vector or the
struct. A PHI chooses a vector or the struct. The choices are the same only in some functions.
-/

namespace DxilSpirv.Composites

/-- What a composite is emitted as. -/
inductive Form
  /-- One of the components. -/
  | scalar (component : Nat)
  /-- A vector of the first components. -/
  | vector (count : Nat)
  /-- What `get_type_id` makes of the type. -/
  | whole
  /-- A struct with a name of its own. -/
  | named
  deriving DecidableEq

/-- A type of the module. -/
inductive SpvType
  | member (type : Member)
  | struct (named : Bool) (members : List Member)
  deriving DecidableEq

/-- The members of a type. -/
def CompositeType.member? : CompositeType → Nat → Option Member
  | struct _ members, j => members[j]?
  | vector type count, j => if j < count then some (.scalar type) else none

/-- The type of a form. -/
def Form.type (type : CompositeType) : Form → Option SpvType
  | scalar j => (type.member? j).map .member
  | vector n =>
    match type.member? 0 with
    | some (.scalar t) => some (.member (.vector t n))
    | _ => none
  | whole =>
    match type with
    | .struct _ members => some (.struct false members)
    | .vector t n => some (.member (.vector t n))
  | named =>
    match type with
    | .struct _ members => some (.struct true members)
    | .vector _ _ => none

/-- A mask with its bits shifted down. -/
def shiftDown (mask : Finset Nat) (n : Nat) : Finset Nat := (mask.filter (n ≤ ·)).image (· - n)

/-- `smeared_access_mask`. -/
def smearedAccessMask (mask : Finset Nat) : Finset Nat :=
  let mask := mask.filter (· < 4)
  let mask := mask ∪ shiftDown mask 1
  let mask := mask ∪ shiftDown mask 2
  if mask = ∅ then {0} else mask

/-- `access_mask_to_vecsize`. -/
def accessMaskToVecsize (mask : Finset Nat) : Nat :=
  if Finset.range 4 ⊆ mask then 4
  else if Finset.range 3 ⊆ mask then 3
  else if Finset.range 2 ⊆ mask then 2
  else 1

/-- A vector, or a scalar for a vector of one. -/
def vectorForm (n : Nat) : Form := if n = 1 then .scalar 0 else .vector n

/-- What `emit_get_dimensions_instruction` emits. -/
def dimensionsForm (buffer : Bool) (coords : Nat) (levels : Bool) (mask : Finset Nat) :
    Option Form :=
  let dimensions := buffer || decide (0 ∈ mask ∨ 1 ∈ mask ∨ 2 ∈ mask)
  let levelsOrSamples := !buffer && levels && decide (3 ∈ mask)
  if mask = ∅ then none
  else if dimensions && !levelsOrSamples then some (if buffer then .scalar 0 else vectorForm coords)
  else if dimensions then some (.vector 4)
  else if levelsOrSamples then some (.scalar 3)
  else none

/-- What emits a composite chooses a form by the components that are accessed; a load that is not
accessed is left out. -/
def Source.form (mask : Finset Nat) : Source → Option Form
  | phi _ _ => none
  | sampled compare =>
    if mask = ∅ ∧ compare = false then none else some (if 4 ∈ mask then .whole else .vector 4)
  | rawBuffer memory =>
    if mask = ∅ then none
    else if 4 ∈ mask then (if memory then none else some .whole)
    else some (vectorForm (accessMaskToVecsize (smearedAccessMask mask)))
  | vectorLoad memory =>
    if mask = ∅ then none
    else if 1 ∈ mask then (if memory then none else some .whole)
    else some (.scalar 0)
  | dimensions buffer coords levels => dimensionsForm buffer coords levels mask
  | wideMultiply => some (if mask = {1} then .scalar 1 else .vector 2)
  | vector count => some (.vector count)
  | named => some .named
  | other => some .whole

/-- The status of a load from memory is accessed, so that the conversion fails. -/
def Source.refuses (mask : Finset Nat) : Source → Bool
  | rawBuffer memory => memory && decide (4 ∈ mask)
  | vectorLoad memory => memory && decide (1 ∈ mask)
  | _ => false

/-- The composite was emitted as a scalar that an extractvalue forwards: `components` is one and
`forced_composite` is false. -/
def Source.forwards (mask : Finset Nat) (components : Nat) : Source → Bool
  | rawBuffer _ => components == 1
  | vectorLoad _ => components == 1
  | dimensions buffer coords levels =>
    match dimensionsForm buffer coords levels mask with
    | some (.scalar 0) => components == 1
    | some (.scalar _) => true
    | _ => false
  | wideMultiply => decide (mask = {1})
  | _ => false

variable (F : Function) (s : Analysis)

/-- The values of a PHI that are left. -/
def Function.kept (v : Nat) : List Nat :=
  match F.source v with
  | .phi _ kept => kept
  | _ => []

/-- What a value is after PHIs with one value are replaced by that value. -/
def Function.root : Nat → Nat → Option Nat
  | 0, _ => none
  | fuel + 1, v =>
    match F.kept v with
    | [w] => Function.root fuel w
    | _ => some v

/-- The form that `emit_phi_instruction` gives a PHI. -/
def phiForm (v : Nat) : Form :=
  if s.accessMask v ≠ ∅ ∧ s.components v ≤ 4 ∧ (∀ i ∈ s.accessMask v, i < 4) ∧
      F.type v ∈ s.fakeStructTypes then vectorForm (s.components v)
  else .whole

/-- The form of a value. -/
def valueForm (v : Nat) : Option Form :=
  (F.root F.size v).bind fun r =>
    match F.source r with
    | .phi _ _ => some (phiForm F s r)
    | source => source.form (s.accessMask r)

/-- The type of a value. -/
def valueType (v : Nat) : Option SpvType := (valueForm F s v).bind (Form.type (F.type v))

/-- What `emit_extract_value_instruction` emits for an index is the component. -/
def addresses (v index : Nat) : Bool :=
  match valueForm F s v with
  | none => false
  | some form =>
    if (F.source v).forwards (s.accessMask v) (s.components v) then form == .scalar index
    else match form with
      | .scalar _ => false
      | .vector n => decide (index < n)
      | .whole => decide (index < (F.type v).count)
      | .named => decide (index < (F.type v).count)

/-- The type of what emits a composite. -/
def Source.HasType : Source → CompositeType → Prop
  | sampled _, type => ∃ name t s,
      type = .struct name [.scalar t, .scalar t, .scalar t, .scalar t, .scalar s]
  | rawBuffer _, type => ∃ name t s,
      type = .struct name [.scalar t, .scalar t, .scalar t, .scalar t, .scalar s]
  | vectorLoad _, type => ∃ name t n s, type = .struct name [.vector t n, .scalar s]
  | dimensions _ _ _, type => ∃ name t,
      type = .struct name [.scalar t, .scalar t, .scalar t, .scalar t]
  | wideMultiply, type => ∃ name t, type = .struct name [.scalar t, .scalar t]
  | vector count, type => ∃ name t rest, type = .struct name (.scalar t :: rest) ∧
      rest.length + 1 = count ∧ 2 ≤ count
  | named, type => ∃ name members, type = .struct name members
  | _, _ => True

/-- A function that LLVM accepts: PHIs have the types of their values, and instructions their
types. -/
structure Function.WellFormed : Prop extends F.WellTyped where
  kept : ∀ v < F.size, ∀ w ∈ F.kept v, w ∈ F.incoming v
  source : ∀ v < F.size, (F.source v).HasType (F.type v)
  dxOp : ∀ name members, .dxOp (.struct name members) ∈ F.events → 4 ≤ members.length →
    ∃ t rest, members = .scalar t :: rest

/-- The conversion fails since the status of a load from memory is accessed. -/
def Refused (s : Analysis) : Prop := ∃ v < F.size, (F.source v).refuses (s.accessMask v) = true

/-- A PHI with several values and these have one type, and each extractvalue reads the component
that it names. -/
structure TypesAgree (s : Analysis) : Prop where
  phi : ∀ p < F.size, 2 ≤ (F.kept p).length → ∀ w ∈ F.kept p,
    ∃ type, valueType F s w = some type ∧ valueType F s p = some type
  extractValue : ∀ v index, .extractValue v index ∈ F.events → addresses F s v index = true

/-- The analysis ends, what is accessed of a PHI is accessed of its values, and all types agree. -/
def CompositesSound : Prop :=
  ∀ fuel, F.size * F.width < fuel → ∃ s, analyze F fuel = some s ∧
    (∀ p < F.size, ∀ w ∈ F.incoming p, s.accessMask p ⊆ s.accessMask w) ∧
    (Refused F s ∨ TypesAgree F s)

open Classical in
/-- The components of a value that some extractvalue wants. -/
noncomputable def demanded (u : Nat) : Finset Nat := (Finset.range F.width).filter (Demanded F u)

/-- Some of the first four components of a value are wanted, no others, and DXIL operations return
the type of the value. -/
def Narrow (v : Nat) : Prop :=
  demanded F v ≠ ∅ ∧ (∀ i ∈ demanded F v, i < 4) ∧ F.type v ∈ fakeStructTypesOf F.events

/-- The value `r` of a PHI has the type of the PHI. -/
def FitsPhi (p r : Nat) : Prop :=
  match F.source r with
  | .phi _ _ => (Narrow F r ↔ Narrow F p) ∧
      (Narrow F p → highest (demanded F r) = highest (demanded F p))
  | .sampled _ =>
    (Narrow F p ∧ 4 ∉ demanded F r ∧ highest (demanded F p) = 4) ∨ (¬ Narrow F p ∧ 4 ∈ demanded F r)
  | .rawBuffer _ =>
    (Narrow F p ∧ 4 ∉ demanded F r ∧ highest (demanded F p) = highest (demanded F r)) ∨
      (¬ Narrow F p ∧ 4 ∈ demanded F r)
  | .vectorLoad _ => ¬ Narrow F p ∧ 1 ∈ demanded F r
  | .dimensions buffer coords levels => Narrow F p ∧
      dimensionsForm buffer coords levels (demanded F r) =
        some (vectorForm (highest (demanded F p)))
  | .wideMultiply => False
  | .vector count => Narrow F p ∧ highest (demanded F p) = count
  | .named => False
  | .other => ¬ Narrow F p

/-- A PHI is no scalar, and one that is replaced by its value is replaced by a vector or a struct;
what is read of dimensions is there. -/
def FitsExtractValue (v index : Nat) : Prop :=
  match F.source v with
  | .phi _ _ => ∃ r, F.root F.size v = some r ∧
      match F.source r with
      | .phi _ _ => ¬ (Narrow F r ∧ highest (demanded F r) = 1) ∧
          (Narrow F r → index < highest (demanded F r))
      | source => ∃ form, source.form (demanded F r) = some form ∧
          ((∃ n, form = .vector n ∧ index < n) ∨ form = .whole ∨ form = .named)
  | .dimensions buffer coords levels =>
    match dimensionsForm buffer coords levels (demanded F v) with
    | some (.scalar 0) => demanded F v = {0}
    | some (.vector n) => index < n
    | form => form ≠ none
  | _ => True

/-- The status of a load from memory is wanted, or all values fit their PHIs and can be read. -/
def Fits : Prop :=
  (∃ v < F.size, (F.source v).refuses (demanded F v) = true) ∨
    ((∀ p < F.size, 2 ≤ (F.kept p).length → ∀ w ∈ F.kept p, ∃ r,
      F.root F.size w = some r ∧ FitsPhi F p r) ∧
      ∀ v index, .extractValue v index ∈ F.events → FitsExtractValue F v index)

variable {F s} {u v j : Nat}

/-- A fake struct type comes from a DXIL operation, and has four members or more. -/
theorem mem_fakeStructTypesOf {events : List Event} {type : CompositeType}
    (h : type ∈ fakeStructTypesOf events) : ∃ name members,
      type = .struct name members ∧ 4 ≤ members.length ∧ .dxOp (.struct name members) ∈ events := by
  induction events using List.reverseRecOn with
  | nil => cases h
  | append_singleton events event ih =>
    have hold : type ∈ fakeStructTypesOf events → ∃ name members, type = .struct name members ∧
        4 ≤ members.length ∧ .dxOp (.struct name members) ∈ events ++ [event] := fun h => by
      obtain ⟨name, members, htype, hlength, hmem⟩ := ih h
      exact ⟨name, members, htype, hlength, List.mem_append_left _ hmem⟩
    rw [fakeStructTypesOf_concat] at h
    unfold addFakeStructType at h
    split at h
    · rename_i name members
      split at h
      · rename_i hnew
        rcases List.mem_append.mp h with h | h
        · exact hold h
        · exact ⟨name, members, List.mem_singleton.mp h, hnew.1, by simp⟩
      · exact hold h
    · exact hold h

/-- What is wanted of a value are components of its type. -/
theorem Demanded.lt_count (hF : F.WellTyped) (hu : Demanded F u j) : j < (F.type u).count := by
  obtain ⟨before, v, index, after, hevents, hflow, hj⟩ := hu
  have hmem : .extractValue v index ∈ F.events := by rw [hevents]; simp
  have htype : F.type u = F.type v ∧ u < F.size := by
    have hv := hF.aggregate_lt v index hmem
    clear hevents hj hmem
    induction hflow using Relation.ReflTransGen.head_induction_on with
    | refl => exact ⟨rfl, hv⟩
    | head hedge _ ih =>
      exact ⟨(hF.incoming_type _ ih.2 _ hedge).trans ih.1, hF.incoming_lt _ ih.2 _ hedge⟩
  rw [htype.1]
  rcases hj with rfl | ⟨hsplat, hj⟩
  · exact hF.index_lt v j hmem
  · simp only [Function.splats, Bool.and_eq_true, decide_eq_true_eq] at hsplat
    obtain ⟨name, members, htype, hlength, -⟩ := mem_fakeStructTypesOf hsplat.2
    rw [htype]
    exact hj.trans_le hlength

/-- A demanded component is within the width. -/
theorem Demanded.lt_width (hu : Demanded F u j) : j < F.width := by
  obtain ⟨before, v, index, after, hevents, -, rfl | ⟨-, hj⟩⟩ := hu
  · exact width_spec.2 v j (by rw [hevents]; simp)
  · exact hj.trans_le width_spec.1

/-- The mask of a value has the demanded components. -/
theorem mem_demanded : j ∈ demanded F u ↔ Demanded F u j := by
  simp only [demanded, Finset.mem_filter, Finset.mem_range]
  exact ⟨And.right, fun h => ⟨h.lt_width, h⟩⟩

/-- An extractvalue wants the component that it reads. -/
theorem mem_demanded_self (h : .extractValue v j ∈ F.events) : j ∈ demanded F v := by
  obtain ⟨before, after, hevents⟩ := List.append_of_mem h
  exact mem_demanded.mpr ⟨before, v, j, after, hevents, .refl, Or.inl rfl⟩

/-- What is wanted of a PHI is wanted of its values. -/
theorem demanded_subset {w : Nat} (hw : w ∈ F.incoming v) : demanded F v ⊆ demanded F w := by
  intro j hj
  obtain ⟨before, u, index, after, hevents, hflow, hj⟩ := mem_demanded.mp hj
  exact mem_demanded.mpr ⟨before, u, index, after, hevents, hflow.head hw, hj⟩

/-- After the analysis a value is marked with what is demanded of it. -/
theorem Analysed.accessMask_eq (hs : Analysed F F.events s) (u : Nat) :
    s.accessMask u = demanded F u := by
  ext j
  rw [hs.mask u j, mem_demanded]
  rfl

/-- After the analysis a value has as many components as the last demanded one asks for. -/
theorem Analysed.components_eq (hs : Analysed F F.events s) (u : Nat) :
    s.components u = highest (demanded F u) := by
  rw [hs.components, hs.accessMask_eq]

/-- A component of a mask is below its highest. -/
theorem lt_highest {mask : Finset Nat} (h : j ∈ mask) : j < highest mask := by
  have : j + 1 ≤ mask.sup (· + 1) := Finset.le_sup (f := (· + 1)) h
  exact this

/-- A mask of components below `n` needs at most `n`. -/
theorem highest_le {mask : Finset Nat} {n : Nat} (h : ∀ i ∈ mask, i < n) : highest mask ≤ n :=
  Finset.sup_le fun i hi => h i hi

/-- One component is needed exactly when it is the first alone. -/
theorem highest_eq_one {mask : Finset Nat} : highest mask = 1 ↔ mask = {0} := by
  constructor
  · intro h
    have hzero : ∀ i ∈ mask, i = 0 := fun i hi => by
      have := lt_highest hi
      omega
    have hne : mask.Nonempty := by
      rw [Finset.nonempty_iff_ne_empty]
      rintro rfl
      simp [highest] at h
    obtain ⟨i, hi⟩ := hne
    ext k
    rw [Finset.mem_singleton]
    exact ⟨hzero k, fun hk => hk ▸ hzero i hi ▸ hi⟩
  · rintro rfl
    rfl

/-- The size of the vector that is loaded reaches to the highest component that is accessed. -/
theorem vecsize_eq {mask : Finset Nat} (hne : mask ≠ ∅) (hlt : ∀ i ∈ mask, i < 4) :
    accessMaskToVecsize (smearedAccessMask mask) = highest mask := by
  have hall : ∀ m ∈ (Finset.range 4).powerset, m ≠ ∅ →
      accessMaskToVecsize (smearedAccessMask m) = highest m := by decide
  exact hall mask (Finset.mem_powerset.mpr fun i hi => Finset.mem_range.mpr (hlt i hi)) hne

/-- The form of a PHI by what is wanted of it. -/
theorem Analysed.phiForm_eq [Decidable (Narrow F v)] (hs : Analysed F F.events s) :
    phiForm F s v = if Narrow F v then vectorForm (highest (demanded F v)) else .whole := by
  unfold phiForm
  rw [hs.accessMask_eq, hs.components_eq, hs.fake]
  refine if_congr ⟨?_, ?_⟩ rfl rfl
  · rintro ⟨hne, -, hlt, hfake⟩
    exact ⟨hne, hlt, hfake⟩
  · rintro ⟨hne, hlt, hfake⟩
    exact ⟨hne, highest_le hlt, hlt, hfake⟩

variable {w r fuel : Nat}

/-- A value has the type of what it is replaced by, and what is wanted of it is wanted of that. -/
theorem root_spec (hF : F.WellFormed) (hv : v < F.size) (h : F.root fuel v = some r) :
    r < F.size ∧ F.type r = F.type v ∧ demanded F v ⊆ demanded F r ∧ ∀ x, F.kept r ≠ [x] := by
  induction fuel generalizing v with
  | zero => cases h
  | succ fuel ih =>
    unfold Function.root at h
    split at h
    · rename_i x hkept
      have hx := hF.kept v hv x (by rw [hkept]; exact List.mem_singleton.mpr rfl)
      obtain ⟨hr, htype, hsub, hroot⟩ := ih (hF.incoming_lt v hv x hx) h
      exact ⟨hr, htype.trans (hF.incoming_type v hv x hx), (demanded_subset hx).trans hsub, hroot⟩
    · rename_i hnot
      obtain rfl := Option.some.inj h
      exact ⟨hv, rfl, Finset.Subset.refl _, hnot⟩

/-- A value that is no PHI of one kept value is its own root. -/
theorem root_self (hfuel : 0 < fuel) (h : ∀ x, F.kept v ≠ [x]) : F.root fuel v = some v := by
  obtain ⟨n, rfl⟩ := Nat.exists_eq_succ_of_ne_zero hfuel.ne'
  unfold Function.root
  split
  · rename_i hkept
    exact absurd hkept (h _)
  · rfl

/-- Only a PHI keeps incoming values. -/
theorem kept_of_not_phi (h : ∀ incoming kept, F.source v ≠ .phi incoming kept) : F.kept v = [] := by
  unfold Function.kept
  split
  · rename_i hsource
    exact absurd hsource (h _ _)
  · rfl

variable {name t : Nat} {rest members : List Member} {n m : Nat} {type : CompositeType}

/-- The type of a vector, or of a scalar. -/
def vectorType (t n : Nat) : Member := if n = 1 then .scalar t else .vector t n

/-- Vector types are equal exactly when their sizes are. -/
theorem vectorType_inj : vectorType t n = vectorType t m ↔ n = m := by
  unfold vectorType
  by_cases hn : n = 1
  · by_cases hm : m = 1
    · simp [hn, hm]
    · simp [hn, hm, Ne.symm hm]
  · by_cases hm : m = 1
    · simp [hm, hn]
    · simp [hn, hm]

/-- The first member of a loaded vector is a vector of the demanded size. -/
theorem type_vectorForm : (vectorForm n).type (.struct name (.scalar t :: rest)) =
    some (.member (vectorType t n)) := by
  unfold vectorForm vectorType
  split <;> rfl

theorem type_whole : Form.whole.type (.struct name members) = some (.struct false members) := rfl

theorem type_named : Form.named.type (.struct name members) = some (.struct true members) := rfl

/-- The struct itself always has a type. -/
theorem exists_type_whole : ∃ spvType, Form.whole.type type = some spvType := by
  cases type with
  | struct name members => exact ⟨_, rfl⟩
  | vector t n => exact ⟨_, rfl⟩

/-- The form of dimensions. -/
theorem dimensionsForm_cases {buffer levels : Bool} {coords : Nat} {mask : Finset Nat} {form : Form}
    (h : dimensionsForm buffer coords levels mask = some form) :
    (∃ n, form = vectorForm n) ∨ (form = .scalar 3 ∧ 0 ∉ mask ∧ 1 ∉ mask ∧ 2 ∉ mask) := by
  unfold dimensionsForm at h
  simp only at h
  split at h
  · cases h
  split at h
  · obtain rfl := Option.some.inj h
    refine Or.inl ?_
    split
    · exact ⟨1, rfl⟩
    · exact ⟨coords, rfl⟩
  split at h
  · obtain rfl := Option.some.inj h
    exact Or.inl ⟨4, rfl⟩
  split at h
  · rename_i hdimensions _
    obtain rfl := Option.some.inj h
    simp only [Bool.or_eq_true, decide_eq_true_eq, not_or] at hdimensions
    exact Or.inr ⟨rfl, hdimensions.2⟩
  · cases h

variable {p : Nat}

/-- The form of what a value is replaced by. -/
def rootForm (F : Function) (s : Analysis) (r : Nat) : Option Form :=
  match F.source r with
  | .phi _ _ => some (phiForm F s r)
  | source => source.form (s.accessMask r)

/-- A value has the form of its root. -/
theorem valueForm_eq {v : Nat} (h : F.root F.size v = some r) :
    valueForm F s v = rootForm F s r := by
  rw [valueForm, h]
  rfl

/-- The type of a PHI that is narrow. -/
theorem Narrow.type_eq (hF : F.WellFormed) {v : Nat} (h : Narrow F v) :
    ∃ name t rest, F.type v = .struct name (.scalar t :: rest) ∧ 3 ≤ rest.length := by
  obtain ⟨name, members, htype, hlength, hmem⟩ := mem_fakeStructTypesOf h.2.2
  obtain ⟨t, rest, rfl⟩ := hF.dxOp name members hmem hlength
  exact ⟨name, t, rest, htype, by simpa using hlength⟩

/-- A mask that needs one component has the first. -/
theorem mem_zero_of_highest {mask : Finset Nat} (h : highest mask = 1) : 0 ∈ mask := by
  rw [highest_eq_one.mp h]
  exact Finset.mem_singleton_self 0

/-- A narrow PHI has the type of a value exactly when the value is the same vector. -/
theorem exists_type_narrow {name t : Nat} {rest : List Member} {form : Option Form} {n : Nat} :
    (∃ spvType, form.bind (Form.type (.struct name (.scalar t :: rest))) = some spvType ∧
      (vectorForm n).type (.struct name (.scalar t :: rest)) = some spvType) ↔
    ∃ f, form = some f ∧ f.type (.struct name (.scalar t :: rest)) =
      some (.member (vectorType t n)) := by
  rw [type_vectorForm]
  constructor
  · rintro ⟨spvType, hform, htype⟩
    obtain ⟨f, hf, hvalue⟩ := Option.bind_eq_some_iff.mp hform
    exact ⟨f, hf, hvalue.trans htype.symm⟩
  · rintro ⟨f, rfl, hf⟩
    exact ⟨_, hf, rfl⟩

/-- Any other PHI has the type of a value exactly when the value has the type of the struct. -/
theorem exists_type_whole_iff {type : CompositeType} {form : Option Form} :
    (∃ spvType, form.bind (Form.type type) = some spvType ∧ Form.whole.type type = some spvType) ↔
    ∃ f, form = some f ∧ f.type type = Form.whole.type type := by
  constructor
  · rintro ⟨spvType, hform, htype⟩
    obtain ⟨f, hf, hvalue⟩ := Option.bind_eq_some_iff.mp hform
    exact ⟨f, hf, hvalue.trans htype.symm⟩
  · rintro ⟨f, rfl, hf⟩
    obtain ⟨spvType, hwhole⟩ := @exists_type_whole type
    exact ⟨spvType, hf.trans hwhole, hwhole⟩

/-- The values of a narrow PHI that have its type. -/
theorem fitsPhi_narrow (hF : F.WellFormed) (hs : Analysed F F.events s) (hp : Narrow F p)
    (hr : r < F.size) (htype : F.type r = F.type p) (hsub : demanded F p ⊆ demanded F r) :
    (∃ spvType, (rootForm F s r).bind (Form.type (F.type p)) = some spvType ∧
      (phiForm F s p).type (F.type p) = some spvType) ↔ FitsPhi F p r := by
  classical
  obtain ⟨name, t, rest, hpType, hlength⟩ := hp.type_eq hF
  have hsource := hF.source r hr
  have hne : demanded F r ≠ ∅ := fun h => hp.1 (Finset.subset_empty.mp (h ▸ hsub))
  rw [hs.phiForm_eq, if_pos hp, hpType, exists_type_narrow]
  rw [htype, hpType] at hsource
  unfold rootForm FitsPhi
  cases hcase : F.source r with
  | phi incoming kept =>
    simp only [Option.some.injEq, exists_eq_left', hs.phiForm_eq]
    by_cases hrNarrow : Narrow F r
    · simp only [hrNarrow, hp, if_true, type_vectorForm, Option.some.injEq, SpvType.member.injEq,
        vectorType_inj, iff_self, true_and, true_imp_iff]
    · simp [hrNarrow, hp, type_whole]
  | sampled compare =>
    simp only [Source.form, hs.accessMask_eq, hne, false_and, if_false, Option.some.injEq,
      exists_eq_left']
    by_cases hfour : 4 ∈ demanded F r
    · simp [hfour, hp, type_whole]
    · simp only [hfour, if_false, hp, true_and, not_true_eq_false, false_and, or_false,
        not_false_iff]
      rw [show Form.vector 4 = vectorForm 4 from rfl, type_vectorForm]
      simp only [Option.some.injEq, SpvType.member.injEq, vectorType_inj]
      exact eq_comm
  | rawBuffer memory =>
    simp only [Source.form, hs.accessMask_eq, hne, if_false]
    by_cases hfour : 4 ∈ demanded F r
    · simp only [hfour, hp, not_true_eq_false, if_true, and_false, false_and, or_false, iff_false]
      rintro ⟨f, hf, hfType⟩
      split at hf
      · cases hf
      · obtain rfl := Option.some.inj hf
        cases hfType
    · have hlt : ∀ i ∈ demanded F r, i < 4 := fun i hi => by
        have hcount := (mem_demanded.mp hi).lt_count hF.toWellTyped
        rw [hcase] at hsource
        obtain ⟨name', t', s', hstruct⟩ := hsource
        rw [htype, hpType, hstruct] at hcount
        have hcount : i < 5 := hcount
        have : i ≠ 4 := fun h => hfour (h ▸ hi)
        omega
      simp only [hfour, if_false, hp, true_and, not_true_eq_false, false_and, or_false,
        not_false_iff,
        vecsize_eq hne hlt, Option.some.injEq, exists_eq_left', type_vectorForm,
          SpvType.member.injEq,
        vectorType_inj]
      exact eq_comm
  | vectorLoad memory =>
    rw [hcase] at hsource
    obtain ⟨name', t', n', s', hstruct⟩ := hsource
    have := congrArg CompositeType.count hstruct
    simp only [CompositeType.count, List.length_cons, List.length_nil] at this
    omega
  | dimensions buffer coords levels =>
    rw [hcase] at hsource
    simp only [hp, true_and, Source.form, hs.accessMask_eq]
    obtain ⟨name', t', hstruct⟩ := hsource
    constructor
    · rintro ⟨f, hf, hfType⟩
      rcases dimensionsForm_cases hf with ⟨m, rfl⟩ | ⟨rfl, hzero, -, -⟩
      · rw [type_vectorForm] at hfType
        rw [hf, vectorType_inj.mp (SpvType.member.inj (Option.some.inj hfType))]
      · -- The PHI would be a scalar, so that its first component is wanted.
        exfalso
        obtain ⟨-, hrest⟩ := List.cons.inj (CompositeType.struct.inj hstruct).2
        subst hrest
        have hone : highest (demanded F p) = 1 := by
          by_contra hnot
          have hmember : some (SpvType.member (.scalar t')) = some (.member (vectorType t (highest
              (demanded F p)))) := hfType
          rw [vectorType, if_neg hnot] at hmember
          cases hmember
        exact hzero (hsub (mem_zero_of_highest hone))
    · intro hf
      exact ⟨_, hf, type_vectorForm⟩
  | wideMultiply =>
    rw [hcase] at hsource
    obtain ⟨name', t', hstruct⟩ := hsource
    have := congrArg CompositeType.count hstruct
    simp only [CompositeType.count, List.length_cons, List.length_nil] at this
    omega
  | vector count =>
    rw [hcase] at hsource
    obtain ⟨-, -, -, -, -, htwo⟩ := hsource
    have hform : Form.vector count = vectorForm count := (if_neg (by omega)).symm
    simp only [Source.form, hp, true_and, Option.some.injEq, exists_eq_left', hform,
      type_vectorForm, SpvType.member.injEq, vectorType_inj]
    exact eq_comm
  | named => simp [Source.form, type_named]
  | other => simp [Source.form, hp, type_whole]

/-- A vector or a scalar is no struct. -/
theorem vectorForm_type_ne_whole {name t n : Nat} {rest : List Member} :
    (vectorForm n).type (.struct name (.scalar t :: rest)) ≠
      Form.whole.type (.struct name (.scalar t :: rest)) := by
  rw [type_vectorForm, type_whole]
  intro h
  cases h

/-- The values of any other PHI that have its type. -/
theorem fitsPhi_wide (hF : F.WellFormed) (hs : Analysed F F.events s) (hp : ¬ Narrow F p)
    (hr : r < F.size) (htype : F.type r = F.type p)
    (hnot : (F.source r).refuses (demanded F r) = false) :
    (∃ spvType, (rootForm F s r).bind (Form.type (F.type p)) = some spvType ∧
      (phiForm F s p).type (F.type p) = some spvType) ↔ FitsPhi F p r := by
  classical
  have hsource := hF.source r hr
  rw [hs.phiForm_eq, if_neg hp, exists_type_whole_iff, ← htype]
  unfold rootForm FitsPhi
  cases hcase : F.source r with
  | phi incoming kept =>
    simp only [Option.some.injEq, exists_eq_left', hs.phiForm_eq, hp, iff_false,
      false_imp_iff, and_true]
    by_cases hrNarrow : Narrow F r
    · obtain ⟨name, t, rest, hrType, -⟩ := hrNarrow.type_eq hF
      simp only [hrNarrow, if_true, not_true_eq_false, iff_false, hrType]
      exact vectorForm_type_ne_whole
    · simp [hrNarrow]
  | sampled compare =>
    rw [hcase] at hsource
    obtain ⟨name, t, status, hstruct⟩ := hsource
    simp only [Source.form, hs.accessMask_eq, hp, false_and, false_or, not_false_iff,
      true_and, hstruct]
    by_cases hfour : 4 ∈ demanded F r
    · have hne : demanded F r ≠ ∅ := Finset.ne_empty_of_mem hfour
      simp [hne, hfour]
    · simp only [hfour, if_false, iff_false]
      rintro ⟨f, hf, hfType⟩
      split at hf
      · cases hf
      · obtain rfl := Option.some.inj hf
        cases hfType
  | rawBuffer memory =>
    rw [hcase] at hsource hnot
    obtain ⟨name, t, status, hstruct⟩ := hsource
    simp only [Source.form, hs.accessMask_eq, hp, false_and, false_or, not_false_iff,
      true_and, hstruct]
    by_cases hfour : 4 ∈ demanded F r
    · have hne : demanded F r ≠ ∅ := Finset.ne_empty_of_mem hfour
      have hmemory : memory = false := by simpa [Source.refuses, hfour] using hnot
      simp [hne, hfour, hmemory]
    · simp only [hfour, if_false, iff_false]
      rintro ⟨f, hf, hfType⟩
      split at hf
      · cases hf
      · obtain rfl := Option.some.inj hf
        exact vectorForm_type_ne_whole hfType
  | vectorLoad memory =>
    rw [hcase] at hsource hnot
    obtain ⟨name, t, n, status, hstruct⟩ := hsource
    simp only [Source.form, hs.accessMask_eq, hp, not_false_iff, true_and, hstruct]
    by_cases hone : 1 ∈ demanded F r
    · have hne : demanded F r ≠ ∅ := Finset.ne_empty_of_mem hone
      have hmemory : memory = false := by simpa [Source.refuses, hone] using hnot
      simp [hne, hone, hmemory]
    · simp only [hone, if_false, iff_false]
      rintro ⟨f, hf, hfType⟩
      split at hf
      · cases hf
      · obtain rfl := Option.some.inj hf
        cases hfType
  | dimensions buffer coords levels =>
    rw [hcase] at hsource
    obtain ⟨name, t, hstruct⟩ := hsource
    simp only [Source.form, hs.accessMask_eq, hp, false_and, iff_false, hstruct]
    rintro ⟨f, hf, hfType⟩
    rcases dimensionsForm_cases hf with ⟨m, rfl⟩ | ⟨rfl, -⟩
    · exact vectorForm_type_ne_whole hfType
    · cases hfType
  | wideMultiply =>
    rw [hcase] at hsource
    obtain ⟨name, t, hstruct⟩ := hsource
    simp only [Source.form, Option.some.injEq, exists_eq_left', iff_false, hstruct]
    split
    · exact fun h => by cases h
    · exact fun h => by cases h
  | vector count =>
    rw [hcase] at hsource
    obtain ⟨name, t, rest, hstruct, -⟩ := hsource
    simp only [Source.form, Option.some.injEq, exists_eq_left', hp, false_and, iff_false, hstruct]
    exact fun h => by cases h
  | named =>
    rw [hcase] at hsource
    obtain ⟨name, members, hstruct⟩ := hsource
    simp only [Source.form, Option.some.injEq, exists_eq_left', iff_false, hstruct]
    exact fun h => by cases h
  | other => simp [Source.form, hp]

/-- The values of a PHI that have its type are those that fit. -/
theorem exists_type_iff_fitsPhi (hF : F.WellFormed) (hs : Analysed F F.events s)
    (hnot : ∀ v < F.size, (F.source v).refuses (demanded F v) = false) (hp : p < F.size)
    (htwo : 2 ≤ (F.kept p).length) (hw : w ∈ F.kept p) :
    (∃ spvType, valueType F s w = some spvType ∧ valueType F s p = some spvType) ↔
      ∃ r, F.root F.size w = some r ∧ FitsPhi F p r := by
  have hroot : ∀ x, F.kept p ≠ [x] := fun x h => by
    rw [h, List.length_singleton] at htwo
    omega
  have hphi : rootForm F s p = some (phiForm F s p) := by
    unfold rootForm
    cases hcase : F.source p with
    | phi incoming kept => rfl
    | _ =>
      rw [kept_of_not_phi (fun _ _ h => by rw [hcase] at h; cases h)] at hw
      cases hw
  have hpType : valueType F s p = (phiForm F s p).type (F.type p) := by
    rw [valueType, valueForm_eq (root_self (by omega) hroot), hphi]
    rfl
  have hincoming := hF.kept p hp w hw
  have hwlt := hF.incoming_lt p hp w hincoming
  have hwType := hF.incoming_type p hp w hincoming
  cases hr : F.root F.size w with
  | none =>
    rw [valueType, valueForm, hr]
    simp
  | some r =>
    obtain ⟨hrlt, hrType, hsub, -⟩ := root_spec hF hwlt hr
    have htype := hrType.trans hwType
    rw [valueType, valueForm_eq hr, hwType, hpType]
    simp only [Option.some.injEq, exists_eq_left']
    by_cases hnarrow : Narrow F p
    · exact fitsPhi_narrow hF hs hnarrow hrlt htype ((demanded_subset hincoming).trans hsub)
    · exact fitsPhi_wide hF hs hnarrow hrlt htype (hnot r hrlt)

variable {index : Nat}

/-- What is read of a value that is not forwarded. -/
def Form.reads (type : CompositeType) (index : Nat) : Form → Bool
  | .scalar _ => false
  | .vector n => decide (index < n)
  | .whole => decide (index < type.count)
  | .named => decide (index < type.count)

/-- The address of a component follows from the form of the value. -/
theorem addresses_eq : addresses F s v index = match valueForm F s v with
    | none => false
    | some form =>
      if (F.source v).forwards (s.accessMask v) (s.components v) then form == .scalar index
      else form.reads (F.type v) index := by
  unfold addresses Form.reads
  rfl

/-- What emits a composite other than dimensions is read as it should be. -/
theorem form_reads (hF : F.WellFormed) (hs : Analysed F F.events s) (hv : v < F.size)
    (hevent : .extractValue v index ∈ F.events) (hnot : (F.source v).refuses (demanded F v) = false)
    (hphi : ∀ incoming kept, F.source v ≠ .phi incoming kept)
    (hdimensions : ∀ buffer coords levels, F.source v ≠ .dimensions buffer coords levels) :
    addresses F s v index = true := by
  have hindex := mem_demanded_self hevent
  have hcount := (mem_demanded.mp hindex).lt_count hF.toWellTyped
  have hne : demanded F v ≠ ∅ := Finset.ne_empty_of_mem hindex
  have hsource := hF.source v hv
  have hroot : F.root F.size v = some v := root_self (by omega) fun x h => by
    rw [kept_of_not_phi hphi] at h
    cases h
  rw [addresses_eq, valueForm_eq hroot, rootForm]
  cases hcase : F.source v with
  | phi incoming kept => exact absurd hcase (hphi _ _)
  | dimensions buffer coords levels => exact absurd hcase (hdimensions _ _ _)
  | sampled compare =>
    rw [hcase] at hsource
    obtain ⟨name, t, status, hstruct⟩ := hsource
    simp only [Source.form, Source.forwards, hs.accessMask_eq, hne, false_and, if_false,
      Bool.false_eq_true]
    by_cases hfour : 4 ∈ demanded F v
    · simpa [hfour, Form.reads] using hcount
    · rw [hstruct] at hcount
      have hcount : index < 5 := hcount
      have : index ≠ 4 := fun h => hfour (h ▸ hindex)
      simp only [hfour, if_false, Form.reads, decide_eq_true_eq]
      omega
  | rawBuffer memory =>
    rw [hcase] at hsource hnot
    obtain ⟨name, t, status, hstruct⟩ := hsource
    simp only [Source.form, Source.forwards, hs.accessMask_eq, hs.components_eq, hne, if_false]
    by_cases hfour : 4 ∈ demanded F v
    · have hmemory : memory = false := by simpa [Source.refuses, hfour] using hnot
      have hhigh := lt_highest hfour
      have hone : (highest (demanded F v) == 1) = false := by
        rw [beq_eq_false_iff_ne]
        omega
      simpa [hfour, hmemory, hone, Form.reads] using hcount
    · have hlt : ∀ i ∈ demanded F v, i < 4 := fun i hi => by
        have hcount := (mem_demanded.mp hi).lt_count hF.toWellTyped
        rw [hstruct] at hcount
        have hcount : i < 5 := hcount
        have : i ≠ 4 := fun h => hfour (h ▸ hi)
        omega
      have hhigh := lt_highest hindex
      simp only [hfour, if_false, vecsize_eq hne hlt, vectorForm]
      by_cases hone : highest (demanded F v) = 1
      · have hzero : index = 0 := by omega
        simp [hone, hzero]
      · simp [hone, Form.reads, hhigh]
  | vectorLoad memory =>
    rw [hcase] at hsource hnot
    obtain ⟨name, t, n, status, hstruct⟩ := hsource
    simp only [Source.form, Source.forwards, hs.accessMask_eq, hs.components_eq, hne, if_false]
    by_cases hone : 1 ∈ demanded F v
    · have hmemory : memory = false := by simpa [Source.refuses, hone] using hnot
      have hhigh := lt_highest hone
      have hnotOne : (highest (demanded F v) == 1) = false := by
        rw [beq_eq_false_iff_ne]
        omega
      simpa [hone, hmemory, hnotOne, Form.reads] using hcount
    · have hlt : ∀ i ∈ demanded F v, i < 1 := fun i hi => by
        have hcount := (mem_demanded.mp hi).lt_count hF.toWellTyped
        rw [hstruct] at hcount
        have hcount : i < 2 := hcount
        have : i ≠ 1 := fun h => hone (h ▸ hi)
        omega
      have hhigh := lt_highest hindex
      have hle := highest_le hlt
      have hzero := hlt index hindex
      have hhighOne : highest (demanded F v) = 1 := by omega
      have hindexZero : index = 0 := by omega
      simp [hone, hhighOne, hindexZero]
  | wideMultiply =>
    rw [hcase] at hsource
    obtain ⟨name, t, hstruct⟩ := hsource
    simp only [Source.form, Source.forwards, hs.accessMask_eq]
    by_cases hone : demanded F v = {1}
    · have hindexOne : index = 1 := by
        rw [hone] at hindex
        exact Finset.mem_singleton.mp hindex
      simp [hone, hindexOne]
    · rw [hstruct] at hcount
      have hcount : index < 2 := hcount
      simpa [hone, Form.reads] using hcount
  | vector count =>
    rw [hcase] at hsource
    obtain ⟨name, t, rest, hstruct, hlength, -⟩ := hsource
    rw [hstruct] at hcount
    simp only [Source.form, Source.forwards, if_false, Form.reads, Bool.false_eq_true,
      decide_eq_true_eq]
    simp only [CompositeType.count, List.length_cons] at hcount
    omega
  | named => simpa [Source.form, Source.forwards, Form.reads] using hcount
  | other => simpa [Source.form, Source.forwards, Form.reads] using hcount

/-- What is read of dimensions. -/
theorem dimensions_reads (hF : F.WellFormed) (hs : Analysed F F.events s) (hv : v < F.size)
    (hevent : .extractValue v index ∈ F.events) {buffer levels : Bool} {coords : Nat}
    (hcase : F.source v = .dimensions buffer coords levels) :
    addresses F s v index = true ↔ FitsExtractValue F v index := by
  have hindex := mem_demanded_self hevent
  have hcount := (mem_demanded.mp hindex).lt_count hF.toWellTyped
  have hsource := hF.source v hv
  rw [hcase] at hsource
  obtain ⟨name, t, hstruct⟩ := hsource
  have hroot : F.root F.size v = some v := root_self (by omega) fun x h => by
    rw [kept_of_not_phi (fun _ _ h => by rw [hcase] at h; cases h)] at h
    cases h
  rw [addresses_eq, valueForm_eq hroot, rootForm, FitsExtractValue]
  simp only [hcase, Source.form, Source.forwards, hs.accessMask_eq, hs.components_eq]
  cases hform : dimensionsForm buffer coords levels (demanded F v) with
  | none => simp
  | some form =>
    rcases dimensionsForm_cases hform with ⟨n, rfl⟩ | ⟨rfl, hzero, hone, htwo⟩
    · by_cases hn : n = 1
      · -- A scalar is forwarded when no other component is wanted.
        have hscalar : vectorForm n = .scalar 0 := if_pos hn
        simp only [hscalar, beq_iff_eq]
        constructor
        · intro h
          split at h
          · rename_i hhigh
            exact highest_eq_one.mp hhigh
          · cases h
        · intro h
          rw [if_pos (highest_eq_one.mpr h)]
          rw [h] at hindex
          rw [Finset.mem_singleton.mp hindex]
          rfl
      · have hvector : vectorForm n = .vector n := if_neg hn
        simp [hvector, Form.reads]
    · -- Only the levels or samples are wanted.
      rw [hstruct] at hcount
      have hcount : index < 4 := hcount
      have hthree : index = 3 := by
        have h₀ : index ≠ 0 := fun h => hzero (h ▸ hindex)
        have h₁ : index ≠ 1 := fun h => hone (h ▸ hindex)
        have h₂ : index ≠ 2 := fun h => htwo (h ▸ hindex)
        omega
      simp [hthree]

/-- What is read of a PHI. -/
theorem phi_reads (hF : F.WellFormed) (hs : Analysed F F.events s)
    (hevent : .extractValue v index ∈ F.events) {incoming kept : List Nat}
    (hcase : F.source v = .phi incoming kept) :
    addresses F s v index = true ↔ FitsExtractValue F v index := by
  classical
  have hindex := mem_demanded_self hevent
  have hcount := (mem_demanded.mp hindex).lt_count hF.toWellTyped
  rw [addresses_eq, FitsExtractValue]
  simp only [hcase, Source.forwards, Bool.false_eq_true, if_false]
  cases hr : F.root F.size v with
  | none =>
    rw [valueForm, hr]
    simp
  | some r =>
    rw [valueForm_eq hr, rootForm]
    simp only [Option.some.injEq, exists_eq_left']
    cases hsource : F.source r with
    | phi incoming kept =>
      simp only [hs.phiForm_eq]
      by_cases hnarrow : Narrow F r
      · simp only [hnarrow, if_true, true_and, true_imp_iff, vectorForm]
        by_cases hone : highest (demanded F r) = 1
        · simp [hone, Form.reads]
        · simp [hone, Form.reads]
      · simpa [hnarrow, Form.reads] using hcount
    | _ =>
      simp only [hs.accessMask_eq]
      generalize Source.form (demanded F r) _ = form
      cases form with
      | none => simp
      | some form =>
        cases form with
        | scalar j => simp [Form.reads]
        | vector n => simp [Form.reads]
        | whole => simpa [Form.reads] using hcount
        | named => simpa [Form.reads] using hcount

/-- What is read is the component that is named exactly when the extractvalue fits. -/
theorem addresses_iff (hF : F.WellFormed) (hs : Analysed F F.events s)
    (hnot : ∀ v < F.size, (F.source v).refuses (demanded F v) = false)
    (hevent : .extractValue v index ∈ F.events) :
    addresses F s v index = true ↔ FitsExtractValue F v index := by
  have hv := hF.aggregate_lt v index hevent
  cases hcase : F.source v with
  | phi incoming kept => exact phi_reads hF hs hevent hcase
  | dimensions buffer coords levels => exact dimensions_reads hF hs hv hevent hcase
  | _ =>
    refine iff_of_true (form_reads hF hs hv hevent (hnot v hv) ?_ ?_) ?_
    · exact fun _ _ h => by rw [hcase] at h; cases h
    · exact fun _ _ _ h => by rw [hcase] at h; cases h
    · simp [FitsExtractValue, hcase]

/-- The analysis always ends and marks what is accessed of a PHI for its values. The types agree, or
the conversion fails, if and only if all values fit their PHIs and can be read, or the status of a
load from memory is wanted. -/
theorem compositesSound_iff (F : Function) (hF : F.WellFormed) : CompositesSound F ↔ Fits F := by
  have hrefused : ∀ s, Analysed F F.events s →
      (Refused F s ↔ ∃ v < F.size, (F.source v).refuses (demanded F v) = true) := fun s hs => by
    simp only [Refused, hs.accessMask_eq]
  have hagree : ∀ s, Analysed F F.events s →
    (∀ v < F.size, (F.source v).refuses (demanded F v) = false) →
      (TypesAgree F s ↔ (∀ p < F.size, 2 ≤ (F.kept p).length → ∀ w ∈ F.kept p,
        ∃ r, F.root F.size w = some r ∧ FitsPhi F p r) ∧
        ∀ v index, .extractValue v index ∈ F.events → FitsExtractValue F v index) := by
    intro s hs hnot
    constructor
    · exact fun h => ⟨fun p hp htwo w hw => (exists_type_iff_fitsPhi hF hs hnot hp htwo hw).mp
        (h.phi p hp htwo w hw), fun v index hevent => (addresses_iff hF hs hnot hevent).mp
        (h.extractValue v index hevent)⟩
    · exact fun h => ⟨fun p hp htwo w hw => (exists_type_iff_fitsPhi hF hs hnot hp htwo hw).mpr
        (h.1 p hp htwo w hw), fun v index hevent => (addresses_iff hF hs hnot hevent).mpr
        (h.2 v index hevent)⟩
  constructor
  · intro hsound
    obtain ⟨s, hrun, -, hs⟩ := hsound _ (Nat.lt_succ_self _)
    obtain ⟨s', hrun', hanalysed⟩ :=
      analyze_spec hF.toWellTyped (Nat.lt_succ_self (F.size * F.width))
    obtain rfl : s = s' := Option.some.inj (hrun.symm.trans hrun')
    by_cases hrefuses : ∃ v < F.size, (F.source v).refuses (demanded F v) = true
    · exact Or.inl hrefuses
    · have hnot : ∀ v < F.size, (F.source v).refuses (demanded F v) = false := fun v hv =>
        Bool.eq_false_iff.mpr fun h => hrefuses ⟨v, hv, h⟩
      rcases hs with h | h
      · exact absurd ((hrefused s hanalysed).mp h) hrefuses
      · exact Or.inr ((hagree s hanalysed hnot).mp h)
  · intro hfits fuel hfuel
    obtain ⟨s, hrun, hs⟩ := analyze_spec hF.toWellTyped hfuel
    refine ⟨s, hrun, fun p _ w hw j hj => hs.closed p j hj w hw, ?_⟩
    by_cases hrefuses : ∃ v < F.size, (F.source v).refuses (demanded F v) = true
    · exact Or.inl ((hrefused s hs).mpr hrefuses)
    · have hnot : ∀ v < F.size, (F.source v).refuses (demanded F v) = false := fun v hv =>
        Bool.eq_false_iff.mpr fun h => hrefuses ⟨v, hv, h⟩
      exact Or.inr ((hagree s hs hnot).mpr (hfits.resolve_left hrefuses))

/-- What a load from a texture returns: four components and the status. -/
def resRet : CompositeType := .struct 0 [.scalar 0, .scalar 0, .scalar 0, .scalar 0, .scalar 1]

/-- One of two loads is chosen, and a component of it is read; the status of the first is read,
too. -/
def chosenLoad : Function where
  size := 3
  type _ := resRet
  source v := if v = 2 then .phi [0, 1] [0, 1] else .sampled false
  events := [.dxOp resRet, .extractValue 0 4, .dxOp resRet, .extractValue 2 1]

/-- The chosen load is a well-formed function. -/
theorem wellFormed_chosenLoad : chosenLoad.WellFormed where
  incoming_lt v hv w hw := by
    have hv : v < 3 := hv
    interval_cases v
    · cases hw
    · cases hw
    · have hw : w ∈ [0, 1] := hw
      have : ∀ x ∈ [0, 1], x < 3 := by decide
      exact this w hw
  incoming_type _ _ _ _ := rfl
  aggregate_lt v i h := by
    have : ∀ e ∈ chosenLoad.events, ∀ v i, e = .extractValue v i → v < 3 := by
      simp only [chosenLoad, List.mem_cons, List.not_mem_nil, or_false]
      rintro e (rfl | rfl | rfl | rfl) v i h <;> cases h <;> decide
    exact this _ h v i rfl
  index_lt v i h := by
    have : ∀ e ∈ chosenLoad.events, ∀ v i, e = .extractValue v i → i < 5 := by
      simp only [chosenLoad, List.mem_cons, List.not_mem_nil, or_false]
      rintro e (rfl | rfl | rfl | rfl) v i h <;> cases h <;> decide
    exact this _ h v i rfl
  kept v hv w hw := by
    have hv : v < 3 := hv
    interval_cases v
    · cases hw
    · cases hw
    · exact hw
  source v hv := by
    have hv : v < 3 := hv
    interval_cases v
    · exact ⟨0, 0, 1, rfl⟩
    · exact ⟨0, 0, 1, rfl⟩
    · trivial
  dxOp name members h _ := by
    have : ∀ e ∈ chosenLoad.events, ∀ type, e = .dxOp type → type = resRet := by
      simp only [chosenLoad, List.mem_cons, List.not_mem_nil, or_false]
      rintro e (rfl | rfl | rfl | rfl) type h <;> cases h <;> rfl
    obtain ⟨-, rfl⟩ := CompositeType.struct.inj (this _ h _ rfl)
    exact ⟨0, _, rfl⟩

/-- The first load is a struct, and the PHI a vector. -/
theorem chosenLoad_not_sound : chosenLoad.WellFormed ∧ ¬ CompositesSound chosenLoad := by
  refine ⟨wellFormed_chosenLoad, fun h => ?_⟩
  obtain ⟨s, hrun, -, hrefused | hagree⟩ := h 16 (by decide)
  · obtain ⟨v, hv, hrefuses⟩ := hrefused
    have hv : v < 3 := hv
    interval_cases v <;> cases hrefuses
  · have htypes : (analyze chosenLoad 16).map
      (fun s => (valueType chosenLoad s 0, valueType chosenLoad s 2)) =
        some (some (.struct false [.scalar 0, .scalar 0, .scalar 0, .scalar 0, .scalar 1]),
          some (.member (.vector 0 4))) := by decide
    rw [hrun] at htypes
    obtain ⟨hload, hphi⟩ := Prod.mk.inj (Option.some.inj htypes)
    obtain ⟨type, htype, hsame⟩ := hagree.phi 2 (by decide) (by decide) 0 (by decide)
    rw [hload] at htype
    rw [hphi] at hsame
    cases htype
    cases hsame

/-- By the demands, too: the status is wanted of the first load. -/
theorem compositesSound_iff_chosenLoad : CompositesSound chosenLoad ↔ Fits chosenLoad :=
  compositesSound_iff chosenLoad wellFormed_chosenLoad

end DxilSpirv.Composites
