import Mathlib.Data.Finset.Card
import Mathlib.Data.Finset.Lattice.Fold
import Mathlib.Data.Finset.Prod
import Mathlib.Logic.Function.Basic
import Mathlib.Logic.Relation
import Mathlib.Order.Lattice.Nat

/-!
# Which components of a composite are accessed

An extractvalue marks the component of the composite that it reads, and, when the composite is a
PHI, of all values that flow into the PHI. A PHI of a type that DXIL operations return marks the
first four components at once. The recursion goes on only where a component was not marked before.
-/

namespace DxilSpirv.Composites

/-- A member of a struct, translated by `get_type_id`. -/
inductive Member
  | scalar (type : Nat)
  | vector (type count : Nat)
  deriving DecidableEq

/-- The type of a composite; structs have names. -/
inductive CompositeType
  | struct (name : Nat) (members : List Member)
  | vector (type count : Nat)
  deriving DecidableEq

/-- What emits a composite, or the values of a PHI, with those that are left when blocks that were
eliminated and blocks that come twice are dropped. -/
inductive Source
  | phi (incoming kept : List Nat)
  /-- A sample, a gather or a load from a texture or from a typed buffer. -/
  | sampled (compare : Bool)
  /-- A load from a raw or structured buffer: a texel buffer, or else a storage buffer or an
  address. -/
  | rawBuffer (memory : Bool)
  /-- `RawBufferVectorLoad`. -/
  | vectorLoad (memory : Bool)
  /-- `GetDimensions`: of a buffer, or of an image with some coordinates, and with levels or samples
  or without. -/
  | dimensions (buffer : Bool) (coords : Nat) (levels : Bool)
  /-- `IMul` and `UMul`. -/
  | wideMultiply
  /-- An operation with a vector for a result: `CBufferLoadLegacy`, `WaveActiveBallot`,
  `SplitDouble`. -/
  | vector (count : Nat)
  /-- A compare exchange, or eight 16-bit values of a constant buffer: a struct with a name of its
  own. -/
  | named
  /-- An undefined value, a constant, an argument or another instruction. -/
  | other
  deriving DecidableEq

/-- What the analysis of a function comes across. -/
inductive Event
  /-- A call of a DXIL operation that returns a composite. -/
  | dxOp (type : CompositeType)
  /-- An extractvalue with one index. -/
  | extractValue (aggregate index : Nat)
  deriving DecidableEq

/-- A function with its composites, which go by number, and what the analysis comes across, in
order. -/
structure Function where
  size : Nat
  type : Nat → CompositeType
  source : Nat → Source
  events : List Event

/-- The number of members. -/
def CompositeType.count : CompositeType → Nat
  | struct _ members => members.length
  | vector _ count => count

/-- The values of a PHI. -/
def Function.incoming (F : Function) (v : Nat) : List Nat :=
  match F.source v with
  | .phi incoming _ => incoming
  | _ => []

/-- The value is a PHI. -/
def Function.isPhi (F : Function) (v : Nat) : Bool :=
  match F.source v with
  | .phi _ _ => true
  | _ => false

/-- `llvm_dxil_op_fake_struct_types` and `llvm_composite_meta`. -/
structure Analysis where
  fakeStructTypes : List CompositeType := []
  accessMask : Nat → Finset Nat := fun _ => ∅
  components : Nat → Nat := fun _ => 0

variable (F : Function)

/-- All of the first four components are accessed at once. -/
def Function.splats (fake : List CompositeType) (v index : Nat) : Bool :=
  F.isPhi v && decide (index < 4) && decide (F.type v ∈ fake)

/-- The components that an access marks. -/
def Function.accessed (fake : List CompositeType) (v index : Nat) : List Nat :=
  if F.splats fake v index then List.range 4 else [index]

/-- Mark components. -/
def Analysis.mark (s : Analysis) (v : Nat) (indices : List Nat) : Analysis :=
  { s with
    accessMask := Function.update s.accessMask v (s.accessMask v ∪ indices.toFinset)
    components := Function.update s.components v
      (indices.foldl (fun n index => max (index + 1) n) (s.components v)) }

/-- `analyze_extractvalue_instruction` on an aggregate and an index. -/
def analyzeExtractvalue : Nat → Analysis → Nat × Nat → Option Analysis
  | 0, _, _ => none
  | fuel + 1, s, (v, index) =>
    let indices := F.accessed s.fakeStructTypes v index
    if indices.toFinset ⊆ s.accessMask v then some s
    else ((F.incoming v).flatMap fun w => indices.map (w, ·)).foldlM (analyzeExtractvalue fuel)
      (s.mark v indices)

/-- A DXIL operation that returns a struct of four or more members makes its type a fake struct
type. -/
def addFakeStructType (fake : List CompositeType) : Event → List CompositeType
  | .dxOp (.struct name members) =>
    if 4 ≤ members.length ∧ .struct name members ∉ fake
      then fake ++ [.struct name members] else fake
  | _ => fake

/-- What the analysis does with an event. -/
def analyzeEvent (fuel : Nat) (s : Analysis) : Event → Option Analysis
  | .dxOp type =>
    some { s with fakeStructTypes := addFakeStructType s.fakeStructTypes (.dxOp type) }
  | .extractValue aggregate index => analyzeExtractvalue F fuel s (aggregate, index)

/-- The analysis of a function. -/
def analyze (fuel : Nat) : Option Analysis := F.events.foldlM (analyzeEvent F fuel) {}

/-- What LLVM asks of a function: a PHI has the type of its values, and an index is that of a
member. -/
structure Function.WellTyped : Prop where
  incoming_lt : ∀ v < F.size, ∀ w ∈ F.incoming v, w < F.size
  incoming_type : ∀ v < F.size, ∀ w ∈ F.incoming v, F.type w = F.type v
  aggregate_lt : ∀ v i, .extractValue v i ∈ F.events → v < F.size
  index_lt : ∀ v i, .extractValue v i ∈ F.events → i < (F.type v).count

/-- A value flows into another, through any number of PHIs. -/
def FlowsTo : Nat → Nat → Prop := Relation.ReflTransGen fun w v => w ∈ F.incoming v

/-- An access to a component of a value wants a component of another. -/
def Wants (fake : List CompositeType) (v index u j : Nat) : Prop :=
  FlowsTo F u v ∧ (j = index ∨ (F.splats fake v index = true ∧ j < 4))

/-- The fake struct types after some events. -/
def fakeStructTypesOf (events : List Event) : List CompositeType :=
  events.foldl addFakeStructType []

/-- Some extractvalue of the function wants a component of a value. -/
def Demanded (u j : Nat) : Prop := ∃ before v index after,
  F.events = before ++ .extractValue v index :: after ∧
    Wants F (fakeStructTypesOf before) v index u j

/-- A bound on the indices. -/
def Function.width : Nat :=
  F.events.foldl (fun n event => match event with
    | .extractValue _ index => max n (index + 1)
    | .dxOp _ => n) 4

variable {fake : List CompositeType} {F} {v index u j : Nat}

/-- The extracted component itself is accessed. -/
theorem mem_accessed_self : index ∈ F.accessed fake v index := by
  unfold Function.accessed
  split
  · rename_i h
    simp only [Function.splats, Bool.and_eq_true, decide_eq_true_eq] at h
    exact List.mem_range.mpr h.1.2
  · exact List.mem_singleton.mpr rfl

/-- All four components are accessed where the value is splatted. -/
theorem mem_accessed : j ∈ F.accessed fake v index ↔
    j = index ∨ (F.splats fake v index = true ∧ j < 4) := by
  constructor
  · intro h
    unfold Function.accessed at h
    split at h
    · rename_i hsplat
      exact Or.inr ⟨hsplat, List.mem_range.mp h⟩
    · exact Or.inl (List.mem_singleton.mp h)
  · rintro (rfl | ⟨hsplat, hj⟩)
    · exact mem_accessed_self
    · rw [Function.accessed, if_pos hsplat]
      exact List.mem_range.mpr hj

/-- Only a PHI has incoming values. -/
theorem Function.isPhi_of_mem_incoming {w : Nat} (h : w ∈ F.incoming v) : F.isPhi v = true := by
  unfold Function.incoming at h
  unfold Function.isPhi
  split at h
  · rfl
  · cases h

/-- What the access to a value of a PHI wants, the access to the PHI wants. -/
theorem Wants.phi {w c : Nat} (htype : F.type w = F.type v) (hw : w ∈ F.incoming v)
    (hc : c ∈ F.accessed fake v index) (h : Wants F fake w c u j) : Wants F fake v index u j := by
  obtain ⟨hflow, hj⟩ := h
  refine ⟨hflow.tail hw, ?_⟩
  rcases mem_accessed.mp hc with rfl | ⟨hsplat, hc⟩
  · rcases hj with rfl | ⟨hsplat, hj⟩
    · exact Or.inl rfl
    · -- The PHI has the type of the value.
      refine Or.inr ⟨?_, hj⟩
      simp only [Function.splats, Bool.and_eq_true, decide_eq_true_eq] at hsplat ⊢
      exact ⟨⟨Function.isPhi_of_mem_incoming hw, hsplat.1.2⟩, htype ▸ hsplat.2⟩
  · rcases hj with rfl | ⟨-, hj⟩
    · exact Or.inr ⟨hsplat, hc⟩
    · exact Or.inr ⟨hsplat, hj⟩

variable {s : Analysis} {w : Nat} {indices : List Nat}

/-- What a mark adds to the masks. -/
theorem mem_mark : j ∈ (s.mark v indices).accessMask w ↔
    j ∈ s.accessMask w ∨ (w = v ∧ j ∈ indices) := by
  by_cases h : w = v
  · subst h
    simp [Analysis.mark]
  · simp [Analysis.mark, h]

/-- One more than the highest component that is accessed. -/
def highest (mask : Finset Nat) : Nat := mask.sup (· + 1)

/-- The count of components is the maximum over the indices. -/
theorem foldl_max (indices : List Nat) (n : Nat) :
    indices.foldl (fun n index => max (index + 1) n) n = max n (indices.toFinset.sup (· + 1)) := by
  induction indices generalizing n with
  | nil => simp
  | cons index indices ih =>
    rw [List.foldl_cons, ih, List.toFinset_cons, Finset.sup_insert, max_comm (index + 1) n]
    exact max_assoc ..

/-- A mark keeps the count at the highest marked component. -/
theorem components_mark (h : ∀ w, s.components w = highest (s.accessMask w)) (w : Nat) :
    (s.mark v indices).components w = highest ((s.mark v indices).accessMask w) := by
  by_cases hw : w = v
  · subst hw
    simp only [Analysis.mark, Function.update_self]
    rw [foldl_max, h, highest, highest, Finset.sup_union]
  · simp only [Analysis.mark, Function.update_of_ne hw]
    exact h w

variable {s' : Analysis}

/-- How many components of how many values are not marked. -/
def unmarked (F : Function) (s : Analysis) : Nat :=
  ((Finset.range F.size ×ˢ Finset.range F.width).filter fun p => p.2 ∉ s.accessMask p.1).card

/-- Larger masks leave less unmarked. -/
theorem unmarked_mono (h : ∀ v, s.accessMask v ⊆ s'.accessMask v) :
    unmarked F s' ≤ unmarked F s := by
  refine Finset.card_le_card fun p hp => ?_
  rw [Finset.mem_filter] at hp ⊢
  exact ⟨hp.1, fun hmem => hp.2 (h p.1 hmem)⟩

/-- A new mark leaves less unmarked. -/
theorem unmarked_mark {v index : Nat} {indices : List Nat} (hv : v < F.size)
    (hindex : index < F.width) (hmem : index ∈ indices) (hnot : index ∉ s.accessMask v) :
    unmarked F (s.mark v indices) < unmarked F s := by
  refine Finset.card_lt_card
    ((Finset.ssubset_iff_of_subset fun p hp => ?_).mpr ⟨(v, index), ?_, ?_⟩)
  · rw [Finset.mem_filter] at hp ⊢
    exact ⟨hp.1, fun h => hp.2 (mem_mark.mpr (Or.inl h))⟩
  · exact Finset.mem_filter.mpr ⟨Finset.mem_product.mpr
      ⟨Finset.mem_range.mpr hv, Finset.mem_range.mpr hindex⟩, hnot⟩
  · rw [Finset.mem_filter]
    exact fun h => h.2 (mem_mark.mpr (Or.inr ⟨rfl, hmem⟩))

/-- No more is unmarked than there are values and components. -/
theorem unmarked_le : unmarked F s ≤ F.size * F.width := by
  refine (Finset.card_filter_le _ _).trans ?_
  rw [Finset.card_product, Finset.card_range, Finset.card_range]

/-- The bound on the indices is one. -/
theorem width_spec : 4 ≤ F.width ∧ ∀ v index, .extractValue v index ∈ F.events →
    index < F.width := by
  have hfold : ∀ (events : List Event) (n : Nat),
      let m := events.foldl (fun n event => match event with
        | .extractValue _ index => max n (index + 1)
        | .dxOp _ => n) n
      n ≤ m ∧ ∀ v index, .extractValue v index ∈ events → index < m := by
    intro events
    induction events with
    | nil => exact fun n => ⟨le_refl n, fun v index h => by cases h⟩
    | cons event events ih =>
      intro n
      cases event with
      | dxOp type =>
        refine ⟨(ih n).1, fun v index h => (ih n).2 v index ?_⟩
        exact (List.mem_cons.mp h).resolve_left (by simp)
      | extractValue u i =>
        obtain ⟨hle, hmem⟩ := ih (max n (i + 1))
        refine ⟨(le_max_left ..).trans hle, fun v index h => ?_⟩
        rcases List.mem_cons.mp h with h | h
        · obtain ⟨rfl, rfl⟩ := Event.extractValue.inj h
          exact (Nat.lt_succ_self index).trans_le ((le_max_right ..).trans hle)
        · exact hmem v index h
  exact hfold F.events 4

variable {s'' : Analysis} {calls calls' : List (Nat × Nat)}

/-- What some calls of `analyze_extractvalue_instruction` add. -/
structure Propagated (F : Function) (calls : List (Nat × Nat)) (s s' : Analysis) : Prop where
  fake : s'.fakeStructTypes = s.fakeStructTypes
  mono : ∀ v, s.accessMask v ⊆ s'.accessMask v
  entered : ∀ p ∈ calls, ∀ j ∈ F.accessed s.fakeStructTypes p.1 p.2, j ∈ s'.accessMask p.1
  closed : ∀ v, ∀ j ∈ s'.accessMask v, j ∉ s.accessMask v → ∀ w ∈ F.incoming v, j ∈ s'.accessMask w
  wanted : ∀ v, ∀ j ∈ s'.accessMask v, j ∉ s.accessMask v →
    ∃ p ∈ calls, Wants F s.fakeStructTypes p.1 p.2 v j
  components : (∀ v, s.components v = highest (s.accessMask v)) →
    ∀ v, s'.components v = highest (s'.accessMask v)

/-- What is marked already propagates nothing. -/
theorem Propagated.refl (h : ∀ p ∈ calls, ∀ j ∈ F.accessed s.fakeStructTypes p.1 p.2,
    j ∈ s.accessMask p.1) : Propagated F calls s s where
  fake := rfl
  mono _ := Finset.Subset.refl _
  entered := h
  closed _ _ hj hn := absurd hj hn
  wanted _ _ hj hn := absurd hj hn
  components h := h

/-- One call after another. -/
theorem Propagated.trans (h : Propagated F calls s s') (h' : Propagated F calls' s' s'') :
    Propagated F (calls ++ calls') s s'' where
  fake := h'.fake.trans h.fake
  mono v := (h.mono v).trans (h'.mono v)
  entered p hp j hj := by
    rcases List.mem_append.mp hp with hp | hp
    · exact h'.mono _ (h.entered p hp j hj)
    · exact h'.entered p hp j (by rwa [h.fake])
  closed v j hj hn w hw := by
    by_cases hmid : j ∈ s'.accessMask v
    · exact h'.mono w (h.closed v j hmid hn w hw)
    · exact h'.closed v j hj hmid w hw
  wanted v j hj hn := by
    by_cases hmid : j ∈ s'.accessMask v
    · obtain ⟨p, hp, hwants⟩ := h.wanted v j hmid hn
      exact ⟨p, List.mem_append_left _ hp, hwants⟩
    · obtain ⟨p, hp, hwants⟩ := h'.wanted v j hj hmid
      exact ⟨p, List.mem_append_right _ hp, h.fake ▸ hwants⟩
  components hs := h'.components (h.components hs)

/-- A call that makes progress, once the values of the PHI were gone through. -/
theorem Propagated.enter (hF : F.WellTyped) {v index : Nat} (hv : v < F.size)
    (h : Propagated F ((F.incoming v).flatMap fun w =>
      (F.accessed s.fakeStructTypes v index).map (w, ·))
        (s.mark v (F.accessed s.fakeStructTypes v index)) s') :
    Propagated F [(v, index)] s s' where
  fake := h.fake
  mono w := fun j hj => h.mono w (mem_mark.mpr (Or.inl hj))
  entered p hp j hj := by
    obtain rfl := List.mem_singleton.mp hp
    exact h.mono v (mem_mark.mpr (Or.inr ⟨rfl, hj⟩))
  closed w j hj hn x hx := by
    by_cases hmark : j ∈ (s.mark v (F.accessed s.fakeStructTypes v index)).accessMask w
    · obtain ⟨rfl, hj⟩ := (mem_mark.mp hmark).resolve_left hn
      have hcall : (x, j) ∈ (F.incoming w).flatMap fun x =>
          (F.accessed s.fakeStructTypes w index).map (x, ·) :=
        List.mem_flatMap.mpr ⟨x, hx, List.mem_map_of_mem hj⟩
      exact h.entered _ hcall j mem_accessed_self
    · exact h.closed w j hj hmark x hx
  wanted w j hj hn := by
    refine ⟨(v, index), List.mem_singleton.mpr rfl, ?_⟩
    by_cases hmark : j ∈ (s.mark v (F.accessed s.fakeStructTypes v index)).accessMask w
    · obtain ⟨rfl, hj⟩ := (mem_mark.mp hmark).resolve_left hn
      exact ⟨.refl, mem_accessed.mp hj⟩
    · obtain ⟨p, hp, hwants⟩ := h.wanted w j hj hmark
      obtain ⟨x, hx, hp⟩ := List.mem_flatMap.mp hp
      obtain ⟨c, hc, rfl⟩ := List.mem_map.mp hp
      exact hwants.phi (hF.incoming_type v hv x hx) hx hc
  components hs := h.components (components_mark hs)

/-- Calls one after the other. -/
theorem foldlM_propagated (step : Analysis → Nat × Nat → Option Analysis) (n : Nat)
    (hstep : ∀ s p, p.1 < F.size → p.2 < F.width → unmarked F s ≤ n →
      ∃ s', step s p = some s' ∧ Propagated F [p] s s')
    (calls : List (Nat × Nat)) (hcalls : ∀ p ∈ calls, p.1 < F.size ∧ p.2 < F.width) (s : Analysis)
    (hn : unmarked F s ≤ n) : ∃ s', calls.foldlM step s = some s' ∧ Propagated F calls s s' := by
  induction calls generalizing s with
  | nil => exact ⟨s, rfl, .refl fun p hp => by cases hp⟩
  | cons p calls ih =>
    obtain ⟨hv, hindex⟩ := hcalls p List.mem_cons_self
    obtain ⟨s₁, hrun₁, h₁⟩ := hstep s p hv hindex hn
    obtain ⟨s₂, hrun₂, h₂⟩ := ih (fun q hq => hcalls q (List.mem_cons_of_mem p hq)) s₁
      ((unmarked_mono h₁.mono).trans hn)
    refine ⟨s₂, ?_, h₁.trans h₂⟩
    rw [List.foldlM_cons, hrun₁]
    exact hrun₂

/-- The accessed components are within the width. -/
theorem accessed_lt {fake : List CompositeType} {v index j : Nat} (hindex : index < F.width)
    (hj : j ∈ F.accessed fake v index) : j < F.width := by
  rcases mem_accessed.mp hj with rfl | ⟨-, hj⟩
  · exact hindex
  · exact hj.trans_le width_spec.1

/-- With fuel for every component that is not marked the recursion ends. -/
theorem analyzeExtractvalue_spec (hF : F.WellTyped) (fuel : Nat) (s : Analysis) (p : Nat × Nat)
    (hv : p.1 < F.size) (hindex : p.2 < F.width) (hfuel : unmarked F s < fuel) :
    ∃ s', analyzeExtractvalue F fuel s p = some s' ∧ Propagated F [p] s s' := by
  induction fuel generalizing s p with
  | zero => exact absurd hfuel (Nat.not_lt_zero _)
  | succ fuel ih =>
    obtain ⟨v, index⟩ := p
    by_cases hmarked : (F.accessed s.fakeStructTypes v index).toFinset ⊆ s.accessMask v
    · refine ⟨s, if_pos hmarked, .refl fun p hp j hj => ?_⟩
      obtain rfl := List.mem_singleton.mp hp
      exact hmarked (List.mem_toFinset.mpr hj)
    · obtain ⟨j, hj, hnot⟩ := Finset.not_subset.mp hmarked
      have hj := List.mem_toFinset.mp hj
      have hless : unmarked F (s.mark v (F.accessed s.fakeStructTypes v index)) < unmarked F s :=
        unmarked_mark hv (accessed_lt hindex hj) hj hnot
      obtain ⟨s', hrun, h⟩ := foldlM_propagated (analyzeExtractvalue F fuel) (fuel - 1)
        (fun s p hv hindex hn => ih s p hv hindex (by omega))
        ((F.incoming v).flatMap fun w => (F.accessed s.fakeStructTypes v index).map (w, ·))
        (fun p hp => by
          obtain ⟨w, hw, hp⟩ := List.mem_flatMap.mp hp
          obtain ⟨c, hc, rfl⟩ := List.mem_map.mp hp
          exact ⟨hF.incoming_lt v hv w hw, accessed_lt hindex hc⟩)
        (s.mark v (F.accessed s.fakeStructTypes v index)) (by omega)
      refine ⟨s', ?_, h.enter hF hv⟩
      rw [analyzeExtractvalue]
      exact (if_neg hmarked).trans hrun

variable {events : List Event}

/-- What the analysis has found after some events. -/
structure Analysed (F : Function) (events : List Event) (s : Analysis) : Prop where
  fake : s.fakeStructTypes = fakeStructTypesOf events
  mask : ∀ u j, j ∈ s.accessMask u ↔ ∃ before v index after,
    events = before ++ .extractValue v index :: after ∧
      Wants F (fakeStructTypesOf before) v index u j
  /-- What is accessed of a PHI is accessed of its values. -/
  closed : ∀ v, ∀ j ∈ s.accessMask v, ∀ w ∈ F.incoming v, j ∈ s.accessMask w
  components : ∀ v, s.components v = highest (s.accessMask v)

/-- What one more event adds to the fake types. -/
theorem fakeStructTypesOf_concat (event : Event) : fakeStructTypesOf (events ++ [event]) =
    addFakeStructType (fakeStructTypesOf events) event := by
  rw [fakeStructTypesOf, List.foldl_append]
  rfl

/-- Before the first event nothing is marked. -/
theorem Analysed.start : Analysed F [] {} where
  fake := rfl
  mask u j := by simp
  closed v j hj := by simp at hj
  components v := by simp [highest]

/-- An event of a longer list is one of the list, or the last. -/
theorem extractValue_concat_iff {Q : List Event → Nat → Nat → Prop} (event : Event) :
    (∃ before v index after, events ++ [event] = before ++ .extractValue v index :: after ∧
        Q before v index) ↔
      (∃ before v index after, events = before ++ .extractValue v index :: after ∧
        Q before v index) ∨ ∃ v index, event = .extractValue v index ∧ Q events v index := by
  constructor
  · rintro ⟨before, v, index, after, h, hQ⟩
    rcases List.eq_nil_or_concat after with rfl | ⟨after, last, rfl⟩
    · obtain ⟨rfl, hlast⟩ := List.append_inj' h rfl
      exact Or.inr ⟨v, index, (List.cons.inj hlast).1, hQ⟩
    · rw [List.concat_eq_append, ← List.cons_append, ← List.append_assoc] at h
      exact Or.inl ⟨before, v, index, after, (List.append_inj' h rfl).1, hQ⟩
  · rintro (⟨before, v, index, after, rfl, hQ⟩ | ⟨v, index, rfl, hQ⟩)
    · exact ⟨before, v, index, after ++ [event], by simp, hQ⟩
    · exact ⟨events, v, index, [], rfl, hQ⟩

/-- An operation may make its type a fake one and marks nothing. -/
theorem Analysed.dxOp (h : Analysed F events s) (type : CompositeType) :
    Analysed F (events ++ [.dxOp type])
      { s with fakeStructTypes := addFakeStructType s.fakeStructTypes (.dxOp type) } where
  fake := by rw [fakeStructTypesOf_concat, h.fake]
  mask u j := by
    rw [extractValue_concat_iff (Q := fun before v index =>
      Wants F (fakeStructTypesOf before) v index u j)]
    refine (h.mask u j).trans ⟨Or.inl, fun hcases => hcases.resolve_right ?_⟩
    rintro ⟨v, index, heq, -⟩
    cases heq
  closed := h.closed
  components := h.components

/-- A component that an access wants is marked, when what is accessed of PHIs is accessed of their
values. -/
theorem mem_of_flowsTo (hclosed : ∀ v, ∀ j ∈ s.accessMask v, ∀ w ∈ F.incoming v, j ∈ s.accessMask w)
    {u v j : Nat} (hflow : FlowsTo F u v) (hj : j ∈ s.accessMask v) : j ∈ s.accessMask u := by
  induction hflow with
  | refl => exact hj
  | tail _ hedge ih => exact ih (hclosed _ j hj _ hedge)

/-- An extraction marks what it propagates. -/
theorem Analysed.extractValue (h : Analysed F events s) {v index : Nat}
    (hrun : Propagated F [(v, index)] s s') :
    Analysed F (events ++ [.extractValue v index]) s' := by
  have hclosed : ∀ v, ∀ j ∈ s'.accessMask v, ∀ w ∈ F.incoming v, j ∈ s'.accessMask w := by
    intro v j hj w hw
    by_cases hold : j ∈ s.accessMask v
    · exact hrun.mono w (h.closed v j hold w hw)
    · exact hrun.closed v j hj hold w hw
  constructor
  · rw [fakeStructTypesOf_concat, hrun.fake, h.fake]
    rfl
  · intro u j
    rw [extractValue_concat_iff (Q := fun before v index =>
      Wants F (fakeStructTypesOf before) v index u j),
      ← h.mask u j]
    constructor
    · intro hj
      by_cases hold : j ∈ s.accessMask u
      · exact Or.inl hold
      · obtain ⟨p, hp, hwants⟩ := hrun.wanted u j hj hold
        obtain rfl := List.mem_singleton.mp hp
        exact Or.inr ⟨v, index, rfl, h.fake ▸ hwants⟩
    · rintro (hj | ⟨v', index', heq, hflow, hj⟩)
      · exact hrun.mono u hj
      · obtain ⟨rfl, rfl⟩ := Event.extractValue.inj heq
        refine mem_of_flowsTo hclosed hflow
          (hrun.entered (v, index) (List.mem_singleton.mpr rfl) j ?_)
        rw [h.fake]
        exact mem_accessed.mpr hj
  · exact hclosed
  · exact hrun.components h.components

/-- The analysis ends, and marks exactly the components that are demanded. -/
theorem analyze_spec (hF : F.WellTyped) {fuel : Nat} (hfuel : F.size * F.width < fuel) :
    ∃ s, analyze F fuel = some s ∧ Analysed F F.events s := by
  have hrun : ∀ events, (∀ event ∈ events, event ∈ F.events) →
      ∃ s, events.foldlM (analyzeEvent F fuel) {} = some s ∧ Analysed F events s := by
    intro events
    induction events using List.reverseRecOn with
    | nil => exact fun _ => ⟨{}, rfl, .start⟩
    | append_singleton events event ih =>
      intro hevents
      obtain ⟨s, hrun, hs⟩ := ih fun e he => hevents e (List.mem_append_left _ he)
      rw [List.foldlM_append, hrun]
      cases event with
      | dxOp type => exact ⟨_, rfl, hs.dxOp type⟩
      | extractValue v index =>
        have hmem := hevents _ (List.mem_append_right _ (List.mem_singleton.mpr rfl))
        obtain ⟨s', hcall, h⟩ := analyzeExtractvalue_spec hF fuel s (v, index)
          (hF.aggregate_lt v index hmem) (width_spec.2 v index hmem) (unmarked_le.trans_lt hfuel)
        refine ⟨s', ?_, hs.extractValue h⟩
        show (analyzeExtractvalue F fuel s (v, index) >>= pure) = some s'
        rw [hcall]
        rfl
  exact hrun F.events fun _ h => h

end DxilSpirv.Composites
