import DxilSpirv.Bitcode.RecordSafety

/-!
# Parsers that go wrong

The constants, the records at the top level and the function bodies, and with them the whole parser:
it goes wrong exactly when it meets a record that does not meet the condition of its kind.
-/

namespace DxilSpirv.Bitcode

open DxilSpirv.Program Stoppable

variable {c : Context}

/-! ## Constants -/

/-- Pushing a constant never goes wrong. -/
theorem sound_pushConstant (type : TypePtr) (contents : Contents) :
    Sound (pushConstant type contents) c := by
  unfold Sound pushConstant
  simp

/-- A null constant never goes wrong, whatever its type. -/
theorem sound_parseConstNull : Sound parseConstNull c := by
  unfold Sound parseConstNull
  simp only [safe_bind, safe_modifyGet, safe_get]
  cases c.getConstantType.2.heap.lookup c.getConstantType.1 <;>
    first | exact sound_pushConstant _ _ | simp

/-- Nor does an integer constant. -/
theorem sound_parseInteger (ops : List Nat) : Sound (parseInteger ops) c := by
  unfold Sound parseInteger
  simp only [safe_bind, safe_require, safe_modifyGet, safe_get]
  intro hlen
  cases c.getConstantType.2.heap.lookup c.getConstantType.1 with
  | integer width =>
    rw [safe_bind, safe_opAt]
    exact ⟨hlen, sound_pushConstant _ _⟩
  | _ => simp

/-- Nor does a floating point constant. -/
theorem sound_parseFloat (ops : List Nat) : Sound (parseFloat ops) c := by
  unfold Sound parseFloat
  simp only [safe_bind, safe_require, safe_modifyGet, safe_get, safe_opAt]
  exact fun hlen _ => ⟨hlen, sound_pushConstant _ _⟩

/-- Nor does an aggregate. -/
theorem sound_parseAggregate (ops : List Nat) : Sound (parseAggregate ops) c := by
  unfold Sound parseAggregate
  simp only [safe_bind, safe_modifyGet, safe_get]
  cases c.getConstantType.2.heap.lookup c.getConstantType.1 <;> simp [pushConstant]

/-- Nor does a data vector. -/
theorem sound_parseData (ops : List Nat) : Sound (parseData ops) c := by
  unfold Sound parseData
  simp only [safe_bind, safe_modifyGet, safe_get]
  cases c.getConstantType.2.heap.lookup c.getConstantType.1 with
  | array element n =>
    simp only [safe_bind, safe_pure]
    cases c.getConstantType.2.heap.lookup element <;> simp [pushConstant]
  | vector n element =>
    simp only [safe_bind, safe_pure]
    cases c.getConstantType.2.heap.lookup element <;> simp [pushConstant]
  | _ => simp

/-- A binary constant expression reads three operands, however many there are. -/
theorem sound_parseBinopExpr (ops : List Nat) : Sound (parseBinopExpr ops) c ↔ 3 ≤ ops.length := by
  unfold Sound parseBinopExpr
  simp [translateBinop, pushConstant]
  omega

/-- Asking for the type of the constants at hand does not change the types. -/
theorem getConstantType_getType (i : Nat) : c.getConstantType.2.getType i = c.getType i := by
  unfold Context.getConstantType
  cases c.constantType <;> rfl

/-- A cast of a constant reads two operands, and a third when the second is a type. -/
theorem sound_parseCeCast (ops : List Nat) :
    Sound (parseCeCast ops) c ↔
      2 ≤ ops.length ∧ (ops[1]?.bind c.getType ≠ none → 3 ≤ ops.length) := by
  unfold Sound parseCeCast
  by_cases h1 : 1 < ops.length
  · have h0 : 0 < ops.length := by omega
    cases ht : c.getType ops[1] with
    | none => simp [pushConstant, getConstantType_getType, h0, h1, ht, Nat.succ_le_of_lt h1]
    | some t =>
      simp [pushConstant, getConstantType_getType, h0, h1, ht, Nat.succ_le_of_lt h1]
      omega
  · simp [h1]
    omega

/-- Elements come in pairs. -/
theorem sound_gepElements (ops : List Nat) (c : Context) :
    Sound (gepElements ops) c ↔ ops.length % 2 = 0 := by
  unfold Sound
  induction ops using gepElements.induct generalizing c with
  | case1 => simp [gepElements]
  | case2 op => simp [gepElements]
  | case3 t op rest ih =>
    unfold gepElements
    simp [ih]
    omega

/-- What a pointer points to. -/
def Context.pointee (c : Context) (t : Option TypePtr) : Option TypePtr :=
  t.bind fun p =>
    match c.heap.lookup p with
    | .pointer pointee _ => some pointee
    | _ => none

/-- The elements of a constant address computation come in pairs, and its base is a pointer as far
as its type is used. -/
def Context.GepExprOk (c : Context) (inrange : Bool) (ops : List Nat) : Prop :=
  2 ≤ ops.length →
    let explicit : Bool := inrange || ops.length % 2 = 1
    let elementOps := ops.drop ((if explicit then 1 else 0) + if inrange then 1 else 0)
    let type := if explicit then ops[0]?.bind c.getType else none
    elementOps.length % 2 = 0 ∧
      ∀ elements c₁, gepElements elementOps c = .ok (elements, c₁) → 2 ≤ elements.length →
        let base := elements.head?.join
        (type = none → c₁.IsPointer (base.bind Value.getType)) ∧
          c₁.AddressOk base (type <|> c₁.pointee (base.bind Value.getType)) (elements.drop 2)

/-- An explicit type is the first operand, if there is one. -/
theorem safe_gepExplicitType (explicit : Bool) (ops : List Nat) (h0 : 0 < ops.length)
    {post : Option TypePtr → Context → Prop} :
    Safe Stop.IsMisuse (gepExplicitType explicit ops) c post ↔
      post (if explicit then ops[0]?.bind c.getType else none) c := by
  unfold gepExplicitType
  cases explicit <;> simp [h0]

/-- Without an explicit type the base has to have a pointer type. -/
theorem safe_gepPointeeType (type : Option TypePtr) (base : Option Value)
    {post : TypePtr → Context → Prop} :
    Safe Stop.IsMisuse (gepPointeeType type base) c post ↔
      (type = none → c.IsPointer (base.bind Value.getType)) ∧
        ∀ t, (type <|> c.pointee (base.bind Value.getType)) = some t → post t c := by
  unfold gepPointeeType Context.IsPointer Context.pointee
  cases type with
  | some t => simp
  | none =>
    cases base with
    | none => simp
    | some v =>
      cases hv : v.getType with
      | none => simp [hv]
      | some p => cases hp : c.heap.lookup p <;> simp [hv, hp, IRType.isPointer]

/-- A constant address goes wrong only under its condition. -/
theorem sound_parseGepExpr (inrange : Bool) (ops : List Nat) :
    Sound (parseGepExpr inrange ops) c ↔ c.GepExprOk inrange ops := by
  unfold Sound parseGepExpr Context.GepExprOk
  by_cases hlen : 2 ≤ ops.length
  · have h0 : 0 < ops.length := by omega
    simp only [safe_bind _ (require _), safe_require, hlen, forall_const]
    rw [safe_bind, safe_gepExplicitType _ _ h0, safe_bind, safe_iff]
    refine and_congr (sound_gepElements _ c)
      (forall₂_congr fun elements c₁ => forall_congr' fun _ => ?_)
    rw [safe_bind, safe_require]
    refine forall_congr' fun _ => ?_
    rw [safe_bind, safe_gepPointeeType]
    refine and_congr_right fun hpointer => ?_
    generalize (if (inrange || decide (ops.length % 2 = 1)) = true then ops[0]?.bind c.getType
      else none) = type at hpointer ⊢
    have haddress := fun t => sound_address (c := c₁) (k := fun resolved pointer => do
      let type ← modifyGet (·.makeType (.pointer resolved pointer.2))
      pushConstant type (.constantExpr .getElementPtr elements))
      (fun _ _ => by simp [Sound, pushConstant]) elements.head?.join t (elements.drop 2)
    obtain ⟨t, ht⟩ : ∃ t, (type <|> c₁.pointee (elements.head?.join.bind Value.getType)) =
        some t := by
      cases type with
      | some t => exact ⟨t, rfl⟩
      | none =>
        obtain ⟨p, hp, hlookup⟩ := hpointer rfl
        unfold Context.pointee
        rw [hp]
        cases h : c₁.heap.lookup p with
        | pointer pointee _ => exact ⟨pointee, by simp [h]⟩
        | _ => simp [h, IRType.isPointer] at hlookup
    rw [ht]
    simp only [Option.some.injEq, forall_eq']
    exact haddress (some t)
  · simp [hlen]

/-- When the parser of a constants record does not go wrong. -/
def Context.ConstantOk (c : Context) (entry : BlockOrRecord) : Prop :=
  entry.isBlock = false →
    match ConstantsRecord.ofId entry.id with
    | some .binop => 3 ≤ entry.ops.length
    | some .ceCast =>
      2 ≤ entry.ops.length ∧ (entry.ops[1]?.bind c.getType ≠ none → 3 ≤ entry.ops.length)
    | some .gep | some .inboundsGep => c.GepExprOk false entry.ops
    | some .gepWithInrangeIndex => c.GepExprOk true entry.ops
    | _ => True

/-- A record of constants goes wrong only under the condition of its kind. -/
theorem sound_parseConstantsRecord (entry : BlockOrRecord) (c : Context) :
    Sound (parseConstantsRecord entry) c ↔ c.ConstantOk entry := by
  unfold parseConstantsRecord Context.ConstantOk
  cases entry.isBlock with
  | true => simp [Sound]
  | false =>
    simp only [Bool.false_eq_true, ↓reduceIte, forall_const]
    cases ConstantsRecord.ofId entry.id with
    | none => simp [Sound]
    | some record =>
      cases record with
      | setType =>
        refine iff_true_intro ?_
        unfold Sound parseSetType
        simp
        omega
      | constNull => exact iff_true_intro sound_parseConstNull
      | undef =>
        refine iff_true_intro ?_
        unfold Sound parseUndef
        simp [pushConstant]
      | integer => exact iff_true_intro (sound_parseInteger _)
      | float => exact iff_true_intro (sound_parseFloat _)
      | aggregate => exact iff_true_intro (sound_parseAggregate _)
      | binop => exact sound_parseBinopExpr _
      | ceCast => exact sound_parseCeCast _
      | data => exact iff_true_intro (sound_parseData _)
      | gep => exact sound_parseGepExpr false _
      | inboundsGep => exact sound_parseGepExpr false _
      | gepWithInrangeIndex => exact sound_parseGepExpr true _

/-! ## Function bodies -/

/-- Attaching metadata never goes wrong. -/
theorem sound_attachMetadata (inst : ValuePtr) (ops : List Nat) (c : Context) :
    Sound (attachMetadata inst ops) c := by
  unfold Sound
  induction ops using attachMetadata.induct generalizing c with
  | case1 k m rest ih =>
    unfold attachMetadata
    simp only [safe_bind, safe_get, safe_orFalse]
    intro kind _ node _
    cases c.object inst <;> simp [ih]
  | case2 ops h =>
    unfold attachMetadata
    split
    · exact absurd rfl (h _ _ _)
    · trivial

/-- Nor does a record of attachments. -/
theorem sound_parseMetadataAttachmentRecord (entry : BlockOrRecord) (c : Context) :
    Sound (parseMetadataAttachmentRecord entry) c := by
  unfold Sound parseMetadataAttachmentRecord
  by_cases hid : entry.id ≠ 11
  · simp [hid]
  · simp only [hid, ↓reduceIte, safe_bind, safe_require, safe_opAt, safe_get, safe_orFalse]
    exact fun hlen => ⟨hlen, fun inst _ => sound_attachMetadata inst _ c⟩

/-- When the parser of a block or a record of a function body does not go wrong: the constants in a
constants block, and the records. -/
def Context.FunctionChildOk (c : Context) (entry : BlockOrRecord) : Prop :=
  if entry.isBlock then
    entry.id = 11 → Along (fun entry c => c.ConstantOk entry) parseConstantsRecord entry.children c
  else c.RecordOk entry

/-- A child of a function goes wrong only under the condition of its kind. -/
theorem sound_parseFunctionChild (entry : BlockOrRecord) (c : Context) :
    Sound (parseFunctionChild entry) c ↔ c.FunctionChildOk entry := by
  unfold parseFunctionChild Context.FunctionChildOk
  cases entry.isBlock with
  | false => exact sound_parseRecord entry c
  | true =>
    unfold parseFunctionChildBlock
    simp only [↓reduceIte]
    split
    · rename_i hid
      simp only [hid, forall_const]
      exact safe_forM _ sound_parseConstantsRecord _ c
    · rename_i hid
      simp only [hid]
      exact iff_of_true (safe_forM_of_forall _ sound_parseMetadataAttachmentRecord _ c) nofun
    · rename_i hid _
      exact iff_of_true trivial fun h => absurd h hid

/-- Both parts of a parser do not go wrong. -/
theorem sound_bind {α β : Type} {m : Parser α} {f : α → Parser β} (hm : Sound m c)
    (hf : ∀ a c, Sound (f a) c) : Sound (m >>= f) c := by
  unfold Sound
  rw [safe_bind, safe_iff]
  exact ⟨hm, fun a c' _ => hf a c'⟩

/-- Resolving a reference never goes wrong. -/
theorem sound_resolveReference (ref : Nat) (c : Context) : Sound (resolveReference ref) c := by
  unfold Sound resolveReference
  simp

/-- Resolving the entries of a PHI never goes wrong. -/
theorem sound_resolveIncoming (incoming : List (Value × BlockPtr)) (c₀ c : Context) :
    Sound (c₀.resolveIncoming incoming) c := by
  unfold Sound
  induction incoming generalizing c with
  | nil => trivial
  | cons x rest ih =>
    unfold Context.resolveIncoming
    simp [ih]

/-- Nor does resolving the operands of an instruction. -/
theorem sound_resolveProxyValues (inst : ValuePtr) (c : Context) :
    Sound (resolveProxyValues inst) c := by
  unfold Sound resolveProxyValues
  rw [safe_bind, safe_get]
  split
  · exact sound_bind (sound_resolveIncoming _ c c) fun _ _ => trivial
  · trivial
  · trivial

/-- Nor does resolving all that was referred to before it was there. -/
theorem sound_resolveForwardReferences (c : Context) : Sound resolveForwardReferences c := by
  refine sound_bind (m := get) trivial fun c₀ c₁ => ?_
  refine sound_bind (safe_forM_of_forall _ sound_resolveReference _ c₁) fun _ c₂ => ?_
  refine sound_bind (m := modify _) trivial fun _ c₃ => ?_
  refine sound_bind (m := get) trivial fun c₄ c₅ => ?_
  exact safe_forM_of_forall _ sound_resolveProxyValues _ c₅

/-- The initializer of a global variable is looked up without a type. -/
theorem sound_resolveInitialization (ref : ValuePtr × Nat) (c : Context) :
    Sound (resolveInitialization ref) c := by
  unfold Sound resolveInitialization
  rcases getValue_none_object (c := c) ref.2 true with h | ⟨p, t, h⟩
  · simp [h]
  · simp only [safe_bind, safe_modifyGet, h, safe_orFalse, Option.some.injEq, forall_eq', safe_get,
      safe_deref, Context.resolveProxy, exists_eq_left', safe_require]
    intro _
    cases (c.getValue ref.2 none true).2.object ref.1 <;> trivial

/-- Nor does resolving the initializers of global variables. -/
theorem sound_resolveGlobalInitializations (c : Context) :
    Sound resolveGlobalInitializations c := by
  refine sound_bind (m := get) trivial fun c₀ c₁ => ?_
  exact sound_bind (safe_forM_of_forall _ sound_resolveInitialization _ c₁) fun _ _ => trivial

/-- Taking the next function that has a body never goes wrong. -/
theorem sound_takeFunction (c : Context) : Sound takeFunction c := by
  unfold Sound takeFunction
  simp

/-- An argument needs a type. -/
theorem sound_addArgument (function : ValuePtr) (param : Option TypePtr × Nat) (c : Context) :
    Sound (addArgument function param) c ↔ param.1 ≠ none := by
  have hvalue := fun c value => safe_addValue (c := c) value param.1
  unfold Sound at hvalue
  unfold Sound addArgument
  simp only [safe_bind, safe_modifyGet, safe_get]
  cases (c.construct (.argument param.2)).2.object function <;> simp [hvalue]

/-- An argument is only not added for want of a type. -/
theorem addArgument_runs (function : ValuePtr) (param : Option TypePtr × Nat) (c : Context)
    (h : param.1 ≠ none) : ∃ c', addArgument function param c = .ok ((), c') := by
  obtain ⟨t, ht⟩ := Option.ne_none_iff_exists'.mp h
  have hvalue : ∀ (c : Context) value, ∃ c', addValue value param.1 c = .ok ((), c') := by
    intro c value
    rw [ht]
    unfold addValue
    by_cases hvoid : c.heap.lookup t ≠ .void
    · exact ⟨_, bind_runs.mpr ⟨t, c, rfl, bind_runs.mpr ⟨c, c, rfl, by rw [if_pos hvoid]; rfl⟩⟩⟩
    · exact ⟨c, bind_runs.mpr ⟨t, c, rfl, bind_runs.mpr ⟨c, c, rfl, by rw [if_neg hvoid]; rfl⟩⟩⟩
  unfold addArgument
  simp only [bind_runs, modifyGet_runs, get_runs]
  generalize hc₁ : c.construct (.argument param.2) = r
  cases hobject : r.2.object function with
  | function functionType id attributes arguments blocks =>
    obtain ⟨c', hc'⟩ := hvalue (r.2.setObject function
      (.function functionType id attributes (arguments ++ [r.1]) blocks)) r.1
    refine ⟨c', r.1, r.2, rfl, r.2, r.2, ⟨rfl, rfl⟩, ?_⟩
    simp only [hobject]
    exact bind_runs.mpr ⟨⟨⟩, _, rfl, hc'⟩
  | _ =>
    obtain ⟨c', hc'⟩ := hvalue r.2 r.1
    refine ⟨c', r.1, r.2, rfl, r.2, r.2, ⟨rfl, rfl⟩, ?_⟩
    simp only [hobject]
    exact hc'

/-- When the parser of a function body does not go wrong: the parameters have types, and the parsers
of its blocks and records do not go wrong. -/
def Context.FunctionBodyOk (c : Context) (entry : BlockOrRecord) : Prop :=
  ∀ function c₁, takeFunction c = .ok (function, c₁) →
    let params := (c₁.functionType function).params
    (∀ t ∈ params, t ≠ none) ∧
      ∀ c₂, (params.zip (List.range params.length)).forM (addArgument function) c₁ = .ok ((), c₂) →
        Along (fun entry c => c.FunctionChildOk entry) parseFunctionChild entry.children c₂

/-- A body goes wrong only where one of its children does, in the state it is parsed in. -/
theorem sound_parseFunctionBody (entry : BlockOrRecord) (c : Context) :
    Sound (parseFunctionBody entry) c ↔ c.FunctionBodyOk entry := by
  unfold Sound parseFunctionBody Context.FunctionBodyOk
  rw [safe_bind, safe_get, safe_bind, safe_iff]
  refine (and_iff_right (sound_takeFunction c)).trans ?_
  refine forall₂_congr fun function c₁ => forall_congr' fun _ => ?_
  rw [safe_bind, safe_get, safe_bind, safe_iff, safe_forM _ (sound_addArgument function),
    along_iff_forall fun param c hparam => addArgument_runs function param c hparam]
  refine and_congr ?_ ⟨fun h c₂ hrun => ?_, fun h _ c₂ hrun => ?_⟩
  · have hparams : ((c₁.functionType function).params.zip
        (List.range (c₁.functionType function).params.length)).map Prod.fst =
          (c₁.functionType function).params := List.map_fst_zip (by rw [List.length_range])
    conv_rhs => rw [← hparams, List.forall_mem_map]
  · have hchildren := h () c₂ hrun
    rw [safe_bind, safe_iff, safe_forM _ sound_parseFunctionChild] at hchildren
    exact hchildren.1
  · rw [safe_bind, safe_iff, safe_forM _ sound_parseFunctionChild]
    refine ⟨h c₂ hrun, fun _ c₃ _ => ?_⟩
    refine sound_bind (sound_resolveForwardReferences c₃) fun _ c₄ => ?_
    exact sound_bind (sound_resolveGlobalInitializations c₄) fun _ c₅ => trivial

/-! ## The top level -/

/-- A type never goes wrong. -/
theorem sound_parseType (entry : BlockOrRecord) (c : Context) : Sound (parseType entry) c := by
  unfold Sound parseType
  cases TypeRecord.ofId entry.id with
  | none => simp
  | some record =>
    cases record with
    | integer =>
      simp [parseIntegerType, addCachedType, addType]
      omega
    | pointer =>
      simp [parsePointerType, addCachedType, addType]
      grind
    | array =>
      simp [parseArrayType, addCachedType, addType]
      grind
    | vector =>
      simp [parseVectorType, addCachedType, addType]
      grind
    | structAnon => simp [parseStructType, addCachedType, addType]
    | structNamed => simp [parseStructType, addCachedType, addType]
    | function =>
      simp [parseFunctionType, addType]
      omega
    | _ => trivial

/-- An entry of the symbol table never goes wrong. -/
theorem sound_parseSymtabEntry (entry : BlockOrRecord) (c : Context) :
    Sound (parseSymtabEntry entry) c := by
  unfold Sound parseSymtabEntry
  simp
  omega

/-- A record of metadata never goes wrong. -/
theorem sound_parseMetadataRecord (x : BlockOrRecord × Nat) (c : Context) :
    Sound (parseMetadataRecord x.1 x.2) c := by
  unfold Sound parseMetadataRecord
  cases MetaDataRecord.ofId x.1.id with
  | none => trivial
  | some record =>
    cases record with
    | value =>
      unfold parseMetadataValue
      simp only [safe_bind, safe_require, safe_opAt, safe_modifyGet, safe_orFalse,
        safe_get, safe_deref]
      refine fun hlen => ⟨hlen, fun value hvalue => ?_⟩
      rcases getValue_none_object (c := c) x.1.ops[1] true with h | ⟨p, t, h⟩
      · exact absurd (h.symm.trans hvalue) (by simp)
      · obtain rfl := Option.some.inj (h.symm.trans hvalue)
        exact ⟨(p, t), rfl, fun _ => trivial⟩
    | kind =>
      simp [parseMetadataKind]
      omega
    | _ => trivial

/-- A list of attribute groups never goes wrong. -/
theorem sound_parseParamattr (entry : BlockOrRecord) (c : Context) :
    Sound (parseParamattr entry) c := by
  unfold Sound parseParamattr
  simp

/-- What follows a string that a zero ends. -/
def afterString : List Nat → Option (List Nat)
  | [] => none
  | op :: ops => if op = 0 then some ops else afterString ops

/-- A string has to end in the record. -/
theorem safe_readString (ops : List Nat) {post : List Nat × List Nat → Context → Prop}
    {p : List Nat → Prop} (hpost : ∀ s rest, post (s, rest) c ↔ p rest) :
    Safe Stop.IsMisuse (readString ops) c post ↔ ∃ rest, afterString ops = some rest ∧ p rest := by
  induction ops generalizing post with
  | nil => simp [readString, afterString]
  | cons op ops ih =>
    unfold readString afterString
    by_cases hop : op = 0
    · simp [hop, hpost]
    · simp only [hop, ↓reduceIte, safe_bind, safe_pure]
      exact ih fun s rest => hpost _ rest

/-- The strings among the attributes of a group end. -/
def AttributesOk : Nat → List Nat → Prop
  | 0, _ => True
  | _, [] => True
  | fuel + 1, form :: ops =>
    if form = 0 then AttributesOk fuel (ops.drop 1)
    else if form = 1 then
      AttributesOk fuel (ops.drop (if attributeHasValue (ops.headD 0) then 2 else 1))
    else if form = 3 then ∃ rest, afterString ops = some rest ∧ AttributesOk fuel rest
    else if form = 4 then ∃ kind, afterString ops = some kind ∧ ∃ rest,
      afterString kind = some rest ∧ AttributesOk fuel rest
    else if form = 5 ∨ form = 6 then
      AttributesOk fuel (ops.drop (if ops.headD 0 % 2 ^ 32 = 3 ∧ form = 6 then 2 else 1))
    else True

/-- The attributes of a group have to be complete. -/
theorem sound_groupAttributes (fuel : Nat) (ops : List Nat) :
    Sound (groupAttributes fuel ops) c ↔ AttributesOk fuel ops := by
  unfold Sound
  induction fuel generalizing ops with
  | zero => simp [groupAttributes, AttributesOk]
  | succ fuel ih =>
    have hnil : AttributesOk fuel [] := by
      cases fuel <;> trivial
    cases ops with
    | nil => simp [groupAttributes, AttributesOk]
    | cons form ops =>
      unfold groupAttributes AttributesOk
      by_cases h0 : form = 0
      · simp only [h0, ↓reduceIte]
        cases ops with
        | nil => simp [hnil]
        | cons op rest => exact ih rest
      by_cases h1 : form = 1
      · simp only [h1, ↓reduceIte]
        cases ops with
        | nil => simp [hnil]
        | cons code rest =>
          cases hcode : attributeHasValue code with
          | false => simp [hcode, ih]
          | true => cases rest <;> simp [hcode, ih, hnil]
      by_cases h3 : form = 3
      · simp only [h3, OfNat.ofNat_ne_zero, OfNat.ofNat_ne_one, ↓reduceIte, true_or]
        rw [safe_bind]
        refine safe_readString (p := AttributesOk fuel) ops fun s rest => ?_
        simp [ih]
      by_cases h4 : form = 4
      · simp only [h4, OfNat.ofNat_ne_zero, OfNat.ofNat_ne_one, Nat.succ_ne_self,
          ↓reduceIte, or_true]
        rw [safe_bind]
        refine safe_readString (p := fun kind => ∃ rest, afterString kind = some rest ∧
          AttributesOk fuel rest) ops fun s kind => ?_
        rw [safe_bind]
        refine safe_readString (p := AttributesOk fuel) kind fun s rest => ?_
        simp [ih]
      by_cases h56 : form = 5 ∨ form = 6
      · simp only [h0, h1, h3, h4, h56, or_self, ↓reduceIte]
        cases ops with
        | nil => simp [hnil]
        | cons code rest =>
          by_cases hcode : code % 2 ^ 32 = 3 ∧ form = 6
          · simp only [hcode, and_self, ↓reduceIte, List.headD_cons, List.drop_succ_cons]
            cases rest <;> simp [ih, hnil]
          · simp only [hcode, ↓reduceIte, List.headD_cons, List.drop_succ_cons, List.drop_zero]
            exact ih rest
      · simp [h0, h1, h3, h4, h56]

/-- When the parser of an attribute group does not go wrong. -/
def GroupOk (entry : BlockOrRecord) : Prop :=
  entry.isBlock = false → entry.id = 3 → 3 ≤ entry.ops.length → entry.ops[1]? = some (2 ^ 32 - 1) →
    AttributesOk entry.ops.length (entry.ops.drop 2)

/-- A group of attributes goes wrong only under its condition. -/
theorem sound_parseParamattrGroup (entry : BlockOrRecord) (c : Context) :
    Sound (parseParamattrGroup entry) c ↔ GroupOk entry := by
  unfold Sound parseParamattrGroup GroupOk
  by_cases hskip : entry.isBlock = true ∨ entry.id ≠ 3
  · rw [if_pos hskip]
    refine iff_of_true trivial fun hblock hid => absurd hskip ?_
    simp [hblock, hid]
  · rw [if_neg hskip]
    obtain ⟨hblock, hid⟩ : entry.isBlock = false ∧ entry.id = 3 := by
      simpa using hskip
    by_cases hlen : 3 ≤ entry.ops.length
    · have h0 : 0 < entry.ops.length := by omega
      have h1 : 1 < entry.ops.length := by omega
      have hop : entry.ops[1]? = some entry.ops[1] := List.getElem?_eq_getElem h1
      simp only [hblock, hid, hlen, hop, forall_const, safe_bind _ (require _), safe_require,
        safe_bind _ (opAt _ _), safe_opAt, exists_prop_of_true h0, exists_prop_of_true h1,
        Option.some.injEq]
      by_cases hindex : entry.ops[1] = 2 ^ 32 - 1
      · rw [if_neg (not_not_intro hindex), safe_bind, safe_modifyGet, safe_bind]
        simp only [safe_modify, hindex, forall_const]
        exact sound_groupAttributes _ _
      · rw [if_pos hindex]
        exact iff_of_true trivial fun h => absurd h hindex
    · simp [hlen]

/-- A pointer type in the heap. -/
theorem isPointer_iff (t : Option TypePtr) :
    c.IsPointer t ↔ ∃ p, t = some p ∧ ∃ e a, c.heap.lookup p = .pointer e a := by
  refine exists_congr fun p => and_congr_right fun _ => ?_
  cases c.heap.lookup p <;> simp [IRType.isPointer]

/-- When the parser of a global variable does not go wrong. -/
def Context.GlobalVariableOk (c : Context) (entry : BlockOrRecord) : Prop :=
  c.useStrtab = false → 4 ≤ entry.ops.length → ∀ flags, entry.ops[1]? = some flags →
    flags.testBit 1 = false → c.IsPointer (entry.ops[0]?.bind c.getType)

/-- A global variable goes wrong only under its condition. -/
theorem sound_parseGlobalVariableRecord (entry : BlockOrRecord) (c : Context) :
    Sound (parseGlobalVariableRecord entry) c ↔ c.GlobalVariableOk entry := by
  unfold Sound parseGlobalVariableRecord Context.GlobalVariableOk
  by_cases hlen : 4 ≤ entry.ops.length
  · have h0 : 0 < entry.ops.length := by omega
    have h1 : 1 < entry.ops.length := by omega
    have h2 : 2 < entry.ops.length := by omega
    have h3 : 3 < entry.ops.length := by omega
    simp [hlen, h0, h1, h2, h3, isPointer_iff]
  · simp [hlen]

/-- When the parser of a function does not go wrong: its type is a function type or a pointer to
one. -/
def Context.FunctionOk (c : Context) (entry : BlockOrRecord) : Prop :=
  c.useStrtab = false → 3 ≤ entry.ops.length → ∀ t, entry.ops[0]?.bind c.getType = some t →
    c.IsFunction (some t) ∨ (c.IsPointer (some t) ∧ c.IsFunction (c.pointee (some t)))

/-- The type of a function is a function type or points to one. -/
theorem sound_recordFunctionType (t : TypePtr) :
    Sound (recordFunctionType t) c ↔
      c.IsFunction (some t) ∨ (c.IsPointer (some t) ∧ c.IsFunction (c.pointee (some t))) := by
  unfold Sound recordFunctionType Context.IsFunction Context.pointee
  simp only [safe_bind, safe_get, isPointer_iff]
  cases h : c.heap.lookup t <;> simp [h]

/-- A function record goes wrong only under its condition. -/
theorem sound_parseFunctionRecord (entry : BlockOrRecord) (c : Context) :
    Sound (parseFunctionRecord entry) c ↔ c.FunctionOk entry := by
  unfold Sound parseFunctionRecord Context.FunctionOk
  by_cases hlen : 3 ≤ entry.ops.length
  · have h0 : 0 < entry.ops.length := by omega
    have h2 : 2 < entry.ops.length := by omega
    have htype := fun t => sound_recordFunctionType (c := c) t
    unfold Sound at htype
    simp [hlen, h0, h2, htype]
  · simp [hlen]

/-- A version record never goes wrong. -/
theorem sound_parseVersionRecord (entry : BlockOrRecord) (c : Context) :
    Sound (parseVersionRecord entry) c := by
  unfold Sound parseVersionRecord
  simp
  omega

/-- When the parser of a block or a record at the top level does not go wrong. -/
def Context.ModuleChildOk (c : Context) (entry : BlockOrRecord) : Prop :=
  if entry.isBlock then
    match entry.id with
    | 12 => c.FunctionBodyOk entry
    | 11 => Along (fun entry c => c.ConstantOk entry) parseConstantsRecord entry.children
        { c with constantType := none }
    | 10 => c.attributeGroups.isEmpty = true →
        Along (fun entry _ => GroupOk entry) parseParamattrGroup entry.children c
    | _ => True
  else
    match entry.id with
    | 8 => c.FunctionOk entry
    | 7 => c.GlobalVariableOk entry
    | _ => True

/-- A child of the module goes wrong only under the condition of its kind. -/
theorem sound_parseModuleChild (entry : BlockOrRecord) (c : Context) :
    Sound (parseModuleChild entry) c ↔ c.ModuleChildOk entry := by
  unfold parseModuleChild Context.ModuleChildOk
  cases entry.isBlock with
  | true =>
    simp only [↓reduceIte]
    split <;> rename_i hid
    · simp only [hid]
      exact iff_true_intro (safe_forM_of_forall _ sound_parseSymtabEntry _ c)
    · simp only [hid]
      exact sound_parseFunctionBody entry c
    · simp only [hid]
      exact iff_true_intro (safe_forM_of_forall _ sound_parseType _ c)
    · simp only [hid]
      exact safe_forM _ sound_parseConstantsRecord _ _
    · simp only [hid]
      exact iff_true_intro (safe_forM_of_forall _ sound_parseMetadataRecord _ c)
    · simp only [hid]
      exact iff_true_intro (safe_forM_of_forall _ sound_parseParamattr _ c)
    · simp only [hid]
      unfold Sound parseParamattrGroupBlock
      rw [safe_bind, safe_get, safe_bind, safe_require, safe_forM _ sound_parseParamattrGroup]
    · exact iff_of_true trivial (by split <;> first | contradiction | trivial)
  | false =>
    simp only [Bool.false_eq_true, ↓reduceIte]
    split <;> rename_i hid
    · simp only [hid]
      exact iff_true_intro (sound_parseVersionRecord entry c)
    · simp only [hid]
      exact sound_parseFunctionRecord entry c
    · simp only [hid]
      exact sound_parseGlobalVariableRecord entry c
    · exact iff_of_true trivial (by split <;> first | contradiction | trivial)

/-- When the parser of a module does not go wrong. -/
def Context.ModuleOk (c : Context) (toplevel : BlockOrRecord) : Prop :=
  toplevel.id = 8 →
    Along (fun entry c => c.ModuleChildOk entry) parseModuleChild toplevel.children c

/-- For every tree of blocks and records: parsing it ends with a module or with failure, without an
index out of bounds, a null pointer or a bad cast on the way, exactly when every block and record
that is parsed meets the condition of its kind in the state it is parsed in. -/
theorem parseIR_safe_iff (toplevel : BlockOrRecord) (c : Context) :
    (∀ m, parseIR toplevel c ≠ .error (.misuse m)) ↔ c.ModuleOk toplevel := by
  have hsafe : Sound (parseIR toplevel) c ↔ c.ModuleOk toplevel := by
    unfold Sound parseIR Context.ModuleOk
    rw [safe_bind, safe_require, safe_forM _ sound_parseModuleChild]
  rw [← hsafe]
  unfold Sound Safe
  cases parseIR toplevel c with
  | ok r => exact iff_of_true (fun _ => nofun) trivial
  | error e =>
    cases e with
    | returnFalse => exact iff_of_true (fun _ => nofun) id
    | misuse m => exact iff_of_false (fun h => h m rfl) (not_not_intro trivial)

/-- A binary constant expression without operands reads past their end. -/
theorem parseIR_not_safe : ¬ ∀ (toplevel : BlockOrRecord) (c : Context),
    ∀ m, parseIR toplevel c ≠ .error (.misuse m) := by
  intro h
  exact h (.block 8 [.block 11 [.record 10 []]]) {} .outOfBounds rfl

end DxilSpirv.Bitcode
