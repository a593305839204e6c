import DxilSpirv.Emission.Pseudo

/-!
# What emitted operations do

From the block at hand, the instructions that are emitted for operations do what the operations do,
whatever is emitted behind them.
-/

namespace DxilSpirv.Emission

open SpirvFunction Program
open Spv (Builder)

section Steps

variable {V W : Type} {m : Machine V W} {blocks : Nat → SpvBlock} {l : Nat} {rest : List Inst}
  {s : Config V W}

theorem step_op {op : SpvOp} (hop : op ∉ implicitTerminators) (id typeId : Nat)
    (arguments : List Argument) :
    step m blocks ⟨l, .op op id typeId arguments :: rest, s⟩ = .inl
      ⟨l, rest, m.step s { op, id, typeId, arguments }⟩ :=
  if_neg hop

theorem step_implicit {op : SpvOp} (hop : op ∈ implicitTerminators) (id typeId : Nat)
    (arguments : List Argument) :
    step m blocks ⟨l, .op op id typeId arguments :: rest, s⟩ =
      .inr (outcome (m.step s { op, id, typeId, arguments }) .implicit) :=
  if_pos hop

theorem leads_skipped {is : List Inst} (his : ∀ i ∈ is, i.skipped = true) :
    Leads (step m blocks) ⟨l, is ++ rest, s⟩ ⟨l, rest, s⟩ := by
  induction is with
  | nil => exact Leads.refl _
  | cons i is ih =>
    obtain ⟨hi, his⟩ := List.forall_mem_cons.mp his
    have hstep : step m blocks ⟨l, i :: is ++ rest, s⟩ = .inl ⟨l, is ++ rest, s⟩ := by
      cases i with
      | undef | selectionMerge | loopMerge => rfl
      | _ => exact absurd hi Bool.false_ne_true
    exact Leads.head hstep (ih his)

/-- A block without PHIs is started as it is. -/
theorem arrive_of_phis {source : Nat} (h : (blocks l).phis = []) :
    arrive blocks source l s = ⟨l, (blocks l).insts, s⟩ := by
  unfold arrive
  rw [h]
  rfl

end Steps

section Left

variable {V W : Type} {k l : Nat} {s s' B : SpirvFunction}

/-- What is put behind the instructions that a block has now. -/
def left (s B : SpirvFunction) (l : Nat) : List Inst :=
  (B.block l).insts.drop (s.block l).insts.length

theorem left_of_append {is : List Inst} (h : (s'.block l).insts = (s.block l).insts ++ is)
    (hB : Grows k s' B) :
    left s B l = is ++ left s' B l := by
  obtain ⟨more, hmore⟩ := hB.insts l
  unfold left
  rw [← hmore, List.drop_left, h, List.append_assoc, List.drop_left]

theorem left_of_empty (h : (s.block l).insts = []) : left s B l = (B.block l).insts := by
  unfold left
  rw [h]
  rfl

end Left

section Agreement

variable {V W : Type}

/-- Two configurations that agree on all ids of a program, and one of them has the null
constants. -/
structure Agree (K : Nat) (null : Nat → V) (builder : Builder) (s s' : Config V W) : Prop where
  env : ∀ x, 0 < x → x ≤ K → s'.env x = s.env x
  nulls : ∀ i ∈ builder.constantsTypesGlobals, i.opCode = .constantNull → K < i.resultId →
    s'.env i.resultId = null i.typeId
  memory : s'.memory = s.memory
  trace : s'.trace = s.trace

/-- The ids of an operation are those of a program, and a pseudo operation has its condition. -/
structure OpBelow (K : Nat) (op : Operation) : Prop where
  id : op.id ≤ K
  arguments : ∀ x, .id x ∈ op.arguments → 0 < x ∧ x ≤ K
  condition : op.op ∈ pseudoOps → ∃ x, condition op.arguments = some x
  load : op.op = pseudoOpMaskedLoad → op.id ≠ 0

variable {K : Nat} {null : Nat → V} {builder : Builder} {s s' : Config V W} {m : Machine V W}

theorem Agree.values (h : Agree K null builder s s') {arguments : List Argument}
    (hbelow : ∀ x, .id x ∈ arguments → 0 < x ∧ x ≤ K) :
    arguments.map (Argument.value s'.env) = arguments.map (Argument.value s.env) := by
  refine List.map_congr_left fun a ha => ?_
  cases a with
  | id x => exact congrArg Sum.inl (h.env x (hbelow x ha).1 (hbelow x ha).2)
  | literal w => rfl

/-- The same value for the same id of the program. -/
theorem Agree.update (h : Agree K null builder s s') {x : Nat} (hx : x ≤ K) (v : V) :
    Agree K null builder { s with env := Function.update s.env x v }
      { s' with env := Function.update s'.env x v } where
  env y hy hle := by
    by_cases hyx : y = x
    · change Function.update _ _ _ y = Function.update _ _ _ y
      rw [hyx, Function.update_self, Function.update_self]
    · exact (Function.update_of_ne hyx _ _).trans
        ((h.env y hy hle).trans (Function.update_of_ne hyx _ _).symm)
  nulls i hi hop hlt :=
    (Function.update_of_ne (Nat.ne_of_gt (lt_of_le_of_lt hx hlt)) _ _).trans (h.nulls i hi hop hlt)
  memory := h.memory
  trace := h.trace

/-- A value for an id that is neither of the program nor a null constant. -/
theorem Agree.update_fresh (h : Agree K null builder s s') {x : Nat} (hx : K < x)
    (hnull : ∀ i ∈ builder.constantsTypesGlobals, i.resultId ≠ x) (v : V) :
    Agree K null builder s { s' with env := Function.update s'.env x v } where
  env y hy hle := (Function.update_of_ne (Nat.ne_of_lt (lt_of_le_of_lt hle hx)) _ _).trans
    (h.env y hy hle)
  nulls i hi hop hlt := (Function.update_of_ne (hnull i hi) _ _).trans (h.nulls i hi hop hlt)
  memory := h.memory
  trace := h.trace

/-- What an operation does to a configuration, given its values. -/
theorem Agree.exec (h : Agree K null builder s s') (w : W) (event : Event V) :
    Agree K null builder { s with memory := w, trace := s.trace ++ [event] }
      { s' with memory := w, trace := s'.trace ++ [event] } :=
  ⟨h.env, h.nulls, rfl, congrArg (· ++ [event]) h.trace⟩

/-- Operations keep agreement. -/
theorem Agree.step (h : Agree K null builder s s') {op : Operation} (hid : op.id ≤ K)
    (hbelow : ∀ x, .id x ∈ op.arguments → 0 < x ∧ x ≤ K) :
    Agree K null builder (m.step s op) (m.step s' op) := by
  unfold Machine.step
  rw [h.values hbelow, h.memory]
  have hexec := h.exec (m.exec op.op op.typeId (op.arguments.map (Argument.value s.env)) s.memory).2
    ⟨op.op, op.typeId, op.arguments.map (Argument.value s.env)⟩
  split_ifs
  · exact hexec
  · exact hexec.update hid _

/-- What is left is the same. -/
theorem Agree.outcome (h : Agree K null builder s s') (ending : Ending V) :
    outcome s' ending = outcome s ending := by
  unfold Emission.outcome
  rw [h.memory, h.trace]

/-- A condition is true in both or in none. -/
theorem Agree.truth (h : Agree K null builder s s') {op : Operation} (hbelow : OpBelow K op)
    (hop : op.op ∈ pseudoOps) :
    m.truth (s'.env ((condition op.arguments).getD 0)) =
      m.truth (s.env ((condition op.arguments).getD 0)) := by
  obtain ⟨x, hx⟩ := hbelow.condition hop
  obtain ⟨a, ha, hax⟩ := Option.bind_eq_some_iff.mp hx
  have hmem : .id x ∈ op.arguments := by
    cases a with
    | id y => exact Option.some.inj hax ▸ List.mem_of_getLast? ha
    | literal w => exact absurd hax.symm (Option.some_ne_none x)
  rw [hx, Option.getD_some, h.env x (hbelow.arguments x hmem).1 (hbelow.arguments x hmem).2]

end Agreement

variable {V W : Type} {K : Nat} {null : Nat → V} {B : SpirvFunction} {s s' : Config V W}
  {m : Machine V W} {p : Place} {e : Emitting} {op : Operation}

/-- From one block at hand to the next, what is executed agrees with what operations do. -/
def RunsTo (m : Machine V W) (B : SpirvFunction) (K : Nat) (null : Nat → V) (e e' : Emitting)
    (s' : Config V W) (r : Config V W × Option (Ending V)) : Prop :=
  (∀ ending, r.2 = some ending →
      Gives (step m B.block) ⟨e.bb, left e.module B e.bb, s'⟩ (outcome r.1 ending)) ∧
    (r.2 = none → ∃ t', Leads (step m B.block) ⟨e.bb, left e.module B e.bb, s'⟩ ⟨e'.bb,
      left e'.module B e'.bb, t'⟩ ∧ Agree K null B.builder r.1 t')

/-- A load into an id of its own, and a PHI that takes it from there. -/
theorem Agree.masked_load (h : Agree K null B.builder s s') (hop : OpBelow K op) {innerId : Nat}
    (hinner : K < innerId) (hnull : ∀ i ∈ B.builder.constantsTypesGlobals, i.resultId ≠ innerId)
    (hid : op.id ≠ 0) {phi : PHI} (hphi : phi.id = op.id) {source : Nat}
    (hsource : phi.incomingFrom source = some innerId) :
    let t' := m.step s' { op := .opLoad, id := innerId, typeId := op.typeId, arguments :=
  op.arguments.dropLast }
    Agree K null B.builder (m.step s (unmasked op .opLoad op.id op.typeId))
      { t' with env := enter source [phi] t'.env } := by
  have hbelow : ∀ x, .id x ∈ op.arguments.dropLast → 0 < x ∧ x ≤ K := fun x hx =>
    hop.arguments x (List.dropLast_subset _ hx)
  have henter (e : Env V) : enter source [phi] e = Function.update e op.id (e innerId) := by
    change assign (PHI.incomingFrom source) e e phi = _
    unfold assign
    rw [hsource, hphi]
  dsimp only
  rw [henter]
  unfold Machine.step unmasked
  dsimp only
  rw [h.values hbelow, h.memory, if_neg hid,
    if_neg (Nat.ne_of_gt (lt_of_le_of_lt (Nat.zero_le K) hinner)),
    Function.update_self]
  exact ((h.exec _ _).update_fresh hinner hnull _).update hop.id _

/-- The block that comes next after a loop header is come to without any change. -/
theorem leaveHeader_leads (hok : e.Ok p)
    (hB : Grows (e.leaveHeader p).module.builder.uniqueId (e.leaveHeader p).module B) :
    Leads (step m B.block) ⟨e.bb, left e.module B e.bb, s'⟩
      ⟨(e.leaveHeader p).bb, left (e.leaveHeader p).module B (e.leaveHeader p).bb, s'⟩ := by
  obtain ⟨hgrows, hlabel, -, hbb, -, -, hcases⟩ := Emitting.leaveHeader_spec hok
  rcases hcases with ⟨hmodule, hsame⟩ | ⟨is, his, hlt, hempty, hinsts⟩
  · rw [hmodule, hsame]
    exact Leads.refl _
  · rw [left_of_append (hinsts.trans (List.append_assoc ..)) hB, List.append_assoc]
    refine (leads_skipped his).trans (Leads.head rfl ?_)
    have hfirst (n : Nat) : (e.leaveHeader p).module.label n ≠ (e.leaveHeader p).bb := by
      rw [hlabel]
      exact Nat.ne_of_lt (lt_of_le_of_lt (hok.fresh.label n) hlt)
    have hphis := hB.phis _ hbb hfirst
    rw [arrive_of_phis (hphis.trans (congrArg SpvBlock.phis hempty)),
      left_of_empty (congrArg SpvBlock.insts hempty)]
    exact Leads.refl _

/-- How control goes through the blocks of a pseudo operation: under its mask, or over it to the
block that comes next. -/
structure Selects (m : Machine V W) (B : SpirvFunction) (e e' : Emitting) (s' : Config V W)
    (holds : Bool) (bb inner merge : Nat) (insts : List Inst) (phis : List PHI) : Prop where
  past : holds = false → Leads (step m B.block) ⟨e.bb, left e.module B e.bb, s'⟩
    (arrive B.block bb merge s')
  inside : holds = true → ∃ more,
    Leads (step m B.block) ⟨e.bb, left e.module B e.bb, s'⟩ ⟨inner, insts ++ more, s'⟩
  phis : (B.block merge).phis = phis
  next : left e'.module B e'.bb = (B.block merge).insts
  bb : e'.bb = merge

theorem emitMasked_selects (hok : e.Ok p) (hop : OpBelow K op) (hpseudo : op.op ∈ pseudoOps)
    (hB : Grows (e.emitMasked p op).module.builder.uniqueId (e.emitMasked p op).module B)
    (hagree : Agree K null B.builder s s') {inner merge : Nat} {insts : List Inst} {phis : List PHI}
    (hmasked : Emitting.Masked p op (e.leaveHeader p) (e.emitMasked p op) inner merge)
    (hinner : (e.emitMasked p op).module.block inner = { insts })
    (hmerge : (e.emitMasked p op).module.block merge = { phis }) :
    Selects m B e (e.emitMasked p op) s' (m.truth (s.env ((condition op.arguments).getD 0)))
      (e.leaveHeader p).bb inner merge insts phis := by
  have hheader := (Emitting.leaveHeader_spec hok).1
  set e₁ := e.leaveHeader p
  set e' := e.emitMasked p op
  have hB₁ : Grows e₁.module.builder.uniqueId e₁.module B :=
    hmasked.grows.trans (hB.mono hmasked.grows.drawn)
  have hfirst (l : Nat) (hl : e₁.module.builder.uniqueId < l) (n : Nat) :
      e'.module.label n ≠ l := by
    rw [hmasked.label]
    exact Nat.ne_of_lt (lt_of_le_of_lt ((hheader.fresh hok.fresh).label n) hl)
  have hphis := hB.phis inner (hmasked.lt_merge.le.trans hmasked.drawn)
    (hfirst inner hmasked.lt_inner)
  have hphis' := hB.phis merge hmasked.drawn
    (hfirst merge (hmasked.lt_inner.trans hmasked.lt_merge))
  rw [hinner] at hphis
  rw [hmerge] at hphis'
  obtain ⟨more, hmore⟩ := hB.insts inner
  rw [hinner] at hmore
  -- The selection branches by the condition.
  have hselect : Leads (step m B.block) ⟨e.bb, left e.module B e.bb, s'⟩
      (arrive B.block e₁.bb (if m.truth (s.env ((condition op.arguments).getD 0)) then inner
          else merge) s') := by
    refine (leaveHeader_leads hok hB₁).trans ?_
    rw [left_of_append hmasked.selection hB, ← hagree.truth hop hpseudo]
    exact Leads.head rfl (Leads.head rfl (Leads.refl _))
  constructor
  case past =>
    intro h
    rw [h] at hselect
    exact hselect
  case inside =>
    intro h
    refine ⟨more, ?_⟩
    rw [h, if_pos rfl, arrive_of_phis hphis, ← hmore] at hselect
    exact hselect
  case phis => exact hphis'
  case next =>
    rw [hmasked.bb]
    exact left_of_empty (congrArg SpvBlock.insts hmerge)
  case bb => exact hmasked.bb

/-- A pseudo operation does in its blocks what it does. -/
theorem emitMasked_runs (hok : e.Ok p) (hK : K ≤ e.module.builder.uniqueId) (hop : OpBelow K op)
    (hpseudo : op.op ∈ pseudoOps)
    (hB : Grows (e.emitMasked p op).module.builder.uniqueId (e.emitMasked p op).module B)
    (hagree : Agree K null B.builder s s') :
    RunsTo m B K null e (e.emitMasked p op) s' (execute m null op s) := by
  have hmasked := Emitting.masked_emitMasked hok op
  obtain ⟨hheader, -, -, hbb, -⟩ := Emitting.leaveHeader_spec hok
  obtain ⟨insts, phis, hunder, hinner, hmerge⟩ := hmasked.under
  obtain ⟨hpast, hinside, hphis, hnext, hbb'⟩ :=
    emitMasked_selects (m := m) hok hop hpseudo hB hagree hmasked hinner hmerge
  set e₁ := e.leaveHeader p
  set e' := e.emitMasked p op
  set inner := e₁.module.builder.uniqueId + 1
  set merge := e₁.module.builder.uniqueId + 2
  set holds := m.truth (s.env ((condition op.arguments).getD 0))
  have hskip (h : holds = false) (hnone : phis = []) : ∃ t', Leads (step m B.block)
      ⟨e.bb, left e.module B e.bb, s'⟩ ⟨e'.bb, left e'.module B e'.bb, t'⟩ ∧
          Agree K null B.builder s t' := by
    refine ⟨s', ?_, hagree⟩
    rw [hnext, hbb', ← arrive_of_phis (hphis.trans hnone)]
    exact hpast h
  cases hunder with
  | ret hret =>
    have hexec : execute m null op s = (s, if holds then some (.ret none) else none) := if_pos hret
    rw [hexec]
    refine ⟨fun ending hending => ?_, fun hnone => ?_⟩
    · cases h : holds with
      | false => rw [h] at hending; exact absurd hending.symm (Option.some_ne_none ending)
      | true =>
        rw [h] at hending
        obtain ⟨more, henter⟩ := hinside h
        rw [← Option.some.inj hending, ← hagree.outcome]
        exact henter.gives (gives_of_step rfl)
    · cases h : holds with
      | false => exact hskip h rfl
      | true => rw [h] at hnone; exact absurd hnone (Option.some_ne_none _)
  | store hstore =>
    have hexec : execute m null op s =
        (if holds then m.step s (unmasked op .opStore 0 0) else s, none) := by
      unfold execute
      rw [if_neg (by rw [hstore]; decide), if_neg (by rw [hstore]; decide), if_pos hstore]
    rw [hexec]
    refine ⟨fun ending hending => absurd hending.symm (Option.some_ne_none ending), fun _ => ?_⟩
    cases h : holds with
    | false => exact hskip h rfl
    | true =>
      have hstored := @Agree.step V W K null B.builder s s' m hagree (unmasked op .opStore 0 0)
        (Nat.zero_le K) fun x hx => hop.arguments x (List.dropLast_subset _ hx)
      obtain ⟨more, henter⟩ := hinside h
      refine ⟨_, henter.trans (Leads.head (step_op (by decide) ..) (Leads.head rfl ?_)), hstored⟩
      rw [arrive_of_phis hphis, hnext, hbb']
      exact Leads.refl _
  | @load innerId null' hret hstore hfresh hinnerId hdrawn hless hnull =>
    have hload : op.op = pseudoOpMaskedLoad := by
      simpa [pseudoOps, hret, hstore] using hpseudo
    have hexec : execute m null op s = (if holds then m.step s (unmasked op .opLoad op.id op.typeId)
        else { s with env := Function.update s.env op.id (null op.typeId) }, none) := by
      unfold execute
      rw [if_neg hret, if_pos hload]
    have hK₁ : K < inner := lt_of_le_of_lt (hK.trans hheader.drawn) hmasked.lt_inner
    have hconstants (i : Spv.Instruction) (hi : i ∈ B.builder.constantsTypesGlobals) :
        i.resultId ≠ innerId :=
      (hB.constants i hi).elim (hinnerId i) fun hlt => Nat.ne_of_gt (lt_of_le_of_lt hdrawn hlt)
    rw [hexec]
    refine ⟨fun ending hending => absurd hending.symm (Option.some_ne_none ending), fun _ => ?_⟩
    cases h : holds with
    | false =>
      have hvalue : s'.env null' = null op.typeId := hagree.nulls _ (hB.kept hnull) rfl
        ((hK₁.trans hmasked.lt_merge).trans (hfresh.trans hless))
      have harrive : arrive B.block e₁.bb merge s' =
          ⟨merge, (B.block merge).insts,
              { s' with env := Function.update s'.env op.id (null op.typeId) }⟩ := by
        have hne : inner ≠ e₁.bb := Nat.ne_of_gt (lt_of_le_of_lt hbb hmasked.lt_inner)
        unfold arrive
        rw [hphis, ← hvalue]
        simp [enter, enterWith, assign, PHI.incomingFrom, hne]
      refine ⟨_, ?_, hagree.update hop.id (null op.typeId)⟩
      rw [hnext, hbb', ← harrive]
      exact hpast h
    | true =>
      have hloaded := @Agree.masked_load V W K null B s s' m op hagree hop innerId
        ((hK₁.trans hmasked.lt_merge).trans hfresh) hconstants (hop.load hload)
        { id := op.id,
          typeId := op.typeId, incoming := [⟨inner, innerId⟩, ⟨e₁.bb, null'⟩] } rfl inner
        (by simp [PHI.incomingFrom])
      obtain ⟨more, henter⟩ := hinside h
      refine ⟨_, henter.trans (Leads.head (step_op (by decide) ..) (Leads.head rfl ?_)), hloaded⟩
      rw [hnext, hbb']
      unfold arrive
      rw [hphis]
      exact Leads.refl _

/-- An operation does what it does. -/
theorem emitOperation_runs (hok : e.Ok p) (himplicit : e.implicitTerminator = false)
    (hK : K ≤ e.module.builder.uniqueId) (hop : OpBelow K op)
    (hB : Grows (e.emitOperation p op).module.builder.uniqueId (e.emitOperation p op).module B)
    (hagree : Agree K null B.builder s s') :
    RunsTo m B K null e (e.emitOperation p op) s' (execute m null op s) := by
  by_cases hpseudo : op.op ∈ pseudoOps
  · have hsame : e.emitOperation p op = e.emitMasked p op := by
      rw [Emitting.emitOperation, himplicit, if_neg Bool.false_ne_true, if_pos hpseudo]
    rw [hsame] at hB ⊢
    exact emitMasked_runs hok hK hop hpseudo hB hagree
  simp only [pseudoOps, List.mem_cons, List.not_mem_nil, or_false, not_or] at hpseudo
  have hmasked : ¬ op.op ∈ pseudoOps := by simpa [pseudoOps] using hpseudo
  by_cases hdropped : op.op ∈ dropped
  · have hsame : e.emitOperation p op = e := by
      rw [Emitting.emitOperation, himplicit, if_neg Bool.false_ne_true, if_neg hmasked,
        if_pos hdropped]
    have hexec : execute m null op s = (s, none) := by
      rw [execute, if_neg hpseudo.1, if_neg hpseudo.2.1, if_neg hpseudo.2.2, if_pos hdropped]
    rw [hsame, hexec]
    exact ⟨fun ending hending => absurd hending.symm (Option.some_ne_none ending),
      fun _ => ⟨s', Leads.refl _, hagree⟩⟩
  · have hsame : e.emitOperation p op =
        { e with
          module := e.module.addInst e.bb (.op op.op op.id op.typeId op.arguments)
          implicitTerminator := op.op ∈ implicitTerminators } := by
      rw [Emitting.emitOperation, himplicit, if_neg Bool.false_ne_true, if_neg hmasked,
        if_neg hdropped]
    have hexec : execute m null op s = (m.step s op,
        if op.op ∈ implicitTerminators then some .implicit else none) := by
      rw [execute, if_neg hpseudo.1, if_neg hpseudo.2.1, if_neg hpseudo.2.2, if_neg hdropped]
    have hstep := @Agree.step V W K null B.builder s s' m hagree op hop.id hop.arguments
    rw [hsame] at hB ⊢
    rw [hexec]
    have hleft : left e.module B e.bb = .op op.op op.id op.typeId op.arguments ::
        left (e.module.addInst e.bb (.op op.op op.id op.typeId op.arguments)) B e.bb := by
      refine @left_of_append _ e.bb e.module
        (e.module.addInst e.bb (.op op.op op.id op.typeId op.arguments)) B
        [.op op.op op.id op.typeId op.arguments] ?_ hB
      rw [addInst_block, if_pos rfl]
    refine ⟨fun ending hending => ?_, fun hnone => ⟨_, ?_, hstep⟩⟩
    · by_cases hlast : op.op ∈ implicitTerminators
      · rw [if_pos hlast] at hending
        rw [← Option.some.inj hending, ← hstep.outcome, hleft]
        exact gives_of_step (step_implicit hlast ..)
      · rw [if_neg hlast] at hending
        exact absurd hending.symm (Option.some_ne_none ending)
    · have hlast : op.op ∉ implicitTerminators := fun hlast => by
        rw [if_pos hlast] at hnone
        exact absurd hnone (Option.some_ne_none _)
      rw [hleft]
      exact Leads.head (step_op hlast ..) (Leads.refl _)

/-- Behind an operation that ends the block nothing more is emitted. -/
theorem implicit_emitOperation (hok : e.Ok p) (op : Operation) :
    (e.emitOperation p op).implicitTerminator =
      (e.implicitTerminator || decide (op.op ∈ implicitTerminators)) := by
  unfold Emitting.emitOperation
  split_ifs with himplicit hpseudo hdropped
  · rw [himplicit, Bool.true_or]
  · have hheader : (e.leaveHeader p).implicitTerminator = e.implicitTerminator := by
      unfold Emitting.leaveHeader
      split_ifs <;> rfl
    have hgoes_on : op.op ∉ implicitTerminators :=
        fun hlast => (by decide : ∀ o ∈ implicitTerminators, o ∉ pseudoOps) _ hlast hpseudo
    rw [(Emitting.masked_emitMasked hok op).implicit, hheader, decide_eq_false hgoes_on,
      Bool.or_false]
  · have hgoes_on : op.op ∉ implicitTerminators :=
      fun hlast => (by decide : ∀ o ∈ implicitTerminators, o ∉ dropped) _ hlast hdropped
    rw [decide_eq_false hgoes_on, Bool.or_false]
  · rw [Bool.eq_false_of_not_eq_true himplicit, Bool.false_or]

theorem implicit_emitOperations (hok : e.Ok p) (ops : List Operation) :
    (ops.foldl (Emitting.emitOperation p) e).implicitTerminator =
      (e.implicitTerminator || ops.any fun op => decide (op.op ∈ implicitTerminators)) := by
  induction ops generalizing e with
  | nil => exact (Bool.or_false _).symm
  | cons op ops ih =>
    rw [List.foldl_cons, ih (Emitting.emits_emitOperation hok op).ok, implicit_emitOperation hok,
      List.any_cons, Bool.or_assoc]

/-- An operation that ends the block ends the function. -/
theorem goes_on_of_execute (hnone : (execute m null op s).2 = none) :
    op.op ∉ implicitTerminators := by
  intro hlast
  have hpseudo := (by decide : ∀ o ∈ implicitTerminators, o ∉ pseudoOps) _ hlast
  have hdropped := (by decide : ∀ o ∈ implicitTerminators, o ∉ dropped) _ hlast
  simp only [pseudoOps, List.mem_cons, List.not_mem_nil, or_false, not_or] at hpseudo
  rw [execute, if_neg hpseudo.1, if_neg hpseudo.2.1, if_neg hpseudo.2.2, if_neg hdropped,
    if_pos hlast] at hnone
  exact Option.some_ne_none _ hnone

theorem goes_on_of_executeAll {ops : List Operation} (hnone : (executeAll m null ops s).2 = none) :
    (ops.any fun op => decide (op.op ∈ implicitTerminators)) = false := by
  induction ops generalizing s with
  | nil => rfl
  | cons op ops ih =>
    rw [executeAll] at hnone
    cases hending : (execute m null op s).2 with
    | some ending =>
      rw [hending, Option.isSome_some, if_pos rfl] at hnone
      exact absurd (hending.symm.trans hnone) (Option.some_ne_none ending)
    | none =>
      have hfirst : ¬ (none : Option (Ending V)).isSome = true := Bool.false_ne_true
      rw [hending, if_neg hfirst] at hnone
      rw [List.any_cons, decide_eq_false (goes_on_of_execute hending), ih hnone, Bool.or_false]

/-- Operations do one after the other what they do, up to the first one that ends the function. -/
theorem emitOperations_runs {ops : List Operation} (hok : e.Ok p)
    (himplicit : e.implicitTerminator = false)
    (hK : K ≤ e.module.builder.uniqueId) (hops : ∀ op ∈ ops, OpBelow K op)
    (hB : Grows (ops.foldl (Emitting.emitOperation p) e).module.builder.uniqueId
      (ops.foldl (Emitting.emitOperation p) e).module B)
    (hagree : Agree K null B.builder s s') :
    RunsTo m B K null e (ops.foldl (Emitting.emitOperation p) e) s' (executeAll m null ops s) := by
  induction ops generalizing e s s' with
  | nil => exact ⟨fun ending hending => absurd hending.symm (Option.some_ne_none ending),
    fun _ => ⟨s', Leads.refl _, hagree⟩⟩
  | cons op ops ih =>
    obtain ⟨hop, hops⟩ := List.forall_mem_cons.mp hops
    rw [List.foldl_cons] at hB ⊢
    have hfirst := Emitting.emits_emitOperation hok op
    have hrest := Emitting.emits_emitOperations hfirst.ok ops
    have hB₁ := hrest.grows.trans (hB.mono hrest.grows.drawn)
    obtain ⟨hgives, hleads⟩ := emitOperation_runs (m := m) hok himplicit hK hop hB₁ hagree
    rw [executeAll]
    cases hending : (execute m null op s).2 with
    | some ending =>
      rw [Option.isSome_some, if_pos rfl]
      exact ⟨hgives, fun hnone => absurd (hending.symm.trans hnone) (Option.some_ne_none ending)⟩
    | none =>
      have hnone : ¬ (none : Option (Ending V)).isSome = true := Bool.false_ne_true
      rw [if_neg hnone]
      obtain ⟨t', hlead, hagree'⟩ := hleads hending
      have himplicit' : (e.emitOperation p op).implicitTerminator = false := by
        rw [implicit_emitOperation hok, himplicit, decide_eq_false (goes_on_of_execute hending),
          Bool.or_false]
      obtain ⟨hgives', hleads'⟩ :=
        ih hfirst.ok himplicit' (hK.trans hfirst.grows.drawn) hops hB hagree'
      refine ⟨fun ending hending => hlead.gives (hgives' ending hending), fun hnone => ?_⟩
      obtain ⟨t'', hlead', hagree''⟩ := hleads' hnone
      exact ⟨t'', hlead.trans hlead', hagree''⟩

end DxilSpirv.Emission
